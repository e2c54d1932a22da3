import EslTokio.Library.IndexMap
import EslTokio.Library.Utf8
import EslTokio.SwitchPasses.Escape
import EslTokio.SwitchPasses.OriginateLegs

/-!
# Channel variables of a dial string

`freeswitch-types/src/commands/variables/mod.rs`: ordered channel variables of one scope, the checks
a configuration load runs over them, their rendering for a target, and the parse that reads a block
back through every pass of the switch.

* `Variables.deserialize` — what a configuration load accepts.
* `Variables.writeFor`, `Variables.displayFor` — the block rendered for a target.
* `Variables.parseFor`, `Variables.fromBlock` — the block read back.
-/

namespace EslTokio

open Library SwitchPasses

/-- Why no escaping carries a key. -/
def keyFault (key : Text) (scope : VariablesType) : Option Text :=
  if key = [] then some "is empty, which the switch installs under no name".toList
  else if '[' ∈ key then
    some ("carries '[', which the switch reads as an array index, installing the value " ++
      "under the text before it").toList
  else if splitsIntoThreads key = true then
    some ("carries the enterprise separator :_:, on which the switch splits " ++
      "the dial string into threads whatever quoting or escaping surrounds it").toList
  else if scope = .channel ∧ '\'' ∈ key then
    some ("carries a single quote in channel scope, which the switch pairs with the next " ++
      "quote in the dial string before it parses the block").toList
  else unbalanced key scope.delimiters

/-- Reject a key no escaping carries. -/
def checkKey (key : Text) (scope : VariablesType) : Except OriginateError Unit :=
  match keyFault key scope with
  | none => .ok ()
  | some fault => .error (.parseError ("a variable name ".toList ++ fault))

/-- Why no escaping carries a value. -/
def valueFault (value : Text) (scope : VariablesType) : Option Text :=
  if splitsIntoThreads value = true then
    some ("carries the enterprise separator :_:, on which " ++
      "the switch splits the dial string into threads whatever quoting or escaping " ++
      "surrounds it").toList
  else if scope = .channel ∧ '\'' ∈ value then
    some ("carries a single quote in channel scope: the switch " ++
      "pairs it with the next quote in the dial string before it parses " ++
      "the block, whatever escaping precedes either. Use default scope, " ++
      "or keep the quote out of the value").toList
  else if value = [] then
    some ("has an empty value: the switch discards such a pair " ++
      "without logging it, so it cannot be told from an absent variable on " ++
      "the wire. Give it a value or remove it -- and if its presence was " ++
      "itself the signal, that signal needs a home outside the dial string").toList
  else unbalanced value scope.delimiters

/-- Reject a pair no escaping carries. -/
def checkRepresentable (key value : Text) (scope : VariablesType) : Except OriginateError Unit := do
  checkKey key scope
  match valueFault value scope with
  | none => .ok ()
  | some fault => .error (.parseError ("variable ".toList ++ key ++ ' ' :: fault))

/-- Reject a key naming, but for ASCII case, an earlier one. -/
def checkCaseCollision (earlier : List Text) (key : Text) (index : Nat) :
    Except OriginateError Unit :=
  if (earlier.any fun name => name ≠ key && sameHeader name key) = true then
    .error (.parseError ("variable ".toList ++ Text.ofNat index ++
      (" differs only in case from an earlier name, which the switch " ++
        "installs as the same variable").toList))
  else .ok ()

/-- Ordered set of channel variables. -/
structure Variables where
  scope : VariablesType
  inner : IndexMap Text Text
  separator : Option Char
deriving DecidableEq

namespace Variables

/-- The pairs, in insertion order. -/
def pairs (vars : Variables) : List (Text × Text) := vars.inner.entries

/-- Whether the set contains no variables. -/
def isEmpty (vars : Variables) : Bool := vars.pairs.isEmpty

/-- Separate the pairs with `sep` instead of a comma. -/
def withSeparator (vars : Variables) (sep : Char) : Except OriginateError Variables := do
  checkSeparator sep vars.scope
  if (vars.pairs.any fun pair => pair.1.contains sep) = true then
    .error (.parseError ("a variable name contains the chosen '".toList ++ sep ::
      "' separator".toList))
  else
    match vars.pairs.find? fun pair => pair.2.contains sep with
    | some pair => .error (.parseError ("variable ".toList ++ pair.1 ++
        " contains the chosen '".toList ++ sep :: "' separator".toList))
    | none => .ok { vars with separator := some sep }

/-- Every pair is representable and collides with no earlier one. -/
def checkPairs (scope : VariablesType) (earlier : List Text) :
    List (Text × Text) → Except OriginateError Unit
  | [] => .ok ()
  | (key, value) :: rest => do
      checkRepresentable key value scope
      checkCaseCollision earlier key earlier.length
      checkPairs scope (earlier ++ [key]) rest

/-- What a configuration load makes of a scope, a map and a separator. -/
def deserialize (scope : VariablesType) (inner : IndexMap Text Text) (separator : Option Char) :
    Except OriginateError Variables := do
  checkPairs scope [] inner.entries
  match separator with
  | some sep => withSeparator ⟨scope, inner, none⟩ sep
  | none => .ok ⟨scope, inner, none⟩

/-- Whether the commas of keys and values are escaped: only in a block that splits on commas. -/
def commasSeparate (vars : Variables) : Bool := vars.separator.all (· = ',')

/-- One rendered pair. -/
def writePair (vars : Variables) (target : DialStringTarget) (pair : Text × Text) : Text :=
  escapeText pair.1 target (.key vars.scope vars.commasSeparate) ++ '=' ::
    escapeValue pair.2 target vars.commasSeparate vars.scope

/-- The block as it stands inside its argument. -/
def writeFor (vars : Variables) (target : DialStringTarget) : Text :=
  vars.scope.delimiters.1 :: (vars.separator.elim [] fun sep => ['^', '^', sep]) ++
    [vars.separator.getD ','].intercalate (vars.pairs.map (vars.writePair target)) ++
    [vars.scope.delimiters.2]

/-- The block rendered for a target. -/
def displayFor (vars : Variables) (target : DialStringTarget) : Text :=
  target.writeArgument vars.writeFor

end Variables

/-- Why the switch reads no dial string from a text. -/
def readError : PipelineError → OriginateError
  | .empty => .parseError "no endpoint to dial".toList
  | .argvSplit => .parseError "originate's argument split cuts the dial string".toList
  | .unclosedBlock _ => .parseError "a variable block never closes".toList
  | .splitSeparatorUnreadable => .parseError
      "a split on a non-ASCII ^^ separator's first byte reaches past its text".toList

/-- The one leg the switch reads of a text: its one block, if any, and the endpoint text behind it.
-/
def readLeg (text : Text) (target : DialStringTarget) :
    Except OriginateError (Option Block × Text) :=
  match read text target with
  | .error e => .error (readError e)
  | .ok list =>
      match list.threads with
      | [thread] =>
          match thread.groups with
          | [[leg]] =>
              match list.blocks ++ thread.blocks ++ leg.blocks with
              | [] => .ok (none, leg.endpoint)
              | [block] => .ok (some block, leg.endpoint)
              | _ => .error (.parseError "an endpoint carries one variable block".toList)
          | _ => .error (.parseError "the switch reads more than one leg".toList)
      | _ => .error (.parseError "the switch reads more than one leg".toList)

/-- What a target's argument split leaves of a text, and the target reading that. -/
def DialStringTarget.readArgument (target : DialStringTarget) (text : Text) :
    Except OriginateError (Text × DialStringTarget) :=
  match target.splitArgument (trace text) with
  | none => .ok (text, target)
  | some (.error _) =>
      .error (.parseError "originate's argument split cuts the dial string".toList)
  | some (.ok token) => .ok (token.elim [] fun token => untrace token.text, target.inner)

/-- The endpoint text a lone block is read ahead of, so that the passes see a whole leg. -/
def loneBlockEndpoint : Text := "null/x".toList

/-- `str::trim_matches` of spaces. -/
def trimSpaces (text : Text) : Text :=
  ((text.dropWhile (· = ' ')).reverse.dropWhile (· = ' ')).reverse

namespace Variables

/-- The value a pair's effect stands for. -/
def effectValue (index : Nat) : PairEffect → Except OriginateError Text
  | .set value => .ok value
  | .cleared | .valueless => .ok []
  | .ignored => .error (.parseError ("missing = in variable ".toList ++ Text.ofNat index))
  | .unreadable => .error (.parseError ("variable ".toList ++ Text.ofNat index ++
      " opens a non-ASCII ^^ separator the switch splits by byte".toList))

/-- Read the pairs of a block into a map. -/
def fromPairs (scope : VariablesType) (separator : Char) (index : Nat)
    (inner : IndexMap Text Text) : List Pair → Except OriginateError (IndexMap Text Text)
  | [] => .ok inner
  | pair :: rest => do
      let value ← effectValue index pair.effect
      checkRepresentable pair.key value scope
      checkCaseCollision (inner.entries.map Prod.fst) pair.key index
      if separator ≠ ',' ∧ (separator ∈ pair.key ∨ separator ∈ value) then
        .error (.parseError ("variable ".toList ++ Text.ofNat index ++
          " contains the block's ^^ separator".toList))
      else fromPairs scope separator (index + 1) (inner.insert pair.key value) rest

/-- The variables a block installs, refusing what no render delivers. -/
def fromBlock (block : Block) : Except OriginateError Variables := do
  if block.separator ≠ ',' then checkSeparator block.separator block.scope
  if block.rewritesFollowingText = true then
    .error (.parseError "the block's parse rewrites the text after it".toList)
  else
    let inner ← fromPairs block.scope block.separator 0 IndexMap.empty block.pairs
    return ⟨block.scope, inner, none⟩

/-- Parse a block written for a target, as the switch installs it there. -/
def parseFor (text : Text) (target : DialStringTarget) : Except OriginateError Variables := do
  let (argument, target) ← target.readArgument text
  let block := trimSpaces argument
  if (Utf8.encode block).length < 2 then .error (.parseError "variable block too short".toList)
  else
    let delimiters := (block.head?, block.getLast?)
    if delimiters ≠ (some '{', some '}') ∧ delimiters ≠ (some '<', some '>') ∧
        delimiters ≠ (some '[', some ']') then
      let quoted := fun (byte : Option UInt8) => (byte.map Text.debugByte).getD []
      .error (.parseError ("unknown variable delimiters: ".toList ++
        quoted (Utf8.encode block).head? ++ "..".toList ++ quoted (Utf8.encode block).getLast?))
    else
      match ← readLeg (block ++ loneBlockEndpoint) target with
      | (some found, endpoint) =>
          if endpoint = loneBlockEndpoint then fromBlock found
          else .error (.parseError "the switch ends the block before its last bracket".toList)
      | _ => .error (.parseError "the switch ends the block before its last bracket".toList)

end Variables

/-- The variables a block installs, or none for no block or one installing nothing. -/
def installedVariables (block : Option Block) : Except OriginateError (Option Variables) :=
  match block with
  | none => .ok none
  | some block => do
      let vars ← Variables.fromBlock block
      return if vars.isEmpty then none else some vars

end EslTokio
