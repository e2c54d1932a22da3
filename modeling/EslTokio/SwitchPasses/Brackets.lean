import EslTokio.DialString.Error

/-!
# Variable blocks

`freeswitch-types/src/switch_passes/brackets.rs`: the port of `switch_event_create_brackets`, which
reads the pairs of a `<>`, `{}` or `[]` block out of the buffer it is handed, and of the originate
event those pairs install into.

* `unbalanced` — why brackets in a text move the end of the block.
* `checkSeparator` — the separators a block may be split on.
* `parseBlock` — the block that opens at an index, rewriting the buffer as the switch does.
* `install` — the headers the pairs of some blocks leave.
-/

namespace EslTokio
namespace SwitchPasses

open Library

/-- The depth of a bracket pair at the end of a text, or none where it closes one it never opened.
-/
def depthFrom (opener closer : Char) (depth : Nat) : Text → Option Nat
  | [] => some depth
  | c :: rest =>
      if c = opener then depthFrom opener closer (depth + 1) rest
      else if c = closer then
        match depth with
        | 0 => none
        | depth + 1 => depthFrom opener closer depth rest
      else depthFrom opener closer depth rest

/-- Why the brackets in a text move the end the switch counts its way to. -/
def unbalanced (text : Text) (delimiters : Char × Char) : Option Text :=
  match depthFrom delimiters.1 delimiters.2 0 text with
  | none => some ("closes a '".toList ++ delimiters.1 ::
      "' it never opened, ending the block early".toList)
  | some 0 => none
  | some (_ + 1) => some ("opens a '".toList ++ delimiters.1 ::
      "' it never closes, swallowing the block's end".toList)

/-- Reject a separator that cannot delimit the block it was chosen for. -/
def checkSeparator (sep : Char) (scope : VariablesType) : Except OriginateError Unit :=
  if breaksASplit sep = true ∨ sep = scope.delimiters.1 ∨ sep = scope.delimiters.2 ∨ sep = '=' ∨
      sep = '^' ∨ sep = '$' ∨ sep = '{' ∨ (sep = '|' ∧ scope = .channel) then
    .error (.parseError ("invalid ^^ separator: '".toList ++ sep :: "'".toList))
  else .ok ()

/-- `var_array` in `switch_event_create_brackets`. -/
def blockPairs : Nat := 1024

/-- What installing one pair of a block does. -/
inductive PairEffect where
  /-- A value is set. -/
  | set (value : Text)
  /-- The pair has no value by the `=` split. -/
  | ignored
  /-- An empty value is installed, which deletes an earlier value. -/
  | cleared
  /-- A `^^` head names a non-ASCII separator. -/
  | unreadable
  /-- The pair ends at its `=`. -/
  | valueless
deriving DecidableEq, Repr

/-- One pair, keyed by the name the switch installs it under. -/
structure Pair where
  key : Text
  effect : PairEffect
deriving DecidableEq, Repr

/-- One block as the switch parsed it. -/
structure Block where
  opener : Char
  separator : Char
  pairs : List Pair
  /-- The parse wrote into the text behind the close. -/
  rewritesFollowingText : Bool
deriving DecidableEq, Repr

/-- The scope of a block the switch parsed. -/
def Block.scope (block : Block) : VariablesType :=
  if block.opener = '<' then .enterprise else if block.opener = '{' then .default else .channel

/-- What `switch_event_create_brackets` read of a block: the block, the index behind the close, and
whether the split of a non-ASCII separator runs past the close. -/
structure Parsed where
  block : Block
  next : Nat
  splitsPastCloseByByte : Bool
deriving DecidableEq, Repr

/-- The block, or the refusal of a split no string carries. -/
def Parsed.read (parsed : Parsed) : Except PipelineError (Block × Nat) :=
  if parsed.splitsPastCloseByByte = true then .error .splitSeparatorUnreadable
  else .ok (parsed.block, parsed.next)

/-- A text ends in an odd run of backslashes, the last escaping its terminator. -/
def escapesItsEnd (text : Text) : Bool := (text.reverse.takeWhile (· = '\\')).length % 2 = 1

/-- Where `switch_event_create_brackets` reads more pairs behind the first block: the close of a
block opening right behind an opener that follows the close past spaces. -/
def followingBlock (buffer : CBuffer) (next : Nat) (opener closer : Char) : Option Nat :=
  let rest := chars (buffer.cStr next)
  let spaces := leadingSpaces rest
  let opening :=
    match rest.drop spaces with
    | [] => if rest = [] then none else some (next + rest.length)
    | c :: _ => if c = opener then some (next + spaces) else none
  opening.bind fun index =>
    (findEndParen (chars (buffer.cStr (index + 1))) opener closer).map (index + 1 + ·)

/-- One of the block's own splits, in place. -/
def blockSplit (buffer : CBuffer) (index : Nat) (delim : Char) (limit : Option Nat) :
    BlockParse → CBuffer × Split
  | .pairSplitCleans => buffer.separate index delim limit

/-- The pair the `=` split reads of the token at an index, in place. -/
def pair (buffer : CBuffer) (index : Nat) (blockParse : BlockParse) : CBuffer × Pair :=
  let token := untrace (buffer.cStr index)
  let stop := index + (buffer.cStr index).length
  let result := blockSplit buffer index '=' (some 2) blockParse
  let buffer := result.1
  if result.2.unreadableHead = true then (buffer, ⟨token, .unreadable⟩)
  else
    let key := (result.2.tokens.head?).elim [] fun field => untrace (buffer.cStr field.start)
    let effect :=
      match result.2.tokens with
      | [_, value] =>
          match untrace (buffer.cStr value.start) with
          | [] => .cleared
          | value => .set value
      | [field] => if field.raw.stop < stop then .valueless else .ignored
      | _ => .ignored
    (buffer, ⟨key, effect⟩)

/-- The pairs of the tokens of a block, in turn, and whether one that reads past its end is
unreadable. -/
def readPairs (blockParse : BlockParse) (buffer : CBuffer) :
    List SplitToken → CBuffer × List Pair × Bool
  | [] => (buffer, [], false)
  | token :: tokens =>
      let escaped := escapesItsEnd (chars (buffer.cStr token.start))
      let read := pair buffer token.start blockParse
      let later := readPairs blockParse read.1 tokens
      (later.1, read.2 :: later.2.1, (escaped && read.2.effect = .unreadable) || later.2.2)

/-- What one pass over a block's data leaves: the buffer, the separator its head picked, the pairs,
and whether a split by byte reads past the end. -/
structure DataRead where
  buffer : CBuffer
  delim : Char
  pairs : List Pair
  readsPast : Bool

/-- One pass of the loop of `switch_event_create_brackets` over the data at an index. -/
def readData (blockParse : BlockParse) (buffer : CBuffer) (data : Nat) (delim : Char) : DataRead :=
  let headed := buffer.charAt data = '^' ∧ buffer.charAt (data + 1) = '^'
  let delim := if headed then buffer.charAt (data + 2) else delim
  let data := if headed then data + 3 else data
  let escaped := escapesItsEnd (chars (buffer.cStr data))
  let result := blockSplit buffer data delim (some blockPairs) blockParse
  if result.2.unreadableHead = true then
    ⟨result.1, delim, [⟨untrace (result.1.cStr data), .unreadable⟩], escaped⟩
  else
    let read := readPairs blockParse result.1 result.2.tokens
    ⟨read.1, delim, read.2.1, read.2.2⟩

/-- The separator a block's text names, `comma` being the one its commas were turned into. -/
def blockSeparator (comma : Char) : Text → Char
  | '^' :: '^' :: picked :: _ => if picked = comma then ',' else picked
  | ['^', '^'] => '\x00'
  | _ => ','

/-- `switch_event_create_brackets` on the block opening at an index, rewriting the buffer as the
switch does. -/
def parseBlock (buffer : CBuffer) (index : Nat) (opener closer comma : Char)
    (blockParse : BlockParse) : Option (CBuffer × Parsed) :=
  let text := chars (buffer.cStr index)
  match findEndParen text opener closer with
  | none | some 0 => none
  | some (width + 1) =>
      let stop := index + (width + 1)
      let next := stop + 1
      let separator := blockSeparator comma ((text.drop 1).take width)
      if 128 ≤ separator.toNat then
        let escaped := escapesItsEnd ((text.take (width + 1)).drop 4)
        let chains := (followingBlock buffer next opener closer).isSome
        some (buffer, ⟨⟨opener, separator, [], false⟩, next, escaped || chains⟩)
      else
        let following := chars (buffer.cStr next)
        let buffer := buffer.terminate stop
        let first := readData blockParse buffer (index + 1) comma
        -- The second block is looked for before the first split rewrites the buffer.
        let read :=
          match followingBlock buffer next opener closer with
          | none => first
          | some close =>
              let second := readData blockParse first.buffer close first.delim
              ⟨second.buffer, second.delim, first.pairs ++ second.pairs,
                first.readsPast || second.readsPast⟩
        some (read.buffer,
          ⟨⟨opener, separator, read.pairs, decide (chars (read.buffer.cStr next) ≠ following)⟩,
          next,
            read.readsPast⟩)

/-- Whether two names are one header of an originate event. -/
def sameHeader (name other : Text) : Bool :=
  Text.toAsciiLowercase name = Text.toAsciiLowercase other

/-- Install one pair: a set replaces every header of that name ignoring case, an empty value deletes
them. -/
def installPair (headers : List (Text × Text)) (pair : Pair) : List (Text × Text) :=
  match pair.effect with
  | .set value => (headers.filter fun header => !sameHeader header.1 pair.key) ++
      [(pair.key, value)]
  | .cleared => headers.filter fun header => !sameHeader header.1 pair.key
  | .ignored | .unreadable | .valueless => headers

/-- The headers of an originate event. -/
def install (blocks : List Block) : List (Text × Text) :=
  (blocks.flatMap (·.pairs)).foldl installPair []

end SwitchPasses
end EslTokio
