import EslTokio.SwitchPasses.Expansion

/-!
# Escaping a text for every pass ahead of it

`freeswitch-types/src/switch_passes/escape.rs`: the escapes a render writes so that a text reaches
the channel as written through every pass its target applies.

* `EscapedField` — the pair key, the pair value or the endpoint text that is escaped.
* `passes` — how many escape-consuming passes a field meets.
* `escapeText` — the escaped field.
-/

namespace EslTokio
namespace SwitchPasses

open Library

/-- The passes that cut a thread into groups and a group into legs. -/
def legSplitPassCount : Nat := 2

/-- Text escaped for the passes that read it. -/
inductive EscapedField where
  | value (scope : VariablesType) (commasSeparate : Bool)
  | endpoint
  | key (scope : VariablesType) (commasSeparate : Bool)
deriving DecidableEq, Repr

/-- Whether the field's commas are escaped. -/
def EscapedField.escapesComma : EscapedField → Bool
  | .value _ commasSeparate | .key _ commasSeparate => commasSeparate
  | .endpoint => true

/-- Whether the field's pipes are escaped. -/
def EscapedField.escapesPipe : EscapedField → Bool
  | .value scope _ | .key scope _ => scope = .channel
  | .endpoint => true

/-- A `[]` block rides through the `|` and `,` leg splits before the block parse. -/
def legSplitPasses : VariablesType → Nat
  | .enterprise | .default => 0
  | .channel => legSplitPassCount

/-- The escape-consuming passes a field meets at a target. -/
def passes (target : DialStringTarget) (field : EscapedField) : Nat :=
  target.argumentPasses +
    match field with
    | .value scope _ | .key scope _ => target.blockParse.cleanupPasses + legSplitPasses scope
    | .endpoint => legSplitPassCount

/-- Every pass halves a run of backslashes, so a literal one needs a power of two. -/
def backslashEscape (target : DialStringTarget) (field : EscapedField) : Text :=
  List.replicate (2 ^ passes target field) '\\'

/-- The last pass trims the text's edges, so an edge space must read `\s` entering it. -/
def spaceEscape (target : DialStringTarget) (field : EscapedField) : Text :=
  List.replicate (2 ^ (passes target field - 1)) '\\' ++ ['s']

/-- A quote must still read `\'` entering the last pass, or bare behind a carrier pass that deletes
`\'`. -/
def quoteEscape (target : DialStringTarget) (field : EscapedField) : Text :=
  quoteBareAfter target (passes target field)

/-- Two quotes that reach bare the comma scan run over a `[]` block behind the `|` leg split. -/
def channelCommaGuard (target : DialStringTarget) : Text :=
  quoteBareAfter target (target.argumentPasses + 1) ++
    quoteBareAfter target (target.argumentPasses + 1)

/-- Two quotes that reach the `=` split bare ahead of a key opening `^^`. -/
def caretGuard (target : DialStringTarget) (field : EscapedField) : Text :=
  quoteBareAfter target (passes target field - 1) ++ quoteBareAfter target (passes target field - 1)

/-- `str::replace` of a char. -/
def replaceChar (c : Char) (replacement text : Text) : Text :=
  text.flatMap fun other => if other = c then replacement else [other]

/-- `str::replace` of a substring, `skip` chars of an occurrence still to be dropped. -/
def replaceTextFrom (needle replacement : Text) (skip : Nat) : Text → Text
  | [] => []
  | c :: rest =>
      match skip with
      | skip + 1 => replaceTextFrom needle replacement skip rest
      | 0 =>
          if needle.isPrefixOf (c :: rest) then
            replacement ++ replaceTextFrom needle replacement (needle.length - 1) rest
          else c :: replaceTextFrom needle replacement 0 rest

/-- `str::replace` of a substring. -/
def replaceText (needle replacement text : Text) : Text :=
  replaceTextFrom needle replacement 0 text

/-- Put the guard between a backslash and the comma behind it in a `[]` field: the separator behind
a value ending in one, or a literal comma in a `^^` block. -/
def guardChannelCommas (escaped : Text) (separatorFollows : Bool) (target : DialStringTarget)
    (commasSeparate : Bool) : Text :=
  let guarding := channelCommaGuard target
  if commasSeparate = false then
    let backslash := backslashEscape target (.value .channel commasSeparate)
    replaceText (backslash ++ [',']) (backslash ++ guarding ++ [',']) escaped
  else if separatorFollows = true then escaped ++ guarding
  else escaped

/-- The replacements of single chars; the backslash goes first. -/
def escapeChars (text : Text) (target : DialStringTarget) (field : EscapedField) : Text :=
  let escaped := replaceChar '\'' (quoteEscape target field)
    (replaceChar '\\' (backslashEscape target field) text)
  let escaped := if protectsDollars text target then
    replaceChar '$' ['\\', '$'] escaped else escaped
  let escaped := if field.escapesComma then replaceChar ',' ['\\', ','] escaped else escaped
  let escaped := if field.escapesPipe then replaceChar '|' ['\\', '|'] escaped else escaped
  match field with
  | .key _ _ => replaceChar '=' ['\\', '='] escaped
  | .value _ _ | .endpoint => escaped

/-- The comma guard of a `[]` field. -/
def guardField (text escaped : Text) (target : DialStringTarget) : EscapedField → Text
  | .value .channel commasSeparate =>
      guardChannelCommas escaped (commasSeparate && text.getLast? = some '\\') target commasSeparate
  | .key .channel commasSeparate => guardChannelCommas escaped false target commasSeparate
  | .value _ _ | .key _ _ | .endpoint => escaped

/-- The space at either edge, escaped. -/
def escapeEdges (space escaped : Text) : Text :=
  let escaped :=
    match escaped with
    | ' ' :: rest => space ++ rest
    | _ => escaped
  if escaped.getLast? = some ' ' then escaped.dropLast ++ space else escaped

/-- Escape a text for every pass a field meets at a target. -/
def escapeText (text : Text) (target : DialStringTarget) (field : EscapedField) : Text :=
  let escaped := guardField text (escapeChars text target field) target field
  let escaped := escapeEdges (spaceEscape target field) escaped
  let escaped :=
    match field with
    | .key _ _ => if ['^', '^'].isPrefixOf text then caretGuard target field ++ escaped else escaped
    | .value _ _ | .endpoint => escaped
  let escaped := if protectsDollars text target then '\\' :: '\'' :: escaped else escaped
  if ' ' ∈ escaped then '\'' :: escaped ++ ['\''] else escaped

/-- Escape a value for the wire. -/
def escapeValue (value : Text) (target : DialStringTarget) (commasSeparate : Bool)
    (scope : VariablesType) : Text :=
  escapeText value target (.value scope commasSeparate)

end SwitchPasses
end EslTokio
