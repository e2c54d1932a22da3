import EslTokio.SwitchPasses.Separate

/-!
# The argument split of an API command

`freeswitch-types/src/switch_passes/api_argument.rs`: the split `originate` runs over its argument
line, and the escapes that keep a text one argument of it.

* `usableArgvSeparator` — the separators an argument line may be split on in place of blanks.
* `writeEscaped`, `escapeArgument` — a text escaped once for a split on a separator.
* `soleArgument` — the one argument a split must leave of a text.
* `originateQuote` — a token quoted for the blank split.
-/

namespace EslTokio
namespace SwitchPasses

open Library

/-- What `switch_strip_whitespace` strips from both edges of an argument line. -/
def strippedWhitespace : List Char := ['\t', '\n', '\x0b', '\r', ' ']

/-- The pass cutting a dial string out of its command's arguments. -/
inductive ArgumentPass where
  /-- The carrier's own pass. -/
  | blank
  /-- `originate` behind a leading `^^<sep>`. -/
  | char (sep : Char)
  /-- Escaped for at the rendered argument's edge. -/
  | consumed
deriving DecidableEq, Repr

/-- A visible ASCII char. -/
def isAsciiGraphic (c : Char) : Bool := '!' ≤ c && c ≤ '~'

/-- What breaks a split or the escapes its cleanup reads. -/
def breaksASplit (sep : Char) : Bool :=
  !isAsciiGraphic sep || ['\\', '\'', 'n', 'r', 't', 's'].contains sep

/-- A separator that breaks no split and does not read as dial-string grammar, quoting or a word. -/
def usableArgvSeparator (sep : Char) : Bool :=
  !breaksASplit sep && !sep.isAlphanum &&
    !(['^', '"', ',', '|', '[', ']', '{', '}', '<', '>', '=', ':'].contains sep)

/-- One char escaped for the split on `sep`. -/
def escapeChar (sep c : Char) : Text :=
  if c = ' ' then ['\\', 's']
  else if c = '\n' then ['\\', 'n']
  else if c = '\r' then ['\\', 'r']
  else if c = '\t' then ['\\', 't']
  else if takesABackslash c (some sep) then ['\\', c]
  else [c]

/-- The writer of `ArgumentEscape`: whether it has started, the spaces it holds back, and whether
the last char was a vertical tab. -/
def writeEscapedFrom (sep : Char) (started : Bool) (spaces : Nat) (verticalTabLast : Bool) :
    Text → Text
  | [] =>
      match spaces with
      | 0 => if verticalTabLast then ['\'', '\''] else []
      | kept + 1 => List.replicate kept ' ' ++ ['\\', 's']
  | c :: rest =>
      if c = ' ' ∧ started = true ∧ sep ≠ ' ' then
        writeEscapedFrom sep started (spaces + 1) verticalTabLast rest
      else
        List.replicate spaces ' ' ++ (if c = '\x0b' ∧ started = false then ['\'', '\''] else []) ++
          escapeChar sep c ++ writeEscapedFrom sep true 0 (c = '\x0b') rest

/-- A text as one argument of the split on `sep`. -/
def writeEscaped (sep : Char) (text : Text) : Text := writeEscapedFrom sep false 0 false text

/-- A text escaped as one argument of the split on `sep`: an empty one is written `''`, and on
blanks one that opens `^^` follows `''`, since a line that opens `^^` names its own separator. -/
def escapeArgument (text : Text) (sep : Char) : Text :=
  if text = [] then ['\'', '\'']
  else
    let guarded := sep = ' ' ∧ ['^', '^'] <+: text
    let plain := ¬guarded ∧ (∀ c ∈ text.head?, c ∉ strippedWhitespace) ∧
      (∀ c ∈ text.getLast?, c ∉ strippedWhitespace) ∧
      ∀ c ∈ ['\\', '\'', '\n', '\r', '\t', sep], c ∉ text
    if plain then text
    else (if guarded then ['\'', '\''] else []) ++ writeEscaped sep text

/-- A split that must leave its text whole cut it, or a quote held a delimiter. -/
inductive ArgvCut where
  | cut
deriving DecidableEq, Repr

/-- The one token `originate`'s split on `delim` leaves of a text, or none for an empty one. On a
space a quote may hold a space but not stay open. -/
def soleArgument (text : List Traced) (delim : Char) : Except ArgvCut (Option Token) :=
  let separated := if delim = ' ' then separate text ' ' none else separateOn text delim none
  let quoteCuts := if delim = ' ' then separated.openQuote else separated.heldDelimiter
  if quoteCuts = true ∨ 1 < separated.tokens.length then .error .cut
  else .ok separated.tokens.head?

/-- A value escaped and single-quoted for the blank split's cleanup. -/
def quoteForUuidSetvar (value : Text) : Text := '\'' :: escapeInsideToken value none ++ ['\'']

/-- A token quoted when it is empty or carries what the blank split, its cleanup or the line strip
reads, else as it stands. -/
def originateQuote (token : Text) : Text :=
  if token = [] ∨ (token.any fun c => strippedWhitespace.contains c) = true ∨ '\'' ∈ token ∨
      '\\' ∈ token then quoteForUuidSetvar token
  else token

end SwitchPasses
end EslTokio
