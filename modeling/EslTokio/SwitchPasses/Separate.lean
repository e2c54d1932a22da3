import EslTokio.Library.Search
import EslTokio.SwitchPasses.Trace

/-!
# Separating strings as the switch does

`freeswitch-types/src/switch_passes/separate.rs`: the ports of the separators of `switch_utils.c`,
the cut of a text into raw tokens, the cleanup of a token, and both run in place over a
NUL-terminated buffer with one entry for each UTF-8 byte.

* `charDelim`, `blankDelim` — the raw token spans of a split on a char or on blanks.
* `cleanupWritten`, `cleanup` — what the cleanup of a token writes and where it ends it.
* `CBuffer.separate` — the split and the cleanup in place; `separate` and `separateOn` read it back.
* `findEndParen`, `find`, `separateStringString` — the bracket scan and the substring split.

A limit is `none` where the source passes `usize::MAX`, which no text reaches.
-/

namespace EslTokio
namespace SwitchPasses

open Library

/-- Raw token spans one split cuts, as index ranges into the text it split. -/
structure Cut where
  spans : List Span
  /-- A quote kept a delimiter from splitting. -/
  heldDelimiter : Bool
  /-- A quote was still open at the end of the text. -/
  openQuote : Bool
deriving DecidableEq, Repr

/-- The text behind its leading spaces; only a space counts. -/
def skipSpaces (text : List Traced) : List Traced := text.dropWhile fun cell => cell.char = ' '

/-- How many spaces a text starts with. -/
def leadingSpaces (text : Text) : Nat := (text.takeWhile (· = ' ')).length

/-- `strchr` for a quote, which stops at a NUL. -/
def hasQuote (rest : Text) : Bool := (rest.takeWhile (· ≠ '\x00')).contains '\''

/-- Only one more token may be cut. -/
def lastToken : Option Nat → Bool
  | some limit => limit ≤ 1
  | none => false

/-- One token fewer may be cut. -/
def fewer (limit : Option Nat) : Option Nat := limit.map (· - 1)

/-- The scan of `separate_string_char_delim` from index `i`, inside the token that began at `start`,
with `limit` tokens left. -/
def charDelimFrom (delim : Char) (limit : Option Nat) (i : Nat) (start : Option Nat)
    (inside : Bool) : Text → Cut
  | [] => ⟨(start.map (⟨·, i⟩)).toList, false, inside⟩
  | c :: rest =>
      if c = '\x00' then ⟨(start.map (⟨·, i⟩)).toList, false, inside⟩
      else if start = none ∧ lastToken limit = true then
        ⟨[⟨i, i + rest.length + 1⟩], false, inside⟩
      else
        let begun := start.getD i
        if c = '\\' then
          match rest with
          | [] => ⟨[⟨begun, i + 1⟩], false, inside⟩
          | _ :: rest => charDelimFrom delim limit (i + 2) (some begun) inside rest
        else if c = '\'' ∧ (inside || hasQuote rest) = true then
          charDelimFrom delim limit (i + 1) (some begun) (!inside) rest
        else if c = delim ∧ inside = false then
          let later := charDelimFrom delim (fewer limit) (i + 1) none inside rest
          { later with spans := ⟨begun, i⟩ :: later.spans }
        else
          let later := charDelimFrom delim limit (i + 1) (some begun) inside rest
          { later with heldDelimiter := c = delim || later.heldDelimiter }

/-- `separate_string_char_delim` before its cleanup: a trailing delimiter or an empty input yields
no token, two adjacent delimiters an empty one, and a NUL ends the scan unless a backslash before it
steps over it. -/
def charDelim (text : Text) (delim : Char) (limit : Option Nat) : Cut :=
  charDelimFrom delim limit 0 none false text

/-- The state of `separate_string_blank_delim` between two chars. -/
inductive BlankState where
  | start
  | skipInitialSpace (begun : Nat)
  | findDelim (begun : Nat)
  | skipEndingSpace
deriving DecidableEq, Repr

/-- The state in which the char `c` at index `i` is read: the scan changes state without moving. A
`start` that stays is one whose limit is reached. -/
def BlankState.settle (limit : Option Nat) (i : Nat) (c : Char) : BlankState → BlankState
  | .start =>
      if lastToken limit = true then .start
      else if c = ' ' then .skipInitialSpace i
      else .findDelim i
  | .skipInitialSpace begun => if c = ' ' then .skipInitialSpace begun else .findDelim begun
  | .findDelim begun => .findDelim begun
  | .skipEndingSpace =>
      if c = ' ' then .skipEndingSpace
      else if lastToken limit = true then .start
      else .findDelim i

/-- The span the scan leaves open where it stops. -/
def BlankState.spans (stop : Nat) : BlankState → List Span
  | .start | .skipEndingSpace => []
  | .skipInitialSpace begun | .findDelim begun => [⟨begun, stop⟩]

/-- The scan of `separate_string_blank_delim` from index `i`, with `limit` tokens left. -/
def blankDelimFrom (limit : Option Nat) (i : Nat) (state : BlankState) (inside : Bool) : Text → Cut
  | [] => ⟨state.spans i, false, inside⟩
  | c :: rest =>
      if c = '\x00' then ⟨state.spans i, false, inside⟩
      else
        match state.settle limit i c with
        | .start => ⟨[⟨i, i + rest.length + 1⟩], false, inside⟩
        | .skipInitialSpace begun =>
          blankDelimFrom limit (i + 1) (.skipInitialSpace begun) inside rest
        | .skipEndingSpace => blankDelimFrom limit (i + 1) .skipEndingSpace inside rest
        | .findDelim begun =>
            if c = '\\' then
              match rest with
              | [] => ⟨[⟨begun, i + 1⟩], false, inside⟩
              | _ :: rest => blankDelimFrom limit (i + 2) (.findDelim begun) inside rest
            else if c = '\'' then blankDelimFrom limit (i + 1) (.findDelim begun) (!inside) rest
            else if c = ' ' ∧ inside = false then
              let later := blankDelimFrom (fewer limit) (i + 1) .skipEndingSpace inside rest
              { later with spans := ⟨begun, i⟩ :: later.spans }
            else
              let later := blankDelimFrom limit (i + 1) (.findDelim begun) inside rest
              { later with heldDelimiter := c = ' ' || later.heldDelimiter }

section BlankDelim

variable (limit : Option Nat) (i begun : Nat) (inside : Bool)

theorem blankDelimFrom_stop (state : BlankState) (rest : Text) :
    blankDelimFrom limit i state inside ('\x00' :: rest) = ⟨state.spans i, false, inside⟩ := by
  simp [blankDelimFrom]

/-- A state that settles on a token reads on as that token's. -/
theorem blankDelimFrom_settle {c : Char} {state : BlankState}
    (h : state.settle limit i c = .findDelim begun) (rest : Text) :
    blankDelimFrom limit i state inside (c :: rest) =
      if c = '\x00' then ⟨state.spans i, false, inside⟩
      else blankDelimFrom limit i (.findDelim begun) inside (c :: rest) := by
  by_cases hnul : c = '\x00'
  · rw [if_pos hnul]
    unfold blankDelimFrom
    rw [if_pos hnul]
  · rw [if_neg hnul]
    conv_lhs => unfold blankDelimFrom
    conv_rhs => unfold blankDelimFrom
    rw [if_neg hnul, if_neg hnul, h]
    rfl

end BlankDelim

/-- `separate_string_blank_delim` before its cleanup: a quote toggles with no lookahead, and a run
of spaces is one separator. -/
def blankDelim (text : Text) (limit : Option Nat) : Cut :=
  blankDelimFrom limit 0 .start false text

/-- The char that `\next` stands for in `cleanup_separated_string`; `none` keeps the backslash. -/
def unescape (next : Char) (delim : Option Char) : Option Char :=
  if some next = delim ∨ next = '\'' ∨ next = '"' ∨ next = '\\' then some next
  else if next = 'n' then some '\n'
  else if next = 'r' then some '\r'
  else if next = 't' then some '\t'
  else if next = 's' then some ' '
  else none

/-- A char that needs a backslash inside a token for the split on `delim` to read it back. -/
def takesABackslash (c : Char) (delim : Option Char) : Bool :=
  c = '\\' || c = '\'' || some c = delim

/-- A text escaped to stand inside one token of the split on `delim`, away from its edges. -/
def escapeInsideToken (text : Text) (delim : Option Char) : Text :=
  text.flatMap fun c => if takesABackslash c delim then ['\\', c] else [c]

/-- What `cleanup_separated_string` writes behind `count` entries, and where it writes the
terminator. -/
def cleanupFrom (delim : Option Char) (inside : Bool) (count : Nat) (stop : Option Nat) :
    List Traced → List Traced × Option Nat
  | [] => ([], stop)
  | cell :: rest =>
      if cell.char = '\\' then
        match rest with
        | [] => ([cell], some (count + 1))
        | next :: rest =>
            match unescape next.char delim with
            | some e =>
                let later := cleanupFrom delim inside (count + 1) (some (count + 1)) rest
                (⟨e, cell.start, next.stop⟩ :: later.1, later.2)
            | none =>
                let later := cleanupFrom delim inside (count + 1) (some (count + 1)) (next :: rest)
                (cell :: later.1, later.2)
      else if cell.char = '\'' ∧ (inside || hasQuote (chars rest)) = true then
        cleanupFrom delim (!inside) count (if inside then stop else some count) rest
      else
        let kept := if cell.char ≠ ' ' ∨ inside = true then some (count + 1) else stop
        let later := cleanupFrom delim inside (count + 1) kept rest
        (cell :: later.1, later.2)

/-- Every entry `cleanup_separated_string` writes from the first past the leading spaces, and where
it writes the terminator. -/
def cleanupWritten (raw : List Traced) (delim : Option Char) : List Traced × Option Nat :=
  cleanupFrom delim false 0 none (skipSpaces raw)

/-- `cleanup_separated_string`, `delim` being `none` where the switch passes 0. -/
def cleanup (raw : List Traced) (delim : Option Char) : List Traced :=
  let written := cleanupWritten raw delim
  written.1.take (written.2.getD 0)

/-- What the `^^` head opening a `switch_separate_string` argument names. -/
inductive Head where
  | picked (delim : Char)
  | unreadable
  | absent
deriving DecidableEq, Repr

/-- The `^^` head of a text, read as far as its first NUL. -/
def argumentHead (text : Text) : Head :=
  let charAt := fun index => (text[index]?).getD '\x00'
  if charAt 0 = '^' ∧ charAt 1 = '^' ∧ charAt 2 ≠ '\x00' ∧ 128 ≤ (charAt 2).toNat then .unreadable
  else if charAt 0 = '^' ∧ charAt 1 = '^' ∧ charAt 2 ≠ '\x00' ∧ charAt 3 ≠ '\x00' then
    .picked (charAt 2)
  else .absent

/-- A NUL-terminated buffer the switch's splits rewrite in place. -/
structure CBuffer where
  cells : List Traced
deriving DecidableEq, Repr

/-- Stands for a UTF-8 byte after a char's first. -/
def continuation : Char := '\x80'

/-- One token of a split, as indices into its buffer: as the split cut it, and where it starts once
cleaned. -/
structure SplitToken where
  raw : Span
  start : Nat
deriving DecidableEq, Repr

/-- What `CBuffer.separate` cut. -/
structure Split where
  tokens : List SplitToken
  delimiter : Char
  heldDelimiter : Bool
  openQuote : Bool
  unreadableHead : Bool
deriving DecidableEq, Repr

/-- The entries of a text with one more for every further byte of a char, unless they are there
already, and for each the index of the text it came from. -/
def byteCells (index : Nat) : List Traced → List (Traced × Nat)
  | [] => []
  | cell :: rest =>
      let continued := rest.head?.any isContinuation
      let further :=
        if cell.start < cell.stop ∧ continued = false then
          List.replicate (cell.char.utf8Size - 1) (⟨continuation, cell.stop + 1, cell.stop⟩,
            index + 1)
        else []
      (cell, index) :: further ++ byteCells (index + 1) rest

namespace CBuffer

/-- The text and its terminator, a second NUL for a trailing backslash to step onto, and for each
entry the index in the text it came from. -/
def withOrigins (text : List Traced) : CBuffer × List Nat :=
  let stop := (extent text).stop
  let cells := byteCells 0 text
  (⟨cells.map Prod.fst ++ [⟨'\x00', stop, stop⟩, ⟨'\x00', stop, stop⟩]⟩,
    cells.map Prod.snd ++ [text.length, text.length])

/-- A buffer that holds a text. -/
def new (text : List Traced) : CBuffer := (withOrigins text).1

/-- The char at an index; NUL past the end. -/
def charAt (buffer : CBuffer) (index : Nat) : Char := (buffer.cells[index]?).elim '\x00' (·.char)

/-- Write a terminator. -/
def terminate (buffer : CBuffer) (index : Nat) : CBuffer :=
  ⟨buffer.cells.modify index fun cell => { cell with char := '\x00' }⟩

/-- The string at an index, up to its terminator. -/
def cStr (buffer : CBuffer) (index : Nat) : List Traced :=
  (buffer.cells.drop index).takeWhile fun cell => cell.char ≠ '\x00'

/-- Write entries over those at an index. -/
def overwrite (buffer : CBuffer) (index : Nat) (cells : List Traced) : CBuffer :=
  ⟨buffer.cells.take index ++ cells ++ buffer.cells.drop (index + cells.length)⟩

/-- `cleanup_separated_string` on the string at an index, written back, and where the result
starts. -/
def cleanup (buffer : CBuffer) (index : Nat) (delim : Option Char) : CBuffer × Nat :=
  let raw := buffer.cStr index
  let start := index + leadingSpaces (chars raw)
  let written := cleanupWritten raw delim
  let buffer := buffer.overwrite start written.1
  (match written.2 with
    | some stop => buffer.terminate (start + stop)
    | none => buffer, start)

/-- Terminate each span that ends at the delimiter. -/
def terminateSpans (buffer : CBuffer) (index : Nat) (delim : Char) (spans : List Span) : CBuffer :=
  spans.foldl (fun buffer span =>
    if buffer.charAt (index + span.stop) = delim then buffer.terminate (index + span.stop)
    else buffer) buffer

/-- Clean each span in turn. -/
def cleanSpans (buffer : CBuffer) (index : Nat) (delim : Option Char) :
    List Span → CBuffer × List SplitToken
  | [] => (buffer, [])
  | span :: spans =>
      let cleaned := buffer.cleanup (index + span.start) delim
      let later := cleaned.1.cleanSpans index delim spans
      (later.1, ⟨⟨index + span.start, index + span.stop⟩, cleaned.2⟩ :: later.2)

/-- `separate_string_blank_delim` on a space and `separate_string_char_delim` on any other
delimiter, over the string at an index, in place. -/
def split (buffer : CBuffer) (index : Nat) (delim : Char) (limit : Option Nat) : CBuffer × Split :=
  let text := chars (buffer.cells.drop index)
  let cut : Cut :=
    if limit = some 0 then ⟨[], false, false⟩
    else if delim = ' ' then blankDelim text limit
    else charDelim text delim limit
  let cleaned := (buffer.terminateSpans index delim cut.spans).cleanSpans index
    (if delim = ' ' then none else some delim) cut.spans
  (cleaned.1, ⟨cleaned.2, delim, cut.heldDelimiter, cut.openQuote, false⟩)

/-- `switch_separate_string` on the string at an index, in place. -/
def separate (buffer : CBuffer) (index : Nat) (delim : Char) (limit : Option Nat) :
    CBuffer × Split :=
  match argumentHead (chars (buffer.cStr index)) with
  | .picked c => buffer.split (index + 3) c limit
  | .unreadable =>
      let result := buffer.split index delim limit
      (result.1, { result.2 with unreadableHead := true })
  | .absent => buffer.split index delim limit

end CBuffer

/-- One token of `separate`: its raw span in the text given, and its cleaned text. -/
structure Token where
  raw : Span
  text : List Traced
deriving DecidableEq, Repr

/-- What `separate` cut, read back out of its buffer. -/
structure Separated where
  tokens : List Token
  delimiter : Char
  heldDelimiter : Bool
  openQuote : Bool
deriving DecidableEq, Repr

/-- The tokens a split leaves in a buffer that holds a text; a raw span that a backslash carried
onto the terminator ends with the text. -/
def readBack (text : List Traced) (cut : CBuffer → CBuffer × Split) : Separated :=
  let held := CBuffer.withOrigins text
  let result := cut held.1
  let within := fun index => (held.2[index]?).elim text.length (min · text.length)
  { tokens := result.2.tokens.map fun token =>
      ⟨⟨within token.raw.start, within token.raw.stop⟩,
        (result.1.cStr token.start).filter fun cell => !isContinuation cell⟩
    delimiter := result.2.delimiter
    heldDelimiter := result.2.heldDelimiter
    openQuote := result.2.openQuote }

/-- `switch_separate_string` over a copy of a text. -/
def separate (text : List Traced) (delim : Char) (limit : Option Nat) : Separated :=
  readBack text fun buffer => buffer.separate 0 delim limit

/-- `separate` with no `^^` head read, for text not at the head of a switch argument. -/
def separateOn (text : List Traced) (delim : Char) (limit : Option Nat) : Separated :=
  readBack text fun buffer => buffer.split 0 delim limit

/-- The index, `index` on, at which `depth` open brackets are closed. -/
def closeFrom (opener closer : Char) (index depth : Nat) : Text → Option Nat
  | [] => none
  | c :: rest =>
      if c = opener ∧ opener ≠ closer then closeFrom opener closer (index + 1) (depth + 1) rest
      else if c = closer then
        if depth = 1 then some index else closeFrom opener closer (index + 1) (depth - 1) rest
      else closeFrom opener closer (index + 1) depth rest

/-- `switch_find_end_paren`: the index of the close matching an opener behind any leading spaces. No
escape is honoured. -/
def findEndParen (text : Text) (opener closer : Char) : Option Nat :=
  let skip := leadingSpaces text
  match text.drop skip with
  | c :: rest => if c = opener then closeFrom opener closer (skip + 1) 1 rest else none
  | [] => none

/-- Where a needle first occurs, as `strstr` finds it. -/
def find (text needle : Text) : Option Nat := Search.find needle text

/-- `switch_separate_string_string` from an index on, `fuel` bounding the tokens cut. -/
def separateStringFrom (delim : Text) (start : Nat) : (fuel : Nat) → Text → List Span
  | 0, text => [⟨start, start + text.length⟩]
  | fuel + 1, text =>
      match find text delim with
      | none => [⟨start, start + text.length⟩]
      | some found =>
          ⟨start, start + found⟩ ::
            separateStringFrom delim (start + found + delim.length) fuel
              (text.drop (found + delim.length))

/-- `switch_separate_string_string`: a plain substring split with no quote or escape handling,
keeping at most `limit` tokens. -/
def separateStringString (text delim : Text) (limit : Nat) : List Span :=
  separateStringFrom delim 0 (limit - 1) text

end SwitchPasses
end EslTokio
