import EslTokio.Library.Text

/-!
# Traced text

Every pass of `freeswitch-types/src/switch_passes` runs over traced text: each char with the byte
range of the input it came from, so that a cleaned token still points back at its source.

* `trace`, `untrace` — into traced text and back; `untrace` drops the entries that stand for the
  further bytes of a char.
* `byteRange` — the input bytes a token covers.
* `PipelineError` — what stops the switch from reading a dial string.
-/

namespace EslTokio
namespace SwitchPasses

open Library

/-- What stops the switch from reading a dial string at all. -/
inductive PipelineError where
  | empty
  | argvSplit
  | unclosedBlock (leg : Nat)
  | splitSeparatorUnreadable
deriving DecidableEq, Repr

/-- A half-open range of indices. -/
structure Span where
  start : Nat
  stop : Nat
deriving DecidableEq, Repr

/-- A char and the start and end of the input bytes it stands for. -/
structure Traced where
  char : Char
  start : Nat
  stop : Nat
deriving DecidableEq, Repr

/-- The chars of a traced text, every entry counted. -/
def chars (text : List Traced) : Text := text.map (·.char)

@[simp] theorem chars_nil : chars [] = [] := rfl

@[simp] theorem chars_cons (cell : Traced) (text : List Traced) :
    chars (cell :: text) = cell.char :: chars text := rfl

@[simp] theorem chars_append (left right : List Traced) :
    chars (left ++ right) = chars left ++ chars right := List.map_append

@[simp] theorem length_chars (text : List Traced) : (chars text).length = text.length :=
  List.length_map _

theorem chars_take (count : Nat) (text : List Traced) :
    chars (text.take count) = (chars text).take count := List.map_take

theorem chars_drop (count : Nat) (text : List Traced) :
    chars (text.drop count) = (chars text).drop count := List.map_drop

/-- The trace of a text that starts at a byte offset. -/
def traceFrom (offset : Nat) : Text → List Traced
  | [] => []
  | c :: text => ⟨c, offset, offset + c.utf8Size⟩ :: traceFrom (offset + c.utf8Size) text

/-- The trace of a whole input. -/
def trace (text : Text) : List Traced := traceFrom 0 text

/-- An entry that stands for a UTF-8 byte after a char's first: its start lies past its end. -/
def isContinuation (cell : Traced) : Bool := cell.stop < cell.start

/-- The text a trace stands for. -/
def untrace (text : List Traced) : Text := chars (text.filter fun cell => !isContinuation cell)

/-- The bytes of `extent` that token `span` of `text` covers, from the end of the char before it to
the start of the char behind it. -/
def byteRange (text : List Traced) (extent span : Span) : Span where
  start :=
    match span.start with
    | 0 => extent.start
    | before + 1 => (text[before]?).elim extent.start (·.stop)
  stop := (text[span.stop]?).elim extent.stop (·.start)

/-- The input bytes an untouched trace covers. -/
def extent (text : List Traced) : Span where
  start := text.head?.elim 0 (·.start)
  stop := text.getLast?.elim (text.head?.elim 0 (·.start)) (·.stop)

end SwitchPasses
end EslTokio
