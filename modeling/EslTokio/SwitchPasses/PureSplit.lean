import EslTokio.SwitchPasses.Spelling
import Mathlib.Data.List.Forall2

/-!
# The split in place is the pure split

`separate_on` runs over a buffer with an entry for every UTF-8 byte, writes terminators over the
delimiters and cleans each token where it stands. Here it is tied to the pure functions of the same
module for every text and every ASCII delimiter: each token is the cleanup of a span of the text
itself.

* `expand`, `cleanup_expand` — the bytes of a text, and that a cleanup keeps every char with its
  bytes.
* `Scan` — the spans a scan cuts out of a text beside those it cuts out of the text's bytes.
* `Held`, `cleanSpans_held` — terminated strings, each cleaned without a change to the others.
* **`separateOn_eq_pure`** — the tokens of `separateOn` are the cleaned spans of the text.
-/

namespace EslTokio
namespace SwitchPasses

open Library

/-! ### A text and its bytes -/

/-- No entry stands for a further byte of another one's char. -/
def Whole (text : List Traced) : Prop := ∀ cell ∈ text, isContinuation cell = false

/-- How many bytes of its char an entry has behind it. -/
def further (cell : Traced) : Nat := if cell.start < cell.stop then cell.char.utf8Size - 1 else 0

/-- An entry and one more for every further byte of its char. -/
def bytesOf (cell : Traced) : List Traced :=
  cell :: List.replicate (further cell) ⟨continuation, cell.stop + 1, cell.stop⟩

/-- The bytes of a text. -/
def expand (text : List Traced) : List Traced := text.flatMap bytesOf

@[simp] theorem expand_nil : expand [] = [] := rfl

@[simp] theorem expand_cons (cell : Traced) (text : List Traced) :
    expand (cell :: text) = bytesOf cell ++ expand text := rfl

@[simp] theorem expand_append (left right : List Traced) :
    expand (left ++ right) = expand left ++ expand right := List.flatMap_append

theorem bytesOf_ascii {cell : Traced} (h : cell.char.toNat < 128) : bytesOf cell = [cell] := by
  rw [bytesOf, further, utf8Size_ascii h, ite_self]
  rfl

theorem Ordered.whole {lo : Nat} {text : List Traced} (h : Ordered lo text) : Whole text := by
  induction h with
  | nil => exact nofun
  | cons hlo hwidth hrest ih =>
      exact List.forall_mem_cons.mpr ⟨by simpa [isContinuation] using hwidth.le, ih⟩

theorem Whole.filter_expand {text : List Traced} (h : Whole text) :
    (expand text).filter (fun cell => !isContinuation cell) = text := by
  induction text with
  | nil => rfl
  | cons cell text ih =>
      obtain ⟨hcell, htext⟩ := List.forall_mem_cons.mp h
      have hbytes : ∀ n, (List.replicate n
          (⟨continuation, cell.stop + 1, cell.stop⟩ : Traced)).filter
          (fun cell => !isContinuation cell) = [] := by
        intro n
        rw [List.filter_replicate, if_neg]
        simp [isContinuation]
      rw [expand_cons, List.filter_append, ih htext, bytesOf,
        List.filter_cons_of_pos (by simp [hcell]), hbytes]
      rfl

theorem Whole.head {text : List Traced} (h : Whole text) :
    text.head?.any isContinuation = false := by
  cases text with
  | nil => rfl
  | cons next text => exact h next List.mem_cons_self

/-- A buffer is filled with the bytes of its text. -/
theorem Whole.map_byteCells {text : List Traced} (h : Whole text) (index : Nat) :
    (byteCells index text).map Prod.fst = expand text := by
  induction text generalizing index with
  | nil => rfl
  | cons cell text ih =>
      have htext : Whole text := (List.forall_mem_cons.mp h).2
      simp only [byteCells, htext.head, and_true, List.cons_append, List.map_cons,
        List.map_append, ih htext, expand_cons, bytesOf, further]
      split_ifs
      · rw [List.map_replicate]
      · rfl

/-- A buffer that holds a text: its bytes and the terminators. -/
theorem Whole.withOrigins {text : List Traced} (h : Whole text) :
    ∃ nul, nul.char = '\x00' ∧ (CBuffer.withOrigins text).1 = ⟨expand text ++ [nul, nul]⟩ := by
  refine ⟨⟨'\x00', (extent text).stop, (extent text).stop⟩, rfl, ?_⟩
  rw [CBuffer.withOrigins]
  simp only [h.map_byteCells]

theorem Whole.byteCells_append {left right : List Traced} (h : Whole (left ++ right))
    (index : Nat) :
    byteCells index (left ++ right) =
      byteCells index left ++
        byteCells (index + left.length) right := by
  induction left generalizing index with
  | nil => rfl
  | cons cell left ih =>
      have hlater : Whole (left ++ right) := (List.forall_mem_cons.mp h).2
      have hleft : Whole left := fun cell hcell => hlater cell (List.mem_append_left _ hcell)
      simp only [List.cons_append, byteCells, hlater.head, hleft.head, ih hlater,
        List.append_assoc, List.length_cons, Nat.add_assoc, Nat.add_comm 1]

/-- The index of the text a buffer entry came from, at the first entry of what follows a prefix. -/
theorem Whole.origin {left right : List Traced} (h : Whole (left ++ right)) :
    ((CBuffer.withOrigins (left ++ right)).2[(expand left).length]?).elim (left ++ right).length
      (min · (left ++ right).length) = left.length := by
  have hleft : Whole left := fun cell hcell => h cell (List.mem_append_left _ hcell)
  have hlength : ((byteCells 0 left).map Prod.snd).length = (expand left).length := by
    rw [← hleft.map_byteCells 0, List.length_map, List.length_map]
  have horigins : (CBuffer.withOrigins (left ++ right)).2 =
      (byteCells 0 left).map Prod.snd ++
        ((byteCells left.length right).map Prod.snd ++
          [(left ++ right).length, (left ++ right).length]) := by
    rw [CBuffer.withOrigins]
    simp only [h.byteCells_append, List.map_append, List.append_assoc, Nat.zero_add]
  rw [horigins, List.getElem?_append_right (Nat.le_of_eq hlength), hlength, Nat.sub_self]
  cases right with
  | nil => simp [byteCells]
  | cons cell right =>
      simp [byteCells]

/-- Past the text, every index is its end. -/
theorem Whole.origin_past {text : List Traced} (h : Whole text) {index : Nat}
    (hindex : (expand text).length ≤ index) :
    ((CBuffer.withOrigins text).2[index]?).elim text.length (min · text.length) = text.length := by
  have hlength : ((byteCells 0 text).map Prod.snd).length = (expand text).length := by
    rw [← h.map_byteCells 0, List.length_map, List.length_map]
  have horigins : (CBuffer.withOrigins text).2 =
      (byteCells 0 text).map Prod.snd ++ [text.length, text.length] := rfl
  rw [horigins, List.getElem?_append_right (hlength.trans_le hindex)]
  cases hget : ([text.length, text.length] : List Nat)[index -
      ((byteCells 0 text).map Prod.snd).length]? with
  | none => rfl
  | some origin =>
      obtain rfl : origin = text.length := by simpa using List.mem_of_getElem? hget
      exact Nat.min_self _

/-! ### The cleanup, byte by byte -/

theorem hasQuote_cons (c : Char) (rest : Text) :
    hasQuote (c :: rest) = (c ≠ '\x00' && (c = '\'' || hasQuote rest)) := by
  by_cases hc : c = '\x00'
  · simp [hasQuote, hc]
  · simp [hasQuote, hc, eq_comm]

theorem hasQuote_replicate (n : Nat) (rest : Text) :
    hasQuote (List.replicate n continuation ++ rest) = hasQuote rest := by
  induction n with
  | zero => rfl
  | succ n ih =>
      rw [List.replicate_succ, List.cons_append, hasQuote_cons, ih]
      rfl

theorem chars_bytesOf (cell : Traced) :
    chars (bytesOf cell) = cell.char :: List.replicate (further cell) continuation := by
  rw [bytesOf, chars_cons, chars, List.map_replicate]

theorem length_bytesOf (cell : Traced) : (bytesOf cell).length = further cell + 1 := by
  simp [bytesOf]

theorem hasQuote_expand (text : List Traced) (rest : Text) :
    hasQuote (chars (expand text) ++ rest) = hasQuote (chars text ++ rest) := by
  induction text with
  | nil => rfl
  | cons cell text ih =>
      rw [expand_cons, chars_append, chars_bytesOf, List.append_assoc, List.cons_append,
        hasQuote_cons, hasQuote_replicate, ih, chars_cons, List.cons_append, hasQuote_cons]

/-- The delimiter of a cleanup is none or ASCII. -/
def AsciiDelim (delim : Option Char) : Prop := ∀ d ∈ delim, d.toNat < 128

theorem cleanupFrom_plain {cell : Traced} {inside : Bool} {rest : List Traced}
    (hbackslash : cell.char ≠ '\\')
    (hquote : ¬(cell.char = '\'' ∧ (inside || hasQuote (chars rest)) = true)) (delim : Option Char)
    (count : Nat) (stop : Option Nat) :
    cleanupFrom delim inside count stop (cell :: rest) =
      let later := cleanupFrom delim inside (count + 1)
        (if cell.char ≠ ' ' ∨ inside = true then some (count + 1) else stop) rest
      (cell :: later.1, later.2) := by
  conv_lhs => unfold cleanupFrom
  rw [if_neg hbackslash, if_neg hquote]

/-- The further bytes of a char are kept. -/
theorem cleanupFrom_replicate (delim : Option Char) (inside : Bool) (start stop n count : Nat)
    (rest : List Traced) :
    cleanupFrom delim inside count (some count)
      (List.replicate n ⟨continuation, start, stop⟩ ++ rest) =
      let later := cleanupFrom delim inside (count + n) (some (count + n)) rest
      (List.replicate n ⟨continuation, start, stop⟩ ++ later.1, later.2) := by
  induction n generalizing count with
  | zero => rfl
  | succ n ih =>
      have hspace : continuation ≠ ' ' := by decide
      have hquote : continuation ≠ '\'' := by decide
      rw [List.replicate_succ, List.cons_append,
        cleanupFrom_plain (by decide : continuation ≠ '\\') (fun h => hquote h.1)]
      simp only [if_pos (Or.inl hspace), ih, Nat.add_assoc, Nat.add_comm 1]
      rfl

/-- An entry that is written as it is brings its bytes with it. -/
theorem cleanupFrom_bytesOf {cell : Traced} {inside : Bool} {rest : List Traced}
    (hbackslash : cell.char ≠ '\\')
    (hquote : ¬(cell.char = '\'' ∧ (inside || hasQuote (chars rest)) = true)) (delim : Option Char)
    (count : Nat) (stop : Option Nat) :
    cleanupFrom delim inside count stop (bytesOf cell ++ rest) =
      let later := cleanupFrom delim inside (count + (bytesOf cell).length)
        (if cell.char ≠ ' ' ∨ inside = true then some (count + (bytesOf cell).length)
          else stop) rest
      (bytesOf cell ++ later.1, later.2) := by
  by_cases hascii : cell.char.toNat < 128
  · rw [bytesOf_ascii hascii, List.singleton_append, cleanupFrom_plain hbackslash hquote]
    rfl
  · have hne : cell.char ≠ ' ' ∧ cell.char ≠ '\'' := by
      constructor
      all_goals
        intro heq
        rw [heq] at hascii
        exact hascii (by decide)
    rw [bytesOf, List.cons_append, cleanupFrom_plain hbackslash (fun h => hne.2 h.1)]
    simp only [if_pos (Or.inl hne.1), cleanupFrom_replicate, List.length_cons,
      List.length_replicate, Nat.add_assoc, Nat.add_comm 1]
    rfl

/-- What a cleanup wrote of a text, and what it wrote of its bytes: the bytes of the same entries,
with the terminator behind the bytes of the same one. -/
def SameEnd (count count' : Nat) (stop stop' : Option Nat)
    (written written' : List Traced × Option Nat) :
    Prop :=
  written'.1 = expand written.1 ∧
    (written.2 = stop ∧ written'.2 = stop' ∨
      ∃ kept ≤ written.1.length, written.2 = some (count + kept) ∧
        written'.2 = some (count' + (expand (written.1.take kept)).length))

/-- One more entry is written, and then the rest. -/
theorem SameEnd.cons {count count' : Nat} {stop stop' : Option Nat} {cell : Traced}
    {later later' : List Traced × Option Nat} (middle middle' : Option Nat)
    (h : SameEnd (count + 1) (count' + (bytesOf cell).length) middle middle' later later')
    (hmiddle : middle = stop ∧ middle' = stop' ∨
      middle = some (count + 1) ∧ middle' = some (count' + (bytesOf cell).length)) :
    SameEnd count count' stop stop' (cell :: later.1, later.2)
      (bytesOf cell ++ later'.1, later'.2) := by
  obtain ⟨hwritten, hend⟩ := h
  refine ⟨by rw [hwritten, expand_cons], ?_⟩
  rcases hend with ⟨hstop, hstop'⟩ | ⟨kept, hkept, hstop, hstop'⟩
  · rcases hmiddle with ⟨rfl, rfl⟩ | ⟨rfl, rfl⟩
    · exact .inl ⟨hstop, hstop'⟩
    · exact .inr ⟨1, Nat.succ_le_succ (Nat.zero_le _), hstop, by simpa using hstop'⟩
  · refine .inr ⟨kept + 1, Nat.succ_le_succ hkept, ?_, ?_⟩
    · rw [hstop, Nat.add_assoc, Nat.add_comm 1]
    · rw [hstop', List.take_succ_cons, expand_cons, List.length_append, Nat.add_assoc]

/-- **A cleanup of the bytes writes the bytes of what a cleanup of the text writes.** -/
theorem cleanupFrom_expand {delim : Option Char} (hdelim : AsciiDelim delim) (inside : Bool)
    (count : Nat) (stop : Option Nat) (text : List Traced) :
    ∀ (count' : Nat) (stop' : Option Nat),
      SameEnd count count' stop stop' (cleanupFrom delim inside count stop text)
        (cleanupFrom delim inside count' stop' (expand text)) := by
  fun_induction cleanupFrom delim inside count stop text with
  | case1 inside count stop =>
      intro count' stop'
      exact ⟨rfl, .inl ⟨rfl, rfl⟩⟩
  | case2 inside count stop cell hcell =>
      intro count' stop'
      have hbytes : bytesOf cell = [cell] := bytesOf_ascii (by rw [hcell]; decide)
      have hwritten : cleanupFrom delim inside count' stop' (expand [cell]) =
          ([cell], some (count' + 1)) := by
        rw [expand_cons, hbytes]
        simp [cleanupFrom, hcell]
      rw [hwritten]
      refine ⟨by rw [expand_cons, hbytes]; rfl, .inr ⟨1, Nat.le_refl 1, rfl, ?_⟩⟩
      simp [hbytes]
  | case3 inside count stop cell hcell next rest e he later ih =>
      intro count' stop'
      obtain ⟨hnext, hascii⟩ := unescape_ascii hdelim he
      have hbytes : bytesOf cell = [cell] := bytesOf_ascii (by rw [hcell]; decide)
      have hwritten : bytesOf (⟨e, cell.start, next.stop⟩ : Traced) =
          [⟨e, cell.start, next.stop⟩] :=
        bytesOf_ascii hascii
      have hstep : cleanupFrom delim inside count' stop' (expand (cell :: next :: rest)) =
          let later' := cleanupFrom delim inside (count' + 1) (some (count' + 1)) (expand rest)
          (bytesOf ⟨e, cell.start, next.stop⟩ ++ later'.1, later'.2) := by
        rw [expand_cons, expand_cons, hbytes, bytesOf_ascii hnext, hwritten]
        simp only [List.singleton_append]
        conv_lhs => unfold cleanupFrom
        simp only [hcell, if_true, he]
      rw [hstep]
      refine SameEnd.cons (some (count + 1)) (some (count' + 1)) ?_ ?_
      · rw [hwritten]
        exact ih (count' + 1) (some (count' + 1))
      · rw [hwritten]
        exact .inr ⟨rfl, rfl⟩
  | case4 inside count stop cell hcell next rest hnone later ih =>
      intro count' stop'
      have hbytes : bytesOf cell = [cell] := bytesOf_ascii (by rw [hcell]; decide)
      have hstep : cleanupFrom delim inside count' stop' (expand (cell :: next :: rest)) =
          let later' := cleanupFrom delim inside (count' + 1) (some (count' + 1))
            (expand (next :: rest))
          (bytesOf cell ++ later'.1, later'.2) := by
        rw [expand_cons, hbytes, expand_cons, bytesOf]
        simp only [List.cons_append, List.nil_append]
        conv_lhs => unfold cleanupFrom
        simp only [hcell, if_true, hnone]
      rw [hstep]
      refine SameEnd.cons (some (count + 1)) (some (count' + 1)) ?_ ?_
      · rw [hbytes]
        exact ih (count' + 1) (some (count' + 1))
      · rw [hbytes]
        exact .inr ⟨rfl, rfl⟩
  | case5 inside count stop cell rest hcell hquote ih =>
      intro count' stop'
      have hbytes : bytesOf cell = [cell] := bytesOf_ascii (by rw [hquote.1]; decide)
      have hmore : hasQuote (chars (expand rest)) = hasQuote (chars rest) := by
        simpa using hasQuote_expand rest []
      have hstep : cleanupFrom delim inside count' stop' (expand (cell :: rest)) =
          cleanupFrom delim (!inside) count' (if inside then stop' else some count')
          (expand rest) := by
        rw [expand_cons, hbytes, List.singleton_append]
        conv_lhs => unfold cleanupFrom
        rw [if_neg hcell, if_pos ⟨hquote.1, by rw [hmore]; exact hquote.2⟩]
      rw [hstep]
      obtain ⟨hwritten, hend⟩ := ih count' (if inside then stop' else some count')
      refine ⟨hwritten, ?_⟩
      cases inside with
      | true => exact hend
      | false =>
          rcases hend with ⟨hstop, hstop'⟩ | hend
          · exact .inr ⟨0, Nat.zero_le _, hstop, hstop'⟩
          · exact .inr hend
  | case6 inside count stop cell rest hcell hquote kept later ih =>
      intro count' stop'
      have hmore : hasQuote (chars (expand rest)) = hasQuote (chars rest) := by
        simpa using hasQuote_expand rest []
      rw [expand_cons, cleanupFrom_bytesOf hcell (by rwa [hmore])]
      refine SameEnd.cons _ _ (ih _ _) ?_
      simp only [kept]
      split
      · exact .inr ⟨rfl, rfl⟩
      · exact .inl ⟨rfl, rfl⟩

theorem skipSpaces_expand (text : List Traced) :
    skipSpaces (expand text) = expand (skipSpaces text) := by
  induction text with
  | nil => rfl
  | cons cell text ih =>
      by_cases hcell : cell.char = ' '
      · have hbytes : bytesOf cell = [cell] := bytesOf_ascii (by rw [hcell]; decide)
        rw [expand_cons, hbytes, List.singleton_append, skipSpaces, skipSpaces,
          List.dropWhile_cons_of_pos (by simpa using hcell),
          List.dropWhile_cons_of_pos (by simpa using hcell)]
        exact ih
      · rw [expand_cons, bytesOf, List.cons_append, skipSpaces, skipSpaces,
          List.dropWhile_cons_of_neg (by simpa using hcell),
          List.dropWhile_cons_of_neg (by simpa using hcell), expand_cons, bytesOf, List.cons_append]

/-- **A cleanup keeps every char with its bytes.** -/
theorem cleanup_expand {delim : Option Char} (hdelim : AsciiDelim delim) (text : List Traced) :
    cleanup (expand text) delim = expand (cleanup text delim) := by
  obtain ⟨hwritten, hend⟩ := cleanupFrom_expand hdelim false 0 none (skipSpaces text) 0 none
  rw [cleanup, cleanupWritten, skipSpaces_expand, cleanup, cleanupWritten]
  simp only [hwritten]
  rcases hend with ⟨hstop, hstop'⟩ | ⟨kept, hkept, hstop, hstop'⟩
  · rw [hstop, hstop']
    rfl
  · rw [hstop, hstop']
    simp only [Option.getD_some, Nat.zero_add]
    generalize (cleanupFrom delim false 0 none (skipSpaces text)).1 = out
    have hout : expand out = expand (out.take kept) ++ expand (out.drop kept) := by
      rw [← expand_append, List.take_append_drop]
    rw [hout, List.take_left]

/-! ### The scans, byte by byte -/

/-- The terminators of a buffer. -/
def nuls : Text := ['\x00', '\x00']

/-- What a scan cuts out of a text behind `left`, beside what it cuts out of the bytes of the same
text. A cut is at the delimiter, and only the last token of the bytes may end past them. -/
inductive Scan (delim : Char) : List Traced → List Traced → List Span → List Span → Prop
  | done (left gap : List Traced) : Scan delim left gap [] []
  | last (left gap p : List Traced) {stop : Nat}
      (hstop : (expand (left ++ gap ++ p)).length ≤ stop) :
      Scan delim left (gap ++ p) [⟨(left ++ gap).length, (left ++ gap ++ p).length⟩]
        [⟨(expand (left ++ gap)).length, stop⟩]
  | cut (left gap p : List Traced) {cell : Traced} {rest : List Traced} {spans spans' : List Span}
      (hcell : cell.char = delim)
      (hrest : Scan delim (left ++ gap ++ p ++ [cell]) rest spans spans') :
      Scan delim left (gap ++ p ++ cell :: rest)
        (⟨(left ++ gap).length, (left ++ gap ++ p).length⟩ :: spans)
        (⟨(expand (left ++ gap)).length, (expand (left ++ gap ++ p)).length⟩ :: spans')

/-- A cut of a text and one of its bytes: the same tokens, and the same quotes. -/
structure SameScan (delim : Char) (left s : List Traced) (cut cut' : Cut) : Prop where
  scan : Scan delim left s cut.spans cut'.spans
  held : cut'.heldDelimiter = cut.heldDelimiter
  quote : cut'.openQuote = cut.openQuote

section CharDelim

variable {delim : Char} (limit : Option Nat) (i begun : Nat) (inside : Bool)

theorem charDelimFrom_backslash (c : Char) (rest : Text) :
    charDelimFrom delim limit i (some begun) inside ('\\' :: c :: rest) =
      charDelimFrom delim limit (i + 2) (some begun) inside rest := by
  conv_lhs => unfold charDelimFrom
  simp

theorem charDelimFrom_quote {rest : Text} (h : (inside || hasQuote rest) = true) :
    charDelimFrom delim limit i (some begun) inside ('\'' :: rest) =
      charDelimFrom delim limit (i + 1) (some begun) (!inside) rest := by
  conv_lhs => unfold charDelimFrom
  simp [h]

theorem charDelimFrom_delim {c : Char} {rest : Text} (hnul : c ≠ '\x00') (hbackslash : c ≠ '\\')
    (hquote : ¬(c = '\'' ∧ (false || hasQuote rest) = true)) (hc : c = delim) :
    charDelimFrom delim limit i (some begun) false (c :: rest) =
      let later := charDelimFrom delim (fewer limit) (i + 1) none false rest
      { later with spans := ⟨begun, i⟩ :: later.spans } := by
  conv_lhs => unfold charDelimFrom
  rw [if_neg hnul, if_neg (by simp), if_neg hbackslash, if_neg hquote, if_pos ⟨hc, rfl⟩]
  rfl

theorem charDelimFrom_pass {c : Char} {rest : Text} (hnul : c ≠ '\x00') (hbackslash : c ≠ '\\')
    (hquote : ¬(c = '\'' ∧ (inside || hasQuote rest) = true)) (hc : ¬(c = delim ∧ inside = false)) :
    charDelimFrom delim limit i (some begun) inside (c :: rest) =
      let later := charDelimFrom delim limit (i + 1) (some begun) inside rest
      { later with heldDelimiter := c = delim || later.heldDelimiter } := by
  conv_lhs => unfold charDelimFrom
  rw [if_neg hnul, if_neg (by simp), if_neg hbackslash, if_neg hquote, if_neg hc]
  rfl

/-- The further bytes of a char are passed over. -/
theorem charDelimFrom_replicate (hdelim : delim.toNat < 128) (n : Nat) (rest : Text) :
    charDelimFrom delim limit i (some begun) inside (List.replicate n continuation ++ rest) =
      charDelimFrom delim limit (i + n) (some begun) inside rest := by
  induction n generalizing i with
  | zero => rfl
  | succ n ih =>
      have hne : continuation ≠ delim := fun h => ne_continuation hdelim h.symm
      rw [List.replicate_succ, List.cons_append, charDelimFrom_pass limit i begun inside (by decide)
        (by decide) (fun h => absurd h.1 (by decide)) (fun h => hne h.1), ih]
      simp only [decide_eq_false hne, Bool.false_or, Nat.add_assoc, Nat.add_comm 1]

end CharDelim

theorem length_append_single (left gap p : List Traced) (cell : Traced) :
    (left ++ gap ++ (p ++ [cell])).length = (left ++ gap ++ p).length + 1 := by
  simp only [List.length_append, List.length_cons, List.length_nil]
  omega

theorem length_expand_single (left gap p : List Traced) (cell : Traced) :
    (expand (left ++ gap ++ (p ++ [cell]))).length =
      (expand (left ++ gap ++ p)).length + 1 + further cell := by
  simp only [expand_append, expand_cons, expand_nil, List.length_append, length_bytesOf,
    List.append_nil]
  omega

theorem append_single (gap p rest : List Traced) (cell : Traced) :
    gap ++ p ++ cell :: rest = gap ++ (p ++ [cell]) ++ rest := by simp

theorem further_ascii {cell : Traced} (h : cell.char.toNat < 128) : further cell = 0 := by
  rw [further, utf8Size_ascii h, ite_self]

theorem chars_expand_cons (cell : Traced) (rest : List Traced) (post : Text) :
    chars (expand (cell :: rest)) ++ post =
      cell.char :: (List.replicate (further cell) continuation ++
        (chars (expand rest) ++ post)) := by
  rw [expand_cons, chars_append, chars_bytesOf, List.append_assoc, List.cons_append]

theorem hasQuote_bytes (cell : Traced) {rest : List Traced} (hrest : NulFree rest) :
    hasQuote (List.replicate (further cell) continuation ++ (chars (expand rest) ++ nuls)) =
      hasQuote (chars rest) := by
  rw [hasQuote_replicate, hasQuote_expand]
  induction rest with
  | nil => rfl
  | cons next rest ih =>
      rw [chars_cons, List.cons_append, hasQuote_cons, hasQuote_cons,
        ih (List.forall_mem_cons.mp hrest).2]

/-- Between two tokens a scan begins the next one, if it may. -/
theorem SameScan.begin {delim : Char} {left s : List Traced} (hs : NulFree s) (limit : Option Nat)
    (h : SameScan delim left ([] ++ [] ++ s)
      (charDelimFrom delim limit (left ++ [] ++ []).length
        (some (left ++ []).length) false (chars s))
      (charDelimFrom delim limit (expand (left ++ [] ++ [])).length
        (some (expand (left ++ [])).length)
        false (chars (expand s) ++ nuls))) :
    SameScan delim left s (charDelimFrom delim limit left.length none false (chars s))
      (charDelimFrom delim limit (expand left).length none false (chars (expand s) ++ nuls)) := by
  cases s with
  | nil => exact ⟨.done left [], rfl, rfl⟩
  | cons cell rest =>
      have hcell : cell.char ≠ '\x00' := hs cell List.mem_cons_self
      cases hlimit : lastToken limit with
      | true =>
          have hspan : charDelimFrom delim limit left.length none false (chars (cell :: rest)) =
              ⟨[⟨(left ++ []).length, (left ++ [] ++ (cell :: rest)).length⟩], false, false⟩ := by
            rw [chars_cons]
            unfold charDelimFrom
            rw [if_neg hcell, if_pos ⟨rfl, hlimit⟩]
            simp only [length_chars, List.append_nil, List.length_append, List.length_cons,
              Nat.add_assoc]
          have hspan' : charDelimFrom delim limit (expand left).length none false
              (chars (expand (cell :: rest)) ++ nuls) =
              ⟨[⟨(expand (left ++ [])).length,
                (expand left).length + (chars (expand (cell :: rest)) ++ nuls).length⟩], false,
                false⟩ := by
            rw [chars_expand_cons]
            unfold charDelimFrom
            rw [if_neg hcell, if_pos ⟨rfl, hlimit⟩]
            simp only [List.append_nil, List.length_cons, Nat.add_assoc]
          rw [hspan, hspan']
          refine ⟨.last left [] (cell :: rest) ?_, rfl, rfl⟩
          simp only [List.append_nil, expand_append, List.length_append, length_chars]
          omega
      | false =>
          simp only [List.append_nil, List.nil_append] at h
          rw [chars_cons, charDelimFrom_begin hcell delim hlimit, chars_expand_cons,
            charDelimFrom_begin hcell delim hlimit, ← chars_cons, ← chars_expand_cons]
          exact h

/-- **The scan on a delimiter cuts the bytes of a text where it cuts the text.** -/
theorem scan_charDelimFrom {delim : Char} (hdelim : delim.toNat < 128) (s : List Traced)
    (hs : NulFree s) (limit : Option Nat) (left gap p : List Traced) (inside : Bool) :
    SameScan delim left (gap ++ p ++ s)
      (charDelimFrom delim limit (left ++ gap ++ p).length
        (some (left ++ gap).length) inside (chars s))
      (charDelimFrom delim limit (expand (left ++ gap ++ p)).length
        (some (expand (left ++ gap)).length)
        inside (chars (expand s) ++ nuls)) := by
  -- A backslash takes the next entry with it, so the induction is on the length.
  induction hn : s.length using Nat.strong_induction_on generalizing s limit left gap p inside with
  | _ n ih =>
    cases s with
    | nil =>
        rw [List.append_nil]
        exact ⟨.last left gap p (Nat.le_refl _), rfl, rfl⟩
    | cons cell rest =>
        obtain ⟨hcell, hrest⟩ := List.forall_mem_cons.mp hs
        rw [List.length_cons] at hn
        rw [chars_expand_cons, chars_cons]
        by_cases hbackslash : cell.char = '\\'
        · have hfurther : further cell = 0 := further_ascii (by rw [hbackslash]; decide)
          rw [hbackslash, hfurther]
          cases rest with
          | nil =>
              have hspan' : charDelimFrom delim limit (expand (left ++ gap ++ p)).length
                  (some (expand (left ++ gap)).length) inside
                  ('\\' :: (List.replicate 0 continuation ++ (chars (expand []) ++ nuls))) =
                  ⟨[⟨(expand (left ++ gap)).length, (expand (left ++ gap ++ p)).length + 2⟩], false,
                    inside⟩ := by
                show charDelimFrom delim limit _ _ inside ['\\', '\x00', '\x00'] = _
                rw [charDelimFrom_backslash, charDelimFrom_stop]
              have hspan : charDelimFrom delim limit (left ++ gap ++ p).length
                  (some (left ++ gap).length) inside ('\\' :: chars []) =
                  ⟨[⟨(left ++ gap).length, (left ++ gap ++ (p ++ [cell])).length⟩], false,
                  inside⟩ := by
                rw [length_append_single]
                simp [charDelimFrom]
              rw [hspan, hspan', append_single, List.append_nil]
              refine ⟨.last left gap (p ++ [cell]) ?_, rfl, rfl⟩
              rw [length_expand_single, hfurther]
              omega
          | cons next rest =>
              rw [List.replicate_zero, List.nil_append, chars_expand_cons, chars_cons,
                charDelimFrom_backslash, charDelimFrom_backslash,
                charDelimFrom_replicate _ _ _ _ hdelim]
              have hlater := ih rest.length (by rw [List.length_cons] at hn; omega) rest
                (List.forall_mem_cons.mp hrest).2 limit left gap (p ++ [cell] ++ [next]) inside rfl
              rw [append_single, append_single]
              rw [length_append_single, length_append_single, length_expand_single,
                length_expand_single, hfurther] at hlater
              exact hlater
        · by_cases hquote : cell.char = '\'' ∧ (inside || hasQuote (chars rest)) = true
          · have hfurther : further cell = 0 := further_ascii (by rw [hquote.1]; decide)
            have hmore := hasQuote_bytes cell hrest
            rw [hfurther, List.replicate_zero, List.nil_append] at hmore ⊢
            rw [hquote.1, charDelimFrom_quote _ _ _ _ hquote.2,
              charDelimFrom_quote _ _ _ _ (by rw [hmore]; exact hquote.2)]
            have hlater := ih rest.length (by omega) rest hrest limit left gap (p ++ [cell])
              (!inside)
              rfl
            rw [append_single]
            rwa [length_append_single, length_expand_single, hfurther] at hlater
          · have hquote' : ¬(cell.char = '\'' ∧ (inside || hasQuote (List.replicate (further cell)
                continuation ++ (chars (expand rest) ++ nuls))) = true) := by
              rwa [hasQuote_bytes cell hrest]
            by_cases hcut : cell.char = delim ∧ inside = false
            · obtain ⟨hchar, rfl⟩ := hcut
              have hfurther : further cell = 0 := further_ascii (by rw [hchar]; exact hdelim)
              rw [charDelimFrom_delim _ _ _ hcell hbackslash hquote hchar,
                charDelimFrom_delim _ _ _ hcell hbackslash hquote' hchar]
              have hlater := SameScan.begin hrest (fewer limit)
                (ih rest.length (by omega) rest hrest
                (fewer limit) (left ++ gap ++ p ++ [cell]) [] [] false rfl)
              have hlength := length_append_single left gap p cell
              have hlength' := length_expand_single left gap p cell
              rw [← List.append_assoc] at hlength hlength'
              rw [hlength, hlength', hfurther] at hlater
              rw [hfurther]
              exact ⟨.cut left gap p hchar hlater.scan, hlater.held, hlater.quote⟩
            · rw [charDelimFrom_pass _ _ _ _ hcell hbackslash hquote hcut,
                charDelimFrom_pass _ _ _ _ hcell hbackslash hquote' hcut,
                charDelimFrom_replicate _ _ _ _ hdelim]
              have hlater := ih rest.length (by omega) rest hrest limit left gap
                (p ++ [cell]) inside
                rfl
              rw [append_single]
              rw [length_append_single, length_expand_single] at hlater
              exact ⟨hlater.scan, congrArg (_ || ·) hlater.held, hlater.quote⟩

section BlankDelim

variable (limit : Option Nat) (i begun : Nat) (inside : Bool)

theorem blankDelimFrom_backslash (c : Char) (rest : Text) :
    blankDelimFrom limit i (.findDelim begun) inside ('\\' :: c :: rest) =
      blankDelimFrom limit (i + 2) (.findDelim begun) inside rest := by
  conv_lhs => unfold blankDelimFrom
  simp [BlankState.settle]

theorem blankDelimFrom_quote (rest : Text) :
    blankDelimFrom limit i (.findDelim begun) inside ('\'' :: rest) =
      blankDelimFrom limit (i + 1) (.findDelim begun) (!inside) rest := by
  conv_lhs => unfold blankDelimFrom
  simp [BlankState.settle]

theorem blankDelimFrom_cut (rest : Text) :
    blankDelimFrom limit i (.findDelim begun) false (' ' :: rest) =
      let later := blankDelimFrom (fewer limit) (i + 1) .skipEndingSpace false rest
      { later with spans := ⟨begun, i⟩ :: later.spans } := by
  conv_lhs => unfold blankDelimFrom
  simp [BlankState.settle]

theorem blankDelimFrom_pass {c : Char} (hnul : c ≠ '\x00') (hbackslash : c ≠ '\\')
    (hquote : c ≠ '\'') (hc : ¬(c = ' ' ∧ inside = false)) (rest : Text) :
    blankDelimFrom limit i (.findDelim begun) inside (c :: rest) =
      let later := blankDelimFrom limit (i + 1) (.findDelim begun) inside rest
      { later with heldDelimiter := c = ' ' || later.heldDelimiter } := by
  conv_lhs => unfold blankDelimFrom
  rw [if_neg hnul, BlankState.settle]
  simp only [if_neg hbackslash, if_neg hquote, if_neg hc]

/-- The further bytes of a char are passed over. -/
theorem blankDelimFrom_replicate (n : Nat) (rest : Text) :
    blankDelimFrom limit i (.findDelim begun) inside (List.replicate n continuation ++ rest) =
      blankDelimFrom limit (i + n) (.findDelim begun) inside rest := by
  induction n generalizing i with
  | zero => rfl
  | succ n ih =>
      have hne : continuation ≠ ' ' := by decide
      rw [List.replicate_succ, List.cons_append, blankDelimFrom_pass limit i begun inside
        (by decide)
        (by decide) (by decide) (fun h => hne h.1), ih]
      simp only [decide_eq_false hne, Bool.false_or, Nat.add_assoc, Nat.add_comm 1]

end BlankDelim

/-- Behind a token the scan on blanks begins the next one, if it may. -/
theorem SameScan.blankEnding {n : Nat}
    (ih : ∀ s : List Traced, s.length < n → NulFree s → ∀ limit left gap p inside,
      SameScan ' ' left (gap ++ p ++ s)
        (blankDelimFrom limit (left ++ gap ++ p).length (.findDelim (left ++ gap).length) inside
          (chars s))
        (blankDelimFrom limit (expand (left ++ gap ++ p)).length
          (.findDelim (expand (left ++ gap)).length) inside (chars (expand s) ++ nuls)))
    {s : List Traced} (hn : s.length < n) (hs : NulFree s) (limit : Option Nat)
    (left gap : List Traced) :
    SameScan ' ' left (gap ++ s)
      (blankDelimFrom limit (left ++ gap).length .skipEndingSpace false (chars s))
      (blankDelimFrom limit (expand (left ++ gap)).length .skipEndingSpace false
        (chars (expand s) ++ nuls)) := by
  induction s generalizing gap with
  | nil =>
      have hstop : blankDelimFrom limit (expand (left ++ gap)).length .skipEndingSpace false
          (chars (expand []) ++ nuls) = ⟨[], false, false⟩ := blankDelimFrom_stop _ _ _ _ _
      rw [List.append_nil, hstop]
      exact ⟨.done left gap, rfl, rfl⟩
  | cons cell rest ih' =>
      obtain ⟨hcell, hrest⟩ := List.forall_mem_cons.mp hs
      by_cases hspace : cell.char = ' '
      · have hfurther : further cell = 0 := further_ascii (by rw [hspace]; decide)
        have hskip : ∀ (i : Nat) (text : Text),
            blankDelimFrom limit i .skipEndingSpace false (' ' :: text) =
              blankDelimFrom limit (i + 1) .skipEndingSpace false text := by
          intro i text
          conv_lhs => unfold blankDelimFrom
          simp [BlankState.settle]
        have hlater := ih' (Nat.lt_of_succ_lt hn) hrest (gap ++ [cell])
        have hlength := length_append_single left [] gap cell
        have hlength' := length_expand_single left [] gap cell
        rw [List.append_nil] at hlength hlength'
        rw [chars_expand_cons, chars_cons, hspace, hfurther, hskip, hskip,
          show gap ++ cell :: rest = gap ++ [cell] ++ rest by simp]
        rwa [hlength, hlength', hfurther] at hlater
      · cases hlimit : lastToken limit with
        | true =>
            have hstart : ∀ (i : Nat) (text : Text),
                blankDelimFrom limit i .skipEndingSpace false (cell.char :: text) =
                  ⟨[⟨i, i + text.length + 1⟩], false, false⟩ := by
              intro i text
              unfold blankDelimFrom
              rw [if_neg hcell, BlankState.settle, if_neg hspace, if_pos hlimit]
            rw [chars_expand_cons, chars_cons, hstart, hstart]
            have hspan : (left ++ gap).length + (chars rest).length + 1 =
                (left ++ gap ++ cell :: rest).length := by
              simp only [List.length_append, List.length_cons, length_chars]
              omega
            rw [hspan]
            refine ⟨.last left gap (cell :: rest) ?_, rfl, rfl⟩
            simp only [expand_append, expand_cons, List.length_append, length_bytesOf, length_chars,
              List.length_replicate]
            omega
        | false =>
            have hsettle : ∀ i, BlankState.skipEndingSpace.settle limit i cell.char =
                .findDelim i := by
              intro i
              rw [BlankState.settle, if_neg hspace, hlimit]
              rfl
            have hfind := ih (cell :: rest) hn hs limit left gap [] false
            rw [chars_expand_cons, chars_cons] at hfind ⊢
            rw [blankDelimFrom_settle _ _ _ _ (hsettle _),
              blankDelimFrom_settle _ _ _ _ (hsettle _), if_neg hcell, if_neg hcell]
            simp only [List.append_nil] at hfind
            exact hfind

/-- **The scan on blanks cuts the bytes of a text where it cuts the text.** -/
theorem scan_blankDelimFrom (s : List Traced) (hs : NulFree s) (limit : Option Nat)
    (left gap p : List Traced) (inside : Bool) :
    SameScan ' ' left (gap ++ p ++ s)
      (blankDelimFrom limit (left ++ gap ++ p).length (.findDelim (left ++ gap).length) inside
        (chars s))
      (blankDelimFrom limit (expand (left ++ gap ++ p)).length
        (.findDelim (expand (left ++ gap)).length)
        inside (chars (expand s) ++ nuls)) := by
  induction hn : s.length using Nat.strong_induction_on generalizing s limit left gap p inside with
  | _ n ih =>
    cases s with
    | nil =>
        rw [List.append_nil]
        exact ⟨.last left gap p (Nat.le_refl _), rfl, rfl⟩
    | cons cell rest =>
        obtain ⟨hcell, hrest⟩ := List.forall_mem_cons.mp hs
        rw [List.length_cons] at hn
        rw [chars_expand_cons, chars_cons]
        by_cases hbackslash : cell.char = '\\'
        · have hfurther : further cell = 0 := further_ascii (by rw [hbackslash]; decide)
          rw [hbackslash, hfurther]
          cases rest with
          | nil =>
              have hspan' : blankDelimFrom limit (expand (left ++ gap ++ p)).length
                  (.findDelim (expand (left ++ gap)).length) inside
                  ('\\' :: (List.replicate 0 continuation ++ (chars (expand []) ++ nuls))) =
                  ⟨[⟨(expand (left ++ gap)).length, (expand (left ++ gap ++ p)).length + 2⟩], false,
                    inside⟩ := by
                show blankDelimFrom limit _ _ inside ['\\', '\x00', '\x00'] = _
                rw [blankDelimFrom_backslash, blankDelimFrom_stop]
                rfl
              have hspan : blankDelimFrom limit (left ++ gap ++ p).length
                  (.findDelim (left ++ gap).length) inside ('\\' :: chars []) =
                  ⟨[⟨(left ++ gap).length, (left ++ gap ++ (p ++ [cell])).length⟩], false,
                  inside⟩ := by
                rw [length_append_single]
                simp [blankDelimFrom, BlankState.settle]
              rw [hspan, hspan', append_single, List.append_nil]
              refine ⟨.last left gap (p ++ [cell]) ?_, rfl, rfl⟩
              rw [length_expand_single, hfurther]
              omega
          | cons next rest =>
              rw [List.replicate_zero, List.nil_append, chars_expand_cons, chars_cons,
                blankDelimFrom_backslash, blankDelimFrom_backslash, blankDelimFrom_replicate]
              have hlater := ih rest.length (by rw [List.length_cons] at hn; omega) rest
                (List.forall_mem_cons.mp hrest).2 limit left gap (p ++ [cell] ++ [next]) inside rfl
              rw [append_single, append_single]
              rw [length_append_single, length_append_single, length_expand_single,
                length_expand_single, hfurther] at hlater
              exact hlater
        · by_cases hquote : cell.char = '\''
          · have hfurther : further cell = 0 := further_ascii (by rw [hquote]; decide)
            rw [hquote, hfurther, List.replicate_zero, List.nil_append, blankDelimFrom_quote,
              blankDelimFrom_quote]
            have hlater := ih rest.length (by omega) rest hrest limit left gap (p ++ [cell])
              (!inside)
              rfl
            rw [append_single]
            rwa [length_append_single, length_expand_single, hfurther] at hlater
          · by_cases hcut : cell.char = ' ' ∧ inside = false
            · obtain ⟨hchar, rfl⟩ := hcut
              have hfurther : further cell = 0 := further_ascii (by rw [hchar]; decide)
              rw [hchar, blankDelimFrom_cut, blankDelimFrom_cut]
              have hlater := SameScan.blankEnding
                (fun s hlt hs limit left gap p inside =>
                  ih s.length hlt s hs limit left gap p inside rfl)
                (by omega : rest.length < n) hrest (fewer limit) (left ++ gap ++ p ++ [cell]) []
              have hlength := length_append_single left gap p cell
              have hlength' := length_expand_single left gap p cell
              rw [← List.append_assoc] at hlength hlength'
              rw [List.append_nil, hlength, hlength', hfurther] at hlater
              rw [hfurther]
              exact ⟨.cut left gap p hchar hlater.scan, hlater.held, hlater.quote⟩
            · rw [blankDelimFrom_pass _ _ _ _ hcell hbackslash hquote hcut,
                blankDelimFrom_pass _ _ _ _ hcell hbackslash hquote hcut, blankDelimFrom_replicate]
              have hlater := ih rest.length (by omega) rest hrest limit left gap
                (p ++ [cell]) inside
                rfl
              rw [append_single]
              rw [length_append_single, length_expand_single] at hlater
              exact ⟨hlater.scan, congrArg (_ || ·) hlater.held, hlater.quote⟩

/-- Leading blanks belong to the first token. -/
theorem scan_blankInitial {s : List Traced} (hs : NulFree s) (limit : Option Nat)
    (p : List Traced) :
    SameScan ' ' [] (p ++ s)
      (blankDelimFrom limit p.length (.skipInitialSpace 0) false (chars s))
      (blankDelimFrom limit (expand p).length (.skipInitialSpace 0) false
        (chars (expand s) ++ nuls)) := by
  induction s generalizing p with
  | nil =>
      rw [List.append_nil]
      exact ⟨.last [] [] p (Nat.le_refl _), rfl, rfl⟩
  | cons cell rest ih =>
      obtain ⟨hcell, hrest⟩ := List.forall_mem_cons.mp hs
      by_cases hspace : cell.char = ' '
      · have hfurther : further cell = 0 := further_ascii (by rw [hspace]; decide)
        have hskip : ∀ (i : Nat) (text : Text),
            blankDelimFrom limit i (.skipInitialSpace 0) false (' ' :: text) =
              blankDelimFrom limit (i + 1) (.skipInitialSpace 0) false text := by
          intro i text
          conv_lhs => unfold blankDelimFrom
          simp [BlankState.settle]
        have hlater := ih hrest (p ++ [cell])
        have hlength := length_append_single [] [] p cell
        have hlength' := length_expand_single [] [] p cell
        simp only [List.nil_append] at hlength hlength'
        rw [chars_expand_cons, chars_cons, hspace, hfurther, hskip, hskip,
          show p ++ cell :: rest = p ++ [cell] ++ rest by simp]
        rwa [hlength, hlength', hfurther] at hlater
      · have hsettle : ∀ i, (BlankState.skipInitialSpace 0).settle limit i cell.char =
            .findDelim 0 := by
          intro i
          rw [BlankState.settle, if_neg hspace]
        have hfind := scan_blankDelimFrom (cell :: rest) hs limit [] [] p false
        rw [chars_expand_cons, chars_cons] at hfind ⊢
        rw [blankDelimFrom_settle _ _ _ _ (hsettle _), blankDelimFrom_settle _ _ _ _ (hsettle _),
          if_neg hcell, if_neg hcell]
        exact hfind

/-! ### A whole text -/

/-- What a split cuts out of a text, before its cleanup. -/
def pureCut (text : Text) (delim : Char) (limit : Option Nat) : Cut :=
  if delim = ' ' then blankDelim text limit else charDelim text delim limit

/-- **A split cuts the bytes of a text where it cuts the text.** -/
theorem scan_pureCut {delim : Char} (hdelim : delim.toNat < 128) {s : List Traced} (hs : NulFree s)
    (limit : Option Nat) :
    SameScan delim [] s (pureCut (chars s) delim limit)
      (pureCut (chars (expand s) ++ nuls) delim limit) := by
  rw [pureCut, pureCut]
  by_cases hspace : delim = ' '
  · rw [if_pos hspace, if_pos hspace, hspace]
    rw [blankDelim, blankDelim]
    cases s with
    | nil =>
        have hstop : blankDelimFrom limit 0 .start false (chars (expand []) ++ nuls) =
            ⟨[], false, false⟩ := blankDelimFrom_stop _ _ _ _ _
        rw [hstop]
        exact ⟨.done [] [], rfl, rfl⟩
    | cons cell rest =>
        obtain ⟨hcell, hrest⟩ := List.forall_mem_cons.mp hs
        cases hlimit : lastToken limit with
        | true =>
            have hstart : ∀ text : Text,
                blankDelimFrom limit 0 .start false (cell.char :: text) =
                  ⟨[⟨0, text.length + 1⟩], false, false⟩ := by
              intro text
              unfold blankDelimFrom
              rw [if_neg hcell, BlankState.settle, if_pos hlimit, Nat.zero_add]
            rw [chars_expand_cons, chars_cons, hstart, hstart, length_chars]
            refine ⟨.last [] [] (cell :: rest) ?_, rfl, rfl⟩
            simp only [List.nil_append, expand_cons, List.length_append, length_bytesOf,
              length_chars, List.length_replicate]
            omega
        | false =>
            by_cases hblank : cell.char = ' '
            · have hfurther : further cell = 0 := further_ascii (by rw [hblank]; decide)
              have hskip : ∀ text : Text,
                  blankDelimFrom limit 0 .start false (' ' :: text) =
                    blankDelimFrom limit 1 (.skipInitialSpace 0) false text := by
                intro text
                conv_lhs => unfold blankDelimFrom
                simp [BlankState.settle, hlimit]
              have hlater := scan_blankInitial hrest limit [cell]
              rw [chars_expand_cons, chars_cons, hblank, hfurther, hskip, hskip]
              have hbytes : (expand [cell]).length = 1 := by
                rw [expand_cons, expand_nil, List.append_nil, length_bytesOf, hfurther]
              rwa [hbytes] at hlater
            · have hsettle : BlankState.start.settle limit 0 cell.char = .findDelim 0 := by
                rw [BlankState.settle, hlimit, if_neg Bool.false_ne_true, if_neg hblank]
              have hfind := scan_blankDelimFrom (cell :: rest) hs limit [] [] [] false
              rw [chars_expand_cons, chars_cons] at hfind ⊢
              rw [blankDelimFrom_settle _ _ _ _ hsettle, blankDelimFrom_settle _ _ _ _ hsettle,
                if_neg hcell, if_neg hcell]
              exact hfind
  · rw [if_neg hspace, if_neg hspace]
    exact SameScan.begin hs limit (scan_charDelimFrom hdelim s hs limit [] [] [] false)

/-- The part of a text a span covers. -/
def slice (text : List Traced) (span : Span) : List Traced :=
  (text.take span.stop).drop span.start

theorem slice_append (before p after : List Traced) :
    slice (before ++ p ++ after) ⟨before.length, (before ++ p).length⟩ = p := by
  rw [slice, List.take_left, List.drop_left]

/-- The spans of the bytes are those of the text. -/
theorem Scan.origins {delim : Char} {left s : List Traced} {spans spans' : List Span}
    (h : Scan delim left s spans spans') (hwhole : Whole (left ++ s)) :
    List.Forall₂ (fun span' span =>
      let within := fun index => ((CBuffer.withOrigins (left ++ s)).2[index]?).elim
        (left ++ s).length
        (min · (left ++ s).length)
      (⟨within span'.start, within span'.stop⟩ : Span) = span) spans' spans := by
  induction h with
  | done => exact .nil
  | last left gap p hstop =>
      refine .cons ?_ .nil
      simp only
      rw [← List.append_assoc] at hwhole ⊢
      rw [hwhole.origin_past hstop]
      rw [List.append_assoc] at hwhole ⊢
      rw [← List.append_assoc] at hwhole ⊢
      rw [hwhole.origin]
  | @cut left gap p cell rest spans spans' hcell hrest ih =>
      have htext : left ++ (gap ++ p ++ cell :: rest) = left ++ gap ++ p ++ [cell] ++ rest := by
        simp
      have hshort : left ++ gap ++ p ++ [cell] ++ rest = left ++ gap ++ (p ++ [cell] ++ rest) := by
        simp
      have hlong : left ++ gap ++ p ++ [cell] ++ rest = left ++ gap ++ p ++ ([cell] ++ rest) := by
        simp
      rw [htext] at hwhole ⊢
      refine .cons ?_ (ih hwhole)
      simp only
      rw [hshort] at hwhole ⊢
      rw [hwhole.origin]
      rw [← hshort, hlong] at hwhole ⊢
      rw [hwhole.origin]

/-! ### In place -/

theorem nulFree_expand {text : List Traced} (h : NulFree text) : NulFree (expand text) := by
  intro cell hcell
  obtain ⟨origin, horigin, hbyte⟩ := List.mem_flatMap.mp hcell
  rcases List.mem_cons.mp hbyte with rfl | hfurther
  · exact h cell horigin
  · rw [(List.mem_replicate.mp hfurther).2]
    exact (by decide : continuation ≠ '\x00')

/-- Cells that hold strings at the spans given, each with its terminator. -/
inductive Held : Nat → List Traced → List Span → List (List Traced) → Prop
  | nil (i : Nat) (cells : List Traced) : Held i cells [] []
  | cons {i stop : Nat} {gap p rest : List Traced} {nul : Traced} {spans : List Span}
      {ps : List (List Traced)} (hp : NulFree p) (hnul : nul.char = '\x00')
      (hrest : Held (i + (gap ++ p ++ [nul]).length) rest spans ps) :
      Held i (gap ++ p ++ nul :: rest) (⟨i + gap.length, stop⟩ :: spans) (p :: ps)

/-- Every token is terminated where it was cut. -/
theorem terminateSpans_scan {delim : Char} (hdelim : delim.toNat < 128) (hne : delim ≠ '\x00')
    {nul : Traced} (hnul : nul.char = '\x00') {left s : List Traced} {spans spans' : List Span}
    (h : Scan delim left s spans spans') (hs : NulFree s) (index : Nat) (pre : List Traced)
    (hpre : pre.length = index + (expand left).length) :
    ∃ cells, (CBuffer.mk (pre ++ (expand s ++ [nul, nul]))).terminateSpans index delim spans' =
        ⟨pre ++ cells⟩ ∧
      Held (expand left).length cells spans'
        (spans.map fun span => expand (slice (left ++ s) span)) := by
  induction h generalizing pre with
  | done left gap => exact ⟨expand gap ++ [nul, nul], rfl, .nil _ _⟩
  | last left gap p hstop =>
      refine ⟨expand (gap ++ p) ++ [nul, nul], ?_, ?_⟩
      · have hchar : ∀ at', (expand (left ++ gap ++ p)).length ≤ at' →
            (CBuffer.mk (pre ++ (expand (gap ++ p) ++ [nul, nul]))).charAt (index + at') =
            '\x00' := by
          intro at' hat
          have hcells : pre ++ (expand (gap ++ p) ++ [nul, nul]) =
              (pre ++ expand (gap ++ p)) ++ [nul, nul] := by simp
          have hlength : (pre ++ expand (gap ++ p)).length ≤ index + at' := by
            simp only [expand_append, List.length_append, hpre] at hat ⊢
            omega
          rw [CBuffer.charAt, hcells, List.getElem?_append_right hlength]
          cases hget : ([nul, nul] : List Traced)[index + at' -
              (pre ++ expand (gap ++ p)).length]? with
          | none => rfl
          | some cell =>
              obtain rfl : cell = nul := by simpa using List.mem_of_getElem? hget
              exact hnul
        rw [CBuffer.terminateSpans, List.foldl_cons, List.foldl_nil, hchar _ hstop,
          if_neg (Ne.symm hne)]
      · have hslice : slice (left ++ (gap ++ p)) ⟨(left ++ gap).length, (left ++ gap ++ p).length⟩ =
            p := by
          have := slice_append (left ++ gap) p []
          simpa using this
        have hstart : (expand (left ++ gap)).length = (expand left).length +
            (expand gap).length := by
          simp
        have hfree : NulFree p := hs.append_right
        rw [List.map_singleton, hslice, hstart, expand_append]
        exact .cons (nulFree_expand hfree) hnul (.nil _ [nul])
  | @cut left gap p cell rest spans spans' hcell hrest ih =>
      have hbytes : bytesOf cell = [cell] := bytesOf_ascii (by rw [hcell]; exact hdelim)
      have hbuffer : pre ++ (expand (gap ++ p ++ cell :: rest) ++ [nul, nul]) =
          (pre ++ expand gap ++ expand p) ++ cell :: (expand rest ++ [nul, nul]) := by
        simp [hbytes]
      have hcut : index + (expand (left ++ gap ++ p)).length =
          (pre ++ expand gap ++ expand p).length := by
        simp [hpre, Nat.add_assoc]
      have hpre' : (pre ++ expand gap ++ expand p ++ [{ cell with char := '\x00' }]).length =
          index + (expand (left ++ gap ++ p ++ [cell])).length := by
        simp [hpre, hbytes, Nat.add_assoc]
      obtain ⟨cells, hterminated, hheld⟩ := ih (List.forall_mem_cons.mp hs.append_right).2 _ hpre'
      refine ⟨expand gap ++ expand p ++ { cell with char := '\x00' } :: cells, ?_, ?_⟩
      · show CBuffer.terminateSpans (if _ then _ else _) index delim spans' = _
        rw [hbuffer, hcut, charAt_append, if_pos hcell, terminate_append]
        simp only [List.append_assoc, List.cons_append, List.nil_append] at hterminated ⊢
        exact hterminated
      · have hslice : slice (left ++ (gap ++ p ++ cell :: rest))
            ⟨(left ++ gap).length, (left ++ gap ++ p).length⟩ = p := by
          have := slice_append (left ++ gap) p (cell :: rest)
          simpa using this
        have hstart : (expand (left ++ gap)).length = (expand left).length +
            (expand gap).length := by
          simp
        have htext : left ++ (gap ++ p ++ cell :: rest) = left ++ gap ++ p ++ [cell] ++ rest := by
          simp
        have hfree : NulFree p := hs.append_left.append_right
        rw [List.map_cons, hslice, hstart, htext]
        refine .cons (nulFree_expand hfree) rfl ?_
        simpa [hbytes, Nat.add_assoc] using hheld

/-- Each string is cleaned where it stands, and no other one changes. -/
theorem cleanSpans_held (delim : Option Char) {i : Nat} {cells : List Traced} {spans : List Span}
    {ps : List (List Traced)} (h : Held i cells spans ps) (index : Nat) (pre : List Traced)
    (hpre : pre.length = index + i) :
    ∃ body tokens,
      (CBuffer.mk (pre ++ cells)).cleanSpans index delim spans = (⟨pre ++ body⟩, tokens) ∧
      tokens.map (·.raw) = spans.map (fun span => ⟨index + span.start, index + span.stop⟩) ∧
      List.Forall₂ (fun token p => (CBuffer.mk (pre ++ body)).cStr token.start = cleanup p delim)
        tokens ps := by
  induction h generalizing pre with
  | nil i cells => exact ⟨cells, [], rfl, rfl, .nil⟩
  | @cons i stop gap p rest nul spans ps hp hnul hrest ih =>
      obtain ⟨lead, junk, stopper, hstopper, -, -, hlength, hclean⟩ :=
        cleanup_inPlace (pre ++ gap) rest hp hnul delim
      have hregion : (pre ++ gap ++ (lead ++ cleanup p delim ++ stopper :: junk)).length =
          index + (i + (gap ++ p ++ [nul]).length) := by
        simp only [List.length_append, List.length_cons, List.length_nil, hpre]
        omega
      obtain ⟨body, tokens, hcleaned, hraw, hstrings⟩ := ih _ hregion
      refine ⟨gap ++ (lead ++ cleanup p delim ++ stopper :: junk) ++ body,
        ⟨⟨index + (i + gap.length), index + stop⟩, (pre ++ gap).length + lead.length⟩ :: tokens, ?_,
        ?_, ?_⟩
      · have hbuffer : pre ++ (gap ++ p ++ nul :: rest) = pre ++ gap ++ p ++ nul :: rest := by simp
        have hindex : index + (i + gap.length) = (pre ++ gap).length := by
          simp [hpre, Nat.add_assoc]
        rw [CBuffer.cleanSpans, hbuffer]
        simp only [hindex, hclean, hcleaned]
        simp only [List.append_assoc]
      · rw [List.map_cons, hraw, List.map_cons]
      · simp only [← List.append_assoc] at hstrings ⊢
        refine .cons ?_ hstrings
        have hbuffer : pre ++ gap ++ lead ++ cleanup p delim ++ stopper :: junk ++ body =
            (pre ++ gap ++ lead) ++ cleanup p delim ++ stopper :: (junk ++ body) := by simp
        rw [hbuffer, ← List.length_append]
        exact cStr_append (cleanup_nulFree delim hp) hstopper

/-- What the cleanup of a split on `delim` takes for its delimiter. -/
def cleanupDelim (delim : Char) : Option Char := if delim = ' ' then none else some delim

theorem asciiDelim_cleanupDelim {delim : Char} (h : delim.toNat < 128) :
    AsciiDelim (cleanupDelim delim) := by
  intro d hd
  rw [cleanupDelim] at hd
  split at hd
  · cases hd
  · obtain rfl := Option.some.inj hd
    exact h

/-- **The split of a buffer from an index on**: the spans the pure scan cuts out of the text, each
cleaned, with the bytes of every char. -/
theorem split_expand {delim : Char} (hascii : delim.toNat < 128) (hne : delim ≠ '\x00')
    {limit : Option Nat} (hlimit : limit ≠ some 0) {text : List Traced} (hfree : NulFree text)
    (pre : List Traced) {nul : Traced} (hnul : nul.char = '\x00') :
    ∃ body tokens spans,
      (CBuffer.mk (pre ++ (expand text ++ [nul, nul]))).split pre.length delim limit =
        (⟨pre ++ body⟩, ⟨tokens, delim, (pureCut (chars text) delim limit).heldDelimiter,
          (pureCut (chars text) delim limit).openQuote, false⟩) ∧
      Scan delim [] text (pureCut (chars text) delim limit).spans spans ∧
      tokens.map (·.raw) = spans.map
        (fun span => ⟨pre.length + span.start, pre.length + span.stop⟩) ∧
      List.Forall₂ (fun token span => (CBuffer.mk (pre ++ body)).cStr token.start =
        expand (cleanup (slice text span) (cleanupDelim delim))) tokens
        (pureCut (chars text) delim limit).spans := by
  have hscan := scan_pureCut hascii hfree limit
  obtain ⟨cells, hterminated, hheld⟩ :=
    terminateSpans_scan hascii hne hnul hscan.scan hfree pre.length pre rfl
  obtain ⟨body, tokens, hcleaned, hraw, hstrings⟩ :=
    cleanSpans_held (cleanupDelim delim) hheld pre.length pre rfl
  refine ⟨body, tokens, _, ?_, hscan.scan, hraw, ?_⟩
  · have hchars : chars ((pre ++ (expand text ++ [nul, nul])).drop pre.length) =
        chars (expand text) ++ nuls := by
      rw [List.drop_left, chars_append, nuls]
      simp [hnul]
    have hcut : (if limit = some 0 then ⟨[], false, false⟩
        else if delim = ' ' then blankDelim (chars (expand text) ++ nuls) limit
        else charDelim (chars (expand text) ++ nuls) delim limit : Cut) =
        pureCut (chars (expand text) ++ nuls) delim limit := by
      rw [if_neg hlimit, pureCut]
    have hdelim : (if delim = ' ' then none else some delim) = cleanupDelim delim := rfl
    simp only [CBuffer.split, hchars, hcut, hdelim, hterminated, hcleaned, hscan.held, hscan.quote]
  · rw [List.forall₂_map_right_iff] at hstrings
    refine hstrings.imp ?_
    intro token span hstring
    rw [hstring, cleanup_expand (asciiDelim_cleanupDelim hascii)]
    rfl

theorem Ordered.sublist {lo : Nat} {left right : List Traced} (h : left.Sublist right)
    (hright : Ordered lo right) : Ordered lo left := by
  induction h generalizing lo with
  | slnil => exact hright
  | cons cell _ ih =>
      cases hright with
      | cons hlo hwidth hrest => exact (ih hrest).mono (hlo.trans hwidth.le)
  | cons_cons cell _ ih =>
      cases hright with
      | cons hlo hwidth hrest => exact .cons hlo hwidth (ih hrest)

/-- What a cleanup writes stands for chars at growing places, too. -/
theorem Ordered.cleanupFrom (delim : Option Char) (inside : Bool) (count : Nat) (stop : Option Nat)
    (cells : List Traced) :
    ∀ lo, Ordered lo cells → Ordered lo (cleanupFrom delim inside count stop cells).1 := by
  fun_induction SwitchPasses.cleanupFrom delim inside count stop cells with
  | case1 => exact fun _ h => h
  | case2 => exact fun _ h => h
  | case3 inside count stop cell hcell next rest e he later ih =>
      intro lo h
      cases h with
      | cons hlo hwidth hrest =>
          cases hrest with
          | cons hlo' hwidth' hrest' =>
              exact .cons hlo (hwidth.trans_le (hlo'.trans hwidth'.le)) (ih _ hrest')
  | case4 inside count stop cell hcell next rest hnone later ih =>
      intro lo h
      cases h with
      | cons hlo hwidth hrest => exact .cons hlo hwidth (ih _ hrest)
  | case5 inside count stop cell rest hcell hquote ih =>
      intro lo h
      cases h with
      | cons hlo hwidth hrest => exact ih _ (hrest.mono (hlo.trans hwidth.le))
  | case6 inside count stop cell rest hcell hquote kept later ih =>
      intro lo h
      cases h with
      | cons hlo hwidth hrest => exact .cons hlo hwidth (ih _ hrest)

theorem Ordered.cleanup {lo : Nat} {raw : List Traced} (h : Ordered lo raw) (delim : Option Char) :
    Ordered lo (cleanup raw delim) :=
  .sublist (List.take_sublist _ _)
    (Ordered.cleanupFrom delim false 0 none _ lo (h.sublist (List.dropWhile_sublist _)))

theorem Ordered.slice {lo : Nat} {text : List Traced} (h : Ordered lo text) (span : Span) :
    Ordered lo (slice text span) :=
  h.sublist ((List.drop_sublist _ _).trans (List.take_sublist _ _))

/-- What `separateOn` reads back: the pure scan's spans, each with its cleanup, and the scan's
flags. -/
theorem separateOn_pure {lo : Nat} {text : List Traced} (hordered : Ordered lo text)
    (hfree : NulFree text) {delim : Char} (hascii : delim.toNat < 128) (hne : delim ≠ '\x00')
    {limit : Option Nat} (hlimit : limit ≠ some 0) :
    separateOn text delim limit =
      ⟨(pureCut (chars text) delim limit).spans.map fun span =>
          ⟨span, cleanup (slice text span) (cleanupDelim delim)⟩,
        delim, (pureCut (chars text) delim limit).heldDelimiter,
        (pureCut (chars text) delim limit).openQuote⟩ := by
  obtain ⟨nul, hnul, hcells⟩ := hordered.whole.withOrigins
  obtain ⟨body, tokens, spans, hsplit, hscan, hraw, hstrings⟩ :=
    split_expand hascii hne hlimit hfree [] hnul
  rw [List.length_nil, List.nil_append, ← hcells] at hsplit
  have hraw' : tokens.map (·.raw) = spans := by
    simpa only [List.length_nil, Nat.zero_add, List.map_id'] using hraw
  -- The tokens and the spans of the text go in step.
  have horigins := hscan.origins hordered.whole
  rw [← hraw', List.forall₂_map_left_iff] at horigins
  rw [separateOn, readBack]
  simp only [hsplit]
  refine congrArg (Separated.mk · _ _ _) ?_
  rw [← List.forall₂_eq_eq_eq, List.forall₂_map_left_iff, List.forall₂_map_right_iff]
  refine horigins.mp ?_ hstrings
  intro token span hspan hstring
  have hwhole := ((hordered.slice span).cleanup (cleanupDelim delim)).whole
  rw [hstring, hwhole.filter_expand]
  exact congrArg (Token.mk · _) hspan

/-- **The split in place is the pure split.** Each token of `separateOn` is a span the pure scan
cuts out of the text, with the cleanup of that span for its text, whatever quotes, backslashes,
blanks and multi-byte chars meet at its edges. The text is a trace, or what an earlier pass leaves
of one. -/
theorem separateOn_eq_pure {lo : Nat} (text : List Traced) (delim : Char) (limit : Option Nat)
    (hordered : Ordered lo text) (hfree : NulFree text) (hascii : delim.toNat < 128)
    (hne : delim ≠ '\x00') (hlimit : limit ≠ some 0) :
    (separateOn text delim limit).tokens =
      (pureCut (chars text) delim limit).spans.map fun span =>
        ⟨span, cleanup (slice text span) (cleanupDelim delim)⟩ := by
  rw [separateOn_pure hordered hfree hascii hne hlimit]

/-- Two quoted texts with multi-byte chars at their edges, and a dangling backslash. -/
def accented : Text := " 'é,à' ,ü\\".toList

theorem separateOn_eq_pure_accented :
    (separateOn (trace accented) ',' none).tokens.map (fun token => (token.raw, chars token.text)) =
      [(⟨0, 7⟩, "é,à".toList), (⟨8, 10⟩, "ü\\".toList)] := by
  have hfree : NulFree (trace accented) := (nulFree_iff _).mpr (by decide +kernel)
  rw [separateOn_eq_pure (trace accented) ',' none (ordered_traceFrom 0 accented) hfree
    (by decide) (by decide) (by decide)]
  decide +kernel

end SwitchPasses
end EslTokio
