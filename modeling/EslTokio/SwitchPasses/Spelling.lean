import EslTokio.SwitchPasses.InPlace

/-!
# A char and its bytes

The buffer of a split has an entry for every UTF-8 byte: the char itself and a stand-in for each of
its further bytes. The passes copy, drop and join entries; here no char comes apart from its bytes,
so what is read back out of a buffer is a text again.

* `Ordered` — entries for whole chars, at growing places of the input.
* `Spelled` — entries for chars and their bytes.
* `spell` — the chars of such entries, every entry counted.
* **`untrace_eq`** — entries that spell a text are read back as that text.
-/

namespace EslTokio
namespace SwitchPasses

open Library

/-- Entries for whole chars, each behind the one before. -/
inductive Ordered : Nat → List Traced → Prop
  | nil (lo : Nat) : Ordered lo []
  | cons {lo : Nat} {cell : Traced} {rest : List Traced} (hlo : lo ≤ cell.start)
      (hwidth : cell.start < cell.stop) (hrest : Ordered cell.stop rest) : Ordered lo (cell :: rest)

/-- Entries for chars and their bytes, `pending` bytes of a char still to come. -/
inductive Spelled : (pending lo : Nat) → List Traced → Prop
  | nil (lo : Nat) : Spelled 0 lo []
  | char {lo : Nat} {cell : Traced} {rest : List Traced} (hlo : lo ≤ cell.start)
      (hwidth : cell.start < cell.stop)
      (hrest : Spelled (cell.char.utf8Size - 1) cell.stop rest) : Spelled 0 lo (cell :: rest)
  | byte {pending lo : Nat} {cell : Traced} {rest : List Traced} (hchar : cell.char = continuation)
      (hcell : isContinuation cell = true) (hrest : Spelled pending lo rest) :
      Spelled (pending + 1) lo (cell :: rest)

/-- A text with a stand-in for every further byte of its chars. -/
def spell (text : Text) : Text :=
  text.flatMap fun c => c :: List.replicate (c.utf8Size - 1) continuation

@[simp] theorem spell_nil : spell [] = [] := rfl

theorem spell_cons (c : Char) (text : Text) :
    spell (c :: text) = c :: (List.replicate (c.utf8Size - 1) continuation ++ spell text) := rfl

@[simp] theorem spell_append (left right : Text) :
    spell (left ++ right) = spell left ++ spell right :=
  List.flatMap_append

theorem spell_injective : Function.Injective spell := by
  intro left
  induction left with
  | nil =>
      intro right h
      cases right with
      | nil => rfl
      | cons c right => cases h
  | cons c left ih =>
      intro right h
      cases right with
      | nil => cases h
      | cons d right =>
          rw [spell_cons, spell_cons, List.cons.injEq] at h
          obtain ⟨rfl, h⟩ := h
          rw [ih (List.append_cancel_left h)]

/-! ### Into a buffer and back -/

theorem Ordered.mono {lo low : Nat} {cells : List Traced} (h : Ordered lo cells) (hle : low ≤ lo) :
    Ordered low cells := by
  cases h with
  | nil => exact .nil low
  | cons hlo hwidth hrest => exact .cons (hle.trans hlo) hwidth hrest

theorem Spelled.mono {pending lo low : Nat} {cells : List Traced} (h : Spelled pending lo cells)
    (hle : low ≤ lo) : Spelled pending low cells := by
  induction h generalizing low with
  | nil => exact .nil low
  | char hlo hwidth hrest ih => exact .char (hle.trans hlo) hwidth hrest
  | byte hchar hcell hrest ih => exact .byte hchar hcell (ih hle)

theorem Spelled.replicate {lo : Nat} {cell : Traced} (hchar : cell.char = continuation)
    (hcell : isContinuation cell = true) {rest : List Traced}
    (hrest : Spelled 0 lo rest) (n : Nat) :
    Spelled n lo (List.replicate n cell ++ rest) := by
  induction n with
  | zero => exact hrest
  | succ n ih => exact .byte hchar hcell ih

theorem Ordered.head_not_continuation {lo : Nat} {cells : List Traced} (h : Ordered lo cells) :
    cells.head?.any isContinuation = false := by
  cases h with
  | nil => rfl
  | cons hlo hwidth hrest => simpa [isContinuation] using hwidth.le

/-- A buffer is filled with the bytes of every char. -/
theorem Ordered.byteCells {lo : Nat} {cells : List Traced} (h : Ordered lo cells) (index : Nat) :
    Spelled 0 lo ((byteCells index cells).map Prod.fst) ∧
      chars ((SwitchPasses.byteCells index cells).map Prod.fst) = spell (chars cells) := by
  induction h generalizing index with
  | nil => exact ⟨.nil _, rfl⟩
  | @cons lo cell rest hlo hwidth hrest ih =>
      obtain ⟨hspelled, hchars⟩ := ih (index + 1)
      have hcells : (SwitchPasses.byteCells index (cell :: rest)).map Prod.fst =
          cell :: (List.replicate (cell.char.utf8Size - 1)
          ⟨continuation, cell.stop + 1, cell.stop⟩ ++
            (SwitchPasses.byteCells (index + 1) rest).map Prod.fst) := by
        simp only [SwitchPasses.byteCells, hrest.head_not_continuation, hwidth, and_self, if_true,
          List.cons_append, List.map_cons, List.map_append, List.map_replicate]
      rw [hcells]
      refine ⟨.char hlo hwidth (.replicate rfl (by simp [isContinuation]) hspelled _), ?_⟩
      rw [chars_cons, chars_append, hchars, chars_cons, spell_cons]
      simp [chars]

/-- A text whose bytes are there already fills a buffer as it is. -/
theorem Spelled.byteCells {pending lo : Nat} {cells : List Traced} (h : Spelled pending lo cells)
    (index : Nat) : (byteCells index cells).map Prod.fst = cells := by
  induction h generalizing index with
  | nil => rfl
  | @char lo cell rest hlo hwidth hrest ih =>
      have hfurther : (if cell.start < cell.stop ∧ rest.head?.any isContinuation = false then
          List.replicate (cell.char.utf8Size - 1)
            ((⟨continuation, cell.stop + 1, cell.stop⟩ : Traced), index + 1) else []) = [] := by
        split_ifs with hcontinued
        · -- No byte follows, so the char has only one.
          cases hsize : cell.char.utf8Size - 1 with
          | zero => rfl
          | succ n =>
              rw [hsize] at hrest
              cases hrest with
              | byte hchar hcell hrest => simp [hcell] at hcontinued
        · rfl
      simp only [SwitchPasses.byteCells, hfurther, List.cons_append, List.nil_append, List.map_cons,
        ih]
  | @byte pending lo cell rest hchar hcell hrest ih =>
      have hnot : ¬ cell.start < cell.stop := by
        simp only [isContinuation, decide_eq_true_eq] at hcell
        omega
      simp only [SwitchPasses.byteCells, hnot, false_and, if_false, List.cons_append,
        List.nil_append, List.map_cons, ih]

theorem Spelled.chars_eq {pending lo : Nat} {cells : List Traced} (h : Spelled pending lo cells) :
    chars cells = List.replicate pending continuation ++ spell (untrace cells) := by
  induction h with
  | nil => rfl
  | @char lo cell rest hlo hwidth hrest ih =>
      have hcell : isContinuation cell = false := by simpa [isContinuation] using hwidth.le
      have huntrace : untrace (cell :: rest) = cell.char :: untrace rest := by
        rw [untrace, List.filter_cons_of_pos (by simp [hcell])]
        rfl
      rw [chars_cons, ih, huntrace, spell_cons]
      rfl
  | @byte pending lo cell rest hchar hcell hrest ih =>
      have huntrace : untrace (cell :: rest) = untrace rest := by
        rw [untrace, List.filter_cons_of_neg (by simp [hcell])]
        rfl
      rw [chars_cons, ih, huntrace, hchar]
      rfl

/-- **Entries that spell a text are read back as that text.** -/
theorem untrace_eq {lo : Nat} {cells : List Traced} {text : Text} (h : Spelled 0 lo cells)
    (hchars : chars cells = spell text) : untrace cells = text :=
  spell_injective (by rw [← hchars, h.chars_eq]; rfl)

/-! ### Through the passes -/

theorem utf8Size_ascii {c : Char} (h : c.toNat < 128) : c.utf8Size = 1 := by
  have hle : c.val ≤ 0x7f := by
    rw [UInt32.le_iff_toNat_le]
    exact Nat.le_of_lt_succ h
  simp [Char.utf8Size, hle]

/-- Entries come apart ahead of a char. -/
theorem Spelled.append {pending lo : Nat} {left right : List Traced} {cell : Traced}
    (hcell : cell.char ≠ continuation) (h : Spelled pending lo (left ++ cell :: right)) :
    Spelled pending lo left ∧ Spelled 0 lo (cell :: right) := by
  induction left generalizing pending lo with
  | nil =>
      cases h with
      | char hlo hwidth hrest => exact ⟨.nil lo, .char hlo hwidth hrest⟩
      | byte hchar _ _ => exact absurd hchar hcell
  | cons first left ih =>
      cases h with
      | char hlo hwidth hrest =>
          obtain ⟨hleft, hright⟩ := ih hrest
          exact ⟨.char hlo hwidth hleft, hright.mono (hlo.trans hwidth.le)⟩
      | byte hchar hfirst hrest =>
          obtain ⟨hleft, hright⟩ := ih hrest
          exact ⟨.byte hchar hfirst hleft, hright⟩

theorem Spelled.tail {pending lo : Nat} {cell : Traced} {rest : List Traced}
    (hcell : cell.char.toNat < 128) (h : Spelled pending lo (cell :: rest)) :
    pending = 0 ∧ lo ≤ cell.start ∧ cell.start < cell.stop ∧ Spelled 0 cell.stop rest := by
  cases h with
  | char hlo hwidth hrest =>
      rw [utf8Size_ascii hcell] at hrest
      exact ⟨rfl, hlo, hwidth, hrest⟩
  | byte hchar _ _ =>
      rw [hchar] at hcell
      exact absurd hcell (by decide)

theorem Spelled.tail_mono {pending lo : Nat} {cell : Traced} {rest : List Traced}
    (hcell : cell.char.toNat < 128) (h : Spelled pending lo (cell :: rest)) :
    Spelled 0 lo rest := by
  obtain ⟨-, hlo, hwidth, hrest⟩ := h.tail hcell
  exact hrest.mono (hlo.trans hwidth.le)

theorem ne_continuation {c : Char} (h : c.toNat < 128) : c ≠ continuation := by
  rintro rfl
  exact absurd h (by decide)

theorem unescape_ascii {next e : Char} {delim : Option Char} (hdelim : ∀ d ∈ delim, d.toNat < 128)
    (h : unescape next delim = some e) : next.toNat < 128 ∧ e.toNat < 128 := by
  unfold unescape at h
  split_ifs at h with hself hn hr ht hs
  · obtain rfl : next = e := Option.some.inj h
    have hnext : next.toNat < 128 := by
      rcases hself with hself | rfl | rfl | rfl
      · exact hdelim next hself.symm
      all_goals decide
    exact ⟨hnext, hnext⟩
  all_goals
    obtain rfl := Option.some.inj h
    subst next
    decide

/-- A cleanup on an ASCII delimiter leaves no char without its bytes. -/
theorem Spelled.cleanupFrom {delim : Option Char} (hdelim : ∀ d ∈ delim, d.toNat < 128)
    (inside : Bool) (count : Nat) (stop : Option Nat) (cells : List Traced) :
    ∀ pending lo, Spelled pending lo cells →
      Spelled pending lo (cleanupFrom delim inside count stop cells).1 := by
  fun_induction SwitchPasses.cleanupFrom delim inside count stop cells with
  | case1 => exact fun _ _ h => h
  | case2 => exact fun _ _ h => h
  | case3 inside count stop cell hcell next rest e he later ih =>
      intro pending lo h
      obtain ⟨hnext, hascii⟩ := unescape_ascii hdelim he
      obtain ⟨rfl, hlo, hwidth, hrest⟩ := h.tail (by rw [hcell]; decide)
      obtain ⟨-, hlo', hwidth', hrest'⟩ := hrest.tail hnext
      refine .char hlo (hwidth.trans_le (hlo'.trans hwidth'.le)) ?_
      rw [utf8Size_ascii hascii]
      exact ih _ _ hrest'
  | case4 inside count stop cell hcell next rest hnone later ih =>
      intro pending lo h
      obtain ⟨rfl, hlo, hwidth, hrest⟩ := h.tail (by rw [hcell]; decide)
      refine .char hlo hwidth ?_
      rw [hcell]
      exact ih _ _ hrest
  | case5 inside count stop cell rest hcell hquote ih =>
      intro pending lo h
      obtain ⟨rfl, hlo, hwidth, hrest⟩ := h.tail (by rw [hquote.1]; decide)
      exact ih _ _ (hrest.mono (hlo.trans hwidth.le))
  | case6 inside count stop cell rest hcell hquote kept later ih =>
      intro pending lo h
      cases h with
      | char hlo hwidth hrest => exact .char hlo hwidth (ih _ _ hrest)
      | byte hchar hbyte hrest => exact .byte hchar hbyte (ih _ _ hrest)

theorem Spelled.cleanup {delim : Option Char} (hdelim : ∀ d ∈ delim, d.toNat < 128) {lo : Nat}
    {raw : List Traced} (h : Spelled 0 lo raw) (htrimmed : Trimmed (chars raw)) :
    Spelled 0 lo (cleanup raw delim) := by
  rw [cleanup_trimmed delim htrimmed]
  exact Spelled.cleanupFrom hdelim false 0 none raw 0 lo h

/-- Entries that differ in a char of as many bytes. -/
structure Rewritten (cell other : Traced) : Prop where
  start : other.start = cell.start
  stop : other.stop = cell.stop
  size : other.char.utf8Size = cell.char.utf8Size
  byte : cell.char = continuation → other.char = continuation

theorem Spelled.rewritten {pending lo : Nat} {cells others : List Traced}
    (h : Spelled pending lo cells) (hothers : List.Forall₂ Rewritten cells others) :
    Spelled pending lo others := by
  induction h generalizing others with
  | nil lo =>
      cases hothers
      exact .nil lo
  | @char lo cell rest hlo hwidth hrest ih =>
      cases hothers with
      | cons hcell hothers =>
          refine .char (by rwa [hcell.start]) (by rwa [hcell.start, hcell.stop]) ?_
          rw [hcell.size, hcell.stop]
          exact ih hothers
  | @byte pending lo cell rest hchar hcontinuation hrest ih =>
      cases hothers with
      | cons hcell hothers =>
          refine .byte (hcell.byte hchar) ?_ (ih hothers)
          rwa [isContinuation, hcell.start, hcell.stop]

/-- The trace of a text. -/
theorem ordered_traceFrom (offset : Nat) (text : Text) :
    Ordered offset (traceFrom offset text) := by
  induction text generalizing offset with
  | nil => exact .nil offset
  | cons c text ih =>
      exact .cons (Nat.le_refl offset) (Nat.lt_add_of_pos_right c.utf8Size_pos) (ih _)

theorem chars_traceFrom (offset : Nat) (text : Text) : chars (traceFrom offset text) = text := by
  induction text generalizing offset with
  | nil => rfl
  | cons c text ih => rw [traceFrom, chars_cons, ih]

/-- A buffer that holds whole chars: their bytes and the terminators. -/
theorem CBuffer.new_ordered {lo : Nat} {cells : List Traced} (h : Ordered lo cells) :
    ∃ s nul, nul.char = '\x00' ∧ Spelled 0 lo s ∧ chars s = spell (chars cells) ∧
      CBuffer.new cells = ⟨s ++ [nul, nul]⟩ := by
  obtain ⟨hspelled, hchars⟩ := h.byteCells 0
  exact ⟨_, _, rfl, hspelled, hchars, rfl⟩

/-- A buffer that holds chars and their bytes already. -/
theorem CBuffer.new_spelled {lo : Nat} {cells : List Traced} (h : Spelled 0 lo cells) :
    ∃ nul, nul.char = '\x00' ∧ CBuffer.new cells = ⟨cells ++ [nul, nul]⟩ := by
  refine ⟨⟨'\x00', (extent cells).stop, (extent cells).stop⟩, rfl, ?_⟩
  rw [CBuffer.new, CBuffer.withOrigins]
  dsimp only
  rw [h.byteCells 0]

end SwitchPasses
end EslTokio
