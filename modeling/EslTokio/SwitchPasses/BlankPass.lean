import EslTokio.SwitchPasses.EscapedText
import EslTokio.SwitchPasses.Joined

/-!
# The blank split over a rendered field

The API's argument split cuts at a space outside quotes. A rendered field stands between quotes
where it holds a space, so the split goes over it and takes one level off.

* `BlankGoes` — the scan for blanks goes over a text, inside quotes or outside.
* `blankThrough_fieldText` — it goes over a field.
-/

namespace EslTokio
namespace SwitchPasses

open Library

/-- The scan for blanks goes over a text, inside quotes or outside, and cuts nothing. -/
def BlankGoes (inside : Bool) (x : Text) : Prop :=
  ∀ limit i begun rest,
    (blankDelimFrom limit i (.findDelim begun) inside (x ++ rest)).spans =
        (blankDelimFrom limit (i + x.length) (.findDelim begun) inside rest).spans ∧
      (blankDelimFrom limit i (.findDelim begun) inside (x ++ rest)).openQuote =
        (blankDelimFrom limit (i + x.length) (.findDelim begun) inside rest).openQuote

variable {inside : Bool}

theorem BlankGoes.nil (inside : Bool) : BlankGoes inside [] := fun _ _ _ _ => ⟨rfl, rfl⟩

theorem BlankGoes.append {left right : Text} (hleft : BlankGoes inside left)
    (hright : BlankGoes inside right) :
    BlankGoes inside (left ++ right) := by
  intro limit i begun rest
  obtain ⟨hspans, hopen⟩ := hleft limit i begun (right ++ rest)
  obtain ⟨hspans', hopen'⟩ := hright limit (i + left.length) begun rest
  rw [List.append_assoc, List.length_append, ← Nat.add_assoc]
  exact ⟨hspans.trans hspans', hopen.trans hopen'⟩

theorem blankGoes_plain {c : Char} (hbackslash : c ≠ '\\') (hquote : c ≠ '\'') (hnul : c ≠ '\x00')
    (hspace : c = ' ' → inside = true) : BlankGoes inside [c] := by
  intro limit i begun rest
  have hcut : ¬(c = ' ' ∧ inside = false) := by
    rintro ⟨hc, hfalse⟩
    rw [hspace hc] at hfalse
    cases hfalse
  rw [List.singleton_append, blankDelimFrom_pass _ _ _ _ hnul hbackslash hquote hcut]
  exact ⟨rfl, rfl⟩

/-- A backslash steps over the char behind it. -/
theorem blankGoes_escape (inside : Bool) (c : Char) : BlankGoes inside ['\\', c] := by
  intro limit i begun rest
  show (blankDelimFrom limit i (.findDelim begun) inside ('\\' :: c :: rest)).spans = _ ∧
    (blankDelimFrom limit i (.findDelim begun) inside ('\\' :: c :: rest)).openQuote = _
  rw [blankDelimFrom_backslash]
  exact ⟨rfl, rfl⟩

theorem blankGoes_backslashes (inside : Bool) (n : Nat) :
    BlankGoes inside (backslashes (2 * n)) := by
  induction n with
  | zero => exact .nil inside
  | succ n ih => exact (blankGoes_escape inside '\\').append ih

theorem blankGoes_quoteText (inside : Bool) (level : Nat) :
    BlankGoes inside (backslashes (2 ^ (level + 1) - 1) ++ ['\'']) := by
  rw [two_pow_pred, backslashes_succ]
  exact (blankGoes_backslashes inside _).append (blankGoes_escape inside '\'')

/-- The scan goes over an atom; a space is inside quotes or escaped. -/
theorem blankGoes_atom {own : Nat} {atom : Atom} (hrendered : atom.Rendered own)
    (hspace : atom = .plain ' ' → inside = true) : BlankGoes inside (atom.text (own + 1)) := by
  cases atom with
  | plain c =>
      obtain ⟨hbackslash, hquote, hnul⟩ := hrendered
      exact blankGoes_plain hbackslash hquote hnul fun h => hspace (congrArg Atom.plain h)
  | escaped c last =>
      rw [Atom.text, if_pos (Nat.le_succ_of_le hrendered.1)]
      exact blankGoes_escape inside c
  | backslash =>
      rw [Atom.text, Nat.pow_succ, Nat.mul_comm]
      exact blankGoes_backslashes inside _
  | quote => exact blankGoes_quoteText inside own
  | space =>
      cases own with
      | zero => exact blankGoes_escape inside 's'
      | succ own =>
          rw [Atom.text, Nat.pow_succ, Nat.mul_comm]
          exact (blankGoes_backslashes inside _).append
            (blankGoes_plain (by decide) (by decide) (by decide) fun h => absurd h (by decide))
  | guarding last =>
      have hle : last ≤ own := hrendered
      have hlevel : own + 1 - last = own - last + 1 := Nat.succ_sub hle
      rw [Atom.text, if_pos (Nat.le_succ_of_le hle), hlevel, ← List.singleton_append,
        ← List.append_assoc]
      exact (blankGoes_quoteText inside _).append (blankGoes_quoteText inside _)

theorem blankGoes_render {own : Nat} {atoms : List Atom}
    (hrendered : ∀ atom ∈ atoms, atom.Rendered own)
    (hspace : spaced atoms = true → inside = true) : BlankGoes inside (render (own + 1) atoms) := by
  have hspaces : ∀ atom ∈ atoms, atom = .plain ' ' → inside = true := by
    rintro atom hatom rfl
    exact hspace (List.contains_iff_mem.mpr hatom)
  clear hspace
  induction atoms with
  | nil => exact .nil inside
  | cons atom atoms ih =>
      obtain ⟨hatom, hatoms⟩ := List.forall_mem_cons.mp hrendered
      obtain ⟨hfirst, hlater⟩ := List.forall_mem_cons.mp hspaces
      rw [render_cons]
      exact (blankGoes_atom hatom hfirst).append (ih hatoms hlater)

theorem blankThrough_quoted {x : Text} (h : BlankGoes true x) : BlankThrough (quoted x) := by
  intro limit i begun rest
  have hlength : i + (quoted x).length = i + 1 + x.length + 1 := by
    simp only [quoted, List.length_cons, List.length_append, List.length_nil]
    omega
  show (blankDelimFrom limit i (.findDelim begun) false ('\'' :: (x ++ ['\''] ++ rest))).spans = _ ∧
    (blankDelimFrom limit i (.findDelim begun) false ('\'' :: (x ++ ['\''] ++ rest))).openQuote = _
  obtain ⟨hspans, hopen⟩ := h limit (i + 1) begun ('\'' :: rest)
  rw [blankDelimFrom_quote, List.append_assoc, hlength]
  simp only [Bool.not_false, List.cons_append, List.nil_append]
  rw [hspans, hopen, blankDelimFrom_quote]
  exact ⟨rfl, rfl⟩

/-- **The blank split goes over a rendered field.** -/
theorem blankThrough_fieldText {own : Nat} {atoms : List Atom}
    (hrendered : ∀ atom ∈ atoms, atom.Rendered own) :
    BlankThrough (fieldText true (own + 1) atoms) := by
  rw [fieldText, Bool.true_and]
  split_ifs with hspaced
  · exact blankThrough_quoted (blankGoes_render hrendered fun _ => rfl)
  · exact blankGoes_render hrendered fun h => absurd h hspaced

theorem passing_none : Passing none := by
  constructor <;> simp

/-- The blank split takes one level off a rendered field, and its quotes. -/
theorem takes_fieldText_blank {own : Nat} {atoms : List Atom}
    (hrendered : ∀ atom ∈ atoms, atom.Rendered own) :
    Takes none (fieldText true (own + 1) atoms) (render own atoms) :=
  takes_fieldText passing_none (fun atom h => (hrendered atom h).fits_none)
    (.inr fun atom h => (hrendered atom h).unguarded)

end SwitchPasses
end EslTokio
