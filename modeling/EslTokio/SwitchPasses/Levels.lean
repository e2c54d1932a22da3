import EslTokio.SwitchPasses.InPlace

/-!
# Escapes by the passes ahead

A render escapes a text for as many passes as will read it, and every pass takes one level of the
escapes off. Here an escaped text is a list of atoms, each with its spelling at every level.

* `Atom` — a char as it was given, and how it is escaped; `Atom.text` — its spelling at a level.
* `render` — the spelling of atoms.
* `Atom.Fits` — a pass on a delimiter at a level neither cuts at the atom nor takes its escape
  early.
* `through_render`, `written_render` — a pass goes over atoms, and takes one level off.
-/

namespace EslTokio
namespace SwitchPasses

open Library

/-- A run of backslashes. -/
def backslashes (n : Nat) : Text := List.replicate n '\\'

/-- A piece of an escaped text. -/
inductive Atom where
  /-- A char no pass touches. -/
  | plain (c : Char)
  /-- A char behind a backslash until the pass at `level`, which splits on it, has read it. -/
  | escaped (c : Char) (level : Nat)
  | backslash
  | quote
  /-- A space at an edge, which the last pass must read as `\s`. -/
  | space
  /-- Two quotes that the pass at `level` reads bare. -/
  | guarding (level : Nat)
deriving DecidableEq, Repr

/-- The spelling of an atom with `level` passes ahead. -/
def Atom.text (level : Nat) : Atom → Text
  | .plain c => [c]
  | .escaped c last => if last ≤ level then ['\\', c] else [c]
  | .backslash => backslashes (2 ^ level)
  | .quote => backslashes (2 ^ level - 1) ++ ['\'']
  | .space =>
      match level with
      | 0 => [' ']
      | level + 1 => backslashes (2 ^ level) ++ ['s']
  | .guarding last =>
      if last ≤ level then
        backslashes (2 ^ (level - last) - 1) ++ '\'' ::
          (backslashes (2 ^ (level - last) - 1) ++ ['\''])
      else []

/-- The spelling of atoms. -/
def render (level : Nat) (atoms : List Atom) : Text := atoms.flatMap (Atom.text level)

@[simp] theorem render_nil (level : Nat) : render level [] = [] := rfl

@[simp] theorem render_cons (level : Nat) (atom : Atom) (atoms : List Atom) :
    render level (atom :: atoms) = atom.text level ++ render level atoms := rfl

@[simp] theorem render_append (level : Nat) (left right : List Atom) :
    render level (left ++ right) = render level left ++ render level right := List.flatMap_append

/-- A char with a meaning of its own behind a backslash. -/
def meansEscaped (c : Char) : Bool := ['\\', '\'', '"', 'n', 'r', 't', 's', '\x00'].contains c

/-- A pass at a level on `delim`, or one that names no delimiter, reads the atom as meant. -/
def Atom.Fits (delim : Option Char) (level : Nat) : Atom → Prop
  | .plain c => c ≠ '\\' ∧ c ≠ '\'' ∧ c ≠ '\x00'
  | .escaped c last => meansEscaped c = false ∧ (some c = delim ↔ last = level)
  | .backslash | .quote | .space => True
  | .guarding _ => True

/-- A pass that splits on `delim` at a level reads every atom as meant and cuts at none. -/
def Uncut (delim : Char) (level : Nat) (atoms : List Atom) : Prop :=
  ∀ atom ∈ atoms, atom.Fits (some delim) level ∧ atom ≠ .plain delim

/-- The atom is not read bare as quotes at a level. -/
def Atom.Unguarded (level : Nat) : Atom → Prop
  | .guarding last => last ≠ level
  | _ => True

/-! ### What a cleanup makes of atoms -/

theorem unescape_backslash (delim : Option Char) : unescape '\\' delim = some '\\' := by
  simp [unescape]

theorem unescape_quote (delim : Option Char) : unescape '\'' delim = some '\'' := by
  simp [unescape]

theorem unescape_delim (delim : Char) : unescape delim (some delim) = some delim := by
  simp [unescape]

theorem unescape_none {c : Char} {delim : Option Char} (hc : meansEscaped c = false)
    (hdelim : some c ≠ delim) : unescape c delim = none := by
  simp only [meansEscaped, List.contains_cons, List.contains_nil, Bool.or_false,
    Bool.or_eq_false_iff, beq_eq_false_iff_ne, ne_eq] at hc
  obtain ⟨hbackslash, hquote, hdouble, hn, hr, ht, hs, -⟩ := hc
  rw [unescape, if_neg, if_neg hn, if_neg hr, if_neg ht, if_neg hs]
  rintro (h | h | h | h)
  · exact hdelim h
  · exact hquote h
  · exact hdouble h
  · exact hbackslash h

theorem unescape_s {delim : Option Char} (hdelim : delim ≠ some 's') :
    unescape 's' delim = some ' ' := by
  rw [unescape, if_neg, if_neg (by decide), if_neg (by decide), if_neg (by decide), if_pos rfl]
  rintro (h | h | h | h)
  · exact hdelim h.symm
  all_goals exact absurd h (by decide)

/-- A cleanup halves a run of backslashes. -/
theorem written_backslashes (delim : Option Char) (inside : Bool) (n : Nat) (rest : Text) :
    written delim inside (backslashes (2 * n) ++ rest) =
      backslashes n ++ written delim inside rest := by
  induction n with
  | zero => rfl
  | succ n ih =>
      show written delim inside ('\\' :: '\\' :: (backslashes (2 * n) ++ rest)) = _
      rw [written_escape (unescape_backslash delim), ih]
      rfl

theorem two_pow_pred (level : Nat) : 2 ^ (level + 1) - 1 = 2 * (2 ^ level - 1) + 1 := by
  have := Nat.one_le_two_pow (n := level)
  rw [Nat.pow_succ]
  omega

theorem backslashes_succ (n : Nat) (rest : Text) :
    backslashes (n + 1) ++ rest = backslashes n ++ '\\' :: rest := by
  rw [backslashes, backslashes, List.replicate_succ', List.append_assoc]
  rfl

/-- A cleanup takes one level off an escaped quote. -/
theorem written_quoteText (delim : Option Char) (inside : Bool) (level : Nat) (rest : Text) :
    written delim inside (backslashes (2 ^ (level + 1) - 1) ++ '\'' :: rest) =
      backslashes (2 ^ level - 1) ++ '\'' :: written delim inside rest := by
  rw [two_pow_pred, backslashes_succ, written_backslashes, written_escape (unescape_quote delim)]

theorem hasQuote_quote (rest : Text) : hasQuote ('\'' :: rest) = true := by
  simp [hasQuote]

/-- A delimiter that a pass can escape for, or none. -/
structure Passing (delim : Option Char) : Prop where
  ne_backslash : delim ≠ some '\\'
  ne_quote : delim ≠ some '\''
  ne_s : delim ≠ some 's'
  ne_nul : delim ≠ some '\x00'

/-- A pass takes one level off an atom. -/
theorem written_atom {delim : Option Char} (hdelim : Passing delim) {level : Nat} {inside : Bool}
    {atom : Atom} (hfits : atom.Fits delim (level + 1))
    (hguard : inside = false ∨ atom.Unguarded (level + 1)) (rest : Text) :
    written delim inside (atom.text (level + 1) ++ rest) =
      atom.text level ++ written delim inside rest := by
  cases atom with
  | plain c =>
      obtain ⟨hbackslash, hquote, -⟩ := hfits
      exact written_plain hbackslash (fun h => hquote h.1) delim
  | escaped c last =>
      obtain ⟨hmeans, hlast⟩ := hfits
      have hplain : c ≠ '\\' ∧ c ≠ '\'' := by
        constructor <;> rintro rfl <;> exact absurd hmeans (by decide)
      by_cases hself : some c = delim
      · -- The pass that splits on the char takes its backslash.
        subst hself
        have hlevel : last = level + 1 := hlast.mp rfl
        subst hlevel
        have htext : Atom.text level (.escaped c (level + 1)) = [c] := if_neg (by omega)
        have htext' : Atom.text (level + 1) (.escaped c (level + 1)) = ['\\', c] :=
          if_pos (Nat.le_refl _)
        rw [htext, htext']
        exact written_escape (unescape_delim c) inside rest
      · have hne : last ≠ level + 1 := fun h => hself (hlast.mpr h)
        by_cases hle : last ≤ level
        · have htext : Atom.text level (.escaped c last) = ['\\', c] := if_pos hle
          have htext' : Atom.text (level + 1) (.escaped c last) = ['\\', c] := if_pos (by omega)
          rw [htext, htext']
          show written delim inside ('\\' :: c :: rest) = _
          rw [written_keep (unescape_none hmeans hself), written_plain hplain.1 fun h =>
            hplain.2 h.1]
          rfl
        · have htext : Atom.text level (.escaped c last) = [c] := if_neg hle
          have htext' : Atom.text (level + 1) (.escaped c last) = [c] := if_neg (by omega)
          rw [htext, htext']
          exact written_plain hplain.1 (fun h => hplain.2 h.1) delim
  | backslash =>
      show written delim inside (backslashes (2 ^ (level + 1)) ++ rest) = _
      rw [Nat.pow_succ, Nat.mul_comm, written_backslashes]
      rfl
  | quote =>
      show written delim inside (backslashes (2 ^ (level + 1) - 1) ++ ['\''] ++ rest) = _
      rw [List.append_assoc, List.singleton_append, written_quoteText]
      simp [Atom.text]
  | space =>
      cases level with
      | zero => exact written_escape (unescape_s hdelim.ne_s) inside rest
      | succ level =>
          show written delim inside (backslashes (2 ^ (level + 1)) ++ ['s'] ++ rest) = _
          rw [Nat.pow_succ, Nat.mul_comm, List.append_assoc, written_backslashes,
            List.singleton_append, written_plain (by decide) (fun h => absurd h.1 (by decide))]
          simp [Atom.text]
  | guarding last =>
      by_cases hlast : last ≤ level
      · have hlevel : level + 1 - last = level - last + 1 := Nat.succ_sub hlast
        have htext : Atom.text level (.guarding last) = backslashes (2 ^ (level - last) - 1) ++
            '\'' :: (backslashes (2 ^ (level - last) - 1) ++ ['\'']) := if_pos hlast
        have htext' : Atom.text (level + 1) (.guarding last) =
            backslashes (2 ^ (level - last + 1) - 1) ++
              '\'' :: (backslashes (2 ^ (level - last + 1) - 1) ++ ['\'']) := by
          rw [← hlevel]
          exact if_pos (by omega)
        rw [htext, htext']
        simp only [List.append_assoc, List.cons_append, List.nil_append, written_quoteText]
      · have htext : Atom.text level (.guarding last) = [] := if_neg hlast
        by_cases hbare : last = level + 1
        · subst hbare
          obtain rfl : inside = false := hguard.resolve_right fun h => h rfl
          have htext' : Atom.text (level + 1) (.guarding (level + 1)) = ['\'', '\''] := by
            simp [Atom.text, backslashes]
          rw [htext, htext']
          show written delim false ('\'' :: '\'' :: rest) = written delim false rest
          rw [written_quote (by rw [hasQuote_quote]; rfl), written_quote rfl]
          rfl
        · have htext' : Atom.text (level + 1) (.guarding last) = [] := if_neg (by omega)
          rw [htext, htext']
          rfl

/-- **A pass takes one level off a text.** -/
theorem written_render {delim : Option Char} (hdelim : Passing delim) {level : Nat} {inside : Bool}
    {atoms : List Atom} (hfits : ∀ atom ∈ atoms, atom.Fits delim (level + 1))
    (hguard : inside = false ∨ ∀ atom ∈ atoms, atom.Unguarded (level + 1)) (rest : Text) :
    written delim inside (render (level + 1) atoms ++ rest) =
      render level atoms ++ written delim inside rest := by
  induction atoms with
  | nil => rfl
  | cons atom atoms ih =>
      obtain ⟨hatom, hatoms⟩ := List.forall_mem_cons.mp hfits
      have hfirst : inside = false ∨ atom.Unguarded (level + 1) :=
        hguard.imp_right fun h => h atom List.mem_cons_self
      have hlater : inside = false ∨ ∀ atom ∈ atoms, atom.Unguarded (level + 1) :=
        hguard.imp_right fun h atom hmem => h atom (List.mem_cons_of_mem _ hmem)
      rw [render_cons, render_cons, List.append_assoc, List.append_assoc,
        written_atom hdelim hatom hfirst, ih hatoms hlater]

/-! ### What a scan makes of atoms -/

theorem Through.nil (delim : Char) (inside : Bool) : Through delim inside [] := fun _ _ _ _ => rfl

theorem Through.append {delim : Char} {inside : Bool} {left right : Text}
    (hleft : Through delim inside left) (hright : Through delim inside right) :
    Through delim inside (left ++ right) := by
  intro limit i begun rest
  rw [List.append_assoc, hleft, hright, List.length_append, Nat.add_assoc]

theorem through_plain {delim c : Char} (hbackslash : c ≠ '\\') (hquote : c ≠ '\'')
    (hdelim : c ≠ delim) (hnul : c ≠ '\x00') (inside : Bool) : Through delim inside [c] := by
  intro limit i begun rest
  show charDelimFrom delim limit i (some begun) inside (c :: rest) = _
  conv_lhs => unfold charDelimFrom
  simp [hbackslash, hquote, hdelim, hnul]

/-- A backslash steps over the char behind it. -/
theorem through_escape (delim c : Char) (inside : Bool) : Through delim inside ['\\', c] := by
  intro limit i begun rest
  show charDelimFrom delim limit i (some begun) inside ('\\' :: c :: rest) = _
  conv_lhs => unfold charDelimFrom
  simp

theorem through_backslashes (delim : Char) (inside : Bool) (n : Nat) :
    Through delim inside (backslashes (2 * n)) := by
  induction n with
  | zero => exact .nil delim inside
  | succ n ih => exact (through_escape delim '\\' inside).append ih

theorem through_quoteText (delim : Char) (inside : Bool) (level : Nat) :
    Through delim inside (backslashes (2 ^ (level + 1) - 1) ++ ['\'']) := by
  rw [two_pow_pred, backslashes_succ]
  exact (through_backslashes delim inside _).append (through_escape delim '\'' inside)

/-- Two bare quotes open and close. -/
theorem through_quotes (delim : Char) : Through delim false ['\'', '\''] := by
  intro limit i begun rest
  show charDelimFrom delim limit i (some begun) false ('\'' :: '\'' :: rest) = _
  conv_lhs =>
    unfold charDelimFrom
    simp [hasQuote_quote]
    unfold charDelimFrom
  simp

theorem through_atom {delim : Char} (hdelim : Passing (some delim)) {level : Nat} {inside : Bool}
    {atom : Atom} (hfits : atom.Fits (some delim) (level + 1)) (hplain : atom ≠ .plain delim)
    (hguard : inside = false ∨ atom.Unguarded (level + 1)) :
    Through delim inside (atom.text (level + 1)) := by
  cases atom with
  | plain c =>
      obtain ⟨hbackslash, hquote, hnul⟩ := hfits
      exact through_plain hbackslash hquote (fun h => hplain (congrArg Atom.plain h)) hnul inside
  | escaped c last =>
      obtain ⟨hmeans, hlast⟩ := hfits
      by_cases hle : last ≤ level + 1
      · rw [Atom.text, if_pos hle]
        exact through_escape delim c inside
      · rw [Atom.text, if_neg hle]
        have hc : c ≠ '\\' ∧ c ≠ '\'' ∧ c ≠ '\x00' := by
          refine ⟨?_, ?_, ?_⟩ <;> rintro rfl <;> exact absurd hmeans (by decide)
        refine through_plain hc.1 hc.2.1 (fun h => ?_) hc.2.2 inside
        exact hle (hlast.mp (congrArg some h)).le
  | backslash =>
      rw [Atom.text, Nat.pow_succ, Nat.mul_comm]
      exact through_backslashes delim inside _
  | quote => exact through_quoteText delim inside level
  | space =>
      cases level with
      | zero => exact through_escape delim 's' inside
      | succ level =>
          rw [Atom.text, Nat.pow_succ, Nat.mul_comm]
          refine (through_backslashes delim inside _).append
            (through_plain (by decide) (by decide) (fun h => ?_) (by decide) inside)
          exact hdelim.ne_s (congrArg some h.symm)
  | guarding last =>
      by_cases hlast : last ≤ level
      · have hlevel : level + 1 - last = level - last + 1 := Nat.succ_sub hlast
        rw [Atom.text, if_pos (by omega), hlevel, ← List.singleton_append, ← List.append_assoc]
        exact (through_quoteText delim inside _).append (through_quoteText delim inside _)
      · by_cases hbare : last = level + 1
        · subst hbare
          obtain rfl : inside = false := hguard.resolve_right fun h => h rfl
          have htext : Atom.text (level + 1) (.guarding (level + 1)) = ['\'', '\''] := by
            simp [Atom.text, backslashes]
          rw [htext]
          exact through_quotes delim
        · rw [Atom.text, if_neg (by omega)]
          exact .nil delim inside

/-- **A scan goes over a text.** -/
theorem through_render {delim : Char} (hdelim : Passing (some delim)) {level : Nat} {inside : Bool}
    {atoms : List Atom} (hfits : Uncut delim (level + 1) atoms)
    (hguard : inside = false ∨ ∀ atom ∈ atoms, atom.Unguarded (level + 1)) :
    Through delim inside (render (level + 1) atoms) := by
  induction atoms with
  | nil => exact .nil delim inside
  | cons atom atoms ih =>
      obtain ⟨hatom, hatoms⟩ := List.forall_mem_cons.mp hfits
      have hfirst : inside = false ∨ atom.Unguarded (level + 1) :=
        hguard.imp_right fun h => h atom List.mem_cons_self
      have hlater : inside = false ∨ ∀ atom ∈ atoms, atom.Unguarded (level + 1) :=
        hguard.imp_right fun h atom hmem => h atom (List.mem_cons_of_mem _ hmem)
      rw [render_cons]
      exact (through_atom hdelim hatom.1 hatom.2 hfirst).append (ih hatoms hlater)

end SwitchPasses
end EslTokio
