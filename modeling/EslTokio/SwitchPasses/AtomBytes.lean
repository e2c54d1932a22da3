import EslTokio.SwitchPasses.EscapedText
import EslTokio.SwitchPasses.Spelling

/-!
# The atoms of a buffer

The switch's buffers hold one entry for each byte, so that a char of more bytes stands there with
its further ones behind it. These are plain to every pass, and a field's levels are the same with
them.

* `atomBytes` — the atoms of a buffer that holds a field.
* `spell_fieldText` — a buffer spells a field as its atoms.
* `Field.uncut_bytes` — which splits go over a field, at which level.
-/

namespace EslTokio
namespace SwitchPasses

open Library

/-- The atoms of the bytes of an atom: the further bytes of a char are plain. -/
def Atom.bytes : Atom → List Atom
  | .plain c => .plain c :: List.replicate (c.utf8Size - 1) (.plain continuation)
  | atom => [atom]

/-- The atoms of a buffer. -/
def atomBytes (atoms : List Atom) : List Atom := atoms.flatMap Atom.bytes

@[simp] theorem atomBytes_nil : atomBytes [] = [] := rfl

@[simp] theorem atomBytes_cons (atom : Atom) (atoms : List Atom) :
    atomBytes (atom :: atoms) = atom.bytes ++ atomBytes atoms := rfl

theorem mem_atomBytes {atom : Atom} {atoms : List Atom} (h : atom ∈ atomBytes atoms) :
    atom ∈ atoms ∨ atom = .plain continuation := by
  obtain ⟨whole, hwhole, hatom⟩ := List.mem_flatMap.mp h
  cases whole with
  | plain c =>
      rcases List.mem_cons.mp hatom with rfl | hatom
      · exact .inl hwhole
      · exact .inr (List.eq_of_mem_replicate hatom)
  | escaped | backslash | quote | space | guarding =>
      obtain rfl := List.mem_singleton.mp hatom
      exact .inl hwhole

theorem mem_atomBytes_of_mem {atom : Atom} {atoms : List Atom} (h : atom ∈ atoms) :
    atom ∈ atomBytes atoms := by
  refine List.mem_flatMap.mpr ⟨atom, h, ?_⟩
  cases atom <;> exact List.mem_cons_self

theorem spaced_atomBytes (atoms : List Atom) : spaced (atomBytes atoms) = spaced atoms := by
  rw [spaced, spaced, Bool.eq_iff_iff, List.contains_iff_mem, List.contains_iff_mem]
  constructor
  · intro h
    rcases mem_atomBytes h with h | h
    · exact h
    · exact absurd (Atom.plain.inj h) (by decide)
  · exact mem_atomBytes_of_mem

/-! ### Spelling -/

theorem spell_ascii {x : Text} (h : ∀ c ∈ x, c.toNat < 128) : spell x = x := by
  induction x with
  | nil => rfl
  | cons c x ih =>
      obtain ⟨hc, hx⟩ := List.forall_mem_cons.mp h
      rw [spell_cons, utf8Size_ascii hc, ih hx]
      rfl

theorem ascii_backslashes (n : Nat) : ∀ c ∈ backslashes n, c.toNat < 128 := by
  intro c hc
  rw [List.eq_of_mem_replicate hc]
  decide

theorem render_replicate (level n : Nat) (c : Char) :
    render level (List.replicate n (.plain c)) = List.replicate n c := by
  induction n with
  | zero => rfl
  | succ n ih =>
      rw [List.replicate_succ, render_cons, ih]
      rfl

theorem ascii_append {x y : Text} (hx : ∀ c ∈ x, c.toNat < 128) (hy : ∀ c ∈ y, c.toNat < 128) :
    ∀ c ∈ x ++ y, c.toNat < 128 :=
  fun c hc => (List.mem_append.mp hc).elim (hx c) (hy c)

theorem spell_atom {own : Nat} {atom : Atom} (h : atom.Rendered own) (level : Nat) :
    spell (atom.text level) = render level atom.bytes := by
  have hone : ∀ c : Char, c.toNat < 128 → ∀ d ∈ [c], d.toNat < 128 := fun c hc d hd =>
    List.mem_singleton.mp hd ▸ hc
  have hquote : ∀ n, ∀ c ∈ backslashes n ++ ['\''], c.toNat < 128 := fun n =>
    ascii_append (ascii_backslashes n) (hone _ (by decide))
  have hascii : ∀ atom : Atom, atom.bytes = [atom] → (∀ c ∈ atom.text level, c.toNat < 128) →
      spell (atom.text level) = render level atom.bytes := by
    intro atom hbytes hchars
    rw [hbytes, spell_ascii hchars]
    exact (List.append_nil _).symm
  cases atom with
  | plain c =>
      rw [Atom.bytes, render_cons, render_replicate]
      show spell [c] = _
      rw [spell_cons, spell_nil, List.append_nil]
      rfl
  | escaped c last =>
      have hc : c.toNat < 128 := by rcases h.2 with rfl | rfl | rfl <;> decide
      refine hascii _ rfl ?_
      rw [Atom.text]
      split_ifs
      · exact ascii_append (hone '\\' (by decide)) (hone c hc)
      · exact hone c hc
  | backslash => exact hascii _ rfl (ascii_backslashes _)
  | quote => exact hascii _ rfl (hquote _)
  | space =>
      refine hascii _ rfl ?_
      cases level with
      | zero => exact hone ' ' (by decide)
      | succ level => exact ascii_append (ascii_backslashes _) (hone 's' (by decide))
  | guarding last =>
      refine hascii _ rfl ?_
      rw [Atom.text]
      split_ifs
      · rw [← List.singleton_append, ← List.append_assoc]
        exact ascii_append (hquote _) (hquote _)
      · exact fun c hc => by cases hc

theorem spell_render {own : Nat} {atoms : List Atom} (h : ∀ atom ∈ atoms, atom.Rendered own)
    (level : Nat) :
    spell (render level atoms) = render level (atomBytes atoms) := by
  induction atoms with
  | nil => rfl
  | cons atom atoms ih =>
      obtain ⟨hatom, hatoms⟩ := List.forall_mem_cons.mp h
      rw [render_cons, spell_append, spell_atom hatom, ih hatoms, atomBytes_cons, render_append]

/-- A buffer spells a field as its atoms. -/
theorem spell_fieldText {own : Nat} {atoms : List Atom} (h : ∀ atom ∈ atoms, atom.Rendered own)
    (wraps : Bool)
    (level : Nat) : spell (fieldText wraps level atoms) = fieldText wraps level
    (atomBytes atoms) := by
  have hquote : spell ['\''] = ['\''] := spell_ascii (by decide)
  rw [fieldText, fieldText, spaced_atomBytes]
  split_ifs
  · show spell (['\''] ++ (render level atoms ++ ['\''])) = _
    rw [spell_append, spell_append, spell_render h, hquote]
    rfl
  · exact spell_render h level

/-! ### The passes a field meets -/

/-- No char of a field's text is escaped for another pass than the one that splits on it. -/
def EscapedField.Meets (field : EscapedField) (delim : Option Char) (level : Nat) (text : Text) :
    Prop :=
  ∀ c ∈ text, ∀ last, field.level c = some last → (some c = delim ↔ last = level)

theorem EscapedField.charAtom_escaped {field : EscapedField} {c d : Char} {last : Nat}
    (h : field.charAtom c = .escaped d last) : c = d ∧ field.level d = some last := by
  unfold EscapedField.charAtom at h
  split_ifs at h
  cases hlevel : field.level c with
  | none =>
      rw [hlevel] at h
      cases h
  | some level =>
      rw [hlevel] at h
      obtain ⟨rfl, rfl⟩ := Atom.escaped.inj h
      exact ⟨rfl, hlevel⟩

/-- A pass reads every atom of a field as meant. -/
theorem EscapedField.fits_bytes {field : EscapedField} {delim : Option Char} {level : Nat}
    {text : Text} (hmeets : field.Meets delim level text) (hfree : '\x00' ∉ text) :
    ∀ atom ∈ atomBytes (field.atoms text), atom.Fits delim level := by
  intro atom hatom
  rcases mem_atomBytes hatom with hatom | rfl
  · have hrendered := EscapedField.rendered_atoms hfree hatom
    rcases EscapedField.mem_atoms hatom with ⟨c, hc, rfl⟩ | rfl | rfl | rfl
    · cases hchar : field.charAtom c with
      | plain d =>
          rw [hchar] at hrendered
          exact hrendered
      | escaped d last =>
          obtain ⟨rfl, hlevel⟩ := EscapedField.charAtom_escaped hchar
          refine ⟨?_, hmeets c hc last hlevel⟩
          rcases EscapedField.level_some hlevel with rfl | rfl | rfl <;> decide
      | _ => trivial
    all_goals trivial
  · exact ⟨by decide, by decide, by decide⟩

/-- A pass that splits on a char the field escapes, or does not hold, cuts nowhere in it. -/
theorem EscapedField.uncut_bytes {field : EscapedField} {delim : Char} {level : Nat}
    {text : Text} (hmeets : field.Meets (some delim) level text) (hfree : '\x00' ∉ text)
    (hdelim : delim ∈ text → field.level delim ≠ none) (hascii : delim.toNat < 128) :
    Uncut delim level (atomBytes (field.atoms text)) := by
  refine fun atom hatom => ⟨EscapedField.fits_bytes hmeets hfree atom hatom, ?_⟩
  rintro rfl
  rcases mem_atomBytes hatom with hatom | h
  · rcases EscapedField.mem_atoms hatom with ⟨c, hc, hchar⟩ | h | h | h
    · obtain ⟨last, hlevel⟩ : ∃ last, field.level c = some last :=
        Option.ne_none_iff_exists'.mp (by
          obtain rfl : c = delim := by
            unfold EscapedField.charAtom at hchar
            split_ifs at hchar
            cases hlevel : field.level c with
            | none =>
                rw [hlevel] at hchar
                exact (Atom.plain.inj hchar).symm
            | some last =>
                rw [hlevel] at hchar
                cases hchar
          exact hdelim hc)
      unfold EscapedField.charAtom at hchar
      split_ifs at hchar
      rw [hlevel] at hchar
      cases hchar
    all_goals cases h
  · exact ne_continuation hascii (Atom.plain.inj h)

/-! ### Edges -/

theorem edgeHead_append_backslash (left right : List Atom) :
    ∃ start, edgeHead (left ++ .backslash :: right) = start ++ .backslash :: right := by
  cases left with
  | nil => exact ⟨[], rfl⟩
  | cons atom left =>
      by_cases hatom : atom = .plain ' '
      · subst hatom
        exact ⟨.space :: left, rfl⟩
      · exact ⟨atom :: left, edgeHead_of_ne hatom _⟩

theorem head_edgeHead (atom : Atom) (rest : List Atom) :
    ∃ first, edgeHead (atom :: rest) = first :: rest ∧ first ≠ .plain ' ' ∧
      (first = atom ∨ first = .space) := by
  by_cases hatom : atom = .plain ' '
  · subst hatom
    exact ⟨.space, rfl, by simp, .inr rfl⟩
  · exact ⟨atom, edgeHead_of_ne hatom rest, hatom, .inl rfl⟩

theorem head_edgeLast {atom : Atom} (hatom : atom ≠ .plain ' ') (rest : List Atom) :
    (edgeLast (atom :: rest)).head? = some atom := by
  unfold edgeLast
  split_ifs with hlast
  · cases rest with
    | nil => exact absurd (Option.some.inj hlast) hatom
    | cons next rest => rfl
  · rfl

/-- No guard vanishes at the atom's place, and it is no bare space. -/
structure Atom.Edge (atom : Atom) : Prop where
  space : atom ≠ .plain ' '
  guarding : ∀ last, atom = .guarding last → last = 1

theorem edge_space : Atom.Edge .space := ⟨by simp, by simp⟩

theorem EscapedField.edge_charAtom {field : EscapedField} {c : Char}
    (h : field.charAtom c ≠ .plain ' ') :
    Atom.Edge (field.charAtom c) := by
  refine ⟨h, fun last hlast => ?_⟩
  unfold EscapedField.charAtom at hlast
  split_ifs at hlast
  cases hlevel : field.level c <;> rw [hlevel] at hlast <;> cases hlast

theorem EscapedField.edge_first {field : EscapedField} {c : Char} {atom : Atom}
    (hspace : atom ≠ .plain ' ')
    (h : atom = field.charAtom c ∨ atom = .space) : Atom.Edge atom := by
  rcases h with rfl | rfl
  · exact EscapedField.edge_charAtom hspace
  · exact edge_space

/-- The guards of a field leave its first atom. -/
theorem EscapedField.guardAtoms_cons (field : EscapedField) (text : Text) (atom : Atom)
    (rest : List Atom) : ∃ later, field.guardAtoms text (atom :: rest) = atom :: later := by
  unfold EscapedField.guardAtoms
  split
  · split_ifs
    · exact ⟨_, rfl⟩
    · exact ⟨_, rfl⟩
  · exact guardCommas_cons atom rest
  · exact guardCommas_cons atom rest
  all_goals exact ⟨_, rfl⟩

/-- The guards of a field leave its last atom, but for one behind a backslash. -/
theorem EscapedField.guardAtoms_concat (field : EscapedField) (text : Text) (start : List Atom)
    (atom : Atom) :
    (∃ init, field.guardAtoms text (start ++ [atom]) = init ++ [atom]) ∨
      field.guardAtoms text (start ++ [atom]) = start ++ [atom, .guarding 3] ∧
        text.getLast? = some '\\' := by
  unfold EscapedField.guardAtoms
  split
  · split_ifs with hlast
    · exact .inr ⟨List.append_assoc start [atom] [.guarding 3], hlast⟩
    · exact .inl ⟨start, rfl⟩
  · exact .inl (guardCommas_concat start atom)
  · exact .inl (guardCommas_concat start atom)
  all_goals exact .inl ⟨start, rfl⟩

/-- The first atom of a field is at its edge. -/
theorem EscapedField.head_atoms (field : EscapedField) {text : Text} (hne : text ≠ []) :
    ∃ atom rest, field.atoms text = atom :: rest ∧ atom.Edge := by
  obtain ⟨c, later, rfl⟩ := List.exists_cons_of_ne_nil hne
  obtain ⟨rest, hrest⟩ : ∃ rest, field.guardAtoms (c :: later) ((c :: later).map field.charAtom) =
      field.charAtom c :: rest := field.guardAtoms_cons (c :: later) _ _
  obtain ⟨first, hfirst, hspace, horigin⟩ := head_edgeHead (field.charAtom c) rest
  obtain ⟨tail, htail⟩ := List.head?_eq_some_iff.mp (head_edgeLast hspace rest)
  have hedges : edgeLast (edgeHead
      (field.guardAtoms (c :: later) ((c :: later).map field.charAtom))) =
      first :: tail := by rw [hrest, hfirst, htail]
  unfold EscapedField.atoms EscapedField.caretAtoms
  rw [hedges]
  split
  · split_ifs
    · exact ⟨.guarding 1, first :: tail, rfl, by simp, by simp⟩
    · exact ⟨first, tail, rfl, EscapedField.edge_first hspace horigin⟩
  all_goals exact ⟨first, tail, rfl, EscapedField.edge_first hspace horigin⟩

theorem edgeLast_concat (start : List Atom) (atom : Atom) :
    ∃ last, edgeLast (start ++ [atom]) = start ++ [last] ∧ last ≠ .plain ' ' ∧
      (last = atom ∨ last = .space) := by
  by_cases hatom : atom = .plain ' '
  · refine ⟨.space, ?_, by simp, .inr rfl⟩
    rw [edgeLast, List.getLast?_concat, if_pos (congrArg some hatom), List.dropLast_concat]
  · refine ⟨atom, ?_, hatom, .inl rfl⟩
    rw [edgeLast, List.getLast?_concat, if_neg fun h => hatom (Option.some.inj h)]

theorem edges_concat (start : List Atom) (atom : Atom) :
    ∃ init last, edgeLast (edgeHead (start ++ [atom])) = init ++ [last] ∧ last ≠ .plain ' ' ∧
      (last = atom ∨ last = .space) := by
  cases start with
  | nil =>
      obtain ⟨first, hfirst, hspace, horigin⟩ := head_edgeHead atom []
      obtain ⟨last, hlast, hlastSpace, horigin'⟩ := edgeLast_concat [] first
      refine ⟨[], last, by rw [List.nil_append, hfirst]; exact hlast, hlastSpace, ?_⟩
      rcases horigin' with rfl | rfl
      · exact horigin
      · exact .inr rfl
  | cons head start =>
      obtain ⟨first, hfirst, -, -⟩ := head_edgeHead head (start ++ [atom])
      obtain ⟨last, hlast, hspace, horigin⟩ := edgeLast_concat (first :: start) atom
      exact ⟨first :: start, last, by rw [List.cons_append, hfirst]; exact hlast, hspace, horigin⟩

/-- The last atom of a field is at its edge, the one of its last char or a space's; only a guard
behind a backslash may follow. -/
theorem EscapedField.last_atoms (field : EscapedField) {text : Text} (hne : text ≠ []) :
    ∃ init atom tail, field.atoms text = init ++ atom :: tail ∧ atom.Edge ∧
      (tail = [] ∨ tail = [.guarding 3] ∧ atom = .backslash) ∧
      (atom = field.charAtom (text.getLast hne) ∨ atom = .space) := by
  obtain ⟨earlier, c, rfl⟩ : ∃ earlier c, text = earlier ++ [c] :=
    ⟨_, _, (List.dropLast_concat_getLast hne).symm⟩
  have hmap : (earlier ++ [c]).map field.charAtom = earlier.map field.charAtom ++
      [field.charAtom c] :=
    List.map_append
  unfold EscapedField.atoms
  rcases field.guardAtoms_concat (earlier ++ [c]) (earlier.map field.charAtom) (field.charAtom c)
    with ⟨start, hguard⟩ | ⟨hguard, hlast⟩
  · obtain ⟨init, last, hedges, hspace, horigin⟩ := edges_concat start (field.charAtom c)
    refine ⟨field.caretAtoms (earlier ++ [c]) ++ init, last, [], ?_,
      EscapedField.edge_first hspace horigin, .inl rfl, ?_⟩
    · rw [hmap, hguard, hedges, List.append_assoc]
    · rwa [List.getLast_concat]
  · obtain rfl : c = '\\' := by simpa using hlast
    have hbackslash : field.charAtom '\\' = .backslash := if_pos rfl
    obtain ⟨start, hhead⟩ := edgeHead_append_backslash (earlier.map field.charAtom) [.guarding 3]
    refine ⟨field.caretAtoms (earlier ++ ['\\']) ++ start, .backslash, [.guarding 3], ?_,
      ⟨by simp, by simp⟩, .inr ⟨rfl, rfl⟩, .inl ?_⟩
    · rw [hmap, hguard, hbackslash, hhead, edgeLast, if_neg (by simp), List.append_assoc]
    · rw [List.getLast_concat, hbackslash]

end SwitchPasses
end EslTokio
