import EslTokio.SwitchPasses.Levels

/-!
# The fields of a block, pass by pass

A block is written as its pairs, key and value escaped for the passes ahead and put between quotes
when they hold a space. Here are the block's text at every level and what a pass makes of it.

* `fieldText`, `Entry.text`, `dataText` — a field, a pair and the pairs of a block at a level.
* `Takes` — a pass reads one text as another, whatever follows.
* `takes_dataText`, `through_dataText` — a pass over the pairs of a block as a whole.
-/

namespace EslTokio
namespace SwitchPasses

open Library

/-- A pass reads one text as another, whatever follows it. -/
def Takes (delim : Option Char) (x y : Text) : Prop :=
  ∀ rest, written delim false (x ++ rest) = y ++ written delim false rest

theorem Takes.nil (delim : Option Char) : Takes delim [] [] := fun _ => rfl

theorem Takes.append {delim : Option Char} {x y x' y' : Text} (h : Takes delim x y)
    (h' : Takes delim x' y') : Takes delim (x ++ x') (y ++ y') := by
  intro rest
  rw [List.append_assoc, h, h', List.append_assoc]

theorem Takes.all {delim : Option Char} {x y : Text} (h : Takes delim x y) :
    written delim false x = y := by
  simpa using h []

theorem takes_plain {c : Char} (hbackslash : c ≠ '\\') (hquote : c ≠ '\'') (delim : Option Char) :
    Takes delim [c] [c] :=
  fun _ => written_plain hbackslash (fun h => hquote h.1) delim

theorem Takes.cons {delim : Option Char} {c : Char} {x y : Text} (hbackslash : c ≠ '\\')
    (hquote : c ≠ '\'') (h : Takes delim x y) : Takes delim (c :: x) (c :: y) :=
  (takes_plain hbackslash hquote delim).append h

theorem Through.cons {delim c : Char} {x : Text} (hbackslash : c ≠ '\\') (hquote : c ≠ '\'')
    (hdelim : c ≠ delim) (hnul : c ≠ '\x00') (h : Through delim false x) :
    Through delim false (c :: x) :=
  (through_plain hbackslash hquote hdelim hnul false).append h

/-- Chars that no pass reads stay. -/
theorem takes_plains {x : Text} (h : ∀ c ∈ x, c ≠ '\\' ∧ c ≠ '\'') (delim : Option Char) :
    Takes delim x x := by
  induction x with
  | nil => exact .nil delim
  | cons c x ih =>
      obtain ⟨⟨hbackslash, hquote⟩, hx⟩ := List.forall_mem_cons.mp h
      exact (ih hx).cons hbackslash hquote

theorem through_plains {delim : Char} {x : Text}
    (h : ∀ c ∈ x, c ≠ '\\' ∧ c ≠ '\'' ∧ c ≠ delim ∧ c ≠ '\x00') : Through delim false x := by
  induction x with
  | nil => exact .nil delim false
  | cons c x ih =>
      obtain ⟨⟨hbackslash, hquote, hdelim, hnul⟩, hx⟩ := List.forall_mem_cons.mp h
      exact (ih hx).cons hbackslash hquote hdelim hnul

/-! ### Quoted fields -/

/-- A text between quotes. -/
def quoted (x : Text) : Text := '\'' :: (x ++ ['\''])

theorem through_quoted {delim : Char} {x : Text} (hx : '\x00' ∉ x) (h : Through delim true x) :
    Through delim false (quoted x) := by
  intro limit i begun rest
  have hopen : charDelimFrom delim limit i (some begun) false (quoted x ++ rest) =
      charDelimFrom delim limit (i + 1) (some begun) true (x ++ '\'' :: rest) := by
    show charDelimFrom delim limit i (some begun) false ('\'' :: (x ++ ['\''] ++ rest)) = _
    rw [List.append_assoc, List.singleton_append]
    conv_lhs => unfold charDelimFrom
    simp [hasQuote_append hx]
  have hclose : charDelimFrom delim limit (i + 1 + x.length) (some begun) true ('\'' :: rest) =
      charDelimFrom delim limit (i + 1 + x.length + 1) (some begun) false rest := by
    conv_lhs => unfold charDelimFrom
    simp
  rw [hopen, h, hclose, quoted, List.length_cons, List.length_append]
  congr 1
  simp
  omega

theorem takes_quoted {delim : Option Char} {x y : Text} (hx : '\x00' ∉ x)
    (h : ∀ rest, written delim true (x ++ rest) = y ++ written delim true rest) :
    Takes delim (quoted x) y := by
  intro rest
  show written delim false ('\'' :: (x ++ ['\''] ++ rest)) = _
  rw [List.append_assoc, List.singleton_append,
    written_quote (by rw [hasQuote_append hx]; rfl)]
  show written delim true (x ++ '\'' :: rest) = _
  rw [h, written_quote rfl]
  rfl

/-- Atoms hold a space away from the edges. -/
def spaced (atoms : List Atom) : Bool := atoms.contains (.plain ' ')

/-- A field at a level, between quotes when these are still there and it holds a space. -/
def fieldText (wraps : Bool) (level : Nat) (atoms : List Atom) : Text :=
  if (wraps && spaced atoms) = true then quoted (render level atoms) else render level atoms

@[simp] theorem fieldText_false (level : Nat) (atoms : List Atom) :
    fieldText false level atoms = render level atoms := rfl

theorem backslashes_nulFree (n : Nat) : '\x00' ∉ backslashes n := by
  intro h
  exact absurd (List.eq_of_mem_replicate h) (by decide)

theorem atom_nulFree {atom : Atom} {delim : Option Char} {at' : Nat} (h : atom.Fits delim at')
    (level : Nat) : '\x00' ∉ atom.text level := by
  have hrun := backslashes_nulFree
  cases atom with
  | plain c => simpa [Atom.text] using Ne.symm h.2.2
  | escaped c last =>
      have hc : c ≠ '\x00' := by
        rintro rfl
        exact absurd h.1 (by decide)
      rw [Atom.text]
      split_ifs <;> simp [Ne.symm hc]
  | backslash => exact hrun _
  | quote => simp [Atom.text, hrun]
  | space => cases level <;> simp [Atom.text, hrun]
  | guarding last =>
      rw [Atom.text]
      split_ifs <;> simp [hrun]

theorem render_nulFree {atoms : List Atom} {delim : Option Char} {at' : Nat}
    (h : ∀ atom ∈ atoms, atom.Fits delim at') (level : Nat) : '\x00' ∉ render level atoms := by
  intro hmem
  obtain ⟨atom, hatom, hmem⟩ := List.mem_flatMap.mp hmem
  exact atom_nulFree (h atom hatom) level hmem

theorem takes_fieldText {delim : Option Char} (hdelim : Passing delim) {wraps : Bool} {level : Nat}
    {atoms : List Atom} (hfits : ∀ atom ∈ atoms, atom.Fits delim (level + 1))
    (hguard : wraps = false ∨ ∀ atom ∈ atoms, atom.Unguarded (level + 1)) :
    Takes delim (fieldText wraps (level + 1) atoms) (render level atoms) := by
  rw [fieldText]
  split_ifs with hwraps
  · have hunguarded := hguard.resolve_left (by simp at hwraps; simp [hwraps.1])
    exact takes_quoted (render_nulFree hfits _) (written_render hdelim hfits (.inr hunguarded))
  · exact written_render hdelim hfits (.inl rfl)

theorem through_fieldText {delim : Char} (hdelim : Passing (some delim))
    {wraps : Bool} {level : Nat} {atoms : List Atom} (hfits : Uncut delim (level + 1) atoms)
    (hguard : wraps = false ∨ ∀ atom ∈ atoms, atom.Unguarded (level + 1)) :
    Through delim false (fieldText wraps (level + 1) atoms) := by
  rw [fieldText]
  split_ifs with hwraps
  · have hunguarded := hguard.resolve_left (by simp at hwraps; simp [hwraps.1])
    exact through_quoted (render_nulFree (fun atom h => (hfits atom h).1) _)
      (through_render hdelim hfits (.inr hunguarded))
  · exact through_render hdelim hfits (.inl rfl)

/-! ### Pairs and blocks -/

/-- The atoms of a pair. -/
structure Entry where
  key : List Atom
  value : List Atom
deriving DecidableEq, Repr

/-- A pair at a level. -/
def Entry.text (wraps : Bool) (level : Nat) (entry : Entry) : Text :=
  fieldText wraps level entry.key ++ '=' :: fieldText wraps level entry.value

/-- A pass reads a pair as meant. -/
def Entry.Fits (delim : Option Char) (level : Nat) (entry : Entry) : Prop :=
  (∀ atom ∈ entry.key, atom.Fits delim level) ∧ ∀ atom ∈ entry.value, atom.Fits delim level

/-- A pass reads a pair as meant and cuts nowhere in it. -/
def Entry.Uncut (delim : Char) (level : Nat) (entry : Entry) : Prop :=
  SwitchPasses.Uncut delim level entry.key ∧ SwitchPasses.Uncut delim level entry.value

/-- No guard of a pair reads bare at a level. -/
def Entry.Unguarded (level : Nat) (entry : Entry) : Prop :=
  (∀ atom ∈ entry.key, atom.Unguarded level) ∧ ∀ atom ∈ entry.value, atom.Unguarded level

theorem Entry.Uncut.fits {delim : Char} {level : Nat} {entry : Entry}
    (h : entry.Uncut delim level) :
    entry.Fits (some delim) level :=
  ⟨fun atom hatom => (h.1 atom hatom).1, fun atom hatom => (h.2 atom hatom).1⟩

theorem Entry.takes {delim : Option Char} (hdelim : Passing delim) {wraps : Bool} {level : Nat}
    {entry : Entry} (hfits : entry.Fits delim (level + 1))
    (hguard : wraps = false ∨ entry.Unguarded (level + 1)) :
    Takes delim (entry.text wraps (level + 1)) (entry.text false level) :=
  (takes_fieldText hdelim hfits.1 (hguard.imp_right And.left)).append
    ((takes_fieldText hdelim hfits.2 (hguard.imp_right And.right)).cons (by decide) (by decide))

theorem Entry.through {delim : Char} (hdelim : Passing (some delim)) (hequals : '=' ≠ delim)
    {wraps : Bool} {level : Nat} {entry : Entry} (hfits : entry.Uncut delim (level + 1))
    (hguard : wraps = false ∨ entry.Unguarded (level + 1)) :
    Through delim false (entry.text wraps (level + 1)) :=
  (through_fieldText hdelim hfits.1 (hguard.imp_right And.left)).append
    ((through_fieldText hdelim hfits.2 (hguard.imp_right And.right)).cons (by decide) (by decide)
      hequals (by decide))

theorem Takes.intercalate {α : Type} {delim : Option Char} {sep : Char} (hbackslash : sep ≠ '\\')
    (hquote : sep ≠ '\'') {f g : α → Text} {entries : List α}
    (h : ∀ entry ∈ entries, Takes delim (f entry) (g entry)) :
    Takes delim ([sep].intercalate (entries.map f)) ([sep].intercalate (entries.map g)) := by
  induction entries with
  | nil => exact .nil delim
  | cons entry entries ih =>
      obtain ⟨hentry, hentries⟩ := List.forall_mem_cons.mp h
      cases entries with
      | nil => simpa [List.intercalate] using hentry
      | cons next entries =>
          rw [List.map_cons, List.map_cons, List.intercalate_cons_cons, List.append_assoc,
            List.map_cons, List.map_cons, List.intercalate_cons_cons, List.append_assoc]
          exact hentry.append ((takes_plain hbackslash hquote delim).append (ih hentries))

theorem Through.intercalate {α : Type} {delim sep : Char} (hsep : Through delim false [sep])
    {f : α → Text} {entries : List α} (h : ∀ entry ∈ entries, Through delim false (f entry)) :
    Through delim false ([sep].intercalate (entries.map f)) := by
  induction entries with
  | nil => exact .nil delim false
  | cons entry entries ih =>
      obtain ⟨hentry, hentries⟩ := List.forall_mem_cons.mp h
      cases entries with
      | nil => simpa [List.intercalate] using hentry
      | cons next entries =>
          rw [List.map_cons, List.map_cons, List.intercalate_cons_cons, List.append_assoc]
          exact hentry.append (hsep.append (ih hentries))

/-- The pairs of a block at a level. -/
def dataText (wraps : Bool) (level : Nat) (sep : Char) (entries : List Entry) : Text :=
  [sep].intercalate (entries.map (Entry.text wraps level))

/-- A pass over the pairs of a block takes one level off, and the quotes. -/
theorem takes_dataText {delim : Option Char} (hdelim : Passing delim) {wraps : Bool} {level : Nat}
    {sep : Char} (hbackslash : sep ≠ '\\') (hquote : sep ≠ '\'') {entries : List Entry}
    (hfits : ∀ entry ∈ entries, entry.Fits delim (level + 1))
    (hguard : wraps = false ∨ ∀ entry ∈ entries, entry.Unguarded (level + 1)) :
    Takes delim (dataText wraps (level + 1) sep entries) (dataText false level sep entries) :=
  Takes.intercalate hbackslash hquote fun entry hentry =>
    Entry.takes hdelim (hfits entry hentry) (hguard.imp_right fun h => h entry hentry)

/-- A scan for a delimiter other than theirs goes over the pairs of a block. -/
theorem through_dataText {delim : Char} (hdelim : Passing (some delim)) (hequals : '=' ≠ delim)
    {wraps : Bool} {level : Nat} {sep : Char} (hsep : Through delim false [sep])
    {entries : List Entry} (hfits : ∀ entry ∈ entries, entry.Uncut delim (level + 1))
    (hguard : wraps = false ∨ ∀ entry ∈ entries, entry.Unguarded (level + 1)) :
    Through delim false (dataText wraps (level + 1) sep entries) :=
  Through.intercalate hsep fun entry hentry =>
    Entry.through hdelim hequals (hfits entry hentry) (hguard.imp_right fun h => h entry hentry)

end SwitchPasses
end EslTokio
