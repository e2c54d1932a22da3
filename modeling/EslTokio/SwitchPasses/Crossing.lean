import EslTokio.SwitchPasses.ThreadSplit

/-!
# Separators that make threads

A separator is checked against every key and value, and no key or value holds the delimiter of
threads. Joined, two of them can: an underscore between a value that ends in a colon and a key that
opens with one. Quotes around either keep them apart, where the pass of a target leaves quotes.

* `crosses` — whether two neighbouring pairs meet so.
* **`threads_blockText`** — a block holds the delimiter of threads exactly when two of them do.
-/

namespace EslTokio
namespace SwitchPasses

open Library

variable {field : EscapedField} {text : Text}

/-! ### Inner spaces -/

/-- Whether a text holds a space away from its ends. -/
def innerSpace (text : Text) : Bool := text.tail.dropLast.contains ' '

/-- Edges leave the spaces between them. -/
theorem space_mem_edges (atoms : List Atom) :
    .plain ' ' ∈ edgeLast (edgeHead atoms) ↔ .plain ' ' ∈ atoms.tail.dropLast := by
  cases atoms with
  | nil => exact Iff.rfl
  | cons atom rest =>
      obtain ⟨first, hfirst, hne, -⟩ := head_edgeHead atom rest
      rw [hfirst]
      rcases List.eq_nil_or_concat' rest with rfl | ⟨init, last, rfl⟩
      · obtain ⟨last, hlast, hspace, -⟩ := edgeLast_concat [] first
        rw [List.nil_append] at hlast
        simp [hlast, Ne.symm hspace]
      · obtain ⟨later, hlater, hspace, -⟩ := edgeLast_concat (first :: init) last
        rw [List.cons_append] at hlater
        simp [hlater, Ne.symm hne, Ne.symm hspace]

theorem charAtom_space (field : EscapedField) : field.charAtom ' ' = .plain ' ' := by
  cases field <;> rfl

theorem space_mem_map (field : EscapedField) (text : Text) :
    .plain ' ' ∈ text.map field.charAtom ↔ ' ' ∈ text := by
  constructor
  · intro h
    obtain ⟨c, hc, hatom⟩ := List.mem_map.mp h
    exact EscapedField.charAtom_eq_plain hatom ▸ hc
  · intro h
    exact List.mem_map.mpr ⟨' ', h, charAtom_space field⟩

/-- Guards of commas leave the spaces between the ends. -/
theorem space_mem_guardCommas (atoms : List Atom) :
    .plain ' ' ∈ (guardCommas atoms).tail.dropLast ↔ .plain ' ' ∈ atoms.tail.dropLast := by
  have hdropLast : ∀ atoms : List Atom,
      .plain ' ' ∈ (guardCommas atoms).dropLast ↔ .plain ' ' ∈ atoms.dropLast := by
    intro atoms
    induction atoms with
    | nil => exact Iff.rfl
    | cons atom rest ih =>
        cases rest with
        | nil => simp [guardCommas]
        | cons next rest =>
            obtain ⟨later, hlater⟩ := guardCommas_cons next rest
            rw [hlater] at ih
            unfold guardCommas
            split_ifs with hcut
            · rw [hlater, List.dropLast_cons_cons, List.dropLast_cons_cons, List.dropLast_cons_cons,
                List.mem_cons, List.mem_cons, List.mem_cons, ih]
              simp
            · rw [hlater, List.dropLast_cons_cons, List.dropLast_cons_cons, List.mem_cons,
                List.mem_cons, ih]
  cases atoms with
  | nil => exact Iff.rfl
  | cons atom rest =>
      unfold guardCommas
      split_ifs with hcut
      · obtain ⟨next, rest, rfl⟩ : ∃ next later, rest = next :: later :=
          List.exists_cons_of_ne_nil fun hnil => by
            rw [hnil] at hcut
            cases hcut.2
        obtain ⟨later, hlater⟩ := guardCommas_cons next rest
        have hsame := hdropLast (next :: rest)
        rw [hlater] at hsame ⊢
        rw [List.tail_cons, List.dropLast_cons_cons, List.tail_cons, List.mem_cons, hsame]
        simp
      · exact hdropLast rest

/-- Guards leave the spaces between the ends. -/
theorem space_mem_guardAtoms (field : EscapedField) (text : Text) :
    .plain ' ' ∈ (field.guardAtoms text (text.map field.charAtom)).tail.dropLast ↔
      ' ' ∈ text.tail.dropLast := by
  have hmap : .plain ' ' ∈ (text.map field.charAtom).tail.dropLast ↔ ' ' ∈ text.tail.dropLast := by
    rw [← List.map_tail, ← List.map_dropLast, space_mem_map]
  unfold EscapedField.guardAtoms
  split
  · split_ifs with hlast
    · obtain ⟨init, rfl⟩ : ∃ init, text = init ++ ['\\'] :=
        ⟨_, (List.dropLast_append_getLast? _ hlast).symm⟩
      cases init with
      | nil => simp [EscapedField.charAtom]
      | cons c init =>
          rw [List.cons_append, List.map_cons, List.cons_append, List.tail_cons,
            List.dropLast_concat, space_mem_map, List.tail_cons, List.dropLast_concat]
          simp
    · exact hmap
  · exact (space_mem_guardCommas _).trans hmap
  · exact (space_mem_guardCommas _).trans hmap
  all_goals exact hmap

/-- A field is between quotes when it holds a space away from its ends. -/
theorem EscapedField.spaced_atoms (field : EscapedField) (text : Text) :
    spaced (field.atoms text) = innerSpace text := by
  have hcaret : .plain ' ' ∉ field.caretAtoms text := by
    unfold EscapedField.caretAtoms
    split
    · split_ifs <;> simp
    all_goals simp
  rw [Bool.eq_iff_iff, spaced, innerSpace, List.contains_iff_mem, List.contains_iff_mem,
    EscapedField.atoms, List.mem_append, or_iff_right hcaret, space_mem_edges,
    space_mem_guardAtoms]

/-! ### Colons at the ends -/

theorem charAtom_colon (field : EscapedField) : field.charAtom ':' = .plain ':' := by
  cases field <;> rfl

/-- A field between quotes opens and ends with one. -/
theorem quoted_ends (x : Text) :
    (quoted x).head? = some '\'' ∧ (quoted x).getLast? = some '\'' :=
  ⟨rfl, by rw [quoted, ← List.cons_append, List.getLast?_concat]⟩

/-- A field opens with a colon when its text does, but for quotes. -/
theorem EscapedField.head_colon (field : EscapedField) (hfree : '\x00' ∉ text) (wraps : Bool)
    (level : Nat) :
    (fieldText wraps level (field.atoms text)).head? = some ':' ↔
      text.head? = some ':' ∧ (wraps && innerSpace text) = false := by
  rw [fieldText, field.spaced_atoms]
  split_ifs with hquoted
  · rw [(quoted_ends _).1]
    exact iff_of_false (by decide) fun h => absurd (hquoted.symm.trans h.2) (by decide)
  · rw [Bool.not_eq_true] at hquoted
    rw [hquoted, and_iff_left rfl]
    constructor
    · intro h
      have hbare : (fieldText false level (field.atoms text)).head? = some ':' := h
      exact EscapedField.head_fieldText hfree (by decide) hbare
    · intro h
      obtain ⟨later, rfl⟩ := List.head?_eq_some_iff.mp h
      have hcaret : field.caretAtoms (':' :: later) = [] := by cases field <;> rfl
      obtain ⟨rest, hrest⟩ : ∃ rest, field.guardAtoms (':' :: later)
          ((':' :: later).map field.charAtom) = field.charAtom ':' :: rest :=
        field.guardAtoms_cons (':' :: later) _ _
      rw [charAtom_colon] at hrest
      have hcolon : Atom.plain ':' ≠ .plain ' ' := by decide
      obtain ⟨tail, htail⟩ := List.head?_eq_some_iff.mp (head_edgeLast hcolon rest)
      rw [EscapedField.atoms, hcaret, hrest, edgeHead_of_ne hcolon, htail]
      rfl

/-- A field ends with a colon when its text does, but for quotes. -/
theorem EscapedField.last_colon (field : EscapedField) (hfree : '\x00' ∉ text) (hne : text ≠ [])
    (wraps : Bool) (level : Nat) :
    (fieldText wraps (level + 1) (field.atoms text)).getLast? = some ':' ↔
      text.getLast? = some ':' ∧ (wraps && innerSpace text) = false := by
  rw [fieldText, field.spaced_atoms]
  split_ifs with hquoted
  · rw [(quoted_ends _).2]
    exact iff_of_false (by decide) fun h => absurd (hquoted.symm.trans h.2) (by decide)
  · rw [Bool.not_eq_true] at hquoted
    rw [hquoted, and_iff_left rfl]
    obtain ⟨init, atom, tail, hatoms, hedge, htail, horigin⟩ := field.last_atoms hne
    have hrendered : ∀ atom ∈ field.atoms text, atom.Rendered field.ownPasses := fun _ =>
      EscapedField.rendered_atoms hfree
    rw [hatoms] at hrendered ⊢
    rw [List.getLast?_eq_some_getLast hne, Option.some.injEq]
    rcases htail with rfl | ⟨rfl, rfl⟩
    · have hatom : atom.Rendered field.ownPasses := hrendered atom (by simp)
      have htext : atom.text (level + 1) ≠ [] := fun hnil => by
        cases atom with
        | guarding last =>
            rw [hedge.guarding last rfl, Atom.text, if_pos (by omega)] at hnil
            simp at hnil
        | plain | quote => simp [Atom.text] at hnil
        | escaped c last =>
            rw [Atom.text] at hnil
            split_ifs at hnil
        | backslash => simp [Atom.text, backslashes] at hnil
        | space => simp [Atom.text] at hnil
      rw [render_append, render_cons, render_nil, List.append_nil,
        List.getLast?_append_of_ne_nil _ htext]
      constructor
      · intro h
        have hcolon := hatom.eq_plain (List.mem_of_getLast? h) (by decide)
        rcases horigin with horigin | rfl
        · exact EscapedField.charAtom_eq_plain (horigin.symm.trans hcolon)
        · cases hcolon
      · intro h
        rw [h, charAtom_colon] at horigin
        rcases horigin with rfl | rfl
        · rfl
        · have hlast := field.render_zero text
          rw [hatoms, render_append, render_cons, render_nil, List.append_nil] at hlast
          have hspace : text.getLast? = some ' ' := by
            rw [← hlast]
            exact List.getLast?_concat
          rw [List.getLast?_eq_some_getLast hne, h] at hspace
          exact absurd hspace (by decide)
    · refine iff_of_false (fun h => ?_) fun h => ?_
      · rw [render_append, List.getLast?_append_of_ne_nil _ (by simp [Atom.text, backslashes]),
          render_cons, render_cons, render_nil, List.append_nil] at h
        rcases List.mem_append.mp (List.mem_of_getLast? h) with hmem | hmem
        · cases (hrendered .backslash (by simp)).eq_plain hmem (by decide)
        · cases (hrendered (.guarding 3) (by simp)).eq_plain hmem (by decide)
      · rw [h, charAtom_colon] at horigin
        rcases horigin with horigin | horigin <;> cases horigin

/-! ### Where pairs meet -/

/-- Whether a value ends in a colon and the key behind it opens with one, with quotes around neither
where they are still there. -/
def meets (quotes : Bool) (value key : Text) : Bool :=
  (decide (value.getLast? = some ':') && !(quotes && innerSpace value)) &&
    (decide (key.head? = some ':') && !(quotes && innerSpace key))

/-- Whether two neighbouring pairs meet so. -/
def crosses (quotes : Bool) : List (Text × Text) → Bool
  | first :: second :: rest => meets quotes first.2 second.1 || crosses quotes (second :: rest)
  | _ => false

theorem crosses_iff {quotes : Bool} {pairs : List (Text × Text)} :
    crosses quotes pairs = true ↔ ∃ left first second right,
      pairs = left ++ first :: second :: right ∧ meets quotes first.2 second.1 = true := by
  induction pairs with
  | nil =>
      refine iff_of_false (by simp [crosses]) ?_
      rintro ⟨left, first, second, right, hpairs, -⟩
      simp at hpairs
  | cons pair pairs ih =>
      cases pairs with
      | nil =>
          refine iff_of_false (by simp [crosses]) ?_
          rintro ⟨left, first, second, right, hpairs, -⟩
          have hlength := congrArg List.length hpairs
          simp only [List.length_append, List.length_cons, List.length_nil] at hlength
          omega
      | cons next pairs =>
          rw [crosses, Bool.or_eq_true, ih]
          constructor
          · rintro (hmeets | ⟨left, first, second, right, hpairs, hmeets⟩)
            · exact ⟨[], pair, next, pairs, rfl, hmeets⟩
            · exact ⟨pair :: left, first, second, right, by rw [hpairs]; rfl, hmeets⟩
          · rintro ⟨left, first, second, right, hpairs, hmeets⟩
            cases left with
            | nil =>
                obtain ⟨rfl, hrest⟩ := List.cons.inj hpairs
                obtain ⟨rfl, rfl⟩ := List.cons.inj hrest
                exact .inl hmeets
            | cons c left =>
                obtain ⟨rfl, hrest⟩ := List.cons.inj hpairs
                exact .inr ⟨left, first, second, right, hrest, hmeets⟩

variable {scope : VariablesType} {commas : Bool} {key value : Text} {pairs : List (Text × Text)}

/-- A pair ends with a colon as its value does, and opens with one as its key does. -/
theorem Sendable.colons (h : Sendable scope key value) (commas quotes : Bool) (level : Nat) :
    (((Entry.ofPair scope commas (key, value)).text quotes (level + 1)).getLast? = some ':' ↔
      value.getLast? = some ':' ∧ (quotes && innerSpace value) = false) ∧
    (((Entry.ofPair scope commas (key, value)).text quotes (level + 1)).head? = some ':' ↔
      key.head? = some ':' ∧ (quotes && innerSpace key) = false) := by
  have hkey := EscapedField.fieldText_ne_nil (.key scope commas) h.key_ne h.key_free quotes level
  have hvalue :=
    EscapedField.fieldText_ne_nil (.value scope commas) h.value_ne h.value_free quotes level
  have htext : (Entry.ofPair scope commas (key, value)).text quotes (level + 1) =
      fieldText quotes (level + 1) ((EscapedField.key scope commas).atoms key) ++
        ('=' :: fieldText quotes (level + 1) ((EscapedField.value scope commas).atoms value)) := rfl
  rw [htext]
  constructor
  · rw [List.getLast?_append_of_ne_nil _ (List.cons_ne_nil _ _), ← List.singleton_append,
      List.getLast?_append_of_ne_nil _ hvalue]
    exact EscapedField.last_colon _ h.value_free h.value_ne quotes level
  · rw [List.head?_append_of_ne_nil _ hkey]
    exact EscapedField.head_colon _ h.key_free quotes (level + 1)

/-- A pair holds a structural char that its fields hold. -/
theorem Sendable.notMem_text (h : Sendable scope key value) {c : Char} (hc : Structural c)
    (habsent : c ∉ key ∧ c ∉ value) (commas quotes : Bool) (level : Nat) :
    c ∉ (Entry.ofPair scope commas (key, value)).text quotes level := by
  have hstructural : ∀ d ∈ [c], Structural d := fun d hd => List.mem_singleton.mp hd ▸ hc
  intro hmem
  rw [Entry.text, List.mem_append, List.mem_cons] at hmem
  rcases hmem with hkey | hequals | hvalue
  · exact habsent.1 ((List.singleton_infix_iff _ _).mp (EscapedField.infix_fieldText h.key_free
      (List.cons_ne_nil c []) hstructural ((List.singleton_infix_iff _ _).mpr hkey)))
  · exact hc (by simp [hequals])
  · exact habsent.2 ((List.singleton_infix_iff _ _).mp (EscapedField.infix_fieldText h.value_free
      (List.cons_ne_nil c []) hstructural ((List.singleton_infix_iff _ _).mpr hvalue)))

/-- Colons between texts with something else in them make no threads. -/
theorem threads_colons {xs : List Text} (h : ∀ x ∈ xs, ':' ∉ x ∧ '=' ∈ x) :
    ¬ enterpriseDelim <:+: ':' :: [':'].intercalate xs := by
  intro hwithin
  have hnext : ∀ later, ¬ enterpriseDelim <+: ':' :: later → enterpriseDelim <:+: ':' :: later →
      enterpriseDelim <:+: later := fun later hopens hinfix =>
    (List.infix_cons_iff.mp hinfix).resolve_left hopens
  induction xs with
  | nil => exact absurd hwithin (by decide)
  | cons x xs ih =>
      obtain ⟨⟨hcolon, hequals⟩, hlater⟩ := List.forall_mem_cons.mp h
      -- A delimiter at the colon would end at the next one, with an underscore for the whole text.
      have hopens : ∀ later, ¬ enterpriseDelim <+: ':' :: (x ++ later) := by
        intro later hopens
        obtain ⟨-, hopens⟩ := List.cons_prefix_cons.mp hopens
        obtain ⟨c, rest, rfl⟩ := List.exists_cons_of_ne_nil (List.ne_nil_of_mem hequals)
        obtain ⟨rfl, -⟩ := List.cons_prefix_cons.mp hopens
        cases rest with
        | nil => exact absurd hequals (by decide)
        | cons d rest =>
            have hnext : ':' = d :=
              (List.cons_prefix_cons.mp (List.cons_prefix_cons.mp hopens).2).1
            exact hcolon (List.mem_cons_of_mem _ (hnext ▸ List.mem_cons_self))
      cases xs with
      | nil =>
          rw [List.intercalate_singleton] at hwithin
          have hrest := hnext x (by simpa using hopens []) hwithin
          exact hcolon (hrest.subset List.mem_cons_self)
      | cons y ys =>
          rw [List.intercalate_cons_cons, List.append_assoc, List.singleton_append] at hwithin
          have hrest := hnext _ (hopens _) hwithin
          exact ih hlater (Search.infix_of_append_head hcolon hrest)

/-- **A block holds the delimiter of threads exactly when its separator is an underscore that two of
its pairs meet at.** -/
theorem threads_blockText {separator : Option Char} (h : Fills scope pairs)
    (hsep : Chosen scope separator pairs) (quotes : Bool) (level : Nat) :
    enterpriseDelim <:+: blockText scope separator quotes (level + 1) pairs ↔
      separator = some '_' ∧ crosses quotes pairs = true := by
  cases separator with
  | none =>
      refine iff_of_false ?_ (by simp)
      exact threads_pairsText (by decide) h.sendable
  | some sep =>
      have htexts : pairsText scope (escapesCommas (some sep)) quotes (level + 1) sep pairs =
          [sep].intercalate (pairs.map fun pair =>
            (Entry.ofPair scope (escapesCommas (some sep)) pair).text quotes (level + 1)) := by
        rw [pairsText, dataText, List.map_map]
        rfl
      have habsent : Structural sep → ∀ x ∈ pairs.map fun pair =>
          (Entry.ofPair scope (escapesCommas (some sep)) pair).text quotes (level + 1),
          x ≠ [] ∧ sep ∉ x ∧ '=' ∈ x := by
        intro hstructural x hx
        obtain ⟨pair, hpair, rfl⟩ := List.mem_map.mp hx
        exact ⟨Entry.text_ne_nil _ _ _, (h.sendable pair hpair).notMem_text hstructural
          (hsep.absent sep rfl pair hpair) _ _ _, by simp [Entry.text]⟩
      by_cases hunderscore : sep = '_'
      · subst hunderscore
        have hstrip : enterpriseDelim <:+: blockText scope (some '_') quotes (level + 1) pairs ↔
            enterpriseDelim <:+: pairsText scope (escapesCommas (some '_')) quotes (level + 1) '_'
              pairs :=
          ⟨fun hwithin => Search.infix_of_append_head (by decide : ':' ∉ ['^', '^', '_']) hwithin,
            fun hwithin => hwithin.trans (List.suffix_append _ _).isInfix⟩
        have hlists := habsent (by decide)
        rw [hstrip, htexts, and_iff_right rfl, crosses_iff]
        refine (Search.infix_intercalate_seam (by decide) fun x hx =>
          ⟨(hlists x hx).1, (hlists x hx).2.1⟩).trans ?_
        constructor
        · rintro ⟨left, first, second, right, hmap, hlast, hhead⟩
          obtain ⟨left, behind, rfl, -, hbehind⟩ := List.map_eq_append_iff.mp hmap
          obtain ⟨first, rest, rfl, rfl, hrest⟩ := List.map_eq_cons_iff.mp hbehind
          obtain ⟨second, right, rfl, rfl, -⟩ := List.map_eq_cons_iff.mp hrest
          refine ⟨left, first, second, right, rfl, ?_⟩
          have hends := ((h.sendable first (by simp)).colons _ quotes level).1.mp hlast
          have hopens := ((h.sendable second (by simp)).colons _ quotes level).2.mp hhead
          simp [meets, hends, hopens]
        · rintro ⟨left, first, second, right, rfl, hmeets⟩
          simp only [meets, Bool.and_eq_true, decide_eq_true_eq, Bool.not_eq_true'] at hmeets
          refine ⟨_, _, _, _, by rw [List.map_append, List.map_cons, List.map_cons], ?_, ?_⟩
          · exact ((h.sendable first (by simp)).colons _ quotes level).1.mpr hmeets.1
          · exact ((h.sendable second (by simp)).colons _ quotes level).2.mpr hmeets.2
      · refine iff_of_false (fun hwithin => ?_) (by simp [hunderscore])
        by_cases hcolon : sep = ':'
        · subst hcolon
          have hlists := habsent (by decide)
          have hwhole : enterpriseDelim <:+: ['^', '^'] ++ ':' :: pairsText scope
              (escapesCommas (some ':')) quotes (level + 1) ':' pairs := hwithin
          rw [htexts] at hwhole
          exact threads_colons (fun x hx => ⟨(hlists x hx).2.1, (hlists x hx).2.2⟩)
            (Search.infix_of_append_head (by decide) hwhole)
        · have hdelim : sep ∉ enterpriseDelim := by
            simp [enterpriseDelim, hunderscore, hcolon]
          have hhead : ':' ∉ ['^', '^', sep] := by simp [Ne.symm hcolon]
          exact threads_pairsText hdelim h.sendable (Search.infix_of_append_head hhead hwithin)

end SwitchPasses
end EslTokio
