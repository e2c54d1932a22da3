import EslTokio.SwitchPasses.AtomBytes
import EslTokio.SwitchPasses.LegRead

/-!
# Rendered fields in a dial string

What the passes of a dial string ask of the text of a key, a value or an endpoint: that no space
stands at its edges, that it opens nothing, that it holds no `:_:` and that its brackets balance.
Each comes from the text that is rendered, at whatever level a pass finds it.

* `EscapedField.trimmed_fieldText` — a cleanup trims nothing.
* `splitsIntoThreads_fieldText` — no render makes threads.
* `balanced_fieldText` — brackets are where the text has them.
-/

namespace EslTokio
namespace SwitchPasses

open Library

/-! ### Edges -/

theorem Trimmed.of_edges {x first left right last : Text} (hfirst : x = first ++ right)
    (hlast : x = left ++ last) (hne : first ≠ []) (hne' : last ≠ []) (hspace : ' ' ∉ first)
    (hspace' : ' ' ∉ last) : Trimmed x := by
  constructor
  · rintro c hc rfl
    rw [hfirst, List.head?_append_of_ne_nil _ hne] at hc
    exact hspace (List.mem_of_mem_head? hc)
  · rintro c hc rfl
    rw [hlast, List.getLast?_append_of_ne_nil _ hne'] at hc
    exact hspace' (List.mem_of_getLast? hc)

theorem Trimmed.spell {x : Text} (h : Trimmed x) : Trimmed (spell x) := by
  constructor
  · intro c hc
    cases x with
    | nil => cases hc
    | cons d x => exact h.head c hc
  · intro c hc
    rcases List.eq_nil_or_concat' x with rfl | ⟨init, d, rfl⟩
    · cases hc
    · rw [spell_append, spell_cons, spell_nil, List.append_nil,
        List.getLast?_append_of_ne_nil _ (List.cons_ne_nil _ _)] at hc
      rcases List.mem_cons.mp (List.mem_of_getLast? hc) with rfl | hc
      · cases hbytes : List.replicate (c.utf8Size - 1) continuation with
        | nil => exact h.last c (by simp)
        | cons e bytes => exact h.last c (by simp)
      · rw [List.eq_of_mem_replicate hc]
        decide

/-- An atom at the edge of a field spells something, and no bare space. -/
theorem Atom.Edge.clear {own : Nat} {atom : Atom} (hedge : atom.Edge)
    (hrendered : atom.Rendered own)
    (level : Nat) : atom.text (level + 1) ≠ [] ∧ ' ' ∉ atom.text (level + 1) := by
  have hsolid : atom.Solid (level + 1) := by
    cases atom with
    | escaped c last =>
        show c ≠ ' '
        rcases hrendered.2 with rfl | rfl | rfl <;> decide
    | guarding last =>
        show last ≤ level + 1
        rw [hedge.guarding last rfl]
        exact Nat.succ_le_succ (Nat.zero_le level)
    | plain | backslash | quote | space => trivial
  rw [← Atom.wire_plainCarrier]
  exact ⟨Atom.wire_ne_nil hsolid, (Atom.space_mem_wire hsolid).not.mpr hedge.space⟩

theorem space_notMem_guard (last level : Nat) : ' ' ∉ (Atom.guarding last).text level := by
  have hquote : ∀ count, ' ' ∉ backslashes count ++ ['\''] := fun count h =>
    (List.mem_append.mp h).elim (space_notMem_backslashes count) (by simp)
  rw [Atom.text]
  split_ifs
  · rw [← List.singleton_append, ← List.append_assoc]
    exact fun h => (List.mem_append.mp h).elim (hquote _) (hquote _)
  · simp

/-- **No pass over a field has a space to trim.** -/
theorem EscapedField.trimmed_fieldText (field : EscapedField) {text : Text}
    (hne : text ≠ []) (hfree : '\x00' ∉ text) (wraps : Bool) (level : Nat) :
    Trimmed (fieldText wraps (level + 1) (field.atoms text)) := by
  rw [fieldText]
  split_ifs
  · rw [quoted]
    generalize render (level + 1) (field.atoms text) = x
    exact Trimmed.of_edges (List.singleton_append ..).symm (List.cons_append ..).symm
      (List.cons_ne_nil '\'' [])
      (List.cons_ne_nil '\'' []) (by decide) (by decide)
  obtain ⟨atom, rest, hhead, hedge⟩ := field.head_atoms hne
  obtain ⟨init, final, tail, hlast, hedge', htail, -⟩ := field.last_atoms hne
  have hmem : atom ∈ field.atoms text := hhead ▸ List.mem_cons_self
  have hmem' : final ∈ field.atoms text := hlast ▸ List.mem_append_right init List.mem_cons_self
  obtain ⟨hfirst, hspace⟩ := hedge.clear (EscapedField.rendered_atoms hfree hmem) level
  obtain ⟨hfinal, hspace'⟩ := hedge'.clear (EscapedField.rendered_atoms hfree hmem') level
  have hguard : ' ' ∉ render (level + 1) tail := by
    rcases htail with rfl | ⟨rfl, -⟩
    · simp
    · rw [render_cons, render_nil, List.append_nil]
      exact space_notMem_guard 3 (level + 1)
  have hleft : render (level + 1) (field.atoms text) = atom.text (level + 1) ++ render
      (level + 1) rest := by
    rw [hhead, render_cons]
  have hright : render (level + 1) (field.atoms text) =
      render (level + 1) init ++ (final.text (level + 1) ++ render (level + 1) tail) := by
    rw [hlast, render_append, render_cons]
  refine .of_edges hleft hright hfirst ?_ hspace ?_
  · exact fun h => hfinal (List.append_eq_nil_iff.mp h).1
  · exact fun h => (List.mem_append.mp h).elim hspace' hguard

theorem EscapedField.fieldText_ne_nil (field : EscapedField) {text : Text}
    (hne : text ≠ []) (hfree : '\x00' ∉ text) (wraps : Bool) (level : Nat) :
    fieldText wraps (level + 1) (field.atoms text) ≠ [] := by
  obtain ⟨atom, rest, hhead, hedge⟩ := field.head_atoms hne
  have hmem : atom ∈ field.atoms text := hhead ▸ List.mem_cons_self
  have hfirst := (hedge.clear (EscapedField.rendered_atoms hfree hmem) level).1
  rw [fieldText]
  split_ifs
  · exact List.cons_ne_nil _ _
  · rw [hhead, render_cons]
    exact fun h => hfirst (List.append_eq_nil_iff.mp h).1

/-! ### Threads -/

/-- The chars that separate threads, and brackets, stand in a field where its text has them. -/
def Structural (c : Char) : Prop := c ∉ ['\\', '\'', ' ', 's', ',', '|', '=']

instance : DecidablePred Structural := fun c =>
  inferInstanceAs (Decidable (c ∉ ['\\', '\'', ' ', 's', ',', '|', '=']))

/-- Only its own atom spells a structural char. -/
theorem Atom.Rendered.eq_plain {own level : Nat} {atom : Atom} (h : atom.Rendered own) {c : Char}
    (hc : c ∈ atom.text level) (hstructural : Structural c) : atom = .plain c := by
  have hrun : ∀ count, c ∉ backslashes count := fun count hmem =>
    hstructural (List.eq_of_mem_replicate hmem ▸ by simp)
  have hquote : ∀ count, c ∉ backslashes count ++ ['\''] := fun count hmem =>
    (List.mem_append.mp hmem).elim (hrun count) fun h =>
      hstructural (List.mem_singleton.mp h ▸ by simp)
  cases atom with
  | plain d => rw [List.mem_singleton.mp hc]
  | escaped d last =>
      refine absurd ?_ hstructural
      rw [Atom.text] at hc
      split_ifs at hc
      · rcases List.mem_cons.mp hc with rfl | hc
        · simp
        · rcases h.2 with rfl | rfl | rfl <;> rw [List.mem_singleton.mp hc] <;> simp
      · rcases h.2 with rfl | rfl | rfl <;> rw [List.mem_singleton.mp hc] <;> simp
  | backslash => exact absurd hc (hrun _)
  | quote => exact absurd hc (hquote _)
  | space =>
      refine absurd ?_ hstructural
      cases level with
      | zero => rw [List.mem_singleton.mp hc]; simp
      | succ level =>
          rcases List.mem_append.mp hc with hc | hc
          · exact absurd hc (hrun _)
          · rw [List.mem_singleton.mp hc]; simp
  | guarding last =>
      rw [Atom.text] at hc
      split_ifs at hc
      · rw [← List.singleton_append, ← List.append_assoc] at hc
        exact absurd hc fun h => (List.mem_append.mp h).elim (hquote _) (hquote _)
      · cases hc

/-- Without structural chars, an atom spells nothing at one level that it does not spell at another.
-/
theorem Atom.Rendered.text_nil {own level : Nat} {atom : Atom} (_h : atom.Rendered own)
    (hnil : atom.text level = []) : atom.text 0 = [] := by
  cases atom with
  | guarding last =>
      rw [Atom.text] at hnil ⊢
      split_ifs at hnil
      · simp at hnil
      · rw [if_neg (by omega)]
  | plain | quote => simp [Atom.text] at hnil
  | escaped c last =>
      rw [Atom.text] at hnil
      split_ifs at hnil
  | backslash => simp [Atom.text, backslashes] at hnil
  | space => cases level <;> simp [Atom.text] at hnil

theorem prefix_render {own level : Nat} {atoms : List Atom}
    (hrendered : ∀ atom ∈ atoms, atom.Rendered own)
    {needle : Text} (hneedle : ∀ c ∈ needle, Structural c) (h : needle <+: render level atoms) :
    needle <+: render 0 atoms := by
  induction atoms generalizing needle with
  | nil => exact h
  | cons atom atoms ih =>
      obtain ⟨hatom, hatoms⟩ := List.forall_mem_cons.mp hrendered
      cases needle with
      | nil => exact List.nil_prefix
      | cons c needle =>
          obtain ⟨hc, hlater⟩ := List.forall_mem_cons.mp hneedle
          rw [render_cons] at h ⊢
          cases htext : atom.text level with
          | nil =>
              rw [htext, List.nil_append] at h
              rw [hatom.text_nil htext]
              exact ih hatoms hneedle h
          | cons d text =>
              rw [htext, List.cons_append, List.cons_prefix_cons] at h
              obtain ⟨rfl, h⟩ := h
              obtain rfl := hatom.eq_plain (htext ▸ List.mem_cons_self) hc
              obtain rfl : [] = text := (List.cons.inj htext).2
              exact List.cons_prefix_cons.mpr ⟨rfl, ih hatoms hlater h⟩

/-- Structural chars next to each other in a render are so in the text. -/
theorem infix_render {own level : Nat} {atoms : List Atom}
    (hrendered : ∀ atom ∈ atoms, atom.Rendered own)
    {needle : Text} (hne : needle ≠ []) (hneedle : ∀ c ∈ needle, Structural c)
    (h : needle <:+: render level atoms) : needle <:+: render 0 atoms := by
  induction atoms with
  | nil => exact h
  | cons atom atoms ih =>
      obtain ⟨hatom, hatoms⟩ := List.forall_mem_cons.mp hrendered
      have hbehind : needle <:+: render level atoms →
          needle <:+: render 0 (atom :: atoms) := fun h =>
        (ih hatoms h).trans (List.suffix_append _ _).isInfix
      by_cases hplain : ∃ c ∈ needle, atom = .plain c
      · obtain ⟨c, -, rfl⟩ := hplain
        rcases List.infix_cons_iff.mp h with hprefix | hwithin
        · exact (prefix_render hrendered hneedle hprefix).isInfix
        · exact hbehind hwithin
      · refine hbehind (Search.infix_of_append_notMem hne (fun c hc hmem => ?_) h)
        exact hplain ⟨c, hmem, hatom.eq_plain hc (hneedle c hmem)⟩

theorem threads_iff (text : Text) : splitsIntoThreads text = true ↔ enterpriseDelim <:+: text :=
  Search.isSome_find_iff

theorem structural_enterpriseDelim : ∀ c ∈ enterpriseDelim, Structural c := by decide

theorem EscapedField.infix_fieldText {field : EscapedField} {text : Text} (hfree : '\x00' ∉ text)
    {needle : Text}
    (hne : needle ≠ []) (hneedle : ∀ c ∈ needle, Structural c) {wraps : Bool} {level : Nat}
    (h : needle <:+: fieldText wraps level (field.atoms text)) : needle <:+: text := by
  have hrender : needle <:+: render level (field.atoms text) → needle <:+: text := by
    intro h
    have htext := infix_render (fun atom => EscapedField.rendered_atoms hfree) hne hneedle h
    rwa [EscapedField.render_zero] at htext
  rw [fieldText] at h
  split_ifs at h
  · have hquote : '\'' ∉ needle := fun hmem => hneedle _ hmem (by simp)
    have hopen : needle <:+: [] ++ '\'' :: (render level (field.atoms text) ++ ['\'']) := h
    rcases Search.infix_append_cons hquote hopen with h | h
    · exact absurd (List.infix_nil.mp h) hne
    · rcases Search.infix_append_cons hquote h with h | h
      · exact hrender h
      · exact absurd (List.infix_nil.mp h) hne
  · exact hrender h

/-- **No render makes threads.** -/
theorem EscapedField.threads_fieldText {field : EscapedField} {text : Text} (hfree : '\x00' ∉ text)
    (hthreads : splitsIntoThreads text = false) (wraps : Bool) (level : Nat) :
    ¬ enterpriseDelim <:+: fieldText wraps level (field.atoms text) := by
  intro h
  have htext := EscapedField.infix_fieldText hfree (by decide) structural_enterpriseDelim h
  rw [← threads_iff, hthreads] at htext
  cases htext

/-! ### Brackets -/

theorem depthFrom_append {opener closer : Char} {depth depth' : Nat} {x : Text}
    (h : depthFrom opener closer depth x = some depth') (y : Text) :
    depthFrom opener closer depth (x ++ y) = depthFrom opener closer depth' y := by
  induction x generalizing depth with
  | nil => rw [Option.some.inj h, List.nil_append]
  | cons c x ih =>
      unfold depthFrom at h
      rw [List.cons_append]
      conv_lhs => unfold depthFrom
      split_ifs at h ⊢
      · exact ih h
      · cases depth with
        | zero => cases h
        | succ depth => exact ih h
      · exact ih h

theorem Balanced.append {opener closer : Char} {x y : Text} (hx : Balanced opener closer x)
    (hy : Balanced opener closer y) : Balanced opener closer (x ++ y) :=
  (depthFrom_append hx y).trans hy

theorem depthFrom_of_notMem {opener closer : Char} (depth : Nat) {x : Text} (hopener : opener ∉ x)
    (hcloser : closer ∉ x) : depthFrom opener closer depth x = some depth := by
  induction x with
  | nil => rfl
  | cons c x ih =>
      obtain ⟨hc, hx⟩ := not_or.mp (List.mem_cons.not.mp hopener)
      obtain ⟨hc', hx'⟩ := not_or.mp (List.mem_cons.not.mp hcloser)
      unfold depthFrom
      rw [if_neg (Ne.symm hc), if_neg (Ne.symm hc'), ih hx hx']

theorem depthFrom_render {own level : Nat} {opener closer : Char} (hopener : Structural opener)
    (hcloser : Structural closer) {atoms : List Atom}
    (hrendered : ∀ atom ∈ atoms, atom.Rendered own) (depth : Nat) :
    depthFrom opener closer depth (render level atoms) = depthFrom opener closer depth
      (render 0 atoms) := by
  induction atoms generalizing depth with
  | nil => rfl
  | cons atom atoms ih =>
      obtain ⟨hatom, hatoms⟩ := List.forall_mem_cons.mp hrendered
      rw [render_cons, render_cons]
      by_cases hplain : atom = .plain opener ∨ atom = .plain closer
      · have hlater := ih hatoms
        rcases hplain with rfl | rfl
        all_goals
          simp only [Atom.text, List.singleton_append]
          conv_lhs => unfold depthFrom
          conv_rhs => unfold depthFrom
          simp only [hlater]
      · obtain ⟨hne, hne'⟩ := not_or.mp hplain
        have hskip : ∀ n, depthFrom opener closer depth (atom.text n) = some depth := fun n =>
          depthFrom_of_notMem depth (fun h => hne (hatom.eq_plain h hopener))
            fun h => hne' (hatom.eq_plain h hcloser)
        rw [depthFrom_append (hskip level), depthFrom_append (hskip 0), ih hatoms]

/-- **The brackets of a field are where its text has them.** -/
theorem EscapedField.balanced_fieldText {field : EscapedField} {text : Text} (hfree : '\x00' ∉ text)
    {opener closer : Char} (hopener : Structural opener) (hcloser : Structural closer)
    (hbalanced : Balanced opener closer text) (wraps : Bool) (level : Nat) :
    Balanced opener closer (fieldText wraps level (field.atoms text)) := by
  have hrender : Balanced opener closer (render level (field.atoms text)) := by
    rw [Balanced, depthFrom_render hopener hcloser (fun atom => EscapedField.rendered_atoms hfree),
      EscapedField.render_zero]
    exact hbalanced
  have hquote : Balanced opener closer ['\''] := by
    refine depthFrom_of_notMem 0 ?_ ?_ <;> rw [List.mem_singleton] <;> rintro rfl
    · exact hopener (by simp)
    · exact hcloser (by simp)
  rw [fieldText]
  split_ifs
  · exact hquote.append (hrender.append hquote)
  · exact hrender

theorem depthFrom_spell {opener closer : Char} (hopener : opener ≠ continuation)
    (hcloser : closer ≠ continuation)
    (depth : Nat) (x : Text) :
    depthFrom opener closer depth (spell x) = depthFrom opener closer depth x := by
  have hskip : ∀ depth count,
      depthFrom opener closer depth (List.replicate count continuation) = some depth :=
    fun depth count => depthFrom_of_notMem depth (fun h => hopener (List.eq_of_mem_replicate h))
      fun h => hcloser (List.eq_of_mem_replicate h)
  induction x generalizing depth with
  | nil => rfl
  | cons c x ih =>
      have hlater : ∀ depth, depthFrom opener closer depth
          (List.replicate (c.utf8Size - 1) continuation ++ spell x) =
            depthFrom opener closer depth x :=
        fun depth => (depthFrom_append (hskip depth _) _).trans (ih depth)
      rw [spell_cons]
      conv_lhs => unfold depthFrom
      conv_rhs => unfold depthFrom
      simp only [hlater]

theorem Balanced.spell {opener closer : Char} (hopener : opener.toNat < 128)
    (hcloser : closer.toNat < 128)
    {x : Text} (h : Balanced opener closer x) : Balanced opener closer (spell x) :=
  (depthFrom_spell (ne_continuation hopener) (ne_continuation hcloser) 0 x).trans h

/-! ### Openings -/

theorem headless_iff (x : Text) : Headless x ↔ ¬ ['^', '^'] <+: x := by
  rw [Headless, not_iff_not]
  constructor
  · rintro ⟨hfirst, hsecond⟩
    match x, hfirst, hsecond with
    | c :: d :: rest, hfirst, hsecond =>
        obtain rfl := Option.some.inj hfirst
        obtain rfl := Option.some.inj hsecond
        exact ⟨rest, rfl⟩
  · rintro ⟨rest, rfl⟩
    exact ⟨rfl, rfl⟩

theorem Headless.spell {x : Text} (h : Headless x) : Headless (spell x) := by
  rw [headless_iff] at h ⊢
  intro hspelled
  cases x with
  | nil => exact absurd (List.prefix_nil.mp hspelled) (by simp)
  | cons c x =>
      rw [spell_cons] at hspelled
      obtain ⟨rfl, hspelled⟩ := List.cons_prefix_cons.mp hspelled
      cases x with
      | nil => exact absurd (List.prefix_nil.mp hspelled) (by simp)
      | cons d x =>
          rw [show List.replicate ('^'.utf8Size - 1) continuation = [] from rfl, List.nil_append,
            spell_cons] at hspelled
          obtain ⟨rfl, -⟩ := List.cons_prefix_cons.mp hspelled
          exact h ⟨x, rfl⟩

theorem prefix_append_cons {needle left right : Text} {sep : Char} (hsep : sep ∉ needle)
    (h : needle <+: left ++ sep :: right) : needle <+: left := by
  rcases Nat.le_total needle.length left.length with hle | hle
  · exact List.prefix_of_prefix_length_le h (List.prefix_append _ _) hle
  · rcases Nat.eq_or_lt_of_le hle with heq | hlt
    · exact List.prefix_of_prefix_length_le h (List.prefix_append _ _) heq.ge
    · have hinside : left ++ [sep] <+: needle :=
        List.prefix_of_prefix_length_le ⟨right, by simp⟩ h (by rw [List.length_append]; exact hlt)
      exact absurd (hinside.subset (by simp)) hsep

/-- Structural chars a field opens with are its text's. -/
theorem EscapedField.prefix_fieldText {field : EscapedField} {text : Text} (hfree : '\x00' ∉ text)
    {needle : Text} (hne : needle ≠ []) (hneedle : ∀ c ∈ needle, Structural c)
    {wraps : Bool} {level : Nat}
    (h : needle <+: fieldText wraps level (field.atoms text)) : needle <+: text := by
  rw [fieldText] at h
  split_ifs at h
  · obtain ⟨c, needle, rfl⟩ := List.exists_cons_of_ne_nil hne
    obtain ⟨rfl, -⟩ := List.cons_prefix_cons.mp h
    exact absurd (by simp) (hneedle _ List.mem_cons_self)
  · have htext := prefix_render (fun atom => EscapedField.rendered_atoms hfree) hneedle h
    rwa [EscapedField.render_zero] at htext

theorem EscapedField.head_fieldText {field : EscapedField} {text : Text} (hfree : '\x00' ∉ text)
    {wraps : Bool} {level : Nat} {c : Char} (hc : Structural c)
    (h : (fieldText wraps level (field.atoms text)).head? = some c) : text.head? = some c := by
  obtain ⟨rest, hrest⟩ := List.head?_eq_some_iff.mp h
  have hprefix : [c] <+: text := EscapedField.prefix_fieldText hfree (List.cons_ne_nil c [])
    (by simpa using hc) (hrest ▸ ⟨rest, rfl⟩ : [c] <+: fieldText wraps level (field.atoms text))
  obtain ⟨later, rfl⟩ := hprefix
  rfl

/-- **A key opens no head**: what would read as one is behind a guard. -/
theorem headless_key {scope : VariablesType} {commas : Bool} {text : Text} (hfree : '\x00' ∉ text)
    (wraps : Bool) (level : Nat) (rest : Text) :
    Headless (fieldText wraps (level + 1) ((EscapedField.key scope commas).atoms text) ++
      '=' :: rest) := by
  rw [headless_iff]
  intro h
  have hfield := prefix_append_cons (by decide : '=' ∉ ['^', '^']) h
  have hstructural : ∀ c ∈ ['^', '^'], Structural c := by decide
  have htext := EscapedField.prefix_fieldText hfree (List.cons_ne_nil _ _) hstructural hfield
  -- The guard stands ahead of the carets.
  have hguard : ∃ atoms, (EscapedField.key scope commas).atoms text = .guarding 1 :: atoms := by
    rw [EscapedField.atoms, EscapedField.caretAtoms, if_pos (List.isPrefixOf_iff_prefix.mpr htext)]
    exact ⟨_, rfl⟩
  obtain ⟨atoms, hatoms⟩ := hguard
  rw [hatoms, fieldText] at hfield
  split_ifs at hfield
  · exact absurd (List.cons_prefix_cons.mp hfield).1 (by decide)
  · have hopening : ∃ c x, render (level + 1) (.guarding 1 :: atoms) = c :: x ∧ c ≠ '^' := by
      rw [render_cons, Atom.text, if_pos (by omega)]
      cases hcount : 2 ^ (level + 1 - 1) - 1 with
      | zero => exact ⟨'\'', _, rfl, by decide⟩
      | succ count => exact ⟨'\\', _, rfl, by decide⟩
    obtain ⟨c, x, hrender, hc⟩ := hopening
    rw [hrender] at hfield
    exact hc (List.cons_prefix_cons.mp hfield).1.symm

/-! ### The comma scan -/

/-- Every comma is behind a backslash. -/
def CommasEscaped (x : Text) : Prop := ∀ left right, x = left ++ ',' :: right →
    left.getLast? = some '\\'

theorem CommasEscaped.of_notMem {x : Text} (h : ',' ∉ x) : CommasEscaped x := by
  rintro left right rfl
  exact absurd (List.mem_append_right left List.mem_cons_self) h

theorem CommasEscaped.append {x y : Text} (hx : CommasEscaped x) (hy : CommasEscaped y) :
    CommasEscaped (x ++ y) := by
  intro left right h
  rcases List.append_eq_append_iff.mp h with ⟨middle, rfl, hmiddle⟩ | ⟨middle, rfl, hmiddle⟩
  · have hlast := hy middle right hmiddle
    rw [List.getLast?_append, hlast]
    rfl
  · cases middle with
    | nil =>
        have hlast := hy [] right hmiddle.symm
        cases hlast
    | cons c middle =>
        obtain ⟨rfl, -⟩ := List.cons.inj hmiddle
        exact hx left middle rfl

/-- A comma's atom keeps it behind a backslash up to the pass that splits on commas. -/
theorem Atom.Rendered.commasEscaped {own level : Nat} {atom : Atom} (h : atom.Rendered own)
    (hplain : atom ≠ .plain ',') (hlevel : ∀ last, atom = .escaped ',' last → last ≤ level) :
    CommasEscaped (atom.text level) := by
  by_cases hmem : ',' ∈ atom.text level
  · have hrun : ∀ count, ',' ∉ backslashes count := fun count hmem =>
      absurd (List.eq_of_mem_replicate hmem) (by decide)
    have hquote : ∀ count, ',' ∉ backslashes count ++ ['\''] := fun count hmem =>
      (List.mem_append.mp hmem).elim (hrun count) (by simp)
    cases atom with
    | plain c => exact absurd (congrArg Atom.plain (List.mem_singleton.mp hmem).symm) hplain
    | escaped c last =>
        by_cases hc : c = ','
        · subst hc
          rw [Atom.text, if_pos (hlevel last rfl)]
          intro left right h
          cases left with
          | nil => exact absurd (List.cons.inj h).1 (by decide)
          | cons d left =>
              cases left with
              | nil =>
                  rw [← (List.cons.inj h).1]
                  rfl
              | cons e left =>
                  have hlength := congrArg List.length h
                  simp at hlength
        · exfalso
          rw [Atom.text] at hmem
          split_ifs at hmem <;> simp [Ne.symm hc] at hmem
    | backslash => exact absurd hmem (hrun _)
    | quote => exact absurd hmem (hquote _)
    | space =>
        exfalso
        cases level with
        | zero => simp [Atom.text] at hmem
        | succ level => exact (List.mem_append.mp hmem).elim (hrun _) (by simp)
    | guarding last =>
        exfalso
        rw [Atom.text] at hmem
        split_ifs at hmem
        · rw [← List.singleton_append, ← List.append_assoc] at hmem
          exact (List.mem_append.mp hmem).elim (hquote _) (hquote _)
        · cases hmem
  · exact .of_notMem hmem

theorem commasEscaped_render {own level : Nat} {atoms : List Atom}
    (hrendered : ∀ atom ∈ atoms, atom.Rendered own)
    (hplain : .plain ',' ∉ atoms) (hlevel : ∀ last, .escaped ',' last ∈ atoms → last ≤ level) :
    CommasEscaped (render level atoms) := by
  induction atoms with
  | nil => exact .of_notMem (by simp)
  | cons atom atoms ih =>
      obtain ⟨hatom, hatoms⟩ := List.forall_mem_cons.mp hrendered
      obtain ⟨hne, hnot⟩ := not_or.mp (List.mem_cons.not.mp hplain)
      rw [render_cons]
      refine (hatom.commasEscaped (Ne.symm hne) fun last h =>
        hlevel last (h ▸ List.mem_cons_self)).append
        (ih hatoms hnot fun last h => hlevel last (List.mem_cons_of_mem _ h))

theorem CommaScan.enter_before (scan : CommaScan) (index : Nat) (text : Text) :
    (scan.enter index text).before = scan.before := by
  unfold CommaScan.enter
  split
  · split_ifs <;> rfl
  · rfl

/-- The scan leaves escaped commas as they are. -/
theorem escapeBlockCommasFrom_escaped (cells : List Traced) (scan : CommaScan) (index : Nat)
    (h : ∀ left right, chars cells = left ++ ',' :: right →
      (scan.before.toList ++ left).getLast? = some '\\') :
    escapeBlockCommasFrom scan index cells = cells := by
  induction cells generalizing scan index with
  | nil => rfl
  | cons cell cells ih =>
      have hbefore : cell.char = ',' → scan.before = some '\\' := by
        intro hcomma
        have hlast := h [] (chars cells) (congrArg (· :: chars cells) hcomma)
        rw [List.append_nil] at hlast
        cases hscan : scan.before with
        | none => rw [hscan] at hlast; cases hlast
        | some c => rw [hscan] at hlast; exact hlast
      have hlater : ∀ stop quoted alt, escapeBlockCommasFrom ⟨some cell.char, stop, quoted, alt⟩
          (index + 1) cells =
          cells := by
        refine fun stop quoted alt => ih _ _ fun left right hcells => ?_
        have hlast := h (cell.char :: left) right (congrArg (cell.char :: ·) hcells)
        rwa [List.getLast?_append_of_ne_nil _ (List.cons_ne_nil _ _)] at hlast
      have hkept : (decide (cell.char = ',') && decide
          ((scan.enter index (chars (cell :: cells))).before ≠ some '\\'))
          = false := by
        rw [CommaScan.enter_before]
        by_cases hcomma : cell.char = ','
        · simp [hbefore hcomma]
        · simp [hcomma]
      unfold escapeBlockCommasFrom
      simp only [hkept, Bool.false_and, Bool.false_eq_true, if_false, hlater]

theorem escapeBlockCommas_escaped {cells : List Traced} (h : CommasEscaped (chars cells)) :
    escapeBlockCommas cells = cells :=
  escapeBlockCommasFrom_escaped cells ⟨none, none, false, false⟩ 0 h

end SwitchPasses
end EslTokio
