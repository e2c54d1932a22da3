import EslTokio.SwitchPasses.Carrier
import EslTokio.SwitchPasses.ChannelText

/-!
# A block of one leg that names its separator

The comma scan hides every comma of such a `[]` block, those of its values as well, and the pass
over the leg turns them back before the block is split at the separator it names.

* `Bare` — no comma of a text is behind a backslash, so that the scan hides them all.
* `hideComma`, `Entry.hide` — a char and a pair as the scan leaves them.
* **`dialList_named`** — the block ahead of an endpoint is read as its pairs.
-/

namespace EslTokio
namespace SwitchPasses

open Library

variable {blockParse : BlockParse} {lo : Nat} {commas : Bool} {text : Text}

/-! ### Bare commas -/

/-- No comma is behind a backslash. -/
def Bare (x : Text) : Prop := ¬ ['\\', ','] <:+: x

theorem Bare.of_notMem {x : Text} (h : ',' ∉ x) : Bare x :=
  fun hwithin => h (hwithin.subset (List.mem_cons_of_mem _ List.mem_cons_self))

theorem Bare.append {x y : Text} (hx : Bare x) (hy : Bare y)
    (hseam : x.getLast? = some '\\' → y.head? ≠ some ',') : Bare (x ++ y) := by
  intro hwithin
  rcases Search.infix_append_pair hwithin with h | h | ⟨hlast, hhead⟩
  · exact hx h
  · exact hy h
  · exact hseam hlast hhead

/-- The further bytes of chars are no commas. -/
theorem Bare.spell {x : Text} (h : Bare x) : Bare (spell x) := by
  induction x with
  | nil => exact h
  | cons c x ih =>
      have hx : Bare (SwitchPasses.spell x) := ih fun hwithin => h (List.infix_cons hwithin)
      have hbytes : Bare (c :: List.replicate (c.utf8Size - 1) continuation) := by
        intro hwithin
        rcases List.infix_cons_iff.mp hwithin with hprefix | hwithin
        · obtain ⟨-, hnext⟩ := List.cons_prefix_cons.mp hprefix
          exact absurd (List.eq_of_mem_replicate (hnext.subset List.mem_cons_self)) (by decide)
        · have hmem := hwithin.subset (List.mem_cons_of_mem _ List.mem_cons_self)
          exact absurd (List.eq_of_mem_replicate hmem) (by decide)
      rw [spell_cons, ← List.cons_append]
      refine hbytes.append hx fun hlast hhead => ?_
      rw [head_spell] at hhead
      rcases List.mem_cons.mp (List.mem_of_getLast? hlast) with rfl | hmem
      · obtain ⟨later, rfl⟩ := List.head?_eq_some_iff.mp hhead
        exact h ⟨[], later, rfl⟩
      · exact absurd (List.eq_of_mem_replicate hmem) (by decide)

/-- A plain comma is not behind a backslash. -/
def NotBehind (first second : Atom) : Prop := first = .backslash → second ≠ .plain ','

/-- Atoms whose commas are all plain, and none behind a backslash. -/
structure BareAtoms (atoms : List Atom) : Prop where
  plain : ∀ last, .escaped ',' last ∉ atoms
  apart : atoms.IsChain NotBehind

/-- Only a comma's atom spells one. -/
theorem Atom.Rendered.eq_comma {own level : Nat} {atom : Atom} (h : atom.Rendered own)
    (hmem : ',' ∈ atom.text level) : atom = .plain ',' ∨ ∃ last, atom = .escaped ',' last := by
  have hrun : ∀ n, ',' ∉ backslashes n := fun n hmem =>
    absurd (List.eq_of_mem_replicate hmem) (by decide)
  cases atom with
  | plain c =>
      obtain rfl := List.mem_singleton.mp hmem
      exact .inl rfl
  | escaped c last =>
      rw [Atom.text] at hmem
      split_ifs at hmem <;> simp at hmem <;> exact .inr ⟨last, by rw [hmem]⟩
  | backslash => exact absurd hmem (hrun _)
  | quote => simp [Atom.text, hrun] at hmem
  | space => cases level <;> simp [Atom.text, hrun] at hmem
  | guarding last =>
      rw [Atom.text] at hmem
      split_ifs at hmem <;> simp [hrun] at hmem

/-- Such atoms are spelt with bare commas where no guard is gone. -/
theorem BareAtoms.render {own level : Nat} {atoms : List Atom} (h : BareAtoms atoms)
    (hrendered : ∀ atom ∈ atoms, atom.Rendered own)
    (hne : ∀ atom ∈ atoms, atom.text (level + 1) ≠ []) : Bare (render (level + 1) atoms) := by
  induction atoms with
  | nil => exact .of_notMem (by simp)
  | cons atom atoms ih =>
      obtain ⟨hatom, hatoms⟩ := List.forall_mem_cons.mp hrendered
      obtain ⟨hseam, hapart⟩ := List.isChain_cons.mp h.apart
      have hlater := ih ⟨fun last hmem => h.plain last (List.mem_cons_of_mem _ hmem), hapart⟩ hatoms
        fun atom hmem => hne atom (List.mem_cons_of_mem _ hmem)
      have hfirst : Bare (atom.text (level + 1)) := by
        intro hwithin
        have hcomma := hwithin.subset (List.mem_cons_of_mem _ List.mem_cons_self)
        rcases hatom.eq_comma hcomma with rfl | ⟨last, rfl⟩
        · have hbackslash := hwithin.subset List.mem_cons_self
          exact absurd (List.mem_singleton.mp hbackslash) (by decide)
        · exact h.plain last List.mem_cons_self
      rw [render_cons]
      refine hfirst.append hlater fun hlast hhead => ?_
      have hbackslash : atom = .backslash := by
        by_contra hother
        exact hatom.last_ne hother level hlast
      cases atoms with
      | nil => cases hhead
      | cons next atoms =>
          have hnext := hne next (List.mem_cons_of_mem _ List.mem_cons_self)
          rw [render_cons, List.head?_append_of_ne_nil _ hnext] at hhead
          rcases (hatoms next List.mem_cons_self).eq_comma (List.mem_of_head? hhead)
            with rfl | ⟨last, rfl⟩
          · exact hseam _ rfl hbackslash rfl
          · exact h.plain last (List.mem_cons_of_mem _ List.mem_cons_self)

/-- A guard stands between a backslash and the comma behind it. -/
theorem notBehind_guardCommas (atoms : List Atom) : (guardCommas atoms).IsChain NotBehind := by
  induction atoms with
  | nil => exact .nil
  | cons atom rest ih =>
      unfold guardCommas
      split_ifs with hcut
      · refine List.isChain_cons.mpr ⟨fun next hnext _ => ?_,
          List.isChain_cons.mpr ⟨fun next _ hguarding => (by cases hguarding), ih⟩⟩
        obtain rfl := Option.some.inj hnext
        simp
      · refine List.isChain_cons.mpr ⟨fun next hnext hbackslash hcomma => hcut ?_, ih⟩
        rw [head_guardCommas] at hnext
        exact ⟨hbackslash, hcomma ▸ hnext⟩

/-- The fields of a `[]` block. -/
inductive EscapedField.InLeg (commas : Bool) : EscapedField → Prop where
  | key : InLeg commas (.key .channel commas)
  | value : InLeg commas (.value .channel commas)

variable {field : EscapedField}

theorem comma_mem_of_charAtom {c : Char}
    (h : field.charAtom c = .plain ',' ∨ ∃ last, field.charAtom c = .escaped ',' last) :
    c = ',' := by
  rcases h with h | ⟨last, h⟩
  · exact EscapedField.charAtom_eq_plain h
  · exact (EscapedField.charAtom_escaped h).1

/-- A text without commas has no atom of one. -/
theorem EscapedField.comma_notMem (h : ',' ∉ text) :
    .plain ',' ∉ field.atoms text ∧ ∀ last, .escaped ',' last ∉ field.atoms text := by
  have hnone : ∀ atom ∈ field.atoms text,
      ¬(atom = .plain ',' ∨ ∃ last, atom = .escaped ',' last) := by
    intro atom hatom hcomma
    rcases EscapedField.mem_atoms hatom with ⟨c, hc, rfl⟩ | rfl | rfl | rfl
    · exact h (comma_mem_of_charAtom hcomma ▸ hc)
    all_goals simp at hcomma
  exact ⟨fun hmem => hnone _ hmem (.inl rfl), fun last hmem => hnone _ hmem (.inr ⟨last, rfl⟩)⟩

/-- The commas of a field are bare where they are not escaped, or there are none. -/
theorem EscapedField.InLeg.bareAtoms (hfield : field.InLeg commas)
    (h : commas = true → ',' ∉ text) : BareAtoms (field.atoms text) := by
  cases commas with
  | true =>
      have hcommas : .plain ',' ∉ field.atoms text ∧ ∀ last, .escaped ',' last ∉ field.atoms text :=
        EscapedField.comma_notMem (h rfl)
      obtain ⟨hplain, hescaped⟩ := hcommas
      refine ⟨hescaped, (List.pairwise_of_forall_mem_list ?_).isChain⟩
      rintro first - second hsecond - rfl
      exact hplain hsecond
  | false =>
      have hguard : ∀ atoms, field.guardAtoms text atoms = guardCommas atoms := by
        cases hfield <;> exact fun _ => rfl
      have hlevel : field.level ',' = none := by cases hfield <;> rfl
      constructor
      · intro last hmem
        rcases EscapedField.mem_atoms hmem with ⟨c, -, hatom⟩ | hatom | hatom | hatom
        · rw [(EscapedField.charAtom_escaped hatom.symm).2] at hlevel
          cases hlevel
        all_goals cases hatom
      · have hedges :
            (edgeLast (edgeHead (field.guardAtoms text (text.map field.charAtom)))).IsChain
              NotBehind :=
          isChain_edges (fun _ hspace => (by cases hspace)) (fun _ _ => by simp)
            (hguard _ ▸ notBehind_guardCommas _)
        unfold EscapedField.atoms EscapedField.caretAtoms
        cases hfield with
        | key =>
            simp only
            split_ifs
            · exact List.isChain_cons.mpr ⟨fun next _ hguarding => (by cases hguarding), hedges⟩
            · exact hedges
        | value => exact hedges

/-- At the comma scan the commas of a field are bare. -/
theorem EscapedField.InLeg.bare (hfield : field.InLeg commas) (hfree : '\x00' ∉ text)
    (h : commas = true → ',' ∉ text) : Bare (render 3 (field.atoms text)) :=
  (hfield.bareAtoms h).render (fun _ => EscapedField.rendered_atoms hfree) fun _ hmem =>
    EscapedField.text_ne_nil hmem (Nat.le_refl 3)

/-! ### The block at the scan -/

variable {key value : Text} {pairs : List (Text × Text)} {sep : Char}

/-- A pair whose commas are bare where they are not escaped, or that holds none. -/
theorem SendableInLeg.bare (h : SendableInLeg key value)
    (hcommas : commas = true → ',' ∉ key ∧ ',' ∉ value) :
    Bare ((Entry.ofPair .channel commas (key, value)).text false 3) := by
  have hkey : Bare (render 3 ((EscapedField.key .channel commas).atoms key)) :=
    EscapedField.InLeg.key.bare h.key_free fun hc => (hcommas hc).1
  have hvalue : Bare (render 3 ((EscapedField.value .channel commas).atoms value)) :=
    EscapedField.InLeg.value.bare h.value_free fun hc => (hcommas hc).2
  have hequals : Bare ['='] := .of_notMem (by decide)
  exact hkey.append (hequals.append hvalue fun hlast => absurd hlast (by decide))
    fun _ hhead => absurd hhead (by simp)

/-- A value whose commas are escaped does not end in a backslash: a guard is behind it. -/
theorem SendableInLeg.last_text (h : SendableInLeg key value) :
    ((Entry.ofPair .channel true (key, value)).text false 3).getLast? ≠ some '\\' := by
  obtain ⟨init, atom, hatoms, hatom⟩ := last_channel_value h.value_ne
  have hmem : atom ∈ (EscapedField.value .channel true).atoms value :=
    hatoms ▸ List.mem_append_right _ List.mem_cons_self
  have hne : atom.text 3 ≠ [] := EscapedField.text_ne_nil hmem (Nat.le_refl 3)
  have hvalue : fieldText false 3 ((EscapedField.value .channel true).atoms value) =
      render 3 init ++ atom.text 3 := by
    rw [hatoms, fieldText_false, render_append, render_cons, render_nil, List.append_nil]
  have htext : (Entry.ofPair .channel true (key, value)).text false 3 =
      fieldText false 3 ((EscapedField.key .channel true).atoms key) ++
        ('=' :: (render 3 init ++ atom.text 3)) := by
    rw [← hvalue]
    rfl
  rw [htext, List.getLast?_append_of_ne_nil _ (List.cons_ne_nil _ _), ← List.cons_append,
    List.getLast?_append_of_ne_nil _ hne]
  exact (EscapedField.rendered_atoms h.value_free hmem).last_ne hatom 2

theorem Bare.intercalate (hbackslash : sep ≠ '\\') {xs : List Text}
    (h : ∀ x ∈ xs, Bare x ∧ (sep = ',' → x.getLast? ≠ some '\\')) :
    Bare ([sep].intercalate xs) := by
  have hsep : Bare [sep] := by
    intro hwithin
    exact hbackslash (List.mem_singleton.mp (hwithin.subset List.mem_cons_self)).symm
  induction xs with
  | nil => exact .of_notMem (by simp)
  | cons x xs ih =>
      obtain ⟨⟨hx, hlast⟩, hlater⟩ := List.forall_mem_cons.mp h
      cases xs with
      | nil => rwa [List.intercalate_singleton]
      | cons y ys =>
          rw [List.intercalate_cons_cons]
          refine (hx.append hsep fun hbehind hhead => ?_).append (ih hlater) fun hbehind => ?_
          · exact hlast (Option.some.inj hhead) hbehind
          · rw [List.getLast?_concat] at hbehind
            exact absurd (Option.some.inj hbehind) hbackslash

/-- The commas of a block that names its separator are bare at the scan. -/
theorem bare_blockText (h : FillsLeg pairs) (hsep : Chosen .channel (some sep) pairs) :
    Bare ('[' :: blockText .channel (some sep) false 3 pairs) := by
  have hsplits := (separator_of_check (hsep.checked sep rfl)).splits
  have hbackslash := hsplits.cutting.ne_backslash
  have hpairs : Bare (pairsText .channel (escapesCommas (some sep)) false 3 sep pairs) := by
    refine .intercalate hbackslash fun x hx => ?_
    rw [List.map_map] at hx
    obtain ⟨pair, hpair, rfl⟩ := List.mem_map.mp hx
    have habsent := hsep.absent sep rfl pair hpair
    have hsendable := h.sendable pair hpair
    refine ⟨hsendable.bare fun hcommas => ?_, fun hcomma => ?_⟩
    · rwa [show sep = ',' from of_decide_eq_true hcommas] at habsent
    · subst hcomma
      exact hsendable.last_text
  have hhead : Bare ['[', '^', '^', sep] := by
    intro hwithin
    have hmem := hwithin.subset List.mem_cons_self
    simp only [List.mem_cons, List.not_mem_nil, or_false] at hmem
    rcases hmem with hmem | hmem | hmem | hmem
    · exact absurd hmem (by decide)
    · exact absurd hmem (by decide)
    · exact absurd hmem (by decide)
    · exact hbackslash hmem.symm
  refine hhead.append hpairs fun hlast => ?_
  exact absurd (Option.some.inj hlast) hbackslash

/-! ### Hidden commas -/

/-- A char of a block that names its separator, as the scan leaves it. -/
def hideComma (c : Char) : Char := if c = ',' then quotedEscComma else c

theorem hideComma_of_ne {c : Char} (h : c ≠ ',') : hideComma c = c := if_neg h

theorem hideComma_ne (c : Char) : hideComma c ≠ ',' := by
  unfold hideComma
  split_ifs with hc
  · decide
  · exact hc

/-- The scan puts no char of the passes in place of a comma. -/
theorem hideComma_eq_iff {c d : Char} (hcomma : d ≠ ',') (hhidden : d ≠ quotedEscComma) :
    hideComma c = d ↔ c = d := by
  unfold hideComma
  split_ifs with hc
  · exact iff_of_false (Ne.symm hhidden) (hc ▸ Ne.symm hcomma)
  · exact Iff.rfl

theorem utf8Size_hideComma (c : Char) : (hideComma c).utf8Size = c.utf8Size := by
  unfold hideComma
  split_ifs with hc
  · rw [hc]
    rfl
  · rfl

theorem spell_hideComma (x : Text) : spell (x.map hideComma) = (spell x).map hideComma := by
  have hbytes : hideComma continuation = continuation := hideComma_of_ne (by decide)
  induction x with
  | nil => rfl
  | cons c x ih =>
      rw [List.map_cons, spell_cons, spell_cons, ih, utf8Size_hideComma, List.map_cons,
        List.map_append, List.map_replicate, hbytes]

/-- A char the pass over the leg turns back. -/
def unhideComma (c : Char) : Char := if c = quotedEscComma then ',' else c

theorem unhideComma_hideComma {x : Text} (h : quotedEscComma ∉ x) :
    (x.map hideComma).map unhideComma = x := by
  rw [List.map_map]
  refine (List.map_congr_left fun c hc => ?_).trans (List.map_id x)
  have hne : c ≠ quotedEscComma := fun heq => h (heq ▸ hc)
  show unhideComma (hideComma c) = c
  unfold hideComma
  split_ifs with hcomma
  · rw [hcomma]
    rfl
  · exact if_neg hne

/-- Hiding commas leaves brackets. -/
theorem depthFrom_hideComma (depth : Nat) (x : Text) :
    depthFrom '[' ']' depth (x.map hideComma) = depthFrom '[' ']' depth x := by
  have hopen : ∀ c, hideComma c = '[' ↔ c = '[' := fun c =>
    hideComma_eq_iff (by decide) (by decide)
  have hclose : ∀ c, hideComma c = ']' ↔ c = ']' := fun c =>
    hideComma_eq_iff (by decide) (by decide)
  induction x generalizing depth with
  | nil => rfl
  | cons c x ih =>
      rw [List.map_cons]
      cases depth <;> simp only [depthFrom, hopen, hclose, ih]

/-- An atom whose comma is hidden. -/
def Atom.hide : Atom → Atom
  | .plain c => .plain (hideComma c)
  | .escaped c last => .escaped (hideComma c) last
  | atom => atom

/-- A pair whose commas are hidden. -/
def Entry.hide (entry : Entry) : Entry := ⟨entry.key.map Atom.hide, entry.value.map Atom.hide⟩

theorem Atom.text_hide (level : Nat) (atom : Atom) :
    atom.hide.text level = (atom.text level).map hideComma := by
  have hrun : ∀ n, (backslashes n).map hideComma = backslashes n := fun n => List.map_replicate
  have hbackslash : hideComma '\\' = '\\' := rfl
  have hquote : hideComma '\'' = '\'' := rfl
  cases atom with
  | plain c => rfl
  | escaped c last =>
      rw [Atom.hide, Atom.text, Atom.text]
      split_ifs <;> rfl
  | backslash => exact (hrun _).symm
  | quote =>
      show Atom.text level .quote = _
      rw [Atom.text, List.map_append, hrun]
      rfl
  | space =>
      show Atom.text level .space = _
      cases level with
      | zero => rfl
      | succ level =>
          rw [Atom.text, List.map_append, hrun]
          rfl
  | guarding last =>
      show Atom.text level (.guarding last) = _
      rw [Atom.text]
      split_ifs
      · simp only [List.map_append, List.map_cons, hrun, hquote, List.map_nil]
      · rfl

theorem render_hide (level : Nat) (atoms : List Atom) :
    render level (atoms.map Atom.hide) = (render level atoms).map hideComma := by
  induction atoms with
  | nil => rfl
  | cons atom atoms ih => rw [List.map_cons, render_cons, render_cons, ih, atom.text_hide,
      List.map_append]

theorem Entry.text_hide (level : Nat) (entry : Entry) :
    entry.hide.text false level = (entry.text false level).map hideComma := by
  rw [Entry.text, Entry.text, Entry.hide, fieldText_false, fieldText_false, fieldText_false,
    fieldText_false, render_hide, render_hide, List.map_append]
  rfl

theorem dataText_hide (level : Nat) (sep : Char) (entries : List Entry) :
    dataText false level (hideComma sep) (entries.map Entry.hide) =
      (dataText false level sep entries).map hideComma := by
  induction entries with
  | nil => rfl
  | cons entry entries ih =>
      rw [dataText, dataText] at ih ⊢
      cases entries with
      | nil =>
          simp only [List.map_cons, List.map_nil, List.intercalate_singleton, Entry.text_hide]
      | cons next entries =>
          simp only [List.map_cons, List.intercalate_cons_cons, List.map_append, List.map_nil,
            Entry.text_hide] at ih ⊢
          rw [ih]

/-! ### The scan of a block that names its separator -/

/-- A cell whose comma is hidden. -/
def hideCell (cell : Traced) : Traced := { cell with char := hideComma cell.char }

theorem rewritten_hideCell (cell : Traced) : Rewritten cell (hideCell cell) :=
  ⟨rfl, rfl, utf8Size_hideComma cell.char, fun h => by
    show hideComma cell.char = continuation
    rw [h]
    rfl⟩

theorem chars_hideCell (cells : List Traced) :
    chars (cells.map hideCell) = (chars cells).map hideComma := by
  rw [chars, chars, List.map_map, List.map_map]
  rfl

theorem scan_hides {cell : Traced} {before : Option Char}
    (h : cell.char = ',' → before ≠ some '\\') {stop index : Nat} (hstop : index < stop)
    (quoted : Bool) (rest : List Traced) :
    escapeBlockCommasFrom ⟨before, some stop, quoted, true⟩ index (cell :: rest) =
      hideCell cell :: escapeBlockCommasFrom
        ⟨some (hideComma cell.char), some stop, if cell.char = '\'' then !quoted else quoted, true⟩
          (index + 1) rest := by
  have hinside : some stop ≠ some index := fun h => by
    obtain rfl := Option.some.inj h
    exact Nat.lt_irrefl _ hstop
  have hchar : (if (decide (cell.char = ',') && decide (before ≠ some '\\') &&
      (some stop).any (index < ·)) = true then quotedEscComma else cell.char) =
      hideComma cell.char := by
    unfold hideComma
    by_cases hcomma : cell.char = ','
    · simp [hcomma, h hcomma, hstop]
    · simp [hcomma]
  conv_lhs => unfold escapeBlockCommasFrom
  simp only [CommaScan.enter_inside, Bool.or_true, if_true, hchar, if_neg hinside]
  rfl

/-- Inside such a block the scan hides bare commas, whatever quotes are open. -/
theorem scan_hidden (cells : List Traced) (before : Option Char) (stop : Nat) (quoted : Bool)
    (index : Nat) (rest : List Traced) (hstop : index + cells.length ≤ stop)
    (h : Bare (before.toList ++ chars cells)) :
    ∃ last open', escapeBlockCommasFrom ⟨before, some stop, quoted, true⟩ index (cells ++ rest) =
      cells.map hideCell ++ escapeBlockCommasFrom ⟨last, some stop, open', true⟩
        (index + cells.length) rest := by
  induction cells generalizing before quoted index with
  | nil => exact ⟨before, quoted, rfl⟩
  | cons cell cells ih =>
      rw [List.length_cons] at hstop
      have hcomma : cell.char = ',' → before ≠ some '\\' := by
        rintro hcomma rfl
        refine h ⟨[], chars cells, ?_⟩
        rw [chars_cons, hcomma]
        rfl
      have hlater : Bare ((some (hideComma cell.char)).toList ++ chars cells) := by
        intro hwithin
        refine h ?_
        rw [chars_cons]
        refine List.IsInfix.trans ?_ (List.suffix_append before.toList _).isInfix
        rcases List.infix_cons_iff.mp hwithin with hprefix | hwithin
        · obtain ⟨hbackslash, hnext⟩ := List.cons_prefix_cons.mp hprefix
          have hcell : cell.char = '\\' :=
            (hideComma_eq_iff (by decide) (by decide)).mp hbackslash.symm
          rw [hcell]
          exact (List.cons_prefix_cons.mpr ⟨rfl, hnext⟩).isInfix
        · exact List.infix_cons hwithin
      obtain ⟨last, open', hscan⟩ := ih (some (hideComma cell.char))
        (if cell.char = '\'' then !quoted else quoted) (index + 1) (by omega) hlater
      have hindex : index + (cells.length + 1) = index + 1 + cells.length := by omega
      refine ⟨last, open', ?_⟩
      rw [List.cons_append, scan_hides hcomma (by omega), hscan, List.length_cons, hindex]
      rfl

theorem scan_open_named {cell : Traced} {rest : List Traced} (hcell : cell.char = '[') {stop : Nat}
    (hstop : findEndParen ('[' :: chars rest) '[' ']' = some (stop + 1))
    (halt : ['^', '^'] <+: chars rest) :
    escapeBlockCommas (cell :: rest) =
      cell :: escapeBlockCommasFrom ⟨some '[', some (stop + 1), false, true⟩ 1 rest := by
  have halt' : ['^', '^'].isPrefixOf (chars rest) = true := List.isPrefixOf_iff_prefix.mpr halt
  have henter : CommaScan.enter ⟨none, none, false, false⟩ 0 ('[' :: chars rest) =
      ⟨none, some (stop + 1), false, true⟩ := by
    simp [CommaScan.enter, hstop, halt']
  obtain ⟨char, start, behind⟩ := cell
  obtain rfl : char = '[' := hcell
  rw [escapeBlockCommas]
  conv_lhs => unfold escapeBlockCommasFrom
  simp [henter]

theorem scan_close_named {close : Traced} (hclose : close.char = ']') (before : Option Char)
    (stop : Nat) (quoted : Bool) (later : List Traced) :
    escapeBlockCommasFrom ⟨before, some stop, quoted, true⟩ stop (close :: later) =
      close :: escapeBlockCommasFrom ⟨some ']', none, quoted, true⟩ (stop + 1) later := by
  obtain ⟨char, start, behind⟩ := close
  obtain rfl : char = ']' := hclose
  conv_lhs => unfold escapeBlockCommasFrom
  simp [CommaScan.enter_inside]

/-- **The scan of such a block hides its commas, and nothing behind it.** -/
theorem escapeBlockCommas_named {cell close : Traced} {inside later : List Traced}
    (hcell : cell.char = '[') (hclose : close.char = ']') (hbare : Bare ('[' :: chars inside))
    (hbalanced : Balanced '[' ']' (chars inside)) (hnamed : ['^', '^'] <+: chars inside)
    (hlater : CommasEscaped (chars later)) :
    escapeBlockCommas (cell :: (inside ++ close :: later)) =
      cell :: (inside.map hideCell ++ close :: later) := by
  have hfind : findEndParen ('[' :: chars (inside ++ close :: later)) '[' ']' = some
      (inside.length + 1) := by
    rw [chars_append, chars_cons, hclose, findEndParen_balanced (by decide) (by decide) hbalanced,
      length_chars]
  have halt : ['^', '^'] <+: chars (inside ++ close :: later) := by
    rw [chars_append]
    exact hnamed.trans (List.prefix_append _ _)
  obtain ⟨last, quoted, hscan⟩ := scan_hidden inside (some '[') (inside.length + 1) false 1
    (close :: later) (by omega) hbare
  have hescaped : escapeBlockCommasFrom ⟨some ']', none, quoted, true⟩
      (1 + inside.length + 1) later = later := by
    refine escapeBlockCommasFrom_escaped later _ _ fun left right hcells => ?_
    rw [List.getLast?_append, hlater left right hcells]
    rfl
  rw [scan_open_named hcell hfind halt, hscan, Nat.add_comm 1, scan_close_named hclose,
    Nat.add_comm inside.length, hescaped]

/-! ### A leg with such a block -/

variable {s : List Traced} {endpoint : Text}

/-- No text of a block is one of the chars that commas are hidden as. -/
theorem FillsLeg.hidden_blockText (h : FillsLeg pairs) (hsep : Chosen .channel (some sep) pairs)
    (level : Nat) : quotedEscComma ∉ spell (blockText .channel (some sep) false level pairs) := by
  have hgraphic := (separator_of_check (hsep.checked sep rfl)).graphic
  have hne : sep ≠ quotedEscComma := by
    rintro rfl
    exact absurd hgraphic (by decide)
  refine notMem_spell (by decide) fun hmem => ?_
  rcases List.mem_append.mp hmem with hhead | hpairs
  · have hcaret : quotedEscComma ≠ '^' := by decide
    simp [separatorHead, hcaret, Ne.symm hne] at hhead
  · exact h.hidden_notMem hne hpairs

/-- The text of a leg whose block names its separator, behind the scan. -/
def hiddenLeg (sep : Char) (level : Nat) (pairs : List (Text × Text)) (level' : Nat)
    (endpoint : Text) : Text :=
  legBytes ['^', '^', hideComma sep] false level (hideComma sep)
    ((pairs.map (Entry.bytesOf (escapesCommas (some sep)))).map Entry.hide) level' endpoint

theorem hiddenLeg_eq (h : FillsLeg pairs) (hsep : Chosen .channel (some sep) pairs)
    (hp : Trailing endpoint) (level level' : Nat) :
    hiddenLeg sep level pairs level' endpoint = spell
      ('[' :: ((blockText .channel (some sep) false level pairs).map hideComma ++
        ']' :: fieldText false level' (EscapedField.endpoint.atoms endpoint))) := by
  have hsplits := (separator_of_check (hsep.checked sep rfl)).splits
  have hhead : spell (['^', '^', sep].map hideComma) = ['^', '^', hideComma sep] := by
    have hascii : ∀ c ∈ ['^', '^', sep], c.toNat < 128 := by simp [hsplits.ascii]
    rw [spell_hideComma, spell_ascii hascii]
    rfl
  have hpairs : spell (pairsText .channel (escapesCommas (some sep)) false level sep pairs) =
      dataText false level sep (pairs.map (Entry.bytesOf (escapesCommas (some sep)))) :=
    spell_pairsText hsplits.ascii h.fills.sendable
  have hdata : spell ((blockText .channel (some sep) false level pairs).map hideComma) =
      ['^', '^', hideComma sep] ++ dataText false level (hideComma sep)
        ((pairs.map (Entry.bytesOf (escapesCommas (some sep)))).map Entry.hide) := by
    rw [dataText_hide, ← hpairs, blockText, List.map_append, spell_append, ← spell_hideComma,
      ← hhead]
    rfl
  rw [spell_block '[' ']' (by decide) (by decide), hdata, EscapedField.spell_field hp.free]
  rfl

/-- What the scan leaves of a leg. -/
theorem scanned_named (h : FillsLeg pairs) (hsep : Chosen .channel (some sep) pairs)
    (hp : Trailing endpoint) (hspelled : Spelled 0 lo s)
    (hchars : chars s = spell ('[' :: (blockText .channel (some sep) false 3 pairs ++
      ']' :: fieldText false 1 (EscapedField.endpoint.atoms endpoint)))) :
    Spelled 0 lo (escapeBlockCommas s) ∧
      chars (escapeBlockCommas s) = hiddenLeg sep 3 pairs 1 endpoint := by
  obtain ⟨cell, inside, close, later, rfl, hcell, hclose, hinside, hlater, -, -⟩ :=
    cells_block (by decide) (by decide) hspelled hchars
  have hbalanced : Balanced '[' ']' (chars inside) := by
    rw [hinside]
    exact (balanced_blockText h.fills hsep false 3).spell (by decide) (by decide)
  have hbare : Bare ('[' :: chars inside) := by
    rw [hinside]
    exact (bare_blockText h hsep).spell
  have hnamed : ['^', '^'] <+: chars inside := by
    rw [hinside]
    exact ⟨_, rfl⟩
  have hcommas : CommasEscaped (chars later) := by
    rw [hlater, EscapedField.spell_field hp.free]
    exact commasEscaped_endpoint hp
  have hscan := escapeBlockCommas_named hcell hclose hbare hbalanced hnamed hcommas
  have hsame : List.Forall₂ Rewritten (close :: later) (close :: later) :=
    List.forall₂_same.mpr fun cell _ => .refl cell
  have hhides : List.Forall₂ Rewritten inside (inside.map hideCell) :=
    List.forall₂_map_right_iff.mpr (List.forall₂_same.mpr fun cell _ => rewritten_hideCell cell)
  rw [hscan]
  refine ⟨hspelled.rewritten (.cons (.refl cell) (List.rel_append hhides hsame)), ?_⟩
  rw [hiddenLeg_eq h hsep hp, spell_block '[' ']' (by decide) (by decide), spell_hideComma,
    chars_cons, chars_append, chars_cons, chars_hideCell, hcell, hclose, hinside, hlater]

theorem unhideCell_char (cell : Traced) : (unhideCell cell).char = unhideComma cell.char := by
  unfold unhideCell unhideComma
  split_ifs <;> rfl

theorem rewritten_unhideCell (cell : Traced) : Rewritten cell (unhideCell cell) := by
  unfold unhideCell
  split_ifs with hcell
  · refine ⟨rfl, rfl, ?_, fun h => ?_⟩
    · rw [hcell]
      rfl
    · rw [hcell] at h
      exact absurd h (by decide)
  · exact .refl cell

theorem chars_unhideCell (cells : List Traced) :
    chars (cells.map unhideCell) = (chars cells).map unhideComma := by
  rw [chars, chars, List.map_map, List.map_map]
  exact List.map_congr_left fun cell _ => unhideCell_char cell

/-- A leg that the splits are through with: the block is split at the separator it names. -/
theorem legReads_named (h : FillsLeg pairs) (hsep : Chosen .channel (some sep) pairs)
    (hp : Trailing endpoint) (hspelled : Spelled 0 lo s)
    (hchars : chars s = hiddenLeg sep 2 pairs 0 endpoint) :
    LegReads blockParse s [separatedBlock .channel (some sep) (kept sep pairs)] endpoint := by
  have hseparator := separator_of_check (hsep.checked sep rfl)
  rw [hiddenLeg_eq h hsep hp, fieldText_false, EscapedField.render_zero] at hchars
  have hnul : '\x00' ∉ blockText .channel (some sep) false 2 pairs :=
    nulFree_blockText h.fills hsep false 2
  have hfree : NulFree s := by
    rw [nulFree_iff, hchars]
    refine nul_notMem_spell ?_
    simp only [List.mem_cons, List.mem_append, not_or]
    refine ⟨by decide, fun hmem => ?_, by decide, hp.free⟩
    obtain ⟨c, hc, hhidden⟩ := List.mem_map.mp hmem
    exact hnul ((hideComma_eq_iff (by decide) (by decide)).mp hhidden ▸ hc)
  obtain ⟨cell, data, close, rest, rfl, hcell, hclose, hdata, hrest, hspelled, hspelled'⟩ :=
    cells_block (by decide) (by decide) hspelled hchars
  rw [spell_hideComma] at hdata
  have hunhidden : chars (data.map unhideCell) =
      spell (blockText .channel (some sep) false 2 pairs) := by
    rw [chars_unhideCell, hdata, unhideComma_hideComma (h.hidden_blockText hsep 2)]
  have hdataSpelled : Spelled 0 lo (data.map unhideCell) := hspelled.rewritten
    (List.forall₂_map_right_iff.mpr (List.forall₂_same.mpr fun cell _ => rewritten_unhideCell cell))
  have hbalanced' : Balanced '[' ']' (chars (data.map unhideCell)) := by
    rw [hunhidden]
    exact (balanced_blockText h.fills hsep false 2).spell (by decide) (by decide)
  have hbalanced : Balanced '[' ']' (chars data) := by
    rw [Balanced, hdata, depthFrom_hideComma, ← hunhidden]
    exact hbalanced'
  have hnamed : blockSeparator unquotedEscComma (chars (data.map unhideCell)) = sep :=
    blockSeparator_blockText h.fills (fun other hother hsame => by
      obtain rfl := Option.some.inj hother
      rw [hsame] at hseparator
      exact absurd hseparator.graphic (by decide)) hunhidden
  have hhead : ∀ c ∈ (chars rest).head?, c ≠ ' ' ∧ c ≠ '[' := by
    intro c hc
    rw [hrest, head_spell] at hc
    have hopening := hp.opening c hc
    simp only [List.mem_cons, not_or] at hopening
    exact ⟨hopening.1, hopening.2.2.2.1⟩
  have hfree' : NulFree (data.map unhideCell) := by
    rw [nulFree_iff, hunhidden]
    exact nul_notMem_spell hnul
  have hreads : DataReads blockParse unquotedEscComma (data.map unhideCell)
      (readingOf (kept sep pairs)) :=
    dataReads_separated h.fills hsep hdataSpelled hunhidden
  have hread := legReads_block hcell hclose hspelled' hfree hfree' hbalanced hbalanced'
    (by rw [hnamed]; exact hseparator.splits.ascii) hrest hhead hreads
  rwa [hnamed] at hread

/-- The split into legs reads nothing of a `[]` block's field but its escaped commas. -/
theorem EscapedField.InLeg.meets (hfield : field.InLeg commas) :
    field.Meets (some ',') 3 text := by
  intro c _ last h
  cases hfield <;> simp only [EscapedField.level, commaLevel, and_true] at h
  · split_ifs at h with hcomma hcommas hpipe hequals <;> cases h <;> simp_all
  · split_ifs at h with hcomma hcommas hpipe <;> cases h <;> simp_all

/-- The split into legs cuts nowhere in a field whose commas are hidden. -/
theorem EscapedField.InLeg.uncut_hide (hfield : field.InLeg commas) (hfree : '\x00' ∉ text)
    (h : commas = true → ',' ∉ text) :
    Uncut ',' 3 ((atomBytes (field.atoms text)).map Atom.hide) := by
  intro hidden hmem
  obtain ⟨atom, hatom, rfl⟩ := List.mem_map.mp hmem
  have hfits := EscapedField.fits_bytes hfield.meets hfree atom hatom
  cases atom with
  | plain c =>
      refine ⟨⟨?_, ?_, ?_⟩, fun hplain => hideComma_ne c (Atom.plain.inj hplain)⟩
      · exact (hideComma_eq_iff (by decide) (by decide)).not.mpr hfits.1
      · exact (hideComma_eq_iff (by decide) (by decide)).not.mpr hfits.2.1
      · exact (hideComma_eq_iff (by decide) (by decide)).not.mpr hfits.2.2
  | escaped c last =>
      have hne : c ≠ ',' := by
        rintro rfl
        rcases mem_atomBytes hatom with hatom | hatom
        · exact (hfield.bareAtoms h).plain last hatom
        · cases hatom
      rw [Atom.hide, hideComma_of_ne hne]
      exact ⟨hfits, by simp⟩
  | backslash | quote | space => exact ⟨trivial, by simp [Atom.hide]⟩
  | guarding last => exact ⟨trivial, by simp [Atom.hide]⟩

/-- A group is one leg with its block. -/
theorem groupReads_named (h : FillsLeg pairs) (hsep : Chosen .channel (some sep) pairs)
    (hp : Trailing endpoint) (hspelled : Spelled 0 lo s)
    (hchars : chars s = legBytes (separatorHead (some sep)) false 3 sep
      (pairs.map (Entry.bytesOf (escapesCommas (some sep)))) 1 endpoint) :
    GroupReads blockParse s
      [⟨[separatedBlock .channel (some sep) (kept sep pairs)], endpoint⟩] := by
  have hseparator := separator_of_check (hsep.checked sep rfl)
  have hcutting := hseparator.splits.cutting
  have hascii : ∀ c ∈ separatorHead (some sep), c.toNat < 128 := by
    simp [separatorHead, hseparator.splits.ascii]
  rw [legBytes_eq hascii h hp _ false 3 hseparator.splits.ascii] at hchars
  obtain ⟨hspelled', hscanned⟩ := scanned_named h hsep hp hspelled hchars
  have hhidden : ∀ c ≠ quotedEscComma, c ≠ sep → c ≠ ',' → hideComma sep ≠ c :=
    fun c hc hne hcomma => (hideComma_eq_iff hcomma hc).not.mpr (Ne.symm hne)
  have hplain : ∀ c ∈ ['\\', '\'', '\x00'], hideComma sep ≠ c := by
    have hseps : ∀ c ∈ ['\\', '\'', '\x00'], c ≠ sep := by
      simp only [List.forall_mem_cons, List.not_mem_nil, false_imp_iff, implies_true, and_true]
      exact ⟨hcutting.ne_backslash.symm, hcutting.ne_quote.symm, hcutting.ne_nul.symm⟩
    have hothers : ∀ c ∈ ['\\', '\'', '\x00'], c ≠ quotedEscComma ∧ c ≠ ',' := by decide
    exact fun c hc => hhidden c (hothers c hc).1 (hseps c hc) (hothers c hc).2
  simp only [List.forall_mem_cons, List.not_mem_nil, false_imp_iff, implies_true, and_true]
    at hplain
  obtain ⟨hbackslash, hquote, hnul⟩ := hplain
  have hcomma := hideComma_ne sep
  have hnamed : ∀ c ∈ ['^', '^', hideComma sep], c ≠ '\\' ∧ c ≠ '\'' ∧ c ≠ ',' ∧ c ≠ '\x00' := by
    simp only [List.forall_mem_cons, List.not_mem_nil, false_imp_iff, implies_true, and_true]
    exact ⟨by decide, by decide, hbackslash, hquote, hcomma, hnul⟩
  have hnulFree : '\x00' ∉ blockText .channel (some sep) false 3 pairs :=
    nulFree_blockText h.fills hsep false 3
  refine ScansLeg.groupReads hp ⟨hspelled', hscanned, ⟨?_, ?_⟩,
    ⟨through_plains hnamed, takes_plains (fun c hc => ⟨(hnamed c hc).1, (hnamed c hc).2.1⟩) _⟩,
    by simp [hcomma, hbackslash, hquote, hnul], ?_, fun rest hspelled hrest => ?_⟩
  · rw [hchars]
    refine nul_notMem_spell ?_
    simp only [List.mem_cons, List.mem_append, not_or]
    simp only [blockText, List.mem_append, not_or] at hnulFree
    exact ⟨by decide, ⟨hnulFree.1, hnulFree.2⟩, by decide, nulFree_fieldText hp.free false 1⟩
  · have hhiddenFree := hiddenLeg_eq h hsep hp 3 1
    rw [hiddenLeg] at hhiddenFree
    rw [hhiddenFree]
    refine nul_notMem_spell ?_
    simp only [List.mem_cons, List.mem_append, not_or]
    refine ⟨by decide, fun hmem => ?_, by decide, nulFree_fieldText hp.free false 1⟩
    obtain ⟨c, hc, hhidden⟩ := List.mem_map.mp hmem
    exact hnulFree ((hideComma_eq_iff (by decide) (by decide)).mp hhidden ▸ hc)
  · refine List.forall_mem_map.mpr (List.forall_mem_map.mpr fun pair hpair => ?_)
    have hsendable := h.sendable pair hpair
    have hcommas : escapesCommas (some sep) = true → ',' ∉ pair.1 ∧ ',' ∉ pair.2 := by
      intro hcommas
      have habsent := hsep.absent sep rfl pair hpair
      rwa [show sep = ',' from of_decide_eq_true hcommas] at habsent
    exact ⟨EscapedField.InLeg.key.uncut_hide hsendable.key_free fun hc => (hcommas hc).1,
      EscapedField.InLeg.value.uncut_hide hsendable.value_free fun hc => (hcommas hc).2⟩
  · exact legReads_named h hsep hp hspelled hrest

/-- **A `[]` block that names its separator is read as its pairs**, ahead of an endpoint, where the
separator makes no threads of them. -/
theorem dialList_named (h : FillsLeg pairs) (hsep : Chosen .channel (some sep) pairs)
    (hp : Trailing endpoint) {cells : List Traced} (hordered : Ordered 0 cells) {wraps : Bool}
    (hchars : chars cells = '[' :: (blockText .channel (some sep) wraps 4 pairs ++
      ']' :: fieldText wraps 2 (EscapedField.endpoint.atoms endpoint)))
    (hthreads : ¬ enterpriseDelim <:+: blockText .channel (some sep) wraps 4 pairs) (raw : Span)
    (carried : Bool) :
    ReadsLeg (dialList cells raw carried blockParse)
      [separatedBlock .channel (some sep) (kept sep pairs)] endpoint :=
  dialList_leg h hsep hp hordered hchars hthreads
    (fun _ _ hspelled hrest => groupReads_named h hsep hp hspelled hrest) raw carried

end SwitchPasses
end EslTokio
