import EslTokio.SwitchPasses.BlockText

/-!
# A block of one leg

A `[]` block rides with its leg through the split into groups. The comma scan then hides its
separators from the split into legs, telling them from the escaped commas by the char before, and
the block is split at what they were hidden as.

* `scan_pairs` — the scan hides the separators of a block, and nothing else.
* **`dialList_channel`** — a `[]` block ahead of an endpoint is read as its pairs.
-/

namespace EslTokio
namespace SwitchPasses

open Library

variable {blockParse : BlockParse} {lo : Nat} {s : List Traced} {key value : Text}

/-! ### The scan -/

/-- Whether a quote is open behind a text. -/
def quotedBehind (quoted : Bool) (x : Text) : Bool := xor quoted (decide (x.count '\'' % 2 = 1))

theorem quotedBehind_cons (quoted : Bool) (c : Char) (x : Text) :
    quotedBehind (if c = '\'' then !quoted else quoted) x = quotedBehind quoted (c :: x) := by
  unfold quotedBehind
  by_cases hc : c = '\''
  · have hcount : (c :: x).count '\'' = x.count '\'' + 1 := by rw [hc, List.count_cons_self]
    rw [if_pos hc, hcount]
    rcases Nat.mod_two_eq_zero_or_one (x.count '\'') with h | h
    · have hodd : (x.count '\'' + 1) % 2 = 1 := by omega
      simp [h, hodd]
    · have heven : (x.count '\'' + 1) % 2 = 0 := by omega
      simp [h, heven]
  · rw [if_neg hc, List.count_cons_of_ne hc]

theorem CommaScan.enter_inside (before : Option Char) (stop : Nat) (quoted alt : Bool) (index : Nat)
    (text : Text) :
    CommaScan.enter ⟨before, some stop, quoted, alt⟩ index text =
      ⟨before, some stop, quoted, alt⟩ := by
  unfold CommaScan.enter
  split <;> rfl

theorem scan_cell {cell : Traced} {before : Option Char} (h : cell.char = ',' → before = some '\\')
    {stop index : Nat} (hstop : index < stop) (quoted : Bool) (rest : List Traced) :
    escapeBlockCommasFrom ⟨before, some stop, quoted, false⟩ index (cell :: rest) =
      cell :: escapeBlockCommasFrom
        ⟨some cell.char, some stop, if cell.char = '\'' then !quoted else quoted, false⟩
          (index + 1) rest := by
  have hkept : (decide (cell.char = ',') && decide (before ≠ some '\\')) = false := by
    by_cases hcomma : cell.char = ','
    · simp [h hcomma]
    · simp [hcomma]
  have hinside : some stop ≠ some index := fun h => by
    obtain rfl := Option.some.inj h
    exact Nat.lt_irrefl _ hstop
  conv_lhs => unfold escapeBlockCommasFrom
  simp only [CommaScan.enter_inside, hkept, Bool.false_and, Bool.false_eq_true, if_false,
    if_neg hinside]

theorem scan_separator {cell : Traced} {before : Option Char} (hcell : cell.char = ',')
    (hbefore : before ≠ some '\\') {stop index : Nat} (hstop : index < stop) (rest : List Traced) :
    escapeBlockCommasFrom ⟨before, some stop, false, false⟩ index (cell :: rest) =
      { cell with char := unquotedEscComma } ::
        escapeBlockCommasFrom ⟨some unquotedEscComma, some stop, false, false⟩
        (index + 1) rest := by
  have hinside : some stop ≠ some index := fun h => by
    obtain rfl := Option.some.inj h
    exact Nat.lt_irrefl _ hstop
  conv_lhs => unfold escapeBlockCommasFrom
  simp [CommaScan.enter_inside, hcell, hbefore, hstop, hinside]

/-- Inside a block the scan leaves escaped commas as they are. -/
theorem scan_kept (cells : List Traced) (before : Option Char) (stop : Nat)
    (quoted : Bool) (index : Nat) (rest : List Traced) (hstop : index + cells.length ≤ stop)
    (h : ∀ left right, chars cells = left ++ ',' :: right →
      (before.toList ++ left).getLast? = some '\\') :
    escapeBlockCommasFrom ⟨before, some stop, quoted, false⟩ index (cells ++ rest) =
      cells ++ escapeBlockCommasFrom
        ⟨(before.toList ++ chars cells).getLast?, some stop,
          quotedBehind quoted (chars cells), false⟩
        (index + cells.length) rest := by
  induction cells generalizing before quoted index with
  | nil =>
      have hbefore : (before.toList ++ chars []).getLast? = before := by cases before <;> rfl
      have hquoted : quotedBehind quoted (chars []) = quoted := by simp [quotedBehind]
      rw [hbefore, hquoted]
      rfl
  | cons cell cells ih =>
      rw [List.length_cons] at hstop
      have hcomma : cell.char = ',' → before = some '\\' := by
        intro hcomma
        have hlast := h [] (chars cells) (congrArg (· :: chars cells) hcomma)
        rw [List.append_nil] at hlast
        cases before with
        | none => cases hlast
        | some c => exact hlast
      have hlater := ih (some cell.char) (if cell.char = '\'' then !quoted else quoted) (index + 1)
        (by omega)
        fun left right hcells => by
          have hlast := h (cell.char :: left) right (congrArg (cell.char :: ·) hcells)
          rwa [List.getLast?_append_of_ne_nil _ (List.cons_ne_nil _ _)] at hlast
      have hlast : (before.toList ++ chars (cell :: cells)).getLast? =
          ((some cell.char).toList ++ chars cells).getLast? :=
        List.getLast?_append_of_ne_nil _ (List.cons_ne_nil _ _)
      have hindex : index + (cells.length + 1) = index + 1 + cells.length := by omega
      rw [List.cons_append, scan_cell hcomma (by omega), hlater, quotedBehind_cons, hlast,
        List.length_cons, hindex]
      rfl

theorem Rewritten.refl (cell : Traced) : Rewritten cell cell := ⟨rfl, rfl, rfl, id⟩

/-- A text the scan leaves as it is, so that the separator behind it is hidden. -/
structure Unhidden (x : Text) : Prop where
  ne : x ≠ []
  commas : CommasEscaped x
  quotes : x.count '\'' % 2 = 0
  last : x.getLast? ≠ some '\\'

theorem Unhidden.kept {x : Text} (h : Unhidden x) (before : Option Char) :
    ∀ left right, x = left ++ ',' :: right → (before.toList ++ left).getLast? = some '\\' := by
  intro left right hx
  rw [List.getLast?_append, h.commas left right hx]
  rfl

theorem Unhidden.quoted {x : Text} (h : Unhidden x) : quotedBehind false x = false := by
  simp [quotedBehind, h.quotes]

/-- The scan hides the commas between texts it leaves. -/
theorem scan_joined {xs : List Text} (hxs : ∀ x ∈ xs, Unhidden x)
    {cells : List Traced}
    (hchars : chars cells = [','].intercalate xs) (before : Option Char) {stop index : Nat}
    (rest : List Traced) (hstop : index + cells.length ≤ stop) :
    ∃ hidden last, List.Forall₂ Rewritten cells hidden ∧
      chars hidden = [unquotedEscComma].intercalate xs ∧
      escapeBlockCommasFrom ⟨before, some stop, false, false⟩ index (cells ++ rest) =
        hidden ++ escapeBlockCommasFrom ⟨last, some stop, false, false⟩
          (index + cells.length) rest := by
  induction xs generalizing cells before index with
  | nil =>
      obtain rfl : cells = [] := List.map_eq_nil_iff.mp hchars
      exact ⟨[], before, .nil, rfl, rfl⟩
  | cons x xs ih =>
      obtain ⟨hx, hlater⟩ := List.forall_mem_cons.mp hxs
      cases xs with
      | nil =>
          rw [List.intercalate_singleton] at hchars
          have hkept := scan_kept cells before stop false index rest hstop (hchars ▸ hx.kept before)
          rw [hchars, hx.quoted] at hkept
          refine ⟨cells, _, List.forall₂_same.mpr fun cell _ => .refl cell, ?_, hkept⟩
          rw [hchars, List.intercalate_singleton]
      | cons y ys =>
          rw [List.intercalate_cons_cons, List.append_assoc, List.singleton_append] at hchars
          obtain ⟨first, tail, rfl, hfirst, htail⟩ := chars_eq_append hchars
          obtain ⟨cell, tail, rfl, hcell, htail⟩ := chars_eq_cons htail
          simp only [List.length_append, List.length_cons] at hstop
          have hfirstScan := scan_kept first before stop false index (cell :: (tail ++ rest))
            (by omega)
            (hfirst ▸ hx.kept before)
          have hlast : (before.toList ++ chars first).getLast? ≠ some '\\' := by
            rw [hfirst, List.getLast?_append_of_ne_nil _ hx.ne]
            exact hx.last
          rw [hfirst, hx.quoted, ← hfirst, scan_separator hcell hlast (by omega)] at hfirstScan
          obtain ⟨hidden, last, hrewritten, hhidden, hscan⟩ :=
            ih hlater htail (some unquotedEscComma)
              (show index + first.length + 1 + tail.length ≤ stop by omega)
          refine ⟨first ++ { cell with char := unquotedEscComma } :: hidden, last, ?_, ?_, ?_⟩
          · refine List.rel_append (List.forall₂_same.mpr fun cell _ => .refl cell)
              (.cons ⟨rfl, rfl, ?_, ?_⟩ hrewritten)
            · rw [hcell]
              rfl
            · intro hbyte
              rw [hcell] at hbyte
              exact absurd hbyte (by decide)
          · rw [List.intercalate_cons_cons, chars_append, chars_cons, hfirst, hhidden,
              List.append_assoc]
            rfl
          · have hindex : index + (first ++ cell :: tail).length = index + first.length + 1 +
                tail.length := by
              rw [List.length_append, List.length_cons]
              omega
            rw [List.append_assoc, List.cons_append, hfirstScan, hscan, hindex, List.append_assoc]
            rfl

/-! ### The pairs of a `[]` block -/

/-- A pair a `[]` block can carry: the scan pairs quotes whatever is ahead of them, and hides commas
as control chars. -/
structure SendableInLeg (key value : Text) : Prop extends Sendable .channel key value where
  quotes : '\'' ∉ key ∧ '\'' ∉ value
  hidden : unquotedEscComma ∉ key ∧ unquotedEscComma ∉ value
  hidden' : quotedEscComma ∉ key ∧ quotedEscComma ∉ value

theorem meets_channel_comma (text : Text) :
    (EscapedField.key .channel true).Meets (some ',') 3 text ∧
    (EscapedField.value .channel true).Meets (some ',') 3 text := by
  constructor <;> intro c _ last h <;>
    simp only [EscapedField.level, commaLevel, if_true, and_true] at h
  · split_ifs at h with hcomma hpipe hequals <;> cases h <;> simp_all
  · split_ifs at h with hcomma hpipe <;> cases h <;> simp_all

theorem meets_channel_pipe (commas : Bool) (text : Text) :
    (EscapedField.key .channel commas).Meets (some '|') 4 text ∧
    (EscapedField.value .channel commas).Meets (some '|') 4 text := by
  constructor <;> intro c _ last h <;>
    simp only [EscapedField.level, commaLevel, and_true] at h
  · split_ifs at h with hcomma hcommas hpipe hequals <;> cases h <;> simp_all
  · split_ifs at h with hcomma hcommas hpipe <;> cases h <;> simp_all

theorem SendableInLeg.uncut_comma (h : SendableInLeg key value) :
    (Entry.ofPair .channel true (key, value)).bytes.Uncut ',' 3 :=
  ⟨EscapedField.uncut_bytes (meets_channel_comma _).1 h.key_free
      (fun _ => by simp [EscapedField.level]) (by decide),
    EscapedField.uncut_bytes (meets_channel_comma _).2 h.value_free
    (fun _ => by simp [EscapedField.level]) (by decide)⟩

theorem SendableInLeg.uncut_pipe (h : SendableInLeg key value) (commas : Bool) :
    (Entry.ofPair .channel commas (key, value)).bytes.Uncut '|' 4 :=
  ⟨EscapedField.uncut_bytes (meets_channel_pipe commas _).1 h.key_free
      (fun _ => by simp [EscapedField.level]) (by decide),
    EscapedField.uncut_bytes (meets_channel_pipe commas _).2 h.value_free
    (fun _ => by simp [EscapedField.level]) (by decide)⟩

theorem SendableInLeg.uncut_hidden (h : SendableInLeg key value) :
    (Entry.ofPair .channel true (key, value)).bytes.Uncut unquotedEscComma 2 :=
  ⟨EscapedField.uncut_bytes (meets_hidden _).1 h.key_free
      (fun hmem => absurd hmem h.hidden.1) (by decide),
    EscapedField.uncut_bytes (meets_hidden _).2 h.value_free
      (fun hmem => absurd hmem h.hidden.2) (by decide)⟩

theorem count_backslashes (count : Nat) : (backslashes count).count '\'' = 0 :=
  List.count_eq_zero.mpr fun h => absurd (List.eq_of_mem_replicate h) (by decide)

/-- Guards are quotes in pairs. -/
theorem Atom.Rendered.count_quotes {own : Nat} {atom : Atom} (h : atom.Rendered own)
    (hquote : atom ≠ .quote) (level : Nat) : (atom.text level).count '\'' % 2 = 0 := by
  cases atom with
  | plain c =>
      rw [Atom.text, List.count_eq_zero.mpr fun hmem => h.2.1 (List.mem_singleton.mp hmem).symm]
  | escaped c last =>
      have hc : '\'' ≠ c := by rcases h.2 with rfl | rfl | rfl <;> decide
      rw [Atom.text]
      split_ifs <;> rw [List.count_eq_zero.mpr (by simp [hc])]
  | backslash => rw [Atom.text, count_backslashes]
  | quote => exact absurd rfl hquote
  | space =>
      cases level with
      | zero => rfl
      | succ level =>
          rw [Atom.text, List.count_append, count_backslashes]
          rfl
  | guarding last =>
      rw [Atom.text]
      split_ifs
      · rw [List.count_append, List.count_cons_self, List.count_append, List.count_cons_self,
          count_backslashes]
        rfl
      · rfl

theorem count_render {own level : Nat} {atoms : List Atom} (h : ∀ atom ∈ atoms, atom.Rendered own)
    (hquote : .quote ∉ atoms) : (render level atoms).count '\'' % 2 = 0 := by
  induction atoms with
  | nil => rfl
  | cons atom atoms ih =>
      obtain ⟨hatom, hatoms⟩ := List.forall_mem_cons.mp h
      obtain ⟨hne, hnot⟩ := not_or.mp (List.mem_cons.not.mp hquote)
      have hfirst := hatom.count_quotes (Ne.symm hne) level
      rw [render_cons, List.count_append, Nat.add_mod, hfirst, ih hatoms hnot]

theorem EscapedField.quote_notMem {field : EscapedField} {text : Text} (h : '\'' ∉ text) :
    .quote ∉ atomBytes (field.atoms text) := by
  intro hmem
  rcases mem_atomBytes hmem with hmem | hmem
  · rcases EscapedField.mem_atoms hmem with ⟨c, hc, hatom⟩ | hatom | hatom | hatom
    · unfold EscapedField.charAtom at hatom
      split_ifs at hatom with hbackslash hquote
      · exact h (hquote ▸ hc)
      · cases hlevel : field.level c <;> rw [hlevel] at hatom <;> cases hatom
    all_goals cases hatom
  · cases hmem

/-- The value of a `[]` block does not end in a backslash: a guard is behind it. -/
theorem last_channel_value {text : Text} (hne : text ≠ []) :
    ∃ init atom, (EscapedField.value .channel true).atoms text = init ++ [atom] ∧
      atom ≠ .backslash := by
  obtain ⟨earlier, c, rfl⟩ : ∃ earlier c, text = earlier ++ [c] :=
    ⟨_, _, (List.dropLast_concat_getLast hne).symm⟩
  have hatoms : (EscapedField.value .channel true).atoms (earlier ++ [c]) =
      edgeLast (edgeHead ((EscapedField.value .channel true).guardAtoms (earlier ++ [c])
        ((earlier ++ [c]).map (EscapedField.value .channel true).charAtom))) := rfl
  rw [hatoms, EscapedField.guardAtoms]
  split_ifs with hlast
  · obtain ⟨init, last, hedges, -, horigin⟩ :=
      edges_concat ((earlier ++ [c]).map (EscapedField.value .channel true).charAtom) (.guarding 3)
    refine ⟨init, last, hedges, ?_⟩
    rcases horigin with rfl | rfl <;> simp
  · rw [List.map_append, List.map_singleton]
    obtain ⟨init, last, hedges, -, horigin⟩ :=
      edges_concat (earlier.map (EscapedField.value .channel true).charAtom)
        ((EscapedField.value .channel true).charAtom c)
    refine ⟨init, last, hedges, ?_⟩
    rcases horigin with rfl | rfl
    · have hc : c ≠ '\\' := by simpa using hlast
      unfold EscapedField.charAtom
      rw [if_neg hc]
      split_ifs
      · simp
      · cases (EscapedField.value .channel true).level c <;> simp
    · simp

/-- Only a backslash ends in one. -/
theorem Atom.Rendered.last_ne {own : Nat} {atom : Atom} (h : atom.Rendered own)
    (hbackslash : atom ≠ .backslash)
    (level : Nat) : (atom.text (level + 1)).getLast? ≠ some '\\' := by
  cases atom with
  | plain c => simpa [Atom.text] using h.1
  | escaped c last =>
      have hc : c ≠ '\\' := by rcases h.2 with rfl | rfl | rfl <;> decide
      rw [Atom.text]
      split_ifs <;> simpa using hc
  | backslash => exact absurd rfl hbackslash
  | quote => simp [Atom.text]
  | space => simp [Atom.text]
  | guarding last =>
      rw [Atom.text]
      split_ifs
      · rw [← List.singleton_append, ← List.append_assoc, ← List.append_assoc, List.getLast?_concat]
        decide
      · simp

theorem getLast?_spell {x : Text} (h : x.getLast? ≠ some '\\') :
    (spell x).getLast? ≠ some '\\' := by
  rcases List.eq_nil_or_concat' x with rfl | ⟨init, c, rfl⟩
  · simp
  · have hc : c ≠ '\\' := by simpa using h
    rw [spell_append, spell_cons, spell_nil, List.append_nil,
      List.getLast?_append_of_ne_nil _ (List.cons_ne_nil _ _)]
    intro hlast
    rcases List.mem_cons.mp (List.mem_of_getLast? hlast) with hmem | hmem
    · exact hc hmem.symm
    · exact absurd (List.eq_of_mem_replicate hmem) (by decide)

/-- At the third level and above no guard is gone. -/
theorem EscapedField.text_ne_nil {field : EscapedField} {text : Text} {atom : Atom}
    (h : atom ∈ field.atoms text) {level : Nat} (hlevel : 3 ≤ level) : atom.text level ≠ [] := by
  have hguard : ∀ last, atom = .guarding last → last ≤ level := by
    intro last hlast
    rcases EscapedField.mem_atoms h with ⟨c, -, hatom⟩ | hatom | hatom | hatom
    · unfold EscapedField.charAtom at hatom
      split_ifs at hatom
      · rw [hatom] at hlast
        cases hlast
      · rw [hatom] at hlast
        cases hlast
      · cases hchar : field.level c <;> rw [hchar] at hatom <;> rw [hatom] at hlast <;> cases hlast
    all_goals
      rw [hatom] at hlast
      cases hlast
    all_goals omega
  cases atom with
  | plain | quote => simp [Atom.text]
  | escaped c last =>
      rw [Atom.text]
      split_ifs <;> simp
  | backslash => simp [Atom.text, backslashes]
  | space => cases level <;> simp [Atom.text]
  | guarding last => simp [Atom.text, hguard last rfl]

/-- A pair of a `[]` block reaches the comma scan so that its separators are hidden. -/
theorem SendableInLeg.unhidden (h : SendableInLeg key value) :
    Unhidden ((Entry.ofPair .channel true (key, value)).bytes.text false 3) := by
  have hkey : ∀ atom ∈ (Entry.ofPair .channel true (key, value)).bytes.key, atom.Rendered 4 :=
    EscapedField.rendered_bytes h.key_free
  have hvalue : ∀ atom ∈ (Entry.ofPair .channel true (key, value)).bytes.value, atom.Rendered 4 :=
    EscapedField.rendered_bytes h.value_free
  have htext : (Entry.ofPair .channel true (key, value)).bytes.text false 3 =
      render 3 (Entry.ofPair .channel true (key, value)).bytes.key ++
        (['='] ++ render 3 (Entry.ofPair .channel true (key, value)).bytes.value) := rfl
  refine ⟨Entry.text_ne_nil false 3 _, ?_, ?_, ?_⟩
  · have hequals : CommasEscaped ['='] := .of_notMem (by decide)
    rw [htext]
    refine .append (commasEscaped_render hkey (fun hmem => (h.uncut_comma.1 _ hmem).2 rfl) ?_)
      (hequals.append (commasEscaped_render hvalue (fun hmem => (h.uncut_comma.2 _ hmem).2 rfl) ?_))
    · exact fun last hmem => ((h.uncut_comma.1 _ hmem).1.2.mp rfl).le
    · exact fun last hmem => ((h.uncut_comma.2 _ hmem).1.2.mp rfl).le
  · have hfirst : (render 3 (Entry.ofPair .channel true (key, value)).bytes.key).count
        '\'' % 2 = 0 :=
      count_render hkey (EscapedField.quote_notMem h.quotes.1)
    have hsecond : (render 3 (Entry.ofPair .channel true (key, value)).bytes.value).count
        '\'' % 2 = 0 :=
      count_render hvalue (EscapedField.quote_notMem h.quotes.2)
    have hequals : ['='].count '\'' = 0 := rfl
    rw [htext, List.count_append, List.count_append, hequals]
    omega
  · obtain ⟨init, atom, hatoms, hatom⟩ := last_channel_value h.value_ne
    have hmem : atom ∈ (EscapedField.value .channel true).atoms value :=
      hatoms ▸ List.mem_append_right _ List.mem_cons_self
    have hlast : (render 3 ((EscapedField.value .channel true).atoms value)).getLast? ≠
        some '\\' := by
      rw [hatoms, render_append, render_cons, render_nil, List.append_nil,
        List.getLast?_append_of_ne_nil _ (EscapedField.text_ne_nil hmem (by decide))]
      exact (EscapedField.rendered_atoms h.value_free hmem).last_ne hatom 2
    have hspell : spell (fieldText false 3 ((EscapedField.value .channel true).atoms value)) =
        render 3 (Entry.ofPair .channel true (key, value)).bytes.value :=
        EscapedField.spell_field h.value_free false 3
    have hne : render 3 (Entry.ofPair .channel true (key, value)).bytes.value ≠ [] := by
      rw [← hspell]
      exact spell_ne_nil (EscapedField.fieldText_ne_nil _ h.value_ne
        h.value_free false 2)
    rw [htext, List.getLast?_append_of_ne_nil _ (List.append_ne_nil_of_right_ne_nil _ hne),
      List.getLast?_append_of_ne_nil _ hne, ← hspell]
    exact getLast?_spell hlast

/-- Pairs a `[]` block carries. -/
structure FillsLeg (pairs : List (Text × Text)) : Prop where
  sendable : ∀ pair ∈ pairs, SendableInLeg pair.1 pair.2

variable {pairs : List (Text × Text)} {endpoint : Text}

theorem FillsLeg.fills (h : FillsLeg pairs) : Fills .channel pairs :=
  ⟨fun pair hpair => (h.sendable pair hpair).toSendable⟩

/-- A pair's atoms in a buffer. -/
def Entry.bytesOf (commas : Bool) (pair : Text × Text) : Entry :=
  (Entry.ofPair .channel commas pair).bytes

theorem scan_open {cell : Traced} {rest : List Traced} (hcell : cell.char = '[') {stop : Nat}
    (hstop : findEndParen ('[' :: chars rest) '[' ']' = some (stop + 1))
    (halt : ¬ ['^', '^'] <+: chars rest) :
    escapeBlockCommas (cell :: rest) =
      cell :: escapeBlockCommasFrom ⟨some '[', some (stop + 1), false, false⟩ 1 rest := by
  have halt' : ['^', '^'].isPrefixOf (chars rest) = false := by
    rw [← Bool.not_eq_true, List.isPrefixOf_iff_prefix]
    exact halt
  have henter : CommaScan.enter ⟨none, none, false, false⟩ 0 ('[' :: chars rest) =
      ⟨none, some (stop + 1), false, false⟩ := by
    simp [CommaScan.enter, hstop, halt']
  obtain ⟨char, start, behind⟩ := cell
  obtain rfl : char = '[' := hcell
  rw [escapeBlockCommas]
  conv_lhs => unfold escapeBlockCommasFrom
  simp [henter]

theorem scan_close {close : Traced} (hclose : close.char = ']') (before : Option Char) (stop : Nat)
    (later : List Traced) :
    escapeBlockCommasFrom ⟨before, some stop, false, false⟩ stop (close :: later) =
      close :: escapeBlockCommasFrom ⟨some ']', none, false, false⟩ (stop + 1) later := by
  obtain ⟨char, start, behind⟩ := close
  obtain rfl : char = ']' := hclose
  conv_lhs => unfold escapeBlockCommasFrom
  simp [CommaScan.enter_inside]

/-- The scan of a leg's block and the endpoint behind it. -/
theorem escapeBlockCommas_block (h : FillsLeg pairs) {cell close : Traced}
    {inside later : List Traced} (hcell : cell.char = '[') (hclose : close.char = ']')
    (hinside : chars inside = dataText false 3 ',' (pairs.map (Entry.bytesOf true)))
    (hbalanced : Balanced '[' ']' (chars inside)) (hheadless : Headless (chars inside ++ [']']))
    (hlater : CommasEscaped (chars later)) :
    ∃ hidden, List.Forall₂ Rewritten inside hidden ∧
      chars hidden = dataText false 3 unquotedEscComma (pairs.map (Entry.bytesOf true)) ∧
      escapeBlockCommas (cell :: (inside ++ close :: later)) = cell ::
        (hidden ++ close :: later) := by
  have hfind : findEndParen ('[' :: chars (inside ++ close :: later)) '[' ']' = some
      (inside.length + 1) := by
    rw [chars_append, chars_cons, hclose, findEndParen_balanced (by decide) (by decide) hbalanced,
      length_chars]
  have halt : ¬ ['^', '^'] <+: chars (inside ++ close :: later) := by
    rw [chars_append, chars_cons, hclose]
    intro hcarets
    have hinsideCarets := prefix_append_cons (by decide : ']' ∉ ['^', '^']) hcarets
    exact (headless_iff _).mp hheadless (hinsideCarets.trans (List.prefix_append _ _))
  have hxs : ∀ x ∈ (pairs.map (Entry.bytesOf true)).map (Entry.text false 3), Unhidden x := by
    intro x hx
    obtain ⟨entry, hentry, rfl⟩ := List.mem_map.mp hx
    obtain ⟨pair, hpair, rfl⟩ := List.mem_map.mp hentry
    exact (h.sendable pair hpair).unhidden
  obtain ⟨hidden, last, hrewritten, hhidden, hscan⟩ :=
    scan_joined hxs hinside (some '[')
    (close :: later) (show 1 + inside.length ≤ inside.length + 1 by omega)
  have hescaped : escapeBlockCommasFrom ⟨some ']', none, false, false⟩
      (1 + inside.length + 1) later = later := by
    refine escapeBlockCommasFrom_escaped later _ _ fun left right hcells => ?_
    rw [List.getLast?_append, hlater left right hcells]
    rfl
  refine ⟨hidden, hrewritten, hhidden, ?_⟩
  rw [scan_open hcell hfind halt, hscan, Nat.add_comm 1, scan_close hclose,
    Nat.add_comm inside.length, hescaped]

/-! ### A leg with its block -/

theorem spell_block (opener closer : Char) (hopener : opener.toNat < 128)
    (hcloser : closer.toNat < 128)
    (data rest : Text) : spell (opener :: (data ++ closer :: rest)) = opener ::
    (spell data ++ closer :: spell rest) := by
  rw [spell_cons, utf8Size_ascii hopener, spell_append, spell_cons, utf8Size_ascii hcloser]
  rfl

theorem Trimmed.behind {c : Char} {x y : Text} (hc : c ≠ ' ') (hne : y ≠ []) (h : Trimmed y) :
    Trimmed (c :: (x ++ y)) := by
  constructor
  · intro d hd
    obtain rfl := Option.some.inj hd
    exact hc
  · intro d hd
    rw [← List.cons_append, List.getLast?_append_of_ne_nil _ hne] at hd
    exact h.last d hd

theorem FillsLeg.hidden_notMem (h : FillsLeg pairs) {commas wraps : Bool} {level : Nat}
    {sep : Char} (hsep : sep ≠ quotedEscComma) :
    quotedEscComma ∉ pairsText .channel commas wraps level sep pairs := by
  rw [← List.singleton_infix_iff]
  intro hwithin
  obtain ⟨pair, hpair, hwithin⟩ :=
    infix_pairsText (List.cons_ne_nil _ _) (by simpa using hsep) hwithin
  have hpairs := h.sendable pair hpair
  have hstructural : ∀ c ∈ [quotedEscComma], Structural c := by decide
  rcases Search.infix_append_cons (by decide) hwithin with hkey | hvalue
  · have hmem := EscapedField.infix_fieldText hpairs.key_free
      (List.cons_ne_nil _ _) hstructural hkey
    exact hpairs.hidden'.1 ((List.singleton_infix_iff _ _).mp hmem)
  · have hmem := EscapedField.infix_fieldText hpairs.value_free
      (List.cons_ne_nil _ _) hstructural hvalue
    exact hpairs.hidden'.2 ((List.singleton_infix_iff _ _).mp hmem)

/-- A leg that the splits are through with: the block and its endpoint. -/
theorem legReads_channel (h : FillsLeg pairs) (hp : Trailing endpoint) (hspelled : Spelled 0 lo s)
    (hchars : chars s = spell
      ('[' :: (pairsText .channel true false 2 unquotedEscComma pairs ++ ']' :: endpoint))) :
    LegReads blockParse s [blockOf .channel (kept unquotedEscComma pairs)] endpoint := by
  have hfree : NulFree s := by
    rw [nulFree_iff, hchars]
    refine nul_notMem_spell ?_
    simp only [List.mem_cons, List.mem_append, not_or]
    exact ⟨by decide, nulFree_pairsText (by decide) h.fills.sendable, by decide, hp.free⟩
  obtain ⟨cell, data, close, rest, rfl, hcell, hclose, hdata, hrest, hspelled, hspelled'⟩ :=
    cells_block (by decide) (by decide) hspelled hchars
  have hunhide : data.map unhideCell = data := by
    refine (List.map_congr_left fun cell hcell => ?_).trans (List.map_id' data)
    refine if_neg fun hchar => ?_
    have hmem : quotedEscComma ∈ chars data := hchar ▸ List.mem_map_of_mem hcell
    rw [hdata] at hmem
    exact notMem_spell (by decide) (h.hidden_notMem (by decide)) hmem
  have hinside : NulFree data := fun c hc => hfree c (by simp [hc])
  have hheadless : Headless (chars data) := by
    rw [hdata]
    exact headless_spell_pairsText h.fills.sendable
  have hseparator : blockSeparator unquotedEscComma (chars data) = ',' :=
    blockSeparator_headless hheadless
  have hbalanced : Balanced '[' ']' (chars data) := by
    have htext : Balanced VariablesType.channel.delimiters.1 VariablesType.channel.delimiters.2
        (pairsText .channel true false 2 unquotedEscComma pairs) :=
      balanced_pairsText (by decide) (by decide) h.fills.sendable
    rw [hdata]
    exact htext.spell (by decide) (by decide)
  have hreads : DataReads blockParse unquotedEscComma data
      (readingOf (kept unquotedEscComma pairs)) :=
    dataReads_pairs h.fills.sendable splitsPairs_hidden
      (fun pair hpair => (h.sendable pair hpair).uncut_hidden) hspelled hdata
  have hhead : ∀ c ∈ (chars rest).head?, c ≠ ' ' ∧ c ≠ '[' := by
    intro c hc
    rw [hrest, head_spell] at hc
    have hopening := hp.opening c hc
    simp only [List.mem_cons, not_or] at hopening
    exact ⟨hopening.1, hopening.2.2.2.1⟩
  have hread := legReads_block hcell hclose hspelled' hfree (hunhide.symm ▸ hinside) hbalanced
    (hunhide.symm ▸ hbalanced) (by rw [hunhide, hseparator]; decide) hrest hhead
      (hunhide.symm ▸ hreads)
  rwa [hunhide, hseparator] at hread

/-- The text of a leg with a block, in a buffer: `head` names the separator. -/
def legBytes (head : Text) (wraps : Bool) (level : Nat) (sep : Char) (entries : List Entry)
    (level' : Nat) (endpoint : Text) : Text :=
  '[' :: ((head ++ dataText wraps level sep entries) ++
    ']' :: fieldText wraps level' (atomBytes (EscapedField.endpoint.atoms endpoint)))

theorem legBytes_eq {head : Text} (hhead : ∀ c ∈ head, c.toNat < 128) (h : FillsLeg pairs)
    (hp : Trailing endpoint) (commas wraps : Bool) (level : Nat) {sep : Char}
    (hsep : sep.toNat < 128) (level' : Nat) :
    legBytes head wraps level sep (pairs.map (Entry.bytesOf commas)) level' endpoint = spell
      ('[' :: ((head ++ pairsText .channel commas wraps level sep pairs) ++
      ']' :: fieldText wraps level' (EscapedField.endpoint.atoms endpoint))) := by
  rw [spell_block '[' ']' (by decide) (by decide), spell_append, spell_ascii hhead,
    spell_pairsText hsep h.fills.sendable, EscapedField.spell_field hp.free]
  rfl

theorem legBytes_trimmed (hp : Trailing endpoint) (head : Text) (wraps : Bool) (level : Nat)
    (sep : Char) (entries : List Entry) (level' : Nat) :
    Trimmed (legBytes head wraps level sep entries (level' + 1) endpoint) := by
  by_cases hne : endpoint = []
  · subst hne
    have hempty : fieldText wraps (level' + 1) (atomBytes (EscapedField.endpoint.atoms [])) = [] :=
      by cases wraps <;> rfl
    rw [legBytes, hempty]
    refine .behind (by decide) (List.cons_ne_nil _ _) ⟨?_, ?_⟩ <;>
      · intro c hc
        obtain rfl := Option.some.inj hc
        decide
  · have htrimmed := EscapedField.endpoint.trimmed_fieldText hne hp.free wraps level'
    have hne := EscapedField.endpoint.fieldText_ne_nil hne hp.free wraps level'
    rw [legBytes, List.append_cons]
    refine .behind (by decide) ?_ ?_
    · rw [← EscapedField.spell_field hp.free]
      exact spell_ne_nil hne
    · rw [← EscapedField.spell_field hp.free]
      exact htrimmed.spell

variable {head : Text} {entries : List Entry}

/-- A pass over a leg goes over its block and its endpoint. -/
theorem through_legBytes {delim : Char} (hdelim : Passing (some delim)) (hequals : '=' ≠ delim)
    (hopen : '[' ≠ delim) (hclose : ']' ≠ delim) (hhead : Through delim false head)
    {wraps : Bool} {level level' : Nat} {sep : Char} (hsep : Through delim false [sep])
    (hentries : ∀ entry ∈ entries, entry.Uncut delim (level + 1))
    (hguards : wraps = false ∨ ∀ entry ∈ entries, entry.Unguarded (level + 1))
    (hendpoint : Uncut delim (level' + 1) (atomBytes (EscapedField.endpoint.atoms endpoint)))
    (hguards' : wraps = false ∨ ∀ atom ∈ atomBytes (EscapedField.endpoint.atoms endpoint),
      atom.Unguarded (level' + 1)) :
    Through delim false (legBytes head wraps (level + 1) sep entries (level' + 1) endpoint) := by
  have hdata : Through delim false (dataText wraps (level + 1) sep entries) :=
    through_dataText hdelim hequals hsep hentries hguards
  have hbehind := through_fieldText hdelim hendpoint hguards'
  exact ((hhead.append hdata).append (hbehind.cons (by decide) (by decide) hclose
    (by decide))).cons (by decide) (by decide) hopen (by decide)

/-- A pass over a leg takes a level off its block and its endpoint. -/
theorem takes_legBytes {delim : Option Char} (hdelim : Passing delim)
    (hhead : Takes delim head head)
    {wraps : Bool} {level level' : Nat} {sep : Char} (hbackslash : sep ≠ '\\') (hquote : sep ≠ '\'')
    (hentries : ∀ entry ∈ entries, entry.Fits delim (level + 1))
    (hguards : wraps = false ∨ ∀ entry ∈ entries, entry.Unguarded (level + 1))
    (hendpoint : ∀ atom ∈ atomBytes (EscapedField.endpoint.atoms endpoint),
      atom.Fits delim (level' + 1))
    (hguards' : wraps = false ∨ ∀ atom ∈ atomBytes (EscapedField.endpoint.atoms endpoint),
      atom.Unguarded (level' + 1)) :
    Takes delim (legBytes head wraps (level + 1) sep entries (level' + 1) endpoint)
      (legBytes head false level sep entries level' endpoint) := by
  have hdata : Takes delim (dataText wraps (level + 1) sep entries) _ :=
    takes_dataText hdelim hbackslash hquote hentries hguards
  have hbehind := takes_fieldText hdelim hendpoint hguards'
  exact ((hhead.append hdata).append (hbehind.cons (by decide) (by decide))).cons (by decide)
    (by decide)

theorem uncut_endpoint_comma (hp : Trailing endpoint) :
    Uncut ',' 1 (atomBytes (EscapedField.endpoint.atoms endpoint)) :=
  EscapedField.uncut_bytes (meets_endpoint_comma _) hp.free
    (fun _ => by simp [EscapedField.level]) (by decide)

theorem commasEscaped_endpoint (hp : Trailing endpoint) :
    CommasEscaped (fieldText false 1 (atomBytes (EscapedField.endpoint.atoms endpoint))) := by
  refine commasEscaped_render (EscapedField.rendered_bytes hp.free)
    (fun hmem => (uncut_endpoint_comma hp _ hmem).2 rfl) ?_
  exact fun last hmem => ((uncut_endpoint_comma hp _ hmem).1.2.mp rfl).le

/-- What the comma scan leaves of a leg with a block. -/
theorem scanned_leg (h : FillsLeg pairs) (hp : Trailing endpoint) (hspelled : Spelled 0 lo s)
    (hchars : chars s = legBytes [] false 3 ',' (pairs.map (Entry.bytesOf true)) 1 endpoint) :
    Spelled 0 lo (escapeBlockCommas s) ∧ chars (escapeBlockCommas s) =
      legBytes [] false 3 unquotedEscComma (pairs.map (Entry.bytesOf true)) 1 endpoint := by
  have hascii : (',' : Char).toNat < 128 := by decide
  have hspell := hchars.trans (legBytes_eq (List.forall_mem_nil _) h hp true false 3 hascii 1)
  have hscope : Balanced VariablesType.channel.delimiters.1 VariablesType.channel.delimiters.2
      (pairsText .channel true false 3 ',' pairs) :=
        balanced_pairsText (by decide) (by decide) h.fills.sendable
  have hdata : spell (pairsText .channel true false 3 ',' pairs) = dataText false 3 ','
      (pairs.map (Entry.bytesOf true)) :=
    spell_pairsText (by decide) h.fills.sendable
  rw [List.nil_append] at hspell
  obtain ⟨cell, inside, close, later, rfl, hcell, hclose, hinside, hlater, -, -⟩ :=
    cells_block (by decide) (by decide) hspelled hspell
  rw [EscapedField.spell_field hp.free] at hlater
  have hbalanced : Balanced '[' ']' (chars inside) := by
    rw [hinside]
    exact hscope.spell (by decide) (by decide)
  have hheadless : Headless (chars inside ++ [']']) := by
    have hspellClose : spell [']'] = [']'] := spell_ascii (by decide)
    rw [hinside, ← hspellClose, ← spell_append]
    exact (headless_pairsText h.fills.sendable (headless_of_head (by simp))).spell
  obtain ⟨hidden, hrewritten, hhidden, hscan⟩ :=
    escapeBlockCommas_block h hcell hclose (hinside.trans hdata)
    hbalanced hheadless (hlater ▸ commasEscaped_endpoint hp)
  have hsame : List.Forall₂ Rewritten (close :: later) (close :: later) :=
    List.forall₂_same.mpr fun cell _ => .refl cell
  rw [hscan]
  refine ⟨hspelled.rewritten (.cons (.refl cell) (List.rel_append hrewritten hsame)), ?_⟩
  rw [chars_cons, chars_append, chars_cons, hcell, hclose, hhidden, hlater]
  rfl

/-- What the comma scan leaves of a group is one leg. -/
structure ScansLeg (blockParse : BlockParse) (lo : Nat) (s : List Traced) (head : Text)
    (sep : Char) (entries : List Entry) (blocks : List Block) (endpoint : Text) : Prop where
  spelled : Spelled 0 lo (escapeBlockCommas s)
  scanned : chars (escapeBlockCommas s) = legBytes head false 3 sep entries 1 endpoint
  free : '\x00' ∉ chars s ∧ '\x00' ∉ legBytes head false 3 sep entries 1 endpoint
  named : Through ',' false head ∧ Takes (some ',') head head
  plain : sep ∉ [',', '\\', '\'', '\x00']
  uncut : ∀ entry ∈ entries, entry.Uncut ',' 3
  leg : ∀ rest, Spelled 0 lo rest → chars rest = legBytes head false 2 sep entries 0 endpoint →
    LegReads blockParse rest blocks endpoint

/-- A group is the leg the scan leaves of it. -/
theorem ScansLeg.groupReads {sep : Char} {blocks : List Block} (hp : Trailing endpoint)
    (h : ScansLeg blockParse lo s head sep entries blocks endpoint) :
    GroupReads blockParse s [⟨blocks, endpoint⟩] := by
  obtain ⟨hfree, hfree'⟩ := h.free
  have hsep := h.plain
  simp only [List.mem_cons, List.not_mem_nil, or_false, not_or] at hsep
  obtain ⟨hcomma, hbackslash, hquote, hnul⟩ := hsep
  have hscanned : NulFree (escapeBlockCommas s) := by
    rwa [nulFree_iff, h.scanned]
  have hhead : Headless (chars (escapeBlockCommas s)) := by
    rw [h.scanned]
    exact headless_of_head (by simp [legBytes])
  have hne : escapeBlockCommas s ≠ [] := fun hnil => by
    have hchars := h.scanned
    rw [hnil] at hchars
    cases hchars
  have htrimmed : Trimmed (chars (escapeBlockCommas s)) := by
    rw [h.scanned]
    exact legBytes_trimmed hp head false 3 sep entries 0
  have hthrough : Through ',' false (chars (escapeBlockCommas s)) := by
    rw [h.scanned]
    exact through_legBytes passing_comma (by decide) (by decide) (by decide) h.named.1
      (through_plain hbackslash hquote hcomma hnul false) h.uncut (.inl rfl)
      (uncut_endpoint_comma hp) (.inl rfl)
  have htakes : Takes (some ',') (legBytes head false (2 + 1) sep entries (0 + 1) endpoint) _ :=
    takes_legBytes passing_comma h.named.2 hbackslash hquote
      (fun entry hentry => (h.uncut entry hentry).fits) (.inl rfl)
      (fun atom hatom => (uncut_endpoint_comma hp atom hatom).1) (.inl rfl)
  have hcleaned : chars (cleanup (escapeBlockCommas s) (some ',')) =
      legBytes head false 2 sep entries 0 endpoint := by
    rw [chars_cleanup _ htrimmed, h.scanned, htakes.all]
  exact groupReads_of_pieces ((nulFree_iff _).mpr hfree) hscanned hhead
    (.last hne hscanned (.inr hthrough))
    (.cons (h.leg _ (h.spelled.cleanup (by simp) htrimmed) hcleaned) .nil)

/-- A group is one leg with its block. -/
theorem groupReads_channel (h : FillsLeg pairs) (hp : Trailing endpoint) (hspelled : Spelled 0 lo s)
    (hchars : chars s = legBytes [] false 3 ',' (pairs.map (Entry.bytesOf true)) 1 endpoint) :
    GroupReads blockParse s [⟨[blockOf .channel (kept unquotedEscComma pairs)], endpoint⟩] := by
  obtain ⟨hspelled', hchars'⟩ := scanned_leg h hp hspelled hchars
  have hfree : ∀ sep : Char, sep.toNat < 128 → sep ≠ '\x00' →
      '\x00' ∉ legBytes [] false 3 sep (pairs.map (Entry.bytesOf true)) 1 endpoint := by
    intro sep hsep hnul
    rw [legBytes_eq (List.forall_mem_nil _) h hp true false 3 hsep]
    refine nul_notMem_spell ?_
    simp only [List.nil_append, List.mem_cons, List.mem_append, not_or]
    exact ⟨by decide, nulFree_pairsText hnul h.fills.sendable, by decide,
      nulFree_fieldText hp.free false 1⟩
  refine ScansLeg.groupReads hp ⟨hspelled', hchars', ⟨?_, hfree _ (by decide) (by decide)⟩,
    ⟨.nil ',' false, .nil _⟩, by decide, ?_, fun rest hspelled hrest => ?_⟩
  · rw [hchars]
    exact hfree ',' (by decide) (by decide)
  · exact List.forall_mem_map.mpr fun pair hpair => (h.sendable pair hpair).uncut_comma
  · refine legReads_channel h hp hspelled ?_
    rw [hrest, legBytes_eq (List.forall_mem_nil _) h hp true false 2 (by decide), fieldText_false,
      EscapedField.render_zero]
    rfl

/-- A leg with its block ahead of the split into groups. -/
theorem dialList_leg {separator : Option Char} {blocks : List Block} (h : FillsLeg pairs)
    (hsep : Chosen .channel separator pairs) (hp : Trailing endpoint) {cells : List Traced}
    (hordered : Ordered 0 cells) {wraps : Bool}
    (hchars : chars cells = '[' :: (blockText .channel separator wraps 4 pairs ++
      ']' :: fieldText wraps 2 (EscapedField.endpoint.atoms endpoint)))
    (hthreads : ¬ enterpriseDelim <:+: blockText .channel separator wraps 4 pairs)
    (hgroup : ∀ lo rest, Spelled 0 lo rest →
      chars rest = legBytes (separatorHead separator) false 3 (separator.getD ',')
        (pairs.map (Entry.bytesOf (escapesCommas separator))) 1 endpoint →
      GroupReads blockParse rest [⟨blocks, endpoint⟩]) (raw : Span) (carried : Bool) :
    ReadsLeg (dialList cells raw carried blockParse) blocks endpoint := by
  obtain ⟨s, nul, hnul, hspelled, hspell, hnew⟩ := CBuffer.new_ordered hordered
  obtain ⟨hsplits, hopener, hcloser⟩ := separator_getD hsep
  have hpipe : separator.getD ',' ≠ '|' := by
    cases separator with
    | none => decide
    | some sep => exact (separator_of_check (hsep.checked sep rfl)).pipe rfl
  have hcutting := hsplits.cutting
  have hplain : ∀ c ∈ separatorHead separator, c ≠ '\\' ∧ c ≠ '\'' ∧ c ≠ '|' ∧ c ≠ '\x00' ∧
      c.toNat < 128 := by
    cases separator with
    | none => exact fun c hc => by cases hc
    | some sep =>
        have hsep : sep ≠ '\\' ∧ sep ≠ '\'' ∧ sep ≠ '|' ∧ sep ≠ '\x00' ∧ sep.toNat < 128 :=
          ⟨hcutting.ne_backslash, hcutting.ne_quote, hpipe, hcutting.ne_nul, hsplits.ascii⟩
        simp only [separatorHead, Option.elim_some, List.forall_mem_cons, List.not_mem_nil,
          false_imp_iff, implies_true, and_true]
        exact ⟨by decide, by decide, hsep⟩
  have hs : chars s = legBytes (separatorHead separator) wraps 4 (separator.getD ',')
      (pairs.map (Entry.bytesOf (escapesCommas separator))) 2 endpoint := by
    rw [hspell, hchars, legBytes_eq (fun c hc => (hplain c hc).2.2.2.2) h hp _ wraps 4
      hsplits.ascii]
    rfl
  have hfree : NulFree s := by
    rw [nulFree_iff, hspell, hchars]
    refine nul_notMem_spell ?_
    simp only [List.mem_cons, List.mem_append, not_or]
    exact ⟨by decide, nulFree_blockText h.fills hsep wraps 4, by decide,
      nulFree_fieldText hp.free wraps 2⟩
  have hopening : (chars s).head? = some '[' := by
    rw [hs]
    rfl
  have hhead : HeadReads blockParse cells [] s := by
    refine headReads_bare hnew hnul hfree (by rw [hspell, head_spell]) fun c hc => ?_
    rw [hopening] at hc
    obtain rfl := Option.some.inj hc
    decide
  have hne : s ≠ [] := fun hnil => by
    rw [hnil] at hopening
    cases hopening
  have htrimmed : Trimmed (chars s) := by
    rw [hs]
    exact legBytes_trimmed hp _ wraps 4 _ _ 1
  have hentries : ∀ entry ∈ pairs.map (Entry.bytesOf (escapesCommas separator)),
      entry.Uncut '|' 4 :=
    List.forall_mem_map.mpr fun pair hpair => (h.sendable pair hpair).uncut_pipe _
  have hguards : ∀ entry ∈ pairs.map (Entry.bytesOf (escapesCommas separator)),
      entry.Unguarded 4 :=
    List.forall_mem_map.mpr fun pair _ => Entry.unguarded_bytes pair (by decide) (by decide)
  have hendpoint := EscapedField.uncut_bytes (meets_endpoint_pipe _) hp.free
    (fun _ => by simp [EscapedField.level]) (by decide)
  have hguards' : ∀ atom ∈ atomBytes (EscapedField.endpoint.atoms endpoint), atom.Unguarded 2 :=
    unguarded_bytes (by decide) (by decide)
  have hthrough : Through '|' false (chars s) := by
    rw [hs]
    exact through_legBytes passing_pipe (by decide) (by decide) (by decide)
      (through_plains fun c hc => ⟨(hplain c hc).1, (hplain c hc).2.1, (hplain c hc).2.2.1,
        (hplain c hc).2.2.2.1⟩)
      (through_plain hcutting.ne_backslash hcutting.ne_quote hpipe hcutting.ne_nul false) hentries
      (.inr hguards) hendpoint (.inr hguards')
  have htakes : Takes (some '|') (legBytes (separatorHead separator) wraps (3 + 1)
      (separator.getD ',') (pairs.map (Entry.bytesOf (escapesCommas separator))) (1 + 1)
      endpoint) _ :=
    takes_legBytes passing_pipe
      (takes_plains (fun c hc => ⟨(hplain c hc).1, (hplain c hc).2.1⟩) _)
      hcutting.ne_backslash hcutting.ne_quote
      (fun entry hentry => (hentries entry hentry).fits) (.inr hguards)
      (fun atom hatom => (hendpoint atom hatom).1) (.inr hguards')
  have hgroup' : GroupReads blockParse (cleanup s (some '|')) [⟨blocks, endpoint⟩] := by
    refine hgroup _ _ (hspelled.cleanup (by simp) htrimmed) ?_
    rw [chars_cleanup _ htrimmed, hs, htakes.all]
  refine dialList_reads ?_ (thread_single hhead hspelled hfree
    (headless_of_head (by rw [hopening]; decide)) hne
    hthrough hgroup') raw carried
  rw [hchars]
  exact threads_block hthreads hp .channel wraps 2

/-- **A `[]` block ahead of an endpoint is read as its pairs.** -/
theorem dialList_channel (h : FillsLeg pairs) (hp : Trailing endpoint) {cells : List Traced}
    (hordered : Ordered 0 cells) {wraps : Bool}
    (hchars : chars cells = '[' :: (blockText .channel none wraps 4 pairs ++
      ']' :: fieldText wraps 2 (EscapedField.endpoint.atoms endpoint))) (raw : Span)
        (carried : Bool) :
    ReadsLeg (dialList cells raw carried blockParse)
      [blockOf .channel (kept unquotedEscComma pairs)] endpoint :=
  dialList_leg h (chosen_none _ _) hp hordered hchars
    (threads_pairsText (by decide) h.fills.sendable)
    (fun _ _ hspelled hrest => groupReads_channel h hp hspelled hrest) raw carried

end SwitchPasses
end EslTokio
