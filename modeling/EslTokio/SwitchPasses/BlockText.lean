import EslTokio.SwitchPasses.EndpointText
import EslTokio.SwitchPasses.Joined

/-!
# The pairs of a block

A block's data is its pairs with a separator between them. The pair split cuts it at the separators
alone and takes one level off every key and value, and the `=` split of a pair takes the last.

* `Sendable` — a pair a block can carry.
* `pairReads_entry` — a token is its key and value.
* **`splitReads_pairs`** — the data is its pairs, in order.
-/

namespace EslTokio
namespace SwitchPasses

open Library

/-- A pair a block of a scope can carry. -/
structure Sendable (scope : VariablesType) (key value : Text) : Prop where
  key_ne : key ≠ []
  value_ne : value ≠ []
  key_free : '\x00' ∉ key
  value_free : '\x00' ∉ value
  key_threads : splitsIntoThreads key = false
  value_threads : splitsIntoThreads value = false
  key_balanced : Balanced scope.delimiters.1 scope.delimiters.2 key
  value_balanced : Balanced scope.delimiters.1 scope.delimiters.2 value

/-- The atoms of a pair in a block whose commas are escaped or not. -/
def Entry.ofPair (scope : VariablesType) (commas : Bool) (pair : Text × Text) : Entry :=
  ⟨(EscapedField.key scope commas).atoms pair.1, (EscapedField.value scope commas).atoms pair.2⟩

/-- The atoms of a pair in a buffer. -/
def Entry.bytes (entry : Entry) : Entry := ⟨atomBytes entry.key, atomBytes entry.value⟩

variable {scope : VariablesType} {commas : Bool} {key value : Text}

theorem spell_entry (h : Sendable scope key value) (commas wraps : Bool) (level : Nat) :
    spell ((Entry.ofPair scope commas (key, value)).text wraps level) =
      (Entry.ofPair scope commas (key, value)).bytes.text wraps level := by
  have hequals : spell ['='] = ['='] := spell_ascii (by decide)
  show spell (fieldText wraps level _ ++ (['='] ++ fieldText wraps level _)) = _
  rw [spell_append, spell_append, hequals, Entry.ofPair, EscapedField.spell_field h.key_free,
    EscapedField.spell_field h.value_free]
  rfl

/-! ### What the splits ask -/

/-- A char that the pairs of a block are split at. -/
structure SplitsPairs (delim : Char) : Prop where
  passing : Passing (some delim)
  ne : '=' ≠ delim
  ascii : delim.toNat < 128
  space : delim ≠ ' '

theorem SplitsPairs.cutting {delim : Char} (h : SplitsPairs delim) : Cutting delim :=
  ⟨fun hc => h.passing.ne_nul (congrArg some hc), fun hc =>
      h.passing.ne_backslash (congrArg some hc),
    fun hc => h.passing.ne_quote (congrArg some hc), h.space⟩

theorem splitsPairs_comma : SplitsPairs ',' :=
  ⟨passing_comma, by decide, by decide, by decide⟩

theorem splitsPairs_hidden : SplitsPairs unquotedEscComma :=
  ⟨by constructor <;> decide, by decide, by decide, by decide⟩

/-- The pair split meets the commas of a block outside a leg. -/
theorem meets_comma (hscope : scope ≠ .channel) (text : Text) :
    (EscapedField.key scope true).Meets (some ',') 2 text ∧
      (EscapedField.value scope true).Meets (some ',') 2 text := by
  have hlevel : commaLevel scope = 2 := by
    cases scope with
    | channel => exact absurd rfl hscope
    | enterprise | default => rfl
  constructor
  · intro c _ last h
    simp only [EscapedField.level, hlevel, if_true] at h
    split_ifs at h with hcomma hpipe hequals
    · cases h
      simp [hcomma]
    · exact absurd hpipe.2 hscope
    · cases h
      simp [hequals]
  · intro c _ last h
    simp only [EscapedField.level, hlevel, if_true] at h
    split_ifs at h with hcomma hpipe
    · cases h
      simp [hcomma]
    · exact absurd hpipe.2 hscope

theorem meets_hidden (text : Text) :
    (EscapedField.key .channel true).Meets (some unquotedEscComma) 2 text ∧
      (EscapedField.value .channel true).Meets (some unquotedEscComma) 2 text := by
  constructor <;> intro c _ last h <;>
    simp only [EscapedField.level, commaLevel, if_true, and_true] at h
  · split_ifs at h with hcomma hpipe hequals <;> cases h <;> simp_all [unquotedEscComma]
  · split_ifs at h with hcomma hpipe <;> cases h <;> simp_all [unquotedEscComma]

theorem passing_equals : Passing (some '=') := by
  constructor <;> decide

theorem meets_key_equals (text : Text) :
    (EscapedField.key scope commas).Meets (some '=') 1 text := by
  intro c _ last h
  simp only [EscapedField.level] at h
  split_ifs at h with hcomma hcommas hpipe hequals
  · cases h
    cases scope <;> simp [hcomma, commaLevel]
  · cases h
    simp [hpipe.1]
  · cases h
    simp [hequals]

theorem meets_value_equals (text : Text) :
    (EscapedField.value scope commas).Meets (some '=') 1 text := by
  intro c _ last h
  simp only [EscapedField.level] at h
  split_ifs at h with hcomma hcommas hpipe
  · cases h
    cases scope <;> simp [hcomma, commaLevel]
  · cases h
    simp [hpipe.1]

/-! ### One pair -/

theorem Trimmed.join {x y : Text} (hx : Trimmed x) (hy : Trimmed y) (hne : x ≠ []) (hne' : y ≠ [])
    (sep : Char) :
    Trimmed (x ++ sep :: y) := by
  constructor
  · intro c hc
    rw [List.head?_append_of_ne_nil _ hne] at hc
    exact hx.head c hc
  · intro c hc
    rw [List.append_cons, List.getLast?_append_of_ne_nil _ hne'] at hc
    exact hy.last c hc

/-- The key and the value of a pair at a level are trimmed. -/
theorem Sendable.trimmed (h : Sendable scope key value) (wraps : Bool) (level : Nat) :
    Trimmed ((Entry.ofPair scope commas (key, value)).text wraps (level + 1)) :=
  (EscapedField.trimmed_fieldText _ h.key_ne h.key_free wraps level).join
    (EscapedField.trimmed_fieldText _ h.value_ne h.value_free wraps level)
    (EscapedField.fieldText_ne_nil _ h.key_ne h.key_free wraps level)
    (EscapedField.fieldText_ne_nil _ h.value_ne h.value_free wraps level) '='

theorem Sendable.nulFree (h : Sendable scope key value) (wraps : Bool) (level : Nat) :
    '\x00' ∉ (Entry.ofPair scope commas (key, value)).text wraps level := by
  rw [Entry.text, List.mem_append, List.mem_cons, not_or, not_or]
  exact ⟨nulFree_fieldText h.key_free wraps
    level, by decide, nulFree_fieldText h.value_free wraps level⟩

theorem Entry.text_ne_nil (wraps : Bool) (level : Nat) (entry : Entry) :
    entry.text wraps level ≠ [] := by
  rw [Entry.text]
  exact List.append_ne_nil_of_right_ne_nil _ (List.cons_ne_nil _ _)

theorem Sendable.headless (h : Sendable scope key value) (wraps : Bool) (level : Nat) :
    Headless ((Entry.ofPair scope commas (key, value)).text wraps (level + 1)) :=
  headless_key h.key_free wraps level _

variable {blockParse : BlockParse} {lo : Nat} {s : List Traced} {delim : Char}

/-- A field a pass of its last level has read is its text. -/
theorem EscapedField.written_last {field : EscapedField} {text : Text} (hfree : '\x00' ∉ text)
    (hdelim : Passing (some delim)) (hmeets : field.Meets (some delim) 1 text) :
    written (some delim) false (fieldText false 1 (atomBytes (field.atoms text))) = spell text := by
  have htakes : Takes (some delim) (fieldText false (0 + 1) (atomBytes (field.atoms text))) _ :=
    takes_fieldText hdelim (EscapedField.fits_bytes hmeets hfree) (.inl rfl)
  rw [htakes.all, EscapedField.render_zero_bytes hfree]

/-- The pair split cuts nowhere in a pair whose commas are escaped for it. -/
theorem Sendable.uncut_comma (h : Sendable scope key value) (hscope : scope ≠ .channel) :
    (Entry.ofPair scope true (key, value)).bytes.Uncut ',' 2 :=
  ⟨EscapedField.uncut_bytes (meets_comma hscope _).1 h.key_free
      (fun _ => by simp [EscapedField.level]) (by decide),
    EscapedField.uncut_bytes (meets_comma hscope _).2 h.value_free
      (fun _ => by simp [EscapedField.level]) (by decide)⟩

theorem Entry.unguarded_bytes (pair : Text × Text) {level : Nat} (hone : level ≠ 1)
    (hthree : level ≠ 3) :
    (Entry.ofPair scope commas pair).bytes.Unguarded level :=
  ⟨SwitchPasses.unguarded_bytes hone hthree, SwitchPasses.unguarded_bytes hone hthree⟩

/-! ### The text of the pairs -/

/-- The text of pairs in a buffer. -/
def pairsText (scope : VariablesType) (commas wraps : Bool) (level : Nat) (sep : Char)
    (pairs : List (Text × Text)) : Text :=
  dataText wraps level sep (pairs.map (Entry.ofPair scope commas))

theorem spell_intercalate {sep : Char} (hsep : sep.toNat < 128) (xs : List Text) :
    spell ([sep].intercalate xs) = [sep].intercalate (xs.map spell) := by
  have hspell : spell [sep] = [sep] := spell_ascii (by simpa using hsep)
  induction xs with
  | nil => rfl
  | cons x xs ih =>
      cases xs with
      | nil => simp
      | cons y ys =>
          rw [List.intercalate_cons_cons, spell_append, spell_append, hspell, ih]
          exact List.intercalate_cons_cons.symm

theorem spell_pairsText {wraps : Bool} {level : Nat} {sep : Char} (hsep : sep.toNat < 128)
    {pairs : List (Text × Text)} (h : ∀ pair ∈ pairs, Sendable scope pair.1 pair.2) :
    spell (pairsText scope commas wraps level sep pairs) =
      dataText wraps level sep (pairs.map fun pair => (Entry.ofPair scope commas pair).bytes) := by
  rw [pairsText, dataText, dataText, spell_intercalate hsep, List.map_map,
    List.map_map, List.map_map]
  exact congrArg _ (List.map_congr_left fun pair hpair =>
    spell_entry (h pair hpair) commas wraps level)

/-- The pairs of a block, as the switch reads them. -/
def readingOf (pairs : List (Text × Text)) : List Pair := pairs.map fun pair =>
    ⟨pair.1, .set pair.2⟩

/-- A block opens no head. -/
theorem headless_pairsText {wraps : Bool} {level : Nat} {sep : Char} {pairs : List (Text × Text)}
    (h : ∀ pair ∈ pairs, Sendable scope pair.1 pair.2) {rest : Text} (hrest : Headless rest) :
    Headless (pairsText scope commas wraps (level + 1) sep pairs ++ rest) := by
  cases pairs with
  | nil => exact hrest
  | cons pair pairs =>
      have hopening : ∃ later, pairsText scope commas wraps (level + 1) sep (pair :: pairs) ++
          rest = fieldText wraps (level + 1) ((EscapedField.key scope commas).atoms pair.1) ++
            '=' :: later := by
        cases pairs with
        | nil =>
            rw [pairsText, dataText, List.map_cons, List.map_nil, List.map_cons, List.map_nil,
              List.intercalate_singleton, Entry.text, List.append_assoc]
            exact ⟨_, rfl⟩
        | cons next pairs =>
            rw [pairsText, dataText, List.map_cons, List.map_cons, List.map_cons, List.map_cons,
              List.intercalate_cons_cons, Entry.text, List.append_assoc, List.append_assoc,
              List.append_assoc]
            exact ⟨_, rfl⟩
      obtain ⟨later, hlater⟩ := hopening
      rw [hlater]
      exact headless_key (h pair List.mem_cons_self).key_free wraps level later

/-- Nor does it alone, in a buffer. -/
theorem headless_spell_pairsText {wraps : Bool} {level : Nat} {sep : Char}
    {pairs : List (Text × Text)} (h : ∀ pair ∈ pairs, Sendable scope pair.1 pair.2) :
    Headless (spell (pairsText scope commas wraps (level + 1) sep pairs)) := by
  have hheadless : Headless (pairsText scope commas wraps (level + 1) sep pairs ++ []) :=
    headless_pairsText h (headless_of_head (by simp))
  rw [List.append_nil] at hheadless
  exact hheadless.spell

theorem infix_pairsText {needle : Text} (hne : needle ≠ []) {wraps : Bool}
    {level : Nat} {sep : Char}
    (hsep : sep ∉ needle) {pairs : List (Text × Text)}
    (h : needle <:+: pairsText scope commas wraps level sep pairs) :
    ∃ pair ∈ pairs, needle <:+: (Entry.ofPair scope commas pair).text wraps level := by
  obtain ⟨x, hx, hwithin⟩ := Search.infix_intercalate hne hsep h
  rw [List.map_map] at hx
  obtain ⟨pair, hpair, rfl⟩ := List.mem_map.mp hx
  exact ⟨pair, hpair, hwithin⟩

theorem nulFree_pairsText {wraps : Bool} {level : Nat} {sep : Char} (hsep : sep ≠ '\x00')
    {pairs : List (Text × Text)} (h : ∀ pair ∈ pairs, Sendable scope pair.1 pair.2) :
    '\x00' ∉ pairsText scope commas wraps level sep pairs := by
  rw [← List.singleton_infix_iff]
  intro hwithin
  obtain ⟨pair, hpair, hwithin⟩ :=
    infix_pairsText (List.cons_ne_nil _ _) (by simpa using hsep) hwithin
  exact (h pair hpair).nulFree wraps level ((List.singleton_infix_iff _ _).mp hwithin)

/-- No block makes threads. -/
theorem threads_pairsText {wraps : Bool} {level : Nat} {sep : Char} (hsep : sep ∉ enterpriseDelim)
    {pairs : List (Text × Text)} (h : ∀ pair ∈ pairs, Sendable scope pair.1 pair.2) :
    ¬ enterpriseDelim <:+: pairsText scope commas wraps level sep pairs := by
  intro hwithin
  obtain ⟨pair, hpair, hwithin⟩ := infix_pairsText (by decide) hsep hwithin
  have hequals : '=' ∉ enterpriseDelim := by decide
  rcases Search.infix_append_cons hequals hwithin with hkey | hvalue
  · exact EscapedField.threads_fieldText (h pair hpair).key_free
      (h pair hpair).key_threads wraps level hkey
  · exact EscapedField.threads_fieldText (h pair hpair).value_free
      (h pair hpair).value_threads wraps level hvalue

theorem Balanced.intercalate {opener closer sep : Char} (hopener : sep ≠ opener)
    (hcloser : sep ≠ closer)
    {xs : List Text} (h : ∀ x ∈ xs, Balanced opener closer x) :
    Balanced opener closer ([sep].intercalate xs) := by
  have hsep : Balanced opener closer [sep] :=
    depthFrom_of_notMem 0 (by simpa using Ne.symm hopener) (by simpa using Ne.symm hcloser)
  induction xs with
  | nil => rfl
  | cons x xs ih =>
      obtain ⟨hx, hxs⟩ := List.forall_mem_cons.mp h
      cases xs with
      | nil => rwa [List.intercalate_singleton]
      | cons y ys =>
          rw [List.intercalate_cons_cons]
          exact (hx.append hsep).append (ih hxs)

theorem structural_delimiters (scope : VariablesType) :
    Structural scope.delimiters.1 ∧ Structural scope.delimiters.2 := by
  cases scope <;> decide

/-- **The brackets of a block balance.** -/
theorem balanced_pairsText {wraps : Bool} {level : Nat} {sep : Char}
    (hopener : sep ≠ scope.delimiters.1)
    (hcloser : sep ≠ scope.delimiters.2) {pairs : List (Text × Text)}
    (h : ∀ pair ∈ pairs, Sendable scope pair.1 pair.2) :
    Balanced scope.delimiters.1 scope.delimiters.2
      (pairsText scope commas wraps level sep pairs) := by
  obtain ⟨hopening, hclosing⟩ := structural_delimiters scope
  refine Balanced.intercalate hopener hcloser fun x hx => ?_
  rw [List.map_map] at hx
  obtain ⟨pair, hpair, rfl⟩ := List.mem_map.mp hx
  have hequals : Balanced scope.delimiters.1 scope.delimiters.2 ['='] := by cases scope <;> rfl
  have hpair := h pair hpair
  exact (EscapedField.balanced_fieldText hpair.key_free hopening hclosing hpair.key_balanced
    wraps level).append
    (hequals.append
      (EscapedField.balanced_fieldText hpair.value_free hopening hclosing hpair.value_balanced
        wraps level))

/-! ### More pairs than the split keeps -/

/-- The value of a pair whose token holds the pairs behind it as well. -/
def overfull (delim : Char) (value : Text) (rest : List (Text × Text)) : Text :=
  [delim].intercalate (value :: rest.map fun pair => pair.1 ++ '=' :: pair.2)

/-- The pairs a split with room for one more token than `room` reads: the last token takes all that
is left. -/
def keptWithin (delim : Char) : (room : Nat) → List (Text × Text) → List (Text × Text)
  | _, [] => []
  | 0, (key, value) :: rest => [(key, overfull delim value rest)]
  | room + 1, pair :: rest => pair :: keptWithin delim room rest

/-- The pairs the split of a block reads. -/
def kept (delim : Char) (pairs : List (Text × Text)) : List (Text × Text) :=
  keptWithin delim (blockPairs - 1) pairs

@[simp] theorem overfull_nil (delim : Char) (value : Text) : overfull delim value [] = value :=
  List.intercalate_singleton

theorem keptWithin_eq {delim : Char} {room : Nat} {pairs : List (Text × Text)}
    (h : pairs.length ≤ room + 1) : keptWithin delim room pairs = pairs := by
  induction pairs generalizing room with
  | nil => cases room <;> rfl
  | cons pair pairs ih =>
      cases room with
      | zero =>
          obtain rfl : pairs = [] := List.eq_nil_of_length_eq_zero (by simpa using h)
          rw [keptWithin, overfull_nil]
      | succ room => rw [keptWithin, ih (by simpa using h)]

/-- A block that fits is read as it is. -/
theorem kept_eq {delim : Char} {pairs : List (Text × Text)} (h : pairs.length ≤ blockPairs) :
    kept delim pairs = pairs := keptWithin_eq h

/-- Every key that is read is one of the block's. -/
theorem keptWithin_keys (delim : Char) (room : Nat) (pairs : List (Text × Text)) :
    ∀ name ∈ (keptWithin delim room pairs).map Prod.fst, name ∈ pairs.map Prod.fst := by
  induction pairs generalizing room with
  | nil => cases room <;> exact fun _ h => h
  | cons pair pairs ih =>
      intro name hname
      cases room with
      | zero => exact List.mem_cons.mpr (.inl (List.mem_singleton.mp hname))
      | succ room =>
          rcases List.mem_cons.mp hname with rfl | hname
          · exact List.mem_cons_self
          · exact List.mem_cons_of_mem _ (ih room name hname)

theorem Trimmed.intercalate {xs : List Text} (hne : xs ≠ [])
    (h : ∀ x ∈ xs, x ≠ [] ∧ Trimmed x) (sep : Char) :
    [sep].intercalate xs ≠ [] ∧ Trimmed ([sep].intercalate xs) := by
  induction xs with
  | nil => exact absurd rfl hne
  | cons x xs ih =>
      obtain ⟨hx, hxs⟩ := List.forall_mem_cons.mp h
      cases xs with
      | nil => rwa [List.intercalate_singleton]
      | cons y ys =>
          obtain ⟨hlater, htrimmed⟩ := ih (List.cons_ne_nil _ _) hxs
          rw [List.intercalate_cons_cons, List.append_assoc, List.singleton_append]
          exact ⟨List.append_ne_nil_of_left_ne_nil hx.1 _, hx.2.join htrimmed hx.1 hlater sep⟩

/-- The `=` split takes the last level off a pair that it does not cut as one. -/
theorem Sendable.takes_equals (h : Sendable scope key value) (commas : Bool) :
    Takes (some '=') ((Entry.ofPair scope commas (key, value)).bytes.text false 1)
      (spell (key ++ '=' :: value)) := by
  have hfits : (Entry.ofPair scope commas (key, value)).bytes.Fits (some '=') (0 + 1) :=
    ⟨EscapedField.fits_bytes (meets_key_equals _) h.key_free,
      EscapedField.fits_bytes (meets_value_equals _) h.value_free⟩
  have hzero : (Entry.ofPair scope commas (key, value)).text false 0 = key ++ '=' :: value := by
    rw [Entry.text, Entry.ofPair, fieldText_false, fieldText_false, EscapedField.render_zero,
      EscapedField.render_zero]
  have htakes := Entry.takes passing_equals hfits (.inl rfl : false = false ∨ _)
  rwa [← spell_entry h commas false 0, hzero] at htakes

/-- A token of one level is its first key, and a value that holds the pairs behind it if there are
any. -/
theorem pairReads_plain {rest : List (Text × Text)} (h : Sendable scope key value)
    (hrest : ∀ pair ∈ rest, Sendable scope pair.1 pair.2) (hdelim : SplitsPairs delim)
    (hspelled : Spelled 0 lo s)
    (hchars : chars s = spell (pairsText scope commas false 1 delim ((key, value) :: rest))) :
    PairReads blockParse s ⟨key, .set (overfull delim value rest)⟩ := by
  have hall : ∀ pair ∈ (key, value) :: rest, Sendable scope pair.1 pair.2 :=
    List.forall_mem_cons.mpr ⟨h, hrest⟩
  let texts : List Text := fieldText false 1 ((EscapedField.value scope commas).atoms value) ::
    rest.map fun pair => (Entry.ofPair scope commas pair).text false 1
  have hjoined : pairsText scope commas false 1 delim ((key, value) :: rest) =
      fieldText false 1 ((EscapedField.key scope commas).atoms key) ++
        '=' :: [delim].intercalate texts := by
    cases rest with
    | nil => simp [pairsText, dataText, texts, Entry.text, Entry.ofPair]
    | cons next rest =>
        simp [pairsText, dataText, texts, Entry.text, Entry.ofPair, List.intercalate_cons_cons,
          Function.comp_def]
  have hfree : NulFree s := by
    rw [nulFree_iff, hchars]
    exact nul_notMem_spell (nulFree_pairsText hdelim.cutting.ne_nul hall)
  have hhead : Headless (chars s) := by
    rw [hchars]
    exact headless_spell_pairsText hall
  have hkey : spell (fieldText false 1 ((EscapedField.key scope commas).atoms key)) = _ :=
    EscapedField.spell_field h.key_free false 1
  have hvalue : spell (fieldText false 1 ((EscapedField.value scope commas).atoms value)) = _ :=
    EscapedField.spell_field h.value_free false 1
  have hne := (EscapedField.key scope commas).fieldText_ne_nil h.key_ne h.key_free false 0
  have htrimmed := (EscapedField.key scope commas).trimmed_fieldText h.key_ne h.key_free false 0
  obtain ⟨hne', htrimmed'⟩ : [delim].intercalate texts ≠ [] ∧
      Trimmed ([delim].intercalate texts) := by
    refine Trimmed.intercalate (List.cons_ne_nil _ _) ?_ delim
    refine List.forall_mem_cons.mpr ⟨⟨(EscapedField.value scope commas).fieldText_ne_nil h.value_ne
      h.value_free false 0, (EscapedField.value scope commas).trimmed_fieldText h.value_ne
        h.value_free false 0⟩, fun x hx => ?_⟩
    obtain ⟨pair, hpair, rfl⟩ := List.mem_map.mp hx
    exact ⟨Entry.text_ne_nil _ _ _, (hrest pair hpair).trimmed false 0⟩
  have hthrough : Through '=' false
      (fieldText false 1 (atomBytes ((EscapedField.key scope commas).atoms key))) :=
    through_fieldText passing_equals
      (EscapedField.uncut_bytes (meets_key_equals _) h.key_free
        (fun _ => by simp [EscapedField.level])
        (by decide))
      (.inl rfl)
  -- Each text behind the key loses its last level, and the separators between them stay.
  have htakes : written (some '=') false (spell ([delim].intercalate texts)) =
      spell (overfull delim value rest) := by
    let reads : List (Text × Text) :=
      (spell (fieldText false 1 ((EscapedField.value scope commas).atoms value)), spell value) ::
        rest.map fun pair => (spell ((Entry.ofPair scope commas pair).text false 1),
          spell (pair.1 ++ '=' :: pair.2))
    have hreads : ∀ read ∈ reads, Takes (some '=') read.1 read.2 := by
      refine List.forall_mem_cons.mpr ⟨?_, fun read hread => ?_⟩
      · show Takes (some '=') (spell _) (spell value)
        rw [hvalue, ← EscapedField.render_zero_bytes h.value_free]
        exact takes_fieldText passing_equals
          (EscapedField.fits_bytes (meets_value_equals _) h.value_free) (.inl rfl)
      · obtain ⟨pair, hpair, rfl⟩ := List.mem_map.mp hread
        show Takes (some '=') (spell _) _
        rw [spell_entry (hrest pair hpair)]
        exact (hrest pair hpair).takes_equals commas
    have hjoin := (Takes.intercalate hdelim.cutting.ne_backslash hdelim.cutting.ne_quote hreads).all
    have hfirst : reads.map Prod.fst = texts.map spell := by simp [reads, texts, Function.comp_def]
    have hsecond : reads.map Prod.snd = (value :: rest.map fun pair =>
        pair.1 ++ '=' :: pair.2).map spell := by simp [reads, Function.comp_def]
    rw [hfirst, hsecond, ← spell_intercalate hdelim.ascii,
      ← spell_intercalate hdelim.ascii] at hjoin
    exact hjoin
  have heffect : valueEffect (overfull delim value rest) = .set (overfull delim value rest) := by
    have hfull : overfull delim value rest ≠ [] := by
      cases rest with
      | nil => rw [overfull_nil]; exact h.value_ne
      | cons next rest =>
          rw [overfull, List.map_cons, List.intercalate_cons_cons, List.append_assoc]
          exact List.append_ne_nil_of_left_ne_nil h.value_ne _
    cases hvalue : overfull delim value rest with
    | nil => exact absurd hvalue hfull
    | cons c text => rfl
  have hequals : '='.toNat < 128 := by decide
  rw [← heffect]
  refine pair_inPlace hspelled hfree ?_ hhead ?_ (spell_ne_nil hne') hthrough ?_
    htrimmed'.spell (EscapedField.written_last h.key_free passing_equals (meets_key_equals _))
    htakes blockParse
  · rw [hchars, hjoined, spell_append, spell_cons, utf8Size_ascii hequals, hkey]
    rfl
  · exact hkey ▸ spell_ne_nil hne
  · exact hkey ▸ htrimmed.spell

theorem trimmed_pairsText {wraps : Bool} {level : Nat} {pairs : List (Text × Text)}
    (hne : pairs ≠ []) (h : ∀ pair ∈ pairs, Sendable scope pair.1 pair.2) :
    pairsText scope commas wraps (level + 1) delim pairs ≠ [] ∧
      Trimmed (pairsText scope commas wraps (level + 1) delim pairs) := by
  refine Trimmed.intercalate (by simpa using hne) (fun x hx => ?_) delim
  rw [List.map_map] at hx
  obtain ⟨pair, hpair, rfl⟩ := List.mem_map.mp hx
  exact ⟨Entry.text_ne_nil _ _ _, (h pair hpair).trimmed wraps level⟩

/-- What the cleanup behind the pair split leaves of a token. -/
theorem pairReads_entry (blockParse : BlockParse) {rest : List (Text × Text)}
    (h : Sendable scope key value) (hrest : ∀ pair ∈ rest, Sendable scope pair.1 pair.2)
    (hdelim : SplitsPairs delim)
    (huncut : ∀ pair ∈ (key, value) :: rest,
      (Entry.ofPair scope commas pair).bytes.Uncut delim 2)
    (hspelled : Spelled 0 lo s) {wraps : Bool}
    (hchars : chars s = spell (pairsText scope commas wraps 2 delim ((key, value) :: rest))) :
    PairReads blockParse (cleanup s (some delim)) ⟨key, .set (overfull delim value rest)⟩ := by
  have hall : ∀ pair ∈ (key, value) :: rest, Sendable scope pair.1 pair.2 :=
    List.forall_mem_cons.mpr ⟨h, hrest⟩
  have htrimmed : Trimmed (chars s) := by
    rw [hchars]
    exact (trimmed_pairsText (List.cons_ne_nil _ _) hall).2.spell
  have htakes : Takes (some delim)
      (dataText wraps 2 delim (((key, value) :: rest).map fun pair =>
        (Entry.ofPair scope commas pair).bytes))
      (dataText false 1 delim (((key, value) :: rest).map fun pair =>
        (Entry.ofPair scope commas pair).bytes)) := by
    refine takes_dataText hdelim.passing hdelim.cutting.ne_backslash hdelim.cutting.ne_quote ?_
      (.inr ?_)
    · intro entry hentry
      obtain ⟨pair, hpair, rfl⟩ := List.mem_map.mp hentry
      exact (huncut pair hpair).fits
    · intro entry hentry
      obtain ⟨pair, hpair, rfl⟩ := List.mem_map.mp hentry
      exact Entry.unguarded_bytes pair (by decide) (by decide)
  have hcleaned : chars (cleanup s (some delim)) =
      spell (pairsText scope commas false 1 delim ((key, value) :: rest)) := by
    rw [chars_cleanup _ htrimmed, hchars, spell_pairsText hdelim.ascii hall, htakes.all,
      spell_pairsText hdelim.ascii hall]
  refine pairReads_plain h hrest hdelim (hspelled.cleanup ?_ htrimmed) hcleaned
  intro d hd
  obtain rfl := Option.some.inj hd
  exact hdelim.ascii

/-! ### The pairs in turn -/

/-- The pair split cuts the data of a block into its pairs, the last token taking what is left, and
each is read. -/
theorem pieces_pairs (room : Nat) {pairs : List (Text × Text)} (hne : pairs ≠ [])
    (h : ∀ pair ∈ pairs, Sendable scope pair.1 pair.2) (hdelim : SplitsPairs delim)
    (huncut : ∀ pair ∈ pairs, (Entry.ofPair scope commas pair).bytes.Uncut delim 2)
    (hspelled : Spelled 0 lo s) {wraps : Bool}
    (hchars : chars s = spell (pairsText scope commas wraps 2 delim pairs)) :
    ∃ ps, Pieces delim (some (room + 1)) s ps ∧
      List.Forall₂ (fun p read => PairReads blockParse (cleanup p (some delim)) read) ps
        (readingOf (keptWithin delim room pairs)) := by
  induction pairs generalizing room s with
  | nil => exact absurd rfl hne
  | cons pair pairs ih =>
      obtain ⟨key, value⟩ := pair
      obtain ⟨hpair, hlater⟩ := List.forall_mem_cons.mp h
      obtain ⟨huncut', hcuts⟩ := List.forall_mem_cons.mp huncut
      have hs : s ≠ [] := by
        rintro rfl
        exact spell_ne_nil (trimmed_pairsText hne h).1 hchars.symm
      have hfree : NulFree s := by
        rw [nulFree_iff, hchars]
        exact nul_notMem_spell (nulFree_pairsText hdelim.cutting.ne_nul h)
      have hthrough : Through delim false
          ((Entry.ofPair scope commas (key, value)).bytes.text wraps 2) :=
        Entry.through hdelim.passing hdelim.ne huncut'
          (.inr (Entry.unguarded_bytes (key, value) (by decide) (by decide)))
      cases room with
      | zero =>
          refine ⟨[s], .last hs hfree (.inl rfl), .cons ?_ .nil⟩
          exact pairReads_entry blockParse hpair hlater hdelim huncut hspelled hchars
      | succ room =>
          cases pairs with
          | nil =>
              have hsingle : spell (pairsText scope commas wraps 2 delim [(key, value)]) =
                  (Entry.ofPair scope commas (key, value)).bytes.text wraps 2 := by
                rw [← spell_entry hpair, pairsText, dataText, List.map_singleton,
                  List.map_singleton, List.intercalate_singleton]
              have hkept : keptWithin delim (room + 1) [(key, value)] = [(key, value)] :=
                keptWithin_eq (Nat.le_add_left 1 _)
              rw [hkept]
              refine ⟨[s], .last hs hfree (.inr ?_), .cons ?_ .nil⟩
              · rw [hchars, hsingle]
                exact hthrough
              · have hread :=
                  pairReads_entry blockParse hpair hlater hdelim huncut hspelled hchars
                rwa [overfull_nil] at hread
          | cons next pairs =>
              have hcut : chars s = (Entry.ofPair scope commas (key, value)).bytes.text wraps 2 ++
                  delim :: spell (pairsText scope commas wraps 2 delim (next :: pairs)) := by
                rw [hchars, spell_pairsText hdelim.ascii h, spell_pairsText hdelim.ascii hlater,
                  dataText, dataText, List.map_cons, List.map_cons, List.map_cons, List.map_cons,
                  List.intercalate_cons_cons, List.append_assoc, List.singleton_append]
              obtain ⟨first, tail, rfl, hfirst, htail⟩ := chars_eq_append hcut
              obtain ⟨cell, rest, rfl, hcell, hrest⟩ := chars_eq_cons htail
              obtain ⟨hspelled₁, hspelled₂⟩ :=
                hspelled.append (hcell ▸ ne_continuation hdelim.ascii)
              obtain ⟨ps, hpieces, hreads⟩ := ih room (List.cons_ne_nil _ _) hlater hcuts
                (hspelled₂.tail_mono (hcell ▸ hdelim.ascii)) hrest
              have hfirst' : chars first =
                  spell (pairsText scope commas wraps 2 delim [(key, value)]) := by
                rw [hfirst, ← spell_entry hpair, pairsText, dataText, List.map_singleton,
                  List.map_singleton, List.intercalate_singleton]
              have hread := pairReads_entry blockParse hpair
                (fun _ hmem => absurd hmem List.not_mem_nil) hdelim
                (List.forall_mem_singleton.mpr huncut') hspelled₁ hfirst'
              rw [overfull_nil] at hread
              have hne' : first ≠ [] := by
                rintro rfl
                exact Entry.text_ne_nil wraps 2 _ hfirst.symm
              exact ⟨first :: ps, .cut hne' hfree.append_left (hfirst ▸ hthrough) rfl hcell hpieces,
                .cons hread hreads⟩

theorem readable_readingOf (pairs : List (Text × Text)) :
    ∀ read ∈ readingOf pairs, read.effect ≠ .unreadable := by
  intro read hread
  obtain ⟨pair, -, rfl⟩ := List.mem_map.mp hread
  simp

/-- **The data of a block is its pairs, in order.** -/
theorem splitReads_pairs {pairs : List (Text × Text)}
    (h : ∀ pair ∈ pairs, Sendable scope pair.1 pair.2) (hdelim : SplitsPairs delim)
    (huncut : ∀ pair ∈ pairs, (Entry.ofPair scope commas pair).bytes.Uncut delim 2)
    (hspelled : Spelled 0 lo s) {wraps : Bool}
    (hchars : chars s = spell (pairsText scope commas wraps 2 delim pairs)) :
    SplitReads blockParse delim s (readingOf (kept delim pairs)) := by
  by_cases hne : pairs = []
  · subst hne
    obtain rfl : s = [] := List.map_eq_nil_iff.mp hchars
    exact splitReads_nil blockParse hdelim.cutting
  · obtain ⟨ps, hpieces, hreads⟩ := pieces_pairs _ hne h hdelim huncut hspelled hchars
    have hfree : NulFree s := by
      rw [nulFree_iff, hchars]
      exact nul_notMem_spell (nulFree_pairsText hdelim.cutting.ne_nul h)
    exact splitReads_pieces hdelim.cutting hpieces hfree (hchars ▸ headless_spell_pairsText h)
      hreads (readable_readingOf _)

/-- And read so where nothing else is ahead of it. -/
theorem dataReads_pairs {pairs : List (Text × Text)}
    (h : ∀ pair ∈ pairs, Sendable scope pair.1 pair.2) (hdelim : SplitsPairs delim)
    (huncut : ∀ pair ∈ pairs, (Entry.ofPair scope commas pair).bytes.Uncut delim 2)
    (hspelled : Spelled 0 lo s) {wraps : Bool}
    (hchars : chars s = spell (pairsText scope commas wraps 2 delim pairs)) :
    DataReads blockParse delim s (readingOf (kept delim pairs)) :=
  dataReads_headless (hchars ▸ headless_spell_pairsText h)
    (splitReads_pairs h hdelim huncut hspelled hchars)

/-! ### The separator of a block -/

/-- What names the separator of a block. -/
def separatorHead (separator : Option Char) : Text := separator.elim [] fun sep => ['^', '^', sep]

/-- Whether the commas of a block's pairs are escaped. -/
def escapesCommas (separator : Option Char) : Bool := separator.all (· = ',')

/-- The data of a block at a level. -/
def blockText (scope : VariablesType) (separator : Option Char) (wraps : Bool) (level : Nat)
    (pairs : List (Text × Text)) : Text :=
  separatorHead separator ++
    pairsText scope (escapesCommas separator) wraps level (separator.getD ',') pairs

/-- A separator that was chosen for a block: one its scope takes, and that none of the block's texts
holds. -/
structure Chosen (scope : VariablesType) (separator : Option Char) (pairs : List (Text × Text)) :
    Prop where
  checked : ∀ sep ∈ separator, checkSeparator sep scope = .ok ()
  absent : ∀ sep ∈ separator, ∀ pair ∈ pairs, sep ∉ pair.1 ∧ sep ∉ pair.2

theorem chosen_none (scope : VariablesType) (pairs : List (Text × Text)) :
    Chosen scope none pairs :=
  ⟨nofun, nofun⟩

/-- What the check of a separator says. -/
structure Separator (scope : VariablesType) (sep : Char) : Prop where
  splits : SplitsPairs sep
  brackets : sep ≠ scope.delimiters.1 ∧ sep ≠ scope.delimiters.2
  marks : sep ∉ ['^', '$', '{', ' ', '\\', '\'', '\x00']
  pipe : scope = .channel → sep ≠ '|'
  graphic : '!' ≤ sep

theorem separator_of_check {sep : Char} (h : checkSeparator sep scope = .ok ()) :
    Separator scope sep := by
  rw [checkSeparator] at h
  split_ifs at h with hrefused
  obtain ⟨hbreaks, hopener, hcloser, hequals, hcaret, hdollar, hbrace, hpipe⟩ :
      breaksASplit sep = false ∧ sep ≠ scope.delimiters.1 ∧ sep ≠ scope.delimiters.2 ∧
        sep ≠ '=' ∧ sep ≠ '^' ∧ sep ≠ '$' ∧ sep ≠ '{' ∧ ¬ (sep = '|' ∧ scope = .channel) := by
    simpa only [not_or, Bool.not_eq_true] using hrefused
  rw [breaksASplit, Bool.or_eq_false_iff, Bool.not_eq_false', isAsciiGraphic, Bool.and_eq_true,
    decide_eq_true_eq, decide_eq_true_eq] at hbreaks
  obtain ⟨⟨hlow, hhigh⟩, hother⟩ := hbreaks
  have hne : ∀ c : Char, ¬ '!' ≤ c → sep ≠ c := by
    rintro c hc rfl
    exact hc hlow
  simp only [List.contains_cons, List.contains_nil, Bool.or_false, Bool.or_eq_false_iff,
    beq_eq_false_iff_ne] at hother
  obtain ⟨hbackslash, hquote, -, -, -, hs⟩ := hother
  have hnul : sep ≠ '\x00' := hne _ (by decide)
  have hspace : sep ≠ ' ' := hne _ (by decide)
  have hpassing : Passing (some sep) :=
    ⟨by simpa using hbackslash, by simpa using hquote, by simpa using hs, by simpa using hnul⟩
  have hascii : sep.toNat < 128 := lt_of_le_of_lt hhigh (by decide : ('~' : Char).toNat < 128)
  refine ⟨⟨hpassing, Ne.symm hequals, hascii, hspace⟩, ⟨hopener, hcloser⟩, ?_,
    fun hscope heq => hpipe ⟨heq, hscope⟩, hlow⟩
  simp [hcaret, hdollar, hbrace, hspace, hbackslash, hquote, hnul]

/-- The pair split cuts nowhere in a pair that does not hold the separator. -/
theorem Sendable.uncut_absent (h : Sendable scope key value) {sep : Char} (hsep : SplitsPairs sep)
    (habsent : sep ∉ key ∧ sep ∉ value) :
    (Entry.ofPair scope (escapesCommas (some sep)) (key, value)).bytes.Uncut sep 2 := by
  have hlevel : ∀ c, c ≠ sep → c = ',' → ¬ escapesCommas (some sep) = true := by
    rintro c hc rfl hcommas
    exact hc (of_decide_eq_true hcommas).symm
  constructor
  · refine EscapedField.uncut_bytes (fun c hc last hlast => ?_) h.key_free
      (fun hmem => absurd hmem habsent.1) hsep.ascii
    have hne : c ≠ sep := fun heq => habsent.1 (heq ▸ hc)
    simp only [EscapedField.level] at hlast
    split_ifs at hlast with hcomma hcommas hpipe hequals
    · exact absurd hcommas (hlevel c hne hcomma)
    · cases hlast
      simp [hne]
    · cases hlast
      simp [hne]
  · refine EscapedField.uncut_bytes (fun c hc last hlast => ?_) h.value_free
      (fun hmem => absurd hmem habsent.2) hsep.ascii
    have hne : c ≠ sep := fun heq => habsent.2 (heq ▸ hc)
    simp only [EscapedField.level] at hlast
    split_ifs at hlast with hcomma hcommas hpipe
    · exact absurd hcommas (hlevel c hne hcomma)
    · cases hlast
      simp [hne]

/-! ### A block ahead of an endpoint -/

theorem blockSeparator_headless {comma : Char} {x : Text} (h : Headless x) :
    blockSeparator comma x = ',' := by
  unfold blockSeparator
  split
  · exact absurd ⟨rfl, rfl⟩ h
  · exact absurd ⟨rfl, rfl⟩ h
  · rfl

/-- A block and what is behind it, in a buffer. -/
theorem cells_block {opener closer : Char} (hopener : opener.toNat < 128)
    (hcloser : closer.toNat < 128) {data rest : Text} (hspelled : Spelled 0 lo s)
    (hchars : chars s = spell (opener :: (data ++ closer :: rest))) :
    ∃ cell inside close later, s = cell :: (inside ++ close :: later) ∧ cell.char = opener ∧
      close.char = closer ∧ chars inside = spell data ∧ chars later = spell rest ∧
        Spelled 0 lo inside ∧
      Spelled 0 lo later := by
  have hspell : spell (opener :: (data ++ closer :: rest)) = opener ::
      (spell data ++ closer :: spell rest) := by
    rw [spell_cons, utf8Size_ascii hopener, spell_append, spell_cons, utf8Size_ascii hcloser]
    rfl
  rw [hspell] at hchars
  obtain ⟨cell, tail, rfl, hcell, htail⟩ := chars_eq_cons hchars
  obtain ⟨inside, behind, rfl, hinside, hbehind⟩ := chars_eq_append htail
  obtain ⟨close, later, rfl, hclose, hlater⟩ := chars_eq_cons hbehind
  have hspelled := hspelled.tail_mono (hcell ▸ hopener)
  obtain ⟨hfirst, hsecond⟩ := hspelled.append (hclose ▸ ne_continuation hcloser)
  exact ⟨cell, inside, close, later, rfl, hcell, hclose, hinside, hlater, hfirst,
    hsecond.tail_mono (hclose ▸ hcloser)⟩

/-- A block of a scope, as the switch reads it. -/
def blockOf (scope : VariablesType) (pairs : List (Text × Text)) : Block :=
  ⟨scope.delimiters.1, ',', readingOf pairs, false⟩

/-- A block with a separator, as the switch reads it. -/
def separatedBlock (scope : VariablesType) (separator : Option Char) (pairs : List (Text × Text)) :
    Block :=
  { blockOf scope pairs with separator := separator.getD ',' }

/-- Pairs a block carries. -/
structure Fills (scope : VariablesType) (pairs : List (Text × Text)) : Prop where
  sendable : ∀ pair ∈ pairs, Sendable scope pair.1 pair.2

variable {separator : Option Char} {pairs : List (Text × Text)}

theorem separator_getD (hsep : Chosen scope separator pairs) :
    SplitsPairs (separator.getD ',') ∧ separator.getD ',' ≠ scope.delimiters.1 ∧
      separator.getD ',' ≠ scope.delimiters.2 := by
  cases separator with
  | none =>
      refine ⟨splitsPairs_comma, ?_⟩
      cases scope <;> decide
  | some sep =>
      have hseparator := separator_of_check (hsep.checked sep rfl)
      exact ⟨hseparator.splits, hseparator.brackets⟩

theorem nulFree_blockText (h : Fills scope pairs) (hsep : Chosen scope separator pairs)
    (wraps : Bool) (level : Nat) : '\x00' ∉ blockText scope separator wraps level pairs := by
  have hdelim := (separator_getD hsep).1.cutting.ne_nul
  rw [blockText, List.mem_append, not_or]
  refine ⟨?_, nulFree_pairsText hdelim h.sendable⟩
  cases separator with
  | none => simp [separatorHead]
  | some sep =>
      have hne : '\x00' ≠ sep := Ne.symm hdelim
      simp [separatorHead, hne]

/-- **The brackets of a block's data balance.** -/
theorem balanced_blockText (h : Fills scope pairs) (hsep : Chosen scope separator pairs)
    (wraps : Bool) (level : Nat) :
    Balanced scope.delimiters.1 scope.delimiters.2
      (blockText scope separator wraps level pairs) := by
  obtain ⟨-, hopener, hcloser⟩ := separator_getD hsep
  refine Balanced.append ?_ (balanced_pairsText hopener hcloser h.sendable)
  have hcarets : '^' ≠ scope.delimiters.1 ∧ '^' ≠ scope.delimiters.2 := by
    cases scope <;> decide
  cases separator with
  | none => rfl
  | some sep =>
      have hopener' : scope.delimiters.1 ≠ sep := Ne.symm hopener
      have hcloser' : scope.delimiters.2 ≠ sep := Ne.symm hcloser
      refine depthFrom_of_notMem 0 ?_ ?_
      · simp [separatorHead, Ne.symm hcarets.1, hopener']
      · simp [separatorHead, Ne.symm hcarets.2, hcloser']

/-- The separator the switch reads of a block is the one chosen for it. -/
theorem blockSeparator_blockText (h : Fills scope pairs) {comma : Char}
    (hcomma : ∀ sep ∈ separator, sep = comma → comma = ',') {data : Text} {wraps : Bool}
    {level : Nat}
    (hdata : data = spell (blockText scope separator wraps (level + 1) pairs)) :
    blockSeparator comma data = separator.getD ',' := by
  subst hdata
  cases separator with
  | none =>
      exact blockSeparator_headless (headless_spell_pairsText h.sendable)
  | some sep =>
      show (if sep = comma then ',' else sep) = sep
      split_ifs with hsame
      · rw [hsame, hcomma sep rfl hsame]
      · rfl

/-- Data that names its separator is read as its pairs, whatever it is split at else. -/
theorem dataReads_separated {sep comma : Char} (h : Fills scope pairs)
    (hsep : Chosen scope (some sep) pairs) (hspelled : Spelled 0 lo s) {wraps : Bool}
    (hchars : chars s = spell (blockText scope (some sep) wraps 2 pairs)) :
    DataReads blockParse comma s (readingOf (kept sep pairs)) := by
  have hsplits := (separator_of_check (hsep.checked sep rfl)).splits
  have hnamed : chars s = ['^', '^', sep] ++
      spell (pairsText scope (escapesCommas (some sep)) wraps 2 sep pairs) := by
    have hhead : spell ['^', '^', sep] = ['^', '^', sep] :=
      spell_ascii (by simp [hsplits.ascii])
    rw [hchars, blockText, spell_append]
    exact congrArg (· ++ _) hhead
  obtain ⟨head, rest, rfl, hhead, hrest⟩ := chars_eq_append hnamed
  obtain ⟨first, head, rfl, hfirst, hhead⟩ := chars_eq_cons hhead
  obtain ⟨second, head, rfl, hsecond, hhead⟩ := chars_eq_cons hhead
  obtain ⟨third, head, rfl, hthird, hhead⟩ := chars_eq_cons hhead
  obtain rfl := List.map_eq_nil_iff.mp hhead
  have hspelled' : Spelled 0 lo rest :=
    ((hspelled.tail_mono (hfirst ▸ by decide)).tail_mono (hsecond ▸ by decide)).tail_mono
      (hthird ▸ hsplits.ascii)
  refine dataReads_headed (by simp [hfirst, hsecond, hthird])
    (splitReads_pairs h.sendable hsplits (fun pair hpair => ?_) hspelled' hrest)
  exact (h.sendable pair hpair).uncut_absent hsplits (hsep.absent sep rfl pair hpair)

/-- The data of a block outside a leg is read as its pairs. -/
theorem dataReads_block (h : Fills scope pairs) (hscope : scope ≠ .channel)
    (hsep : Chosen scope separator pairs) (hspelled : Spelled 0 lo s) {wraps : Bool}
    (hchars : chars s = spell (blockText scope separator wraps 2 pairs)) :
    DataReads blockParse ',' s (readingOf (kept (separator.getD ',') pairs)) := by
  cases separator with
  | none =>
      exact dataReads_pairs h.sendable splitsPairs_comma
        (fun pair hpair => (h.sendable pair hpair).uncut_comma hscope) hspelled hchars
  | some sep => exact dataReads_separated h hsep hspelled hchars

theorem threads_block {data : Text} (hdata : ¬ enterpriseDelim <:+: data) {endpoint : Text}
    (hp : Trailing endpoint) (scope : VariablesType) (wraps : Bool) (level : Nat) :
    ¬ enterpriseDelim <:+: scope.delimiters.1 :: (data ++
      scope.delimiters.2 :: fieldText wraps level (EscapedField.endpoint.atoms endpoint)) := by
  have hbrackets : scope.delimiters.1 ∉ enterpriseDelim ∧ scope.delimiters.2 ∉ enterpriseDelim := by
    cases scope <;> decide
  intro hwithin
  have hopen : enterpriseDelim <:+: [] ++ scope.delimiters.1 :: (data ++
      scope.delimiters.2 :: fieldText wraps level (EscapedField.endpoint.atoms endpoint)) :=
      hwithin
  rcases Search.infix_append_cons hbrackets.1 hopen with h' | h'
  · exact absurd (List.infix_nil.mp h') (by decide)
  · rcases Search.infix_append_cons hbrackets.2 h' with h' | h'
    · exact hdata h'
    · exact EscapedField.threads_fieldText hp.free hp.threads wraps level h'

/-- A `<>` or `{}` block ahead of an endpoint, in the buffer its parse rewrites. -/
theorem opensBlock_blockText (blockParse : BlockParse) (h : Fills scope pairs)
    (hscope : scope ≠ .channel)
    (hsep : Chosen scope separator pairs) {endpoint : Text} (hp : Trailing endpoint)
    {cells : List Traced} (hordered : Ordered 0 cells) {wraps : Bool}
    (hchars : chars cells = scope.delimiters.1 :: (blockText scope separator wraps 2 pairs ++
      scope.delimiters.2 :: fieldText wraps 2 (EscapedField.endpoint.atoms endpoint))) :
    ∃ cell close nul data rest lo, OpensBlock blockParse scope.delimiters.1 scope.delimiters.2 cells
        cell close nul data rest (readingOf (kept (separator.getD ',') pairs)) ∧
      blockSeparator ',' (chars data) = separator.getD ',' ∧ Spelled 0 lo rest ∧
      chars rest = fieldText wraps 2 (atomBytes (EscapedField.endpoint.atoms endpoint)) := by
  obtain ⟨s, nul, hnul, hspelled, hspell, hnew⟩ := CBuffer.new_ordered hordered
  rw [hchars] at hspell
  have hascii : scope.delimiters.1.toNat < 128 ∧ scope.delimiters.2.toNat < 128 := by
    cases scope <;> decide
  have hfree : NulFree s := by
    have hbrackets : '\x00' ≠ scope.delimiters.1 ∧ '\x00' ≠ scope.delimiters.2 := by
      cases scope <;> decide
    rw [nulFree_iff, hspell]
    refine nul_notMem_spell ?_
    simp only [List.mem_cons, List.mem_append, not_or]
    exact ⟨hbrackets.1, nulFree_blockText h hsep wraps 2, hbrackets.2,
      nulFree_fieldText hp.free wraps 2⟩
  obtain ⟨cell, data, close, rest, rfl, hcell, hclose, hdata, hrest, hspelled, hspelled'⟩ :=
    cells_block hascii.1 hascii.2 hspelled hspell
  have hseparator : blockSeparator ',' (chars data) = separator.getD ',' :=
    blockSeparator_blockText h (fun _ _ _ => rfl) hdata
  have hbalanced : Balanced scope.delimiters.1 scope.delimiters.2 (chars data) := by
    rw [hdata]
    exact (balanced_blockText h hsep wraps 2).spell hascii.1 hascii.2
  have hbehind : ∀ c ∈ (chars rest).head?, c ≠ ' ' ∧ c ≠ '<' ∧ c ≠ '{' := by
    intro c hc
    rw [hrest, head_spell] at hc
    have hc := hp.head_notMem wraps 1 c hc
    simp only [List.mem_cons, not_or] at hc
    exact ⟨hc.1, hc.2.1, hc.2.2.1⟩
  have hahead : ∀ c ∈ (chars cells).head?, c ≠ ' ' := by
    rw [hchars]
    intro c hc
    obtain rfl := Option.some.inj hc
    cases scope <;> decide
  exact ⟨cell, close, nul, data, rest, _, ⟨hnew, hahead, hcell, hclose, hnul, hfree, hbalanced,
    by rw [hseparator]; exact (separator_getD hsep).1.ascii, hbehind,
    dataReads_block h hscope hsep hspelled hdata⟩, hseparator, hspelled',
    by rw [hrest, EscapedField.spell_field hp.free]⟩

/-- What is read of a `<>` or `{}` block ahead of an endpoint. -/
theorem headReads_blockText (blockParse : BlockParse) (h : Fills scope pairs)
    (hscope : scope ≠ .channel) (hsep : Chosen scope separator pairs) {endpoint : Text}
    (hp : Trailing endpoint)
    {cells : List Traced} (hordered : Ordered 0 cells) {wraps : Bool}
    (hchars : chars cells = scope.delimiters.1 :: (blockText scope separator wraps 2 pairs ++
      scope.delimiters.2 :: fieldText wraps 2 (EscapedField.endpoint.atoms endpoint))) :
    ∃ rest lo, HeadReads blockParse cells
        [separatedBlock scope separator (kept (separator.getD ',') pairs)] rest ∧
      Spelled 0 lo rest ∧
      chars rest = fieldText wraps 2 (atomBytes (EscapedField.endpoint.atoms endpoint)) := by
  have hkind : scope.delimiters = ('<', '>') ∨ scope.delimiters = ('{', '}') := by
    cases scope with
    | channel => exact absurd rfl hscope
    | enterprise => exact .inl rfl
    | default => exact .inr rfl
  obtain ⟨cell, close, nul, data, rest, lo, hopens, hseparator, hspelled, hrest⟩ :=
    opensBlock_blockText blockParse h hscope hsep hp hordered hchars
  have hread := headReads_block (hkind.imp id id) hopens
  rw [hseparator] at hread
  exact ⟨rest, lo, hread, hspelled, hrest⟩

/-- **A `<>` or `{}` block ahead of an endpoint is read as its pairs.** -/
theorem dialList_head (h : Fills scope pairs) (hscope : scope ≠ .channel)
    (hsep : Chosen scope separator pairs) {endpoint : Text} (hp : Dialled endpoint)
    {cells : List Traced} (hordered : Ordered 0 cells) {wraps : Bool}
    (hchars : chars cells = scope.delimiters.1 :: (blockText scope separator wraps 2 pairs ++
      scope.delimiters.2 :: fieldText wraps 2 (EscapedField.endpoint.atoms endpoint)))
    (hthreads : ¬ enterpriseDelim <:+: blockText scope separator wraps 2 pairs) (raw : Span)
    (carried : Bool) : ReadsLeg (dialList cells raw carried blockParse)
      [separatedBlock scope separator (kept (separator.getD ',') pairs)] endpoint := by
  obtain ⟨rest, lo, hhead, hspelled, hendpoint⟩ :=
    headReads_blockText blockParse h hscope hsep hp.toTrailing hordered hchars
  refine dialList_reads ?_ (thread_endpoint hp hhead hspelled hendpoint) raw carried
  rw [hchars]
  exact threads_block hthreads hp.toTrailing scope wraps 2

end SwitchPasses
end EslTokio
