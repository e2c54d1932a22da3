import EslTokio.DialString.EndpointGrammar
import EslTokio.SwitchPasses.ChannelText

/-!
# Variables a configuration load accepts

What the checks of a load say of every pair, and that a block whose pairs passed them installs the
same variables again: the parse of a block runs the same checks, in the same order, against the same
earlier names.

* `Variables.Admitted` — what a load accepts; `Accepted` — within the switch's array; `Loaded` —
  split on commas as well.
* `Variables.checkPairs_iff` — the checks of a load, pair by pair and name by name.
* `Variables.Admitted.fills`, `fillsLeg`, `chosen` — its pairs are ones a block carries, and its
  separator one it may be split at.
* `Variables.Admitted.install`, **`fromBlock_separatedBlock`** — the block of admitted variables
  installs them, and a parse of it gives them back without their separator.
* `Variables.fromBlock_loads` — what a parse makes of any block is what a load accepts.
-/

namespace EslTokio

open Library SwitchPasses

/-! ### What the checks say -/

theorem balanced_of_unbalanced {text : Text} {delimiters : Char × Char}
    (h : unbalanced text delimiters = none) :
    Balanced delimiters.1 delimiters.2 text := by
  rw [unbalanced] at h
  cases hdepth : depthFrom delimiters.1 delimiters.2 0 text with
  | none =>
      rw [hdepth] at h
      cases h
  | some depth =>
      cases depth with
      | zero => exact hdepth
      | succ depth =>
          rw [hdepth] at h
          cases h

/-- A key no check refuses. -/
structure CleanKey (scope : VariablesType) (key : Text) : Prop where
  ne : key ≠ []
  threads : splitsIntoThreads key = false
  quotes : scope = .channel → '\'' ∉ key
  balanced : Balanced scope.delimiters.1 scope.delimiters.2 key

theorem cleanKey_of_check {key : Text} {scope : VariablesType} (h : checkKey key scope = .ok ()) :
    CleanKey scope key := by
  rw [checkKey] at h
  have hfault : keyFault key scope = none := by
    cases hfault : keyFault key scope with
    | none => rfl
    | some fault =>
        rw [hfault] at h
        cases h
  unfold keyFault at hfault
  split_ifs at hfault with hempty hbracket hthreads hquote
  refine ⟨hempty, by simpa using hthreads, fun hscope hmem => hquote ⟨hscope, hmem⟩, ?_⟩
  exact balanced_of_unbalanced hfault

/-- A value no check refuses. -/
structure CleanValue (scope : VariablesType) (value : Text) : Prop where
  ne : value ≠ []
  threads : splitsIntoThreads value = false
  quotes : scope = .channel → '\'' ∉ value
  balanced : Balanced scope.delimiters.1 scope.delimiters.2 value

theorem clean_of_check {key value : Text} {scope : VariablesType}
    (h : checkRepresentable key value scope = .ok ()) :
    CleanKey scope key ∧ CleanValue scope value := by
  rw [checkRepresentable, then_ok_iff] at h
  refine ⟨cleanKey_of_check h.1, ?_⟩
  have hfault : valueFault value scope = none := by
    cases hfault : valueFault value scope with
    | none => rfl
    | some fault =>
        have hvalue := h.2
        rw [hfault] at hvalue
        cases hvalue
  unfold valueFault at hfault
  split_ifs at hfault with hthreads hquote hempty
  refine ⟨hempty, by simpa using hthreads, fun hscope hmem => hquote ⟨hscope, hmem⟩, ?_⟩
  exact balanced_of_unbalanced hfault

/-- Names that are equal, or no spellings of one another. -/
def SpeltApart (name key : Text) : Prop := name = key ∨ sameHeader name key = false

theorem checkCaseCollision_iff {earlier : List Text} {key : Text} {index : Nat} :
    checkCaseCollision earlier key index = .ok () ↔ ∀ name ∈ earlier, SpeltApart name key := by
  rw [checkCaseCollision]
  split_ifs with hany
  · refine iff_of_false (fun h => by cases h) fun hall => ?_
    obtain ⟨name, hname, hsame⟩ := List.any_eq_true.mp hany
    simp only [ne_eq, Bool.and_eq_true, decide_eq_true_eq] at hsame
    rcases hall name hname with heq | hfalse
    · exact hsame.1 heq
    · rw [hsame.2] at hfalse
      cases hfalse
  · refine iff_of_true rfl fun name hname => ?_
    simp only [List.any_eq_true, not_exists, not_and, ne_eq, Bool.and_eq_true,
      decide_eq_true_eq] at hany
    by_cases heq : name = key
    · exact .inl heq
    · exact .inr (by simpa using hany name hname heq)

theorem Variables.checkPairs_iff {scope : VariablesType} {earlier : List Text}
    {pairs : List (Text × Text)} :
    Variables.checkPairs scope earlier pairs = .ok () ↔
      (∀ pair ∈ pairs, checkRepresentable pair.1 pair.2 scope = .ok ()) ∧
      (∀ name ∈ earlier, ∀ key ∈ pairs.map Prod.fst, SpeltApart name key) ∧
      (pairs.map Prod.fst).Pairwise SpeltApart := by
  induction pairs generalizing earlier with
  | nil => simp [Variables.checkPairs]
  | cons pair pairs ih =>
      rw [Variables.checkPairs, then_ok_iff, then_ok_iff, checkCaseCollision_iff, ih,
        List.forall_mem_cons, List.map_cons, List.pairwise_cons]
      simp only [List.forall_mem_append, List.forall_mem_singleton, List.forall_mem_cons]
      constructor
      · rintro ⟨hpair, hearlier, hpairs, ⟨hbehind, hkey⟩, hlater⟩
        exact ⟨⟨hpair, hpairs⟩, fun name hname => ⟨hearlier name hname, hbehind name hname⟩,
          hkey, hlater⟩
      · rintro ⟨⟨hpair, hpairs⟩, hearlier, hkey, hlater⟩
        exact ⟨hpair, fun name hname => (hearlier name hname).1, hpairs,
          ⟨fun name hname => (hearlier name hname).2, hkey⟩, hlater⟩

namespace Variables

/-- Variables of a configuration load whose texts hold nothing the switch's buffers give a meaning
of their own. -/
structure Admitted (vars : Variables) : Prop where
  accepted : deserialize vars.scope vars.inner vars.separator = .ok vars
  free : ∀ pair ∈ vars.pairs, '\x00' ∉ pair.1 ∧ '\x00' ∉ pair.2
  hidden : vars.scope = .channel → ∀ pair ∈ vars.pairs, ∀ c ∈ [quotedEscComma, unquotedEscComma],
    c ∉ pair.1 ∧ c ∉ pair.2

/-- Such variables that fit the switch's array. -/
structure Accepted (vars : Variables) : Prop extends Admitted vars where
  length : vars.pairs.length ≤ blockPairs

/-- Such variables in a block that splits on commas. -/
structure Loaded (vars : Variables) : Prop extends Accepted vars where
  commas : vars.separator = none

variable {vars : Variables}

theorem Admitted.checked (h : vars.Admitted) : checkPairs vars.scope [] vars.pairs = .ok () := by
  have haccepted := h.accepted
  unfold deserialize at haccepted
  rw [bind_ok_iff] at haccepted
  obtain ⟨⟨⟩, hchecked, -⟩ := haccepted
  exact hchecked

theorem Admitted.clean (h : vars.Admitted) : ∀ pair ∈ vars.pairs,
    CleanKey vars.scope pair.1 ∧ CleanValue vars.scope pair.2 := fun pair hpair =>
  clean_of_check ((checkPairs_iff.mp h.checked).1 pair hpair)

theorem Admitted.fills (h : vars.Admitted) : Fills vars.scope vars.pairs := by
  refine ⟨fun pair hpair => ?_⟩
  obtain ⟨hkey, hvalue⟩ := h.clean pair hpair
  obtain ⟨hfree, hfree'⟩ := h.free pair hpair
  exact ⟨hkey.ne, hvalue.ne, hfree, hfree', hkey.threads, hvalue.threads, hkey.balanced,
    hvalue.balanced⟩

theorem Admitted.fillsLeg (h : vars.Admitted) (hscope : vars.scope = .channel) :
    FillsLeg vars.pairs := by
  refine ⟨fun pair hpair => ?_⟩
  have hsendable := h.fills.sendable pair hpair
  rw [hscope] at hsendable
  obtain ⟨hkey, hvalue⟩ := h.clean pair hpair
  have hhidden := h.hidden hscope pair hpair
  exact ⟨hsendable, ⟨hkey.quotes hscope, hvalue.quotes hscope⟩, hhidden _ (by simp),
    hhidden _ (by simp)⟩

/-- The separator of admitted variables is one that none of them holds. -/
theorem Admitted.chosen (h : vars.Admitted) : Chosen vars.scope vars.separator vars.pairs := by
  cases hseparator : vars.separator with
  | none => exact chosen_none _ _
  | some sep =>
      have haccepted := h.accepted
      rw [hseparator, deserialize] at haccepted
      obtain ⟨⟨⟩, -, hwith⟩ := bind_ok_iff.mp haccepted
      obtain ⟨⟨⟩, hcheck, hwith⟩ := bind_ok_iff.mp hwith
      split_ifs at hwith with hkeys
      have hkey : ∀ pair ∈ vars.pairs, sep ∉ pair.1 := fun pair hpair hmem =>
        hkeys (List.any_eq_true.mpr ⟨pair, hpair, by simpa using hmem⟩)
      have hvalue : ∀ pair ∈ vars.pairs, sep ∉ pair.2 := by
        intro pair hpair hmem
        cases hfind : vars.pairs.find? fun pair => pair.2.contains sep with
        | none => exact absurd hmem (by simpa using List.find?_eq_none.mp hfind pair hpair)
        | some found =>
            have hrefused := hwith
            rw [show (Variables.pairs ⟨vars.scope, vars.inner, none⟩) = vars.pairs from rfl,
              hfind] at hrefused
            cases hrefused
      constructor
      · rintro other ⟨⟩
        exact hcheck
      · rintro other ⟨⟩ pair hpair
        exact ⟨hkey pair hpair, hvalue pair hpair⟩

/-! ### What the switch installs -/

/-- Distinct names that are no spellings of one another are installed in order. -/
theorem install_checked {scope : VariablesType} {earlier pairs : List (Text × Text)}
    (hcheck : checkPairs scope (earlier.map Prod.fst) pairs = .ok ())
    (hnew : ((earlier ++ pairs).map Prod.fst).Nodup) :
    (readingOf pairs).foldl installPair earlier = earlier ++ pairs := by
  induction pairs generalizing earlier with
  | nil => exact (List.append_nil _).symm
  | cons pair pairs ih =>
      rw [checkPairs, then_ok_iff, then_ok_iff] at hcheck
      obtain ⟨-, hcollision, hlater⟩ := hcheck
      have hkept : ∀ header ∈ earlier, (!sameHeader header.1 pair.1) = true := by
        intro header hheader
        have hne : header.1 ≠ pair.1 := by
          rw [List.map_append, List.nodup_append] at hnew
          exact hnew.2.2 _ (List.mem_map_of_mem hheader) _ List.mem_cons_self
        have hapart := checkCaseCollision_iff.mp hcollision header.1 (List.mem_map_of_mem hheader)
        rw [hapart.resolve_left hne]
        rfl
      have hinstall : installPair earlier ⟨pair.1, .set pair.2⟩ = earlier ++ [pair] := by
        show earlier.filter (fun header => !sameHeader header.1 pair.1) ++ [pair] = _
        rw [List.filter_eq_self.mpr hkept]
      have hpairs : (readingOf pairs).foldl installPair (earlier ++ [pair]) =
          earlier ++ [pair] ++ pairs :=
        ih (by rwa [List.map_append]) (by rwa [← List.append_cons])
      rw [readingOf, List.map_cons, List.foldl_cons, hinstall]
      exact hpairs.trans (List.append_cons _ _ _).symm

/-- The block of admitted variables installs just them, in order. -/
theorem Admitted.install (h : vars.Admitted) :
    install [separatedBlock vars.scope vars.separator vars.pairs] = vars.pairs := by
  have hpairs : (readingOf vars.pairs).foldl installPair [] = vars.pairs :=
    install_checked h.checked vars.inner.nodup
  rwa [SwitchPasses.install, List.flatMap_singleton]

/-! ### The block installs them -/

/-- Pairs that passed the checks of a load pass those of the parse, and are kept in order. -/
theorem fromPairs_checked {scope : VariablesType} {sep : Char} {pairs : List (Text × Text)}
    {inner : IndexMap Text Text}
    (hcheck : checkPairs scope (inner.entries.map Prod.fst) pairs = .ok ())
    (hnew : (inner.entries.map Prod.fst ++ pairs.map Prod.fst).Nodup)
    (habsent : sep ≠ ',' → ∀ pair ∈ pairs, sep ∉ pair.1 ∧ sep ∉ pair.2) :
    ∃ later, fromPairs scope sep inner.entries.length inner (readingOf pairs) = .ok later ∧
      later.entries = inner.entries ++ pairs := by
  induction pairs generalizing inner with
  | nil => exact ⟨inner, rfl, (List.append_nil _).symm⟩
  | cons pair pairs ih =>
      rw [checkPairs, then_ok_iff, then_ok_iff] at hcheck
      obtain ⟨hrepresentable, hcollision, hlater⟩ := hcheck
      have hfresh : pair.1 ∉ inner.entries.map Prod.fst := by
        rw [List.map_cons, List.nodup_append] at hnew
        exact fun hmem => hnew.2.2 _ hmem _ List.mem_cons_self rfl
      have hinsert : (inner.insert pair.1 pair.2).entries = inner.entries ++ [pair] :=
        IndexMap.insertEntry_of_notMem hfresh
      rw [List.length_map] at hcollision
      have hchecked : checkPairs scope ((inner.insert pair.1 pair.2).entries.map Prod.fst) pairs =
          .ok () := by
        rwa [hinsert, List.map_append]
      obtain ⟨later, hfrom, hentries⟩ := ih hchecked (by simpa [hinsert] using hnew)
        fun hsep => (List.forall_mem_cons.mp (habsent hsep)).2
      refine ⟨later, ?_, by rw [hentries, hinsert, List.append_assoc]; rfl⟩
      have hapart : ¬(sep ≠ ',' ∧ (sep ∈ pair.1 ∨ sep ∈ pair.2)) := fun hsep =>
        hsep.2.elim (habsent hsep.1 pair List.mem_cons_self).1
          (habsent hsep.1 pair List.mem_cons_self).2
      rw [hinsert, List.length_append] at hfrom
      rw [readingOf, List.map_cons, fromPairs]
      simp only [effectValue, hrepresentable, hcollision, bind, Except.bind, if_neg hapart]
      exact hfrom

/-- The same variables in a block that splits on commas. -/
def unseparated (vars : Variables) : Variables := { vars with separator := none }

theorem Loaded.unseparated (h : vars.Loaded) : vars.unseparated = vars := by
  rw [Variables.unseparated, ← h.commas]

end Variables

/-- **The block of admitted variables installs them again**, but for their separator. -/
theorem fromBlock_separatedBlock {vars : Variables} (h : vars.Admitted) :
    Variables.fromBlock (separatedBlock vars.scope vars.separator vars.pairs) =
      .ok vars.unseparated := by
  have hscope : (separatedBlock vars.scope vars.separator vars.pairs).scope = vars.scope := by
    rw [separatedBlock, blockOf, Block.scope]
    cases vars.scope <;> rfl
  have hchosen := h.chosen
  have hnamed : vars.separator.getD ',' ≠ ',' →
      vars.separator = some (vars.separator.getD ',') := by
    cases vars.separator with
    | none => exact fun hsep => absurd rfl hsep
    | some sep => exact fun _ => rfl
  have hempty : Variables.checkPairs vars.scope
      ((IndexMap.empty : IndexMap Text Text).entries.map Prod.fst)
      vars.pairs = .ok () := h.checked
  obtain ⟨later, hfrom, hentries⟩ := Variables.fromPairs_checked hempty vars.inner.nodup
    fun hsep => hchosen.absent _ (hnamed hsep)
  have hlater : later = vars.inner := IndexMap.ext hentries
  have hread : Variables.fromPairs vars.scope (vars.separator.getD ',') 0 IndexMap.empty
      (readingOf vars.pairs) = .ok vars.inner := by
    rw [← hlater]
    exact hfrom
  have hpairs : (Variables.fromPairs vars.scope (vars.separator.getD ',') 0 IndexMap.empty
      (readingOf vars.pairs) >>= fun inner => Except.ok ⟨vars.scope, inner, none⟩) =
      Except.ok vars.unseparated := by
    rw [hread]
    rfl
  have hkept : (separatedBlock vars.scope vars.separator vars.pairs).rewritesFollowingText =
      false := rfl
  have hnames : (separatedBlock vars.scope vars.separator vars.pairs).separator =
      vars.separator.getD ',' := rfl
  unfold Variables.fromBlock
  simp only [hscope, hkept, hnames, Bool.false_eq_true, if_false]
  by_cases hsep : vars.separator.getD ',' = ','
  · rw [if_neg (not_not.mpr hsep)]
    exact hpairs
  · rw [if_pos hsep, hchosen.checked _ (hnamed hsep)]
    exact hpairs

theorem fromBlock_blockOf {vars : Variables} (h : vars.Loaded) :
    Variables.fromBlock (blockOf vars.scope vars.pairs) = .ok vars := by
  have hread := fromBlock_separatedBlock h.toAdmitted
  rw [h.commas, h.unseparated] at hread
  exact hread

/-! ### What a parse installs -/

namespace Variables

/-- A pair that passes the checks joins entries that do, in place of one of its name if there is
one. -/
theorem checkPairs_insertEntry {scope : VariablesType} {key value : Text}
    {entries : List (Text × Text)} (hentries : checkPairs scope [] entries = .ok ())
    (hpair : checkRepresentable key value scope = .ok ())
    (hapart : ∀ name ∈ entries.map Prod.fst, SpeltApart name key) :
    checkPairs scope [] (IndexMap.insertEntry key value entries) = .ok () := by
  rw [checkPairs_iff] at hentries ⊢
  obtain ⟨hrepresentable, -, hnames⟩ := hentries
  by_cases hkey : key ∈ entries.map Prod.fst
  · have hkept : (IndexMap.insertEntry key value entries).map Prod.fst = entries.map Prod.fst ∧
        ∀ pair ∈ IndexMap.insertEntry key value entries, pair ∈ entries ∨ pair = (key, value) := by
      clear hrepresentable hnames hapart
      induction entries with
      | nil => cases hkey
      | cons entry rest ih =>
          by_cases hentry : entry.1 = key
          · rw [IndexMap.insertEntry, if_pos hentry]
            refine ⟨by rw [List.map_cons, List.map_cons, hentry], fun pair hmem => ?_⟩
            rcases List.mem_cons.mp hmem with rfl | hmem
            · exact .inr rfl
            · exact .inl (List.mem_cons_of_mem _ hmem)
          · obtain ⟨hsame, hmem⟩ := ih ((List.mem_cons.mp hkey).resolve_left (Ne.symm hentry))
            rw [IndexMap.insertEntry, if_neg hentry, List.map_cons, List.map_cons, hsame]
            refine ⟨rfl, List.forall_mem_cons.mpr ⟨.inl List.mem_cons_self, fun pair hpair => ?_⟩⟩
            exact (hmem pair hpair).imp_left (List.mem_cons_of_mem _)
    refine ⟨fun pair hmem => ?_, List.forall_mem_nil _, hkept.1 ▸ hnames⟩
    rcases hkept.2 pair hmem with hold | rfl
    · exact hrepresentable pair hold
    · exact hpair
  · rw [IndexMap.insertEntry_of_notMem hkey, List.map_append, List.pairwise_append]
    refine ⟨fun pair hmem => ?_, List.forall_mem_nil _, hnames, List.pairwise_singleton _ _,
      fun name hname => ?_⟩
    · rcases List.mem_append.mp hmem with hold | hnew
      · exact hrepresentable pair hold
      · obtain rfl := List.mem_singleton.mp hnew
        exact hpair
    · exact List.forall_mem_singleton.mpr (hapart name hname)

theorem fromPairs_keeps {scope : VariablesType} {separator : Char} {index : Nat}
    {pairs : List Pair} {inner later : IndexMap Text Text}
    (hinner : checkPairs scope [] inner.entries = .ok ())
    (h : fromPairs scope separator index inner pairs = .ok later) :
    checkPairs scope [] later.entries = .ok () := by
  induction pairs generalizing index inner with
  | nil =>
      obtain rfl := Except.ok.inj h
      exact hinner
  | cons pair pairs ih =>
      unfold fromPairs at h
      obtain ⟨value, -, h⟩ := bind_ok_iff.mp h
      obtain ⟨⟨⟩, hpair, h⟩ := bind_ok_iff.mp h
      obtain ⟨⟨⟩, hcollision, h⟩ := bind_ok_iff.mp h
      split at h
      · cases h
      · exact ih (checkPairs_insertEntry hinner hpair (checkCaseCollision_iff.mp hcollision)) h

/-- What a parse makes of a block a load accepts. -/
theorem fromBlock_loads {block : Block} {vars : Variables} (h : fromBlock block = .ok vars) :
    deserialize vars.scope vars.inner vars.separator = .ok vars ∧ vars.separator = none := by
  unfold fromBlock at h
  have hinstalled : ∃ inner, fromPairs block.scope block.separator 0 IndexMap.empty block.pairs =
      .ok inner ∧ (⟨block.scope, inner, none⟩ : Variables) = vars := by
    split at h
    · split at h
      · obtain ⟨⟨⟩, -, h⟩ := bind_ok_iff.mp h
        cases h
      · cases h
    · have hpairs : (do
          let inner ← fromPairs block.scope block.separator 0 IndexMap.empty block.pairs
          return (⟨block.scope, inner, none⟩ : Variables)) = .ok vars := by
        split at h
        · obtain ⟨⟨⟩, -, h⟩ := bind_ok_iff.mp h
          exact h
        · exact h
      obtain ⟨inner, hinner, hvars⟩ := bind_ok_iff.mp hpairs
      exact ⟨inner, hinner, Except.ok.inj hvars⟩
  obtain ⟨inner, hinner, rfl⟩ := hinstalled
  have hchecked := fromPairs_keeps (by rfl) hinner
  refine ⟨?_, rfl⟩
  rw [deserialize, hchecked]
  rfl

end Variables

theorem installedVariables_loads {block : Option Block} {vars : Variables}
    (h : installedVariables block = .ok (some vars)) :
    Variables.deserialize vars.scope vars.inner vars.separator = .ok vars ∧
      vars.separator = none ∧ vars.pairs ≠ [] := by
  cases block with
  | none => cases h
  | some block =>
      obtain ⟨read, hread, hvars⟩ := bind_ok_iff.mp h
      by_cases hempty : read.isEmpty = true
      · rw [if_pos hempty] at hvars
        cases hvars
      · rw [if_neg hempty] at hvars
        obtain rfl : read = vars := Option.some.inj (Except.ok.inj hvars)
        obtain ⟨hload, hseparator⟩ := Variables.fromBlock_loads hread
        exact ⟨hload, hseparator, by simpa [Variables.isEmpty] using hempty⟩

end EslTokio
