import EslTokio.Headers

/-!
# The header store over whole runs

`EslHeaders` of `freeswitch-types/src/variables/esl_headers.rs` under any sequence of `insert`,
`extend` and `remove`: writes store a key in its canonical form, reads and removals take the raw
name and the lowercase aliases.

* `StoreOp`, `runStore` — the calls, and the store they leave.
* `Aliased` — the invariant: every key is canonical, and the aliases are those of the keys.
* `headerStr_eq`, `remove_eq` — what a read and a removal of a name do in such a store.
* **`header_store_law_iff`** — an inserted header is found and removed by the name it was inserted
  under exactly when that name has no underscore or is its own canonical form.
-/

namespace EslTokio

open Library

namespace EslHeaders

/-- Remove a header, by canonical key or by any other casing of it. -/
def remove (headers : EslHeaders) (key : Text) : Option Text × EslHeaders :=
  let canonical :=
    if (headers.map.get? key).isSome = true then some key
    else (caseAliasKey key).bind fun lower => headers.aliases.get? lower
  match canonical with
  | none => (none, headers)
  | some canonical =>
      let aliases :=
        match caseAliasKey canonical with
        | some lower => headers.aliases.shiftRemove lower
        | none => headers.aliases
      (headers.map.get? canonical, ⟨headers.map.shiftRemove canonical, aliases⟩)

/-- Insert headers in turn. -/
def extend (headers : EslHeaders) (pairs : List (Text × Text)) : EslHeaders :=
  pairs.foldl (fun headers pair => headers.insert pair.1 pair.2) headers

end EslHeaders

/-- A call that changes a store. -/
inductive StoreOp where
  | insert (key value : Text)
  | extend (pairs : List (Text × Text))
  | remove (key : Text)
deriving DecidableEq, Repr

/-- The store a call leaves. -/
def StoreOp.apply (headers : EslHeaders) : StoreOp → EslHeaders
  | .insert key value => headers.insert key value
  | .extend pairs => headers.extend pairs
  | .remove key => (headers.remove key).2

/-- The store a run of calls leaves. -/
def runStore (headers : EslHeaders) (ops : List StoreOp) : EslHeaders :=
  ops.foldl StoreOp.apply headers

/-- No key of a call names the entry of `key`. -/
def StoreOp.Spares (key : Text) : StoreOp → Prop
  | .insert other _ => normalizeHeaderKey other ≠ normalizeHeaderKey key
  | .extend pairs => ∀ pair ∈ pairs, normalizeHeaderKey pair.1 ≠ normalizeHeaderKey key
  | .remove other => normalizeHeaderKey other ≠ normalizeHeaderKey key

/-- A name that reads resolve as writes do: without an underscore, or in its canonical form. -/
def Resolves (key : Text) : Prop := '_' ∉ key ∨ normalizeHeaderKey key = key

instance (key : Text) : Decidable (Resolves key) := inferInstanceAs (Decidable (_ ∨ _))

/-! ### Spellings of one name -/

theorem toLower_eq_iff (c : Char) :
    (c = '_' ↔ c.toLower = '_') ∧ (c = '-' ↔ c.toLower = '-') ∧ c.toLower.toUpper = c.toUpper ∧
      (Utf8.encode [c.toLower]).map lowerByte = (Utf8.encode [c]).map lowerByte := by
  obtain ⟨hmem, -, -, -, hbytes⟩ := caseMap_eq_iff c
  refine ⟨(hmem '_' (by simp)).2.symm, (hmem '-' (by simp)).2.symm, ?_, hbytes⟩
  induction c using char_cases with
  | hascii n hn =>
      revert n
      decide +kernel
  | hother c hc => rw [toLower_of_not_ascii hc]

theorem underscore_mem_lower (key : Text) : '_' ∈ Text.toAsciiLowercase key ↔ '_' ∈ key := by
  simp only [Text.toAsciiLowercase, List.mem_map]
  constructor
  · rintro ⟨c, hc, hlower⟩
    exact (toLower_eq_iff c).1.mpr hlower ▸ hc
  · intro h
    exact ⟨'_', h, (toLower_eq_iff '_').1.mp rfl⟩

theorem titleCaseFrom_lower (capitalizeNext : Bool) (key : Text) :
    titleCaseFrom capitalizeNext (Text.toAsciiLowercase key) =
      titleCaseFrom capitalizeNext key := by
  induction key generalizing capitalizeNext with
  | nil => rfl
  | cons c key ih =>
      obtain ⟨-, hdash, hupper, -⟩ := toLower_eq_iff c
      have hlower := (caseMap_eq_iff c).2.2.1
      show titleCaseFrom capitalizeNext (c.toLower :: Text.toAsciiLowercase key) = _
      by_cases hc : c = '-'
      · rw [titleCaseFrom, titleCaseFrom, if_pos (hdash.mp hc), if_pos hc, ih]
      · rw [titleCaseFrom, titleCaseFrom, if_neg fun h => hc (hdash.mpr h), if_neg hc,
          hupper, hlower, ih]

theorem encode_lower (key : Text) :
    Utf8.encode (Text.toAsciiLowercase key) = (Utf8.encode key).map lowerByte := by
  have hcons : ∀ (c : Char) (rest : Text), Utf8.encode (c :: rest) =
      Utf8.encode [c] ++ Utf8.encode rest := fun c rest => Utf8.encode_append [c] rest
  have hchar : ∀ c : Char, Utf8.encode [c.toLower] = (Utf8.encode [c]).map lowerByte := by
    intro c
    induction c using char_cases with
    | hascii n hn =>
        revert n
        decide +kernel
    | hother c hc =>
        rw [toLower_of_not_ascii hc]
        have hbytes : ∀ b ∈ Utf8.encode [c], lowerByte b = b := by
          intro b hb
          have hle := Utf8.le_of_mem_utf8EncodeChar hc (by simpa [Utf8.encode] using hb)
          rw [lowerByte, if_neg]
          simp only [Bool.and_eq_true, decide_eq_true_eq, UInt8.le_iff_toNat_le, not_and, not_le]
          intro _
          exact Nat.lt_of_lt_of_le (by decide) hle
        exact ((List.map_congr_left hbytes).trans (List.map_id _)).symm
  induction key with
  | nil => rfl
  | cons c key ih =>
      show Utf8.encode (c.toLower :: Text.toAsciiLowercase key) = _
      rw [hcons, hcons c key, List.map_append, ih, hchar]

theorem lower_bytes (key : Text) :
    (Utf8.encode (Text.toAsciiLowercase key)).map lowerByte = (Utf8.encode key).map lowerByte := by
  have hidem : ∀ b : UInt8, lowerByte (lowerByte b) = lowerByte b := by
    have hbyte : ∀ n < 256, lowerByte (lowerByte (UInt8.ofNat n)) = lowerByte (UInt8.ofNat n) := by
      decide +kernel
    intro b
    have hb := hbyte b.toNat b.toNat_lt
    rwa [UInt8.ofNat_toNat] at hb
  rw [encode_lower, List.map_map]
  exact List.map_congr_left fun b _ => hidem b

/-- The canonical form of a name without an underscore is that of its lowercase. -/
theorem normalizeHeaderKey_lower {key : Text} (h : '_' ∉ key) :
    normalizeHeaderKey (Text.toAsciiLowercase key) = normalizeHeaderKey key := by
  have hlower : '_' ∉ Text.toAsciiLowercase key :=
    fun hmem => h ((underscore_mem_lower key).mp hmem)
  rw [normalizeHeaderKey, normalizeHeaderKey, parseEventHeader_congr (lower_bytes key)]
  simp only [caseAliasKey, if_neg h, if_neg hlower, titleCaseDashes, titleCaseFrom_lower]

/-- Names without an underscore that differ in case only have one canonical form. -/
theorem normalizeHeaderKey_congr {left right : Text} (hleft : '_' ∉ left)
    (h : Text.toAsciiLowercase left = Text.toAsciiLowercase right) :
    normalizeHeaderKey left = normalizeHeaderKey right := by
  have hright : '_' ∉ right := by
    rw [← underscore_mem_lower, ← h, underscore_mem_lower]
    exact hleft
  rw [← normalizeHeaderKey_lower hleft, h, normalizeHeaderKey_lower hright]

theorem encode_injective {left right : Text} (h : Utf8.encode left = Utf8.encode right) :
    left = right := by
  have hdecode := Utf8.decode_encode left
  rw [h, Utf8.decode_encode right] at hdecode
  exact (Except.ok.inj hdecode).symm

theorem lower_titleCaseFrom (capitalizeNext : Bool) (key : Text) :
    Text.toAsciiLowercase (titleCaseFrom capitalizeNext key) = Text.toAsciiLowercase key := by
  apply encode_injective
  rw [encode_lower, encode_lower, lower_encode_titleCaseFrom]

/-- The canonical form keeps the lowercase of a name. -/
theorem lower_normalizeHeaderKey (key : Text) :
    Text.toAsciiLowercase (normalizeHeaderKey key) = Text.toAsciiLowercase key := by
  rw [normalizeHeaderKey]
  cases hparse : parseEventHeader key with
  | some name =>
      obtain ⟨found, hfound, rfl⟩ := Option.map_eq_some_iff.mp hparse
      have hmatch := List.find?_some hfound
      have hsame := (eqIgnoreAsciiCase_iff _ _).mp hmatch
      apply encode_injective
      rw [encode_lower, encode_lower, hsame, encode_toList]
  | none =>
      dsimp only
      cases caseAliasKey key with
      | none => rfl
      | some lower => exact lower_titleCaseFrom true key

theorem underscore_mem_normalize (key : Text) : '_' ∈ normalizeHeaderKey key ↔ '_' ∈ key := by
  rw [← underscore_mem_lower, lower_normalizeHeaderKey, underscore_mem_lower]

/-! ### The invariant -/

/-- The alias of an entry: its lowercase, for a key without an underscore. -/
def aliasEntry (entry : Text × Text) : Option (Text × Text) :=
  (caseAliasKey entry.1).map fun lower => (lower, entry.1)

/-- Every key is canonical, and the aliases are exactly those of the keys, in their order. -/
structure Aliased (headers : EslHeaders) : Prop where
  canonical : ∀ key ∈ headers.map.entries.map Prod.fst, normalizeHeaderKey key = key
  aliases : headers.aliases.entries = headers.map.entries.filterMap aliasEntry

/-- Writing a canonical key writes its alias, and no other key has that alias. -/
theorem filterMap_insertEntry {key value lower : Text} (hkey : normalizeHeaderKey key = key)
    (hlower : caseAliasKey key = some lower) {entries : List (Text × Text)}
    (hentries : ∀ other ∈ entries.map Prod.fst, normalizeHeaderKey other = other) :
    (IndexMap.insertEntry key value entries).filterMap aliasEntry =
      IndexMap.insertEntry lower key (entries.filterMap aliasEntry) := by
  have hnew : ∀ v, aliasEntry (key, v) = some (lower, key) := fun v => by simp [aliasEntry, hlower]
  induction entries with
  | nil => simp [IndexMap.insertEntry, hnew]
  | cons entry rest ih =>
      rw [List.map_cons] at hentries
      obtain ⟨hentry, hrest⟩ := List.forall_mem_cons.mp hentries
      by_cases hsame : entry.1 = key
      · have halias : aliasEntry entry = some (lower, key) := by
          rw [← hnew entry.2, ← hsame]
        rw [IndexMap.insertEntry, if_pos hsame, List.filterMap_cons, List.filterMap_cons,
          hnew, halias]
        simp [IndexMap.insertEntry]
      · have hother : ∀ found ∈ aliasEntry entry, found.1 ≠ lower := by
          rintro ⟨found, owner⟩ hfound rfl
          simp only [aliasEntry, caseAliasKey, Option.mem_def, Option.map_eq_some_iff] at hfound
          obtain ⟨lowered, hlowered, hpair⟩ := hfound
          obtain ⟨rfl, rfl⟩ := Prod.mk.inj hpair
          rw [caseAliasKey] at hlower
          split_ifs at hlowered hlower with hunderscore
          obtain rfl := Option.some.inj hlowered
          have hcongr := normalizeHeaderKey_congr hunderscore (Option.some.inj hlower).symm
          exact hsame (by rw [← hentry, hcongr, hkey])
        rw [IndexMap.insertEntry, if_neg hsame, List.filterMap_cons, List.filterMap_cons,
          ih hrest]
        cases halias : aliasEntry entry with
        | none => rfl
        | some found => simp [IndexMap.insertEntry, hother found halias]

/-- Writing a key with an underscore writes no alias. -/
theorem filterMap_insertEntry_none {key value : Text} (hkey : caseAliasKey key = none)
    (entries : List (Text × Text)) :
    (IndexMap.insertEntry key value entries).filterMap aliasEntry =
    entries.filterMap aliasEntry := by
  have hnone : ∀ v, aliasEntry (key, v) = none := fun v => by simp [aliasEntry, hkey]
  induction entries with
  | nil => simp [IndexMap.insertEntry, hnone]
  | cons entry rest ih =>
      by_cases hsame : entry.1 = key
      · have halias : aliasEntry entry = none := by
          rw [← hnone entry.2, ← hsame]
        rw [IndexMap.insertEntry, if_pos hsame, List.filterMap_cons, List.filterMap_cons,
          hnone, halias]
      · rw [IndexMap.insertEntry, if_neg hsame, List.filterMap_cons, List.filterMap_cons, ih]

namespace Aliased

theorem new : Aliased EslHeaders.new := ⟨by simp [EslHeaders.new, IndexMap.empty], rfl⟩

theorem insert {headers : EslHeaders} (h : Aliased headers) (key value : Text) :
    Aliased (headers.insert key value) := by
  have hkey := normalizeHeaderKey_idem key
  refine ⟨?_, ?_⟩
  · intro other hother
    rcases IndexMap.mem_map_fst_insertEntry.mp hother with rfl | hother
    · exact hkey
    · exact h.canonical other hother
  · rw [EslHeaders.insert]
    dsimp only
    cases hlower : caseAliasKey (normalizeHeaderKey key) with
    | some lower =>
        show IndexMap.insertEntry lower _ headers.aliases.entries = _
        rw [h.aliases]
        exact (filterMap_insertEntry hkey hlower h.canonical).symm
    | none =>
        show headers.aliases.entries = _
        rw [h.aliases]
        exact (filterMap_insertEntry_none hlower _).symm

theorem extend {headers : EslHeaders} (h : Aliased headers) (pairs : List (Text × Text)) :
    Aliased (headers.extend pairs) := by
  induction pairs generalizing headers with
  | nil => exact h
  | cons pair pairs ih => exact ih (h.insert pair.1 pair.2)

/-- The alias of a name without an underscore leads to the entry it names. -/
theorem get?_aliases {headers : EslHeaders} (h : Aliased headers) {key : Text} (hkey : '_' ∉ key) :
    headers.aliases.get? (Text.toAsciiLowercase key) =
      if (headers.map.get? (normalizeHeaderKey key)).isSome = true then
        some (normalizeHeaderKey key) else none := by
  have hentries : ∀ entries : List (Text × Text),
      (∀ other ∈ entries.map Prod.fst, normalizeHeaderKey other = other) →
      ((entries.filterMap aliasEntry).find? (·.1 = Text.toAsciiLowercase key)).map Prod.snd =
        if ((entries.find? (·.1 = normalizeHeaderKey key)).map Prod.snd).isSome = true then
          some (normalizeHeaderKey key) else none := by
    intro entries hcanonical
    induction entries with
    | nil => rfl
    | cons entry rest ih =>
        rw [List.map_cons] at hcanonical
        obtain ⟨hentry, hrest⟩ := List.forall_mem_cons.mp hcanonical
        have hlater := ih hrest
        by_cases hsame : entry.1 = normalizeHeaderKey key
        · have hunderscore : '_' ∉ entry.1 := by
            rw [hsame, underscore_mem_normalize]
            exact hkey
          have halias : aliasEntry entry = some
              (Text.toAsciiLowercase key, normalizeHeaderKey key) := by
            rw [aliasEntry, caseAliasKey, if_neg hunderscore, Option.map_some, hsame,
              lower_normalizeHeaderKey]
          rw [List.filterMap_cons, halias]
          simp [hsame]
        · have hother : ∀ found ∈ aliasEntry entry, found.1 ≠ Text.toAsciiLowercase key := by
            rintro ⟨found, owner⟩ hfound hlower
            simp only [aliasEntry, caseAliasKey, Option.mem_def, Option.map_eq_some_iff] at hfound
            obtain ⟨lowered, hlowered, hpair⟩ := hfound
            obtain ⟨rfl, rfl⟩ := Prod.mk.inj hpair
            split_ifs at hlowered with hunderscore
            obtain rfl := Option.some.inj hlowered
            exact hsame (by rw [← hentry, normalizeHeaderKey_congr hunderscore hlower])
          rw [List.filterMap_cons, List.find?_cons_of_neg (by simp [hsame])]
          cases halias : aliasEntry entry with
          | none => exact hlater
          | some found =>
              dsimp only
              rw [List.find?_cons_of_neg (by simp [hother found halias])]
              exact hlater
  rw [IndexMap.get?, h.aliases]
  exact hentries headers.map.entries h.canonical

/-- A stored name is canonical. -/
theorem canonical_of_get? {headers : EslHeaders} (h : Aliased headers) {key value : Text}
    (hget : headers.map.get? key = some value) : normalizeHeaderKey key = key :=
  h.canonical key (IndexMap.mem_keys_of_get? hget)

end Aliased

/-- **What a read finds: the entry a name stands for, when the name resolves.** -/
theorem headerStr_eq {headers : EslHeaders} (h : Aliased headers) (key : Text) :
    headers.headerStr key =
      if Resolves key then headers.map.get? (normalizeHeaderKey key) else none := by
  rw [EslHeaders.headerStr]
  cases hget : headers.map.get? key with
  | some value =>
      have hcanonical := h.canonical_of_get? hget
      rw [if_pos (.inr hcanonical), hcanonical, hget]
  | none =>
      dsimp only
      by_cases hunderscore : '_' ∈ key
      · rw [caseAliasKey, if_pos hunderscore, Option.bind_none]
        split_ifs with hresolves
        · rw [hresolves.resolve_left fun hno => hno hunderscore, hget]
        · rfl
      · rw [caseAliasKey, if_neg hunderscore, Option.bind_some, if_pos (.inl hunderscore),
          h.get?_aliases hunderscore]
        cases hfound : headers.map.get? (normalizeHeaderKey key) with
        | none => rfl
        | some value => simp [hfound]

/-- The entry of a canonical key and its alias, gone. -/
def EslHeaders.without (headers : EslHeaders) (canonical : Text) : EslHeaders :=
  ⟨headers.map.shiftRemove canonical,
    match caseAliasKey canonical with
    | some lower => headers.aliases.shiftRemove lower
    | none => headers.aliases⟩

/-- **What a removal does: the entry a name stands for goes, when the name resolves.** -/
theorem remove_eq {headers : EslHeaders} (h : Aliased headers) (key : Text) :
    headers.remove key = (headers.headerStr key,
      if (headers.headerStr key).isSome = true then headers.without (normalizeHeaderKey key)
      else headers) := by
  rw [headerStr_eq h, EslHeaders.remove]
  by_cases hstored : (headers.map.get? key).isSome = true
  · obtain ⟨value, hvalue⟩ := Option.isSome_iff_exists.mp hstored
    have hcanonical := h.canonical_of_get? hvalue
    have hresolves : Resolves key := .inr hcanonical
    simp only [hstored, if_true, if_pos hresolves, hcanonical]
    rfl
  · have hnone : headers.map.get? key = none := by simpa using hstored
    by_cases hunderscore : '_' ∈ key
    · simp only [hnone, Option.isSome_none, Bool.false_eq_true, if_false, caseAliasKey, hunderscore,
        if_true, Option.bind_none]
      by_cases hresolves : Resolves key
      · rw [if_pos hresolves, hresolves.resolve_left fun hno => hno hunderscore, hnone]
        rfl
      · rw [if_neg hresolves]
        rfl
    · have hresolves : Resolves key := .inl hunderscore
      simp only [hnone, Option.isSome_none, Bool.false_eq_true, if_false, caseAliasKey, hunderscore,
        Option.bind_some, h.get?_aliases hunderscore, if_pos hresolves]
      by_cases hfound : (headers.map.get? (normalizeHeaderKey key)).isSome = true
      · simp only [hfound, if_true]
        rfl
      · have hempty : headers.map.get? (normalizeHeaderKey key) = none := by simpa using hfound
        simp [hempty]

theorem Aliased.without {headers : EslHeaders} (h : Aliased headers) {key : Text}
    (hkey : normalizeHeaderKey key = key) : Aliased (headers.without key) := by
  have hsublist : (headers.map.shiftRemove key).entries.Sublist headers.map.entries :=
    List.filter_sublist
  refine ⟨fun other hother => h.canonical other ((hsublist.map Prod.fst).subset hother), ?_⟩
  have hfilter : (headers.map.entries.filter fun entry => entry.1 ≠ key).filterMap aliasEntry =
      (headers.map.entries.filterMap aliasEntry).filter fun found => found.2 ≠ key := by
    rw [List.filter_filterMap, List.filterMap_filter]
    refine List.filterMap_congr fun entry _ => ?_
    cases hlower : caseAliasKey entry.1 with
    | none => simp [aliasEntry, hlower]
    | some lower =>
        by_cases hsame : entry.1 = key
        · subst hsame
          simp [aliasEntry, hlower, Option.filter]
        · simp [aliasEntry, hlower, hsame, Option.filter]
  rw [EslHeaders.without]
  cases hlower : caseAliasKey key with
  | none =>
      show headers.aliases.entries = _
      rw [h.aliases]
      refine (hfilter.trans ?_).symm
      refine List.filter_eq_self.mpr fun found hfound => ?_
      obtain ⟨entry, hentry, halias⟩ := List.mem_filterMap.mp hfound
      simp only [aliasEntry, Option.map_eq_some_iff] at halias
      obtain ⟨lower, hlowered, rfl⟩ := halias
      simp only [ne_eq, decide_not, Bool.not_eq_true', decide_eq_false_iff_not]
      intro heq
      rw [heq, hlower] at hlowered
      cases hlowered
  | some lower =>
      show headers.aliases.entries.filter _ = _
      rw [h.aliases]
      refine (hfilter.trans ?_).symm
      refine List.filter_congr fun found hfound => ?_
      obtain ⟨entry, hentry, halias⟩ := List.mem_filterMap.mp hfound
      simp only [aliasEntry, Option.map_eq_some_iff] at halias
      obtain ⟨lowered, hlowered, rfl⟩ := halias
      have hcanonical := h.canonical entry.1 (List.mem_map_of_mem hentry)
      have hiff : entry.1 = key ↔ lowered = lower := by
        constructor
        · intro heq
          rw [heq, hlower] at hlowered
          exact (Option.some.inj hlowered).symm
        · intro heq
          rw [caseAliasKey] at hlowered hlower
          split_ifs at hlowered hlower with hunderscore
          have hsame := (Option.some.inj hlowered).trans (heq.trans (Option.some.inj hlower).symm)
          rw [← hcanonical, normalizeHeaderKey_congr hunderscore hsame, hkey]
      simp [hiff]

/-- Every call keeps the invariant. -/
theorem Aliased.apply {headers : EslHeaders} (h : Aliased headers) (op : StoreOp) :
    Aliased (op.apply headers) := by
  cases op with
  | insert key value => exact h.insert key value
  | extend pairs => exact h.extend pairs
  | remove key =>
      rw [StoreOp.apply, remove_eq h]
      dsimp only
      split_ifs
      · exact h.without (normalizeHeaderKey_idem key)
      · exact h

/-- Every run keeps the invariant. -/
theorem Aliased.runStore {headers : EslHeaders} (h : Aliased headers) (ops : List StoreOp) :
    Aliased (runStore headers ops) := by
  induction ops generalizing headers with
  | nil => exact h
  | cons op ops ih => exact ih (h.apply op)

/-! ### What a call leaves of the other entries -/

theorem get?_map_insert (headers : EslHeaders) (key value other : Text) :
    (headers.insert key value).map.get? other =
      if other = normalizeHeaderKey key then some value else headers.map.get? other :=
  IndexMap.get?_insert _ _ _ _

/-- An insertion leaves the entry of every other name. -/
theorem headerStr_insert {headers : EslHeaders} (h : Aliased headers) {key other : Text}
    (hother : normalizeHeaderKey other ≠ normalizeHeaderKey key) (value : Text) :
    (headers.insert key value).headerStr other = headers.headerStr other := by
  rw [headerStr_eq (h.insert key value), headerStr_eq h, get?_map_insert, if_neg hother]

theorem headerStr_extend {headers : EslHeaders} (h : Aliased headers) {key : Text}
    {pairs : List (Text × Text)}
    (hpairs : ∀ pair ∈ pairs, normalizeHeaderKey pair.1 ≠ normalizeHeaderKey key) :
    (headers.extend pairs).headerStr key = headers.headerStr key := by
  induction pairs generalizing headers with
  | nil => rfl
  | cons pair pairs ih =>
      obtain ⟨hpair, hpairs⟩ := List.forall_mem_cons.mp hpairs
      show ((headers.insert pair.1 pair.2).extend pairs).headerStr key = _
      rw [ih (h.insert pair.1 pair.2) hpairs, headerStr_insert h (Ne.symm hpair)]

/-- A removal leaves the entry of every other name. -/
theorem headerStr_remove {headers : EslHeaders} (h : Aliased headers) {key other : Text}
    (hother : normalizeHeaderKey other ≠ normalizeHeaderKey key) :
    (headers.remove key).2.headerStr other = headers.headerStr other := by
  rw [remove_eq h]
  dsimp only
  split_ifs
  · rw [headerStr_eq (h.without (normalizeHeaderKey_idem key)), headerStr_eq h]
    show (if _ then (headers.map.shiftRemove _).get? _ else none) = _
    rw [IndexMap.get?_shiftRemove, if_neg hother]
  · rfl

/-- A name is gone once it is removed. -/
theorem headerStr_remove_self {headers : EslHeaders} (h : Aliased headers) (key : Text) :
    (headers.remove key).2.headerStr key = none := by
  rw [remove_eq h]
  dsimp only
  split_ifs with hfound
  · rw [headerStr_eq (h.without (normalizeHeaderKey_idem key))]
    show (if _ then (headers.map.shiftRemove _).get? _ else none) = _
    rw [IndexMap.get?_shiftRemove, if_pos rfl, ite_self]
  · simpa using hfound

/-- A run that spares a name leaves what is read for it. -/
theorem headerStr_runStore {headers : EslHeaders} (h : Aliased headers) {key : Text}
    {ops : List StoreOp} (hops : ∀ op ∈ ops, op.Spares key) :
    (runStore headers ops).headerStr key = headers.headerStr key := by
  induction ops generalizing headers with
  | nil => rfl
  | cons op ops ih =>
      obtain ⟨hop, hops⟩ := List.forall_mem_cons.mp hops
      show (runStore (op.apply headers) ops).headerStr key = _
      rw [ih (h.apply op) hops]
      cases op with
      | insert other value => exact headerStr_insert h (Ne.symm hop) value
      | extend pairs => exact headerStr_extend h hop
      | remove other => exact headerStr_remove h (Ne.symm hop)

/-! ### The law of the store -/

/-- The aliases are exactly the map from the lowercase of each stored key without an underscore to
that key. -/
def AliasesExact (headers : EslHeaders) : Prop :=
  ∀ lower key, headers.aliases.get? lower = some key ↔
    (headers.map.get? key).isSome = true ∧ caseAliasKey key = some lower

/-- Names without an underscore that differ in case only name one entry: they have one canonical
form, a write to one is read back through the other, and the store holds at most one of their
spellings. -/
def OneEntryPerName (headers : EslHeaders) : Prop :=
  ∀ left right, '_' ∉ left → Text.toAsciiLowercase left = Text.toAsciiLowercase right →
    normalizeHeaderKey left = normalizeHeaderKey right ∧
    headers.headerStr left = headers.headerStr right ∧
    (∀ value, (headers.insert left value).headerStr right = some value) ∧
    ∀ key other, (headers.map.get? key).isSome = true → (headers.map.get? other).isSome = true →
      Text.toAsciiLowercase key = Text.toAsciiLowercase left →
      Text.toAsciiLowercase other = Text.toAsciiLowercase left → key = other

/-- No write or removal of a name changes what is read for a name of another entry. -/
def OtherEntriesKept (headers : EslHeaders) : Prop :=
  ∀ key other value, normalizeHeaderKey other ≠ normalizeHeaderKey key →
    (headers.insert key value).headerStr other = headers.headerStr other ∧
      (headers.remove key).2.headerStr other = headers.headerStr other

/-- A value is read and removed under a name, and nothing is left under it. -/
def FoundAndRemoved (headers : EslHeaders) (key value : Text) : Prop :=
  headers.headerStr key = some value ∧ (headers.remove key).1 = some value ∧
    (headers.remove key).2.headerStr key = none

theorem Aliased.aliasesExact {headers : EslHeaders} (h : Aliased headers) :
    AliasesExact headers := by
  intro lower key
  constructor
  · intro hget
    have hmem : (lower, key) ∈ headers.aliases.entries := by
      obtain ⟨⟨found, owner⟩, hfound, rfl⟩ := Option.map_eq_some_iff.mp hget
      obtain rfl : found = lower := by simpa using List.find?_some hfound
      exact List.mem_of_find?_eq_some hfound
    rw [h.aliases] at hmem
    obtain ⟨entry, hentry, halias⟩ := List.mem_filterMap.mp hmem
    simp only [aliasEntry, Option.map_eq_some_iff] at halias
    obtain ⟨lowered, hlowered, hpair⟩ := halias
    obtain ⟨rfl, rfl⟩ := Prod.mk.inj hpair
    refine ⟨?_, hlowered⟩
    rw [IndexMap.get?, Option.isSome_map, List.find?_isSome]
    exact ⟨entry, hentry, by simp⟩
  · rintro ⟨hstored, hlower⟩
    obtain ⟨value, hvalue⟩ := Option.isSome_iff_exists.mp hstored
    have hcanonical := h.canonical_of_get? hvalue
    rw [caseAliasKey] at hlower
    split_ifs at hlower with hunderscore
    obtain rfl := Option.some.inj hlower
    rw [h.get?_aliases hunderscore, hcanonical, if_pos hstored]

theorem Aliased.oneEntryPerName {headers : EslHeaders} (h : Aliased headers) :
    OneEntryPerName headers := by
  intro left right hleft hsame
  have hright : '_' ∉ right := by
    rw [← underscore_mem_lower, ← hsame, underscore_mem_lower]
    exact hleft
  have hnormal := normalizeHeaderKey_congr hleft hsame
  refine ⟨hnormal, ?_, fun value => ?_, fun key other hkey hother hlower hlower' => ?_⟩
  · rw [headerStr_eq h, headerStr_eq h, if_pos (.inl hleft), if_pos (.inl hright), hnormal]
  · rw [headerStr_eq (h.insert left value), if_pos (.inl hright), get?_map_insert,
      if_pos hnormal.symm]
  · have hcanonical : ∀ name, (headers.map.get? name).isSome = true →
        Text.toAsciiLowercase name = Text.toAsciiLowercase left →
        name = normalizeHeaderKey left := by
      intro name hstored hname
      obtain ⟨value, hvalue⟩ := Option.isSome_iff_exists.mp hstored
      rw [normalizeHeaderKey_congr hleft hname.symm, h.canonical_of_get? hvalue]
    rw [hcanonical key hkey hlower, hcanonical other hother hlower']

/-- What a store makes of a name it was written under, once calls that spare the name have followed.
-/
theorem headerStr_inserted (before later : List StoreOp) (key value : Text)
    (hlater : ∀ op ∈ later, op.Spares key) :
    (runStore EslHeaders.new (before ++ .insert key value :: later)).headerStr key =
      if Resolves key then some value else none := by
  have hinserted := (Aliased.new.runStore before).insert key value
  have hsplit : runStore EslHeaders.new (before ++ .insert key value :: later) =
      runStore ((runStore EslHeaders.new before).insert key value) later := by
    rw [runStore, List.foldl_append]
    rfl
  rw [hsplit, headerStr_runStore hinserted hlater, headerStr_eq hinserted, get?_map_insert,
    if_pos rfl]

/-- **The law of the header store.** After every run the aliases are exact, names of one entry agree
and other entries are kept; and an inserted value is found and removed under its name, until a call
names its entry again, exactly when the name has no underscore or is spelled canonically. -/
theorem header_store_law_iff (ops : List StoreOp) :
    (AliasesExact (runStore EslHeaders.new ops) ∧ OneEntryPerName (runStore EslHeaders.new ops) ∧
      OtherEntriesKept (runStore EslHeaders.new ops)) ∧
    ∀ (later : List StoreOp) (key value : Text), (∀ op ∈ later, op.Spares key) →
      (FoundAndRemoved (runStore EslHeaders.new (ops ++ .insert key value :: later)) key value ↔
        '_' ∉ key ∨ normalizeHeaderKey key = key) := by
  constructor
  · have hstore : Aliased (runStore EslHeaders.new ops) := Aliased.new.runStore ops
    exact ⟨hstore.aliasesExact, hstore.oneEntryPerName, fun key other value hother =>
      ⟨headerStr_insert hstore hother value, headerStr_remove hstore hother⟩⟩
  · intro later key value hlater
    have hstore : Aliased (runStore EslHeaders.new (ops ++ .insert key value :: later)) :=
      Aliased.new.runStore _
    show _ ↔ Resolves key
    rw [FoundAndRemoved, headerStr_remove_self hstore, remove_eq hstore,
      headerStr_inserted ops later key value hlater]
    by_cases hresolves : Resolves key
    · simp [hresolves]
    · simp [hresolves]

/-- The law at a header set under another casing, with another header set behind it. -/
theorem header_store_law_iff_uniqueId :
    FoundAndRemoved (runStore EslHeaders.new
      ([.remove "X".toList] ++ .insert "unique-id".toList "abc".toList ::
        [.insert "X-Call".toList "1".toList])) "unique-id".toList "abc".toList := by
  refine ((header_store_law_iff [.remove "X".toList]).2 [.insert "X-Call".toList "1".toList]
    "unique-id".toList "abc".toList ?_).mpr (.inl (by decide +kernel))
  intro op hop
  obtain rfl := List.mem_singleton.mp hop
  show normalizeHeaderKey _ ≠ normalizeHeaderKey _
  decide +kernel

/-- `Gateway_Name` is stored as `gateway_name`, and neither found nor removed under the name it was
inserted as. -/
theorem gatewayName_not_found :
    ¬ FoundAndRemoved (runStore EslHeaders.new [.insert "Gateway_Name".toList "gw1".toList])
      "Gateway_Name".toList "gw1".toList := by
  have hread : (runStore EslHeaders.new [.insert "Gateway_Name".toList "gw1".toList]).headerStr
      "Gateway_Name".toList = none := by decide +kernel
  rintro ⟨hfound, -, -⟩
  rw [hread] at hfound
  cases hfound

end EslTokio
