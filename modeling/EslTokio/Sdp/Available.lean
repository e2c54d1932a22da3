import EslTokio.Library.Firsts
import EslTokio.Sdp.Codecs

/-!
# Duplicate and unavailable codecs

The passes over a codec string of `codec_string/mod.rs`, `codec_string/entry.rs` and `available.rs`:
dropping duplicates, dropping qualifiers that are the default, and dropping what no loaded
implementation matches.

* `CodecString.dedup`, `CodecStringEntry.simplify`, `CodecString.retainAvailable` — the passes.
* `dedupKey`, `dedup_entries` — what duplicates have in common, and that the first of them is kept.
* `dedupKey_simplify`, `matchesImplementation_simplify` — what simplifying keeps.
* **`dedup_simplify_laws`** — the laws of the three passes over every codec string.
-/

namespace EslTokio
namespace Sdp

open Library

/-! ### The passes -/

/-- A qualifier that is absent or zero is the default. -/
def normQualifier (default : UInt32) : Option UInt32 → UInt32
  | none => default
  | some n => if n = 0 then default else n

/-- The packetization that duplicates are compared in. -/
def normPtime (entry : CodecStringEntry) :
    UInt32 := normQualifier (defaultPtime entry.name) entry.ptime

/-- The rate that duplicates are compared in. -/
def normRate (entry : CodecStringEntry) :
    UInt32 := normQualifier (defaultRate entry.name) entry.rate

/-- The channel count that duplicates are compared in. -/
def normChannels (entry : CodecStringEntry) : UInt32 := normQualifier 1 entry.channels

/-- An entry is taken for an earlier one. -/
def CodecStringEntry.duplicates (entry earlier : CodecStringEntry) : Bool :=
  Text.eqIgnoreCase entry.name earlier.name && normPtime entry == normPtime earlier &&
    normRate entry == normRate earlier && normChannels entry == normChannels earlier &&
    Text.eqIgnoreCase (entry.fmtp.getD []) (earlier.fmtp.getD [])

/-- Remove duplicate entries: each one is compared with every earlier original, dropped or not. -/
def CodecString.dedup (codecs : CodecString) : CodecString :=
  let keep := codecs.entries.zipIdx.map fun place =>
    !(codecs.entries.take place.2).any place.1.duplicates
  ⟨(codecs.entries.zip keep).filterMap fun flagged => if flagged.2 then some flagged.1 else none⟩

/-- Drop the qualifiers that are the switch's default for a codec; G.722 keeps its own. -/
def CodecStringEntry.simplify (entry : CodecStringEntry) : CodecStringEntry :=
  if Text.eqIgnoreCase entry.name "g722".toList then entry
  else { entry with
    rate := if entry.rate = some (defaultRate entry.name) then none else entry.rate
    ptime := if entry.ptime = some (defaultPtime entry.name) then none else entry.ptime
    channels := if entry.channels = some 1 then none else entry.channels }

/-- `simplify` on every entry. -/
def CodecString.simplify (codecs : CodecString) : CodecString := ⟨codecs.entries.map (·.simplify)⟩

/-- One loaded codec implementation; a qualifier that is absent is unknown and constrains nothing.
-/
structure CodecImplementation where
  name : Text
  modname : Option Text
  mediaType : Option SdpMediaType
  rate : Option UInt32
  ptime : Option UInt32
  bitrate : Option UInt32
  channels : Option UInt32
deriving DecidableEq, Repr

/-- An explicit zero is no qualifier. -/
def nonzero (value : Option UInt32) : Option UInt32 := value.filter (· ≠ 0)

/-- A qualifier of an entry against an implementation's: both known, and different, is a miss. -/
def qualifierMatches (wanted known : Option UInt32) : Bool :=
  match nonzero wanted, known with
  | some w, some k => w = k
  | _, _ => true

/-- The channels of an entry against an implementation's: an absent count is mono, an explicit zero
any. -/
def channelsMatch (wanted known : Option UInt32) : Bool :=
  match known with
  | some k => wanted.getD 1 = 0 || wanted.getD 1 = k
  | none => true

/-- The module prefix of an entry against an implementation's. -/
def modnameMatches (wanted known : Option Text) : Bool :=
  match wanted, known with
  | some w, some k => Text.eqIgnoreCase w k
  | _, _ => true

/-- An entry matches an implementation, by the rules of the switch's second matching pass. -/
def matchesImplementation (entry : CodecStringEntry) (imp : CodecImplementation) : Bool :=
  if !Text.eqIgnoreCase entry.name imp.name then false
  else if !modnameMatches entry.modname imp.modname then false
  else if imp.mediaType = some .video then true
  else
    (Text.eqIgnoreCase entry.name "g722".toList || qualifierMatches entry.rate imp.rate) &&
      qualifierMatches entry.ptime imp.ptime && qualifierMatches entry.bitrate imp.bitrate &&
      channelsMatch entry.channels imp.channels

/-- Remove the entries that match no implementation; those removed, and what is left. -/
def CodecString.retainAvailable (codecs : CodecString) (impls : List CodecImplementation) :
    List CodecStringEntry × CodecString :=
  let available := fun entry => impls.any (matchesImplementation entry)
  (codecs.entries.filter fun entry => !available entry, ⟨codecs.entries.filter available⟩)

/-! ### What duplicates have in common -/

/-- What duplicates have in common. -/
structure DedupKey where
  name : Text
  ptime : UInt32
  rate : UInt32
  channels : UInt32
  fmtp : Text
deriving DecidableEq, Repr

/-- The name and fmtp of an entry in lower case, and its qualifiers with the defaults in place. -/
def dedupKey (entry : CodecStringEntry) : DedupKey :=
  ⟨Text.toAsciiLowercase entry.name, normPtime entry, normRate entry, normChannels entry,
    Text.toAsciiLowercase (entry.fmtp.getD [])⟩

theorem duplicates_iff (entry earlier : CodecStringEntry) :
    entry.duplicates earlier = true ↔ dedupKey entry = dedupKey earlier := by
  simp only [CodecStringEntry.duplicates, Text.eqIgnoreCase, Bool.and_eq_true,
    decide_eq_true_eq, beq_iff_eq, dedupKey, Text.toAsciiLowercase, DedupKey.mk.injEq, and_assoc]

/-- A list with a flag on every item, cut to those flagged. -/
theorem filterMap_zip_flags {α : Type*} (flag : α × Nat → Bool) (items : List α) (start : Nat) :
    (items.zip ((items.zipIdx start).map flag)).filterMap
        (fun flagged => if flagged.2 then some flagged.1 else none) =
      ((items.zipIdx start).filter flag).map Prod.fst := by
  induction items generalizing start with
  | nil => rfl
  | cons item items ih =>
      rw [List.zipIdx_cons, List.map_cons, List.zip_cons_cons, List.filterMap_cons, ih]
      cases hflag : flag (item, start) with
      | true => simp [List.filter_cons_of_pos hflag]
      | false => simp [hflag]

/-- **The pass keeps the first entry of each class.** -/
theorem dedup_entries (codecs : CodecString) :
    codecs.dedup.entries = firsts dedupKey codecs.entries := by
  rw [firsts_eq_filter, CodecString.dedup]
  dsimp only
  rw [filterMap_zip_flags]
  congr 1
  refine List.filter_congr fun place _ => ?_
  rw [Bool.eq_iff_iff]
  simp only [Bool.not_eq_true', List.any_eq_false, duplicates_iff]
  exact decide_eq_true_iff.symm

/-! ### What simplifying keeps -/

theorem normQualifier_simplify (default : UInt32) (value : Option UInt32) :
    normQualifier default (if value = some default then none else value) =
      normQualifier default value := by
  split_ifs with hdefault
  · rw [hdefault]
    simp [normQualifier]
  · rfl

/-- **Simplifying an entry keeps its key.** -/
theorem dedupKey_simplify (entry : CodecStringEntry) :
    dedupKey entry.simplify = dedupKey entry := by
  unfold CodecStringEntry.simplify
  by_cases hg722 : Text.eqIgnoreCase entry.name "g722".toList = true
  · rw [if_pos hg722]
  · rw [if_neg hg722]
    simp only [dedupKey, normPtime, normRate, normChannels, normQualifier_simplify]

theorem qualifierMatches_simplify {wanted known : Option UInt32} (default : UInt32)
    (h : qualifierMatches wanted known = true) :
    qualifierMatches (if wanted = some default then none else wanted) known = true := by
  split_ifs with hdefault
  · rfl
  · exact h

theorem channelsMatch_simplify (wanted known : Option UInt32) :
    channelsMatch (if wanted = some 1 then none else wanted) known =
      channelsMatch wanted known := by
  split_ifs with hmono
  · rw [hmono]
    rfl
  · rfl

/-- **Simplifying an entry keeps every implementation it matches.** -/
theorem matchesImplementation_simplify {entry : CodecStringEntry} {imp : CodecImplementation}
    (h : matchesImplementation entry imp = true) :
    matchesImplementation entry.simplify imp = true := by
  unfold CodecStringEntry.simplify
  by_cases hg722 : Text.eqIgnoreCase entry.name "g722".toList = true
  · rw [if_pos hg722]
    exact h
  · rw [if_neg hg722]
    unfold matchesImplementation at h ⊢
    dsimp only
    by_cases hname : (!Text.eqIgnoreCase entry.name imp.name) = true
    · rw [if_pos hname] at h
      cases h
    by_cases hmodname : (!modnameMatches entry.modname imp.modname) = true
    · rw [if_neg hname, if_pos hmodname] at h
      cases h
    by_cases hvideo : imp.mediaType = some .video
    · rw [if_neg hname, if_neg hmodname, if_pos hvideo]
    · rw [if_neg hname, if_neg hmodname, if_neg hvideo] at h ⊢
      simp only [Bool.and_eq_true, Bool.or_eq_true] at h ⊢
      obtain ⟨⟨⟨hrate, hptime⟩, hbitrate⟩, hchannels⟩ := h
      refine ⟨⟨⟨?_, qualifierMatches_simplify _ hptime⟩, hbitrate⟩, ?_⟩
      · exact .inr (qualifierMatches_simplify _ (hrate.resolve_left hg722))
      · rw [channelsMatch_simplify]
        exact hchannels

/-- What is available stays so when it is simplified. -/
theorem retainAvailable_simplify (codecs : CodecString) (impls : List CodecImplementation) :
    (codecs.retainAvailable impls).2.simplify.retainAvailable impls =
      ([], (codecs.retainAvailable impls).2.simplify) := by
  have hall : ∀ entry ∈ (codecs.retainAvailable impls).2.simplify.entries,
      impls.any (matchesImplementation entry) = true := by
    intro simplified hsimplified
    obtain ⟨entry, hentry, rfl⟩ := List.mem_map.mp hsimplified
    obtain ⟨imp, himp, hmatches⟩ := List.any_eq_true.mp (List.mem_filter.mp hentry).2
    exact List.any_eq_true.mpr ⟨imp, himp, matchesImplementation_simplify hmatches⟩
  generalize (codecs.retainAvailable impls).2.simplify = simplified at hall
  have hnone : simplified.entries.filter
      (fun entry => !impls.any (matchesImplementation entry)) = [] := by
    rw [List.filter_eq_nil_iff]
    intro entry hentry
    simp [hall entry hentry]
  have hevery : simplified.entries.filter (fun entry => impls.any (matchesImplementation entry)) =
      simplified.entries := List.filter_eq_self.mpr hall
  simp only [CodecString.retainAvailable, hnone, hevery]

/-! ### The laws -/

/-- **The laws of the passes over a codec string.** Dropping duplicates keeps exactly the entries
whose key no earlier entry has, in their order, so that the keys kept are distinct and every key and
name stays, and a second pass drops nothing; simplifying keeps every key and commutes with it; and
simplifying keeps every implementation an entry matches, so that what was available stays so. -/
theorem dedup_simplify_laws (codecs : CodecString) :
    codecs.dedup.entries = (codecs.entries.zipIdx.filter fun place =>
      Fresh dedupKey (codecs.entries.take place.2) place.1).map Prod.fst ∧
    codecs.dedup.entries.Pairwise (fun left right => dedupKey left ≠ dedupKey right) ∧
    (∀ entry ∈ codecs.entries, ∃ kept ∈ codecs.dedup.entries,
      dedupKey kept = dedupKey entry ∧ Text.eqIgnoreCase kept.name entry.name = true) ∧
    codecs.dedup.dedup = codecs.dedup ∧
    (∀ entry : CodecStringEntry, dedupKey entry.simplify = dedupKey entry) ∧
    codecs.simplify.dedup = codecs.dedup.simplify ∧
    (∀ (entry : CodecStringEntry) (imp : CodecImplementation),
      matchesImplementation entry imp = true → matchesImplementation entry.simplify imp = true) ∧
    ∀ impls : List CodecImplementation,
      (codecs.retainAvailable impls).2.simplify.retainAvailable impls =
        ([], (codecs.retainAvailable impls).2.simplify) := by
  have hext : ∀ left right : CodecString, left.entries = right.entries → left = right := by
    rintro ⟨left⟩ ⟨right⟩ rfl
    rfl
  refine ⟨?_, ?_, ?_, ?_, dedupKey_simplify, ?_, fun _ _ => matchesImplementation_simplify,
    retainAvailable_simplify codecs⟩
  · rw [dedup_entries, firsts_eq_filter]
  · rw [dedup_entries]
    exact pairwise_firsts codecs.entries
  · intro entry hentry
    obtain ⟨kept, hkept, hkey⟩ :
      ∃ kept ∈ firsts dedupKey codecs.entries, dedupKey kept = dedupKey entry :=
      exists_mem_firsts hentry
    rw [dedup_entries]
    refine ⟨kept, hkept, hkey, ?_⟩
    have hname : Text.toAsciiLowercase kept.name = Text.toAsciiLowercase entry.name :=
      congrArg DedupKey.name hkey
    exact decide_eq_true hname
  · apply hext
    rw [dedup_entries, dedup_entries, firsts_idem]
  · apply hext
    rw [dedup_entries]
    show firsts dedupKey (codecs.entries.map (·.simplify)) = codecs.dedup.entries.map (·.simplify)
    rw [firsts_map dedupKey_simplify, dedup_entries]

/-- A string with a duplicate in another case and an entry at its default rate. -/
def mixedCodecs : CodecString :=
  ⟨[⟨none, "PCMU".toList, none, some 8000, none, none, none⟩,
    ⟨none, "pcmu".toList, some [], none, some 20, none, some 1⟩,
    ⟨none, "G722".toList, none, some 16000, none, none, none⟩]⟩

theorem dedup_simplify_laws_mixed :
    mixedCodecs.simplify.dedup = ⟨[⟨none, "PCMU".toList, none, none, none, none, none⟩,
        ⟨none, "G722".toList, none, some 16000, none, none, none⟩]⟩ ∧
      mixedCodecs.dedup.simplify = mixedCodecs.simplify.dedup ∧
      ∀ entry ∈ mixedCodecs.entries, ∃ kept ∈ mixedCodecs.dedup.entries,
        dedupKey kept = dedupKey entry ∧ Text.eqIgnoreCase kept.name entry.name = true :=
  ⟨by decide +kernel, (dedup_simplify_laws mixedCodecs).2.2.2.2.2.1.symm,
    (dedup_simplify_laws mixedCodecs).2.2.1⟩

end Sdp
end EslTokio
