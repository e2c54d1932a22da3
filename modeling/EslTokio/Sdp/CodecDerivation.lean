import EslTokio.Sdp.Codecs
import Mathlib.Data.List.Forall2

/-!
# Codec strings from an offer

`audio_codec_string` and `video_codec_string` of `codecs/mod.rs` over the conversion of
`options.rs`: strict without a list to warn into, lenient with one.

* `CodecStringOptions.sdpCodecToEntry`, `codecToEntryLenient` — one codec's entry, as it is written
  twice.
* `collect`, `audioCodecString`, `videoCodecString` — the walks, and the bound on what they build.
* `Contributes` — what a codec comes to in lenient mode.
* `collect_strict`, `collect_lenient` — what a walk builds of what its items come to.
* **`derivation_agrees`** — the strict and the lenient derivation agree.
-/

namespace EslTokio
namespace Sdp

open Library

/-! ### One codec -/

/-- Which qualifiers are emitted. -/
structure CodecStringOptions where
  emitRate : Bool
  emitPtime : Bool
  emitBitrate : Bool
  emitChannels : Bool
  emitFmtp : Bool
deriving DecidableEq, Repr

namespace CodecStringOptions

/-- Apply the numeric qualifiers, which cannot fail. -/
def applyQualifiers (options : CodecStringOptions) (entry : CodecStringEntry) (codec : SdpCodec) :
    CodecStringEntry :=
  { entry with
    rate := if options.emitRate then some codec.clockRate else entry.rate
    ptime := if options.emitPtime then codec.ptime.or entry.ptime else entry.ptime
    bitrate := if options.emitBitrate then codec.bitrate.or entry.bitrate else entry.bitrate
    channels := if options.emitChannels then codec.channels.or entry.channels else entry.channels }

/-- The fmtp that is to be embedded, if any is. -/
def fmtpOf (options : CodecStringOptions) (codec : SdpCodec) : Option Text :=
  if options.emitFmtp then codec.fmtp else none

/-- A codec as a codec-string entry. -/
def sdpCodecToEntry (options : CodecStringOptions) (codec : SdpCodec) :
    Except CodecStringError CodecStringEntry := do
  let entry ← CodecStringEntry.new codec.name
  let entry ← setIfSome CodecStringEntry.setFmtp entry (options.fmtpOf codec)
  return options.applyQualifiers entry codec

end CodecStringOptions

/-- The fault, named without the value the error quotes. -/
def unrepresentableReason : CodecStringError → String
  | .atInFmtp _ => "contains '@', which the qualifier split takes first"
  | .dotInFmtpWithoutModule _ =>
    "contains '.' with no module prefix, which the modname split takes first"
  | .wireInjection _ _ => "contains a newline or a carriage return"
  | .invalidCharInName _ _ _ => "contains a codec-string grammar delimiter"
  | .invalidCodecName _ => "is empty"
  | _ => "has no representation in the codec-string grammar"

/-- A codec as a codec-string entry: with a list to warn into, a name that cannot be embedded skips
the codec and an fmtp that cannot is left out. -/
def codecToEntryLenient (options : CodecStringOptions) (codec : SdpCodec) (warnings : Warnings) :
    Except CodecStringError (Option CodecStringEntry) × Warnings :=
  match CodecStringEntry.new codec.name with
  | .error e =>
      match warnings with
      | none => (.error e, none)
      | some acc =>
          (.ok none, some (acc ++ [.codecNameUnrepresentable codec.name (unrepresentableReason e)]))
  | .ok entry =>
      match options.fmtpOf codec with
      | none => (.ok (some (options.applyQualifiers entry codec)), warnings)
      | some fmtp =>
          match entry.setFmtp fmtp with
          | .ok withFmtp => (.ok (some (options.applyQualifiers withFmtp codec)), warnings)
          | .error e =>
              match warnings with
              | none => (.error e, none)
              | some acc => (.ok (some (options.applyQualifiers entry codec)),
                  some (acc ++ [.fmtpUnrepresentable codec.name fmtp (unrepresentableReason e)]))

/-! ### The walks -/

/-- Append an entry, unless the list is as long as the switch reads. -/
def CodecString.push (codecs : CodecString) (entry : CodecStringEntry) :
    Except CodecStringError CodecString :=
  if maxSwitchEntries ≤ codecs.entries.length then
    .error (.tooManyEntries (codecs.entries.length + 1) maxSwitchEntries)
  else .ok ⟨codecs.entries ++ [entry]⟩

/-- Convert items in turn and push what they come to, up to the first failure. -/
def collect {α : Type*} (convert : α → Warnings →
    Except CodecStringError (Option CodecStringEntry) × Warnings)
    (out : CodecString) (warnings : Warnings) :
    List α → Except CodecStringError CodecString × Warnings
  | [] => (.ok out, warnings)
  | item :: items =>
      match convert item warnings with
      | (.error e, warnings) => (.error e, warnings)
      | (.ok none, warnings) => collect convert out warnings items
      | (.ok (some entry), warnings) =>
          match out.push entry with
          | .error e => (.error e, warnings)
          | .ok out => collect convert out warnings items

/-- One entry of the audio walk: a fax stream is a literal, and codecs of other media are passed
over. -/
def audioEntry (options : CodecStringOptions) :
    SdpCodecEntry → Warnings → Except CodecStringError (Option CodecStringEntry) × Warnings
  | .t38, warnings => ((CodecStringEntry.new "t38".toList).map some, warnings)
  | .rtp codec, warnings =>
      if codec.media = .audio then codecToEntryLenient options codec warnings
        else (.ok none, warnings)

namespace SdpCodecs

/-- The RTP codecs of a media type. -/
def rtpOf (codecs : SdpCodecs) (media : SdpMediaType) : List SdpCodec :=
  codecs.entries.filterMap fun
    | .rtp codec => if codec.media = media then some codec else none
    | .t38 => none

/-- The audio codecs. -/
def audio (codecs : SdpCodecs) : List SdpCodec := codecs.rtpOf .audio

/-- The video codecs. -/
def video (codecs : SdpCodecs) : List SdpCodec := codecs.rtpOf .video

/-- The codec string of an offer's audio. -/
def audioCodecString (codecs : SdpCodecs) (options : CodecStringOptions) (warnings : Warnings) :
    Except CodecStringError CodecString × Warnings :=
  collect (audioEntry options) ⟨[]⟩ warnings codecs.entries

/-- The codec string of an offer's video. -/
def videoCodecString (codecs : SdpCodecs) (options : CodecStringOptions) (warnings : Warnings) :
    Except CodecStringError CodecString × Warnings :=
  collect (codecToEntryLenient options) ⟨[]⟩ warnings codecs.video

end SdpCodecs

/-! ### What one item comes to -/

/-- What an item adds in lenient mode: an entry or none, and warnings. -/
abbrev Contribution := Option CodecStringEntry × List SdpWarning

/-- What a codec comes to in lenient mode: its strict entry, its entry without the fmtp that cannot
be embedded and one warning, or one warning. -/
inductive Contributes (options : CodecStringOptions) (codec : SdpCodec) : Contribution → Prop
  | strict {entry : CodecStringEntry} (h : options.sdpCodecToEntry codec = .ok entry) :
      Contributes options codec (some entry, [])
  | withoutFmtp {e : CodecStringError} {entry : CodecStringEntry} {fmtp : Text}
      (hstrict : options.sdpCodecToEntry codec = .error e)
      (hentry : CodecStringOptions.sdpCodecToEntry
        { options with emitFmtp := false } codec = .ok entry)
      (hfmtp : codec.fmtp = some fmtp) (hnone : entry.fmtp = none) :
      Contributes options codec
        (some entry, [.fmtpUnrepresentable codec.name fmtp (unrepresentableReason e)])
  | skipped {e : CodecStringError} (hstrict : options.sdpCodecToEntry codec = .error e)
      (hname : CodecStringEntry.new codec.name = .error e) :
      Contributes options codec
        (none, [.codecNameUnrepresentable codec.name (unrepresentableReason e)])

/-- The fax entry. -/
def t38Entry : CodecStringEntry := ⟨none, "t38".toList, none, none, none, none, none⟩

/-- What an entry of the audio walk comes to in lenient mode. -/
inductive AudioContributes (options : CodecStringOptions) : SdpCodecEntry → Contribution → Prop
  | t38 : AudioContributes options .t38 (some t38Entry, [])
  | audio {codec : SdpCodec} {added : Contribution} (hmedia : codec.media = .audio)
      (hadded : Contributes options codec added) : AudioContributes options (.rtp codec) added
  | other {codec : SdpCodec} (hmedia : codec.media ≠ .audio) :
    AudioContributes options (.rtp codec) (none, [])

/-- The strict conversion is that of the options. -/
theorem codecToEntryLenient_none (options : CodecStringOptions) (codec : SdpCodec) :
    codecToEntryLenient options codec none = ((options.sdpCodecToEntry codec).map some, none) := by
  unfold codecToEntryLenient CodecStringOptions.sdpCodecToEntry
  cases CodecStringEntry.new codec.name with
  | error e => rfl
  | ok entry =>
      cases hfmtp : options.fmtpOf codec with
      | none => rfl
      | some fmtp =>
          dsimp only
          cases hset : entry.setFmtp fmtp with
          | ok withFmtp =>
              show _ = (Except.map some (do
                let entry ← entry.setFmtp fmtp
                return options.applyQualifiers entry codec), none)
              rw [hset]
              rfl
          | error e =>
              show _ = (Except.map some (do
                let entry ← entry.setFmtp fmtp
                return options.applyQualifiers entry codec), none)
              rw [hset]
              rfl

/-- A new entry has no fmtp. -/
theorem fmtp_of_new {name : Text} {entry : CodecStringEntry}
    (h : CodecStringEntry.new name = .ok entry) :
    entry.fmtp = none := by
  unfold CodecStringEntry.new at h
  cases hvalid : validateName name with
  | error e =>
      rw [hvalid] at h
      cases h
  | ok valid =>
      rw [hvalid] at h
      rw [← Except.ok.inj h]

/-- In lenient mode a codec comes to one of three things, whatever was warned of before. -/
theorem codecToEntryLenient_some (options : CodecStringOptions) (codec : SdpCodec) :
    ∃ added, Contributes options codec added ∧
      ∀ acc, codecToEntryLenient options codec (some acc) =
        (.ok added.1, some (acc ++ added.2)) := by
  cases hnew : CodecStringEntry.new codec.name with
  | error e =>
      have hstrict : options.sdpCodecToEntry codec = .error e := by
        rw [CodecStringOptions.sdpCodecToEntry, hnew]
        rfl
      exact ⟨_, .skipped hstrict hnew, fun acc => by rw [codecToEntryLenient, hnew]⟩
  | ok entry =>
      cases hfmtp : options.fmtpOf codec with
      | none =>
          have hstrict : options.sdpCodecToEntry codec = .ok
              (options.applyQualifiers entry codec) := by
            rw [CodecStringOptions.sdpCodecToEntry, hnew, hfmtp]
            rfl
          refine ⟨_, .strict hstrict, fun acc => ?_⟩
          simp only [codecToEntryLenient, hnew, hfmtp, List.append_nil]
      | some fmtp =>
          have hconvert : options.sdpCodecToEntry codec = (do
              let entry ← entry.setFmtp fmtp
              return options.applyQualifiers entry codec) := by
            rw [CodecStringOptions.sdpCodecToEntry, hnew, hfmtp]
            rfl
          cases hset : entry.setFmtp fmtp with
          | ok withFmtp =>
              rw [hset] at hconvert
              refine ⟨_, .strict hconvert, fun acc => ?_⟩
              simp only [codecToEntryLenient, hnew, hfmtp, hset, List.append_nil]
          | error e =>
              rw [hset] at hconvert
              have hbare : CodecStringOptions.sdpCodecToEntry
                  { options with emitFmtp := false } codec =
                  .ok (options.applyQualifiers entry codec) := by
                rw [CodecStringOptions.sdpCodecToEntry, hnew]
                rfl
              have hcodec : codec.fmtp = some fmtp := by
                unfold CodecStringOptions.fmtpOf at hfmtp
                split_ifs at hfmtp
                exact hfmtp
              have hnone : (options.applyQualifiers entry codec).fmtp = none := by
                show entry.fmtp = none
                exact fmtp_of_new hnew
              refine ⟨_, .withoutFmtp hconvert hbare hcodec hnone, fun acc => ?_⟩
              simp only [codecToEntryLenient, hnew, hfmtp, hset]

/-- What strict mode accepts, lenient mode takes as it is. -/
theorem Contributes.eq_strict {options : CodecStringOptions} {codec : SdpCodec}
    {added : Contribution} (h : Contributes options codec added) {entry : CodecStringEntry}
    (hstrict : options.sdpCodecToEntry codec = .ok entry) : added = (some entry, []) := by
  cases h with
  | strict h' => rw [Except.ok.inj (h'.symm.trans hstrict)]
  | withoutFmtp h' _ _ _ => cases h'.symm.trans hstrict
  | skipped h' _ => cases h'.symm.trans hstrict

/-! ### What a walk builds -/

section Collect

variable {α : Type*} {convert : α → Warnings →
    Except CodecStringError (Option CodecStringEntry) × Warnings}

theorem push_of_lt {out : CodecString} (h : out.entries.length < maxSwitchEntries)
    (entry : CodecStringEntry) :
    out.push entry = .ok ⟨out.entries ++ [entry]⟩ := if_neg (by omega)

theorem push_of_ge {out : CodecString} (h : maxSwitchEntries ≤ out.entries.length)
    (entry : CodecStringEntry) :
    out.push entry = .error (.tooManyEntries (out.entries.length + 1) maxSwitchEntries) := if_pos h

/-- **A strict walk succeeds exactly when every item does and the entries are within the bound.** -/
theorem collect_strict {strictly : α → Except CodecStringError (Option CodecStringEntry)}
    (hconvert : ∀ item, convert item none = (strictly item, none)) (items : List α)
    {entries : List CodecStringEntry} (hentries : entries.length ≤ maxSwitchEntries)
    (out : CodecString) :
    (collect convert ⟨entries⟩ none items).1 = .ok out ↔
      (∀ item ∈ items, ∃ result, strictly item = .ok result) ∧
        (entries ++ items.filterMap fun item => (strictly item).toOption.join).length ≤
        maxSwitchEntries ∧
        out = ⟨entries ++ items.filterMap fun item => (strictly item).toOption.join⟩ := by
  induction items generalizing entries with
  | nil =>
      simp only [collect, List.filterMap_nil, List.append_nil, Except.ok.injEq, List.not_mem_nil,
        false_implies, implies_true, true_and, hentries]
      exact eq_comm
  | cons item items ih =>
      rw [collect, hconvert, List.forall_mem_cons]
      cases hitem : strictly item with
      | error e =>
          refine ⟨nofun, ?_⟩
          rintro ⟨⟨⟨result, hresult⟩, -⟩, -⟩
          cases hresult
      | ok result =>
          have hsome : ∃ other, Except.ok (ε := CodecStringError) result = .ok other :=
            ⟨result, rfl⟩
          simp only [hsome, true_and]
          cases result with
          | none =>
              rw [List.filterMap_cons_none (by rw [hitem]; rfl)]
              exact ih hentries
          | some entry =>
              rw [List.filterMap_cons_some (by rw [hitem]; rfl), List.append_cons]
              dsimp only
              by_cases hroom : entries.length < maxSwitchEntries
              · rw [push_of_lt hroom]
                have hpushed : (entries ++ [entry]).length ≤ maxSwitchEntries := by
                  rw [List.length_append, List.length_singleton]
                  omega
                exact ih hpushed
              · rw [push_of_ge (by simpa using hroom)]
                refine ⟨nofun, ?_⟩
                rintro ⟨-, hbound, -⟩
                rw [List.length_append, List.length_append, List.length_singleton] at hbound
                omega

/-- **A lenient walk builds what its items contribute, or fails at the bound.** -/
theorem collect_lenient {items : List α} {added : List Contribution}
    (hadded : List.Forall₂ (fun item contribution =>
      ∀ acc, convert item (some acc) = (.ok contribution.1, some (acc ++ contribution.2)))
        items added)
    (entries : List CodecStringEntry) (hentries : entries.length ≤ maxSwitchEntries)
    (acc : List SdpWarning) :
    ((entries ++ added.filterMap Prod.fst).length ≤ maxSwitchEntries ∧
      collect convert ⟨entries⟩ (some acc) items =
        (.ok ⟨entries ++ added.filterMap Prod.fst⟩, some (acc ++ added.flatMap Prod.snd))) ∨
    (maxSwitchEntries < (entries ++ added.filterMap Prod.fst).length ∧
      (collect convert ⟨entries⟩ (some acc) items).1 =
        .error (.tooManyEntries (maxSwitchEntries + 1) maxSwitchEntries)) := by
  induction hadded generalizing entries acc with
  | nil => exact .inl ⟨by simpa using hentries, by simp [collect]⟩
  | @cons item contribution items added hitem hrest ih =>
      obtain ⟨result, warned⟩ := contribution
      rw [collect, hitem acc, List.flatMap_cons, ← List.append_assoc]
      cases result with
      | none => exact ih entries hentries (acc ++ warned)
      | some entry =>
          dsimp only
          by_cases hroom : entries.length < maxSwitchEntries
          · have hpushed : (entries ++ [entry]).length ≤ maxSwitchEntries := by
              rw [List.length_append, List.length_singleton]
              omega
            have hlater := ih (entries ++ [entry]) hpushed (acc ++ warned)
            rw [List.append_assoc] at hlater
            rw [push_of_lt hroom]
            exact hlater
          · have hfull : entries.length = maxSwitchEntries := by omega
            rw [push_of_ge (by simpa using hroom)]
            refine .inr ⟨?_, ?_⟩
            · simp only [List.filterMap_cons, List.length_append, List.length_cons]
              omega
            · rw [hfull]

end Collect

/-! ### The two walks -/

/-- What strict mode makes of an entry of the audio walk. -/
def audioStrict (options : CodecStringOptions) :
    SdpCodecEntry → Except CodecStringError (Option CodecStringEntry)
  | .t38 => .ok (some t38Entry)
  | .rtp codec => if codec.media = .audio then
    (options.sdpCodecToEntry codec).map some else .ok none

theorem new_t38 : CodecStringEntry.new "t38".toList = .ok t38Entry := by decide +kernel

theorem audioEntry_none (options : CodecStringOptions) (item : SdpCodecEntry) :
    audioEntry options item none = (audioStrict options item, none) := by
  cases item with
  | t38 =>
      rw [audioEntry, new_t38]
      rfl
  | rtp codec =>
      rw [audioEntry, audioStrict]
      split_ifs
      · exact codecToEntryLenient_none options codec
      · rfl

theorem audioEntry_some (options : CodecStringOptions) (item : SdpCodecEntry) :
    ∃ added, AudioContributes options item added ∧
      ∀ acc, audioEntry options item (some acc) = (.ok added.1, some (acc ++ added.2)) := by
  cases item with
  | t38 =>
      refine ⟨_, .t38, fun acc => ?_⟩
      rw [audioEntry, new_t38, List.append_nil]
      rfl
  | rtp codec =>
      by_cases hmedia : codec.media = .audio
      · obtain ⟨added, hadded, hconvert⟩ := codecToEntryLenient_some options codec
        refine ⟨added, .audio hmedia hadded, fun acc => ?_⟩
        rw [audioEntry, if_pos hmedia]
        exact hconvert acc
      · refine ⟨_, .other hmedia, fun acc => ?_⟩
        rw [audioEntry, if_neg hmedia, List.append_nil]

theorem AudioContributes.eq_strict {options : CodecStringOptions} {item : SdpCodecEntry}
    {added : Contribution}
    (h : AudioContributes options item added) {result : Option CodecStringEntry}
    (hstrict : audioStrict options item = .ok result) : added = (result, []) := by
  cases h with
  | t38 => rw [← Except.ok.inj hstrict]
  | audio hmedia hadded =>
      rw [audioStrict, if_pos hmedia] at hstrict
      cases hentry : options.sdpCodecToEntry _ with
      | error e =>
          rw [hentry] at hstrict
          cases hstrict
      | ok entry =>
          rw [hentry] at hstrict
          rw [← Except.ok.inj hstrict]
          exact hadded.eq_strict hentry
  | other hmedia =>
      rw [audioStrict, if_neg hmedia] at hstrict
      rw [← Except.ok.inj hstrict]

/-- The audio string's entries: each audio codec's own, and one for each fax stream at its place. -/
def audioEntries (options : CodecStringOptions) (codecs : SdpCodecs) : List CodecStringEntry :=
  codecs.entries.filterMap fun
    | .t38 => some t38Entry
    | .rtp codec => if codec.media = .audio then (options.sdpCodecToEntry codec).toOption else none

/-- The video string's entries. -/
def videoEntries (options : CodecStringOptions) (codecs : SdpCodecs) : List CodecStringEntry :=
  codecs.video.filterMap fun codec => (options.sdpCodecToEntry codec).toOption

/-- A walk's strict and lenient results agree. -/
structure Agrees {α : Type*} (options : CodecStringOptions) (selected : List SdpCodec)
    (entries : List CodecStringEntry) (items : List α) (contributes : α → Contribution → Prop)
    (build : Warnings → Except CodecStringError CodecString × Warnings) : Prop where
  /-- Strict mode gives the entries exactly when every selected codec has one and they are within
  the bound. -/
  strict : ∀ out, (build none).1 = .ok out ↔
    (∀ codec ∈ selected, ∃ entry, options.sdpCodecToEntry codec = .ok entry) ∧
      entries.length ≤ maxSwitchEntries ∧ out = ⟨entries⟩
  /-- What strict mode gives, lenient mode gives without a warning. -/
  same : ∀ out, (build none).1 = .ok out → ∀ acc, build (some acc) = (.ok out, some acc)
  /-- Lenient mode fails at the bound only. -/
  bounded : ∀ acc e, (build (some acc)).1 = .error e →
    ∃ count, e = .tooManyEntries count maxSwitchEntries
  /-- Lenient mode gives what the items contribute, if it is within the bound. -/
  lenient : ∃ added, List.Forall₂ contributes items added ∧ ∀ acc,
    ((added.filterMap Prod.fst).length ≤ maxSwitchEntries ∧
      build (some acc) = (.ok ⟨added.filterMap Prod.fst⟩, some (acc ++ added.flatMap Prod.snd))) ∨
    (maxSwitchEntries < (added.filterMap Prod.fst).length ∧
      (build (some acc)).1 = .error (.tooManyEntries (maxSwitchEntries + 1) maxSwitchEntries))

theorem exists_contributions {α : Type*} {contributes : α → Contribution → Prop}
    {convert : α → Warnings → Except CodecStringError (Option CodecStringEntry) × Warnings}
    (hlenient : ∀ item, ∃ added, contributes item added ∧
      ∀ acc, convert item (some acc) = (.ok added.1, some (acc ++ added.2))) (items : List α) :
    ∃ added, List.Forall₂ contributes items added ∧
      List.Forall₂ (fun item contribution =>
        ∀ acc, convert item (some acc) = (.ok contribution.1, some (acc ++ contribution.2))) items
          added := by
  induction items with
  | nil => exact ⟨[], .nil, .nil⟩
  | cons item items ih =>
      obtain ⟨added, hadded, hconvert⟩ := ih
      obtain ⟨contribution, hitem, hitemConvert⟩ := hlenient item
      exact ⟨contribution :: added, .cons hitem hadded, .cons hitemConvert hconvert⟩

/-- Items that strict mode accepts contribute their strict entries and no warning. -/
theorem contributions_of_strict {α : Type*} {contributes : α → Contribution → Prop}
    {strictly : α → Except CodecStringError (Option CodecStringEntry)}
    (hagree : ∀ item added result, contributes item added → strictly item = .ok result →
      added = (result, []))
    {items : List α} {added : List Contribution} (hadded : List.Forall₂ contributes items added)
    (hitems : ∀ item ∈ items, ∃ result, strictly item = .ok result) :
    added.filterMap Prod.fst = (items.filterMap fun item => (strictly item).toOption.join) ∧
      added.flatMap Prod.snd = [] := by
  induction hadded with
  | nil => exact ⟨rfl, rfl⟩
  | @cons item contribution items added hitem hrest ih =>
      obtain ⟨⟨result, hresult⟩, hlater⟩ := List.forall_mem_cons.mp hitems
      obtain rfl := hagree item contribution result hitem hresult
      obtain ⟨hfirst, hsecond⟩ := ih hlater
      rw [List.filterMap_cons, List.filterMap_cons, List.flatMap_cons, hfirst, hsecond, hresult]
      exact ⟨rfl, rfl⟩

/-- **A walk agrees with itself when each of its items does.** -/
theorem Agrees.of_collect {α : Type*} {options : CodecStringOptions} {selected : List SdpCodec}
    {entries : List CodecStringEntry} {items : List α} {contributes : α → Contribution → Prop}
    {convert : α → Warnings → Except CodecStringError (Option CodecStringEntry) × Warnings}
    {strictly : α → Except CodecStringError (Option CodecStringEntry)}
    (hstrict : ∀ item, convert item none = (strictly item, none))
    (hlenient : ∀ item, ∃ added, contributes item added ∧
      ∀ acc, convert item (some acc) = (.ok added.1, some (acc ++ added.2)))
    (hagree : ∀ item added result, contributes item added → strictly item = .ok result →
      added = (result, []))
    (hselected : (∀ item ∈ items, ∃ result, strictly item = .ok result) ↔
      ∀ codec ∈ selected, ∃ entry, options.sdpCodecToEntry codec = .ok entry)
    (hentries : (items.filterMap fun item => (strictly item).toOption.join) = entries) :
    Agrees options selected entries items contributes fun warnings =>
      collect convert ⟨[]⟩ warnings items := by
  have hempty : ([] : List CodecStringEntry).length ≤ maxSwitchEntries := Nat.zero_le _
  have hstrictly := collect_strict hstrict items hempty
  obtain ⟨added, hadded, hconvert⟩ := exists_contributions hlenient items
  have hwalk := collect_lenient hconvert [] hempty
  simp only [List.nil_append] at hstrictly hwalk
  rw [hentries, hselected] at hstrictly
  refine ⟨hstrictly, ?_, ?_, added, hadded, hwalk⟩
  · intro out hout acc
    obtain ⟨hall, hbound, rfl⟩ := (hstrictly out).mp hout
    obtain ⟨hfirst, hsecond⟩ := contributions_of_strict hagree hadded (hselected.mpr hall)
    rw [hentries] at hfirst
    rcases hwalk acc with ⟨-, hbuilt⟩ | ⟨hover, -⟩
    · rw [hbuilt, hfirst, hsecond, List.append_nil]
    · rw [hfirst] at hover
      omega
  · intro acc e he
    rcases hwalk acc with ⟨-, hbuilt⟩ | ⟨-, hfailed⟩
    · rw [hbuilt] at he
      cases he
    · rw [hfailed] at he
      exact ⟨_, (Except.error.inj he).symm⟩

theorem audio_agrees (codecs : SdpCodecs) (options : CodecStringOptions) :
    Agrees options codecs.audio (audioEntries options codecs) codecs.entries
      (AudioContributes options) (codecs.audioCodecString options) := by
  refine .of_collect (audioEntry_none options) (audioEntry_some options)
    (fun _ _ _ hadded hstrict => hadded.eq_strict hstrict) ?_ ?_
  · constructor
    · intro hall codec hcodec
      obtain ⟨item, hitem, hselected⟩ := List.mem_filterMap.mp hcodec
      cases item with
      | t38 => cases hselected
      | rtp other =>
          dsimp only at hselected
          split_ifs at hselected with hmedia
          obtain rfl := Option.some.inj hselected
          obtain ⟨result, hresult⟩ := hall _ hitem
          rw [audioStrict, if_pos hmedia] at hresult
          cases hentry : options.sdpCodecToEntry other with
          | error e =>
              rw [hentry] at hresult
              cases hresult
          | ok entry => exact ⟨entry, rfl⟩
    · intro hall item hitem
      cases item with
      | t38 => exact ⟨_, rfl⟩
      | rtp codec =>
          rw [audioStrict]
          split_ifs with hmedia
          · obtain ⟨entry, hentry⟩ := hall codec (List.mem_filterMap.mpr ⟨_, hitem, if_pos hmedia⟩)
            exact ⟨some entry, by rw [hentry]; rfl⟩
          · exact ⟨none, rfl⟩
  · refine List.filterMap_congr fun item _ => ?_
    cases item with
    | t38 => rfl
    | rtp codec =>
        dsimp only [audioStrict]
        split_ifs with hmedia
        · cases options.sdpCodecToEntry codec with
          | error e => rfl
          | ok entry => rfl
        · rfl

theorem video_agrees (codecs : SdpCodecs) (options : CodecStringOptions) :
    Agrees options codecs.video (videoEntries options codecs) codecs.video (Contributes options)
      (codecs.videoCodecString options) := by
  refine .of_collect (codecToEntryLenient_none options) (codecToEntryLenient_some options) ?_ ?_ ?_
  · intro codec added result hadded hstrict
    cases hentry : options.sdpCodecToEntry codec with
    | error e =>
        rw [hentry] at hstrict
        cases hstrict
    | ok entry =>
        rw [hentry] at hstrict
        rw [← Except.ok.inj hstrict]
        exact hadded.eq_strict hentry
  · refine forall₂_congr fun codec _ => ?_
    cases options.sdpCodecToEntry codec with
    | error e =>
        constructor
        · rintro ⟨result, hresult⟩
          cases hresult
        · rintro ⟨entry, hentry⟩
          cases hentry
    | ok entry => exact ⟨fun _ => ⟨_, rfl⟩, fun _ => ⟨_, rfl⟩⟩
  · refine List.filterMap_congr fun codec _ => ?_
    cases options.sdpCodecToEntry codec with
    | error e => rfl
    | ok entry => rfl

/-! ### The fax entries of a session -/

/-- An image section is one fax stream, and no other section has one. -/
theorem fax_of_mem_sections {session : Session} {part : SdpMediaSection}
    (h : part ∈ (SdpCodecs.fromSession session).sections) :
    (part.mediaType.isImage = true → part.entries = [.t38]) ∧
      (part.mediaType.isImage = false → ∀ item ∈ part.entries, item ≠ .t38) := by
  rw [fromSession_eq] at h
  obtain ⟨media, -, rfl⟩ := List.mem_map.mp h
  unfold Session.read readMedia
  by_cases himage : (SdpMediaType.fromStr media.media).isImage = true
  · simp [himage]
  · simp only [himage, if_false, Bool.false_eq_true]
    split_ifs
    · rcases parseMediaSection_cases media (SdpMediaType.fromStr media.media)
          ⟨(ptimeFromAttrs session.attributes "ptime").1,
            (ptimeFromAttrs session.attributes "maxptime").1,
            (directionFromAttrs media.attributes).1.getD
              ((directionFromAttrs session.attributes).1.getD .sendRecv)⟩ with
        ⟨-, e, he⟩ | ⟨-, pts, placed, -, hplaced, -, hplace⟩
      · simp [he, himage]
      · simp only [hplaced]
        exact ⟨fun h => absurd h himage, fun _ => hplace.ne_t38⟩
    · simp [himage]

/-- What a section adds to the audio string: one fax entry for an image, and each audio codec's own
entry. -/
def sectionEntries (options : CodecStringOptions) (part : SdpMediaSection) :
    List CodecStringEntry :=
  if part.mediaType.isImage then [t38Entry]
  else part.entries.filterMap fun
    | .rtp codec => if codec.media = .audio then (options.sdpCodecToEntry codec).toOption else none
    | .t38 => none

/-- The audio string of a session is its negotiable sections', in their order. -/
theorem audioEntries_fromSession (session : Session) (options : CodecStringOptions) :
    audioEntries options (SdpCodecs.fromSession session) =
      ((SdpCodecs.fromSession session).sections.filter (·.isNegotiable)).flatMap
      (sectionEntries options) := by
  rw [audioEntries, SdpCodecs.entries, SdpCodecs.negotiable, List.filterMap_flatMap]
  refine List.flatMap_congr fun part hpart => ?_
  obtain ⟨himage, hother⟩ := fax_of_mem_sections (List.mem_of_mem_filter hpart)
  unfold sectionEntries
  split_ifs with h
  · rw [himage h]
    rfl
  · refine List.filterMap_congr fun item hitem => ?_
    cases item with
    | t38 => exact absurd rfl (hother (by simpa using h) _ hitem)
    | rtp codec => rfl

/-- **The strict and the lenient derivation agree,** for the audio and the video of every offer; and
the audio string of a session has one fax entry for each negotiable image section, at its place. -/
theorem derivation_agrees :
    (∀ (codecs : SdpCodecs) (options : CodecStringOptions),
      Agrees options codecs.audio (audioEntries options codecs) codecs.entries
        (AudioContributes options) (codecs.audioCodecString options) ∧
      Agrees options codecs.video (videoEntries options codecs) codecs.video (Contributes options)
        (codecs.videoCodecString options)) ∧
    ∀ (session : Session) (options : CodecStringOptions),
      audioEntries options (SdpCodecs.fromSession session) =
        ((SdpCodecs.fromSession session).sections.filter (·.isNegotiable)).flatMap
        (sectionEntries options) :=
  ⟨fun codecs options => ⟨audio_agrees codecs options, video_agrees codecs options⟩,
    audioEntries_fromSession⟩

/-- An offer with an image before an audio section, whose second codec has a dot in its fmtp. -/
def faxSession : Session :=
  ⟨[], [⟨"image".toList, 4000, "udptl".toList, "t38".toList, []⟩,
    ⟨"audio".toList, 4002, "RTP/AVP".toList, "0 96".toList,
      [⟨"rtpmap".toList, some "96 EVS/16000".toList⟩, ⟨"fmtp".toList, some "96 br=13.2".toList⟩]⟩]⟩

/-- Its strict derivation fails with an fmtp and not without. -/
theorem derivation_agrees_fax :
    (∃ e, ((SdpCodecs.fromSession faxSession).audioCodecString
      ⟨false, false, false, false, true⟩ none).1 =
      .error e) ∧
    ∀ acc, (SdpCodecs.fromSession faxSession).audioCodecString ⟨false, false, false, false, false⟩
      (some acc) =
      (.ok ⟨[t38Entry, ⟨none, "PCMU".toList, none, none, none, none, none⟩,
        ⟨none, "EVS".toList, none, none, none, none, none⟩]⟩, some acc) := by
  refine ⟨⟨.dotInFmtpWithoutModule "br=13.2".toList, by decide +kernel⟩, fun acc => ?_⟩
  exact (derivation_agrees.1 _ _).1.same _ (by decide +kernel) acc

end Sdp
end EslTokio
