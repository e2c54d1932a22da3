import EslTokio.Sdp.CodecString
import EslTokio.Sdp.StaticPayload
import Mathlib.Logic.Function.Basic

/-!
# The codecs of a session description

`freeswitch-types/src/sdp/codecs`: the attributes of a section, the walk over its payload types, and
the sections of a whole session.  A session is what the description's own parser yields: its
attributes and its media, each with a protocol, a port, a format list and attributes.

* `attributeTables` — rtpmap and fmtp values by payload type, a later one in place of an earlier
  one.
* `parseMediaSection`, `fromSession` — one section's walk, and all of them.
* `Malformed`, `Placed` — what breaks a section, and every payload type of a format list at its own
  place.
* **`payloads_accounted`** — every section is empty with one warning, or places every payload type
  once.
-/

namespace EslTokio
namespace Sdp

open Library

/-! ### A session, as its parser yields it -/

/-- An `a=` line. -/
structure Attribute where
  name : Text
  value : Option Text
deriving DecidableEq, Repr

/-- An `m=` section. -/
structure Media where
  media : Text
  port : UInt16
  proto : Text
  fmt : Text
  attributes : List Attribute
deriving DecidableEq, Repr

/-- A session description. -/
structure Session where
  attributes : List Attribute
  medias : List Media
deriving DecidableEq, Repr

/-- The media type of an `m=` line. -/
inductive SdpMediaType where
  | audio
  | video
  | application
  | text
  | message
  | other (name : Text)
deriving DecidableEq, Repr

namespace SdpMediaType

/-- The media type a name stands for. -/
def fromStr (name : Text) : SdpMediaType :=
  if name = "audio".toList then .audio
  else if name = "video".toList then .video
  else if name = "application".toList then .application
  else if name = "text".toList then .text
  else if name = "message".toList then .message
  else .other name

/-- The name of a media type. -/
def toText : SdpMediaType → Text
  | .audio => "audio".toList
  | .video => "video".toList
  | .application => "application".toList
  | .text => "text".toList
  | .message => "message".toList
  | .other name => name

/-- `m=image`, in any case. -/
def isImage : SdpMediaType → Bool
  | .other name => Text.eqIgnoreCase name "image".toList
  | _ => false

end SdpMediaType

/-- A direction attribute. -/
inductive SdpDirection where
  | sendRecv
  | sendOnly
  | recvOnly
  | inactive
deriving DecidableEq, Repr

/-- The name of a direction attribute. -/
def SdpDirection.toText : SdpDirection → Text
  | .sendRecv => "sendrecv".toList
  | .sendOnly => "sendonly".toList
  | .recvOnly => "recvonly".toList
  | .inactive => "inactive".toList

/-- The directions, in the order their names are looked up. -/
def directions : List SdpDirection := [.sendRecv, .sendOnly, .recvOnly, .inactive]

/-- A codec derived from an `m=` section. -/
structure SdpCodec where
  media : SdpMediaType
  payloadType : UInt8
  name : Text
  clockRate : UInt32
  channels : Option UInt32
  fmtp : Option Text
  ptime : Option UInt32
  maxptime : Option UInt32
  bitrate : Option UInt32
  direction : SdpDirection
  hasRtpmap : Bool
deriving DecidableEq, Repr

/-- A payload type negotiated outside the codec string. -/
inductive NonCodecKind where
  | telephoneEvent
  | comfortNoise
deriving DecidableEq, Repr

/-- A payload offered that is negotiated outside the codec string. -/
structure NonCodecPayload where
  kind : NonCodecKind
  payloadType : UInt8
  mediaType : SdpMediaType
  clockRate : UInt32
  fmtp : Option Text
  hasRtpmap : Bool
deriving DecidableEq, Repr

/-- A payload type that cannot be named. -/
structure UnmappedPayload where
  payloadType : UInt8
  mediaType : SdpMediaType
deriving DecidableEq, Repr

/-- An entry of a parsed offer. -/
inductive SdpCodecEntry where
  | rtp (codec : SdpCodec)
  | t38
deriving DecidableEq, Repr

/-! ### The attributes of a section -/

/-- Skip a run of spaces and tabs. -/
def skipWs (text : Text) : Text := text.dropWhile fun c => c = ' ' || c = '\t'

/-- Skip white space, take the digits of a number below `bound`, and skip white space again. -/
def number (bound : Nat) (text : Text) : Option (UInt32 × Text) :=
  match atoiPrefix (skipWs text) with
  | (some value, rest) => if value.toNat < bound then some (value, skipWs rest) else none
  | (none, _) => none

/-- Skip white space, then take what is neither white space nor a char that stops. -/
def field (stop : List Char) (text : Text) : Text × Text :=
  let takes := fun c => !(c = ' ' || c = '\t' || stop.contains c)
  ((skipWs text).takeWhile takes, (skipWs text).dropWhile takes)

/-- The text behind an expected char. -/
def eat (c : Char) : Text → Option Text
  | [] => none
  | head :: rest => if head = c then some rest else none

/-- The channel count behind a clock rate, and what is left: a `/` with nothing behind it gives
none. -/
def rtpmapChannels (text : Text) : Option (Option UInt32 × Text) :=
  match eat '/' text with
  | none => some (none, text)
  | some rest =>
      if skipWs rest = [] then some (none, [])
      else (number (2 ^ 32) (skipWs rest)).map fun parsed => (some parsed.1, parsed.2)

/-- The parts of an rtpmap value, if it has them all and nothing else. -/
def rtpmapParts (value : Text) : Option (UInt8 × Encoding) := do
  let (pt, rest) ← number 256 value
  let (name, rest) := field ['/'] rest
  if name = [] then none
  else do
    let rest ← eat '/' rest
    let (clockRate, rest) ← number (2 ^ 32) rest
    let (channels, rest) ← rtpmapChannels rest
    if rest = [] then some (pt.toUInt8, ⟨name, clockRate, channels⟩) else none

/-- `a=rtpmap:<pt> <name>/<rate>[/<channels>]`. -/
def parseRtpmap (value : Text) : Except SdpCodecError (UInt8 × Encoding) :=
  (rtpmapParts value).elim (.error (.malformedRtpmap value)) .ok

/-- `a=fmtp:<pt> <params>`, the parameters as they stand. -/
def parseFmtpPt (value : Text) : Except SdpCodecError (UInt8 × Text) :=
  (number 256 value).elim (.error (.malformedFmtp value)) fun parsed =>
    .ok (parsed.1.toUInt8, parsed.2)

/-- A section's rtpmap and fmtp values, keyed by payload type. -/
structure AttrTables where
  rtpmap : UInt8 → Option Encoding
  fmtp : UInt8 → Option Text

/-- One attribute entered into the tables; a later one takes an earlier one's place. -/
def enterAttribute (tables : AttrTables) (attr : Attribute) : Except SdpCodecError AttrTables :=
  match attr.value with
  | none => .ok tables
  | some value =>
      if attr.name = "rtpmap".toList then do
        let (pt, encoding) ← parseRtpmap value
        return { tables with rtpmap := Function.update tables.rtpmap pt (some encoding) }
      else if attr.name = "fmtp".toList then do
        let (pt, params) ← parseFmtpPt value
        return { tables with fmtp := Function.update tables.fmtp pt (some params) }
      else .ok tables

/-- A section's attributes as lookup tables. -/
def attributeTables (media : Media) : Except SdpCodecError AttrTables :=
  media.attributes.foldlM enterAttribute ⟨fun _ => none, fun _ => none⟩

/-- A packetization value, with a warning for zero and for what is no number; a fraction is cut off.
-/
def parsePtimeValue (raw : Text) (attr : String) : Option UInt32 × List SdpWarning :=
  let digits := ((Text.splitFirst '.' raw).map Prod.fst).getD raw
  match atoiPrefix digits with
  | (some n, []) => if n ≠ 0 then (some n, []) else (none, [.unparseableNumericAttribute attr raw])
  | _ => (none, [.unparseableNumericAttribute attr raw])

/-- The packetization of the first attribute of a name. -/
def ptimeFromAttrs (attrs : List Attribute) (name : String) : Option UInt32 × List SdpWarning :=
  match (attrs.find? fun attr => attr.name = name.toList).bind (·.value) with
  | some value => parsePtimeValue value name
  | none => (none, [])

/-- The first direction attribute; one in another case is warned of and is none. -/
def directionFromAttrs : List Attribute → Option SdpDirection × List SdpWarning
  | [] => (none, [])
  | attr :: attrs =>
      if attr.value ≠ none ∨ ¬directions.any (fun d => Text.eqIgnoreCase d.toText attr.name) then
        directionFromAttrs attrs
      else
        match directions.find? fun d => d.toText = attr.name with
        | some direction => (some direction, [])
        | none =>
            let later := directionFromAttrs attrs
            (later.1, .nonCanonicalDirectionAttribute attr.name :: later.2)

/-- A named parameter of a semicolon-delimited fmtp. -/
def fmtpParam (fmtp : Text) (key : String) : Option Text :=
  (fmtp.splitOn ';').findSome? fun part =>
    match Text.splitFirst '=' (Text.trim part) with
    | some (k, v) => if Text.eqIgnoreCase (Text.trim k) key.toList then some (Text.trim v) else none
    | none => none

/-! ### The walk over a format list -/

/-- What a codec's own fmtp parser contributes. -/
inductive FmtpRule where
  | none
  | ptime
  | ilbcMode
  | bitrate
deriving DecidableEq, Repr

/-- A codec whose ptime or bitrate is not what the generic resolution yields. -/
structure CodecQuirk where
  name : String
  noFmtp : Option (UInt32 × UInt32)
  fmtp : FmtpRule
deriving DecidableEq, Repr

/-- The codecs with a resolution of their own. -/
def codecQuirks : List CodecQuirk :=
  [⟨"ilbc", some (30, 13330), .ilbcMode⟩, ⟨"isac", some (30, 32000), .none⟩, ⟨"opus", none, .ptime⟩,
    ⟨"g7221", none, .bitrate⟩]

/-- One payload's resolved packetization and bitrate. -/
structure PtimeBitrate where
  ptime : Option UInt32
  bitrate : Option UInt32
deriving DecidableEq, Repr

/-- What a quirk's fmtp rule makes of the generic resolution. -/
def applyFmtpRule (generic : PtimeBitrate) (fmtp : Text) : FmtpRule → PtimeBitrate × List SdpWarning
  | .none => (generic, [])
  | .ptime =>
      match fmtpParam fmtp "ptime" with
      | some p =>
          let parsed := parsePtimeValue p "fmtp ptime"
          ({ generic with ptime := parsed.1.orElse fun _ => generic.ptime }, parsed.2)
      | none => (generic, [])
  | .ilbcMode =>
      match fmtpParam fmtp "mode" with
      | some m =>
          let parsed := parsePtimeValue m "fmtp mode"
          ({ generic with ptime := some (parsed.1.getD 30) }, parsed.2)
      | none => ({ generic with ptime := some 30 }, [])
  | .bitrate =>
      match fmtpParam fmtp "bitrate" with
      | some raw =>
          match Text.parseUnsigned 32 raw with
          | some bitrate => ({ generic with bitrate := some (UInt32.ofNat bitrate) }, [])
          | none => (generic, [.unparseableNumericAttribute "fmtp bitrate" raw])
      | none => (generic, [])

/-- One payload's ptime and bitrate, a later step beating an earlier one. -/
def resolvePtimeBitrate (canonical : Text) (pt : UInt8) (fmtp : Option Text)
    (mediaPtime : Option UInt32) :
    PtimeBitrate × List SdpWarning :=
  let generic : PtimeBitrate := ⟨some (mediaPtime.getD (defaultPtime canonical)), knownBitrate pt⟩
  match codecQuirks.find? fun quirk => Text.eqIgnoreCase quirk.name.toList canonical with
  | none => (generic, [])
  | some quirk =>
      match fmtp with
      | none => ((quirk.noFmtp.map fun forced => ⟨some forced.1, some forced.2⟩).getD generic, [])
      | some fmtp => applyFmtpRule generic fmtp quirk.fmtp

/-- An encoding name the switch negotiates outside the codec string. -/
def nonCodecKind (canonical : Text) : Option NonCodecKind :=
  if Text.eqIgnoreCase canonical "telephone-event".toList then some .telephoneEvent
  else if Text.eqIgnoreCase canonical "CN".toList then some .comfortNoise
  else none

/-- What one section's walk inherits. -/
structure SessionDefaults where
  ptime : Option UInt32
  maxptime : Option UInt32
  direction : SdpDirection
deriving DecidableEq, Repr

/-- One section's walk, staged so that a failure discards it whole. -/
structure MediaSection where
  entries : List SdpCodecEntry
  unmapped : List UnmappedPayload
  warnings : List SdpWarning
  nonCodec : List NonCodecPayload
deriving DecidableEq, Repr

/-- What a payload type stands for, and whether an rtpmap says so. -/
def AttrTables.encoding (tables : AttrTables) (pt : UInt8) : Option (Encoding × Bool) :=
  match tables.rtpmap pt with
  | some encoding => some (encoding, true)
  | none => (rfc3551PayloadType pt).map (·, false)

/-- An audio section's codec with no channel count is mono. -/
def channelsFor (mediaType : SdpMediaType) (channels : Option UInt32) : Option UInt32 :=
  match mediaType, channels with
  | .audio, none => some 1
  | _, _ => channels

/-- One token of a format list walked into a section. -/
def walkPayload (tables : AttrTables) (mediaType : SdpMediaType)
    (mediaPtime mediaMaxptime : Option UInt32)
    (direction : SdpDirection) (staged : MediaSection) (token : Text) :
    Except SdpCodecError MediaSection :=
  match (Text.parseUnsigned 8 token).map UInt8.ofNat with
  | none => .error (.nonNumericPayloadType token)
  | some pt =>
      match tables.encoding pt with
      | none => .ok { staged with unmapped := staged.unmapped ++ [⟨pt, mediaType⟩] }
      | some (encoding, hasRtpmap) =>
          let canonical := canonicalIananame encoding.name
          let fmtp := tables.fmtp pt
          match nonCodecKind canonical with
          | some kind => .ok { staged with
              nonCodec := staged.nonCodec ++
                [⟨kind, pt, mediaType, encoding.clockRate, fmtp, hasRtpmap⟩] }
          | none =>
              let resolved := resolvePtimeBitrate canonical pt fmtp mediaPtime
              .ok { staged with
                entries := staged.entries ++ [.rtp ⟨mediaType, pt, canonical, encoding.clockRate,
                  channelsFor mediaType encoding.channels, fmtp, resolved.1.ptime, mediaMaxptime,
                  resolved.1.bitrate, direction, hasRtpmap⟩]
                warnings := staged.warnings ++ resolved.2 }

/-- Walk one RTP section's format list into codec entries. -/
def parseMediaSection (media : Media) (mediaType : SdpMediaType) (defaults : SessionDefaults) :
    Except SdpCodecError MediaSection := do
  let ptime := ptimeFromAttrs media.attributes "ptime"
  let maxptime := ptimeFromAttrs media.attributes "maxptime"
  let tables ← attributeTables media
  (Text.splitWhitespace media.fmt).foldlM
    (walkPayload tables mediaType (ptime.1.orElse fun _ => defaults.ptime)
      (maxptime.1.orElse fun _ => defaults.maxptime) defaults.direction)
    ⟨[], [], ptime.2 ++ maxptime.2, []⟩

/-- A section's format list is RTP payload types. -/
def protoHasRtp (proto : Text) : Bool :=
  ["RTP", "RTP/AVP", "RTP/AVPF", "RTP/SAVP", "RTP/SAVPF", "UDP/RTP/AVPF", "UDP/TLS/RTP/SAVP",
    "UDP/TLS/RTP/SAVPF"].any fun known => Text.eqIgnoreCase known.toList proto

/-! ### A whole session -/

/-- One `m=` section of an offer. -/
structure SdpMediaSection where
  mediaType : SdpMediaType
  port : UInt16
  proto : Text
  formats : Text
  direction : SdpDirection
  entries : List SdpCodecEntry
  unmapped : List UnmappedPayload
  nonCodec : List NonCodecPayload
deriving DecidableEq, Repr

/-- A section that feeds the codec string and the top-level views. -/
def SdpMediaSection.isNegotiable (part : SdpMediaSection) : Bool :=
  part.port ≠ 0 && (part.mediaType = .audio || part.mediaType = .video || part.mediaType.isImage)

/-- The codecs of a session. -/
structure SdpCodecs where
  sections : List SdpMediaSection
  warnings : List SdpWarning
deriving DecidableEq, Repr

/-- One section of a session: the section, and the warnings it adds. -/
def readMedia (sessionPtime sessionMaxptime : Option UInt32) (sessionDirection : SdpDirection)
    (media : Media) : SdpMediaSection × List SdpWarning :=
  let mediaType := SdpMediaType.fromStr media.media
  let direction := directionFromAttrs media.attributes
  let bare : SdpMediaSection := ⟨mediaType, media.port, media.proto, media.fmt,
    direction.1.getD sessionDirection, [], [], []⟩
  if mediaType.isImage then ({ bare with entries := [.t38] }, direction.2)
  else if protoHasRtp media.proto then
    match parseMediaSection media mediaType ⟨sessionPtime, sessionMaxptime, bare.direction⟩ with
    | .ok parsed =>
        ({ bare with
            entries := parsed.entries
            unmapped := parsed.unmapped
            nonCodec := parsed.nonCodec }, direction.2 ++ parsed.warnings)
    | .error e => (bare, direction.2 ++ [.malformedMediaSection mediaType.toText e.toText])
  else (bare, direction.2)

namespace SdpCodecs

/-- The codecs of a session, one section after the other. -/
def fromSession (session : Session) : SdpCodecs :=
  let ptime := ptimeFromAttrs session.attributes "ptime"
  let maxptime := ptimeFromAttrs session.attributes "maxptime"
  let direction := directionFromAttrs session.attributes
  session.medias.foldl
    (fun result media =>
      let read := readMedia ptime.1 maxptime.1 (direction.1.getD .sendRecv) media
      ⟨result.sections ++ [read.1], result.warnings ++ read.2⟩)
    ⟨[], ptime.2 ++ maxptime.2 ++ direction.2⟩

/-- The sections that feed the top-level views. -/
def negotiable (codecs : SdpCodecs) : List SdpMediaSection :=
  codecs.sections.filter (·.isNegotiable)

/-- Codec entries of the negotiable sections. -/
def entries (codecs : SdpCodecs) : List SdpCodecEntry := codecs.negotiable.flatMap (·.entries)

/-- Payload types of the negotiable sections that could not be named. -/
def unmapped (codecs : SdpCodecs) : List UnmappedPayload := codecs.negotiable.flatMap (·.unmapped)

/-- Payloads of the negotiable sections that are negotiated outside the codec string. -/
def nonCodecPayloads (codecs : SdpCodecs) : List NonCodecPayload :=
  codecs.negotiable.flatMap (·.nonCodec)

end SdpCodecs

/-! ### The tables of a section -/

/-- An rtpmap or fmtp attribute whose value is malformed. -/
def BadAttribute (attr : Attribute) : Prop :=
  ∃ value ∈ attr.value, attr.name = "rtpmap".toList ∧ rtpmapParts value = none ∨
    attr.name = "fmtp".toList ∧ number 256 value = none

/-- What an attribute says of a payload type, if it is an rtpmap for it. -/
def rtpmapOf (pt : UInt8) (attr : Attribute) : Option Encoding :=
  if attr.name = "rtpmap".toList then
    ((attr.value.bind rtpmapParts).filter (·.1 = pt)).map Prod.snd
  else none

/-- The last rtpmap of a section for a payload type. -/
def lastRtpmap (attrs : List Attribute) (pt : UInt8) : Option Encoding :=
  (attrs.filterMap (rtpmapOf pt)).getLast?

/-- What entering one attribute does: it fails exactly on a malformed value, and an rtpmap takes its
payload type's place. -/
theorem enterAttribute_cases (tables : AttrTables) (attr : Attribute) :
    (BadAttribute attr ∧ ∃ e, enterAttribute tables attr = .error e) ∨
      (¬BadAttribute attr ∧ ∃ entered, enterAttribute tables attr = .ok entered ∧
        ∀ pt, entered.rtpmap pt = (rtpmapOf pt attr).or (tables.rtpmap pt)) := by
  have hnames : "fmtp".toList ≠ "rtpmap".toList := by decide
  obtain ⟨name, value⟩ := attr
  cases value with
  | none =>
      refine .inr ⟨?_, tables, rfl, fun pt => ?_⟩
      · rintro ⟨value, hvalue, -⟩
        cases hvalue
      · rw [rtpmapOf]
        split
        · rfl
        · rfl
  | some value =>
      by_cases hrtpmap : name = "rtpmap".toList
      · cases hparts : rtpmapParts value with
        | none =>
            refine .inl ⟨⟨value, rfl, .inl ⟨hrtpmap, hparts⟩⟩, .malformedRtpmap value, ?_⟩
            simp only [enterAttribute, if_pos hrtpmap, parseRtpmap, hparts]
            rfl
        | some parts =>
            refine .inr ⟨?_, ⟨Function.update tables.rtpmap parts.1 (some parts.2), tables.fmtp⟩,
              ?_, ?_⟩
            · rintro ⟨other, hother, ⟨-, hnone⟩ | ⟨hname, -⟩⟩
              · obtain rfl := Option.some.inj hother
                rw [hparts] at hnone
                cases hnone
              · exact hnames (hname.symm.trans hrtpmap)
            · simp only [enterAttribute, if_pos hrtpmap, parseRtpmap, hparts]
              rfl
            · intro pt
              rw [rtpmapOf, if_pos hrtpmap]
              simp only [Option.bind_some, hparts, Option.filter_some]
              by_cases hpt : parts.1 = pt
              · subst hpt
                simp
              · simp [hpt, Function.update_of_ne (Ne.symm hpt)]
      · by_cases hfmtp : name = "fmtp".toList
        · cases hparts : number 256 value with
          | none =>
              refine .inl ⟨⟨value, rfl, .inr ⟨hfmtp, hparts⟩⟩, .malformedFmtp value, ?_⟩
              simp only [enterAttribute, if_neg hrtpmap, if_pos hfmtp, parseFmtpPt, hparts]
              rfl
          | some parts =>
              refine .inr ⟨?_, ⟨tables.rtpmap, Function.update tables.fmtp parts.1.toUInt8
                (some parts.2)⟩,
                ?_, ?_⟩
              · rintro ⟨other, hother, ⟨hname, -⟩ | ⟨-, hnone⟩⟩
                · exact hrtpmap hname
                · obtain rfl := Option.some.inj hother
                  rw [hparts] at hnone
                  cases hnone
              · simp only [enterAttribute, if_neg hrtpmap, if_pos hfmtp, parseFmtpPt, hparts]
                rfl
              · intro pt
                rw [rtpmapOf, if_neg hrtpmap, Option.none_or]
        · refine .inr ⟨?_, tables, ?_, ?_⟩
          · rintro ⟨other, -, ⟨hname, -⟩ | ⟨hname, -⟩⟩
            · exact hrtpmap hname
            · exact hfmtp hname
          · simp only [enterAttribute, if_neg hrtpmap, if_neg hfmtp]
          · intro pt
            rw [rtpmapOf, if_neg hrtpmap, Option.none_or]

/-- **A section's tables fail exactly on a malformed value, and hold the last rtpmap of each payload
type.** -/
theorem foldlM_enterAttribute (attrs : List Attribute) (tables : AttrTables) :
    ((∃ attr ∈ attrs, BadAttribute attr) ∧ ∃ e, attrs.foldlM enterAttribute tables = .error e) ∨
      ((∀ attr ∈ attrs, ¬BadAttribute attr) ∧ ∃ entered, attrs.foldlM enterAttribute tables =
        .ok entered ∧
        ∀ pt, entered.rtpmap pt = (lastRtpmap attrs pt).or (tables.rtpmap pt)) := by
  induction attrs generalizing tables with
  | nil => exact .inr ⟨nofun, tables, rfl, fun _ => rfl⟩
  | cons attr attrs ih =>
      rw [List.foldlM_cons]
      rcases enterAttribute_cases tables attr with ⟨hbad, e, he⟩ | ⟨hgood, middle, hmiddle, hlook⟩
      · exact .inl ⟨⟨attr, List.mem_cons_self, hbad⟩, e, by rw [he]; rfl⟩
      · rw [hmiddle]
        rcases ih middle with ⟨⟨other, hother, hbad⟩, e, he⟩ | ⟨hall, entered, hentered, hlater⟩
        · exact .inl ⟨⟨other, List.mem_cons_of_mem _ hother, hbad⟩, e, he⟩
        · refine .inr ⟨List.forall_mem_cons.mpr ⟨hgood, hall⟩, entered, hentered, fun pt => ?_⟩
          rw [hlater, hlook, ← Option.or_assoc]
          congr 1
          rw [lastRtpmap, lastRtpmap, List.filterMap_cons]
          cases rtpmapOf pt attr with
          | none => rw [Option.or_none]
          | some encoding =>
              rw [List.getLast?_cons]
              cases (attrs.filterMap (rtpmapOf pt)).getLast? with
              | none => rfl
              | some last => rfl

/-! ### Every payload type at its own place -/

/-- A token of a format list as a payload type. -/
def payloadType (token : Text) : Option UInt8 := (Text.parseUnsigned 8 token).map UInt8.ofNat

/-- A section some value or token of which cannot be read. -/
def Malformed (media : Media) : Prop :=
  (∃ attr ∈ media.attributes, BadAttribute attr) ∨ ∃ token ∈ Text.splitWhitespace media.fmt,
    payloadType token = none

/-- What a payload type of a section stands for: its last rtpmap, else the static table. -/
def encodingOf (media : Media) (pt : UInt8) : Option Encoding :=
  (lastRtpmap media.attributes pt).or (rfc3551PayloadType pt)

/-- The payload types of a format list, each in order in exactly one of three lists, under the name,
clock rate and channel count it stands for. -/
inductive Placed (media : Media) (mediaType : SdpMediaType) :
    List UInt8 → List SdpCodecEntry → List UnmappedPayload → List NonCodecPayload → Prop
  | nil : Placed media mediaType [] [] [] []
  | codec {pt : UInt8} {encoding : Encoding} {codec : SdpCodec} {pts entries unmapped nonCodec}
      (hencoding : encodingOf media pt = some encoding)
      (hkind : nonCodecKind (canonicalIananame encoding.name) = none)
      (hpt : codec.payloadType = pt) (hname : codec.name = canonicalIananame encoding.name)
      (hrate : codec.clockRate = encoding.clockRate)
      (hchannels : codec.channels = channelsFor mediaType encoding.channels)
      (hrest : Placed media mediaType pts entries unmapped nonCodec) :
      Placed media mediaType (pt :: pts) (.rtp codec :: entries) unmapped nonCodec
  | unmapped {pt : UInt8} {pts entries unmapped nonCodec} (hencoding : encodingOf media pt = none)
      (hrest : Placed media mediaType pts entries unmapped nonCodec) :
      Placed media mediaType (pt :: pts) entries (⟨pt, mediaType⟩ :: unmapped) nonCodec
  | nonCodec {pt : UInt8} {encoding : Encoding} {payload : NonCodecPayload}
    {pts entries unmapped nonCodec}
      (hencoding : encodingOf media pt = some encoding)
      (hkind : nonCodecKind (canonicalIananame encoding.name) = some payload.kind)
      (hpt : payload.payloadType = pt) (hrate : payload.clockRate = encoding.clockRate)
      (hrest : Placed media mediaType pts entries unmapped nonCodec) :
      Placed media mediaType (pt :: pts) entries unmapped (payload :: nonCodec)

/-- No payload type is placed as a fax stream. -/
theorem Placed.ne_t38 {media : Media} {mediaType : SdpMediaType} {pts : List UInt8}
    {entries : List SdpCodecEntry} {unmapped : List UnmappedPayload}
    {nonCodec : List NonCodecPayload}
    (h : Placed media mediaType pts entries unmapped nonCodec) :
    ∀ entry ∈ entries, entry ≠ .t38 := by
  induction h with
  | nil => exact fun _ h => absurd h List.not_mem_nil
  | codec _ _ _ _ _ _ _ ih =>
      exact List.forall_mem_cons.mpr ⟨fun h => SdpCodecEntry.noConfusion h, ih⟩
  | unmapped _ _ ih => exact ih
  | nonCodec _ _ _ _ _ ih => exact ih

/-- A warning of a section that was skipped. -/
def isMalformedMediaSection : SdpWarning → Bool
  | .malformedMediaSection _ _ => true
  | _ => false

/-- Warnings of which none is of a skipped section. -/
def NoneSkipped (warnings : List SdpWarning) : Prop := warnings.countP isMalformedMediaSection = 0

theorem NoneSkipped.append {left right : List SdpWarning} (hleft : NoneSkipped left)
    (hright : NoneSkipped right) : NoneSkipped (left ++ right) := by
  rw [NoneSkipped, List.countP_append, hleft, hright]

theorem noneSkipped_parsePtimeValue (raw : Text) (attr : String) :
    NoneSkipped (parsePtimeValue raw attr).2 := by
  unfold parsePtimeValue
  simp only
  split
  · split
    · rfl
    · rfl
  · rfl

theorem noneSkipped_ptimeFromAttrs (attrs : List Attribute) (name : String) :
    NoneSkipped (ptimeFromAttrs attrs name).2 := by
  unfold ptimeFromAttrs
  split
  · exact noneSkipped_parsePtimeValue _ _
  · rfl

theorem noneSkipped_directionFromAttrs (attrs : List Attribute) :
    NoneSkipped (directionFromAttrs attrs).2 := by
  induction attrs with
  | nil => rfl
  | cons attr attrs ih =>
      unfold directionFromAttrs
      split
      · exact ih
      · split
        · rfl
        · rw [NoneSkipped, List.countP_cons_of_neg (by simp [isMalformedMediaSection])]
          exact ih

theorem noneSkipped_resolvePtimeBitrate (canonical : Text) (pt : UInt8) (fmtp : Option Text)
    (mediaPtime : Option UInt32) :
    NoneSkipped (resolvePtimeBitrate canonical pt fmtp mediaPtime).2 := by
  unfold resolvePtimeBitrate
  simp only
  split
  · rfl
  · rename_i quirk hquirk
    split
    · rfl
    · rename_i fmtp
      unfold applyFmtpRule
      split
      · rfl
      · split
        · exact noneSkipped_parsePtimeValue _ _
        · rfl
      · split
        · exact noneSkipped_parsePtimeValue _ _
        · rfl
      · split
        · split
          · rfl
          · rfl
        · rfl

section Walk

variable {media : Media} (mediaType : SdpMediaType) {tables : AttrTables}

/-- One token of a section's format list: it fails as no payload type, or is placed behind what is
staged. -/
theorem walkPayload_cases (htables : ∀ pt, tables.rtpmap pt = lastRtpmap media.attributes pt)
    (mediaPtime mediaMaxptime : Option UInt32) (direction : SdpDirection) (staged : MediaSection)
    (token : Text) :
    (payloadType token = none ∧
      ∃ e, walkPayload tables mediaType mediaPtime mediaMaxptime direction staged
        token = .error e) ∨
      ∃ pt placed, payloadType token = some pt ∧
        walkPayload tables mediaType mediaPtime mediaMaxptime direction staged token = .ok placed ∧
        (NoneSkipped staged.warnings → NoneSkipped placed.warnings) ∧
        ∃ entries unmapped nonCodec, placed.entries = staged.entries ++ entries ∧
          placed.unmapped = staged.unmapped ++ unmapped ∧
            placed.nonCodec = staged.nonCodec ++ nonCodec ∧
          ∀ {pts entries' unmapped' nonCodec'},
            Placed media mediaType pts entries' unmapped' nonCodec' →
            Placed media mediaType (pt :: pts) (entries ++ entries') (unmapped ++ unmapped')
              (nonCodec ++ nonCodec') := by
  cases hpt : payloadType token with
  | none =>
      refine .inl ⟨rfl, .nonNumericPayloadType token, ?_⟩
      rw [payloadType] at hpt
      simp only [walkPayload, hpt]
  | some pt =>
      have hread : (Text.parseUnsigned 8 token).map UInt8.ofNat = some pt := hpt
      have hencoding : (tables.encoding pt).map Prod.fst = encodingOf media pt := by
        rw [AttrTables.encoding, htables, encodingOf]
        cases lastRtpmap media.attributes pt with
        | some encoding => rfl
        | none =>
            rw [Option.none_or]
            cases rfc3551PayloadType pt with
            | none => rfl
            | some encoding => rfl
      cases hfound : tables.encoding pt with
      | none =>
          have hnone : encodingOf media pt = none := by rw [← hencoding, hfound, Option.map_none]
          refine .inr ⟨pt, { staged with unmapped := staged.unmapped ++ [⟨pt, mediaType⟩] }, rfl,
            by simp only [walkPayload, hread, hfound], id, [], [⟨pt, mediaType⟩], [],
            (List.append_nil _).symm, rfl, (List.append_nil _).symm, ?_⟩
          exact fun hrest => .unmapped hnone hrest
      | some found =>
          obtain ⟨encoding, hasRtpmap⟩ := found
          have hsome : encodingOf media pt = some encoding := by
            rw [← hencoding, hfound, Option.map_some]
          cases hkind : nonCodecKind (canonicalIananame encoding.name) with
          | some kind =>
              refine .inr ⟨pt, { staged with nonCodec := staged.nonCodec ++
                  [⟨kind, pt, mediaType, encoding.clockRate, tables.fmtp pt, hasRtpmap⟩] }, rfl,
                by simp only [walkPayload, hread, hfound, hkind], id, [], [], [_],
                (List.append_nil _).symm, (List.append_nil _).symm, rfl, ?_⟩
              exact fun hrest => .nonCodec hsome hkind rfl rfl hrest
          | none =>
              let resolved := resolvePtimeBitrate (canonicalIananame encoding.name) pt
                (tables.fmtp pt)
                mediaPtime
              refine .inr ⟨pt, { staged with
                  entries := staged.entries ++
                    [.rtp ⟨mediaType, pt, canonicalIananame encoding.name,
                    encoding.clockRate, channelsFor mediaType encoding.channels, tables.fmtp pt,
                    resolved.1.ptime, mediaMaxptime, resolved.1.bitrate, direction, hasRtpmap⟩]
                  warnings := staged.warnings ++ resolved.2 }, rfl,
                by simp only [walkPayload, hread, hfound, hkind, resolved],
                fun hnone => hnone.append (noneSkipped_resolvePtimeBitrate _ _ _ _), [_], [], [],
                rfl, (List.append_nil _).symm, (List.append_nil _).symm, ?_⟩
              exact fun hrest => .codec hsome hkind rfl rfl rfl rfl hrest

/-- **A format list is walked whole, every payload type at its own place, or fails on a token that
is no payload type.** -/
theorem foldlM_walkPayload (htables : ∀ pt, tables.rtpmap pt = lastRtpmap media.attributes pt)
    (mediaPtime mediaMaxptime : Option UInt32) (direction : SdpDirection) (tokens : List Text)
    (staged : MediaSection) :
    ((∃ token ∈ tokens, payloadType token = none) ∧ ∃ e, tokens.foldlM
        (walkPayload tables mediaType mediaPtime mediaMaxptime direction) staged = .error e) ∨
      ∃ pts placed, tokens.map payloadType = pts.map some ∧
        tokens.foldlM (walkPayload tables mediaType mediaPtime mediaMaxptime direction) staged =
          .ok placed ∧
        (NoneSkipped staged.warnings → NoneSkipped placed.warnings) ∧
        ∃ entries unmapped nonCodec, placed.entries = staged.entries ++ entries ∧
          placed.unmapped = staged.unmapped ++ unmapped ∧
            placed.nonCodec = staged.nonCodec ++ nonCodec ∧
          Placed media mediaType pts entries unmapped nonCodec := by
  induction tokens generalizing staged with
  | nil =>
      exact .inr ⟨[], staged, rfl, rfl, id, [], [], [], (List.append_nil _).symm,
        (List.append_nil _).symm, (List.append_nil _).symm, .nil⟩
  | cons token tokens ih =>
      rw [List.foldlM_cons]
      rcases walkPayload_cases mediaType htables mediaPtime mediaMaxptime direction staged
        token with
        ⟨hnone, e, he⟩ | ⟨pt, middle, hpt, hmiddle, hwarn, es, us, ns, hes, hus, hns, hplace⟩
      · exact .inl ⟨⟨token, List.mem_cons_self, hnone⟩, e, by rw [he]; rfl⟩
      · rw [hmiddle]
        rcases ih middle with ⟨⟨other, hother, hnone⟩, e, he⟩ |
          ⟨pts, placed, hpts, hplaced, hwarn', es', us', ns', hes', hus', hns', hrest⟩
        · exact .inl ⟨⟨other, List.mem_cons_of_mem _ hother, hnone⟩, e, he⟩
        · refine .inr ⟨pt :: pts, placed, ?_, hplaced, fun h => hwarn' (hwarn h), es ++ es',
            us ++ us', ns ++ ns', ?_, ?_, ?_, hplace hrest⟩
          · rw [List.map_cons, List.map_cons, hpt, hpts]
          · rw [hes', hes, List.append_assoc]
          · rw [hus', hus, List.append_assoc]
          · rw [hns', hns, List.append_assoc]

end Walk

/-- A section's walk fails exactly on a malformed section, and places every payload type of any
other. -/
theorem parseMediaSection_cases (media : Media) (mediaType : SdpMediaType)
    (defaults : SessionDefaults) :
    (Malformed media ∧ ∃ e, parseMediaSection media mediaType defaults = .error e) ∨
      (¬Malformed media ∧ ∃ pts placed,
        (Text.splitWhitespace media.fmt).map payloadType = pts.map some ∧
        parseMediaSection media mediaType defaults = .ok placed ∧ NoneSkipped placed.warnings ∧
        Placed media mediaType pts placed.entries placed.unmapped placed.nonCodec) := by
  rcases foldlM_enterAttribute media.attributes ⟨fun _ => none, fun _ => none⟩ with
    ⟨hbad, e, he⟩ | ⟨hgood, tables, htables, hlook⟩
  · refine .inl ⟨.inl hbad, e, ?_⟩
    simp only [parseMediaSection, attributeTables, he]
    rfl
  · have hlast : ∀ pt, tables.rtpmap pt = lastRtpmap media.attributes pt := fun pt => by
      rw [hlook, Option.or_none]
    have hsection : parseMediaSection media mediaType defaults =
        (Text.splitWhitespace media.fmt).foldlM
        (walkPayload tables mediaType ((ptimeFromAttrs media.attributes "ptime").1.orElse
            fun _ => defaults.ptime)
          ((ptimeFromAttrs media.attributes "maxptime").1.orElse fun _ => defaults.maxptime)
          defaults.direction)
        ⟨[], [], (ptimeFromAttrs media.attributes "ptime").2 ++
          (ptimeFromAttrs media.attributes "maxptime").2, []⟩ := by
      simp only [parseMediaSection, attributeTables, htables]
      rfl
    have hstaged := (noneSkipped_ptimeFromAttrs media.attributes "ptime").append
      (noneSkipped_ptimeFromAttrs media.attributes "maxptime")
    rw [hsection]
    rcases foldlM_walkPayload mediaType hlast _ _ _ (Text.splitWhitespace media.fmt) _ with
      ⟨hnone, e, he⟩ | ⟨pts, placed, hpts, hplaced, hwarn, es, us, ns, hes, hus, hns, hplace⟩
    · exact .inl ⟨.inr hnone, e, he⟩
    · refine .inr ⟨?_, pts, placed, hpts, hplaced, hwarn hstaged, ?_⟩
      · rintro (⟨attr, hattr, hbad⟩ | ⟨token, htoken, hnone⟩)
        · exact hgood attr hattr hbad
        · have hmem : payloadType token ∈ pts.map some := hpts ▸ List.mem_map_of_mem htoken
          obtain ⟨pt, -, hpt⟩ := List.mem_map.mp hmem
          rw [hnone] at hpt
          cases hpt
      · rw [hes, hus, hns]
        exact hplace

/-! ### The sections of a session -/

/-- One section of a session: the section, and the warnings it adds. -/
def Session.read (session : Session) (media : Media) : SdpMediaSection × List SdpWarning :=
  readMedia (ptimeFromAttrs session.attributes "ptime").1
    (ptimeFromAttrs session.attributes "maxptime").1
    ((directionFromAttrs session.attributes).1.getD .sendRecv) media

/-- The warnings of the session's own attributes. -/
def Session.ownWarnings (session : Session) : List SdpWarning :=
  (ptimeFromAttrs session.attributes "ptime").2 ++
    (ptimeFromAttrs session.attributes "maxptime").2 ++
    (directionFromAttrs session.attributes).2

/-- A session's sections and warnings are those of its media, in offer order. -/
theorem fromSession_eq (session : Session) :
    SdpCodecs.fromSession session =
      ⟨session.medias.map fun media => (session.read media).1,
        session.ownWarnings ++ session.medias.flatMap fun media => (session.read media).2⟩ := by
  have hfold : ∀ (medias : List Media) (sections : List SdpMediaSection)
      (warnings : List SdpWarning), medias.foldl (fun result media =>
          SdpCodecs.mk (result.sections ++ [(session.read media).1])
            (result.warnings ++ (session.read media).2))
        ⟨sections, warnings⟩ =
      ⟨sections ++ medias.map fun media => (session.read media).1,
        warnings ++ medias.flatMap fun media => (session.read media).2⟩ := by
    intro medias
    induction medias with
    | nil => simp
    | cons media medias ih =>
        intro sections warnings
        rw [List.foldl_cons, ih]
        simp
  exact hfold session.medias [] session.ownWarnings

/-- A section that was skipped: a value or token of it is malformed, it holds nothing, and exactly
one warning says so. -/
structure Skipped (media : Media) (read : SdpMediaSection × List SdpWarning) : Prop where
  malformed : Malformed media
  entries : read.1.entries = []
  unmapped : read.1.unmapped = []
  nonCodec : read.1.nonCodec = []
  warning : ∃ reason, read.2.filter isMalformedMediaSection =
    [.malformedMediaSection read.1.mediaType.toText reason]

/-- A section that was walked: nothing of it is malformed, every token of its format list is at its
own place, and no warning says that it was skipped. -/
structure Accounted (media : Media) (read : SdpMediaSection × List SdpWarning) : Prop where
  wellFormed : ¬Malformed media
  placed : ∃ pts, (Text.splitWhitespace media.fmt).map payloadType = pts.map some ∧
    Placed media read.1.mediaType pts read.1.entries read.1.unmapped read.1.nonCodec
  warnings : NoneSkipped read.2

theorem NoneSkipped.filter {warnings : List SdpWarning} (h : NoneSkipped warnings) :
    warnings.filter isMalformedMediaSection = [] := by
  rw [NoneSkipped, List.countP_eq_length_filter] at h
  exact List.length_eq_zero_iff.mp h

/-- An RTP section is skipped or accounted for. -/
theorem read_cases (session : Session) {media : Media} (hrtp : protoHasRtp media.proto = true)
    (himage : (SdpMediaType.fromStr media.media).isImage = false) :
    Skipped media (session.read media) ∨ Accounted media (session.read media) := by
  have hdirection := noneSkipped_directionFromAttrs media.attributes
  have hnot : ¬((SdpMediaType.fromStr media.media).isImage = true) := by simp [himage]
  simp only [Session.read, readMedia, if_neg hnot, if_pos hrtp]
  rcases parseMediaSection_cases media (SdpMediaType.fromStr media.media)
      ⟨(ptimeFromAttrs session.attributes "ptime").1,
        (ptimeFromAttrs session.attributes "maxptime").1,
        (directionFromAttrs media.attributes).1.getD
          ((directionFromAttrs session.attributes).1.getD .sendRecv)⟩ with
    ⟨hmalformed, e, he⟩ | ⟨hwell, pts, placed, hpts, hplaced, hwarn, hplace⟩
  · simp only [he]
    refine .inl ⟨hmalformed, rfl, rfl, rfl, e.toText, ?_⟩
    rw [List.filter_append, hdirection.filter]
    rfl
  · simp only [hplaced]
    exact .inr ⟨hwell, ⟨pts, hpts, hplace⟩, hdirection.append hwarn⟩

/-- **Every payload type of an offer is accounted for.** Each RTP section that is no image is
skipped, with one warning, or has every token of its format list at its own place, and never both; a
section is read from its own lines and the session's, whatever the others are; and the top-level
views are those of the negotiable sections, in offer order. -/
theorem payloads_accounted (session : Session) :
    (SdpCodecs.fromSession session).sections = session.medias.map
    (fun media => (session.read media).1) ∧
    (SdpCodecs.fromSession session).warnings =
      session.ownWarnings ++ session.medias.flatMap (fun media => (session.read media).2) ∧
    NoneSkipped session.ownWarnings ∧
    (∀ media ∈ session.medias, protoHasRtp media.proto = true →
      (SdpMediaType.fromStr media.media).isImage = false →
      Xor (Skipped media (session.read media)) (Accounted media (session.read media))) ∧
    (∀ before media after, session.medias = before ++ media :: after →
      (SdpCodecs.fromSession session).sections =
        (SdpCodecs.fromSession { session with medias := before }).sections ++
          (session.read media).1 ::
          (SdpCodecs.fromSession { session with medias := after }).sections) ∧
    (SdpCodecs.fromSession session).entries =
      ((SdpCodecs.fromSession session).sections.filter (·.isNegotiable)).flatMap (·.entries) ∧
    (SdpCodecs.fromSession session).unmapped =
      ((SdpCodecs.fromSession session).sections.filter (·.isNegotiable)).flatMap (·.unmapped) ∧
    (SdpCodecs.fromSession session).nonCodecPayloads =
      ((SdpCodecs.fromSession session).sections.filter (·.isNegotiable)).flatMap (·.nonCodec) := by
  refine ⟨by rw [fromSession_eq], by rw [fromSession_eq], ?_, ?_, ?_, rfl, rfl, rfl⟩
  · exact ((noneSkipped_ptimeFromAttrs _ _).append (noneSkipped_ptimeFromAttrs _ _)).append
      (noneSkipped_directionFromAttrs _)
  · intro media _ hrtp himage
    rcases read_cases session hrtp himage with hskipped | haccounted
    · exact .inl ⟨hskipped, fun h => h.wellFormed hskipped.malformed⟩
    · exact .inr ⟨haccounted, fun h => haccounted.wellFormed h.malformed⟩
  · intro before media after hmedias
    rw [fromSession_eq, fromSession_eq, fromSession_eq, hmedias, List.map_append, List.map_cons]
    rfl

/-- An audio section with a repeated rtpmap, a comfort noise payload and one that cannot be named.
-/
def mixedMedia : Media :=
  ⟨"audio".toList, 4000, "RTP/AVP".toList, "96 13 97 96".toList,
    [⟨"rtpmap".toList, some "96 foo/8000".toList⟩,
    ⟨"rtpmap".toList, some "96 opus/48000/2".toList⟩]⟩

/-- A video section whose rtpmap has no clock rate. -/
def brokenMedia : Media :=
  ⟨"video".toList, 4002, "RTP/AVP".toList, "98".toList, [⟨"rtpmap".toList, some "98 VP8".toList⟩]⟩

theorem mixedMedia_accounted :
    Accounted mixedMedia (Session.read ⟨[], [brokenMedia, mixedMedia]⟩ mixedMedia) ∧
      Skipped brokenMedia (Session.read ⟨[], [brokenMedia, mixedMedia]⟩ brokenMedia) := by
  have hall := (payloads_accounted ⟨[], [brokenMedia, mixedMedia]⟩).2.2.2.1
  have hmixed := hall mixedMedia (by decide) (by decide +kernel) (by decide +kernel)
  have hbroken := hall brokenMedia (by decide) (by decide +kernel) (by decide +kernel)
  refine ⟨hmixed.resolve_left ?_ |>.1, hbroken.resolve_right ?_ |>.1⟩
  · intro h
    exact absurd h.1.entries (by decide +kernel)
  · intro h
    exact absurd h.1.warnings (by unfold NoneSkipped; decide +kernel)

/-- An image section with an RTP protocol. -/
def imageMedia : Media := ⟨"image".toList, 4004, "RTP/AVP".toList, "0".toList, []⟩

/-- An audio section whose rtpmap has a name in lower case and no channel count. -/
def lowerMedia : Media :=
  ⟨"audio".toList, 4006, "RTP/AVP".toList, "96".toList,
    [⟨"rtpmap".toList, some "96 pcmu/8000".toList⟩]⟩

/-- The image section has an RTP protocol, and is neither skipped nor accounted for: it is the fax
stream. The audio section's codec goes by the switch's name for it, and is mono. -/
theorem imageMedia_unaccounted :
    protoHasRtp imageMedia.proto = true ∧
      ¬Skipped imageMedia (Session.read ⟨[], [imageMedia, lowerMedia]⟩ imageMedia) ∧
      ¬Accounted imageMedia (Session.read ⟨[], [imageMedia, lowerMedia]⟩ imageMedia) ∧
      lastRtpmap lowerMedia.attributes 96 = some ⟨"pcmu".toList, 8000, none⟩ ∧
      (Session.read ⟨[], [imageMedia, lowerMedia]⟩ lowerMedia).1.entries =
        [.rtp ⟨.audio, 96, "PCMU".toList, 8000, some 1, none, some 20, none, none, .sendRecv,
          true⟩] := by
  have hentries : (Session.read ⟨[], [imageMedia, lowerMedia]⟩ imageMedia).1.entries = [.t38] := by
    decide +kernel
  refine ⟨by decide +kernel, ?_, ?_, by decide +kernel, by decide +kernel⟩
  · intro h
    exact absurd (hentries.symm.trans h.entries) (by decide)
  · rintro ⟨-, ⟨pts, -, hplaced⟩, -⟩
    rw [hentries] at hplaced
    exact hplaced.ne_t38 .t38 List.mem_cons_self rfl

end Sdp
end EslTokio
