import EslTokio.Library.Text

/-!
# Static payload types

`freeswitch-types/src/sdp/static_payload.rs`: the RFC 3551 table, the spellings the switch registers
its codecs under, and its default packetization and bitrates.
-/

namespace EslTokio
namespace Sdp

open Library

/-- A name, clock rate and channel count, from an rtpmap or the static table. -/
structure Encoding where
  name : Text
  clockRate : UInt32
  channels : Option UInt32
deriving DecidableEq, Repr

/-- The RFC 3551 static payload types; video and stream-defined types carry no channel count. -/
def rfc3551PayloadType (pt : UInt8) : Option Encoding :=
  match pt.toNat with
  | 0 => some ⟨"PCMU".toList, 8000, some 1⟩
  | 3 => some ⟨"GSM".toList, 8000, some 1⟩
  | 4 => some ⟨"G723".toList, 8000, some 1⟩
  | 5 => some ⟨"DVI4".toList, 8000, some 1⟩
  | 6 => some ⟨"DVI4".toList, 16000, some 1⟩
  | 7 => some ⟨"LPC".toList, 8000, some 1⟩
  | 8 => some ⟨"PCMA".toList, 8000, some 1⟩
  | 9 => some ⟨"G722".toList, 8000, some 1⟩
  | 10 => some ⟨"L16".toList, 44100, some 2⟩
  | 11 => some ⟨"L16".toList, 44100, some 1⟩
  | 12 => some ⟨"QCELP".toList, 8000, some 1⟩
  | 13 => some ⟨"CN".toList, 8000, some 1⟩
  | 14 => some ⟨"MPA".toList, 90000, none⟩
  | 15 => some ⟨"G728".toList, 8000, some 1⟩
  | 16 => some ⟨"DVI4".toList, 11025, some 1⟩
  | 17 => some ⟨"DVI4".toList, 22050, some 1⟩
  | 18 => some ⟨"G729".toList, 8000, some 1⟩
  | 25 => some ⟨"CelB".toList, 90000, none⟩
  | 26 => some ⟨"JPEG".toList, 90000, none⟩
  | 28 => some ⟨"nv".toList, 90000, none⟩
  | 31 => some ⟨"H261".toList, 90000, none⟩
  | 32 => some ⟨"MPV".toList, 90000, none⟩
  | 33 => some ⟨"MP2T".toList, 90000, none⟩
  | 34 => some ⟨"H263".toList, 90000, none⟩
  | _ => none

/-- The spelling each codec is registered under. -/
def canonicalNames : List String :=
  ["PCMU", "PCMA", "G722", "GSM", "LPC", "DVI4", "G723", "G729", "opus", "iLBC", "AMR",
    "AMR-WB", "SILK",
    "BV16", "BV32", "G7221", "G726-16", "G726-24", "G726-32", "G726-40", "AAL2-G726-16",
    "AAL2-G726-24",
    "AAL2-G726-32", "AAL2-G726-40", "CODEC2", "L16", "SPEEX", "VP8", "VP9", "H264",
    "H263", "H263-1998", "b64", "I420"]

/-- An encoding name in the switch's spelling; an unknown one passes through unchanged. The table's
keys are the spellings in lower case, so a name matches a key exactly when it matches the spelling.
-/
def canonicalIananame (name : Text) : Text :=
  ((canonicalNames.find? fun canonical => Text.eqIgnoreCase name canonical.toList).map
    String.toList).getD name

/-- The built-in default packetization in milliseconds. -/
def defaultPtime (name : Text) : UInt32 :=
  if ["ilbc", "isac", "G723"].any (fun slow => Text.eqIgnoreCase name slow.toList) then 30 else 20

/-- The built-in default sample rate: opus, the families that open with `h26` or `vp`, and the rest.
-/
def defaultRate (name : Text) : UInt32 :=
  if Text.eqIgnoreCase name "opus".toList then 48000
  else if (Text.get? name 0 3).any (Text.eqIgnoreCase · "h26".toList) ||
      (Text.get? name 0 2).any (Text.eqIgnoreCase · "vp".toList) then 90000
  else 8000

/-- The fixed bitrate of a static payload type. -/
def knownBitrate (pt : UInt8) : Option UInt32 :=
  match pt.toNat with
  | 0 => some 64000
  | 3 => some 13200
  | 4 => some 6300
  | 7 => some 2400
  | 8 => some 64000
  | 9 => some 64000
  | 18 => some 8000
  | _ => none

end Sdp
end EslTokio
