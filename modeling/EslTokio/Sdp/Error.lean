import EslTokio.Library.Text

/-!
# What is wrong with an SDP or a codec string

`freeswitch-types/src/sdp/error.rs`.
-/

namespace EslTokio
namespace Sdp

open Library

/-- Failures building or parsing a codec-string entry. -/
inductive CodecStringError where
  | atInFmtp (value : Text)
  | dotInFmtpWithoutModule (value : Text)
  | invalidCodecName (value : Text)
  | wireInjection (field : String) (value : Text)
  | qualifierParseError (raw : Text) (reason : String)
  | invalidCharInName (field : String) (ch : Char) (value : Text)
  | multipleEntries (value : Text)
  | tooManyEntries (entries limit : Nat)
deriving DecidableEq, Repr

/-- Failures reading the codecs of a media section. -/
inductive SdpCodecError where
  | malformedRtpmap (raw : Text)
  | nonNumericPayloadType (raw : Text)
  | malformedFmtp (raw : Text)
deriving DecidableEq, Repr

/-- The error as it is printed, which gives the length of what it refuses and not the text. -/
def SdpCodecError.toText : SdpCodecError → Text
  | .malformedRtpmap raw =>
      "malformed a=rtpmap (".toList ++ Text.ofNat (Utf8.encode raw).length ++ " bytes)".toList
  | .nonNumericPayloadType raw =>
      "non-numeric payload type in m= format list (".toList ++ Text.ofNat
        (Utf8.encode raw).length ++
        " bytes)".toList
  | .malformedFmtp raw =>
      "malformed a=fmtp (".toList ++ Text.ofNat (Utf8.encode raw).length ++ " bytes)".toList

/-- A recoverable oddity that is recorded rather than failed on. -/
inductive SdpWarning where
  | unparseableNumericAttribute (name : String) (rawValue : Text)
  | codecStringQualifier (raw : Text) (reason : String)
  | fmtpUnrepresentable (codecName fmtp : Text) (reason : String)
  | codecNameUnrepresentable (codecName : Text) (reason : String)
  | malformedMediaSection (mediaType : Text) (reason : Text)
  | codecStringTruncated (entries limit : Nat)
  | nonCanonicalDirectionAttribute (name : Text)
deriving DecidableEq, Repr

end Sdp
end EslTokio
