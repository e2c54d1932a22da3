import EslTokio.Library.Text

/-!
# Errors of the ESL client

The variants of `EslError` (`src/error.rs`) that the modelled functions build, with their fields,
and the `Display` text of each, which a disconnect reason quotes.
-/

namespace EslTokio

open Library

/-- Errors reported by the client, the reader task and the parser. -/
inductive EslError where
  /-- I/O error, by its message. -/
  | io (message : Text)
  | notConnected
  | authenticationFailed (reason : Text)
  | protocolError (message : Text)
  | timeout (timeoutMs : Nat)
  | invalidEventFormat (format : Text)
  | jsonError (message : Text)
  | xmlError (message : Text)
  /-- A percent-decoded header value that is not UTF-8, under strict validation. -/
  | invalidUtf8InHeader (context key : Text) (source : Utf8.DecodeError)
  | bufferOverflow (size limit : Nat)
  | invalidHeader (header : Text)
  | accessDenied (reason : Text)
  | connectionClosed
  | queueFull
  | reexecFailed (reason : Text)
deriving DecidableEq, Repr

/-- The `Display` text of a UTF-8 error. -/
def utf8ErrorText (e : Utf8.DecodeError) : Text :=
  match e.errorLen with
  | some errorLen =>
      "invalid utf-8 sequence of ".toList ++ Text.ofNat errorLen ++
        " bytes from index ".toList ++ Text.ofNat e.validUpTo
  | none => "incomplete utf-8 byte sequence from index ".toList ++ Text.ofNat e.validUpTo

/-- The `Display` text of an error. -/
def EslError.toText : EslError → Text
  | .io message => "IO error: ".toList ++ message
  | .notConnected => "Not connected to FreeSWITCH".toList
  | .authenticationFailed reason => "Authentication failed: ".toList ++ reason
  | .protocolError message => "Protocol error: ".toList ++ message
  | .timeout timeoutMs => "Operation timed out after ".toList ++ Text.ofNat timeoutMs ++ "ms".toList
  | .invalidEventFormat format => "Invalid event format: ".toList ++ format
  | .jsonError message => "JSON parsing error: ".toList ++ message
  | .xmlError message => "XML parsing error: ".toList ++ message
  | .invalidUtf8InHeader context key _ =>
      "invalid UTF-8 in ".toList ++ context ++ " '".toList ++ key ++ "'".toList
  | .bufferOverflow size limit =>
      "Buffer overflow: message size ".toList ++ Text.ofNat size ++ " exceeds limit ".toList ++
        Text.ofNat limit
  | .invalidHeader header => "Invalid header format: ".toList ++ header
  | .accessDenied reason => "Access denied: ".toList ++ reason
  | .connectionClosed => "Connection closed by FreeSWITCH".toList
  | .queueFull => "Event queue is full - dropping events".toList
  | .reexecFailed reason => "Re-exec teardown failed: ".toList ++ reason

end EslTokio
