import EslTokio.Library.Text

/-!
# Protocol constants

The values of `src/constants.rs` the model reads, under their own names.
-/

namespace EslTokio

open Library

/-- Maximum single message size (8 MiB), checked against `Content-Length`. -/
def maxMessageSize : Nat := 8 * 1024 * 1024

/-- Maximum total buffer size (16 MiB). -/
def maxBufferSize : Nat := 16 * 1024 * 1024

/-- Double newline separating header blocks, as bytes. -/
def headerTerminator : Bytes := [0x0A, 0x0A]

def contentTypeAuthRequest : Text := "auth/request".toList
def contentTypeCommandReply : Text := "command/reply".toList
def contentTypeApiResponse : Text := "api/response".toList
def contentTypeTextEventPlain : Text := "text/event-plain".toList
def contentTypeTextEventJson : Text := "text/event-json".toList
def contentTypeTextEventXml : Text := "text/event-xml".toList
def contentTypeLogData : Text := "log/data".toList

/-- What the switch writes in place of an empty value. -/
def undefValue : Text := "_undef_".toList

/-- Success prefix on a `Reply-Text` value. -/
def replyPrefixOk : Text := "+OK".toList

/-- Failure prefix on a `Reply-Text` value. -/
def replyPrefixErr : Text := "-ERR".toList

def headerContentType : Text := "Content-Type".toList
def headerContentLength : Text := "Content-Length".toList
def headerReplyText : Text := "Reply-Text".toList

theorem headerTerminator_ne_nil : headerTerminator ≠ [] := by decide

end EslTokio
