import EslTokio.Event.EventType
import EslTokio.Library.Lines
import EslTokio.Protocol.Parser

/-!
# Events

`EslEvent` of `freeswitch-types/src/event/mod.rs`: canonical headers, an optional body, and the
record of what was decoded lossily.

* `bodySection` — how a block of headers ends, in an event and in a command alike.
* `EslEvent.setHeader` — every write normalizes its key.
* `EslEvent.toPlainFormat` — the plain wire format: percent-encoded values, the stored
  `Content-Length` replaced by the length of the body.
-/

namespace EslTokio

open Library

/-- The header line that announces a body. -/
def lengthLine (body : Text) : Text :=
  "Content-Length: ".toList ++ Text.ofNat (Utf8.encode body).length

/-- What ends a header block: the length of the body and the body behind a blank line, or the blank
line alone. -/
def bodySection : Option Text → Text
  | some body => lengthLine body ++ "\n\n".toList ++ body
  | none => ['\n']

/-- The body section as a block: the length as a last line, then the blank line and the payload. -/
theorem renderLines_append_bodySection (lines : List Text) (body : Option Text) :
    renderLines '\n' lines ++ bodySection body =
      renderLines '\n' (lines ++ body.toList.map lengthLine) ++ '\n' :: body.getD [] := by
  cases body with
  | none => simp [bodySection]
  | some body =>
      have hsection : bodySection (some body) = lengthLine body ++ '\n' :: '\n' :: body := by
        rw [bodySection, List.append_assoc]
        rfl
      rw [hsection, renderLines_append]
      simp

/-- An event: headers, an optional body, and the lossy record. -/
structure EslEvent where
  headers : EslHeaders
  body : Option Text
  /-- Exact wire bytes of a body that was not UTF-8. -/
  rawBody : Option Bytes
  lossyValues : List LossyValue
deriving DecidableEq

namespace EslEvent

/-- An empty event. -/
def new : EslEvent := ⟨EslHeaders.new, none, none, []⟩

/-- Set or overwrite a header, normalizing the key. -/
def setHeader (event : EslEvent) (name value : Text) : EslEvent :=
  { event with headers := event.headers.insert name value }

/-- Set the event body. -/
def setBody (event : EslEvent) (body : Text) : EslEvent := { event with body := some body }

/-- Set the raw body bytes. -/
def setRawBody (event : EslEvent) (bytes : Bytes) : EslEvent := { event with rawBody := some bytes }

/-- Set the lossy values. -/
def setLossyValues (event : EslEvent) (lossyValues : List LossyValue) : EslEvent :=
  { event with lossyValues := lossyValues }

/-- Look up a header by name, in any casing. -/
def headerStr (event : EslEvent) (name : Text) : Option Text := event.headers.headerStr name

/-- The wire name of `EventHeader::EventName`. -/
def eventName : Text := "Event-Name".toList

/-- The event type, derived from the `Event-Name` header. -/
def eventType (event : EslEvent) : Option EslEventType :=
  (event.headerStr eventName).bind EslEventType.parseEventType

/-- One header line of the plain format, without its line feed. -/
def plainHeaderLine (entry : Text × Text) : Text :=
  entry.1 ++ ": ".toList ++ percentEncode (Utf8.encode entry.2)

/-- Serialize to the plain wire format. -/
def toPlainFormat (event : EslEvent) : Text :=
  ((event.headers.map.entries.filter (·.1 ≠ headerContentLength)).flatMap fun entry =>
    plainHeaderLine entry ++ ['\n']) ++ bodySection event.body

end EslEvent
end EslTokio
