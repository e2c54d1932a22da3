import EslTokio.Protocol.PlainEvent

/-!
# Events from framed messages

`EslParser::parse_event` of `src/protocol/mod.rs` and the parsers behind it
(`src/protocol/event_format.rs`, `src/protocol/xml.rs`): log text, plain, JSON and XML bodies, each
carrying the record of what was decoded lossily on to the event.  The JSON and XML libraries are
parameters: a value tree with its accessors, and a stream of pull-parser events.

* `carryLossySignal` — the envelope's record joined with the event's own; every parser ends there.
* `parseLogEvent`, `parsePlainEvent`, `parseJsonEvent`, `parseXmlEvent` — one parser a format.
* `parseEvent` — the event of a message, by its content type and format.
-/

namespace EslTokio

open Library

/-- The JSON library, as far as the event parser uses it. -/
structure JsonLibrary where
  Value : Type
  fromStr : Text → Except Text Value
  asObject : Value → Option (List (Text × Value))
  asString : Value → Option Text
  toText : Value → Text

/-- What one pull of the XML reader gives. -/
inductive XmlRead where
  | opened (tag : Text)
  | closed (tag : Text)
  | text (content : Text)
  | generalRef (name : Text)
  -- comments, declarations and the like, which are passed over
  | other
  | failed (message : Text)

/-- The XML library: the pulls up to the end of the document, and entity resolution. -/
structure XmlLibrary where
  readEvents : Text → List XmlRead
  resolveCharRef : Text → Except Text (Option Char)
  resolveXmlEntity : Text → Option Text

/-- Merge the envelope's lossy signal with the event's own. -/
def carryLossySignal (event : EslEvent) (lossy : List LossyValue) (rawBody : Option Bytes) :
    EslEvent :=
  let event := if lossy = [] then event else event.setLossyValues (lossy ++ event.lossyValues)
  match rawBody with
  | some raw => event.setRawBody raw
  | none => event

/-- Parse a `log/data` message: the envelope's headers, and its body as text. -/
def parseLogEvent (message : EslMessage) : EslEvent :=
  let event := EslEvent.new.setHeaders message.headers.entries
  let event :=
    match message.body with
    | some body => event.setBody body
    | none => event
  let event := event.setHeader EslEvent.eventName EslEventType.log.asStr.toList
  carryLossySignal event message.lossyValues message.rawBody

/-- The wire bytes of the inner body: what follows the blank line in the raw body. -/
def innerRaw (event : EslEvent) (rawBody : Option Bytes) : Option Bytes :=
  if event.body.isSome then
    rawBody.bind fun raw =>
      (Search.find [0x0A, 0x0A] raw).map fun pos => raw.drop (pos + 2)
  else none

/-- Parse a plain text event. -/
def parsePlainEvent (strict : Bool) (message : EslMessage) : Except EslError EslEvent := do
  if message.messageType ≠ .event then
    .error (.protocolError "Not an event message".toList)
  else
    match message.body with
    | none => .error (.protocolError "Plain event missing body".toList)
    | some body =>
        let event ← decodeSerializedEvent body ⟨strict, false⟩
        .ok (carryLossySignal event message.lossyValues (innerRaw event message.rawBody))

/-- Store one member of a JSON event: its body under `_body`, everything else as a header. -/
def setJsonMember (json : JsonLibrary) (event : EslEvent) (member : Text × json.Value) : EslEvent :=
  let value := (json.asString member.2).getD (json.toText member.2)
  if member.1 = "_body".toList then event.setBody value else event.setHeader member.1 value

/-- Parse a JSON event. -/
def parseJsonEvent (json : JsonLibrary) (message : EslMessage) : Except EslError EslEvent :=
  match message.body with
  | none => .error (.protocolError "JSON event missing body".toList)
  | some body =>
      match json.fromStr body with
      | .error e => .error (.jsonError e)
      | .ok value =>
          match json.asObject value with
          | none => .error (.protocolError "JSON event body is not an object".toList)
          | some members =>
              .ok (carryLossySignal (members.foldl (setJsonMember json) EslEvent.new)
                message.lossyValues message.rawBody)

/-- The pull-parser state of an XML event. -/
structure XmlState where
  event : EslEvent
  inHeaders : Bool
  currentTag : Option Text
  inBody : Bool
  /-- Text fragments since the element was opened, flushed when it closes. -/
  textBuf : Text

/-- Before the first pull. -/
def XmlState.new : XmlState := ⟨EslEvent.new, false, none, false, []⟩

/-- An XML error of the reader. -/
def xmlErr (message : Text) : EslError := .xmlError ("XML parse error: ".toList ++ message)

/-- Resolve an entity reference to its text. -/
def resolveEntity (xml : XmlLibrary) (name : Text) : Except EslError Text :=
  match xml.resolveCharRef name with
  | .error e => .error (xmlErr e)
  | .ok (some ch) => .ok [ch]
  | .ok none =>
      match xml.resolveXmlEntity name with
      | some text => .ok text
      | none =>
          .error (.protocolError ("unknown XML entity: &".toList ++ name ++ ";".toList))

/-- Flush the collected text into the header whose element closes. -/
def XmlState.closeHeader (s : XmlState) : XmlState :=
  match s.currentTag with
  | some tag =>
      if s.textBuf = [] then { s with currentTag := none }
      else { s with event := s.event.setHeader tag s.textBuf, textBuf := [], currentTag := none }
  | none => { s with currentTag := none }

/-- Flush the collected text into the body. -/
def XmlState.closeBody (s : XmlState) : XmlState :=
  if s.textBuf = [] then { s with inBody := false }
  else { s with event := s.event.setBody s.textBuf, textBuf := [], inBody := false }

/-- One pull of the XML reader. -/
def XmlState.step (xml : XmlLibrary) (s : XmlState) : XmlRead → Except EslError XmlState
  | .opened tag =>
      if tag = "headers".toList then .ok { s with inHeaders := true }
      else if tag = "body".toList then .ok { s with inBody := true }
      else if s.inHeaders then .ok { s with textBuf := [], currentTag := some tag }
      else .ok s
  | .closed tag =>
      if tag = "headers".toList then .ok { s with inHeaders := false }
      else if tag = "body".toList then .ok s.closeBody
      else if s.inHeaders then .ok s.closeHeader
      else .ok s
  | .text content =>
      if s.inBody || s.currentTag.isSome then .ok { s with textBuf := s.textBuf ++ content }
      else .ok s
  | .generalRef name =>
      if s.inBody || s.currentTag.isSome then do
        let resolved ← resolveEntity xml name
        .ok { s with textBuf := s.textBuf ++ resolved }
      else .ok s
  | .other => .ok s
  | .failed message => .error (xmlErr message)

/-- Parse an XML event. -/
def parseXmlEvent (xml : XmlLibrary) (message : EslMessage) : Except EslError EslEvent :=
  match message.body with
  | none => .error (.protocolError "XML event missing body".toList)
  | some body => do
      let s ← (xml.readEvents body).foldlM (XmlState.step xml) XmlState.new
      .ok (carryLossySignal s.event message.lossyValues message.rawBody)

/-- Parse the event of a message, in the format given. -/
def parseEvent (json : JsonLibrary) (xml : XmlLibrary) (strict : Bool) (message : EslMessage)
    (format : EventFormat) : Except EslError EslEvent :=
  if message.headers.get? headerContentType = some contentTypeLogData then
    .ok (parseLogEvent message)
  else
    match format with
    | .plain => parsePlainEvent strict message
    | .json => parseJsonEvent json message
    | .xml => parseXmlEvent xml message

end EslTokio
