import EslTokio.Headers
import EslTokio.Protocol.Buffer

/-!
# The ESL wire parser

`EslParser` of `src/protocol/mod.rs`: a two-state machine over the read buffer.  Waiting for
headers, it consumes a block up to the first `\n\n`, decodes it, and either finishes the message or
parks it until `Content-Length` bytes have arrived.

* `decodeHeaderBlock`, `parseHeaders` — the `Key: value` lines of a block, percent-decoded.
* `decodeHeaderFrame` — everything `parse_header_frame` reads off one complete block.
* `parseMessage` — one call: the result, and the parser it leaves behind.

The parser carries the watermark invariant of its buffer as a field.
-/

namespace EslTokio

open Library

/-- ESL message types. -/
inductive MessageType where
  | authRequest
  | commandReply
  | apiResponse
  | event
  | disconnect
  | rudeRejection
deriving DecidableEq, Repr

/-- Parse a message type from a `Content-Type` value; there is no fallback. -/
def MessageType.fromContentType (contentType : Text) : Except EslError MessageType :=
  if contentType = contentTypeAuthRequest then .ok .authRequest
  else if contentType = contentTypeCommandReply then .ok .commandReply
  else if contentType = contentTypeApiResponse then .ok .apiResponse
  else if contentType = contentTypeTextEventPlain ∨ contentType = contentTypeTextEventJson ∨
      contentType = contentTypeTextEventXml ∨ contentType = contentTypeLogData then .ok .event
  else if contentType = "text/disconnect-notice".toList then .ok .disconnect
  else if contentType = "text/rude-rejection".toList then .ok .rudeRejection
  else .error (.protocolError ("Unrecognized Content-Type: ".toList ++ contentType))

/-- A header value that was decoded lossily: its key and its on-wire text. -/
structure LossyValue where
  key : Text
  rawValue : Text
deriving DecidableEq, Repr

/-- A parsed ESL message. -/
structure EslMessage where
  messageType : MessageType
  headers : IndexMap Text Text
  body : Option Text
  /-- Exact wire bytes of a body that was not UTF-8. -/
  rawBody : Option Bytes
  lossyValues : List LossyValue
deriving DecidableEq

/-- A message whose headers are consumed and whose body has not all arrived. -/
structure PendingBody where
  messageType : MessageType
  headers : IndexMap Text Text
  bodyLength : Nat
  lossyValues : List LossyValue
deriving DecidableEq

/-- Parser state for incomplete messages. -/
inductive ParseState where
  | waitingForHeaders
  | waitingForBody (pending : PendingBody)
deriving DecidableEq

/-- Parse a single `Key: value` line: `none` for a blank line, an error without a colon. -/
def parseHeaderLine (line : Text) : Except EslError (Option (Text × Text)) :=
  let line := Text.stripSuffix '\r' line
  if line = [] then .ok none
  else
    match Text.splitFirst ':' line with
    | none => .error (.invalidHeader line)
    | some (key, rest) => .ok (some (normalizeHeaderKey key, Text.stripPrefix ' ' rest))

/-- Percent-decode a header value.  Under `strict` a value that is not UTF-8 is an error; otherwise
it is decoded lossily and recorded. -/
def decodeValue (strict : Bool) (context key rawValue : Text) :
    Except EslError (Text × List LossyValue) :=
  let decoded := percentDecode (Utf8.encode rawValue)
  match Utf8.decode decoded with
  | .ok value => .ok (value, [])
  | .error source =>
      if strict then .error (.invalidUtf8InHeader context key source)
      else .ok (Utf8.decodeLossy decoded, [⟨key, rawValue⟩])

/-- Decode the lines of a block in order: the pairs handed to the sink, and the lossy record. -/
def decodeHeaderLines (strict skipUndef : Bool) (context : Text) :
    List Text → Except EslError (List (Text × Text) × List LossyValue)
  | [] => .ok ([], [])
  | line :: rest => do
      match ← parseHeaderLine line with
      | none => decodeHeaderLines strict skipUndef context rest
      | some (key, rawValue) =>
          let (value, lossy) ← decodeValue strict context key rawValue
          let (pairs, later) ← decodeHeaderLines strict skipUndef context rest
          if skipUndef && value = undefValue then .ok (pairs, lossy ++ later)
          else .ok ((key, value) :: pairs, lossy ++ later)

/-- Decode one `Key: value` block. -/
def decodeHeaderBlock (strict skipUndef : Bool) (context block : Text) :
    Except EslError (List (Text × Text) × List LossyValue) :=
  decodeHeaderLines strict skipUndef context (Text.lines block)

/-- Parse a header block, percent-decoding each value; a repeated key keeps its last value. -/
def parseHeaders (strict : Bool) (headersStr : Text) :
    Except EslError (IndexMap Text Text × List LossyValue) := do
  let (pairs, lossy) ← decodeHeaderBlock strict false "header".toList headersStr
  .ok (pairs.foldl (fun headers pair => headers.insert pair.1 pair.2) IndexMap.empty, lossy)

/-- Read `Content-Length` as a `usize`; a block without one has no body. -/
def contentLength (headers : IndexMap Text Text) : Except EslError Nat :=
  match headers.get? headerContentLength with
  | none => .ok 0
  | some lengthStr =>
      match Text.parseUnsigned 64 lengthStr with
      | some length => .ok length
      | none => .error (.invalidHeader ("Content-Length: ".toList ++ lengthStr))

/-- Everything read off one complete header block. -/
def decodeHeaderFrame (strict : Bool) (headersData : Bytes) : Except EslError PendingBody := do
  let headersStr ←
    match Utf8.decode headersData with
    | .ok text => .ok text
    | .error _ => .error (.protocolError "Invalid UTF-8 in headers".toList)
  let (headers, lossyValues) ← parseHeaders strict headersStr
  let contentType ←
    match headers.get? headerContentType with
    | some contentType => .ok contentType
    | none =>
        .error (.protocolError "Missing Content-Type header -- likely protocol desync".toList)
  let messageType ← MessageType.fromContentType contentType
  let bodyLength ← contentLength headers
  if bodyLength > maxMessageSize then
    .error (.protocolError
      ("Message too large: Content-Length ".toList ++ Text.ofNat bodyLength ++
        " exceeds limit ".toList ++ Text.ofNat maxMessageSize ++
        ". Protocol error or corrupted data.".toList))
  else .ok ⟨messageType, headers, bodyLength, lossyValues⟩

/-- Decode a body that has all arrived.  Non-UTF-8 is an error only under `strict`; otherwise the
wire bytes are kept beside the lossy text. -/
def decodeBody (strict : Bool) (pending : PendingBody) (bodyData : Bytes) :
    Except EslError EslMessage :=
  match Utf8.decode bodyData with
  | .ok text =>
      .ok ⟨pending.messageType, pending.headers, some text, none, pending.lossyValues⟩
  | .error e =>
      if strict then .error (.protocolError ("Invalid UTF-8 in body: ".toList ++ utf8ErrorText e))
      else
        .ok ⟨pending.messageType, pending.headers, some (Utf8.decodeLossy bodyData),
          some bodyData, pending.lossyValues⟩

/-- ESL protocol parser. -/
structure EslParser where
  buffer : EslBuffer
  state : ParseState
  strictHeaderUtf8 : Bool
  /-- The buffer's watermark is sound for the header terminator. -/
  watermark : buffer.Watermarked headerTerminator
deriving DecidableEq

namespace EslParser

/-- A fresh parser. -/
def new (strict : Bool) : EslParser :=
  ⟨EslBuffer.new, .waitingForHeaders, strict, .new headerTerminator_ne_nil⟩

/-- Unconsumed bytes remaining in the parser buffer. -/
def remainingBytes (p : EslParser) : Bytes := p.buffer.buffer

/-- The parser is between messages. -/
def isWaitingForHeaders (p : EslParser) : Bool := p.state = .waitingForHeaders

/-- Discard all buffered data. -/
def drainBuffer (p : EslParser) : EslParser :=
  { p with buffer := p.buffer.clear, watermark := .clear headerTerminator_ne_nil p.buffer }

/-- Add data to the parser buffer; the data stays in it even when the limit is exceeded. -/
def addData (p : EslParser) (data : Bytes) : Except EslError Unit × EslParser :=
  let extended := p.buffer.extendFromSlice data
  (extended.checkSizeLimits,
    { p with buffer := extended, watermark := p.watermark.extendFromSlice data })

/-- Complete a message whose headers are consumed, or park it until its bytes have arrived. -/
def parseBodyFrame (p : EslParser) (pending : PendingBody) :
    Except EslError (Option EslMessage) × EslParser :=
  let extracted := p.buffer.extractBytes pending.bodyLength
  let rest := p.watermark.extractBytes headerTerminator_ne_nil pending.bodyLength
  match extracted.1 with
  | none =>
      (.ok none,
        { p with buffer := extracted.2, state := .waitingForBody pending, watermark := rest })
  | some bodyData =>
      ((decodeBody p.strictHeaderUtf8 pending bodyData).map some,
        { p with buffer := extracted.2, state := .waitingForHeaders, watermark := rest })

/-- Consume a `\n\n`-terminated header block, then finish the message or go on to its body. -/
def parseHeaderFrame (p : EslParser) : Except EslError (Option EslMessage) × EslParser :=
  let extracted := p.buffer.extractUntilPattern headerTerminator
  let p := { p with
    buffer := extracted.2
    state := .waitingForHeaders
    watermark := p.watermark.extractUntilPattern headerTerminator_ne_nil }
  match extracted.1 with
  | none => (.ok none, p)
  | some headersData =>
      match decodeHeaderFrame p.strictHeaderUtf8 headersData with
      | .error e => (.error e, p)
      | .ok pending =>
          if pending.bodyLength = 0 then
            (.ok (some ⟨pending.messageType, pending.headers, none, none, pending.lossyValues⟩), p)
          else p.parseBodyFrame pending

/-- Try to parse a complete message from the buffer. -/
def parseMessage (p : EslParser) : Except EslError (Option EslMessage) × EslParser :=
  match p.state with
  | .waitingForHeaders => p.parseHeaderFrame
  | .waitingForBody pending => p.parseBodyFrame pending

end EslParser
end EslTokio
