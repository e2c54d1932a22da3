import EslTokio.Event.Event

/-!
# Commands on the wire

`EslCommand` of `src/command/mod.rs`: every user-supplied field is refused when it would break the
line framing, then the command is rendered, as one line or as a command line with the headers and
the body of an event.

* `EslCommand.validate`, `EslCommand.toWireFormat` — the check, and the rendering behind it.
* `CommandBuilder` — a command line, one-line headers and a length-delimited body.
-/

namespace EslTokio

open Library

/-- Refuse a text that would break the line framing. -/
def validateNoNewlines (text context : Text) : Except EslError Unit :=
  if '\n' ∈ text ∨ '\r' ∈ text then
    .error (.protocolError (context ++ " must not contain newlines".toList))
  else .ok ()

/-- The check of an optional field. -/
def validateOptional (text : Option Text) (context : Text) : Except EslError Unit :=
  match text with
  | some text => validateNoNewlines text context
  | none => .ok ()

/-- A command line and its arguments, terminated as a header block. -/
def formatSimpleCommand (cmd : Text) (args : List Text) : Text :=
  args.foldl (fun result arg => result ++ ' ' :: arg) cmd ++ "\n\n".toList

/-- Builder for a command with headers and an optional body. -/
structure CommandBuilder where
  command : Text
  headers : IndexMap Text Text
  body : Option Text

namespace CommandBuilder

/-- Start building a command with the given command line. -/
def new (command : Text) : CommandBuilder := ⟨command, IndexMap.empty, none⟩

/-- Add a header; its name and its value must stay on one line. -/
def header (builder : CommandBuilder) (name value : Text) : Except EslError CommandBuilder := do
  validateNoNewlines name "header name".toList
  validateNoNewlines value "header value".toList
  .ok { builder with headers := builder.headers.insert name value }

/-- Set the command body, which is length-delimited. -/
def setBody (builder : CommandBuilder) (body : Text) : CommandBuilder :=
  { builder with body := some body }

/-- Build the command string. -/
def build (builder : CommandBuilder) : Text :=
  builder.command ++ ['\n'] ++ (builder.headers.entries.flatMap fun entry =>
    entry.1 ++ ": ".toList ++ entry.2 ++ ['\n']) ++ bodySection builder.body

end CommandBuilder

/-- Options of a `sendmsg execute` command. -/
structure ExecuteOptions where
  eventLock : Bool
  asyncMode : Bool
  loops : Option UInt32

/-- The commands of the protocol. -/
inductive EslCommand where
  | auth (password : Text)
  | userAuth (user password : Text)
  | api (command : Text)
  | bgApi (command : Text)
  | events (format events : Text)
  | filter (header value : Text)
  | sendMsg (uuid : Option Text) (event : EslEvent)
  | execute (app : Text) (args uuid : Option Text) (options : ExecuteOptions)
  | exit
  | log (level : Text)
  | noLog
  | noOp
  | sendEvent (event : EslEvent)
  | myEvents (format : Text) (uuid : Option Text)
  /-- The timeout in whole seconds, the part of it that is sent. -/
  | linger (timeoutSecs : Option Nat)
  | noLinger
  | resume
  | nixEvent (events : Text)
  | noEvents
  | filterDelete (header : Text) (value : Option Text)
  | divertEvents (on : Bool)
  | getVar (name : Text)
  | connect
  | filterDeleteAll

namespace EslCommand

/-- Add the headers of an event in order, failing at the first that cannot be sent. -/
def addHeaders (builder : CommandBuilder) :
    List (Text × Text) → Except EslError CommandBuilder
  | [] => .ok builder
  | entry :: rest => do
      let builder ← builder.header entry.1 entry.2
      addHeaders builder rest

/-- Build a command carrying an event as its header block and body. -/
def buildFromEvent (cmd : Text) (event : EslEvent) : Except EslError Text := do
  let builder ← addHeaders (CommandBuilder.new cmd) event.headers.map.entries
  match event.body with
  | some body => .ok (builder.setBody body).build
  | none => .ok builder.build

/-- The `Event-Name` a `sendevent` puts on its command line. -/
def sendeventName (event : EslEvent) : Except EslError Text :=
  match (event.eventType.map fun eventType => eventType.asStr.toList).or
      (event.headerStr EslEvent.eventName) with
  | some name => .ok name
  | none =>
      .error (.protocolError
        "sendevent requires Event-Name header or event_type set on the EslEvent".toList)

/-- Reject every user-supplied field that would break the line framing. -/
def validate : EslCommand → Except EslError Unit
  | auth password => validateNoNewlines password "password".toList
  | userAuth user password => do
      validateNoNewlines user "user".toList
      validateNoNewlines password "password".toList
  | api command => validateNoNewlines command "api command".toList
  | bgApi command => validateNoNewlines command "bgapi command".toList
  | events format list => do
      validateNoNewlines format "event format".toList
      validateNoNewlines list "event list".toList
  | filter header value => do
      validateNoNewlines header "filter header".toList
      validateNoNewlines value "filter value".toList
  | sendMsg uuid _ => validateOptional uuid "sendmsg uuid".toList
  | execute app args uuid _ => do
      validateNoNewlines app "execute app".toList
      validateOptional args "execute args".toList
      validateOptional uuid "execute uuid".toList
  | log level => validateNoNewlines level "log level".toList
  | sendEvent event => do
      let name ← sendeventName event
      validateNoNewlines name "sendevent event name".toList
  | myEvents format uuid => do
      validateNoNewlines format "myevents format".toList
      validateOptional uuid "myevents uuid".toList
  | nixEvent list => validateNoNewlines list "nixevent list".toList
  | filterDelete header value => do
      validateNoNewlines header "filter delete header".toList
      validateOptional value "filter delete value".toList
  | getVar name => validateNoNewlines name "getvar name".toList
  | exit | noLog | noOp | linger _ | noLinger | resume | noEvents | divertEvents _ | connect
  | filterDeleteAll => .ok ()

/-- Set a header when there is a value for it. -/
def setOptionalHeader (event : EslEvent) (name : Text) : Option Text → EslEvent
  | some value => event.setHeader name value
  | none => event

/-- The event an `execute` is sent as. -/
def executeEvent (app : Text) (args : Option Text) (options : ExecuteOptions) : EslEvent :=
  let event := EslEvent.new.setHeader "call-command".toList "execute".toList
  let event := event.setHeader "execute-app-name".toList app
  let event := setOptionalHeader event "execute-app-arg".toList args
  let event := setOptionalHeader event "event-lock".toList
    (if options.eventLock then some "true".toList else none)
  let event := setOptionalHeader event "async".toList
    (if options.asyncMode then some "true".toList else none)
  setOptionalHeader event "loops".toList (options.loops.map fun loops => Text.ofNat loops.toNat)

/-- The command line of a `sendmsg`. -/
def sendMsgLine (uuid : Option Text) : Text :=
  "sendmsg".toList ++ ((uuid.map fun uuid => ' ' :: uuid).getD [])

/-- The wire format of a `sendmsg`, as an `execute` asks for it. -/
def sendMsgToWireFormat (uuid : Option Text) (event : EslEvent) : Except EslError Text := do
  (sendMsg uuid event).validate
  buildFromEvent (sendMsgLine uuid) event

/-- The rendering of a command whose fields have been checked. -/
def render : EslCommand → Except EslError Text
  | auth password => .ok (formatSimpleCommand "auth".toList [password])
  | userAuth user password =>
      .ok (formatSimpleCommand "userauth".toList [user ++ ':' :: password])
  | api command => .ok (formatSimpleCommand "api".toList [command])
  | bgApi command => .ok (formatSimpleCommand "bgapi".toList [command])
  | events format list => .ok (formatSimpleCommand "event".toList [format, list])
  | filter header value => .ok (formatSimpleCommand "filter".toList [header, value])
  | sendMsg uuid event => buildFromEvent (sendMsgLine uuid) event
  | execute app args uuid options => sendMsgToWireFormat uuid (executeEvent app args options)
  | exit => .ok (formatSimpleCommand "exit".toList [])
  | log level => .ok (formatSimpleCommand "log".toList [level])
  | noLog => .ok (formatSimpleCommand "nolog".toList [])
  | noOp => .ok (formatSimpleCommand "noop".toList [])
  | sendEvent event => do
      let name ← sendeventName event
      buildFromEvent ("sendevent ".toList ++ name) event
  | myEvents format (some uuid) => .ok (formatSimpleCommand "myevents".toList [uuid, format])
  | myEvents format none => .ok (formatSimpleCommand "myevents".toList [format])
  | linger (some timeoutSecs) =>
      .ok (formatSimpleCommand "linger".toList [Text.ofNat timeoutSecs])
  | linger none => .ok (formatSimpleCommand "linger".toList [])
  | noLinger => .ok (formatSimpleCommand "nolinger".toList [])
  | resume => .ok (formatSimpleCommand "resume".toList [])
  | nixEvent list => .ok (formatSimpleCommand "nixevent".toList [list])
  | noEvents => .ok (formatSimpleCommand "noevents".toList [])
  | filterDelete header value =>
      if header = "all".toList then
        .ok (formatSimpleCommand "filter".toList ["delete".toList, "all".toList])
      else
        match value with
        | some value => .ok (formatSimpleCommand "filter".toList ["delete".toList, header, value])
        | none => .ok (formatSimpleCommand "filter".toList ["delete".toList, header])
  | filterDeleteAll => .ok (formatSimpleCommand "filter".toList ["delete".toList, "all".toList])
  | divertEvents on =>
      .ok (formatSimpleCommand "divert_events".toList [if on then "on".toList else "off".toList])
  | getVar name => .ok (formatSimpleCommand "getvar".toList [name])
  | connect => .ok (formatSimpleCommand "connect".toList [])

/-- Validate all user-supplied fields, then convert to wire format. -/
def toWireFormat (command : EslCommand) : Except EslError Text := do
  command.validate
  command.render

end EslCommand

end EslTokio
