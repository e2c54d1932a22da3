import EslTokio.Command.Response
import EslTokio.Command.Wire
import EslTokio.Connection.Read

/-!
# The inbound handshake

`authenticate` of `src/connection/auth.rs`: wait for `auth/request`, send the credentials, and take
the next message as the verdict, or what a truncated one left in the buffer when the server falls
silent.

The socket is a list of read outcomes, silent once it is exhausted, and the reaction of a write.

* `Handshake.recvMessage` — one message, or the error that ends the handshake.
* `salvageTruncatedAuthResponse` — the unterminated header block of a `userauth` reply.
* `receiveAuthResponse`, `authenticate` — the message taken as the verdict, and its judgement.
* `wireReply` — the reply the server's bytes hold, read off the whole stream.
* **`authenticate_sound_iff`** — which replies make a success trustworthy.
-/

namespace EslTokio

open Library

/-- How an inbound connection authenticates. -/
inductive AuthMethod where
  | password (password : Text)
  | user (user password : Text)
deriving DecidableEq, Repr

/-- The command that carries the credential. -/
def AuthMethod.command : AuthMethod → EslCommand
  | .password secret => .auth secret
  | .user name secret => .userAuth name secret

/-- The line that carries the credential, written as any other command is. -/
def AuthMethod.toWireFormat (method : AuthMethod) : Except EslError Text :=
  method.command.toWireFormat

/-- The handshake's input side: the parser, and what each read still to come will do. -/
structure Handshake where
  parser : EslParser
  reads : List ReadOutcome

namespace Handshake

/-- Read one message, failing the whole handshake on an idle socket. -/
def recvMessage (timeoutMs : Nat) (p : EslParser) (reads : List ReadOutcome) :
    Except EslError EslMessage × Handshake :=
  match p.parseMessage with
  | (.error e, p) => (.error e, ⟨p, reads⟩)
  | (.ok (some message), p) => (.ok message, ⟨p, reads⟩)
  | (.ok none, p) =>
      match reads with
      | [] => (.error (.timeout timeoutMs), ⟨p, []⟩)
      | outcome :: rest =>
          match p.readIntoParser outcome with
          | (.error e, p) => (.error e, ⟨p, rest⟩)
          | (.ok .fed, p) => recvMessage timeoutMs p rest
          | (.ok .eof, p) => (.error .connectionClosed, ⟨p, rest⟩)
          | (.ok .idle, p) => (.error (.timeout timeoutMs), ⟨p, rest⟩)

end Handshake

/-- The part of an unterminated block that is parsed: all complete lines, and the trailing fragment
if it has a colon, since a truncated value is acceptable and a truncated name is not. -/
def truncatedBlock (data : Text) : Option Text :=
  (Text.splitLast '\n' data).map fun (complete, trailing) =>
    if trailing = [] ∨ ':' ∈ trailing then data else complete

/-- Read an unterminated header block as a command reply. -/
def salvageBlock (strict : Bool) (data : Bytes) : Except EslError (Option EslMessage) := do
  let dataStr ←
    match Utf8.decode data with
    | .ok text => .ok text
    | .error _ => .error (.protocolError "invalid UTF-8 in truncated auth response".toList)
  match truncatedBlock dataStr with
  | none => .ok none
  | some headerBlock =>
      let (headers, lossyValues) ← parseHeaders strict headerBlock
      let contentType ←
        match headers.get? headerContentType with
        | some contentType => .ok contentType
        | none =>
            .error (.protocolError
              "truncated response missing Content-Type header — not an auth response".toList)
      if contentType ≠ contentTypeCommandReply then
        .error (.protocolError ("truncated response has Content-Type '".toList ++ contentType ++
          "', expected command/reply".toList))
      else
        let messageType ← MessageType.fromContentType contentType
        .ok (some ⟨messageType, headers, none, none, lossyValues⟩)

/-- Salvage a truncated `userauth` response, on the auth path only. -/
def salvageTruncatedAuthResponse (p : EslParser) :
    Except EslError (Option EslMessage) × EslParser :=
  if !p.isWaitingForHeaders then (.ok none, p)
  else if p.remainingBytes = [] then (.ok none, p)
  else
    match salvageBlock p.strictHeaderUtf8 p.remainingBytes with
    | .error e => (.error e, p)
    | .ok none => (.ok none, p)
    | .ok (some message) => (.ok (some message), p.drainBuffer)

/-- The answer to the credentials: the next message, or on a read timeout what can be salvaged. -/
def recvAuthReply (io : Handshake) (connectTimeoutMs : Nat) :
    Except EslError EslMessage × Handshake :=
  match Handshake.recvMessage connectTimeoutMs io.parser io.reads with
  | (.error (.timeout timeoutMs), io) =>
      match salvageTruncatedAuthResponse io.parser with
      | (.ok (some message), p) => (.ok message, { io with parser := p })
      | (.ok none, p) => (.error (.timeout timeoutMs), { io with parser := p })
      | (.error e, p) => (.error e, { io with parser := p })
  | (result, io) => (result, io)

/-- The message taken as the auth response: `authenticate` up to `EslResponse::from_message`. -/
def receiveAuthResponse (io : Handshake) (method : AuthMethod) (write : Bytes → Except Text Unit)
    (connectTimeoutMs : Nat) : Except EslError EslMessage × Handshake :=
  match Handshake.recvMessage connectTimeoutMs io.parser io.reads with
  | (.error e, io) => (.error e, io)
  | (.ok message, io) =>
      if message.messageType = .rudeRejection then
        (.error (.accessDenied
          (message.body.getD "rude-rejection without body".toList)), io)
      else if message.messageType ≠ .authRequest then
        (.error (.protocolError "Expected auth request".toList), io)
      else
        match method.toWireFormat with
        | .error e => (.error e, io)
        | .ok commandStr =>
            match write (Utf8.encode commandStr) with
            | .error e => (.error (.io e), io)
            | .ok () => recvAuthReply io connectTimeoutMs

/-- Perform authentication on the stream. -/
def authenticate (io : Handshake) (method : AuthMethod) (write : Bytes → Except Text Unit)
    (connectTimeoutMs : Nat) : Except EslError EslResponse × Handshake :=
  match receiveAuthResponse io method write connectTimeoutMs with
  | (.error e, io) => (.error e, io)
  | (.ok message, io) =>
      let response := EslResponse.fromMessage message
      if !response.isSuccess then
        match response.replyText with
        | some text => (.error (.authenticationFailed text), io)
        | none =>
            (.error (.protocolError "auth response missing Reply-Text header".toList), io)
      else (.ok response, io)

/-! ## What a message received says about the bytes that arrived -/

/-- The error of a read deadline. -/
def EslError.isTimeout : EslError → Bool
  | .timeout _ => true
  | _ => false

theorem bind_eq_error {α β : Type} {x : Except EslError α} {next : α → Except EslError β}
    {e : EslError} (h : (x >>= next) = .error e) :
    x = .error e ∨ ∃ a, x = .ok a ∧ next a = .error e := by
  cases x with
  | error e' =>
      cases h
      exact Or.inl rfl
  | ok a => exact Or.inr ⟨a, rfl, h⟩

theorem decodeHeaderLines_error {strict skipUndef : Bool} {context : Text} {lines : List Text}
    {e : EslError} (h : decodeHeaderLines strict skipUndef context lines = .error e) :
    e.isTimeout = false := by
  induction lines with
  | nil => cases h
  | cons line rest ih =>
      rw [decodeHeaderLines] at h
      rcases bind_eq_error h with hline | ⟨parsed, -, hparsed⟩
      · unfold parseHeaderLine at hline
        simp only at hline
        split at hline
        · cases hline
        · split at hline
          · obtain rfl := Except.error.inj hline
            rfl
          · cases hline
      · cases parsed with
        | none => exact ih hparsed
        | some pair =>
            rcases bind_eq_error hparsed with hvalue | ⟨value, -, hvalue⟩
            · unfold decodeValue at hvalue
              simp only at hvalue
              split at hvalue
              · cases hvalue
              · split at hvalue
                · obtain rfl := Except.error.inj hvalue
                  rfl
                · cases hvalue
            · rcases bind_eq_error hvalue with hrest | ⟨later, -, hlater⟩
              · exact ih hrest
              · simp only at hlater
                split at hlater <;> cases hlater

theorem fromContentType_error {contentType : Text} {e : EslError}
    (h : MessageType.fromContentType contentType = .error e) : e.isTimeout = false := by
  unfold MessageType.fromContentType at h
  repeat' split at h
  all_goals cases h
  rfl

theorem contentLength_error {headers : IndexMap Text Text} {e : EslError}
    (h : contentLength headers = .error e) : e.isTimeout = false := by
  unfold contentLength at h
  split at h
  · cases h
  · split at h
    · cases h
    · obtain rfl := Except.error.inj h
      rfl

theorem decodeHeaderFrame_error {strict : Bool} {headersData : Bytes} {e : EslError}
    (h : decodeHeaderFrame strict headersData = .error e) : e.isTimeout = false := by
  simp only [decodeHeaderFrame, bind, Except.bind] at h
  split at h
  · split at h
    · rename_i e' hheaders
      obtain rfl := Except.error.inj h
      rcases bind_eq_error hheaders with hblock | ⟨block, -, hblock⟩
      · exact decodeHeaderLines_error hblock
      · cases hblock
    · split at h
      · split at h
        · rename_i e' htype
          obtain rfl := Except.error.inj h
          exact fromContentType_error htype
        · split at h
          · rename_i e' hlength
            obtain rfl := Except.error.inj h
            exact contentLength_error hlength
          · split at h
            · obtain rfl := Except.error.inj h
              rfl
            · cases h
      · obtain rfl := Except.error.inj h
        rfl
  · obtain rfl := Except.error.inj h
    rfl

/-- The parser reports no read deadline. -/
theorem parseMessage_error {p next : EslParser} {e : EslError}
    (h : p.parseMessage = (.error e, next)) : e.isTimeout = false := by
  have hview := (EslParser.parseMessage_eq h).1
  have hbody : ∀ (pending : PendingBody) (bytes : Bytes) (v : View),
      Reference.parseBodyFrame p.strictHeaderUtf8 pending bytes = (.error e, v) →
        e.isTimeout = false := by
    intro pending bytes v hparse
    unfold Reference.parseBodyFrame at hparse
    split at hparse
    · cases hparse
    · have hdecode := (Prod.mk.inj hparse).1
      unfold decodeBody at hdecode
      split at hdecode
      · cases hdecode
      · split at hdecode
        · obtain rfl := Except.error.inj hdecode
          rfl
        · cases hdecode
  unfold Reference.parseMessage at hview
  split at hview
  · unfold Reference.parseHeaderFrame at hview
    split at hview
    · cases hview
    · simp only at hview
      split at hview
      · rename_i e' hdecode
        obtain rfl := Except.error.inj (Prod.mk.inj hview).1
        exact decodeHeaderFrame_error hdecode
      · split at hview
        · cases hview
        · exact hbody _ _ _ hview
  · exact hbody _ _ _ hview

/-- The chunks that arrive before anything else happens on the socket. -/
def arrived : List ReadOutcome → List Bytes
  | .bytes data :: rest => if data = [] then [] else data :: arrived rest
  | _ => []

/-- What ends the arrival of chunks is silence, neither the end of the stream nor an error. -/
def fallsSilent : List ReadOutcome → Bool
  | [] => true
  | .elapsed :: _ => true
  | .failed _ :: _ => false
  | .bytes data :: rest => if data = [] then false else fallsSilent rest

namespace Handshake

/-- What the result of one call says about the bytes still to be parsed, those that arrive
included: the first message was taken off them, they hold none and the socket fell silent, or the
call failed in another way. -/
inductive Received (p : EslParser) (reads : List ReadOutcome) :
    Except EslError EslMessage × Handshake → Prop
  | message {m : EslMessage} {io : Handshake}
      (drive : Reference.drive p.strictHeaderUtf8 p.view (arrived reads) =
        (Reference.drive p.strictHeaderUtf8 io.parser.view (arrived io.reads)).cons m)
      (strict : io.parser.strictHeaderUtf8 = p.strictHeaderUtf8)
      (silent : fallsSilent io.reads = fallsSilent reads) : Received p reads (.ok m, io)
  | silence {timeoutMs : Nat} {io : Handshake}
      (drive : Reference.drive p.strictHeaderUtf8 p.view (arrived reads) =
        ⟨[], .pending io.parser.view⟩)
      (strict : io.parser.strictHeaderUtf8 = p.strictHeaderUtf8)
      (silent : fallsSilent reads = true) : Received p reads (.error (.timeout timeoutMs), io)
  | failure {e : EslError} {io : Handshake} (deadline : e.isTimeout = false)
      (nothing : (Reference.drive p.strictHeaderUtf8 p.view (arrived reads)).messages = [])
      (failed : fallsSilent reads = true → ∃ e',
        (Reference.drive p.strictHeaderUtf8 p.view (arrived reads)).outcome = .failed e') :
      Received p reads (.error e, io)

/-- A read that feeds the parser moves its chunk to the unconsumed bytes. -/
theorem Received.fed {p next last : EslParser} {outcome : ReadOutcome} {rest : List ReadOutcome}
    {result : Except EslError EslMessage × Handshake} (hparse : p.parseMessage = (.ok none, next))
    (hread : next.readIntoParser outcome = (.ok .fed, last)) (h : Received last rest result) :
    Received p (outcome :: rest) result := by
  obtain ⟨hview, hstrict⟩ := EslParser.parseMessage_eq hparse
  obtain ⟨data, rfl, hdata, hfits, rfl⟩ := EslParser.readIntoParser_eq_fed hread
  have harrived : arrived (.bytes data :: rest) = data :: arrived rest := by
    rw [arrived, if_neg hdata]
  have hsilent : fallsSilent (.bytes data :: rest) = fallsSilent rest := by
    rw [fallsSilent, if_neg hdata]
  have hflag : (next.addData data).2.strictHeaderUtf8 = p.strictHeaderUtf8 := hstrict
  have hdrive : Reference.drive p.strictHeaderUtf8 p.view (arrived (.bytes data :: rest)) =
      Reference.drive p.strictHeaderUtf8 (next.addData data).2.view (arrived rest) := by
    rw [harrived, (Reference.drive_of_none _ hview).1]
    exact Reference.feedWithin_cons _ hfits
  cases h with
  | message drive strict silent =>
      rw [hflag] at drive strict
      exact .message (hdrive.trans drive) strict (silent.trans hsilent.symm)
  | silence drive strict silent =>
      rw [hflag] at drive strict
      exact .silence (hdrive.trans drive) strict (hsilent.trans silent)
  | failure deadline nothing failed =>
      rw [hflag] at nothing failed
      rw [← hdrive] at nothing failed
      rw [← hsilent] at failed
      exact .failure deadline nothing failed

/-- One call of `recv_message`, by induction on the reads it makes. -/
theorem recvMessage_received (timeoutMs : Nat) (p : EslParser) (reads : List ReadOutcome) :
    Received p reads (recvMessage timeoutMs p reads) := by
  -- A parser with nothing to return waits for the chunks.
  have hwaits : ∀ {p next : EslParser} (chunks : List Bytes),
      p.parseMessage = (.ok none, next) →
        Reference.drive p.strictHeaderUtf8 p.view chunks =
            Reference.feedWithin p.strictHeaderUtf8 next.view chunks ∧
          next.strictHeaderUtf8 = p.strictHeaderUtf8 := by
    intro p next chunks hparse
    obtain ⟨hview, hstrict⟩ := EslParser.parseMessage_eq hparse
    exact ⟨(Reference.drive_of_none chunks hview).1, hstrict⟩
  fun_induction recvMessage timeoutMs p reads with
  | case1 reads p e next hparse =>
      have hdrive := Reference.drive_of_error (arrived reads) (EslParser.parseMessage_eq hparse).1
      refine .failure (parseMessage_error hparse) ?_ fun _ => ⟨e, ?_⟩
      · rw [hdrive]
      · rw [hdrive]
  | case2 reads p m next hparse =>
      obtain ⟨hview, hstrict⟩ := EslParser.parseMessage_eq hparse
      exact .message (Reference.drive_of_some _ hview) hstrict rfl
  | case3 p next hparse =>
      obtain ⟨hdrive, hstrict⟩ := hwaits (arrived []) hparse
      exact .silence hdrive hstrict rfl
  | case4 p next hparse outcome rest e last hread =>
      obtain ⟨hdrive, -⟩ := hwaits (arrived (outcome :: rest)) hparse
      rcases next.readIntoParser_cases outcome with ⟨-, heq⟩ | ⟨message, rfl, heq⟩ | ⟨-, heq⟩ |
        ⟨data, size, limit, rfl, hdata, hfits, heq⟩ | ⟨_, -, -, -, heq⟩
      all_goals
        rw [heq] at hread
        cases hread
      · refine .failure rfl ?_ (by simp [fallsSilent])
        rw [hdrive]
        rfl
      · have harrived : arrived (.bytes data :: rest) = data :: arrived rest := by
          rw [arrived, if_neg hdata]
        rw [harrived, Reference.feedWithin, hfits] at hdrive
        refine .failure rfl ?_ fun _ => ⟨.bufferOverflow size limit, ?_⟩
        · rw [harrived, hdrive]
        · rw [harrived, hdrive]
  | case5 p next hparse outcome rest last hread ih => exact .fed hparse hread ih
  | case6 p next hparse outcome rest last hread =>
      obtain ⟨rfl, rfl⟩ := EslParser.readIntoParser_eq_eof hread
      obtain ⟨hdrive, -⟩ := hwaits (arrived (.bytes [] :: rest)) hparse
      refine .failure rfl ?_ (by simp [fallsSilent])
      rw [hdrive]
      rfl
  | case7 p next hparse outcome rest last hread =>
      obtain ⟨rfl, rfl⟩ := EslParser.readIntoParser_eq_idle hread
      obtain ⟨hdrive, hstrict⟩ := hwaits (arrived (.elapsed :: rest)) hparse
      exact .silence hdrive hstrict rfl

end Handshake

/-! ## Which message is taken as the verdict -/

/-- The first message a drive yields or, on a silent socket, what can be salvaged of the header
block it is left with. -/
def firstReply (strict silent : Bool) (fed : Parsed View) : Option EslMessage :=
  match fed.messages, fed.outcome with
  | reply :: _, _ => some reply
  | [], .pending ⟨.waitingForHeaders, data⟩ =>
      if data ≠ [] ∧ silent then (salvageBlock strict data).toOption.join else none
  | [], _ => none

/-- The reply the server's bytes hold behind its `auth/request`. -/
def wireReply (strict : Bool) (reads : List ReadOutcome) : Option EslMessage :=
  let fed := ((EslParser.new strict).feed (arrived reads)).map EslParser.view
  match fed.messages with
  | [] => none
  | request :: rest =>
      if request.messageType = .authRequest then
        firstReply strict (fallsSilent reads) ⟨rest, fed.outcome⟩
      else none

theorem salvageTruncatedAuthResponse_ok {p : EslParser} {message : EslMessage} :
    (salvageTruncatedAuthResponse p).1 = .ok (some message) ↔
      p.state = .waitingForHeaders ∧ p.remainingBytes ≠ [] ∧
        (salvageBlock p.strictHeaderUtf8 p.remainingBytes).toOption.join = some message := by
  unfold salvageTruncatedAuthResponse
  by_cases hstate : p.state = .waitingForHeaders
  · by_cases hdata : p.remainingBytes = []
    · simp [EslParser.isWaitingForHeaders, hstate, hdata]
    · simp only [EslParser.isWaitingForHeaders, hstate]
      cases salvageBlock p.strictHeaderUtf8 p.remainingBytes with
      | error e => simp [Except.toOption, hdata]
      | ok salvaged =>
          cases salvaged with
          | none => simp [Except.toOption, hdata]
          | some m => simp [Except.toOption, hdata]
  · simp [EslParser.isWaitingForHeaders, hstate]

/-- A drive that ended in silence yields what can be salvaged. -/
theorem firstReply_pending {strict : Bool} {v : View} {message : EslMessage} :
    firstReply strict true ⟨[], .pending v⟩ = some message ↔
      v.state = .waitingForHeaders ∧ v.bytes ≠ [] ∧
        (salvageBlock strict v.bytes).toOption.join = some message := by
  obtain ⟨state, data⟩ := v
  cases state with
  | waitingForBody pending => simp [firstReply]
  | waitingForHeaders =>
      by_cases hdata : data = []
      · simp [firstReply, hdata]
      · simp [firstReply, hdata]

/-- A drive that yielded nothing and did not end in silence yields no reply. -/
theorem firstReply_eq_none {strict silent : Bool} {fed : Parsed View} (hnothing : fed.messages = [])
    (hfailed : silent = true → ∃ e, fed.outcome = .failed e) :
    firstReply strict silent fed = none := by
  obtain ⟨messages, outcome⟩ := fed
  obtain rfl : messages = [] := hnothing
  cases outcome with
  | failed e => rfl
  | pending v =>
      obtain ⟨state, data⟩ := v
      cases state with
      | waitingForBody pending => rfl
      | waitingForHeaders =>
          cases silent with
          | false => simp [firstReply]
          | true =>
              obtain ⟨e, he⟩ := hfailed rfl
              cases he

theorem recvAuthReply_ok {io : Handshake} {timeoutMs : Nat} {message : EslMessage} :
    (recvAuthReply io timeoutMs).1 = .ok message ↔
      firstReply io.parser.strictHeaderUtf8 (fallsSilent io.reads)
        (Reference.drive io.parser.strictHeaderUtf8 io.parser.view (arrived io.reads)) =
          some message := by
  have hreceived := Handshake.recvMessage_received timeoutMs io.parser io.reads
  unfold recvAuthReply
  generalize Handshake.recvMessage timeoutMs io.parser io.reads = received at hreceived
  cases hreceived with
  | message drive _ _ =>
      rw [drive]
      simp [firstReply, Parsed.cons]
  | failure deadline nothing failed =>
      rw [firstReply_eq_none nothing failed]
      split
      · rename_i heq
        obtain ⟨rfl, -⟩ : _ ∧ _ := by simpa using heq
        cases deadline
      · rename_i heq
        obtain ⟨rfl, -⟩ := Prod.mk.inj heq
        simp
  | @silence elapsedMs rest drive strict silent =>
      rw [drive, silent, ← strict, firstReply_pending]
      refine Iff.trans ?_ salvageTruncatedAuthResponse_ok
      cases hsalvage : salvageTruncatedAuthResponse rest.parser with
      | mk result p =>
          cases result with
          | error e => simp [hsalvage]
          | ok salvaged =>
              cases salvaged with
              | none => simp [hsalvage]
              | some m => simp [hsalvage]

/-- `authenticate` judges the reply on the wire, provided the credentials can be sent. -/
theorem receiveAuthResponse_ok {strict : Bool} {method : AuthMethod}
    {write : Bytes → Except Text Unit} {timeoutMs : Nat} {reads : List ReadOutcome}
    {message : EslMessage} :
    (receiveAuthResponse ⟨.new strict, reads⟩ method write timeoutMs).1 = .ok message ↔
      wireReply strict reads = some message ∧
        ∃ commandStr, method.toWireFormat = .ok commandStr ∧
          write (Utf8.encode commandStr) = .ok () := by
  have hfed : ((EslParser.new strict).feed (arrived reads)).map EslParser.view =
      Reference.drive strict (EslParser.new strict).view (arrived reads) :=
    EslParser.feed_new_drive strict (arrived reads)
  have hflag : (EslParser.new strict).strictHeaderUtf8 = strict := rfl
  unfold receiveAuthResponse wireReply
  rw [hfed]
  have hfirst := Handshake.recvMessage_received timeoutMs (.new strict) reads
  simp only
  generalize Handshake.recvMessage timeoutMs (.new strict) reads = first at hfirst
  cases hfirst with
  | silence drive _ _ =>
      rw [hflag] at drive
      simp [drive]
  | failure _ nothing _ =>
      rw [hflag] at nothing
      simp [nothing]
  | @message request io drive hio silent =>
      rw [hflag] at drive hio
      rw [drive, ← silent]
      by_cases hrequest : request.messageType = .authRequest
      · simp only [hrequest, Parsed.cons]
        have hreply := @recvAuthReply_ok io timeoutMs message
        rw [hio] at hreply
        cases hwire : method.toWireFormat with
        | error e => simp
        | ok commandStr =>
            cases hwrite : write (Utf8.encode commandStr) with
            | error e => simp [hwrite]
            | ok sent => simpa [hwrite] using hreply
      · simp only [Parsed.cons, if_neg hrequest]
        split <;> simp

/-! ## Soundness -/

/-- What a success may rest on: a `command/reply` whose `Reply-Text` starts with `+OK`. -/
def Grants (message : EslMessage) : Prop :=
  message.messageType = .commandReply ∧
    ∃ text, (EslResponse.fromMessage message).replyText = some text ∧ replyPrefixOk <+: text

/-- If this handshake succeeds, the message it accepted grants access. -/
def SoundHandshake (io : Handshake) (method : AuthMethod) (write : Bytes → Except Text Unit)
    (connectTimeoutMs : Nat) : Prop :=
  ∀ response, (authenticate io method write connectTimeoutMs).1 = .ok response →
    ∃ message, (receiveAuthResponse io method write connectTimeoutMs).1 = .ok message ∧
      response = .fromMessage message ∧ Grants message

/-- A reply that says what it means: it has a `Reply-Text`, not an empty one, and only a
`command/reply` says `+OK`. -/
def Telling (reply : EslMessage) : Prop :=
  ∃ text, (EslResponse.fromMessage reply).replyText = some text ∧ text ≠ [] ∧
    (replyPrefixOk <+: text → reply.messageType = .commandReply)

theorem authenticate_ok {io : Handshake} {method : AuthMethod} {write : Bytes → Except Text Unit}
    {timeoutMs : Nat} {response : EslResponse} :
    (authenticate io method write timeoutMs).1 = .ok response ↔
      ∃ message, (receiveAuthResponse io method write timeoutMs).1 = .ok message ∧
        response = .fromMessage message ∧ (EslResponse.fromMessage message).isSuccess = true := by
  unfold authenticate
  cases receiveAuthResponse io method write timeoutMs with
  | mk result rest =>
      cases result with
      | error e => simp
      | ok message =>
          cases hsuccess : (EslResponse.fromMessage message).isSuccess with
          | true =>
              simp only [hsuccess, Bool.not_true, Bool.false_eq_true, if_false]
              constructor
              · intro h
                obtain rfl := Except.ok.inj h
                exact ⟨message, rfl, rfl, hsuccess⟩
              · rintro ⟨other, hother, rfl, -⟩
                obtain rfl := Except.ok.inj hother
                rfl
          | false =>
              refine iff_of_false ?_ ?_
              · simp only [hsuccess]
                cases (EslResponse.fromMessage message).replyText with
                | none => exact fun h => nomatch h
                | some text => exact fun h => nomatch h
              · rintro ⟨other, hother, -, hok⟩
                obtain rfl := Except.ok.inj hother
                rw [hsuccess] at hok
                cases hok

/-- Among the replies that count as a success, the telling ones are those that grant access. -/
theorem grants_iff_telling {message : EslMessage}
    (hsuccess : (EslResponse.fromMessage message).isSuccess = true) :
    Grants message ↔ Telling message := by
  rw [EslResponse.fromMessage_isSuccess] at hsuccess
  constructor
  · rintro ⟨htype, text, htext, hok⟩
    refine ⟨text, htext, ?_, fun _ => htype⟩
    rintro rfl
    exact absurd hok (by decide)
  · rintro ⟨text, htext, hne, htype⟩
    rcases hsuccess with hnone | hempty | ⟨other, hother, hok⟩
    · rw [htext] at hnone
      cases hnone
    · rw [htext] at hempty
      exact absurd (Option.some.inj hempty) hne
    · obtain rfl : text = other := Option.some.inj (htext.symm.trans hother)
      exact ⟨htype hok, text, htext, hok⟩

/-- A reply that does not count as a success is telling: it has a text, and not `+OK`. -/
theorem telling_of_refused {message : EslMessage}
    (hrefused : (EslResponse.fromMessage message).isSuccess = false) : Telling message := by
  have hnot := (EslResponse.fromMessage_isSuccess message).not.mp (by simp [hrefused])
  push Not at hnot
  obtain ⟨hsome, hnonempty, hok⟩ := hnot
  obtain ⟨text, htext⟩ := Option.ne_none_iff_exists'.mp hsome
  refine ⟨text, htext, ?_, fun hprefix => absurd hprefix (hok text htext)⟩
  rintro rfl
  exact hnonempty htext

/-- **When a success can be trusted.**  Whatever the server sends, in whatever chunks and with
whatever pauses, `authenticate` accepts only replies that grant access exactly if the reply on the
wire, when there is one and the credentials were sent, is a telling one. -/
theorem authenticate_sound_iff (strict : Bool) (method : AuthMethod)
    (write : Bytes → Except Text Unit) (connectTimeoutMs : Nat) (reads : List ReadOutcome) :
    SoundHandshake ⟨.new strict, reads⟩ method write connectTimeoutMs ↔
      ∀ reply commandStr, wireReply strict reads = some reply →
        method.toWireFormat = .ok commandStr → write (Utf8.encode commandStr) = .ok () →
          Telling reply := by
  constructor
  · intro hsound reply commandStr hreply hwire hwrite
    have hreceived : (receiveAuthResponse ⟨.new strict, reads⟩ method write connectTimeoutMs).1 =
        .ok reply := receiveAuthResponse_ok.mpr ⟨hreply, commandStr, hwire, hwrite⟩
    cases hsuccess : (EslResponse.fromMessage reply).isSuccess with
    | false => exact telling_of_refused hsuccess
    | true =>
        have haccepted := authenticate_ok.mpr ⟨reply, hreceived, rfl, hsuccess⟩
        obtain ⟨message, hmessage, -, hgrants⟩ := hsound _ haccepted
        rw [hreceived] at hmessage
        obtain rfl := Except.ok.inj hmessage
        exact (grants_iff_telling hsuccess).mp hgrants
  · intro htelling response haccepted
    obtain ⟨message, hreceived, rfl, hsuccess⟩ := authenticate_ok.mp haccepted
    obtain ⟨hreply, commandStr, hwire, hwrite⟩ := receiveAuthResponse_ok.mp hreceived
    have htold := htelling message commandStr hreply hwire hwrite
    exact ⟨message, hreceived, rfl, (grants_iff_telling hsuccess).mpr htold⟩

/-- A refusal, as the server sends it. -/
def refusal : Bytes :=
  Utf8.encode "Content-Type: command/reply\nReply-Text: -ERR invalid\n\n".toList

/-- The server's first line of a refusal, then silence. -/
def truncatedRefusal : List ReadOutcome :=
  [.bytes (Utf8.encode "Content-Type: auth/request\n\n".toList), .bytes (refusal.take 28), .elapsed]

/-- The salvaged first line of a refusal has no `Reply-Text`, and is accepted. -/
theorem truncated_refusal_accepted :
    ¬ SoundHandshake ⟨.new false, truncatedRefusal⟩ (.password "ClueCon".toList)
      (fun _ => .ok ()) 5000 := by
  intro hsound
  have hreceived : ∃ message, (receiveAuthResponse ⟨.new false, truncatedRefusal⟩
      (.password "ClueCon".toList) (fun _ => .ok ()) 5000).1 = .ok message ∧
        (EslResponse.fromMessage message).replyText = none := by
    refine ⟨⟨.commandReply, ⟨[("Content-Type".toList, "command/reply".toList)], by decide⟩,
      none, none, []⟩, by decide +kernel, by decide +kernel⟩
  obtain ⟨message, hreceived, hnone⟩ := hreceived
  have hsuccess : (EslResponse.fromMessage message).isSuccess = true :=
    (EslResponse.fromMessage_isSuccess message).mpr (Or.inl hnone)
  obtain ⟨accepted, haccepted, hresponse, -, text, htext, -⟩ :=
    hsound _ (authenticate_ok.mpr ⟨message, hreceived, rfl, hsuccess⟩)
  rw [← hresponse, hnone] at htext
  cases htext

end EslTokio
