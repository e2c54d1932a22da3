import EslTokio.Protocol.EventFormat

/-!
# No silent substitution

A byte that is not UTF-8 can be replaced in three places: in an envelope header value, in the body
as a whole, and in a header value inside a plain body.  Each place leaves a record, and the parsers
carry the records on to the event.  The plain parser hands on the raw bytes of the inner body only,
so a raw byte in the header section of an event without an inner body is replaced and told nowhere.

* `Framed`, `EslParser.parseMessage_framed` — the bytes behind a message, and that every message of
  the parser has them.
* `Substituted`, `Signalled` — a replacement was made; the event says so.
* `decodeHeaderLines_lossy` — a block's record is non-empty exactly when one of its values is lossy.
* **`lossy_signal_iff`** — when no substitution goes untold.
-/

namespace EslTokio

open Library

/-! ### What was substituted -/

/-- The bytes decode without a substitution. -/
def WellFormed (bytes : Bytes) : Prop := ∃ text, Utf8.decode bytes = .ok text

/-- A header line of the block has a value that is not UTF-8 once percent-decoded. -/
def LossyBlock (block : Text) : Prop :=
  ∃ line ∈ Text.lines block, ∃ key rawValue,
    parseHeaderLine line = .ok (some (key, rawValue)) ∧
      ¬WellFormed (percentDecode (Utf8.encode rawValue))

/-- A message, and the header block and body bytes it was framed from. -/
def Framed (strict : Bool) (headersData bodyData : Bytes) (message : EslMessage) : Prop :=
  ∃ pending, decodeHeaderFrame strict headersData = .ok pending ∧
    bodyData.length = pending.bodyLength ∧
    if pending.bodyLength = 0 then
      message = ⟨pending.messageType, pending.headers, none, none, pending.lossyValues⟩
    else decodeBody strict pending bodyData = .ok message

/-- The message is read by the plain parser. -/
def ReadsPlain (message : EslMessage) (format : EventFormat) : Prop :=
  message.headers.get? headerContentType ≠ some contentTypeLogData ∧ format = .plain

/-- A replacement character stands for a byte of an envelope value, of the body, or of a header
value inside a plain body. -/
def Substituted (headersData bodyData : Bytes) (message : EslMessage) (format : EventFormat) :
    Prop :=
  LossyBlock (Utf8.decodeLossy headersData) ∨ ¬WellFormed bodyData ∨
    ReadsPlain message format ∧ LossyBlock (splitPayload (Utf8.decodeLossy bodyData)).1

/-- The event says that something was substituted. -/
def Signalled (event : EslEvent) : Prop := event.lossyValues ≠ [] ∨ event.rawBody ≠ none

/-- No substitution can go untold: the body is not read as plain text or has none, or a header value
or an inner body carries the signal. -/
def SignalKept (headersData bodyData : Bytes) (message : EslMessage) (format : EventFormat) :
    Prop :=
  ¬ReadsPlain message format ∨ WellFormed bodyData ∨
    LossyBlock (Utf8.decodeLossy headersData) ∨
    LossyBlock (splitPayload (Utf8.decodeLossy bodyData)).1 ∨
    ∃ body, (splitPayload (Utf8.decodeLossy bodyData)).2 = some body ∧ body ≠ []

/-- A value is recorded exactly when it is not UTF-8. -/
theorem decodeValue_lossy {context key rawValue value : Text} {lossy : List LossyValue}
    (h : decodeValue false context key rawValue = .ok (value, lossy)) :
    lossy ≠ [] ↔ ¬WellFormed (percentDecode (Utf8.encode rawValue)) := by
  rw [decodeValue] at h
  split at h
  · rename_i text htext
    obtain ⟨-, rfl⟩ := Prod.mk.inj (Except.ok.inj h)
    exact iff_of_false (fun hne => hne rfl) (fun hill => hill ⟨text, htext⟩)
  · rename_i source hsource
    obtain ⟨-, rfl⟩ := Prod.mk.inj (Except.ok.inj h)
    refine iff_of_true (List.cons_ne_nil _ _) ?_
    rintro ⟨text, htext⟩
    rw [hsource] at htext
    cases htext

/-- **A block's record is non-empty exactly when one of its values is lossy.** -/
theorem decodeHeaderLines_lossy {skipUndef : Bool} {context : Text} {lines : List Text}
    {pairs : List (Text × Text)} {lossy : List LossyValue}
    (h : decodeHeaderLines false skipUndef context lines = .ok (pairs, lossy)) :
    lossy ≠ [] ↔ ∃ line ∈ lines, ∃ key rawValue,
      parseHeaderLine line = .ok (some (key, rawValue)) ∧
        ¬WellFormed (percentDecode (Utf8.encode rawValue)) := by
  induction lines generalizing pairs lossy with
  | nil =>
      obtain ⟨-, rfl⟩ := Prod.mk.inj (Except.ok.inj h)
      simp
  | cons line lines ih =>
      rw [decodeHeaderLines] at h
      cases hparse : parseHeaderLine line with
      | error e =>
          rw [hparse] at h
          cases h
      | ok parsed =>
          rw [hparse] at h
          simp only [List.exists_mem_cons_iff, hparse, Except.ok.injEq]
          cases parsed with
          | none => simpa using ih h
          | some parsed =>
              obtain ⟨key, rawValue⟩ := parsed
              simp only [bind, Except.bind] at h
              split at h
              · cases h
              · rename_i decoded hvalue
                have hfirst := decodeValue_lossy hvalue
                split at h
                · cases h
                · rename_i rest hrest
                  have hlater := ih hrest
                  have hlossy : lossy = decoded.2 ++ rest.2 := by
                    split at h
                    · exact (Prod.mk.inj (Except.ok.inj h)).2.symm
                    · exact (Prod.mk.inj (Except.ok.inj h)).2.symm
                  rw [hlossy, ← hlater, ne_eq, List.append_eq_nil_iff, not_and_or]
                  simp only [Option.some.injEq, Prod.mk.injEq]
                  rw [← ne_eq, ← ne_eq, hfirst]
                  refine or_congr_left ?_
                  constructor
                  · intro hill
                    exact ⟨key, rawValue, ⟨rfl, rfl⟩, hill⟩
                  · rintro ⟨_, _, ⟨rfl, rfl⟩, hill⟩
                    exact hill

theorem decodeHeaderFrame_lossy {headersData : Bytes} {pending : PendingBody}
    (h : decodeHeaderFrame false headersData = .ok pending) :
    pending.lossyValues ≠ [] ↔ LossyBlock (Utf8.decodeLossy headersData) := by
  simp only [decodeHeaderFrame, bind, Except.bind] at h
  cases hdecode : Utf8.decode headersData with
  | error e =>
      simp only [hdecode] at h
      cases h
  | ok text =>
      simp only [hdecode, parseHeaders, bind, Except.bind] at h
      cases hblock : decodeHeaderBlock false false "header".toList text with
      | error e =>
          simp only [hblock] at h
          cases h
      | ok decoded =>
          obtain ⟨pairs, lossy⟩ := decoded
          have hlossy : pending.lossyValues = lossy := by
            simp only [hblock] at h
            split at h
            · split at h
              · cases h
              · split at h
                · cases h
                · split at h
                  · cases h
                  · rw [← Except.ok.inj h]
            · cases h
          rw [hlossy, Utf8.decodeLossy_of_decode hdecode]
          exact decodeHeaderLines_lossy hblock

/-- What a decoded body keeps of the bytes behind it. -/
theorem decodeBody_ok {pending : PendingBody} {bodyData : Bytes} {message : EslMessage}
    (h : decodeBody false pending bodyData = .ok message) :
    message.lossyValues = pending.lossyValues ∧ message.body = some (Utf8.decodeLossy bodyData) ∧
      (WellFormed bodyData ∧ message.rawBody = none ∨
        ¬WellFormed bodyData ∧ message.rawBody = some bodyData) := by
  rw [decodeBody] at h
  split at h
  · rename_i text htext
    obtain rfl := Except.ok.inj h
    exact ⟨rfl, congrArg some (Utf8.decodeLossy_of_decode htext).symm, .inl ⟨⟨text, htext⟩, rfl⟩⟩
  · rename_i e herror
    obtain rfl := Except.ok.inj h
    refine ⟨rfl, rfl, .inr ⟨?_, rfl⟩⟩
    rintro ⟨text, htext⟩
    rw [herror] at htext
    cases htext

/-- **What a framed message says about the bytes behind it.** -/
theorem Framed.spec {headersData bodyData : Bytes} {message : EslMessage}
    (h : Framed false headersData bodyData message) :
    (message.lossyValues ≠ [] ↔ LossyBlock (Utf8.decodeLossy headersData)) ∧
      (∀ body, message.body = some body → body = Utf8.decodeLossy bodyData) ∧
      (WellFormed bodyData ∧ message.rawBody = none ∨
        ¬WellFormed bodyData ∧ message.rawBody = some bodyData) := by
  obtain ⟨pending, hpending, hlength, hmessage⟩ := h
  have hlossy := decodeHeaderFrame_lossy hpending
  split at hmessage
  · rename_i hzero
    obtain rfl : bodyData = [] := List.length_eq_zero_iff.mp (hlength.trans hzero)
    subst hmessage
    exact ⟨hlossy, nofun, .inl ⟨⟨[], rfl⟩, rfl⟩⟩
  · obtain ⟨hvalues, hbody, hraw⟩ := decodeBody_ok hmessage
    refine ⟨by rw [hvalues]; exact hlossy, ?_, hraw⟩
    intro body hsome
    rw [hbody] at hsome
    exact (Option.some.inj hsome).symm

/-! ### Every message of the parser is framed -/

namespace EslParser

/-- A parked message has a body to come, and a header block behind it. -/
def Parked (p : EslParser) : Prop :=
  ∀ pending, p.state = .waitingForBody pending → pending.bodyLength ≠ 0 ∧
    ∃ headersData, decodeHeaderFrame p.strictHeaderUtf8 headersData = .ok pending

/-- The frame a call returns, and what it parks. -/
def FramedStep (p : EslParser) (result : Except EslError (Option EslMessage) × EslParser) : Prop :=
  (∀ message, result.1 = .ok (some message) →
    ∃ headersData bodyData, Framed p.strictHeaderUtf8 headersData bodyData message) ∧
  result.2.Parked

theorem parseBodyFrame_framed {p : EslParser} {pending : PendingBody} {headersData : Bytes}
    (hlength : pending.bodyLength ≠ 0)
    (hpending : decodeHeaderFrame p.strictHeaderUtf8 headersData = .ok pending) :
    FramedStep p (p.parseBodyFrame pending) := by
  unfold parseBodyFrame
  simp only
  split
  · refine ⟨nofun, ?_⟩
    intro other hother
    obtain rfl := ParseState.waitingForBody.inj hother
    exact ⟨hlength, headersData, hpending⟩
  · rename_i bodyData hextracted
    refine ⟨?_, nofun⟩
    intro message hmessage
    refine ⟨headersData, bodyData, pending, hpending, ?_, ?_⟩
    · unfold EslBuffer.extractBytes at hextracted
      split at hextracted
      · cases hextracted
      · rw [← Option.some.inj hextracted, List.length_take]
        omega
    · rw [if_neg hlength]
      cases hbody : decodeBody p.strictHeaderUtf8 pending bodyData with
      | error e =>
          simp only [hbody, Except.map] at hmessage
          cases hmessage
      | ok decoded =>
          simp only [hbody, Except.map] at hmessage
          rw [Option.some.inj (Except.ok.inj hmessage)]

/-- **Every message the parser returns is framed from a header block and a body.** -/
theorem parseMessage_framed {p : EslParser} (hp : p.Parked) : FramedStep p p.parseMessage := by
  rw [parseMessage]
  cases hstate : p.state with
  | waitingForBody pending =>
      obtain ⟨hlength, headersData, hpending⟩ := hp pending hstate
      exact parseBodyFrame_framed hlength hpending
  | waitingForHeaders =>
      simp only [parseHeaderFrame]
      split
      · exact ⟨nofun, nofun⟩
      · rename_i headersData hextracted
        split
        · exact ⟨nofun, nofun⟩
        · rename_i pending hpending
          split
          · rename_i hzero
            refine ⟨?_, nofun⟩
            intro message hmessage
            obtain rfl := Option.some.inj (Except.ok.inj hmessage)
            exact ⟨headersData, [], pending, hpending, hzero.symm, by rw [if_pos hzero]⟩
          · rename_i hlength
            exact parseBodyFrame_framed hlength hpending

end EslParser

/-! ### What each parser carries on -/

theorem carryLossySignal_lossyValues (event : EslEvent) (lossy : List LossyValue)
    (rawBody : Option Bytes) :
    (carryLossySignal event lossy rawBody).lossyValues = lossy ++ event.lossyValues := by
  unfold carryLossySignal
  by_cases hlossy : lossy = []
  · subst hlossy
    cases rawBody with
    | none => rfl
    | some raw => rfl
  · simp only [if_neg hlossy]
    cases rawBody with
    | none => rfl
    | some raw => rfl

theorem carryLossySignal_rawBody (event : EslEvent) (lossy : List LossyValue)
    (rawBody : Option Bytes) :
    (carryLossySignal event lossy rawBody).rawBody = rawBody.or event.rawBody := by
  unfold carryLossySignal
  cases rawBody with
  | none =>
      simp only [Option.none_or]
      split
      · rfl
      · rfl
  | some raw => rfl

/-- The signal leaves the headers and the body alone. -/
theorem carryLossySignal_content (event : EslEvent) (lossy : List LossyValue)
    (rawBody : Option Bytes) :
    (carryLossySignal event lossy rawBody).headers = event.headers ∧
      (carryLossySignal event lossy rawBody).body = event.body := by
  unfold carryLossySignal
  by_cases hlossy : lossy = []
  · subst hlossy
    cases rawBody with
    | none => exact ⟨rfl, rfl⟩
    | some raw => exact ⟨rfl, rfl⟩
  · simp only [if_neg hlossy]
    cases rawBody with
    | none => exact ⟨rfl, rfl⟩
    | some raw => exact ⟨rfl, rfl⟩

/-- The event carries no lossy record of its own. -/
def EslEvent.Unmarked (event : EslEvent) : Prop := event.lossyValues = [] ∧ event.rawBody = none

theorem EslEvent.Unmarked.new : EslEvent.new.Unmarked := ⟨rfl, rfl⟩

theorem EslEvent.Unmarked.setHeaders {event : EslEvent} (h : event.Unmarked)
    (pairs : List (Text × Text)) : (event.setHeaders pairs).Unmarked := by
  induction pairs generalizing event with
  | nil => exact h
  | cons pair pairs ih => exact ih h

/-- An unmarked event signals exactly what the message brings. -/
theorem signalled_carryLossySignal {event : EslEvent} (h : event.Unmarked) (message : EslMessage) :
    Signalled (carryLossySignal event message.lossyValues message.rawBody) ↔
      message.lossyValues ≠ [] ∨ message.rawBody ≠ none := by
  rw [Signalled, carryLossySignal_lossyValues, carryLossySignal_rawBody, h.1, h.2, List.append_nil,
    Option.or_none]

theorem parseLogEvent_signalled (message : EslMessage) :
    Signalled (parseLogEvent message) ↔ message.lossyValues ≠ [] ∨ message.rawBody ≠ none := by
  have hheaders := EslEvent.Unmarked.new.setHeaders message.headers.entries
  refine signalled_carryLossySignal ?_ message
  cases message.body with
  | none => exact hheaders
  | some body => exact hheaders

theorem parseJsonEvent_signalled {json : JsonLibrary} {message : EslMessage} {event : EslEvent}
    (h : parseJsonEvent json message = .ok event) :
    Signalled event ↔ message.lossyValues ≠ [] ∨ message.rawBody ≠ none := by
  have hmembers : ∀ (members : List (Text × json.Value)) {event : EslEvent}, event.Unmarked →
      (members.foldl (setJsonMember json) event).Unmarked := by
    intro members
    induction members with
    | nil => exact fun h => h
    | cons member members ih =>
        intro event hevent
        refine ih ?_
        rw [setJsonMember]
        split
        · exact hevent
        · exact hevent
  rw [parseJsonEvent] at h
  split at h
  · cases h
  · split at h
    · cases h
    · split at h
      · cases h
      · obtain rfl := Except.ok.inj h
        exact signalled_carryLossySignal (hmembers _ .new) message

theorem XmlState.step_unmarked {xml : XmlLibrary} {s next : XmlState} {read : XmlRead}
    (h : s.step xml read = .ok next) (hs : s.event.Unmarked) : next.event.Unmarked := by
  cases read with
  | opened tag =>
      simp only [step] at h
      split at h
      · obtain rfl := Except.ok.inj h
        exact hs
      · split at h
        · obtain rfl := Except.ok.inj h
          exact hs
        · split at h
          · obtain rfl := Except.ok.inj h
            exact hs
          · obtain rfl := Except.ok.inj h
            exact hs
  | closed tag =>
      simp only [step] at h
      split at h
      · obtain rfl := Except.ok.inj h
        exact hs
      · split at h
        · obtain rfl := Except.ok.inj h
          rw [closeBody]
          split
          · exact hs
          · exact hs
        · split at h
          · obtain rfl := Except.ok.inj h
            rw [closeHeader]
            split
            · split
              · exact hs
              · exact hs
            · exact hs
          · obtain rfl := Except.ok.inj h
            exact hs
  | text content =>
      simp only [step] at h
      split at h
      · obtain rfl := Except.ok.inj h
        exact hs
      · obtain rfl := Except.ok.inj h
        exact hs
  | generalRef name =>
      simp only [step, bind, Except.bind] at h
      split at h
      · split at h
        · cases h
        · obtain rfl := Except.ok.inj h
          exact hs
      · obtain rfl := Except.ok.inj h
        exact hs
  | other =>
      obtain rfl := Except.ok.inj h
      exact hs
  | failed message => cases h

theorem foldlM_unmarked {xml : XmlLibrary} {reads : List XmlRead} {s last : XmlState}
    (h : reads.foldlM (XmlState.step xml) s = .ok last) (hs : s.event.Unmarked) :
    last.event.Unmarked := by
  induction reads generalizing s with
  | nil =>
      obtain rfl := Except.ok.inj h
      exact hs
  | cons read reads ih =>
      rw [List.foldlM_cons] at h
      cases hstep : s.step xml read with
      | error e =>
          rw [hstep] at h
          cases h
      | ok next =>
          rw [hstep] at h
          exact ih h (XmlState.step_unmarked hstep hs)

theorem parseXmlEvent_signalled {xml : XmlLibrary} {message : EslMessage} {event : EslEvent}
    (h : parseXmlEvent xml message = .ok event) :
    Signalled event ↔ message.lossyValues ≠ [] ∨ message.rawBody ≠ none := by
  rw [parseXmlEvent] at h
  split at h
  · cases h
  · rename_i body hbody
    cases hreads : (xml.readEvents body).foldlM (XmlState.step xml) XmlState.new with
    | error e =>
        rw [hreads] at h
        cases h
    | ok last =>
        rw [hreads] at h
        obtain rfl := Except.ok.inj h
        exact signalled_carryLossySignal (foldlM_unmarked hreads .new) message

theorem EslEvent.setHeaders_rawBody (event : EslEvent) (pairs : List (Text × Text)) :
    (event.setHeaders pairs).rawBody = event.rawBody := by
  induction pairs generalizing event with
  | nil => rfl
  | cons pair pairs ih => exact ih _

theorem EslEvent.setInnerBody_rawBody (event : EslEvent) (inner : Option Text) :
    (event.setInnerBody inner).rawBody = event.rawBody := by
  rw [setInnerBody]
  split
  all_goals rfl

/-- What a decoded payload records. -/
theorem decodeSerializedEvent_spec {payload : Text} {skipUndef : Bool} {event : EslEvent}
    (h : decodeSerializedEvent payload ⟨false, skipUndef⟩ = .ok event) :
    (event.lossyValues ≠ [] ↔ LossyBlock (splitPayload payload).1) ∧ event.rawBody = none ∧
      event.body = (splitPayload payload).2.filter (· ≠ []) := by
  simp only [decodeSerializedEvent, bind, Except.bind] at h
  split at h
  · cases h
  · rename_i decoded hdecoded
    obtain rfl := Except.ok.inj h
    refine ⟨?_, ?_, ?_⟩
    · rw [EslEvent.setInnerBody_lossyValues]
      exact decodeHeaderLines_lossy hdecoded
    · rw [EslEvent.setInnerBody_rawBody]
      exact EslEvent.setHeaders_rawBody EslEvent.new decoded.1
    · have hnew : ((EslEvent.new.setHeaders decoded.1).setLossyValues decoded.2).body = none :=
        EslEvent.setHeaders_body EslEvent.new decoded.1
      rw [EslEvent.setInnerBody_body, hnew, Option.or_none]

/-- An inner body behind a blank line of the lossy text has its bytes behind a blank line of the raw
body. -/
theorem find_of_splitPayload {bodyData : Bytes} {body : Text}
    (h : (splitPayload (Utf8.decodeLossy bodyData)).2 = some body) :
    ∃ pos, Search.find [0x0A, 0x0A] bodyData = some pos := by
  rw [splitPayload] at h
  split at h
  · rename_i pos hpos
    obtain ⟨tail, htail⟩ := (Search.find_eq_some hpos).1
    have hinfix : ['\n', '\n'] <:+: Utf8.decodeLossy bodyData :=
      (List.IsPrefix.isInfix ⟨tail, htail⟩).trans (List.drop_suffix pos _).isInfix
    obtain ⟨before, after, hbytes⟩ := Utf8.blankLine_of_decodeLossyFrom 0 bodyData hinfix
    cases hfind : Search.find [0x0A, 0x0A] bodyData with
    | some pos => exact ⟨pos, rfl⟩
    | none =>
        refine absurd ?_ (Search.find_eq_none hfind before.length)
        rw [← hbytes, List.append_assoc, List.drop_left]
        exact List.prefix_append _ _
  · cases h

theorem parsePlainEvent_signalled {headersData bodyData : Bytes} {message : EslMessage}
    {event : EslEvent} (hframed : Framed false headersData bodyData message)
    (h : parsePlainEvent false message = .ok event) :
    Signalled event ↔ LossyBlock (Utf8.decodeLossy headersData) ∨
      LossyBlock (splitPayload (Utf8.decodeLossy bodyData)).1 ∨
      ¬WellFormed bodyData ∧
        ∃ body, (splitPayload (Utf8.decodeLossy bodyData)).2 = some body ∧ body ≠ [] := by
  obtain ⟨hvalues, hbodies, hraw⟩ := hframed.spec
  rw [parsePlainEvent] at h
  split at h
  · cases h
  · split at h
    · cases h
    · rename_i body hbody
      obtain rfl := hbodies body hbody
      cases hdecode : decodeSerializedEvent (Utf8.decodeLossy bodyData) ⟨false, false⟩ with
      | error e =>
          rw [hdecode] at h
          cases h
      | ok inner =>
          rw [hdecode] at h
          obtain rfl := Except.ok.inj h
          obtain ⟨hlossy, hnone, hinner⟩ := decodeSerializedEvent_spec hdecode
          have hsome : inner.body.isSome = true ↔
              ∃ body, (splitPayload (Utf8.decodeLossy bodyData)).2 = some body ∧ body ≠ [] := by
            rw [hinner]
            cases (splitPayload (Utf8.decodeLossy bodyData)).2 with
            | none => simp
            | some body => by_cases hempty : body = [] <;> simp [Option.filter, hempty]
          rw [Signalled, carryLossySignal_lossyValues, carryLossySignal_rawBody, hnone,
            Option.or_none, ne_eq, List.append_eq_nil_iff, not_and_or, ← ne_eq, ← ne_eq, hvalues,
            hlossy, or_assoc]
          refine or_congr_right (or_congr_right ?_)
          rw [innerRaw]
          rcases hraw with ⟨hwell, hrawBody⟩ | ⟨hill, hrawBody⟩
          · rw [hrawBody]
            simp [hwell]
          · rw [hrawBody, ← hsome]
            simp only [hill, not_false_eq_true, true_and, Option.bind_some]
            split
            · rename_i hbodySome
              obtain ⟨inside, hinside, -⟩ := hsome.mp hbodySome
              obtain ⟨pos, hpos⟩ := find_of_splitPayload hinside
              simp [hpos, hbodySome]
            · rename_i hbodyNone
              simp [hbodyNone]

/-- **A substitution is always told exactly when** the body is not read as plain text or is UTF-8,
or a lossy header value or an inner body keeps the signal alive. -/
theorem lossy_signal_iff (json : JsonLibrary) (xml : XmlLibrary) (headersData bodyData : Bytes)
    (message : EslMessage) (format : EventFormat) (event : EslEvent)
    (hframed : Framed false headersData bodyData message)
    (h : parseEvent json xml false message format = .ok event) :
    (Substituted headersData bodyData message format → Signalled event) ↔
      SignalKept headersData bodyData message format := by
  have hplainLogic : ∀ envelope inner well body : Prop,
      ((envelope ∨ ¬well ∨ True ∧ inner → envelope ∨ inner ∨ ¬well ∧ body) ↔
        (¬True ∨ well ∨ envelope ∨ inner ∨ body)) := by grind
  obtain ⟨hvalues, -, hraw⟩ := hframed.spec
  have hrawIff : message.rawBody ≠ none ↔ ¬WellFormed bodyData := by
    rcases hraw with ⟨hwell, hrawBody⟩ | ⟨hill, hrawBody⟩
    · simp [hrawBody, hwell]
    · simp [hrawBody, hill]
  -- Outside the plain parser the event signals the envelope's record and the raw body.
  have hother : ¬ReadsPlain message format →
      (Signalled event ↔ message.lossyValues ≠ [] ∨ message.rawBody ≠ none) →
      ((Substituted headersData bodyData message format → Signalled event) ↔
        SignalKept headersData bodyData message format) := by
    intro hplain hsignal
    have hlogic : ∀ envelope inner well body : Prop,
        ((envelope ∨ ¬well ∨ False ∧ inner → envelope ∨ ¬well) ↔
          (¬False ∨ well ∨ envelope ∨ inner ∨ body)) := by grind
    rw [hsignal, hvalues, hrawIff, Substituted, SignalKept, eq_false hplain]
    exact hlogic _ _ _ _
  unfold parseEvent at h
  split at h
  · rename_i hlog
    obtain rfl := Except.ok.inj h
    exact hother (fun hplain => hplain.1 hlog) (parseLogEvent_signalled message)
  · rename_i hlog
    cases format with
    | plain =>
        have hplain : ReadsPlain message .plain := ⟨hlog, rfl⟩
        rw [parsePlainEvent_signalled hframed h, Substituted, SignalKept, eq_true hplain]
        exact hplainLogic _ _ _ _
    | json => exact hother (fun hplain => by cases hplain.2) (parseJsonEvent_signalled h)
    | xml => exact hother (fun hplain => by cases hplain.2) (parseXmlEvent_signalled h)

/-- Libraries that read nothing, for events in the plain format. -/
def noJson : JsonLibrary :=
  ⟨Unit, fun _ => .error "expected value at line 1 column 1".toList, fun _ => none, fun _ => none,
    fun _ => []⟩

def noXml : XmlLibrary := ⟨fun _ => [], fun _ => .ok none, fun _ => none⟩

/-- The header block of a plain event with a body of the given length. -/
def plainEnvelope (length : Nat) : Bytes :=
  Utf8.encode ("Content-Length: ".toList ++ Text.ofNat length ++
    "\nContent-Type: text/event-plain".toList)

/-- Its headers. -/
def plainEnvelopeHeaders (length : Nat) : IndexMap Text Text :=
  (IndexMap.empty.insert headerContentLength (Text.ofNat length)).insert headerContentType
    contentTypeTextEventPlain

/-- A Latin-1 text message. -/
def latinMessage : Bytes := Utf8.encode "Event-Name: MESSAGE\n\nAndr".toList ++ [0xE9]

theorem lossy_signal_iff_latinMessage :
    ∃ message event, Framed false (plainEnvelope 26) latinMessage message ∧
      parseEvent noJson noXml false message .plain = .ok event ∧
      Substituted (plainEnvelope 26) latinMessage message .plain ∧ Signalled event := by
  let pending : PendingBody := ⟨.event, plainEnvelopeHeaders 26, 26, []⟩
  let text : Text := "Event-Name: MESSAGE\n\nAndr\uFFFD".toList
  let message : EslMessage :=
    ⟨.event, plainEnvelopeHeaders 26, some text, some latinMessage, []⟩
  let event : EslEvent :=
    ((EslEvent.new.setHeader "Event-Name".toList "MESSAGE".toList).setBody
      "Andr\uFFFD".toList).setRawBody (latinMessage.drop 21)
  have hframed : Framed false (plainEnvelope 26) latinMessage message :=
    ⟨pending, by decide +kernel, by decide +kernel, by decide +kernel⟩
  have hevent : parseEvent noJson noXml false message .plain = .ok event := by decide +kernel
  have hill : ¬WellFormed latinMessage := by
    rintro ⟨decoded, hdecoded⟩
    have herror : Utf8.decode latinMessage = .error ⟨25, none⟩ := by decide +kernel
    rw [herror] at hdecoded
    cases hdecoded
  have hsubstituted : Substituted (plainEnvelope 26) latinMessage message .plain :=
    .inr (.inl hill)
  have hkept : SignalKept (plainEnvelope 26) latinMessage message .plain :=
    .inr (.inr (.inr (.inr ⟨"Andr\uFFFD".toList, by decide +kernel, by decide +kernel⟩)))
  exact ⟨message, event, hframed, hevent, hsubstituted,
    (lossy_signal_iff _ _ _ _ _ _ _ hframed hevent).mpr hkept hsubstituted⟩

/-- A plain event with a raw Latin-1 header value and no inner body. -/
def latinHeader : Bytes := Utf8.encode "Caller-Caller-ID-Name: Andr".toList ++ [0xE9, 0x0A, 0x0A]

/-- The replacement character in the value is told nowhere. -/
theorem latin_header_unsignalled :
    ∃ message event, Framed false (plainEnvelope 30) latinHeader message ∧
      parseEvent noJson noXml false message .plain = .ok event ∧
      Substituted (plainEnvelope 30) latinHeader message .plain ∧ ¬Signalled event := by
  let pending : PendingBody := ⟨.event, plainEnvelopeHeaders 30, 30, []⟩
  let text : Text := "Caller-Caller-ID-Name: Andr\uFFFD\n\n".toList
  let message : EslMessage :=
    ⟨.event, plainEnvelopeHeaders 30, some text, some latinHeader, []⟩
  let event : EslEvent :=
    EslEvent.new.setHeader "Caller-Caller-ID-Name".toList "Andr\uFFFD".toList
  have hframed : Framed false (plainEnvelope 30) latinHeader message :=
    ⟨pending, by decide +kernel, by decide +kernel, by decide +kernel⟩
  have hevent : parseEvent noJson noXml false message .plain = .ok event := by decide +kernel
  have hill : ¬WellFormed latinHeader := by
    rintro ⟨decoded, hdecoded⟩
    have herror : Utf8.decode latinHeader = .error ⟨27, some 1⟩ := by decide +kernel
    rw [herror] at hdecoded
    cases hdecoded
  have hsilent : ¬Signalled event := by
    rintro (hlossy | hraw)
    · exact hlossy rfl
    · exact hraw rfl
  exact ⟨message, event, hframed, hevent, .inr (.inl hill), hsilent⟩

end EslTokio
