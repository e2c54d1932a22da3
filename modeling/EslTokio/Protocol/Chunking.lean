import EslTokio.Protocol.Parser

/-!
# Feeding the parser, chunk by chunk

A connection hands the parser whatever each read returned and calls `parse_message` until it has
nothing left to return.  This module models that loop and proves that the result does not depend on
where the reads cut the stream.

* `feed` — `add_data` one chunk, drain `parse_message`, repeat; an error ends the run.
* `Reference.parseMessage` — the specification: the same frames, always searched from the start of
  the unconsumed bytes, with no watermark and no size limit.
* `Reference.drive` — what the bytes at hand and the chunks still to come yield under the size limit
  of the buffer; the handshake and the reader loop are compared with it.
* `parseMessage_view` — one call of the real parser is one call of the reference parser.
* **`Reference.parseAvailable_append`** — appending input commutes with draining; the induction is
  on the measure that every finished message decreases.
* **`chunking_invariance`** — any chunking that does not overflow the buffer parses as the whole
  stream does.
-/

namespace EslTokio

open Library
open Library.Search

/-- How a drive of a parser `π` ended: on an error, or with a parser waiting for more input. -/
inductive Outcome (π : Type) where
  | failed (e : EslError)
  | pending (parser : π)
deriving DecidableEq

/-- The messages a drive produced, and how it ended. -/
structure Parsed (π : Type) where
  messages : List EslMessage
  outcome : Outcome π
deriving DecidableEq

namespace Parsed

variable {π ρ τ : Type}

/-- Continue a drive from the parser it left pending. -/
def andThen (r : Parsed π) (next : π → Parsed ρ) : Parsed ρ :=
  match r.outcome with
  | .failed e => ⟨r.messages, .failed e⟩
  | .pending p => ⟨r.messages ++ (next p).messages, (next p).outcome⟩

/-- Observe the parser a drive ends with. -/
def map (f : π → ρ) (r : Parsed π) : Parsed ρ :=
  r.andThen fun p => ⟨[], .pending (f p)⟩

/-- Put a message in front of a drive. -/
def cons (m : EslMessage) (r : Parsed π) : Parsed π := ⟨m :: r.messages, r.outcome⟩

/-- Put earlier messages in front of a drive. -/
def prepend (ms : List EslMessage) (r : Parsed π) : Parsed π := ⟨ms ++ r.messages, r.outcome⟩

/-- The drive ended because `add_data` reported a buffer overflow. -/
def overflowed (r : Parsed π) : Bool :=
  match r.outcome with
  | .failed (.bufferOverflow _ _) => true
  | _ => false

@[simp] theorem cons_andThen (m : EslMessage) (r : Parsed π) (next : π → Parsed ρ) :
    (r.cons m).andThen next = (r.andThen next).cons m := by
  obtain ⟨ms, outcome⟩ := r
  cases outcome with
  | failed e => rfl
  | pending p => rfl

@[simp] theorem map_messages (f : π → ρ) (r : Parsed π) : (r.map f).messages = r.messages := by
  obtain ⟨ms, outcome⟩ := r
  cases outcome with
  | failed e => rfl
  | pending p => exact List.append_nil ms

theorem andThen_assoc (r : Parsed π) (f : π → Parsed ρ) (g : ρ → Parsed τ) :
    (r.andThen f).andThen g = r.andThen fun p => (f p).andThen g := by
  obtain ⟨ms, outcome⟩ := r
  cases outcome with
  | failed e => rfl
  | pending p =>
      simp only [andThen]
      cases (f p).outcome with
      | failed e => rfl
      | pending q => simp

theorem map_andThen (r : Parsed π) (f : π → ρ) (g : ρ → Parsed τ) :
    (r.map f).andThen g = r.andThen fun p => g (f p) := by
  rw [map, andThen_assoc]
  rfl

end Parsed

namespace EslParser

/-- Bound on the messages a parser can still return without new data. -/
def measure (p : EslParser) : Nat :=
  p.remainingBytes.length + if p.isWaitingForHeaders then 0 else 1

/-- Call `parse_message` until it returns `Ok(None)` or an error, at most `fuel` times. -/
def parseUntilNone : Nat → EslParser → Parsed EslParser
  | 0, p => ⟨[], .pending p⟩
  | fuel + 1, p =>
      match p.parseMessage with
      | (.error e, _) => ⟨[], .failed e⟩
      | (.ok none, p) => ⟨[], .pending p⟩
      | (.ok (some m), p) => (parseUntilNone fuel p).cons m

/-- Everything the buffered data yields; `Reference.drain_eq_of_measure_lt` shows that this much
fuel never runs out. -/
def parseAvailable (p : EslParser) : Parsed EslParser :=
  p.parseUntilNone (p.measure + 1)

/-- Add a chunk, drain the parser, and go on with the next chunk. -/
def feed (p : EslParser) : List Bytes → Parsed EslParser
  | [] => ⟨[], .pending p⟩
  | chunk :: rest =>
      match p.addData chunk with
      | (.error e, _) => ⟨[], .failed e⟩
      | (.ok (), p) => p.parseAvailable.andThen fun p => p.feed rest

end EslParser

/-- What is observable of a parser between calls: its state and its unconsumed bytes. -/
structure View where
  state : ParseState
  bytes : Bytes
deriving DecidableEq

/-- The observable part of a parser. -/
def EslParser.view (p : EslParser) : View := ⟨p.state, p.remainingBytes⟩

/-- More input behind the unconsumed bytes. -/
def View.append (v : View) (data : Bytes) : View := ⟨v.state, v.bytes ++ data⟩

@[simp] theorem View.append_nil (v : View) : v.append [] = v := by
  simp [View.append]

@[simp] theorem View.append_append (v : View) (xs ys : Bytes) :
    (v.append xs).append ys = v.append (xs ++ ys) := by
  simp [View.append]

namespace Reference

/-! ## The reference parser -/

/-- Complete a parked message when its bytes are there. -/
def parseBodyFrame (strict : Bool) (pending : PendingBody) (bytes : Bytes) :
    Except EslError (Option EslMessage) × View :=
  if bytes.length < pending.bodyLength then (.ok none, ⟨.waitingForBody pending, bytes⟩)
  else
    ((decodeBody strict pending (bytes.take pending.bodyLength)).map some,
      ⟨.waitingForHeaders, bytes.drop pending.bodyLength⟩)

/-- Consume one header block, searching its terminator from offset zero. -/
def parseHeaderFrame (strict : Bool) (bytes : Bytes) :
    Except EslError (Option EslMessage) × View :=
  match find headerTerminator bytes with
  | none => (.ok none, ⟨.waitingForHeaders, bytes⟩)
  | some pos =>
      let rest := bytes.drop (pos + headerTerminator.length)
      match decodeHeaderFrame strict (bytes.take pos) with
      | .error e => (.error e, ⟨.waitingForHeaders, rest⟩)
      | .ok pending =>
          if pending.bodyLength = 0 then
            (.ok (some ⟨pending.messageType, pending.headers, none, none, pending.lossyValues⟩),
              ⟨.waitingForHeaders, rest⟩)
          else parseBodyFrame strict pending rest

/-- One call of the reference parser. -/
def parseMessage (strict : Bool) (v : View) : Except EslError (Option EslMessage) × View :=
  match v.state with
  | .waitingForHeaders => parseHeaderFrame strict v.bytes
  | .waitingForBody pending => parseBodyFrame strict pending v.bytes

/-- Bound on the messages still to be returned without new data. -/
def measure (v : View) : Nat :=
  v.bytes.length + if v.state = .waitingForHeaders then 0 else 1

/-- Repeat `parseMessage`, at most `fuel` times. -/
def drain (strict : Bool) : Nat → View → Parsed View
  | 0, v => ⟨[], .pending v⟩
  | fuel + 1, v =>
      match parseMessage strict v with
      | (.error e, _) => ⟨[], .failed e⟩
      | (.ok none, v) => ⟨[], .pending v⟩
      | (.ok (some m), v) => (drain strict fuel v).cons m

/-- Everything the bytes at hand yield. -/
def parseAvailable (strict : Bool) (v : View) : Parsed View :=
  drain strict (measure v + 1) v

/-- Parse a whole byte stream. -/
def parse (strict : Bool) (stream : Bytes) : Parsed View :=
  parseAvailable strict ⟨.waitingForHeaders, stream⟩

/-- A call drops a piece of the front; with a finished message the parser is between messages. -/
theorem parseBodyFrame_consumes {strict : Bool} {pending : PendingBody} {bytes : Bytes}
    {result : Except EslError (Option EslMessage)} {next : View}
    (h : parseBodyFrame strict pending bytes = (result, next)) :
    (∃ count, next.bytes = bytes.drop count) ∧
      ∀ m, result = .ok (some m) → next.state = .waitingForHeaders := by
  unfold parseBodyFrame at h
  split at h
  · obtain ⟨rfl, rfl⟩ := Prod.mk.inj h
    exact ⟨⟨0, rfl⟩, fun m hm => by cases hm⟩
  · obtain ⟨-, rfl⟩ := Prod.mk.inj h
    exact ⟨⟨pending.bodyLength, rfl⟩, fun _ _ => rfl⟩

/-- The same of a whole call, where a header block costs its terminator at least. -/
theorem parseMessage_consumes {strict : Bool} {v next : View}
    {result : Except EslError (Option EslMessage)} (h : parseMessage strict v = (result, next)) :
    (∃ count, next.bytes = v.bytes.drop count ∧
        ∀ m, result = .ok (some m) → v.state = .waitingForHeaders →
          next.bytes.length < v.bytes.length) ∧
      ∀ m, result = .ok (some m) → next.state = .waitingForHeaders := by
  obtain ⟨state, bytes⟩ := v
  cases state with
  | waitingForBody pending =>
      obtain ⟨⟨count, hcount⟩, hstate⟩ := parseBodyFrame_consumes h
      exact ⟨⟨count, hcount, fun m hm hwaiting => by cases hwaiting⟩, hstate⟩
  | waitingForHeaders =>
      simp only [parseMessage, parseHeaderFrame] at h
      cases hfind : find headerTerminator bytes with
      | none =>
          rw [hfind] at h
          obtain ⟨rfl, rfl⟩ := Prod.mk.inj h
          exact ⟨⟨0, rfl, fun m hm => by cases hm⟩, fun m hm => by cases hm⟩
      | some pos =>
          have hend := find_add_length_le headerTerminator_ne_nil hfind
          have hlen : headerTerminator.length = 2 := rfl
          have hshort : (bytes.drop (pos + headerTerminator.length)).length < bytes.length := by
            rw [List.length_drop]
            omega
          rw [hfind] at h
          simp only at h
          cases hdecode : decodeHeaderFrame strict (bytes.take pos) with
          | error e =>
              rw [hdecode] at h
              obtain ⟨rfl, rfl⟩ := Prod.mk.inj h
              exact ⟨⟨_, rfl, fun _ _ _ => hshort⟩, fun _ _ => rfl⟩
          | ok pending =>
              rw [hdecode] at h
              simp only at h
              split at h
              · obtain ⟨rfl, rfl⟩ := Prod.mk.inj h
                exact ⟨⟨_, rfl, fun _ _ _ => hshort⟩, fun _ _ => rfl⟩
              · obtain ⟨⟨count, hcount⟩, hstate⟩ := parseBodyFrame_consumes h
                refine ⟨⟨pos + headerTerminator.length + count, ?_, fun _ _ _ => ?_⟩, hstate⟩
                · rw [hcount, List.drop_drop]
                · show next.bytes.length < bytes.length
                  rw [hcount, List.length_drop]
                  omega

theorem parseMessage_length_le {strict : Bool} {v next : View}
    {result : Except EslError (Option EslMessage)} (h : parseMessage strict v = (result, next)) :
    next.bytes.length ≤ v.bytes.length := by
  obtain ⟨⟨count, hcount, -⟩, -⟩ := parseMessage_consumes h
  rw [hcount, List.length_drop]
  omega

/-- A finished message always consumes something: bytes, or the parked state. -/
theorem measure_lt_of_some {strict : Bool} {v next : View} {m : EslMessage}
    (h : parseMessage strict v = (.ok (some m), next)) : measure next < measure v := by
  obtain ⟨⟨_, _, hshort⟩, hstate⟩ := parseMessage_consumes h
  have hle := parseMessage_length_le h
  have hnext : measure next = next.bytes.length := by simp [measure, hstate m rfl]
  by_cases hwaiting : v.state = .waitingForHeaders
  · have hlt := hshort m rfl hwaiting
    simp only [measure, hwaiting, if_true] at hnext ⊢
    omega
  · simp only [measure, hwaiting, if_false] at hnext ⊢
    omega

/-- Fuel beyond the measure changes nothing: the drain ends because nothing is left to return. -/
theorem drain_eq_of_measure_lt {strict : Bool} {v : View} {fuel more : Nat}
    (hfuel : measure v < fuel) (hmore : measure v < more) :
    drain strict fuel v = drain strict more v := by
  induction fuel generalizing v more with
  | zero => omega
  | succ fuel ih =>
      cases more with
      | zero => omega
      | succ more =>
          simp only [drain]
          cases hparse : parseMessage strict v with
          | mk result next =>
              cases result with
              | error e => rfl
              | ok message =>
                  cases message with
                  | none => rfl
                  | some m =>
                      have hlt := measure_lt_of_some hparse
                      exact congrArg (Parsed.cons m) (ih (by omega) (by omega))

/-- The loop equation of the drain, free of fuel. -/
theorem parseAvailable_eq (strict : Bool) (v : View) :
    parseAvailable strict v =
      match parseMessage strict v with
      | (.error e, _) => ⟨[], .failed e⟩
      | (.ok none, v) => ⟨[], .pending v⟩
      | (.ok (some m), v) => (parseAvailable strict v).cons m := by
  rw [parseAvailable, drain]
  cases hparse : parseMessage strict v with
  | mk result next =>
      cases result with
      | error e => rfl
      | ok message =>
          cases message with
          | none => rfl
          | some m =>
              have hlt := measure_lt_of_some hparse
              simp only [parseAvailable]
              rw [drain_eq_of_measure_lt (by omega) (Nat.lt_succ_self (measure next))]

/-- One call on longer input: a finished message or an error is the same one, and a call that
wanted more input is the call its parser makes on the extended input. -/
theorem parseBodyFrame_append (strict : Bool) (pending : PendingBody) (bytes extra : Bytes) :
    parseBodyFrame strict pending (bytes ++ extra) =
      match parseBodyFrame strict pending bytes with
      | (.ok none, v) => parseMessage strict (v.append extra)
      | (result, v) => (result, v.append extra) := by
  by_cases hshort : bytes.length < pending.bodyLength
  · simp [parseBodyFrame, hshort, parseMessage, View.append]
  · have hle : pending.bodyLength ≤ bytes.length := Nat.le_of_not_lt hshort
    have hlong : ¬ (bytes ++ extra).length < pending.bodyLength := by
      rw [List.length_append]
      omega
    rw [parseBodyFrame, if_neg hlong, parseBodyFrame, if_neg hshort,
      List.take_append_of_le_length hle, List.drop_append_of_le_length hle]
    cases decodeBody strict pending (bytes.take pending.bodyLength) with
    | error e => rfl
    | ok m => rfl

theorem parseMessage_append (strict : Bool) (v : View) (extra : Bytes) :
    parseMessage strict (v.append extra) =
      match parseMessage strict v with
      | (.ok none, v) => parseMessage strict (v.append extra)
      | (result, v) => (result, v.append extra) := by
  obtain ⟨state, bytes⟩ := v
  cases state with
  | waitingForBody pending => exact parseBodyFrame_append strict pending bytes extra
  | waitingForHeaders =>
      show parseHeaderFrame strict (bytes ++ extra) = _
      simp only [parseMessage]
      cases hfind : find headerTerminator bytes with
      | none => simp [parseHeaderFrame, hfind, View.append]
      | some pos =>
          have hend := find_add_length_le headerTerminator_ne_nil hfind
          have hextended := find_append_of_some headerTerminator_ne_nil hfind extra
          have htake : (bytes ++ extra).take pos = bytes.take pos :=
            List.take_append_of_le_length (by omega)
          have hdrop : (bytes ++ extra).drop (pos + headerTerminator.length) =
              bytes.drop (pos + headerTerminator.length) ++ extra :=
            List.drop_append_of_le_length hend
          simp only [parseHeaderFrame, hfind, hextended, htake, hdrop]
          cases decodeHeaderFrame strict (bytes.take pos) with
          | error e => rfl
          | ok pending =>
              simp only
              split
              · rfl
              · exact parseBodyFrame_append strict pending _ extra

/-- **Appending input commutes with draining.**  The induction is on the measure, which every
finished message decreases. -/
theorem parseAvailable_append (strict : Bool) (v : View) (extra : Bytes) :
    parseAvailable strict (v.append extra) =
      (parseAvailable strict v).andThen fun v => parseAvailable strict (v.append extra) := by
  induction hmeasure : measure v using Nat.strong_induction_on generalizing v with
  | _ bound ih =>
      rw [parseAvailable_eq strict v]
      have happend := parseMessage_append strict v extra
      cases hparse : parseMessage strict v with
      | mk result next =>
          rw [hparse] at happend
          cases result with
          | error e =>
              rw [parseAvailable_eq, happend]
              rfl
          | ok message =>
              cases message with
              | none =>
                  simp only at happend
                  rw [parseAvailable_eq, happend, ← parseAvailable_eq]
                  rfl
              | some m =>
                  have hlt := measure_lt_of_some hparse
                  rw [parseAvailable_eq, happend]
                  simp only [Parsed.cons_andThen]
                  rw [ih (measure next) (by omega) next rfl]

/-- What a drain leaves pending has nothing more to return. -/
theorem parseAvailable_settled {strict : Bool} {v left : View} {ms : List EslMessage}
    (h : parseAvailable strict v = ⟨ms, .pending left⟩) :
    parseAvailable strict left = ⟨[], .pending left⟩ := by
  have happend := parseAvailable_append strict v []
  rw [View.append_nil, h] at happend
  simp only [Parsed.andThen, View.append_nil, Parsed.mk.injEq] at happend
  obtain ⟨hmessages, houtcome⟩ := happend
  have hnil : (parseAvailable strict left).messages = [] := by simpa using hmessages.symm
  cases hleft : parseAvailable strict left with
  | mk messages outcome =>
      rw [hleft] at hnil houtcome
      simp only at hnil houtcome
      rw [hnil, houtcome]

/-- Feed chunks to the reference parser. -/
def feed (strict : Bool) (v : View) : List Bytes → Parsed View
  | [] => ⟨[], .pending v⟩
  | chunk :: rest =>
      (parseAvailable strict (v.append chunk)).andThen fun v => feed strict v rest

/-- Feeding chunks one by one to a settled parser is parsing their concatenation. -/
theorem feed_eq_parseAvailable {strict : Bool} {v : View} (chunks : List Bytes)
    (hsettled : parseAvailable strict v = ⟨[], .pending v⟩) :
    feed strict v chunks = parseAvailable strict (v.append chunks.flatten) := by
  induction chunks generalizing v with
  | nil => simp [feed, hsettled]
  | cons chunk rest ih =>
      rw [feed, List.flatten_cons, ← View.append_append,
        parseAvailable_append strict (v.append chunk)]
      cases hfirst : parseAvailable strict (v.append chunk) with
      | mk messages outcome =>
          cases outcome with
          | failed e => rfl
          | pending left => simp only [Parsed.andThen, ih (parseAvailable_settled hfirst)]

/-- The size check of `add_data`, on the bytes it sees. -/
def checkSize (bytes : Bytes) : Except EslError Unit :=
  if bytes.length > maxBufferSize then .error (.bufferOverflow bytes.length maxBufferSize)
  else .ok ()

/-- The size check only fails on an overflow. -/
theorem checkSize_cases (bytes : Bytes) :
    (∃ size limit, checkSize bytes = .error (.bufferOverflow size limit)) ∨
      checkSize bytes = .ok () := by
  unfold checkSize
  split
  · exact Or.inl ⟨_, _, rfl⟩
  · exact Or.inr rfl

theorem checkSize_eq_ok {bytes : Bytes} :
    checkSize bytes = .ok () ↔ bytes.length ≤ maxBufferSize := by
  unfold checkSize
  split
  · rename_i hbig
    exact iff_of_false (fun h => nomatch h) (by omega)
  · rename_i hfits
    exact iff_of_true rfl (by omega)

/-- Feed chunks to the reference parser under the size limit of the buffer. -/
def feedWithin (strict : Bool) (v : View) : List Bytes → Parsed View
  | [] => ⟨[], .pending v⟩
  | chunk :: rest =>
      match checkSize (v.append chunk).bytes with
      | .error e => ⟨[], .failed e⟩
      | .ok () =>
          (parseAvailable strict (v.append chunk)).andThen fun v => feedWithin strict v rest

/-- What a parser makes of the bytes it has and of the chunks still to come. -/
def drive (strict : Bool) (v : View) (chunks : List Bytes) : Parsed View :=
  (parseAvailable strict v).andThen fun v => feedWithin strict v chunks

/-- A finished message comes first, whatever is still to come. -/
theorem drive_of_some {strict : Bool} {v next : View} {m : EslMessage} (chunks : List Bytes)
    (h : parseMessage strict v = (.ok (some m), next)) :
    drive strict v chunks = (drive strict next chunks).cons m := by
  unfold drive
  rw [parseAvailable_eq, h]
  exact Parsed.cons_andThen m _ _

theorem drive_of_error {strict : Bool} {v next : View} {e : EslError} (chunks : List Bytes)
    (h : parseMessage strict v = (.error e, next)) :
    drive strict v chunks = ⟨[], .failed e⟩ := by
  unfold drive
  rw [parseAvailable_eq, h]
  rfl

/-- With nothing to return, a parser waits for the chunks. -/
theorem drive_of_none {strict : Bool} {v next : View} (chunks : List Bytes)
    (h : parseMessage strict v = (.ok none, next)) :
    drive strict v chunks = feedWithin strict next chunks ∧
      drive strict next chunks = feedWithin strict next chunks := by
  have hfirst : parseAvailable strict v = ⟨[], .pending next⟩ := by
    rw [parseAvailable_eq, h]
  have hsettled := parseAvailable_settled hfirst
  constructor
  · unfold drive
    rw [hfirst]
    rfl
  · unfold drive
    rw [hsettled]
    rfl

/-- The next chunk joins the unconsumed bytes. -/
theorem feedWithin_cons {strict : Bool} {v : View} {chunk : Bytes} (rest : List Bytes)
    (h : checkSize (v.append chunk).bytes = .ok ()) :
    feedWithin strict v (chunk :: rest) = drive strict (v.append chunk) rest := by
  rw [feedWithin, h]
  rfl

theorem parseAvailable_empty (strict : Bool) :
    parseAvailable strict ⟨.waitingForHeaders, []⟩ = ⟨[], .pending ⟨.waitingForHeaders, []⟩⟩ := rfl

end Reference

/-! ## The real parser refines the reference parser -/

namespace EslParser

/-- A result paired with what is observable of the parser that returned it. -/
def observe (r : Except EslError (Option EslMessage) × EslParser) :
    Except EslError (Option EslMessage) × View :=
  (r.1, r.2.view)

theorem parseBodyFrame_view (p : EslParser) (pending : PendingBody) :
    observe (p.parseBodyFrame pending) =
      Reference.parseBodyFrame p.strictHeaderUtf8 pending p.remainingBytes := by
  by_cases hshort : p.buffer.buffer.length < pending.bodyLength
  · simp [observe, parseBodyFrame, Reference.parseBodyFrame, EslBuffer.extractBytes,
      remainingBytes, view, hshort]
  · simp [observe, parseBodyFrame, Reference.parseBodyFrame, EslBuffer.extractBytes,
      remainingBytes, view, hshort]

/-- One call of the real parser is one call of the reference parser: the resumed search finds what
a search from the start finds. -/
theorem parseMessage_view (p : EslParser) :
    observe p.parseMessage = Reference.parseMessage p.strictHeaderUtf8 p.view := by
  simp only [parseMessage, Reference.parseMessage, view]
  cases hstate : p.state with
  | waitingForBody pending => exact parseBodyFrame_view p pending
  | waitingForHeaders =>
      obtain ⟨hfst, hrest⟩ :=
        EslBuffer.extractUntilPattern_spec headerTerminator_ne_nil p.watermark
      simp only [parseHeaderFrame, Reference.parseHeaderFrame, remainingBytes]
      cases hfind : find headerTerminator p.buffer.buffer with
      | none =>
          simp only [hfind, Option.map_none] at hfst hrest
          simp [hfst, observe, view, remainingBytes, hrest]
      | some pos =>
          simp only [hfind, Option.map_some] at hfst hrest
          simp only [hfst]
          cases decodeHeaderFrame p.strictHeaderUtf8 (p.buffer.buffer.take pos) with
          | error e => simp [observe, view, remainingBytes, hrest]
          | ok pending =>
              simp only
              split
              · simp [observe, view, remainingBytes, hrest]
              · rw [parseBodyFrame_view]
                simp [remainingBytes, hrest]

@[simp] theorem parseMessage_strict (p : EslParser) :
    p.parseMessage.2.strictHeaderUtf8 = p.strictHeaderUtf8 := by
  have hbody : ∀ (q : EslParser) (pending : PendingBody),
      (q.parseBodyFrame pending).2.strictHeaderUtf8 = q.strictHeaderUtf8 := by
    intro q pending
    unfold parseBodyFrame
    simp only
    split <;> rfl
  unfold parseMessage
  split
  · unfold parseHeaderFrame
    simp only
    split
    · rfl
    · split
      · rfl
      · split
        · rfl
        · rw [hbody]
  · rw [hbody]

/-- A call of the real parser, as a call of the reference parser and the flag it keeps. -/
theorem parseMessage_eq {p next : EslParser} {result : Except EslError (Option EslMessage)}
    (h : p.parseMessage = (result, next)) :
    Reference.parseMessage p.strictHeaderUtf8 p.view = (result, next.view) ∧
      next.strictHeaderUtf8 = p.strictHeaderUtf8 := by
  have hview := parseMessage_view p
  have hstrict := parseMessage_strict p
  rw [h] at hview hstrict
  exact ⟨hview.symm, hstrict⟩

theorem measure_eq (p : EslParser) : p.measure = Reference.measure p.view := by
  by_cases hstate : p.state = .waitingForHeaders
  · simp [measure, Reference.measure, view, isWaitingForHeaders, hstate]
  · simp [measure, Reference.measure, view, isWaitingForHeaders, hstate]

/-- Draining the real parser is draining the reference parser; the flag it was built with stays. -/
theorem parseUntilNone_view (fuel : Nat) (p : EslParser) :
    (p.parseUntilNone fuel).map view = Reference.drain p.strictHeaderUtf8 fuel p.view := by
  induction fuel generalizing p with
  | zero => rfl
  | succ fuel ih =>
      have hview := parseMessage_view p
      have hstrict := parseMessage_strict p
      simp only [parseUntilNone, Reference.drain]
      generalize p.parseMessage = called at hview hstrict
      obtain ⟨result, next⟩ := called
      simp only [observe] at hview hstrict
      rw [← hview]
      cases result with
      | error e => rfl
      | ok message =>
          cases message with
          | none => rfl
          | some m =>
              have hnext := ih next
              rw [hstrict] at hnext
              simp only [← hnext]
              exact Parsed.cons_andThen m _ _

theorem parseUntilNone_strict {fuel : Nat} {p left : EslParser}
    (h : (p.parseUntilNone fuel).outcome = .pending left) :
    left.strictHeaderUtf8 = p.strictHeaderUtf8 := by
  induction fuel generalizing p with
  | zero =>
      obtain rfl : p = left := by simpa [parseUntilNone] using h
      rfl
  | succ fuel ih =>
      have hstrict := parseMessage_strict p
      simp only [parseUntilNone] at h
      generalize p.parseMessage = called at h hstrict
      obtain ⟨result, next⟩ := called
      simp only at hstrict
      cases result with
      | error e => simp at h
      | ok message =>
          cases message with
          | none =>
              obtain rfl : next = left := by simpa using h
              exact hstrict
          | some m => exact (ih h).trans hstrict

theorem parseAvailable_view (p : EslParser) :
    p.parseAvailable.map view = Reference.parseAvailable p.strictHeaderUtf8 p.view := by
  rw [parseAvailable, parseUntilNone_view, measure_eq]
  rfl

@[simp] theorem addData_view (p : EslParser) (data : Bytes) :
    (p.addData data).2.view = p.view.append data := rfl

theorem addData_checkSize (p : EslParser) (data : Bytes) :
    (p.addData data).1 = Reference.checkSize (p.view.append data).bytes := rfl

/-- Feeding the real parser is feeding the reference parser under the size limit. -/
theorem feed_within (p : EslParser) (chunks : List Bytes) :
    (p.feed chunks).map view = Reference.feedWithin p.strictHeaderUtf8 p.view chunks := by
  induction chunks generalizing p with
  | nil => rfl
  | cons chunk rest ih =>
      have hcheck := addData_checkSize p chunk
      have hview := addData_view p chunk
      have hstrict : (p.addData chunk).2.strictHeaderUtf8 = p.strictHeaderUtf8 := rfl
      simp only [feed, Reference.feedWithin]
      rw [← hcheck]
      generalize p.addData chunk = added at hview hstrict
      obtain ⟨result, next⟩ := added
      simp only at hview hstrict
      cases result with
      | error e => rfl
      | ok fitted =>
          have havailable := parseAvailable_view next
          rw [hview, hstrict] at havailable
          simp only
          rw [← havailable, Parsed.map_andThen]
          cases hdrained : next.parseAvailable with
          | mk messages outcome =>
              cases outcome with
              | failed e => rfl
              | pending left =>
                  have hleft : left.strictHeaderUtf8 = p.strictHeaderUtf8 := by
                    rw [← hstrict]
                    exact parseUntilNone_strict (congrArg Parsed.outcome hdrained)
                  have hrest := ih left
                  rw [hleft] at hrest
                  simp only [Parsed.map, Parsed.andThen_assoc]
                  simp only [Parsed.andThen, ← hrest, Parsed.map]

/-- Feeding a fresh parser, as a drive of the reference parser. -/
theorem feed_new_drive (strict : Bool) (chunks : List Bytes) :
    ((new strict).feed chunks).map view =
      Reference.drive strict ⟨.waitingForHeaders, []⟩ chunks := by
  rw [feed_within, Reference.drive, Reference.parseAvailable_empty]
  rfl

/-- Without an overflow the size limit plays no part. -/
theorem feedWithin_eq_feed {strict : Bool} {v : View} (chunks : List Bytes)
    (hfit : (Reference.feedWithin strict v chunks).overflowed = false) :
    Reference.feedWithin strict v chunks = Reference.feed strict v chunks := by
  induction chunks generalizing v with
  | nil => rfl
  | cons chunk rest ih =>
      simp only [Reference.feedWithin, Reference.feed] at hfit ⊢
      rcases Reference.checkSize_cases (v.append chunk).bytes with ⟨size, limit, hcheck⟩ | hcheck
      · rw [hcheck] at hfit
        cases hfit
      · rw [hcheck] at hfit ⊢
        simp only at hfit ⊢
        cases hdrained : Reference.parseAvailable strict (v.append chunk) with
        | mk messages outcome =>
            rw [hdrained] at hfit
            cases outcome with
            | failed e => rfl
            | pending left =>
                have hrest := ih (v := left) hfit
                simp only [Parsed.andThen, hrest]

/-- Observing a drive does not change whether it overflowed. -/
theorem map_overflowed (r : Parsed EslParser) : (r.map view).overflowed = r.overflowed := by
  obtain ⟨messages, outcome⟩ := r
  cases outcome with
  | failed e => cases e <;> rfl
  | pending p => rfl

/-- Feeding any chunking that does not overflow gives what the reference parser makes of the whole
stream. -/
theorem feed_new_view (strict : Bool) (chunks : List Bytes)
    (hfit : ((new strict).feed chunks).overflowed = false) :
    ((new strict).feed chunks).map view = Reference.parse strict chunks.flatten := by
  have hwithin := feed_within (new strict) chunks
  rw [← map_overflowed, hwithin] at hfit
  rw [hwithin, feedWithin_eq_feed chunks hfit]
  exact Reference.feed_eq_parseAvailable chunks (Reference.parseAvailable_empty strict)

/-- **Chunking invariance.**  Cutting a byte stream into chunks in any way yields the messages and
the final outcome of the reference parser on the whole stream, and so those of feeding the stream in
one chunk, provided no `add_data` call reports an overflow. -/
theorem chunking_invariance (strict : Bool) (chunks : List Bytes)
    (hfit : ((new strict).feed chunks).overflowed = false) :
    ((new strict).feed chunks).map view = Reference.parse strict chunks.flatten ∧
      (((new strict).feed [chunks.flatten]).overflowed = false →
        ((new strict).feed chunks).map view = ((new strict).feed [chunks.flatten]).map view) := by
  have hwhole := feed_new_view strict chunks hfit
  refine ⟨hwhole, fun hone => ?_⟩
  rw [hwhole, feed_new_view strict [chunks.flatten] hone]
  simp

/-- An event frame cut inside the terminator and inside its body. -/
def cutEventFrame : List Bytes :=
  [Utf8.encode "Content-Length: 4\nContent-Type: log/data\n".toList,
    Utf8.encode "\nab".toList, Utf8.encode "cdCon".toList]

theorem chunking_invariance_cutEventFrame :
    ((new false).feed cutEventFrame).map view =
      ((new false).feed [cutEventFrame.flatten]).map view :=
  (chunking_invariance false cutEventFrame (by decide +kernel)).2 (by decide +kernel)

end EslParser
end EslTokio
