import EslTokio.Connection.Auth
import EslTokio.Connection.Reader

/-!
# Handing the byte stream over

A re-exec stops the old reader at a message boundary, passes the unconsumed bytes on, and lets a
fresh parser of the new process continue on the same socket.  The new parser has neither the parse
state nor the scan watermark of the old one.

* `Spawned` — the parsers a reader task is started with.
* `Continues` — what is left to parse of a stream, after the messages of a history.
* `Faithful` — the invariant of the loop: its parser continues the stream, and so do the residual
  bytes once the drain has delivered them.
* **`handover_messages`** — the old loop and the new parser together parse what an uninterrupted
  parser does.
-/

namespace EslTokio

open Library

/-- The parser of the process that takes the socket over (`adopt_stream_with_options`). -/
def adoptParser (strict : Bool) (residualBytes : Bytes) : Except EslError EslParser :=
  if residualBytes = [] then .ok (.new strict)
  else
    match (EslParser.new strict).addData residualBytes with
    | (.error e, _) => .error e
    | (.ok (), p) => .ok p

/-- The parsers a reader task is started with: fresh on an outbound connection, after the handshake
on an inbound one, or seeded with the residual bytes of an earlier process. -/
inductive Spawned (strict : Bool) : EslParser → Prop where
  | accepted : Spawned strict (.new strict)
  | authenticated {reads : List ReadOutcome} {method : AuthMethod}
      {write : Bytes → Except Text Unit} {timeoutMs : Nat} {response : EslResponse}
      {io : Handshake}
      (h : authenticate ⟨.new strict, reads⟩ method write timeoutMs = (.ok response, io)) :
      Spawned strict io.parser
  | adopted {residualBytes : Bytes} {p : EslParser} (h : adoptParser strict residualBytes = .ok p) :
      Spawned strict p

/-- A parser between messages whose buffer is within the limit. -/
structure Ready (strict : Bool) (p : EslParser) : Prop where
  flag : p.strictHeaderUtf8 = strict
  boundary : p.state = .waitingForHeaders
  fits : p.remainingBytes.length ≤ maxBufferSize

theorem new_ready (strict : Bool) : Ready strict (.new strict) :=
  ⟨rfl, rfl, Nat.zero_le _⟩

/-- Bytes that fit can be adopted. -/
theorem adoptParser_of_fits (strict : Bool) {residualBytes : Bytes}
    (hfits : residualBytes.length ≤ maxBufferSize) :
    ∃ p, adoptParser strict residualBytes = .ok p ∧
      p.view = ⟨.waitingForHeaders, residualBytes⟩ ∧ Ready strict p := by
  by_cases hempty : residualBytes = []
  · subst hempty
    exact ⟨.new strict, rfl, rfl, new_ready strict⟩
  · have hadd : (EslParser.new strict).addData residualBytes =
        (.ok (), ((EslParser.new strict).addData residualBytes).2) :=
      Prod.ext (Reference.checkSize_eq_ok.mpr hfits) rfl
    refine ⟨((EslParser.new strict).addData residualBytes).2, ?_, rfl, rfl, rfl, hfits⟩
    rw [adoptParser, if_neg hempty, hadd]

theorem fits_of_adoptParser {strict : Bool} {residualBytes : Bytes} {p : EslParser}
    (h : adoptParser strict residualBytes = .ok p) : residualBytes.length ≤ maxBufferSize := by
  unfold adoptParser at h
  split at h
  · rename_i hempty
    rw [hempty]
    exact Nat.zero_le _
  · have hcheck := EslParser.addData_checkSize (.new strict) residualBytes
    split at h
    · cases h
    · rename_i hadd
      rw [hadd] at hcheck
      exact Reference.checkSize_eq_ok.mp hcheck.symm

/-- A message received leaves the parser ready. -/
theorem recvMessage_ready {strict : Bool} {timeoutMs : Nat} {p : EslParser}
    {reads : List ReadOutcome} {m : EslMessage} {io : Handshake}
    (hflag : p.strictHeaderUtf8 = strict) (hfits : p.remainingBytes.length ≤ maxBufferSize)
    (h : Handshake.recvMessage timeoutMs p reads = (.ok m, io)) : Ready strict io.parser := by
  fun_induction Handshake.recvMessage timeoutMs p reads with
  | case1 => cases h
  | case2 reads p message next hparse =>
      obtain ⟨-, rfl⟩ := Prod.mk.inj h
      obtain ⟨hview, hstrict⟩ := EslParser.parseMessage_eq hparse
      exact ⟨hstrict.trans hflag, (Reference.parseMessage_consumes hview).2 message rfl,
        Nat.le_trans (Reference.parseMessage_length_le hview) hfits⟩
  | case3 => cases h
  | case4 => cases h
  | case5 p next hparse outcome rest last hread ih =>
      have hstrict := (EslParser.parseMessage_eq hparse).2
      obtain ⟨data, -, -, hcheck, rfl⟩ := EslParser.readIntoParser_eq_fed hread
      exact ih (hstrict.trans hflag) (Reference.checkSize_eq_ok.mp hcheck) h
  | case6 => cases h
  | case7 => cases h

/-- So does a message salvaged, which empties the buffer. -/
theorem recvAuthReply_ready {strict : Bool} {timeoutMs : Nat} {io next : Handshake}
    {m : EslMessage} (hready : Ready strict io.parser)
    (h : recvAuthReply io timeoutMs = (.ok m, next)) : Ready strict next.parser := by
  have hreceived := Handshake.recvMessage_received timeoutMs io.parser io.reads
  unfold recvAuthReply at h
  split at h
  · rename_i elapsedMs rest hrecv
    rw [hrecv] at hreceived
    have hflag : rest.parser.strictHeaderUtf8 = io.parser.strictHeaderUtf8 := by
      cases hreceived with
      | silence _ hstrict _ => exact hstrict
      | failure deadline _ _ => cases deadline
    unfold salvageTruncatedAuthResponse at h
    by_cases hboundary : rest.parser.state = .waitingForHeaders
    · by_cases hdata : rest.parser.remainingBytes = []
      · simp [EslParser.isWaitingForHeaders, hboundary, hdata] at h
      · simp only [EslParser.isWaitingForHeaders, hboundary, hdata] at h
        cases hsalvage : salvageBlock rest.parser.strictHeaderUtf8 rest.parser.remainingBytes with
        | error e => simp [hsalvage] at h
        | ok salvaged =>
            cases salvaged with
            | none => simp [hsalvage] at h
            | some message =>
                simp only [hsalvage] at h
                obtain ⟨-, rfl⟩ := Prod.mk.inj h
                exact ⟨hflag.trans hready.flag, hboundary, Nat.zero_le _⟩
    · simp [EslParser.isWaitingForHeaders, hboundary] at h
  · rename_i result rest _ hrecv
    obtain ⟨rfl, rfl⟩ := Prod.mk.inj h
    exact recvMessage_ready hready.flag hready.fits hrecv

/-- A handshake that succeeds leaves a parser that is ready for the reader. -/
theorem authenticate_ready {strict : Bool} {reads : List ReadOutcome} {method : AuthMethod}
    {write : Bytes → Except Text Unit} {timeoutMs : Nat} {response : EslResponse} {io : Handshake}
    (h : authenticate ⟨.new strict, reads⟩ method write timeoutMs = (.ok response, io)) :
    Ready strict io.parser := by
  have hresponse : ∃ message, receiveAuthResponse ⟨.new strict, reads⟩ method write timeoutMs =
      (.ok message, io) := by
    unfold authenticate at h
    split at h
    · cases h
    · rename_i message rest hreceive
      simp only at h
      split at h
      · split at h <;> cases h
      · obtain ⟨-, rfl⟩ := Prod.mk.inj h
        exact ⟨message, hreceive⟩
  obtain ⟨message, hreceive⟩ := hresponse
  unfold receiveAuthResponse at hreceive
  split at hreceive
  · cases hreceive
  · rename_i request first hfirst
    have hready := recvMessage_ready rfl (new_ready strict).fits hfirst
    split at hreceive
    · cases hreceive
    · split at hreceive
      · cases hreceive
      · split at hreceive
        · cases hreceive
        · split at hreceive
          · cases hreceive
          · exact recvAuthReply_ready hready hreceive

theorem Spawned.ready {strict : Bool} {p : EslParser} (h : Spawned strict p) : Ready strict p := by
  cases h with
  | accepted => exact new_ready strict
  | authenticated h => exact authenticate_ready h
  | adopted h =>
      obtain ⟨q, hq, -, hready⟩ := adoptParser_of_fits strict (fits_of_adoptParser h)
      rw [h] at hq
      obtain rfl := Except.ok.inj hq
      exact hready

/-! ## What is left of a stream -/

/-- The messages a history of the loop parsed, in order. -/
def parsedMessages (log : List LoopLog) : List EslMessage :=
  log.filterMap fun
    | .parsed m => some m
    | .fed _ => none

/-- The chunks a history of the loop read, in order. -/
def fedChunks (log : List LoopLog) : List Bytes :=
  log.filterMap fun
    | .fed data => some data
    | .parsed _ => none

/-- After the messages of `log`, a parser that shows as `v` makes of everything still to come what
the parser that started from `seed` and was not interrupted makes of it. -/
structure Continues (strict : Bool) (seed : Bytes) (log : List LoopLog) (v : View) : Prop where
  fits : v.bytes.length ≤ maxBufferSize
  drive : ∀ rest, Reference.drive strict ⟨.waitingForHeaders, seed⟩ (fedChunks log ++ rest) =
    (Reference.drive strict v rest).prepend (parsedMessages log)

namespace Continues

variable {strict : Bool} {seed : Bytes} {log : List LoopLog} {v next : View}

theorem start (hfits : seed.length ≤ maxBufferSize) :
    Continues strict seed [] ⟨.waitingForHeaders, seed⟩ :=
  ⟨hfits, fun _ => rfl⟩

/-- A finished message moves from what is left to the history. -/
theorem parsed {m : EslMessage} (h : Continues strict seed log v)
    (hparse : Reference.parseMessage strict v = (.ok (some m), next)) :
    Continues strict seed (log ++ [.parsed m]) next where
  fits := Nat.le_trans (Reference.parseMessage_length_le hparse) h.fits
  drive := by
    intro rest
    have hfed : fedChunks (log ++ [.parsed m]) = fedChunks log := by simp [fedChunks]
    have hparsed : parsedMessages (log ++ [.parsed m]) = parsedMessages log ++ [m] := by
      simp [parsedMessages]
    rw [hfed, hparsed, h.drive rest, Reference.drive_of_some rest hparse]
    simp [Parsed.prepend, Parsed.cons]

/-- A call that returns nothing leaves a parser that waits for the next chunk. -/
theorem starved (h : Continues strict seed log v)
    (hparse : Reference.parseMessage strict v = (.ok none, next)) :
    Continues strict seed log next ∧
      ∀ chunks, Reference.drive strict next chunks = Reference.feedWithin strict next chunks := by
  refine ⟨⟨Nat.le_trans (Reference.parseMessage_length_le hparse) h.fits, fun rest => ?_⟩,
    fun chunks => (Reference.drive_of_none chunks hparse).2⟩
  obtain ⟨hbefore, hafter⟩ := Reference.drive_of_none rest hparse
  rw [h.drive rest, hbefore, hafter]

/-- A chunk moves from what is left to the history. -/
theorem fed {data : Bytes} (h : Continues strict seed log v)
    (hwaiting : ∀ chunks,
      Reference.drive strict v chunks = Reference.feedWithin strict v chunks)
    (hfits : (v.append data).bytes.length ≤ maxBufferSize) :
    Continues strict seed (log ++ [.fed data]) (v.append data) where
  fits := hfits
  drive := by
    intro rest
    have hfed : fedChunks (log ++ [.fed data]) ++ rest = fedChunks log ++ data :: rest := by
      simp [fedChunks]
    have hparsed : parsedMessages (log ++ [.fed data]) = parsedMessages log := by
      simp [parsedMessages]
    rw [hfed, hparsed, h.drive (data :: rest), hwaiting,
      Reference.feedWithin_cons rest (Reference.checkSize_eq_ok.mpr hfits)]

end Continues

namespace Reader

variable {ε : Type}

/-- The invariant of the loop: while it runs its parser continues the stream, and it waits for the
next chunk before a read; the residual bytes the drain delivered continue it too. -/
structure Faithful (strict : Bool) (seed : Bytes) (s : Reader ε) (log : List LoopLog) : Prop where
  flag : s.phase.looping = true → s.parser.strictHeaderUtf8 = strict
  parser : s.phase.looping = true → Continues strict seed log s.parser.view
  waiting : s.phase = .reading → ∀ chunks,
    Reference.drive strict s.parser.view chunks =
      Reference.feedWithin strict s.parser.view chunks
  unsent : s.phase.looping = true → s.reexecResult = none
  residual : ∀ bytes, s.reexecResult = some (.ok bytes) →
    Continues strict seed log ⟨.waitingForHeaders, bytes⟩

variable {strict : Bool} {seed : Bytes} {s next : Reader ε} {log : List LoopLog}

/-- The loop has returned without delivering residual bytes. -/
theorem Faithful.of_returned (hphase : next.phase.looping = false)
    (hresult : ∀ bytes, next.reexecResult ≠ some (.ok bytes)) :
    Faithful strict seed next log where
  flag h := by
    rw [hphase] at h
    cases h
  parser h := by
    rw [hphase] at h
    cases h
  waiting h := by
    rw [h] at hphase
    cases hphase
  unsent h := by
    rw [hphase] at h
    cases h
  residual bytes h := absurd h (hresult bytes)

/-- The loop goes on with a parser that continues the stream. -/
theorem Faithful.of_looping (hresult : next.reexecResult = none)
    (hflag : next.parser.strictHeaderUtf8 = strict)
    (hparser : Continues strict seed log next.parser.view)
    (hwaiting : next.phase = .reading → ∀ chunks,
      Reference.drive strict next.parser.view chunks =
        Reference.feedWithin strict next.parser.view chunks) :
    Faithful strict seed next log where
  flag _ := hflag
  parser _ := hparser
  waiting := hwaiting
  unsent _ := hresult
  residual bytes h := by
    rw [hresult] at h
    cases h

/-- Nothing that the invariant mentions changes. -/
theorem Faithful.frame (h : Faithful strict seed s log) (hparser : next.parser = s.parser)
    (hphase : next.phase.looping = true → s.phase.looping = true)
    (hreading : next.phase = .reading → s.phase = .reading)
    (hresult : next.reexecResult = s.reexecResult) : Faithful strict seed next log where
  flag hlooping := by
    rw [hparser]
    exact h.flag (hphase hlooping)
  parser hlooping := by
    rw [hparser]
    exact h.parser (hphase hlooping)
  waiting hphase := by
    rw [hparser]
    exact h.waiting (hreading hphase)
  unsent hlooping := by
    rw [hresult]
    exact h.unsent (hphase hlooping)
  residual bytes hbytes := h.residual bytes (hresult ▸ hbytes)

/-- What the loop knows when a `parse_message` call returns: the call of the reference parser, that
nothing has been sent to the teardown, and what was left to parse before. -/
theorem Faithful.parsing {result : Except EslError (Option EslMessage)} {p : EslParser}
    (h : Faithful strict seed s log) (hphase : s.phase = .parsing)
    (hparse : s.parser.parseMessage = (result, p)) :
    Reference.parseMessage strict s.parser.view = (result, p.view) ∧
      p.strictHeaderUtf8 = strict ∧ s.reexecResult = none ∧
      Continues strict seed log s.parser.view := by
  have hlooping : s.phase.looping = true := by rw [hphase]; rfl
  obtain ⟨hview, hstrict⟩ := EslParser.parseMessage_eq hparse
  rw [h.flag hlooping] at hview hstrict
  exact ⟨hview, hstrict, h.unsent hlooping, h.parser hlooping⟩

theorem stopEarly_reexecResult (cause : ReaderExit) (h : s.reexecResult = none) (bytes : Bytes) :
    (s.stopEarly cause).reexecResult ≠ some (.ok bytes) := by
  unfold stopEarly
  split
  · simp [sendReexec, exit, h]
  · simp [exit, h]

variable (parseEvent : Bool → EslMessage → EventFormat → Except EslError ε)

/-- One step keeps the loop on the stream. -/
theorem step_faithful {act : LoopAct ε} {outputs : List LoopLog} (h : Faithful strict seed s log)
    (hstep : s.step parseEvent act = some (next, outputs)) :
    Faithful strict seed next (log ++ outputs) := by
  have hunsent : s.phase.looping = true → ∀ bytes, s.reexecResult ≠ some (.ok bytes) := by
    intro hlooping bytes
    rw [h.unsent hlooping]
    simp
  cases step_move parseEvent hstep with
  | parseFailed hphase =>
      rw [List.append_nil]
      exact .of_returned rfl (hunsent (by rw [hphase]; rfl))
  | starved hphase hparse =>
      obtain ⟨hview, hflag, hnothing, hleft⟩ := h.parsing hphase hparse
      obtain ⟨hcontinues, hwaiting⟩ := hleft.starved hview
      rw [List.append_nil]
      exact .of_looping hnothing hflag hcontinues fun _ => hwaiting
  | dispatchStarted hphase hparse =>
      obtain ⟨hview, hflag, hnothing, hleft⟩ := h.parsing hphase hparse
      refine .of_looping hnothing hflag (hleft.parsed hview) fun hreading => ?_
      cases hreading
  | routable hphase hparse =>
      obtain ⟨hview, hflag, hnothing, hleft⟩ := h.parsing hphase hparse
      refine .of_looping hnothing hflag (hleft.parsed hview) fun hreading => ?_
      cases hreading
  | lingered hphase hparse =>
      obtain ⟨hview, hflag, hnothing, hleft⟩ := h.parsing hphase hparse
      refine .of_looping hnothing hflag (hleft.parsed hview) fun hreading => ?_
      cases hphase.symm.trans hreading
  | noticed hphase =>
      refine .of_returned (by simp [LoopPhase.looping]) ?_
      exact stopEarly_reexecResult _ (h.unsent (by rw [hphase]; rfl))
  | routed hphase =>
      rw [List.append_nil]
      refine h.frame rfl (fun _ => by rw [hphase]; rfl) (fun hreading => ?_) rfl
      cases hreading
  | dispatched hphase =>
      rw [List.append_nil]
      exact h.frame rfl id id rfl
  | proceeded hphase =>
      rw [List.append_nil]
      refine h.frame rfl (fun _ => by rw [hphase]; rfl) (fun hreading => ?_) rfl
      cases hreading
  | stopped hphase =>
      refine .of_returned (by simp [LoopPhase.looping]) ?_
      exact stopEarly_reexecResult _ (h.unsent (by rw [hphase]; rfl))
  | stopObserved hphase =>
      rw [List.append_nil]
      refine h.frame rfl (fun _ => by rw [hphase]; rfl) (fun hreading => ?_) rfl
      cases hreading
  | drained hphase hdraining hboundary =>
      have hlooping : s.phase.looping = true := by rw [hphase]; rfl
      have hstate : s.parser.state = .waitingForHeaders := by
        simpa [EslParser.isWaitingForHeaders] using hboundary
      have hview : s.parser.view = ⟨.waitingForHeaders, s.parser.remainingBytes⟩ := by
        rw [EslParser.view, hstate]
      rw [List.append_nil]
      constructor
      case residual =>
        intro bytes hbytes
        have hsent : s.parser.remainingBytes = bytes := by
          simpa [exit, sendReexec, h.unsent hlooping] using hbytes
        rw [← hsent, ← hview]
        exact h.parser hlooping
      all_goals
        intro hstill
        cases hstill
  | fed hphase hdata hfits =>
      have hlooping : s.phase.looping = true := by rw [hphase]; rfl
      have hcontinues := (h.parser hlooping).fed (h.waiting hphase) hfits
      refine .of_looping (h.unsent hlooping) (h.flag hlooping) hcontinues fun hreading => ?_
      cases hreading
  | idled hphase =>
      rw [List.append_nil]
      refine h.frame rfl (fun _ => by rw [hphase]; rfl) (fun hreading => ?_) rfl
      cases hreading
  | readEnded hphase =>
      rw [List.append_nil]
      exact .of_returned rfl (hunsent (by rw [hphase]; rfl))
  | drainFailed hphase =>
      rw [List.append_nil]
      refine .of_returned rfl fun bytes => ?_
      simp [failDrain, exit, sendReexec, h.unsent (by rw [hphase]; rfl)]
  | panicked hlooping =>
      rw [List.append_nil]
      exact .of_returned rfl (hunsent hlooping)
  | published hphase =>
      rw [List.append_nil]
      refine h.frame ?_ ?_ ?_ ?_
      · unfold publishStep
        split <;> rfl
      · rw [publishStep_phase]
        simp [LoopPhase.looping]
      · rw [publishStep_phase]
        simp
      · unfold publishStep
        split <;> rfl
  | pendingFailed hphase =>
      rw [List.append_nil]
      exact h.frame rfl (by simp [LoopPhase.looping]) (by simp) rfl
  | finished hphase =>
      rw [List.append_nil]
      exact h.frame rfl (by simp [LoopPhase.looping]) (by simp) rfl
  | other hother =>
      obtain ⟨hparser, hphase, -, hresult⟩ := otherStep_frame hother
      rw [List.append_nil]
      exact h.frame hparser (fun hlooping => hphase ▸ hlooping) (fun hreading => hphase ▸ hreading)
        hresult

/-- A whole run keeps the loop on the stream its parser was started on. -/
theorem run_faithful {p : EslParser} {eventQueueSize : Nat} {overflow : EventOverflow}
    {acts : List (LoopAct ε)} {final : Reader ε} (hready : Ready strict p)
    (hrun : run (step parseEvent) (spawn p eventQueueSize overflow) acts = some (final, log)) :
    Faithful strict p.remainingBytes final log := by
  have hview : p.view = ⟨.waitingForHeaders, p.remainingBytes⟩ := by
    rw [EslParser.view, hready.boundary]
  refine run_history ?_ ?_ hrun
  · intro s before act next outputs hfaithful hstep
    exact step_faithful parseEvent hfaithful hstep
  · refine .of_looping rfl hready.flag ?_ (by simp [spawn])
    show Continues strict p.remainingBytes [] p.view
    rw [hview]
    exact .start hready.fits

/-- **No message is lost or parsed twice across a re-exec.**  Whatever arrives, in whatever chunks,
and wherever the stop signal is observed: if the drain delivers residual bytes, they can be adopted,
and the messages of the old loop followed by those a fresh parser makes of the residual bytes and
the rest of the stream are those of a parser that was not interrupted. -/
theorem handover_messages {p : EslParser} {eventQueueSize : Nat} {overflow : EventOverflow}
    {acts : List (LoopAct ε)} {final : Reader ε} {bytes : Bytes} (hspawned : Spawned strict p)
    (hrun : run (step parseEvent) (spawn p eventQueueSize overflow) acts = some (final, log))
    (hdrained : final.reexecResult = some (.ok bytes)) (rest : List Bytes) :
    (∃ adopted, adoptParser strict bytes = .ok adopted) ∧
      parsedMessages log ++ ((EslParser.new strict).feed (bytes :: rest)).messages =
        ((EslParser.new strict).feed (p.remainingBytes :: fedChunks log ++ rest)).messages := by
  have hready := hspawned.ready
  have hcontinues := (run_faithful parseEvent hready hrun).residual bytes hdrained
  -- A fresh parser takes the first chunk as it is.
  have hfresh : ∀ {first : Bytes} (chunks : List Bytes), first.length ≤ maxBufferSize →
      ((EslParser.new strict).feed (first :: chunks)).map EslParser.view =
        Reference.drive strict ⟨.waitingForHeaders, first⟩ chunks := by
    intro first chunks hfits
    rw [EslParser.feed_within]
    exact Reference.feedWithin_cons chunks (Reference.checkSize_eq_ok.mpr hfits)
  refine ⟨?_, ?_⟩
  · obtain ⟨adopted, hadopted, -⟩ := adoptParser_of_fits strict hcontinues.fits
    exact ⟨adopted, hadopted⟩
  · have hwhole := congrArg Parsed.messages (hfresh (fedChunks log ++ rest) hready.fits)
    have hresumed := congrArg Parsed.messages (hfresh rest hcontinues.fits)
    rw [Parsed.map_messages] at hwhole hresumed
    rw [List.cons_append, hwhole, hresumed, hcontinues.drive rest]
    rfl

/-- The stop signal comes inside the body of an `api` reply, and the rest of that body arrives with
the start of the next frame. -/
def stoppedInBody : List (LoopAct Unit) :=
  [.parse, .read (.bytes (Utf8.encode
      "Content-Type: api/response\nContent-Length: 4\n\n+O".toList)) 0,
    .parse, .other .signalStop, .observeStop, .parse,
    .read (.bytes (Utf8.encode "K\nCont".toList)) 0, .parse, .route, .parse, .drained]

theorem handover_messages_stoppedInBody :
    ∃ final log, run (step fun _ _ _ => .ok ()) (spawn (.new false) 1 .dropIncoming)
        stoppedInBody = some (final, log) ∧
      final.reexecResult = some (.ok (Utf8.encode "Cont".toList)) ∧
      parsedMessages log ++ ((EslParser.new false).feed [Utf8.encode "Cont".toList]).messages =
        ((EslParser.new false).feed ([] :: fedChunks log)).messages := by
  have hresult : (run (step fun _ _ _ => .ok ()) (spawn (.new false) 1 .dropIncoming)
      stoppedInBody).map (·.1.reexecResult) = some (some (.ok (Utf8.encode "Cont".toList))) := by
    decide +kernel
  obtain ⟨⟨final, log⟩, hrun, hdrained⟩ := Option.map_eq_some_iff.mp hresult
  have hmessages := (handover_messages (fun _ _ _ => .ok ()) .accepted hrun hdrained []).2
  rw [List.append_nil] at hmessages
  exact ⟨final, log, hrun, hdrained, hmessages⟩

end Reader
end EslTokio
