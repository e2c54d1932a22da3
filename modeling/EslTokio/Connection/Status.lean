import EslTokio.Connection.Client

/-!
# Who decides the disconnect reason

Three writers publish to the status watch: `disconnect`, `teardown_for_reexec` and the reader at its
exit.  The last two agree with each other, since a teardown succeeds only after a drain; neither
looks at what `disconnect` has published before.

* `Client.StatusMove` — every step, as far as the watch, the reader and the drain are concerned.
* `Client.Contested` — a client disconnect and a reason of the reader or the teardown in one run.
* **`Client.sticky_iff_not_contested`** — the first reason stays exactly in the other runs.
-/

namespace EslTokio

open Library

namespace Client

variable {μ : Type}

/-- The reasons published, in order. -/
def publishedReasons (log : List (ClientLog μ)) : List DisconnectReason :=
  log.filterMap fun
    | .published reason => some reason
    | _ => none

theorem publishedReasons_append (first second : List (ClientLog μ)) :
    publishedReasons (first ++ second) = publishedReasons first ++ publishedReasons second :=
  List.filterMap_append ..

/-- What a step does to the status watch, the reader phase and the result of the drain. -/
inductive StatusMove (s : Client μ) : ClientAct μ → Client μ → List (ClientLog μ) → Prop where
  | quiet (act : ClientAct μ) (next : Client μ) (log : List (ClientLog μ))
      (hact : ∀ cause, act ≠ .reader (.exit cause)) (hpublish : act ≠ .reader .publish)
      (hdisconnect : act ≠ .disconnect) (hfinish : act ≠ .teardown .finish)
      (hstatus : next.status = s.status) (hreader : next.reader = s.reader)
      (hdrain : next.drainResult = s.drainResult)
      (hteardown : next.teardown = .drained →
        s.teardown = .drained ∨ s.drainResult = some (.ok ()))
      (hreturned : next.teardown = .returned (.ok ()) → s.teardown = .returned (.ok ()))
      (hlog : publishedReasons log = []) : StatusMove s act next log
  | disconnected (next : Client μ) (hstatus : next.status = .disconnected .clientRequested)
      (hreader : next.reader = s.reader) (hdrain : next.drainResult = s.drainResult)
      (hteardown : next.teardown = s.teardown) :
      StatusMove s .disconnect next [.published .clientRequested]
  | finished (hphase : s.teardown = .drained) :
      StatusMove s (.teardown .finish)
        { (s.publish .reexecTeardown) with teardown := .returned (.ok ()) }
        [.published .reexecTeardown]
  | reader (act : ReaderAct) (next : Client μ) (log : List (ClientLog μ))
      (hact : act ≠ .route) (hmove : ReaderMove s act next log) :
      StatusMove s (.reader act) next log

theorem step_statusMove {s next : Client μ} {act : ClientAct μ} {log : List (ClientLog μ)}
    (hstep : s.step act = some (next, log)) : StatusMove s act next log := by
  cases act with
  | call caller act =>
      cases callStep_move hstep <;>
        exact .quiet _ _ _ (by simp) (by simp) (by simp) (by simp) rfl rfl rfl Or.inl id rfl
  | answer message =>
      simp only [step] at hstep
      split at hstep
      · cases hstep
      · obtain ⟨rfl, rfl⟩ := by simpa using hstep
        exact .quiet _ _ _ (by simp) (by simp) (by simp) (by simp) rfl rfl rfl Or.inl id rfl
  | reader act =>
      have hmove : ReaderMove s act next log := readerStep_move hstep
      by_cases hroute : act = .route
      · subst hroute
        cases hmove with
        | routed reply rest _ _ =>
            have hframe := routeReply_frame { s with wire := rest } reply
            refine .quiet _ _ _ (by simp) (by simp) (by simp) (by simp) hframe.status hframe.reader
              hframe.drainResult ?_ ?_ rfl
            · rw [hframe.teardown]
              exact Or.inl
            · rw [hframe.teardown]
              exact id
      · exact .reader act next log hroute hmove
  | teardown act =>
      cases teardownStep_move hstep with
      | finished hphase _ => exact .finished hphase
      | drained hphase hresult =>
          exact .quiet _ _ _ (by simp) (by simp) (by simp) (by simp) rfl rfl rfl
            (fun _ => Or.inr hresult) (fun hreturned => by cases hreturned) rfl
      | failed act reason hact =>
          exact .quiet _ _ _ (by simp) (by simp) (by simp) (by simpa using hact) rfl rfl rfl
            (fun hdrained => by cases hdrained) (fun hreturned => by cases hreturned) rfl
      | _ =>
          exact .quiet _ _ _ (by simp) (by simp) (by simp) (by simp) rfl rfl rfl
            (fun hdrained => by cases hdrained) (fun hreturned => by cases hreturned) rfl
  | disconnect =>
      obtain ⟨rfl, rfl⟩ := by simpa [step] using hstep
      exact .disconnected _ rfl rfl rfl rfl
  | shutdown =>
      simp only [step] at hstep
      split at hstep
      · obtain ⟨rfl, rfl⟩ := by simpa using hstep
        exact .quiet _ _ _ (by simp) (by simp) (by simp) (by simp) rfl rfl rfl Or.inl id rfl
      · cases hstep
  | setLivenessTimeout timeoutMs =>
      obtain ⟨rfl, rfl⟩ := by simpa [step] using hstep
      exact .quiet _ _ _ (by simp) (by simp) (by simp) (by simp) rfl rfl rfl Or.inl id rfl

/-- The status after a step is the old one or the one the step published. -/
theorem step_published {s next : Client μ} {act : ClientAct μ} {log : List (ClientLog μ)}
    (hstep : s.step act = some (next, log)) :
    (publishedReasons log = [] ∧ next.status = s.status) ∨
      ∃ reason, publishedReasons log = [reason] ∧ next.status = .disconnected reason := by
  cases step_statusMove hstep with
  | quiet _ _ _ _ _ _ _ hstatus _ _ _ _ hlog => exact Or.inl ⟨hlog, hstatus⟩
  | disconnected _ hstatus => exact Or.inr ⟨.clientRequested, rfl, hstatus⟩
  | finished => exact Or.inr ⟨.reexecTeardown, rfl, rfl⟩
  | reader act next log hact hmove =>
      cases hmove with
      | routed => exact absurd rfl hact
      | published reason => exact Or.inr ⟨reason, rfl, rfl⟩
      | _ => exact Or.inl ⟨rfl, rfl⟩

/-! ## The reader and the teardown agree -/

theorem reason_of_reading {phase : ReaderPhase} (h : phase.reading = true) :
    phase.reason = none := by
  cases phase <;> first | rfl | cases h

/-- Only a completed drain tells the teardown `Ok`. -/
theorem drained_of_verdict_ok {phase : ReaderPhase} {livenessTimeoutMs : Nat} {cause : ReaderExit}
    (h : drainVerdict phase livenessTimeoutMs cause = some (some (.ok ()))) :
    cause = .drained := by
  have hstopped : drainVerdict.stoppedEarly phase ≠ some (.ok ()) := by
    unfold drainVerdict.stoppedEarly
    split <;> simp
  cases cause with
  | drained => rfl
  | eof | ioError | heartbeatExpired | drainFailed =>
      simp only [drainVerdict] at h
      split at h <;> cases h
  | protocolError | panicked => cases h
  | serverNotice | accessDenied | desync | eventChannelClosed =>
      exact absurd (Option.some.inj h) hstopped

/-- What the teardown publishes is what the reader publishes. -/
structure Agrees (s : Client μ) : Prop where
  drained : s.drainResult = some (.ok ()) → s.reader.reason = some .reexecTeardown
  teardown : s.teardown = .drained → s.drainResult = some (.ok ())
  returned : s.teardown = .returned (.ok ()) → s.drainResult = some (.ok ())

theorem new_agrees : (new : Client μ).Agrees := by
  refine ⟨?_, ?_, ?_⟩
  · intro hresult
    cases hresult
  · intro hphase
    cases hphase
  · intro hphase
    cases hphase

theorem step_agrees {s next : Client μ} {act : ClientAct μ} {log : List (ClientLog μ)}
    (h : s.Agrees) (hstep : s.step act = some (next, log)) : next.Agrees := by
  cases step_statusMove hstep with
  | quiet _ _ _ _ _ _ _ _ hreader hdrain hteardown hreturned _ =>
      refine ⟨?_, ?_, ?_⟩
      · rw [hdrain, hreader]
        exact h.drained
      · intro hdrained
        rw [hdrain]
        rcases hteardown hdrained with hbefore | hresult
        · exact h.teardown hbefore
        · exact hresult
      · intro hfinal
        rw [hdrain]
        exact h.returned (hreturned hfinal)
  | disconnected _ _ hreader hdrain hteardown =>
      refine ⟨?_, ?_, ?_⟩
      · rw [hdrain, hreader]
        exact h.drained
      · rw [hdrain, hteardown]
        exact h.teardown
      · rw [hdrain, hteardown]
        exact h.returned
  | finished hphase =>
      refine ⟨h.drained, ?_, ?_⟩
      · intro hdrained
        cases hdrained
      · intro _
        exact h.teardown hphase
  | reader act next log hact hmove =>
      have hnotYet : s.reader.reading = true → s.drainResult ≠ some (.ok ()) := by
        intro hreading hresult
        have hreason := h.drained hresult
        rw [reason_of_reading hreading] at hreason
        cases hreason
      cases hmove with
      | routed => exact absurd rfl hact
      | stopped hrunning _ =>
          refine ⟨?_, h.teardown, h.returned⟩
          intro hresult
          exact absurd hresult (hnotYet (by rw [hrunning]; rfl))
      | exited cause hreading _ =>
          refine ⟨?_, h.teardown, h.returned⟩
          intro hresult
          exact absurd hresult (hnotYet hreading)
      | exitedWith cause result hreading hverdict =>
          refine ⟨?_, ?_, ?_⟩
          · intro hresult
            obtain rfl : result = .ok () := Option.some.inj hresult
            rw [drained_of_verdict_ok hverdict]
            rfl
          · intro hdrained
            exact absurd (h.teardown hdrained) (hnotYet hreading)
          · intro hfinal
            exact absurd (h.returned hfinal) (hnotYet hreading)
      | silent hreturned =>
          refine ⟨?_, h.teardown, h.returned⟩
          intro hresult
          have hreason := h.drained hresult
          rw [hreturned] at hreason
          cases hreason
      | published reason hreturned =>
          refine ⟨?_, h.teardown, h.returned⟩
          intro hresult
          have hreason := h.drained hresult
          rw [hreturned] at hreason
          exact hreason
      | failed reason hpublished =>
          refine ⟨?_, h.teardown, h.returned⟩
          intro hresult
          have hreason := h.drained hresult
          rw [hpublished] at hreason
          exact hreason

/-! ## Runs with one kind of writer -/

/-- Once the watch holds a reason, the step leaves it there. -/
def KeepsReason (s : Client μ) (act : ClientAct μ) : Prop :=
  ∀ next log, s.step act = some (next, log) →
    ∀ reason, s.status = .disconnected reason → next.status = .disconnected reason

/-- `disconnect` is called, and the reader or the teardown publishes a reason of its own. -/
def Contested (acts : List (ClientAct μ)) : Prop :=
  .disconnect ∈ acts ∧
    (.teardown .finish ∈ acts ∨
      .reader .publish ∈ acts ∧ ∃ cause, .reader (.exit cause) ∈ acts ∧ cause.reason ≠ none)

/-- The watch holds the reason the reader returned. -/
structure ReaderDecides (s : Client μ) : Prop extends Agrees s where
  status : ∀ reason, s.status = .disconnected reason → s.reader.reason = some reason

/-- Without `disconnect`, only the reader decides. -/
theorem step_readerDecides {s next : Client μ} {act : ClientAct μ} {log : List (ClientLog μ)}
    (h : s.ReaderDecides) (hact : act ≠ .disconnect) (hstep : s.step act = some (next, log)) :
    next.ReaderDecides ∧
      ∀ reason, s.status = .disconnected reason → next.status = .disconnected reason := by
  have hagrees := step_agrees h.toAgrees hstep
  cases step_statusMove hstep with
  | quiet _ _ _ _ _ _ _ hstatus hreader =>
      refine ⟨⟨hagrees, ?_⟩, ?_⟩
      · rw [hstatus, hreader]
        exact h.status
      · rw [hstatus]
        exact fun reason hreason => hreason
  | disconnected => exact absurd rfl hact
  | finished hphase =>
      have hreader : s.reader.reason = some .reexecTeardown := h.drained (h.teardown hphase)
      refine ⟨⟨hagrees, ?_⟩, ?_⟩
      · intro reason hreason
        obtain rfl : .reexecTeardown = reason := ConnectionStatus.disconnected.inj hreason
        exact hreader
      · intro reason hreason
        have hsame := h.status reason hreason
        rw [hreader] at hsame
        rw [← Option.some.inj hsame]
        rfl
  | reader act next log hroute hmove =>
      have hnotYet : s.reader.reason = none → ∀ reason, s.status ≠ .disconnected reason := by
        intro hnone reason hreason
        have hsome := h.status reason hreason
        rw [hnone] at hsome
        cases hsome
      cases hmove with
      | routed => exact absurd rfl hroute
      | stopped hrunning _ =>
          have hnone : s.reader.reason = none := by
            rw [hrunning]
            rfl
          exact ⟨⟨hagrees, fun reason hreason => absurd hreason (hnotYet hnone reason)⟩,
            fun reason hreason => hreason⟩
      | exited cause hreading _ =>
          have hnone := reason_of_reading hreading
          exact ⟨⟨hagrees, fun reason hreason => absurd hreason (hnotYet hnone reason)⟩,
            fun reason hreason => hreason⟩
      | exitedWith cause result hreading _ =>
          have hnone := reason_of_reading hreading
          exact ⟨⟨hagrees, fun reason hreason => absurd hreason (hnotYet hnone reason)⟩,
            fun reason hreason => hreason⟩
      | silent hreturned =>
          have hnone : s.reader.reason = none := by
            rw [hreturned]
            rfl
          exact ⟨⟨hagrees, fun reason hreason => absurd hreason (hnotYet hnone reason)⟩,
            fun reason hreason => hreason⟩
      | published published hreturned =>
          refine ⟨⟨hagrees, ?_⟩, ?_⟩
          · intro reason hreason
            obtain rfl : published = reason := ConnectionStatus.disconnected.inj hreason
            rfl
          · intro reason hreason
            have hsame := h.status reason hreason
            rw [hreturned] at hsame
            obtain rfl : published = reason := Option.some.inj hsame
            rfl
      | failed reason hpublished =>
          refine ⟨⟨hagrees, ?_⟩, fun reason hreason => hreason⟩
          intro reason' hreason
          have hsame := h.status reason' hreason
          rw [hpublished] at hsame
          exact hsame

/-- A step by which neither the reader nor the teardown publishes a reason. -/
def Silent (silentReader : Prop) (act : ClientAct μ) : Prop :=
  act ≠ .teardown .finish ∧ (silentReader ∧ (∀ cause, act = .reader (.exit cause) →
    cause.reason = none) ∨ ¬ silentReader ∧ act ≠ .reader .publish)

/-- Only `disconnect` decides: the watch holds its reason, and a reader that may still publish has
none. -/
structure ClientDecides (silentReader : Prop) (s : Client μ) : Prop where
  status : ∀ reason, s.status = .disconnected reason → reason = .clientRequested
  reader : silentReader → s.reader.reason = none

theorem step_clientDecides {silentReader : Prop} {s next : Client μ} {act : ClientAct μ}
    {log : List (ClientLog μ)} (h : s.ClientDecides silentReader) (hact : Silent silentReader act)
    (hstep : s.step act = some (next, log)) :
    next.ClientDecides silentReader ∧
      ∀ reason, s.status = .disconnected reason → next.status = .disconnected reason := by
  obtain ⟨hfinish, hreader⟩ := hact
  cases step_statusMove hstep with
  | quiet _ _ _ _ _ _ _ hstatus hsame =>
      refine ⟨⟨?_, ?_⟩, ?_⟩
      · rw [hstatus]
        exact h.status
      · rw [hsame]
        exact h.reader
      · rw [hstatus]
        exact fun reason hreason => hreason
  | disconnected _ hstatus hsame =>
      refine ⟨⟨?_, ?_⟩, ?_⟩
      · intro reason hreason
        rw [hstatus] at hreason
        exact (ConnectionStatus.disconnected.inj hreason).symm
      · rw [hsame]
        exact h.reader
      · intro reason hreason
        rw [hstatus, h.status reason hreason]
  | finished => exact absurd rfl hfinish
  | reader act next log hroute hmove =>
      cases hmove with
      | routed => exact absurd rfl hroute
      | stopped => exact ⟨⟨h.status, fun _ => rfl⟩, fun reason hreason => hreason⟩
      | exited cause | exitedWith cause =>
          refine ⟨⟨h.status, fun hsilent => ?_⟩, fun reason hreason => hreason⟩
          rcases hreader with ⟨-, hnone⟩ | ⟨hloud, -⟩
          · exact hnone cause rfl
          · exact absurd hsilent hloud
      | silent => exact ⟨⟨h.status, fun _ => rfl⟩, fun reason hreason => hreason⟩
      | published reason hreturned =>
          rcases hreader with ⟨hsilent, -⟩ | ⟨-, hpublish⟩
          · have hnone := h.reader hsilent
            rw [hreturned] at hnone
            cases hnone
          · exact absurd rfl hpublish
      | failed reason hpublished =>
          refine ⟨⟨h.status, fun hsilent => ?_⟩, fun reason hreason => hreason⟩
          have hnone := h.reader hsilent
          rw [hpublished] at hnone
          exact hnone

/-- A run in which only one kind of writer publishes keeps its first reason. -/
theorem sticky_of_not_contested {acts : List (ClientAct μ)} (hacts : ¬ Contested acts) :
    Along step KeepsReason (new : Client μ) acts := by
  by_cases hdisconnect : .disconnect ∈ acts
  · have hquiet : ∀ act ∈ acts, Silent (.reader .publish ∈ acts) act := by
      intro act hact
      have hfinish : .teardown .finish ∉ acts := fun h => hacts ⟨hdisconnect, Or.inl h⟩
      refine ⟨fun h => hfinish (h ▸ hact), ?_⟩
      by_cases hpublish : .reader .publish ∈ acts
      · refine Or.inl ⟨hpublish, ?_⟩
        rintro cause rfl
        by_contra hreason
        exact hacts ⟨hdisconnect, Or.inr ⟨hpublish, cause, hact, hreason⟩⟩
      · exact Or.inr ⟨hpublish, fun h => hpublish (h ▸ hact)⟩
    have hstart : (new : Client μ).ClientDecides (.reader .publish ∈ acts) := by
      refine ⟨?_, fun _ => rfl⟩
      intro reason hreason
      cases hreason
    refine along_of_invariant ?_ ?_ hstart hquiet
    · intro s act next log h hact hstep
      exact (step_clientDecides h hact hstep).1
    · intro s act h hact next log hstep
      exact (step_clientDecides h hact hstep).2
  · have hother : ∀ act ∈ acts, act ≠ .disconnect := by
      rintro act hact rfl
      exact hdisconnect hact
    have hstart : (new : Client μ).ReaderDecides := by
      refine ⟨new_agrees, ?_⟩
      intro reason hreason
      cases hreason
    refine along_of_invariant ?_ ?_ hstart hother
    · intro s act next log h hact hstep
      exact (step_readerDecides h hact hstep).1
    · intro s act h hact next log hstep
      exact (step_readerDecides h hact hstep).2

/-! ## Runs with both -/

/-- In a run that keeps its reasons, everything published after a reason is that reason. -/
theorem published_eq_of_sticky {acts : List (ClientAct μ)} {s final : Client μ}
    {log : List (ClientLog μ)} {reason : DisconnectReason}
    (hsticky : Along step KeepsReason s acts) (hrun : run step s acts = some (final, log))
    (hstatus : s.status = .disconnected reason) :
    ∀ other ∈ publishedReasons log, other = reason := by
  induction acts generalizing s log with
  | nil =>
      obtain ⟨rfl, rfl⟩ : s = final ∧ [] = log := by simpa [run] using hrun
      intro other hother
      cases hother
  | cons act rest ih =>
      obtain ⟨next, outputs, later, hstep, hlater, rfl⟩ := run_cons_eq_some hrun
      have hkept : next.status = .disconnected reason := hsticky.1 next outputs hstep reason hstatus
      have hrest := ih (hsticky.2 next outputs hstep) hlater hkept
      intro other hother
      rw [publishedReasons_append] at hother
      rcases List.mem_append.mp hother with hfirst | hlast
      · rcases step_published hstep with ⟨hnone, -⟩ | ⟨published, hone, hnext⟩
        · rw [hnone] at hfirst
          cases hfirst
        · rw [hone] at hfirst
          rw [List.mem_singleton.mp hfirst]
          rw [hkept] at hnext
          exact (ConnectionStatus.disconnected.inj hnext).symm
      · exact hrest other hlast

/-- All reasons published in a run that keeps them are the same. -/
theorem published_unique_of_sticky {acts : List (ClientAct μ)} {s final : Client μ}
    {log : List (ClientLog μ)} (hsticky : Along step KeepsReason s acts)
    (hrun : run step s acts = some (final, log)) :
    ∀ first ∈ publishedReasons log, ∀ second ∈ publishedReasons log, first = second := by
  induction acts generalizing s log with
  | nil =>
      obtain ⟨rfl, rfl⟩ : s = final ∧ [] = log := by simpa [run] using hrun
      intro first hfirst
      cases hfirst
  | cons act rest ih =>
      obtain ⟨next, outputs, later, hstep, hlater, rfl⟩ := run_cons_eq_some hrun
      have hrest := hsticky.2 next outputs hstep
      rw [publishedReasons_append]
      rcases step_published hstep with ⟨hnone, -⟩ | ⟨published, hone, hnext⟩
      · rw [hnone, List.nil_append]
        exact ih hrest hlater
      · rw [hone]
        have hall : ∀ other ∈ [published] ++ publishedReasons later, other = published := by
          intro other hother
          rcases List.mem_append.mp hother with hfirst | hlast
          · exact List.mem_singleton.mp hfirst
          · exact published_eq_of_sticky hrest hlater hnext other hlast
        intro first hfirst second hsecond
        rw [hall first hfirst, hall second hsecond]

/-- What a step publishes wherever it is taken, a run that takes it publishes. -/
theorem published_of_mem {acts : List (ClientAct μ)} {s final : Client μ}
    {log : List (ClientLog μ)} (hrun : run step s acts = some (final, log)) {act : ClientAct μ}
    {reason : DisconnectReason} (hact : act ∈ acts)
    (hpublishes : ∀ (t next : Client μ) outputs, t.step act = some (next, outputs) →
      reason ∈ publishedReasons outputs) : reason ∈ publishedReasons log := by
  induction acts generalizing s log with
  | nil => cases hact
  | cons first rest ih =>
      obtain ⟨next, outputs, later, hstep, hlater, rfl⟩ := run_cons_eq_some hrun
      rw [publishedReasons_append]
      rcases List.mem_cons.mp hact with rfl | hrest
      · exact List.mem_append_left _ (hpublishes s next outputs hstep)
      · exact List.mem_append_right _ (ih hlater hrest)

/-- A step leaves the reader where it is, unless it is the reader's own. -/
theorem step_reader {s next : Client μ} {act : ClientAct μ} {log : List (ClientLog μ)}
    (hstep : s.step act = some (next, log)) :
    (next.reader = s.reader ∧ act ≠ .reader .publish ∧ ∀ cause, act ≠ .reader (.exit cause)) ∨
      ∃ own, act = .reader own ∧ own ≠ .route ∧ ReaderMove s own next log := by
  cases step_statusMove hstep with
  | quiet _ _ _ hexit hpublish _ _ _ hreader => exact Or.inl ⟨hreader, hpublish, hexit⟩
  | disconnected _ _ hreader => exact Or.inl ⟨hreader, by simp, by simp⟩
  | finished => exact Or.inl ⟨rfl, by simp, by simp⟩
  | reader own next log hroute hmove => exact Or.inr ⟨own, rfl, hroute, hmove⟩

/-- A reader that has returned a reason publishes that reason. -/
theorem published_of_returned {acts : List (ClientAct μ)} {s final : Client μ}
    {log : List (ClientLog μ)} {reason : DisconnectReason}
    (hrun : run step s acts = some (final, log)) (hreturned : s.reader = .returned (some reason))
    (hpublish : .reader .publish ∈ acts) : reason ∈ publishedReasons log := by
  induction acts generalizing s log with
  | nil => cases hpublish
  | cons act rest ih =>
      obtain ⟨next, outputs, later, hstep, hlater, rfl⟩ := run_cons_eq_some hrun
      rw [publishedReasons_append]
      rcases step_reader hstep with ⟨hsame, hother, -⟩ | ⟨own, rfl, hroute, hmove⟩
      · apply List.mem_append_right
        apply ih hlater (hsame.trans hreturned)
        rcases List.mem_cons.mp hpublish with heq | hrest
        · exact absurd heq.symm hother
        · exact hrest
      · -- The only move of the reader from here is the publication.
        apply List.mem_append_left
        cases hmove with
        | routed => exact absurd rfl hroute
        | stopped hrunning => rw [hreturned] at hrunning; cases hrunning
        | exited cause hreading => rw [hreturned] at hreading; cases hreading
        | exitedWith cause result hreading => rw [hreturned] at hreading; cases hreading
        | silent hnone => rw [hreturned] at hnone; cases hnone
        | published published hsome =>
            rw [hreturned] at hsome
            obtain rfl : reason = published := by simpa using hsome
            exact List.mem_singleton.mpr rfl
        | failed other hpublished => rw [hreturned] at hpublished; cases hpublished

/-- A reader that has returned does not return again. -/
theorem exit_not_mem_of_returned {acts : List (ClientAct μ)} {s final : Client μ}
    {log : List (ClientLog μ)} (hrun : run step s acts = some (final, log))
    (hreading : s.reader.reading = false) (cause : ReaderExit) :
    .reader (.exit cause) ∉ acts := by
  induction acts generalizing s log with
  | nil => simp
  | cons act rest ih =>
      obtain ⟨next, outputs, later, hstep, hlater, rfl⟩ := run_cons_eq_some hrun
      intro hexit
      rcases step_reader hstep with ⟨hsame, -, hother⟩ | ⟨own, rfl, hroute, hmove⟩
      · rw [← hsame] at hreading
        rcases List.mem_cons.mp hexit with heq | hrest
        · exact hother cause heq.symm
        · exact ih hlater hreading hrest
      · cases hmove with
        | routed => exact absurd rfl hroute
        | stopped hrunning => rw [hrunning] at hreading; cases hreading
        | exited cause hstill => rw [hstill] at hreading; cases hreading
        | exitedWith cause result hstill => rw [hstill] at hreading; cases hreading
        | silent | published | failed =>
            rcases List.mem_cons.mp hexit with heq | hrest
            · cases heq
            · exact ih hlater rfl hrest

/-- A reader that returns a reason and goes on to publish publishes that reason. -/
theorem published_of_exit {acts : List (ClientAct μ)} {s final : Client μ}
    {log : List (ClientLog μ)} {cause : ReaderExit} {reason : DisconnectReason}
    (hrun : run step s acts = some (final, log)) (hreading : s.reader.reading = true)
    (hexit : .reader (.exit cause) ∈ acts) (hreason : cause.reason = some reason)
    (hpublish : .reader .publish ∈ acts) : reason ∈ publishedReasons log := by
  induction acts generalizing s log with
  | nil => cases hexit
  | cons act rest ih =>
      obtain ⟨next, outputs, later, hstep, hlater, rfl⟩ := run_cons_eq_some hrun
      rw [publishedReasons_append]
      apply List.mem_append_right
      rcases step_reader hstep with ⟨hsame, hnotPublish, hnotExit⟩ | ⟨own, rfl, hroute, hmove⟩
      · rw [← hsame] at hreading
        have hexit' : .reader (.exit cause) ∈ rest := by
          rcases List.mem_cons.mp hexit with heq | hrest
          · exact absurd heq.symm (hnotExit cause)
          · exact hrest
        have hpublish' : .reader .publish ∈ rest := by
          rcases List.mem_cons.mp hpublish with heq | hrest
          · exact absurd heq.symm hnotPublish
          · exact hrest
        exact ih hlater hreading hexit' hpublish'
      · -- The exit is taken once, so the one of this run is the one taken here.
        have hreturns : ∀ taken, own = .exit taken → next.reader = .returned taken.reason →
            reason ∈ publishedReasons later := by
          rintro taken rfl hreturned
          have hpublish' : .reader .publish ∈ rest := by
            rcases List.mem_cons.mp hpublish with heq | hrest
            · cases heq
            · exact hrest
          have hnoExit := exit_not_mem_of_returned hlater (by rw [hreturned]; rfl) cause
          obtain rfl : cause = taken := by
            rcases List.mem_cons.mp hexit with heq | hrest
            · cases heq
              rfl
            · exact absurd hrest hnoExit
          rw [hreason] at hreturned
          exact published_of_returned hlater hreturned hpublish'
        cases hmove with
        | routed => exact absurd rfl hroute
        | stopped hrunning hstop =>
            refine ih hlater rfl ?_ ?_
            · rcases List.mem_cons.mp hexit with heq | hrest
              · cases heq
              · exact hrest
            · rcases List.mem_cons.mp hpublish with heq | hrest
              · cases heq
              · exact hrest
        | exited taken => exact hreturns taken rfl rfl
        | exitedWith taken => exact hreturns taken rfl rfl
        | silent hreturned => rw [hreturned] at hreading; cases hreading
        | published _ hreturned => rw [hreturned] at hreading; cases hreading
        | failed _ hpublished => rw [hpublished] at hreading; cases hreading

theorem reason_ne_clientRequested {cause : ReaderExit} {reason : DisconnectReason}
    (h : cause.reason = some reason) : reason ≠ .clientRequested := by
  rintro rfl
  cases cause <;> cases h

/-- The watch keeps its first reason for the rest of the run exactly if the run does not combine a
`disconnect` with a reason published by the reader or the teardown. -/
theorem sticky_iff_not_contested {acts : List (ClientAct μ)} {final : Client μ}
    {log : List (ClientLog μ)} (hrun : run step new acts = some (final, log)) :
    Along step KeepsReason new acts ↔ ¬ Contested acts := by
  constructor
  · rintro hsticky ⟨hdisconnect, hother⟩
    have hunique := published_unique_of_sticky hsticky hrun
    have hclient : .clientRequested ∈ publishedReasons log := by
      apply published_of_mem hrun hdisconnect
      intro s next outputs hstep
      obtain ⟨-, rfl⟩ := by simpa [step] using hstep
      exact List.mem_singleton.mpr rfl
    rcases hother with hfinish | ⟨hpublish, cause, hexit, hreason⟩
    · have hteardown : .reexecTeardown ∈ publishedReasons log := by
        apply published_of_mem hrun hfinish
        intro s next outputs hstep
        have hmove : TeardownMove s .finish next outputs := teardownStep_move hstep
        cases hmove with
        | failed _ _ hact => exact absurd rfl hact
        | finished => exact List.mem_singleton.mpr rfl
      cases hunique _ hclient _ hteardown
    · obtain ⟨reason, hsome⟩ := Option.ne_none_iff_exists'.mp hreason
      have hreader := published_of_exit hrun rfl hexit hsome hpublish
      exact reason_ne_clientRequested hsome (hunique _ hreader _ hclient)
  · exact sticky_of_not_contested

/-- A teardown that completes: it and the reader publish the same reason. -/
theorem sticky_iff_not_contested_teardown :
    ∃ final log, run step (new : Client Nat) [.teardown .check, .teardown .take,
        .teardown .signal, .reader .observeStop, .reader (.exit .drained), .teardown .result,
        .teardown .finish, .reader .publish] = some (final, log) ∧
      final.status = .disconnected .reexecTeardown ∧
      Along step KeepsReason (new : Client Nat) [.teardown .check, .teardown .take,
        .teardown .signal, .reader .observeStop, .reader (.exit .drained), .teardown .result,
        .teardown .finish, .reader .publish] := by
  obtain ⟨final, log, hrun, hstatus⟩ : ∃ final log, run step (new : Client Nat)
      [.teardown .check, .teardown .take, .teardown .signal, .reader .observeStop,
        .reader (.exit .drained), .teardown .result, .teardown .finish, .reader .publish] =
        some (final, log) ∧ final.status = .disconnected .reexecTeardown := ⟨_, _, rfl, rfl⟩
  refine ⟨final, log, hrun, hstatus, (sticky_iff_not_contested hrun).mpr ?_⟩
  rintro ⟨hdisconnect, -⟩
  simp at hdisconnect

/-- After `disconnect` the watch says `ClientRequested`, until the reader sees the end of the stream
that the disconnect caused. -/
theorem disconnect_reason_overwritten :
    ∃ s t log later, run step (new : Client Nat) [.disconnect, .shutdown] = some (s, log) ∧
      s.status = .disconnected .clientRequested ∧
      run step s [.reader (.exit .eof), .reader .publish] = some (t, later) ∧
      t.status = .disconnected .connectionClosed :=
  ⟨_, _, _, _, rfl, rfl, rfl, rfl⟩

end Client
end EslTokio
