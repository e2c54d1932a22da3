import Mathlib.Tactic.Common

/-!
# Runs of a guarded transition system

A system is a partial step function: an action is refused (`none`) or moves the state and emits a
list of outputs.  A run is a list of actions, each taken in the state the previous one left, and
its trace is the concatenation of the outputs.

* `run` — the state and trace a list of actions leads to.
* `Along` — every action of the run meets a condition in the state it is taken in.
* **`run_induction`** — what one step preserves holds of every state and trace a run reaches.
-/

namespace EslTokio
namespace Library

variable {σ α ω : Type*}

/-- Take the actions in order, collecting the outputs; `none` once an action is refused. -/
def run (step : σ → α → Option (σ × List ω)) : σ → List α → Option (σ × List ω)
  | state, [] => some (state, [])
  | state, action :: rest =>
      (step state action).bind fun next =>
        (run step next.1 rest).map fun final => (final.1, next.2 ++ final.2)

/-- Every action of the run is taken in a state where `guard` holds of it. -/
def Along (step : σ → α → Option (σ × List ω)) (guard : σ → α → Prop) : σ → List α → Prop
  | _, [] => True
  | state, action :: rest =>
      guard state action ∧
        ∀ next outputs, step state action = some (next, outputs) → Along step guard next rest

variable {step : σ → α → Option (σ × List ω)}

/-- A run that is not empty: its first step, then the rest. -/
theorem run_cons_eq_some {state final : σ} {action : α} {rest : List α} {trace : List ω}
    (h : run step state (action :: rest) = some (final, trace)) :
    ∃ next outputs later, step state action = some (next, outputs) ∧
      run step next rest = some (final, later) ∧ trace = outputs ++ later := by
  obtain ⟨⟨next, outputs⟩, hstep, hrest⟩ := Option.bind_eq_some_iff.mp h
  obtain ⟨⟨reached, later⟩, hlater, heq⟩ := Option.map_eq_some_iff.mp hrest
  obtain ⟨rfl, rfl⟩ := Prod.mk.inj heq
  exact ⟨next, outputs, later, hstep, hlater, rfl⟩

theorem run_cons {state next final : σ} {action : α} {rest : List α} {outputs later : List ω}
    (hstep : step state action = some (next, outputs))
    (hrest : run step next rest = some (final, later)) :
    run step state (action :: rest) = some (final, outputs ++ later) := by
  simp only [run, hstep, Option.bind_some, hrest, Option.map_some]

theorem Along.cons {guard : σ → α → Prop} {state next : σ} {action : α} {rest : List α}
    {outputs : List ω} (hguard : guard state action)
    (hstep : step state action = some (next, outputs)) (hrest : Along step guard next rest) :
    Along step guard state (action :: rest) := by
  refine ⟨hguard, fun reached emitted hreached => ?_⟩
  rw [hstep] at hreached
  obtain ⟨rfl, -⟩ := Prod.mk.inj (Option.some.inj hreached)
  exact hrest

theorem Along.and {first second : σ → α → Prop} {state : σ} {actions : List α}
    (hfirst : Along step first state actions) (hsecond : Along step second state actions) :
    Along step (fun s a => first s a ∧ second s a) state actions := by
  induction actions generalizing state with
  | nil => trivial
  | cons action rest ih =>
      refine ⟨⟨hfirst.1, hsecond.1⟩, fun next outputs hnext => ?_⟩
      exact ih (hfirst.2 next outputs hnext) (hsecond.2 next outputs hnext)

/-- The invariant rule: what every guarded step preserves, together with the trace so far, holds
wherever a guarded run ends. -/
theorem run_induction {guard : σ → α → Prop} {motive : σ → List ω → Prop}
    (hstep : ∀ state trace action next outputs, motive state trace → guard state action →
      step state action = some (next, outputs) → motive next (trace ++ outputs))
    {start final : σ} {trace : List ω} {actions : List α} (before : List ω)
    (hstart : motive start before) (hguard : Along step guard start actions)
    (hrun : run step start actions = some (final, trace)) : motive final (before ++ trace) := by
  induction actions generalizing start before trace with
  | nil =>
      obtain ⟨rfl, rfl⟩ : start = final ∧ [] = trace := by simpa [run] using hrun
      simpa using hstart
  | cons action rest ih =>
      obtain ⟨next, outputs, later, hnext, hlater, rfl⟩ := run_cons_eq_some hrun
      have hmotive := hstep start before action next outputs hstart hguard.1 hnext
      simpa using ih (before ++ outputs) hmotive (hguard.2 next outputs hnext) hlater

/-- A condition on the actions alone can be checked without following the run. -/
theorem along_of_forall_mem {condition : α → Prop} {start : σ} {actions : List α}
    (h : ∀ action ∈ actions, condition action) :
    Along step (fun _ action => condition action) start actions := by
  induction actions generalizing start with
  | nil => trivial
  | cons action rest ih =>
      refine ⟨h action (by simp), fun next outputs _ => ih fun later hlater => ?_⟩
      exact h later (by simp [hlater])

/-- The invariant rule of the unguarded system. -/
theorem run_history {motive : σ → List ω → Prop}
    (hstep : ∀ state trace action next outputs, motive state trace →
      step state action = some (next, outputs) → motive next (trace ++ outputs))
    {start final : σ} {trace : List ω} {actions : List α} (hstart : motive start [])
    (hrun : run step start actions = some (final, trace)) : motive final trace := by
  have hguard : Along step (fun _ _ => True) start actions :=
    along_of_forall_mem fun _ _ => trivial
  refine run_induction ?_ [] hstart hguard hrun
  intro state before action next outputs hbefore _ hnext
  exact hstep state before action next outputs hbefore hnext

/-- A guard that an invariant implies holds all along. -/
theorem along_of_invariant {guard : σ → α → Prop} {motive : σ → Prop} {condition : α → Prop}
    (hstep : ∀ state action next outputs, motive state → condition action →
      step state action = some (next, outputs) → motive next)
    (hguard : ∀ state action, motive state → condition action → guard state action)
    {start : σ} {actions : List α} (hstart : motive start)
    (hactions : ∀ action ∈ actions, condition action) : Along step guard start actions := by
  induction actions generalizing start with
  | nil => trivial
  | cons action rest ih =>
      have haction := hactions action (by simp)
      refine ⟨hguard start action hstart haction, fun next outputs hnext => ?_⟩
      apply ih (hstep start action next outputs hstart haction hnext)
      intro later hlater
      exact hactions later (by simp [hlater])

/-- An invariant of the unguarded system, as a condition on states only. -/
theorem run_invariant {guard : σ → α → Prop} {invariant : σ → Prop}
    (hstep : ∀ state action next outputs, invariant state → guard state action →
      step state action = some (next, outputs) → invariant next)
    {start final : σ} {trace : List ω} {actions : List α}
    (hstart : invariant start) (hguard : Along step guard start actions)
    (hrun : run step start actions = some (final, trace)) : invariant final :=
  run_induction (fun state _ action next outputs h hg hs => hstep state action next outputs h hg hs)
    [] hstart hguard hrun

end Library
end EslTokio
