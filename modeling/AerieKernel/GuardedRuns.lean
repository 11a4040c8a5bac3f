import Mathlib.Tactic
import Mathlib.Logic.Relation

/-!
# Runs of a partial step function

A system is a partial step function on states and events; an event that is
not enabled in a state has no successor there.  A guarded run is a finite
sequence of steps each of which meets a condition on the state before it and
on its event.
-/

namespace AerieKernel.Run

variable {σ ε : Type*}

variable (step : σ → ε → Option σ)

def GuardedStep (guard : σ → ε → Prop) (before after : σ) : Prop :=
  ∃ event, guard before event ∧ step before event = some after

/-- `after` is reached from `before` by steps that all meet the guard. -/
def GuardedRun (guard : σ → ε → Prop) : σ → σ → Prop :=
  Relation.ReflTransGen (GuardedStep step guard)

def Reaches : σ → σ → Prop :=
  GuardedRun step fun _ _ => True

theorem GuardedRun.refl (guard : σ → ε → Prop)
    (state : σ) : GuardedRun step guard state state := Relation.ReflTransGen.refl

variable {step : σ → ε → Option σ} {guard : σ → ε → Prop}

theorem GuardedRun.snoc {start before after : σ} {event : ε}
    (hrun : GuardedRun step guard start before) (hguard : guard before event)
    (hstep : step before event = some after) : GuardedRun step guard start after :=
  hrun.tail ⟨event, hguard, hstep⟩

theorem GuardedRun.mono {guard' : σ → ε → Prop} {start state : σ}
    (hguard : ∀ state event, guard state event → guard' state event)
    (hrun : GuardedRun step guard start state) : GuardedRun step guard' start state := by
  apply Relation.ReflTransGen.mono _ _ _ hrun
  rintro before after ⟨event, hmeets, hstep⟩
  exact ⟨event, hguard before event hmeets, hstep⟩

/-- What holds at the start and is kept by every guarded step holds in every
state that a guarded run reaches. -/
theorem GuardedRun.invariant {P : σ → Prop} {start state : σ} (hstart : P start)
    (hkeep : ∀ before event after, P before → guard before event →
      step before event = some after → P after) (hrun : GuardedRun step guard start state) :
    P state := by
  induction hrun with
  | refl => exact hstart
  | tail _ hlast ih =>
    obtain ⟨event, hguard, hstep⟩ := hlast
    exact hkeep _ event _ ih hguard hstep

def exec (step : σ → ε → Option σ) (guard : σ → ε → Prop)
    [∀ state event, Decidable (guard state event)] : σ → List ε → Option σ
  | state, [] => some state
  | state, event :: events =>
    if guard state event then
      (step state event).bind fun next => exec step guard next events
    else none

theorem GuardedRun.of_exec [∀ state event, Decidable (guard state event)] {state final : σ}
    {events : List ε} (hexec : exec step guard state events = some final) :
    GuardedRun step guard state final := by
  induction events generalizing state with
  | nil =>
    simp only [exec, Option.some.injEq] at hexec
    subst hexec
    exact GuardedRun.refl step guard state
  | cons event events ih =>
    simp only [exec] at hexec
    split_ifs at hexec with hguard
    obtain ⟨next, hstep, hrest⟩ := Option.bind_eq_some_iff.mp hexec
    exact Relation.ReflTransGen.head ⟨event, hguard, hstep⟩ (ih hrest)

/-- The state after some events, which is reached if all of them are
enabled. -/
def execD (step : σ → ε → Option σ) (guard : σ → ε → Prop)
    [∀ state event, Decidable (guard state event)] (state : σ) (events : List ε) : σ :=
  (exec step guard state events).getD state

theorem GuardedRun.of_execD [∀ state event, Decidable (guard state event)] {state : σ}
    {events : List ε} (hexec : (exec step guard state events).isSome = true) :
    GuardedRun step guard state (execD step guard state events) := by
  obtain ⟨final, hfinal⟩ := Option.isSome_iff_exists.mp hexec
  rw [execD, hfinal]
  exact GuardedRun.of_exec hfinal

/-! ## Traces -/

/-- Each entry of a trace has a property that depends on what was before
it. -/
def EachEntry {α : Type*} (property : List α → α → Prop) (trace : List α) : Prop :=
  ∀ first entry rest, trace = first ++ entry :: rest → property first entry

theorem eachEntry_nil {α : Type*} (property : List α → α → Prop) : EachEntry property [] := by
  intro first entry rest heq
  simp at heq

theorem EachEntry.snoc {α : Type*} {property : List α → α → Prop}
    {trace : List α} {last : α} (heach : EachEntry property trace)
    (hlast : property trace last) : EachEntry property (trace ++ [last]) := by
  intro first entry rest heq
  rcases List.eq_nil_or_concat rest with rfl | ⟨front, final, rfl⟩
  · obtain ⟨rfl, hentry⟩ := List.append_inj' heq rfl
    cases hentry
    exact hlast
  · have hsplit : trace ++ [last] = (first ++ entry :: front) ++ [final] := by
      simpa using heq
    obtain ⟨htrace, _⟩ := List.append_inj' hsplit rfl
    exact heach first entry front htrace

end AerieKernel.Run
