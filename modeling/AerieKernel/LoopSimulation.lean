import Mathlib.Tactic

/-!
# Loops and their simulation

A loop is a body that takes the state of an iteration either to the state of
the next one or to the result.  A loop halts if finitely many iterations get
to a result.  One loop covers another if what the other does in one iteration
it does in one or more iterations of its own; it then halts with the same
result.
-/

namespace AerieKernel.Loops

variable {σ ρ : Type*}

inductive Next (σ ρ : Type*)
  | goto (state : σ)
  | stop (result : ρ)

/-- The result of a loop, if it is reached with at most `fuel` iterations. -/
def loop (body : σ → Next σ ρ) : ℕ → σ → Option ρ
  | 0, _ => none
  | fuel + 1, state =>
    match body state with
    | .goto next => loop body fuel next
    | .stop result => some result

/-- Any number of iterations after the outcome `before` end with `after`. -/
inductive Follows (body : σ → Next σ ρ) : Next σ ρ → Next σ ρ → Prop
  | refl (outcome : Next σ ρ) : Follows body outcome outcome
  | step {state : σ} {after : Next σ ρ}
      (hrest : Follows body (body state) after) :
      Follows body (.goto state) after

variable {body : σ → Next σ ρ}

theorem Follows.of_eq {before after : Next σ ρ}
    (heq : before = after) : Follows body before after := heq ▸ .refl before

theorem Follows.trans {first second third : Next σ ρ} (hfirst : Follows body first second)
    (hsecond : Follows body second third) : Follows body first third := by
  induction hfirst with
  | refl _ => exact hsecond
  | step _ ih => exact .step (ih hsecond)

/-- What holds before some iterations and is kept by each of them holds after them. -/
theorem Follows.invariant {P : Next σ ρ → Prop} {before after : Next σ ρ}
    (hfollows : Follows body before after) (hstart : P before)
    (hstep : ∀ state, P (.goto state) → P (body state)) : P after := by
  induction hfollows with
  | refl _ => exact hstart
  | step _ ih => exact ih (hstep _ hstart)

def Halts (body : σ → Next σ ρ) (state : σ) (result : ρ) : Prop :=
  Follows body (body state) (.stop result)

variable {state : σ} {result : ρ}

theorem Halts.of_follows (hfollows : Follows body (.goto state) (.stop result)) :
    Halts body state result := by
  cases hfollows with
  | step hrest => exact hrest

theorem Halts.loop_eq (hhalts : Halts body state result) :
    ∃ bound, ∀ fuel, bound ≤ fuel → loop body fuel state = some result := by
  rw [Halts] at hhalts
  generalize hbefore : body state = before at hhalts
  generalize hafter : Next.stop result = after at hhalts
  induction hhalts generalizing state with
  | refl _ =>
    refine ⟨1, fun fuel hfuel => ?_⟩
    cases fuel with
    | zero => omega
    | succ fuel => simp only [loop, hbefore, ← hafter]
  | step _ ih =>
    obtain ⟨bound, hbound⟩ := ih rfl hafter
    refine ⟨bound + 1, fun fuel hfuel => ?_⟩
    cases fuel with
    | zero => omega
    | succ fuel =>
      simp only [loop, hbefore]
      exact hbound fuel (by omega)

/-- What holds of a state and is kept by every iteration holds of the state
with which a loop stops. -/
theorem Halts.invariant {P : σ → Prop} {Q : ρ → Prop} (hhalts : Halts body state result)
    (hstart : P state) (hgoto : ∀ before after, P before → body before = .goto after → P after)
    (hstop : ∀ before result, P before → body before = .stop result → Q result) : Q result := by
  rw [Halts] at hhalts
  generalize hbefore : body state = before at hhalts
  generalize hafter : Next.stop result = after at hhalts
  induction hhalts generalizing state with
  | refl _ => exact hstop state result hstart (hbefore.trans hafter.symm)
  | @step next _ _ ih => exact ih (hgoto state next hstart hbefore) rfl hafter

/-- From a start, `slow` passes through all outcomes of the iterations of `fast`. -/
def Covers (slow fast : σ → Next σ ρ) (start : σ) : Prop :=
  ∀ state, Follows fast (.goto start) (.goto state) → Follows slow (slow state) (fast state)

theorem Covers.halts {slow fast : σ → Next σ ρ} (hcovers : Covers slow fast state)
    (hhalts : Halts fast state result) : Halts slow state result := by
  have hfollows : ∀ {before after : Next σ ρ}, Follows fast before after →
      Follows fast (.goto state) before → Follows slow before after := by
    intro before after hfast
    induction hfast with
    | refl outcome => exact fun _ => .refl outcome
    | @step next _ _ ih =>
      exact fun hreached =>
        .step ((hcovers next hreached).trans (ih (hreached.trans (.step (.refl _)))))
  exact .of_follows (hfollows (.step hhalts) (.refl _))

end AerieKernel.Loops
