import AerieKernel.PfRuleLoop

/-!
# The loops over rules end

A loop that goes on behind the current rule comes to the end of the list, since
the anchors of its rules are left behind their rules.  That is shown by recursion
over as many levels as the stack has frames left; at each level the rules of the list, or
the children of a wildcard anchor, get fewer.
-/

namespace AerieKernel.PacketFilter

open Loops RuleLoop

variable {w : Rulesets} {σ : Type} (lp : RuleLoop w σ) (stack : AnchorStack w)
  (state : LoopState w σ) (quick : Bool)

/-- The rest of the loop of `pf_step_out_of_anchor` for some frames, and what
a loop does then. -/
def RuleLoop.leaveFrames : Iteration w σ :=
  lp.heed state.data (stepFrames lp.kind stack quick state.walk)

def RuleLoop.resume : Iteration w σ :=
  if state.walk.r.isSome then .goto state else lp.leaveFrames stack state quick

theorem RuleLoop.leave_eq_resume : lp.leave state = lp.resume state.walk.stack state false := rfl

/-- From the middle of a round the loop stops or gets to the rule `final` with the same stack. -/
inductive RuleLoop.Ends (final : Option (RulePtr w)) (before : Iteration w σ) : Prop
  | stops (result : Except Fault (LoopState w σ))
      (hfollows : Follows lp.body before (.stop result))
  | gets (state : LoopState w σ) (quick : Bool)
      (hfollows : Follows lp.body before (lp.resume stack state quick))
      (hstack : state.walk.stack = stack) (hr : state.walk.r = final)

variable {lp stack state quick} {final : Option (RulePtr w)} {ptr : RulePtr w}

theorem RuleLoop.Ends.of_follows {before before' : Iteration w σ}
    (hends : lp.Ends stack final before) (hfollows : Follows lp.body before' before) :
    lp.Ends stack final before' := by
  cases hends with
  | stops result hstops => exact .stops result (hfollows.trans hstops)
  | gets state quick hgets hstack hr => exact .gets state quick (hfollows.trans hgets) hstack hr

theorem RuleLoop.resume_of_none (hr : state.walk.r = none) :
    lp.resume stack state quick = lp.leaveFrames stack state quick := by
  simp [resume, hr]

theorem RuleLoop.body_of_some (lp : RuleLoop w σ) (hr : state.walk.r = some ptr) :
    lp.body state = lp.act ptr state.walk (lp.visit ptr state.walk.context state.data) := by
  simp only [body, hr]

/-! ## The rules of a list -/

variable (lp) in
def RuleLoop.Forward : Prop :=
  ∀ ptr context data data' ptr',
    lp.visit ptr context data = (data', .pass (some ptr')) →
      ptr'.queue = ptr.queue ∧ ptr.index.val < ptr'.index.val

theorem Rulesets.ptr_eq_some {queue : QueueRef} {i : ℕ} (hptr : w.ptr queue i = some ptr) :
    ptr.queue = queue ∧ ptr.index.val = i := by
  unfold Rulesets.ptr at hptr
  split_ifs at hptr
  cases hptr
  exact ⟨rfl, rfl⟩

theorem next_forward {ptr' : RulePtr w} (hnext : ptr.next = some ptr') :
    ptr'.queue = ptr.queue ∧ ptr.index.val < ptr'.index.val := by
  obtain ⟨hqueue, hindex⟩ := Rulesets.ptr_eq_some hnext
  exact ⟨hqueue, by omega⟩

def LoopState.remaining (state : LoopState w σ) : ℕ :=
  match state.walk.r with
  | none => 0
  | some ptr => (w.rules ptr.queue).length - ptr.index

theorem remaining_lt (hr : state.walk.r = some ptr) {state' : LoopState w σ}
    (hforward : ∀ ptr', state'.walk.r = some ptr' →
      ptr'.queue = ptr.queue ∧ ptr.index.val < ptr'.index.val) :
    state'.remaining < state.remaining := by
  simp only [LoopState.remaining, hr]
  cases hr' : state'.walk.r with
  | none =>
    simp only
    omega
  | some ptr' =>
    obtain ⟨hqueue, hlt⟩ := hforward ptr' hr'
    simp only [hqueue]
    omega

def RuleLoop.Enters (lp : RuleLoop w σ) (stack : AnchorStack w) : Prop :=
  ∀ (ptr : RulePtr w) anchor isAnchor (state : LoopState w σ), state.walk.stack = stack →
    lp.Ends stack ptr.next (lp.leave { state with
      walk := pfStepIntoAnchor lp.kind state.walk ptr anchor isAnchor })

theorem rules_end (hforward : lp.Forward) (henters : lp.Enters stack) (state : LoopState w σ)
    (quick : Bool) (hstack : state.walk.stack = stack) :
    lp.Ends stack none (lp.resume stack state quick) := by
  induction hcount : state.remaining using Nat.strong_induction_on generalizing state quick with
  | h count ih =>
  cases hr : state.walk.r with
  | none => exact .gets state quick (.refl _) hstack hr
  | some ptr =>
    subst hstack
    -- the next round is the one of this rule
    have hround : Follows lp.body (lp.resume state.walk.stack state quick) (lp.body state) := by
      rw [resume, hr, Option.isSome_some]
      exact .step (.refl _)
    have hrest : ∀ (state' : LoopState w σ) quick', state'.walk.stack = state.walk.stack →
        (∀ ptr', state'.walk.r = some ptr' →
          ptr'.queue = ptr.queue ∧ ptr.index.val < ptr'.index.val) →
        Follows lp.body (lp.body state) (lp.resume state.walk.stack state' quick') →
          lp.Ends state.walk.stack none (lp.resume state.walk.stack state quick) :=
      fun state' quick' hstack' hlater hfollows =>
        (ih _ (hcount ▸ remaining_lt hr hlater) state' quick' hstack' rfl).of_follows
          (hround.trans hfollows)
    have hbody := lp.body_of_some hr
    rcases hvisit : lp.visit ptr state.walk.context state.data with ⟨data, verdict⟩
    rw [hvisit] at hbody
    cases verdict with
    | pass target =>
      refine hrest { data, walk := { state.walk with r := target } } false rfl ?_ (.of_eq hbody)
      rintro ptr' rfl
      exact hforward _ _ _ _ _ hvisit
    | hit ends =>
      cases ends with
      | true => exact .stops _ (hround.trans (.of_eq hbody))
      | false =>
        exact hrest { data, walk := { state.walk with found := _, r := ptr.next } } false rfl
          (fun _ => next_forward) (.of_eq hbody)
    | enter anchor isAnchor =>
      cases henters ptr anchor isAnchor { state with data } rfl with
      | stops result hstops => exact .stops result (hround.trans (hbody ▸ hstops))
      | gets after quick' hgets hstack' hr' =>
        refine hrest after quick' hstack' ?_ (hbody ▸ hgets)
        rw [hr']
        exact fun _ => next_forward

/-! ## The frames of the stack -/

section Frames

variable {frame : Frame w}

theorem pop_ends (state : LoopState w σ) (quick : Bool) :
    lp.Ends stack frame.r.next (lp.heed state.data
      (if (state.walk.pop frame stack).r.isSome then
        .ok (state.walk.pop frame stack, state.walk.quickAfter frame quick)
      else stepFrames lp.kind stack (state.walk.quickAfter frame quick)
        (state.walk.pop frame stack))) := by
  let popped : LoopState w σ := { state with walk := state.walk.pop frame stack }
  have hgets : lp.Ends stack frame.r.next
      (lp.resume stack popped (state.walk.quickAfter frame quick)) :=
    .gets popped _ (.refl _) rfl rfl
  unfold resume at hgets
  split_ifs at hgets ⊢ with hr
  · unfold heed
    dsimp only
    split_ifs
    · exact .stops _ (.refl _)
    · exact hgets
  · exact hgets

theorem children_end (hrules : ∀ children (state : LoopState w σ) quick,
      state.walk.stack = (frame, children) :: stack → lp.Ends ((frame, children) :: stack) none
        (lp.resume ((frame, children) :: stack) state quick))
    (children : List AnchorId) (state : LoopState w σ) (quick : Bool) :
    lp.Ends stack frame.r.next (lp.leaveFrames ((frame, children) :: stack) state quick) := by
  induction children generalizing state quick with
  | nil => exact pop_ends state quick
  | cons child later ih =>
    simp only [leaveFrames, stepFrames, stepChildren]
    cases state.walk.noteChild frame.anchor child with
    | error fault => exact .stops _ (.refl _)
    | ok walk =>
      cases later with
      | nil => exact pop_ends { state with walk } quick
      | cons next rest =>
        let onward : LoopState w σ :=
          { state with walk := walk.toChild lp.kind frame stack next rest }
        dsimp only
        split_ifs with hr
        · unfold heed
          dsimp only
          split_ifs
          · exact .stops _ (.refl _)
          · have hfirst : lp.resume ((frame, next :: rest) :: stack) onward false = .goto onward :=
              if_pos hr
            cases hrules (next :: rest) onward false rfl with
            | stops result hstops => exact .stops result (hfirst ▸ hstops)
            | gets after quick' hgets hstack' hr' =>
              rw [resume_of_none hr', hfirst] at hgets
              exact (ih after quick').of_follows hgets
        · exact ih onward quick

theorem pfStepIntoAnchor_stack {n : RulesetKind} {walk : AnchorWalk w} {anchor : AnchorId}
    (isAnchor : ptr.rule.anchor = some anchor) (hroom : walk.stack.length < pfAnchorStackSize) :
    (pfStepIntoAnchor n walk ptr anchor isAnchor).stack = (⟨walk.rs, ptr, anchor, isAnchor⟩,
        if ptr.rule.anchorWildcard then w.children anchor else []) ::
          walk.stack := by
  have hfits : ¬ pfAnchorStackSize ≤ walk.stack.length := by omega
  by_cases hwild : ptr.rule.anchorWildcard = true
  · simp only [pfStepIntoAnchor, if_neg hfits, if_pos hwild]
    cases w.children anchor <;> rfl
  · simp only [pfStepIntoAnchor, if_neg hfits, if_neg hwild]

theorem anchors_enter (hforward : lp.Forward) (room : ℕ) (stack : AnchorStack w)
    (hroom : stack.length + room = pfAnchorStackSize) : lp.Enters stack := by
  induction room generalizing stack with
  | zero =>
    rintro ptr anchor isAnchor state rfl
    have hfull : pfAnchorStackSize ≤ state.walk.stack.length := by omega
    unfold pfStepIntoAnchor
    simp only [if_pos hfull]
    exact .gets _ false (.refl _) rfl rfl
  | succ room ih =>
    rintro ptr anchor isAnchor state rfl
    let entered : LoopState w σ := { state with
      walk := pfStepIntoAnchor lp.kind state.walk ptr anchor isAnchor }
    have hrules : ∀ frame children (state' : LoopState w σ) quick,
        state'.walk.stack = (frame, children) :: state.walk.stack →
        lp.Ends ((frame, children) :: state.walk.stack) none
          (lp.resume ((frame, children) :: state.walk.stack) state' quick) :=
      fun frame children => rules_end hforward (ih _ (by rw [List.length_cons]; omega))
    have hstack := pfStepIntoAnchor_stack (n := lp.kind) isAnchor
      (show state.walk.stack.length < pfAnchorStackSize by omega)
    change lp.Ends _ _ (lp.resume entered.walk.stack entered false)
    rw [show entered.walk.stack = _ from hstack]
    cases hrules _ _ entered false hstack with
    | stops result hstops => exact .stops result hstops
    | gets after quick' hgets hstack' hr' =>
      rw [resume_of_none hr'] at hgets
      exact (children_end (hrules _) _ after quick').of_follows hgets

end Frames

theorem RuleLoop.exists_halts (hforward : lp.Forward) (hstack : state.walk.stack = []) :
    ∃ result, Halts lp.body state result := by
  have hend : ∀ {state : LoopState w σ}, state.walk.r = none → Halts lp.body state (.ok state) :=
    fun hr => .of_eq (by simp only [body, hr])
  cases hr : state.walk.r with
  | none => exact ⟨_, hend hr⟩
  | some ptr =>
    have hrules := rules_end hforward (anchors_enter hforward pfAnchorStackSize [] rfl) state false
      hstack
    rw [resume, hr, Option.isSome_some, if_pos rfl] at hrules
    cases hrules with
    | stops result hstops => exact ⟨result, .of_follows hstops⟩
    | gets after quick hgets hstack' hr' =>
      rw [resume_of_none hr', leaveFrames, stepFrames, heed] at hgets
      refine ⟨.ok after, .of_follows (hgets.trans ?_)⟩
      split_ifs
      · exact .refl _
      · exact .step (hend hr')

end AerieKernel.PacketFilter
