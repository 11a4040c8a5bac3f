import AerieKernel.PfRuleLoopTermination

/-!
# The loops over rules with and without skip steps

A loop that goes on with the next rule passes through every state that the
loop with skip steps reaches, if all rules that a skip step leaves out fail a
test without any effect.  Since the loops end, they then end with the same
result.  For the loop of `pf_test_rule` this holds for all rules.  The loop of
`pf_match_translation` exchanges the roles of `src` and `dst` for some rules,
which the skip steps do not take into account; there it holds if no rule that
a skip step leaves out matches the packet because of that.
-/

namespace AerieKernel.PacketFilter

open Loops PfRuleAddr RuleLoop PfRule

/-! ## Skipped rules -/

section Skipped

variable {w : Rulesets} {σ : Type}

theorem Rulesets.ptr_of_lt {queue : QueueRef} {i : ℕ}
    (h : i < (w.rules queue).length) : w.ptr queue i = some ⟨queue, i, h⟩ := dif_pos h

theorem RulePtr.eq_of_index {ptr ptr' : RulePtr w} (hqueue : ptr.queue = ptr'.queue)
    (hindex : ptr.index.val = ptr'.index.val) : ptr = ptr' := by
  obtain ⟨queue, index⟩ := ptr
  obtain ⟨queue', index'⟩ := ptr'
  cases hqueue
  exact congrArg _ (Fin.ext hindex)

theorem RulePtr.getElem?_rule (ptr : RulePtr w) {queue : QueueRef} (hqueue : ptr.queue = queue) :
    (w.rules queue)[ptr.index.val]? = some ptr.rule := by
  subst hqueue
  rw [RulePtr.rule, List.get_eq_getElem, List.getElem?_eq_getElem]

def RuleLoop.PassesOver (lp : RuleLoop w σ) (ptr : RulePtr w) (last : ℕ) (data : σ) : Prop :=
  ∀ ptr' : RulePtr w, ptr'.queue = ptr.queue →
    ptr.index.val ≤ ptr'.index.val → ptr'.index.val < last →
      ∀ context, lp.visit ptr' context data = (data, .pass ptr'.next)

/-- `fast` does what `slow` does at a rule but for leaving out rules that `slow`
passes over. -/
structure RuleLoop.Skips (fast slow : RuleLoop w σ) (At : RulePtr w → σ → Prop) : Prop where
  kind_eq : fast.kind = slow.kind
  heedsQuick_eq : fast.heedsQuick = slow.heedsQuick
  visit : ∀ ptr data, At ptr data → ∀ context,
    fast.visit ptr context data = slow.visit ptr context data ∨
      ∃ last, fast.visit ptr context data =
          (data, .pass (w.ptr ptr.queue last)) ∧
        ptr.index.val < last ∧ last ≤ (w.rules ptr.queue).length ∧
        slow.PassesOver ptr last data

variable {fast slow : RuleLoop w σ}

variable {state : LoopState w σ} {ptr : RulePtr w}

theorem RuleLoop.PassesOver.follows {lp : RuleLoop w σ} {last : ℕ}
    (hpass : lp.PassesOver ptr last state.data)
    (hlast : last ≤ (w.rules ptr.queue).length) {i : ℕ} (hi : i < last) (hfirst : ptr.index.val ≤ i)
    (hr : state.walk.r = w.ptr ptr.queue i) :
    Follows lp.body (lp.body state)
      (lp.leave { state with
        walk := { state.walk with r := w.ptr ptr.queue last } }) := by
  -- the rules between the current one and the last get fewer
  induction hcount : last - i generalizing i state with
  | zero => omega
  | succ count ih =>
    have hlt : i < (w.rules ptr.queue).length := by omega
    rw [Rulesets.ptr_of_lt hlt] at hr
    have hbody : lp.body state = lp.leave { state with
          walk := { state.walk with r := w.ptr ptr.queue (i + 1) } } := by
      rw [lp.body_of_some hr, hpass ⟨ptr.queue, i, hlt⟩ rfl hfirst hi]
      rfl
    rw [hbody]
    by_cases hend : i + 1 = last
    · rw [hend]
      exact .refl _
    · have hlt' : i + 1 < (w.rules ptr.queue).length := by omega
      simp only [leave, Rulesets.ptr_of_lt hlt', Option.isSome_some, if_true]
      exact .step (ih hpass (by omega) (by omega) (Rulesets.ptr_of_lt hlt').symm (by omega))

section

variable {At : RulePtr w → σ → Prop} (hskips : fast.Skips slow At)
include hskips

theorem RuleLoop.Skips.leave_eq (state : LoopState w σ) : fast.leave state = slow.leave state := by
  have hheed : fast.heed state.data = slow.heed state.data := by
    funext result
    cases result with
    | error fault => rfl
    | ok result => simp only [heed, hskips.heedsQuick_eq]
  simp only [leave, hskips.kind_eq, hheed]

theorem RuleLoop.Skips.act_eq (ptr : RulePtr w) (walk : AnchorWalk w)
    (verdict : σ × Verdict ptr) : fast.act ptr walk verdict = slow.act ptr walk verdict := by
  cases verdict <;>
    simp only [act, hskips.leave_eq, hskips.kind_eq]

theorem RuleLoop.Skips.covers {start : LoopState w σ}
    (hat : ∀ state ptr, Follows fast.body (.goto start) (.goto state) →
      state.walk.r = some ptr → At ptr state.data) : Covers slow.body fast.body start := by
  intro state hreached
  cases hr : state.walk.r with
  | none => exact .of_eq (by simp only [body, hr])
  | some ptr =>
    rcases hskips.visit ptr state.data (hat state ptr hreached hr) state.walk.context with
      hsame | ⟨last, hvisit, hbehind, hlast, hpass⟩
    · apply Follows.of_eq
      rw [fast.body_of_some hr, slow.body_of_some hr, hsame, hskips.act_eq]
    · rw [fast.body_of_some hr, hvisit, hskips.act_eq]
      exact hpass.follows hlast hbehind le_rfl (hr.trans (Rulesets.ptr_of_lt ptr.index.isLt).symm)

theorem RuleLoop.Skips.halts (hforward : fast.Forward) (start : LoopState w σ)
    (hstack : start.walk.stack = [])
    (hat : ∀ state ptr, Follows fast.body (.goto start) (.goto state) →
      state.walk.r = some ptr → At ptr state.data) :
    ∃ result, Halts fast.body start result ∧ Halts slow.body start result := by
  obtain ⟨result, hhalts⟩ := exists_halts hforward hstack
  exact ⟨result, hhalts, (hskips.covers hat).halts hhalts⟩

end

end Skipped

/-! ## The loop of `pf_test_rule` -/

section Filter

variable {w : Rulesets}

theorem calcSkipSteps_good (ptr : RulePtr w.calcSkipSteps) (step : Skip) :
    GoodSkip (w.rules ptr.queue) step ptr.index (w.calcSkipSteps.skip ptr.queue ptr.index step) :=
  pfCalcSkipSteps_good (w.rules ptr.queue) (w.skip ptr.queue) step ptr.index.isLt

variable {step : Skip}

variable {ptr : RulePtr w}

theorem advance_forward {ptr ptr' : RulePtr w.calcSkipSteps}
    {mode : Mode} (hadvance : ptr.advance step mode = some ptr') :
    ptr'.queue = ptr.queue ∧ ptr.index.val < ptr'.index.val := by
  cases mode with
  | skip =>
    obtain ⟨hqueue, hindex⟩ := Rulesets.ptr_eq_some hadvance
    exact ⟨hqueue, hindex ▸ (calcSkipSteps_good ptr step).1⟩
  | next => exact next_forward hadvance

variable (env : Lookups) (random : Random w.calcSkipSteps) (pd : PfPdesc)

theorem filterLoop_forward (mode : Mode) : (filterLoop mode env random pd).Forward := by
  intro ptr context data data' ptr' hvisit
  simp only [filterLoop, filterVisit] at hvisit
  split at hvisit
  · simp only [Prod.mk.injEq, Verdict.pass.injEq] at hvisit
    exact advance_forward hvisit.2
  · split at hvisit
    · simp only [Prod.mk.injEq, Verdict.pass.injEq] at hvisit
      exact next_forward hvisit.2
    · simp only [filterSelect] at hvisit
      split at hvisit <;> simp at hvisit

theorem filterLoop_skips :
    (filterLoop .skip env random pd).Skips (filterLoop .next env random pd)
      fun _ _ => True := by
  refine ⟨rfl, rfl, fun ptr data _ context => ?_⟩
  cases hmismatch : ptr.rule.mismatch env pd with
  | none =>
    left
    simp only [filterLoop, filterVisit, hmismatch]
  | some step =>
    right
    obtain ⟨hbehind, hlast, _⟩ := calcSkipSteps_good ptr step
    refine ⟨_, ?_, hbehind, hlast, ?_⟩
    · simp only [filterLoop, filterVisit, hmismatch]
      rfl
    · intro ptr' hqueue hfirst hlt context'
      have hfails := pfCalcSkipSteps_sound (w.current ptr.queue)
        (w.skip ptr.queue) (ptr.getElem?_rule rfl) (ptr'.getElem?_rule hqueue) hmismatch hfirst hlt
      obtain ⟨step', hstep'⟩ := Option.isSome_iff_exists.mp hfails
      simp only [filterLoop, filterVisit, hstep']
      rfl

end Filter

/-! ## No store through a null pointer -/

section Found

variable {w : Rulesets} {σ : Type} {walk : AnchorWalk w}

theorem noteChild_ok (hfound : walk.found.isSome = true) (anchor child : AnchorId) :
    ∃ after, walk.noteChild anchor child = .ok after ∧ after.found.isSome = true := by
  obtain ⟨found, hsome⟩ := Option.isSome_iff_exists.mp hfound
  simp only [AnchorWalk.noteChild, hsome]
  split_ifs
  · exact ⟨_, rfl, rfl⟩
  · exact ⟨walk, rfl, hfound⟩

theorem stepChildren_ok (n : RulesetKind) (frame : Frame w) (stack : AnchorStack w)
    (children : List AnchorId) (hfound : walk.found.isSome = true) :
    ∃ after more, stepChildren n frame stack children walk =
      .ok (after, more) ∧ after.found.isSome = true := by
  induction children generalizing walk with
  | nil => exact ⟨walk, false, rfl, hfound⟩
  | cons child later ih =>
    obtain ⟨after, hnote, hafter⟩ := noteChild_ok hfound frame.anchor child
    simp only [stepChildren, hnote]
    cases later with
    | nil => exact ⟨after, false, rfl, hafter⟩
    | cons next rest =>
      simp only
      split_ifs
      · exact ⟨_, true, rfl, hafter⟩
      · exact ih hafter

theorem stepFrames_ok {n : RulesetKind} (stack : AnchorStack w) (quick : Bool)
    (hfound : walk.found.isSome = true) :
    ∃ after quick', stepFrames n stack quick walk = .ok (after, quick') ∧
      after.found.isSome = true := by
  induction stack generalizing quick walk with
  | nil => exact ⟨walk, quick, rfl, hfound⟩
  | cons frames stack ih =>
    obtain ⟨frame, children⟩ := frames
    obtain ⟨after, more, hchildren, hafter⟩ := stepChildren_ok n frame stack children hfound
    simp only [stepFrames, hchildren]
    cases more with
    | true => exact ⟨after, quick, rfl, hafter⟩
    | false =>
      simp only
      split_ifs
      · exact ⟨_, _, rfl, hafter⟩
      · exact ih _ hafter

variable {ptr : RulePtr w}

theorem pfStepIntoAnchor_found {n : RulesetKind} {anchor : AnchorId}
    (isAnchor : ptr.rule.anchor = some anchor) (hfound : walk.found.isSome = true) :
    (pfStepIntoAnchor n walk ptr anchor isAnchor).found.isSome = true := by
  simp only [pfStepIntoAnchor]
  split_ifs
  all_goals first
    | simpa using hfound
    | cases w.children anchor <;> simpa [AnchorWalk.toChild] using hfound

def Iteration.Safe : Iteration w σ → Prop
  | .goto state => state.walk.found.isSome = true
  | .stop (.ok state) => state.walk.found.isSome = true
  | .stop (.error _) => False

variable {state : LoopState w σ}

theorem RuleLoop.leave_safe (lp : RuleLoop w σ) (hfound : state.walk.found.isSome = true) :
    Iteration.Safe (lp.leave state) := by
  rw [leave]
  split_ifs
  · exact hfound
  · obtain ⟨after, quick, hout, hafter⟩ :=
      stepFrames_ok (n := lp.kind) state.walk.stack false hfound
    rw [pfStepOutOfAnchor, hout, heed]
    split_ifs <;> exact hafter

theorem RuleLoop.body_safe (lp : RuleLoop w σ) (hfound : state.walk.found.isSome = true) :
    Iteration.Safe (lp.body state) := by
  cases hr : state.walk.r with
  | none =>
    simp only [body, hr]
    exact hfound
  | some ptr =>
    rw [lp.body_of_some hr]
    rcases lp.visit ptr state.walk.context state.data with ⟨data, verdict⟩
    cases verdict with
    | pass target => exact lp.leave_safe hfound
    | hit ends =>
      cases ends with
      | true => simpa [act, Iteration.Safe] using hfound
      | false => exact lp.leave_safe (by simpa using hfound)
    | enter anchor isAnchor =>
      exact lp.leave_safe (pfStepIntoAnchor_found isAnchor hfound)

theorem RuleLoop.halts_ok {lp : RuleLoop w σ} {result : Except Fault (LoopState w σ)}
    (hhalts : Halts lp.body state result) (hfound : state.walk.found.isSome = true) :
    ∃ final, result = .ok final := by
  apply hhalts.invariant (P := fun state => state.walk.found.isSome = true)
    (Q := fun result => ∃ final, result = .ok final) hfound
  · intro before after hbefore hbody
    have hsafe := lp.body_safe hbefore
    rw [hbody] at hsafe
    exact hsafe
  · intro before result hbefore hbody
    have hsafe := lp.body_safe hbefore
    rw [hbody] at hsafe
    cases result with
    | error fault => exact hsafe.elim
    | ok final => exact ⟨final, rfl⟩

end Found

/-- When `pf_calc_skip_steps` has run for all lists of rules, the loop of
`pf_test_rule` ends, and with the same rules selected in the same order and the
same values of all its variables as the loop that always goes on with the next
rule. -/
theorem filter_loop_skips_nothing (w : Rulesets) (env : Lookups)
    (random : Random w.calcSkipSteps) (pd : PfPdesc) (natpass : Bool)
    (lookup : SocketLookup) (anchorMatch : AnchorId → Bool) :
    ∃ final bound, ∀ fuel, bound ≤ fuel →
      (filterLoop .skip env random pd).run fuel
          (filterStart w.calcSkipSteps natpass lookup anchorMatch) = some (.ok final) ∧
      (filterLoop .next env random pd).run fuel
          (filterStart w.calcSkipSteps natpass lookup anchorMatch) = some (.ok final) := by
  obtain ⟨result, hfast, hslow⟩ :=
    (filterLoop_skips env random pd).halts (filterLoop_forward env random pd .skip)
      (filterStart w.calcSkipSteps natpass lookup anchorMatch) rfl fun _ _ _ _ => trivial
  obtain ⟨final, rfl⟩ := halts_ok hfast rfl
  obtain ⟨bound, hrun⟩ := hfast.loop_eq
  obtain ⟨bound', hrun'⟩ := hslow.loop_eq
  exact ⟨final, max bound bound', fun fuel hfuel =>
    ⟨hrun fuel (le_of_max_le_left hfuel), hrun' fuel (le_of_max_le_right hfuel)⟩⟩

/-! ## The loop of `pf_match_translation` -/

section Translation

variable {env : Lookups} {pd : PfPdesc} {rule rule' : PfRule}
  {tables : Ktable → KtableEntries}

/-- The tests that compare what `pf_match_translation` may exchange. -/
def Skip.endpoint : Skip → Bool
  | .srcAddr | .srcPort | .dstAddr | .dstPort => true
  | _ => false

variable {step : Skip}

/-- The condition under which the loop follows `skip[step]`, apart from the
tests before. -/
def PfRule.translationFails (env : Lookups) (pd : PfPdesc) (r : PfRule) : Skip → Bool
  | .srcAddr =>
    !r.reversed pd && r.src.addrFails env pd.saddr pd.af (some pd.kif)
  | .srcPort => !r.reversed pd && r.src.portFails env pd.sport
  | .dstAddr =>
    if r.reversed pd then r.dst.addrFails env pd.saddr pd.af (some pd.kif)
    else r.dst.addrFails env pd.daddr pd.af none
  | .dstPort =>
    if r.reversed pd then r.dst.portFails env pd.sport
    else r.dst.portFails env pd.dport
  | step => r.fails env pd step

theorem translationFails_of_mismatch
    (hmismatch : rule.translationMismatch env pd = some (some step)) :
    rule.translationFails env pd step = true ∧
      (step.endpoint = true → rule.fails env pd .af = false) := by
  simp only [translationMismatch] at hmismatch
  split_ifs at hmismatch <;>
    first
      | (simp only [Option.some.injEq] at hmismatch
         subst hmismatch
         simp_all [translationFails, Skip.endpoint])
      | (split at hmismatch <;> simp at hmismatch)

theorem mismatch_of_translationFails (step : Skip)
    (hfails : rule.translationFails env pd step = true) :
    (rule.translationMismatch env pd).isSome = true := by
  simp only [translationMismatch]
  split_ifs <;> cases step <;> simp_all [translationFails]

theorem translationMismatch_of_same (hsame : step.differs rule' rule = false)
    (hreversed : step.endpoint = true → rule'.reversed pd = rule.reversed pd)
    (hcurrent : rule.Current tables) (hcurrent' : rule'.Current tables)
    (hmismatch : rule.translationMismatch env pd = some (some step)) :
    (rule'.translationMismatch env pd).isSome = true := by
  obtain ⟨hfails, haf⟩ := translationFails_of_mismatch hmismatch
  by_cases haf' : rule'.fails env pd .af = true
  · exact mismatch_of_translationFails .af haf'
  · rw [Bool.not_eq_true] at haf'
    apply mismatch_of_translationFails step
    rw [← hfails]
    cases step
    case srcAddr =>
        simp only [translationFails, hreversed rfl,
          src_addrFails_eq hcurrent hcurrent' (haf rfl) haf' hsame]
    case dstAddr =>
        simp only [translationFails, hreversed rfl,
          dst_addrFails_eq hcurrent hcurrent' (haf rfl) haf' hsame]
    case srcPort =>
        simp only [translationFails, hreversed rfl, portFails_eq hsame]
    case dstPort =>
        simp only [translationFails, hreversed rfl, portFails_eq hsame]
    all_goals
      simp only [translationFails]
      exact fails_eq_of_same hsame (by decide)

variable {w : Rulesets}

theorem translationLoop_forward (rsNum : RulesetKind) (env : Lookups) (pd : PfPdesc) (mode : Mode) :
    (translationLoop (w := w.calcSkipSteps) mode rsNum env pd).Forward := by
  intro ptr context data data' ptr' hvisit
  simp only [translationLoop, translationVisit] at hvisit
  split at hvisit
  · simp only [Prod.mk.injEq, Verdict.pass.injEq] at hvisit
    exact advance_forward hvisit.2
  · simp only [Prod.mk.injEq, Verdict.pass.injEq] at hvisit
    exact next_forward hvisit.2
  · split at hvisit
    · simp only [Prod.mk.injEq, Verdict.pass.injEq] at hvisit
      exact next_forward hvisit.2
    · simp only [translationSelect] at hvisit
      split at hvisit <;> simp at hvisit

/-- The rule fails one of its tests and leaves the variables as they are. -/
def RulePtr.Mismatches (env : Lookups) (pd : PfPdesc) (data : TranslationData w)
    (ptr : RulePtr w) : Prop :=
  (ptr.rule.translationMismatch env pd).isSome = true ∨
    translationTests env pd ptr data = (false, data)

theorem RulePtr.Mismatches.visit {data : TranslationData w} {ptr : RulePtr w}
    (hfails : ptr.Mismatches env pd data) (context : Context w) :
    translationVisit .next env pd ptr context data = (data, .pass ptr.next) := by
  unfold translationVisit
  rcases hmismatch : ptr.rule.translationMismatch env pd with _ | _ | step
  · rcases hfails with hsome | htests
    · simp [hmismatch] at hsome
    · simp only [htests]
  · rfl
  · rfl

/-- What the skip step of an address or a port leaves out at a rule does not match the
packet, as far as only one of the two rules has its source and destination exchanged. -/
def RulePtr.SkipsMismatches (env : Lookups) (pd : PfPdesc) (ptr : RulePtr w)
    (data : TranslationData w) : Prop :=
  ∀ step : Skip, step.endpoint = true → ptr.rule.translationMismatch env pd = some (some step) →
    ∀ ptr' : RulePtr w, ptr'.queue = ptr.queue → ptr.index.val < ptr'.index.val →
      ptr'.index.val < w.skip ptr.queue ptr.index step →
        ptr'.rule.reversed pd ≠ ptr.rule.reversed pd → ptr'.Mismatches env pd data

theorem translationLoop_skips (rsNum : RulesetKind) (env : Lookups) (pd : PfPdesc) :
    (translationLoop (w := w.calcSkipSteps) .skip rsNum env pd).Skips
      (translationLoop .next rsNum env pd) (RulePtr.SkipsMismatches env pd) := by
  refine ⟨rfl, rfl, fun ptr data hmismatches context => ?_⟩
  rcases hmismatch : ptr.rule.translationMismatch env pd with _ | _ | step
  · left
    simp only [translationLoop, translationVisit, hmismatch]
  · left
    simp only [translationLoop, translationVisit, hmismatch]
  · right
    obtain ⟨hbehind, hlast, halike⟩ := calcSkipSteps_good ptr step
    refine ⟨_, ?_, hbehind, hlast, ?_⟩
    · simp only [translationLoop, translationVisit, hmismatch]
      rfl
    · intro ptr' hqueue hfirst hlt context'
      refine RulePtr.Mismatches.visit ?_ context'
      have hrule : (w.rules ptr.queue)[ptr.index.val]? = some ptr.rule := ptr.getElem?_rule rfl
      have hrule' : (w.rules ptr.queue)[ptr'.index.val]? = some ptr'.rule :=
        ptr'.getElem?_rule hqueue
      rcases hfirst.eq_or_lt with heq | hafter
      · rw [← heq, hrule, Option.some.injEq] at hrule'
        exact .inl (by rw [← hrule', hmismatch, Option.isSome_some])
      by_cases hexchanged : step.endpoint = true ∧ ptr'.rule.reversed pd ≠ ptr.rule.reversed pd
      · exact hmismatches step hexchanged.1 hmismatch ptr' hqueue hafter hlt hexchanged.2
      · exact .inl (translationMismatch_of_same (halike.differs_eq_false hafter hlt hrule hrule')
          (fun hstep => not_not.mp fun hne => hexchanged ⟨hstep, hne⟩)
          (w.current _ _ (List.mem_of_getElem? hrule))
          (w.current _ _ (List.mem_of_getElem? hrule')) hmismatch)

section Plain

variable {mode : Mode} {rsNum : RulesetKind} {data : TranslationData w} {ptr : RulePtr w}

/-- A rule without an anchor that asks for no tag is taken, or it is left as it was. -/
theorem visit_of_plain (lp : RuleLoop w (TranslationData w))
    (hlp : lp.visit = translationVisit mode env pd)
    (hplain : ptr.rule.anchor = none ∧ ptr.rule.matchTag = 0) (context : Context w) :
    (∃ data', lp.visit ptr context data = (data', .hit true) ∧ data'.rm = some ptr) ∨
      ptr.Mismatches env pd data ∧ ∃ target, (mode = .next → target = ptr.next) ∧
        lp.visit ptr context data = (data, .pass target) := by
  rw [hlp]
  unfold translationVisit
  rcases hmismatch : ptr.rule.translationMismatch env pd with _ | _ | step
  · obtain ⟨passes, htests⟩ : ∃ passes, translationTests env pd ptr data = (passes, data) := by
      simp only [translationTests, hplain.2, bne_self_eq_false, Bool.false_eq_true, if_false]
      split_ifs <;> exact ⟨_, rfl⟩
    cases passes with simp only [htests]
    | false => exact .inr ⟨.inr htests, _, fun _ => rfl, rfl⟩
    | true =>
      unfold translationSelect
      split
      · exact .inl ⟨_, rfl, rfl⟩
      · rename_i hanchor
        cases hplain.1.symm.trans hanchor
  · exact .inr ⟨.inl (by rw [hmismatch]; rfl), _, fun _ => rfl, rfl⟩
  · exact .inr ⟨.inl (by rw [hmismatch]; rfl), _, by rintro rfl; rfl, rfl⟩

/-- Nothing but the current rule has changed and `R` holds of it, or of the rule found. -/
def Searches (data : TranslationData w) (R : Option (RulePtr w) → Prop) :
    Iteration w (TranslationData w) → Prop
  | .goto state => state.walk.stack = [] ∧ state.data = data ∧ R state.walk.r
  | .stop result => ∃ final, result = .ok final ∧ R final.data.rm

variable {R : Option (RulePtr w) → Prop}

theorem searches_leave {walk : AnchorWalk w} (hstack : walk.stack = [])
    {target : Option (RulePtr w)} (htarget : R target) :
    Searches data R ((translationLoop mode rsNum env pd).leave
      { data, walk := { walk with r := target } }) := by
  unfold leave
  split_ifs
  · exact ⟨hstack, rfl, htarget⟩
  · simp only [pfStepOutOfAnchor, hstack, stepFrames, heed]
    exact ⟨rfl, rfl, htarget⟩

theorem searches_follows {before after : Iteration w (TranslationData w)}
    (hfollows : Follows (translationLoop mode rsNum env pd).body before after)
    (hbefore : Searches data R before) (hrm : data.rm = none)
    (hplain : ∀ ptr, R (some ptr) → ptr.rule.anchor = none ∧ ptr.rule.matchTag = 0)
    (htarget : ∀ ptr context target, R (some ptr) → ptr.Mismatches env pd data →
      (mode = .next → target = ptr.next) → (translationLoop mode rsNum env pd).visit
        ptr context data = (data, .pass target) → R target) : Searches data R after := by
  refine hfollows.invariant hbefore fun state ⟨hstack, hdata, hr⟩ => ?_
  subst hdata
  cases hptr : state.walk.r with rw [hptr] at hr
  | none =>
    simp only [body, hptr]
    exact ⟨state, rfl, hrm ▸ hr⟩
  | some ptr =>
    rw [body_of_some _ hptr]
    rcases visit_of_plain (translationLoop mode rsNum env pd) rfl (hplain ptr hr) _ with
      ⟨data', hvisit, hmatch⟩ | ⟨hfails, target, hnext, hvisit⟩ <;> rw [hvisit]
    · exact ⟨_, rfl, hmatch ▸ hr⟩
    · exact searches_leave hstack (htarget ptr _ target hr hfails hnext hvisit)

end Plain

end Translation

def SkipsOnlyMismatches (w : Rulesets) (rsNum : RulesetKind) (env : Lookups) (pd : PfPdesc)
    (anchorMatch : AnchorId → Bool) : Prop :=
  ∀ state ptr, Follows (translationLoop .skip rsNum env pd).body
      (.goto (translationStart w.calcSkipSteps rsNum anchorMatch)) (.goto state) →
    state.walk.r = some ptr → ptr.SkipsMismatches env pd state.data

/-- Both loops end, with the same values of all their variables. -/
def LoopsAgree (w : Rulesets) (rsNum : RulesetKind) (env : Lookups) (pd : PfPdesc)
    (anchorMatch : AnchorId → Bool) : Prop :=
  ∃ result, ∀ mode, Halts (translationLoop mode rsNum env pd).body
    (translationStart w.calcSkipSteps rsNum anchorMatch) result

section Agree

variable {w : Rulesets} {rsNum : RulesetKind} {env : Lookups} {pd : PfPdesc}
  {anchorMatch : AnchorId → Bool}

theorem SkipsOnlyMismatches.agree (hskips : SkipsOnlyMismatches w rsNum env pd anchorMatch) :
    LoopsAgree w rsNum env pd anchorMatch := by
  obtain ⟨result, hfast, hslow⟩ := (translationLoop_skips rsNum env pd).halts
    (translationLoop_forward rsNum env pd .skip) _ rfl hskips
  refine ⟨result, fun mode => ?_⟩
  cases mode with
  | skip => exact hfast
  | next => exact hslow

def Behind (rsNum : RulesetKind) (last : ℕ) (r : Option (RulePtr w)) : Prop :=
  ∀ ptr, r = some ptr → ptr.queue = ⟨.main, rsNum⟩ ∧ last ≤ ptr.index.val

def UpTo (rsNum : RulesetKind) (last : ℕ) (r : Option (RulePtr w)) : Prop :=
  ∃ ptr, r = some ptr ∧ ptr.queue = ⟨.main, rsNum⟩ ∧ ptr.index.val ≤ last

section Plain

variable (hplain : ∀ rule ∈ w.rules ⟨.main, rsNum⟩, rule.anchor = none ∧ rule.matchTag = 0)
include hplain

theorem plain_rule {ptr : RulePtr w.calcSkipSteps} (hqueue : ptr.queue = ⟨.main, rsNum⟩) :
    ptr.rule.anchor = none ∧ ptr.rule.matchTag = 0 :=
  hplain _ (List.mem_of_getElem? (ptr.getElem?_rule hqueue))

variable {data : TranslationData w.calcSkipSteps} (hrm : data.rm = none)
  {before after : Iteration w.calcSkipSteps (TranslationData w.calcSkipSteps)}
include hrm

/-- The loop with skip steps does not go back. -/
theorem searches_behind {last : ℕ}
    (hfollows : Follows (translationLoop .skip rsNum env pd).body before after)
    (hbefore : Searches data (Behind rsNum last) before) :
    Searches data (Behind rsNum last) after := by
  refine searches_follows hfollows hbefore hrm (fun ptr hptr => plain_rule hplain (hptr ptr rfl).1)
    fun ptr context target hptr _ _ hvisit ptr' hptr' => ?_
  subst hptr'
  obtain ⟨hqueue, hlt⟩ := translationLoop_forward rsNum env pd .skip _ _ _ _ _ hvisit
  exact ⟨hqueue.trans (hptr ptr rfl).1, (hptr ptr rfl).2.trans hlt.le⟩

/-- The loop that steps does not pass a rule that matches. -/
theorem searches_upTo {ptr' : RulePtr w.calcSkipSteps} (hqueue : ptr'.queue = ⟨.main, rsNum⟩)
    (hmatches : ¬ ptr'.Mismatches env pd data)
    (hfollows : Follows (translationLoop .next rsNum env pd).body before after)
    (hbefore : Searches data (UpTo rsNum ptr'.index) before) :
    Searches data (UpTo rsNum ptr'.index) after := by
  refine searches_follows hfollows hbefore hrm ?_ ?_
  · rintro ptr ⟨_, ⟨⟩, hsame, -⟩
    exact plain_rule hplain hsame
  · rintro ptr context target ⟨_, ⟨⟩, hsame, hle⟩ hfails hnext -
    have hsame' := hsame.trans hqueue.symm
    have hlt : ptr.index.val < ptr'.index.val := lt_of_le_of_ne hle fun hindex => hmatches
      (RulePtr.eq_of_index hsame' hindex ▸ hfails)
    have hinside := lt_of_le_of_lt hlt ptr'.index.isLt
    rw [← hsame'] at hinside
    exact ⟨_, (hnext rfl).trans (Rulesets.ptr_of_lt hinside), hsame, hlt⟩

omit hrm in
/-- Without anchors and tags the loop that steps ends with the first rule that matches, and
the other one does not come back to it. -/
theorem LoopsAgree.skips (hagree : LoopsAgree w rsNum env pd anchorMatch) :
    SkipsOnlyMismatches w rsNum env pd anchorMatch := by
  obtain ⟨result, hhalts⟩ := hagree
  intro state ptr hreached hr step _ hmismatch ptr' hqueue' hafter hlt _
  by_contra hmatches
  obtain ⟨hstack, hdata, hbehind⟩ := searches_behind hplain rfl hreached
    ⟨rfl, rfl, fun ptr hptr => ⟨(Rulesets.ptr_eq_some hptr).1, Nat.zero_le _⟩⟩
  have hqueue := (hbehind ptr hr).1
  rw [hdata] at hmatches
  -- the loop with skip steps goes on behind the rule that matches
  have hrest : Halts _ state result := .of_follows (hreached.invariant
    (P := fun outcome => Follows _ outcome (.stop result)) (.step (hhalts .skip))
    fun _ => Halts.of_follows)
  have hvisit : (translationLoop .skip rsNum env pd).visit ptr state.walk.context state.data =
      (state.data, .pass (ptr.skip step)) := by
    simp only [translationLoop, translationVisit, hmismatch]
    rfl
  rw [Halts, body_of_some _ hr, hvisit, hdata] at hrest
  obtain ⟨final, hfinal, hlast⟩ := searches_behind hplain rfl hrest
    (searches_leave hstack fun ptr'' hptr'' => by
      obtain ⟨hsame, hindex⟩ := Rulesets.ptr_eq_some hptr''
      exact ⟨hsame.trans hqueue, hindex.ge⟩)
  obtain ⟨final', hfinal', ptr'', hrm, -, hle⟩ := searches_upTo hplain rfl (hqueue'.trans hqueue)
    hmatches (.step (hhalts .next))
    ⟨rfl, rfl, _, Rulesets.ptr_of_lt (hqueue ▸ Nat.zero_lt_of_lt ptr.index.isLt), rfl,
      Nat.zero_le _⟩
  cases hfinal.symm.trans hfinal'
  have hbehind := (hlast ptr'' hrm).2
  omega

end Plain

end Agree

/-- When `pf_calc_skip_steps` has run for all lists of rules and no rule at which
the loop arrives has a skip step over a rule that matches because its source and
destination are exchanged and those of the other are not, or the other way round,
the loop of `pf_match_translation` ends with the same values of its variables, and
so with the same rule, as the loop that always goes on with the next rule.  Where the
rules have no anchors and ask for no tags, only then. -/
theorem translation_loop_skips_nothing (w : Rulesets) (rsNum : RulesetKind)
    (env : Lookups) (pd : PfPdesc) (anchorMatch : AnchorId → Bool) :
    (SkipsOnlyMismatches w rsNum env pd anchorMatch → LoopsAgree w rsNum env pd anchorMatch) ∧
      ((∀ rule ∈ w.rules ⟨.main, rsNum⟩, rule.anchor = none ∧ rule.matchTag = 0) →
        (LoopsAgree w rsNum env pd anchorMatch ↔
          SkipsOnlyMismatches w rsNum env pd anchorMatch)) :=
  ⟨fun hskips => hskips.agree, fun hplain =>
    ⟨fun hagree => hagree.skips hplain, fun hskips => hskips.agree⟩⟩

def hostMask : PfAddr := hostAddr 0xffffffff

def anyEndpoint : PfRuleAddr where
  addr := .addrmask (hostAddr 0) (hostAddr 0)
  port := (0, 0)
  neg := 0
  portOp := 0

def hostEndpoint (host : BitVec 32) : PfRuleAddr :=
  { anyEndpoint with addr := .addrmask (hostAddr host) hostMask }

def plainLookups : Lookups where
  order := .big
  kifs := fun _ => ⟨none, []⟩
  routable := fun _ _ _ => true
  rtLabelid := fun _ _ => none
  tableMatch := fun _ _ _ => false
  socketLookup := (0, 0)
  osfpMatch := fun _ => false

def inPacket (saddr daddr : BitVec 32) : PfPdesc where
  direction := pfIn
  kif := 0
  af := afInet
  proto := 17
  saddr := hostAddr saddr
  daddr := hostAddr daddr
  sport := 0
  dport := 0
  icmptype := 0
  icmpcode := 0
  tos := 0
  thFlags := 0
  tag := 0

/-- Two neighbours of which only the second has its source and destination
exchanged; they ask for the given sources, and the second translates to host 3. -/
def mixedBinat (first second : BitVec 32) : Rulesets where
  rules := fun queue =>
    if queue = ⟨.main, .binat⟩ then
      [{ src := hostEndpoint first, dst := anyEndpoint, action := .nobinat },
        { src := hostEndpoint second, dst := hostEndpoint 2, action := .binat
          rpoolCur := some (.addrmask (hostAddr 3) hostMask) }]
    else []
  skip := fun _ _ _ => 0
  children := fun _ => []
  tables := fun _ => ⟨[], []⟩
  current := by
    intro queue rule hrule dyn haddr
    split_ifs at hrule
    · simp only [List.mem_cons, List.not_mem_nil, or_false] at hrule
      rcases hrule with rfl | rfl <;>
        simp [hostEndpoint, anyEndpoint] at haddr
    · simp at hrule

-- the first rule has a wrong skip step, but the packet is from its source
theorem translation_loop_skips_nothing_first :
    LoopsAgree (mixedBinat 1 1) .binat plainLookups (inPacket 1 3) fun _ => false := by
  apply (translation_loop_skips_nothing (mixedBinat 1 1) .binat plainLookups (inPacket 1 3) _).1
  intro state ptr hfollows hr step _ hmismatch
  cases hfollows with
  | refl =>
    cases hr
    cases hmismatch
  | step hrest => cases hrest

/-- A rule that is left out because it has the same source as the one before
it, although its source is not what is tested. -/
theorem translation_loop_skips_matching_rule :
    ∃ skipping stepping,
      (translationLoop .skip .binat plainLookups (inPacket 2 3)).run 3
          (translationStart (mixedBinat 1 1).calcSkipSteps .binat
            fun _ => false) = some (.ok skipping) ∧
      (translationLoop .next .binat plainLookups (inPacket 2 3)).run 3
          (translationStart (mixedBinat 1 1).calcSkipSteps .binat
            fun _ => false) = some (.ok stepping) ∧ skipping.data.returned = none ∧
      stepping.data.returned.isSome = true := by
  refine ⟨_, _, rfl, rfl, rfl, rfl⟩

end AerieKernel.PacketFilter
