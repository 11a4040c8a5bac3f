import AerieKernel.PoolConsistency

/-!
# Runs of a pool

Whatever the callers do, and whenever the allocation of a page fails, a pool stays
consistent, provided that no `pool_put` that finds PR_WANTED set makes its page change
lists.  Without this the pool comes to a state in which the next `pool_get` panics.
-/

namespace AerieKernel.Pools

def Pool.allPages (pp : Pool) : List ℕ := pp.emptypages ++ pp.partpages ++ pp.fullpages

structure Sound (s : State) : Prop where
  once : s.pool.allPages.Nodup
  empty : ∀ p ∈ s.pool.emptypages, (s.pool.header p).nmissing = 0
  part : ∀ p ∈ s.pool.partpages, 0 < (s.pool.header p).nmissing ∧
    (s.pool.header p).nmissing < s.pool.itemsperpage
  full : ∀ p ∈ s.pool.fullpages, (s.pool.header p).nmissing = s.pool.itemsperpage
  nitems : s.pool.nitems = (s.pool.allPages.map fun p => (s.pool.header p).itemlist.length).sum
  nout : s.pool.nout = s.out.length
  nidle : s.pool.nidle = s.pool.emptypages.length
  curpage_none : s.pool.curpage = none ↔ s.pool.nitems = 0
  curpage_some : ∀ p, s.pool.curpage = some p →
    p ∈ s.pool.allPages ∧ (s.pool.header p).itemlist ≠ []
  out_once : s.out.Nodup
  out_page : ∀ x ∈ s.out, x.1 ∈ s.pool.allPages ∧ x.2 < s.pool.itemsperpage ∧
    x.2 ∉ (s.pool.header x.1).itemlist

/-! ## What the environment may do -/

def Granted (pp : Pool) (grants : List (Option ℕ)) : Prop :=
  (grants.filterMap id).Nodup ∧ ∀ p ∈ grants.filterMap id, p ∉ pp.allPages

instance (pp : Pool) (grants : List (Option ℕ)) : Decidable (Granted pp grants) :=
  inferInstanceAs (Decidable (_ ∧ _))

/-- The page allocator gives pages that the pool does not have, a caller goes on where it
has stopped, and only items that have been got are put. -/
def Possible (s : State) : Event → Prop
  | .get caller _ _ grants => s.callers caller = .idle ∧ Granted s.pool grants
  | .woken caller grants =>
    (s.callers caller = .asleep true ∨ s.callers caller = .asleep false) ∧ Granted s.pool grants
  | .allocated caller grant grants =>
    (s.callers caller = .allocating true ∨ s.callers caller = .allocating false) ∧
      Granted s.pool (grant :: grants)
  | .put page i => (page, i) ∈ s.out
  | .prime _ grants => Granted s.pool grants
  | .setlowat _ grants => Granted s.pool grants
  | .reclaim => True

/-- A page to which an item is put while somebody waits has items out before and after,
and has not been full. -/
def Quiet (s : State) : Event → Prop
  | .put page _ => s.pool.wanted = true →
      1 < (s.pool.header page).nmissing ∧ (s.pool.header page).nmissing < s.pool.itemsperpage
  | _ => True

instance (s : State) (event : Event) : Decidable (Possible s event) :=
  match event with
  | .get .. | .woken .. | .allocated .. => inferInstanceAs (Decidable (_ ∧ _))
  | .put .. => inferInstanceAs (Decidable (_ ∈ _))
  | .prime .. | .setlowat .. => inferInstanceAs (Decidable (Granted _ _))
  | .reclaim => isTrue trivial

instance (s : State) (event : Event) : Decidable (Quiet s event) :=
  match event with
  | .put .. => inferInstanceAs (Decidable (_ → _))
  | .get .. | .woken .. | .allocated .. | .prime .. | .setlowat .. | .reclaim => isTrue trivial

/-! ## Consistency and soundness -/

section Sound

variable {pp : Pool} {S : Finset ℕ} {out : List (ℕ × ℕ)}

theorem Consistent.mem_allPages (h : Consistent pp S out) (p : ℕ) : p ∈ pp.allPages ↔ p ∈ S := by
  rw [Pool.allPages, List.mem_append, List.mem_append, h.core.listed.mem_empty,
    h.core.listed.mem_part, h.core.listed.mem_full]
  constructor
  · rintro ((hp | hp) | hp) <;> exact hp.1
  · intro hp
    have := (h.core.pages p hp).count
    simp only [hp, true_and]
    omega

theorem Consistent.nodup_allPages (h : Consistent pp S out) : pp.allPages.Nodup := by
  have hlisted := h.core.listed
  have hpositive := h.core.positive
  rw [Pool.allPages, List.nodup_append, List.nodup_append]
  refine ⟨⟨hlisted.nodup_empty, hlisted.nodup_part, ?_⟩, hlisted.nodup_full, ?_⟩
  · rintro p hp q hq rfl
    have hp' := (hlisted.mem_empty p).mp hp
    have hq' := (hlisted.mem_part p).mp hq
    omega
  · rintro p hp q hq rfl
    have hq' := (hlisted.mem_full p).mp hq
    rcases List.mem_append.mp hp with hp | hp
    · have hp' := (hlisted.mem_empty p).mp hp
      omega
    · have hp' := (hlisted.mem_part p).mp hp
      omega

theorem Consistent.fresh (h : Consistent pp S out) {grants : List (Option ℕ)}
    (hgranted : Granted pp grants) : Fresh S grants := by
  refine ⟨hgranted.1, ?_⟩
  intro p hp
  rw [← h.mem_allPages]
  exact hgranted.2 p hp

theorem Consistent.sound {s : State} (h : Consistent s.pool S s.out) : Sound s := by
  have hlisted := h.core.listed
  refine ⟨h.nodup_allPages, fun p hp => ((hlisted.mem_empty p).mp hp).2,
    fun p hp => ((hlisted.mem_part p).mp hp).2, fun p hp => ((hlisted.mem_full p).mp hp).2,
    ?_, h.core.nout, h.core.nidle, ⟨h.cur.none, ?_⟩, ?_, h.core.out_nodup, ?_⟩
  · have hS : S = s.pool.allPages.toFinset := by
      ext p
      rw [List.mem_toFinset, h.mem_allPages]
    rw [h.core.nitems, hS, List.sum_toFinset _ h.nodup_allPages]
  · intro hzero
    by_contra hsome
    obtain ⟨p, hp⟩ := Option.ne_none_iff_exists'.mp hsome
    obtain ⟨hin, hfree⟩ := h.cur.free p hp
    rw [h.core.nitems] at hzero
    have hlength := Finset.sum_eq_zero_iff.mp hzero p hin
    exact hfree (List.length_eq_zero_iff.mp hlength)
  · intro p hp
    rw [h.mem_allPages]
    exact h.cur.free p hp
  · rintro ⟨p, i⟩ hin
    rw [h.mem_allPages]
    exact (h.core.mem_out p i).mp hin

end Sound

/-! ## Runs -/

theorem GetOk.got {s : State} {result : Pool × Pool.Outcome} (h : GetOk s.out result)
    (caller : ℕ) (limitfail : Bool) :
    ∃ S, Consistent (s.got caller limitfail result).pool S (s.got caller limitfail result).out := by
  obtain ⟨pp, outcome⟩ := result
  cases outcome <;> exact h

theorem step_consistent {s : State} {S : Finset ℕ} {event : Event} (h : Consistent s.pool S s.out)
    (hpossible : Possible s event) (hquiet : Quiet s event) :
    ∃ s', step s event = some s' ∧ ∃ S', Consistent s'.pool S' s'.out := by
  cases event with
  | get caller waitok limitfail grants =>
    obtain ⟨result, hget, hok⟩ := h.doGet waitok limitfail (h.fresh hpossible.2)
    refine ⟨s.got caller limitfail result, ?_, hok.got caller limitfail⟩
    rw [step, hget]
    rfl
  | woken caller grants =>
    obtain ⟨hcaller, hgranted⟩ := hpossible
    obtain ⟨limitfail, hasleep⟩ : ∃ limitfail, s.callers caller = .asleep limitfail :=
      hcaller.elim (fun hc => ⟨_, hc⟩) fun hc => ⟨_, hc⟩
    obtain ⟨result, hget, hok⟩ := h.doGet true limitfail (h.fresh hgranted)
    refine ⟨s.got caller limitfail result, ?_, hok.got caller limitfail⟩
    rw [step, hasleep]
    dsimp only
    rw [hget]
    rfl
  | allocated caller grant grants =>
    obtain ⟨hcaller, hgranted⟩ := hpossible
    obtain ⟨limitfail, hwaits⟩ : ∃ limitfail, s.callers caller = .allocating limitfail :=
      hcaller.elim (fun hc => ⟨_, hc⟩) fun hc => ⟨_, hc⟩
    obtain ⟨result, hget, hok⟩ := h.doGetAllocated limitfail (h.fresh hgranted)
    refine ⟨s.got caller limitfail result, ?_, hok.got caller limitfail⟩
    rw [step, hwaits]
    dsimp only
    rw [hget]
    rfl
  | put page i =>
    obtain ⟨pp', hput, S', h'⟩ := h.doPut hpossible hquiet
    refine ⟨{ s with pool := pp', out := s.out.erase (page, i) }, ?_, S', h'⟩
    rw [step, hput]
    rfl
  | prime n grants => exact ⟨_, rfl, h.prime (h.fresh hpossible)⟩
  | setlowat n grants => exact ⟨_, rfl, h.setlowat (h.fresh hpossible)⟩
  | reclaim =>
    obtain ⟨pp', hreclaim, S', h'⟩ := h.reclaim
    refine ⟨{ s with pool := pp' }, ?_, S', h'⟩
    rw [step, hreclaim]
    rfl

/-- Every state that a pool can reach is sound, and nothing that can happen in it panics,
as long as no page changes lists on a `pool_put` that wakes somebody up. -/
theorem pool_sound (phinpage : Bool) (itemsperpage maxpages hardlimit : ℕ) (s : State)
    (hpositive : 0 < itemsperpage)
    (hrun : Run.GuardedRun step (fun s event => Possible s event ∧ Quiet s event)
      (start phinpage itemsperpage maxpages hardlimit) s) :
    Sound s ∧ ∀ event, Possible s event → Quiet s event → ∃ s', step s event = some s' := by
  have hinv : ∃ S, Consistent s.pool S s.out := by
    apply hrun.invariant (P := fun s => ∃ S, Consistent s.pool S s.out)
    · exact ⟨∅, consistent_init phinpage maxpages hardlimit hpositive⟩
    · rintro before event after ⟨S, h⟩ ⟨hpossible, hquiet⟩ hstep
      obtain ⟨s', hstep', h'⟩ := step_consistent h hpossible hquiet
      rw [hstep] at hstep'
      cases hstep'
      exact h'
  obtain ⟨S, h⟩ := hinv
  refine ⟨h.sound, ?_⟩
  intro event hpossible hquiet
  obtain ⟨s', hstep, -⟩ := step_consistent h hpossible hquiet
  exact ⟨s', hstep⟩

/-- Pages of three items: a caller sleeps at the hard limit and is woken up by an item
for a page that has another one missing. -/
def wokenEvents : List Event :=
  [.get 0 false false [some 10], .get 0 true false [], .get 0 true false [],
    .get 0 true false [], .allocated 0 (some 20) [], .get 0 true false [],
    .get 1 true false [], .put 20 0, .woken 1 [], .reclaim]

def wokenState : State :=
  Run.execD step (fun s event => Possible s event ∧ Quiet s event) (start false 3 8 5) wokenEvents

theorem pool_sound_woken :
    Sound wokenState ∧ wokenState.pool.fullpages = [10] ∧ wokenState.pool.partpages = [20] := by
  have hrun : Run.GuardedRun step (fun s event => Possible s event ∧ Quiet s event)
      (start false 3 8 5) wokenState := Run.GuardedRun.of_execD (by decide +kernel)
  exact ⟨(pool_sound false 3 8 5 wokenState (by norm_num) hrun).1, by decide +kernel,
    by decide +kernel⟩

/-- Two pages of two items are full, and a caller sleeps at the hard limit.  The page of
the item that wakes it up stays on the list of full pages; when the other page is full
again, there is no current page although an item is free. -/
def stuckEvents : List Event :=
  [.get 0 false false [some 10], .get 0 false false [], .get 0 false false [some 20],
    .get 0 false false [], .get 1 true false [], .put 10 0, .put 20 0, .woken 1 []]

def stuckState : State := Run.execD step Possible (start true 2 8 4) stuckEvents

theorem pool_loses_page :
    Run.GuardedRun step Possible (start true 2 8 4) stuckState ∧
      10 ∈ stuckState.pool.fullpages ∧ (stuckState.pool.header 10).nmissing = 1 ∧
      stuckState.pool.curpage = none ∧ stuckState.pool.nitems = 1 ∧
      Possible stuckState (.get 2 false false []) ∧
      (step stuckState (.get 2 false false [])).isNone :=
  ⟨Run.GuardedRun.of_execD (by decide +kernel), by decide +kernel⟩

end AerieKernel.Pools
