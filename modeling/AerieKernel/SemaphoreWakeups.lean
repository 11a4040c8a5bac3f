import AerieKernel.SemaphorePasses

/-!
# Wakeups of `semop`

The counts of waiters of a set are right in every state of a run, so a turn that
changes a value for which somebody waits finds the count and wakes the sleepers.
A sleeper that has not been woken is therefore still stuck.
-/

namespace AerieKernel.Semaphore

open Function Finset System SameCounts

/-! ## Counting sleepers -/

def ProcState.waitsFor (state : ProcState) (ptr : SetPtr) (num : ℕ) (zero : Bool) : Bool :=
  match state with
  | .asleep call op _ =>
    call.semaptr = ptr && op.semNum.toNat = num && op.awaitsZero = zero
  | _ => false

def ProcState.Awake (state : ProcState) : Prop :=
    ∀ ptr num zero, state.waitsFor ptr num zero = false

def waiters (n : ℕ) (procs : Proc → ProcState) (ptr : SetPtr) (num : ℕ) (zero : Bool) : ℕ :=
  ∑ p ∈ Finset.range n, if (procs p).waitsFor ptr num zero then 1 else 0

variable {p : Proc}

theorem waiters_update {n : ℕ} (procs : Proc → ProcState)
    (state : ProcState) (hp : p < n) (ptr : SetPtr) (num : ℕ) (zero : Bool) :
    waiters n (update procs p state) ptr num zero +
        (if (procs p).waitsFor ptr num zero then 1 else 0) = waiters n procs ptr num zero +
        if state.waitsFor ptr num zero then 1 else 0 := by
  have hmem : p ∈ range n := mem_range.mpr hp
  have hrest : ∑ q ∈ (range n).erase p,
        (if (update procs p state q).waitsFor ptr num zero then 1 else 0) = ∑ q ∈ (range n).erase p,
        if (procs q).waitsFor ptr num zero then 1 else 0 := by
    apply sum_congr rfl
    intro q hq
    rw [update_of_ne (ne_of_mem_erase hq)]
  unfold waiters
  rw [← add_sum_erase _ _ hmem, hrest, update_self, ← add_sum_erase (range n) (fun q =>
      if (procs q).waitsFor ptr num zero then 1 else 0) hmem]
  ring

variable {ptr : SetPtr} {procs : Proc → ProcState} {zero : Bool}

theorem waiters_le (n : ℕ) (procs : Proc → ProcState) (ptr : SetPtr) (num : ℕ) (zero : Bool) :
    waiters n procs ptr num zero ≤ n := by
  calc waiters n procs ptr num zero
      ≤ ∑ _q ∈ range n, 1 := by
        apply sum_le_sum
        intro q _
        split_ifs <;> simp
    _ = n := by simp

def wakeProcs (slots : List ℕ) (procs : Proc → ProcState) : Proc → ProcState :=
  fun p => slots.foldl (fun state ix => state.wake ix) (procs p)

theorem wakeProcs_apply (slots : List ℕ) (procs : Proc → ProcState) (p : Proc) :
    wakeProcs slots procs p =
      match procs p with
      | .asleep call op woken =>
        .asleep call op (woken || decide (call.ix ∈ slots))
      | state => state := by
  unfold wakeProcs
  generalize procs p = state
  induction slots generalizing state with
  | nil => cases state <;> simp
  | cons ix slots ih =>
    rw [List.foldl_cons, ih]
    cases state with
    | asleep call op woken =>
      simp [ProcState.wake, Bool.or_assoc]
    | _ => rfl

variable {slots : List ℕ} {woken : Bool}

theorem asleep_of_wakeProcs {call : SemopCall} {op : Sembuf}
    (hproc : wakeProcs slots procs p = .asleep call op woken) :
    ∃ before, procs p = .asleep call op before ∧ woken = (before || decide (call.ix ∈ slots)) := by
  rw [wakeProcs_apply] at hproc
  cases hold : procs p with rw [hold] at hproc
  | asleep call' op' before =>
    cases hproc
    exact ⟨before, rfl, rfl⟩
  | _ =>
    cases hproc

variable {state : ProcState}

theorem of_wakeProcs (hstate : ∀ call op woken, state ≠ .asleep call op woken)
    (hproc : wakeProcs slots procs p = state) : procs p = state := by
  rw [wakeProcs_apply] at hproc
  cases hold : procs p with rw [hold] at hproc
  | asleep call op woken =>
    exact absurd hproc.symm (hstate _ _ _)
  | _ =>
    exact hproc

theorem waiters_wakeProcs (n : ℕ) (slots : List ℕ) (procs : Proc → ProcState) (ptr : SetPtr)
    (num : ℕ) (zero : Bool) :
    waiters n (wakeProcs slots procs) ptr num zero = waiters n procs ptr num zero := by
  apply sum_congr rfl
  intro p _
  have hsame : (wakeProcs slots procs p).waitsFor ptr num zero =
      (procs p).waitsFor ptr num zero := by
    rw [wakeProcs_apply]
    cases procs p <;> rfl
  rw [hsame]

/-! ## The sleepers of all sets -/

/-- The counts are right, and a sleeper that has not been woken is stuck.  The
set of a sleeper may be gone, but then it has been woken. -/
structure WaitersOk (n : ℕ) (kernel : Kernel) (procs : Proc → ProcState) : Prop where
  slots : ∀ ix ix' ptr, kernel.sema ix = some ptr → kernel.sema ix' = some ptr → ix = ix'
  counts : ∀ ix ptr, kernel.sema ix = some ptr → ∀ num zero,
    ((kernel.sets ptr).waitCount num zero).toNat = waiters n procs ptr num zero
  asleep : ∀ p call op woken, procs p = .asleep call op woken →
    p < n ∧
      ((kernel.sema call.ix = some call.semaptr ∧
          (kernel.sets call.semaptr).seq = call.seq ∧
          (woken = false → Stuck (kernel.sets call.semaptr) call.sops op)) ∨
        (kernel.sema call.ix = none ∧ woken = true ∧ ∀ ix, kernel.sema ix ≠ some call.semaptr))
  copying : ∀ p call, procs p = .copying call →
    kernel.sema call.ix = some call.semaptr →
    (kernel.sets call.semaptr).seq = call.seq

section WaitersOk

variable {n : ℕ} {kernel : Kernel} {procs : Proc → ProcState}

section

variable (hok : WaitersOk n kernel procs)
include hok

theorem WaitersOk.change (kernel' : Kernel) (slots : List ℕ) (hsema : kernel'.sema = kernel.sema)
    (hsets : ∀ ix ptr, kernel.sema ix = some ptr → SameCounts (kernel.sets ptr) (kernel'.sets ptr) ∧
        (ix ∈ slots ∨ Quiet (kernel.sets ptr) (kernel'.sets ptr))) :
    WaitersOk n kernel' (wakeProcs slots procs) := by
  constructor
  · rw [hsema]
    exact hok.slots
  · intro ix ptr hslot num zero
    rw [hsema] at hslot
    rw [(hsets ix ptr hslot).1.waitCount, waiters_wakeProcs]
    exact hok.counts ix ptr hslot num zero
  · intro p call op woken hproc
    obtain ⟨before, hold, hwoken⟩ := asleep_of_wakeProcs hproc
    rw [hsema]
    obtain ⟨hp, hcase⟩ := hok.asleep p call op before hold
    refine ⟨hp, ?_⟩
    rcases hcase with ⟨hslot, hseq, hstuck⟩ | ⟨hslot, hdone, hgone⟩
    · obtain ⟨hsame, hcase⟩ := hsets _ _ hslot
      refine .inl ⟨hslot, hsame.seq.trans hseq, fun hfalse => ?_⟩
      rw [hfalse, eq_comm, Bool.or_eq_false_iff, decide_eq_false_iff_not] at hwoken
      rcases hcase with hmem | hquiet
      · exact absurd hmem hwoken.2
      · apply (hstuck hwoken.1).quiet hquiet
        intro hzero
        have hcount := hok.counts _ _ hslot op.semNum.toNat op.awaitsZero
        have hpos : 0 < waiters n procs call.semaptr op.semNum.toNat op.awaitsZero :=
          sum_pos' (fun q _ => Nat.zero_le _)
            ⟨p, mem_range.mpr hp, by simp [hold, ProcState.waitsFor]⟩
        rw [hzero] at hcount
        simp at hcount
        omega
    · exact .inr ⟨hslot, by rw [hwoken, hdone]; rfl, hgone⟩
  · intro p call hproc hslot
    rw [hsema] at hslot
    have hold := of_wakeProcs (by simp) hproc
    exact (hsets _ _ hslot).1.seq.trans (hok.copying p call hold hslot)

variable {kernel' : Kernel}

theorem WaitersOk.remove {ix : ℕ} (hsema : kernel'.sema = update kernel.sema ix none)
    (hsets : kernel'.sets = kernel.sets) : WaitersOk n kernel' (wakeProcs [ix] procs) := by
  have hstill : ∀ other ptr, kernel'.sema other = some ptr →
      other ≠ ix ∧ kernel.sema other = some ptr := by
    intro other ptr hother
    rw [hsema] at hother
    by_cases heq : other = ix
    · simp [heq] at hother
    · rw [update_of_ne heq] at hother
      exact ⟨heq, hother⟩
  have hsame : WaitersOk n kernel (wakeProcs [ix] procs) :=
    hok.change kernel [ix] rfl fun other _ _ =>
      ⟨refl _, .inr (quiet_of_same rfl)⟩
  constructor
  · intro other other' ptr' hother hother'
    exact hok.slots _ _ _ (hstill _ _ hother).2 (hstill _ _ hother').2
  · intro other ptr' hother num zero
    rw [hsets]
    exact hsame.counts _ _ (hstill _ _ hother).2 num zero
  · intro p call op woken hproc
    obtain ⟨hp, hcase⟩ := hsame.asleep p call op woken hproc
    refine ⟨hp, ?_⟩
    rw [hsets]
    by_cases heq : call.ix = ix
    · -- a sleeper of this slot has just been woken
      have hwoken : woken = true := by
        obtain ⟨before, _, hwoken⟩ := asleep_of_wakeProcs hproc
        simp [hwoken, heq]
      rcases hcase with ⟨hfound, _, _⟩ | ⟨_, _, hgone⟩
      · refine .inr ⟨by rw [hsema, heq, update_self], hwoken, fun other hother => ?_⟩
        obtain ⟨hne, hother⟩ := hstill _ _ hother
        rw [heq] at hfound
        exact hne (hok.slots _ _ _ hother hfound)
      · exact .inr ⟨by rw [hsema, heq, update_self], hwoken,
          fun other hother => hgone other (hstill _ _ hother).2⟩
    · rw [hsema, update_of_ne heq]
      rcases hcase with hcase | ⟨hnone, hwoken, hgone⟩
      · exact .inl hcase
      · refine .inr ⟨hnone, hwoken, fun other hother => ?_⟩
        rw [← hsema] at hother
        exact hgone other (hstill _ _ hother).2
  · intro p call hproc hfound
    rw [hsets]
    exact hsame.copying p call hproc (hstill _ _ hfound).2

/-- A process goes on in another state while the sets keep their values, if it
is counted for what it waits for now and no longer for what it has waited for. -/
theorem WaitersOk.put (hsema : kernel'.sema = kernel.sema)
    (hsets : ∀ ptr, (kernel'.sets ptr).seq = (kernel.sets ptr).seq ∧
      (kernel'.sets ptr).vals = (kernel.sets ptr).vals)
    (hcounts : ∀ ix ptr, kernel.sema ix = some ptr → ∀ num zero,
      ((kernel'.sets ptr).waitCount num zero).toNat = waiters n (update procs p state) ptr num zero)
    (hasleep : ∀ call op woken, state = .asleep call op woken → p < n ∧
      kernel.sema call.ix = some call.semaptr ∧ (kernel.sets call.semaptr).seq = call.seq ∧
      Stuck (kernel.sets call.semaptr) call.sops op) (hcopying : ∀ call, state = .copying call →
      kernel.sema call.ix = some call.semaptr →
      (kernel.sets call.semaptr).seq = call.seq) : WaitersOk n kernel' (update procs p state) := by
  constructor
  · rw [hsema]
    exact hok.slots
  · rw [hsema]
    exact hcounts
  · intro q call op woken hproc
    rw [hsema, (hsets _).1, Stuck, (hsets _).2]
    by_cases heq : q = p
    · rw [heq, update_self] at hproc
      obtain ⟨hp, hslot, hseq, hstuck⟩ := hasleep call op woken hproc
      exact ⟨heq ▸ hp, .inl ⟨hslot, hseq, fun _ => hstuck⟩⟩
    · rw [update_of_ne heq] at hproc
      exact hok.asleep q call op woken hproc
  · intro q call hproc
    rw [hsema, (hsets _).1]
    by_cases heq : q = p
    · rw [heq, update_self] at hproc
      exact hcopying call hproc
    · rw [update_of_ne heq] at hproc
      exact hok.copying q call hproc

omit hok in
theorem waiters_same {num : ℕ}
    (hsame : state.waitsFor ptr num zero = (procs p).waitsFor ptr num zero) :
    waiters n (update procs p state) ptr num zero = waiters n procs ptr num zero := by
  apply sum_congr rfl
  intro q _
  by_cases heq : q = p
  · rw [heq, update_self, hsame]
  · rw [update_of_ne heq]

theorem WaitersOk.set (hold : (procs p).Awake)
    (hstate : state = .idle ∨ ∃ call, state = .copying call ∧
      (kernel.sema call.ix = some call.semaptr → (kernel.sets call.semaptr).seq = call.seq)) :
    WaitersOk n kernel (update procs p state) := by
  apply hok.put rfl (fun _ => ⟨rfl, rfl⟩)
  · intro ix ptr hslot num zero
    rw [hok.counts ix ptr hslot, waiters_same]
    rw [hold]
    rcases hstate with rfl | ⟨call, rfl, _⟩ <;> rfl
  · rintro call op woken rfl
    simp at hstate
  · rintro call rfl
    simpa using hstate

variable {call : SemopCall} {op : Sembuf}

theorem WaitersOk.recount (delta : BitVec 16) (c d : ℕ) (hn : n < 65536) (hp : p < n)
    (hbefore : ∀ ptr num zero, (if (procs p).waitsFor ptr num zero then 1 else 0) =
      if (ProcState.asleep call op false).waitsFor ptr num zero then c else 0)
    (hafter : ∀ ptr num zero, (if state.waitsFor ptr num zero then 1 else 0) =
      if (ProcState.asleep call op false).waitsFor ptr num zero then d else 0)
    (hdelta : (delta.toNat + c) % 65536 = d)
    (hothers : ∀ ptr, ptr ≠ call.semaptr → kernel'.sets ptr = kernel.sets ptr)
    (hcounts : ∀ num zero, (kernel'.sets call.semaptr).waitCount num zero =
      (kernel.sets call.semaptr).waitCount num zero +
        if num = op.semNum.toNat ∧ zero = op.awaitsZero then delta else 0)
    (ix : ℕ) (ptr : SetPtr) (hix : kernel.sema ix = some ptr) (num : ℕ) (zero : Bool) :
    ((kernel'.sets ptr).waitCount num zero).toNat =
      waiters n (update procs p state) ptr num zero := by
  have hcount := hok.counts ix ptr hix num zero
  have hupdate := waiters_update procs state hp ptr num zero
  have hle := waiters_le n (update procs p state) ptr num zero
  rw [hbefore, hafter] at hupdate
  by_cases heq : ptr = call.semaptr
  · subst heq
    have hmine : (ProcState.asleep call op false).waitsFor call.semaptr num zero =
        decide (num = op.semNum.toNat ∧ zero = op.awaitsZero) := by
      simp [ProcState.waitsFor, eq_comm]
    rw [hmine] at hupdate
    rw [hcounts]
    by_cases hthis : num = op.semNum.toNat ∧ zero = op.awaitsZero
    · simp only [hthis, and_self, decide_true, if_true] at hupdate hcount hle ⊢
      rw [BitVec.toNat_add]
      omega
    · simp only [hthis, decide_false, Bool.false_eq_true, if_false, add_zero] at hupdate ⊢
      rw [hupdate]
      simpa using hcount
  · simp only [ProcState.waitsFor, Ne.symm heq, decide_false, Bool.false_and,
      Bool.false_eq_true, if_false, add_zero] at hupdate
    rw [hothers ptr heq, hcount, hupdate]

end

section

variable (hok : WaitersOk n kernel procs)
include hok

theorem WaitersOk.sleep (hn : n < 65536) (hp : p < n) (hold : (procs p).Awake)
    (hslot : kernel.sema call.ix = some call.semaptr)
    (hseq : (kernel.sets call.semaptr).seq = call.seq) (hsema : kernel'.sema = kernel.sema)
    (hothers : ∀ ptr, ptr ≠ call.semaptr → kernel'.sets ptr = kernel.sets ptr)
    (hseq' : (kernel'.sets call.semaptr).seq = (kernel.sets call.semaptr).seq)
    (hvals : (kernel'.sets call.semaptr).vals = (kernel.sets call.semaptr).vals)
    (hcounts : ∀ num zero, (kernel'.sets call.semaptr).waitCount num zero =
      (kernel.sets call.semaptr).waitCount num zero +
        if num = op.semNum.toNat ∧ zero = op.awaitsZero then 1 else 0)
    (hstuck : Stuck (kernel'.sets call.semaptr) call.sops op) :
    WaitersOk n kernel' (update procs p (.asleep call op false)) := by
  apply hok.put hsema
  · intro ptr
    by_cases heq : ptr = call.semaptr
    · rw [heq]
      exact ⟨hseq', hvals⟩
    · rw [hothers ptr heq]
      exact ⟨rfl, rfl⟩
  · apply hok.recount 1 0 1 hn hp _ (fun _ _ _ => rfl) rfl hothers hcounts
    intro ptr num zero
    simp [hold ptr num zero]
  · intro call' op' woken hstate
    cases hstate
    exact ⟨hp, hslot, hseq, hstuck.of_vals hvals.symm⟩
  · intro call' hstate
    cases hstate

theorem WaitersOk.rise (hn : n < 65536) (hproc : procs p = .asleep call op woken) :
    WaitersOk n (kernel.uncounted call op) (update procs p .idle) := by
  have hself : (kernel.uncounted call op).sets call.semaptr =
      (kernel.sets call.semaptr).countWaiter op (-1) := update_self _ _ _
  have hothers : ∀ ptr, ptr ≠ call.semaptr →
      (kernel.uncounted call op).sets ptr = kernel.sets ptr := fun ptr hne => update_of_ne hne _ _
  refine hok.put rfl ?_ ?_ ?_ ?_
  · intro ptr
    by_cases heq : ptr = call.semaptr
    · rw [heq, hself]
      exact ⟨rfl, countWaiter_vals _ _ _⟩
    · rw [hothers ptr heq]
      exact ⟨rfl, rfl⟩
  · apply hok.recount (-1) 1 0 hn (hok.asleep p call op woken hproc).1 _ _ rfl hothers
    · rw [hself]
      exact countWaiter_waitCount _ _ _
    · rw [hproc]
      exact fun _ _ _ => rfl
    · simp [ProcState.waitsFor]
  · intro call' op' woken' hstate
    cases hstate
  · intro call' hstate
    cases hstate

theorem WaitersOk.leave (hproc : procs p = .asleep call op woken)
    (hslot : kernel.sema call.ix = none) : WaitersOk n kernel (update procs p .idle) := by
  have hgone : ∀ ix, kernel.sema ix ≠ some call.semaptr := by
    rcases (hok.asleep p call op woken hproc).2 with ⟨hfound, _, _⟩ | ⟨_, _, hgone⟩
    · rw [hslot] at hfound
      cases hfound
    · exact hgone
  apply hok.put rfl (fun _ => ⟨rfl, rfl⟩)
  · intro ix ptr hix num zero
    have hne : call.semaptr ≠ ptr := by
      rintro rfl
      exact hgone ix hix
    rw [hok.counts ix ptr hix, waiters_same]
    simp [hproc, ProcState.waitsFor, hne]
  · intro call' op' woken' hstate
    cases hstate
  · intro call' hstate
    cases hstate

end

variable {system : System}

theorem WaitersOk.turn {segment : Segment} (hok : WaitersOk n kernel procs) (hn : n < 65536)
    (hp : p < n) (hold : (procs p).Awake) (hslot : kernel.sema call.ix = some call.semaptr)
    (hseq : (kernel.sets call.semaptr).seq = call.seq) (hturn : TurnOk kernel call segment)
    (hprocs : ∀ q, q ≠ p → system.procs q = procs q) (running : Running) :
    WaitersOk n segment.kernel (system.afterSegment p running segment).procs := by
  have hswap : ∀ slots state,
      update (wakeProcs slots system.procs) p state = update (wakeProcs slots procs) p state := by
    intro slots state
    funext q
    by_cases heq : q = p
    · rw [heq, update_self, update_self]
    · rw [update_of_ne heq, update_of_ne heq, wakeProcs, wakeProcs, hprocs q heq]
  have hends := hturn.ends
  have hwaits : ∀ slots, (wakeProcs slots procs p).Awake := by
    intro slots ptr num zero
    rw [← hold ptr num zero, wakeProcs_apply]
    cases procs p <;> rfl
  unfold TurnEnds at hends
  unfold afterSegment
  split at hends
  · rename_i error houtcome
    rw [houtcome]
    obtain ⟨hsame, hwakeup⟩ := hends
    have hchanged : WaitersOk n segment.kernel (wakeProcs segment.wakeup.toList procs) := by
      apply hok.change _ _ hturn.sema
      intro ix ptr hix
      by_cases heq : ptr = call.semaptr
      · rw [heq] at hix ⊢
        refine ⟨hsame, ?_⟩
        rcases hwakeup with hwakeup | ⟨_, hquiet⟩
        · rw [hwakeup, hok.slots _ _ _ hix hslot]
          exact .inl (by simp)
        · exact .inr hquiet
      · rw [hturn.others ptr heq]
        exact ⟨refl _, .inr (quiet_of_same rfl)⟩
    have hset := hchanged.set (hwaits _) (.inl rfl)
    rw [← hswap] at hset
    exact hset
  · rename_i call' op houtcome
    rw [houtcome]
    obtain ⟨hcall, hseq', hvals, hcounts, hwakeup, hstuck⟩ := hends
    generalize call'.undos = undos at hcall
    subst hcall
    have hsleep : WaitersOk n segment.kernel
        (update procs p (.asleep { call with undos } op false)) :=
      hok.sleep hn hp hold hslot hseq hturn.sema hturn.others hseq' hvals hcounts hstuck
    have hnil : wakeProcs [] procs = procs := rfl
    rw [← hnil, ← hswap] at hsleep
    rw [hwakeup]
    exact hsleep
  · exact hends.elim

end WaitersOk

/-! ## The other system calls -/

theorem setSet_sets_self (kernel : Kernel) (ptr : SetPtr) (set : SemidDs) :
    (kernel.setSet ptr set).sets ptr = set := update_self _ _ _

variable {kernel : Kernel}

theorem setSet_sets_of_ne {other : SetPtr} {set : SemidDs} (hne : other ≠ ptr) :
    (kernel.setSet ptr set).sets other = kernel.sets other := update_of_ne hne _ _

theorem exitEntries_sets {entries : List Undo} {after : Kernel} {slots' : List ℕ}
    (hinj : ∀ ix ix' ptr, kernel.sema ix = some ptr → kernel.sema ix' = some ptr → ix = ix')
    (hexit : exitEntries entries kernel slots = some (after, slots')) :
    after.sema = kernel.sema ∧ (∀ ix ∈ slots, ix ∈ slots') ∧ ∀ ix ptr, kernel.sema ix = some ptr →
        SameCounts (kernel.sets ptr) (after.sets ptr) ∧
          (ix ∈ slots' ∨ after.sets ptr = kernel.sets ptr) := by
  induction entries generalizing kernel slots with rw [exitEntries] at hexit
  | nil =>
    cases hexit
    exact ⟨rfl, fun _ => id, fun _ _ _ => ⟨refl _, .inr rfl⟩⟩
  | cons entry entries ih =>
    split at hexit
    · cases hexit
    · rename_i ptr hslot
      dsimp only at hexit
      split_ifs at hexit
      obtain ⟨hsema, hkept, hsets⟩ := ih (by exact hinj) hexit
      refine ⟨hsema, fun ix hix => hkept ix (by simp [hix]), ?_⟩
      intro ix ptr' hix
      obtain ⟨hcounts, hcase⟩ := hsets ix ptr' hix
      by_cases heq : ptr' = ptr
      · subst heq
        have hmem : ix ∈ slots' := by
          rw [hinj _ _ _ hix hslot]
          exact hkept _ (by simp)
        refine ⟨?_, .inl hmem⟩
        rw [setSet_sets_self] at hcounts
        refine trans (modifySem_sameCounts ?_ ?_) hcounts <;>
          split_ifs <;> rfl
      · rw [setSet_sets_of_ne heq] at hcounts hcase
        exact ⟨hcounts, hcase⟩

structure SleepersOk (n : ℕ) (system : System) : Prop where
  waiters : WaitersOk n system.kernel system.procs
  noMemory : ∀ p wait, system.procs p ≠ .awaitsMemory wait

variable {system : System}

theorem SleepersOk.semctl {n : ℕ} (semid : BitVec 32)
    (cmd : SemctlCmd) (hok : SleepersOk n system) :
    WaitersOk n (semctl1 system.kernel semid cmd).kernel
      (wakeProcs (semctl1 system.kernel semid cmd).wakeup.toList system.procs) := by
  have hsame : WaitersOk n system.kernel (wakeProcs [] system.procs) := hok.waiters
  unfold semctl1
  dsimp only
  split
  · exact hsame
  · split
    · exact hsame
    · rename_i ptr hslot
      have hset : ∀ (set : SemidDs) (table : UndoTable), SameCounts (system.kernel.sets ptr) set →
          WaitersOk n ((system.kernel.setSet ptr set).setTable table)
            (wakeProcs [ipcidToIx semid] system.procs) := by
        intro set table hcounts
        apply hok.waiters.change ((system.kernel.setSet ptr set).setTable table)
          [ipcidToIx semid] rfl
        intro ix ptr' hix
        by_cases heq : ptr' = ptr
        · subst heq
          rw [hok.waiters.slots _ _ _ hix hslot]
          refine ⟨?_, .inl (by simp)⟩
          simpa [Kernel.setTable, Kernel.setSet] using hcounts
        · have hother : ((system.kernel.setSet ptr set).setTable table).sets
              ptr' = system.kernel.sets ptr' := update_of_ne heq _ _
          rw [hother]
          exact ⟨refl _, .inr (quiet_of_same rfl)⟩
      split
      · exact hsame
      · cases cmd with
        | ipcRmid => exact hok.waiters.remove rfl rfl
        | setVal semnum val =>
          dsimp only
          split_ifs
          · exact hsame
          · exact hset _ _ (modifySem_sameCounts rfl rfl)
        | setAll values =>
          apply hset
          refine ⟨rfl, fun num zero => ?_⟩
          unfold SemidDs.waitCount
          dsimp only
          split_ifs with hzero hin
          · split <;> rfl
          · rfl
          · split <;> rfl
          · rfl

theorem SleepersOk.exit {n : ℕ} {after : Kernel} (hok : SleepersOk n system)
    (hexit : semexit system.kernel p = some (after, slots)) :
    WaitersOk n after (wakeProcs slots system.procs) := by
  unfold semexit at hexit
  split at hexit
  · cases hexit
    exact hok.waiters
  · obtain ⟨⟨kernel, slots'⟩, hentries, heq⟩ := Option.map_eq_some_iff.mp hexit
    cases heq
    obtain ⟨hsema, _, hsets⟩ := exitEntries_sets hok.waiters.slots hentries
    refine hok.waiters.change _ _ (by exact hsema) ?_
    intro ix ptr hix
    obtain ⟨hcounts, hcase⟩ := hsets ix ptr hix
    refine ⟨hcounts, ?_⟩
    rcases hcase with hmem | hsame
    · exact .inl hmem
    · refine .inr (quiet_of_same ?_)
      rw [Kernel.setTable, hsame]

/-! ## Runs -/

/-- The condition on the segments of calls, with fewer than `n` processes and no
new sets. -/
def WakeupGuard (n : ℕ) (system : System) : Event → Prop
  | .copied p _ pool => p < n ∧ ∀ call, system.procs p = .copying call →
      system.kernel.sema call.ix = some call.semaptr ∧ TurnGuard system.kernel pool p call
  | .wake p _ pool => ∀ call op woken, system.procs p = .asleep call op woken →
      TurnGuard (system.kernel.uncounted call op) pool p call
  | .semget _ _ => False
  | _ => True

variable {running : Running}

theorem afterSegment_noMemory
    {segment : Segment} (hok : ∀ q wait, system.procs q ≠ .awaitsMemory wait)
    (houtcome : ∀ wait, segment.outcome ≠ .awaitsMemory wait) :
    ∀ q wait, (system.afterSegment p running segment).procs q ≠ .awaitsMemory wait := by
  intro q wait
  have hwoken : wakeProcs segment.wakeup.toList system.procs q ≠ .awaitsMemory wait := by
    exact fun hproc => hok q wait (of_wakeProcs (by simp) hproc)
  have hupdate : ∀ state, state ≠ .awaitsMemory wait →
      update (wakeProcs segment.wakeup.toList system.procs) p state q ≠ .awaitsMemory wait := by
    intro state hstate
    by_cases heq : q = p
    · rw [heq, update_self]
      exact hstate
    · rw [update_of_ne heq]
      exact hwoken
  unfold afterSegment
  split
  · exact hupdate _ (by simp)
  · exact hupdate _ (by simp)
  · exact hupdate _ (by simp)
  · exact absurd ‹_› (houtcome _)
  · exact hwoken
  · exact hwoken

theorem afterSegment_kernel (system : System) (p : Proc) (running : Running) (segment : Segment) :
    (system.afterSegment p running segment).kernel = segment.kernel := by
  unfold afterSegment
  split <;> rfl

variable {call : SemopCall}

theorem TurnOk.noMemory {segment : Segment} (hturn : TurnOk kernel call segment) :
    ∀ wait, segment.outcome ≠ .awaitsMemory wait := by
  intro wait houtcome
  have hends := hturn.ends
  rw [TurnEnds, houtcome] at hends
  exact hends

theorem sysSemop_cases (kernel : Kernel) (args : SemopArgs) :
    (∃ error, sysSemop kernel args = ⟨kernel, .returns error, none⟩) ∨
    ∃ call, sysSemop kernel args = ⟨kernel, .copiesIn call, none⟩ ∧
      (kernel.sets call.semaptr).seq = call.seq := by
  unfold sysSemop
  dsimp only
  split
  · exact .inl ⟨_, rfl⟩
  · split
    · exact .inl ⟨_, rfl⟩
    · split_ifs with hseq
      · exact .inl ⟨_, rfl⟩
      · exact .inl ⟨_, rfl⟩
      · exact .inl ⟨_, rfl⟩
      · exact .inl ⟨_, rfl⟩
      · exact .inr ⟨_, rfl, not_not.mp hseq⟩

section Step

variable {n : ℕ} {before after : System}

section

variable (hok : SleepersOk n before)
include hok

theorem SleepersOk.semop {args : SemopArgs} (hidle : before.procs p = .idle) :
    SleepersOk n (before.afterSegment p ⟨args, []⟩ (sysSemop before.kernel args)) := by
  have hwaits : (before.procs p).Awake := by
    rw [hidle]
    exact fun _ _ _ => rfl
  rcases sysSemop_cases before.kernel args with ⟨error, heq⟩ | ⟨call, heq, hseq⟩
  · rw [heq]
    exact ⟨hok.waiters.set hwaits (.inl rfl), afterSegment_noMemory hok.noMemory (by simp)⟩
  · rw [heq]
    exact ⟨hok.waiters.set hwaits (.inr ⟨call, rfl, fun _ => hseq⟩),
      afterSegment_noMemory hok.noMemory (by simp)⟩

theorem SleepersOk.copied {pool : Option SemuPtr} (copied : Bool)
    (hn : n < 65536) (hp : p < n) (hproc : before.procs p = .copying call)
    (hslot : before.kernel.sema call.ix = some call.semaptr)
    (hguard : TurnGuard before.kernel pool p call) :
    SleepersOk n (before.afterSegment p running
      (semopCopied before.kernel pool p call copied)) := by
  have hwaits : (before.procs p).Awake := by
    rw [hproc]
    exact fun _ _ _ => rfl
  rw [semopCopied, if_pos (Or.inl hslot)]
  split_ifs
  · exact ⟨hok.waiters.set hwaits (.inl rfl), afterSegment_noMemory hok.noMemory (by simp)⟩
  · have hturn := semopTurn_turnOk hguard
    have hseq := hok.waiters.copying p call hproc hslot
    refine ⟨?_, afterSegment_noMemory hok.noMemory hturn.noMemory⟩
    rw [afterSegment_kernel]
    exact hok.waiters.turn hn hp hwaits hslot hseq hturn (fun _ _ => rfl) running

variable {op : Sembuf}

theorem SleepersOk.wake {pool : Option SemuPtr} (signalled : Bool)
    (hn : n < 65536) (hproc : before.procs p = .asleep call op woken)
    (hguard : TurnGuard (before.kernel.uncounted call op) pool p call) :
    SleepersOk n (before.afterSegment p running
      (semopWoken before.kernel pool p call op signalled)) := by
  obtain ⟨hp, hcase⟩ := hok.waiters.asleep p call op woken hproc
  unfold semopWoken
  rcases hcase with ⟨hslot, hseq, _⟩ | ⟨hslot, _, _⟩
  · have hrisen := hok.waiters.rise hn hproc
    have hidle : (update before.procs p .idle p).Awake := by
      rw [update_self]
      exact fun _ _ _ => rfl
    have hothers : ∀ q, q ≠ p → before.procs q = (update before.procs p .idle) q :=
      fun q hne => (update_of_ne hne _ _).symm
    rw [hslot]
    dsimp only
    rw [if_pos (.inl rfl), if_neg (not_not.mpr hseq)]
    split_ifs
    · exact ⟨hrisen, afterSegment_noMemory hok.noMemory (by simp)⟩
    · have hturn := semopTurn_turnOk hguard
      have hseq' : ((before.kernel.uncounted call op).sets call.semaptr).seq = call.seq := by
        rw [← hseq, Kernel.uncounted, setSet_sets_self]
        rfl
      refine ⟨?_, afterSegment_noMemory hok.noMemory hturn.noMemory⟩
      rw [afterSegment_kernel]
      exact hrisen.turn hn hp hidle hslot hseq' hturn hothers running
  · rw [hslot]
    exact ⟨hok.waiters.leave hproc hslot, afterSegment_noMemory hok.noMemory (by simp)⟩

theorem SleepersOk.wakeAll (hafter : WaitersOk n kernel (wakeProcs slots before.procs)) :
    SleepersOk n ({ before with kernel := kernel }.wakeAll slots) := by
  refine ⟨hafter, fun q wait hproc => ?_⟩
  exact hok.noMemory q wait (of_wakeProcs (by simp) hproc)

theorem SleepersOk.step {event : Event} (hn : n < 65536) (hguard : WakeupGuard n before event)
    (hstep : before.step event = some after) : SleepersOk n after := by
  cases (System.steps_of_step hstep).2 with
  | semop _ hidle => exact hok.semop hidle
  | @copied _ _ call _ copied hproc =>
    obtain ⟨hslot, hturn⟩ := hguard.2 call hproc
    exact hok.copied copied hn hguard.1 hproc hslot hturn
  | @wake _ _ call op woken _ signalled hproc =>
    exact hok.wake signalled hn hproc (hguard call op woken hproc)
  | memory hproc => exact absurd hproc (hok.noMemory _ _)
  | semctl semid cmd => exact hok.wakeAll (hok.semctl semid cmd)
  | semget => exact hguard.elim
  | panic => exact ⟨hok.waiters, hok.noMemory⟩
  | exit hexit => exact hok.wakeAll (hok.exit hexit)

end

end Step

theorem takeBoth_turnGuard :
    TurnGuard (handedOver 1).kernel (some 5) 1
      { ix := 0, seq := 1, semaptr := 7, sops := takeBoth.sops } := by
  refine ⟨callGuard_of_inRange (by decide) trivial, ?_, ?_⟩
  · exact ⟨fun h => absurd h (by decide), fun _ =>
      ⟨fun h => absurd h (by decide), fun _ => trivial⟩⟩
  · intro before op rest hsplit hzero
    have hmem : op ∈ takeBoth.sops := by
      have hsops : takeBoth.sops = before ++ op :: rest := hsplit
      simp [hsops]
    have hnone : ∀ op ∈ takeBoth.sops, op.semOp ≠ 0 := by decide
    exact absurd hzero (hnone op hmem)

theorem pairStart_sema {ix : ℕ} (hne : ix ≠ 0) : pairStart.kernel.sema ix = none := by
  rw [show pairStart.kernel.sema = update (fun _ => none) 0 (some 7) from rfl, update_of_ne hne]

def singleStart (semval : BitVec 16) : System :=
  { kernel := oneSet 1 (fun _ => semval) {} 30 }

def afterCalls (start : System) (first second : List Sembuf) : System :=
  Run.execD step (fun _ _ => True) start
    [.semop 1 ⟨oneSetId, first, true⟩, .copied 1 true none,
      .semop 2 ⟨oneSetId, second, true⟩, .copied 2 true none]

def Overslept (system : System) : Prop :=
  ∃ call op, system.procs 1 = .asleep call op false ∧
    system.kernel.sema call.ix = some call.semaptr ∧
    (tryOps [] call.sops
      { set := system.kernel.sets call.semaptr, undos := call.undos }).2 = .through

end AerieKernel.Semaphore
