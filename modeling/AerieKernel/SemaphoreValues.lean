import AerieKernel.SemaphoreUndo

/-!
# The values of semaphores as integers

An integer beside each value: `SETVAL` and `SETALL` set it, the operations of a call
that succeeds are added to it, and so are the adjustments of `semexit`, down to zero.
Nothing compares a value with `semvmx`; the values are these integers as long as none
of them is raised above it.
-/

namespace AerieKernel.Semaphore

open Ledger Function

/-- `SEMVMX` -/
def semvmx : ℤ := 32767

abbrev Values := SetPtr → ℕ → ℤ

def callValues (before after : System) (p : Proc) (values : Values) : Values :=
  match (before.procs p).call.bind fun call => (before.kernel.sema call.ix).map (·, call) with
  | none => values
  | some (ptr, call) =>
    if succeeds before after then
      update values ptr (postAll (values ptr)
        (call.sops.map fun op => (op.semNum.toNat, op.semOp.toInt)))
    else values

def setValues (kernel : Kernel) (semid : BitVec 32) (cmd : SemctlCmd) (values : Values) : Values :=
  match clears kernel semid cmd, kernel.sema (ipcidToIx semid), cmd with
  | some _, some ptr, .setVal semnum val =>
    update values ptr (update (values ptr) semnum.toNat val)
  | some _, some ptr, .setAll vals => update values ptr fun num =>
    if num < (kernel.sets ptr).nsems then
      (vals[num]?.map fun val => (val.toNat : ℤ)).getD (values ptr num)
    else values ptr num
  | _, _, _ => values

def exitValues (sema : ℕ → Option SetPtr) (values : Values) (entry : Undo) : Values :=
  match sema entry.id with
  | none => values
  | some ptr =>
    let num := entry.num.toInt.toNat
    update values ptr (update (values ptr) num (max 0 (values ptr num + entry.adjval.toInt)))

def valuesAfter (before after : System) (values : Values) : Event → Values
  | .copied p _ _ => callValues before after p values
  | .wake p _ _ => callValues before after p values
  | .semctl semid cmd => setValues before.kernel semid cmd values
  | .exit p =>
    match before.kernel.table.semuList.find? (·.proc = p), semexit before.kernel p with
    | some su, some _ => su.ent.foldl (exitValues before.kernel.sema) values
    | _, _ => values
  | .semget ptr nsems =>
    if (sysSemget before.kernel ptr nsems).outcome = .returns none then update values ptr 0
    else values
  | _ => values

structure Valued where
  system : System
  values : Values

def Valued.step (valued : Valued) (event : Event) : Option Valued :=
  (valued.system.step event).map fun after =>
    ⟨after, valuesAfter valued.system after valued.values event⟩

/-! ## What nothing checks -/

/-- No operation that can be done raises a value above `semvmx`. -/
def Rises : SemidDs → List Sembuf → Prop
  | _, [] => True
  | set, op :: rest => OpPasses set op →
    (set.vals op.semNum.toNat).toNat + op.semOp.toInt ≤ semvmx ∧ Rises (set.addVal op) rest

def ExitRises (sema : ℕ → Option SetPtr) : Values → List Undo → Prop
  | _, [] => True
  | values, entry :: rest =>
    (∀ ptr, sema entry.id = some ptr →
      values ptr entry.num.toInt.toNat + entry.adjval.toInt ≤ semvmx) ∧
    ExitRises sema (exitValues sema values entry) rest

/-- No value is set or raised above `semvmx`. -/
def RaiseGuard (valued : Valued) : Event → Prop
  | .copied p _ _ => ∀ call, valued.system.procs p = .copying call →
      Rises (valued.system.kernel.sets call.semaptr) call.sops
  | .wake p _ _ => ∀ call op woken, valued.system.procs p = .asleep call op woken →
      Rises ((valued.system.kernel.uncounted call op).sets call.semaptr) call.sops
  | .semctl _ (.setVal _ val) => 0 ≤ val ∧ val ≤ semvmx
  | .semctl _ (.setAll vals) => ∀ val ∈ vals, (val.toNat : ℤ) ≤ semvmx
  | .exit p => ∀ su ∈ valued.system.kernel.table.semuList.find? (·.proc = p),
      ExitRises valued.system.kernel.sema valued.values su.ent
  | _ => True

def Counts (vals : ℕ → BitVec 16) (ints : ℕ → ℤ) : Prop :=
  ∀ num, ((vals num).toNat : ℤ) = ints num ∧ ints num ≤ semvmx

def Kernel.Counts (kernel : Kernel) (values : Values) : Prop :=
  ∀ ptr, Semaphore.Counts (kernel.sets ptr).vals (values ptr)

variable {kernel : Kernel} {values : Values} {set : SemidDs} {vals : ℕ → BitVec 16}
  {ints : ℕ → ℤ} {val : BitVec 16} {num : ℕ} {z : ℤ} {ptr : SetPtr}

theorem Counts.update (hcounts : Counts vals ints) (heq : (val.toNat : ℤ) = z)
    (hle : z ≤ semvmx) : Counts (update vals num val) (update ints num z) := by
  intro other
  by_cases hother : other = num
  · subst hother
    simp [heq, hle]
  · simpa [update_of_ne hother] using hcounts other

theorem toNat_add_toInt {adj : BitVec 16} (hlow : 0 ≤ (val.toNat : ℤ) + adj.toInt)
    (hhigh : (val.toNat : ℤ) + adj.toInt ≤ semvmx) :
    ((val + adj).toNat : ℤ) = val.toNat + adj.toInt := by
  rw [BitVec.toInt_eq_toNat_cond, semvmx] at *
  rw [BitVec.toNat_add]
  split_ifs at * <;> omega

theorem Counts.passes {ops : List Sembuf} (hcounts : Counts set.vals ints)
    (hpasses : Passes set ops) (hrises : Rises set ops) :
    Counts (ops.foldl SemidDs.addVal set).vals
      (postAll ints (ops.map fun op => (op.semNum.toNat, op.semOp.toInt))) := by
  induction ops generalizing set ints with
  | nil => exact hcounts
  | cons op ops ih =>
    obtain ⟨hle, hrest⟩ := hrises hpasses.1
    have hval := (hcounts op.semNum.toNat).1
    have hlow : 0 ≤ (set.vals op.semNum.toNat).toNat + op.semOp.toInt := by
      by_cases hneg : op.semOp.toInt < 0
      · exact hpasses.1.2.1 hneg
      · omega
    refine ih ?_ hpasses.2 hrest
    rw [addVal_vals]
    exact hcounts.update (hval ▸ toNat_add_toInt hlow hle) (hval ▸ hle)

theorem Kernel.Counts.setSet (hcounts : kernel.Counts values)
    (hset : Semaphore.Counts set.vals ints) :
    (kernel.setSet ptr set).Counts (Function.update values ptr ints) := by
  intro other
  by_cases hother : other = ptr
  · subst hother
    simpa [Kernel.setSet] using hset
  · simpa [Kernel.setSet, update_of_ne hother] using hcounts other

variable {pool : Option SemuPtr} {p : Proc} {call : SemopCall} {system : System}

theorem passes_of_returns (hreturns : (semopTurn kernel pool p call).outcome = .returns none) :
    Passes (kernel.sets call.semaptr) call.sops := by
  rw [semopTurn] at hreturns
  generalize htry : tryOps [] call.sops _ = result at hreturns
  obtain ⟨attempt, _ | ⟨op, before⟩ | _⟩ := result
  · exact tryOps_through_iff.mp (congrArg Prod.snd htry)
  · dsimp only at hreturns
    split_ifs at hreturns
    cases hreturns
  · cases hreturns

theorem SegmentOk.counts {segment : Segment} (running : Running)
    (hok : SegmentOk p call.ix call.sops system.kernel segment)
    (hcounts : system.kernel.Counts values) (hcall : (system.procs p).call = some call)
    (hpasses : segment.outcome = .returns none → ∀ ptr, system.kernel.sema call.ix = some ptr →
      ∃ set : SemidDs, set.vals = (system.kernel.sets ptr).vals ∧ Passes set call.sops ∧
        Rises set call.sops) :
    (system.afterSegment p running segment).kernel.Counts
      (callValues system (system.afterSegment p running segment) p values) := by
  have hplain : segment.outcome.Plain := by
    unfold SegmentOk at hok
    split at hok <;> simp_all [Outcome.Plain]
  have hsucceeds := (afterSegment_plain system p running hplain).2
  rw [afterSegment_kernel, callValues, hcall, Option.bind_some]
  by_cases hreturns : segment.outcome = .returns none
  · have happlies : AppliesVector p call.ix call.sops system.kernel segment.kernel := by
      rwa [SegmentOk, hreturns] at hok
    obtain ⟨⟨ptr, hslot, hvals⟩, hothers, -⟩ := happlies
    obtain ⟨set, hset, hpasses, hrises⟩ := hpasses hreturns ptr hslot
    have hdone := Counts.passes (hset ▸ hcounts ptr) hpasses hrises
    rw [hslot, Option.map_some]
    dsimp only
    rw [if_pos (hsucceeds.mpr hreturns)]
    intro other
    by_cases hother : other = ptr
    · subst hother
      have hvals' : (segment.kernel.sets other).vals =
          (call.sops.foldl SemidDs.addVal set).vals := by
        funext num
        rw [hvals, foldl_addVal_vals_apply, hset]
      rw [update_self, hvals']
      exact hdone
    · rw [update_of_ne hother, hothers other (by simp [hslot, Ne.symm hother])]
      exact hcounts other
  · have hnone : NoEffect system.kernel segment.kernel := by
      unfold SegmentOk at hok
      split at hok <;> simp_all
    split
    · exact fun ptr => hnone.vals ptr ▸ hcounts ptr
    · rw [if_neg (mt hsucceeds.mp hreturns)]
      exact fun ptr => hnone.vals ptr ▸ hcounts ptr

theorem semctl1_counts {semid : BitVec 32} {cmd : SemctlCmd} (hcounts : kernel.Counts values)
    (hguard : RaiseGuard ⟨system, values⟩ (.semctl semid cmd)) :
    (semctl1 kernel semid cmd).kernel.Counts (setValues kernel semid cmd values) := by
  unfold semctl1 setValues clears
  dsimp only
  split_ifs with hix
  · exact hcounts
  cases hslot : kernel.sema (ipcidToIx semid) with
  | none => exact hcounts
  | some ptr =>
    dsimp only
    split_ifs with hseq
    · exact hcounts
    cases cmd with
    | ipcRmid => exact hcounts
    | setVal semnum val =>
      dsimp only
      split_ifs
      · exact hcounts
      · refine hcounts.setSet ?_
        rw [modifySem_vals]
        refine (hcounts ptr).update ?_ hguard.2
        obtain ⟨hlow, hhigh⟩ := hguard
        rw [semvmx] at hhigh
        rw [BitVec.toNat_ofInt]
        omega
    | setAll vals =>
      refine hcounts.setSet fun num => ?_
      simp only [SemidDs.vals]
      split_ifs
      · cases hval : vals[num]? with
        | none => exact hcounts ptr num
        | some val => exact ⟨rfl, hguard val (List.mem_of_getElem? hval)⟩
      · exact hcounts ptr num

theorem sysSemget_cases (kernel : Kernel) (ptr : SetPtr) (nsems : ℕ) :
    (∃ error, sysSemget kernel ptr nsems = { kernel, outcome := .returns (some error) }) ∨
      ∃ seq, (sysSemget kernel ptr nsems).outcome = .returns none ∧
        (sysSemget kernel ptr nsems).kernel.sets =
          Function.update kernel.sets ptr ⟨seq, nsems, fun _ => {}⟩ := by
  unfold sysSemget
  dsimp only
  split_ifs
  · exact .inl ⟨_, rfl⟩
  · exact .inl ⟨_, rfl⟩
  · split
    · exact .inl ⟨_, rfl⟩
    · exact .inr ⟨_, rfl, rfl⟩

theorem sysSemget_counts {nsems : ℕ} (hcounts : kernel.Counts values) :
    (sysSemget kernel ptr nsems).kernel.Counts
      (if (sysSemget kernel ptr nsems).outcome = .returns none then Function.update values ptr 0
        else values) := by
  obtain ⟨error, hfails⟩ | ⟨seq, hmade, hsets⟩ := sysSemget_cases kernel ptr nsems
  · rw [hfails]
    exact hcounts
  · rw [if_pos hmade]
    intro other
    rw [hsets]
    by_cases hother : other = ptr
    · subst hother
      simp [SemidDs.vals, Semaphore.Counts, semvmx]
    · simpa [update_of_ne hother] using hcounts other

theorem exitEntries_counts {entries : List Undo} {slots slots' : List ℕ} {after : Kernel}
    (hcounts : kernel.Counts values) (hrises : ExitRises kernel.sema values entries)
    (hexit : exitEntries entries kernel slots = some (after, slots')) :
    after.Counts (entries.foldl (exitValues kernel.sema) values) := by
  induction entries generalizing kernel values slots with rw [exitEntries] at hexit
  | nil =>
    cases hexit
    exact hcounts
  | cons entry entries ih =>
    split at hexit
    · cases hexit
    · rename_i ptr hslot
      dsimp only at hexit
      split_ifs at hexit
      refine @ih (kernel.setSet ptr _) _ _ ?_ hrises.2 hexit
      rw [exitValues, hslot]
      refine hcounts.setSet ?_
      rw [modifySem_vals]
      obtain ⟨hval, hmax⟩ := hcounts ptr entry.num.toInt.toNat
      have hle := hrises.1 ptr hslot
      have hval' : ((((kernel.sets ptr).sem entry.num.toInt.toNat).semval).toNat : ℤ) =
        values ptr entry.num.toInt.toNat := hval
      refine (hcounts ptr).update ?_ (max_le (by decide) hle)
      split_ifs with hclamp
      · rw [max_eq_left (by omega)]
        rfl
      · rw [max_eq_right (by omega), ← hval']
        exact toNat_add_toInt (by omega) (by omega)

theorem Valued.step_counts {before after : Valued} {event : Event}
    (hok : SystemOk before.system ∧ before.system.kernel.Counts before.values)
    (hguard : SemopGuard before.system event ∧ RaiseGuard before event)
    (hstep : before.step event = some after) :
    SystemOk after.system ∧ after.system.kernel.Counts after.values := by
  obtain ⟨system, hsystem, rfl⟩ := Option.map_eq_some_iff.mp hstep
  obtain ⟨hok, hcounts⟩ := hok
  obtain ⟨hguard, hraise⟩ := hguard
  refine ⟨(hok.step hguard hsystem).1, ?_⟩
  cases (System.steps_of_step hsystem).2 with
  | semop args =>
    rw [afterSegment_kernel]
    obtain ⟨error, heq⟩ | ⟨call, heq, -⟩ := sysSemop_cases before.system.kernel args <;>
      rw [heq] <;> exact hcounts
  | @copied _ _ call running copied hproc =>
    obtain ⟨hslot, hcall⟩ := hguard call hproc
    refine (semopCopied_ok copied hslot hcall).counts running hcounts (by rw [hproc]; rfl) ?_
    intro hreturns ptr hptr
    cases hslot.symm.trans hptr
    rw [semopCopied, if_pos (Or.inl hslot)] at hreturns
    split_ifs at hreturns
    · cases hreturns
    exact ⟨_, rfl, passes_of_returns hreturns, hraise call hproc⟩
  | @wake _ _ call op woken running signalled hproc =>
    have hcall := hguard call op woken hproc
    refine (semopWoken_ok signalled hcall).counts running hcounts (by rw [hproc]; rfl) ?_
    intro hreturns ptr hptr
    obtain ⟨rfl, -⟩ := hcall ptr hptr
    rw [semopWoken, hptr] at hreturns
    dsimp only at hreturns
    rw [if_pos (Or.inl rfl)] at hreturns
    split_ifs at hreturns
    · cases hreturns
    · cases hreturns
    exact ⟨_, (uncounted_noEffect _ call op).vals _, passes_of_returns hreturns,
      hraise call op woken hproc⟩
  | @memory p _ _ _ _ hproc =>
    have hrecord := hok.procs p
    rw [hproc] at hrecord
    exact hrecord.elim
  | semctl => exact semctl1_counts hcounts hraise
  | semget => exact sysSemget_counts hcounts
  | @panic p hexit =>
    rw [valuesAfter]
    split <;> simp_all
  | @exit p _ _ hexit =>
    rw [valuesAfter, hexit]
    rw [semexit] at hexit
    cases hfind : before.system.kernel.table.semuList.find? (·.proc = p) with
      rw [hfind] at hexit
    | none =>
      cases hexit
      exact hcounts
    | some su =>
      obtain ⟨⟨kernel, slots⟩, hentries, heq⟩ := Option.map_eq_some_iff.mp hexit
      cases heq
      have hafter := exitEntries_counts hcounts (hraise su hfind) hentries
      exact hafter

/-- Under the conditions for atomic calls, while no value is set or raised above `semvmx`,
each value is the last value set plus the operations and adjustments since. -/
theorem values_are_integers {start valued : Valued} (hidle : ∀ p, start.system.procs p = .idle)
    (hfresh : start.system.finished = []) (hstart : start.system.kernel.Counts start.values)
    (hrun : Run.GuardedRun Valued.step
      (fun before event => SemopGuard before.system event ∧ RaiseGuard before event) start valued)
    (ptr : SetPtr) (num : ℕ) :
    (((valued.system.kernel.sets ptr).sem num).semval.toNat : ℤ) = valued.values ptr num ∧
      0 ≤ valued.values ptr num ∧ valued.values ptr num ≤ semvmx := by
  have hok : SystemOk valued.system ∧ valued.system.kernel.Counts valued.values := by
    apply hrun.invariant (P := fun valued =>
      SystemOk valued.system ∧ valued.system.kernel.Counts valued.values)
    · exact ⟨⟨fun p => by rw [hidle p]; trivial, by simp [hfresh]⟩, hstart⟩
    · exact fun _ _ _ => Valued.step_counts
  obtain ⟨heq, hle⟩ := hok.2 ptr num
  exact ⟨heq, by rw [← heq]; exact Int.natCast_nonneg _, hle⟩

def valueRun (events : List Event) : Valued :=
  Run.execD Valued.step (fun _ _ => True) ⟨singleStart 0, fun _ _ => 0⟩ events

def setAndTake : List Event :=
  .semctl oneSetId (.setVal 0 5) :: callSemop [{ semNum := 0, semOp := -2 }]

theorem values_are_integers_take :
    ((((valueRun setAndTake).system.kernel.sets 7).sem 0).semval.toNat : ℤ) = 3 ∧
      (0 : ℤ) ≤ 3 ∧ 3 ≤ semvmx := by
  have hset : Run.GuardedRun Valued.step
      (fun before event => SemopGuard before.system event ∧ RaiseGuard before event)
      ⟨singleStart 0, fun _ _ => 0⟩ (valueRun (setAndTake.take 2)) :=
    ((Run.GuardedRun.refl _ _ _).tail ⟨.semctl oneSetId (.setVal 0 5),
      ⟨trivial, ⟨by decide, by decide⟩⟩, rfl⟩).tail
      ⟨.semop 1 ⟨oneSetId, [{ semNum := 0, semOp := -2 }], true⟩, ⟨trivial, trivial⟩, rfl⟩
  have hzero : (0 : ℤ) ≤ semvmx := by decide
  refine values_are_integers (fun _ => rfl) rfl (fun _ _ => ⟨rfl, hzero⟩)
    (hset.tail ⟨.copied 1 true (some 4), ⟨fun call hcall => ?_, fun call hcall => ?_⟩, rfl⟩) 7 0
  · injection hcall with hcall
    subst hcall
    exact ⟨rfl, callGuard_of_inRange (by decide) trivial⟩
  · injection hcall with hcall
    subst hcall
    exact fun _ => ⟨by decide, trivial⟩

/-- Three operations of 32767 leave 32765, and `SETVAL` takes -1. -/
theorem values_wrap :
    (Run.Reaches Valued.step ⟨singleStart 0, fun _ _ => 0⟩
        (valueRun (callSemop (List.replicate 3 { semNum := 0, semOp := 32767 }))) ∧
      (((valueRun (callSemop (List.replicate 3 { semNum := 0, semOp := 32767 }))).system.kernel.sets
        7).sem 0).semval = 32765 ∧
      (valueRun (callSemop (List.replicate 3 { semNum := 0, semOp := 32767 }))).values 7 0 =
        98301) ∧
    Run.Reaches Valued.step ⟨singleStart 0, fun _ _ => 0⟩
        (valueRun [.semctl oneSetId (.setVal 0 (-1))]) ∧
      (((valueRun [.semctl oneSetId (.setVal 0 (-1))]).system.kernel.sets 7).sem 0).semval =
        65535 :=
  ⟨⟨Run.GuardedRun.of_execD (by decide), by decide, by decide⟩,
    Run.GuardedRun.of_execD (by decide), by decide⟩

end AerieKernel.Semaphore
