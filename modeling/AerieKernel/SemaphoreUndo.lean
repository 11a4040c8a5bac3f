import AerieKernel.SemaphoreLedger

/-!
# The bookkeeping of undo records

The system with a ledger beside it.  The records agree with the ledger as long as no
sum leaves the range of a `short`, no record is freed while a vector is still at
work, and `SETVAL` finds the entry it is to clear.
-/

namespace AerieKernel.Semaphore

/-! ## The system with its ledger -/

/-- What a process owes: minus the sum of its successful `SEM_UNDO` operations on a
semaphore since that was last cleared. -/
structure Audited where
  system : System
  owed : Proc → ℕ → ℕ → ℤ := fun _ _ _ => 0

def ProcState.call : ProcState → Option SemopCall
  | .idle => none
  | .copying call => some call
  | .asleep call _ _ => some call
  | .awaitsMemory wait => some wait.call

def succeeds (before after : System) : Bool :=
  match after.finished.drop before.finished.length with
  | [call] => call.error = none
  | _ => false

def owedAfterCall (before after : System) (p : Proc) (owed : Proc → ℕ → ℕ → ℤ) : Proc → ℕ → ℕ → ℤ :=
  match (before.procs p).call with
  | none => owed
  | some call =>
    if succeeds before after then settleCall owed p call.ix call.sops else owed

def owedAfter (before after : System) (event : Event)
    (owed : Proc → ℕ → ℕ → ℤ) : Proc → ℕ → ℕ → ℤ :=
  match event with
  | .semop _ _ => owed
  | .copied p _ _ => owedAfterCall before after p owed
  | .wake p _ _ => owedAfterCall before after p owed
  | .memory p _ _ => owedAfterCall before after p owed
  | .semctl semid cmd =>
    match clears before.kernel semid cmd with
    | none => owed
    | some (ix, num) => clearOwed owed ix num
  | .semget _ _ => owed
  | .exit p => Function.update owed p fun _ _ => 0

def Audited.step (audited : Audited) (event : Event) : Option Audited :=
  (audited.system.step event).map fun after =>
    ⟨after, owedAfter audited.system after event audited.owed⟩

/-- The condition on an event.  A call goes on with the set it began with, and its
undo requests can be served; `SETVAL` finds the entry it is to clear. -/
def UndoGuard (audited : Audited) : Event → Prop
  | .copied p _ pool => ∀ call, audited.system.procs p = .copying call →
      audited.system.kernel.sema call.ix = some call.semaptr ∧
        RecordGuard audited.system.kernel pool p call (audited.owed p)
  | .wake p _ pool => ∀ call op woken,
      audited.system.procs p = .asleep call op woken →
      ∀ slot, audited.system.kernel.sema call.ix = some slot →
        slot = call.semaptr ∧
          RecordGuard (audited.system.kernel.uncounted call op) pool p call (audited.owed p)
  | .semctl semid cmd => ∀ ix num,
      clears audited.system.kernel semid cmd = some (ix, some num) →
      ∀ su ∈ audited.system.kernel.table.semuList, ClearsFirst ix num su.ent
  | _ => True

structure AuditedOk (audited : Audited) : Prop where
  ledger : LedgerOk audited.system.kernel audited.owed
  slots : audited.system.kernel.SlotsOk
  noMemory : ∀ p wait, audited.system.procs p ≠ .awaitsMemory wait
  running : audited.system.stopped = false

theorem SameShape.slotsOk {before after : Kernel} (hshape : SameShape before after)
    (hslots : before.SlotsOk) : after.SlotsOk := by
  intro ix hix
  rw [hshape.sema]
  apply hslots
  rw [← hshape.info]
  exact hix

section Step

variable {audited : Audited}

theorem afterSegment_plain (system : System) (p : Proc) {segment : Segment}
    (running : Running) (hplain : segment.outcome.Plain) :
    (system.afterSegment p running segment).stopped = system.stopped ∧
      (succeeds system (system.afterSegment p running segment) = true ↔
        segment.outcome = .returns none) := by
  unfold System.afterSegment
  cases houtcome : segment.outcome with
  | returns error =>
    refine ⟨rfl, ?_⟩
    have hdrop : ∀ call : Finished,
        ((system.finished ++ [call]).drop system.finished.length) = [call] :=
      fun call => List.drop_left
    simp only [succeeds, System.wakeAll, hdrop, decide_eq_true_eq, Outcome.returns.injEq]
  | copiesIn call => exact ⟨rfl, by simp [succeeds, System.wakeAll]⟩
  | sleeps call op => exact ⟨rfl, by simp [succeeds, System.wakeAll]⟩
  | awaitsMemory wait =>
    rw [houtcome] at hplain
    exact hplain.elim
  | panics | undefined =>
    rw [houtcome] at hplain
    exact hplain.elim

theorem AuditedOk.afterSegment {p : Proc} {call : SemopCall} {segment : Segment} (running : Running)
    (hok : AuditedOk audited) (hcall : (audited.system.procs p).call = some call)
    (hsegment : SegmentKeeps p call.ix call.sops audited.owed audited.system.kernel segment) :
    AuditedOk ⟨audited.system.afterSegment p running segment, owedAfterCall audited.system
        (audited.system.afterSegment p running segment) p audited.owed⟩ := by
  obtain ⟨hstopped, hsucceeds⟩ := afterSegment_plain audited.system p running hsegment.plain
  have hkernel := afterSegment_kernel audited.system p running segment
  refine ⟨?_, ?_, ?_, hstopped.trans hok.running⟩
  · have hledger := hsegment.ledger
    rw [hkernel, owedAfterCall, hcall]
    simp only [hsucceeds]
    exact hledger
  · rw [hkernel]
    exact hsegment.shape.slotsOk hok.slots
  · apply afterSegment_noMemory hok.noMemory
    intro wait houtcome
    have hplain := hsegment.plain
    rw [houtcome] at hplain
    exact hplain

theorem wakeAll_noMemory {system : System} (slots : List ℕ)
    (hok : ∀ p wait, system.procs p ≠ .awaitsMemory wait) :
    ∀ p wait, (system.wakeAll slots).procs p ≠ .awaitsMemory wait := by
  intro p wait
  have hproc : (system.wakeAll slots).procs p = wakeProcs slots system.procs p := rfl
  rw [hproc, wakeProcs_apply]
  cases hold : system.procs p with
  | awaitsMemory other => exact absurd hold (hok p other)
  | _ => simp

theorem AuditedOk.semop {p : Proc} {args : SemopArgs} (hok : AuditedOk audited) :
    AuditedOk ⟨audited.system.afterSegment p ⟨args, []⟩
      (sysSemop audited.system.kernel args), audited.owed⟩ := by
  have hmemory : ∀ wait, (sysSemop audited.system.kernel args).outcome ≠ .awaitsMemory wait := by
    rcases sysSemop_cases audited.system.kernel args with
      ⟨error, heq⟩ | ⟨call, heq, _⟩ <;> simp [heq]
  have hprocs : ∀ q wait, (audited.system.afterSegment p ⟨args, []⟩
      (sysSemop audited.system.kernel args)).procs q ≠ .awaitsMemory wait :=
    afterSegment_noMemory hok.noMemory hmemory
  rcases sysSemop_cases audited.system.kernel args with
    ⟨error, heq⟩ | ⟨call, heq, _⟩ <;> rw [heq] at hprocs ⊢ <;>
    exact ⟨hok.ledger, hok.slots, hprocs, hok.running⟩

theorem AuditedOk.semctl {semid : BitVec 32} {cmd : SemctlCmd} (hok : AuditedOk audited)
    (hguard : UndoGuard audited (.semctl semid cmd)) (slots : List ℕ) (after : System) :
    AuditedOk ⟨{ audited.system with
        kernel := (semctl1 audited.system.kernel semid cmd).kernel }.wakeAll
          slots,
      owedAfter audited.system after (.semctl semid cmd) audited.owed⟩ := by
  rw [owedAfter]
  rcases semctl1_clears audited.system.kernel semid cmd with
    ⟨hnone, hkernel⟩ | ⟨ix, num, hclears, hslot⟩
  · rw [hnone, hkernel]
    exact ⟨hok.ledger, hok.slots, wakeAll_noMemory slots hok.noMemory, hok.running⟩
  · rw [hclears]
    refine ⟨hok.ledger.clear hslot ?_, ?_, wakeAll_noMemory slots hok.noMemory, hok.running⟩
    · intro su hsu n hn
      obtain rfl : num = some n := hn
      exact hguard ix n hclears su hsu
    · intro i hi
      have hinfo : audited.system.kernel.info.semmni ≤ i := by
        rw [← hslot.info]
        exact hi
      rcases hslot.sema i with hsame | ⟨_, _, hgone⟩
      · exact hsame.trans (hok.slots i hinfo)
      · exact hgone

theorem AuditedOk.step {after : Audited} {event : Event}
    (hok : AuditedOk audited) (hguard : UndoGuard audited event)
    (hstep : audited.step event = some after) : AuditedOk after := by
  obtain ⟨system, hsystem, rfl⟩ := Option.map_eq_some_iff.mp hstep
  cases (System.steps_of_step hsystem).2 with
  | semop => exact hok.semop
  | @copied _ _ call running copied hproc _ hpool =>
    obtain ⟨hslot, hrecord⟩ := hguard call hproc
    exact hok.afterSegment running (by rw [hproc]; rfl)
      (hok.ledger.semopCopied copied hpool hslot hrecord)
  | @wake _ _ call op woken running signalled hproc _ hpool =>
    exact hok.afterSegment running (by rw [hproc]; rfl)
      (hok.ledger.semopWoken signalled hpool (hguard call op woken hproc))
  | memory hproc => exact absurd hproc (hok.noMemory _ _)
  | semctl => exact hok.semctl hguard _ _
  | semget _ hlive =>
    obtain ⟨hledger, hslots⟩ := hok.ledger.semget hok.slots (by simpa using hlive)
    exact ⟨hledger, hslots, hok.noMemory, hok.running⟩
  | @panic p hpanic =>
    obtain ⟨kernel, woken, hexit, -⟩ := hok.ledger.semexit p
    cases hpanic.symm.trans hexit
  | @exit p _ woken hdone =>
    obtain ⟨kernel, woken, hexit, hshape, hledger⟩ := hok.ledger.semexit p
    cases hdone.symm.trans hexit
    exact ⟨hledger, hshape.slotsOk hok.slots, wakeAll_noMemory woken hok.noMemory, hok.running⟩

end Step

/-! ## The bookkeeping -/

structure RecordsOk (audited : Audited) : Prop where
  one : (audited.system.kernel.table.semuList.map SemUndo.proc).Nodup
  total : audited.system.kernel.table.semutot = audited.system.kernel.table.semuList.length
  nonempty : ∀ su ∈ audited.system.kernel.table.semuList, su.ent ≠ []
  distinct : ∀ su ∈ audited.system.kernel.table.semuList, (su.ent.map Undo.key).Nodup
  entries : ∀ su ∈ audited.system.kernel.table.semuList, ∀ entry ∈ su.ent,
    entry.adjval ≠ 0 ∧ 0 ≤ entry.num.toInt ∧
      audited.system.kernel.HasSem entry.id entry.num.toInt.toNat ∧
      entry.adjval.toInt = audited.owed su.proc entry.id entry.num.toInt.toNat
  missing : ∀ p ix num,
    (∀ su ∈ audited.system.kernel.table.semuList, su.proc = p →
      ∀ entry ∈ su.ent, entry.isFor ix num = false) → audited.owed p ix num = 0

def TurnPointers (kernel : Kernel) (pool : Option SemuPtr) (p : Proc) (call : SemopCall) : Prop :=
  ∀ attempt, tryOps [] call.sops
    { set := kernel.sets call.semaptr, undos := call.undos } = (attempt, .through) →
    attempt.undos = true →
    PointersListed kernel.info pool p call.ix call.sops none kernel.table

/-- In the next segment `sys_semop` hands on no pointer to a record that is not on
the list. -/
def EventPointers (system : System) : Event → Prop
  | .copied p _ pool => ∀ call, system.procs p = .copying call →
      system.kernel.poolOk pool = true → TurnPointers system.kernel pool p call
  | .wake p _ pool => ∀ call op woken, system.procs p = .asleep call op woken →
      ∀ slot, system.kernel.sema call.ix = some slot →
      system.kernel.poolOk pool = true → TurnPointers (system.kernel.uncounted call op) pool p call
  | _ => True

theorem LedgerOk.turnPointers {kernel : Kernel} {owed : Proc → ℕ → ℕ → ℤ} {pool : Option SemuPtr}
    {p : Proc} {call : SemopCall} (hok : LedgerOk kernel owed) (hpool : kernel.poolOk pool = true)
    (hguard : RecordGuard kernel pool p call (owed p)) :
    TurnPointers kernel pool p call := fun attempt hthrough hundos =>
  (hok.undoLoop hpool (hguard attempt hthrough hundos)).1

theorem AuditedOk.recordsOk {audited : Audited} (hok : AuditedOk audited) : RecordsOk audited where
  one := hok.ledger.table.procs
  total := hok.ledger.table.total
  nonempty := hok.ledger.table.nonempty
  distinct := fun su hsu => (hok.ledger.table.entries su hsu).distinct
  entries := fun su hsu entry hentry =>
    ⟨(hok.ledger.table.entries su hsu).nonzero entry hentry, hok.ledger.entry_valid hsu hentry⟩
  missing := by
    intro p ix num hmissing
    have hentries : ∀ entry ∈
        audited.system.kernel.table.entriesOf p, entry.isFor ix num = false := by
      intro entry hentry
      rw [UndoTable.entriesOf] at hentry
      cases hfind : audited.system.kernel.table.semuList.find? (·.proc = p) with
      | none =>
        rw [hfind] at hentry
        cases hentry
      | some su =>
        rw [hfind] at hentry
        have hproc : su.proc = p := by simpa using List.find?_some hfind
        exact hmissing su (List.mem_of_find?_eq_some hfind) hproc entry hentry
    have hzero := hok.ledger.ledger p ix num
    rw [UndoTable.adjustment, adjustmentIn_eq_zero hentries] at hzero
    rw [← toInt_ofInt_of_inShort (hok.ledger.range p ix num), ← hzero]
    rfl

/-- Over every run in which vectors with undo requests can be served and keep their
record, sums fit in a `short` and `SETVAL` finds its entry, the undo records are in
order and hold what the processes owe. -/
theorem undo_records_hold_what_is_owed {start : System} {audited : Audited}
    (hidle : ∀ p, start.procs p = .idle) (hrunning : start.stopped = false)
    (hslots : start.kernel.SlotsOk) (hempty : start.kernel.table = {})
    (hrun : Run.GuardedRun Audited.step UndoGuard ⟨start, fun _ _ _ => 0⟩ audited) :
    RecordsOk audited ∧ audited.system.stopped = false ∧
      ∀ event, UndoGuard audited event → EventPointers audited.system event := by
  have hok : AuditedOk audited := by
    apply hrun.invariant (P := AuditedOk)
    · refine ⟨⟨?_, ?_, ?_, ?_⟩, hslots, ?_, hrunning⟩
      · exact hempty ▸ ⟨.nil, .nil, by simp, by simp, rfl⟩
      · intro p i n
        have hzero : start.kernel.table.adjustment p i n = 0 := by
          rw [hempty]
          rfl
        exact hzero
      · exact fun _ _ _ => ⟨by norm_num, by norm_num⟩
      · exact fun _ _ _ hne => absurd rfl hne
      · intro p wait
        rw [hidle p]
        simp
    · intro before event after hbefore hguard hstep
      exact hbefore.step hguard hstep
  refine ⟨hok.recordsOk, hok.running, fun event hguard => ?_⟩
  cases event with
  | copied p copied pool =>
    intro call hproc hpool
    exact hok.ledger.turnPointers hpool (hguard call hproc).2
  | wake p signalled pool =>
    intro call op woken hproc slot hslot hpool
    have hshape : SameShape audited.system.kernel
        (audited.system.kernel.uncounted call op) := SameShape.setSet rfl
    exact (hok.ledger.of_shape hshape rfl).turnPointers hpool
      (hguard call op woken hproc slot hslot).2
  | _ => trivial

/-! ## Processes and one set -/

def audit (start : System) (events : List Event) : Audited :=
  Run.execD Audited.step (fun _ _ => True) ⟨start, fun _ _ _ => 0⟩ events

theorem takeBoth_fits (n : ℕ) : InShort (0 - undoSum takeBoth.sops n) := by
  by_cases hone : n = 1
  · subst hone
    decide
  · by_cases hzero : n = 0
    · subst hzero
      decide
    · have hsum : undoSum takeBoth.sops n = 0 := by
        by_contra hne
        obtain ⟨op, hop, _, hnum⟩ := exists_of_undoSum_ne_zero hne
        have hnums : ∀ op ∈ takeBoth.sops, op.semNum.toNat = 1 ∨ op.semNum.toNat = 0 := by decide
        rcases hnums op hop with h | h <;> omega
      rw [hsum]
      decide

/-- The hand-over ends with the record of process 1, which owes one on each
semaphore. -/
theorem undo_records_hold_what_is_owed_handover :
    (audit pairStart handover).system.kernel.table =
        ⟨[⟨5, 1, [⟨1, 1, 0⟩, ⟨1, 0, 0⟩]⟩], 1⟩ ∧
      RecordsOk (audit pairStart handover) := by
  have hasks : UndoGuard (audit pairStart (handover.take 1)) (.copied 1 true (some 5)) := by
    intro call hcall
    cases hcall
    refine ⟨rfl, fun attempt hthrough => ?_⟩
    have hend : _ = AttemptEnd.through := congrArg Prod.snd hthrough
    exact absurd hend (by decide)
  have hgives : UndoGuard (audit pairStart (handover.take 3)) (.copied 2 true none) := by
    intro call hcall
    cases hcall
    refine ⟨rfl, fun attempt hthrough hundos => ?_⟩
    have hattempt : _ = attempt := congrArg Prod.fst hthrough
    rw [← hattempt] at hundos
    exact absurd hundos (by decide)
  have htakes : UndoGuard (audit pairStart (handover.take 4)) (.wake 1 false (some 5)) := by
    intro call op woken hcall slot hslot
    cases hcall
    injection hslot with hslot
    refine ⟨hslot.symm, fun attempt _ _ => ⟨trivial, by decide, ?_, takeBoth_fits⟩⟩
    exact ⟨fun _ _ => ⟨0, 1, by decide⟩, fun _ h => absurd h (by decide), trivial⟩
  let Runs (n : ℕ) := Run.GuardedRun Audited.step UndoGuard ⟨pairStart, fun _ _ _ => 0⟩
    (audit pairStart (handover.take n))
  have hfirst : Runs 1 := (Run.GuardedRun.refl _ _ _).tail ⟨.semop 1 takeBoth, trivial, rfl⟩
  have hasked : Runs 2 := hfirst.tail ⟨_, hasks, rfl⟩
  have hsecond : Runs 3 := hasked.tail ⟨.semop 2 giveFirst, trivial, rfl⟩
  have hgiven : Runs 4 := hsecond.tail ⟨_, hgives, rfl⟩
  have hrun : Runs 5 := hgiven.tail ⟨_, htakes, rfl⟩
  exact ⟨by decide, (undo_records_hold_what_is_owed (fun _ => rfl) rfl
    (fun _ hix => pairStart_sema
      (Nat.ne_of_gt (Nat.lt_of_lt_of_le (by decide : 0 < 10) hix))) rfl hrun).1⟩

/-! ## Drifting records -/

def fivesStart : System := { kernel := oneSet 2 (fun _ => 5) {} 30 }

def setSecond : List Event :=
  callSemop [{ semNum := 0, semOp := -1, undo := true },
    { semNum := 1, semOp := -1, undo := true }] ++
  [.semctl oneSetId (.setVal 1 5)]

def giveMuch : List Event :=
  callSemop [{ semNum := 0, semOp := 32767, undo := true },
    { semNum := 0, semOp := 32767, undo := true }]

/-- `SETVAL` for the second semaphore stops at the entry for the first one.  Two
adjustments of -32767 come to 2.  The record of a vector whose adjustments cancel
each other is freed while the call keeps its pointer to it. -/
theorem undo_records_drift :
    (Run.Reaches Audited.step ⟨fivesStart, fun _ _ _ => 0⟩
        (audit fivesStart setSecond) ∧
      (audit fivesStart setSecond).system.kernel.table = ⟨[⟨4, 1, [⟨1, 0, 0⟩, ⟨1, 1, 0⟩]⟩], 1⟩ ∧
      (audit fivesStart setSecond).owed 1 0 1 = 0 ∧ ¬ RecordsOk (audit fivesStart setSecond)) ∧
    (Run.Reaches Audited.step ⟨singleStart 0, fun _ _ _ => 0⟩ (audit (singleStart 0) giveMuch) ∧
      (audit (singleStart 0) giveMuch).system.kernel.table = ⟨[⟨4, 1, [⟨2, 0, 0⟩]⟩], 1⟩ ∧
      (audit (singleStart 0) giveMuch).owed 1 0 0 = -65534 ∧
      ¬ RecordsOk (audit (singleStart 0) giveMuch)) ∧
    Run.Reaches Audited.step ⟨fiveStart, fun _ _ _ => 0⟩
        (audit fiveStart ((callSemop cancellingVector).take 1)) ∧ ¬ EventPointers
        (audit fiveStart ((callSemop cancellingVector).take 1)).system
        (.copied 1 true (some 4)) := by
  refine ⟨⟨Run.GuardedRun.of_execD (by decide), by decide, by decide, ?_⟩,
    ⟨Run.GuardedRun.of_execD (by decide), by decide, by decide, ?_⟩,
    Run.GuardedRun.of_execD (by decide), ?_⟩
  · intro hok
    have hentry := hok.entries ⟨4, 1, [⟨1, 0, 0⟩, ⟨1, 1, 0⟩]⟩ (by decide) ⟨1, 1, 0⟩ (by decide)
    exact absurd hentry.2.2.2 (by decide)
  · intro hok
    have hentry := hok.entries ⟨4, 1, [⟨2, 0, 0⟩]⟩ (by decide) ⟨2, 0, 0⟩ (by decide)
    exact absurd hentry.2.2.2 (by decide)
  · intro hpointers
    have hturn := hpointers _ rfl (by decide) _ rfl (by decide)
    obtain ⟨_, _, hlisted, _⟩ := hturn
    obtain ⟨su, hsu, _⟩ := hlisted 4 rfl
    cases hsu

end AerieKernel.Semaphore
