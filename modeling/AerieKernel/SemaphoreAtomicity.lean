import AerieKernel.GuardedRuns
import AerieKernel.Ledgers
import AerieKernel.SemaphoreModel

/-!
# Atomicity of `semop`

A call of `sys_semop` tries its vector in one segment after each time it wakes up.
A segment that does not get through takes back what it has done, with four ways
out that each do so for themselves.  Two of them do not: the one for a semaphore
number out of range, and the one for undo requests that fail after the first
operation.
-/

namespace AerieKernel.Semaphore

open Ledger Function List SemidDs System Kernel

/-! ## The values of a set -/

def SemidDs.vals (set : SemidDs) : ℕ → BitVec 16 :=
  fun num => (set.sem num).semval

def Sembuf.entry (op : Sembuf) : ℕ × BitVec 16 := (op.semNum.toNat, op.semOp)

def netChange (sops : List Sembuf) (num : ℕ) : BitVec 16 :=
  total num (sops.map Sembuf.entry)

theorem modifySem_vals (set : SemidDs) (num : ℕ) (f : Sem → Sem) :
    (set.modifySem num f).vals = update set.vals num (f (set.sem num)).semval := by
  funext other
  by_cases heq : other = num
  · simp [vals, modifySem, heq]
  · simp [vals, modifySem, update_of_ne heq]

theorem addVal_vals (set : SemidDs) (op : Sembuf) :
    (set.addVal op).vals = post set.vals op.entry := by
  rw [addVal, modifySem_vals]
  rfl

theorem subVal_vals (set : SemidDs) (op : Sembuf) :
    (set.subVal op).vals = post set.vals (op.entry.1, -op.entry.2) := by
  rw [subVal, modifySem_vals]
  simp [post, Sembuf.entry, vals, sub_eq_add_neg]

variable {set : SemidDs}

theorem vals_of_same_semval {num : ℕ} {f : Sem → Sem}
    (hsame : (f (set.sem num)).semval = (set.sem num).semval) :
    (set.modifySem num f).vals = set.vals := by
  rw [modifySem_vals, hsame]
  exact update_eq_self num set.vals

theorem countWaiter_vals (set : SemidDs) (op : Sembuf) (delta : BitVec 16) :
    (set.countWaiter op delta).vals = set.vals := by
  apply vals_of_same_semval
  split_ifs <;> rfl

theorem foldl_setPid_vals (p : Proc) (set : SemidDs) (sops : List Sembuf) :
    (sops.foldl (setPid p) set).vals = set.vals := by
  induction sops generalizing set with
  | nil => rfl
  | cons op sops ih => exact (ih _).trans (vals_of_same_semval rfl)

theorem foldl_addVal_vals (set : SemidDs) (sops : List Sembuf) :
    (sops.foldl addVal set).vals = postAll set.vals (sops.map Sembuf.entry) := by
  induction sops generalizing set with
  | nil => rfl
  | cons op sops ih =>
    rw [foldl_cons, ih, addVal_vals]
    rfl

theorem foldl_subVal_vals (set : SemidDs) (sops : List Sembuf) :
    (sops.foldl subVal set).vals = postAll set.vals (negated (sops.map Sembuf.entry)) := by
  induction sops generalizing set with
  | nil => rfl
  | cons op sops ih =>
    rw [foldl_cons, ih, subVal_vals]
    rfl

theorem rollback_vals (set : SemidDs) (sops : List Sembuf) :
    (sops.foldl subVal (sops.foldl addVal set)).vals = set.vals := by
  rw [foldl_subVal_vals, foldl_addVal_vals, postAll_negated]

/-! ## One pass over the vector -/

variable {op : Sembuf}

theorem addVal_zero (hzero : op.semOp = 0) : set.addVal op = set := by
  rw [addVal, modifySem]
  simp [hzero]

variable {sops : List Sembuf}

theorem foldl_addVal_zero (hzero : ∀ op ∈ sops, op.semOp = 0) : sops.foldl addVal set = set := by
  induction sops with
  | nil => rfl
  | cons op sops ih =>
    rw [foldl_cons, addVal_zero (hzero op (by simp))]
    exact ih fun other hother => hzero other (by simp [hother])

structure Passed (before ops : List Sembuf) (attempt : Attempt)
    (result : Attempt × AttemptEnd) (done rest : List Sembuf) : Prop where
  split : ops = done ++ rest
  set : result.1.set = done.foldl addVal attempt.set
  undos : result.1.undos = false → attempt.undos = false ∧ ∀ op ∈ done, op.wantsUndo = false
  through : result.2 = .through → rest = []
  blocked : ∀ op performed, result.2 = .blocked op performed → performed = before ++ done
  outOfRange : result.2 = .outOfRange →
    ∃ op tail, rest = op :: tail ∧ attempt.set.nsems ≤ op.semNum.toNat

variable {before : List Sembuf}

theorem passed_stop {rest : List Sembuf}
    {attempt : Attempt} {stop : AttemptEnd} (hnot : stop ≠ .through)
    (hblocked : ∀ op performed, stop = .blocked op performed → performed = before)
    (hrange : stop = .outOfRange → attempt.set.nsems ≤ op.semNum.toNat) :
    Passed before (op :: rest) attempt (attempt, stop) [] (op :: rest) :=
  ⟨rfl, rfl, fun h => ⟨h, by simp⟩, fun h => absurd h hnot,
    fun op performed h => by simpa using hblocked op performed h,
    fun h => ⟨op, rest, rfl, hrange h⟩⟩

theorem Passed.cons {ops done rest : List Sembuf} {attempt next : Attempt}
    {result : Attempt × AttemptEnd} (hpassed : Passed (before ++ [op]) ops next result done rest)
    (hset : next.set = attempt.set.addVal op)
    (hundos : next.undos = false → attempt.undos = false ∧ op.wantsUndo = false) :
    Passed before (op :: ops) attempt result (op :: done) rest := by
  constructor
  · rw [hpassed.split, cons_append]
  · rw [hpassed.set, hset, foldl_cons]
  · intro hfalse
    obtain ⟨hnext, hdone⟩ := hpassed.undos hfalse
    obtain ⟨hattempt, hop⟩ := hundos hnext
    exact ⟨hattempt, by simpa using ⟨hop, hdone⟩⟩
  · exact hpassed.through
  · intro other performed hblocked
    simpa using hpassed.blocked other performed hblocked
  · intro hrange
    have hnsems : next.set.nsems = attempt.set.nsems := by
      rw [hset]
      rfl
    rw [← hnsems]
    exact hpassed.outOfRange hrange

theorem tryOps_passed (before ops : List Sembuf) (attempt : Attempt) :
    ∃ done rest, Passed before ops attempt (tryOps before ops attempt) done rest := by
  induction ops generalizing before attempt with
  | nil =>
    exact ⟨[], [], rfl, rfl, fun h => ⟨h, by simp⟩, fun _ => rfl,
      by simp [tryOps], by simp [tryOps]⟩
  | cons op ops ih =>
    rw [tryOps]
    split_ifs with hrange hneg hshort hzero hval
    · exact ⟨[], _, passed_stop (by simp) (by simp) fun _ => hrange⟩
    · exact ⟨[], _, passed_stop (by simp) (by simp) (by simp)⟩
    · obtain ⟨done, rest, hpassed⟩ := ih (before ++ [op]) _
      exact ⟨_, _, hpassed.cons rfl (by simp +contextual [Sembuf.wantsUndo])⟩
    · exact ⟨[], _, passed_stop (by simp) (by simp) (by simp)⟩
    · obtain ⟨done, rest, hpassed⟩ := ih (before ++ [op]) attempt
      exact ⟨_, _, hpassed.cons (addVal_zero hzero).symm (by simp [Sembuf.wantsUndo, hzero])⟩
    · obtain ⟨done, rest, hpassed⟩ := ih (before ++ [op]) _
      exact ⟨_, _, hpassed.cons rfl (by simp +contextual [Sembuf.wantsUndo])⟩

/-! ## Effects of a segment -/

structure NoEffect (before after : Kernel) : Prop where
  vals : ∀ ptr, (after.sets ptr).vals = (before.sets ptr).vals
  table : after.table = before.table

/-- All operations of the vector have been added to the values of the set in the
slot, and nothing else; all undo requests have been entered. -/
structure AppliesVector (p : Proc) (ix : ℕ) (sops : List Sembuf)
    (before after : Kernel) : Prop where
  vals : ∃ ptr, before.sema ix = some ptr ∧
    ∀ num, (after.sets ptr).vals num = (before.sets ptr).vals num + netChange sops num
  others : ∀ ptr, before.sema ix ≠ some ptr → (after.sets ptr).vals = (before.sets ptr).vals
  undos : ∃ pool, undoLoop before.info pool p ix [] sops none before.table = .through after.table

variable {info : Seminfo} {ix : ℕ} {suptr : Option SemuPtr} {table : UndoTable}
  {pool : Option SemuPtr} {p : Proc}

theorem undoLoop_none (hnone : ∀ op ∈ sops, op.wantsUndo = false) :
    undoLoop info pool p ix before sops suptr table = .through table := by
  induction sops generalizing before with
  | nil => rfl
  | cons op sops ih =>
    rw [undoLoop, hnone op (by simp)]
    exact ih fun other hother => hnone other (by simp [hother])

/-- The loop over the undo requests ends with all of them entered, or with an
error for the operation 0. -/
def UndoEnd.Clean : UndoEnd → Prop
  | .through _ => True
  | .fails _ [] _ _ => True
  | _ => False

/-- A call that can go on from here without harm: an operation with a number out
of range comes after no operation that changes something, and if all operations
can be done, the undo requests end well. -/
structure CallGuard (kernel : Kernel) (pool : Option SemuPtr) (p : Proc)
    (call : SemopCall) : Prop where
  range : ∀ before op rest, call.sops = before ++ op :: rest →
    (kernel.sets call.semaptr).nsems ≤ op.semNum.toNat →
    ∀ earlier ∈ before, earlier.semOp = 0
  undos : ∀ attempt,
    tryOps [] call.sops
      { set := kernel.sets call.semaptr, undos := call.undos } = (attempt, .through) →
    attempt.undos = true →
    (undoLoop kernel.info pool p call.ix [] call.sops none kernel.table).Clean

def SegmentOk (p : Proc) (ix : ℕ) (sops : List Sembuf) (before : Kernel)
    (segment : Segment) : Prop :=
  match segment.outcome with
  | .returns (some _) => NoEffect before segment.kernel
  | .returns none => AppliesVector p ix sops before segment.kernel
  | .copiesIn call =>
    NoEffect before segment.kernel ∧ call.ix = ix ∧ call.sops = sops
  | .sleeps call _ =>
    NoEffect before segment.kernel ∧ call.ix = ix ∧ call.sops = sops
  | _ => False

variable {suptr' : Option SemuPtr} {table' : UndoTable} {error : Errno}

theorem semundoAdjust_fails {semid semnum : ℕ} {adjval : BitVec 16}
    (hfails : semundoAdjust info pool p suptr semid semnum adjval table =
      .fails error table' suptr') : table' = table := by
  have hrecord : ∀ su, adjustRecord info semid semnum adjval table su =
      .fails error table' suptr' → table' = table := by
    intro su hsu
    rw [adjustRecord] at hsu
    split at hsu
    · cases hsu
      rfl
    · cases hsu
  unfold semundoAdjust at hfails
  split at hfails
  · split at hfails
    · cases hfails
    · exact hrecord _ hfails
  · split at hfails
    · exact hrecord _ hfails
    · split_ifs at hfails with hzero
      split at hfails
      · cases hfails
        rfl
      · cases hfails
      · rw [adjustRecord] at hfails
        split at hfails
        · rename_i hfull
          have hroom : ¬ 0 = info.semume := info.semume_pos.ne
          simp [adjustEntries, hroom, show ¬ adjval = 0#16 from hzero] at hfull
        · cases hfails

theorem undoLoop_fails_before {before' : List Sembuf}
    (hfails : undoLoop info pool p ix before sops suptr table =
      .fails error before' suptr' table') : ∃ more, before' = more ++ before := by
  induction sops generalizing before suptr table with
  | nil => exact absurd hfails (by simp [undoLoop])
  | cons op sops ih =>
    have hlater : ∀ suptr table, undoLoop info pool p ix (op :: before) sops suptr table =
          .fails error before' suptr' table' → ∃ more, before' = more ++ before := by
      intro suptr table hlater
      obtain ⟨more, hmore⟩ := ih hlater
      exact ⟨more ++ [op], by simp [hmore]⟩
    rw [undoLoop] at hfails
    split_ifs at hfails
    · split at hfails
      · exact hlater _ _ hfails
      · injection hfails with _ hbefore
        exact ⟨[], hbefore.symm⟩
      · cases hfails
      · cases hfails
    · exact hlater _ _ hfails

theorem undoLoop_fails_first (hfails : undoLoop info pool p ix [] sops suptr table =
      .fails error [] suptr' table') : table' = table := by
  have hlater : ∀ op sops suptr table,
      undoLoop info pool p ix [op] sops suptr table ≠ .fails error [] suptr' table' := by
    intro op sops suptr table hlater
    obtain ⟨more, hmore⟩ := undoLoop_fails_before hlater
    simp at hmore
  cases sops with
  | nil => exact absurd hfails (by simp [undoLoop])
  | cons op sops =>
    rw [undoLoop] at hfails
    split_ifs at hfails
    · split at hfails
      · exact absurd hfails (hlater _ _ _ _)
      · rename_i hadjust
        injection hfails with _ _ _ htable
        rw [← htable]
        exact semundoAdjust_fails hadjust
      · cases hfails
      · cases hfails
    · exact absurd hfails (hlater _ _ _ _)

section Turn

variable {kernel : Kernel} {pool : Option SemuPtr} {p : Proc}
  {call : SemopCall}

theorem setSet_vals {ptr : SetPtr} (hvals : set.vals = (kernel.sets ptr).vals) :
    NoEffect kernel (kernel.setSet ptr set) := by
  refine ⟨fun other => ?_, rfl⟩
  by_cases heq : other = ptr
  · simp [setSet, heq, hvals]
  · simp [setSet, update_of_ne heq]

theorem finishCall_applies {wakes : Bool} (hslot : kernel.sema call.ix = some call.semaptr)
    (hset : set.vals = (call.sops.foldl addVal (kernel.sets call.semaptr)).vals)
    (hundos : ∃ pool, undoLoop kernel.info pool p call.ix [] call.sops none
      kernel.table = .through table) :
    SegmentOk p call.ix call.sops kernel
      (finishCall ((kernel.setSet call.semaptr set).setTable table) p call wakes) := by
  refine ⟨⟨call.semaptr, hslot, fun num => ?_⟩, fun ptr hptr => ?_, hundos⟩
  · simp only [finishCall, setSet, setTable,
      update_self, foldl_setPid_vals, hset, foldl_addVal_vals, postAll_apply]
    rfl
  · have hne : ptr ≠ call.semaptr := by
      rintro rfl
      exact hptr hslot
    simp [finishCall, setSet, setTable, update_of_ne hne]

theorem undoPhase_ok (pool : Option SemuPtr) (wakes : Bool)
    (hslot : kernel.sema call.ix = some call.semaptr)
    (hset : set = call.sops.foldl addVal (kernel.sets call.semaptr))
    (hnone : call.undos = false → ∀ op ∈ call.sops, op.wantsUndo = false)
    (hclean : call.undos = true →
      (undoLoop kernel.info pool p call.ix [] call.sops none kernel.table).Clean) :
    SegmentOk p call.ix call.sops kernel
      (undoPhase (kernel.setSet call.semaptr set) pool p call wakes) := by
  rw [undoPhase]
  split_ifs with hundos
  · have hinfo : (kernel.setSet call.semaptr set).info = kernel.info := rfl
    have htable : (kernel.setSet call.semaptr set).table = kernel.table := rfl
    rw [hinfo, htable]
    have hclean := hclean hundos
    generalize hloop : undoLoop kernel.info pool p call.ix [] call.sops none
      kernel.table = result at hclean
    match result, hclean with
    | .through table, _ =>
      exact finishCall_applies hslot (by rw [hset]) ⟨pool, hloop⟩
    | .fails error [] suptr table, _ =>
      obtain rfl := undoLoop_fails_first hloop
      refine ⟨fun ptr => ?_, rfl⟩
      by_cases heq : ptr = call.semaptr
      · subst heq
        simp only [afterUndos, setSet, setTable, update_self, hset, rollback_vals]
      · simp [afterUndos, setSet, setTable, update_of_ne heq]
  · have hnone := hnone (by simpa using hundos)
    have hfinish : SegmentOk p call.ix call.sops kernel
        (finishCall ((kernel.setSet call.semaptr set).setTable kernel.table) p call wakes) :=
      finishCall_applies hslot (by rw [hset]) ⟨pool, undoLoop_none hnone⟩
    exact hfinish

theorem semopTurn_ok (hslot : kernel.sema call.ix = some call.semaptr)
    (hguard : CallGuard kernel pool p call) :
    SegmentOk p call.ix call.sops kernel (semopTurn kernel pool p call) := by
  obtain ⟨done, rest, hpassed⟩ := tryOps_passed [] call.sops
    { set := kernel.sets call.semaptr, undos := call.undos }
  have hundos := hguard.undos
  rw [semopTurn]
  generalize tryOps [] call.sops
    { set := kernel.sets call.semaptr, undos := call.undos } = result at *
  obtain ⟨attempt, stop⟩ := result
  cases stop with
  | through =>
    have hrest := hpassed.through rfl
    have hsplit := hpassed.split
    rw [hrest, append_nil] at hsplit
    subst hsplit
    let call' : SemopCall := { call with undos := attempt.undos }
    have hslot' : kernel.sema call'.ix = some call'.semaptr := hslot
    exact undoPhase_ok pool attempt.wakes hslot' hpassed.set
      (fun hfalse => (hpassed.undos hfalse).2) (fun htrue => hundos attempt rfl htrue)
  | outOfRange =>
    obtain ⟨op, tail, rfl, hrange⟩ := hpassed.outOfRange rfl
    have hzero := hguard.range done op tail hpassed.split hrange
    have hset : attempt.set = kernel.sets call.semaptr :=
      hpassed.set.trans (foldl_addVal_zero hzero)
    exact setSet_vals (by rw [hset])
  | blocked op performed =>
    have hperformed := hpassed.blocked op performed rfl
    subst hperformed
    have hvals : (performed.foldl subVal attempt.set).vals = (kernel.sets call.semaptr).vals := by
      rw [hpassed.set]
      exact rollback_vals _ _
    simp only
    split_ifs
    · exact setSet_vals hvals
    · exact ⟨setSet_vals (by rw [countWaiter_vals, hvals]), rfl, rfl⟩

end Turn

/-! ## The segments of a call -/

theorem NoEffect.refl (kernel : Kernel) : NoEffect kernel kernel :=
  ⟨fun _ => rfl, rfl⟩

theorem NoEffect.trans {a b c : Kernel} (hab : NoEffect a b) (hbc : NoEffect b c) : NoEffect a c :=
  ⟨fun ptr => (hbc.vals ptr).trans (hab.vals ptr), hbc.table.trans hab.table⟩

theorem sysSemop_ok (kernel : Kernel) (p : Proc) (args : SemopArgs) :
    SegmentOk p (ipcidToIx args.semid) args.sops kernel (sysSemop kernel args) := by
  have hrefl := NoEffect.refl kernel
  unfold sysSemop
  dsimp only
  split
  · exact hrefl
  · split
    · exact hrefl
    · rename_i ptr hslot
      split_ifs with hseq hperm hempty hlong
      · exact hrefl
      · exact hrefl
      · rw [hempty]
        exact ⟨⟨ptr, hslot, fun num => (add_zero _).symm⟩, fun _ _ => rfl, none, rfl⟩
      · exact hrefl
      · exact ⟨hrefl, rfl, rfl⟩

variable {pool : Option SemuPtr} {p : Proc} {kernel : Kernel} {call : SemopCall}

def Kernel.uncounted (kernel : Kernel) (call : SemopCall) (op : Sembuf) : Kernel :=
  kernel.setSet call.semaptr ((kernel.sets call.semaptr).countWaiter op (-1))

theorem uncounted_noEffect (kernel : Kernel) (call : SemopCall) (op : Sembuf) :
    NoEffect kernel (kernel.uncounted call op) := setSet_vals (countWaiter_vals _ _ _)

variable {segment : Segment}

theorem SegmentOk.of_uncounted (hok : SegmentOk p ix sops (kernel.uncounted call op) segment) :
    SegmentOk p ix sops kernel segment := by
  have hsame := uncounted_noEffect kernel call op
  obtain ⟨after, outcome, wakeup⟩ := segment
  cases outcome with
  | returns error =>
    cases error with
    | some error => exact hsame.trans hok
    | none =>
      obtain ⟨⟨ptr, hslot, hvals⟩, hothers, hundos⟩ := hok
      refine ⟨⟨ptr, hslot, fun num => ?_⟩, fun other hother => ?_, hundos⟩
      · rw [hvals, hsame.vals]
      · rw [hothers other hother, hsame.vals]
  | copiesIn call => exact ⟨hsame.trans hok.1, hok.2⟩
  | sleeps call op => exact ⟨hsame.trans hok.1, hok.2⟩
  | _ => exact hok

theorem semopCopied_ok (copied : Bool) (hslot : kernel.sema call.ix = some call.semaptr)
    (hguard : CallGuard kernel pool p call) :
    SegmentOk p call.ix call.sops kernel (semopCopied kernel pool p call copied) := by
  rw [semopCopied, if_pos (Or.inl hslot)]
  split_ifs
  · exact NoEffect.refl _
  · exact semopTurn_ok hslot hguard

theorem semopWoken_ok (signalled : Bool) (hguard : ∀ slot, kernel.sema call.ix = some slot →
      slot = call.semaptr ∧ CallGuard (kernel.uncounted call op) pool p call) :
    SegmentOk p call.ix call.sops kernel (semopWoken kernel pool p call op signalled) := by
  have hrefl := NoEffect.refl kernel
  unfold semopWoken
  split
  · exact hrefl
  · rename_i slot hslot
    obtain ⟨rfl, hcall⟩ := hguard slot hslot
    rw [if_pos (.inl rfl)]
    dsimp only
    split_ifs
    · exact hrefl
    · exact uncounted_noEffect kernel call op
    · have hslot' : (kernel.uncounted call op).sema call.ix = some call.semaptr := hslot
      exact (semopTurn_ok hslot' hcall).of_uncounted

/-! ## Interleaved calls -/

/-- No segment of a call with an error has an effect; of a call that returns zero
the last segment applies the vector and the others have no effect. -/
def Finished.Atomic (call : Finished) : Prop :=
  match call.error with
  | some _ => ∀ segment ∈ call.segments, NoEffect segment.1 segment.2
  | none => ∃ earlier last, call.segments = earlier ++ [last] ∧
      (∀ segment ∈ earlier, NoEffect segment.1 segment.2) ∧
      AppliesVector call.proc (ipcidToIx call.args.semid) call.args.sops last.1 last.2

def CallRecorded (call : SemopCall) (running : Option Running) : Prop :=
  ∃ record, running = some record ∧
    call.ix = ipcidToIx record.args.semid ∧ call.sops = record.args.sops ∧
    ∀ segment ∈ record.segments, NoEffect segment.1 segment.2

def RecordOk : ProcState → Option Running → Prop
  | .idle, _ => True
  | .copying call, running => CallRecorded call running
  | .asleep call _ _, running => CallRecorded call running
  | .awaitsMemory _, _ => False

structure SystemOk (system : System) : Prop where
  procs : ∀ p, RecordOk (system.procs p) (system.running p)
  finished : ∀ call ∈ system.finished, call.Atomic

variable {running : Option Running}

theorem RecordOk.wake {state : ProcState} (ix : ℕ)
    (hok : RecordOk state running) : RecordOk (state.wake ix) running := by
  cases state <;> exact hok

theorem RecordOk.foldl_wake {state : ProcState} (slots : List ℕ) (hok : RecordOk state running) :
    RecordOk (slots.foldl (fun state ix => state.wake ix) state) running := by
  induction slots generalizing state with
  | nil => exact hok
  | cons ix slots ih => exact ih (hok.wake ix)

variable {system : System}

theorem SystemOk.wakeAll (slots : List ℕ)
    (hok : SystemOk system) : SystemOk (system.wakeAll slots) :=
  ⟨fun p => (hok.procs p).foldl_wake slots, hok.finished⟩

theorem SystemOk.setKernel (kernel : Kernel)
    (hok : SystemOk system) : SystemOk { system with kernel := kernel } := ⟨hok.procs, hok.finished⟩

theorem SystemOk.afterSegment (running : Running) (hok : SystemOk system)
    (hstopped : system.stopped = false)
    (hsegments : ∀ segment ∈ running.segments, NoEffect segment.1 segment.2)
    (hsegment : SegmentOk p (ipcidToIx running.args.semid) running.args.sops
      system.kernel segment) :
    SystemOk (system.afterSegment p running segment) ∧
      (system.afterSegment p running segment).stopped = false := by
  have hwoken := (hok.setKernel segment.kernel).wakeAll segment.wakeup.toList
  have hupdate : ∀ state record, RecordOk state record → ∀ q, RecordOk
        (update (({ system with kernel := segment.kernel }).wakeAll
          segment.wakeup.toList).procs p state q) (update system.running p record q) := by
    intro state record hrecord q
    by_cases heq : q = p
    · subst heq
      simpa using hrecord
    · rw [update_of_ne heq, update_of_ne heq]
      exact hwoken.procs q
  have hextended : NoEffect system.kernel segment.kernel →
      ∀ other ∈ running.segments ++ [(system.kernel, segment.kernel)], NoEffect other.1 other.2 :=
    fun hnone => forall_mem_append.mpr ⟨hsegments, forall_mem_singleton.mpr hnone⟩
  have hfinished : ∀ last : Finished, last.Atomic →
      ∀ call ∈ system.finished ++ [last], call.Atomic :=
    fun _ hlast => forall_mem_append.mpr ⟨hok.finished, forall_mem_singleton.mpr hlast⟩
  obtain ⟨kernel, outcome, wakeup⟩ := segment
  cases outcome with
  | returns error =>
    refine ⟨⟨hupdate _ _ trivial, hfinished _ ?_⟩, hstopped⟩
    cases error with
    | some error => exact hextended hsegment
    | none => exact ⟨running.segments, (system.kernel, kernel), rfl, hsegments, hsegment⟩
  | copiesIn call =>
    obtain ⟨hnone, hix, hsops⟩ := hsegment
    exact ⟨⟨hupdate _ _ ⟨_, rfl, hix, hsops, hextended hnone⟩, hok.finished⟩, hstopped⟩
  | sleeps call op =>
    obtain ⟨hnone, hix, hsops⟩ := hsegment
    exact ⟨⟨hupdate _ _ ⟨_, rfl, hix, hsops, hextended hnone⟩, hok.finished⟩, hstopped⟩
  | _ => exact hsegment.elim

theorem SystemOk.nextSegment {record : Running} (hok : SystemOk system)
    (hstopped : system.stopped = false) (hrecorded : CallRecorded call (some record))
    (hsegment : SegmentOk p call.ix call.sops system.kernel segment) :
    SystemOk (system.afterSegment p record segment) ∧
      (system.afterSegment p record segment).stopped = false := by
  obtain ⟨_, heq, hix, hsops, hsegments⟩ := hrecorded
  cases heq
  rw [hix, hsops] at hsegment
  exact hok.afterSegment record hstopped hsegments hsegment

/-- The condition on a segment of a call; everything else is free to happen. -/
def SemopGuard (system : System) : Event → Prop
  | .copied p _ pool =>
    ∀ call, system.procs p = .copying call →
      system.kernel.sema call.ix = some call.semaptr ∧ CallGuard system.kernel pool p call
  | .wake p _ pool =>
    ∀ call op woken, system.procs p = .asleep call op woken →
      ∀ slot, system.kernel.sema call.ix = some slot →
        slot = call.semaptr ∧ CallGuard (system.kernel.uncounted call op) pool p call
  | _ => True

def Event.OfSemop : Event → Prop
  | .semop _ _ => True
  | .copied _ _ _ => True
  | .wake _ _ _ => True
  | .memory _ _ _ => True
  | _ => False

theorem SystemOk.step {before after : System} {event : Event} (hok : SystemOk before)
    (hguard : SemopGuard before event) (hstep : before.step event = some after) :
    SystemOk after ∧ (event.OfSemop → after.stopped = false) := by
  obtain ⟨hgoes, hsteps⟩ := System.steps_of_step hstep
  cases hsteps with
  | semop args =>
    exact (hok.afterSegment ⟨args, []⟩ hgoes (by simp)
      (sysSemop_ok before.kernel _ args)).imp_right fun hstays _ => hstays
  | @copied p _ call _ copied hproc hrecord =>
    have hrecordOk := hok.procs p
    rw [hproc, hrecord] at hrecordOk
    obtain ⟨hslot, hcall⟩ := hguard call hproc
    exact (hok.nextSegment hgoes hrecordOk
      (semopCopied_ok copied hslot hcall)).imp_right fun hstays _ => hstays
  | @wake p _ call op woken _ signalled hproc hrecord =>
    have hrecordOk := hok.procs p
    rw [hproc, hrecord] at hrecordOk
    exact (hok.nextSegment hgoes hrecordOk
      (semopWoken_ok signalled (hguard call op woken hproc))).imp_right fun hstays _ => hstays
  | @memory p _ _ _ _ hproc =>
    have hrecordOk := hok.procs p
    rw [hproc] at hrecordOk
    exact hrecordOk.elim
  | semctl => exact ⟨(hok.setKernel _).wakeAll _, fun h => absurd h id⟩
  | semget => exact ⟨hok.setKernel _, fun h => absurd h id⟩
  | panic => exact ⟨⟨hok.procs, hok.finished⟩, fun h => absurd h id⟩
  | exit => exact ⟨(hok.setKernel _).wakeAll _, fun h => absurd h id⟩

/-- Whatever other processes do in between: as long as no segment of a call
starts where an operation out of range follows one that changes a value, where
the undo requests end badly, or where the slot has another set, every call ends
each of its segments, a call with an error has had no effect, and a call that
returns zero has applied its vector in one segment. -/
theorem semop_is_atomic {start system : System}
    (hidle : ∀ p, start.procs p = .idle) (hfresh : start.finished = [])
    (hrun : Run.GuardedRun System.step SemopGuard start system) :
    (∀ call ∈ system.finished, call.Atomic) ∧
      ∀ event after, SemopGuard system event → event.OfSemop →
        system.step event = some after → after.stopped = false := by
  have hok : SystemOk system := by
    apply hrun.invariant (P := SystemOk)
    · refine ⟨fun p => ?_, by simp [hfresh]⟩
      rw [hidle p]
      trivial
    · intro before event after hbefore hguard hstep
      exact (hbefore.step hguard hstep).1
  exact ⟨hok.finished, fun event after hguard hevent hstep =>
    (hok.step hguard hstep).2 hevent⟩

/-! ## Processes and one set -/

theorem callGuard_of_inRange
    (hrange : ∀ op ∈ call.sops, op.semNum.toNat < (kernel.sets call.semaptr).nsems)
    (hclean : (undoLoop kernel.info pool p call.ix [] call.sops none kernel.table).Clean) :
    CallGuard kernel pool p call := by
  refine ⟨fun before op rest hsplit hout => ?_, fun _ _ _ => hclean⟩
  have hin := hrange op (by simp [hsplit])
  omega

def oneSet (nsems : ℕ) (semval : ℕ → BitVec 16) (table : UndoTable) (semmnu : ℕ) : Kernel :=
  { info := { semmnu := semmnu }
    sema := Function.update (fun _ => none) 0 (some 7)
    sets := fun _ => ⟨1, nsems, fun num => { semval := semval num }⟩
    table := table }

def oneSetId : BitVec 32 := 0x10000

def pairStart : System :=
  { kernel := oneSet 2 (fun num => if num = 1 then 1 else 0) {} 30 }

def takeBoth : SemopArgs :=
  { semid := oneSetId
    sops := [{ semNum := 1, semOp := -1, undo := true },
      { semNum := 0, semOp := -1, undo := true }] }

def giveFirst : SemopArgs :=
  { semid := oneSetId, sops := [{ semNum := 0, semOp := 1 }] }

def handover : List Event :=
  [.semop 1 takeBoth, .copied 1 true (some 5), .semop 2 giveFirst,
    .copied 2 true none, .wake 1 false (some 5)]

def handedOver (n : ℕ) : System :=
  Run.execD step (fun _ _ => True) pairStart (handover.take n)

theorem handedOver_guarded : Run.GuardedRun step SemopGuard pairStart (handedOver 5) := by
  have hstart : Run.GuardedRun step SemopGuard pairStart (handedOver 1) :=
    (Run.GuardedRun.refl _ _ _).tail ⟨.semop 1 takeBoth, trivial, rfl⟩
  have hasks : SemopGuard (handedOver 1) (.copied 1 true (some 5)) := by
    intro call hcall
    cases hcall
    exact ⟨rfl, callGuard_of_inRange (by decide) trivial⟩
  have hgives : SemopGuard (handedOver 3) (.copied 2 true none) := by
    intro call hcall
    cases hcall
    exact ⟨rfl, callGuard_of_inRange (by decide) trivial⟩
  have htakes : SemopGuard (handedOver 4) (.wake 1 false (some 5)) := by
    intro call op woken hcall slot hslot
    cases hcall
    injection hslot with hslot
    exact ⟨hslot.symm, callGuard_of_inRange (by decide) trivial⟩
  have hasked : Run.GuardedRun step SemopGuard pairStart
      (handedOver 2) := hstart.tail ⟨_, hasks, rfl⟩
  have hsecond : Run.GuardedRun step SemopGuard pairStart
      (handedOver 3) := hasked.tail ⟨.semop 2 giveFirst, trivial, rfl⟩
  have hgiven : Run.GuardedRun step SemopGuard pairStart
      (handedOver 4) := hsecond.tail ⟨_, hgives, rfl⟩
  exact hgiven.tail ⟨_, htakes, rfl⟩

theorem semop_is_atomic_handover :
    (handedOver 5).finished.map (fun call => (call.proc, call.error)) = [(2, none), (1, none)] ∧
      ∀ call ∈ (handedOver 5).finished, call.Atomic :=
  ⟨by decide, (semop_is_atomic (fun _ => rfl) rfl handedOver_guarded).1⟩

/-! ## What goes wrong -/

def fiveStart : System := { kernel := oneSet 1 (fun _ => 5) {} 30 }

def crowdedStart : System :=
  { kernel := oneSet 1 (fun _ => 5) ⟨[⟨3, 9, [⟨1, 0, 0⟩]⟩], 1⟩ 1 }

def callSemop (sops : List Sembuf) : List Event :=
  [.semop 1 ⟨oneSetId, sops, true⟩, .copied 1 true (some 4)]

def afterCall (start : System) (sops : List Sembuf) : System :=
  Run.execD step (fun _ _ => True) start (callSemop sops)

def outOfRangeVector : List Sembuf :=
  [{ semNum := 0, semOp := -1 }, { semNum := 8, semOp := 1 }]

def secondUndoVector : List Sembuf :=
  [{ semNum := 0, semOp := 1 }, { semNum := 0, semOp := 1, undo := true }]

def cancellingVector : List Sembuf :=
  [{ semNum := 0, semOp := -1, undo := true },
    { semNum := 0, semOp := 1, undo := true },
    { semNum := 0, semOp := -1, undo := true }]

/-- A number out of range leaves the operations before it done.  An undo request
that fails for the operation 1 makes the loop that takes the adjustments back run
out of the vector.  An adjustment that comes to zero frees the record that the
next request of the vector then uses. -/
theorem semop_not_atomic :
    (Run.Reaches System.step fiveStart (afterCall fiveStart outOfRangeVector) ∧
      ∃ call ∈ (afterCall fiveStart outOfRangeVector).finished,
        call.error = some .efbig ∧ ¬ call.Atomic) ∧ (Run.Reaches System.step crowdedStart
        (afterCall crowdedStart secondUndoVector) ∧
      (afterCall crowdedStart secondUndoVector).stopped = true) ∧
    Run.Reaches System.step fiveStart (afterCall fiveStart cancellingVector) ∧
      (afterCall fiveStart cancellingVector).stopped = true := by
  refine ⟨⟨Run.GuardedRun.of_execD (by decide), _, mem_singleton_self _,
    rfl, fun hatomic => ?_⟩,
    ⟨Run.GuardedRun.of_execD (by decide), by decide⟩,
    Run.GuardedRun.of_execD (by decide), by decide⟩
  have hsegment := hatomic _ (mem_cons_of_mem _ (mem_singleton_self _))
  exact absurd (congrFun (hsegment.vals 7) 0) (by decide)

end AerieKernel.Semaphore
