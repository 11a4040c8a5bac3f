import AerieKernel.SemaphoreAtomicity

/-!
# Passes of `semop` over a vector

A process that cannot do its vector counts itself as a waiter of the first
semaphore that stops it, and a process that changes a value decides from the
counts and from the value alone whether to wake the sleepers.  A sleeper has a
reason (`Stuck`) why its vector fails, and the reason lasts as long as the values
change quietly.
-/

namespace AerieKernel.Semaphore

open Ledger SemidDs

/-! ## Passing a vector -/

def OpPasses (set : SemidDs) (op : Sembuf) : Prop :=
  op.semNum.toNat < set.nsems ∧
    (op.semOp.toInt < 0 → 0 ≤ (set.vals op.semNum.toNat).toNat + op.semOp.toInt) ∧
    (op.semOp = 0 → set.vals op.semNum.toNat = 0)

def Passes : SemidDs → List Sembuf → Prop
  | _, [] => True
  | set, op :: rest => OpPasses set op ∧ Passes (set.addVal op) rest

def NoWrap : SemidDs → List Sembuf → Prop
  | _, [] => True
  | set, op :: rest =>
    (0 < op.semOp.toInt → (set.vals op.semNum.toNat).toNat + op.semOp.toInt < 65536) ∧
    (OpPasses set op → NoWrap (set.addVal op) rest)

theorem foldl_addVal_nsems (set : SemidDs) (ops : List Sembuf) :
    (ops.foldl addVal set).nsems = set.nsems := by
  induction ops generalizing set with
  | nil => rfl
  | cons op ops ih => exact ih _

variable {set : SemidDs}

theorem NoWrap.of_append {before rest : List Sembuf}
    (hwrap : NoWrap set (before ++ rest)) : NoWrap set before := by
  induction before generalizing set with
  | nil => trivial
  | cons op before ih => exact ⟨hwrap.1, fun hpass => ih (hwrap.2 hpass)⟩

theorem passes_append {before rest : List Sembuf} :
    Passes set (before ++ rest) ↔ Passes set before ∧ Passes (before.foldl addVal set) rest := by
  induction before generalizing set with
  | nil => simp [Passes]
  | cons op before ih =>
    rw [List.cons_append, Passes, Passes, ih, List.foldl_cons, and_assoc]

theorem toInt_eq_zero_iff {op : BitVec 16} : op.toInt = 0 ↔ op = 0 := by
  constructor
  · intro h
    apply BitVec.eq_of_toInt_eq
    simpa using h
  · rintro rfl
    rfl

def OpWakes (set : SemidDs) (op : Sembuf) : Prop :=
  (op.semOp.toInt < 0 ∧ (set.addVal op).vals op.semNum.toNat = 0 ∧
    (set.sem op.semNum.toNat).semzcnt ≠ 0) ∨
  (0 < op.semOp.toInt ∧ (set.sem op.semNum.toNat).semncnt ≠ 0)

theorem addVal_vals_self (set : SemidDs) (op : Sembuf) :
    (set.addVal op).vals op.semNum.toNat = set.vals op.semNum.toNat + op.semOp := by
  rw [addVal_vals]
  simp [post, Sembuf.entry]

variable {num : ℕ}

theorem addVal_vals_of_ne {op : Sembuf} (hne : op.semNum.toNat ≠ num)
    (set : SemidDs) : (set.addVal op).vals num = set.vals num := by
  rw [addVal_vals]
  exact Function.update_of_ne hne.symm _ _

variable {op : Sembuf} {done : List Sembuf} {attempt : Attempt}

theorem tryOps_pass (ops : List Sembuf) (hpass : OpPasses attempt.set op) :
    ∃ next : Attempt, tryOps done (op :: ops) attempt = tryOps (done ++ [op]) ops next ∧
      next.set = attempt.set.addVal op ∧
      (next.wakes = false → attempt.wakes = false ∧ ¬ OpWakes attempt.set op) := by
  obtain ⟨hrange, hneg, hzero⟩ := hpass
  rw [tryOps, if_neg (by omega)]
  by_cases hlt : op.semOp.toInt < 0
  · have henough := hneg hlt
    rw [if_pos hlt, if_neg (by exact not_lt.mpr henough)]
    refine ⟨_, rfl, rfl, fun hwakes => ?_⟩
    simp only [Bool.or_eq_false_iff] at hwakes
    refine ⟨hwakes.1, ?_⟩
    rintro (⟨_, hval, hcnt⟩ | ⟨hpos, _⟩)
    · rw [addVal_vals_self] at hval
      have hval' : (attempt.set.sem op.semNum.toNat).semval + op.semOp = 0 := hval
      simp [hval'] at hwakes
      exact hcnt hwakes.2
    · omega
  · rw [if_neg hlt]
    by_cases hop : op.semOp = 0
    · have hval : (attempt.set.sem op.semNum.toNat).semval = 0 := hzero hop
      rw [if_pos hop, if_neg (by simp [hval])]
      refine ⟨attempt, rfl, (addVal_zero hop).symm, fun hwakes => ⟨hwakes, ?_⟩⟩
      have htoInt : op.semOp.toInt = 0 := toInt_eq_zero_iff.mpr hop
      rintro (⟨hlt, _⟩ | ⟨hpos, _⟩) <;> omega
    · rw [if_neg hop]
      refine ⟨_, rfl, rfl, fun hwakes => ?_⟩
      simp only [Bool.or_eq_false_iff] at hwakes
      refine ⟨hwakes.1, ?_⟩
      rintro (⟨hlt', _⟩ | ⟨_, hcnt⟩)
      · omega
      · simp at hwakes
        exact hcnt hwakes.2

variable {ops : List Sembuf}

theorem tryOps_fail (hfails : ¬ OpPasses attempt.set op) :
    tryOps done (op :: ops) attempt = (attempt, .outOfRange) ∧ attempt.set.nsems ≤ op.semNum.toNat ∨
      tryOps done (op :: ops) attempt = (attempt, .blocked op done) ∧
        op.semOp.toInt ≤ 0 ∧ op.semNum.toNat < attempt.set.nsems := by
  rw [tryOps]
  split_ifs with hrange hneg hshort hzero hval
  · exact .inl ⟨rfl, hrange⟩
  · exact .inr ⟨rfl, hneg.le, by omega⟩
  · refine absurd ⟨by omega, fun _ => not_lt.mp hshort, ?_⟩ hfails
    intro hop
    rw [hop] at hneg
    exact absurd hneg (by decide)
  · exact .inr ⟨rfl, (toInt_eq_zero_iff.mpr hzero).le, by omega⟩
  · have hzeroVal : attempt.set.vals op.semNum.toNat = 0 := not_not.mp hval
    exact absurd ⟨by omega, fun h => absurd h hneg, fun _ => hzeroVal⟩ hfails
  · exact absurd ⟨by omega, fun h => absurd h hneg, fun h => absurd h hzero⟩ hfails

def Silent : SemidDs → List Sembuf → Prop
  | _, [] => True
  | set, op :: rest => ¬ OpWakes set op ∧ Silent (set.addVal op) rest

inductive PassEnds (done ops : List Sembuf) (attempt : Attempt)
    (result : Attempt × AttemptEnd) : Prop where
  | through (hend : result.2 = .through) (hpasses : Passes attempt.set ops)
      (hsilent : result.1.wakes = false → Silent attempt.set ops)
  | stops (before : List Sembuf) (op : Sembuf) (rest : List Sembuf)
      (hsplit : ops = before ++ op :: rest) (hpasses : Passes attempt.set before)
      (hfails : ¬ OpPasses (before.foldl addVal attempt.set) op)
      (hend : result.2 = .outOfRange ∨
        result.2 = .blocked op (done ++ before) ∧ op.semOp.toInt ≤ 0 ∧
          op.semNum.toNat < attempt.set.nsems)

theorem tryOps_ends (done ops : List Sembuf) (attempt : Attempt) :
    PassEnds done ops attempt (tryOps done ops attempt) ∧
      ((tryOps done ops attempt).1.wakes = false → attempt.wakes = false) := by
  induction ops generalizing done attempt with
  | nil => exact ⟨.through rfl trivial fun _ => trivial, id⟩
  | cons op ops ih =>
    by_cases hpass : OpPasses attempt.set op
    · obtain ⟨next, hnext, hset, hwakes⟩ := tryOps_pass ops hpass
      rw [hnext]
      obtain ⟨hends, hkept⟩ := ih (done ++ [op]) next
      refine ⟨?_, fun h => (hwakes (hkept h)).1⟩
      cases hends with
      | through hend hpasses hsilent =>
        rw [hset] at hpasses hsilent
        exact .through hend ⟨hpass, hpasses⟩ fun h =>
          ⟨(hwakes (hkept h)).2, hsilent h⟩
      | stops before op' rest hsplit hpasses hfails hend =>
        rw [hset] at hpasses hfails hend
        refine .stops (op :: before) op' rest (by rw [hsplit]; rfl) ⟨hpass, hpasses⟩ hfails ?_
        rw [List.append_assoc] at hend
        exact hend
    · refine ⟨.stops [] op ops rfl trivial hpass ?_, ?_⟩
      · rcases tryOps_fail hpass with ⟨heq, _⟩ | ⟨heq, hle⟩
        · exact .inl (by rw [heq])
        · exact .inr ⟨by rw [heq, List.append_nil], hle⟩
      · rcases tryOps_fail hpass with ⟨heq, _⟩ | ⟨heq, _⟩ <;> rw [heq] <;> exact id

theorem tryOps_through_iff : (tryOps done ops attempt).2 = .through ↔ Passes attempt.set ops := by
  cases (tryOps_ends done ops attempt).1 with
  | through hend hpasses _ => exact ⟨fun _ => hpasses, fun _ => hend⟩
  | stops before op rest hsplit _ hfails hend =>
    constructor
    · intro hthrough
      rw [hthrough] at hend
      rcases hend with hend | ⟨hend, _⟩ <;> cases hend
    · intro hpasses
      rw [hsplit, passes_append] at hpasses
      exact absurd hpasses.2.1 hfails

/-! ## Why a vector fails -/

theorem foldl_addVal_vals_apply (set : SemidDs) (before : List Sembuf) (num : ℕ) :
    (before.foldl addVal set).vals num = set.vals num + netChange before num := by
  rw [foldl_addVal_vals, postAll_apply]
  rfl

variable {set' : SemidDs}

theorem addVal_le (hle : (set.vals num).toNat ≤ (set'.vals num).toNat)
    (hpass : OpPasses set op) (hpass' : OpPasses set' op)
    (hwrap : 0 < op.semOp.toInt → (set'.vals op.semNum.toNat).toNat + op.semOp.toInt < 65536) :
    ((set.addVal op).vals num).toNat ≤ ((set'.addVal op).vals num).toNat := by
  by_cases heq : op.semNum.toNat = num
  · subst heq
    rw [addVal_vals_self, addVal_vals_self]
    have hneg := hpass.2.1
    have hneg' := hpass'.2.1
    rw [BitVec.toInt_eq_toNat_cond] at hneg hneg' hwrap
    rw [BitVec.toNat_add, BitVec.toNat_add]
    split_ifs at hneg hneg' hwrap <;> omega
  · rw [addVal_vals_of_ne heq, addVal_vals_of_ne heq]
    exact hle

theorem foldl_addVal_le (hle : (set.vals num).toNat ≤ (set'.vals num).toNat)
    (hpasses : Passes set ops) (hpasses' : Passes set' ops) (hwrap : NoWrap set' ops) :
    ((ops.foldl addVal set).vals num).toNat ≤ ((ops.foldl addVal set').vals num).toNat := by
  induction ops generalizing set set' with
  | nil => exact hle
  | cons op ops ih =>
    have hop := addVal_le hle hpasses.1 hpasses'.1 hwrap.1
    exact ih hop hpasses.2 hpasses'.2 (hwrap.2 hpasses'.1)

/-- Why a vector cannot be performed at the operation that counts as waited for:
an operation that waits for zero finds the value as it is in the set, and that is
not zero; an operation that takes something away did not find enough in a set
where the value was no smaller. -/
def Stuck (set : SemidDs) (sops : List Sembuf) (op : Sembuf) : Prop :=
  ∃ before rest, sops = before ++ op :: rest ∧
    ((op.semOp = 0 ∧ netChange before op.semNum.toNat = 0 ∧
        set.vals op.semNum.toNat ≠ 0) ∨
      (op.semOp.toInt < 0 ∧ ∃ earlier : SemidDs,
        (set.vals op.semNum.toNat).toNat ≤ (earlier.vals op.semNum.toNat).toNat ∧
        Passes earlier before ∧ NoWrap earlier before ∧
        ((before.foldl addVal earlier).vals op.semNum.toNat).toNat + op.semOp.toInt < 0))

variable {sops : List Sembuf}

theorem Stuck.of_vals (hstuck : Stuck set sops op)
    (hvals : set'.vals = set.vals) : Stuck set' sops op := by
  rw [Stuck, hvals]
  exact hstuck

theorem Stuck.not_passes (hstuck : Stuck set sops op) : ¬ Passes set sops := by
  obtain ⟨before, rest, hsplit, hreason⟩ := hstuck
  intro hpasses
  rw [hsplit, passes_append] at hpasses
  obtain ⟨hbefore, hop, _⟩ := hpasses
  rcases hreason with ⟨hzero, hnet, hval⟩ | ⟨hneg, earlier, hle, hpasses, hwrap, hlt⟩
  · have hfound := hop.2.2 hzero
    rw [foldl_addVal_vals_apply, hnet, add_zero] at hfound
    exact hval hfound
  · have henough := hop.2.1 hneg
    have := foldl_addVal_le hle hbefore hpasses hwrap
    omega

def SemidDs.waitCount (set : SemidDs) (num : ℕ) (zero : Bool) : BitVec 16 :=
  if zero then (set.sem num).semzcnt else (set.sem num).semncnt

def Quiet (before after : SemidDs) : Prop :=
  ∀ num,
    (before.waitCount num false ≠ 0 → (after.vals num).toNat ≤ (before.vals num).toNat) ∧
    (before.waitCount num true ≠ 0 → before.vals num ≠ 0 → after.vals num ≠ 0)

def Sembuf.awaitsZero (op : Sembuf) : Bool := op.semOp = 0

theorem Stuck.quiet {before after : SemidDs} (hstuck : Stuck before sops op)
    (hquiet : Quiet before after) (hcount : before.waitCount op.semNum.toNat op.awaitsZero ≠ 0) :
    Stuck after sops op := by
  obtain ⟨first, rest, hsplit, hreason⟩ := hstuck
  refine ⟨first, rest, hsplit, ?_⟩
  rcases hreason with ⟨hzero, hnet, hval⟩ | ⟨hneg, earlier, hle, hrest⟩
  · have hawaits : op.awaitsZero = true := by simp [Sembuf.awaitsZero, hzero]
    rw [hawaits] at hcount
    exact .inl ⟨hzero, hnet, (hquiet _).2 hcount hval⟩
  · have hawaits : op.awaitsZero = false := by
      have hne : op.semOp ≠ 0 := by
        intro hzero
        rw [toInt_eq_zero_iff.mpr hzero] at hneg
        omega
      simpa [Sembuf.awaitsZero] using hne
    rw [hawaits] at hcount
    exact .inr ⟨hneg, earlier, ((hquiet _).1 hcount).trans hle, hrest⟩

structure SameCounts (before after : SemidDs) : Prop where
  seq : after.seq = before.seq
  waitCount : ∀ num zero, after.waitCount num zero = before.waitCount num zero

theorem SameCounts.refl (set : SemidDs) : SameCounts set set :=
  ⟨rfl, fun _ _ => rfl⟩

theorem SameCounts.trans {a b c : SemidDs} (hab : SameCounts a b)
    (hbc : SameCounts b c) : SameCounts a c :=
  ⟨hbc.seq.trans hab.seq, fun num zero =>
    (hbc.waitCount num zero).trans (hab.waitCount num zero)⟩

theorem modifySem_sameCounts {f : Sem → Sem}
    (hncnt : (f (set.sem num)).semncnt = (set.sem num).semncnt)
    (hzcnt : (f (set.sem num)).semzcnt = (set.sem num).semzcnt) :
    SameCounts set (set.modifySem num f) := by
  refine ⟨rfl, fun other zero => ?_⟩
  unfold waitCount modifySem
  by_cases heq : other = num
  · simp [heq, hncnt, hzcnt]
  · simp [Function.update_of_ne heq]

theorem foldl_sameCounts {f : SemidDs → Sembuf → SemidDs} (hf : ∀ set op, SameCounts set (f set op))
    (set : SemidDs) (ops : List Sembuf) : SameCounts set (ops.foldl f set) := by
  induction ops generalizing set with
  | nil => exact SameCounts.refl set
  | cons op ops ih => exact (hf set op).trans (ih (f set op))

theorem addVal_sameCounts (set : SemidDs) (op : Sembuf) : SameCounts set (set.addVal op) :=
  modifySem_sameCounts rfl rfl

theorem subVal_sameCounts (set : SemidDs) (op : Sembuf) : SameCounts set (set.subVal op) :=
  modifySem_sameCounts rfl rfl

theorem countWaiter_waitCount (set : SemidDs) (op : Sembuf) (delta : BitVec 16)
    (num : ℕ) (zero : Bool) :
    (set.countWaiter op delta).waitCount num zero =
      set.waitCount num zero +
        if num = op.semNum.toNat ∧ zero = op.awaitsZero then delta else 0 := by
  unfold waitCount countWaiter modifySem Sembuf.awaitsZero
  by_cases heq : num = op.semNum.toNat
  · by_cases hop : op.semOp = 0#16 <;> cases zero <;> simp [heq, hop]
  · simp [heq]

theorem quiet_of_silent (hpasses : Passes set ops) (hsilent : Silent set ops)
    (hwrap : NoWrap set ops) : Quiet set (ops.foldl addVal set) := by
  induction ops generalizing set with
  | nil => exact fun num => ⟨fun _ => le_rfl, fun _ => id⟩
  | cons op ops ih =>
    intro num
    have hlater := ih hpasses.2 hsilent.2 (hwrap.2 hpasses.1) num
    rw [(addVal_sameCounts set op).waitCount, (addVal_sameCounts set op).waitCount] at hlater
    have hneg := hpasses.1.2.1
    have hpos := hwrap.1
    have hquiet := hsilent.1
    rw [OpWakes, not_or, addVal_vals_self] at hquiet
    have hstep : (set.waitCount num false ≠ 0 →
          ((set.addVal op).vals num).toNat ≤ (set.vals num).toNat) ∧
        (set.waitCount num true ≠ 0 → set.vals num ≠ 0 → (set.addVal op).vals num ≠ 0) := by
      by_cases heq : op.semNum.toNat = num
      · subst heq
        rw [addVal_vals_self]
        unfold waitCount
        refine ⟨fun hcount => ?_, fun hcount hval hzero => ?_⟩
        · have hnot : ¬ 0 < op.semOp.toInt := fun h => hquiet.2 ⟨h, hcount⟩
          rw [BitVec.toInt_eq_toNat_cond] at hneg hnot
          rw [BitVec.toNat_add]
          split_ifs at hneg hnot <;> omega
        · have hnot : ¬ op.semOp.toInt < 0 := fun h => hquiet.1 ⟨h, hzero, hcount⟩
          have hx : (set.vals op.semNum.toNat).toNat ≠ 0 := by
            intro h
            exact hval (BitVec.eq_of_toNat_eq (by simpa using h))
          have hsum := congrArg BitVec.toNat hzero
          rw [BitVec.toInt_eq_toNat_cond] at hpos hnot
          rw [BitVec.toNat_add] at hsum
          have hzero' : (0 : BitVec 16).toNat = 0 := rfl
          split_ifs at hpos hnot <;> omega
      · rw [addVal_vals_of_ne heq]
        exact ⟨fun _ => le_rfl, fun _ => id⟩
    exact ⟨fun hcount => (hlater.1 hcount).trans (hstep.1 hcount),
      fun hcount hval => hlater.2 hcount (hstep.2 hcount hval)⟩

theorem quiet_of_same {before after : SemidDs}
    (hvals : after.vals = before.vals) : Quiet before after := by
  intro num
  rw [hvals]
  exact ⟨fun _ => le_rfl, fun _ => id⟩

/-! ## One turn -/

/-- The condition on a call for one turn: that of its atomicity, no addition that
wraps around, and no wait for zero on a semaphore that the vector has changed
before. -/
structure TurnGuard (kernel : Kernel) (pool : Option SemuPtr) (p : Proc)
    (call : SemopCall) : Prop extends CallGuard kernel pool p call where
  noWrap : NoWrap (kernel.sets call.semaptr) call.sops
  zeros : ∀ before op rest, call.sops = before ++ op :: rest →
    op.semOp = 0 → netChange before op.semNum.toNat = 0

def TurnEnds (call : SemopCall) (before after : SemidDs) (segment : Segment) : Prop :=
  match segment.outcome with
  | .returns _ => SameCounts before after ∧
      (segment.wakeup = some call.ix ∨ segment.wakeup = none ∧ Quiet before after)
  | .sleeps call' op =>
    call' = { call with undos := call'.undos } ∧ after.seq = before.seq ∧
    after.vals = before.vals ∧
    (∀ num zero, after.waitCount num zero = before.waitCount num zero +
      if num = op.semNum.toNat ∧ zero = op.awaitsZero then 1 else 0) ∧
    segment.wakeup = none ∧ Stuck after call.sops op
  | _ => False

structure TurnOk (kernel : Kernel) (call : SemopCall) (segment : Segment) : Prop where
  sema : segment.kernel.sema = kernel.sema
  others : ∀ ptr, ptr ≠ call.semaptr → segment.kernel.sets ptr = kernel.sets ptr
  ends : TurnEnds call (kernel.sets call.semaptr) (segment.kernel.sets call.semaptr) segment

section Turn

variable {kernel : Kernel} {pool : Option SemuPtr} {p : Proc}
  {call : SemopCall}

theorem turnOk_of_set {table : UndoTable} {outcome : Outcome} {wakeup : Option ℕ}
    (hends : TurnEnds call (kernel.sets call.semaptr) set
      ⟨(kernel.setSet call.semaptr set).setTable table, outcome, wakeup⟩) :
    TurnOk kernel call ⟨(kernel.setSet call.semaptr set).setTable table, outcome, wakeup⟩ := by
  refine ⟨rfl, fun ptr hne => Function.update_of_ne hne _ _, ?_⟩
  have hset : ((kernel.setSet call.semaptr set).setTable table).sets
      call.semaptr = set := Function.update_self _ _ _
  rw [hset]
  exact hends

theorem finishCall_turnOk {table : UndoTable} {wakes : Bool}
    (hset : set = call.sops.foldl addVal (kernel.sets call.semaptr))
    (hquiet : wakes = false → Quiet (kernel.sets call.semaptr) set) : TurnOk kernel call
      (finishCall ((kernel.setSet call.semaptr set).setTable table) p call wakes) := by
  have hfinish : finishCall ((kernel.setSet call.semaptr set).setTable table) p call wakes =
      ⟨(kernel.setSet call.semaptr (call.sops.foldl (setPid p) set)).setTable table,
        .returns none, if wakes then some call.ix else none⟩ := by
    simp [finishCall, Kernel.setSet, Kernel.setTable]
  rw [hfinish]
  apply turnOk_of_set
  refine ⟨?_, ?_⟩
  · rw [hset]
    exact (foldl_sameCounts addVal_sameCounts _ _).trans
      (foldl_sameCounts (fun _ _ => modifySem_sameCounts rfl rfl) _ _)
  · cases hwakes : wakes with
    | true => exact .inl rfl
    | false =>
      refine .inr ⟨rfl, fun num => ?_⟩
      rw [foldl_setPid_vals]
      exact hquiet hwakes num

theorem undoPhase_turnOk (wakes : Bool)
    (hset : set = call.sops.foldl addVal (kernel.sets call.semaptr))
    (hquiet : wakes = false → Quiet (kernel.sets call.semaptr) set) (hclean : call.undos = true →
      (undoLoop kernel.info pool p call.ix [] call.sops none kernel.table).Clean) :
    TurnOk kernel call (undoPhase (kernel.setSet call.semaptr set) pool p call wakes) := by
  rw [undoPhase]
  split_ifs with hundos
  · have hclean := hclean hundos
    have hinfo : (kernel.setSet call.semaptr set).info = kernel.info := rfl
    have htable : (kernel.setSet call.semaptr set).table = kernel.table := rfl
    rw [hinfo, htable]
    generalize undoLoop kernel.info pool p call.ix [] call.sops none kernel.table = result
      at hclean ⊢
    rcases result with table | ⟨error, _ | _, suptr, table⟩ | _ | _
    case through => exact finishCall_turnOk hset hquiet
    case fails.nil =>
      have hback : afterUndos (kernel.setSet call.semaptr set) pool p call
          wakes (.fails error [] suptr table) = ⟨(kernel.setSet call.semaptr
            (call.sops.foldl subVal set)).setTable table, .returns (some error), none⟩ := by
        simp [afterUndos, Kernel.setSet, Kernel.setTable]
      rw [hback]
      apply turnOk_of_set
      refine ⟨?_, .inr ⟨rfl, quiet_of_same ?_⟩⟩
      · rw [hset]
        exact (foldl_sameCounts addVal_sameCounts _ _).trans
          (foldl_sameCounts subVal_sameCounts _ _)
      · rw [hset, rollback_vals]
    all_goals exact hclean.elim
  · have hfinish : TurnOk kernel call
        (finishCall ((kernel.setSet call.semaptr set).setTable kernel.table) p
          call wakes) := finishCall_turnOk hset hquiet
    exact hfinish

theorem stuck_of_blocked {before tail : List Sembuf} (hguard : TurnGuard kernel pool p call)
    (hsplit : call.sops = before ++ op :: tail) (hpasses : Passes (kernel.sets call.semaptr) before)
    (hin : op.semNum.toNat < (kernel.sets call.semaptr).nsems) (hle : op.semOp.toInt ≤ 0)
    (hfails : ¬ OpPasses (before.foldl addVal (kernel.sets call.semaptr)) op) :
    Stuck (kernel.sets call.semaptr) call.sops op := by
  refine ⟨before, tail, hsplit, ?_⟩
  have hrange : op.semNum.toNat < (before.foldl addVal (kernel.sets call.semaptr)).nsems := by
    rw [foldl_addVal_nsems]
    exact hin
  by_cases hzero : op.semOp = 0
  · have hnet := hguard.zeros before op tail hsplit hzero
    refine .inl ⟨hzero, hnet, fun hval => hfails ⟨hrange, ?_, fun _ => ?_⟩⟩
    · intro hneg
      rw [toInt_eq_zero_iff.mpr hzero] at hneg
      omega
    · rw [foldl_addVal_vals_apply, hnet, hval]
      rfl
  · have hneg : op.semOp.toInt < 0 := by
      have hne : op.semOp.toInt ≠ 0 := fun h => hzero (toInt_eq_zero_iff.mp h)
      omega
    have hwrap : NoWrap (kernel.sets call.semaptr) before := by
      have hall := hguard.noWrap
      rw [hsplit] at hall
      exact hall.of_append
    refine .inr ⟨hneg, kernel.sets call.semaptr, le_rfl, hpasses, hwrap, ?_⟩
    by_contra hnot
    exact hfails ⟨hrange, fun _ => not_lt.mp hnot, fun h => absurd h hzero⟩

theorem semopTurn_turnOk (hguard : TurnGuard kernel pool p call) :
    TurnOk kernel call (semopTurn kernel pool p call) := by
  obtain ⟨done, rest, hpassed⟩ := tryOps_passed [] call.sops
    { set := kernel.sets call.semaptr, undos := call.undos }
  have hends := (tryOps_ends [] call.sops
    { set := kernel.sets call.semaptr, undos := call.undos }).1
  have hundos := hguard.undos
  rw [semopTurn]
  generalize tryOps [] call.sops
    { set := kernel.sets call.semaptr, undos := call.undos } = result at *
  obtain ⟨attempt, stop⟩ := result
  cases hends with
  | through hend hpasses hsilent =>
    obtain rfl : stop = .through := hend
    have hsplit := hpassed.split
    rw [hpassed.through rfl, List.append_nil] at hsplit
    subst hsplit
    let call' : SemopCall := { call with undos := attempt.undos }
    have hset : attempt.set = call'.sops.foldl addVal (kernel.sets call'.semaptr) := hpassed.set
    have hturn : TurnOk kernel call'
        (undoPhase (kernel.setSet call'.semaptr attempt.set) pool p call' attempt.wakes) := by
      apply undoPhase_turnOk attempt.wakes hset
      · intro hwakes
        rw [hset]
        exact quiet_of_silent hpasses (hsilent hwakes) hguard.noWrap
      · exact fun htrue => hundos attempt rfl htrue
    exact { hturn with }
  | stops before op tail hsplit hpasses hfails hend =>
    rcases hend with hend | ⟨hend, hle, hin⟩
    · obtain rfl : stop = .outOfRange := hend
      obtain ⟨out, tail', rfl, hrange⟩ := hpassed.outOfRange rfl
      have hzero := hguard.range done out tail' hpassed.split hrange
      have hset : attempt.set = kernel.sets call.semaptr :=
        hpassed.set.trans (foldl_addVal_zero hzero)
      have hturn : TurnOk kernel call
          ⟨(kernel.setSet call.semaptr attempt.set).setTable kernel.table,
            .returns (some .efbig), none⟩ := by
        apply turnOk_of_set
        rw [hset]
        exact ⟨SameCounts.refl _, .inr ⟨rfl, quiet_of_same rfl⟩⟩
      exact hturn
    · obtain rfl : stop = .blocked op before := hend
      have hdone : before = done := hpassed.blocked op before rfl
      have hset : attempt.set = before.foldl addVal (kernel.sets call.semaptr) := by
        rw [hdone]
        exact hpassed.set
      have hback : (before.foldl subVal attempt.set).vals = (kernel.sets call.semaptr).vals := by
        rw [hset, rollback_vals]
      have hcounts : SameCounts (kernel.sets call.semaptr) (before.foldl subVal attempt.set) := by
        rw [hset]
        exact (foldl_sameCounts addVal_sameCounts _ _).trans
          (foldl_sameCounts subVal_sameCounts _ _)
      dsimp only
      split_ifs with hnowait
      · have hturn : TurnOk kernel call ⟨(kernel.setSet call.semaptr
              (before.foldl subVal attempt.set)).setTable
                kernel.table, .returns (some .eagain), none⟩ :=
          turnOk_of_set ⟨hcounts, .inr ⟨rfl, quiet_of_same hback⟩⟩
        exact hturn
      · have hturn : TurnOk kernel call ⟨(kernel.setSet call.semaptr
              ((before.foldl subVal attempt.set).countWaiter op 1)).setTable kernel.table,
              .sleeps { call with undos := attempt.undos } op, none⟩ := by
          apply turnOk_of_set
          have hvals := (countWaiter_vals _ op 1).trans hback
          refine ⟨rfl, hcounts.seq, hvals, fun num zero => ?_, rfl, ?_⟩
          · rw [countWaiter_waitCount, hcounts.waitCount]
          · exact (stuck_of_blocked hguard hsplit hpasses hin hle hfails).of_vals hvals
        exact hturn

end Turn

end AerieKernel.Semaphore
