import AerieKernel.SemaphoreUndoTable
import AerieKernel.SemaphoreWakeups

/-!
# What processes owe

A ledger says what the undo records are for: for every process and semaphore minus
the sum of the `SEM_UNDO` operations since the last time it was cleared.  Each
segment of a call, `semctl` and `semexit` change the records as they change the
ledger.
-/

namespace AerieKernel.Semaphore

open Function List

/-! ## The undo requests of a vector -/

def undoSum (sops : List Sembuf) (num : ℕ) : ℤ :=
  ((sops.filter fun op => op.wantsUndo && op.semNum.toNat = num).map fun op => op.semOp.toInt).sum

def settle (owed : ℕ → ℕ → ℤ) (ix : ℕ) (sops : List Sembuf) : ℕ → ℕ → ℤ :=
  fun i n => if i = ix then owed i n - undoSum sops n else owed i n

theorem settle_cons (owed : ℕ → ℕ → ℤ) (ix : ℕ) (op : Sembuf) (sops : List Sembuf) :
    settle owed ix (op :: sops) = settle (settle owed ix [op]) ix sops := by
  funext i n
  simp only [settle]
  split_ifs with hix
  · have hsum : undoSum (op :: sops) n = undoSum [op] n + undoSum sops n := by
      rw [undoSum, undoSum, undoSum, ← sum_append, ← map_append, ← filter_append]
      rfl
    rw [hsum]
    ring
  · rfl

variable {op : Sembuf}

variable {owed : ℕ → ℕ → ℤ}

theorem ofInt_settle {ix : ℕ} (hop : op.wantsUndo = true) (i n : ℕ) :
    BitVec.ofInt 16 (settle owed ix [op] i n) = BitVec.ofInt 16 (owed i n) +
      if i = ix ∧ n = op.semNum.toNat then -op.semOp else 0 := by
  simp only [settle]
  by_cases hix : i = ix
  · by_cases hnum : op.semNum.toNat = n
    · have hsum : undoSum [op] n = op.semOp.toInt := by
        simp [undoSum, hop, hnum]
      rw [if_pos hix, if_pos ⟨hix, hnum.symm⟩, hsum, sub_eq_add_neg,
        BitVec.ofInt_add, BitVec.ofInt_neg, BitVec.ofInt_toInt]
    · have hsum : undoSum [op] n = 0 := by simp [undoSum, hnum]
      rw [if_pos hix, if_neg (fun h => hnum h.2.symm), hsum]
      simp
  · simp [hix]

/-- After each request but the last one the process still owes something, so that
its record stays. -/
def KeepsRecord (ix : ℕ) : List Sembuf → (ℕ → ℕ → ℤ) → Prop
  | [], _ => True
  | op :: rest, owed =>
    (op.wantsUndo = true → rest.any Sembuf.wantsUndo = true →
      ∃ i n, BitVec.ofInt 16 (settle owed ix [op] i n) ≠ 0) ∧
    KeepsRecord ix rest (settle owed ix [op])

/-- Each call of `semundo_adjust` in the loop gets NULL or a record of the list. -/
def PointersListed (info : Seminfo) (pool : Option SemuPtr) (p : Proc)
    (ix : ℕ) : List Sembuf → Option SemuPtr → UndoTable → Prop
  | [], _, _ => True
  | op :: rest, suptr, table =>
    if op.wantsUndo then
      PointerListed table suptr ∧
        match semundoAdjust info pool p suptr ix op.semNum.toNat (-op.semOp)
            table with
        | .ok table suptr => PointersListed info pool p ix rest suptr table
        | _ => True
    else PointersListed info pool p ix rest suptr table

structure UndosOk (p : Proc) (ix : ℕ) (sops : List Sembuf)
    (owed : ℕ → ℕ → ℤ) (table : UndoTable) (result : UndoEnd) : Prop where
  notFreed : result ≠ .freed
  through : ∀ table', result = .through table' → TableOk table' ∧
    (∀ i n, table'.adjustment p i n = BitVec.ofInt 16 (settle owed ix sops i n)) ∧
    ∀ q i n, q ≠ p → table'.adjustment q i n = table.adjustment q i n

section Loop

variable {info : Seminfo} {pool : Option SemuPtr} {p : Proc} {ix : ℕ}
  {suptr : Option SemuPtr} {table : UndoTable}

theorem semundoAdjust_ne_freed {semnum : ℕ} {adjval : BitVec 16}
    (hlisted : PointerListed table suptr) :
    semundoAdjust info pool p suptr ix semnum adjval table ≠ .freed := by
  have hrecord : ∀ table su, adjustRecord info ix semnum adjval table su ≠ .freed := by
    intro table su
    rw [adjustRecord]
    split <;> simp
  unfold semundoAdjust
  split
  · rename_i addr
    obtain ⟨su, hsu, haddr⟩ := hlisted addr rfl
    split
    · rename_i hfind
      have hne := find?_eq_none.mp hfind su hsu
      exact absurd haddr (by simpa using hne)
    · exact hrecord _ _
  · split
    · exact hrecord _ _
    · split_ifs
      · simp
      · split
        · simp
        · simp
        · exact hrecord _ _

theorem undoLoop_ok {sops : List Sembuf} (before : List Sembuf) (hok : TableOk table)
    (howed : ∀ i n, table.adjustment p i n = BitVec.ofInt 16 (owed i n))
    (hpointer : PointerOk pool p table suptr)
    (hexists : suptr ≠ none → sops.any Sembuf.wantsUndo = true →
      ∃ i n, BitVec.ofInt 16 (owed i n) ≠ 0) (hkeeps : KeepsRecord ix sops owed)
    (hnums : ∀ op ∈ sops, op.wantsUndo = true → op.semNum.toNat < 32768) :
    PointersListed info pool p ix sops suptr table ∧
      UndosOk p ix sops owed table (undoLoop info pool p ix before sops suptr table) := by
  induction sops generalizing before suptr table owed with
  | nil =>
    refine ⟨trivial, by simp [undoLoop], ?_⟩
    intro table' hthrough
    cases hthrough
    refine ⟨hok, fun i n => ?_, fun _ _ _ _ => rfl⟩
    rw [howed]
    simp [settle, undoSum]
  | cons op sops ih =>
    obtain ⟨hkeep, hkeeps⟩ := hkeeps
    have hnums' : ∀ op ∈ sops, op.wantsUndo = true → op.semNum.toNat < 32768 := fun other hother =>
      hnums other (by simp [hother])
    rw [PointersListed, undoLoop]
    by_cases hop : op.wantsUndo = true
    · rw [if_pos hop, if_pos hop]
      have hadjval : -op.semOp ≠ 0 := by
        have hne : op.semOp ≠ 0 := by
          simp only [Sembuf.wantsUndo, Bool.and_eq_true, decide_eq_true_eq] at hop
          exact hop.2
        exact neg_ne_zero.mpr hne
      have hrecord : suptr ≠ none → ∃ su ∈ table.semuList, su.proc = p := by
        intro hsome
        obtain ⟨i, n, hne⟩ := hexists hsome (by simp [hop])
        rw [← howed] at hne
        exact exists_record hne
      have hlisted : PointerListed table suptr := by
        intro addr haddr
        obtain rfl : suptr = some addr := haddr
        obtain ⟨su, hsu, hproc⟩ := hrecord (by simp)
        exact ⟨su, hsu, hpointer su hsu hproc⟩
      cases hadjust : semundoAdjust info pool p suptr ix op.semNum.toNat (-op.semOp) table with
      | ok table₁ suptr₁ =>
        have hrequest := hok.semundoAdjust hpointer hrecord (hnums op (by simp) hop) hadjval hadjust
        have howed₁ : ∀ i n, table₁.adjustment p i n =
            BitVec.ofInt 16 (settle owed ix [op] i n) := by
          intro i n
          rw [hrequest.adjustment, howed, ofInt_settle hop]
          simp
        obtain ⟨hlater, hundos⟩ := ih (op :: before) hrequest.ok howed₁
          hrequest.pointer (fun _ hany => hkeep hop hany) hkeeps hnums'
        refine ⟨⟨hlisted, hlater⟩, hundos.notFreed, ?_⟩
        intro table' hthrough
        obtain ⟨hok', hown, hothers⟩ := hundos.through table' hthrough
        rw [← settle_cons] at hown
        refine ⟨hok', hown, fun q i n hq => ?_⟩
        rw [hothers q i n hq, hrequest.adjustment]
        simp [hq]
      | fails error table₁ suptr₁ => exact ⟨⟨hlisted, trivial⟩, by simp, by simp⟩
      | waits table₁ => exact ⟨⟨hlisted, trivial⟩, by simp, by simp⟩
      | freed => exact absurd hadjust (semundoAdjust_ne_freed hlisted)
    · rw [if_neg hop, if_neg hop]
      have hsame : settle owed ix [op] = owed := by
        funext i n
        simp [settle, undoSum, hop]
      rw [hsame] at hkeeps
      obtain ⟨hlisted, hundos⟩ := ih (op :: before) hok howed hpointer
        (fun hsome hany => hexists hsome (by simp [hany])) hkeeps hnums'
      refine ⟨hlisted, hundos.notFreed, ?_⟩
      rw [settle_cons, hsame]
      exact hundos.through

end Loop

/-! ## Records and ledger -/

def InShort (z : ℤ) : Prop := -32768 ≤ z ∧ z ≤ 32767

instance (z : ℤ) : Decidable (InShort z) := inferInstanceAs (Decidable (_ ∧ _))

theorem toInt_ofInt_of_inShort {z : ℤ} (hz : InShort z) : (BitVec.ofInt 16 z).toInt = z := by
  obtain ⟨hlow, hhigh⟩ := hz
  rw [BitVec.toInt_ofInt, Int.bmod_def]
  split_ifs <;> omega

def Kernel.HasSem (kernel : Kernel) (ix num : ℕ) : Prop :=
  ∃ ptr, kernel.sema ix = some ptr ∧ num < (kernel.sets ptr).nsems

structure LedgerOk (kernel : Kernel) (owed : Proc → ℕ → ℕ → ℤ) : Prop where
  table : TableOk kernel.table
  ledger : ∀ p i n, kernel.table.adjustment p i n = BitVec.ofInt 16 (owed p i n)
  range : ∀ p i n, InShort (owed p i n)
  valid : ∀ p i n, owed p i n ≠ 0 → kernel.HasSem i n

structure SameShape (before after : Kernel) : Prop where
  info : after.info = before.info
  sema : after.sema = before.sema
  nsems : ∀ ptr, (after.sets ptr).nsems = (before.sets ptr).nsems

theorem SameShape.refl (kernel : Kernel) : SameShape kernel kernel :=
  ⟨rfl, rfl, fun _ => rfl⟩

theorem SameShape.trans {a b c : Kernel} (hab : SameShape a b)
    (hbc : SameShape b c) : SameShape a c :=
  ⟨hbc.info.trans hab.info, hbc.sema.trans hab.sema, fun ptr =>
    (hbc.nsems ptr).trans (hab.nsems ptr)⟩

variable {set : SemidDs}

theorem SameShape.setSet {kernel : Kernel} {ptr : SetPtr}
    (hset : set.nsems = (kernel.sets ptr).nsems) : SameShape kernel (kernel.setSet ptr set) := by
  refine ⟨rfl, rfl, fun other => ?_⟩
  by_cases heq : other = ptr
  · rw [heq, setSet_sets_self, hset]
  · rw [setSet_sets_of_ne heq]

variable {after : Kernel}

theorem SameShape.hasSem {before : Kernel} (hshape : SameShape before after)
    {ix num : ℕ} (hsem : before.HasSem ix num) : after.HasSem ix num := by
  obtain ⟨ptr, hslot, hnum⟩ := hsem
  refine ⟨ptr, ?_, ?_⟩
  · rw [hshape.sema, hslot]
  · rw [hshape.nsems]
    exact hnum

theorem LedgerOk.of_shape {before : Kernel} {owed : Proc → ℕ → ℕ → ℤ}
    (hok : LedgerOk before owed) (hshape : SameShape before after)
    (htable : after.table = before.table) : LedgerOk after owed where
  table := htable ▸ hok.table
  ledger := htable ▸ hok.ledger
  range := hok.range
  valid := fun p i n hne => hshape.hasSem (hok.valid p i n hne)

theorem foldl_subVal_nsems (set : SemidDs) (ops : List Sembuf) :
    (ops.foldl SemidDs.subVal set).nsems = set.nsems := by
  induction ops generalizing set with
  | nil => rfl
  | cons op ops ih => exact ih _

theorem foldl_setPid_nsems (p : Proc) (set : SemidDs) (ops : List Sembuf) :
    (ops.foldl (SemidDs.setPid p) set).nsems = set.nsems := by
  induction ops generalizing set with
  | nil => rfl
  | cons op ops ih => exact ih _

theorem Passes.range {ops : List Sembuf}
    (hpasses : Passes set ops) : ∀ op ∈ ops, op.semNum.toNat < set.nsems := by
  induction ops generalizing set with
  | nil => simp
  | cons op ops ih => exact forall_mem_cons.mpr ⟨hpasses.1.1, fun _ => ih hpasses.2 _⟩

theorem exists_of_undoSum_ne_zero {sops : List Sembuf} {num : ℕ} (hsum : undoSum sops num ≠ 0) :
    ∃ op ∈ sops, op.wantsUndo = true ∧ op.semNum.toNat = num := by
  by_contra hnone
  apply hsum
  have hfilter : (sops.filter fun op =>
      op.wantsUndo && op.semNum.toNat = num) = [] := by
    rw [filter_eq_nil_iff]
    intro op hop htrue
    simp only [Bool.and_eq_true, decide_eq_true_eq] at htrue
    exact hnone ⟨op, hop, htrue⟩
  rw [undoSum, hfilter]
  rfl

/-! ## One turn of a call -/

def settleCall (owed : Proc → ℕ → ℕ → ℤ) (p : Proc) (ix : ℕ)
    (sops : List Sembuf) : Proc → ℕ → ℕ → ℤ :=
  Function.update owed p (settle (owed p) ix sops)

def Outcome.Plain : Outcome → Prop
  | .returns _ => True
  | .copiesIn _ => True
  | .sleeps _ _ => True
  | _ => False

structure SegmentKeeps (p : Proc) (ix : ℕ) (sops : List Sembuf) (owed : Proc → ℕ → ℕ → ℤ)
    (before : Kernel) (segment : Segment) : Prop where
  shape : SameShape before segment.kernel
  plain : segment.outcome.Plain
  ledger : LedgerOk segment.kernel
    (if segment.outcome = .returns none then settleCall owed p ix sops else owed)

/-- The loop does not have to wait for memory, and no request after the operation
0 is refused. -/
def UndoEnd.Served : UndoEnd → Prop
  | .fails _ (_ :: _) _ _ => False
  | .waits _ _ _ _ => False
  | _ => True

/-- The condition on a vector with undo requests that can be performed now. -/
structure VectorGuard (info : Seminfo) (table : UndoTable) (pool : Option SemuPtr) (p : Proc)
    (ix : ℕ) (sops : List Sembuf) (owed : ℕ → ℕ → ℤ) : Prop where
  served : (undoLoop info pool p ix [] sops none table).Served
  nums : ∀ op ∈ sops, op.wantsUndo = true → op.semNum.toNat < 32768
  keeps : KeepsRecord ix sops owed
  fits : ∀ n, InShort (owed ix n - undoSum sops n)

def RecordGuard (kernel : Kernel) (pool : Option SemuPtr) (p : Proc)
    (call : SemopCall) (owed : ℕ → ℕ → ℤ) : Prop :=
  ∀ attempt, tryOps [] call.sops
    { set := kernel.sets call.semaptr, undos := call.undos } = (attempt, .through) →
    attempt.undos = true →
    VectorGuard kernel.info kernel.table pool p call.ix call.sops owed

section Turn

variable {kernel : Kernel} {pool : Option SemuPtr} {p : Proc}
  {call : SemopCall} {owed : Proc → ℕ → ℕ → ℤ}

section

variable (hok : LedgerOk kernel owed)
include hok

theorem LedgerOk.segment {segment : Segment} (hshape : SameShape kernel segment.kernel)
    (htable : segment.kernel.table = kernel.table)
    (hplain : segment.outcome.Plain) (hfails : segment.outcome ≠ .returns none) :
    SegmentKeeps p call.ix call.sops owed kernel segment := by
  refine ⟨hshape, hplain, ?_⟩
  rw [if_neg hfails]
  exact hok.of_shape hshape htable

theorem LedgerOk.settle {table : UndoTable} (hshape : SameShape kernel after)
    (hslot : kernel.sema call.ix = some call.semaptr)
    (hrange : ∀ op ∈ call.sops, op.semNum.toNat < (kernel.sets call.semaptr).nsems)
    (hfits : ∀ n, InShort (owed p call.ix n - undoSum call.sops n))
    (htable : after.table = table) (htableOk : TableOk table)
    (hown : ∀ i n, table.adjustment p i n = BitVec.ofInt 16 (settle (owed p) call.ix call.sops i n))
    (hothers : ∀ q i n, q ≠ p → table.adjustment q i n = kernel.table.adjustment q i n) :
    LedgerOk after (settleCall owed p call.ix call.sops) := by
  have hother : ∀ q, q ≠ p → settleCall owed p call.ix call.sops q = owed q := fun q hq =>
    update_of_ne hq _ _
  have hself : settleCall owed p call.ix call.sops p =
      Semaphore.settle (owed p) call.ix call.sops := update_self _ _ _
  refine ⟨htable ▸ htableOk, fun q i n => ?_, fun q i n => ?_,
    fun q i n hne => ?_⟩ <;> by_cases hq : q = p
  · rw [hq, hself, htable, hown]
  · rw [hother q hq, htable, hothers q i n hq, hok.ledger]
  · rw [hq, hself, Semaphore.settle]
    split_ifs with hi
    · rw [hi]
      exact hfits n
    · exact hok.range p i n
  · rw [hother q hq]
    exact hok.range q i n
  · rw [hq, hself, Semaphore.settle] at hne
    by_cases howed : owed p i n = 0
    · split_ifs at hne with hi
      · have hsum : undoSum call.sops n ≠ 0 := by
          intro hzero
          rw [howed, hzero] at hne
          exact hne rfl
        obtain ⟨op, hop, _, hnum⟩ := exists_of_undoSum_ne_zero hsum
        refine hshape.hasSem ⟨call.semaptr, by rw [hi, hslot], ?_⟩
        rw [← hnum]
        exact hrange op hop
      · exact absurd howed hne
    · exact hshape.hasSem (hok.valid p i n howed)
  · rw [hother q hq] at hne
    exact hshape.hasSem (hok.valid q i n hne)

section

variable (hpool : kernel.poolOk pool = true)
include hpool

omit hok in
theorem poolOk_pointerOk : PointerOk pool p kernel.table none := by
  intro addr haddr su hsu
  obtain rfl : pool = some addr := haddr
  simp only [Kernel.poolOk, Option.all_some, Kernel.semuFree, all_eq_true] at hpool
  simpa using hpool su hsu

theorem LedgerOk.undoLoop
    (hguard : VectorGuard kernel.info kernel.table pool p call.ix call.sops (owed p)) :
    PointersListed kernel.info pool p call.ix call.sops none kernel.table ∧
      UndosOk p call.ix call.sops (owed p) kernel.table
        (Semaphore.undoLoop kernel.info pool p call.ix [] call.sops none kernel.table) :=
  undoLoop_ok [] hok.table (hok.ledger p) (poolOk_pointerOk hpool)
    (fun h => absurd rfl h) hguard.keeps hguard.nums

theorem LedgerOk.undoPhase {wakes : Bool} (hslot : kernel.sema call.ix = some call.semaptr)
    (hset : set.nsems = (kernel.sets call.semaptr).nsems)
    (hrange : ∀ op ∈ call.sops, op.semNum.toNat < (kernel.sets call.semaptr).nsems)
    (hnone : call.undos = false → ∀ op ∈ call.sops, op.wantsUndo = false)
    (hguard : call.undos = true →
      VectorGuard kernel.info kernel.table pool p call.ix call.sops (owed p)) :
    SegmentKeeps p call.ix call.sops owed kernel
      (undoPhase (kernel.setSet call.semaptr set) pool p call wakes) := by
  have hshape := SameShape.setSet hset
  have hfinish : ∀ table, SameShape kernel
      (finishCall ((kernel.setSet call.semaptr set).setTable table) p call wakes).kernel := by
    intro table
    have htable : SameShape kernel ((kernel.setSet call.semaptr set).setTable table) :=
      { hshape with }
    exact htable.trans (SameShape.setSet (foldl_setPid_nsems _ _ _))
  rw [Semaphore.undoPhase]
  split_ifs with hundos
  · have hguard := hguard hundos
    obtain ⟨_, hundosOk⟩ := hok.undoLoop hpool hguard
    have hserved := hguard.served
    have hinfo : (kernel.setSet call.semaptr set).info = kernel.info := rfl
    have htable : (kernel.setSet call.semaptr set).table = kernel.table := rfl
    rw [hinfo, htable]
    generalize hloop : Semaphore.undoLoop kernel.info pool p call.ix []
      call.sops none kernel.table = result at hserved hundosOk
    rcases result with table | ⟨error, _ | _, suptr, table⟩ | _ | _
    case through =>
      obtain ⟨htableOk, hown, hothers⟩ := hundosOk.through table rfl
      refine ⟨hfinish table, trivial, ?_⟩
      have hsettled := hok.settle (hfinish table) hslot hrange hguard.fits rfl htableOk hown hothers
      exact hsettled
    case fails.nil =>
      obtain rfl := undoLoop_fails_first hloop
      refine hok.segment ?_ rfl trivial ?_
      · have hback : (call.sops.foldl SemidDs.subVal
            ((kernel.setSet call.semaptr set).sets call.semaptr)).nsems =
            ((kernel.setSet call.semaptr set).sets call.semaptr).nsems := foldl_subVal_nsems _ _
        have hshape' := hshape.trans (SameShape.setSet hback)
        exact ⟨hshape'.info, hshape'.sema, hshape'.nsems⟩
      · simp [afterUndos]
    case freed => exact absurd rfl hundosOk.notFreed
    all_goals exact hserved.elim
  · have hnone := hnone (by simpa using hundos)
    have hzero : ∀ n, undoSum call.sops n = 0 := by
      intro n
      by_contra hne
      obtain ⟨op, hop, hwants, _⟩ := exists_of_undoSum_ne_zero hne
      rw [hnone op hop] at hwants
      cases hwants
    have hsame : ∀ i n, Semaphore.settle (owed p) call.ix call.sops i n =
        owed p i n := by
      intro i n
      simp [Semaphore.settle, hzero]
    refine ⟨hfinish kernel.table, trivial, ?_⟩
    refine hok.settle (hfinish kernel.table) hslot hrange ?_ rfl hok.table ?_ fun _ _ _ _ => rfl
    · intro n
      rw [hzero, sub_zero]
      exact hok.range p _ n
    · intro i n
      rw [hsame]
      exact hok.ledger p i n

theorem LedgerOk.semopTurn (hslot : kernel.sema call.ix = some call.semaptr)
    (hguard : RecordGuard kernel pool p call (owed p)) :
    SegmentKeeps p call.ix call.sops owed kernel (semopTurn kernel pool p call) := by
  have hundos := hguard
  rw [Semaphore.semopTurn]
  rw [RecordGuard] at hundos
  set attempt₀ : Attempt := { set := kernel.sets call.semaptr, undos := call.undos }
  obtain ⟨done, rest, hpassed⟩ := tryOps_passed [] call.sops attempt₀
  have hthrough : (tryOps [] call.sops attempt₀).2 = .through →
      Passes attempt₀.set call.sops := tryOps_through_iff.mp
  have hset : (tryOps [] call.sops attempt₀).1.set.nsems = (kernel.sets call.semaptr).nsems := by
    rw [hpassed.set, foldl_addVal_nsems]
  generalize tryOps [] call.sops attempt₀ = result at *
  obtain ⟨attempt, stop⟩ := result
  cases stop with
  | through =>
    have hrest := hpassed.through rfl
    have hsplit := hpassed.split
    rw [hrest, append_nil] at hsplit
    subst hsplit
    let call' : SemopCall := { call with undos := attempt.undos }
    have hslot' : kernel.sema call'.ix = some call'.semaptr := hslot
    have hphase : SegmentKeeps p call'.ix call'.sops owed kernel
        (Semaphore.undoPhase (kernel.setSet call'.semaptr attempt.set) pool p
          call' attempt.wakes) :=
      hok.undoPhase hpool hslot' hset (hthrough rfl).range (fun hfalse => (hpassed.undos hfalse).2)
        (fun htrue => hundos attempt rfl htrue)
    exact hphase
  | outOfRange =>
    exact hok.segment (SameShape.setSet hset) rfl trivial (by simp)
  | blocked op performed =>
    have hback : (performed.foldl SemidDs.subVal attempt.set).nsems =
        (kernel.sets call.semaptr).nsems := by
      rw [foldl_subVal_nsems]
      exact hset
    simp only
    split_ifs
    · exact hok.segment (SameShape.setSet hback) rfl trivial (by simp)
    · exact hok.segment (SameShape.setSet hback) rfl trivial (by simp)

end

theorem LedgerOk.semopCopied (copied : Bool) (hpool : kernel.poolOk pool = true)
    (hslot : kernel.sema call.ix = some call.semaptr)
    (hguard : RecordGuard kernel pool p call (owed p)) :
    SegmentKeeps p call.ix call.sops owed kernel (semopCopied kernel pool p call copied) := by
  rw [Semaphore.semopCopied]
  split_ifs with hcopied hlive
  · exact hok.segment (SameShape.refl _) rfl trivial (by simp)
  · exact hok.semopTurn hpool hslot hguard
  · exact absurd (.inl hslot) hlive

theorem LedgerOk.semopWoken (signalled : Bool) (hpool : kernel.poolOk pool = true)
    (hguard : ∀ slot, kernel.sema call.ix = some slot → slot = call.semaptr ∧
      RecordGuard (kernel.uncounted call op) pool p call (owed p)) :
    SegmentKeeps p call.ix call.sops owed kernel (semopWoken kernel pool p call op signalled) := by
  rw [Semaphore.semopWoken]
  split
  · exact hok.segment (SameShape.refl _) rfl trivial (by simp)
  · rename_i slot hslot
    obtain ⟨rfl, hguard⟩ := hguard slot hslot
    rw [if_pos (.inl rfl)]
    dsimp only
    split_ifs
    · exact hok.segment (SameShape.refl _) rfl trivial (by simp)
    · exact hok.segment (SameShape.setSet rfl) rfl trivial (by simp)
    · have hshape : SameShape kernel (kernel.uncounted call op) := SameShape.setSet rfl
      have hturn := (hok.of_shape hshape rfl).semopTurn hpool hslot hguard
      exact ⟨hshape.trans hturn.shape, hturn.plain, hturn.ledger⟩

end

end Turn

/-! ## The other calls -/

def clears (kernel : Kernel) (semid : BitVec 32) (cmd : SemctlCmd) : Option (ℕ × Option ℕ) :=
  let ix := ipcidToIx semid
  if ix ≥ kernel.info.semmni then none
  else
    match kernel.sema ix with
    | none => none
    | some ptr =>
      if (kernel.sets ptr).seq ≠ ipcidToSeq semid then none
      else
        match cmd with
        | .ipcRmid => some (ix, none)
        | .setVal semnum _ =>
          if semnum < 0 ∨ semnum ≥ (kernel.sets ptr).nsems then none
          else some (ix, some semnum.toNat)
        | .setAll _ => some (ix, none)

def clearOwed (owed : Proc → ℕ → ℕ → ℤ) (ix : ℕ) (num : Option ℕ) : Proc → ℕ → ℕ → ℤ :=
  fun p i n => if i = ix ∧ num.all (· = n) then 0 else owed p i n

structure ClearsSlot (before after : Kernel) (ix : ℕ) (num : Option ℕ) : Prop where
  info : after.info = before.info
  nsems : ∀ ptr, (after.sets ptr).nsems = (before.sets ptr).nsems
  table : after.table = semundoClear ix num before.table
  sema : ∀ i, after.sema i = before.sema i ∨ i = ix ∧ num = none ∧ after.sema i = none

theorem semctl1_clears (kernel : Kernel) (semid : BitVec 32) (cmd : SemctlCmd) :
    (clears kernel semid cmd = none ∧ (semctl1 kernel semid cmd).kernel = kernel) ∨
    ∃ ix num, clears kernel semid cmd = some (ix, num) ∧
      ClearsSlot kernel (semctl1 kernel semid cmd).kernel ix num := by
  have hset : ∀ ptr (set : SemidDs), set.nsems = (kernel.sets ptr).nsems → ∀ num, ClearsSlot kernel
        ((kernel.setSet ptr set).setTable (semundoClear (ipcidToIx semid) num kernel.table))
        (ipcidToIx semid) num := fun ptr set hnsems num =>
    ⟨rfl, (SameShape.setSet hnsems).nsems, rfl, fun _ => .inl rfl⟩
  unfold semctl1 clears
  dsimp only
  split_ifs with hix
  · exact .inl ⟨rfl, rfl⟩
  cases hslot : kernel.sema (ipcidToIx semid) with
  | none => exact .inl ⟨rfl, rfl⟩
  | some ptr =>
    dsimp only
    split_ifs with hseq
    · exact .inl ⟨rfl, rfl⟩
    cases cmd with
    | ipcRmid =>
      refine .inr ⟨_, _, rfl, rfl, fun _ => rfl, rfl, fun i => ?_⟩
      by_cases hi : i = ipcidToIx semid
      · exact .inr ⟨hi, rfl, by rw [hi]; exact update_self _ _ _⟩
      · exact .inl (update_of_ne hi _ _)
    | setVal semnum val =>
      dsimp only
      split_ifs
      · exact .inl ⟨rfl, rfl⟩
      · refine .inr ⟨_, _, rfl, ?_⟩
        apply hset
        rfl
    | setAll values =>
      refine .inr ⟨_, _, rfl, ?_⟩
      apply hset
      rfl

section Calls

variable {kernel : Kernel} {owed : Proc → ℕ → ℕ → ℤ}

theorem LedgerOk.clear {ix : ℕ} {num : Option ℕ}
    (hok : LedgerOk kernel owed) (hclears : ClearsSlot kernel after ix num)
    (hfirst : ∀ su ∈ kernel.table.semuList, ∀ n ∈ num, ClearsFirst ix n su.ent) :
    LedgerOk after (clearOwed owed ix num) := by
  obtain ⟨htable, hadjust⟩ := hok.table.clear hfirst
  refine ⟨hclears.table ▸ htable, fun p i n => ?_, fun p i n => ?_, fun p i n hne => ?_⟩
  · rw [hclears.table, hadjust, clearOwed, hok.ledger]
    split_ifs
    · rfl
    · rfl
  · rw [clearOwed]
    split_ifs
    · exact ⟨by norm_num, by norm_num⟩
    · exact hok.range p i n
  · rw [clearOwed] at hne
    split_ifs at hne with hcleared
    · exact absurd rfl hne
    · obtain ⟨ptr, hslot, hnum⟩ := hok.valid p i n hne
      refine ⟨ptr, ?_, by rw [hclears.nsems]; exact hnum⟩
      rcases hclears.sema i with hsame | ⟨hi, hnone, _⟩
      · rw [hsame, hslot]
      · rw [hnone] at hcleared
        exact absurd ⟨hi, rfl⟩ hcleared

def Kernel.SlotsOk (kernel : Kernel) : Prop :=
  ∀ ix, kernel.info.semmni ≤ ix → kernel.sema ix = none

theorem LedgerOk.semget {ptr : SetPtr} {nsems : ℕ} (hok : LedgerOk kernel owed)
    (hslots : kernel.SlotsOk) (hfree : kernel.live ptr = false) :
    LedgerOk (sysSemget kernel ptr nsems).kernel owed ∧
      (sysSemget kernel ptr nsems).kernel.SlotsOk := by
  rw [sysSemget]
  split_ifs
  · exact ⟨hok, hslots⟩
  · exact ⟨hok, hslots⟩
  · split
    · exact ⟨hok, hslots⟩
    · rename_i ix hfind
      have hempty : kernel.sema ix = none := by
        simpa using find?_some hfind
      have hix : ix < kernel.info.semmni := mem_range.mp (mem_of_find?_eq_some hfind)
      refine ⟨⟨hok.table, hok.ledger, hok.range, fun p i n hne => ?_⟩, ?_⟩
      · obtain ⟨other, hslot, hnum⟩ := hok.valid p i n hne
        have hi : i < kernel.info.semmni := by
          by_contra hge
          rw [hslots i (by omega)] at hslot
          cases hslot
        have hne_ix : i ≠ ix := by
          rintro rfl
          rw [hempty] at hslot
          cases hslot
        have hne_ptr : other ≠ ptr := by
          rintro rfl
          have hlive : kernel.live other = true := by
            simp only [Kernel.live, any_eq_true, mem_range, decide_eq_true_eq]
            exact ⟨i, hi, hslot⟩
          rw [hfree] at hlive
          cases hlive
        exact ⟨other, by simp [update_of_ne hne_ix, hslot], by simp [update_of_ne hne_ptr, hnum]⟩
      · intro i hi
        have hne_ix : i ≠ ix := by
          rintro rfl
          exact absurd hix (not_lt.mpr hi)
        have hsema := hslots i hi
        simp [update_of_ne hne_ix, hsema]

theorem exitEntries_valid {entries : List Undo} (hvalid : ∀ entry ∈ entries, 0 ≤ entry.num.toInt ∧
      kernel.HasSem entry.id entry.num.toInt.toNat) (woken : List ℕ) :
    ∃ after slots, exitEntries entries kernel woken = some (after, slots) ∧
      SameShape kernel after ∧ after.table = kernel.table := by
  induction entries generalizing kernel woken with
  | nil => exact ⟨kernel, woken, rfl, SameShape.refl _, rfl⟩
  | cons entry entries ih =>
    obtain ⟨hnonneg, ptr, hslot, hnum⟩ := hvalid entry (by simp)
    rw [exitEntries, hslot]
    dsimp only
    rw [if_neg (by omega)]
    generalize hset : SemidDs.modifySem (kernel.sets ptr) _ _ = set
    have hshape : SameShape kernel (kernel.setSet ptr set) := SameShape.setSet (by rw [← hset]; rfl)
    obtain ⟨after, slots, hexit, hafter, htable⟩ :=
      ih (fun other hother => by
        obtain ⟨hnonneg, hsem⟩ := hvalid other (by simp [hother])
        exact ⟨hnonneg, hshape.hasSem hsem⟩) (woken ++ [entry.id])
    exact ⟨after, slots, hexit, hshape.trans hafter, htable⟩

theorem LedgerOk.entry_valid (hok : LedgerOk kernel owed) {su : SemUndo}
    (hsu : su ∈ kernel.table.semuList) {entry : Undo} (hentry : entry ∈ su.ent) :
    0 ≤ entry.num.toInt ∧ kernel.HasSem entry.id entry.num.toInt.toNat ∧
      entry.adjval.toInt = owed su.proc entry.id entry.num.toInt.toNat := by
  have hentries := hok.table.entries su hsu
  have hnonneg := hentries.nums entry hentry
  have hfor : entry.isFor entry.id entry.num.toInt.toNat = true := isFor_iff.mpr ⟨rfl, by omega⟩
  have hadjust : BitVec.ofInt 16 (owed su.proc entry.id entry.num.toInt.toNat) = entry.adjval := by
    rw [← hok.ledger, UndoTable.adjustment, hok.table.entriesOf_eq hsu]
    exact hentries.adjustmentIn_eq hentry hfor
  refine ⟨hnonneg, hok.valid su.proc _ _ ?_, ?_⟩
  · intro hzero
    rw [hzero] at hadjust
    exact hentries.nonzero entry hentry hadjust.symm
  · rw [← hadjust]
    exact toInt_ofInt_of_inShort (hok.range _ _ _)

theorem LedgerOk.semexit (hok : LedgerOk kernel owed) (p : Proc) :
    ∃ after woken, semexit kernel p = some (after, woken) ∧ SameShape kernel after ∧
      LedgerOk after (update owed p fun _ _ => 0) := by
  have hkeep : ∀ after : Kernel, SameShape kernel after → TableOk after.table →
      (∀ q, after.table.entriesOf q =
        if q = p then [] else kernel.table.entriesOf q) →
      LedgerOk after (update owed p fun _ _ => 0) := by
    intro after hshape htable hentries
    have hother : ∀ q, q ≠ p → update owed p (fun _ _ => 0) q = owed q := fun q hq =>
      update_of_ne hq _ _
    have hself : update owed p (fun _ _ => 0) p = fun _ _ => 0 := update_self _ _ _
    refine ⟨htable, fun q i n => ?_, fun q i n => ?_, fun q i n hne => ?_⟩ <;>
      by_cases hq : q = p
    · rw [UndoTable.adjustment, hentries, if_pos hq, hq, hself]
      rfl
    · rw [UndoTable.adjustment, hentries, if_neg hq, hother q hq, ← hok.ledger]
      rfl
    · rw [hq, hself]
      exact ⟨by norm_num, by norm_num⟩
    · rw [hother q hq]
      exact hok.range q i n
    · rw [hq, hself] at hne
      exact absurd rfl hne
    · rw [hother q hq] at hne
      exact hshape.hasSem (hok.valid q i n hne)
  rw [Semaphore.semexit]
  split
  · rename_i hfind
    refine ⟨kernel, [], rfl, SameShape.refl _,
      hkeep kernel (SameShape.refl _) hok.table fun q => ?_⟩
    split_ifs with hq
    · rw [hq]
      apply entriesOf_eq_nil
      simpa using hfind
    · rfl
  · rename_i su hfind
    have hsu := mem_of_find?_eq_some hfind
    have hproc : su.proc = p := by simpa using find?_some hfind
    obtain ⟨after, slots, hexit, hshape, htable⟩ :=
      exitEntries_valid (fun entry hentry => by
        obtain ⟨hnonneg, hsem, _⟩ := hok.entry_valid hsu hentry
        exact ⟨hnonneg, hsem⟩) []
    have hempty : EntriesOk [] := ⟨by simp, by simp, by simp⟩
    obtain ⟨hstored, hentries, _⟩ := hok.table.store hsu hempty
    have hstore : storeEntries kernel.table su.addr [] =
        { semuList := after.table.semuList.eraseP (·.addr = su.addr)
          semutot := after.table.semutot - 1 } := by
      rw [htable]
      rfl
    rw [hstore] at hstored hentries
    rw [hproc] at hentries
    have hshape' : SameShape kernel (after.setTable
        { semuList := after.table.semuList.eraseP (·.addr = su.addr)
          semutot := after.table.semutot - 1 }) := { hshape with }
    refine ⟨_, slots, by rw [hexit]; rfl, hshape', hkeep _ hshape' hstored ?_⟩
    exact hentries

end Calls

end AerieKernel.Semaphore
