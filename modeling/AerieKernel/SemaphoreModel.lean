import Mathlib.Tactic
import Mathlib.Data.BitVec

/-!
# System V semaphores

The model of `sysv_sem.c`: semaphore sets, the undo records of processes, and the
system calls.  The kernel is not preempted, so a call is a sequence of segments
that end where it sleeps: in `malloc` and `copyin` for the vector, in `tsleep`
until the whole vector can be done, or in `pool_get` until there is memory for an
undo record.  Sets and undo records have addresses.  The contents of freed memory
are unknown, so a segment that reads them has no outcome.
-/

namespace AerieKernel.Semaphore

open Function

abbrev Proc := ℕ
abbrev SetPtr := ℕ
abbrev SemuPtr := ℕ

inductive Errno where
  | einval
  | eacces
  | e2big
  | efault
  | efbig
  | eagain
  | eintr
  | eidrm
  | enospc
  deriving DecidableEq, Repr

/-! ## Records -/

@[ext] structure Sem where
  semval : BitVec 16 := 0
  sempid : Proc := 0
  semncnt : BitVec 16 := 0
  semzcnt : BitVec 16 := 0
  deriving DecidableEq, Repr

/-- `struct semid_ds` with the array that `sem_base` points to. -/
@[ext] structure SemidDs where
  seq : BitVec 16
  nsems : ℕ
  sem : ℕ → Sem

structure Sembuf where
  semNum : BitVec 16
  semOp : BitVec 16
  nowait : Bool := false
  undo : Bool := false
  deriving DecidableEq, Repr

/-- `struct undo`; `adjval` and `num` are signed. -/
structure Undo where
  adjval : BitVec 16
  num : BitVec 16
  id : ℕ
  deriving DecidableEq, Repr

/-- `struct sem_undo`; `un_cnt` is the number of entries. -/
structure SemUndo where
  addr : SemuPtr
  proc : Proc
  ent : List Undo
  deriving DecidableEq, Repr

@[ext] structure UndoTable where
  semuList : List SemUndo := []
  semutot : ℕ := 0
  deriving DecidableEq, Repr

/-- The limits; `semume` is the constant `SEMUME`. -/
structure Seminfo where
  semmni : ℕ := 10
  semmns : ℕ := 60
  semmnu : ℕ := 30
  semmsl : ℕ := 60
  semopm : ℕ := 100
  semume : ℕ := 10
  semume_pos : 0 < semume := by decide

@[ext] structure Kernel where
  info : Seminfo := {}
  sema : ℕ → Option SetPtr := fun _ => none
  sets : SetPtr → SemidDs := fun _ => ⟨0, 0, fun _ => {}⟩
  semseqs : ℕ → BitVec 16 := fun _ => 0
  semtot : ℕ := 0
  table : UndoTable := {}

def Kernel.live (kernel : Kernel) (ptr : SetPtr) : Bool :=
  (List.range kernel.info.semmni).any fun ix => kernel.sema ix = some ptr

def Kernel.setSet (kernel : Kernel) (ptr : SetPtr) (set : SemidDs) : Kernel :=
  { kernel with sets := update kernel.sets ptr set }

def Kernel.setTable (kernel : Kernel) (table : UndoTable) : Kernel :=
  { kernel with table := table }

namespace SemidDs

def modifySem (set : SemidDs) (num : ℕ) (f : Sem → Sem) : SemidDs :=
  { set with sem := update set.sem num (f (set.sem num)) }

def addVal (set : SemidDs) (op : Sembuf) : SemidDs :=
  set.modifySem op.semNum.toNat fun sem =>
    { sem with semval := sem.semval + op.semOp }

def subVal (set : SemidDs) (op : Sembuf) : SemidDs :=
  set.modifySem op.semNum.toNat fun sem =>
    { sem with semval := sem.semval - op.semOp }

def countWaiter (set : SemidDs) (op : Sembuf) (delta : BitVec 16) : SemidDs :=
  set.modifySem op.semNum.toNat fun sem =>
    if op.semOp = 0 then { sem with semzcnt := sem.semzcnt + delta }
    else { sem with semncnt := sem.semncnt + delta }

def setPid (p : Proc) (set : SemidDs) (op : Sembuf) : SemidDs :=
  set.modifySem op.semNum.toNat fun sem => { sem with sempid := p }

end SemidDs

/-! ## Undo records -/

/-- What `semu_alloc` does before it may have to wait. -/
inductive SemuAlloc where
  | full
  | waits (table : UndoTable)
  | got (table : UndoTable) (addr : SemuPtr)
  deriving DecidableEq, Repr

/-- `semu_alloc`; `pool` is what `pool_get` gives without waiting. -/
def semuAlloc (info : Seminfo) (pool : Option SemuPtr) (p : Proc) (table : UndoTable) : SemuAlloc :=
  if table.semutot = info.semmnu then .full
  else
    let table := { table with semutot := table.semutot + 1 }
    match pool with
    | none => .waits table
    | some addr =>
      .got { table with semuList := ⟨addr, p, []⟩ :: table.semuList } addr

/-- `semu_alloc` once `pool_get` has returned a record after all. -/
def semuAllocResume (addr : SemuPtr) (p : Proc) (table : UndoTable) : UndoTable × SemuPtr :=
  match table.semuList.find? (·.proc = p) with
  | some found => ({ table with semutot := table.semutot - 1 }, found.addr)
  | none =>
    ({ table with semuList := ⟨addr, p, []⟩ :: table.semuList }, addr)

/-- The entry is for the semaphore; `un_num` is a `short`. -/
def Undo.isFor (entry : Undo) (semid semnum : ℕ) : Bool :=
  entry.id = semid && entry.num.toInt = (semnum : ℤ)

def deleteEntry (ent : List Undo) (i : ℕ) : List Undo :=
  match ent.getLast? with
  | none => []
  | some last => (ent.set i last).dropLast

/-- The loop of `semundo_adjust` over the entries; `none` if there is no room for
another one. -/
def adjustEntries (semume semid semnum : ℕ) (adjval : BitVec 16)
    (ent : List Undo) : Option (List Undo) :=
  match ent.findIdx? (·.isFor semid semnum) with
  | some i =>
    let old := (ent[i]?.map Undo.adjval).getD 0
    let new := if adjval = 0 then 0 else old + adjval
    if new ≠ 0 then
      some (ent.modify i fun entry => { entry with adjval := new })
    else some (deleteEntry ent i)
  | none =>
    if adjval = 0 then some ent
    else if ent.length = semume then none
    else some (ent ++ [⟨adjval, BitVec.ofNat 16 semnum, semid⟩])

/-- Where a call of `semundo_adjust` ends: with the pointer it leaves, with an
error, asleep in `semu_alloc`, or reading a record that has been freed. -/
inductive Adjusted where
  | ok (table : UndoTable) (suptr : Option SemuPtr)
  | fails (error : Errno) (table : UndoTable) (suptr : Option SemuPtr)
  | waits (table : UndoTable)
  | freed
  deriving DecidableEq, Repr

/-- Put the entries back into a record, which goes if there are none. -/
def storeEntries (table : UndoTable) (addr : SemuPtr) (ent : List Undo) : UndoTable :=
  if ent = [] then
    { semuList := table.semuList.eraseP (·.addr = addr)
      semutot := table.semutot - 1 }
  else
    { table with
      semuList := table.semuList.map fun su =>
        if su.addr = addr then { su with ent := ent } else su }

def adjustRecord (info : Seminfo) (semid semnum : ℕ) (adjval : BitVec 16)
    (table : UndoTable) (su : SemUndo) : Adjusted :=
  match adjustEntries info.semume semid semnum adjval su.ent with
  | none => .fails .einval table (some su.addr)
  | some ent => .ok (storeEntries table su.addr ent) (some su.addr)

def semundoAdjust (info : Seminfo) (pool : Option SemuPtr) (p : Proc) (suptr : Option SemuPtr)
    (semid semnum : ℕ) (adjval : BitVec 16) (table : UndoTable) : Adjusted :=
  match suptr with
  | some addr =>
    match table.semuList.find? (·.addr = addr) with
    | none => .freed
    | some su => adjustRecord info semid semnum adjval table su
  | none =>
    match table.semuList.find? (·.proc = p) with
    | some su => adjustRecord info semid semnum adjval table su
    | none =>
      if adjval = 0 then .ok table none
      else
        match semuAlloc info pool p table with
        | .full => .fails .enospc table none
        | .waits table => .waits table
        | .got table addr =>
          adjustRecord info semid semnum adjval table ⟨addr, p, []⟩

/-- The loop of `semundo_clear` over the entries of a record, from `i` on; no
`semnum` stands for -1. -/
def clearEntries (semid : ℕ) (semnum : Option ℕ) : ℕ → ℕ → List Undo → List Undo
  | 0, _, ent => ent
  | fuel + 1, i, ent =>
    match ent[i]? with
    | none => ent
    | some entry =>
      if entry.id = semid then
        match semnum with
        | none => clearEntries semid semnum fuel i (deleteEntry ent i)
        | some num =>
          -- an entry for another semaphore of the set ends the loop too
          if entry.num.toInt = (num : ℤ) then deleteEntry ent i else ent
      else clearEntries semid semnum fuel (i + 1) ent

def semundoClear (semid : ℕ) (semnum : Option ℕ) (table : UndoTable) : UndoTable :=
  let cleared := table.semuList.map fun su =>
    { su with ent := clearEntries semid semnum su.ent.length 0 su.ent }
  let kept := cleared.filter fun su => su.ent ≠ []
  { semuList := kept
    semutot := table.semutot - (table.semuList.length - kept.length) }

/-! ## One pass over the vector -/

/-- The set and the flags `do_wakeup` and `do_undos` while the operations are
tried. -/
structure Attempt where
  set : SemidDs
  wakes : Bool := false
  undos : Bool := false

/-- Where the pass ends; the operations before the blocked one have been done. -/
inductive AttemptEnd where
  | through
  | blocked (op : Sembuf) (before : List Sembuf)
  | outOfRange
  deriving DecidableEq, Repr

/-- The inner loop of `sys_semop`. -/
def tryOps : List Sembuf → List Sembuf → Attempt → Attempt × AttemptEnd
  | _, [], attempt => (attempt, .through)
  | before, op :: rest, attempt =>
    let sem := attempt.set.sem op.semNum.toNat
    if op.semNum.toNat ≥ attempt.set.nsems then (attempt, .outOfRange)
    else if op.semOp.toInt < 0 then
      if sem.semval.toNat + op.semOp.toInt < 0 then
        (attempt, .blocked op before)
      else
        tryOps (before ++ [op]) rest
          { set := attempt.set.addVal op
            wakes := attempt.wakes || (sem.semval + op.semOp = 0 && sem.semzcnt ≠ 0)
            undos := attempt.undos || op.undo }
    else if op.semOp = 0 then
      if sem.semval ≠ 0 then (attempt, .blocked op before)
      else tryOps (before ++ [op]) rest attempt
    else
      tryOps (before ++ [op]) rest
        { set := attempt.set.addVal op
          wakes := attempt.wakes || sem.semncnt ≠ 0
          undos := attempt.undos || op.undo }

/-! ## The undo requests of the vector -/

def Sembuf.wantsUndo (op : Sembuf) : Bool := op.undo && op.semOp ≠ 0

/-- How the loop over the undo requests ends.  With an error come the operations
before the failed one, the last of them first. -/
inductive UndoEnd where
  | through (table : UndoTable)
  | fails (error : Errno) (before : List Sembuf) (suptr : Option SemuPtr)
      (table : UndoTable)
  | waits (op : Sembuf) (before rest : List Sembuf) (table : UndoTable)
  | freed
  deriving DecidableEq, Repr

def undoLoop (info : Seminfo) (pool : Option SemuPtr) (p : Proc) (ix : ℕ) :
    List Sembuf → List Sembuf → Option SemuPtr → UndoTable → UndoEnd
  | _, [], _, table => .through table
  | before, op :: rest, suptr, table =>
    if op.wantsUndo then
      match semundoAdjust info pool p suptr ix op.semNum.toNat (-op.semOp)
          table with
      | .ok table suptr =>
        undoLoop info pool p ix (op :: before) rest suptr table
      | .fails error table suptr => .fails error before suptr table
      | .waits table => .waits op before rest table
      | .freed => .freed
    else undoLoop info pool p ix (op :: before) rest suptr table

inductive UndoRollback where
  | panics
  | sleeps
  | freed
  | leavesVector
  deriving DecidableEq, Repr

/-- `for (j = i - 1; j >= 0; j--)` with an unsigned `j`: after the operation 0 the
loop goes on with the index `SIZE_MAX`. -/
def rollbackUndos (info : Seminfo) (pool : Option SemuPtr) (p : Proc)
    (ix : ℕ) : List Sembuf → Option SemuPtr → UndoTable → UndoRollback
  | [], _, _ => .leavesVector
  | op :: before, suptr, table =>
    if op.wantsUndo then
      match semundoAdjust info pool p suptr ix op.semNum.toNat op.semOp
          table with
      | .ok table suptr => rollbackUndos info pool p ix before suptr table
      | .fails _ _ _ => .panics
      | .waits _ => .sleeps
      | .freed => .freed
    else rollbackUndos info pool p ix before suptr table

/-! ## The system call -/

/-- The variables of a call that lives on while the process sleeps. -/
structure SemopCall where
  ix : ℕ
  seq : BitVec 16
  semaptr : SetPtr
  sops : List Sembuf
  undos : Bool := false
  deriving DecidableEq, Repr

/-- A call that sleeps in `semu_alloc` for the operation `op`. -/
structure MemoryWait where
  call : SemopCall
  wakes : Bool
  op : Sembuf
  before : List Sembuf
  rest : List Sembuf
  deriving DecidableEq, Repr

inductive Outcome where
  | returns (error : Option Errno)
  | copiesIn (call : SemopCall)
  | sleeps (call : SemopCall) (op : Sembuf)
  | awaitsMemory (wait : MemoryWait)
  | panics
  | undefined
  deriving DecidableEq, Repr

/-- The kernel after a segment of a call, and the slot whose sleepers are woken
up. -/
structure Segment where
  kernel : Kernel
  outcome : Outcome
  wakeup : Option ℕ := none

variable (kernel : Kernel)

def finishCall (p : Proc) (call : SemopCall) (wakes : Bool) : Segment :=
  let set := call.sops.foldl (SemidDs.setPid p) (kernel.sets call.semaptr)
  { kernel := kernel.setSet call.semaptr set
    outcome := .returns none
    wakeup := if wakes then some call.ix else none }

variable (pool : Option SemuPtr) (p : Proc) (call : SemopCall)

def afterUndos (wakes : Bool) (result : UndoEnd) : Segment :=
  match result with
  | .through table => finishCall (kernel.setTable table) p call wakes
  | .fails error [] _ table =>
    let set := call.sops.foldl SemidDs.subVal (kernel.sets call.semaptr)
    { kernel := (kernel.setSet call.semaptr set).setTable table
      outcome := .returns (some error) }
  | .fails _ (last :: before) suptr table =>
    { kernel := kernel
      outcome :=
        match rollbackUndos kernel.info pool p call.ix (last :: before) suptr
            table with
        | .panics => .panics
        | _ => .undefined }
  | .waits op before rest table =>
    { kernel := kernel.setTable table
      outcome := .awaitsMemory ⟨call, wakes, op, before, rest⟩ }
  | .freed => { kernel := kernel, outcome := .undefined }

/-- The label `done` -/
def undoPhase (wakes : Bool) : Segment :=
  if call.undos then
    afterUndos kernel pool p call wakes
      (undoLoop kernel.info pool p call.ix [] call.sops none kernel.table)
  else finishCall kernel p call wakes

def semopTurn : Segment :=
  let ptr := call.semaptr
  match tryOps [] call.sops { set := kernel.sets ptr, undos := call.undos } with
  | (attempt, .through) =>
    undoPhase (kernel.setSet ptr attempt.set) pool p
      { call with undos := attempt.undos } attempt.wakes
  | (attempt, .outOfRange) =>
    { kernel := kernel.setSet ptr attempt.set
      outcome := .returns (some .efbig) }
  | (attempt, .blocked op before) =>
    let set := before.foldl SemidDs.subVal attempt.set
    if op.nowait then
      { kernel := kernel.setSet ptr set, outcome := .returns (some .eagain) }
    else
      { kernel := kernel.setSet ptr (set.countWaiter op 1)
        outcome := .sleeps { call with undos := attempt.undos } op }

structure SemopArgs where
  semid : BitVec 32
  sops : List Sembuf
  permitted : Bool := true
  deriving DecidableEq, Repr

def ipcidToIx (semid : BitVec 32) : ℕ := (semid &&& 0xffff).toNat

def ipcidToSeq (semid : BitVec 32) : BitVec 16 := (semid >>> 16).setWidth 16

/-- `sys_semop` up to `copyin`. -/
def sysSemop (args : SemopArgs) : Segment :=
  let ix := ipcidToIx args.semid
  let fail (error : Errno) : Segment :=
    { kernel := kernel, outcome := .returns (some error) }
  if ix ≥ kernel.info.semmni then fail .einval
  else
    match kernel.sema ix with
    | none => fail .einval
    | some ptr =>
      if (kernel.sets ptr).seq ≠ ipcidToSeq args.semid then fail .einval
      else if !args.permitted then fail .eacces
      else if args.sops = [] then
        { kernel := kernel, outcome := .returns none }
      else if args.sops.length > kernel.info.semopm then fail .e2big
      else
        { kernel := kernel
          outcome := .copiesIn
            { ix := ix, seq := ipcidToSeq args.semid, semaptr := ptr
              sops := args.sops } }

/-- The segment after `copyin`, which goes on with the set it had found before. -/
def semopCopied (copied : Bool) : Segment :=
  if !copied then { kernel := kernel, outcome := .returns (some .efault) }
  else if kernel.sema call.ix = some call.semaptr ∨
      kernel.live call.semaptr then
    semopTurn kernel pool p call
  else { kernel := kernel, outcome := .undefined }

/-- The segment after `tsleep`, which a signal may have ended. -/
def semopWoken (op : Sembuf) (signalled : Bool) : Segment :=
  match kernel.sema call.ix with
  | none => { kernel := kernel, outcome := .returns (some .eidrm) }
  | some slot =>
    if slot = call.semaptr ∨ kernel.live call.semaptr then
      let set := kernel.sets call.semaptr
      if set.seq ≠ call.seq then
        { kernel := kernel, outcome := .returns (some .eidrm) }
      else
        let kernel :=
          kernel.setSet call.semaptr (set.countWaiter op (-1))
        if signalled then
          { kernel := kernel, outcome := .returns (some .eintr) }
        else semopTurn kernel pool p call
    else { kernel := kernel, outcome := .undefined }

/-- The segment after `pool_get` has returned a record for the operation that
waited. -/
def semopMemory (addr : SemuPtr) (p : Proc) (wait : MemoryWait) : Segment :=
  let (table, suptr) := semuAllocResume addr p kernel.table
  let result :=
    match semundoAdjust kernel.info pool p (some suptr) wait.call.ix
        wait.op.semNum.toNat (-wait.op.semOp) table with
    | .ok table suptr =>
      undoLoop kernel.info pool p wait.call.ix (wait.op :: wait.before) wait.rest suptr table
    | .fails error table suptr => .fails error wait.before suptr table
    | .waits table => .waits wait.op wait.before wait.rest table
    | .freed => .freed
  if kernel.live wait.call.semaptr then
    afterUndos kernel pool p wait.call wait.wakes result
  else { kernel := kernel, outcome := .undefined }

/-! ## The other system calls -/

/-- The commands of `semctl1` that change something.  `SETALL` copies the values
in until `copyin` fails. -/
inductive SemctlCmd where
  | ipcRmid
  | setVal (semnum : ℤ) (val : ℤ)
  | setAll (values : List (BitVec 16))
  deriving DecidableEq, Repr

def semctl1 (semid : BitVec 32) (cmd : SemctlCmd) : Segment :=
  let ix := ipcidToIx semid
  let fail : Segment :=
    { kernel := kernel, outcome := .returns (some .einval) }
  if ix ≥ kernel.info.semmni then fail
  else
    match kernel.sema ix with
    | none => fail
    | some ptr =>
      let set := kernel.sets ptr
      if set.seq ≠ ipcidToSeq semid then fail
      else
        match cmd with
        | .ipcRmid =>
          { kernel := { kernel with
              sema := update kernel.sema ix none
              semtot := kernel.semtot - set.nsems
              table := semundoClear ix none kernel.table }
            outcome := .returns none
            wakeup := some ix }
        | .setVal semnum val =>
          if semnum < 0 ∨ semnum ≥ set.nsems then fail
          else
            let set := set.modifySem semnum.toNat fun sem =>
              { sem with semval := BitVec.ofInt 16 val }
            let table := semundoClear ix (some semnum.toNat) kernel.table
            { kernel := (kernel.setSet ptr set).setTable table
              outcome := .returns none
              wakeup := some ix }
        | .setAll values =>
          let set :=
            { set with sem := fun num =>
                if num < set.nsems then
                  match values[num]? with
                  | some val => { set.sem num with semval := val }
                  | none => set.sem num
                else set.sem num }
          let table := semundoClear ix none kernel.table
          { kernel := (kernel.setSet ptr set).setTable table
            outcome := .returns (if values.length < set.nsems then some .efault else none)
            wakeup := some ix }

/-- `sys_semget` that makes a new set at `ptr`. -/
def sysSemget (ptr : SetPtr) (nsems : ℕ) : Segment :=
  let fail (error : Errno) : Segment :=
    { kernel := kernel, outcome := .returns (some error) }
  if nsems = 0 ∨ nsems > kernel.info.semmsl then fail .einval
  else if nsems > kernel.info.semmns - kernel.semtot then fail .enospc
  else
    match (List.range kernel.info.semmni).find?
        (fun ix => (kernel.sema ix).isNone) with
    | none => fail .enospc
    | some ix =>
      let seq := (kernel.semseqs ix + 1) &&& 0x7fff
      { kernel := { kernel with
          sema := update kernel.sema ix (some ptr)
          sets := update kernel.sets ptr ⟨seq, nsems, fun _ => {}⟩
          semseqs := update kernel.semseqs ix seq
          semtot := kernel.semtot + nsems }
        outcome := .returns none }

/-- The loop of `semexit` over the entries; the slots whose sleepers are woken
up, or `none` for a panic or a number before the array. -/
def exitEntries : List Undo → Kernel → List ℕ → Option (Kernel × List ℕ)
  | [], kernel, woken => some (kernel, woken)
  | entry :: rest, kernel, woken =>
    match kernel.sema entry.id with
    | none => none
    | some ptr =>
      let set := kernel.sets ptr
      let num := entry.num.toInt
      if num ≥ set.nsems ∨ num < 0 then none
      else
        let adjval := entry.adjval.toInt
        let set := set.modifySem num.toNat fun sem =>
          if adjval < 0 ∧ (sem.semval.toNat : ℤ) < -adjval then
            { sem with semval := 0 }
          else { sem with semval := sem.semval + entry.adjval }
        exitEntries rest (kernel.setSet ptr set) (woken ++ [entry.id])

def semexit : Option (Kernel × List ℕ) :=
  match kernel.table.semuList.find? (·.proc = p) with
  | none => some (kernel, [])
  | some su =>
    (exitEntries su.ent kernel []).map fun (kernel, woken) =>
      (kernel.setTable
        { semuList := kernel.table.semuList.eraseP (·.addr = su.addr)
          semutot := kernel.table.semutot - 1 }, woken)

/-! ## Processes -/

inductive ProcState where
  | idle
  | copying (call : SemopCall)
  | asleep (call : SemopCall) (op : Sembuf) (woken : Bool)
  | awaitsMemory (wait : MemoryWait)
  deriving DecidableEq, Repr

/-- A call that has returned, with the kernel before and after each of its
segments. -/
structure Finished where
  proc : Proc
  args : SemopArgs
  error : Option Errno
  segments : List (Kernel × Kernel)

structure Running where
  args : SemopArgs
  segments : List (Kernel × Kernel)

/-- The kernel and the processes; `stopped` is set by a panic and by a call that
goes astray.  The other fields record the calls. -/
structure System where
  kernel : Kernel := {}
  procs : Proc → ProcState := fun _ => .idle
  stopped : Bool := false
  running : Proc → Option Running := fun _ => none
  finished : List Finished := []

inductive Event where
  | semop (p : Proc) (args : SemopArgs)
  | copied (p : Proc) (copied : Bool) (pool : Option SemuPtr)
  | wake (p : Proc) (signalled : Bool) (pool : Option SemuPtr)
  | memory (p : Proc) (addr : SemuPtr) (pool : Option SemuPtr)
  | semctl (semid : BitVec 32) (cmd : SemctlCmd)
  | semget (ptr : SetPtr) (nsems : ℕ)
  | exit (p : Proc)

/-- `wakeup(&sema[ix])` -/
def ProcState.wake (ix : ℕ) (state : ProcState) : ProcState :=
  match state with
  | .asleep call op woken => .asleep call op (woken || call.ix = ix)
  | state => state

def System.wakeAll (system : System) (slots : List ℕ) : System :=
  { system with
    procs := fun p => slots.foldl (fun state ix => state.wake ix) (system.procs p) }

def System.afterSegment (system : System) (p : Proc) (running : Running)
    (segment : Segment) : System :=
  let running : Running :=
    { running with
      segments := running.segments ++ [(system.kernel, segment.kernel)] }
  let system := { system with kernel := segment.kernel }
  let system := system.wakeAll segment.wakeup.toList
  match segment.outcome with
  | .returns error =>
    { system with
      procs := update system.procs p .idle
      running := update system.running p none
      finished := system.finished ++ [⟨p, running.args, error, running.segments⟩] }
  | .copiesIn call =>
    { system with
      procs := update system.procs p (.copying call)
      running := update system.running p (some running) }
  | .sleeps call op =>
    { system with
      procs := update system.procs p (.asleep call op false)
      running := update system.running p (some running) }
  | .awaitsMemory wait =>
    { system with
      procs := update system.procs p (.awaitsMemory wait)
      running := update system.running p (some running) }
  | .panics => { system with stopped := true }
  | .undefined => { system with stopped := true }

def Kernel.semuFree (addr : SemuPtr) : Bool :=
  kernel.table.semuList.all (·.addr ≠ addr)

def Kernel.poolOk : Bool :=
  pool.all kernel.semuFree

def System.step (system : System) (event : Event) : Option System :=
  if system.stopped then none
  else
    match event with
    | .semop p args =>
      if system.procs p = .idle then
        some (system.afterSegment p ⟨args, []⟩ (sysSemop system.kernel args))
      else none
    | .copied p copied pool =>
      match system.procs p, system.running p with
      | .copying call, some running =>
        if system.kernel.poolOk pool then
          some (system.afterSegment p running (semopCopied system.kernel pool p call copied))
        else none
      | _, _ => none
    | .wake p signalled pool =>
      match system.procs p, system.running p with
      | .asleep call op woken, some running =>
        if (woken || signalled) ∧ system.kernel.poolOk pool then
          some (system.afterSegment p running (semopWoken system.kernel pool p call op signalled))
        else none
      | _, _ => none
    | .memory p addr pool =>
      match system.procs p, system.running p with
      | .awaitsMemory wait, some running =>
        if system.kernel.semuFree addr ∧ system.kernel.poolOk pool ∧
            pool ≠ some addr then
          some (system.afterSegment p running (semopMemory system.kernel pool addr p wait))
        else none
      | _, _ => none
    | .semctl semid cmd =>
      let segment := semctl1 system.kernel semid cmd
      some ({ system with kernel := segment.kernel }.wakeAll segment.wakeup.toList)
    | .semget ptr nsems =>
      if system.kernel.live ptr then none
      else
        some { system with
          kernel := (sysSemget system.kernel ptr nsems).kernel }
    | .exit p =>
      if system.procs p = .idle then
        match semexit system.kernel p with
        | none => some { system with stopped := true }
        | some (kernel, woken) =>
          some ({ system with kernel := kernel }.wakeAll woken)
      else none

/-- What each event does and when it can happen. -/
inductive System.Steps (system : System) : Event → System → Prop
  | semop {p : Proc} (args : SemopArgs) (hidle : system.procs p = .idle) :
    system.Steps (.semop p args) (system.afterSegment p ⟨args, []⟩ (sysSemop system.kernel args))
  | copied {p : Proc} {pool : Option SemuPtr} {call : SemopCall} {running : Running}
    (copied : Bool) (hproc : system.procs p = .copying call)
    (hrunning : system.running p = some running) (hpool : system.kernel.poolOk pool) :
    system.Steps (.copied p copied pool)
      (system.afterSegment p running (semopCopied system.kernel pool p call copied))
  | wake {p : Proc} {pool : Option SemuPtr} {call : SemopCall} {op : Sembuf} {woken : Bool}
    {running : Running} (signalled : Bool) (hproc : system.procs p = .asleep call op woken)
    (hrunning : system.running p = some running) (hpool : system.kernel.poolOk pool) :
    system.Steps (.wake p signalled pool)
      (system.afterSegment p running (semopWoken system.kernel pool p call op signalled))
  | memory {p : Proc} {addr : SemuPtr} {pool : Option SemuPtr} {wait : MemoryWait}
    {running : Running} (hproc : system.procs p = .awaitsMemory wait) :
    system.Steps (.memory p addr pool)
      (system.afterSegment p running (semopMemory system.kernel pool addr p wait))
  | semctl (semid : BitVec 32) (cmd : SemctlCmd) :
    system.Steps (.semctl semid cmd)
      ({ system with kernel := (semctl1 system.kernel semid cmd).kernel }.wakeAll
        (semctl1 system.kernel semid cmd).wakeup.toList)
  | semget {ptr : SetPtr} (nsems : ℕ) (hlive : ¬ system.kernel.live ptr) :
    system.Steps (.semget ptr nsems)
      { system with kernel := (sysSemget system.kernel ptr nsems).kernel }
  | panic {p : Proc} (hexit : semexit system.kernel p = none) :
    system.Steps (.exit p) { system with stopped := true }
  | exit {p : Proc} {kernel : Kernel} {woken : List ℕ}
    (hexit : semexit system.kernel p = some (kernel, woken)) :
    system.Steps (.exit p) ({ system with kernel := kernel }.wakeAll woken)

theorem System.steps_of_step {system after : System} {event : Event}
    (hstep : system.step event = some after) :
    system.stopped = false ∧ system.Steps event after := by
  unfold System.step at hstep
  split_ifs at hstep with hstopped
  refine ⟨by simpa using hstopped, ?_⟩
  cases event with dsimp only at hstep
  | semop p args =>
    split_ifs at hstep with hidle
    cases hstep
    exact .semop args hidle
  | copied p copied pool =>
    split at hstep
    next call running hproc hrunning =>
      split_ifs at hstep with hpool
      cases hstep
      exact .copied copied hproc hrunning hpool
    next => cases hstep
  | wake p signalled pool =>
    split at hstep
    next call op woken running hproc hrunning =>
      split_ifs at hstep with hwoken
      cases hstep
      exact .wake signalled hproc hrunning hwoken.2
    next => cases hstep
  | memory p addr pool =>
    split at hstep
    next wait running hproc hrunning =>
      split_ifs at hstep
      cases hstep
      exact .memory hproc
    next => cases hstep
  | semctl semid cmd =>
    cases hstep
    exact .semctl semid cmd
  | semget ptr nsems =>
    split_ifs at hstep with hlive
    cases hstep
    exact .semget nsems hlive
  | exit p =>
    split_ifs at hstep
    split at hstep
    next hexit =>
      cases hstep
      exact .panic hexit
    next kernel woken hexit =>
      cases hstep
      exact .exit hexit

end AerieKernel.Semaphore
