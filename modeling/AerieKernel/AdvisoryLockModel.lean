import AerieKernel.GuardedRuns

/-!
# Advisory byte-range locks (`sys/kern/vfs_lockf.c`)

The locks of a file form one list.  A range runs from `lfStart` to `lfEnd`,
where the end `-1` stands for infinity, and sums of file offsets wrap at 64
bits.  A request that is blocked sleeps on the blocked list `lfBlkhd` of the
lock in its way, which its `lfNext` names.

The callers of `lf_findoverlap` resume it behind the lock that it returned, so
each of them is a single walk over the list, and `lfFindoverlap` below is what
one round of its loop decides about one lock.  Between two sleeps the kernel
does not leave a call; `pool_get` is taken not to sleep, and an address that
was freed is not handed out again.
-/

namespace AerieKernel.AdvisoryLocks

def offMax : ℤ := 2 ^ 63 - 1

/-- The value that a sum of offsets has in an `off_t`. -/
def wrapOff (x : ℤ) : ℤ := x.bmod (2 ^ 64)

inductive LockType where
  | rdlck
  | unlck
  | wrlck
  deriving DecidableEq, Repr

structure LockFlags where
  posix : Bool
  flock : Bool
  wait : Bool
  deriving DecidableEq, Repr

/-- `lf_id`: a process for `fcntl` locks, an open file for `flock` locks. -/
inductive Owner where
  | proc (pid : ℕ)
  | openFile (fp : ℕ)
  deriving DecidableEq, Repr

structure Lockf where
  addr : ℕ
  lfStart : ℤ
  lfEnd : ℤ
  lfId : Owner
  lfFlags : LockFlags
  lfType : LockType
  lfUid : ℕ
  lfBlkhd : List ℕ
  deriving DecidableEq, Repr

/-! ## One round of `lf_findoverlap` -/

inductive Search where
  | self
  | others
  deriving DecidableEq

/-- What is decided about one lock: go on to the next one, end the search
without an overlap, or one of the cases 1 to 5. -/
inductive Visit where
  | skip
  | stop
  | same
  | contains
  | contained
  | startsBefore
  | endsAfter
  | panic
  deriving DecidableEq

def lfFindoverlap (type : Search) (lock lf : Lockf) : Visit :=
  let start := lock.lfStart
  let finish := lock.lfEnd
  if (type = .self ∧ lf.lfId ≠ lock.lfId) ∨
      (type = .others ∧ lf.lfId = lock.lfId) then .skip
  else if (lf.lfEnd ≠ -1 ∧ start > lf.lfEnd) ∨
      (finish ≠ -1 ∧ lf.lfStart > finish) then
    if type = .self ∧ finish ≠ -1 ∧ lf.lfStart > finish then .stop
    else .skip
  else if lf.lfStart = start ∧ lf.lfEnd = finish then .same
  else if lf.lfStart ≤ start ∧ (lf.lfEnd = -1 ∨ (finish ≠ -1 ∧ lf.lfEnd ≥ finish)) then .contains
  else if start ≤ lf.lfStart ∧ (finish = -1 ∨ (lf.lfEnd ≠ -1 ∧ finish ≥ lf.lfEnd)) then .contained
  else if lf.lfStart < start ∧ (lf.lfEnd ≥ start ∨ lf.lfEnd = -1) then
    .startsBefore
  else if lf.lfStart > start ∧ finish ≠ -1 ∧ (lf.lfEnd > finish ∨ lf.lfEnd = -1) then .endsAfter
  else .panic

def conflicts (lock lf : Lockf) : Prop :=
  lock.lfType = .wrlck ∨ lf.lfType = .wrlck

instance (lock lf : Lockf) : Decidable (conflicts lock lf) :=
  inferInstanceAs (Decidable (_ ∨ _))

def lfGetblock (lock : Lockf) : List Lockf → Option Lockf
  | [] => none
  | lf :: rest =>
    match lfFindoverlap .others lock lf with
    | .skip => lfGetblock lock rest
    | .stop | .panic => none
    | .same | .contains | .contained | .startsBefore | .endsAfter =>
      if conflicts lock lf then some lf else lfGetblock lock rest

/-! ## Changing the list -/

/-- What a walk does: the list it leaves, the requests that `lf_wakelock`
takes off a blocked list, the requests moved to the blocked list of the new
lock, and the users of the structures that are freed and of those that
`lf_split` allocates. -/
structure Edit where
  locks : List Lockf
  woken : List ℕ
  moved : List ℕ
  freed : List ℕ
  split : List ℕ
  deriving DecidableEq, Repr

namespace Edit

def leave (locks : List Lockf) : Edit := ⟨locks, [], [], [], []⟩

def cons (lf : Lockf) (e : Edit) : Edit := { e with locks := lf :: e.locks }

def wake (lf : Lockf) (e : Edit) : Edit :=
  { e with woken := lf.lfBlkhd ++ e.woken }

def move (lf : Lockf) (e : Edit) : Edit :=
  { e with moved := lf.lfBlkhd ++ e.moved }

def free (lf : Lockf) (e : Edit) : Edit :=
  { e with freed := lf.lfUid :: e.freed }

end Edit

def Lockf.awake (lf : Lockf) : Lockf := { lf with lfBlkhd := [] }

/-- `lf_split`: the parts of `lock1` in front of `lock2` and behind it.  The
callers make the cut at a common start themselves, in the same way. -/
def lfSplit (fresh : ℕ) (lock1 lock2 : Lockf) : List Lockf × List Lockf :=
  if lock1.lfStart = lock2.lfStart then
    ([], [{ lock1 with lfStart := wrapOff (lock2.lfEnd + 1) }])
  else if lock1.lfEnd = lock2.lfEnd then
    ([{ lock1 with lfEnd := wrapOff (lock2.lfStart - 1) }], [])
  else
    ([{ lock1 with lfEnd := wrapOff (lock2.lfStart - 1) }],
      [{ lock1 with
          addr := fresh
          lfStart := wrapOff (lock2.lfEnd + 1)
          lfBlkhd := [] }])

def splitCharge (lock1 lock2 : Lockf) : List ℕ :=
  if lock1.lfStart = lock2.lfStart ∨ lock1.lfEnd = lock2.lfEnd then []
  else [lock1.lfUid]

section

variable (lf lock : Lockf)

def Edit.charge (e : Edit) : Edit :=
  { e with split := splitCharge lf lock ++ e.split }

def Lockf.endBefore : Lockf :=
  { lf.awake with lfEnd := wrapOff (lock.lfStart - 1) }

def Lockf.startAfter : Lockf :=
  { lf.awake with lfStart := wrapOff (lock.lfEnd + 1) }

def lfClearlock (fresh : ℕ) (lock : Lockf) : List Lockf → Edit
  | [] => .leave []
  | lf :: rest =>
    match lfFindoverlap .self lock lf with
    | .skip => (lfClearlock fresh lock rest).cons lf
    | .stop | .panic => .leave (lf :: rest)
    | .same => (Edit.leave rest).free lf |>.wake lf
    | .contains =>
      let pieces := lfSplit fresh lf.awake lock
      (Edit.leave (pieces.1 ++ pieces.2 ++ rest)).charge lf lock
        |>.wake lf
    | .contained => (lfClearlock fresh lock rest).free lf |>.wake lf
    | .startsBefore =>
      (lfClearlock fresh lock rest).cons (lf.endBefore lock) |>.wake lf
    | .endsAfter =>
      (Edit.leave (lf.startAfter lock :: rest)).wake lf

def downgrades (lock lf : Lockf) : Prop :=
  lock.lfType = .rdlck ∧ lf.lfType = .wrlck

instance (lock lf : Lockf) : Decidable (downgrades lock lf) :=
  inferInstanceAs (Decidable (_ ∧ _))

/-- Case 1: the overlap takes the type of the lock. -/
def Lockf.retype : Lockf :=
  if downgrades lock lf then { lf.awake with lfType := lock.lfType }
  else { lf with lfType := lock.lfType }

/-- Case 3: the lock takes the blocked list of the overlap. -/
def Lockf.takeList (lock lf : Lockf) : Lockf :=
  if downgrades lock lf then lock
  else { lock with lfBlkhd := lock.lfBlkhd ++ lf.lfBlkhd }

def Edit.takeList (lock lf : Lockf) (e : Edit) : Edit :=
  if downgrades lock lf then e.wake lf else e.move lf

/-- The rounds of `lf_setlock` with `needtolink == 0`: the list from `lock`
on, where `passed` are the locks between `lock` and the rest.  Cases 1, 2 and
4 assume that the lock is not linked yet; here they free a linked lock, or
make the link behind `lock` skip the locks in between. -/
def lfSetlockLinked (fresh : ℕ) : Lockf → List Lockf → List Lockf → Edit
  | lock, passed, [] => .leave (lock :: passed)
  | lock, passed, lf :: rest =>
    match lfFindoverlap .self lock lf with
    | .skip => lfSetlockLinked fresh lock (passed ++ [lf]) rest
    | .stop | .panic => .leave (lock :: passed ++ lf :: rest)
    | .same =>
      let e := (Edit.leave
        (lock :: passed ++ lf.retype lock :: rest)).free lock
      if downgrades lock lf then e.wake lf else e
    | .contains =>
      if lf.lfType = lock.lfType then
        (Edit.leave (lock :: passed ++ lf :: rest)).free lock
      else
        let pieces := lfSplit fresh lf.awake lock
        (Edit.leave (lock :: pieces.2 ++ rest)).charge lf lock
          |>.wake lf
    | .contained =>
      ((lfSetlockLinked fresh (lock.takeList lf) passed rest).free lf)
        |>.takeList lock lf
    | .startsBefore => (lfSetlockLinked fresh lock [] rest).wake lf
    | .endsAfter =>
      (Edit.leave (lock :: passed ++ lf.startAfter lock :: rest)).wake lf

/-- `lf_setlock` once nothing blocks the lock. -/
def lfSetlockWalk (fresh : ℕ) (lock : Lockf) : List Lockf → Edit
  | [] => .leave [lock]
  | lf :: rest =>
    match lfFindoverlap .self lock lf with
    | .skip => (lfSetlockWalk fresh lock rest).cons lf
    | .stop | .panic => .leave (lock :: lf :: rest)
    | .same =>
      let e := (Edit.leave (lf.retype lock :: rest)).free lock
      if downgrades lock lf then e.wake lf else e
    | .contains =>
      if lf.lfType = lock.lfType then
        (Edit.leave (lf :: rest)).free lock
      else
        let pieces := lfSplit fresh lf.awake lock
        (Edit.leave (pieces.1 ++ lock :: pieces.2 ++ rest)).charge lf lock |>.wake lf
    | .contained =>
      ((lfSetlockLinked fresh (lock.takeList lf) [] rest).free lf)
        |>.takeList lock lf
    | .startsBefore =>
      ((lfSetlockLinked fresh lock [] rest).cons (lf.endBefore lock))
        |>.wake lf
    | .endsAfter =>
      (Edit.leave (lock :: lf.startAfter lock :: rest)).wake lf

/-! ## Requests -/

/-- The fields of a lock that a pointer to it reaches and that never
change. -/
structure LockRef where
  addr : ℕ
  lfId : Owner
  lfFlags : LockFlags
  deriving DecidableEq, Repr

def Lockf.ref (lf : Lockf) : LockRef := ⟨lf.addr, lf.lfId, lf.lfFlags⟩

/-- A process in the `tsleep` of `lf_setlock`.  It is `asleep` while its
`p_wchan` is set, which ends with a wakeup or with a signal; it leaves
`tsleep` when it runs again. -/
structure Request where
  lock : Lockf
  file : ℕ
  proc : ℕ
  lfNext : Option LockRef
  asleep : Bool
  deriving DecidableEq, Repr

structure System where
  head : ℕ → List Lockf
  requests : List Request
  lockcnt : ℕ → ℤ
  nextAddr : ℕ

structure Limits where
  maxlockdepth : ℕ
  maxlocksperuid : ℤ

def System.initial : System := ⟨fun _ => [], [], fun _ => 0, 0⟩

def Request.edit (lock : Lockf) (e : Edit) (r : Request) : Request :=
  if r.lock.addr ∈ e.woken then { r with lfNext := none, asleep := false }
  else if r.lock.addr ∈ e.moved then { r with lfNext := some lock.ref }
  else r

variable (sys : System)

def System.edit (file : ℕ) (lock : Lockf) (e : Edit) : System where
  head := Function.update sys.head file e.locks
  requests := sys.requests.map (Request.edit lock e)
  lockcnt := fun uid =>
    sys.lockcnt uid + e.split.count uid - e.freed.count uid
  nextAddr := sys.nextAddr + 1

def System.free (lock : Lockf) : System :=
  { sys with lockcnt :=
      Function.update sys.lockcnt lock.lfUid (sys.lockcnt lock.lfUid - 1) }

def System.asleepAt : Owner → Option Request
  | .proc pid => sys.requests.find? fun r => r.proc = pid ∧ r.asleep
  | .openFile _ => none

/-- The deadlock detection of `lf_setlock` from the owner `wproc` on. -/
def deadlock (sys : System) (lfId : Owner) : ℕ → Owner → Bool
  | 0, _ => false
  | depth + 1, wproc =>
    match sys.asleepAt wproc with
    | none => false
    | some r =>
      match r.lfNext with
      | none => false
      | some waitblock =>
        if !waitblock.lfFlags.posix then false
        else if waitblock.lfId = lfId then true
        else deadlock sys lfId depth waitblock.lfId

def Lockf.reblock (addr : ℕ) (change : List ℕ → List ℕ) (lf : Lockf) : Lockf :=
  if lf.addr = addr then { lf with lfBlkhd := change lf.lfBlkhd } else lf

def System.sleep (file proc : ℕ) (lock block : Lockf) : System :=
  { sys with
    head := Function.update sys.head file
      ((sys.head file).map (Lockf.reblock block.addr (· ++ [lock.addr])))
    requests := sys.requests ++ [⟨lock, file, proc, some block.ref, true⟩] }

inductive Errno where
  | eagain
  | edeadlk
  | einval
  | enomem
  | eintr
  deriving DecidableEq, Repr

structure Off where
  val : ℤ
  low : -(2 ^ 63) ≤ val
  high : val ≤ offMax
  deriving DecidableEq

inductive Whence where
  | seekSet
  | seekCur
  | seekEnd
  | other
  deriving DecidableEq, Repr

structure Flock where
  lType : LockType
  lWhence : Whence
  lStart : Off
  lLen : Off
  deriving DecidableEq

inductive Op where
  | setlk
  | unlck
  | getlk
  | other
  deriving DecidableEq, Repr

/-- The fields of a `struct flock` that `lf_getlock` fills in for a blocking
lock; `lPid` is `-1` for a lock that is not a process's. -/
structure FlockReply where
  lType : LockType
  lStart : ℤ
  lLen : ℤ
  lPid : ℤ
  deriving DecidableEq, Repr

inductive Result where
  | ok
  | error (errno : Errno)
  | asleep
  /-- Nothing is filled in but `F_UNLCK` if no lock blocks. -/
  | getlk (reply : Option FlockReply)
  deriving DecidableEq, Repr

def lfGetlock (lock : Lockf) (locks : List Lockf) : Option FlockReply :=
  (lfGetblock lock locks).map fun block =>
    { lType := block.lfType
      lStart := block.lfStart
      lLen := if block.lfEnd = -1 then 0
        else wrapOff (block.lfEnd - block.lfStart + 1)
      lPid := match block.lfFlags.posix, block.lfId with
        | true, .proc pid => pid
        | _, _ => -1 }

def Lockf.cleared (lock : Lockf) : Lockf := { lock with lfType := .unlck }

/-- A request for an exclusive `flock` lock gives up the shared locks that
its owner holds before it sleeps. -/
def System.clearOwn (file : ℕ) (lock : Lockf) : System :=
  if lock.lfFlags.flock ∧ lock.lfType = .wrlck then
    sys.edit file lock.cleared (lfClearlock sys.nextAddr lock.cleared (sys.head file))
  else sys

end

variable (limits : Limits) (sys : System)

/-- `lf_setlock` up to the sleep or the end. -/
def lfSetlock (file proc : ℕ) (lock : Lockf) : System × Result :=
  match lfGetblock lock (sys.head file) with
  | some block =>
    if !lock.lfFlags.wait then (sys.free lock, .error .eagain)
    else if lock.lfFlags.posix && block.lfFlags.posix &&
        deadlock sys lock.lfId limits.maxlockdepth block.lfId then
      (sys.free lock, .error .edeadlk)
    else ((sys.clearOwn file lock).sleep file proc lock block, .asleep)
  | none =>
    (sys.edit file lock (lfSetlockWalk sys.nextAddr lock (sys.head file)), .ok)

/-- A call of `lf_advlock`.  The size is that of the file. -/
structure Call where
  proc : ℕ
  uid : ℕ
  file : ℕ
  size : Off
  id : Owner
  op : Op
  fl : Flock
  flags : LockFlags
  size_nonneg : 0 ≤ size.val

variable (call : Call)

def Call.start : Option ℤ :=
  match call.fl.lWhence with
  | .seekSet | .seekCur => some call.fl.lStart.val
  | .seekEnd => some (wrapOff (call.size.val + call.fl.lStart.val))
  | .other => none

def Call.range : Option (ℤ × ℤ) :=
  match call.start with
  | none => none
  | some start =>
    if start < 0 then none
    else if call.fl.lLen.val = 0 then some (start, -1)
    else
      let finish := wrapOff (wrapOff (start + call.fl.lLen.val) - 1)
      if finish < start then none else some (start, finish)

/-- `lf_alloc` from `lf_advlock`: the cutoff is doubled for an unlock. -/
def lfAllocFails : Bool :=
  call.uid ≠ 0 &&
    sys.lockcnt call.uid >
      (if call.op = .unlck then limits.maxlocksperuid * 2
        else limits.maxlocksperuid)

def Call.lock (addr : ℕ) (range : ℤ × ℤ) : Lockf where
  addr := addr
  lfStart := range.1
  lfEnd := range.2
  lfId := call.id
  lfFlags := call.flags
  lfType := call.fl.lType
  lfUid := call.uid
  lfBlkhd := []

def System.charge (uid : ℕ) : System :=
  { sys with
    lockcnt := Function.update sys.lockcnt uid (sys.lockcnt uid + 1)
    nextAddr := sys.nextAddr + 1 }

def lfAdvlock : System × Result :=
  match call.range with
  | none => (sys, .error .einval)
  | some range =>
    if sys.head call.file = [] ∧ call.op ≠ .setlk then
      (sys, if call.op = .getlk then .getlk none else .ok)
    else if lfAllocFails limits sys call then (sys, .error .enomem)
    else
      let lock := call.lock sys.nextAddr range
      let sys := sys.charge call.uid
      match call.op with
      | .setlk => lfSetlock limits sys call.file call.proc lock
      | .unlck =>
        ((sys.edit call.file lock
          (lfClearlock sys.nextAddr lock (sys.head call.file))).free lock,
          .ok)
      | .getlk =>
        (sys.free lock, .getlk (lfGetlock lock (sys.head call.file)))
      | .other => (sys.free lock, .error .einval)

inductive Event where
  | advlock (call : Call)
  | signal (pid : ℕ)
  | resume (pid : ℕ) (interrupted : Bool)

def System.unblock (r : Request) : System :=
  { sys with
    head := match r.lfNext with
      | none => sys.head
      | some block => Function.update sys.head r.file
          ((sys.head r.file).map (Lockf.reblock block.addr (·.erase r.lock.addr)))
    requests := sys.requests.filter fun r' => r'.proc ≠ r.proc }

def stepResult : Event → Option (System × Result)
  | .advlock call =>
    -- a process that sleeps in a request makes no other call
    if sys.requests.any fun r => r.proc = call.proc then none
    else some (lfAdvlock limits sys call)
  | .signal pid =>
    some ({ sys with requests := sys.requests.map fun r =>
      if r.proc = pid then { r with asleep := false } else r }, .ok)
  | .resume pid interrupted =>
    match sys.requests.find? fun r => r.proc = pid ∧ !r.asleep with
    | none => none
    | some r =>
      let sys := sys.unblock r
      if interrupted then some (sys.free r.lock, .error .eintr)
      else some (lfSetlock limits sys r.file r.proc r.lock)

def step (event : Event) : Option System :=
  (stepResult limits sys event).map Prod.fst

end AerieKernel.AdvisoryLocks
