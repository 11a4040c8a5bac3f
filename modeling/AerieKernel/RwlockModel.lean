import Mathlib.Tactic
import Mathlib.Data.BitVec

/-!
# Read/write locks

The model of `kern_rwlock.c`.  The lock is one word; a thread that runs one of the
functions is at a point between two of its accesses to the word.  Reading
`rwl_owner` and `rw_cas` are single steps, and so are the parts of going to sleep:
`sleep_setup` takes the scheduler lock and `sleep_finish` gives it back, so that
`wakeup` does not come between them, unless the thread is stopped by a signal in
`sleep_setup_signal`, on the sleep queue but before its `rw_cas`.
-/

namespace AerieKernel.Rwlock

variable {m : ℕ}

/-! ## The word -/

/-- An `unsigned long` with `m` bits above the flags. -/
abbrev Word (m : ℕ) := BitVec (m + 3)

def rwlockWait : Word m := 0x01
def rwlockWrwant : Word m := 0x02
def rwlockWrlock : Word m := 0x04
def rwlockMask : Word m := 0x07
def rwlockReadIncr : Word m := 1 <<< 3

def rwProc (addr : Word m) : Word m := addr &&& ~~~rwlockMask

/-- The threads of a machine.  Their `struct proc`s lie at different addresses,
none of them at 0, also after `RW_PROC`. -/
structure Procs (m : ℕ) (T : Type*) where
  addr : T → Word m
  distinct : ∀ t u, rwProc (addr t) = rwProc (addr u) → t = u
  nonzero : ∀ t, rwProc (addr t) ≠ 0

/-! ## Operations -/

inductive Op where
  | write
  | read
  | downgrade
  deriving DecidableEq, Repr

/-- `struct rwlock_op`, without the priority. -/
structure RwlockOp (m : ℕ) where
  inc : Word m
  check : Word m
  waitSet : Word m
  procMult : ℤ

def rwOps : Op → RwlockOp m
  | .write =>
    { inc := rwlockWrlock
      check := BitVec.allOnes (m + 3)
      waitSet := rwlockWait ||| rwlockWrwant
      procMult := 1 }
  | .read =>
    { inc := rwlockReadIncr
      check := rwlockWrlock
      waitSet := rwlockWait
      procMult := 0 }
  | .downgrade =>
    { inc := rwlockReadIncr - rwlockWrlock
      check := 0
      waitSet := 0
      procMult := -1 }

structure Flags where
  op : Op
  intr : Bool := false
  sleepfail : Bool := false
  nosleep : Bool := false
  deriving DecidableEq, Repr

/-- `inc` in `rw_enter`. -/
def enterInc (op : Op) (addr : Word m) : Word m :=
  (rwOps op).inc + rwProc addr * BitVec.ofInt (m + 3) (rwOps (m := m) op).procMult

inductive Errno where
  | ebusy
  | eagain
  | eintr
  deriving DecidableEq, Repr

/-! ## Threads -/

/-- A thread that was stopped in `sleep_setup_signal`: stopped, and still on the sleep
queue or not; put to sleep by a `SIGCONT`; or able to run again. -/
inductive Halt where
  | stopped (queued : Bool)
  | sleeping
  | runnable
  deriving DecidableEq, Repr

def Halt.wake : Halt → Halt
  | .stopped _ => .stopped false
  | _ => .runnable

/-- Where a thread is, with the local variables that are alive there. -/
inductive Pc (m : ℕ) where
  /-- In none of the functions; what the last one returned. -/
  | outside (error : Option Errno)
  /-- `rw_enter_read` before `rw_cas`. -/
  | enterReadCas (owner : Word m)
  /-- `rw_enter` before the test of the loop. -/
  | enter (flags : Flags)
  /-- `rw_enter` before `sleep_setup`. -/
  | blocked (flags : Flags) (o : Word m)
  /-- `rw_enter` in `sleep_setup_signal`. -/
  | halted (flags : Flags) (o : Word m) (halt : Halt)
  /-- `rw_enter` before the `rw_cas` that sets the flags; `ready` is `sls_do_sleep`. -/
  | prepared (flags : Flags) (o : Word m) (ready : Bool)
  /-- `rw_enter` before `sleep_finish`. -/
  | finish (flags : Flags) (ready doSleep : Bool)
  /-- Switched away in `sleep_finish`. -/
  | asleep (flags : Flags)
  /-- `rw_enter` after `sleep_finish`. -/
  | awake (flags : Flags)
  /-- `rw_enter` before the `rw_cas` that takes the lock. -/
  | acquire (flags : Flags) (o : Word m)
  /-- Before `wakeup`, the last thing that `rw_enter` and `rw_exit` do. -/
  | wakes
  /-- `rw_exit_read` before `rw_cas`. -/
  | exitReadCas (owner : Word m)
  /-- `rw_exit_write` before `rw_cas`. -/
  | exitWriteCas (owner : Word m)
  /-- `rw_exit` at its start. -/
  | exit
  /-- `rw_exit` before the loop reads the word. -/
  | exitLoad (wrlock : Bool)
  /-- `rw_exit` before `rw_cas`. -/
  | exitCas (wrlock : Bool) (owner : Word m)
  deriving DecidableEq, Repr

inductive Hold where
  | none
  | read
  | write
  deriving DecidableEq, Repr

variable {T : Type*} [DecidableEq T]

structure State (m : ℕ) (T : Type*) where
  owner : Word m
  pc : T → Pc m
  hold : T → Hold
  sched : Option T

/-- `rw_init`, with no thread in the functions. -/
def State.init (m : ℕ) (T : Type*) : State m T where
  owner := 0
  pc := fun _ => .outside none
  hold := fun _ => .none
  sched := none

variable (state : State m T)

def State.setPc (t : T) (pc : Pc m) : State m T :=
  { state with pc := Function.update state.pc t pc }

def State.setHold (t : T) (hold : Hold) : State m T :=
  { state with hold := Function.update state.hold t hold }

def State.setSched (sched : Option T) : State m T :=
  { state with sched := sched }

/-- `rw_cas` with what follows if it succeeds and if it does not. -/
def State.rwCas (old new : Word m) (success failure : State m T → State m T) : State m T :=
  if state.owner ≠ old then failure state
  else success { state with owner := new }

def Op.hold : Op → Hold
  | .write => .write
  | .read => .read
  | .downgrade => .read

def Pc.wake (pc : Pc m) : Pc m :=
  match pc with
  | .asleep flags => .awake flags
  | .halted flags o halt => .halted flags o halt.wake
  | pc => pc

/-- Asleep on the lock. -/
def Pc.sleeps : Pc m → Bool
  | .asleep _ | .halted _ _ .sleeping => true
  | _ => false

def State.wakeup : State m T :=
  { state with pc := fun t => (state.pc t).wake }

def has (word bits : Word m) : Bool := word &&& bits ≠ 0

/-! ## Steps -/

inductive Event (T : Type*) where
  | rwEnterRead (t : T)
  | rwEnterWrite (t : T)
  | rwEnter (t : T) (flags : Flags)
  | rwExitRead (t : T)
  | rwExitWrite (t : T)
  | rwExit (t : T)
  /-- The next step of a thread in one of the functions; `signal` says whether it
  finds a signal, or was woken while it was stopped. -/
  | next (t : T) (signal : Bool)
  /-- A signal stops a thread in `sleep_setup_signal`. -/
  | stop (t : T)
  /-- `SIGCONT` for a thread that was stopped there. -/
  | cont (t : T) (caught : Bool)
  deriving DecidableEq, Repr

def Event.isStop : Event T → Bool
  | .stop _ => true
  | _ => false

/-- A thread that holds the lock for reading does not ask for that again, and only
the writer downgrades. -/
def mayEnter (hold : Hold) : Op → Bool
  | .write => true
  | .read => hold ≠ .read
  | .downgrade => hold = .write

def next (procs : Procs m T) (state : State m T) (t : T) (signal : Bool) : Option (State m T) :=
  match state.pc t with
  | .outside _ => none
  | .enterReadCas owner =>
    some (state.rwCas owner (owner + rwlockReadIncr)
      (fun state => (state.setHold t .read).setPc t (.outside none))
      (fun state => state.setPc t (.enter { op := .read })))
  | .enter flags =>
    let o := state.owner
    if has o (rwOps flags.op).check then
      if flags.nosleep then some (state.setPc t (.outside (some .ebusy)))
      else some (state.setPc t (.blocked flags o))
    else some (state.setPc t (.acquire flags o))
  | .blocked flags o =>
    if state.sched.isNone then
      some ((state.setSched (some t)).setPc t (.prepared flags o !(flags.intr && signal)))
    else none
  | .halted flags o .runnable =>
    if state.sched.isNone then
      some ((state.setSched (some t)).setPc t (.prepared flags o false))
    else none
  | .halted flags o .sleeping =>
    if state.sched.isNone && signal then some (state.setPc t (.halted flags o .runnable)) else none
  | .halted _ _ (.stopped _) => none
  | .prepared flags o ready =>
    some (state.rwCas o (o ||| (rwOps flags.op).waitSet)
      (fun state => state.setPc t (.finish flags ready true))
      (fun state => state.setPc t (.finish flags ready false)))
  | .finish flags ready doSleep =>
    some ((state.setSched none).setPc t (if ready && doSleep then .asleep flags else .awake flags))
  | .asleep flags =>
    -- a signal makes the thread run again
    if state.sched.isNone && flags.intr && signal then
      some (state.setPc t (.awake flags))
    else none
  | .awake flags =>
    if flags.intr && signal then
      some (state.setPc t (.outside (some .eintr)))
    else if flags.sleepfail then
      some (state.setPc t (.outside (some .eagain)))
    else some (state.setPc t (.enter flags))
  | .acquire flags o =>
    some (state.rwCas o (o + enterInc flags.op (procs.addr t))
      (fun state => (state.setHold t flags.op.hold).setPc t
        (if o &&& (rwlockWrlock ||| rwlockWait) =
            rwlockWrlock ||| rwlockWait then .wakes
          else .outside none))
      (fun state => state.setPc t (.enter flags)))
  | .wakes =>
    if state.sched.isNone then
      some (state.wakeup.setPc t (.outside none))
    else none
  | .exitReadCas owner =>
    some (state.rwCas owner (owner - rwlockReadIncr)
      (fun state => (state.setHold t .none).setPc t (.outside none))
      (fun state => state.setPc t .exit))
  | .exitWriteCas owner =>
    some (state.rwCas owner 0
      (fun state => (state.setHold t .none).setPc t (.outside none))
      (fun state => state.setPc t .exit))
  | .exit =>
    some (state.setPc t (.exitLoad (has state.owner rwlockWrlock)))
  | .exitLoad wrlock => some (state.setPc t (.exitCas wrlock state.owner))
  | .exitCas wrlock owner =>
    let set :=
      if wrlock then 0
      else (owner - rwlockReadIncr) &&& ~~~(rwlockWait ||| rwlockWrwant)
    some (state.rwCas owner set
      (fun state => (state.setHold t .none).setPc t
        (if has owner rwlockWait then .wakes else .outside none))
      (fun state => state.setPc t (.exitLoad wrlock)))

def Pc.isOutside : Pc m → Bool
  | .outside _ => true
  | _ => false

/-- A thread calls a function and does its first access to the word, or takes its
next step.  Only a thread that holds the lock gives it up or downgrades it. -/
def step (procs : Procs m T) (state : State m T) (event : Event T) : Option (State m T) :=
  match event with
  | .rwEnterRead t =>
    if (state.pc t).isOutside && mayEnter (state.hold t) .read then
      if has state.owner rwlockWrlock then
        some (state.setPc t (.enter { op := .read }))
      else some (state.setPc t (.enterReadCas state.owner))
    else none
  | .rwEnterWrite t =>
    if (state.pc t).isOutside then
      some (state.rwCas 0 (rwProc (procs.addr t) ||| rwlockWrlock)
        (fun state => (state.setHold t .write).setPc t (.outside none))
        (fun state => state.setPc t (.enter { op := .write })))
    else none
  | .rwEnter t flags =>
    if (state.pc t).isOutside && mayEnter (state.hold t) flags.op then
      some (state.setPc t (.enter flags))
    else none
  | .rwExitRead t =>
    if (state.pc t).isOutside && (state.hold t = .read) then
      if has state.owner rwlockWait then some (state.setPc t .exit)
      else some (state.setPc t (.exitReadCas state.owner))
    else none
  | .rwExitWrite t =>
    if (state.pc t).isOutside && (state.hold t = .write) then
      if has state.owner rwlockWait then some (state.setPc t .exit)
      else some (state.setPc t (.exitWriteCas state.owner))
    else none
  | .rwExit t =>
    if (state.pc t).isOutside && (state.hold t ≠ .none) then
      some (state.setPc t .exit)
    else none
  | .next t signal => next procs state t signal
  | .stop t =>
    match state.pc t with
    | .blocked flags o =>
      if state.sched.isNone && flags.intr then
        some (state.setPc t (.halted flags o (.stopped true)))
      else none
    | _ => none
  | .cont t caught =>
    match state.pc t with
    | .halted flags o (.stopped queued) =>
      if state.sched.isNone then
        some (state.setPc t (.halted flags o (if queued && !caught then .sleeping else .runnable)))
      else none
    | _ => none

end AerieKernel.Rwlock
