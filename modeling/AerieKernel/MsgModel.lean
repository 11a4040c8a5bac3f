import AerieKernel.GuardedRuns

/-!
# System V message queues

The model of `sysv_msg.c`, without `IPC_SET` and `IPC_STAT`.  A step is what a process does up to
the next `tsleep`, `copyin` or `copyout`; the copies of one message are one sleep, since no process
looks at a message that is being copied.  A queue has the list of its messages, the free headers
and the free segments are counted, permissions are parameters, and the bodies of messages are left
out.
-/

namespace AerieKernel.Msg

structure Msginfo where
  msgmni : ℕ
  msgmnb : ℕ
  msgtql : ℕ
  msgssz : ℕ
  msgseg : ℕ

structure Msqid where
  ix : ℕ
  seq : ℕ
  deriving DecidableEq

/-- A `struct msg`.  `origin` is for the statements: the queue that the message was put into. -/
structure Message where
  type : ℤ
  ts : ℕ
  origin : Msqid
  deriving DecidableEq

/-- A `struct msqid_ds`; `locked` is `MSG_LOCKED`. -/
structure Queue where
  key : ℤ
  seq : ℕ
  locked : Bool
  msgs : List Message
  cbytes : ℕ
  qbytes : ℕ

structure SndCall where
  id : Msqid
  msgsz : ℕ
  nowait : Bool
  deriving DecidableEq

structure RcvCall where
  id : Msqid
  msgsz : ℕ
  msgtyp : ℤ
  noerror : Bool
  nowait : Bool
  deriving DecidableEq

/-- Where a process is.  `owns` is `we_own_it`, and a process in `tsleep` is `asleep` until a
`wakeup`. -/
inductive Proc where
  | idle
  | sndWait (call : SndCall) (owns asleep : Bool)
  | sndCopy (call : SndCall)
  | rcvWait (call : RcvCall) (asleep : Bool)
  | rcvCopy (call : RcvCall) (msg : Message)
  deriving DecidableEq

inductive Errno where
  | eacces | e2big | eagain | efault | eidrm | eintr | einval | enomsg
  deriving DecidableEq

/-- What a call has done: put a message into a queue, taken one that was put into a queue, or
failed. -/
inductive Result where
  | sent (into : Msqid)
  | took (origin : Msqid)
  | failed (error : Errno)
  deriving DecidableEq

structure State where
  nfree : ℕ
  freeHdrs : ℕ
  queues : ℕ → Queue
  procs : ℕ → Proc
  log : List (Msqid × Result)

variable (info : Msginfo)

/-- `msginit` -/
def initial : State where
  nfree := info.msgseg
  freeHdrs := info.msgtql
  queues _ := ⟨0, 0, false, [], 0, 0⟩
  procs _ := .idle
  log := []

def segsNeeded (msgsz : ℕ) : ℕ := (msgsz + info.msgssz - 1) / info.msgssz

def SndCall.ts (call : SndCall) : ℕ := call.msgsz % 2 ^ 16

def Proc.wake (ix : ℕ) : Proc → Proc
  | .sndWait call owns asleep => .sndWait call owns (asleep && call.id.ix ≠ ix)
  | .rcvWait call asleep => .rcvWait call (asleep && call.id.ix ≠ ix)
  | proc => proc

namespace State

variable (s : State)

/-- `msg_freehdr`, which gives back as many segments as `msg_ts` says. -/
def freehdr (ts : ℕ) : State :=
  { s with nfree := s.nfree + segsNeeded info ts, freeHdrs := s.freeHdrs + 1 }

def setQueue (ix : ℕ) (q : Queue) : State :=
  { s with queues := Function.update s.queues ix q }

def lock (ix : ℕ) (locked : Bool) : State :=
  s.setQueue ix { s.queues ix with locked }

variable (p : ℕ)

def setProc (proc : Proc) : State :=
  { s with procs := Function.update s.procs p proc }

def note (id : Msqid) (result : Result) : State :=
  { s with log := (id, result) :: s.log }

def fail (id : Msqid) (error : Errno) : State :=
  (s.setProc p .idle).note id (.failed error)

def wakeup (ix : ℕ) : State := { s with procs := fun p => (s.procs p).wake ix }

def has (id : Msqid) : Bool :=
  (s.queues id.ix).qbytes ≠ 0 && (s.queues id.ix).seq = id.seq

/-! ## `sys_msgsnd` -/

variable (call : SndCall)

/-- The loop up to the sleep or up to the first `copyin`. -/
def sndLoop : State :=
  let ix := call.id.ix
  let q := s.queues ix
  let segs := segsNeeded info call.msgsz
  if q.qbytes < call.msgsz then s.fail p call.id .einval
  else if q.locked ∨ q.qbytes < call.msgsz + q.cbytes ∨ s.nfree < segs ∨ s.freeHdrs = 0 then
    if call.nowait then s.fail p call.id .eagain
    else (s.lock ix true).setProc p (.sndWait call (!q.locked) true)
  else
    ({ s with nfree := s.nfree - segs, freeHdrs := s.freeHdrs - 1 }.lock ix true).setProc p
      (.sndCopy call)

def msgsnd (allowed : Bool) : State :=
  if ¬ (call.id.ix < info.msgmni ∧ s.has call.id) then s.fail p call.id .einval
  else if ¬ allowed then s.fail p call.id .eacces
  else s.sndLoop info p call

/-- After `tsleep`, which a signal may have ended. -/
def sndWoken (owns signal : Bool) : State :=
  let s := if owns then s.lock call.id.ix false else s
  if signal then s.fail p call.id .eintr
  else if (s.queues call.id.ix).qbytes = 0 then s.fail p call.id .eidrm
  else s.sndLoop info p call

def append (type : ℤ) : State :=
  let q := s.queues call.id.ix
  s.setQueue call.id.ix
    { q with
      msgs := q.msgs ++ [⟨type, call.ts, ⟨call.id.ix, q.seq⟩⟩]
      cbytes := q.cbytes + call.ts }

/-- After the copies; without a `type` one of them has failed. -/
def copyin (type : Option ℤ) : State :=
  let ix := call.id.ix
  let unlocked := s.lock ix false
  let error := match type with
    | none => some Errno.efault
    | some type =>
      if type < 1 then some .einval
      else if (s.queues ix).qbytes = 0 then some .eidrm else none
  match error with
  | some error => ((unlocked.freehdr info call.ts).wakeup ix).fail p call.id error
  | none =>
    (((unlocked.append call (type.getD 0)).wakeup ix).setProc p .idle).note call.id
      (.sent ⟨ix, (s.queues ix).seq⟩)

/-! ## `sys_msgrcv` -/

def wanted (msgtyp : ℤ) (msg : Message) : Bool :=
  msgtyp = 0 || msgtyp = msg.type || msg.type ≤ -msgtyp

/-- The loop up to the sleep or up to the first `copyout`. -/
def rcvLoop (call : RcvCall) : State :=
  let q := s.queues call.id.ix
  match q.msgs.find? (wanted call.msgtyp) with
  | none =>
    if call.nowait then s.fail p call.id .enomsg else s.setProc p (.rcvWait call true)
  | some msg =>
    if call.msgsz < msg.ts ∧ ¬ call.noerror then s.fail p call.id .e2big
    else
      ((s.setQueue call.id.ix
        { q with
          msgs := q.msgs.eraseP (wanted call.msgtyp)
          cbytes := q.cbytes - msg.ts }).setProc p (.rcvCopy call msg)).note call.id
        (.took msg.origin)

def msgrcv (call : RcvCall) (allowed : Bool) : State :=
  if ¬ (call.id.ix < info.msgmni ∧ s.has call.id) then s.fail p call.id .einval
  else if ¬ allowed then s.fail p call.id .eacces
  else s.rcvLoop p call

def rcvWoken (call : RcvCall) (signal : Bool) : State :=
  if signal then s.fail p call.id .eintr
  else if ¬ s.has call.id then s.fail p call.id .eidrm
  else s.rcvLoop p call

def copyout (call : RcvCall) (msg : Message) : State :=
  ((s.freehdr info msg.ts).wakeup call.id.ix).setProc p .idle

/-! ## `IPC_RMID` and `sys_msgget` -/

def rmid (ix : ℕ) : State :=
  let q := s.queues ix
  ((q.msgs.foldl (fun s msg => s.freehdr info msg.ts) s).setQueue ix
    { q with
      msgs := []
      cbytes := q.cbytes - (q.msgs.map Message.ts).sum
      qbytes := 0 }).wakeup ix

def msgget (key : ℤ) (creat : Bool) : State :=
  let slots := List.range info.msgmni
  if key ≠ 0 ∧ ((slots.any fun ix => (s.queues ix).qbytes ≠ 0 ∧ (s.queues ix).key = key) ∨ ¬ creat)
  then s
  else match slots.find? fun ix => (s.queues ix).qbytes = 0 ∧ ¬ (s.queues ix).locked with
    | none => s
    | some ix => s.setQueue ix ⟨key, ((s.queues ix).seq + 1) % 2 ^ 15, false, [], 0, info.msgmnb⟩

end State

inductive Event where
  | msgget (key : ℤ) (creat : Bool)
  | msgsnd (p : ℕ) (call : SndCall) (allowed : Bool)
  | sndWoken (p : ℕ) (signal : Bool)
  | copyin (p : ℕ) (type : Option ℤ)
  | msgrcv (p : ℕ) (call : RcvCall) (allowed : Bool)
  | rcvWoken (p : ℕ) (signal : Bool)
  | copyout (p : ℕ)
  | rmid (id : Msqid)

/-- A process makes one call at a time and goes on from `tsleep` after a wakeup or a signal. -/
def step (s : State) : Event → Option State
  | .msgget key creat => some (s.msgget info key creat)
  | .msgsnd p call allowed =>
    if s.procs p = .idle then some (s.msgsnd info p call allowed) else none
  | .sndWoken p signal =>
    match s.procs p with
    | .sndWait call owns asleep =>
      if asleep && !signal then none else some (s.sndWoken info p call owns signal)
    | _ => none
  | .copyin p type =>
    match s.procs p with
    | .sndCopy call => some (s.copyin info p call type)
    | _ => none
  | .msgrcv p call allowed =>
    if s.procs p = .idle then some (s.msgrcv info p call allowed) else none
  | .rcvWoken p signal =>
    match s.procs p with
    | .rcvWait call asleep =>
      if asleep && !signal then none else some (s.rcvWoken p call signal)
    | _ => none
  | .copyout p =>
    match s.procs p with
    | .rcvCopy call msg => some (s.copyout info p call msg)
    | _ => none
  | .rmid id => some (if id.ix < info.msgmni ∧ s.has id then s.rmid info id.ix else s)

end AerieKernel.Msg
