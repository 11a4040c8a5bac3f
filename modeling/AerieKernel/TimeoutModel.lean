import AerieKernel.SeparateQueues

/-!
# Timeouts

The model of `kern_timeout.c`.  Time is the 32-bit counter `ticks`.  Each
timeout is on the worklist, in one of the 1024 buckets of the four wheels, or
on no queue.  `timeout_add`, `timeout_del`, `timeout_hardclock_update` and one
round of the loop of `softclock` hold the mutex, so they are the steps of the
system; the function of a timeout runs outside the mutex, and what it does
with timeouts are steps of their own.  The function and its argument are the
timeout's identity here.
-/

namespace AerieKernel.Timeouts

def wheelsize : ℕ := 256

def wheelbits : ℕ := 8

def wheelmask : BitVec 32 := 255

/-- The shift of a negative time is arithmetic. -/
def maskwheel (wheel : ℕ) (time : BitVec 32) : ℕ :=
  (time.sshiftRight (wheel * wheelbits) &&& wheelmask).toNat

def bucket (rel abs : BitVec 32) : ℕ :=
  if rel.toInt ≤ 2 ^ (2 * wheelbits) then
    if rel.toInt ≤ 2 ^ wheelbits then maskwheel 0 abs
    else maskwheel 1 abs + wheelsize
  else if rel.toInt ≤ 2 ^ (3 * wheelbits) then
    maskwheel 2 abs + 2 * wheelsize
  else maskwheel 3 abs + 3 * wheelsize

inductive Head where
  | todo
  | wheel (index : ℕ)
  deriving DecidableEq, Repr

structure Timeout where
  toTime : BitVec 32
  initialized : Bool
  onqueue : Bool
  triggered : Bool
  deriving DecidableEq, Repr

variable {ι : Type} [DecidableEq ι]

structure System (ι : Type) where
  ticks : BitVec 32
  timeouts : ι → Timeout
  queues : Head → List ι

def timeoutSet (new : Timeout) : Timeout :=
  { new with initialized := true, onqueue := false, triggered := false }

/-- `timeout_startup`, with all timeouts set up. -/
def System.startup (ticks : BitVec 32) (timeouts : ι → Timeout) : System ι where
  ticks := ticks
  timeouts := fun id => timeoutSet (timeouts id)
  queues := fun _ => []

variable (sys : System ι)

def System.rel (id : ι) : ℤ :=
  ((sys.timeouts id).toTime - sys.ticks).toInt

def System.set (id : ι) (timeout : Timeout) (queues : Head → List ι) : System ι :=
  { sys with
    timeouts := Function.update sys.timeouts id timeout
    queues := queues }

/-- There is no result if a check of the kernel fails. -/
def timeoutAdd (new : ι) (toTicks : BitVec 32) : Option (System ι) :=
  let timeout := sys.timeouts new
  if !timeout.initialized then none
  else if toTicks.toInt < 0 then none
  else
    let oldTime := timeout.toTime
    let toTime := toTicks + sys.ticks
    let timeout' :=
      { timeout with toTime := toTime, onqueue := true, triggered := false }
    some (sys.set new timeout'
      (if timeout.onqueue then
        if (toTime - sys.ticks).toInt < (oldTime - sys.ticks).toInt then
          Queues.insert (Queues.remove sys.queues new) new .todo
        else sys.queues
      else Queues.insert sys.queues new .todo))

def timeoutDel (tmo : ι) : System ι :=
  let timeout := sys.timeouts tmo
  sys.set tmo { timeout with onqueue := false, triggered := false }
    (if timeout.onqueue then Queues.remove sys.queues tmo else sys.queues)

def movebucket (wheel : ℕ) (time : BitVec 32) (queues : Head → List ι) : Head → List ι :=
  Queues.append queues .todo (.wheel (maskwheel wheel time + wheel * wheelsize))

/-- The buckets that `timeout_hardclock_update` moves to the worklist. -/
def movebuckets (ticks : BitVec 32) (queues : Head → List ι) : Head → List ι :=
  let queues := movebucket 0 ticks queues
  if maskwheel 0 ticks = 0 then
    let queues := movebucket 1 ticks queues
    if maskwheel 1 ticks = 0 then
      let queues := movebucket 2 ticks queues
      if maskwheel 2 ticks = 0 then movebucket 3 ticks queues
      else queues
    else queues
  else queues

def timeoutHardclockUpdate : System ι × Bool :=
  let ticks := sys.ticks + 1
  let queues := movebuckets ticks sys.queues
  ({ sys with ticks := ticks, queues := queues }, !(queues .todo).isEmpty)

inductive Output (ι : Type) where
  | none
  | ticked (ticks : BitVec 32)
  | bucketed (id : ι)
  | ran (id : ι)
  | passEnded
  deriving DecidableEq, Repr

def softclock : System ι × Output ι :=
  match sys.queues .todo with
  | [] => (sys, .passEnded)
  | tmo :: _ =>
    let timeout := sys.timeouts tmo
    let queues := Queues.remove sys.queues tmo
    let rel := timeout.toTime - sys.ticks
    if 0 < rel.toInt then
      (sys.set tmo timeout (Queues.insert queues tmo
        (.wheel (bucket rel timeout.toTime))), .bucketed tmo)
    else
      (sys.set tmo { timeout with onqueue := false, triggered := true } queues, .ran tmo)

inductive Event (ι : Type) where
  | add (new : ι) (toTicks : BitVec 32)
  | del (tmo : ι)
  | hardclock
  | softclock
  deriving DecidableEq, Repr

def stepOutput : Event ι → Option (System ι × Output ι)
  | .add new toTicks =>
    (timeoutAdd sys new toTicks).map fun sys => (sys, .none)
  | .del tmo => some (timeoutDel sys tmo, .none)
  | .hardclock => some ((timeoutHardclockUpdate sys).1, .ticked (sys.ticks + 1))
  | .softclock => some (softclock sys)

structure Traced (ι : Type) where
  sys : System ι
  trace : List (Output ι)

def step (traced : Traced ι) (event : Event ι) : Option (Traced ι) :=
  (stepOutput traced.sys event).map fun (sys, output) =>
    ⟨sys, traced.trace ++ [output]⟩

/-- A whole pass of `softclock`, with nothing between its rounds: it ends when the worklist is
empty. -/
def softclockPass : ℕ → Traced ι → Option (Traced ι)
  | 0, _ => none
  | fuel + 1, traced =>
    match softclock traced.sys with
    | (sys, .passEnded) => some ⟨sys, traced.trace ++ [.passEnded]⟩
    | (sys, output) => softclockPass fuel ⟨sys, traced.trace ++ [output]⟩

end AerieKernel.Timeouts
