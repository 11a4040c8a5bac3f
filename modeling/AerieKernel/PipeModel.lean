import AerieKernel.GuardedRuns

/-!
# Pipes

The model of `pipe_read` and `pipe_write` on one pipe.  A process runs until it may sleep:
in `pipelock`, in `tsleep` or in `uiomove`, and each part between two such places is one
step.  A process that sleeps may go on at any time, so that wakeups are not followed.
-/

namespace AerieKernel.Pipe

def pipeSize : ℕ := 16384
def bigPipeSize : ℕ := 64 * 1024
def limitBigPipes : ℕ := 32
def pipeBuf : ℕ := 512

structure Pipebuf where
  cnt : ℕ
  inPos : ℕ
  outPos : ℕ
  size : ℕ
  buffer : ℕ → UInt8

inductive Errno where
  | epipe
  | eagain
  | efault
  | eintr
  deriving DecidableEq

/-- A `pipe_write` that is under way: `uio` has what is not yet in the pipe. -/
structure Writer where
  call : ℕ
  uio : List UInt8
  origResid : ℕ
  nonblock : Bool

structure Reader where
  resid : ℕ
  nread : ℕ
  nonblock : Bool

inductive Proc where
  | idle
  -- in `pipelock`, to enlarge the buffer
  | wantResize (w : Writer)
  -- in `tsleep` for space
  | sleepSpace (w : Writer)
  -- in `pipelock`, after `space` bytes were found to be free
  | wantWrite (w : Writer) (space : ℕ)
  -- in `uiomove` of the first and of the second segment
  | moveFirst (w : Writer) (size segsize : ℕ)
  | moveSecond (w : Writer) (size segsize : ℕ)
  -- in `pipelock`, to read
  | wantRead (r : Reader)
  -- in `tsleep` for data
  | sleepData (r : Reader)
  -- in `uiomove` of data out of the pipe
  | moveOut (r : Reader) (size : ℕ)

structure Call where
  data : List UInt8
  result : Option (Option Errno)

structure Transfer where
  call : ℕ
  bytes : List UInt8
  deriving DecidableEq

/-- The pipe and its processes, with all writes and transfers so far and the bytes that reads
have taken out. -/
structure System where
  buf : Pipebuf
  lock : Bool
  eof : Bool
  nbigpipe : ℕ
  procs : ℕ → Proc
  ncalls : ℕ
  calls : ℕ → Option Call
  transfers : List Transfer
  taken : List UInt8

variable (sys : System) (pid : ℕ)

def System.setProc (p : Proc) : System :=
  { sys with procs := Function.update sys.procs pid p }

def pipespace (size : ℕ) : System :=
  { sys with
    buf := ⟨0, 0, 0, size, fun _ => 0⟩
    nbigpipe := if pipeSize < sys.buf.size then sys.nbigpipe - 1 else sys.nbigpipe }

def store (buffer : ℕ → UInt8) (pos : ℕ) (bytes : List UInt8) : ℕ → UInt8 := fun i =>
  if pos ≤ i then (bytes[i - pos]?).getD (buffer i) else buffer i

/-! ## Writing -/

def returnWrite (pid call : ℕ) (error : Option Errno) : System :=
  { sys.setProc pid .idle with
    calls := Function.update sys.calls call
      ((sys.calls call).map fun c => { c with result := some error }) }

/-- The end of `pipe_write`; no `EPIPE` if the write was successful. -/
def endWrite (pid call resid : ℕ) (error : Option Errno) : System :=
  returnWrite sys pid call
    (if sys.buf.cnt = 0 ∧ resid = 0 ∧ error = some .epipe then none else error)

/-- The loop of `pipe_write` up to the next place where it may sleep. -/
def writeLoop (w : Writer) : System :=
  let resid := w.uio.length
  if resid = 0 then endWrite sys pid w.call resid none
  else if sys.eof then endWrite sys pid w.call resid (some .epipe)
  else
    let space := sys.buf.size - sys.buf.cnt
    -- writes of size <= PIPE_BUF must be atomic
    let space := if space < resid ∧ w.origResid ≤ pipeBuf then 0 else space
    if 0 < space then sys.setProc pid (.wantWrite w space)
    else if w.nonblock then endWrite sys pid w.call resid (some .eagain)
    else sys.setProc pid (.sleepSpace w)

def pipeWrite (data : List UInt8) (nonblock : Bool) : System :=
  let w : Writer := ⟨sys.ncalls, data, data.length, nonblock⟩
  let sys := { sys with
    ncalls := sys.ncalls + 1
    calls := Function.update sys.calls sys.ncalls (some ⟨data, none⟩) }
  if sys.eof then returnWrite sys pid w.call (some .epipe)
  else if pipeSize < data.length ∧ sys.nbigpipe < limitBigPipes ∧ sys.buf.size ≤ pipeSize ∧
      sys.buf.cnt = 0 then
    sys.setProc pid (.wantResize w)
  else writeLoop sys pid w

/-- The buffer is enlarged under the lock, if there is memory. -/
def resize (w : Writer) (valloc : Bool) : System :=
  let sys :=
    if valloc then
      let sys := pipespace sys bigPipeSize
      { sys with nbigpipe := sys.nbigpipe + 1 }
    else sys
  writeLoop sys pid w

def beginTransfer (w : Writer) (space : ℕ) : System :=
  if sys.buf.size - sys.buf.cnt < space then writeLoop sys pid w
  else
    let size := min space w.uio.length
    let segsize := min size (sys.buf.size - sys.buf.inPos)
    { sys.setProc pid (.moveFirst w size segsize) with lock := true }

def commit (w : Writer) (size segsize : ℕ) : System :=
  let inPos := sys.buf.inPos + size
  let buf := { sys.buf with
    inPos := if sys.buf.size ≤ inPos then size - segsize else inPos
    cnt := sys.buf.cnt + size }
  writeLoop
    { sys with
      buf
      lock := false
      transfers := sys.transfers ++ [⟨w.call, w.uio.take size⟩] }
    pid { w with uio := w.uio.drop size }

def System.store (pos : ℕ) (bytes : List UInt8) : System :=
  { sys with buf := { sys.buf with buffer := Pipe.store sys.buf.buffer pos bytes } }

/-! ## Reading -/

/-- The loop of `pipe_read` with the lock, up to the next place where it may sleep. -/
def readLoop (r : Reader) : System :=
  if r.resid = 0 then { sys.setProc pid .idle with lock := false }
  else if 0 < sys.buf.cnt then
    let size := min (min (sys.buf.size - sys.buf.outPos) sys.buf.cnt) r.resid
    { sys.setProc pid (.moveOut r size) with lock := true }
  else if sys.eof ∨ 0 < r.nread ∨ r.nonblock then { sys.setProc pid .idle with lock := false }
  else { sys.setProc pid (.sleepData r) with lock := false }

def consume (r : Reader) (size : ℕ) : System :=
  let bytes := (List.range size).map fun i => sys.buf.buffer (sys.buf.outPos + i)
  let outPos := sys.buf.outPos + size
  let outPos := if sys.buf.size ≤ outPos then 0 else outPos
  let cnt := sys.buf.cnt - size
  let buf := { sys.buf with
    cnt
    inPos := if cnt = 0 then 0 else sys.buf.inPos
    outPos := if cnt = 0 then 0 else outPos }
  readLoop { sys with buf, taken := sys.taken ++ bytes } pid
    { r with resid := r.resid - size, nread := r.nread + size }

/-! ## The system -/

inductive Event where
  | write (pid : ℕ) (data : List UInt8) (nonblock : Bool)
  | read (pid resid : ℕ) (nonblock : Bool)
  -- `tsleep` returns, or `pipelock` tries again; with `valloc` there is memory
  | resume (pid : ℕ) (valloc : Bool)
  -- `tsleep` fails
  | interrupt (pid : ℕ)
  -- `uiomove` has moved all bytes, or only some of them
  | moved (pid : ℕ)
  | fault (pid n : ℕ)
  -- the other end is closed
  | eof
  -- other pipes are enlarged or closed
  | others (nbigpipe : ℕ)

def resume (valloc : Bool) : Option System :=
  match sys.procs pid with
  | .wantResize w => if sys.lock then some sys else some (resize sys pid w valloc)
  | .wantWrite w space => if sys.lock then some sys else some (beginTransfer sys pid w space)
  | .wantRead r => if sys.lock then some sys else some (readLoop sys pid r)
  | .sleepSpace w =>
    if sys.eof then some (endWrite sys pid w.call w.uio.length (some .epipe))
    else some (writeLoop sys pid w)
  | .sleepData r => some (sys.setProc pid (.wantRead r))
  | _ => none

def interrupt : Option System :=
  match sys.procs pid with
  | .wantResize w => some (returnWrite sys pid w.call (some .eintr))
  | .wantWrite w _ | .sleepSpace w =>
    some (endWrite sys pid w.call w.uio.length (some .eintr))
  | .wantRead _ | .sleepData _ => some (sys.setProc pid .idle)
  | _ => none

def moved : Option System :=
  match sys.procs pid with
  | .moveFirst w size segsize =>
    let sys := sys.store sys.buf.inPos (w.uio.take segsize)
    if segsize < size then some (sys.setProc pid (.moveSecond w size segsize))
    else some (commit sys pid w size segsize)
  | .moveSecond w size segsize =>
    some (commit (sys.store 0 ((w.uio.drop segsize).take (size - segsize))) pid w size segsize)
  | .moveOut r size => some (consume sys pid r size)
  | _ => none

/-- `uiomove` fails after `n` bytes; nothing of the transfer counts. -/
def fault (pid n : ℕ) : Option System :=
  match sys.procs pid with
  | .moveFirst w _ segsize =>
    let sys := sys.store sys.buf.inPos (w.uio.take (min n segsize))
    some { endWrite sys pid w.call (w.uio.length - min n segsize) (some .efault) with
      lock := false }
  | .moveSecond w size segsize =>
    let rest := min n (size - segsize)
    let sys := sys.store 0 ((w.uio.drop segsize).take rest)
    some { endWrite sys pid w.call (w.uio.length - segsize - rest) (some .efault) with
      lock := false }
  | .moveOut _ _ => some { sys.setProc pid .idle with lock := false }
  | _ => none

def step : Event → Option System
  | .write pid data nonblock =>
    match sys.procs pid with
    | .idle => some (pipeWrite sys pid data nonblock)
    | _ => none
  | .read pid resid nonblock =>
    match sys.procs pid with
    | .idle => some (sys.setProc pid (.wantRead ⟨resid, 0, nonblock⟩))
    | _ => none
  | .resume pid valloc => resume sys pid valloc
  | .interrupt pid => interrupt sys pid
  | .moved pid => moved sys pid
  | .fault pid n => fault sys pid n
  | .eof => some { sys with eof := true }
  | .others nbigpipe => some { sys with nbigpipe }

/-- `pipe_create` -/
def start : System where
  buf := ⟨0, 0, 0, pipeSize, fun _ => 0⟩
  lock := false
  eof := false
  nbigpipe := 0
  procs := fun _ => .idle
  ncalls := 0
  calls := fun _ => none
  transfers := []
  taken := []

end AerieKernel.Pipe
