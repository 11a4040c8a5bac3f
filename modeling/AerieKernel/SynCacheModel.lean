import AerieKernel.GuardedRuns
import AerieKernel.SeparateQueues
import AerieKernel.SerialNumbers

/-!
# The SYN cache

The model of the compressed-state engine of `tcp_input.c`: the table of incomplete
connections, its eviction, and the one timeout of an entry that is used for retransmission
and then for its release.  Entries are numbered in the order of their allocation.
`tcp_input` runs at `splsoftnet`, so each of its calls is one step; `syn_cache_get`,
`syn_cache_reset` and `syn_cache_unreach` lower the level between `SYN_CACHE_RM` and
`SYN_CACHE_PUT`, which are separate steps there.  `softclock` takes a timeout off its queue
before it calls its function, and other steps may come in between.
-/

namespace AerieKernel.SynCache

open Serial Function

inductive Sockaddr where
  | inet (addr : BitVec 32) (port : BitVec 16)
  | inet6 (word0 word1 word2 word3 : BitVec 32) (port : BitVec 16) (flowinfo scope : BitVec 32)
  deriving DecidableEq, Repr

def Sockaddr.port : Sockaddr → BitVec 16
  | inet _ port => port
  | inet6 _ _ _ _ port _ _ => port

structure Secrets where
  hash1 : BitVec 32
  hash2 : BitVec 32
  deriving DecidableEq, Repr

def synHash (secrets : Secrets) (src dst : Sockaddr) : BitVec 32 :=
  let ports := (dst.port.setWidth 32 <<< 16) + src.port.setWidth 32
  match src with
  | .inet addr _ => (addr ^^^ secrets.hash1) * (ports ^^^ secrets.hash2)
  | .inet6 word0 _ _ word3 _ _ _ =>
    ((word0 ^^^ word3 ^^^ secrets.hash1) * (ports ^^^ secrets.hash2)) &&& 0x7fffffff

inductive Callback where
  | timer
  | reaper
  deriving DecidableEq, Repr

/-- A `struct syn_cache`.  `func`, `onqueue` and `linked` are of `sc_timer`: its function,
its flag and how often it is on a queue.  `held` says that a function has removed the entry
and is still to come to its `SYN_CACHE_PUT`.  The last three are for the statements: whether
the entry was put into its bucket and how often it went through `SYN_CACHE_PUT` and the
reaper. -/
structure Entry where
  src : Sockaddr
  dst : Sockaddr
  hash : BitVec 32
  bucketidx : ℕ
  tp : Option ℕ
  dead : Bool
  unreach : Bool
  irs : Seq
  iss : Seq
  win : BitVec 32
  rxtcur : ℕ
  rxttot : ℕ
  rxtshift : ℕ
  func : Option Callback
  onqueue : Bool
  linked : ℕ
  held : Bool
  inserted : Bool
  given : ℕ
  reaped : ℕ
  deriving DecidableEq, Repr

def tcpSynCacheSize : ℕ := 293
def tcpBackoff : List ℕ := [1, 2, 4, 8, 16, 32, 64, 64, 64, 64, 64, 64, 64]
def tcptvSrttdflt : ℕ := 6
def tcptvMin : ℕ := 2
def tcptvRexmtmax : ℕ := 128
def tcpMaxrxtshift : ℕ := 12

def rangeset (value tvmin tvmax : ℕ) : ℕ :=
  if value < tvmin then tvmin else if tvmax < value then tvmax else value

namespace Entry

variable (e : Entry)

def live : Bool := e.inserted && !e.dead

def timeoutSet (func : Callback) : Entry :=
  { e with func := some func, onqueue := false }

/-- A timeout that is on a queue already stays there. -/
def timeoutAdd : Entry :=
  if e.onqueue then e else { e with onqueue := true, linked := e.linked + 1 }

def timeoutDel : Entry :=
  if e.onqueue then { e with onqueue := false, linked := e.linked - 1 } else e

def rm : Entry := timeoutDel { e with dead := true, tp := none }

def put : Entry :=
  (timeoutSet { e with given := e.given + 1, held := false } .reaper).timeoutAdd

def timerArm : Entry :=
  let e := { e with
    rxtcur := rangeset (tcptvSrttdflt * tcpBackoff.getD e.rxtshift 0) tcptvMin tcptvRexmtmax }
  (if e.func.isNone then e.timeoutSet .timer else e).timeoutAdd

end Entry

structure Limits where
  synCacheLimit : ℕ
  synBucketLimit : ℕ
  tcptvKeepInit : ℕ

/-- `running` is the timeout that `softclock` has taken off its queue but whose function has
not done its work yet, and `next` the number of allocations. -/
structure Cache where
  entry : ℕ → Entry
  buckets : ℕ → List ℕ
  lengths : ℕ → BitVec 16
  tSc : ℕ → List ℕ
  count : ℕ
  secrets : Secrets
  running : Option (ℕ × Callback)
  next : ℕ

namespace Cache

variable (c : Cache) (id : ℕ)

def modify (f : Entry → Entry) : Cache :=
  { c with entry := update c.entry id (f (c.entry id)) }

def rm : Cache :=
  let idx := (c.entry id).bucketidx
  { c.modify id Entry.rm with
    buckets := Queues.remove c.buckets id
    lengths := update c.lengths idx (c.lengths idx - 1)
    tSc := Queues.remove c.tSc id
    count := c.count - 1 }

def drop : Cache := (c.rm id).modify id Entry.put

/-- `SYN_CACHE_RM` in a function that lowers the level before its `SYN_CACHE_PUT`. -/
def hold : Cache := (c.rm id).modify id fun e => { e with held := true }

/-- The bucket that an entry is tossed from when the cache is full: the own one, or else the
first one behind it, around the end of the table, that is not empty. -/
def nonemptyBucket (idx : ℕ) : Option ℕ :=
  if (c.buckets idx).isEmpty then
    ((List.range tcpSynCacheSize).map fun k => (idx + 1 + k) % tcpSynCacheSize).find? fun b =>
      !(c.buckets b).isEmpty
  else some idx

/-- The oldest entry of a bucket goes; there is no outcome when the bucket is empty. -/
def toss (idx : ℕ) : Option Cache :=
  match c.buckets idx with
  | [] => none
  | id :: _ => some (c.drop id)

def makeRoom (limits : Limits) (c : Cache) (idx : ℕ) : Option Cache :=
  if limits.synBucketLimit ≤ (c.lengths idx).toNat then c.toss idx
  else if limits.synCacheLimit ≤ c.count then (c.nonemptyBucket idx).bind c.toss
  else some c

/-- The end of `syn_cache_insert`, with room for the entry. -/
def link (id tp : ℕ) : Cache :=
  let idx := (c.entry id).bucketidx
  { c.modify id fun e => Entry.timerArm { e with rxttot := 0, rxtshift := 0, inserted := true } with
    tSc := update c.tSc tp (id :: c.tSc tp)
    buckets := update c.buckets idx (c.buckets idx ++ [id])
    lengths := update c.lengths idx (c.lengths idx + 1)
    count := c.count + 1 }

/-- The hash secrets are drawn again when the cache is empty. -/
def rekey (secrets : Secrets) : Cache :=
  if c.count = 0 then { c with secrets := secrets } else c

def assign : Cache :=
  c.modify id fun e =>
    { e with
      hash := synHash c.secrets e.src e.dst
      bucketidx := (synHash c.secrets e.src e.dst).toNat % tcpSynCacheSize }

/-- `syn_cache_insert`, with the numbers that `arc4random` gives. -/
def insert (limits : Limits) (c : Cache) (id tp : ℕ) (secrets : Secrets) : Option Cache :=
  let c := (c.rekey secrets).assign id
  (c.makeRoom limits (c.entry id).bucketidx).map fun c => c.link id tp

variable (src dst : Sockaddr)

def lookup : Option ℕ :=
  let hash := synHash c.secrets src dst
  (c.buckets (hash.toNat % tcpSynCacheSize)).find? fun id =>
    (c.entry id).hash = hash ∧ (c.entry id).src = src ∧ (c.entry id).dst = dst

def allocate (irs iss : Seq) (win : BitVec 32) (tp : ℕ) : Cache :=
  { c with
    entry := update c.entry c.next
      { src, dst, hash := 0, bucketidx := 0, tp := some tp, dead := false, unreach := false,
        irs, iss, win, rxtcur := 0, rxttot := 0, rxtshift := 0, func := none,
        onqueue := false, linked := 0, held := false, inserted := false, given := 0, reaped := 0 }
    next := c.next + 1 }

/-- `syn_cache_add`: `allocated` is the outcome of `pool_get` and `responded` that of
`syn_cache_respond`. -/
def add (limits : Limits) (c : Cache) (tp : ℕ) (src dst : Sockaddr) (irs iss : Seq)
    (win : BitVec 32) (allocated responded : Bool) (secrets : Secrets) : Option Cache :=
  if (c.lookup src dst).isSome || !allocated then some c
  else
    let id := c.next
    let c := c.allocate src dst irs iss win tp
    if responded then c.insert limits id tp secrets else some (c.modify id Entry.put)

/-- `syn_cache_get` up to `SYN_CACHE_RM`. -/
def get (seq ack : Seq) : Cache :=
  match c.lookup src dst with
  | none => c
  | some id =>
    let e := c.entry id
    if ack ≠ e.iss + 1 || seqLeq seq e.irs || seqGt seq (e.irs + 1 + e.win) then c
    else c.hold id

/-- `syn_cache_reset` up to `SYN_CACHE_RM`. -/
def reset (seq : Seq) : Cache :=
  match c.lookup src dst with
  | none => c
  | some id =>
    let e := c.entry id
    if seqLt seq e.irs || seqGt seq (e.irs + 1) then c else c.hold id

/-- `syn_cache_unreach` up to `SYN_CACHE_RM`; `seq` is in host order. -/
def unreach (seq : Seq) : Cache :=
  match c.lookup src dst with
  | none => c
  | some id =>
    let e := c.entry id
    if seq ≠ e.iss then c
    else if !e.unreach || e.rxtshift < 3 then c.modify id fun e => { e with unreach := true }
    else c.hold id

def cleanup (tp : ℕ) : Cache :=
  let c := (c.tSc tp).foldl drop c
  { c with tSc := update c.tSc tp [] }

def synCacheTimer (limits : Limits) (c : Cache) (id : ℕ) : Cache :=
  let e := c.entry id
  if e.dead then c
  else if e.rxtshift = tcpMaxrxtshift then c.drop id
  else
    let c := c.modify id fun e => { e with rxttot := e.rxttot + e.rxtcur }
    if limits.tcptvKeepInit ≤ (c.entry id).rxttot then c.drop id
    else c.modify id fun e => Entry.timerArm { e with rxtshift := e.rxtshift + 1 }

end Cache

inductive Event where
  | add (tp : ℕ) (src dst : Sockaddr) (irs iss : Seq) (win : BitVec 32)
      (allocated responded : Bool) (secrets : Secrets)
  | get (src dst : Sockaddr) (seq ack : Seq)
  | reset (src dst : Sockaddr) (seq : Seq)
  | unreach (src dst : Sockaddr) (seq : Seq)
  | put (id : ℕ)
  | cleanup (tp : ℕ)
  | softclock (id : ℕ)
  | callback

/-- `put` is the `SYN_CACHE_PUT` of a function that removed an entry before, `softclock` takes a
timeout off its queue and `callback` is the work of its function, `syn_cache_timer` or
`syn_cache_reaper`. -/
def step (limits : Limits) (c : Cache) : Event → Option Cache
  | .add tp src dst irs iss win allocated responded secrets =>
    c.add limits tp src dst irs iss win allocated responded secrets
  | .get src dst seq ack => some (c.get src dst seq ack)
  | .reset src dst seq => some (c.reset src dst seq)
  | .unreach src dst seq => some (c.unreach src dst seq)
  | .put id =>
    if id < c.next ∧ (c.entry id).held then some (c.modify id Entry.put) else none
  | .cleanup tp => some (c.cleanup tp)
  | .softclock id =>
    match c.running, (c.entry id).func with
    | none, some func =>
      if id < c.next ∧ 0 < (c.entry id).linked then
        some { c.modify id Entry.timeoutDel with running := some (id, func) }
      else none
    | _, _ => none
  | .callback =>
    match c.running with
    | none => none
    | some (id, .timer) => some { c.synCacheTimer limits id with running := none }
    | some (id, .reaper) =>
      some { c.modify id fun e => { e with reaped := e.reaped + 1 } with running := none }

/-- After `syn_cache_init`; the entries of the pool hold anything. -/
def initial (entry : ℕ → Entry) (secrets : Secrets) : Cache where
  entry := entry
  buckets := fun _ => []
  lengths := fun _ => 0
  tSc := fun _ => []
  count := 0
  secrets := secrets
  running := none
  next := 0

end AerieKernel.SynCache
