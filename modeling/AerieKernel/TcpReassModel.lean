import AerieKernel.GuardedRuns
import AerieKernel.SerialNumbers

/-!
# The reassembly queue of a TCP connection

The model of `tcp_reass`.  Sequence numbers are 32-bit words and their differences are
taken as `int`.  The length of a queued segment is kept in the 16-bit field `th_reseqlen`,
while its mbuf has the data itself.
-/

namespace AerieKernel.TcpReass

open Serial (Seq seqGt)

structure Segment where
  seq : Seq
  data : List UInt8
  fin : Bool

/-- `struct tcpqent` with the fields of its header. -/
structure Tcpqent where
  seq : Seq
  reseqlen : BitVec 16
  data : List UInt8
  fin : Bool

/-- The part of the connection that `tcp_reass` changes, with the data of `so_rcv`. -/
structure Tcb where
  segq : List Tcpqent
  rcvNxt : Seq
  soRcv : List UInt8

/-- Get an entry for the segment; without one the last of the queue is used again for the
next segment, and otherwise the queue is flushed. -/
def getEntry (alloc : Bool) (tp : Tcb) (th : Segment) : Option Tcb :=
  if alloc then some tp
  else if tp.segq ≠ [] ∧ th.seq = tp.rcvNxt then some { tp with segq := tp.segq.dropLast }
  else none

def trimNew (p : Option Tcpqent) (th : Segment) : Option Segment :=
  match p with
  | none => some th
  | some p =>
    let i := (p.seq + p.reseqlen.zeroExtend 32 - th.seq).toInt
    if 0 < i then
      if (th.data.length : ℤ) ≤ i then none
      else some { th with seq := th.seq + BitVec.ofInt 32 i, data := th.data.drop i.toNat }
    else some th

def trimQueued (seqEnd : Seq) : List Tcpqent → List Tcpqent
  | [] => []
  | q :: rest =>
    let i := (seqEnd - q.seq).toInt
    if i ≤ 0 then q :: rest
    else if i < q.reseqlen.toNat then
      { q with
        seq := q.seq + BitVec.ofInt 32 i
        reseqlen := q.reseqlen - BitVec.ofInt 16 i
        data := q.data.drop i.toNat } :: rest
    else trimQueued seqEnd rest

/-- Put a segment into the queue; `none` if it is dropped as a duplicate. -/
def enqueue (segq : List Tcpqent) (th : Segment) : Option (List Tcpqent) :=
  let before := segq.takeWhile fun q => !seqGt q.seq th.seq
  let after := segq.dropWhile fun q => !seqGt q.seq th.seq
  (trimNew before.getLast? th).map fun th =>
    before ++ ⟨th.seq, BitVec.ofNat 16 th.data.length, th.data, th.fin⟩ ::
      trimQueued (th.seq + BitVec.ofNat 32 th.data.length) after

/-- The loop that presents data; the flags are those of the last segment.  With
`SS_CANTRCVMORE` the data is freed. -/
def presentLoop (cantrcvmore : Bool) (rcvNxt : Seq) (soRcv : List UInt8) (flags : Bool) :
    List Tcpqent → Tcb × Bool
  | [] => (⟨[], rcvNxt, soRcv⟩, flags)
  | q :: rest =>
    if q.seq = rcvNxt then
      presentLoop cantrcvmore (rcvNxt + q.reseqlen.zeroExtend 32)
        (if cantrcvmore then soRcv else soRcv ++ q.data) q.fin rest
    else (⟨q :: rest, rcvNxt, soRcv⟩, flags)

/-- The part of `tcp_reass` under `present`.  The test for `TCPS_SYN_RECEIVED` in it is
never true, as this state does not count as established. -/
def present (established cantrcvmore : Bool) (tp : Tcb) : Tcb × Bool :=
  if !established then (tp, false)
  else presentLoop cantrcvmore tp.rcvNxt tp.soRcv false tp.segq

/-- `tcp_reass`; the result is `TH_FIN` or nothing. -/
def tcpReass (alloc established cantrcvmore : Bool) (tp : Tcb) (th : Option Segment) : Tcb × Bool :=
  match th with
  | none => present established cantrcvmore tp
  | some th =>
    match getEntry alloc tp th with
    | none => ({ tp with segq := [] }, false)
    | some tp =>
      match enqueue tp.segq th with
      | none => (tp, false)
      | some segq => present established cantrcvmore { tp with segq }

/-! ## The system -/

structure Call where
  alloc : Bool
  established : Bool
  cantrcvmore : Bool
  th : Option Segment

/-- A segment that was received, with the position of its first byte in the stream that
begins at the first `rcv_nxt`. -/
structure Received where
  start : ℕ
  data : List UInt8
  fin : Bool

/-- The connection, by how much `rcv_nxt` has advanced, what was received and what the last
call has returned. -/
structure System where
  tp : Tcb
  advanced : ℕ
  received : List Received
  fin : Bool

def System.receive (sys : System) (th : Segment) : Received :=
  ⟨sys.advanced + (th.seq - sys.tp.rcvNxt).toNat, th.data, th.fin⟩

def step (sys : System) (call : Call) : Option System :=
  let (tp, fin) := tcpReass call.alloc call.established call.cantrcvmore sys.tp call.th
  some
    { tp, fin
      advanced := sys.advanced + (tp.rcvNxt - sys.tp.rcvNxt).toNat
      received := (call.th.map sys.receive).toList ++ sys.received }

def start (rcvNxt : Seq) : System := ⟨⟨[], rcvNxt, []⟩, 0, [], false⟩

end AerieKernel.TcpReass
