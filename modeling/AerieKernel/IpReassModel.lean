import AerieKernel.GuardedRuns
import Mathlib.Data.BitVec

/-!
# Reassembly of IP datagrams

The model of the fragment path of `ipv4_input` and of `ip_reass` for the fragments of one
datagram.  `ip_off` and `ip_len` are the 16-bit fields of the header in the mbuf, which the
code rewrites; what is computed from them is an `int`.
-/

namespace AerieKernel.IpReass

structure Ip where
  hl : BitVec 4
  tos : BitVec 8
  len : BitVec 16
  off : BitVec 16
  deriving DecidableEq

def Ip.hlen (ip : Ip) : ℕ := ip.hl.toNat * 4

def ipRf : BitVec 16 := 0x8000
def ipDf : BitVec 16 := 0x4000
def ipMf : BitVec 16 := 0x2000
def ipMaxpacket : ℕ := 65535

/-- A packet for us.  Its mbuf has been trimmed to `ip_len`, and a shorter one was dropped;
the data is what follows the header. -/
structure Packet where
  ip : Ip
  data : List UInt8
  length_eq : ip.len.toNat = ip.hlen + data.length

structure Ipqent where
  mff : Bool
  ip : Ip
  data : List UInt8
  deriving DecidableEq

def iptosEcnNotect : BitVec 8 := 0
def iptosEcnCe : BitVec 8 := 3
def iptosEcnMask : BitVec 8 := 3

/-- Compare with the first fragment and do not lose CE; `none` if the fragment is dropped.
There always is a first fragment. -/
def compareEcn (tos : BitVec 8) : List Ipqent → Option (List Ipqent)
  | [] => some []
  | first :: rest =>
    let ecn := tos &&& iptosEcnMask
    let ecn0 := first.ip.tos &&& iptosEcnMask
    if ecn = iptosEcnCe then
      if ecn0 = iptosEcnNotect then none
      else if ecn0 ≠ iptosEcnCe then
        some ({ first with ip.tos := first.ip.tos ||| iptosEcnCe } :: rest)
      else some (first :: rest)
    else if ecn = iptosEcnNotect ∧ ecn0 ≠ iptosEcnNotect then none
    else some (first :: rest)

def Ipqent.adjust (q : Ipqent) (i : ℕ) : Ipqent :=
  { q with
    ip.off := BitVec.ofNat 16 (q.ip.off.toNat + i)
    ip.len := BitVec.ofNat 16 (q.ip.len.toNat - i)
    data := q.data.drop i }

def trimNew (p : Option Ipqent) (ipqe : Ipqent) : Option Ipqent :=
  match p with
  | none => some ipqe
  | some p =>
    let i : ℤ := p.ip.off.toNat + p.ip.len.toNat - ipqe.ip.off.toNat
    if 0 < i then
      if ipqe.ip.len.toNat ≤ i then none else some (ipqe.adjust i.toNat)
    else some ipqe

def trimQueued (ipqe : Ipqent) : List Ipqent → List Ipqent
  | [] => []
  | q :: rest =>
    let i : ℤ := ipqe.ip.off.toNat + ipqe.ip.len.toNat - q.ip.off.toNat
    if i ≤ 0 then q :: rest
    else if i < q.ip.len.toNat then q.adjust i.toNat :: rest
    else trimQueued ipqe rest

def insert (fragq : List Ipqent) (ipqe : Ipqent) : Option (List Ipqent) :=
  let before := fragq.takeWhile fun q => q.ip.off.toNat ≤ ipqe.ip.off.toNat
  let after := fragq.dropWhile fun q => q.ip.off.toNat ≤ ipqe.ip.off.toNat
  (trimNew before.getLast? ipqe).map fun ipqe => before ++ ipqe :: trimQueued ipqe after

/-- The loop that checks for complete reassembly: where the fragments end. -/
def reach (next : ℕ) : List Ipqent → Option ℕ
  | [] => some next
  | q :: rest => if q.ip.off.toNat ≠ next then none else reach (next + q.ip.len.toNat) rest

structure Datagram where
  ip : Ip
  data : List UInt8
  deriving DecidableEq

/-- The part of `ip_reass` behind the insertion: the queue that remains and the datagram. -/
def complete (fragq : List Ipqent) : Option (List Ipqent) × Option Datagram :=
  match reach 0 fragq, fragq.head?, fragq.getLast? with
  | some next, some first, some last =>
    if last.mff then (some fragq, none)
    else if ipMaxpacket < next + first.ip.hlen then (none, none)
    else
      (none, some ⟨{ first.ip with len := BitVec.ofNat 16 next }, fragq.flatMap (·.data)⟩)
  | _, _, _ => (some fragq, none)

/-- What the pools give, and whether `ip_frags` is below `ip_maxqueue`; otherwise `ip_flush`
may free the queue. -/
structure Memory where
  room : Bool
  flushed : Bool
  ipqent : Bool
  ipq : Bool

def ipReass (mem : Memory) (fp : Option (List Ipqent)) (ipqe : Ipqent) :
    Option (List Ipqent) × Option Datagram :=
  match fp with
  | none => if mem.ipq then complete [ipqe] else (none, none)
  | some fragq =>
    match compareEcn ipqe.ip.tos fragq with
    | none => (some fragq, none)
    | some fragq =>
      match insert fragq ipqe with
      | none => (some fragq, none)
      | some fragq => complete fragq

variable (m : Packet)

def Packet.isFragment : Bool := m.ip.off &&& ~~~ (ipDf ||| ipRf) ≠ 0

def Packet.mff : Bool := m.ip.off &&& ipMf ≠ 0

def Packet.fragLen : BitVec 16 := m.ip.len - BitVec.ofNat 16 m.ip.hlen

/-- A fragment with more fragments has a non-zero multiple of 8 bytes. -/
def Packet.badFrag : Bool :=
  m.mff && (m.fragLen = 0 || m.fragLen &&& 7 ≠ 0)

def Packet.entry : Ipqent :=
  ⟨m.mff, { m.ip with len := m.fragLen, off := m.ip.off <<< 3 }, m.data⟩

/-- The fragment path of `ipv4_input`; a packet that is not a fragment does not touch the
queue. -/
def ipv4Input (mem : Memory) (fp : Option (List Ipqent)) (m : Packet) :
    Option (List Ipqent) × Option Datagram :=
  if !m.isFragment then (fp, none)
  else if m.badFrag then (fp, none)
  else if m.mff ∨ m.entry.ip.off ≠ 0 then
    if !mem.room then (if mem.flushed then none else fp, none)
    else if !mem.ipqent then (fp, none)
    else
      let (fp, datagram) := ipReass mem fp m.entry
      (fp, datagram.map fun d =>
        { d with ip.len := BitVec.ofNat 16 (d.ip.len.toNat + d.ip.hlen) })
  else (none, none)

/-! ## The system -/

/-- A packet arrives, or `ip_slowtimo` or `ip_drain` frees the queue. -/
inductive Event where
  | packet (mem : Memory) (m : Packet)
  | freef

structure Fragment where
  start : ℕ
  data : List UInt8
  mff : Bool
  hlen : ℕ

def Packet.fragment : Fragment :=
  ⟨8 * (m.ip.off.toNat % 2 ^ 13), m.data, m.mff, m.ip.hlen⟩

/-- The queue, the fragments that have arrived since the queue was made, and the datagram
that the last packet has completed. -/
structure System where
  fp : Option (List Ipqent)
  arrived : List Fragment
  datagram : Option Datagram

def System.current (sys : System) : List Fragment := if sys.fp.isNone then [] else sys.arrived

def step (sys : System) : Event → Option System
  | .packet mem m =>
    let (fp, datagram) := ipv4Input mem sys.fp m
    let arrived :=
      if m.isFragment && !m.badFrag then m.fragment :: sys.current else sys.current
    some { fp, arrived, datagram }
  | .freef => some ⟨none, [], none⟩

def start : System := ⟨none, [], none⟩

end AerieKernel.IpReass
