import Mathlib

/-!
# Fragments of IPv4 datagrams

The model of the fragment code of `pf_norm.c`: the checks of `pf_normalize_ip`,
the buffering reassembly `pf_reassemble` and the fragment cache `pf_fragcache`.
All packets here belong to one datagram, so that the two trees of fragment
descriptors come down to at most one descriptor in each.  A packet is the header
fields that the code reads and the bytes behind the header, so the lengths in a
header are not tied to the bytes that are there.
-/

namespace AerieKernel.PacketFilter

abbrev Byte := BitVec 8

def u16 (value : ℤ) : ℕ := (value % 65536).toNat

def ipMaxPacket : ℕ := 65535

/-- The header fields in host byte order; `off` is what `IP_OFFMASK` leaves of
`ip_off`, in units of eight bytes. -/
structure Ip where
  hl : ℕ
  len : ℕ
  off : ℕ
  mf : Bool
  df : Bool := false
  deriving DecidableEq, Repr

structure Mbuf where
  ip : Ip
  payload : List Byte
  fragcacheTag : Bool := false
  deriving DecidableEq, Repr

namespace Mbuf

variable (m : Mbuf)

def hlen : ℕ := m.ip.hl * 4

def ipLen : ℤ := m.ip.len - m.hlen

def frIpOff : ℕ := m.ip.off % 8192 * 8

def adjFront (count : ℕ) : Mbuf :=
  { m with payload := m.payload.drop count }

def adjBack (count : ℕ) : Mbuf :=
  { m with payload := m.payload.take (m.payload.length - count) }

def setLen (len : ℕ) : Mbuf :=
  { m with ip := { m.ip with len := len } }

def addOff (units : ℕ) : Mbuf :=
  { m with ip := { m.ip with off := (m.ip.off + units) % 8192 } }

end Mbuf

/-- `struct pf_fragment`; the items are the queued packets of a buffering
descriptor and the ranges of one with `PFFRAG_NOBUFFER`. -/
structure Fragment (α : Type) where
  seenLast : Bool := false
  drop : Bool := false
  frMax : ℕ := 0
  items : List α
  deriving DecidableEq, Repr

/-- The part of a list that the loop over `FR_IP_OFF` or `fr_off` has passed
when it stops, and the rest. -/
def passed {α : Type} (start : α → ℕ) (off : ℕ) (items : List α) : List α :=
  items.takeWhile (start · ≤ off)

def notPassed {α : Type} (start : α → ℕ) (off : ℕ) (items : List α) : List α :=
  items.dropWhile (start · ≤ off)

/-- `Update maximum data size` and `This is the last segment`. -/
def Fragment.note {α : Type} (frag : Fragment α) (max : ℕ) (mff : Bool) : Fragment α :=
  { frag with
    frMax := if frag.frMax < max then max else frag.frMax
    seenLast := frag.seenLast || !mff }

/-! ## Buffering reassembly -/

/-- The new fragment with the local variables `off` and `ip_len`. -/
structure Arriving where
  frent : Mbuf
  off : ℕ
  ipLen : ℕ
  deriving DecidableEq, Repr

variable (m : Mbuf)

def Arriving.of : Arriving :=
  { frent := m, off := m.frIpOff, ipLen := u16 m.ipLen }

/-- What the fragment queued before the new one leaves of it; `none` is the
jump to `drop_fragment`. -/
def cutArriving (frep : Option Mbuf) (new : Arriving) : Option Arriving :=
  match frep with
  | none => some new
  | some frep =>
    if frep.frIpOff + frep.ipLen > new.off then
      let precut := u16 (frep.frIpOff + frep.ipLen - new.off)
      if precut ≥ new.ipLen then none
      else
        let ipLen := new.ipLen - precut
        -- the length without the header goes into the header
        let frent :=
          ((new.frent.adjFront precut).addOff (precut / 8)).setLen ipLen
        some { frent := frent, off := frent.frIpOff, ipLen := ipLen }
    else some new

/-- The loop over the fragments behind the new one, which ends at `stop`. -/
def cutQueued (stop : ℕ) : List Mbuf → List Mbuf
  | [] => []
  | frea :: rest =>
    if stop > frea.frIpOff then
      let aftercut := u16 (stop - frea.frIpOff)
      if aftercut < frea.ipLen then
        (((frea.setLen (u16 (frea.ip.len - aftercut))).addOff
          (aftercut / 8)).adjFront aftercut) :: rest
      else cutQueued stop rest
    else frea :: rest

/-- `pf_reassemble` up to the completeness check: the descriptor with the new
fragment in its queue, or `none` if the fragment is dropped. -/
def queueFragment (frag : Fragment Mbuf) (m : Mbuf) (mff : Bool) : Option (Fragment Mbuf) :=
  let new := Arriving.of m
  let max := u16 (new.ipLen + new.off)
  let front := passed Mbuf.frIpOff new.off frag.items
  let back := notPassed Mbuf.frIpOff new.off frag.items
  (cutArriving front.getLast? new).map fun new =>
    { frag.note max mff with
      items := front ++ new.frent :: cutQueued (new.ipLen + new.off) back }

/-- `Check if we have all the data`; the sum of the lengths if the loop gets to
the end of the queue. -/
def scanQueue (frMax : ℕ) : ℕ → List Mbuf → Option ℕ
  | off, [] => some off
  | off, frep :: rest =>
    let off := u16 (off + frep.ipLen)
    if off < frMax ∧ rest.head?.map Mbuf.frIpOff ≠ some off then none
    else scanQueue frMax off rest

def completeLength (frag : Fragment Mbuf) : Option ℕ :=
  if frag.seenLast then
    (scanQueue frag.frMax 0 frag.items).filter (frag.frMax ≤ ·)
  else none

/-- The header of the first fragment before the bytes of all of them. -/
def joinQueue (off : ℕ) (first : Mbuf) (rest : List Mbuf) : Mbuf :=
  { first with
    ip := { first.ip with len := u16 (off + first.hlen) }
    payload := first.payload ++ rest.flatMap Mbuf.payload }

/-- The descriptor and the packet that `pf_reassemble` leaves once the new
fragment is in the queue. -/
def finishReassembly (frag : Fragment Mbuf) : Option (Fragment Mbuf) × Option Mbuf :=
  match completeLength frag, frag.items with
  | some off, first :: rest =>
    if first.hlen + off > ipMaxPacket then (none, none)
    else (none, some (joinQueue off first rest))
  | _, _ => (some frag, none)

/-- The descriptor with the new fragment in its queue.  `alloc` says whether a
descriptor can be had, if need be after `pf_flush_fragments`. -/
def enterFragment (alloc : Bool) (frag : Option (Fragment Mbuf)) (m : Mbuf)
    (mff : Bool) : Option (Fragment Mbuf) :=
  match frag with
  | none =>
    let new := Arriving.of m
    if alloc then
      some (({ items := [m] } : Fragment Mbuf).note (u16 (new.ipLen + new.off)) mff)
    else none
  | some frag => queueFragment frag m mff

def pfReassemble (alloc : Bool) (frag : Option (Fragment Mbuf)) (m : Mbuf)
    (mff : Bool) : Option (Fragment Mbuf) × Option Mbuf :=
  match enterFragment alloc frag m mff with
  | none => (frag, none)
  | some frag => finishReassembly frag

/-! ## Fragment cache -/

structure FrCache where
  frOff : ℕ
  frEnd : ℕ
  deriving DecidableEq, Repr

/-- Which of the allocations of a call succeed: a descriptor, an entry for a
range, and the copy of the header. -/
structure CacheAlloc where
  frag : Bool := true
  cent : Bool := true
  copy : Bool := true
  deriving DecidableEq, Repr

structure CacheVars where
  m : Mbuf
  ipLen : ℤ
  off : ℕ
  max : ℕ
  cur : Option FrCache := none
  hosed : Bool := false
  deriving DecidableEq, Repr

def CacheVars.of : CacheVars :=
  let off := u16 (m.ip.off * 8)
  { m := m, ipLen := m.ipLen, off := off, max := u16 (m.ipLen + off) }

inductive CacheExit where
  | noMem
  | dropFragment
  deriving DecidableEq, Repr

variable (alloc : CacheAlloc) (drop : Bool)

/-- The range before the new fragment, and the variables if the call goes on. -/
def meetPrevious (frp : FrCache) (vars : CacheVars) : FrCache × Except CacheExit CacheVars :=
  let precut : ℤ := frp.frEnd - vars.off
  if precut ≥ vars.ipLen then (frp, .error .dropFragment)
  else if precut = 0 then ({ frp with frEnd := vars.max }, .ok vars)
  else if precut > 0 then
    let off := u16 (vars.off + precut)
    let max := u16 (vars.max - precut)
    let frp := { frp with frEnd := max }
    if drop then
      (frp, .ok { vars with off := off, max := max, hosed := true })
    else if alloc.copy then
      let m := (vars.m.adjFront precut.toNat).addOff (precut.toNat / 8)
      (frp, .ok { vars with
        m := m.setLen (u16 (vars.m.ip.len - precut)), off := off, max := max })
    else (frp, .error .noMem)
  else if alloc.cent then
    (frp, .ok { vars with cur := some ⟨vars.off, vars.max⟩ })
  else (frp, .error .noMem)

/-- `Need to glue together two separate fragment descriptors`: the ranges from
`frp` to `fra`. -/
def glue (frp cur : Option FrCache) (fra : FrCache) : List FrCache :=
  if cur.any (fra.frOff ≤ ·.frEnd) then
    frp.toList ++ cur.toList.map fun cur => { fra with frOff := cur.frOff }
  else if frp.any (fra.frOff ≤ ·.frEnd) then
    cur.toList ++ frp.toList.map fun frp => { fra with frOff := frp.frOff }
  else frp.toList ++ cur.toList ++ [fra]

/-- The range behind the new fragment: the ranges from `frp` to `fra` and the
variables if the call goes on. -/
def meetNext (frp : Option FrCache) (fra : FrCache)
    (vars : CacheVars) : List FrCache × Except CacheExit CacheVars :=
  let aftercut : ℤ := vars.max - fra.frOff
  if aftercut = 0 then
    (glue frp vars.cur { fra with frOff := vars.off }, .ok vars)
  else if aftercut > 0 then
    let ranges := glue frp vars.cur { fra with frOff := vars.off }
    let max := u16 (vars.max - aftercut)
    if drop then (ranges, .ok { vars with max := max, hosed := true })
    else
      let m := vars.m.adjBack aftercut.toNat
      (ranges, .ok { vars with
        m := m.setLen (u16 (vars.m.ip.len - aftercut)), max := max })
  else if frp.isNone then
    if alloc.cent then
      ([⟨vars.off, vars.max⟩, fra], .ok { vars with cur := some ⟨vars.off, vars.max⟩ })
    else ([fra], .error .noMem)
  else (frp.toList ++ vars.cur.toList ++ [fra], .ok vars)

def meetNeighbours (ranges : List FrCache)
    (vars : CacheVars) : List FrCache × Except CacheExit CacheVars :=
  let before := passed FrCache.frOff vars.off ranges
  let after := notPassed FrCache.frOff vars.off ranges
  match before.getLast? with
  | none =>
    match after with
    | [] => ([], .ok vars)
    | fra :: rest =>
      let (middle, result) := meetNext alloc drop none fra vars
      (middle ++ rest, result)
  | some frp =>
    let front := before.dropLast
    match meetPrevious alloc drop frp vars with
    | (frp, .error exit) => (front ++ frp :: after, .error exit)
    | (frp, .ok vars) =>
      match after with
      | [] => (front ++ frp :: vars.cur.toList, .ok vars)
      | fra :: rest =>
        let (middle, result) := meetNext alloc drop (some frp) fra vars
        (front ++ middle ++ rest, result)

/-- The label `pass`; a complete descriptor is freed. -/
def passFragment (frag : Fragment FrCache) (max : ℕ) (mff : Bool) : Option (Fragment FrCache) :=
  let frag := frag.note max mff
  if frag.seenLast ∧
      frag.items.head?.any fun first =>
        first.frOff = 0 && first.frEnd = frag.frMax then
    none
  else some frag

/-- The labels `no_mem` and `drop_fragment`. -/
def failFragment (exit : CacheExit) (drop mff : Bool)
    (frag : Fragment FrCache) : Fragment FrCache :=
  { frag with
    seenLast := frag.seenLast || !mff
    drop := frag.drop || (drop && exit = .dropFragment) }

def pfFragcache (frag : Option (Fragment FrCache)) (m : Mbuf)
    (mff : Bool) : Option (Fragment FrCache) × Option Mbuf :=
  let vars := CacheVars.of m
  match frag with
  | none =>
    if alloc.frag && alloc.cent then
      (passFragment { items := [⟨vars.off, vars.max⟩] } vars.max mff, some m)
    else (none, none)
  | some frag =>
    match meetNeighbours alloc drop frag.items vars with
    | (ranges, .error exit) =>
      (some (failFragment exit drop mff { frag with items := ranges }), none)
    | (ranges, .ok vars) =>
      let frag := { frag with items := ranges }
      if vars.hosed then
        (some (failFragment .dropFragment drop mff frag), none)
      else (passFragment frag vars.max mff, some vars.m)

/-! ## Normalisation -/

structure ScrubFlags where
  noDf : Bool := false
  fragCrop : Bool := false
  fragDrop : Bool := false
  deriving DecidableEq, Repr

inductive IpCheck where
  | drop
  | bad
  | noFragment
  | fragment (max : ℕ)
  deriving DecidableEq, Repr

def clearDf (rule : ScrubFlags) (m : Mbuf) : Mbuf :=
  { m with ip := { m.ip with df := m.ip.df && !rule.noDf } }

def keepOnlyDf : Mbuf :=
  { m with ip := { m.ip with off := 0, mf := false } }

def checkIp : IpCheck :=
  if m.hlen < 20 then .drop
  else if m.hlen > m.ip.len then .drop
  else if m.frIpOff = 0 ∧ !m.ip.mf then .noFragment
  else if m.ip.df then .bad
  else if m.ip.mf ∧ m.ipLen % 8 ≠ 0 then .bad
  else if m.frIpOff + m.ipLen > ipMaxPacket then .bad
  else .fragment (u16 (m.frIpOff + m.ipLen))

def behindLast {α : Type} (frag : Option (Fragment α)) (max : ℕ) : Bool :=
  frag.any fun frag => frag.seenLast && max > frag.frMax

structure Datagram where
  queue : Option (Fragment Mbuf) := none
  cache : Option (Fragment FrCache) := none
  deriving DecidableEq, Repr

/-- A packet on its way in is marked once it has passed the cache. -/
def Mbuf.markCached (out : Bool) : Mbuf :=
  { m with fragcacheTag := m.fragcacheTag || !out }

structure NormAlloc where
  frent : Bool := true
  frag : Bool := true
  cache : CacheAlloc := {}
  deriving DecidableEq, Repr

/-- `pf_normalize_ip` for a packet of the datagram that matches a scrub rule; the
packet that is passed on, if any.  `out` is `dir == PF_OUT`. -/
def pfNormalizeIp (rule : ScrubFlags) (alloc : NormAlloc) (out : Bool)
    (datagram : Datagram) (m : Mbuf) : Datagram × Option Mbuf :=
  let m := clearDf rule m
  match checkIp m with
  | .drop => (datagram, none)
  | .bad => (datagram, none)
  | .noFragment => (datagram, some (keepOnlyDf m))
  | .fragment max =>
    if !rule.fragCrop && !rule.fragDrop then
      if behindLast datagram.queue max then
        -- the label bad frees the descriptor
        ({ datagram with queue := none }, none)
      else if alloc.frent then
        let (queue, packet) :=
          pfReassemble alloc.frag datagram.queue m m.ip.mf
        ({ datagram with queue := queue }, packet.map keepOnlyDf)
      else (datagram, none)
    else if out && m.fragcacheTag then (datagram, some m)
    else if behindLast datagram.cache max then
      ({ datagram with cache := none }, none)
    else
      let (cache, packet) :=
        pfFragcache alloc.cache rule.fragDrop datagram.cache m m.ip.mf
      ({ datagram with cache := cache },
        if cache.any Fragment.drop then none
        else packet.map fun m => m.markCached out)

/-- What `ip_input` has seen to before a packet gets here: the fields are in
their range and the packet is as long as its header says. -/
structure Mbuf.WellFormed (m : Mbuf) : Prop where
  hl_lt : m.ip.hl < 16
  len_lt : m.ip.len < 65536
  off_lt : m.ip.off < 8192
  payload_length : m.hlen ≤ m.ip.len → m.hlen + m.payload.length = m.ip.len

structure Arrival where
  m : Mbuf
  wellFormed : m.WellFormed
  out : Bool := false

def Mbuf.start : ℕ := m.ip.off * 8

def Mbuf.stop : ℕ := m.start + m.payload.length

/-- The packet gets past the checks on fragments, given the descriptor that its
path looks at. -/
def Admitted {α : Type} (frag : Option (Fragment α)) (m : Mbuf) : Prop :=
  ∃ max, checkIp m = .fragment max ∧ behindLast frag max = false

theorem Fragment.note_frMax {α : Type} (frag : Fragment α) (max : ℕ)
    (mff : Bool) : (frag.note max mff).frMax = Max.max frag.frMax max := by
  rw [Fragment.note]
  split_ifs with hlt
  · exact (max_eq_right hlt.le).symm
  · exact (max_eq_left (Nat.le_of_not_lt hlt)).symm

/-! ## Where the loops over a sorted list stop -/

section Split

variable {α : Type} {start : α → ℕ} {off : ℕ} {items : List α}

theorem passed_append_notPassed (start : α → ℕ) (off : ℕ) (items : List α) :
    passed start off items ++ notPassed start off items = items := List.takeWhile_append_dropWhile

theorem le_of_mem_passed {item : α} (hitem : item ∈ passed start off items) : start item ≤ off := by
  induction items with
  | nil => simp [passed] at hitem
  | cons first rest ih =>
    rw [passed, List.takeWhile_cons] at hitem
    split_ifs at hitem with hfirst
    · rcases List.mem_cons.mp hitem with rfl | hitem
      · simpa using hfirst
      · exact ih hitem
    · simp at hitem

theorem lt_of_mem_notPassed (hsorted : items.Pairwise fun x y => start x ≤ start y) {item : α}
    (hitem : item ∈ notPassed start off items) : off < start item := by
  induction items with
  | nil => simp [notPassed] at hitem
  | cons first rest ih =>
    obtain ⟨hfirst, hrest⟩ := List.pairwise_cons.mp hsorted
    rw [notPassed, List.dropWhile_cons] at hitem
    split_ifs at hitem with hbelow
    · exact ih hrest hitem
    · have hlt : off < start first := by simpa using hbelow
      rcases List.mem_cons.mp hitem with rfl | hitem
      · exact hlt
      · exact hlt.trans_le (hfirst item hitem)

end Split

/-! ## Arithmetic of admitted fragments -/

theorem u16_eq {value : ℤ} {n : ℕ} (heq : value = n) (hn : n < 65536) : u16 value = n := by
  rw [u16]
  omega

/-- What the checks leave: the lengths and offsets fit. -/
structure Mbuf.Sound (m : Mbuf) : Prop where
  off_lt : m.ip.off < 8192
  len_lt : m.ip.len < 65536
  len_eq : m.ip.len = m.hlen + m.payload.length
  stop_le : m.stop ≤ ipMaxPacket

variable {m : Mbuf}

theorem Mbuf.Sound.ipLen_eq (hsound : m.Sound) : m.ipLen = m.payload.length := by
  rw [Mbuf.ipLen, hsound.len_eq]
  push_cast
  ring

theorem Mbuf.Sound.frIpOff_eq (hsound : m.Sound) : m.frIpOff = m.start := by
  rw [Mbuf.frIpOff, Mbuf.start, Nat.mod_eq_of_lt hsound.off_lt]

theorem checkIp_cases {max : ℕ} (hwf : m.WellFormed) (hcheck : checkIp m = .fragment max) :
    m.Sound ∧ max = m.stop ∧ 20 ≤ m.hlen ∧ m.ip.df = false ∧
      (m.ip.mf → m.payload.length % 8 = 0) := by
  rw [checkIp] at hcheck
  split_ifs at hcheck with hshort hlong hwhole hdf haligned hbig
  have hlen := hwf.payload_length (by omega)
  have hipLen : m.ipLen = m.payload.length := by
    rw [Mbuf.ipLen, ← hlen]
    push_cast
    ring
  have hstart : m.frIpOff = m.start := by
    rw [Mbuf.frIpOff, Mbuf.start, Nat.mod_eq_of_lt hwf.off_lt]
  have hstop : m.stop ≤ ipMaxPacket := by
    rw [Mbuf.stop]
    omega
  have hbound : m.stop < 65536 := by
    rw [ipMaxPacket] at hstop
    omega
  refine ⟨⟨hwf.off_lt, hwf.len_lt, hlen.symm, hstop⟩, ?_, by omega, by simpa using hdf, ?_⟩
  · injection hcheck with hmax
    rw [← hmax, hipLen, hstart]
    exact u16_eq (by simp [Mbuf.stop]) hbound
  · intro hmf
    by_contra hrest
    exact haligned ⟨hmf, by omega⟩

theorem clearDf_wellFormed {rule : ScrubFlags} (hwf : m.WellFormed) : (clearDf rule m).WellFormed :=
  { hwf with }

end AerieKernel.PacketFilter
