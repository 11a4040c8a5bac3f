import Mathlib.Tactic

/-!
# Filter rules and what they match

The model of the rules of `pf` and of the tests that `pf_test_rule` makes for
one of them: addresses in all their forms, ports, interfaces.  Both address
families are compiled in.  The outcomes of the routing and table lookups are
functions of what the lookup is given.  An address of the form `(interface)`
keeps a copy of what its table holds, which `pfr_dynaddr_update` writes.
-/

namespace AerieKernel.PacketFilter

/-! ## Addresses -/

structure PfAddr where
  addr32 : Vector (BitVec 32) 4
  deriving DecidableEq, Repr

def hostAddr (host : BitVec 32) : PfAddr := ⟨#v[host, 0, 0, 0]⟩

abbrev SaFamily := BitVec 8

def afInet : SaFamily := 2

def afInet6 : SaFamily := 24

def pfAneq (a b : PfAddr) (c : SaFamily) : Bool :=
  (c = afInet && a.addr32[0] != b.addr32[0]) ||
    (a.addr32[3] != b.addr32[3] || a.addr32[2] != b.addr32[2] ||
      a.addr32[1] != b.addr32[1] || a.addr32[0] != b.addr32[0])

def pfAzero (a : PfAddr) (c : SaFamily) : Bool :=
  (c = afInet && a.addr32[0] == 0) ||
    (a.addr32[0] == 0 && a.addr32[1] == 0 && a.addr32[2] == 0 && a.addr32[3] == 0)

/-- `pf_match_addr` with `n` as a truth value. -/
def pfMatchAddr (n : Bool) (a m b : PfAddr) (af : SaFamily) : Bool :=
  let word (i : Fin 4) : Bool :=
    a.addr32[i] &&& m.addr32[i] == b.addr32[i] &&& m.addr32[i]
  let found :=
    if af = afInet then word 0
    else if af = afInet6 then word 0 && word 1 && word 2 && word 3
    else false
  found != n

/-- The loops of `pf_match_addr_range`: whether `a` is not behind `b` in the
words that are left. -/
def wordsLe (a b : PfAddr) : List (Fin 4) → Bool
  | [] => true
  | i :: rest =>
    if a.addr32[i] < b.addr32[i] then true
    else if b.addr32[i] < a.addr32[i] then false
    else wordsLe a b rest

def pfMatchAddrRange (b e a : PfAddr) (af : SaFamily) : Bool :=
  if af = afInet then
    !(decide (a.addr32[0] < b.addr32[0]) || decide (e.addr32[0] < a.addr32[0]))
  else if af = afInet6 then
    wordsLe b a [0, 1, 2, 3] && wordsLe a e [0, 1, 2, 3]
  else true

/-! ## Operators -/

def pfOpIrg : BitVec 8 := 1
def pfOpEq : BitVec 8 := 2
def pfOpNe : BitVec 8 := 3
def pfOpLt : BitVec 8 := 4
def pfOpLe : BitVec 8 := 5
def pfOpGt : BitVec 8 := 6
def pfOpGe : BitVec 8 := 7
def pfOpXrg : BitVec 8 := 8
def pfOpRrg : BitVec 8 := 9

def pfMatch (op : BitVec 8) (a1 a2 p : BitVec 32) : Bool :=
  if op = pfOpIrg then decide (a1 < p) && decide (p < a2)
  else if op = pfOpXrg then decide (p < a1) || decide (a2 < p)
  else if op = pfOpRrg then decide (a1 ≤ p) && decide (p ≤ a2)
  else if op = pfOpEq then p == a1
  else if op = pfOpNe then p != a1
  else if op = pfOpLt then decide (p < a1)
  else if op = pfOpLe then decide (p ≤ a1)
  else if op = pfOpGt then decide (a1 < p)
  else if op = pfOpGe then decide (a1 ≤ p)
  else false

inductive ByteOrder
  | little
  | big
  deriving DecidableEq, Repr

def ntohs (order : ByteOrder) (x : BitVec 16) : BitVec 16 :=
  match order with
  | .little => x <<< 8 ||| x >>> 8
  | .big => x

def pfMatchPort (order : ByteOrder) (op : BitVec 8) (a1 a2 p : BitVec 16) : Bool :=
  pfMatch op ((ntohs order a1).setWidth 32) ((ntohs order a2).setWidth 32)
    ((ntohs order p).setWidth 32)

def idMax : BitVec 32 := 0xffffffff

/-- `pf_match_uid` and `pf_match_gid`, which have one body. -/
def pfMatchId (op : BitVec 8) (a1 a2 u : BitVec 32) : Bool :=
  if u = idMax ∧ op ≠ pfOpEq ∧ op ≠ pfOpNe then false
  else pfMatch op a1 a2 u

def pfMatchUid := pfMatchId

def pfMatchGid := pfMatchId

/-! ## Interfaces -/

abbrev Kif := ℕ

abbrev Group := ℕ

/-- What `pfi_kif_match` reads of an interface: `pfik_group`, and the groups
of `pfik_ifp`. -/
structure KifEntry where
  group : Option Group
  ifGroups : List Group

def pfiKifMatch (kifs : Kif → KifEntry) (ruleKif : Option Kif) (packetKif : Kif) : Bool :=
  match ruleKif with
  | none => true
  | some ruleKif =>
    if ruleKif = packetKif then true
    else
      match (kifs ruleKif).group with
      | none => false
      | some group => (kifs packetKif).ifGroups.contains group

/-! ## Tables and the addresses of interfaces -/

abbrev Ktable := ℕ

/-- An entry of a table: its address, and the mask that
`pfr_prepare_network` makes of its prefix length. -/
structure PfrKentry where
  sa : PfAddr
  mask : PfAddr

/-- The entries of `pfrkt_ip4` and of `pfrkt_ip6` in the order of
`rn_walktree`. -/
structure KtableEntries where
  ip4 : List PfrKentry
  ip6 : List PfrKentry

/-- `pfid_addr`, `pfid_mask` and `pfid_acnt` of one address family. -/
structure PfidFamily where
  addr : PfAddr
  mask : PfAddr
  acnt : ℕ
  deriving DecidableEq, Repr

structure PfiDynaddr where
  inet : PfidFamily
  inet6 : PfidFamily
  kt : Ktable
  af : SaFamily
  deriving DecidableEq, Repr

/-- `pfr_walktree` with `PFRW_DYNADDR_UPDATE` at an entry. -/
def PfidFamily.walktree (pfid : PfidFamily) (ke : PfrKentry) : PfidFamily :=
  if 0 < pfid.acnt then { pfid with acnt := pfid.acnt + 1 }
  else { addr := ke.sa, mask := ke.mask, acnt := pfid.acnt + 1 }

/-- What `pfr_dynaddr_update` does for the family `af` of an address of a
rule whose family is `ruleAf`. -/
def PfidFamily.update (pfid : PfidFamily) (entries : List PfrKentry)
    (ruleAf af : SaFamily) : PfidFamily :=
  if ruleAf = 0 ∨ ruleAf = af then
    entries.foldl PfidFamily.walktree { pfid with acnt := 0 }
  else { pfid with acnt := 0 }

def pfrDynaddrUpdate (kt : KtableEntries) (dyn : PfiDynaddr) : PfiDynaddr :=
  { dyn with
    inet := dyn.inet.update kt.ip4 dyn.af afInet
    inet6 := dyn.inet6.update kt.ip6 dyn.af afInet6 }

/-! ## The lookups -/

structure Lookups where
  order : ByteOrder
  kifs : Kif → KifEntry
  routable : PfAddr → SaFamily → Option Kif → Bool
  rtLabelid : PfAddr → SaFamily → Option (BitVec 32)
  tableMatch : Ktable → PfAddr → SaFamily → Bool
  socketLookup : BitVec 32 × BitVec 32
  osfpMatch : BitVec 32 → Bool

variable (env : Lookups)

def pfRtlabelMatch (addr : PfAddr) (af : SaFamily) (rtlabel : BitVec 32) : Bool :=
  env.rtLabelid addr af == some rtlabel

def PfidFamily.matches (pfid : PfidFamily) (env : Lookups) (kt : Ktable)
    (a : PfAddr) (af : SaFamily) : Bool :=
  match pfid.acnt with
  | 0 => false
  | 1 => pfMatchAddr false pfid.addr pfid.mask a af
  | _ => env.tableMatch kt a af

def pfiMatchAddr (dyn : PfiDynaddr) (a : PfAddr) (af : SaFamily) : Bool :=
  if af = afInet then dyn.inet.matches env dyn.kt a afInet
  else if af = afInet6 then dyn.inet6.matches env dyn.kt a afInet6
  else false

/-! ## Rules -/

/-- `pf_addr_wrap` with the members of its unions that its type selects. -/
inductive PfAddrWrap
  | addrmask (addr mask : PfAddr)
  | noroute
  | dyniftl (dyn : PfiDynaddr)
  | table (tbl : Ktable)
  | rtlabel (label : BitVec 32)
  | urpffailed
  | range (addr mask : PfAddr)
  | invalid (type : BitVec 8)
  deriving DecidableEq, Repr

def pfAddrWrapNeq : PfAddrWrap → PfAddrWrap → Bool
  | .addrmask addr1 mask1, .addrmask addr2 mask2 =>
    pfAneq addr1 addr2 0 || pfAneq mask1 mask2 0
  | .range addr1 mask1, .range addr2 mask2 =>
    pfAneq addr1 addr2 0 || pfAneq mask1 mask2 0
  | .dyniftl dyn1, .dyniftl dyn2 => dyn1.kt != dyn2.kt
  | .noroute, .noroute => false
  | .urpffailed, .urpffailed => false
  | .table tbl1, .table tbl2 => tbl1 != tbl2
  | .rtlabel label1, .rtlabel label2 => label1 != label2
  | _, _ => true

/-- The left side of the comparison in `PF_MISMATCHAW`. -/
def PfAddrWrap.fails (aw : PfAddrWrap) (x : PfAddr) (af : SaFamily) (ifp : Option Kif) : Bool :=
  match aw with
  | .noroute => env.routable x af none
  | .urpffailed => ifp.isSome && env.routable x af ifp
  | .rtlabel label => !pfRtlabelMatch env x af label
  | .table tbl => !env.tableMatch tbl x af
  | .dyniftl dyn => !pfiMatchAddr env dyn x af
  | .range addr mask => !pfMatchAddrRange addr mask x af
  | .addrmask addr mask =>
    !pfAzero mask af && !pfMatchAddr false addr mask x af
  | .invalid _ => false

/-- A truth value as the `int` that it is in C, cut to eight bits. -/
def cBool (b : Bool) : BitVec 8 := if b then 1 else 0

def pfMismatchaw (aw : PfAddrWrap) (x : PfAddr)
    (af : SaFamily) (neg : BitVec 8) (ifp : Option Kif) : Bool :=
  cBool (aw.fails env x af ifp) != neg

structure PfRuleAddr where
  addr : PfAddrWrap
  port : BitVec 16 × BitVec 16
  neg : BitVec 8
  portOp : BitVec 8
  deriving DecidableEq, Repr

def PfRuleAddr.addrFails (x : PfAddr) (af : SaFamily) (ifp : Option Kif) (ra : PfRuleAddr) : Bool :=
  pfMismatchaw env ra.addr x af ra.neg ifp

def PfRuleAddr.portFails (port : BitVec 16) (ra : PfRuleAddr) : Bool :=
  ra.portOp != 0 && !pfMatchPort env.order ra.portOp ra.port.1 ra.port.2 port

inductive PfAction
  | pass
  | drop
  | scrub
  | noscrub
  | nat
  | nonat
  | binat
  | nobinat
  | rdr
  | nordr
  | synproxyDrop
  deriving DecidableEq, Repr

abbrev AnchorId := ℕ

/-- What `pf_calc_skip_steps` and the loops over rules read of a rule. -/
structure PfRule where
  src : PfRuleAddr
  dst : PfRuleAddr
  action : PfAction := .pass
  rpoolCur : Option PfAddrWrap := none
  kif : Option Kif := none
  anchor : Option AnchorId := none
  osFingerprint : BitVec 32 := 0
  rtableid : ℤ := -1
  prob : BitVec 32 := 0
  tag : BitVec 16 := 0
  matchTag : BitVec 16 := 0
  uid : BitVec 8 × BitVec 32 × BitVec 32 := (0, 0, 0)
  gid : BitVec 8 × BitVec 32 × BitVec 32 := (0, 0, 0)
  fragment : Bool := false
  direction : BitVec 8 := 0
  quick : Bool := false
  ifnot : BitVec 8 := 0
  matchTagNot : Bool := false
  af : SaFamily := 0
  proto : BitVec 8 := 0
  type : BitVec 8 := 0
  code : BitVec 8 := 0
  flags : BitVec 8 := 0
  flagset : BitVec 8 := 0
  tos : BitVec 8 := 0
  anchorWildcard : Bool := false
  deriving DecidableEq, Repr

/-! ## Packets -/

structure PfPdesc where
  direction : BitVec 8
  kif : Kif
  af : SaFamily
  proto : BitVec 8
  saddr : PfAddr
  daddr : PfAddr
  sport : BitVec 16
  dport : BitVec 16
  icmptype : BitVec 8
  icmpcode : BitVec 8
  tos : BitVec 8
  thFlags : BitVec 8
  tag : BitVec 16

def ipprotoTcp : BitVec 8 := 6

def pfIn : BitVec 8 := 1

def pfMatchTag (pd : PfPdesc) (r : PfRule) (tag : ℤ) : Bool × ℤ :=
  let tag := if tag = -1 then (pd.tag.toNat : ℤ) else tag
  ((!r.matchTagNot && (r.matchTag.toNat : ℤ) == tag) ||
    (r.matchTagNot && (r.matchTag.toNat : ℤ) != tag), tag)

/-! ## The tests that have a skip step -/

inductive Skip
  | ifp
  | dir
  | af
  | proto
  | srcAddr
  | srcPort
  | dstAddr
  | dstPort
  deriving DecidableEq, Repr

def Skip.all : List Skip :=
  [.ifp, .dir, .af, .proto, .srcAddr, .srcPort, .dstAddr, .dstPort]

/-- The condition of the branch of the loop of `pf_test_rule` that follows
`skip[step]`. -/
def PfRule.fails (pd : PfPdesc) (r : PfRule) : Skip → Bool
  | .ifp => cBool (pfiKifMatch env.kifs r.kif pd.kif) == r.ifnot
  | .dir => r.direction != 0 && r.direction != pd.direction
  | .af => r.af != 0 && r.af != pd.af
  | .proto => r.proto != 0 && r.proto != pd.proto
  | .srcAddr => r.src.addrFails env pd.saddr pd.af (some pd.kif)
  | .srcPort => r.src.portFails env pd.sport
  | .dstAddr => r.dst.addrFails env pd.daddr pd.af none
  | .dstPort => r.dst.portFails env pd.dport

/-- The first of these tests that the rule fails. -/
def PfRule.mismatch (pd : PfPdesc) (r : PfRule) : Option Skip :=
  Skip.all.find? fun step => r.fails env pd step

end AerieKernel.PacketFilter
