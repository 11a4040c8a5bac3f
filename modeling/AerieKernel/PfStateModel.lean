import Mathlib
import AerieKernel.OrderedTables
import AerieKernel.PfRuleModel

/-!
# States, state keys and source nodes

The model of the state table of `pf`: the keys by which packets find their
state, the states with their list and their tree of identifiers, the nodes that
count the states of one source address, and the counters of rules.  Records are
reached through pointers into total maps, so a pointer to a freed record stays a
value; in use is what a tree, a list or the pool holds.  `pool_get` gives a
pointer or fails as the call says.  The limits of the pools keep the number of
states and nodes below what the counters hold.
-/

namespace AerieKernel.PacketFilter

abbrev KeyPtr := ℕ
abbrev StatePtr := ℕ
abbrev NodePtr := ℕ
abbrev RuleId := ℕ

def pfOut : BitVec 8 := 2

def pfiAll : Kif := 0

def pfDefaultRule : RuleId := 0

/-! ## Records and their order -/

structure StateKeyCmp where
  addr : PfAddr × PfAddr
  port : BitVec 16 × BitVec 16
  af : SaFamily
  proto : BitVec 8
  deriving DecidableEq, Repr

@[ext] structure StateKey where
  cmp : StateKeyCmp
  states : List StatePtr := []
  reverse : Option KeyPtr := none
  deriving DecidableEq, Repr

def compareBits {n : ℕ} (a b : BitVec n) : Ordering :=
  compare a.toNat b.toNat

def pfStateCompareKey (a b : StateKeyCmp) : Ordering :=
  let word (i : ℕ) : Ordering :=
    (compareBits a.addr.1.addr32[i]! b.addr.1.addr32[i]!).then
      (compareBits a.addr.2.addr32[i]! b.addr.2.addr32[i]!)
  let addrs : Ordering :=
    if a.af = afInet then word 0
    else if a.af = afInet6 then
      (word 3).then ((word 2).then ((word 1).then (word 0)))
    else .eq
  (compareBits a.proto b.proto).then
    ((compareBits a.af b.af).then
      (addrs.then ((compareBits a.port.1 b.port.1).then (compareBits a.port.2 b.port.2))))

inductive SkIdx
  | wire
  | stack
  deriving DecidableEq, Repr

inductive Timeout
  | tcpFirstPacket
  | tcpOpening
  | tcpEstablished
  | tcpClosing
  | tcpFinWait
  | tcpClosed
  | udpFirstPacket
  | udpSingle
  | udpMultiple
  | icmpFirstPacket
  | icmpErrorReply
  | otherFirstPacket
  | otherSingle
  | otherMultiple
  | purge
  | unlinked
  | untilPacket
  deriving DecidableEq, Repr

structure PfState where
  id : BitVec 64 := 0
  creatorid : BitVec 32 := 0
  direction : BitVec 8
  kif : Kif := pfiAll
  wire : Option KeyPtr := none
  stack : Option KeyPtr := none
  timeout : Timeout
  rule : RuleId
  anchor : Option RuleId := none
  natRule : Option RuleId := none
  srcNode : Option NodePtr := none
  natSrcNode : Option NodePtr := none
  deriving DecidableEq, Repr

def PfState.key (st : PfState) : SkIdx → Option KeyPtr
  | .wire => st.wire
  | .stack => st.stack

def PfState.setKey (st : PfState) (idx : SkIdx) (k : Option KeyPtr) : PfState :=
  match idx with
  | .wire => { st with wire := k }
  | .stack => { st with stack := k }

section SetKey

variable (st : PfState) (idx : SkIdx) (k : Option KeyPtr)

theorem PfState.key_setKey (idx' : SkIdx) :
    (st.setKey idx k).key idx' = if idx' = idx then k else st.key idx' := by
  cases idx <;> cases idx' <;> rfl

@[simp] theorem PfState.setKey_frame : (st.setKey idx k).kif = st.kif ∧
    (st.setKey idx k).direction = st.direction ∧ (st.setKey idx k).timeout = st.timeout := by
  cases idx <;> exact ⟨rfl, rfl, rfl⟩

theorem PfState.setKey_setKey (k' : Option KeyPtr) :
    (st.setKey idx k).setKey idx k' = st.setKey idx k' := by
  cases idx <;> rfl

theorem PfState.setKey_self (h : st.key idx = k) : st.setKey idx k = st := by
  subst h
  cases idx <;> rfl

end SetKey

def pfStateCompareId (a b : PfState) : Ordering :=
  (compareBits a.id b.id).then (compareBits a.creatorid b.creatorid)

structure SrcNodeKey where
  rule : Option RuleId
  af : SaFamily
  addr : PfAddr
  deriving DecidableEq, Repr

structure SrcNode where
  key : SrcNodeKey
  states : ℕ := 0
  expire : BitVec 32 := 0
  deriving DecidableEq, Repr

/-- The address of a rule, which is 0 for the null pointer. -/
def ruleAddress (rule : Option RuleId) : ℕ :=
  rule.elim 0 (· + 1)

def pfSrcCompare (a b : SrcNodeKey) : Ordering :=
  let word (i : ℕ) : Ordering :=
    compareBits a.addr.addr32[i]! b.addr.addr32[i]!
  (compare (ruleAddress a.rule) (ruleAddress b.rule)).then
    ((compareBits a.af b.af).then
      (if a.af = afInet then word 0
      else if a.af = afInet6 then
        (word 3).then ((word 2).then ((word 1).then (word 0)))
      else .eq))

def pfruleSrctrack : BitVec 32 := 0x20
def pfruleRulesrctrack : BitVec 32 := 0x40
def pfruleIfbound : BitVec 32 := 0x10000
def pfPoolStickyaddr : BitVec 8 := 0x20
def pfStateSynproxy : BitVec 8 := 3

/-- The fields of a rule that the code for states uses; `linked` stands for
`entries.tqe_prev` and `freed` is set when the rule goes back to its pool. -/
structure RuleEntry where
  ruleFlag : BitVec 32 := 0
  poolOpts : BitVec 8 := 0
  keepState : BitVec 8 := 1
  maxStates : ℕ := 0
  maxSrcNodes : ℕ := 0
  maxSrcStates : ℕ := 0
  srcNodeTimeout : BitVec 32 := 0
  statesCur : ℕ := 0
  srcNodes : ℕ := 0
  linked : Bool := true
  freed : Bool := false
  deriving DecidableEq, Repr

structure PfStatus where
  states : ℕ := 0
  srcNodes : ℕ := 0
  stateid : BitVec 64
  hostid : BitVec 32

@[ext] structure Pf where
  keys : KeyPtr → StateKey
  statetbl : List KeyPtr
  states : StatePtr → PfState
  pool : Finset StatePtr
  treeId : List StatePtr
  stateList : List StatePtr
  nodes : NodePtr → SrcNode
  srcTree : List NodePtr
  rules : RuleId → RuleEntry
  status : PfStatus

namespace Pf

variable (pf : Pf)

@[simps] def modifyKey (k : KeyPtr) (f : StateKey → StateKey) : Pf :=
  { pf with keys := Function.update pf.keys k (f (pf.keys k)) }

variable (s : StatePtr)

@[simps] def modifyState (f : PfState → PfState) : Pf :=
  { pf with states := Function.update pf.states s (f (pf.states s)) }

variable (n : NodePtr)

@[simps] def modifyNode (f : SrcNode → SrcNode) : Pf :=
  { pf with nodes := Function.update pf.nodes n (f (pf.nodes n)) }

@[simps] def modifyRule (r : RuleId) (f : RuleEntry → RuleEntry) : Pf :=
  { pf with rules := Function.update pf.rules r (f (pf.rules r)) }

def setKey (idx : SkIdx) (k : Option KeyPtr) : Pf :=
  pf.modifyState s fun st => st.setKey idx k

def findKey (key : StateKeyCmp) : Option KeyPtr :=
  Tables.find pfStateCompareKey (fun k => (pf.keys k).cmp) key pf.statetbl

/-! ## Keys of a state -/

/-- The branch of `pf_state_key_detach` for a key without states. -/
def removeKey (k : KeyPtr) : Pf :=
  let pf := { pf with statetbl := pf.statetbl.erase k }
  match (pf.keys k).reverse with
  | none => pf
  | some r => pf.modifyKey r fun key => { key with reverse := none }

def stateKeyDetach (idx : SkIdx) : Pf :=
  match (pf.states s).key idx with
  | none => pf
  | some k =>
    let pf := pf.modifyKey k fun key =>
      { key with states := key.states.erase s }
    let pf := if (pf.keys k).states = [] then pf.removeKey k else pf
    pf.setKey s idx none

/-- The end of `pf_state_key_attach`, with the outcome of `pool_get` for the
item. -/
def addItem (k : KeyPtr) (s : StatePtr) (idx : SkIdx) (item : Bool) : Pf × Bool :=
  let pf := pf.setKey s idx (some k)
  if item then
    (pf.modifyKey k fun key =>
      { key with
        states :=
          -- if-bound states before floating
          if (pf.states s).kif = pfiAll then key.states ++ [s]
          else s :: key.states }, true)
  else (pf.stateKeyDetach s idx, false)

def stateKeyAttach (sk : KeyPtr) (s : StatePtr) (idx : SkIdx) (item : Bool) : Pf × Bool :=
  match pf.findKey (pf.keys sk).cmp with
  | some cur =>
    if (pf.keys cur).states.any fun other =>
        (pf.states other).kif == (pf.states s).kif &&
          (pf.states other).direction == (pf.states s).direction then
      (pf, false)
    else pf.addItem cur s idx item
  | none =>
    { pf with
      statetbl := Tables.place pfStateCompareKey (fun k => (pf.keys k).cmp)
        sk pf.statetbl }.addItem sk s idx item

def detachState : Pf :=
  let pf :=
    if (pf.states s).wire = (pf.states s).stack then pf.setKey s .wire none
    else pf
  (pf.stateKeyDetach s .stack).stateKeyDetach s .wire

def attachKeys (skw sks : KeyPtr) (s : StatePtr) (items : Bool × Bool) : Pf × Bool :=
  let (attached, ok) := pf.stateKeyAttach skw s .wire items.1
  if ok then
    if skw = sks then
      (attached.setKey s .stack (attached.states s).wire, true)
    else
      let (both, ok) := attached.stateKeyAttach sks s .stack items.2
      if ok then (both, true) else (both.stateKeyDetach s .wire, false)
  else (attached, false)

variable (order : ByteOrder)

def htobe64 (id : BitVec 64) : BitVec 64 :=
  match order with
  | .big => id
  | .little =>
    id.extractLsb' 0 8 ++ id.extractLsb' 8 8 ++ id.extractLsb' 16 8 ++
      id.extractLsb' 24 8 ++ id.extractLsb' 32 8 ++ id.extractLsb' 40 8 ++
      id.extractLsb' 48 8 ++ id.extractLsb' 56 8

def nameState (s : StatePtr) : Pf :=
  if (pf.states s).id = 0 ∧ (pf.states s).creatorid = 0 then
    { pf with status.stateid := pf.status.stateid + 1 }.modifyState s fun st =>
      { st with
        id := htobe64 order pf.status.stateid
        creatorid := pf.status.hostid }
  else pf

def stateInsert (kif : Kif) (skw sks : KeyPtr) (s : StatePtr) (items : Bool × Bool) : Pf × Bool :=
  let pf := pf.modifyState s fun st => { st with kif := kif }
  let (pf, ok) := pf.attachKeys skw sks s items
  if ok then
    let pf := pf.nameState order s
    match Tables.find pfStateCompareId pf.states (pf.states s) pf.treeId with
    | some _ => (pf.detachState s, false)
    | none =>
      ({ pf with
        treeId := Tables.place pfStateCompareId pf.states s pf.treeId
        stateList := pf.stateList ++ [s]
        status.states := pf.status.states + 1 }, true)
  else (pf, false)

/-! ## Searches -/

def firstState (kif : Kif) (dir : BitVec 8) (sk : KeyPtr) : Option StatePtr :=
  (pf.keys sk).states.find? fun s =>
    ((pf.states s).kif == pfiAll || (pf.states s).kif == kif) &&
      some sk == (if dir = pfIn then (pf.states s).wire
        else (pf.states s).stack)

def linkKeys (k sk : KeyPtr) : Pf :=
  (pf.modifyKey k fun key => { key with reverse := some sk }).modifyKey sk
    fun key => { key with reverse := some k }

/-- `pf_find_state` returns the state and leaves `m_pkthdr.pf.statekey`. -/
def findState (kif : Kif) (key : StateKeyCmp) (dir : BitVec 8)
    (statekey : Option KeyPtr) : Pf × Option StatePtr × Option KeyPtr :=
  let carried := if dir = pfOut then statekey else none
  let left := if dir = pfOut then none else statekey
  match carried.bind fun k => (pf.keys k).reverse with
  | some sk => (pf, pf.firstState kif dir sk, left)
  | none =>
    match pf.findKey key with
    | none => (pf, none, statekey)
    | some sk =>
      let pf :=
        match carried with
        | some k => pf.linkKeys k sk
        | none => pf
      (pf, pf.firstState kif dir sk, left)

/-! ## Rules and source nodes -/

/-- `pf_rm_rule` without a queue. -/
def rmRule (r : RuleId) : Pf :=
  if 0 < (pf.rules r).statesCur ∨ 0 < (pf.rules r).srcNodes ∨
      (pf.rules r).linked = true then pf
  else pf.modifyRule r fun rule => { rule with freed := true }

def releaseNode (r : RuleId) (time : BitVec 32) : Pf :=
  let timeout :=
    if (pf.rules r).srcNodeTimeout = 0 then
      (pf.rules pfDefaultRule).srcNodeTimeout
    else (pf.rules r).srcNodeTimeout
  pf.modifyNode n fun node =>
    { node with
      states := node.states - 1
      expire := if node.states - 1 = 0 then time + timeout else node.expire }

def releaseNodes (st : PfState) (time : BitVec 32) : Pf :=
  let pf := st.srcNode.elim pf (pf.releaseNode · st.rule time)
  if st.natSrcNode ≠ st.srcNode then
    st.natSrcNode.elim pf (pf.releaseNode · st.rule time)
  else pf

def srcTreeRemoveState (time : BitVec 32) : Pf :=
  (pf.releaseNodes (pf.states s) time).modifyState s fun st =>
    { st with srcNode := none, natSrcNode := none }

def unlinkState (cur : StatePtr) (time : BitVec 32) : Pf :=
  let pf := { pf with treeId := pf.treeId.erase cur }
  let pf := pf.modifyState cur fun st => { st with timeout := .unlinked }
  (pf.srcTreeRemoveState cur time).detachState cur

def dropState (r : RuleId) (heedsNodes : Bool) : Pf :=
  let pf := pf.modifyRule r fun rule =>
    { rule with statesCur := rule.statesCur - 1 }
  if (pf.rules r).statesCur = 0 ∧
      (heedsNodes = true → (pf.rules r).srcNodes = 0) then pf.rmRule r
  else pf

/-- `pf_free_state`; a bulk update of `pfsync` may hold the state. -/
def freeState (cur : StatePtr) (held : Bool) : Pf :=
  if held then pf
  else
    let st := pf.states cur
    let pf := pf.dropState st.rule true
    let pf := st.natRule.elim pf (pf.dropState · true)
    let pf := st.anchor.elim pf (pf.dropState · false)
    { pf with
      stateList := pf.stateList.erase cur
      pool := pf.pool.erase cur
      status.states := pf.status.states - 1 }

def ownsNodes (rule : RuleEntry) : Bool :=
  rule.ruleFlag &&& pfruleRulesrctrack != 0 || rule.poolOpts &&& pfPoolStickyaddr != 0

def addSrcNode (key : SrcNodeKey) : Pf :=
  let pf := pf.modifyNode n fun _ => { key := key }
  let pf :=
    { pf with
      srcTree := Tables.place pfSrcCompare (fun n => (pf.nodes n).key) n pf.srcTree
      status.srcNodes := pf.status.srcNodes + 1 }
  key.rule.elim pf fun r => pf.modifyRule r fun rule =>
    { rule with srcNodes := rule.srcNodes + 1 }

/-- `pf_insert_src_node` returns the node and whether it has succeeded.
`RB_INSERT` follows a search for the same fields that has found nothing. -/
def insertSrcNode (sn : Option NodePtr) (rule : RuleId) (src : PfAddr) (af : SaFamily)
    (alloc : Option NodePtr) : Pf × Option NodePtr × Bool :=
  let key : SrcNodeKey :=
    ⟨if ownsNodes (pf.rules rule) then some rule else none, af, src⟩
  let found :=
    sn <|> Tables.find pfSrcCompare (fun n => (pf.nodes n).key) key pf.srcTree
  match found with
  | some n =>
    (pf, some n, !(decide ((pf.rules rule).maxSrcStates ≠ 0) &&
      decide ((pf.rules rule).maxSrcStates ≤ (pf.nodes n).states)))
  | none =>
    if (pf.rules rule).maxSrcNodes = 0 ∨
        (pf.rules rule).srcNodes < (pf.rules rule).maxSrcNodes then
      match alloc with
      | none => (pf, none, false)
      | some n => (pf.addSrcNode n key, some n, true)
    else (pf, none, false)

def removeNode : Pf :=
  { pf with
    srcTree := pf.srcTree.erase n
    status.srcNodes := pf.status.srcNodes - 1 }

/-- One turn of the loop of `pf_purge_expired_src_nodes`. -/
def purgeSrcNode (time : BitVec 32) (cur : NodePtr) : Pf :=
  if (pf.nodes cur).states = 0 ∧ (pf.nodes cur).expire ≤ time then
    let pf := (pf.nodes cur).key.rule.elim pf fun r =>
      let pf := pf.modifyRule r fun rule =>
        { rule with srcNodes := rule.srcNodes - 1 }
      if (pf.rules r).statesCur = 0 ∧ (pf.rules r).maxSrcNodes = 0 then
        pf.rmRule r
      else pf
    pf.removeNode cur
  else pf

def purgeExpiredSrcNodes (time : BitVec 32) : Pf :=
  pf.srcTree.foldl (purgeSrcNode · time) pf

end Pf

/-! ## New states -/

structure TranslatedKeys where
  sk : KeyPtr
  nk : KeyPtr
  skCmp : StateKeyCmp
  nkCmp : StateKeyCmp

/-- What `pf_create_state` is called with, the outcomes of the allocations and
of the normalization of TCP. -/
structure CreateCall where
  r : RuleId
  nr : Option RuleId
  a : Option RuleId
  src : PfAddr
  dst : PfAddr
  sport : BitVec 16
  dport : BitVec 16
  af : SaFamily
  proto : BitVec 8
  dir : BitVec 8
  thFlags : BitVec 8
  tcpNorm : Bool
  nsn : Option NodePtr
  keys : Option TranslatedKeys
  kif : Kif
  time : BitVec 32
  order : ByteOrder
  newNode : Option NodePtr
  newNatNode : Option NodePtr
  newState : Option StatePtr
  newKeys : Option KeyPtr × Option KeyPtr
  items : Bool × Bool
  normalizeTcpInit : Bool
  normalizeTcpStateful : Bool

inductive CreateAction
  | pass
  | drop
  | synproxyDrop
  deriving DecidableEq, Repr

namespace Pf

def sided {β : Type} (dir : BitVec 8) (src dst : β) : β × β :=
  if dir = pfIn then (src, dst) else (dst, src)

def sourceOf (dir : BitVec 8) (key : StateKeyCmp) : PfAddr :=
  if dir = pfIn then key.addr.1 else key.addr.2

variable (pf : Pf)

def allocStateKey (k : KeyPtr) (cmp : StateKeyCmp) : Pf :=
  pf.modifyKey k fun _ => { cmp := cmp }

variable (call : CreateCall)

/-- `pf_state_key_setup` gives the keys for the wire and for the stack. -/
def stateKeySetup : Option (Pf × KeyPtr × KeyPtr) :=
  let cmp : StateKeyCmp :=
    ⟨sided call.dir call.src call.dst, sided call.dir call.sport call.dport, call.af, call.proto⟩
  call.newKeys.1.bind fun sk =>
    let pf := pf.allocStateKey sk cmp
    match call.nr with
    | none => some (pf, sk, sk)
    | some _ =>
      call.newKeys.2.map fun nk =>
        let (skw, sks) := sided call.dir sk nk
        (pf.allocStateKey nk cmp, skw, sks)

def incCounters (st : PfState) : Pf :=
  let inc (pf : Pf) (r : RuleId) : Pf :=
    pf.modifyRule r fun rule => { rule with statesCur := rule.statesCur + 1 }
  let pf := inc pf st.rule
  let pf := st.anchor.elim pf (inc pf)
  st.natRule.elim pf (inc pf)

def decCounters (st : PfState) : Pf :=
  let dec (pf : Pf) (r : RuleId) : Pf :=
    pf.modifyRule r fun rule => { rule with statesCur := rule.statesCur - 1 }
  let pf := st.natRule.elim pf (dec pf)
  let pf := st.anchor.elim pf (dec pf)
  dec pf st.rule

/-- Both calls of `pf_insert_src_node`: the nodes for the rule and for the
translation and whether there is none that is missing. -/
def trackSources : Pf × Option NodePtr × Option NodePtr × Bool :=
  let rule := pf.rules call.r
  let (pf, sn, ok) :=
    if rule.ruleFlag &&& pfruleSrctrack != 0 ||
        rule.poolOpts &&& pfPoolStickyaddr != 0 then
      pf.insertSrcNode none call.r call.src call.af call.newNode
    else (pf, none, true)
  if ok then
    match call.nr, call.keys with
    | some nr, some keys =>
      if (pf.rules nr).poolOpts &&& pfPoolStickyaddr != 0 then
        let (pf, nsn, ok) := pf.insertSrcNode call.nsn nr
          (sourceOf call.dir keys.skCmp) call.af call.newNatNode
        (pf, sn, nsn, ok)
      else (pf, sn, call.nsn, true)
    | _, _ => (pf, sn, call.nsn, true)
  else (pf, sn, call.nsn, false)

def dropFreshNode (n : NodePtr) : Pf :=
  if (pf.nodes n).states = 0 ∧ (pf.nodes n).expire = 0 then pf.removeNode n
  else pf

/-- The label `csfailed`; the keys go back to their pool. -/
def csfailed (sn nsn : Option NodePtr) : Pf :=
  let pf := sn.elim pf pf.dropFreshNode
  if nsn ≠ sn then nsn.elim pf pf.dropFreshNode else pf

def holdNode (n : NodePtr) : Pf :=
  pf.modifyNode n fun node => { node with states := node.states + 1 }

def firstTimeout (proto : BitVec 8) : Timeout :=
  if proto = ipprotoTcp then .tcpFirstPacket
  else if proto = 17 then .udpFirstPacket
  else if proto = 1 ∨ proto = 58 then .icmpFirstPacket
  else .otherFirstPacket

def abandonState (s : StatePtr) (time : BitVec 32) : Pf :=
  let pf := pf.srcTreeRemoveState s time
  let pf := pf.decCounters (pf.states s)
  { pf with pool := pf.pool.erase s }

def stateOf (sn nsn : Option NodePtr) : PfState where
  direction := call.dir
  timeout := firstTimeout call.proto
  rule := call.r
  anchor := call.a
  natRule := call.nr
  srcNode := sn
  natSrcNode := nsn

def newState (s : StatePtr) (sn nsn : Option NodePtr) : Pf :=
  let st := stateOf call sn nsn
  let pf := { pf with pool := insert s pf.pool }.modifyState s fun _ => st
  let pf := pf.incCounters st
  let pf := sn.elim pf pf.holdNode
  nsn.elim pf pf.holdNode

def chooseKeys : Option (Pf × KeyPtr × KeyPtr) :=
  match call.keys with
  | some keys =>
    let pf := (pf.allocStateKey keys.sk keys.skCmp).allocStateKey keys.nk
      keys.nkCmp
    let (skw, sks) := sided call.dir keys.sk keys.nk
    some (pf, skw, sks)
  | none => pf.stateKeySetup call

def boundIface (rule : RuleEntry) (kif : Kif) : Kif :=
  if rule.ruleFlag &&& pfruleIfbound != 0 then kif else pfiAll

/-- A TCP connection begins with `TH_SYN` and without `TH_ACK`. -/
def startsProxy (rule : RuleEntry) (call : CreateCall) : Bool :=
  call.proto == ipprotoTcp && call.thFlags &&& 0x12 == 0x02 && rule.keepState == pfStateSynproxy

def createState : Pf × CreateAction :=
  let rule := pf.rules call.r
  if rule.maxStates ≠ 0 ∧ rule.maxStates ≤ rule.statesCur then (pf, .drop)
  else
    let (pf, sn, nsn, ok) := pf.trackSources call
    match ok, call.newState with
    | true, some s =>
      let pf := pf.newState call s sn nsn
      if call.proto = ipprotoTcp ∧ call.tcpNorm = true ∧
          (call.normalizeTcpInit = true ∨ call.normalizeTcpStateful = true) then
        (pf.abandonState s call.time, .drop)
      else
        match pf.chooseKeys call with
        | none => (pf.csfailed sn nsn, .drop)
        | some (pf, skw, sks) =>
          let (pf, ok) := pf.stateInsert call.order
            (boundIface rule call.kif) skw sks s call.items
          if ok then
            (pf, if startsProxy rule call then .synproxyDrop else .pass)
          else (pf.abandonState s call.time, .drop)
    | _, _ => (pf.csfailed sn nsn, .drop)

end Pf

end AerieKernel.PacketFilter
