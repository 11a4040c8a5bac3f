import AerieKernel.LoopSimulation
import AerieKernel.PfSkipSteps

/-!
# The loops over rules

The model of the loops of `pf_test_rule` and of `pf_match_translation` over the
rules of the main ruleset and of the anchors: `pf_step_into_anchor` and
`pf_step_out_of_anchor` with the stack of frames, and the bodies of the loops.
A store through a null pointer is a fault.  Each loop is given in two
versions, one that follows the skip steps and one that always goes on with the
next rule.
-/

namespace AerieKernel.PacketFilter

open Loops

/-! ## Rulesets -/

inductive RulesetRef
  | main
  | anchor (id : AnchorId)
  deriving DecidableEq, Repr

inductive RulesetKind
  | scrub
  | filter
  | nat
  | binat
  | rdr
  deriving DecidableEq, Repr

structure QueueRef where
  ruleset : RulesetRef
  kind : RulesetKind
  deriving DecidableEq, Repr

/-- The rules of all rulesets with their skip steps, the children of each
anchor in the order of their tree, and the tables of interface addresses. -/
structure Rulesets where
  rules : QueueRef → List PfRule
  skip : QueueRef → ℕ → Skip → ℕ
  children : AnchorId → List AnchorId
  tables : Ktable → KtableEntries
  current : ∀ queue, ∀ rule ∈ rules queue, rule.Current tables

def Rulesets.calcSkipSteps (w : Rulesets) : Rulesets :=
  { w with
    skip := fun queue => pfCalcSkipSteps (w.rules queue) (w.skip queue) }

structure RulePtr (w : Rulesets) where
  queue : QueueRef
  index : Fin (w.rules queue).length
  deriving DecidableEq

variable {w : Rulesets}

def RulePtr.rule (ptr : RulePtr w) : PfRule := (w.rules ptr.queue).get ptr.index

/-- The pointer to the rule with an index, null behind the last rule. -/
def Rulesets.ptr (w : Rulesets) (queue : QueueRef) (i : ℕ) : Option (RulePtr w) :=
  if h : i < (w.rules queue).length then some ⟨queue, i, h⟩ else none

def Rulesets.first (w : Rulesets) (queue : QueueRef) : Option (RulePtr w) :=
  w.ptr queue 0

def RulePtr.next (ptr : RulePtr w) : Option (RulePtr w) :=
  w.ptr ptr.queue (ptr.index + 1)

def RulePtr.skip (ptr : RulePtr w) (step : Skip) : Option (RulePtr w) :=
  w.ptr ptr.queue (w.skip ptr.queue ptr.index step)

/-! ## Anchors -/

/-- The members `rs` and `r` of `pf_anchor_stackframe`, with the anchor that
the rule has. -/
structure Frame (w : Rulesets) where
  rs : Option RulesetRef
  r : RulePtr w
  anchor : AnchorId
  isAnchor : r.rule.anchor = some anchor

/-- The frames of `pf_anchor_stack` below `depth`, the last one first, each with
the children of `parent` from `f->child` on, none if one of the two is null. -/
abbrev AnchorStack (w : Rulesets) := List (Frame w × List AnchorId)

def pfAnchorStackSize : ℕ := 64

/-- The stack, what the functions for anchors get by address, and the `match`
of each anchor.  A pointer `a` or `match` that is null is `none`. -/
structure AnchorWalk (w : Rulesets) where
  stack : AnchorStack w
  rs : Option RulesetRef
  r : Option (RulePtr w)
  a : Option (Option (RulePtr w))
  found : Option Bool
  anchorMatch : AnchorId → Bool

inductive Fault
  | nullStore
  deriving DecidableEq, Repr

def AnchorWalk.toChild (n : RulesetKind) (frame : Frame w) (stack : AnchorStack w)
    (child : AnchorId) (later : List AnchorId) (walk : AnchorWalk w) : AnchorWalk w :=
  { walk with
    stack := (frame, child :: later) :: stack
    rs := some (.anchor child)
    r := w.first ⟨.anchor child, n⟩ }

def pfStepIntoAnchor (n : RulesetKind) (walk : AnchorWalk w) (r : RulePtr w) (anchor : AnchorId)
    (isAnchor : r.rule.anchor = some anchor) : AnchorWalk w :=
  let walk := { walk with
    anchorMatch := Function.update walk.anchorMatch anchor false
    found := walk.found.map fun _ => false }
  if pfAnchorStackSize ≤ walk.stack.length then
    { walk with r := r.next }
  else
    let a := if walk.stack.isEmpty then walk.a.map fun _ => some r
      else walk.a
    let frame : Frame w := ⟨walk.rs, r, anchor, isAnchor⟩
    if r.rule.anchorWildcard then
      match w.children anchor with
      | [] => { walk with a, stack := (frame, []) :: walk.stack, r := none }
      | child :: later =>
        { walk with a }.toChild n frame walk.stack child later
    else
      { walk with
        a
        stack := (frame, []) :: walk.stack
        rs := some (.anchor anchor)
        r := w.first ⟨.anchor anchor, n⟩ }

def AnchorWalk.seen (walk : AnchorWalk w) (anchor : AnchorId) : Bool :=
  walk.anchorMatch anchor || walk.found == some true

/-- What `pf_step_out_of_anchor` does with the match of a child of the anchor
of a frame. -/
def AnchorWalk.noteChild (anchor child : AnchorId) (walk : AnchorWalk w) :
    Except Fault (AnchorWalk w) :=
  if walk.seen child then
    match walk.found with
    | none => .error .nullStore
    | some _ => .ok { walk with
        anchorMatch := Function.update walk.anchorMatch anchor true
        found := some false }
  else .ok walk

/-- The rounds of the loop of `pf_step_out_of_anchor` that stay in one frame,
and whether they have found a child that has rules. -/
def stepChildren (n : RulesetKind) (frame : Frame w) (stack : AnchorStack w) :
    List AnchorId → AnchorWalk w → Except Fault (AnchorWalk w × Bool)
  | [], walk => .ok (walk, false)
  | child :: later, walk =>
    match walk.noteChild frame.anchor child with
    | .error fault => .error fault
    | .ok walk =>
      match later with
      | [] => .ok (walk, false)
      | next :: rest =>
        let walk := walk.toChild n frame stack next rest
        if walk.r.isSome then .ok (walk, true)
        else stepChildren n frame stack later walk

def AnchorWalk.pop (frame : Frame w) (stack : AnchorStack w) (walk : AnchorWalk w) : AnchorWalk w :=
  { walk with
    stack := stack
    a := if stack.isEmpty then walk.a.map fun _ => none else walk.a
    rs := frame.rs
    r := frame.r.next }

def AnchorWalk.quickAfter (frame : Frame w) (quick : Bool) (walk : AnchorWalk w) : Bool :=
  if walk.seen frame.anchor then frame.r.rule.quick else quick

/-- The loop of `pf_step_out_of_anchor` for the frames of the stack, with the
value of `quick` so far. -/
def stepFrames (n : RulesetKind) :
    AnchorStack w → Bool → AnchorWalk w → Except Fault (AnchorWalk w × Bool)
  | [], quick, walk => .ok (walk, quick)
  | (frame, children) :: stack, quick, walk =>
    match stepChildren n frame stack children walk with
    | .error fault => .error fault
    | .ok (walk, true) => .ok (walk, quick)
    | .ok (walk, false) =>
      if (walk.pop frame stack).r.isSome then
        .ok (walk.pop frame stack, walk.quickAfter frame quick)
      else
        stepFrames n stack (walk.quickAfter frame quick) (walk.pop frame stack)

def pfStepOutOfAnchor (n : RulesetKind) (walk : AnchorWalk w) :
    Except Fault (AnchorWalk w × Bool) :=
  stepFrames n walk.stack false walk

/-! ## The common shape of the loops -/

/-- What the test of a rule reads of the anchors: `ruleset` and `a`. -/
structure Context (w : Rulesets) where
  rs : Option RulesetRef
  a : Option (Option (RulePtr w))

def AnchorWalk.context (walk : AnchorWalk w) : Context w := ⟨walk.rs, walk.a⟩

/-- What a round of a loop does with the current rule: go on with another one,
take it as the matching rule and perhaps end the loop, or enter its anchor. -/
inductive Verdict (ptr : RulePtr w)
  | pass (target : Option (RulePtr w))
  | hit (ends : Bool)
  | enter (anchor : AnchorId) (isAnchor : ptr.rule.anchor = some anchor)

/-- A loop over the rules of one kind: what it does with a rule, and whether
it ends when `pf_step_out_of_anchor` returns a value that is not zero. -/
structure RuleLoop (w : Rulesets) (σ : Type) where
  kind : RulesetKind
  visit : (ptr : RulePtr w) → Context w → σ → σ × Verdict ptr
  heedsQuick : Bool

structure LoopState (w : Rulesets) (σ : Type) where
  walk : AnchorWalk w
  data : σ

abbrev Iteration (w : Rulesets) (σ : Type) :=
  Next (LoopState w σ) (Except Fault (LoopState w σ))

variable {σ : Type}

variable (lp : RuleLoop w σ)

def RuleLoop.heed (data : σ) : Except Fault (AnchorWalk w × Bool) → Iteration w σ
  | .error fault => .stop (.error fault)
  | .ok (walk, quick) =>
    if lp.heedsQuick && quick then .stop (.ok { walk, data })
    else .goto { walk, data }

/-- The end of the body of a loop, where `pf_step_out_of_anchor` is called if
the current rule is null. -/
def RuleLoop.leave (state : LoopState w σ) : Iteration w σ :=
  if state.walk.r.isSome then .goto state
  else lp.heed state.data (pfStepOutOfAnchor lp.kind state.walk)

def RuleLoop.act (lp : RuleLoop w σ) (ptr : RulePtr w) (walk : AnchorWalk w) :
    σ × Verdict ptr → Iteration w σ
  | (data, .pass target) => lp.leave { data, walk := { walk with r := target } }
  | (data, .hit ends) =>
    let walk := { walk with found := walk.found.map fun _ => true }
    if ends then .stop (.ok { walk, data })
    else lp.leave { data, walk := { walk with r := ptr.next } }
  | (data, .enter anchor isAnchor) =>
    lp.leave
      { data, walk := pfStepIntoAnchor lp.kind walk ptr anchor isAnchor }

def RuleLoop.body (state : LoopState w σ) : Iteration w σ :=
  match state.walk.r with
  | none => .stop (.ok state)
  | some ptr =>
    lp.act ptr state.walk (lp.visit ptr state.walk.context state.data)

def RuleLoop.run (fuel : ℕ) (state : LoopState w σ) : Option (Except Fault (LoopState w σ)) :=
  loop lp.body fuel state

inductive Mode
  | skip
  | next
  deriving DecidableEq, Repr

def RulePtr.advance (ptr : RulePtr w) (step : Skip) : Mode → Option (RulePtr w)
  | .skip => ptr.skip step
  | .next => ptr.next

/-! ## The loop of `pf_test_rule` -/

structure SocketLookup where
  done : Bool
  uid : BitVec 32
  gid : BitVec 32
  deriving DecidableEq, Repr

/-- The variables of the loop.  A null `rm` stands for `pf_default_rule`,
`draws` is the number of calls of `arc4random_uniform` so far, and `selected`
lists the rules that have passed all tests. -/
structure FilterData (w : Rulesets) where
  tag : ℤ
  rtableid : ℤ
  rm : Option (RulePtr w)
  am : Option (RulePtr w)
  rsm : Option RulesetRef
  lookup : SocketLookup
  draws : ℕ
  selected : List (RulePtr w)
  deriving DecidableEq

def FilterData.socketLookup (env : Lookups) (data : FilterData w) : FilterData w :=
  if data.lookup.done then data
  else
    { data with lookup := ⟨true, env.socketLookup.1, env.socketLookup.2⟩ }

/-- The value of the call of `arc4random_uniform` with a number, for a
rule. -/
abbrev Random (w : Rulesets) := ℕ → RulePtr w → BitVec 32

def furtherTests (env : Lookups) (random : Random w) (pd : PfPdesc)
    (ptr : RulePtr w) (data : FilterData w) : Bool × FilterData w :=
  let r := ptr.rule
  if r.type != 0 && r.type.toNat != pd.icmptype.toNat + 1 then (false, data)
  else if r.code != 0 && r.code.toNat != pd.icmpcode.toNat + 1 then
    (false, data)
  else if r.tos != 0 && r.tos != pd.tos then (false, data)
  else if r.fragment then (false, data)
  else if pd.proto == ipprotoTcp && r.flagset &&& pd.thFlags != r.flags then
    (false, data)
  else
    let data := if r.uid.1 != 0 then data.socketLookup env else data
    if r.uid.1 != 0 &&
        !pfMatchUid r.uid.1 r.uid.2.1 r.uid.2.2 data.lookup.uid then
      (false, data)
    else
      let data := if r.gid.1 != 0 then data.socketLookup env else data
      if r.gid.1 != 0 &&
          !pfMatchGid r.gid.1 r.gid.2.1 r.gid.2.2 data.lookup.gid then
        (false, data)
      else
        let draw := random data.draws ptr
        let data :=
          if r.prob != 0 then { data with draws := data.draws + 1 } else data
        if r.prob != 0 && decide (r.prob ≤ draw + 1) then (false, data)
        else
          let (tagged, tag) :=
            if r.matchTag != 0 then pfMatchTag pd r data.tag
            else (true, data.tag)
          let data := { data with tag }
          if !tagged then (false, data)
          else if r.osFingerprint != 0 &&
              (pd.proto != ipprotoTcp || !env.osfpMatch r.osFingerprint) then
            (false, data)
          else (true, data)

def filterSelect (ptr : RulePtr w) (context : Context w)
    (data : FilterData w) : FilterData w × Verdict ptr :=
  let r := ptr.rule
  let data := { data with
    selected := data.selected ++ [ptr]
    tag := if r.tag != 0 then (r.tag.toNat : ℤ) else data.tag
    rtableid := if 0 ≤ r.rtableid then r.rtableid else data.rtableid }
  match isAnchor : ptr.rule.anchor with
  | none =>
    ({ data with rm := some ptr, am := context.a.join, rsm := context.rs }, .hit r.quick)
  | some anchor => (data, .enter anchor isAnchor)

variable (mode : Mode) (env : Lookups)

def filterVisit (random : Random w) (pd : PfPdesc) (ptr : RulePtr w)
    (context : Context w) (data : FilterData w) : FilterData w × Verdict ptr :=
  match ptr.rule.mismatch env pd with
  | some step => (data, .pass (ptr.advance step mode))
  | none =>
    match furtherTests env random pd ptr data with
    | (false, data) => (data, .pass ptr.next)
    | (true, data) => filterSelect ptr context data

def filterLoop (random : Random w) (pd : PfPdesc) : RuleLoop w (FilterData w) where
  kind := .filter
  visit := filterVisit mode env random pd
  heedsQuick := true

/-- The variables before the loop of `pf_test_rule`.  If a translation rule
has `natpass`, the loop starts at the null pointer. -/
def filterStart (w : Rulesets) (natpass : Bool) (lookup : SocketLookup)
    (anchorMatch : AnchorId → Bool) : LoopState w (FilterData w) where
  walk :=
    { stack := []
      rs := none
      r := if natpass then none else w.first ⟨.main, .filter⟩
      a := some none
      found := some false
      anchorMatch := anchorMatch }
  data :=
    { tag := -1
      rtableid := -1
      rm := none
      am := none
      rsm := none
      lookup := lookup
      draws := 0
      selected := [] }

/-! ## The loop of `pf_match_translation` -/

variable (pd : PfPdesc)

def PfRule.reversed (r : PfRule) : Bool :=
  r.action = .binat && pd.direction = pfIn

/-- The conditions of the branches up to the last one with a skip step, in the
order of the loop.  The test of `xdst` has no skip step. -/
def PfRule.translationMismatch (r : PfRule) : Option (Option Skip) :=
  if r.fails env pd .ifp then some (some .ifp)
  else if r.fails env pd .dir then some (some .dir)
  else if r.fails env pd .af then some (some .af)
  else if r.fails env pd .proto then some (some .proto)
  else if r.reversed pd then
    if r.dst.addrFails env pd.saddr pd.af (some pd.kif) then
      some (some .dstAddr)
    else if r.dst.portFails env pd.sport then some (some .dstPort)
    else
      match r.rpoolCur with
      | none => none
      | some xdst =>
        if pfMismatchaw env xdst pd.daddr pd.af 0 none then some none
        else none
  else if r.src.addrFails env pd.saddr pd.af (some pd.kif) then
    some (some .srcAddr)
  else if r.src.portFails env pd.sport then some (some .srcPort)
  else if r.dst.addrFails env pd.daddr pd.af none then some (some .dstAddr)
  else if r.dst.portFails env pd.dport then some (some .dstPort)
  else none

structure TranslationData (w : Rulesets) where
  tag : ℤ
  rtableid : ℤ
  rm : Option (RulePtr w)
  selected : List (RulePtr w)
  deriving DecidableEq

def translationTests (ptr : RulePtr w) (data : TranslationData w) : Bool × TranslationData w :=
  let r := ptr.rule
  let (tagged, tag) :=
    if r.matchTag != 0 then pfMatchTag pd r data.tag else (true, data.tag)
  let data := { data with tag }
  if !tagged then (false, data)
  else if r.osFingerprint != 0 &&
      (pd.proto != ipprotoTcp || !env.osfpMatch r.osFingerprint) then
    (false, data)
  else (true, data)

def translationSelect (ptr : RulePtr w) (data : TranslationData w) :
    TranslationData w × Verdict ptr :=
  let r := ptr.rule
  let data := { data with
    selected := data.selected ++ [ptr]
    tag := if r.tag != 0 then (r.tag.toNat : ℤ) else data.tag
    rtableid := if 0 ≤ r.rtableid then r.rtableid else data.rtableid }
  match isAnchor : ptr.rule.anchor with
  | none => ({ data with rm := some ptr }, .hit true)
  | some anchor => (data, .enter anchor isAnchor)

def translationVisit (ptr : RulePtr w) (_ : Context w)
    (data : TranslationData w) : TranslationData w × Verdict ptr :=
  match ptr.rule.translationMismatch env pd with
  | some (some step) => (data, .pass (ptr.advance step mode))
  | some none => (data, .pass ptr.next)
  | none =>
    match translationTests env pd ptr data with
    | (false, data) => (data, .pass ptr.next)
    | (true, data) => translationSelect ptr data

/-- The loop of `pf_match_translation` for the rules of a kind.  It ends with
the first matching rule, and does not use what `pf_step_out_of_anchor`
returns. -/
def translationLoop (rsNum : RulesetKind) (env : Lookups)
    (pd : PfPdesc) : RuleLoop w (TranslationData w) where
  kind := rsNum
  visit := translationVisit mode env pd
  heedsQuick := false

def translationStart (w : Rulesets) (rsNum : RulesetKind)
    (anchorMatch : AnchorId → Bool) : LoopState w (TranslationData w) where
  walk :=
    { stack := []
      rs := none
      r := w.first ⟨.main, rsNum⟩
      a := none
      found := none
      anchorMatch := anchorMatch }
  data := { tag := -1, rtableid := -1, rm := none, selected := [] }

def TranslationData.returned (data : TranslationData w) : Option (RulePtr w) :=
  data.rm.filter fun rm =>
    !(rm.rule.action = .nonat || rm.rule.action = .nordr || rm.rule.action = .nobinat)

end AerieKernel.PacketFilter
