import AerieKernel.PfStateRun
import Mathlib.Algebra.BigOperators.Group.Finset.Basic

/-!
# The counters of rules and source nodes

Each state counts for its rule, its anchor and its translation rule and for the
source nodes that it holds, and each source node counts for the rule it belongs
to.  The counters are compared with what is counted in every state that calls
of `pf_create_state`, with all their exits, `pf_unlink_state`, `pf_free_state`
and `pf_purge_expired_src_nodes` reach.
-/

namespace AerieKernel.PacketFilter

open Finset Function PfState Option

/-! ## What is counted -/

def PfState.roles (st : PfState) (r : RuleId) : ℕ :=
  (if st.rule = r then 1 else 0) + (if st.anchor = some r then 1 else 0) +
    (if st.natRule = some r then 1 else 0)

def PfState.holds (st : PfState) (n : NodePtr) : ℕ :=
  (if st.srcNode = some n then 1 else 0) + (if st.natSrcNode = some n then 1 else 0)

def Pf.tally (pf : Pf) (f : PfState → ℕ) : ℕ :=
  ∑ s ∈ pf.pool, f (pf.states s)

def Pf.nodesOf (pf : Pf) (r : RuleId) : ℕ :=
  pf.srcTree.countP fun n => (pf.nodes n).key.rule = some r

structure Pf.Accounts (pf : Pf) : Prop where
  statesCur : ∀ r, (pf.rules r).statesCur = pf.tally (·.roles r)
  srcNodes : ∀ r, (pf.rules r).srcNodes = pf.nodesOf r
  nodeStates : ∀ n ∈ pf.srcTree, (pf.nodes n).states = pf.tally (·.holds n)
  total : pf.status.srcNodes = pf.srcTree.length
  treeNodup : pf.srcTree.Nodup
  held : ∀ s ∈ pf.pool, ∀ n, 0 < (pf.states s).holds n → n ∈ pf.srcTree
  apart : ∀ s ∈ pf.pool, ∀ n, (pf.states s).holds n ≤ 1
  unlinked : ∀ s ∈ pf.pool, (pf.states s).timeout = .unlinked → ∀ n, (pf.states s).holds n = 0
  listed : ∀ s ∈ pf.stateList, s ∈ pf.pool
  listNodup : pf.stateList.Nodup

section Tally

variable {pf : Pf} {s : StatePtr} {states : StatePtr → PfState} {f : PfState → ℕ}

theorem Pf.tally_update (hs : s ∈ pf.pool) (hstates : ∀ t, t ≠ s → f (states t) = f (pf.states t)) :
    ∑ t ∈ pf.pool, f (states t) + f (pf.states s) = pf.tally f + f (states s) := by
  unfold tally
  rw [← add_sum_erase _ _ hs, ← add_sum_erase _ (fun t => f (pf.states t)) hs]
  have hrest : ∑ t ∈ pf.pool.erase s, f (states t) = ∑ t ∈ pf.pool.erase s, f (pf.states t) :=
    sum_congr rfl fun t ht => hstates t (ne_of_mem_erase ht)
  omega

theorem Pf.le_tally (hs : s ∈ pf.pool) : f (pf.states s) ≤ pf.tally f :=
  single_le_sum_of_canonicallyOrdered (f := fun t => f (pf.states t)) hs

theorem Pf.nodesOf_congr {nodes : NodePtr → SrcNode} (hkeys : ∀ n, (nodes n).key = (pf.nodes n).key)
    (r : RuleId) : { pf with nodes := nodes }.nodesOf r = pf.nodesOf r := by
  simp only [nodesOf, hkeys]

end Tally

/-! ## Calls that count nothing -/

def PfState.account (st : PfState) :
    RuleId × Option RuleId × Option RuleId × Option NodePtr × Option NodePtr × Timeout :=
  (st.rule, st.anchor, st.natRule, st.srcNode, st.natSrcNode, st.timeout)

structure Pf.SameAccount (pf after : Pf) : Prop where
  pool : after.pool = pf.pool
  nodes : after.nodes = pf.nodes
  srcTree : after.srcTree = pf.srcTree
  rules : after.rules = pf.rules
  srcNodes : after.status.srcNodes = pf.status.srcNodes
  stateList : after.stateList = pf.stateList
  states : ∀ t, (after.states t).account = (pf.states t).account

section SameAccount

variable {pf after last : Pf}

theorem PfState.roles_congr {st st' : PfState} (h : st.account = st'.account)
    (r : RuleId) : st.roles r = st'.roles r := by
  simp only [account, Prod.mk.injEq] at h
  simp only [roles, h]

theorem PfState.holds_congr {st st' : PfState} (h : st.account = st'.account)
    (n : NodePtr) : st.holds n = st'.holds n := by
  simp only [account, Prod.mk.injEq] at h
  simp only [holds, h]

theorem Pf.SameAccount.refl (pf : Pf) : pf.SameAccount pf :=
  ⟨rfl, rfl, rfl, rfl, rfl, rfl, fun _ => rfl⟩

theorem Pf.SameAccount.trans (h : pf.SameAccount after)
    (h' : after.SameAccount last) : pf.SameAccount last :=
  ⟨h'.pool.trans h.pool, h'.nodes.trans h.nodes, h'.srcTree.trans h.srcTree,
    h'.rules.trans h.rules, h'.srcNodes.trans h.srcNodes,
    h'.stateList.trans h.stateList, fun t => (h'.states t).trans (h.states t)⟩

theorem Pf.Accounts.congr (hok : pf.Accounts) (h : pf.SameAccount after) : after.Accounts := by
  obtain ⟨_, _, states, _, _, _, _, _, _, _⟩ := after
  obtain ⟨rfl, rfl, rfl, rfl, htotal, rfl, hstates⟩ := h
  have hroles := fun t r => roles_congr (hstates t) r
  have hholds := fun t n => holds_congr (hstates t) n
  refine { hok with
    statesCur := ?statesCur, nodeStates := ?nodeStates, total := htotal.trans hok.total
    held := ?held, apart := ?apart, unlinked := ?unlinked }
  case statesCur =>
    intro r
    simp only [tally, hroles]
    exact hok.statesCur r
  case nodeStates =>
    intro n hn
    simp only [tally, hholds]
    exact hok.nodeStates n hn
  case held =>
    simp only [hholds]
    exact hok.held
  case apart =>
    simp only [hholds]
    exact hok.apart
  case unlinked =>
    intro s hs htimeout
    have haccount := hstates s
    simp only [account, Prod.mk.injEq] at haccount
    simp only [hholds]
    exact hok.unlinked s hs (haccount.2.2.2.2.2 ▸ htimeout)

namespace Pf.SameAccount

theorem setState (pf : Pf) {s : StatePtr} {st : PfState} (hst : st.account = (pf.states s).account)
    (keys : KeyPtr → StateKey) (table : List KeyPtr) (stateid : BitVec 64) :
    pf.SameAccount
      { pf with
        keys := keys
        statetbl := table
        states := update pf.states s st
        status := { pf.status with stateid := stateid } } := by
  refine ⟨rfl, rfl, rfl, rfl, rfl, rfl, fun t => ?_⟩
  by_cases ht : t = s
  · subst ht
    simpa using hst
  · simp [ht]

theorem setKey (pf : Pf) (s : StatePtr) (idx : SkIdx)
    (k : Option KeyPtr) : pf.SameAccount (pf.setKey s idx k) :=
  .setState pf (by cases idx <;> rfl) pf.keys pf.statetbl pf.status.stateid

theorem stateKeyDetach (pf : Pf) (s : StatePtr) (idx : SkIdx) :
    pf.SameAccount (pf.stateKeyDetach s idx) := by
  obtain ⟨keys, table, h⟩ := pf.stateKeyDetach_frame s idx
  rw [h]
  exact .setState pf (by cases idx <;> rfl) keys table pf.status.stateid

theorem addItem (pf : Pf) (k : KeyPtr) (s : StatePtr) (idx : SkIdx) (item : Bool) :
    pf.SameAccount (pf.addItem k s idx item).1 := by
  unfold Pf.addItem
  split
  · exact (setKey pf s idx (some k)).trans ⟨rfl, rfl, rfl, rfl, rfl, rfl, fun _ => rfl⟩
  · exact (setKey pf s idx (some k)).trans (.stateKeyDetach ..)

theorem stateKeyAttach (pf : Pf) (sk : KeyPtr) (s : StatePtr) (idx : SkIdx)
    (item : Bool) : pf.SameAccount (pf.stateKeyAttach sk s idx item).1 := by
  unfold Pf.stateKeyAttach
  split
  · split
    · exact .refl pf
    · exact .addItem ..
  · have htable : ∀ table, pf.SameAccount { pf with statetbl := table } :=
      fun _ => ⟨rfl, rfl, rfl, rfl, rfl, rfl, fun _ => rfl⟩
    exact (htable _).trans (.addItem ..)

theorem attachKeys (pf : Pf) (skw sks : KeyPtr) (s : StatePtr)
    (items : Bool × Bool) : pf.SameAccount (pf.attachKeys skw sks s items).1 := by
  have hwire := stateKeyAttach pf skw s .wire items.1
  unfold Pf.attachKeys
  generalize pf.stateKeyAttach skw s .wire items.1 = attached at hwire ⊢
  obtain ⟨attached, ok⟩ := attached
  cases ok with
  | false => exact hwire
  | true =>
    simp only [if_true]
    split
    · exact hwire.trans (setKey ..)
    · have hstack := stateKeyAttach attached sks s .stack items.2
      generalize attached.stateKeyAttach sks s .stack items.2 = both
        at hstack ⊢
      obtain ⟨both, ok⟩ := both
      cases ok with
      | false => exact (hwire.trans hstack).trans (stateKeyDetach ..)
      | true => exact hwire.trans hstack

theorem detachState (pf : Pf) (s : StatePtr) : pf.SameAccount (pf.detachState s) := by
  unfold Pf.detachState
  split
  · exact ((setKey pf s .wire none).trans (stateKeyDetach ..)).trans (stateKeyDetach ..)
  · exact (stateKeyDetach ..).trans (stateKeyDetach ..)

theorem nameState (pf : Pf) (order : ByteOrder) (s : StatePtr) :
    pf.SameAccount (pf.nameState order s) := by
  unfold Pf.nameState
  split
  · exact .setState pf (by rfl) pf.keys pf.statetbl _
  · exact .refl pf

end Pf.SameAccount

theorem Pf.stateInsert_account (pf : Pf) (order : ByteOrder) (kif : Kif)
    (skw sks : KeyPtr) (s : StatePtr) (items : Bool × Bool) :
    ∃ mid, pf.SameAccount mid ∧
      (pf.stateInsert order kif skw sks s items = (mid, false) ∨
        ∃ tree states, pf.stateInsert order kif skw sks s items = ({ mid with
            treeId := tree
            stateList := mid.stateList ++ [s]
            status := { mid.status with states := states } }, true)) := by
  have hkif : pf.SameAccount (pf.modifyState s fun st =>
      { st with kif := kif }) := .setState pf (by rfl) pf.keys pf.statetbl pf.status.stateid
  unfold stateInsert
  dsimp only
  have hattach := SameAccount.attachKeys
    (pf.modifyState s fun st => { st with kif := kif }) skw sks s items
  generalize (pf.modifyState s fun st =>
    { st with kif := kif }).attachKeys skw sks s items = attached at hattach ⊢
  obtain ⟨attached, ok⟩ := attached
  cases ok with
  | false => exact ⟨attached, hkif.trans hattach, .inl rfl⟩
  | true =>
    have hname := (hkif.trans hattach).trans (.nameState attached order s)
    simp only [if_true]
    split
    · exact ⟨_, hname.trans (.detachState _ s), .inl rfl⟩
    · exact ⟨_, hname, .inr ⟨_, _, rfl⟩⟩

end SameAccount

/-! ## States that let go of their nodes -/

section Release

variable {pf : Pf} {s : StatePtr} {time : BitVec 32}

theorem Pf.releaseNode_node (pf : Pf) (n : Option NodePtr) (m : NodePtr) (r : RuleId)
    (time : BitVec 32) :
    ((n.elim pf (pf.releaseNode · r time)).nodes m).states =
        (pf.nodes m).states - (if n = some m then 1 else 0) ∧
      ((n.elim pf (pf.releaseNode · r time)).nodes m).key = (pf.nodes m).key := by
  cases n with
  | none => simp
  | some n =>
    by_cases hm : m = n
    · subst hm
      simp [releaseNode]
    · simp [releaseNode, hm, Ne.symm hm]

theorem Pf.releaseNodes_node (pf : Pf) (st : PfState) (time : BitVec 32)
    (hapart : ∀ n, st.holds n ≤ 1) (m : NodePtr) :
    ((pf.releaseNodes st time).nodes m).states =
        (pf.nodes m).states - st.holds m ∧
      ((pf.releaseNodes st time).nodes m).key = (pf.nodes m).key := by
  have hsrc := pf.releaseNode_node st.srcNode m st.rule time
  unfold releaseNodes holds
  split
  next =>
    have hnat := (st.srcNode.elim pf (pf.releaseNode · st.rule time)).releaseNode_node
      st.natSrcNode m st.rule time
    rw [hsrc.1, hsrc.2, Nat.sub_sub] at hnat
    exact hnat
  next hsame =>
    -- one node for both would be held twice
    have hne : ∀ n, st.srcNode ≠ some n := by
      intro n hn
      have := hapart n
      simp [holds, not_not.mp hsame, hn] at this
    rw [not_not.mp hsame]
    simpa [hne] using hsrc

theorem Pf.Accounts.release (hok : pf.Accounts) (hs : s ∈ pf.pool) {states : StatePtr → PfState}
    {nodes : NodePtr → SrcNode} (tree : List StatePtr)
    (hother : ∀ t, t ≠ s → (states t).account = (pf.states t).account)
    (hroles : ∀ r, (states s).roles r = (pf.states s).roles r) (hnone : ∀ n, (states s).holds n = 0)
    (hnodes : ∀ n, (nodes n).states = (pf.nodes n).states - (pf.states s).holds n ∧
      (nodes n).key = (pf.nodes n).key) :
    { pf with treeId := tree, states := states, nodes := nodes }.Accounts := by
  refine { hok with
    statesCur := ?statesCur, srcNodes := ?srcNodes, nodeStates := ?nodeStates
    held := ?held, apart := ?apart, unlinked := ?unlinked }
  case statesCur =>
    intro r
    have htally := tally_update (f := (·.roles r)) hs fun t ht =>
      roles_congr (hother t ht) r
    rw [hroles] at htally
    exact (hok.statesCur r).trans (Nat.add_right_cancel htally).symm
  case srcNodes =>
    intro r
    exact (hok.srcNodes r).trans (nodesOf_congr (fun n => (hnodes n).2) r).symm
  case nodeStates =>
    intro n hn
    have htally := tally_update (f := (·.holds n)) hs fun t ht =>
      holds_congr (hother t ht) n
    rw [hnone] at htally
    dsimp only [tally]
    rw [(hnodes n).1, hok.nodeStates n hn]
    omega
  case held =>
    intro t ht n hn
    by_cases hts : t = s
    · rw [hts, hnone] at hn
      omega
    · exact hok.held t ht n (holds_congr (hother t hts) n ▸ hn)
  case apart =>
    intro t ht n
    by_cases hts : t = s
    · simp [hts, hnone]
    · exact (holds_congr (hother t hts) n).trans_le (hok.apart t ht n)
  case unlinked =>
    intro t ht htimeout n
    by_cases hts : t = s
    · rw [hts]
      exact hnone n
    · have haccount := hother t hts
      rw [holds_congr haccount]
      simp only [account, Prod.mk.injEq] at haccount
      exact hok.unlinked t ht (haccount.2.2.2.2.2 ▸ htimeout) n

theorem Pf.Accounts.unlinkState (hok : pf.Accounts) (hs : s ∈ pf.pool)
    (time : BitVec 32) : (pf.unlinkState s time).Accounts := by
  rw [unlinkState_eq]
  refine Pf.Accounts.congr ?_ (.detachState _ s)
  refine hok.release hs _ ?_ ?_ ?_ (pf.releaseNodes_node (pf.states s) time (hok.apart s hs))
  · intro t ht
    simp [ht]
  · intro r
    simp [roles]
  · intro n
    simp [holds]

theorem Pf.Accounts.dispose (hok : pf.Accounts) (hs : s ∈ pf.pool)
    (hnone : ∀ n, (pf.states s).holds n = 0) {rules : RuleId → RuleEntry} (states : ℕ)
    (hrules : ∀ r, (rules r).statesCur = (pf.rules r).statesCur - (pf.states s).roles r ∧
      (rules r).srcNodes = (pf.rules r).srcNodes) :
    { pf with
      rules := rules
      stateList := pf.stateList.erase s
      pool := pf.pool.erase s
      status := { pf.status with states := states } }.Accounts := by
  have htally : ∀ f : PfState → ℕ,
      ∑ t ∈ pf.pool.erase s, f (pf.states t) + f (pf.states s) = pf.tally f := fun f =>
    sum_erase_add _ _ hs
  refine { hok with
    statesCur := ?statesCur, srcNodes := ?srcNodes, nodeStates := ?nodeStates
    held := fun t ht => hok.held t (mem_of_mem_erase ht)
    apart := fun t ht => hok.apart t (mem_of_mem_erase ht)
    unlinked := fun t ht => hok.unlinked t (mem_of_mem_erase ht)
    listed := ?listed, listNodup := hok.listNodup.erase s }
  case statesCur =>
    intro r
    have h := htally (·.roles r)
    dsimp only [tally]
    rw [(hrules r).1, hok.statesCur]
    omega
  case srcNodes =>
    intro r
    exact (hrules r).2.trans (hok.srcNodes r)
  case nodeStates =>
    intro n hn
    have h := htally (·.holds n)
    rw [hnone] at h
    exact (hok.nodeStates n hn).trans h.symm
  case listed =>
    intro t ht
    obtain ⟨hne, ht⟩ := hok.listNodup.mem_erase_iff.mp ht
    exact mem_erase.mpr ⟨hne, hok.listed t ht⟩

theorem Pf.Accounts.freeState (hok : pf.Accounts) (hs : s ∈ pf.pool)
    (hunlinked : (pf.states s).timeout = .unlinked) (held : Bool) :
    (pf.freeState s held).Accounts := by
  cases held with
  | true => exact hok
  | false =>
    obtain ⟨rules, heq, hcount⟩ := pf.freeState_eq s
    rw [heq]
    refine hok.dispose hs (hok.unlinked s hs hunlinked) _ fun r => ⟨?_, (hcount r).2⟩
    rw [(hcount r).1, roles]
    simp only [some_inj]
    omega

end Release

/-! ## Source nodes -/

section Nodes

variable {pf after : Pf}

variable {n : NodePtr} {rules : RuleId → RuleEntry}

section

variable (hok : pf.Accounts)
include hok

theorem Pf.Accounts.removeNode (hn : n ∈ pf.srcTree) (hstates : (pf.nodes n).states = 0)
    (hrules : ∀ r, (rules r).statesCur = (pf.rules r).statesCur ∧
      (rules r).srcNodes = (pf.rules r).srcNodes -
        (if (pf.nodes n).key.rule = some r then 1 else 0)) :
    ({ pf with rules := rules }.removeNode n).Accounts := by
  refine { hok with
    statesCur := fun r => (hrules r).1.trans (hok.statesCur r), srcNodes := ?srcNodes
    nodeStates := fun m hm => hok.nodeStates m (List.mem_of_mem_erase hm), total := ?total
    treeNodup := hok.treeNodup.erase n, held := ?held }
  case srcNodes =>
    intro r
    have hcount := hok.srcNodes r
    unfold nodesOf at hcount
    rw [(List.perm_cons_erase hn).countP_eq, List.countP_cons] at hcount
    simp only [decide_eq_true_eq] at hcount
    refine (hrules r).2.trans ?_
    rw [hcount, Nat.add_sub_cancel]
    rfl
  case total =>
    change pf.status.srcNodes - 1 = (pf.srcTree.erase n).length
    rw [List.length_erase_of_mem hn, hok.total]
  case held =>
    intro s hs m hm
    refine hok.treeNodup.mem_erase_iff.mpr ⟨?_, hok.held s hs m hm⟩
    rintro rfl
    have hle : (pf.states s).holds m ≤ pf.tally (·.holds m) := le_tally (f := (·.holds m)) hs
    rw [← hok.nodeStates m hn, hstates] at hle
    exact absurd hm (not_lt_of_ge hle)

omit hok in
theorem Pf.purgeSrcNode_cases (pf : Pf) (time : BitVec 32) (cur : NodePtr) :
    pf.purgeSrcNode time cur = pf ∨ (pf.nodes cur).states = 0 ∧ ∃ rules,
        pf.purgeSrcNode time cur = { pf with rules := rules }.removeNode cur ∧
        ∀ r, (rules r).statesCur = (pf.rules r).statesCur ∧
          (rules r).srcNodes = (pf.rules r).srcNodes -
            (if (pf.nodes cur).key.rule = some r then 1 else 0) := by
  unfold purgeSrcNode
  split
  next hexpired =>
    refine .inr ⟨hexpired.1, ?_⟩
    dsimp only
    cases (pf.nodes cur).key.rule with
    | none => exact ⟨pf.rules, rfl, fun r => by simp⟩
    | some q =>
      have hdec : ∀ r, ((pf.modifyRule q fun rule =>
            { rule with srcNodes := rule.srcNodes - 1 }).rules r).statesCur =
              (pf.rules r).statesCur ∧
          ((pf.modifyRule q fun rule =>
            { rule with srcNodes := rule.srcNodes - 1 }).rules r).srcNodes =
              (pf.rules r).srcNodes - (if some q = some r then 1 else 0) := by
        intro r
        rw [show (pf.modifyRule q _).rules r = _ from pf.modifyRule_elim (some q) _ r]
        split_ifs <;> exact ⟨rfl, rfl⟩
      rw [elim_some]
      split
      · obtain ⟨rules, heq, hrules⟩ := rmRule_eq _ q
        refine ⟨rules, congrArg (removeNode · cur) heq, fun r => ?_⟩
        rw [(hrules r).1, (hrules r).2]
        exact hdec r
      · exact ⟨_, rfl, hdec⟩
  next => exact .inl rfl

theorem Pf.Accounts.purgeSrcNode (time : BitVec 32) {cur : NodePtr} (hcur : cur ∈ pf.srcTree) :
    (pf.purgeSrcNode time cur).Accounts ∧
      ∀ n ∈ pf.srcTree, n ≠ cur → n ∈ (pf.purgeSrcNode time cur).srcTree := by
  rcases pf.purgeSrcNode_cases time cur with h | ⟨hstates, rules, h, hrules⟩
  · rw [h]
    exact ⟨hok, fun n hn _ => hn⟩
  · rw [h]
    refine ⟨hok.removeNode hcur hstates hrules, ?_⟩
    intro n hn hne
    exact (List.mem_erase_of_ne hne).mpr hn

theorem Pf.Accounts.purgeExpiredSrcNodes
    (time : BitVec 32) : (pf.purgeExpiredSrcNodes time).Accounts := by
  have hloop : ∀ (nodes : List NodePtr) (pf : Pf), nodes.Nodup →
      (∀ n ∈ nodes, n ∈ pf.srcTree) → pf.Accounts →
      (nodes.foldl (Pf.purgeSrcNode · time) pf).Accounts := by
    intro nodes
    induction nodes with
    | nil => exact fun _ _ _ hok => hok
    | cons cur rest ih =>
      intro pf hnodup hmem hok
      obtain ⟨hcur, hrest⟩ := List.nodup_cons.mp hnodup
      obtain ⟨hstep, hkeep⟩ := hok.purgeSrcNode time (hmem cur (List.mem_cons_self ..))
      apply ih _ hrest _ hstep
      intro n hn
      exact hkeep n (hmem n (List.mem_cons_of_mem _ hn)) fun h => hcur (h ▸ hn)
  exact hloop pf.srcTree pf hok.treeNodup (fun _ h => h) hok

variable {sn : Option NodePtr}

theorem Pf.Accounts.dropFreshNode (hmem : ∀ n, sn = some n → n ∈ pf.srcTree)
    (hkeeps : ∀ n, sn = some n → (pf.nodes n).states = 0 → (pf.nodes n).expire = 0 →
      (pf.nodes n).key.rule = none) :
    (sn.elim pf pf.dropFreshNode).Accounts ∧ (sn.elim pf pf.dropFreshNode).nodes = pf.nodes ∧
      ∀ m ∈ pf.srcTree, sn ≠ some m → m ∈ (sn.elim pf pf.dropFreshNode).srcTree := by
  cases sn with
  | none => exact ⟨hok, rfl, fun m hm _ => hm⟩
  | some n =>
    rw [elim_some, Pf.dropFreshNode]
    split
    next hfresh =>
      refine ⟨hok.removeNode (hmem n rfl) hfresh.1 fun r => ?_, rfl, ?_⟩
      · rw [hkeeps n rfl hfresh.1 hfresh.2]
        exact ⟨rfl, rfl⟩
      · intro m hm hne
        exact (List.mem_erase_of_ne fun h => hne (congrArg some h.symm)).mpr hm
    next => exact ⟨hok, rfl, fun m hm _ => hm⟩

theorem Pf.Accounts.csfailed {nsn : Option NodePtr}
    (hmem : ∀ n, sn = some n ∨ nsn = some n → n ∈ pf.srcTree)
    (hkeeps : ∀ n, sn = some n ∨ nsn = some n → (pf.nodes n).states = 0 → (pf.nodes n).expire = 0 →
        (pf.nodes n).key.rule = none) : (pf.csfailed sn nsn).Accounts := by
  obtain ⟨hdrop, hnodes, htree⟩ := hok.dropFreshNode (fun n hn => hmem n (.inl hn))
    fun n hn => hkeeps n (.inl hn)
  unfold Pf.csfailed
  split
  next hne =>
    refine (hdrop.dropFreshNode ?_ ?_).1
    · intro n hn
      exact htree n (hmem n (.inr hn)) fun h => hne (hn.trans h.symm)
    · rw [hnodes]
      exact fun n hn => hkeeps n (.inr hn)
  next => exact hdrop

omit hok in
def Pf.owner (pf : Pf) (rule : RuleId) : Option RuleId :=
  if ownsNodes (pf.rules rule) then some rule else none

omit hok in
theorem pfSrcCompare_rule {a b : SrcNodeKey} (h : pfSrcCompare a b = .eq) : a.rule = b.rule := by
  have hrule := (Ordering.then_eq_eq.mp h).1
  cases ha : a.rule <;> cases hb : b.rule <;>
    simp_all [ruleAddress]

omit hok in
structure Pf.Tracks (pf after : Pf) (alloc : Option NodePtr) : Prop where
  accounts : after.Accounts
  pool : after.pool = pf.pool
  kept : ∀ n ∈ pf.srcTree, n ∈ after.srcTree ∧ after.nodes n = pf.nodes n
  known : ∀ n ∈ after.srcTree, n ∈ pf.srcTree ∨ alloc = some n

theorem Pf.Tracks.refl (alloc : Option NodePtr) : pf.Tracks pf alloc :=
  ⟨hok, rfl, fun _ hn => ⟨hn, rfl⟩, fun _ hn => .inl hn⟩

theorem Pf.Accounts.addNode {key : SrcNodeKey} {tree : List NodePtr}
    (hn : n ∉ pf.srcTree) (htree : tree.Perm (n :: pf.srcTree))
    (hrules : ∀ r, (rules r).statesCur = (pf.rules r).statesCur ∧
      (rules r).srcNodes = (pf.rules r).srcNodes + (if key.rule = some r then 1 else 0)) :
    { pf with
      nodes := update pf.nodes n { key := key }
      srcTree := tree
      rules := rules
      status := { pf.status with srcNodes := pf.status.srcNodes + 1 } }.Accounts := by
  have hother : ∀ m ∈ pf.srcTree, update pf.nodes n { key := key } m = pf.nodes m := by
    intro m hm
    apply update_of_ne
    rintro rfl
    exact hn hm
  refine { hok with
    statesCur := fun r => (hrules r).1.trans (hok.statesCur r)
    srcNodes := ?srcNodes, nodeStates := ?nodeStates, total := ?total
    treeNodup := htree.nodup_iff.mpr (List.nodup_cons.mpr ⟨hn, hok.treeNodup⟩)
    held := fun s hs m hm => htree.mem_iff.mpr (List.mem_cons_of_mem _ (hok.held s hs m hm)) }
  case srcNodes =>
    intro r
    refine (hrules r).2.trans ?_
    rw [hok.srcNodes, nodesOf, nodesOf, htree.countP_eq, List.countP_cons]
    congr 1
    · apply List.countP_congr
      intro m hm
      simp only [hother m hm]
    · simp
  case nodeStates =>
    intro m hm
    rcases List.mem_cons.mp (htree.mem_iff.mp hm) with rfl | hm
    · dsimp only
      rw [update_self]
      refine (sum_eq_zero fun s hs => ?_).symm
      by_contra hpos
      exact hn (hok.held s hs m (Nat.pos_of_ne_zero hpos))
    · dsimp only
      rw [hother m hm]
      exact hok.nodeStates m hm
  case total =>
    rw [htree.length_eq, List.length_cons, hok.total]

theorem Pf.Tracks.addSrcNode (hn : n ∉ pf.srcTree) (key : SrcNodeKey) :
    pf.Tracks (pf.addSrcNode n key) (some n) ∧ n ∈ (pf.addSrcNode n key).srcTree ∧
      (pf.addSrcNode n key).nodes n = { key := key } := by
  have heq : ∃ rules, pf.addSrcNode n key =
      { pf with
        nodes := update pf.nodes n { key := key }
        srcTree := Tables.place pfSrcCompare (fun m =>
          (update pf.nodes n { key := key } m).key) n pf.srcTree
        rules := rules
        status := { pf.status with srcNodes := pf.status.srcNodes + 1 } } ∧
      ∀ r, (rules r).statesCur = (pf.rules r).statesCur ∧
        (rules r).srcNodes = (pf.rules r).srcNodes + (if key.rule = some r then 1 else 0) := by
    refine ⟨(pf.addSrcNode n key).rules, ?_, fun r => ?_⟩
    · unfold Pf.addSrcNode
      cases key.rule <;> rfl
    · unfold Pf.addSrcNode
      rw [modifyRule_elim]
      split_ifs <;> exact ⟨rfl, rfl⟩
  obtain ⟨rules, heq, hrules⟩ := heq
  have hperm : (Tables.place pfSrcCompare (fun m =>
      (update pf.nodes n { key := key } m).key) n pf.srcTree).Perm
        (n :: pf.srcTree) := Tables.place_perm ..
  rw [heq]
  refine ⟨⟨hok.addNode hn hperm hrules, rfl, ?_, ?_⟩, Tables.mem_place.mpr (.inl rfl), by simp⟩
  · intro m hm
    refine ⟨Tables.mem_place.mpr (.inr hm), update_of_ne ?_ ..⟩
    rintro rfl
    exact hn hm
  · intro m hm
    rcases Tables.mem_place.mp hm with rfl | hm
    · exact .inr rfl
    · exact .inl hm

theorem Pf.insertSrcNode_spec {rule : RuleId} {src : PfAddr} {af : SaFamily}
    {alloc : Option NodePtr} (halloc : ∀ n, alloc = some n → n ∉ pf.srcTree)
    (hsn : ∀ n, sn = some n → n ∈ pf.srcTree) {sn' : Option NodePtr} {ok : Bool}
    (h : pf.insertSrcNode sn rule src af alloc = (after, sn', ok)) :
    pf.Tracks after alloc ∧ ∀ n, sn' = some n → n ∈ after.srcTree ∧
      (sn = some n ∨ (after.nodes n).key.rule = pf.owner rule) := by
  unfold insertSrcNode at h
  dsimp only at h
  split at h
  next n hfound =>
    cases h
    refine ⟨.refl hok alloc, ?_⟩
    rintro m ⟨⟩
    cases sn with
    | some m =>
      cases hfound
      exact ⟨hsn n rfl, .inl rfl⟩
    | none =>
      obtain ⟨hmem, hcmp⟩ := Tables.mem_of_find_eq_some hfound
      exact ⟨hmem, .inr (pfSrcCompare_rule hcmp).symm⟩
  next hnone =>
    split at h
    next =>
      split at h
      next =>
        cases h
        exact ⟨.refl hok none, nofun⟩
      next n =>
        cases h
        obtain ⟨htracks, hmem, hnode⟩ := Tracks.addSrcNode hok (halloc n rfl)
          ⟨pf.owner rule, af, src⟩
        refine ⟨htracks, ?_⟩
        rintro m ⟨⟩
        exact ⟨hmem, .inr (congrArg (·.key.rule) hnode)⟩
    next =>
      cases h
      exact ⟨.refl hok alloc, nofun⟩

end

end Nodes

/-! ## New states -/

/-- New records come from their pools.  The rule and the translation rule are of
different rulesets, and a node that the translation has found belongs to a
translation rule. -/
structure CreateCall.Allowed (call : CreateCall) (pf : Pf) : Prop where
  state : ∀ s, call.newState = some s → s ∉ pf.pool
  node : ∀ n, call.newNode = some n → n ∉ pf.srcTree
  natNode : ∀ n, call.newNatNode = some n → n ∉ pf.srcTree ∧ call.newNode ≠ some n
  natRule : call.nr ≠ some call.r
  nsn : ∀ n, call.nsn = some n → n ∈ pf.srcTree ∧ ∃ q, q ≠ call.r ∧ (pf.nodes n).key.rule = some q

structure Pf.Sources (pf : Pf) (r : RuleId) (sn nsn : Option NodePtr) : Prop where
  src : ∀ n, sn = some n → n ∈ pf.srcTree ∧
    ((pf.nodes n).key.rule = none ∨ (pf.nodes n).key.rule = some r)
  nat : ∀ n, nsn = some n → n ∈ pf.srcTree ∧ ∃ q, q ≠ r ∧ (pf.nodes n).key.rule = some q

section Create

variable {pf after : Pf} {s : StatePtr} {call : CreateCall}
  {sn nsn : Option NodePtr}

variable {n : NodePtr}

theorem Pf.Sources.ne (hsources : pf.Sources call.r sn nsn) (hsn : sn = some n) : nsn ≠ some n := by
  intro hnsn
  obtain ⟨q, hq, hrule⟩ := (hsources.nat n hnsn).2
  rcases (hsources.src n hsn).2 with h | h
  · rw [h] at hrule
    cases hrule
  · rw [h] at hrule
    exact hq (some.inj hrule).symm

theorem Pf.trackRule_spec (hok : pf.Accounts) (hallowed : call.Allowed pf) {ok : Bool}
    (h : (if (pf.rules call.r).ruleFlag &&& pfruleSrctrack != 0 ||
        (pf.rules call.r).poolOpts &&& pfPoolStickyaddr != 0 then
      pf.insertSrcNode none call.r call.src call.af call.newNode
    else (pf, none, true)) = (after, sn, ok)) :
    pf.Tracks after call.newNode ∧ after.Sources call.r sn call.nsn := by
  obtain ⟨htracks, hsn⟩ : pf.Tracks after call.newNode ∧ ∀ n, sn = some n → n ∈ after.srcTree ∧
      ((after.nodes n).key.rule = none ∨ (after.nodes n).key.rule = some call.r) := by
    split at h
    · obtain ⟨htracks, hsn⟩ := insertSrcNode_spec hok hallowed.node (fun n hn => by cases hn) h
      refine ⟨htracks, fun n hn => ?_⟩
      obtain ⟨hmem, hcases⟩ := hsn n hn
      refine ⟨hmem, ?_⟩
      rcases hcases with hnone | howner
      · cases hnone
      · rw [howner]
        unfold owner
        split
        · exact .inr rfl
        · exact .inl rfl
    · cases h
      exact ⟨.refl hok _, nofun⟩
  refine ⟨htracks, hsn, ?_⟩
  intro n hn
  obtain ⟨hmem, q, hq, hrule⟩ := hallowed.nsn n hn
  obtain ⟨hmem', hnode⟩ := htracks.kept n hmem
  exact ⟨hmem', q, hq, by rw [hnode]; exact hrule⟩

theorem Pf.trackSources_spec (hok : pf.Accounts) (hallowed : call.Allowed pf)
    {ok : Bool} (h : pf.trackSources call = (after, sn, nsn, ok)) :
    after.Accounts ∧ after.pool = pf.pool ∧ after.Sources call.r sn nsn := by
  unfold trackSources at h
  dsimp only at h
  generalize htracked : (if (pf.rules call.r).ruleFlag &&& pfruleSrctrack != 0 ||
      (pf.rules call.r).poolOpts &&& pfPoolStickyaddr != 0 then
    pf.insertSrcNode none call.r call.src call.af call.newNode
  else (pf, none, true)) = tracked at h
  obtain ⟨first, sn', ok'⟩ := tracked
  obtain ⟨htracks, hsources⟩ := trackRule_spec hok hallowed htracked
  have hfirst : first.Accounts ∧ first.pool = pf.pool ∧ first.Sources call.r sn' call.nsn :=
    ⟨htracks.accounts, htracks.pool, hsources⟩
  split at h
  next =>
    split at h
    next nr keys hnr _ =>
      split at h
      next hsticky =>
        generalize hinsert : first.insertSrcNode call.nsn nr
          (sourceOf call.dir keys.skCmp) call.af call.newNatNode = inserted at h
        have hnew : ∀ n, call.newNatNode = some n → n ∉ first.srcTree := by
          intro n hn hmem
          obtain ⟨hold, hne⟩ := hallowed.natNode n hn
          rcases htracks.known n hmem with h' | h'
          · exact hold h'
          · exact hne h'
        obtain ⟨htracks', hnsn⟩ := insertSrcNode_spec htracks.accounts hnew
          (fun n hn => (hsources.nat n hn).1) hinsert
        have howner : first.owner nr = some nr := by
          unfold owner ownsNodes
          rw [if_pos]
          simp only [hsticky, Bool.or_true]
        cases h
        refine ⟨htracks'.accounts, htracks'.pool.trans htracks.pool, ?_, ?_⟩
        · intro n hn
          obtain ⟨hmem, hrule⟩ := hsources.src n hn
          obtain ⟨hmem', hnode⟩ := htracks'.kept n hmem
          exact ⟨hmem', by rw [hnode]; exact hrule⟩
        · intro n hn
          obtain ⟨hmem, hgiven | hrule⟩ := hnsn n hn
          · obtain ⟨hmem', q, hq, hrule⟩ := hsources.nat n hgiven
            obtain ⟨_, hnode⟩ := htracks'.kept n hmem'
            exact ⟨hmem, q, hq, by rw [hnode]; exact hrule⟩
          · refine ⟨hmem, nr, ?_, hrule.trans howner⟩
            rintro rfl
            exact hallowed.natRule hnr
      next =>
        cases h
        exact hfirst
    next =>
      cases h
      exact hfirst
  next =>
    cases h
    exact hfirst

theorem Pf.incCounters_eq (pf : Pf) (st : PfState) :
    ∃ rules, pf.incCounters st = { pf with rules := rules } ∧
      ∀ q, (rules q).statesCur = (pf.rules q).statesCur + st.roles q ∧
        (rules q).srcNodes = (pf.rules q).srcNodes := by
  refine ⟨(pf.incCounters st).rules, ?_, fun q => ?_⟩
  · unfold incCounters
    cases st.anchor <;> cases st.natRule <;> rfl
  · have hrule := fun f => pf.modifyRule_elim (some st.rule) f q
    simp only [elim_some, some_inj] at hrule
    unfold incCounters roles
    simp only [modifyRule_elim, hrule]
    split_ifs <;> exact ⟨rfl, rfl⟩

theorem Pf.decCounters_eq (pf : Pf) (st : PfState) :
    ∃ rules, pf.decCounters st = { pf with rules := rules } ∧
      ∀ q, (rules q).statesCur = (pf.rules q).statesCur - st.roles q ∧
        (rules q).srcNodes = (pf.rules q).srcNodes := by
  refine ⟨(pf.decCounters st).rules, ?_, fun q => ?_⟩
  · unfold decCounters
    cases st.anchor <;> cases st.natRule <;> rfl
  · have hrule := fun pf f => modifyRule_elim pf (some st.rule) f q
    simp only [elim_some, some_inj] at hrule
    unfold decCounters roles
    simp only [modifyRule_elim, hrule]
    split_ifs <;> exact ⟨rfl, rfl⟩

theorem Pf.holdNode_eq (pf : Pf) (n : Option NodePtr) :
    ∃ nodes, n.elim pf pf.holdNode = { pf with nodes := nodes } ∧ ∀ m, (nodes m).states =
          (pf.nodes m).states + (if n = some m then 1 else 0) ∧
        (nodes m).key = (pf.nodes m).key := by
  cases n with
  | none => exact ⟨pf.nodes, rfl, fun m => by simp⟩
  | some n =>
    refine ⟨_, rfl, fun m => ?_⟩
    by_cases hm : m = n
    · subst hm
      simp
    · simp [hm, Ne.symm hm]

theorem Pf.newState_eq (pf : Pf) (call : CreateCall) (s : StatePtr) (sn nsn : Option NodePtr) :
    ∃ nodes rules, pf.newState call s sn nsn =
        { pf with
          pool := insert s pf.pool
          states := update pf.states s (stateOf call sn nsn)
          nodes := nodes
          rules := rules } ∧
      (∀ m, (nodes m).states = (pf.nodes m).states + (stateOf call sn nsn).holds m ∧
        (nodes m).key = (pf.nodes m).key) ∧
      ∀ q, (rules q).statesCur = (pf.rules q).statesCur + (stateOf call sn nsn).roles q ∧
        (rules q).srcNodes = (pf.rules q).srcNodes := by
  unfold newState
  dsimp only
  obtain ⟨rules, hinc, hrules⟩ := incCounters_eq
    ({ pf with pool := insert s pf.pool }.modifyState s fun _ =>
      stateOf call sn nsn) (stateOf call sn nsn)
  rw [hinc]
  obtain ⟨nodes, hsn, hnodes⟩ := holdNode_eq
    { ({ pf with pool := insert s pf.pool }.modifyState s fun _ =>
      stateOf call sn nsn) with rules := rules } sn
  rw [hsn]
  obtain ⟨nodes', hnsn, hnodes'⟩ := holdNode_eq
    { ({ pf with pool := insert s pf.pool }.modifyState s fun _ =>
      stateOf call sn nsn) with rules := rules, nodes := nodes } nsn
  refine ⟨nodes', rules, hnsn, fun m => ?_, hrules⟩
  refine ⟨(hnodes' m).1.trans ?_, (hnodes' m).2.trans (hnodes m).2⟩
  rw [(hnodes m).1, holds, ← Nat.add_assoc]
  rfl

theorem Pf.Accounts.addState (hok : pf.Accounts) (hs : s ∉ pf.pool) {st : PfState}
    {nodes : NodePtr → SrcNode} {rules : RuleId → RuleEntry}
    (hnodes : ∀ n, (nodes n).states = (pf.nodes n).states + st.holds n ∧
      (nodes n).key = (pf.nodes n).key)
    (hrules : ∀ r, (rules r).statesCur = (pf.rules r).statesCur + st.roles r ∧
      (rules r).srcNodes = (pf.rules r).srcNodes) (hmem : ∀ n, 0 < st.holds n → n ∈ pf.srcTree)
    (hapart : ∀ n, st.holds n ≤ 1) (hlinked : st.timeout ≠ .unlinked) :
    { pf with
      pool := insert s pf.pool
      states := update pf.states s st
      nodes := nodes
      rules := rules }.Accounts := by
  have hother : ∀ t ∈ pf.pool, update pf.states s st t = pf.states t := by
    intro t ht
    apply update_of_ne
    rintro rfl
    exact hs ht
  have htally : ∀ f : PfState → ℕ,
      ∑ t ∈ insert s pf.pool, f (update pf.states s st t) = f st + pf.tally f := by
    intro f
    rw [sum_insert hs, update_self]
    exact congrArg _ (sum_congr rfl fun t ht => by rw [hother t ht])
  -- what the states in the pool hold, for the new one and for those before
  have hcases : ∀ {P : PfState → Prop}, P st → (∀ t ∈ pf.pool, P (pf.states t)) →
      ∀ t ∈ insert s pf.pool, P (update pf.states s st t) := by
    intro P hst hpool t ht
    rcases mem_insert.mp ht with rfl | ht
    · rw [update_self]
      exact hst
    · rw [hother t ht]
      exact hpool t ht
  refine { hok with
    statesCur := ?statesCur, srcNodes := ?srcNodes, nodeStates := ?nodeStates
    held := hcases (P := fun st => ∀ n, 0 < st.holds n → n ∈ pf.srcTree) hmem hok.held
    apart := hcases (P := fun st => ∀ n, st.holds n ≤ 1) hapart hok.apart
    unlinked := hcases (P := fun st => st.timeout = .unlinked → ∀ n, st.holds n = 0)
      (fun htimeout => absurd htimeout hlinked) hok.unlinked
    listed := fun t ht => mem_insert_of_mem (hok.listed t ht) }
  case statesCur =>
    intro r
    dsimp only [tally]
    rw [htally (·.roles r), (hrules r).1, hok.statesCur, Nat.add_comm]
  case srcNodes =>
    intro r
    exact (hrules r).2.trans ((hok.srcNodes r).trans (nodesOf_congr (fun n => (hnodes n).2) r).symm)
  case nodeStates =>
    intro n hn
    dsimp only [tally]
    rw [htally (·.holds n), (hnodes n).1, hok.nodeStates n hn, Nat.add_comm]

theorem Pf.Accounts.newState (hok : pf.Accounts) (hs : s ∉ pf.pool)
    (hsources : pf.Sources call.r sn nsn) : (pf.newState call s sn nsn).Accounts := by
  obtain ⟨nodes, rules, heq, hnodes, hrules⟩ := pf.newState_eq call s sn nsn
  rw [heq]
  refine hok.addState hs hnodes hrules ?_ ?_
    (by dsimp only [stateOf, firstTimeout]; split_ifs <;> simp)
  · -- the nodes that the new state holds are in the tree
    intro n hn
    by_contra hout
    have hsn : sn ≠ some n := fun h => hout (hsources.src n h).1
    have hnsn : nsn ≠ some n := fun h => hout (hsources.nat n h).1
    simp [holds, stateOf, hsn, hnsn] at hn
  · intro n
    by_cases hsn : sn = some n
    · simp [holds, stateOf, hsn, hsources.ne hsn]
    · by_cases hnsn : nsn = some n <;>
        simp [holds, stateOf, hsn, hnsn]

theorem Pf.Accounts.abandonState (hok : pf.Accounts) (hs : s ∈ pf.pool) (hlist : s ∉ pf.stateList)
    (time : BitVec 32) : (pf.abandonState s time).Accounts := by
  have hremoved : (pf.srcTreeRemoveState s time).Accounts := by
    rw [srcTreeRemoveState_eq]
    refine hok.release hs _ ?_ ?_ ?_ (pf.releaseNodes_node (pf.states s) time (hok.apart s hs))
    · intro t ht
      simp [ht]
    · intro r
      simp [roles]
    · intro n
      simp [holds]
  unfold Pf.abandonState
  dsimp only
  obtain ⟨rules, hdec, hrules⟩ := (pf.srcTreeRemoveState s time).decCounters_eq
    ((pf.srcTreeRemoveState s time).states s)
  rw [hdec]
  rw [srcTreeRemoveState_eq] at hremoved hrules ⊢
  have hdispose := hremoved.dispose hs (fun n => by simp [holds]) pf.status.states hrules
  rw [List.erase_of_not_mem hlist] at hdispose
  exact hdispose

theorem Pf.SameAccount.chooseKeys {skw sks : KeyPtr}
    (h : pf.chooseKeys call = some (after, skw, sks)) : pf.SameAccount after := by
  unfold Pf.chooseKeys at h
  split at h
  · cases h
    exact ⟨rfl, rfl, rfl, rfl, rfl, rfl, fun _ => rfl⟩
  · obtain ⟨sk, -, h⟩ := bind_eq_some_iff.mp h
    split at h
    · cases h
      exact ⟨rfl, rfl, rfl, rfl, rfl, rfl, fun _ => rfl⟩
    · obtain ⟨nk, -, h⟩ := map_eq_some_iff.mp h
      cases h
      exact ⟨rfl, rfl, rfl, rfl, rfl, rfl, fun _ => rfl⟩

def CreateCall.AtLimit (call : CreateCall) (pf : Pf) : Prop :=
  (pf.rules call.r).maxStates ≠ 0 ∧ (pf.rules call.r).maxStates ≤ (pf.rules call.r).statesCur

/-- When the call gives up before there is a state, the source nodes that it
gives back do not belong to a rule. -/
def CreateCall.KeepsNodes (call : CreateCall) (pf : Pf) : Prop :=
  ¬ call.AtLimit pf → ∀ tracked sn nsn ok,
    pf.trackSources call = (tracked, sn, nsn, ok) →
    (ok = true → call.newState = none) →
    ∀ n, sn = some n ∨ nsn = some n → (tracked.nodes n).states = 0 →
      (tracked.nodes n).expire = 0 → (tracked.nodes n).key.rule = none

theorem Pf.Accounts.csfailed_held (hok : pf.Accounts) (hs : s ∈ pf.pool)
    (hstate : ∀ n, sn = some n ∨ nsn = some n → 0 < (pf.states s).holds n) :
    (pf.csfailed sn nsn).Accounts := by
  apply hok.csfailed
  · exact fun n hn => hok.held s hs n (hstate n hn)
  · intro n hn hzero
    have hle := le_tally (f := (·.holds n)) hs
    have hcount := hok.nodeStates n (hok.held s hs n (hstate n hn))
    have hpos := hstate n hn
    omega

theorem Pf.Accounts.append (hok : pf.Accounts) (hs : s ∈ pf.pool)
    (hlist : s ∉ pf.stateList) (tree : List StatePtr) (states : ℕ) :
    { pf with
      treeId := tree
      stateList := pf.stateList ++ [s]
      status := { pf.status with states := states } }.Accounts :=
  { hok with
    listed := List.forall_mem_append.mpr ⟨hok.listed, List.forall_mem_singleton.mpr hs⟩
    listNodup := List.concat_eq_append ▸ hok.listNodup.concat hlist }

theorem Pf.Accounts.createState (hok : pf.Accounts) (hallowed : call.Allowed pf)
    (hkeeps : call.KeepsNodes pf) : (pf.createState call).1.Accounts := by
  unfold Pf.createState
  dsimp only
  split
  next => exact hok
  next hlimit =>
    have hgiven := hkeeps hlimit
    generalize htracked : pf.trackSources call = result at hgiven ⊢
    obtain ⟨tracked, sn, nsn, ok⟩ := result
    obtain ⟨haccounts, hpool, hsources⟩ := trackSources_spec hok hallowed htracked
    have hfailed : (ok = true → call.newState = none) → (tracked.csfailed sn nsn).Accounts := by
      intro hnone
      apply haccounts.csfailed
      · rintro n (hn | hn)
        · exact (hsources.src n hn).1
        · exact (hsources.nat n hn).1
      · exact hgiven tracked sn nsn ok rfl hnone
    cases ok with
    | false => exact hfailed nofun
    | true =>
      cases hnew : call.newState with
      | none => exact hfailed fun _ => hnew
      | some s =>
        have hs : s ∉ tracked.pool := by
          rw [hpool]
          exact hallowed.state s hnew
        have hstate := haccounts.newState hs hsources
        obtain ⟨nodes, rules, heq, -, -⟩ := tracked.newState_eq call s sn nsn
        have hmem : s ∈ (tracked.newState call s sn nsn).pool := by
          rw [heq]
          exact mem_insert_self ..
        have hlist : s ∉ (tracked.newState call s sn nsn).stateList := by
          rw [heq]
          exact fun h => hs (haccounts.listed s h)
        have hholds : ∀ n, sn = some n ∨ nsn = some n →
            0 < ((tracked.newState call s sn nsn).states s).holds n := by
          rw [heq]
          rintro n (hn | hn) <;> simp [holds, stateOf, hn]
        dsimp only
        split
        next => exact hstate.abandonState hmem hlist call.time
        next =>
          split
          next => exact hstate.csfailed_held hmem hholds
          next chosen skw sks hchoose =>
            have hsame := SameAccount.chooseKeys hchoose
            obtain ⟨mid, hmid, hinsert⟩ := chosen.stateInsert_account
              call.order (boundIface (pf.rules call.r) call.kif) skw sks s call.items
            have haccounts' := hstate.congr (hsame.trans hmid)
            have hmem' : s ∈ mid.pool := by
              rw [(hsame.trans hmid).pool]
              exact hmem
            have hlist' : s ∉ mid.stateList := by
              rw [(hsame.trans hmid).stateList]
              exact hlist
            rcases hinsert with h | ⟨tree, states, h⟩
            · rw [h]
              exact haccounts'.abandonState hmem' hlist' call.time
            · rw [h]
              exact haccounts'.append hmem' hlist' tree states

end Create

/-! ## Runs -/

inductive AccountOp
  | create (call : CreateCall)
  | unlink (s : StatePtr) (time : BitVec 32)
  | free (s : StatePtr) (held : Bool)
  | purgeSrcNodes (time : BitVec 32)

def Pf.accountStep (pf : Pf) : AccountOp → Option Pf
  | .create call => some (pf.createState call).1
  | .unlink s time => pf.step (.unlink s time)
  | .free s held => pf.step (.free s held)
  | .purgeSrcNodes time => some (pf.purgeExpiredSrcNodes time)

def AccountOp.Allowed (pf : Pf) : AccountOp → Prop
  | .create call => call.Allowed pf
  | _ => True

def AccountOp.KeepsNodes (pf : Pf) : AccountOp → Prop
  | .create call => call.KeepsNodes pf
  | _ => True

def uncounted (rules : RuleId → RuleEntry) (r : RuleId) : RuleEntry :=
  { rules r with statesCur := 0, srcNodes := 0 }

theorem Pf.initial_accounts (stateid : BitVec 64) (hostid : BitVec 32)
    (rules : RuleId → RuleEntry) : (initial stateid hostid (uncounted rules)).Accounts where
  statesCur := fun r => rfl
  srcNodes := fun r => rfl
  nodeStates := nofun
  total := rfl
  treeNodup := .nil
  held := fun s hs => absurd hs (notMem_empty s)
  apart := fun s hs => absurd hs (notMem_empty s)
  unlinked := fun s hs => absurd hs (notMem_empty s)
  listed := nofun
  listNodup := .nil

theorem Pf.Accounts.step {pf after : Pf} {op : AccountOp} (hok : pf.Accounts)
    (hallowed : op.Allowed pf) (hkeeps : op.KeepsNodes pf)
    (hstep : pf.accountStep op = some after) : after.Accounts := by
  cases op with
  | create call =>
    cases hstep
    exact hok.createState hallowed hkeeps
  | unlink s time =>
    simp only [accountStep, Pf.step] at hstep
    split at hstep
    next h =>
      cases hstep
      exact hok.unlinkState (hok.listed s h.1) time
    next => cases hstep
  | free s held =>
    simp only [accountStep, Pf.step] at hstep
    split at hstep
    next h =>
      cases hstep
      exact hok.freeState (hok.listed s h.1) h.2 held
    next => cases hstep
  | purgeSrcNodes time =>
    cases hstep
    exact hok.purgeExpiredSrcNodes time

/-- As long as no call of `pf_create_state` gives a source node back that belongs
to a rule, rules and source nodes count their states and nodes. -/
theorem counters_match_what_they_count {stateid : BitVec 64}
    {hostid : BitVec 32} {rules : RuleId → RuleEntry} {pf : Pf}
    (hrun : Run.GuardedRun Pf.accountStep
      (fun before op => op.Allowed before ∧ op.KeepsNodes before)
      (Pf.initial stateid hostid (uncounted rules)) pf) :
    (∀ r, (pf.rules r).statesCur = (pf.pool.filter fun s => (pf.states s).rule = r).card +
        (pf.pool.filter fun s => (pf.states s).anchor = some r).card +
        (pf.pool.filter fun s => (pf.states s).natRule = some r).card) ∧
    (∀ r, (pf.rules r).srcNodes = pf.srcTree.countP fun n => (pf.nodes n).key.rule = some r) ∧
    (∀ n ∈ pf.srcTree, (pf.nodes n).states =
      (pf.pool.filter fun s => (pf.states s).srcNode = some n ∨
        (pf.states s).natSrcNode = some n).card) ∧
    pf.status.srcNodes = pf.srcTree.length := by
  have hok : pf.Accounts := by
    apply hrun.invariant (P := Pf.Accounts) (Pf.initial_accounts stateid hostid rules)
    rintro before op after hok ⟨hallowed, hkeeps⟩ hstep
    exact hok.step hallowed hkeeps hstep
  refine ⟨fun r => ?_, hok.srcNodes, fun n hn => ?_, hok.total⟩
  · rw [hok.statesCur, card_filter, card_filter, card_filter, ← sum_add_distrib, ← sum_add_distrib]
    rfl
  · rw [hok.nodeStates n hn, card_filter]
    refine sum_congr rfl fun s hs => ?_
    have hapart := hok.apart s hs n
    unfold holds at hapart ⊢
    by_cases hsrc : (pf.states s).srcNode = some n
    · by_cases hnat : (pf.states s).natSrcNode = some n
      · simp [hsrc, hnat] at hapart
      · simp [hsrc, hnat]
    · simp [hsrc]

def trackedCall (s : Option StatePtr) : CreateCall where
  r := 1
  nr := none
  a := none
  src := hostAddr 5
  dst := hostAddr 9
  sport := 1000
  dport := 80
  af := afInet
  proto := 17
  dir := pfIn
  thFlags := 0
  tcpNorm := false
  nsn := none
  keys := none
  kif := 1
  time := 100
  order := .big
  newNode := some 5
  newNatNode := none
  newState := s
  newKeys := (some 7, none)
  items := (true, true)
  normalizeTcpInit := false
  normalizeTcpStateful := false

def trackingRules (r : RuleId) : RuleEntry :=
  if r = 1 then { ruleFlag := pfruleSrctrack ||| pfruleRulesrctrack } else {}

theorem trackedCall_allowed (s : Option StatePtr) :
    (trackedCall s).Allowed (Pf.initial 1 7 (uncounted trackingRules)) where
  state := fun s _ => notMem_empty s
  node := fun _ _ => List.not_mem_nil
  natNode := nofun
  natRule := nofun
  nsn := nofun

theorem counters_match_what_they_count_tracked :
    ∃ pf, Run.GuardedRun Pf.accountStep
        (fun before op => op.Allowed before ∧ op.KeepsNodes before)
        (Pf.initial 1 7 (uncounted trackingRules)) pf ∧ pf.srcTree = [5] ∧
      (pf.rules 1).srcNodes = (pf.srcTree.countP fun n => (pf.nodes n).key.rule = some 1) ∧
      pf.status.srcNodes = pf.srcTree.length := by
  have hrun : Run.GuardedRun Pf.accountStep
      (fun before op => op.Allowed before ∧ op.KeepsNodes before)
      (Pf.initial 1 7 (uncounted trackingRules)) _ :=
    (Run.GuardedRun.refl _ _ _).tail ⟨.create (trackedCall (some 3)), ⟨trackedCall_allowed _, by
        rintro _ tracked sn nsn ok htracked hnone
        cases htracked
        cases hnone rfl⟩, rfl⟩
  obtain ⟨-, hnodes, -, htotal⟩ := counters_match_what_they_count hrun
  exact ⟨_, hrun, rfl, hnodes 1, htotal⟩

/-- The node of the rule is given back when there is no state, and the rule
still counts it. -/
theorem source_node_counted_after_removal :
    ∃ pf, Run.GuardedRun Pf.accountStep (fun before op => op.Allowed before)
        (Pf.initial 1 7 (uncounted trackingRules)) pf ∧
      (pf.rules 1).srcNodes = 1 ∧ pf.srcTree = [] := by
  have hrun : Run.GuardedRun Pf.accountStep (fun before op => op.Allowed before)
      (Pf.initial 1 7 (uncounted trackingRules)) _ :=
    (Run.GuardedRun.refl _ _ _).tail ⟨.create (trackedCall none), trackedCall_allowed _, rfl⟩
  exact ⟨_, hrun, rfl, rfl⟩

end AerieKernel.PacketFilter
