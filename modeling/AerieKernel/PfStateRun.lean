import AerieKernel.PfStateTable
import AerieKernel.GuardedRuns

/-!
# The state table over whole runs

What `pf_state_insert`, `pf_find_state`, `pf_unlink_state` and `pf_free_state`
keep of the table of keys, of the tree of identifiers and of the list of states
in any order of the calls, and when the `reverse` pointers of keys stay paired.
-/

namespace AerieKernel.PacketFilter

open Function

/-! ## Names and lists of states -/

structure Pf.IdsOk (pf : Pf) : Prop where
  sorted : Tables.Sorted pfStateCompareId pf.states pf.treeId
  linked : ∀ s, s ∈ pf.treeId ↔ s ∈ pf.stateList ∧ (pf.states s).timeout ≠ .unlinked
  keyed : ∀ s idx, ((pf.states s).key idx).isSome = true ↔ s ∈ pf.treeId
  pooled : ∀ s ∈ pf.stateList, s ∈ pf.pool
  nodup : pf.stateList.Nodup
  counted : pf.status.states = pf.stateList.length

/-- What `pf_state_insert` is called with: a new state and its keys, which may
be the same. -/
structure InsertCall where
  order : ByteOrder
  kif : Kif
  s : StatePtr
  state : PfState
  skw : KeyPtr × StateKeyCmp
  sks : KeyPtr × StateKeyCmp
  items : Bool × Bool

inductive TableOp
  | insert (call : InsertCall)
  | find (kif : Kif) (key : StateKeyCmp) (dir : BitVec 8)
      (statekey : Option KeyPtr)
  | unlink (s : StatePtr) (time : BitVec 32)
  | free (s : StatePtr) (held : Bool)

def InsertCall.Allowed (call : InsertCall) (pf : Pf) : Prop :=
  call.s ∉ pf.pool ∧ call.state.timeout ≠ .unlinked ∧
    call.skw.1 ∉ pf.statetbl ∧ call.sks.1 ∉ pf.statetbl

instance (call : InsertCall) (pf : Pf) : Decidable (call.Allowed pf) :=
  inferInstanceAs (Decidable (_ ∧ _ ∧ _ ∧ _))

def Pf.allocate (pf : Pf) (call : InsertCall) : Pf :=
  (({ pf with pool := insert call.s pf.pool }.modifyState call.s fun _ =>
    { call.state with wire := none, stack := none }).allocStateKey
      call.skw.1 call.skw.2).allocStateKey call.sks.1 call.sks.2

/-- `pf_state_insert` for a new state, which the caller frees if it fails. -/
def Pf.insertCall (pf : Pf) (call : InsertCall) : Pf × Bool :=
  let (after, ok) := (pf.allocate call).stateInsert call.order call.kif
    call.skw.1 call.sks.1 call.s call.items
  if ok then (after, true)
  else ({ after with pool := after.pool.erase call.s }, false)

/-- `pf_unlink_state` is for linked states and `pf_free_state` for unlinked
ones. -/
def Pf.step (pf : Pf) : TableOp → Option Pf
  | .insert call =>
    if call.Allowed pf then some (pf.insertCall call).1 else none
  | .find kif key dir statekey => some (pf.findState kif key dir statekey).1
  | .unlink s time =>
    if s ∈ pf.stateList ∧ (pf.states s).timeout ≠ .unlinked then
      some (pf.unlinkState s time)
    else none
  | .free s held =>
    if s ∈ pf.stateList ∧ (pf.states s).timeout = .unlinked then
      some (pf.freeState s held)
    else none

def Pf.initial (stateid : BitVec 64) (hostid : BitVec 32) (rules : RuleId → RuleEntry) : Pf where
  keys := fun _ => { cmp := ⟨(⟨.replicate 4 0⟩, ⟨.replicate 4 0⟩), (0, 0), 0, 0⟩ }
  statetbl := []
  states := fun _ =>
    { direction := 0, timeout := .unlinked, rule := pfDefaultRule }
  pool := ∅
  treeId := []
  stateList := []
  nodes := fun _ => { key := ⟨none, 0, ⟨.replicate 4 0⟩⟩ }
  srcTree := []
  rules := rules
  status := { stateid := stateid, hostid := hostid }

structure Pf.TableOk (pf : Pf) : Prop where
  keys : pf.KeysOk
  ids : pf.IdsOk

section Steps

variable {pf : Pf} {s : StatePtr}

theorem Pf.initial_tableOk (stateid : BitVec 64) (hostid : BitVec 32) (rules : RuleId → RuleEntry) :
    (initial stateid hostid rules).TableOk where
  keys :=
    { sorted := .nil
      nonempty := nofun
      attached := fun _ idx _ h => by cases idx <;> cases h
      listed := nofun
      boundFirst := nofun
      apart := nofun }
  ids :=
    { sorted := .nil
      linked := fun _ => by simp [initial]
      keyed := fun _ idx => by cases idx <;> simp [initial, PfState.key]
      pooled := nofun
      nodup := .nil
      counted := rfl }

theorem Pf.IdsOk.key_eq_none (hids : pf.IdsOk) (hs : s ∉ pf.treeId)
    (idx : SkIdx) : (pf.states s).key idx = none := by
  rw [← Option.not_isSome_iff_eq_none, hids.keyed]
  exact hs

variable {after : Pf}

theorem Pf.TableOk.change (hok : pf.TableOk) (hs : s ∉ pf.stateList)
    (hnone : ∀ idx, (after.states s).key idx = none)
    (hstates : ∀ t, t ≠ s → after.states t = pf.states t) (htable : after.statetbl = pf.statetbl)
    (hkeys : ∀ k ∈ pf.statetbl, after.keys k = pf.keys k) (htree : after.treeId = pf.treeId)
    (hlist : after.stateList = pf.stateList) (hpool : ∀ t, t ≠ s → t ∈ pf.pool → t ∈ after.pool)
    (hcount : after.status.states = pf.status.states) : after.TableOk := by
  have hs' : s ∉ pf.treeId := fun h => hs ((hok.ids.linked s).mp h).1
  have hold := hok.ids.key_eq_none hs'
  have hlisted : ∀ t ∈ pf.stateList, t ≠ s := fun t ht => ne_of_mem_of_not_mem ht hs
  constructor
  · refine hok.keys.congr htable (fun k hk => by rw [hkeys k hk]; simp) ?_ ?_
    · intro t k
      by_cases ht : t = s
      · subst ht
        simp [hnone, hold]
      · rw [hstates t ht]
    · intro t idx k h
      have ht : t ≠ s := by
        rintro rfl
        rw [hold] at h
        cases h
      rw [hstates t ht]
      exact ⟨rfl, rfl⟩
  · constructor
    case sorted =>
      rw [htree]
      apply hok.ids.sorted.congr
      intro t ht
      rw [hstates t (hlisted t ((hok.ids.linked t).mp ht).1)]
    case linked =>
      intro t
      rw [htree, hlist]
      by_cases ht : t = s
      · subst ht
        exact ⟨fun h => absurd h hs', fun h => absurd h.1 hs⟩
      · rw [hstates t ht]
        exact hok.ids.linked t
    case keyed =>
      intro t idx
      rw [htree]
      by_cases ht : t = s
      · subst ht
        rw [hnone]
        exact ⟨fun h => (by cases h), fun h => absurd h hs'⟩
      · rw [hstates t ht]
        exact hok.ids.keyed t idx
    case pooled =>
      intro t ht
      rw [hlist] at ht
      exact hpool t (hlisted t ht) (hok.ids.pooled t ht)
    case nodup =>
      rw [hlist]
      exact hok.ids.nodup
    case counted =>
      rw [hcount, hlist]
      exact hok.ids.counted

variable {call : InsertCall} {k : KeyPtr}

theorem Pf.allocate_keys (hallowed : call.Allowed pf) (hk : k ∈ pf.statetbl) :
    (pf.allocate call).keys k = pf.keys k := by
  have hskw : k ≠ call.skw.1 := fun h => hallowed.2.2.1 (h ▸ hk)
  have hsks : k ≠ call.sks.1 := fun h => hallowed.2.2.2 (h ▸ hk)
  simp [allocate, allocStateKey, hskw, hsks]

theorem Pf.allocate_key (pf : Pf) (call : InsertCall) (idx : SkIdx) :
    ((pf.allocate call).states call.s).key idx = none := by
  cases idx <;> simp [allocate, allocStateKey, PfState.key]

theorem Pf.allocate_states {t : StatePtr}
    (ht : t ≠ call.s) : (pf.allocate call).states t = pf.states t := by
  simp [allocate, allocStateKey, ht]

theorem InsertCall.Allowed.not_listed (hallowed : call.Allowed pf) (hok : pf.TableOk) :
    call.s ∉ pf.stateList := fun h => hallowed.1 (hok.ids.pooled call.s h)

section

variable (hok : pf.TableOk)
include hok

section

variable (hallowed : call.Allowed pf)
include hallowed

theorem Pf.TableOk.allocate : (pf.allocate call).TableOk := by
  exact hok.change (hallowed.not_listed hok) (allocate_key pf call)
    (fun t ht => allocate_states ht) rfl
    (fun k hk => allocate_keys hallowed hk) rfl rfl (fun t _ ht => Finset.mem_insert_of_mem ht) rfl

omit hok in
theorem Pf.allocate_fresh :
    (pf.allocate call).FreshKey call.skw.1 ∧ (pf.allocate call).FreshKey call.sks.1 := by
  have hsks : (pf.allocate call).keys call.sks.1 =
      { cmp := call.sks.2 } := by
    simp [allocate, allocStateKey]
  refine ⟨⟨hallowed.2.2.1, ?_, ?_⟩, hallowed.2.2.2, ?_, ?_⟩
  · by_cases h : call.skw.1 = call.sks.1
    · rw [h, hsks]
    · simp [allocate, allocStateKey, h]
  · by_cases h : call.skw.1 = call.sks.1
    · rw [h, hsks]
    · simp [allocate, allocStateKey, h]
  · rw [hsks]
  · rw [hsks]

theorem Pf.bound_tableOk :
    ((pf.allocate call).modifyState call.s fun st =>
      { st with kif := call.kif }).TableOk := by
  refine (hok.allocate hallowed).change (hallowed.not_listed hok) ?_ ?_ rfl (fun _ _ => rfl) rfl rfl
    (fun _ _ ht => ht) rfl
  · intro idx
    have hidx := allocate_key pf call idx
    cases idx <;> simpa [PfState.key] using hidx
  · intro t ht
    simp [ht]

theorem Pf.insertCall_spec :
    (∃ after, (pf.allocate call).Refused call.s after ∧
      pf.insertCall call = ({ after with pool := after.pool.erase call.s }, false)) ∨
    ∃ after, ((pf.allocate call).modifyState call.s fun st =>
        { st with kif := call.kif }).Inserted call.s after ∧
      pf.insertCall call = (after, true) := by
  unfold insertCall
  rcases stateInsert_spec call.order call.kif call.items (bound_tableOk hok hallowed).keys
      (allocate_fresh hallowed).1 (allocate_fresh hallowed).2 (allocate_key pf call) with
    ⟨after, h, hrefused⟩ | ⟨after, h, hinserted⟩
  · rw [h]
    exact .inl ⟨after, hrefused, rfl⟩
  · rw [h]
    exact .inr ⟨after, hinserted, rfl⟩

theorem Pf.Refused.tableOk (hrefused : (pf.allocate call).Refused call.s after) :
    { after with pool := after.pool.erase call.s }.TableOk := by
  obtain ⟨st, stateid, hnone, rfl⟩ := hrefused
  refine hok.change (hallowed.not_listed hok) ?_ ?_ rfl (fun k hk => allocate_keys hallowed hk)
    rfl rfl ?_ rfl
  · simpa using hnone
  · intro t ht
    simp [ht, allocate_states ht]
  · intro t ht hpool
    exact Finset.mem_erase.mpr ⟨ht, Finset.mem_insert_of_mem hpool⟩

omit hallowed in
theorem Pf.Inserted.tableOk (hs : s ∉ pf.stateList)
    (hpool : s ∈ pf.pool) (htimeout : (pf.states s).timeout ≠ .unlinked)
    (hinserted : pf.Inserted s after) : after.TableOk := by
  obtain ⟨joined, st, stateid, hattached, hkey, hkif, hdirection, htime, hfind,
    rfl⟩ := hinserted
  have hs' : s ∉ pf.treeId := fun h => hs ((hok.ids.linked s).mp h).1
  have hjoined := hattached.keysOk hok.keys (hok.ids.key_eq_none hs')
  obtain ⟨kw, ks, heq⟩ := hattached.eq
  have hstates : ∀ t, t ≠ s → update joined.states s st t = pf.states t := by
    intro t ht
    rw [heq]
    simp [ht]
  have htree : joined.treeId = pf.treeId := by rw [heq]
  have hlist : joined.stateList = pf.stateList := by rw [heq]
  have hsome : ∀ idx, (st.key idx).isSome = true := by
    intro idx
    rw [hkey, heq]
    cases idx <;> simp [PfState.key_setKey]
  constructor
  · have hset := hjoined.setState _ (fun q => by simp only [hkey]) hkif hdirection
    exact { hset with }
  · constructor
    case sorted =>
      have hself : update joined.states s st s = st := by simp
      have hold : Tables.Sorted pfStateCompareId (update joined.states s st) joined.treeId := by
        rw [htree]
        apply hok.ids.sorted.congr
        intro t ht
        rw [hstates t fun h => hs' (h ▸ ht)]
      exact hold.place (by rw [hself]; exact hfind)
    case linked =>
      intro t
      dsimp only
      rw [Tables.mem_place, htree, hlist, List.mem_append]
      by_cases ht : t = s
      · subst ht
        have htime' : st.timeout ≠ .unlinked := by
          rw [htime, heq]
          simpa using htimeout
        simp [htime']
      · rw [hstates t ht, hok.ids.linked]
        simp [ht]
    case keyed =>
      intro t idx
      dsimp only
      rw [htree]
      by_cases ht : t = s
      · subst ht
        simp [hsome]
      · rw [hstates t ht, hok.ids.keyed]
        simp [ht]
    case pooled =>
      intro t ht
      rw [heq]
      rw [hlist, List.mem_append, List.mem_singleton] at ht
      rcases ht with ht | rfl
      · exact hok.ids.pooled t ht
      · exact hpool
    case nodup =>
      rw [hlist, ← List.concat_eq_append]
      exact hok.ids.nodup.concat hs
    case counted =>
      have hcount : joined.status.states = pf.status.states := by rw [heq]
      rw [hlist, List.length_append, hcount, hok.ids.counted]
      rfl

theorem Pf.TableOk.insertCall : (pf.insertCall call).1.TableOk := by
  rcases insertCall_spec hok hallowed with
    ⟨after, hrefused, h⟩ | ⟨after, hinserted, h⟩
  · rw [h]
    exact hrefused.tableOk hok hallowed
  · rw [h]
    refine hinserted.tableOk (bound_tableOk hok hallowed) (hallowed.not_listed hok) ?_ ?_
    · exact Finset.mem_insert_self ..
    · simpa [Pf.allocate, allocStateKey] using hallowed.2.1

end

end

namespace Pf

theorem linkKeys_keys (pf : Pf) (k sk q : KeyPtr) :
    (pf.linkKeys k sk).keys q =
      { pf.keys q with
        reverse := if q = sk then some k else if q = k then some sk else (pf.keys q).reverse } := by
  by_cases hsk : q = sk
  · subst hsk
    by_cases hk : q = k
    · subst hk
      simp [linkKeys]
    · simp [linkKeys, hk]
  · by_cases hk : q = k
    · subst hk
      simp [linkKeys, hsk]
    · simp [linkKeys, hk, hsk]

/-- A search that has not found the key through the carried one links them. -/
theorem findState_cases (pf : Pf) (kif : Kif) (key : StateKeyCmp)
    (dir : BitVec 8) (statekey : Option KeyPtr) :
    (pf.findState kif key dir statekey).1 = pf ∨
      ∃ k sk, dir = pfOut ∧ statekey = some k ∧ (pf.keys k).reverse = none ∧
        pf.findKey key = some sk ∧ (pf.findState kif key dir statekey).1 = pf.linkKeys k sk := by
  unfold findState
  dsimp only
  by_cases hdir : dir = pfOut
  · rw [if_pos hdir]
    cases statekey with
    | none => cases pf.findKey key <;> exact .inl rfl
    | some k =>
      rw [Option.bind_some]
      cases hreverse : (pf.keys k).reverse with
      | some sk => exact .inl rfl
      | none =>
        cases pf.findKey key with
        | none => exact .inl rfl
        | some sk => exact .inr ⟨k, sk, hdir, rfl, hreverse, rfl, rfl⟩
  · rw [if_neg hdir]
    cases pf.findKey key <;> exact .inl rfl

theorem TableOk.findState (hok : pf.TableOk) (kif : Kif) (key : StateKeyCmp) (dir : BitVec 8)
    (statekey : Option KeyPtr) : (pf.findState kif key dir statekey).1.TableOk := by
  rcases pf.findState_cases kif key dir statekey with h | ⟨k, sk, -, -, -, -, h⟩
  · rw [h]
    exact hok
  · rw [h]
    refine ⟨hok.keys.congr rfl (fun q _ => ?_) (fun _ _ => .rfl) (fun _ _ _ _ => ⟨rfl, rfl⟩),
      { hok.ids with }⟩
    rw [linkKeys_keys]
    exact ⟨rfl, rfl⟩

theorem srcTreeRemoveState_eq (pf : Pf) (s : StatePtr) (time : BitVec 32) :
    pf.srcTreeRemoveState s time =
      { pf with
        nodes := (pf.releaseNodes (pf.states s) time).nodes
        states := update pf.states s
          { pf.states s with srcNode := none, natSrcNode := none } } := by
  unfold srcTreeRemoveState releaseNodes
  cases (pf.states s).srcNode <;> cases (pf.states s).natSrcNode <;> dsimp only <;>
    split_ifs <;> rfl

def marked (pf : Pf) (s : StatePtr) (nodes : NodePtr → SrcNode) : Pf :=
  { pf with
    treeId := pf.treeId.erase s
    nodes := nodes
    states := Function.update pf.states s
      { pf.states s with
        timeout := .unlinked
        srcNode := none
        natSrcNode := none } }

theorem unlinkState_eq (pf : Pf) (s : StatePtr) (time : BitVec 32) :
    pf.unlinkState s time =
      (pf.marked s (pf.releaseNodes (pf.states s) time).nodes).detachState s := by
  unfold unlinkState
  dsimp only
  rw [srcTreeRemoveState_eq]
  refine congrArg (detachState · s) (Pf.ext rfl rfl ?_ rfl rfl rfl ?_ rfl rfl rfl)
  · simp [marked, modifyState]
  · rw [modifyState_states, update_self]
    unfold releaseNodes
    cases (pf.states s).srcNode <;> cases (pf.states s).natSrcNode <;> dsimp only <;>
      split_ifs <;> rfl

theorem KeysOk.marked (hok : pf.KeysOk) (s : StatePtr)
    (nodes : NodePtr → SrcNode) : (pf.marked s nodes).KeysOk := by
  have hset := hok.setState (s := s) { pf.states s with
    timeout := .unlinked, srcNode := none, natSrcNode := none }
    (fun q => exists_congr fun idx => by cases idx <;> rfl) rfl rfl
  exact { hset with }

theorem TableOk.unlinkState (hok : pf.TableOk) (time : BitVec 32) :
    (pf.unlinkState s time).TableOk := by
  obtain ⟨hkeys, keys, table, hdetach⟩ := detachState_spec s (hok.keys.marked s _)
  rw [unlinkState_eq]
  refine ⟨hkeys, ?_⟩
  rw [hdetach]
  unfold Pf.marked
  have hmem : ∀ t, t ∈ pf.treeId.erase s ↔ t ≠ s ∧ t ∈ pf.treeId :=
    fun t => hok.ids.sorted.nodup.mem_erase_iff
  constructor
  case sorted =>
    apply (hok.ids.sorted.erase s).congr
    intro t ht
    simp [((hmem t).mp ht).1]
  case linked =>
    intro t
    rw [hmem, hok.ids.linked]
    by_cases ht : t = s
    · subst ht
      simp
    · simp [ht]
  case keyed =>
    intro t idx
    rw [hmem]
    by_cases ht : t = s
    · subst ht
      cases idx <;> simp [PfState.setKey, PfState.key]
    · simp [ht, hok.ids.keyed]
  case pooled => exact hok.ids.pooled
  case nodup => exact hok.ids.nodup
  case counted => exact hok.ids.counted

theorem rmRule_eq (pf : Pf) (r : RuleId) :
    ∃ rules, pf.rmRule r = { pf with rules := rules } ∧
      ∀ q, (rules q).statesCur = (pf.rules q).statesCur ∧
        (rules q).srcNodes = (pf.rules q).srcNodes := by
  unfold rmRule
  split
  · exact ⟨pf.rules, rfl, fun _ => ⟨rfl, rfl⟩⟩
  · refine ⟨_, rfl, fun q => ?_⟩
    by_cases hq : q = r
    · subst hq
      simp
    · simp [hq]

theorem modifyRule_elim (pf : Pf) (r : Option RuleId) (f : RuleEntry → RuleEntry) (q : RuleId) :
    (r.elim pf fun r => pf.modifyRule r f).rules q =
      if r = some q then f (pf.rules q) else pf.rules q := by
  cases r with
  | none => simp
  | some r =>
    by_cases hq : q = r
    · subst hq
      simp
    · simp [hq, Ne.symm hq]

theorem dropState_eq (pf : Pf) (r : Option RuleId) (heedsNodes : Bool) :
    ∃ rules, r.elim pf (pf.dropState · heedsNodes) = { pf with rules := rules } ∧
      ∀ q, (rules q).statesCur = (pf.rules q).statesCur - (if r = some q then 1 else 0) ∧
        (rules q).srcNodes = (pf.rules q).srcNodes := by
  cases r with
  | none => exact ⟨pf.rules, rfl, fun q => by simp⟩
  | some r =>
    have hdec : ∀ q, ((pf.modifyRule r fun rule =>
          { rule with statesCur := rule.statesCur - 1 }).rules q).statesCur =
            (pf.rules q).statesCur - (if some r = some q then 1 else 0) ∧
        ((pf.modifyRule r fun rule =>
          { rule with statesCur := rule.statesCur - 1 }).rules q).srcNodes =
            (pf.rules q).srcNodes := by
      intro q
      rw [show (pf.modifyRule r _).rules q = _ from pf.modifyRule_elim (some r) _ q]
      split_ifs <;> exact ⟨rfl, rfl⟩
    dsimp only [Option.elim_some, dropState]
    split
    · obtain ⟨rules, heq, hrules⟩ := rmRule_eq _ r
      refine ⟨rules, heq, fun q => ?_⟩
      rw [(hrules q).1, (hrules q).2]
      exact hdec q
    · exact ⟨_, rfl, hdec⟩

theorem freeState_eq (pf : Pf) (s : StatePtr) :
    ∃ rules, pf.freeState s false =
        { pf with
          rules := rules
          stateList := pf.stateList.erase s
          pool := pf.pool.erase s
          status := { pf.status with states := pf.status.states - 1 } } ∧
      ∀ q, (rules q).statesCur = (pf.rules q).statesCur -
          (if some (pf.states s).rule = some q then 1 else 0) -
          (if (pf.states s).natRule = some q then 1 else 0) -
          (if (pf.states s).anchor = some q then 1 else 0) ∧
        (rules q).srcNodes = (pf.rules q).srcNodes := by
  obtain ⟨rules, hrule, hcount⟩ := pf.dropState_eq (some (pf.states s).rule) true
  obtain ⟨rules', hnat, hcount'⟩ :=
    dropState_eq { pf with rules := rules } (pf.states s).natRule true
  obtain ⟨rules'', hanchor, hcount''⟩ :=
    dropState_eq { pf with rules := rules' } (pf.states s).anchor false
  refine ⟨rules'', ?_, fun q => ?_⟩
  · rw [Option.elim_some] at hrule
    unfold freeState
    simp only [Bool.false_eq_true, if_false, hrule, hnat, hanchor]
  · rw [(hcount'' q).1, (hcount'' q).2, (hcount' q).1, (hcount' q).2, (hcount q).1, (hcount q).2]
    exact ⟨rfl, rfl⟩

theorem TableOk.freeState (hok : pf.TableOk) (hs : s ∈ pf.stateList)
    (hunlinked : (pf.states s).timeout = .unlinked) (held : Bool) :
    (pf.freeState s held).TableOk := by
  cases held with
  | true => exact hok
  | false =>
    obtain ⟨rules, h, -⟩ := pf.freeState_eq s
    rw [h]
    have hmem : ∀ t, t ∈ pf.stateList.erase s ↔ t ≠ s ∧ t ∈ pf.stateList :=
      fun t => hok.ids.nodup.mem_erase_iff
    refine ⟨hok.keys.congr rfl (fun _ _ => ⟨rfl, rfl⟩) (fun _ _ => .rfl)
      (fun _ _ _ _ => ⟨rfl, rfl⟩), ?_⟩
    constructor
    case sorted => exact hok.ids.sorted
    case linked =>
      intro t
      rw [hok.ids.linked]
      by_cases ht : t = s
      · subst ht
        simp [hunlinked]
      · simp [ht]
    case keyed => exact hok.ids.keyed
    case pooled =>
      intro t ht
      obtain ⟨hne, ht⟩ := (hmem t).mp ht
      exact Finset.mem_erase.mpr ⟨hne, hok.ids.pooled t ht⟩
    case nodup => exact hok.ids.nodup.erase s
    case counted =>
      rw [List.length_erase_of_mem hs, hok.ids.counted]

theorem TableOk.step (hok : pf.TableOk) {op : TableOp}
    (hstep : pf.step op = some after) : after.TableOk := by
  cases op with
  | insert call =>
    simp only [Pf.step] at hstep
    split at hstep
    · cases hstep
      exact hok.insertCall ‹_›
    · cases hstep
  | find kif key dir statekey =>
    cases hstep
    exact hok.findState kif key dir statekey
  | unlink s time =>
    simp only [Pf.step] at hstep
    split at hstep
    · cases hstep
      exact hok.unlinkState time
    · cases hstep
  | free s held =>
    simp only [Pf.step] at hstep
    split at hstep
    next h =>
      cases hstep
      exact hok.freeState h.1 h.2 held
    next => cases hstep

end Pf

end Steps

theorem Pf.TableOk.reaches {stateid : BitVec 64} {hostid : BitVec 32} {rules : RuleId → RuleEntry}
    {pf : Pf} (hreach : Run.Reaches Pf.step (Pf.initial stateid hostid rules) pf) : pf.TableOk := by
  apply hreach.invariant (initial_tableOk stateid hostid rules)
  intro before op after hok _ hstep
  exact hok.step hstep

/-- In all states that the calls reach, keys have states, states are once on the
lists of their keys, interface-bound states come first, no two states on a key
have the same interface and direction, and linked states have a name of their
own.  A call of `pf_state_insert` that fails changes none of the tables. -/
theorem state_table_stays_consistent {stateid : BitVec 64} {hostid : BitVec 32}
    {rules : RuleId → RuleEntry} {pf : Pf}
    (hreach : Run.Reaches Pf.step (Pf.initial stateid hostid rules) pf) :
    (∀ k ∈ pf.statetbl, (pf.keys k).states ≠ []) ∧
    (∀ s k, (k ∈ pf.statetbl ∧ s ∈ (pf.keys k).states) ↔
      (pf.states s).wire = some k ∨ (pf.states s).stack = some k) ∧
    (∀ k ∈ pf.statetbl, (pf.keys k).states.Nodup ∧ ((pf.keys k).states.Pairwise fun s t =>
        (pf.states s).kif = pfiAll → (pf.states t).kif = pfiAll) ∧
      ∀ s ∈ (pf.keys k).states, ∀ t ∈ (pf.keys k).states, (pf.states s).kif = (pf.states t).kif →
        (pf.states s).direction = (pf.states t).direction → s = t) ∧
    (∀ s ∈ pf.stateList, (pf.states s).timeout ≠ .unlinked → s ∈ pf.treeId) ∧
    (∀ s ∈ pf.treeId, ∀ t ∈ pf.treeId, (pf.states s).id = (pf.states t).id →
      (pf.states s).creatorid = (pf.states t).creatorid → s = t) ∧
    ∀ (call : InsertCall) (after : Pf), call.Allowed pf → pf.insertCall call = (after, false) →
      after.statetbl = pf.statetbl ∧ (∀ k ∈ pf.statetbl, after.keys k = pf.keys k) ∧
      after.treeId = pf.treeId ∧ after.stateList = pf.stateList ∧
      after.status.states = pf.status.states := by
  have hok := Pf.TableOk.reaches hreach
  refine ⟨hok.keys.nonempty, ?_, ?_, ?_, ?_, ?_⟩
  · intro s k
    constructor
    · rintro ⟨hk, hs⟩
      obtain ⟨_ | _, h⟩ := (hok.keys.listed k hk s).mp hs
      · exact .inl h
      · exact .inr h
    · intro h
      obtain ⟨idx, hidx⟩ : ∃ idx, (pf.states s).key idx = some k := by
        rcases h with h | h
        · exact ⟨.wire, h⟩
        · exact ⟨.stack, h⟩
      have hk := hok.keys.attached s idx k hidx
      exact ⟨hk, (hok.keys.listed k hk s).mpr ⟨idx, hidx⟩⟩
  · intro k hk
    refine ⟨hok.keys.nodup hk, hok.keys.boundFirst k hk, ?_⟩
    intro s hs t ht hkif hdirection
    by_contra hne
    have hsymm : Std.Symm fun t u =>
        ¬ SameFlow (pf.states t) (pf.states u) := ⟨fun _ _ h h' => h ⟨h'.1.symm, h'.2.symm⟩⟩
    exact (hok.keys.apart k hk).forall hs ht hne ⟨hkif, hdirection⟩
  · exact fun s hs hlinked => (hok.ids.linked s).mpr ⟨hs, hlinked⟩
  · intro s hs t ht hid hcreator
    exact hok.ids.sorted.eq_of_cmp_eq hs ht (by simp [pfStateCompareId_eq_compare, hid, hcreator])
  · intro call after hallowed hfail
    rcases Pf.insertCall_spec hok hallowed with
      ⟨refused, ⟨st, stateid, _, heq⟩, h⟩ | ⟨inserted, _, h⟩
    · cases h.symm.trans hfail
      rw [heq]
      exact ⟨rfl, fun k hk => Pf.allocate_keys hallowed hk, rfl, rfl, rfl⟩
    · cases h.symm.trans hfail

def flowKey (host : BitVec 32) : StateKeyCmp :=
  ⟨(hostAddr host, hostAddr 9), (1000, 80), afInet, ipprotoTcp⟩

def newFlow (kif : Kif) (s : StatePtr) (k : KeyPtr) (host : BitVec 32) : InsertCall where
  order := .big
  kif := kif
  s := s
  state :=
    { direction := pfIn, timeout := .tcpFirstPacket, rule := pfDefaultRule }
  skw := (k, flowKey host)
  sks := (k, flowKey host)
  items := (true, true)

def noStates : Pf := Pf.initial 1 7 fun _ => {}

theorem state_table_stays_consistent_shared :
    ∃ pf, Run.Reaches Pf.step noStates pf ∧ (pf.keys 1).states = [1, 0] ∧
      (∀ k ∈ pf.statetbl, (pf.keys k).states ≠ []) ∧
      ∀ (call : InsertCall) (after : Pf), call.Allowed pf → pf.insertCall call = (after, false) →
        after.statetbl = pf.statetbl ∧ after.treeId = pf.treeId := by
  have hrun : Run.Reaches Pf.step noStates _ :=
    ((Run.GuardedRun.refl _ _ noStates).tail
      ⟨.insert (newFlow pfiAll 0 1 5), trivial, rfl⟩).tail ⟨.insert (newFlow 3 1 2 5), trivial, rfl⟩
  obtain ⟨hnonempty, -, -, -, -, hfail⟩ := state_table_stays_consistent hrun
  refine ⟨_, hrun, rfl, hnonempty, ?_⟩
  intro call after hallowed h
  obtain ⟨htable, -, htree, -⟩ := hfail call after hallowed h
  exact ⟨htable, htree⟩

/-! ## Keys that are the reverse of each other -/

def Pf.Paired (pf : Pf) : Prop :=
  ∀ k ∈ pf.statetbl, ∀ r, (pf.keys k).reverse = some r →
    r ∈ pf.statetbl ∧ (pf.keys r).reverse = some k

section Reverse

variable {pf after : Pf} {s : StatePtr}

theorem Pf.Paired.congr (hpaired : pf.Paired) (htable : after.statetbl = pf.statetbl)
    (hreverse : ∀ k ∈ pf.statetbl, (after.keys k).reverse = (pf.keys k).reverse) :
    after.Paired := by
  intro k hk r hr
  rw [htable] at hk ⊢
  rw [hreverse k hk] at hr
  obtain ⟨hmem, hback⟩ := hpaired k hk r hr
  exact ⟨hmem, by rw [hreverse r hmem]; exact hback⟩

variable {k : KeyPtr}

theorem Pf.join_reverse {table : List KeyPtr} {idx : SkIdx} (q : KeyPtr) :
    ((pf.join table k s idx).keys q).reverse = (pf.keys q).reverse := by
  rw [join_keys]
  by_cases hq : q = k
  · subst hq
    simp
  · simp [hq]

section

variable (hpaired : pf.Paired)
include hpaired

theorem Pf.Paired.join {table : List KeyPtr} {idx : SkIdx}
    (hslot : pf.Slot s table k) : (pf.join table k s idx).Paired := by
  intro q hq r hr
  rw [join_reverse] at hr ⊢
  have hold : q ∈ pf.statetbl := by
    cases hslot with
    | found => exact hq
    | placed hfresh _ =>
      apply (Tables.mem_place.mp hq).resolve_left
      rintro rfl
      rw [hfresh.reverse] at hr
      cases hr
  obtain ⟨hmem, hback⟩ := hpaired q hold r hr
  exact ⟨hslot.mem_iff.mpr (.inr hmem), hback⟩

theorem Pf.Paired.attached {joined : Pf} (hattached : pf.Attached s joined) : joined.Paired := by
  cases hattached with
  | same hslot =>
    exact (hpaired.join hslot).congr rfl fun _ _ => rfl
  | both hwire hstack => exact (hpaired.join hwire).join hstack

theorem Pf.Paired.stateKeyDetach (hok : pf.KeysOk)
    (s : StatePtr) (idx : SkIdx) : (pf.stateKeyDetach s idx).Paired := by
  cases hkey : (pf.states s).key idx with
  | none => exact (stateKeyDetach_none hkey).symm ▸ hpaired
  | some k =>
    have hk := hok.attached s idx k hkey
    rw [stateKeyDetach_eq hkey]
    by_cases hrest : pf.restOf s k = []
    · intro q hq r hr
      simp only [keysWithout, hrest, true_and, if_true] at hq hr ⊢
      rw [hok.sorted.nodup.mem_erase_iff] at hq ⊢
      split_ifs at hr with hself
      obtain ⟨hmem, hback⟩ := hpaired q hq.2 r hr
      refine ⟨⟨?_, hmem⟩, ?_⟩
      · rintro rfl
        exact hself hback
      · rw [if_neg]
        · exact hback
        · intro hr'
          have hk' := (hpaired k hk r hr').2
          rw [hback] at hk'
          exact hq.1 (Option.some.inj hk')
    · apply hpaired.congr
      · simp [hrest]
      · simp [keysWithout, hrest]

theorem Pf.Paired.detachState (hok : pf.KeysOk) (s : StatePtr) : (pf.detachState s).Paired := by
  rw [detachState_eq]
  split
  next hsame =>
    have hleft : (pf.setKey s .wire none).Paired := hpaired.congr rfl fun _ _ => rfl
    exact hleft.stateKeyDetach (hok.forget hsame) s .stack
  next hne =>
    exact (hpaired.stateKeyDetach hok s .stack).stateKeyDetach (hok.detachStack hne) s .wire

end

variable {call : InsertCall}

theorem Pf.Paired.insertCall (hpaired : pf.Paired) (hok : pf.TableOk) (hallowed : call.Allowed pf) :
    (pf.insertCall call).1.Paired := by
  have hallocated : (pf.allocate call).Paired :=
    hpaired.congr rfl fun k hk => by rw [allocate_keys hallowed hk]
  rcases insertCall_spec hok hallowed with
    ⟨after, ⟨st, stateid, _, heq⟩, h⟩ | ⟨after, hinserted, h⟩
  · rw [h, heq]
    exact hallocated.congr rfl fun _ _ => rfl
  · rw [h]
    obtain ⟨joined, _, _, hattached, _, _, _, _, _, rfl⟩ := hinserted
    have hbound : ((pf.allocate call).modifyState call.s fun st =>
        { st with kif := call.kif }).Paired := hallocated.congr rfl fun _ _ => rfl
    exact (hbound.attached hattached).congr rfl fun _ _ => rfl

theorem Pf.Paired.linkKeys {sk : KeyPtr} (hpaired : pf.Paired) (hk : k ∈ pf.statetbl)
    (hsk : sk ∈ pf.statetbl) (hnone : (pf.keys k).reverse = none)
    (hnone' : (pf.keys sk).reverse = none) : (pf.linkKeys k sk).Paired := by
  intro q hq r hr
  rw [linkKeys_keys] at hr ⊢
  split_ifs at hr with hqs hqk
  · cases hr
    refine ⟨hk, ?_⟩
    rw [hqs]
    by_cases hks : k = sk
    · simp [hks]
    · simp [hks]
  · cases hr
    exact ⟨hsk, by rw [if_pos rfl, hqk]⟩
  · obtain ⟨hmem, hback⟩ := hpaired q hq r hr
    refine ⟨hmem, ?_⟩
    rw [if_neg, if_neg]
    · exact hback
    · rintro rfl
      rw [hnone] at hback
      cases hback
    · rintro rfl
      rw [hnone'] at hback
      cases hback

end Reverse

def CarriesLiveKey (pf : Pf) : TableOp → Prop
  | .find _ _ dir statekey =>
    ∀ k, dir = pfOut → statekey = some k → k ∈ pf.statetbl
  | _ => True

/-- A key that a search links to the carried one has no reverse yet. -/
def LinksFreeKeys (pf : Pf) : TableOp → Prop
  | .find _ key dir statekey =>
    ∀ k sk, dir = pfOut → statekey = some k → (pf.keys k).reverse = none →
      pf.findKey key = some sk → (pf.keys sk).reverse = none
  | _ => True

theorem Pf.Paired.findState {pf : Pf} (hpaired : pf.Paired) (hok : pf.KeysOk)
    {kif : Kif} {key : StateKeyCmp} {dir : BitVec 8} {statekey : Option KeyPtr}
    (hlive : CarriesLiveKey pf (.find kif key dir statekey))
    (hfree : LinksFreeKeys pf (.find kif key dir statekey)) :
    (pf.findState kif key dir statekey).1.Paired := by
  rcases pf.findState_cases kif key dir statekey with h | ⟨k, sk, hdir, hk, hnone, hfind, h⟩
  · rw [h]
    exact hpaired
  · rw [h]
    exact hpaired.linkKeys (hlive k hdir hk) (hok.sorted.find_eq_some.mp hfind).1 hnone
      (hfree k sk hdir hk hnone hfind)

theorem Pf.Paired.step {pf after : Pf} {op : TableOp} (hpaired : pf.Paired) (hok : pf.TableOk)
    (hlive : CarriesLiveKey pf op) (hfree : LinksFreeKeys pf op) (hstep : pf.step op = some after) :
    after.Paired := by
  cases op with
  | insert call =>
    simp only [Pf.step] at hstep
    split at hstep
    · cases hstep
      exact hpaired.insertCall hok ‹_›
    · cases hstep
  | find kif key dir statekey =>
    cases hstep
    exact hpaired.findState hok.keys hlive hfree
  | unlink s time =>
    simp only [Pf.step] at hstep
    split at hstep
    · cases hstep
      rw [unlinkState_eq]
      apply Paired.detachState _ (hok.keys.marked s _)
      exact hpaired.congr rfl fun _ _ => rfl
    · cases hstep
  | free s held =>
    simp only [Pf.step] at hstep
    split at hstep
    · cases hstep
      cases held with
      | true => exact hpaired
      | false =>
        obtain ⟨rules, h, -⟩ := pf.freeState_eq s
        rw [h]
        exact hpaired.congr rfl fun _ _ => rfl
    · cases hstep

/-- As long as a search links only keys without a reverse to the live key of its
packet, the reverse of a key is a key of the table whose reverse it is. -/
theorem reverse_keys_stay_paired {stateid : BitVec 64} {hostid : BitVec 32}
    {rules : RuleId → RuleEntry} {pf : Pf}
    (hrun : Run.GuardedRun Pf.step
      (fun before op => CarriesLiveKey before op ∧ LinksFreeKeys before op)
      (Pf.initial stateid hostid rules) pf) :
    ∀ k ∈ pf.statetbl, ∀ r, (pf.keys k).reverse = some r →
      r ∈ pf.statetbl ∧ (pf.keys r).reverse = some k := by
  have hboth : pf.TableOk ∧ pf.Paired := by
    apply hrun.invariant (P := fun pf => pf.TableOk ∧ pf.Paired)
      ⟨Pf.initial_tableOk stateid hostid rules, nofun⟩
    rintro before op after ⟨hok, hpaired⟩ ⟨hlive, hfree⟩ hstep
    exact ⟨hok.step hstep, hpaired.step hok hlive hfree hstep⟩
  exact hboth.2

def outbound (host : BitVec 32) (k : KeyPtr) : TableOp :=
  .find 1 (flowKey host) pfOut (some k)

theorem reverse_keys_stay_paired_two :
    ∃ pf, Run.GuardedRun Pf.step
        (fun before op => CarriesLiveKey before op ∧ LinksFreeKeys before op)
        noStates pf ∧
      (pf.keys 1).reverse = some 2 ∧ 1 ∈ pf.statetbl ∧ 2 ∈ pf.statetbl ∧
      (pf.keys 2).reverse = some 1 := by
  have hrun : Run.GuardedRun Pf.step
      (fun before op => CarriesLiveKey before op ∧ LinksFreeKeys before op)
      noStates _ :=
    (((Run.GuardedRun.refl _ _ noStates).tail
      ⟨.insert (newFlow pfiAll 1 1 5), ⟨trivial, trivial⟩, rfl⟩).tail
        ⟨.insert (newFlow pfiAll 2 2 6), ⟨trivial, trivial⟩, rfl⟩).tail
          ⟨outbound 6 1, ⟨by rintro _ _ ⟨⟩; decide, by
            rintro _ _ _ ⟨⟩ _ ⟨⟩; rfl⟩, rfl⟩
  obtain ⟨hmem, hback⟩ := reverse_keys_stay_paired hrun 1 (by decide) 2 rfl
  exact ⟨_, hrun, rfl, by decide, hmem, hback⟩

/-- The second search links the key that is found to the third key, and the
first key keeps a pointer to it when it is freed. -/
theorem reverse_key_dangles :
    ∃ pf, Run.GuardedRun Pf.step CarriesLiveKey noStates pf ∧
      1 ∈ pf.statetbl ∧ (pf.keys 1).reverse = some 2 ∧ 2 ∉ pf.statetbl := by
  have hrun : Run.GuardedRun Pf.step CarriesLiveKey noStates _ :=
    ((((((Run.GuardedRun.refl _ _ noStates).tail
      ⟨.insert (newFlow pfiAll 1 1 5), trivial, rfl⟩).tail
        ⟨.insert (newFlow pfiAll 2 2 6), trivial, rfl⟩).tail
          ⟨.insert (newFlow pfiAll 3 3 7), trivial, rfl⟩).tail
            ⟨outbound 6 1, by rintro _ _ ⟨⟩; decide, rfl⟩).tail
              ⟨outbound 6 3, by rintro _ _ ⟨⟩; decide, rfl⟩).tail ⟨.unlink 2 0, trivial, rfl⟩
  exact ⟨_, hrun, by decide, rfl, by decide⟩

end AerieKernel.PacketFilter
