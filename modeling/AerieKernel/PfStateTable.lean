import AerieKernel.PfStateModel

/-!
# Attaching and detaching state keys

The table of keys with the lists of their states.  A call that attaches a key
either leaves the table as it is or joins the state to a key that is in the
table then; taking the key away again gives the table from before the call, and
so the calls that give up half way leave nothing behind.
-/

namespace AerieKernel.PacketFilter

open Function List Tables PfState Ordering

/-! ## The comparisons are orders -/

/-- The numbers that `pf_state_compare_key` compares one after the other. -/
def StateKeyCmp.words (key : StateKeyCmp) : List ℕ :=
  let word (i : ℕ) : List ℕ :=
    [key.addr.1.addr32[i]!.toNat, key.addr.2.addr32[i]!.toNat]
  [key.proto.toNat, key.af.toNat] ++
    (if key.af = afInet then word 0
    else if key.af = afInet6 then word 3 ++ word 2 ++ word 1 ++ word 0
    else []) ++
    [key.port.1.toNat, key.port.2.toNat]

theorem pfStateCompareKey_eq_compare (a b : StateKeyCmp) :
    pfStateCompareKey a b = compare a.words b.words := by
  rw [List.compare_eq_compareLex]
  unfold pfStateCompareKey StateKeyCmp.words
  by_cases haf : a.af = b.af
  · rw [haf]
    by_cases hinet : b.af = afInet
    · simp only [if_pos hinet, compareBits, cons_append, nil_append,
        List.compareLex_cons_cons, List.compareLex_nil_nil, then_assoc, then_eq]
    · by_cases hinet6 : b.af = afInet6
      · simp only [if_neg hinet, if_pos hinet6, compareBits, cons_append,
          nil_append, List.compareLex_cons_cons, List.compareLex_nil_nil,
          then_assoc, then_eq]
      · simp only [if_neg hinet, if_neg hinet6, compareBits, cons_append,
          nil_append, List.compareLex_cons_cons, List.compareLex_nil_nil,
          then_eq, eq_then]
  · -- the families differ, and what is compared behind them does not count
    have hne : compare a.af.toNat b.af.toNat ≠ .eq := by
      rw [ne_eq, Nat.compare_eq_eq, BitVec.toNat_inj]
      exact haf
    simp only [cons_append, List.compareLex_cons_cons, compareBits]
    generalize compare a.af.toNat b.af.toNat = order at hne ⊢
    cases order with
    | lt => rfl
    | eq => exact absurd rfl hne
    | gt => rfl

instance : Std.TransCmp pfStateCompareKey :=
  Tables.transCmp_of_words pfStateCompareKey_eq_compare

theorem pfStateCompareId_eq_compare (a b : PfState) :
    pfStateCompareId a b =
      compare [a.id.toNat, a.creatorid.toNat] [b.id.toNat, b.creatorid.toNat] := by
  simp only [List.compare_eq_compareLex, List.compareLex_cons_cons,
    List.compareLex_nil_nil, then_eq]
  rfl

instance : Std.TransCmp pfStateCompareId :=
  Tables.transCmp_of_words pfStateCompareId_eq_compare

/-! ## The keys of the table -/

def SameFlow (a b : PfState) : Prop :=
  a.kif = b.kif ∧ a.direction = b.direction

/-- Keys have states, and a state is on the lists of its keys, interface-bound
states first. -/
structure Pf.KeysOk (pf : Pf) : Prop where
  sorted : Tables.Sorted pfStateCompareKey (fun k => (pf.keys k).cmp) pf.statetbl
  nonempty : ∀ k ∈ pf.statetbl, (pf.keys k).states ≠ []
  attached : ∀ s idx k, (pf.states s).key idx = some k → k ∈ pf.statetbl
  listed : ∀ k ∈ pf.statetbl, ∀ s, s ∈ (pf.keys k).states ↔ ∃ idx, (pf.states s).key idx = some k
  boundFirst : ∀ k ∈ pf.statetbl, (pf.keys k).states.Pairwise fun s t =>
    (pf.states s).kif = pfiAll → (pf.states t).kif = pfiAll
  apart : ∀ k ∈ pf.statetbl, (pf.keys k).states.Pairwise fun s t =>
    ¬ SameFlow (pf.states s) (pf.states t)

structure Pf.FreshKey (pf : Pf) (sk : KeyPtr) : Prop where
  not_mem : sk ∉ pf.statetbl
  states : (pf.keys sk).states = []
  reverse : (pf.keys sk).reverse = none

inductive Pf.Slot (pf : Pf) (s : StatePtr) : List KeyPtr → KeyPtr → Prop
  | found {k : KeyPtr} (hmem : k ∈ pf.statetbl)
      (hapart : ∀ other ∈ (pf.keys k).states, ¬ SameFlow (pf.states other) (pf.states s)) :
      Slot pf s pf.statetbl k
  | placed {k : KeyPtr} (hfresh : pf.FreshKey k)
      (hnone : pf.findKey (pf.keys k).cmp = none) :
      Slot pf s (Tables.place pfStateCompareKey (fun k => (pf.keys k).cmp) k pf.statetbl) k

def Pf.join (pf : Pf) (table : List KeyPtr) (k : KeyPtr) (s : StatePtr) (idx : SkIdx) : Pf :=
  ({ pf with statetbl := table }.addItem k s idx true).1

section Keys

variable {pf : Pf} {s : StatePtr} {idx : SkIdx} {k : KeyPtr}
  {table : List KeyPtr}

theorem SameFlow.refl (st : PfState) : SameFlow st st := ⟨rfl, rfl⟩

@[simp] theorem Pf.join_statetbl : (pf.join table k s idx).statetbl = table := rfl

def Pf.withItem (pf : Pf) (s : StatePtr) (states : List StatePtr) : List StatePtr :=
  if (pf.states s).kif = pfiAll then states ++ [s] else s :: states

variable {states : List StatePtr}

theorem Pf.mem_withItem {t : StatePtr} : t ∈ pf.withItem s states ↔ t = s ∨ t ∈ states := by
  unfold withItem
  split <;> simp [or_comm]

theorem Pf.withItem_erase (hs : s ∉ states) : (pf.withItem s states).erase s = states := by
  unfold withItem
  split
  · rw [erase_append_right _ hs]
    simp
  · exact erase_cons_head ..

theorem Pf.join_keys :
    (pf.join table k s idx).keys =
      update pf.keys k
        { pf.keys k with states := pf.withItem s (pf.keys k).states } := by
  funext q
  by_cases hq : q = k
  · subst hq
    simp [join, addItem, setKey, withItem]
  · simp [join, addItem, setKey, hq]

theorem Pf.join_states :
    (pf.join table k s idx).states = update pf.states s ((pf.states s).setKey idx (some k)) := rfl

section

variable (hslot : pf.Slot s table k)
include hslot

theorem Pf.Slot.mem_iff {q : KeyPtr} : q ∈ table ↔ q = k ∨ q ∈ pf.statetbl := by
  cases hslot with
  | found hmem =>
    constructor
    · exact .inr
    · rintro (rfl | hq)
      · exact hmem
      · exact hq
  | placed => exact mem_place

theorem Pf.Slot.apart :
    ∀ other ∈ (pf.keys k).states, ¬ SameFlow (pf.states other) (pf.states s) := by
  cases hslot with
  | found _ hapart => exact hapart
  | placed hfresh _ => simp [hfresh.states]

theorem Pf.Slot.not_mem : s ∉ (pf.keys k).states :=
  fun hs => hslot.apart s hs (.refl _)

theorem Pf.Slot.sorted (hok : pf.KeysOk) :
    Tables.Sorted pfStateCompareKey (fun k => (pf.keys k).cmp) table := by
  cases hslot with
  | found => exact hok.sorted
  | placed _ hnone => exact hok.sorted.place hnone

theorem Pf.Slot.listed (hok : pf.KeysOk) (t : StatePtr) :
    t ∈ (pf.keys k).states ↔ ∃ idx, (pf.states t).key idx = some k := by
  cases hslot with
  | found hmem => exact hok.listed k hmem t
  | placed hfresh _ =>
    rw [hfresh.states]
    constructor
    · exact nofun
    · rintro ⟨idx, hkey⟩
      exact absurd (hok.attached t idx k hkey) hfresh.not_mem

variable {R : StatePtr → StatePtr → Prop}

theorem Pf.Slot.pairwise
    (hR : ∀ k ∈ pf.statetbl, (pf.keys k).states.Pairwise R) : (pf.keys k).states.Pairwise R := by
  cases hslot with
  | found hmem => exact hR k hmem
  | placed hfresh _ =>
    rw [hfresh.states]
    exact .nil

end

namespace Pf

theorem pairwise_withItem (hstates : states.Pairwise R)
    (hlast : (pf.states s).kif = pfiAll → ∀ t ∈ states, R t s)
    (hfirst : (pf.states s).kif ≠ pfiAll → ∀ t ∈ states, R s t) :
    (pf.withItem s states).Pairwise R := by
  unfold withItem
  split
  next hall =>
    apply pairwise_append.mpr ⟨hstates, pairwise_singleton .., ?_⟩
    intro t ht u hu
    rw [mem_singleton.mp hu]
    exact hlast hall t ht
  next hbound => exact pairwise_cons.mpr ⟨hfirst hbound, hstates⟩

theorem updated_key (v : Option KeyPtr) (t : StatePtr) (idx' : SkIdx) :
    (update pf.states s ((pf.states s).setKey idx v) t).key idx' =
      if t = s ∧ idx' = idx then v else (pf.states t).key idx' := by
  by_cases ht : t = s
  · subst ht
    simp [key_setKey]
  · simp [ht]

theorem updated_flow (v : Option KeyPtr) (t : StatePtr) :
    (update pf.states s ((pf.states s).setKey idx v) t).kif = (pf.states t).kif ∧
      (update pf.states s ((pf.states s).setKey idx v) t).direction = (pf.states t).direction := by
  by_cases ht : t = s
  · subst ht
    simp
  · simp [ht]

theorem join_kif (t : StatePtr) :
    ((pf.join table k s idx).states t).kif = (pf.states t).kif := (updated_flow _ t).1

theorem join_sameFlow (t u : StatePtr) :
    SameFlow ((pf.join table k s idx).states t) ((pf.join table k s idx).states u) ↔
      SameFlow (pf.states t) (pf.states u) := by
  simp only [SameFlow, join_states, updated_flow]

theorem join_key (t : StatePtr) (idx' : SkIdx) :
    ((pf.join table k s idx).states t).key idx' =
      if t = s ∧ idx' = idx then some k else (pf.states t).key idx' := updated_key _ t idx'

theorem KeysOk.join (hok : pf.KeysOk) (hslot : pf.Slot s table k)
    (hnone : (pf.states s).key idx = none) : (pf.join table k s idx).KeysOk := by
  have hstates : ∀ q ≠ k, ((pf.join table k s idx).keys q) = pf.keys q := by
    intro q hq
    rw [join_keys, update_of_ne hq]
  have hself : ((pf.join table k s idx).keys k).states = pf.withItem s (pf.keys k).states := by
    rw [join_keys, update_self]
  have hcmp : ∀ q, ((pf.join table k s idx).keys q).cmp = (pf.keys q).cmp := by
    intro q
    by_cases hq : q = k
    · subst hq
      rw [join_keys, update_self]
    · rw [hstates q hq]
  -- a key of the table is the one that has changed or an old one
  have hcases : ∀ {P : KeyPtr → Prop}, P k → (∀ q ∈ pf.statetbl, q ≠ k → P q) →
      ∀ q ∈ (pf.join table k s idx).statetbl, P q := by
    intro P hk hold q hq
    by_cases hqk : q = k
    · exact hqk ▸ hk
    · exact hold q ((hslot.mem_iff.mp hq).resolve_left hqk) hqk
  constructor
  case sorted =>
    exact (hslot.sorted hok).congr fun q _ => (hcmp q).symm
  case nonempty =>
    apply hcases
    · rw [hself]
      exact ne_nil_of_mem (mem_withItem.mpr (.inl rfl))
    · intro q hq hqk
      rw [hstates q hqk]
      exact hok.nonempty q hq
  case attached =>
    intro t idx' q hkey
    rw [join_key] at hkey
    split_ifs at hkey with h
    · cases hkey
      exact hslot.mem_iff.mpr (.inl rfl)
    · exact hslot.mem_iff.mpr (.inr (hok.attached t idx' q hkey))
  case listed =>
    apply hcases
    · intro t
      rw [hself, mem_withItem, hslot.listed hok]
      simp only [join_key]
      constructor
      · rintro (rfl | ⟨idx', hkey⟩)
        · exact ⟨idx, by simp⟩
        · by_cases h : t = s ∧ idx' = idx
          · exact ⟨idx', by rw [if_pos h]⟩
          · exact ⟨idx', by rw [if_neg h]; exact hkey⟩
      · rintro ⟨idx', hkey⟩
        split_ifs at hkey with h
        · exact .inl h.1
        · exact .inr ⟨idx', hkey⟩
    · intro q hq hqk t
      rw [hstates q hqk, hok.listed q hq]
      simp only [join_key]
      constructor
      · rintro ⟨idx', hkey⟩
        refine ⟨idx', ?_⟩
        rw [if_neg]
        · exact hkey
        · rintro ⟨rfl, rfl⟩
          rw [hnone] at hkey
          cases hkey
      · rintro ⟨idx', hkey⟩
        split_ifs at hkey with h
        · exact absurd (Option.some.inj hkey).symm hqk
        · exact ⟨idx', hkey⟩
  case boundFirst =>
    simp only [join_kif]
    apply hcases
    · rw [hself]
      apply pairwise_withItem (hslot.pairwise hok.boundFirst)
      · exact fun hall _ _ _ => hall
      · exact fun hbound _ _ hall => absurd hall hbound
    · intro q hq hqk
      rw [hstates q hqk]
      exact hok.boundFirst q hq
  case apart =>
    simp only [join_sameFlow]
    apply hcases
    · rw [hself]
      apply pairwise_withItem (hslot.pairwise hok.apart)
      · exact fun _ => hslot.apart
      · exact fun _ t ht h => hslot.apart t ht ⟨h.1.symm, h.2.symm⟩
    · intro q hq hqk
      rw [hstates q hqk]
      exact hok.apart q hq

theorem KeysOk.congr {after : Pf} (hok : pf.KeysOk) (htable : after.statetbl = pf.statetbl)
    (hkeys : ∀ k ∈ pf.statetbl, (after.keys k).cmp = (pf.keys k).cmp ∧
      (after.keys k).states = (pf.keys k).states)
    (hkey : ∀ t k, (∃ idx, (after.states t).key idx = some k) ↔
      ∃ idx, (pf.states t).key idx = some k) (hflow : ∀ t idx k, (pf.states t).key idx = some k →
      (after.states t).kif = (pf.states t).kif ∧
        (after.states t).direction = (pf.states t).direction) : after.KeysOk := by
  have hlisted : ∀ k ∈ pf.statetbl, ∀ t ∈ (pf.keys k).states,
      (after.states t).kif = (pf.states t).kif ∧
        (after.states t).direction = (pf.states t).direction := by
    intro k hk t ht
    obtain ⟨idx, hidx⟩ := (hok.listed k hk t).mp ht
    exact hflow t idx k hidx
  constructor
  case sorted =>
    rw [htable]
    exact hok.sorted.congr fun k hk => (hkeys k hk).1.symm
  case nonempty =>
    intro k hk
    rw [htable] at hk
    rw [(hkeys k hk).2]
    exact hok.nonempty k hk
  case attached =>
    intro t idx k h
    obtain ⟨idx', h'⟩ := (hkey t k).mp ⟨idx, h⟩
    rw [htable]
    exact hok.attached t idx' k h'
  case listed =>
    intro k hk t
    rw [htable] at hk
    rw [(hkeys k hk).2, hkey]
    exact hok.listed k hk t
  case boundFirst =>
    intro k hk
    rw [htable] at hk
    rw [(hkeys k hk).2]
    apply List.Pairwise.imp_of_mem _ (hok.boundFirst k hk)
    intro t u ht hu h
    rw [(hlisted k hk t ht).1, (hlisted k hk u hu).1]
    exact h
  case apart =>
    intro k hk
    rw [htable] at hk
    rw [(hkeys k hk).2]
    apply List.Pairwise.imp_of_mem _ (hok.apart k hk)
    intro t u ht hu h
    rw [SameFlow, (hlisted k hk t ht).1, (hlisted k hk u hu).1,
      (hlisted k hk t ht).2, (hlisted k hk u hu).2]
    exact h

/-! ## Taking a key away -/

def restOf (pf : Pf) (s : StatePtr) (k : KeyPtr) : List StatePtr :=
  (pf.keys k).states.erase s

/-- The keys after `s` has left `k`: a key without states is no longer the
reverse of another one. -/
def keysWithout (pf : Pf) (s : StatePtr) (k q : KeyPtr) : StateKey where
  cmp := (pf.keys q).cmp
  states := if q = k then pf.restOf s k else (pf.keys q).states
  reverse :=
    if pf.restOf s k = [] ∧ (pf.keys k).reverse = some q then none
    else (pf.keys q).reverse

theorem removeKey_keys (q : KeyPtr) :
    (pf.removeKey k).keys q =
      { pf.keys q with
        reverse :=
          if (pf.keys k).reverse = some q then none
          else (pf.keys q).reverse } := by
  unfold removeKey
  cases hreverse : (pf.keys k).reverse with
  | none => simp [hreverse]
  | some r =>
    by_cases hq : q = r
    · subst hq
      simp [hreverse]
    · simp [hreverse, hq, Ne.symm hq]

theorem removeKey_eq :
    pf.removeKey k =
      { pf with
        statetbl := pf.statetbl.erase k
        keys := (pf.removeKey k).keys } := by
  unfold removeKey
  cases hreverse : (pf.keys k).reverse <;> simp [hreverse, modifyKey]

theorem stateKeyDetach_eq (hkey : (pf.states s).key idx = some k) :
    pf.stateKeyDetach s idx =
      { pf with
        keys := pf.keysWithout s k
        statetbl :=
          if pf.restOf s k = [] then pf.statetbl.erase k else pf.statetbl
        states := update pf.states s ((pf.states s).setKey idx none) } := by
  let left := pf.modifyKey k fun key => { key with states := pf.restOf s k }
  have hleave : pf.stateKeyDetach s idx =
      (if pf.restOf s k = [] then left.removeKey k else left).setKey s idx
        none := by
    unfold stateKeyDetach
    rw [hkey]
    simp [left, modifyKey, restOf]
  have hkeys : ∀ q, left.keys q =
      { pf.keys q with
        states := if q = k then pf.restOf s k else (pf.keys q).states } := by
    intro q
    by_cases hq : q = k
    · subst hq
      simp [left]
    · simp [left, hq]
  rw [hleave]
  by_cases hrest : pf.restOf s k = []
  · rw [if_pos hrest, if_pos hrest, removeKey_eq]
    refine Pf.ext (funext fun q => ?_) rfl rfl rfl rfl rfl rfl rfl rfl rfl
    refine (removeKey_keys q).trans ?_
    rw [hkeys, hkeys]
    simp [keysWithout, hrest]
  · rw [if_neg hrest, if_neg hrest]
    refine Pf.ext (funext fun q => ?_) rfl rfl rfl rfl rfl rfl rfl rfl rfl
    refine (hkeys q).trans ?_
    simp [keysWithout, hrest]

theorem stateKeyDetach_none (hkey : (pf.states s).key idx = none) :
    pf.stateKeyDetach s idx = pf := by
  unfold stateKeyDetach
  rw [hkey]

end Pf

section

variable (hok : pf.KeysOk)
include hok

theorem Pf.KeysOk.nodup (hk : k ∈ pf.statetbl) : (pf.keys k).states.Nodup := by
  apply (hok.apart k hk).imp
  rintro t u h rfl
  exact h (.refl _)

theorem Pf.KeysOk.detach (hkey : (pf.states s).key idx = some k)
    (hother : ∀ idx', idx' ≠ idx → (pf.states s).key idx' ≠ some k) :
    (pf.stateKeyDetach s idx).KeysOk := by
  have hk := hok.attached s idx k hkey
  have hmem : ∀ t, t ∈ pf.restOf s k ↔ t ≠ s ∧ t ∈ (pf.keys k).states :=
    fun t => (hok.nodup hk).mem_erase_iff
  have hsub : ∀ q, (pf.keysWithout s k q).states.Sublist (pf.keys q).states := by
    intro q
    unfold keysWithout
    split
    · next h => exact h ▸ erase_sublist
    · exact .refl _
  have htable : ∀ q ∈ (pf.stateKeyDetach s idx).statetbl,
      q ∈ pf.statetbl ∧ (q = k → pf.restOf s k ≠ []) := by
    intro q hq
    rw [stateKeyDetach_eq hkey] at hq
    split_ifs at hq with hrest
    · rw [hok.sorted.nodup.mem_erase_iff] at hq
      exact ⟨hq.2, fun h => absurd h hq.1⟩
    · exact ⟨hq, fun _ => hrest⟩
  rw [stateKeyDetach_eq hkey] at htable ⊢
  constructor
  case sorted =>
    split_ifs
    · exact hok.sorted.erase k
    · exact hok.sorted
  case nonempty =>
    intro q hq
    dsimp only [keysWithout]
    split_ifs with h
    · exact (htable q hq).2 h
    · exact hok.nonempty q (htable q hq).1
  case attached =>
    intro t idx' q h
    rw [updated_key] at h
    split_ifs at h with hself
    have hq := hok.attached t idx' q h
    split_ifs with hrest
    · -- the key is kept by another state
      rw [hok.sorted.nodup.mem_erase_iff]
      refine ⟨?_, hq⟩
      rintro rfl
      have ht := (hok.listed q hk t).mpr ⟨idx', h⟩
      by_cases hts : t = s
      · rw [hts] at h hself
        exact hother idx' (fun heq => hself ⟨rfl, heq⟩) h
      · have hrest' := (hmem t).mpr ⟨hts, ht⟩
        rw [hrest] at hrest'
        cases hrest'
    · exact hq
  case listed =>
    intro q hq t
    have hq' := (htable q hq).1
    simp only [updated_key, keysWithout]
    by_cases hqk : q = k
    · rw [if_pos hqk, hmem, ← hqk, hok.listed q hq']
      constructor
      · rintro ⟨hts, idx', h⟩
        exact ⟨idx', by rw [if_neg fun hself => hts hself.1]; exact h⟩
      · rintro ⟨idx', h⟩
        split_ifs at h with hself
        refine ⟨?_, idx', h⟩
        rintro rfl
        exact hother idx' (fun heq => hself ⟨rfl, heq⟩) (hqk ▸ h)
    · rw [if_neg hqk, hok.listed q hq']
      constructor
      · rintro ⟨idx', h⟩
        refine ⟨idx', ?_⟩
        rw [if_neg]
        · exact h
        · rintro ⟨rfl, rfl⟩
          rw [hkey] at h
          exact hqk (Option.some.inj h).symm
      · rintro ⟨idx', h⟩
        split_ifs at h
        exact ⟨idx', h⟩
  case boundFirst =>
    intro q hq
    simp only [(updated_flow _ _).1]
    exact (hok.boundFirst q (htable q hq).1).sublist (hsub q)
  case apart =>
    intro q hq
    simp only [SameFlow, (updated_flow _ _).1, (updated_flow _ _).2]
    exact (hok.apart q (htable q hq).1).sublist (hsub q)

theorem Pf.Slot.restored (hslot : pf.Slot s table k) (after : Pf)
    (hcmp : ∀ q, (after.keys q).cmp = (pf.keys q).cmp)
    (hreverse : ∀ q, (after.keys q).reverse = (pf.keys q).reverse)
    (hstates : ∀ q, q ≠ k → (after.keys q).states = (pf.keys q).states)
    (hrest : after.restOf s k = (pf.keys k).states) (htable : after.statetbl = table) :
    after.keysWithout s k = pf.keys ∧ (if after.restOf s k = [] then after.statetbl.erase k
        else after.statetbl) = pf.statetbl := by
  -- a key that is removed has no reverse
  have hplain : ∀ q, ¬ (after.restOf s k = [] ∧ (after.keys k).reverse = some q) := by
    rintro q ⟨hempty, hq⟩
    rw [hrest] at hempty
    rw [hreverse] at hq
    cases hslot with
    | found hmem => exact hok.nonempty k hmem hempty
    | placed hfresh _ =>
      rw [hfresh.reverse] at hq
      cases hq
  constructor
  · funext q
    apply StateKey.ext
    · exact hcmp q
    · simp only [keysWithout]
      split_ifs with hq
      · rw [hrest, hq]
      · exact hstates q hq
    · simp only [keysWithout]
      rw [if_neg (hplain q)]
      exact hreverse q
  · rw [hrest, htable]
    cases hslot with
    | found hmem => rw [if_neg (hok.nonempty k hmem)]
    | placed hfresh _ =>
      rw [if_pos hfresh.states]
      exact erase_place hfresh.not_mem

theorem Pf.Slot.detach (hslot : pf.Slot s table k) (after : Pf) (idx : SkIdx)
    (hkeys : after.keys = (pf.join table k s idx).keys) (htable : after.statetbl = table)
    (hkey : (after.states s).key idx = some k) :
    after.stateKeyDetach s idx =
      { after with
        keys := pf.keys
        statetbl := pf.statetbl
        states := update after.states s ((after.states s).setKey idx none) } := by
  have hself : after.keys k =
      { pf.keys k with states := pf.withItem s (pf.keys k).states } := by
    rw [hkeys, join_keys, update_self]
  have hother : ∀ q, q ≠ k → after.keys q = pf.keys q := by
    intro q hq
    rw [hkeys, join_keys, update_of_ne hq]
  have hrestored := hslot.restored hok after (fun q => by
      by_cases hq : q = k
      · rw [hq, hself]
      · rw [hother q hq])
    (fun q => by
      by_cases hq : q = k
      · rw [hq, hself]
      · rw [hother q hq])
    (fun q hq => by rw [hother q hq])
    (by rw [restOf, hself]; exact withItem_erase hslot.not_mem) htable
  rw [stateKeyDetach_eq hkey, hrestored.1, hrestored.2]

/-! ## Attaching keys -/

theorem Pf.stateKeyAttach_cases {sk : KeyPtr} (hfresh : pf.FreshKey sk) (item : Bool) :
    pf.stateKeyAttach sk s idx item = (pf, false) ∨ ∃ table k, pf.Slot s table k ∧
        pf.stateKeyAttach sk s idx item =
          { pf with statetbl := table }.addItem k s idx item ∧
        (k = sk ∨ k ∈ pf.statetbl) := by
  unfold stateKeyAttach
  cases hfind : pf.findKey (pf.keys sk).cmp with
  | none =>
    exact .inr ⟨_, sk, .placed hfresh hfind, rfl, .inl rfl⟩
  | some cur =>
    have hcur := (hok.sorted.find_eq_some.mp hfind).1
    dsimp only
    split
    next => exact .inl rfl
    next hany =>
      refine .inr ⟨pf.statetbl, cur, .found hcur ?_, rfl, .inr hcur⟩
      intro other hother hflow
      apply hany
      rw [any_eq_true]
      exact ⟨other, hother, by simp [hflow.1, hflow.2]⟩

theorem Pf.addItem_false (hslot : pf.Slot s table k) (hnone : (pf.states s).key idx = none) :
    { pf with statetbl := table }.addItem k s idx false = (pf, false) := by
  let half := { pf with statetbl := table }.setKey s idx (some k)
  have hkey : (half.states s).key idx = some k := by
    simp [half, setKey, key_setKey]
  have hrest : half.restOf s k = (pf.keys k).states := erase_of_not_mem hslot.not_mem
  have hstates : update half.states s ((half.states s).setKey idx none) = pf.states := by
    funext t
    by_cases ht : t = s
    · subst ht
      simp [half, setKey, setKey_setKey, setKey_self, hnone]
    · simp [half, setKey, ht]
  have hrestored := hslot.restored hok half (fun _ => rfl) (fun _ => rfl) (fun _ _ => rfl) hrest rfl
  have hdetach := stateKeyDetach_eq hkey
  rw [hrestored.1, hrestored.2, hstates] at hdetach
  exact congrArg (·, false) hdetach

theorem Pf.stateKeyAttach_spec {sk : KeyPtr} (hfresh : pf.FreshKey sk)
    (hnone : (pf.states s).key idx = none) (item : Bool) :
    pf.stateKeyAttach sk s idx item = (pf, false) ∨
      ∃ table k, pf.Slot s table k ∧ (k = sk ∨ k ∈ pf.statetbl) ∧
        pf.stateKeyAttach sk s idx item = (pf.join table k s idx, true) := by
  rcases stateKeyAttach_cases hok hfresh item with h | ⟨table, k, hslot, h, hk⟩
  · exact .inl h
  · cases item with
    | false => exact .inl (h.trans (addItem_false hok hslot hnone))
    | true => exact .inr ⟨table, k, hslot, hk, h⟩

end

end Keys

/-- What `pf_state_insert` makes of the keys: the state joins one key for both
sides or one key after the other. -/
inductive Pf.Attached (pf : Pf) (s : StatePtr) : Pf → Prop
  | same {table : List KeyPtr} {k : KeyPtr} (hslot : pf.Slot s table k) :
      Attached pf s ((pf.join table k s .wire).setKey s .stack (some k))
  | both {wireTable stackTable : List KeyPtr} {kw ks : KeyPtr}
      (hwire : pf.Slot s wireTable kw)
      (hstack : (pf.join wireTable kw s .wire).Slot s stackTable ks) :
      Attached pf s ((pf.join wireTable kw s .wire).join stackTable ks s .stack)

section Insert

variable {pf joined : Pf} {s : StatePtr}

theorem Pf.FreshKey.join {sk k : KeyPtr} {table : List KeyPtr} {idx : SkIdx}
    (hfresh : pf.FreshKey sk) (hslot : pf.Slot s table k) (hne : sk ≠ k) :
    (pf.join table k s idx).FreshKey sk := by
  have hkeys : (pf.join table k s idx).keys sk = pf.keys sk := by
    rw [join_keys, update_of_ne hne]
  constructor
  · intro hmem
    rcases hslot.mem_iff.mp hmem with h | h
    · exact hne h
    · exact hfresh.not_mem h
  · rw [hkeys]
    exact hfresh.states
  · rw [hkeys]
    exact hfresh.reverse

theorem Pf.join_detach {table : List KeyPtr} {k : KeyPtr} {idx : SkIdx} (hok : pf.KeysOk)
    (hslot : pf.Slot s table k) (hnone : (pf.states s).key idx = none) :
    (pf.join table k s idx).stateKeyDetach s idx = pf := by
  have hkey : ((pf.join table k s idx).states s).key idx = some k := by
    simp [join_key]
  rw [hslot.detach hok _ idx rfl rfl hkey]
  refine Pf.ext rfl rfl ?_ rfl rfl rfl rfl rfl rfl rfl
  rw [join_states, update_idem, update_self, setKey_setKey, setKey_self _ _ _ hnone, update_eq_self]

theorem Pf.attachKeys_spec (hok : pf.KeysOk) {skw sks : KeyPtr} (hwire : pf.FreshKey skw)
    (hstack : pf.FreshKey sks) (hnone : ∀ idx, (pf.states s).key idx = none) (items : Bool × Bool) :
    pf.attachKeys skw sks s items = (pf, false) ∨
      ∃ joined, pf.Attached s joined ∧ pf.attachKeys skw sks s items = (joined, true) := by
  unfold attachKeys
  rcases stateKeyAttach_spec hok hwire (hnone .wire) items.1 with
    h | ⟨table, k, hslot, hk, h⟩
  · rw [h]
    exact .inl rfl
  · rw [h]
    have hwireKey : ((pf.join table k s .wire).states s).wire = some k := by
      simp [join_states, PfState.setKey]
    by_cases hsame : skw = sks
    · simp only [hsame, hwireKey]
      exact .inr ⟨_, .same hslot, rfl⟩
    · have hne : sks ≠ k := by
        rintro rfl
        rcases hk with rfl | hk
        · exact hsame rfl
        · exact hstack.not_mem hk
      have hjoin := hok.join hslot (hnone .wire)
      have hstackNone : ((pf.join table k s .wire).states s).key .stack = none := by
        rw [join_key, if_neg (by simp)]
        exact hnone .stack
      simp only [hsame, if_false]
      rcases stateKeyAttach_spec hjoin (hstack.join hslot hne) hstackNone
          items.2 with h' | ⟨table', k', hslot', _, h'⟩
      · rw [h']
        rw [join_detach hok hslot (hnone .wire)]
        exact .inl rfl
      · rw [h']
        exact .inr ⟨_, .both hslot hslot', rfl⟩

theorem Pf.KeysOk.setState (hok : pf.KeysOk) (st : PfState)
    (hkey : ∀ q, (∃ idx, st.key idx = some q) ↔ ∃ idx, (pf.states s).key idx = some q)
    (hkif : st.kif = (pf.states s).kif) (hdirection : st.direction = (pf.states s).direction) :
    { pf with states := update pf.states s st }.KeysOk := by
  refine hok.congr rfl (fun _ _ => ⟨rfl, rfl⟩) ?_ ?_
  · intro t q
    by_cases ht : t = s
    · subst ht
      simpa using hkey q
    · simp [ht]
  · intro t _ _ _
    by_cases ht : t = s
    · subst ht
      simp [hkif, hdirection]
    · simp [ht]

section

variable (hattached : pf.Attached s joined)
include hattached

theorem Pf.Attached.keysOk (hok : pf.KeysOk)
    (hnone : ∀ idx, (pf.states s).key idx = none) : joined.KeysOk := by
  cases hattached with
  | @same table k hslot =>
    have hwire : ((pf.join table k s .wire).states s).wire = some k := by
      simp [join_states, PfState.setKey]
    have hstack : ((pf.join table k s .wire).states s).stack = none := by
      simpa [join_states, PfState.setKey, PfState.key] using hnone .stack
    refine (hok.join hslot (hnone .wire)).setState _ (fun q => ?_) rfl rfl
    constructor
    · rintro ⟨_ | _, h⟩
      · exact ⟨.wire, h⟩
      · exact ⟨.wire, hwire.trans h⟩
    · rintro ⟨_ | _, h⟩
      · exact ⟨.wire, h⟩
      · cases hstack.symm.trans h
  | both hwire hstack =>
    apply (hok.join hwire (hnone .wire)).join hstack
    rw [join_key, if_neg (by simp)]
    exact hnone .stack

theorem Pf.Attached.eq :
    ∃ kw ks, joined =
      { pf with
        keys := joined.keys
        statetbl := joined.statetbl
        states := update pf.states s
          (((pf.states s).setKey .wire (some kw)).setKey .stack (some ks)) } := by
  cases hattached with
  | @same table k hslot =>
    refine ⟨k, k, Pf.ext rfl rfl ?_ rfl rfl rfl rfl rfl rfl rfl⟩
    simp [setKey, modifyState, join_states]
  | @both _ _ kw ks hwire hstack =>
    refine ⟨kw, ks, Pf.ext rfl rfl ?_ rfl rfl rfl rfl rfl rfl rfl⟩
    rw [join_states, join_states, update_idem, update_self]

theorem Pf.Attached.detachState (hok : pf.KeysOk) (hnone : ∀ idx, (pf.states s).key idx = none)
    (after : Pf) (hkeys : after.keys = joined.keys) (htable : after.statetbl = joined.statetbl)
    (hkey : ∀ idx, (after.states s).key idx = (joined.states s).key idx) :
    after.detachState s =
      { after with
        keys := pf.keys
        statetbl := pf.statetbl
        states := update after.states s
          (((after.states s).setKey .wire none).setKey .stack none) } := by
  unfold Pf.detachState
  cases hattached with
  | @same table k hslot =>
    have hwire : (after.states s).wire = some k := by
      refine (hkey .wire).trans ?_
      simp [Pf.setKey, PfState.key_setKey, join_key]
    have hstack : (after.states s).stack = some k := by
      refine (hkey .stack).trans ?_
      simp [Pf.setKey, PfState.key_setKey]
    rw [if_pos (hwire.trans hstack.symm)]
    have hdetach := hslot.detach hok (after.setKey s .wire none) .stack
      (hkeys.trans (join_keys.trans join_keys.symm)) htable
      (by simp [Pf.setKey, PfState.setKey, PfState.key, hstack])
    dsimp only
    rw [hdetach, stateKeyDetach_none]
    · refine Pf.ext rfl rfl ?_ rfl rfl rfl rfl rfl rfl rfl
      simp [Pf.setKey, modifyState]
    · simp [Pf.setKey, PfState.key_setKey]
  | @both wireTable stackTable kw ks hslotW hslotS =>
    have hwire : (after.states s).wire = some kw := by
      refine (hkey .wire).trans ?_
      simp [join_key]
    have hstack : (after.states s).stack = some ks := by
      refine (hkey .stack).trans ?_
      simp [join_key]
    have hne : kw ≠ ks := by
      rintro rfl
      apply hslotS.not_mem
      rw [join_keys, update_self]
      exact mem_withItem.mpr (.inl rfl)
    rw [if_neg (by rw [hwire, hstack]; exact fun h => hne (Option.some.inj h))]
    have hdetach := hslotS.detach (hok.join hslotW (hnone .wire)) after .stack hkeys htable hstack
    dsimp only
    rw [hdetach]
    let left : Pf :=
      { after with
        keys := (pf.join wireTable kw s .wire).keys
        statetbl := (pf.join wireTable kw s .wire).statetbl
        states := update after.states s ((after.states s).setKey .stack none) }
    refine (hslotW.detach hok left .wire rfl rfl ?_).trans ?_
    · simp [left, PfState.setKey, PfState.key, hwire]
    · refine Pf.ext rfl rfl ?_ rfl rfl rfl rfl rfl rfl rfl
      simp [left, PfState.setKey]

end

theorem Pf.nameState_eq (pf : Pf) (order : ByteOrder) (s : StatePtr) :
    ∃ st stateid, pf.nameState order s =
        { pf with
          states := update pf.states s st
          status := { pf.status with stateid := stateid } } ∧
      (∀ idx, st.key idx = (pf.states s).key idx) ∧
      st.kif = (pf.states s).kif ∧ st.direction = (pf.states s).direction ∧
      st.timeout = (pf.states s).timeout := by
  unfold nameState
  split
  · refine ⟨_, _, rfl, fun idx => ?_, rfl, rfl, rfl⟩
    cases idx <;> rfl
  · refine ⟨pf.states s, pf.status.stateid, ?_, fun _ => rfl, rfl, rfl, rfl⟩
    rw [update_eq_self]

/-- A state that could not be inserted has no keys, and apart from it and from
the identifier that may have been used up nothing has changed. -/
def Pf.Refused (pf : Pf) (s : StatePtr) (after : Pf) : Prop :=
  ∃ st stateid, (∀ idx, st.key idx = none) ∧
    after =
      { pf with
        states := Function.update pf.states s st
        status := { pf.status with stateid := stateid } }

/-- A state that has been inserted has its keys, a name that no other one has
and a place at the end of the list. -/
def Pf.Inserted (pf : Pf) (s : StatePtr) (after : Pf) : Prop :=
  ∃ joined st stateid, pf.Attached s joined ∧
    (∀ idx, st.key idx = (joined.states s).key idx) ∧
    st.kif = (joined.states s).kif ∧
    st.direction = (joined.states s).direction ∧
    st.timeout = (joined.states s).timeout ∧
    Tables.find pfStateCompareId (Function.update joined.states s st) st joined.treeId = none ∧
    after =
      { joined with
        states := Function.update joined.states s st
        treeId := Tables.place pfStateCompareId (Function.update joined.states s st) s joined.treeId
        stateList := joined.stateList ++ [s]
        status :=
          { joined.status with
            stateid := stateid
            states := joined.status.states + 1 } }

theorem Pf.stateInsert_spec {skw sks : KeyPtr} (order : ByteOrder) (kif : Kif) (items : Bool × Bool)
    (hok : (pf.modifyState s fun st => { st with kif := kif }).KeysOk) (hwire : pf.FreshKey skw)
    (hstack : pf.FreshKey sks) (hnone : ∀ idx, (pf.states s).key idx = none) :
    (∃ after, pf.stateInsert order kif skw sks s items = (after, false) ∧ pf.Refused s after) ∨
    ∃ after, pf.stateInsert order kif skw sks s items = (after, true) ∧
      (pf.modifyState s fun st => { st with kif := kif }).Inserted s after := by
  let bound := pf.modifyState s fun st => { st with kif := kif }
  have hbound : ∀ idx, (bound.states s).key idx = none := by
    intro idx
    have hidx := hnone idx
    cases idx <;> simpa [bound, key] using hidx
  unfold stateInsert
  rcases attachKeys_spec (show bound.KeysOk from hok) { hwire with }
      { hstack with } hbound items with
    h | ⟨joined, hattached, h⟩
  · refine .inl ⟨bound, ?_, bound.states s, pf.status.stateid, hbound, ?_⟩
    · dsimp only
      rw [h]
      rfl
    · simp [bound, modifyState]
  · obtain ⟨st, stateid, hname, hkey, hkif, hdirection, htimeout⟩ := nameState_eq joined order s
    have hself : update joined.states s st s = st := by simp
    dsimp only
    rw [h]
    simp only [hname, hself]
    cases hfind : find pfStateCompareId (update joined.states s st) st joined.treeId with
    | none =>
      exact .inr ⟨_, rfl, joined, st, stateid, hattached, hkey, hkif,
        hdirection, htimeout, hfind, rfl⟩
    | some other =>
      let named : Pf :=
        { joined with
          states := update joined.states s st
          status := { joined.status with stateid := stateid } }
      have hdetach := hattached.detachState hok hbound named rfl rfl (by
        simpa [named] using hkey)
      obtain ⟨kw, ks, hjoined⟩ := hattached.eq
      refine .inl ⟨_, rfl, (st.setKey .wire none).setKey .stack none, stateid, ?_, hdetach.trans ?_⟩
      · intro idx
        cases idx <;> rfl
      · dsimp only [named]
        rw [hjoined]
        refine Pf.ext rfl rfl ?_ rfl rfl rfl rfl rfl rfl rfl
        simp [bound, modifyState]

end Insert

/-! ## Taking all keys away -/

section Detach

variable {pf : Pf} {s : StatePtr}

theorem Pf.stateKeyDetach_frame (pf : Pf) (s : StatePtr) (idx : SkIdx) :
    ∃ keys table, pf.stateKeyDetach s idx =
      { pf with
        keys := keys
        statetbl := table
        states := update pf.states s ((pf.states s).setKey idx none) } := by
  cases hkey : (pf.states s).key idx with
  | some k => exact ⟨_, _, stateKeyDetach_eq hkey⟩
  | none =>
    refine ⟨pf.keys, pf.statetbl, ?_⟩
    rw [setKey_self _ _ _ hkey, update_eq_self, stateKeyDetach_none hkey]

theorem Pf.KeysOk.stateKeyDetach {idx : SkIdx} (hok : pf.KeysOk) (hother : ∀ idx', idx' ≠ idx →
      (pf.states s).key idx' = none ∨ (pf.states s).key idx' ≠ (pf.states s).key idx) :
    (pf.stateKeyDetach s idx).KeysOk := by
  cases hkey : (pf.states s).key idx with
  | some k =>
    apply hok.detach hkey
    intro idx' hidx h
    rcases hother idx' hidx with hnone | hne
    · rw [hnone] at h
      cases h
    · exact hne (h.trans hkey.symm)
  | none => exact (stateKeyDetach_none hkey).symm ▸ hok

theorem Pf.KeysOk.forget (hok : pf.KeysOk) (hsame : (pf.states s).wire = (pf.states s).stack) :
    (pf.setKey s .wire none).KeysOk := by
  refine hok.setState _ (fun q => ?_) rfl rfl
  constructor
  · rintro ⟨_ | _, h⟩
    · cases h
    · exact ⟨.stack, h⟩
  · rintro ⟨_ | _, h⟩
    · exact ⟨.stack, hsame.symm.trans h⟩
    · exact ⟨.stack, h⟩

theorem Pf.detachState_eq (pf : Pf) (s : StatePtr) :
    pf.detachState s =
      if (pf.states s).wire = (pf.states s).stack then
        (pf.setKey s .wire none).stateKeyDetach s .stack
      else (pf.stateKeyDetach s .stack).stateKeyDetach s .wire := by
  unfold detachState
  split
  · obtain ⟨keys, table, hframe⟩ := (pf.setKey s .wire none).stateKeyDetach_frame s .stack
    apply stateKeyDetach_none
    rw [hframe]
    simp [setKey, key_setKey]
  · rfl

theorem Pf.KeysOk.detachStack (hok : pf.KeysOk)
    (hne : (pf.states s).wire ≠ (pf.states s).stack) : (pf.stateKeyDetach s .stack).KeysOk := by
  apply hok.stateKeyDetach
  intro idx hidx
  cases idx with
  | wire => exact .inr hne
  | stack => exact absurd rfl hidx

theorem Pf.detachState_spec (s : StatePtr) (hok : pf.KeysOk) :
    (pf.detachState s).KeysOk ∧ ∃ keys table, pf.detachState s =
      { pf with
        keys := keys
        statetbl := table
        states := update pf.states s (((pf.states s).setKey .wire none).setKey .stack none) } := by
  rw [detachState_eq]
  split
  next hsame =>
    obtain ⟨keys, table, hframe⟩ := (pf.setKey s .wire none).stateKeyDetach_frame s .stack
    constructor
    · apply (hok.forget hsame).stateKeyDetach
      intro idx hidx
      cases idx with
      | wire => exact .inl (by simp [setKey, PfState.key_setKey])
      | stack => exact absurd rfl hidx
    · refine ⟨keys, table, hframe.trans ?_⟩
      refine Pf.ext rfl rfl ?_ rfl rfl rfl rfl rfl rfl rfl
      simp [setKey, modifyState]
  next hne =>
    obtain ⟨keys, table, hframe⟩ := pf.stateKeyDetach_frame s .stack
    obtain ⟨keys', table', hframe'⟩ := (pf.stateKeyDetach s .stack).stateKeyDetach_frame s .wire
    constructor
    · apply (hok.detachStack hne).stateKeyDetach
      intro idx hidx
      cases idx with
      | wire => exact absurd rfl hidx
      | stack =>
        rw [hframe]
        exact .inl (by simp [PfState.key_setKey])
    · refine ⟨keys', table', hframe'.trans ?_⟩
      rw [hframe]
      refine Pf.ext rfl rfl ?_ rfl rfl rfl rfl rfl rfl rfl
      simp [PfState.setKey]

end Detach

end AerieKernel.PacketFilter
