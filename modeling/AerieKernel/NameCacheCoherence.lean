import AerieKernel.NameCacheModel

/-!
# Hits of the name cache

A hit is the first slot of a name on its chain.  The slots of one name stand on the chain
in the opposite order of the LRU list, so the slot of the last `cache_enter` is found as
long as any of them is there.
-/

namespace AerieKernel.NameCache

open Function List Cache Nat

variable {cfg : Config} {c c' : Cache} {i j d : ℕ} {n : Name}

def Cache.SameName (c : Cache) (i j : ℕ) : Prop :=
  (c.entry i).dvp = (c.entry j).dvp ∧ (c.entry i).dvpid = (c.entry j).dvpid ∧
    (c.entry i).name = (c.entry j).name

structure Linked (cfg : Config) (c : Cache) : Prop where
  lru : c.lru.Nodup
  chains : ∀ b, (c.chain b).Nodup
  mem_chain : ∀ b i, i ∈ c.chain b ↔ (c.entry i).hashed = some b
  listed : ∀ i b, (c.entry i).hashed = some b → i ∈ c.lru
  allocated : ∀ i ∈ c.lru, i < c.numcache
  placed : ∀ i b, (c.entry i).hashed = some b → b = cfg.nchash (c.entry i).dvpid (c.entry i).name
  dvpid : ∀ i b, (c.entry i).hashed = some b → (c.entry i).dvpid ≤ c.nextvnodeid
  vpid : ∀ i b v, (c.entry i).hashed = some b → (c.entry i).vp = some v →
    (c.entry i).vpid ≤ c.nextvnodeid
  vid : ∀ v, c.vid v ≤ c.nextvnodeid
  ordered : ∀ b, (c.chain b).Pairwise fun i j => c.SameName i j → [j, i].Sublist c.lru

def Cache.Agrees (c : Cache) (i : ℕ) (target : Option (Option ℕ)) : Prop :=
  ((c.entry i).vp = none → target = some none) ∧
    ∀ v, (c.entry i).vp = some v → (c.entry i).vpid = c.vid v → target = some (some v)

def Cached (cfg : Config) (n : Name) : Prop :=
  cfg.doingcache = true ∧ n.length ≤ nchnamlen

structure Inv (cfg : Config) (sys : System) : Prop where
  linked : Linked cfg sys.cache
  first : ∀ d n i, Cached cfg n → sys.cache.search cfg d n = some i →
    sys.cache.Agrees i (sys.latest d n)

theorem isFor_iff : c.isFor d n i = true ↔
    (c.entry i).dvp = some d ∧ (c.entry i).dvpid = c.vid d ∧ (c.entry i).name = n := by
  rw [isFor, decide_eq_true_eq]

theorem Linked.hashed_of_search (h : Linked cfg c) (hsearch : c.search cfg d n = some i) :
    (c.entry i).hashed = some (cfg.nchash (c.vid d) n) :=
  (h.mem_chain _ i).mp (mem_of_find?_eq_some hsearch)

/-! ## Slots that leave their chains -/

structure Dropped (c c' : Cache) (gone : ℕ → Bool) : Prop where
  kept : ∀ j, gone j = false → c'.entry j = c.entry j
  off : ∀ j, gone j = true → (c'.entry j).hashed = none
  chain : ∀ b, c'.chain b = (c.chain b).filter fun j => !gone j
  vid : c'.vid = c.vid
  nextvnodeid : c'.nextvnodeid = c.nextvnodeid
  numcache : c.numcache ≤ c'.numcache

variable {gone : ℕ → Bool}

theorem Dropped.hashed (hdrop : Dropped c c' gone) {b : ℕ} (hb : (c'.entry j).hashed = some b) :
    gone j = false ∧ c'.entry j = c.entry j ∧ (c.entry j).hashed = some b := by
  cases hgone : gone j with
  | true =>
    rw [hdrop.off j hgone] at hb
    cases hb
  | false =>
    have hsame := hdrop.kept j hgone
    rw [hsame] at hb
    exact ⟨rfl, hsame, hb⟩

theorem Dropped.trans {c₂ : Cache} {gone' : ℕ → Bool} (h : Dropped c c' gone)
    (h' : Dropped c' c₂ gone') : Dropped c c₂ fun j => gone j || gone' j where
  kept := by
    intro j hj
    rw [Bool.or_eq_false_iff] at hj
    rw [h'.kept j hj.2, h.kept j hj.1]
  off := by
    intro j hj
    cases hgone' : gone' j with
    | true => exact h'.off j hgone'
    | false =>
      rw [hgone', Bool.or_false] at hj
      rw [h'.kept j hgone', h.off j hj]
  chain := by
    intro b
    rw [h'.chain, h.chain, filter_filter]
    congr 1
    funext j
    cases gone j <;> cases gone' j <;> rfl
  vid := h'.vid.trans h.vid
  nextvnodeid := h'.nextvnodeid.trans h.nextvnodeid
  numcache := h.numcache.trans h'.numcache

theorem Linked.drop (h : Linked cfg c) (hdrop : Dropped c c' gone)
    (hnodup : c'.lru.Nodup) (hsub : ∀ j ∈ c'.lru, j ∈ c.lru)
    (hmem : ∀ j, gone j = false → j ∈ c.lru → j ∈ c'.lru)
    (horder : ∀ j k, gone j = false → gone k = false → [j, k].Sublist c.lru →
      [j, k].Sublist c'.lru) : Linked cfg c' where
  lru := hnodup
  chains := by
    intro b
    rw [hdrop.chain]
    exact (h.chains b).filter _
  mem_chain := by
    intro b i
    rw [hdrop.chain, mem_filter, h.mem_chain]
    constructor
    · rintro ⟨hb, hgone⟩
      rw [hdrop.kept i (by simpa using hgone), hb]
    · intro hb
      obtain ⟨hgone, -, hb'⟩ := hdrop.hashed hb
      exact ⟨hb', by simp [hgone]⟩
  listed := by
    intro i b hb
    obtain ⟨hgone, -, hb'⟩ := hdrop.hashed hb
    exact hmem i hgone (h.listed i b hb')
  allocated := by
    intro i hi
    exact (h.allocated i (hsub i hi)).trans_le hdrop.numcache
  placed := by
    intro i b hb
    obtain ⟨-, hsame, hb'⟩ := hdrop.hashed hb
    rw [hsame]
    exact h.placed i b hb'
  dvpid := by
    intro i b hb
    obtain ⟨-, hsame, hb'⟩ := hdrop.hashed hb
    rw [hsame, hdrop.nextvnodeid]
    exact h.dvpid i b hb'
  vpid := by
    intro i b v hb hv
    obtain ⟨-, hsame, hb'⟩ := hdrop.hashed hb
    rw [hsame] at hv ⊢
    rw [hdrop.nextvnodeid]
    exact h.vpid i b v hb' hv
  vid := by
    intro v
    rw [hdrop.vid, hdrop.nextvnodeid]
    exact h.vid v
  ordered := by
    intro b
    rw [hdrop.chain, pairwise_filter]
    apply (h.ordered b).imp
    intro i j hpair hi hj hname
    rw [Bool.not_eq_true'] at hi hj
    apply horder j i hj hi
    apply hpair
    unfold Cache.SameName at hname ⊢
    rwa [hdrop.kept i hi, hdrop.kept j hj] at hname

section

variable (hdrop : Dropped c c' gone)
include hdrop

theorem Dropped.isFor (hj : gone j = false) : c'.isFor d n j = c.isFor d n j := by
  unfold Cache.isFor
  rw [hdrop.kept j hj, hdrop.vid]

theorem Dropped.search :
    c'.search cfg d n =
      (c.chain (cfg.nchash (c.vid d) n)).find? fun j => !gone j && c.isFor d n j := by
  rw [Cache.search, hdrop.vid, hdrop.chain, find?_filter]
  congr 1
  funext j
  cases hj : gone j with
  | true => rfl
  | false => simp [hdrop.isFor hj]

theorem Dropped.search_kept (hfirst : ∀ i, c.search cfg d n = some i → gone i = false) :
    c'.search cfg d n = c.search cfg d n := by
  rw [hdrop.search]
  cases hsearch : c.search cfg d n with
  | none =>
    rw [Cache.search, find?_eq_none] at hsearch
    rw [find?_eq_none]
    intro j hj
    simp [hsearch j hj]
  | some i =>
    have hi := hfirst i hsearch
    rw [Cache.search, find?_eq_some_iff_append] at hsearch
    obtain ⟨hfor, before, after, hchain, hbefore⟩ := hsearch
    rw [find?_eq_some_iff_append]
    refine ⟨by simp [hi, hfor], before, after, hchain, ?_⟩
    intro j hj
    have hnot := hbefore j hj
    simp [hnot]

theorem Dropped.search_gone
    (hall : ∀ i ∈ c.chain (cfg.nchash (c.vid d) n), c.isFor d n i = true → gone i = true) :
    c'.search cfg d n = none := by
  rw [hdrop.search, find?_eq_none]
  intro i hi htrue
  rw [Bool.and_eq_true] at htrue
  rw [hall i hi htrue.2] at htrue
  cases htrue.1

theorem Dropped.agrees {target : Option (Option ℕ)} (hi : gone i = false) (h : c.Agrees i target) :
    c'.Agrees i target := by
  unfold Cache.Agrees at h ⊢
  rwa [hdrop.kept i hi, hdrop.vid]

end

/-! ## One slot -/

theorem dropped_unhash (h : Linked cfg c) (i : ℕ) (lru : List ℕ) :
    Dropped c { c.unhash i with lru } fun j => j == i := by
  unfold unhash
  cases hhashed : (c.entry i).hashed with
  | none =>
    refine ⟨fun _ _ => rfl, ?_, ?_, rfl, rfl, le_rfl⟩
    · intro j hj
      rw [beq_iff_eq] at hj
      rw [hj]
      exact hhashed
    · intro b
      refine (filter_eq_self.mpr ?_).symm
      intro j hj
      rw [Bool.not_eq_true', beq_eq_false_iff_ne]
      rintro rfl
      rw [h.mem_chain, hhashed] at hj
      cases hj
  | some b =>
    refine ⟨?_, ?_, ?_, rfl, rfl, le_rfl⟩
    · intro j hj
      rw [beq_eq_false_iff_ne] at hj
      exact update_of_ne hj _ _
    · intro j hj
      rw [beq_iff_eq] at hj
      rw [hj]
      show (update c.entry i _ i).hashed = none
      rw [update_self]
    · intro b'
      show update c.chain b _ b' = _
      by_cases hb : b' = b
      · rw [hb, update_self, (h.chains b).erase_eq_filter]
        rfl
      · rw [update_of_ne hb]
        refine (filter_eq_self.mpr ?_).symm
        intro j hj
        rw [Bool.not_eq_true', beq_eq_false_iff_ne]
        rintro rfl
        rw [h.mem_chain, hhashed, Option.some.injEq] at hj
        exact hb hj.symm

theorem pair_sublist_erase {l : List ℕ} {k : ℕ} (hj : j ≠ i) (hk : k ≠ i)
    (hpair : [j, k].Sublist l) : [j, k].Sublist (l.erase i) := by
  have herase := hpair.erase i
  rwa [erase_of_not_mem (by simp [hj.symm, hk.symm])] at herase

theorem lru_unhash (c : Cache) (i : ℕ) : (c.unhash i).lru = c.lru := by
  unfold unhash
  split <;> rfl

theorem unhash_lru (c : Cache) (i : ℕ) (lru : List ℕ) :
    ({ c with lru } : Cache).unhash i = { c.unhash i with lru } := by
  unfold unhash
  dsimp only
  split <;> rfl

theorem Linked.head_not_first {rest : List ℕ} (h : Linked cfg c) (hlru : c.lru = i :: rest)
    (hsearch : c.search cfg d n = some i) (hj : j ∈ c.chain (cfg.nchash (c.vid d) n))
    (hfor : c.isFor d n j = true) : j = i := by
  by_contra hne
  obtain ⟨hfor', before, after, hchain, hbefore⟩ := find?_eq_some_iff_append.mp hsearch
  rw [hchain, List.mem_append, mem_cons] at hj
  rcases hj with hj | hj | hj
  · have hnot := hbefore j hj
    rw [hfor] at hnot
    cases hnot
  · exact hne hj
  · have hordered := h.ordered (cfg.nchash (c.vid d) n)
    rw [hchain, pairwise_append] at hordered
    have hpair := rel_of_pairwise_cons hordered.2.1 hj
    rw [isFor_iff] at hfor hfor'
    have hsub := hpair ⟨hfor'.1.trans hfor.1.symm, hfor'.2.1.trans hfor.2.1.symm,
      hfor'.2.2.trans hfor.2.2.symm⟩
    have hnodup := h.lru
    rw [hlru] at hsub hnodup
    cases hsub with
    | cons _ hsub => exact (nodup_cons.mp hnodup).1 (hsub.subset (by simp))
    | cons_cons _ hsub => exact hne rfl

theorem slot_spec (h : Linked cfg c) (hslot : c.slot cfg = some (c', i)) :
    Linked cfg c' ∧ Dropped c c' (· == i) ∧ i ∉ c'.lru ∧ i < c'.numcache ∧
      ∀ d n k, c'.search cfg d n = some k → c.search cfg d n = some k ∧ k ≠ i := by
  unfold slot at hslot
  by_cases hroom : c.numcache < cfg.desiredvnodes
  · rw [if_pos hroom, Option.some.injEq] at hslot
    obtain ⟨rfl, rfl⟩ := hslot
    have hnot : c.numcache ∉ c.lru := fun hmem => lt_irrefl _ (h.allocated _ hmem)
    have hnone : (c.entry c.numcache).hashed = none := by
      cases hhashed : (c.entry c.numcache).hashed with
      | none => rfl
      | some b => exact absurd (h.listed _ b hhashed) hnot
    have hdrop := dropped_unhash h c.numcache c.lru
    have hdrop' : Dropped c { c with
        numcache := c.numcache + 1
        entry := update c.entry c.numcache ⟨none, 0, none, 0, [], none⟩ }
        (· == c.numcache) := by
      refine ⟨?_, ?_, ?_, rfl, rfl, le_succ _⟩
      · intro j hj
        rw [beq_eq_false_iff_ne] at hj
        exact update_of_ne hj _ _
      · intro j hj
        rw [beq_iff_eq] at hj
        simp [hj]
      · intro b
        have hchain := hdrop.chain b
        unfold unhash at hchain
        rwa [hnone] at hchain
    refine ⟨?_, hdrop', hnot, lt_succ_self _, ?_⟩
    · exact h.drop hdrop' h.lru (fun _ hj => hj) (fun _ _ hj => hj) fun _ _ _ _ hpair => hpair
    · intro d n k hk
      have hne : ∀ i, c.search cfg d n = some i → (i == c.numcache) = false := by
        intro i hi
        rw [beq_eq_false_iff_ne]
        rintro rfl
        have hhashed := h.hashed_of_search hi
        rw [hnone] at hhashed
        cases hhashed
      rw [hdrop'.search_kept hne] at hk
      exact ⟨hk, by simpa using hne k hk⟩
  · rw [if_neg hroom] at hslot
    cases hlru : c.lru with rw [hlru] at hslot
    | nil =>
      cases hslot
    | cons first rest =>
      simp only [Option.some.injEq, Prod.mk.injEq] at hslot
      obtain ⟨rfl, rfl⟩ := hslot
      have hnodup := h.lru
      rw [hlru, nodup_cons] at hnodup
      have hdrop := dropped_unhash h first rest
      rw [← unhash_lru] at hdrop
      have hlru' : (({ c with lru := rest } : Cache).unhash first).lru = rest := lru_unhash _ _
      refine ⟨?_, hdrop, ?_, ?_, ?_⟩
      · apply h.drop hdrop
        · rw [hlru']
          exact hnodup.2
        · intro j hj
          rw [hlru'] at hj
          rw [hlru]
          exact mem_cons_of_mem _ hj
        · intro j hj hmem
          rw [beq_eq_false_iff_ne] at hj
          rw [hlru, mem_cons] at hmem
          rw [hlru']
          exact hmem.resolve_left hj
        · intro j k hj hk hpair
          rw [beq_eq_false_iff_ne] at hj hk
          rw [hlru'] at *
          have herase := pair_sublist_erase hj hk hpair
          rwa [hlru, erase_cons_head] at herase
      · rw [hlru']
        exact hnodup.1
      · have halloc := h.allocated first (by rw [hlru]; exact mem_cons_self)
        exact halloc.trans_le hdrop.numcache
      · intro d n k hk
        by_cases hsearch : c.search cfg d n = some first
        · rw [hdrop.search_gone] at hk
          · cases hk
          · intro j hj hfor
            rw [beq_iff_eq]
            exact h.head_not_first hlru hsearch hj hfor
        · have hne : ∀ i, c.search cfg d n = some i → (i == first) = false := by
            intro i hi
            rw [beq_eq_false_iff_ne]
            rintro rfl
            exact hsearch hi
          rw [hdrop.search_kept hne] at hk
          exact ⟨hk, by simpa using hne k hk⟩

/-! ## Entering -/

section Fill

variable {dvp : ℕ} {vp : Option ℕ} {name : Name}

theorem fill_entry (c : Cache) (hj : j ≠ i) : (c.fill cfg i dvp vp name).entry j = c.entry j :=
  update_of_ne hj _ _

theorem Linked.fill (h : Linked cfg c) (hlru : i ∉ c.lru) (hi : i < c.numcache) :
    Linked cfg (c.fill cfg i dvp vp name) := by
  have hoff : ∀ b, (c.entry i).hashed ≠ some b := fun b hb => hlru (h.listed i b hb)
  have hself : (c.fill cfg i dvp vp name).entry i =
      ⟨some dvp, c.vid dvp, vp, vp.elim (c.entry i).vpid c.vid, name,
        some (cfg.nchash (c.vid dvp) name)⟩ := by
    show update c.entry i _ i = _
    rw [update_self]
    cases vp <;> rfl
  have hchain : ∀ b, (c.fill cfg i dvp vp name).chain b =
      if b = cfg.nchash (c.vid dvp) name then i :: c.chain b else c.chain b := by
    intro b
    show update c.chain _ _ b = _
    by_cases hb : b = cfg.nchash (c.vid dvp) name
    · rw [hb, update_self, if_pos rfl]
    · rw [update_of_ne hb, if_neg hb]
  have hnot : ∀ b, i ∉ c.chain b := fun b hmem => hoff b ((h.mem_chain b i).mp hmem)
  have hlast : ∀ j k, [j, k].Sublist c.lru → [j, k].Sublist (c.lru ++ [i]) := fun j k hpair =>
    hpair.trans (sublist_append_left _ _)
  constructor
  · show (c.lru ++ [i]).Nodup
    rw [nodup_append_comm]
    exact nodup_cons.mpr ⟨hlru, h.lru⟩
  · intro b
    rw [hchain]
    split_ifs
    · exact nodup_cons.mpr ⟨hnot b, h.chains b⟩
    · exact h.chains b
  · intro b j
    by_cases hj : j = i
    · subst hj
      rw [hself, hchain]
      split_ifs with hb
      · simp [hb]
      · simp [hnot b, Ne.symm hb]
    · rw [fill_entry c hj, ← h.mem_chain, hchain]
      split_ifs
      · simp [hj]
      · rfl
  · intro j b hb
    show j ∈ c.lru ++ [i]
    by_cases hj : j = i
    · simp [hj]
    · rw [fill_entry c hj] at hb
      exact mem_append_left _ (h.listed j b hb)
  · exact forall_mem_append.mpr ⟨h.allocated, forall_mem_singleton.mpr hi⟩
  · intro j b hb
    by_cases hj : j = i
    · subst hj
      rw [hself] at hb ⊢
      exact (Option.some.inj hb).symm
    · rw [fill_entry c hj] at hb ⊢
      exact h.placed j b hb
  · intro j b hb
    by_cases hj : j = i
    · subst hj
      rw [hself]
      exact h.vid dvp
    · rw [fill_entry c hj] at hb ⊢
      exact h.dvpid j b hb
  · intro j b v hb hv
    by_cases hj : j = i
    · subst hj
      rw [hself] at hv ⊢
      obtain rfl : vp = some v := hv
      exact h.vid v
    · rw [fill_entry c hj] at hb hv ⊢
      exact h.vpid j b v hb hv
  · exact h.vid
  · intro b
    have hold : (c.chain b).Pairwise fun j k =>
        (c.fill cfg i dvp vp name).SameName j k → [k, j].Sublist (c.lru ++ [i]) := by
      apply List.Pairwise.imp_of_mem _ (h.ordered b)
      intro j k hj hk hpair hname
      have hji : j ≠ i := ne_of_mem_of_not_mem hj (hnot b)
      have hki : k ≠ i := ne_of_mem_of_not_mem hk (hnot b)
      unfold Cache.SameName at hname
      rw [fill_entry c hji, fill_entry c hki] at hname
      exact hlast k j (hpair hname)
    rw [hchain]
    split_ifs
    · refine pairwise_cons.mpr ⟨?_, hold⟩
      intro k hk _
      have hmem : k ∈ c.lru := h.listed k b ((h.mem_chain b k).mp hk)
      exact List.Sublist.append (singleton_sublist.mpr hmem) (List.Sublist.refl [i])
    · exact hold

theorem search_fill (h : Linked cfg c) (hlru : i ∉ c.lru) :
    (c.fill cfg i dvp vp name).search cfg d n =
      if d = dvp ∧ n = name then some i else c.search cfg d n := by
  have hself : (c.fill cfg i dvp vp name).isFor d n i = decide (d = dvp ∧ n = name) := by
    rw [Bool.eq_iff_iff, isFor_iff, decide_eq_true_eq]
    show (update c.entry i _ i).dvp = _ ∧ (update c.entry i _ i).dvpid = _ ∧
      (update c.entry i _ i).name = _ ↔ _
    rw [update_self]
    constructor
    · rintro ⟨hdvp, -, hname⟩
      exact ⟨(Option.some.inj hdvp).symm, hname.symm⟩
    · rintro ⟨rfl, rfl⟩
      exact ⟨rfl, rfl, rfl⟩
  have hother : ∀ b, (c.chain b).find? ((c.fill cfg i dvp vp name).isFor d n) =
      (c.chain b).find? (c.isFor d n) := by
    intro b
    apply find?_congr
    intro j hj
    have hji : j ≠ i := ne_of_mem_of_not_mem (h.listed j b ((h.mem_chain b j).mp hj)) hlru
    unfold isFor
    rw [fill_entry c hji]
    rfl
  show (update c.chain _ _ (cfg.nchash (c.vid d) n)).find? _ = _
  by_cases hkey : d = dvp ∧ n = name
  · obtain ⟨rfl, rfl⟩ := hkey
    rw [update_self, find?_cons_of_pos (by rw [hself]; simp), if_pos ⟨rfl, rfl⟩]
  · rw [if_neg hkey]
    by_cases hb : cfg.nchash (c.vid d) n = cfg.nchash (c.vid dvp) name
    · rw [← hb, update_self, find?_cons_of_neg (by rw [hself]; simp [hkey]), hother]
      rfl
    · rw [update_of_ne hb, hother]
      rfl

end Fill

theorem not_cached (hskip : (!cfg.doingcache || decide (nchnamlen < n.length)) = true) :
    ¬ Cached cfg n := by
  rintro ⟨hdoing, hlength⟩
  simp [hdoing] at hskip
  omega

variable {latest : ℕ → Name → Option (Option ℕ)}

theorem enter_inv (h : Inv cfg ⟨c, latest⟩) (dvp : ℕ) (vp : Option ℕ) (name : Name) :
    Inv cfg ⟨c.enter cfg dvp vp name, remember latest (.enter dvp vp name)⟩ := by
  obtain ⟨hlinked, hfirst⟩ := h
  have hother : ∀ d n, ¬ (d = dvp ∧ n = name) →
      remember latest (.enter dvp vp name) d n = latest d n := fun d n hkey => if_neg hkey
  unfold enter
  split_ifs with hskip
  · refine ⟨hlinked, ?_⟩
    intro d n i hcached hsearch
    have hkey : ¬ (d = dvp ∧ n = name) := by
      rintro ⟨-, rfl⟩
      exact not_cached hskip hcached
    show c.Agrees i (remember latest (.enter dvp vp name) d n)
    rw [hother d n hkey]
    exact hfirst d n i hcached hsearch
  · cases hslot : c.slot cfg with
    | none =>
      -- without a slot on the LRU list nothing is found
      refine ⟨hlinked, ?_⟩
      intro d n i hcached hsearch
      have hlisted := hlinked.listed i _ (hlinked.hashed_of_search hsearch)
      unfold slot at hslot
      split at hslot
      · cases hslot
      · cases hlru : c.lru with
        | nil =>
          rw [hlru] at hlisted
          cases hlisted
        | cons first rest =>
          rw [hlru] at hslot
          cases hslot
    | some found =>
      obtain ⟨c', i⟩ := found
      obtain ⟨hlinked', hdrop, hlru, hi, hkeep⟩ := slot_spec hlinked hslot
      refine ⟨hlinked'.fill hlru hi, ?_⟩
      intro d n k hcached hsearch
      dsimp only at hsearch ⊢
      rw [search_fill hlinked' hlru] at hsearch
      by_cases hkey : d = dvp ∧ n = name
      · rw [if_pos hkey, Option.some.injEq] at hsearch
        subst hsearch
        have hnew : remember latest (.enter dvp vp name) d n = some vp := if_pos hkey
        have hvp : ((c'.fill cfg i dvp vp name).entry i).vp = vp := by
          show (update c'.entry i _ i).vp = vp
          rw [update_self]
        unfold Cache.Agrees
        rw [hnew, hvp]
        exact ⟨fun hnone => by rw [hnone], fun v hv _ => by rw [hv]⟩
      · rw [if_neg hkey] at hsearch
        obtain ⟨hsearch', hne⟩ := hkeep d n k hsearch
        have hold := hdrop.agrees (by simpa using hne) (hfirst d n k hcached hsearch')
        rw [hother d n hkey]
        unfold Cache.Agrees at hold ⊢
        rw [fill_entry c' hne]
        exact hold

/-! ## Looking up -/

theorem pairwise_before_find {l : List ℕ} {p : ℕ → Bool} (hnodup : l.Nodup)
    (hfind : l.find? p = some i) : l.Pairwise fun j k => k = i → p j = false := by
  induction l with
  | nil => exact List.Pairwise.nil
  | cons a l ih =>
    rw [nodup_cons] at hnodup
    by_cases ha : p a = true
    · rw [find?_cons_of_pos ha, Option.some.injEq] at hfind
      subst hfind
      have hnot : ∀ k ∈ l, k ≠ a := fun k hk => ne_of_mem_of_not_mem hk hnodup.1
      refine pairwise_cons.mpr ⟨fun k hk heq => absurd heq (hnot k hk), ?_⟩
      apply List.Pairwise.imp_of_mem _ hnodup.2
      intro j k _ hk _ heq
      exact absurd heq (hnot k hk)
    · rw [find?_cons_of_neg ha] at hfind
      exact pairwise_cons.mpr ⟨fun k _ _ => by simpa using ha, ih hnodup.2 hfind⟩

theorem Linked.touch (h : Linked cfg c) (hsearch : c.search cfg d n = some i) :
    Linked cfg (c.touch i) := by
  have hmem : i ∈ c.lru := h.listed i _ (h.hashed_of_search hsearch)
  have hperm : (c.lru.erase i ++ [i]).Perm c.lru :=
    (perm_append_comm).trans (perm_cons_erase hmem).symm
  refine { h with lru := ?_, listed := ?_, allocated := ?_, ordered := ?_ }
  · exact hperm.nodup_iff.mpr h.lru
  · intro j b hb
    exact hperm.mem_iff.mpr (h.listed j b hb)
  · intro j hj
    exact h.allocated j (hperm.mem_iff.mp hj)
  · intro b
    have hfirst : (c.chain b).Pairwise fun j k => k = i → ¬ c.SameName j k := by
      by_cases hb : b = cfg.nchash (c.vid d) n
      · rw [hb]
        apply (pairwise_before_find (h.chains _) hsearch).imp
        rintro j k hbefore rfl hname
        have hfor := isFor_iff.mp (find?_some hsearch)
        have hfor' : c.isFor d n j = true := isFor_iff.mpr
          ⟨hname.1.trans hfor.1, hname.2.1.trans hfor.2.1, hname.2.2.trans hfor.2.2⟩
        rw [hbefore rfl] at hfor'
        cases hfor'
      · apply List.Pairwise.imp_of_mem _ (h.chains b)
        rintro j k - hk - rfl
        have hhashed := h.hashed_of_search hsearch
        rw [(h.mem_chain b k).mp hk, Option.some.injEq] at hhashed
        exact absurd hhashed hb
    apply List.Pairwise.imp_of_mem _ (((h.ordered b).and (h.chains b)).and hfirst)
    rintro j k hj hk ⟨⟨hpair, hne⟩, hbefore⟩ hname
    have hki : k ≠ i := fun heq => hbefore heq hname
    by_cases hji : j = i
    · have hk' : k ∈ c.lru.erase i :=
        (mem_erase_of_ne hki).mpr (h.listed k b ((h.mem_chain b k).mp hk))
      rw [hji]
      exact List.Sublist.append (singleton_sublist.mpr hk') (List.Sublist.refl [i])
    · exact (pair_sublist_erase hki hji (hpair hname)).trans (sublist_append_left _ _)

def Alone (cfg : Config) (c : Cache) (dvp : ℕ) (cn : Component) : Prop :=
  ∀ i ∈ c.search cfg dvp cn.name, c.unwanted cn i = true →
    ∀ j ∈ c.chain (cfg.nchash (c.vid dvp) cn.name), c.isFor dvp cn.name j = true → j = i

theorem Linked.remove (h : Linked cfg c) (hmem : i ∈ c.lru) :
    Linked cfg (c.remove i) ∧ Dropped c (c.remove i) (· == i) := by
  have hdrop := dropped_unhash h i (i :: (c.unhash i).lru.erase i)
  have hlru : (c.remove i).lru = i :: c.lru.erase i := by
    show i :: (c.unhash i).lru.erase i = _
    rw [lru_unhash]
  have hperm : (c.remove i).lru.Perm c.lru := by
    rw [hlru]
    exact (perm_cons_erase hmem).symm
  refine ⟨h.drop hdrop ?_ ?_ ?_ ?_, hdrop⟩
  · exact hperm.nodup_iff.mpr h.lru
  · intro j hj
    exact hperm.mem_iff.mp hj
  · intro j _ hj
    exact hperm.mem_iff.mpr hj
  · intro j k hj hk hpair
    rw [beq_eq_false_iff_ne] at hj hk
    rw [hlru]
    exact (pair_sublist_erase hj hk hpair).cons i

theorem remember_lookup {dvp : ℕ} {cn : Component}
    {wait : Wait} (hkey : ¬ (d = dvp ∧ n = cn.name)) :
    remember latest (.lookup dvp cn wait) d n = latest d n := if_neg fun h => hkey ⟨h.1, h.2.1⟩

theorem Inv.touch (h : Inv cfg ⟨c, latest⟩)
    (hsearch : c.search cfg d n = some i) : Inv cfg ⟨c.touch i, latest⟩ where
  linked := h.linked.touch hsearch
  first := h.first

theorem lookup_inv (h : Inv cfg ⟨c, latest⟩)
    {dvp : ℕ} {cn : Component} (wait : Wait) (halone : Alone cfg c dvp cn) :
    Inv cfg ⟨(c.lookup cfg dvp cn wait).1, remember latest (.lookup dvp cn wait)⟩ := by
  -- what is found for the other names does not depend on the lookup
  have hothers : (∀ i, Cached cfg cn.name → c.search cfg dvp cn.name ≠ some i) →
      Inv cfg ⟨c, remember latest (.lookup dvp cn wait)⟩ := by
    intro hnone
    refine ⟨h.linked, ?_⟩
    intro d n i hcached hsearch
    have hkey : ¬ (d = dvp ∧ n = cn.name) := by
      rintro ⟨rfl, rfl⟩
      exact hnone i hcached hsearch
    show c.Agrees i (remember latest (.lookup dvp cn wait) d n)
    rw [remember_lookup hkey]
    exact h.first d n i hcached hsearch
  unfold Cache.lookup
  split_ifs with hskip
  · exact hothers fun _ hcached => absurd hcached (not_cached hskip)
  have hcached : Cached cfg cn.name := by
    simpa [Cached] using hskip
  cases hsearch : c.search cfg dvp cn.name with
  | none => exact hothers fun _ _ => by simp [hsearch]
  | some i =>
    dsimp only
    split_ifs with hunwanted
    · have hmem := h.linked.listed i _ (h.linked.hashed_of_search hsearch)
      obtain ⟨hlinked, hdrop⟩ := h.linked.remove hmem
      refine ⟨hlinked, ?_⟩
      intro d n k hcached' hfound
      dsimp only at hfound ⊢
      by_cases hkey : d = dvp ∧ n = cn.name
      · obtain ⟨rfl, rfl⟩ := hkey
        rw [hdrop.search_gone] at hfound
        · cases hfound
        · intro j hj hfor
          rw [beq_iff_eq]
          exact halone i hsearch hunwanted j hj hfor
      · have hne : ∀ j, c.search cfg d n = some j → (j == i) = false := by
          intro j hj
          rw [beq_eq_false_iff_ne]
          rintro rfl
          have hfor := isFor_iff.mp (find?_some hsearch)
          have hfor' := isFor_iff.mp (find?_some hj)
          apply hkey
          exact ⟨Option.some.inj (hfor'.1.symm.trans hfor.1), hfor'.2.2.symm.trans hfor.2.2⟩
        rw [hdrop.search_kept hne] at hfound
        rw [remember_lookup hkey]
        exact hdrop.agrees (hne k hfound) (h.first d n k hcached' hfound)
    · have hagrees : c.Agrees i (latest dvp cn.name) := h.first dvp _ i hcached hsearch
      simp only [unwanted, Bool.or_eq_true, Bool.not_eq_true', not_or,
        Bool.not_eq_false] at hunwanted
      obtain ⟨hmake, hwanted⟩ := hunwanted
      cases hvp : (c.entry i).vp with
      | none =>
        have hsame : remember latest (.lookup dvp cn wait) = latest := by
          funext d n
          by_cases hkey : d = dvp ∧ n = cn.name
          · rw [hvp] at hwanted
            apply if_neg
            rintro ⟨-, -, hno | ⟨-, hcreate, hlast⟩⟩
            · rw [hmake] at hno
              cases hno
            · simp [hcreate, hlast] at hwanted
          · exact remember_lookup hkey
        rw [hsame]
        exact h.touch hsearch
      | some vp =>
        rw [hvp] at hwanted
        have hlatest := hagrees.2 vp hvp (by simpa using hwanted)
        have hsame : remember latest (.lookup dvp cn wait) = latest := by
          funext d n
          by_cases hkey : d = dvp ∧ n = cn.name
          · apply if_neg
            rintro ⟨rfl, rfl, hno | ⟨hneg, -⟩⟩
            · rw [hmake] at hno
              cases hno
            · rw [hlatest] at hneg
              cases hneg
          · exact remember_lookup hkey
        rw [hsame]
        dsimp only
        split_ifs
        · exact h.touch hsearch
        · cases wait with
          | locked => exact h.touch hsearch
          | failed | relockFailed => exact h

/-! ## Purging -/

theorem purge_eq (hroom : c.nextvnodeid + 1 < 2 ^ 32) (vp : ℕ) :
    c.purge cfg vp =
      { c with
        nextvnodeid := c.nextvnodeid + 1
        vid := update c.vid vp (c.nextvnodeid + 1) } := by
  have hwide : (2 : ℕ) ^ 32 ≤ 2 ^ cfg.ulong := Nat.pow_le_pow_right (by norm_num) cfg.wide
  have hnext : (c.nextvnodeid + 1) % 2 ^ cfg.ulong = c.nextvnodeid + 1 :=
    mod_eq_of_lt (hroom.trans_le hwide)
  unfold purge newId
  simp only [hnext, mod_eq_of_lt hroom]
  rw [if_pos (succ_ne_zero _)]

theorem purge_inv (h : Inv cfg ⟨c, latest⟩) (hroom : c.nextvnodeid + 1 < 2 ^ 32) (vp : ℕ) :
    Inv cfg ⟨c.purge cfg vp, remember latest (.purge vp)⟩ := by
  have hlinked : Linked cfg c := h.linked
  rw [purge_eq hroom]
  refine ⟨?_, ?_⟩
  · exact { hlinked with
      dvpid := fun i b hb => (hlinked.dvpid i b hb).trans (le_succ _)
      vpid := fun i b v hb hv => (hlinked.vpid i b v hb hv).trans (le_succ _)
      vid := (forall_update_iff _ fun _ id => id ≤ _).mpr
        ⟨le_rfl, fun v _ => (hlinked.vid v).trans (le_succ _)⟩ }
  · intro d n i hcached hsearch
    by_cases hd : d = vp
    · -- no slot has the new id of the directory
      have hmem := mem_of_find?_eq_some hsearch
      have hfor : (c.entry i).dvpid = update c.vid vp (c.nextvnodeid + 1) d :=
        (isFor_iff.mp (find?_some hsearch)).2.1
      have hle := hlinked.dvpid i _ ((hlinked.mem_chain _ i).mp hmem)
      rw [hd, update_self] at hfor
      omega
    · have hsearch' : c.search cfg d n = some i := by
        unfold search isFor at hsearch ⊢
        simpa only [update_of_ne hd] using hsearch
      have hagrees : c.Agrees i (latest d n) := h.first d n i hcached hsearch'
      have hhashed := hlinked.hashed_of_search hsearch'
      constructor
      · intro hnone
        have hlatest := hagrees.1 hnone
        show remember latest (.purge vp) d n = _
        rw [remember, if_neg (by simp [hd, hlatest]), hlatest]
      · intro v hv hid
        have hle := hlinked.vpid i _ v hhashed hv
        have hid' : (c.entry i).vpid = update c.vid vp (c.nextvnodeid + 1) v := hid
        have hne : v ≠ vp := by
          rintro rfl
          rw [update_self] at hid'
          omega
        rw [update_of_ne hne] at hid'
        have hlatest := hagrees.2 v hv hid'
        show remember latest (.purge vp) d n = _
        rw [remember, if_neg (by simp [hd, hlatest, hne]), hlatest]

/-! ## Purging a mount -/

theorem dropped_discard (h : Linked cfg c) (i : ℕ) : Dropped c (c.discard i) (· == i) := by
  have hdrop := dropped_unhash h i (i :: c.lru.erase i)
  constructor <;> unfold Cache.discard Cache.unhash <;> dsimp only
  · intro j hj
    rw [beq_eq_false_iff_ne] at hj
    split <;> simp [hj]
  · intro j hj
    rw [beq_iff_eq] at hj
    subst hj
    split
    · assumption
    · simp
  · intro b
    rw [← hdrop.chain b, Cache.unhash, update_self]
    dsimp only
    split <;> rfl
  · split <;> rfl
  · split <;> rfl
  · split <;> exact le_rfl

theorem lru_discard (c : Cache) (i : ℕ) : (c.discard i).lru = i :: c.lru.erase i := by
  unfold Cache.discard
  dsimp only
  rw [lru_unhash]

theorem marked_discard (onMount : ℕ → Bool) (c : Cache) (i : ℕ) :
    (c.discard i).marked onMount i = false := by
  unfold Cache.marked Cache.discard Cache.unhash
  dsimp only
  split <;> simp

structure Swept (onMount : ℕ → Bool) (c c' : Cache) (gone : ℕ → Bool) : Prop where
  dropped : Dropped c c' gone
  perm : c'.lru.Perm c.lru
  order : ∀ j k, gone j = false → gone k = false → [j, k].Sublist c.lru → [j, k].Sublist c'.lru
  marked : ∀ j, gone j = true → c.marked onMount j = true

variable {onMount : ℕ → Bool}

theorem Swept.linked (h : Linked cfg c) (hswept : Swept onMount c c' gone) : Linked cfg c' :=
  h.drop hswept.dropped (hswept.perm.nodup_iff.mpr h.lru)
    (fun _ hj => hswept.perm.mem_iff.mp hj) (fun _ _ hj => hswept.perm.mem_iff.mpr hj) hswept.order

theorem swept_discard (h : Linked cfg c) (hmem : i ∈ c.lru)
    (hmarked : c.marked onMount i = true) : Swept onMount c (c.discard i) (· == i) := by
  refine ⟨dropped_discard h i, ?_, ?_, ?_⟩
  · rw [lru_discard]
    exact (perm_cons_erase hmem).symm
  · intro j k hj hk hpair
    rw [beq_eq_false_iff_ne] at hj hk
    rw [lru_discard]
    exact (pair_sublist_erase hj hk hpair).cons i
  · intro j hj
    rw [beq_iff_eq] at hj
    rw [hj]
    exact hmarked

theorem Swept.trans {gone' : ℕ → Bool} {c₂ : Cache} (h : Swept onMount c c' gone)
    (h' : Swept onMount c' c₂ gone') : Swept onMount c c₂ fun j => gone j || gone' j := by
  refine ⟨h.dropped.trans h'.dropped, h'.perm.trans h.perm, ?_, ?_⟩
  · intro j k hj hk hpair
    rw [Bool.or_eq_false_iff] at hj hk
    exact h'.order j k hj.2 hk.2 (h.order j k hj.1 hk.1 hpair)
  · intro j hj
    cases hgone : gone j with
    | true => exact h.marked j hgone
    | false =>
      rw [hgone] at hj
      have hmarked := h'.marked j hj
      unfold Cache.marked at hmarked ⊢
      rwa [h.dropped.kept j hgone] at hmarked

theorem Swept.none (onMount : ℕ → Bool) (c : Cache) : Swept onMount c c fun _ => false where
  dropped := ⟨fun _ _ => rfl, by simp, fun b => by simp, rfl, rfl, le_rfl⟩
  perm := List.Perm.refl _
  order := fun _ _ _ _ hpair => hpair
  marked := by simp

def Cache.left (onMount : ℕ → Bool) (c : Cache) : ℕ := c.lru.countP (c.marked onMount)

theorem left_discard (h : Linked cfg c) (hmem : i ∈ c.lru) (hmarked : c.marked onMount i = true) :
    (c.discard i).left onMount + 1 = c.left onMount := by
  have hrest : (c.lru.erase i).countP ((c.discard i).marked onMount) =
      (c.lru.erase i).countP (c.marked onMount) := by
    apply countP_congr
    intro j hj
    have hne : j ≠ i := ne_of_mem_of_not_mem hj h.lru.not_mem_erase
    unfold marked
    rw [(dropped_discard h i).kept j (by simpa using hne)]
  unfold left
  rw [lru_discard, countP_cons_of_neg (by simp [marked_discard]), hrest,
    (perm_cons_erase hmem).countP_eq (c.marked onMount), countP_cons_of_pos hmarked]

theorem purgevfsLoop_swept {fuel : ℕ} {before cursor : List ℕ} (h : Linked cfg c)
    (hlru : c.lru = before ++ cursor) (hbefore : ∀ j ∈ before, c.marked onMount j = false)
    (hfuel : c.left onMount * (c.lru.length + 1) + cursor.length ≤ fuel) :
    ∃ gone, Swept onMount c (Cache.purgevfsLoop onMount fuel cursor c) gone ∧
      ∀ j ∈ c.lru, c.marked onMount j = true → gone j = true := by
  induction fuel using Nat.strong_induction_on generalizing c before cursor with
  | _ fuel ih =>
    cases cursor with
    | nil =>
      refine ⟨_, by cases fuel <;> exact Swept.none onMount c, ?_⟩
      intro j hj hmarked
      rw [hlru, append_nil] at hj
      rw [hbefore j hj] at hmarked
      cases hmarked
    | cons i rest =>
      rw [length_cons] at hfuel
      obtain ⟨fuel, rfl⟩ : ∃ n, fuel = n + 1 := exists_eq_add_one.mpr (by omega)
      rw [purgevfsLoop]
      by_cases hmarked : c.marked onMount i = true
      · rw [if_pos hmarked]
        have hmem : i ∈ c.lru := by simp [hlru]
        have hswept := swept_discard h hmem hmarked
        have hleft := left_discard h hmem hmarked
        have hlength : (c.discard i).lru.length = c.lru.length := hswept.perm.length_eq
        have herase := length_erase_of_mem hmem
        obtain ⟨gone, hrest, hall⟩ := ih fuel (by omega) (hswept.linked h)
          ((lru_discard c i).trans singleton_append.symm)
          (forall_mem_singleton.mpr (marked_discard onMount c i)) (by
            rw [← hleft, add_mul] at hfuel
            rw [hlength]
            omega)
        refine ⟨_, hswept.trans hrest, ?_⟩
        intro j hj hmarked'
        by_cases hji : j = i
        · simp [hji]
        · have hgone := hall j (hswept.perm.mem_iff.mpr hj) (by
            unfold marked at hmarked' ⊢
            rwa [hswept.dropped.kept j (by simpa using hji)])
          simp [hgone]
      · rw [if_neg hmarked]
        apply ih fuel (by omega) h (hlru.trans (append_cons before i rest))
        · exact forall_mem_append.mpr ⟨hbefore, forall_mem_singleton.mpr (by simpa using hmarked)⟩
        · omega

theorem purgevfs_inv (h : Inv cfg ⟨c, latest⟩) (onMount : ℕ → Bool) :
    Inv cfg ⟨c.purgevfs onMount, remember latest (.purgevfs onMount)⟩ := by
  have hlinked : Linked cfg c := h.linked
  have hcount : c.left onMount ≤ c.lru.length := countP_le_length
  obtain ⟨gone, hswept, hall⟩ : ∃ gone, Swept onMount c (c.purgevfs onMount) gone ∧
      ∀ j ∈ c.lru, c.marked onMount j = true → gone j = true :=
    purgevfsLoop_swept hlinked (nil_append c.lru).symm (by simp) (by nlinarith)
  refine ⟨hswept.linked hlinked, ?_⟩
  intro d n i hcached hsearch
  by_cases hd : onMount d = true
  · -- all slots of a directory on the mount are gone
    have hnone : (purgevfs onMount c).search cfg d n = none := by
      apply hswept.dropped.search_gone
      intro j hj hfor
      apply hall j (hlinked.listed j _ ((hlinked.mem_chain _ j).mp hj))
      unfold marked
      rw [(isFor_iff.mp hfor).1]
      exact hd
    rw [hnone] at hsearch
    cases hsearch
  · have hkeep : ∀ j, c.search cfg d n = some j → gone j = false := by
      intro j hj
      rw [← Bool.not_eq_true]
      intro hgone
      have hmarked := hswept.marked j hgone
      unfold marked at hmarked
      rw [(isFor_iff.mp (find?_some hj)).1] at hmarked
      exact hd hmarked
    have hsame := hswept.dropped.search_kept hkeep
    rw [hsame] at hsearch
    exact hswept.dropped.agrees (hkeep i hsearch) (h.first d n i hcached hsearch)

/-! ## Runs -/

/-- A lookup takes an entry off only if it is the only one of its name, and the ids do not
start again. -/
def Guard (cfg : Config) (sys : System) : Event → Prop
  | .lookup dvp cn _ => Alone cfg sys.cache dvp cn
  | .purge _ => sys.cache.nextvnodeid + 1 < 2 ^ 32
  | _ => True

theorem boot_inv (cfg : Config) : Inv cfg boot where
  linked :=
    { lru := nodup_nil
      chains := fun _ => nodup_nil
      mem_chain := fun b i => by simp [boot]
      listed := fun i b hb => by simp [boot] at hb
      allocated := fun i hi => by simp [boot] at hi
      placed := fun i b hb => by simp [boot] at hb
      dvpid := fun i b hb => by simp [boot] at hb
      vpid := fun i b v hb => by simp [boot] at hb
      vid := fun _ => le_rfl
      ordered := fun _ => List.Pairwise.nil }
  first := fun d n i _ hsearch => by simp [boot, search] at hsearch

theorem step_inv {sys sys' : System} {event : Event} (h : Inv cfg sys)
    (hguard : Guard cfg sys event) (hstep : step cfg sys event = some sys') : Inv cfg sys' := by
  cases hstep
  cases event with
  | enter dvp vp name => exact enter_inv h dvp vp name
  | lookup dvp cn wait => exact lookup_inv h wait hguard
  | purge vp => exact purge_inv h hguard vp
  | purgevfs onMount => exact purgevfs_inv h onMount

def Right (latest : ℕ → Name → Option (Option ℕ)) (dvp : ℕ) (n : Name) (reply : Reply) : Prop :=
  (reply = .enoent → latest dvp n = some none) ∧
    ∀ vp, reply = .found vp → latest dvp n = some (some vp)

theorem lookup_right (h : Inv cfg ⟨c, latest⟩) (dvp : ℕ) (cn : Component) (wait : Wait) :
    Right latest dvp cn.name (c.lookup cfg dvp cn wait).2 := by
  unfold Cache.lookup
  split_ifs with hskip
  · simp [Right]
  have hcached : Cached cfg cn.name := by
    simpa [Cached] using hskip
  cases hsearch : c.search cfg dvp cn.name with
  | none => simp [Right]
  | some i =>
    have hagrees : c.Agrees i (latest dvp cn.name) := h.first dvp _ i hcached hsearch
    dsimp only
    split_ifs with hunwanted
    · simp [Right]
    cases hvp : (c.entry i).vp with
    | none => exact ⟨fun _ => hagrees.1 hvp, by simp⟩
    | some vp =>
      simp only [unwanted, hvp, Bool.or_eq_true, not_or] at hunwanted
      have hlatest := hagrees.2 vp hvp (by simpa using hunwanted.2)
      dsimp only
      split_ifs
      · exact ⟨by simp, by simpa using hlatest⟩
      · cases wait <;> simp [Right, hlatest]

/-- A hit returns what was entered last for the name, as long as no lookup takes off one of
several entries of a name and the ids do not start again. -/
theorem name_cache_coherent (cfg : Config) (sys : System)
    (hrun : Run.GuardedRun (step cfg) (Guard cfg) boot sys) (dvp : ℕ) (cn : Component)
    (wait : Wait) : Right sys.latest dvp cn.name (sys.cache.lookup cfg dvp cn wait).2 := by
  have hinv : Inv cfg sys :=
    hrun.invariant (P := Inv cfg) (boot_inv cfg) fun _ _ _ h hguard hstep =>
      step_inv h hguard hstep
  exact lookup_right hinv dvp cn wait

instance (cfg : Config) (sys : System) (event : Event) : Decidable (Guard cfg sys event) :=
  match event with
  | .enter .. | .purgevfs _ => isTrue trivial
  | .lookup dvp cn _ => inferInstanceAs (Decidable
      (∀ i ∈ sys.cache.search cfg dvp cn.name, _ → ∀ j ∈ sys.cache.chain _, _ → _))
  | .purge _ => inferInstanceAs (Decidable (_ < _))

def smallCache : Config where
  ulong := 64
  desiredvnodes := 2
  nchash := fun _ _ => 0
  doingcache := true
  wide := by norm_num

def look (name : Name) : Component := ⟨name, true, false, false⟩

/-- Names are entered again, their target is purged, and slots are used again. -/
def enteredAgain : System :=
  Run.execD (step smallCache) (Guard smallCache) boot
    [.purge 1, .purge 2, .enter 1 (some 2) [97], .enter 1 none [98], .lookup 1 (look [98]) .locked,
      .enter 1 (some 3) [97], .lookup 1 (look [98]) .locked, .enter 1 (some 4) [97]]

theorem name_cache_coherent_again :
    Right enteredAgain.latest 1 [97]
        (enteredAgain.cache.lookup smallCache 1 (look [97]) .locked).2 ∧
      (enteredAgain.cache.lookup smallCache 1 (look [97]) .locked).2 = .found 4 := by
  have hrun : Run.GuardedRun (step smallCache) (Guard smallCache) boot enteredAgain :=
    Run.GuardedRun.of_execD (by decide +kernel)
  exact ⟨name_cache_coherent smallCache enteredAgain hrun 1 (look [97]) .locked, by decide +kernel⟩

/-- A name is entered twice, and the lookup of a process that is about to remove it takes
off the newer entry only. -/
def enteredTwice : System :=
  Run.execD (step smallCache) (fun _ _ => True) boot
    [.purge 1, .enter 1 (some 2) [97], .enter 1 (some 3) [97],
      .lookup 1 ⟨[97], false, false, true⟩ .locked]

/-- The older entry is found then, although the name was dropped. -/
theorem dropped_name_found :
    Run.Reaches (step smallCache) boot enteredTwice ∧
      enteredTwice.latest 1 [97] = none ∧
      (enteredTwice.cache.lookup smallCache 1 (look [97]) .locked).2 = .found 2 :=
  ⟨Run.GuardedRun.of_execD (by decide +kernel), by decide +kernel, by decide +kernel⟩

end AerieKernel.NameCache
