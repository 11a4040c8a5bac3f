import AerieKernel.MilfsTrees

/-!
# The bitmaps of a MILFS

The bits after a scan are those of all blocks that were ever entered into a tree, so they
are right if and only if no block takes the place of another one.  The search for a free
block takes the first clear bit; the bit of the descriptor's block is never set.
-/

namespace AerieKernel.Milfs

open List Splay.Tree Mount

open Tty (bitAt)

/-! ## Free blocks -/

theorem lowestBit_spec : ∀ nzeros : Tty.Byte, nzeros ≠ 0 →
    ∃ k < 8, lowestBit 8 0 nzeros = some k ∧ nzeros.getLsbD k = true ∧
      ∀ i < k, nzeros.getLsbD i = false := by
  decide +kernel

theorem getLsbD_complement (byte : Tty.Byte) {k : ℕ} (hk : k < 8) :
    (byte ^^^ 0xff).getLsbD k = !byte.getLsbD k := by
  have hones : (0xff : Tty.Byte) = BitVec.allOnes 8 := rfl
  rw [hones, BitVec.getLsbD_xor, BitVec.getLsbD_allOnes]
  simp [hk]

/-- The first clear bit, if there is one. -/
theorem freeFrom_spec (map : ℕ → Tty.Byte) (count i : ℕ) :
    (freeFrom map count i = none ∧
      ∀ other, i * 8 ≤ other → other < (i + count) * 8 → bitAt map other = true) ∨
    ∃ blk < (i + count) * 8, freeFrom map count i = some blk ∧ bitAt map blk = false ∧
      ∀ other, i * 8 ≤ other → other < blk → bitAt map other = true := by
  induction count generalizing i with
  | zero => exact .inl ⟨rfl, fun other hle hlt => by omega⟩
  | succ count ih =>
    unfold freeFrom
    by_cases hzero : map i ^^^ 0xff = 0
    · have hbyte : ∀ other, i * 8 ≤ other → other < (i + 1) * 8 → bitAt map other = true := by
        intro other hle hlt
        have hdiv : other / 8 = i := by omega
        have hbit := getLsbD_complement (map i) (Nat.mod_lt other (by norm_num))
        rw [hzero] at hbit
        simpa [bitAt, hdiv] using hbit
      rw [if_pos hzero]
      rcases ih (i + 1) with ⟨hnone, hset⟩ | ⟨blk, hlt, hblk, hclear, hset⟩
      · refine .inl ⟨hnone, fun other hle hlt => ?_⟩
        rcases Nat.lt_or_ge other ((i + 1) * 8) with hbelow | habove
        · exact hbyte other hle hbelow
        · exact hset other habove (by omega)
      · refine .inr ⟨blk, by omega, hblk, hclear, fun other hle hlt => ?_⟩
        rcases Nat.lt_or_ge other ((i + 1) * 8) with hbelow | habove
        · exact hbyte other hle hbelow
        · exact hset other habove hlt
    · rw [if_neg hzero]
      obtain ⟨k, hk, hlow, hclear, hset⟩ := lowestBit_spec _ hzero
      rw [hlow]
      rw [getLsbD_complement _ hk] at hclear
      refine .inr ⟨i * 8 + k, by omega, rfl, ?_, fun other hle hother => ?_⟩
      · have hdiv : (i * 8 + k) / 8 = i := by omega
        have hmod : (i * 8 + k) % 8 = k := by omega
        simpa [bitAt, hdiv, hmod] using hclear
      · have hdiv : other / 8 = i := by omega
        have hbit := hset (other % 8) (by omega)
        rw [getLsbD_complement _ (by omega)] at hbit
        simpa [bitAt, hdiv] using hbit

variable {g : Geometry} {dips : List Dinode} {ino : UInt64} {all pre post : List Record}
  {r s : Record} {p p' : Part} {mmp : Mount}

theorem getfreeblk_spec (g : Geometry) (mmp : Mount) (cg : ℕ) :
    (mmp.getfreeblk g cg = none ∧ ∀ blk < g.blkpercg, bitAt (mmp.bmap cg) blk = true) ∨
      ∃ blk < g.blkpercg, mmp.getfreeblk g cg = some blk ∧ bitAt (mmp.bmap cg) blk = false ∧
        ∀ other < blk, bitAt (mmp.bmap cg) other = true := by
  have hblocks := g.eight_dvd_blkpercg
  rcases freeFrom_spec (mmp.bmap cg) (g.blkpercg / 8) 0 with
    ⟨hnone, hset⟩ | ⟨blk, hlt, hblk, hclear, hset⟩
  · exact .inl ⟨hnone, fun blk hlt => hset blk (by omega) (by omega)⟩
  · exact .inr ⟨blk, by omega, hblk, hclear, fun other hlt => hset other (by omega) hlt⟩

/-! ## The bits after a scan -/

def Mount.Referenced (mmp : Mount) (cg blk : ℕ) : Prop :=
  ∃ mip ∈ mmp.inotree.toList, ∃ mbp ∈ mip.blktree.toList, mbp.cgno = cg ∧ mbp.cgblk = blk

/-- Whatever was entered into the tree is still there. -/
def Part.Keeps (p : Part) : Prop := ∀ s ∈ p.entered, s.block ∈ p.tree

theorem part_tree (h : part ino all = some p) : ∀ mbp ∈ p.tree, ∃ s ∈ p.entered, s.block = mbp := by
  refine Part.run (Q := fun p => ∀ mbp ∈ p.tree, ∃ s ∈ p.entered, s.block = mbp) ?_
    (by simp [Part.tree, toList]) h
  intro r _ p p' hq hscan mbp hmbp
  rcases Part.scan_effect hscan with
    ⟨htree, -, hentered⟩ | ⟨gone, kept, hkept, htree, -, hentered⟩ <;> rw [hentered]
  · exact hq mbp (htree ▸ hmbp)
  · rcases mem_cons.mp (htree.subset hmbp) with rfl | hmbp
    · exact ⟨r, by simp, rfl⟩
    · obtain ⟨s, hs, hs'⟩ := hq mbp (hkept.subset (by simp [hmbp]))
      exact ⟨s, by simp [hs], hs'⟩

theorem mem_of_entered (h : part ino all = some p) (hs : s ∈ p.entered) :
    s ∈ all ∧ s.dip.inode = ino := by
  simpa using mem_filter.mp ((part_entered h).subset hs)

/-- The bits are those of the blocks in the trees if and only if every tree keeps what was
entered. -/
theorem Shows.bits_iff (h : Shows all mmp)
    (hplaces : ∀ r ∈ all, ∀ s ∈ all, r.cg = s.cg → r.blk = s.blk → r = s) :
    (∀ cg blk, bitAt (mmp.bmap cg) blk = true ↔ mmp.Referenced cg blk) ↔
      ∀ ino p, part ino all = some p → p.Keeps := by
  constructor
  · intro hbits ino p hp s hs
    obtain ⟨hall, hino⟩ := mem_of_entered hp hs
    obtain ⟨mip, hmip, mbp, hmbp, hcg, hblk⟩ :=
      (hbits s.cg s.blk).mp ((h.bits _ _).mpr ⟨ino, p, hp, s, hs, rfl, rfl⟩)
    obtain ⟨entered, hq⟩ := h.inodes mip hmip
    obtain ⟨t, ht, rfl⟩ := part_tree hq mbp hmbp
    obtain ⟨hall', hino'⟩ := mem_of_entered hq ht
    cases hplaces t hall' s hall hcg hblk
    rw [← hino', hino, hp] at hq
    cases hq
    exact hmbp
  · intro hkeeps cg blk
    rw [h.bits]
    constructor
    · rintro ⟨ino, p, hp, s, hs, rfl, rfl⟩
      obtain ⟨hall, hino⟩ := mem_of_entered hp hs
      obtain ⟨mip, hmip, hino'⟩ := (h.known ino).mpr ⟨s, hall, hino⟩
      obtain ⟨entered, hq⟩ := h.inodes mip hmip
      rw [hino', hp] at hq
      cases hq
      exact ⟨mip, hmip, s.block, hkeeps ino _ hp s hs, rfl, rfl⟩
    · rintro ⟨mip, hmip, mbp, hmbp, rfl, rfl⟩
      obtain ⟨entered, hq⟩ := h.inodes mip hmip
      obtain ⟨t, ht, rfl⟩ := part_tree hq mbp hmbp
      exact ⟨_, _, hq, t, ht, rfl, rfl⟩

/-! ## Trees that keep what is entered -/

/-- As long as nothing is lost, a record that is not entered is older than one that is. -/
theorem Part.Keeps.scan (h : p.Keeps) (hordered : p.mip.blktree.Ordered blockCmp)
    (htree : ∀ mbp ∈ p.tree, ∃ s ∈ p.entered, s.block = mbp) (hscan : p.scan r = some p')
    (hne : ∀ s ∈ p.entered, s.block ≠ r.block) (hkeep : ∀ s ∈ p.entered, s.block ∈ p'.tree) :
    p'.Keeps ∧ p'.mip.blktree.Ordered blockCmp ∧
      (r ∈ p'.entered ∨ ∃ s ∈ p.entered, r.dip.stamp < s.dip.stamp) := by
  have hlooked := Part.looked_tree p r
  have hordered' : (p.looked r).mip.blktree.Ordered blockCmp := by
    change (p.looked r).tree.Pairwise _
    rw [hlooked]
    exact hordered
  cases hfound : (p.mip.blktree.find blockCmp r.block).1 with
  | none =>
    have hnone := find_none (guides_of_ordered hordered r.block) hfound
    rw [Part.scan_none hfound] at hscan
    cases hscan
    obtain ⟨hordered'', hmem, -⟩ := Part.enter_spec hordered' (by rwa [hlooked])
    refine ⟨fun s hs => ?_, hordered'', .inl (by simp [Part.enter])⟩
    rcases List.mem_append.mp hs with hs | hs
    · exact hkeep s hs
    · rw [mem_singleton.mp hs]
      exact (hmem _).mpr (.inl rfl)
  | some mbp =>
    obtain ⟨hmbp, hcmp⟩ := find_some hfound
    obtain ⟨s, hs, rfl⟩ := htree mbp hmbp
    rw [Part.scan_some hfound] at hscan
    split_ifs at hscan with hnewer holder <;> cases hscan
    · -- the older one is lost
      have hin : s.block ∈ (p.looked r).tree := by
        rw [hlooked]
        exact hmbp
      obtain ⟨-, -, hother⟩ := Part.delete_spec hordered' hin
      have hsub : (((p.looked r).delete s.block).enter r).tree <+~
        r.block :: ((p.looked r).delete s.block).tree := insert_subperm ..
      rcases mem_cons.mp (hsub.subset (hkeep s hs)) with heq | hrest
      · exact absurd heq (hne s hs)
      · exact absurd Std.ReflCmp.compare_self (hother _ hrest)
    · refine ⟨fun t ht => ?_, hordered', .inr ⟨s, hs, holder⟩⟩
      rw [hlooked]
      exact h t ht

theorem Part.run_subset {rest : List Record} (hrun : rest.foldlM Part.scan p = some p') :
    p.entered ⊆ p'.entered := by
  refine Part.run (Q := fun q => p.entered ⊆ q.entered) ?_ (List.Subset.refl _) hrun
  intro r _ q q' hsub hscan
  rcases Part.scan_entered hscan with heq | heq <;> rw [heq]
  · exact hsub
  · exact List.Subset.trans hsub (subset_append_left _ _)

theorem first_entered (h : part r.dip.inode (r :: post) = some p) : r ∈ p.entered := by
  rw [part, filter_cons_of_pos (by simp)] at h
  exact Part.run_subset (p := Part.first r.dip.inode r) h (by simp [Part.first])

section Kept

variable {q : Part} (hnodup : all.Nodup)
  (hplaces : ∀ r ∈ all, ∀ s ∈ all, r.cg = s.cg → r.blk = s.blk → r = s)
  (hq : part ino all = some q) (hkeeps : q.Keeps)
include hnodup hplaces hq hkeeps

theorem Part.Keeps.step (h : p.Keeps) (hordered : p.mip.blktree.Ordered blockCmp)
    (hall : all = pre ++ r :: post) (hp : part ino pre = some p) (hino : r.dip.inode = ino) :
    ∃ p', part ino (pre ++ [r]) = some p' ∧ p'.Keeps ∧ p'.mip.blktree.Ordered blockCmp ∧
      (r ∈ q.entered ∨ ∃ s ∈ p.entered, r.dip.stamp < s.dip.stamp) := by
  rw [hall, append_cons, part_append] at hq
  obtain ⟨p', hp', hrun⟩ := Option.bind_eq_some_iff.mp hq
  have hscan : p.scan r = some p' := by
    rw [part_concat, if_pos hino, hp] at hp'
    exact hp'
  have hsub : p.entered ⊆ p'.entered := by
    rcases Part.scan_entered hscan with heq | heq <;> simp [heq]
  have hlater := Part.run_subset hrun
  -- the block of a record in front is not that of a later one
  have hne : ∀ s ∈ p.entered, ∀ t ∈ r :: post, t.block ≠ s.block := by
    intro s hs t ht heq
    have hs := (mem_filter.mp ((part_entered hp).subset hs)).1
    rw [hall] at hnodup hplaces
    have hts := hplaces t (by simp [mem_cons.mp ht]) s (by simp [hs]) (congrArg Block.cgno heq)
      (congrArg Block.cgblk heq)
    exact (nodup_append.mp hnodup).2.2 s hs t ht hts.symm
  obtain ⟨hkeeps', hordered', houtcome⟩ := h.scan hordered (part_tree hp) hscan
    (fun s hs => (hne s hs r (by simp)).symm) fun s hs => by
      by_contra hlost
      refine Part.run_lost (fun t ht => hne s hs t ?_) hlost hrun (hkeeps s (hlater (hsub hs)))
      simp [(mem_filter.mp ht).1]
  exact ⟨p', hp', hkeeps', hordered', houtcome.imp_left fun hr => hlater hr⟩

theorem Part.Keeps.before (hall : all = pre ++ post) :
    ∃ p, part ino pre = some p ∧ p.Keeps ∧ p.mip.blktree.Ordered blockCmp := by
  induction pre using List.reverseRecOn generalizing post with
  | nil => exact ⟨_, rfl, by simp [Part.Keeps], List.Pairwise.nil⟩
  | append_singleton pre r ih =>
    have hall' : all = pre ++ r :: post := by simpa using hall
    obtain ⟨p, hp, h, hordered⟩ := ih hall'
    by_cases hino : r.dip.inode = ino
    · obtain ⟨p', hp', h', hordered', -⟩ :=
        Part.Keeps.step hnodup hplaces hq hkeeps h hordered hall' hp hino
      exact ⟨p', hp', h', hordered'⟩
    · exact ⟨p, by rw [part_concat, if_neg hino, hp], h, hordered⟩

/-- One of the newest records is entered. -/
theorem Part.Keeps.newest (hr : r ∈ all) (hino : r.dip.inode = ino)
    (hnewest : ∀ s ∈ all, s.dip.inode = ino → s.dip.stamp ≤ r.dip.stamp) : r ∈ q.entered := by
  obtain ⟨pre, post, hall⟩ := append_of_mem hr
  obtain ⟨p, hp, h, hordered⟩ := Part.Keeps.before hnodup hplaces hq hkeeps hall
  obtain ⟨-, -, -, -, hentered | ⟨s, hs, holder⟩⟩ :=
    Part.Keeps.step hnodup hplaces hq hkeeps h hordered hall hp hino
  · exact hentered
  · obtain ⟨hs, hino'⟩ := mem_of_entered hp hs
    exact absurd holder (not_lt.mpr (hnewest s (by simp [hall, hs]) hino'))

theorem Part.Keeps.block_eq (hr : r ∈ q.entered) (hs : s ∈ q.entered)
    (hcmp : blockCmp r.block s.block = .eq) : s.block = r.block := by
  obtain ⟨p, hp, -, hordered⟩ := Part.Keeps.before hnodup hplaces hq hkeeps (append_nil all).symm
  cases hq.symm.trans hp
  exact Part.eq_of_cmp hordered (hkeeps r hr) (hkeeps s hs) hcmp

end Kept

/-! ## All orders of a set of records -/

theorem scancg_read {bread : ℕ → Option Table} (h : scancg g bread empty = .ok mmp) :
    ∃ tables : ℕ → Table, ∀ cg < g.ncg.toNat, bread (g.cgblk cg) = some (tables cg) := by
  refine ⟨fun cg => (bread (g.cgblk cg)).getD (tableOf []), fun cg hcg => ?_⟩
  cases hread : bread (g.cgblk cg) with
  | some table => simp [hread]
  | none =>
    obtain ⟨first, second, hsplit⟩ := append_of_mem (mem_range.mpr hcg)
    rw [scancg, hsplit, foldlM_append] at h
    simp only [foldlM_cons, hread] at h
    change Except.bind _ _ = _ at h
    unfold Except.bind at h
    split at h <;> cases h

section Orders

variable {bread : ℕ → Option Table} {tables : ℕ → Table}

/-- Whatever the order in which the records lie in the groups, a bit is set if the block is
in a tree, and the block that is taken for free is not, nor is it the descriptor's. -/
def MarkedAlways (g : Geometry) (dips : List Dinode) : Prop :=
  ∀ bread tables, Stored g dips bread tables →
    ∃ mmp, scancg g bread Mount.empty = .ok mmp ∧
      (∀ cg blk, bitAt (mmp.bmap cg) blk = true ↔ mmp.Referenced cg blk) ∧
      ∀ cg < g.ncg.toNat, ∀ blk, mmp.getfreeblk g cg = some blk →
        blk < g.blkpercg ∧ ¬ mmp.Referenced cg blk ∧ blk ≠ g.blkpercg - 1

theorem eq_of_clash (hapart : dips.Pairwise fun d e => ¬ d.Clash e) {d e : Dinode} (hd : d ∈ dips)
    (he : e ∈ dips) (hclash : d.Clash e) : d = e := by
  have : Std.Symm fun d e : Dinode => ¬ d.Clash e := ⟨fun _ _ hne h => hne h.symm⟩
  by_contra hne
  exact hapart.forall hd he hne hclash

theorem harmless_of_apart (hapart : dips.Pairwise fun d e => ¬ d.Clash e) : Harmless dips where
  pairs := by
    intro d hd e he hclash hsame
    rw [eq_of_clash hapart hd he hclash] at hsame
    exact absurd ⟨rfl, rfl⟩ hsame
  triples := by
    intro d hd e he f hf hde hdf hef
    rw [eq_of_clash hapart hd he hde] at hdf
    exact absurd hdf hef

/-- Without records that are taken for the same, all are in the trees. -/
theorem keeps_of_apart (ino : UInt64) (hapart : dips.Pairwise fun d e => ¬ d.Clash e)
    (hscanned : Scanned dips all) :
    ∃ p, part ino all = some p ∧ ∀ s ∈ all, s.dip.inode = ino → s.block ∈ p.tree := by
  obtain ⟨p, hp, h⟩ := part_holds ino (harmless_of_apart hapart) hscanned
  refine ⟨p, hp, fun s hs hino => h.kept s hs hino ?_⟩
  rintro ⟨e, he, hsame, hlt⟩
  rw [eq_of_clash hapart he (hscanned.mem s hs) hsame.clash] at hlt
  exact lt_irrefl _ hlt

theorem bits_of_apart (hapart : dips.Pairwise fun d e => ¬ d.Clash e)
    (hscanned : Scanned dips all) (h : Shows all mmp) :
    (∀ cg blk, bitAt (mmp.bmap cg) blk = true ↔ mmp.Referenced cg blk) ∧
      ∀ cg blk, bitAt (mmp.bmap cg) blk = true ↔ ∃ r ∈ all, r.cg = cg ∧ r.blk = blk := by
  constructor
  · refine (h.bits_iff hscanned.places).mpr fun ino p hp s hs => ?_
    obtain ⟨p', hp', hin⟩ := keeps_of_apart ino hapart hscanned
    cases hp.symm.trans hp'
    exact hin s (mem_of_entered hp hs).1 (mem_of_entered hp hs).2
  · intro cg blk
    rw [h.bits]
    constructor
    · rintro ⟨ino, p, hp, s, hs, hplace⟩
      exact ⟨s, (mem_of_entered hp hs).1, hplace⟩
    · rintro ⟨r, hr, hplace⟩
      obtain ⟨p, hp, hin⟩ := keeps_of_apart r.dip.inode hapart hscanned
      obtain ⟨s, hs, heq⟩ := part_tree hp _ (hin r hr rfl)
      rw [hscanned.block_inj (mem_of_entered hp hs).1 hr heq] at hs
      exact ⟨_, p, hp, r, hs, hplace⟩

section

variable (hdistinct : dips.Pairwise fun d e => d.Same e → d.stamp ≠ e.stamp) (hbelow : g.Below)
include hdistinct hbelow

theorem markedAlways (hapart : dips.Pairwise fun d e => ¬ d.Clash e)
    (hroom : dips.length < g.blkpercg - 1) : MarkedAlways g dips := by
  intro bread tables hstored
  have hscanned := hstored.scanned hdistinct
  rcases scancg_shows (hstored.read_low hbelow) with ⟨-, ino, hnone⟩ | ⟨mmp, hscan, hshows⟩
  · obtain ⟨p, hp, -⟩ := keeps_of_apart ino hapart hscanned
    cases hnone.symm.trans hp
  obtain ⟨hmarked, hbits⟩ := bits_of_apart hapart hscanned hshows
  refine ⟨mmp, hscan, hmarked, fun cg _ blk hblk => ?_⟩
  rcases getfreeblk_spec g mmp cg with ⟨hnone, -⟩ | ⟨blk', hlt, hblk', hclear, hset⟩
  · cases hnone.symm.trans hblk
  cases hblk.symm.trans hblk'
  refine ⟨hlt, by rw [← hmarked, hclear]; simp, ?_⟩
  rintro rfl
  -- all other blocks would be in use
  have hsub : List.range (g.blkpercg - 1) ⊆ (records g tables).map Record.blk := by
    intro other hother
    obtain ⟨r, hr, -, hblk⟩ := (hbits cg other).mp (hset other (mem_range.mp hother))
    exact mem_map.mpr ⟨r, hr, hblk⟩
  have hle := (subperm_of_subset nodup_range hsub).length_le
  rw [length_range, length_map, ← length_map (f := Record.dip), hstored.dips.length_eq] at hle
  omega

omit hdistinct in
theorem MarkedAlways.shows (h : MarkedAlways g dips) (hstored : Stored g dips bread tables) :
    ∃ mmp, Shows (records g tables) mmp ∧
      (∀ cg blk, bitAt (mmp.bmap cg) blk = true ↔ mmp.Referenced cg blk) ∧
      ∀ cg < g.ncg.toNat, mmp.getfreeblk g cg ≠ some (g.blkpercg - 1) := by
  obtain ⟨mmp, hscan, hbits, hfree⟩ := h _ _ hstored
  rcases scancg_shows (hstored.read_low hbelow) with ⟨herror, -⟩ | ⟨mmp', hscan', hshows⟩
  · cases herror.symm.trans hscan
  · cases hscan.symm.trans hscan'
    exact ⟨mmp, hshows, hbits, fun cg hcg hlast => (hfree cg hcg _ hlast).2.2 rfl⟩

section Necessary

variable (hused : ∀ d ∈ dips, d.size ≠ 0) (hfits : dips.length ≤ g.slots)
  (hright : MarkedAlways g dips)
include hused hfits hright

theorem MarkedAlways.apart : dips.Pairwise fun d e => ¬ d.Clash e := by
  have hnodup : dips.Nodup := hdistinct.imp fun hne heq => by
    subst heq
    exact hne ⟨rfl, rfl⟩ rfl
  -- the older one of two comes first
  have hle : ∀ d ∈ dips, ∀ e ∈ dips, d ≠ e → d.stamp ≤ e.stamp → ¬ d.Clash e := by
    intro d hd e he hne hle hclash
    obtain ⟨rest, hperm, hlength, hdips⟩ :=
      exists_order hused hfits [d, e] (by simpa using hne) (by simp [hd, he])
    have hstored := stored_layout hlength hperm
    have hscanned := hstored.scanned hdistinct
    obtain ⟨mmp, hshows, hbits, -⟩ := hright.shows hbelow hstored
    have hkeeps := (hshows.bits_iff hscanned.places).mp hbits
    have hparts := hshows.exists_part
    generalize records g (layout g ([d, e] ++ rest)) = all at *
    obtain ⟨a, tail, rfl, rfl, htail⟩ := map_eq_cons_iff.mp hdips
    obtain ⟨b, rest, rfl, rfl, -⟩ := map_eq_cons_iff.mp htail
    obtain ⟨q, hq⟩ := hparts a (by simp)
    exact (hscanned.first_lost hclash hle hq).2 (hkeeps _ _ hq a (first_entered hq))
  refine hnodup.pairwise_of_forall_ne fun d hd e he hne hclash => ?_
  rcases le_total d.stamp e.stamp with h | h
  · exact hle d hd e he hne h hclash
  · exact hle e he d hd hne.symm h hclash.symm

theorem MarkedAlways.room (hne : dips ≠ []) : dips.length < g.blkpercg - 1 := by
  by_contra! hfull
  have hapart := hright.apart hdistinct hbelow hused hfits
  obtain ⟨rest, hperm, hlength, hdips⟩ := exists_order hused hfits [] nodup_nil (by simp)
  have hstored := stored_layout hlength hperm
  have hrest := hstored.dips
  rw [hdips] at hrest
  have hcount := hrest.length_eq
  obtain ⟨mmp, hshows, -, hfree⟩ := hright.shows hbelow hstored
  obtain ⟨-, hbits⟩ := bits_of_apart hapart (hstored.scanned hdistinct) hshows
  have hgroups : 0 < g.ncg.toNat := by
    rw [Nat.pos_iff_ne_zero]
    intro hzero
    rw [Geometry.slots, hzero, Nat.zero_mul] at hfits
    exact hne (length_eq_zero_iff.mp (Nat.le_zero.mp hfits))
  -- the first group is full
  have hset : ∀ blk < g.blkpercg - 1, bitAt (mmp.bmap 0) blk = true := by
    intro blk hblk
    have hget : ([] ++ rest).getD (0 * (g.blkpercg - 1) + blk) unused ∈ dips := by
      rw [Nat.zero_mul, Nat.zero_add, getD_eq_getElem _ _ (by omega)]
      exact hrest.mem_iff.mp (getElem_mem _)
    exact (hbits 0 blk).mpr ⟨_, mem_layout hgroups hblk rfl (hused _ hget), rfl, rfl⟩
  have hclear : ¬ bitAt (mmp.bmap 0) (g.blkpercg - 1) = true := by
    rw [hbits]
    rintro ⟨r, hr, -, hblk⟩
    exact absurd (mem_records.mp hr).2.2.1 hblk.not_lt
  have hblocks := g.blkpercg_ge
  rcases getfreeblk_spec g mmp 0 with ⟨-, hall⟩ | ⟨blk, hlt, hblk, hclear', -⟩
  · exact hclear (hall _ (by omega))
  · rcases Nat.lt_or_ge blk (g.blkpercg - 1) with hlow | hhigh
    · cases (hset blk hlow).symm.trans hclear'
    · rw [show blk = g.blkpercg - 1 by omega] at hblk
      exact hfree 0 hgroups hblk

omit hdistinct hbelow in
/-- In place of a table past 4 GB another one is read a second time, or no table at all. -/
theorem MarkedAlways.below (hne : dips ≠ []) : g.Below := by
  rw [Geometry.below_iff]
  by_contra! ⟨j, hj, hhigh⟩
  have hlow := g.cgblk_lt j
  by_cases htable : ∃ cg < g.ncg.toNat, g.tableBlk cg = g.cgblk j
  · obtain ⟨cg, hcg, hblk⟩ := htable
    obtain ⟨d, hd, hmax⟩ := dips.toFinset.exists_max_image Dinode.stamp
      ⟨_, mem_toFinset.mpr (head_mem hne)⟩
    rw [mem_toFinset] at hd
    obtain ⟨front, e, back, hfront, hlength, hperm⟩ := exists_entry hused hfits hd hcg
    have hstored := stored_layout hlength hperm
    generalize hentries : front ++ d :: e :: back = entries at *
    obtain ⟨mmp, hscan, hbits, -⟩ := hright _ _ hstored
    obtain ⟨tables, hread⟩ := scancg_read hscan
    have hsource := fun i hi => readAt_eq_some.mp (hread i hi)
    rcases scancg_shows hread with ⟨herror, -⟩ | ⟨mmp', hscan', hshows⟩
    · cases herror.symm.trans hscan
    cases hscan.symm.trans hscan'
    have hfirst : ⟨cg, 0, d⟩ ∈ records g (layout g entries) :=
      mem_layout hcg (by have := g.blkpercg_ge; omega) (by simp [← hentries, ← hfront]) (hused d hd)
    have htwice : ∀ i < g.ncg.toNat, g.cgblk i = g.tableBlk cg → ⟨i, 0, d⟩ ∈ records g tables := by
      intro i hi heq
      obtain ⟨i', -, hblk', htable⟩ := hsource i hi
      rw [Geometry.tableBlk_inj (hblk'.trans heq)] at htable
      obtain ⟨-, hentry⟩ := mem_records.mp hfirst
      rw [htable] at hentry
      exact mem_records.mpr ⟨hi, hentry⟩
    have hnewest : ∀ s ∈ records g tables, s.dip.inode = d.inode → s.dip.stamp ≤ d.stamp := by
      intro s hs _
      obtain ⟨hi, hentry⟩ := mem_records.mp hs
      obtain ⟨i', hi', -, htable⟩ := hsource s.cg hi
      rw [← htable] at hentry
      exact hmax _ (mem_toFinset.mpr
        (hstored.dip_mem ⟨i', s.blk, s.dip⟩ (mem_records.mpr ⟨hi', hentry⟩)))
    have ha := htwice cg hcg (Geometry.cgblk_eq hcg (by omega))
    have hb := htwice j hj hblk.symm
    have hplaces : ∀ r ∈ records g tables, ∀ s ∈ records g tables, r.cg = s.cg → r.blk = s.blk →
      r = s := fun r hr s hs => records_place hr hs
    obtain ⟨q, hq⟩ := hshows.exists_part _ ha
    have hkeeps := (hshows.bits_iff hplaces).mp hbits _ _ hq
    have hentered : ∀ i, ⟨i, 0, d⟩ ∈ records g tables → ⟨i, 0, d⟩ ∈ q.entered := fun i hi =>
      Part.Keeps.newest (records_nodup g tables) hplaces hq hkeeps hi rfl hnewest
    have heq := Part.Keeps.block_eq (records_nodup g tables) hplaces hq hkeeps (hentered cg ha)
      (hentered j hb) (clash_iff.mp (Dinode.Same.clash ⟨rfl, rfl⟩)).2
    cases congrArg Block.cgno heq
    omega
  · obtain ⟨rest, hperm, hlength, -⟩ := exists_order hused hfits [] nodup_nil (by simp)
    obtain ⟨mmp, hscan, -⟩ := hright _ _ (stored_layout hlength hperm)
    obtain ⟨tables, hread⟩ := scancg_read hscan
    obtain ⟨cg, hcg, hblk, -⟩ := readAt_eq_some.mp (hread j hj)
    exact htable ⟨cg, hcg, hblk⟩

end Necessary

end

end Orders

/-- For every set of records: whatever the order in which they lie in the groups, the bits
and the free blocks are right, if and only if the tables lie in the first 4 GB, no two
records are taken for the same and they do not fill a group. -/
theorem bitmap_marks_referenced (g : Geometry) {dips : List Dinode} (hne : dips ≠ [])
    (hused : ∀ d ∈ dips, d.size ≠ 0) (hfits : dips.length ≤ g.ncg.toNat * (g.blkpercg - 1))
    (hdistinct : dips.Pairwise fun d e => d.Same e → d.stamp ≠ e.stamp) :
    MarkedAlways g dips ↔
      g.Below ∧ (dips.Pairwise fun d e => ¬ d.Clash e) ∧ dips.length < g.blkpercg - 1 := by
  constructor
  · intro hright
    have hbelow := hright.below hused hfits hne
    exact ⟨hbelow, hright.apart hdistinct hbelow hused hfits,
      hright.room hdistinct hbelow hused hfits hne⟩
  · rintro ⟨hbelow, hapart, hroom⟩
    exact markedAlways hdistinct hbelow hapart hroom

theorem bitmap_marks_referenced_two_files :
    MarkedAlways oneGroup
      [⟨2, 0, 0, 0, 1, 512⟩, ⟨3, 0, 0, 0, 1, 100⟩, ⟨2, 512, 0, 0, 1, 512⟩] :=
  (bitmap_marks_referenced oneGroup (by decide) (by decide) (by decide +kernel) (by decide)).mpr
    ⟨by unfold Geometry.Below; decide +kernel, by decide +kernel, by decide +kernel⟩

/-- The first byte of the bitmap, the places of the blocks in the trees and the block that
is taken for free. -/
def marksOf (dips : List Dinode) : Except Stop (Tty.Byte × List ℕ × Option ℕ) :=
  (scancg oneGroup (fun _ => some (tableOf dips)) Mount.empty).map fun mmp =>
    (mmp.bmap 0 0,
      mmp.inotree.toList.flatMap fun mip => mip.blktree.toList.map Block.cgblk,
      mmp.getfreeblk oneGroup 0)

/-- A block that has been replaced keeps its bit, and in a full group the block of the
descriptor is given out. -/
theorem bitmap_leaks :
    marksOf [⟨2, 0, 5, 0, 1, 512⟩, ⟨2, 0, 7, 0, 1, 512⟩] = .ok (0b11, [1], some 2) ∧
      oneGroup.blkpercg = 16 ∧
      marksOf ((List.range 15).map fun i => ⟨2, 512 * UInt64.ofNat i, 0, 0, 1, 512⟩) =
        .ok (0xff, List.range 15, some 15) := by
  refine ⟨?_, ?_, ?_⟩
  · rfl
  · decide +kernel
  · rfl

end AerieKernel.Milfs
