import AerieKernel.MilfsScan

/-!
# What the scan of a MILFS rebuilds

`milfs_block_cmp` takes two blocks for the same if the one at the lower offset is larger,
and then one of them takes the place of the other or is dropped.  A set of records comes
through that in every order if and only if such a block is always out of date when it is
lost, and is older than all that it meets as soon as it meets two.
-/

namespace AerieKernel.Milfs

open List Splay.Tree Mount

open Splay.Tree (Splits Guides)

/-! ## Blocks that are taken for the same -/

/-- `milfs_block_cmp` takes them for the same part of an inode. -/
def Dinode.Clash (d e : Dinode) : Prop :=
  d.inode = e.inode ∧ blockCmp (Record.block ⟨0, 0, d⟩) (Record.block ⟨0, 0, e⟩) = .eq

instance (d e : Dinode) : Decidable (d.Clash e) := inferInstanceAs (Decidable (_ ∧ _))

def Stale (dips : List Dinode) (d : Dinode) : Prop :=
  ∃ e ∈ dips, e.Same d ∧ d.stamp < e.stamp

instance (dips : List Dinode) (d : Dinode) : Decidable (Stale dips d) :=
  inferInstanceAs (Decidable (∃ e ∈ dips, _))

/-- Of two records that are only taken for the same, the older one is out of date; a record
that is taken for the same as two different ones is older than they are. -/
structure Harmless (dips : List Dinode) : Prop where
  pairs : ∀ d ∈ dips, ∀ e ∈ dips, d.Clash e → ¬ d.Same e → d.stamp ≤ e.stamp →
    d.stamp < e.stamp ∧ Stale dips d
  triples : ∀ d ∈ dips, ∀ e ∈ dips, ∀ f ∈ dips, d.Clash e → d.Clash f → ¬ e.Clash f →
    d.stamp < e.stamp

theorem blockCmp_lt {a b : Block} :
    blockCmp a b = .lt ↔ a.offset < b.offset ∧ a.blksize ≤ b.blksize := by
  unfold blockCmp
  rw [← UInt32.not_lt]
  split_ifs with hlt hsize hgt hsize' <;> simp [*]

instance : Std.OrientedCmp blockCmp where
  eq_swap := by
    intro a b
    have hasymm : ¬ (a.offset < b.offset ∧ b.offset < a.offset) := fun h => UInt32.lt_asymm h.1 h.2
    unfold blockCmp
    split_ifs <;> first | rfl | exact absurd ⟨‹_›, ‹_›⟩ hasymm

theorem blockCmp_gt {a b : Block} :
    blockCmp a b = .gt ↔ b.offset < a.offset ∧ b.blksize ≤ a.blksize := by
  rw [← blockCmp_lt, Std.OrientedCmp.gt_iff_lt]

theorem guides_of_ordered {tree : Splay.Tree Block} (h : tree.Ordered blockCmp) (mbp : Block) :
    Guides (blockCmp mbp) tree.toList := by
  apply List.Pairwise.imp _ h
  intro a b hab
  simp only [blockCmp_lt, blockCmp_gt] at hab ⊢
  exact ⟨fun h => ⟨UInt32.lt_trans h.1 hab.1, UInt32.le_trans h.2 hab.2⟩,
    fun h => ⟨UInt32.lt_trans hab.1 h.1, UInt32.le_trans hab.2 h.2⟩⟩

theorem clash_iff {r s : Record} :
    r.dip.Clash s.dip ↔ r.dip.inode = s.dip.inode ∧ blockCmp r.block s.block = .eq := Iff.rfl

theorem Dinode.Clash.symm {d e : Dinode} (h : d.Clash e) : e.Clash d :=
  ⟨h.1.symm, Std.OrientedCmp.eq_symm h.2⟩

theorem Dinode.Same.clash {d e : Dinode} (h : d.Same e) : d.Clash e := by
  refine ⟨h.1, ?_⟩
  simp [blockCmp, Record.block, h.2, UInt32.lt_irrefl]

/-! ## Steps of the scan of an inode -/

namespace Part

variable {p : Part} {r s : Record}

theorem looked_tree (p : Part) (r : Record) : (p.looked r).tree = p.tree := toList_find ..

theorem scan_none (h : (p.mip.blktree.find blockCmp r.block).1 = none) :
    p.scan r = some ((p.looked r).enter r) := by
  rw [scan, h]

theorem scan_some (h : (p.mip.blktree.find blockCmp r.block).1 = some s.block) :
    p.scan r =
      if s.dip.stamp < r.dip.stamp then some (((p.looked r).delete s.block).enter r)
      else if r.dip.stamp < s.dip.stamp then some (p.looked r) else none := by
  rw [scan, h]
  dsimp only
  rw [blkisnew_block]
  split_ifs <;> rfl

def weight (blocks : List Block) : ℕ := (blocks.map fun mbp => mbp.blksize.toNat).sum

theorem enter_spec (hordered : p.mip.blktree.Ordered blockCmp)
    (hnone : ∀ mbp ∈ p.tree, blockCmp r.block mbp ≠ .eq) :
    (p.enter r).mip.blktree.Ordered blockCmp ∧
      (∀ mbp, mbp ∈ (p.enter r).tree ↔ mbp = r.block ∨ mbp ∈ p.tree) ∧
      ∃ left right, (p.enter r).mip.blktree = .node left r.block right ∧
        p.tree = left.toList ++ right.toList := by
  obtain ⟨hordered', hmem, left, right, hins, hlist⟩ :=
    hordered.insert ((guides_of_ordered hordered r.block).splits hnone) hnone
  exact ⟨hordered', hmem, left, right, congrArg Prod.snd hins, hlist⟩

theorem delete_spec {mbp : Block} (hordered : p.mip.blktree.Ordered blockCmp)
    (hmbp : mbp ∈ p.tree) : (p.delete mbp).mip.blktree.Ordered blockCmp ∧
      p.tree.Perm (mbp :: (p.delete mbp).tree) ∧
      ∀ other ∈ (p.delete mbp).tree, blockCmp mbp other ≠ .eq := by
  obtain ⟨first, second, hlist, hother, -, hrest⟩ :=
    remove_spec (hordered.splits_mem hmbp) hmbp Std.ReflCmp.compare_self
  have hrest : (p.delete mbp).tree = first ++ second := hrest
  refine ⟨?_, ?_, ?_⟩
  · rw [Splay.Tree.Ordered, hlist] at hordered
    change (p.delete mbp).tree.Pairwise _
    rw [hrest]
    exact hordered.sublist ((sublist_cons_self _ _).append_left first)
  · rw [hrest, tree, hlist]
    exact perm_middle
  · rwa [hrest]

theorem eq_of_cmp {mbp other : Block} (hordered : p.mip.blktree.Ordered blockCmp)
    (hmbp : mbp ∈ p.tree) (hother : other ∈ p.tree) (hcmp : blockCmp mbp other = .eq) :
    other = mbp := by
  obtain ⟨-, hperm, hrest⟩ := delete_spec hordered hmbp
  rcases mem_cons.mp (hperm.mem_iff.mp hother) with heq | hin
  · exact heq
  · exact absurd hcmp (hrest other hin)

def Sized (p : Part) : Prop := p.mip.size = UInt64.ofNat (weight p.tree)

theorem Sized.enter (h : p.Sized) (hperm : (p.enter r).tree.Perm (r.block :: p.tree)) :
    (p.enter r).Sized := by
  have hweight : weight (p.enter r).tree = weight p.tree + r.block.blksize.toNat := by
    rw [weight, (hperm.map _).sum_eq, map_cons, sum_cons, Nat.add_comm]
    rfl
  rw [Sized, hweight, UInt64.ofNat_add, UInt64.ofNat_uInt32ToNat, ← h]
  rfl

theorem Sized.delete {mbp : Block} (h : p.Sized)
    (hperm : p.tree.Perm (mbp :: (p.delete mbp).tree)) : (p.delete mbp).Sized := by
  have hweight : weight p.tree = weight (p.delete mbp).tree + mbp.blksize.toNat := by
    rw [weight, (hperm.map _).sum_eq, map_cons, sum_cons, Nat.add_comm]
    rfl
  have hsize : (p.delete mbp).mip.size = p.mip.size - mbp.blksize.toUInt64 := rfl
  rw [Sized, hsize, h, hweight, UInt64.ofNat_add, UInt64.ofNat_uInt32ToNat, UInt64.add_sub_cancel]

end Part

/-! ## Every order is harmless -/

/-- What is known of a list of records with the dynamic inodes `dips`. -/
structure Scanned (dips : List Dinode) (all : List Record) : Prop where
  nodup : all.Nodup
  mem : ∀ r ∈ all, r.dip ∈ dips
  places : ∀ r ∈ all, ∀ s ∈ all, r.cg = s.cg → r.blk = s.blk → r = s
  distinct : ∀ r ∈ all, ∀ s ∈ all, r.dip.Same s.dip → r.dip.stamp = s.dip.stamp → r = s

variable {dips : List Dinode} {ino : UInt64} {all seen : List Record} {r s : Record} {p : Part}

theorem Scanned.sublist (h : Scanned dips all) (hsub : seen.Sublist all) : Scanned dips seen where
  nodup := h.nodup.sublist hsub
  mem := fun r hr => h.mem r (hsub.subset hr)
  places := fun r hr s hs => h.places r (hsub.subset hr) s (hsub.subset hs)
  distinct := fun r hr s hs => h.distinct r (hsub.subset hr) s (hsub.subset hs)

theorem Scanned.block_inj (h : Scanned dips all) (hr : r ∈ all) (hs : s ∈ all)
    (heq : r.block = s.block) : r = s :=
  h.places r hr s hs (congrArg Block.cgno heq) (congrArg Block.cgblk heq)

/-- All blocks in the tree are different for `milfs_block_cmp`, and whatever has been seen and
is not out of date is there. -/
structure Holds (dips : List Dinode) (ino : UInt64) (seen : List Record) (p : Part) : Prop where
  ordered : p.mip.blktree.Ordered blockCmp
  mem : ∀ mbp ∈ p.tree, ∃ s ∈ seen, s.dip.inode = ino ∧ s.block = mbp
  kept : ∀ s ∈ seen, s.dip.inode = ino → ¬ Stale dips s.dip → s.block ∈ p.tree
  size : p.Sized

theorem Holds.looked (h : Holds dips ino seen p) (r : Record) :
    Holds dips ino seen (p.looked r) where
  ordered := by
    change (p.looked r).tree.Pairwise _
    rw [Part.looked_tree]
    exact h.ordered
  mem := by
    rw [Part.looked_tree]
    exact h.mem
  kept := by
    rw [Part.looked_tree]
    exact h.kept
  size := by
    rw [Part.Sized, Part.looked_tree]
    exact h.size

/-- A block that is out of date is taken out. -/
theorem Holds.delete (h : Holds dips ino seen p) (hscanned : Scanned dips seen) (hs : s ∈ seen)
    (hmbp : s.block ∈ p.tree) (hstale : Stale dips s.dip) :
    Holds dips ino seen (p.delete s.block) := by
  obtain ⟨hordered, hperm, -⟩ := Part.delete_spec h.ordered hmbp
  refine ⟨hordered, fun mbp hin => h.mem mbp (hperm.mem_iff.mpr (by simp [hin])), ?_,
    h.size.delete hperm⟩
  intro t ht hino hfresh
  rcases mem_cons.mp (hperm.mem_iff.mp (h.kept t ht hino hfresh)) with heq | hin
  · rw [hscanned.block_inj ht hs heq] at hfresh
    exact absurd hstale hfresh
  · exact hin

theorem Holds.enter (h : Holds dips ino seen p) (hinode : r.dip.inode = ino)
    (hnone : ∀ mbp ∈ p.tree, blockCmp r.block mbp ≠ .eq) :
    Holds dips ino (seen ++ [r]) (p.enter r) := by
  obtain ⟨hordered, hmem, left, right, htree, hlist⟩ := Part.enter_spec h.ordered hnone
  refine ⟨hordered, fun mbp hin => ?_, fun s hs hino hfresh => ?_, h.size.enter ?_⟩
  · rcases (hmem mbp).mp hin with rfl | hin
    · exact ⟨r, by simp, hinode, rfl⟩
    · obtain ⟨s, hs, hs'⟩ := h.mem mbp hin
      exact ⟨s, by simp [hs], hs'⟩
  · rcases List.mem_append.mp hs with hs | hs
    · exact (hmem _).mpr (.inr (h.kept s hs hino hfresh))
    · exact (hmem _).mpr (.inl (by rw [mem_singleton.mp hs]))
  · rw [Part.tree, htree, hlist]
    exact perm_middle

theorem Holds.drop (h : Holds dips ino seen p) (hstale : r.dip.inode = ino → Stale dips r.dip) :
    Holds dips ino (seen ++ [r]) p := by
  refine ⟨h.ordered, fun mbp hin => ?_, fun s hs hino hfresh => ?_, h.size⟩
  · obtain ⟨s, hs, hs'⟩ := h.mem mbp hin
    exact ⟨s, by simp [hs], hs'⟩
  · rcases List.mem_append.mp hs with hs | hs
    · exact h.kept s hs hino hfresh
    · rw [mem_singleton.mp hs] at hino hfresh
      exact absurd (hstale hino) hfresh

/-- Of two records that are taken for the same, the older one is out of date. -/
theorem Scanned.stale (h : Scanned dips all) (hharm : Harmless dips) (hr : r ∈ all) (hs : s ∈ all)
    (hclash : r.dip.Clash s.dip) (hle : r.dip.stamp ≤ s.dip.stamp) (hne : r ≠ s) :
    r.dip.stamp < s.dip.stamp ∧ Stale dips r.dip := by
  by_cases hsame : r.dip.Same s.dip
  · have hlt := lt_of_le_of_ne hle fun heq => hne (h.distinct r hr s hs hsame heq)
    exact ⟨hlt, s.dip, h.mem s hs, hsame.symm, hlt⟩
  · exact hharm.pairs _ (h.mem r hr) _ (h.mem s hs) hclash hsame hle

theorem Holds.scan (h : Holds dips ino seen p) (hscanned : Scanned dips (seen ++ [r]))
    (hharm : Harmless dips) (hinode : r.dip.inode = ino) :
    ∃ p', p.scan r = some p' ∧ Holds dips ino (seen ++ [r]) p' := by
  have hlooked := h.looked r
  have htree := Part.looked_tree p r
  cases hfound : (p.mip.blktree.find blockCmp r.block).1 with
  | none =>
    refine ⟨_, Part.scan_none hfound, hlooked.enter hinode ?_⟩
    rw [htree]
    exact find_none (guides_of_ordered h.ordered r.block) hfound
  | some mbp =>
    obtain ⟨hmbp, hcmp⟩ := find_some hfound
    obtain ⟨s, hs, hs', rfl⟩ := h.mem mbp hmbp
    have hne : s ≠ r := by
      rintro rfl
      exact (nodup_append.mp hscanned.nodup).2.2 s hs s (by simp) rfl
    have hclash : r.dip.Clash s.dip := clash_iff.mpr ⟨hinode.trans hs'.symm, hcmp⟩
    rw [Part.scan_some hfound]
    split_ifs with hnewer holder
    · -- nothing else is taken for the same, or the record would be older than all of it
      obtain ⟨-, hstale⟩ := hscanned.stale hharm (by simp [hs]) (by simp) hclash.symm hnewer.le hne
      have hmbp : s.block ∈ (p.looked r).tree := by
        rw [htree]
        exact hmbp
      have hdeleted := hlooked.delete (hscanned.sublist (sublist_append_left _ _)) hs hmbp hstale
      obtain ⟨-, -, hother⟩ := Part.delete_spec hlooked.ordered hmbp
      refine ⟨_, rfl, hdeleted.enter hinode fun mbp hin hcmp' => ?_⟩
      obtain ⟨t, ht, ht', rfl⟩ := hdeleted.mem mbp hin
      have hapart : ¬ s.dip.Clash t.dip := fun hst => hother _ hin (clash_iff.mp hst).2
      exact lt_asymm hnewer (hharm.triples _ (hscanned.mem r (by simp)) _
        (hscanned.mem s (by simp [hs])) _ (hscanned.mem t (by simp [ht])) hclash
        (clash_iff.mpr ⟨hinode.trans ht'.symm, hcmp'⟩) hapart)
    · exact ⟨_, rfl, hlooked.drop fun _ =>
        (hscanned.stale hharm (by simp) (by simp [hs]) hclash holder.le hne.symm).2⟩
    · have heq := le_antisymm (not_lt.mp hnewer) (not_lt.mp holder)
      have hlt := (hscanned.stale hharm (by simp) (by simp [hs]) hclash heq.le hne.symm).1
      exact absurd heq hlt.ne

theorem part_holds (ino : UInt64) (hharm : Harmless dips) (hscanned : Scanned dips seen) :
    ∃ p, part ino seen = some p ∧ Holds dips ino seen p := by
  induction seen using List.reverseRecOn with
  | nil => exact ⟨_, rfl, List.Pairwise.nil, by simp [Part.tree, toList], by simp, rfl⟩
  | append_singleton seen r ih =>
    obtain ⟨p, hp, h⟩ := ih (hscanned.sublist (sublist_append_left _ _))
    rw [part_concat, hp]
    split_ifs with hinode
    · exact h.scan hscanned hharm hinode
    · exact ⟨p, rfl, h.drop fun hino => absurd hino hinode⟩

/-! ## The trees after the scan -/

structure KeepsNewest (seen : List Record) (mip : Inode) : Prop where
  newest : ∀ mbp ∈ mip.blktree.toList, ∃ r ∈ seen, r.block = mbp ∧
    r.dip.inode = mip.inode ∧ mbp.offset.toNat = r.dip.offset.toNat ∧
      ∀ s ∈ seen, s.dip.Same r.dip → s ≠ r → blkisnew r.dip s.block = some true
  covered : ∀ r ∈ seen, r.dip.inode = mip.inode →
    ∃ mbp ∈ mip.blktree.toList, mbp.offset.toNat = r.dip.offset.toNat
  single : (mip.blktree.toList.map Block.offset).Nodup
  size : mip.size.toNat = (mip.blktree.toList.map fun mbp => mbp.blksize.toNat).sum

/-- Each inode of the records is there once, with the newest record for each offset. -/
structure Rebuilt (seen : List Record) (mmp : Mount) : Prop where
  single : (mmp.inotree.toList.map Inode.inode).Nodup
  known : ∀ ino, ino ∈ mmp.inotree.toList.map Inode.inode ↔ ∃ r ∈ seen, r.dip.inode = ino
  inodes : ∀ mip ∈ mmp.inotree.toList, KeepsNewest seen mip

theorem exists_current {d : Dinode} (hd : d ∈ dips) :
    ∃ e ∈ dips, e.Same d ∧ ¬ Stale dips e := by
  let alike := dips.toFinset.filter fun e => e.Same d
  have hne : alike.Nonempty := ⟨d, Finset.mem_filter.mpr ⟨mem_toFinset.mpr hd, rfl, rfl⟩⟩
  obtain ⟨e, he, hmax⟩ := alike.exists_max_image Dinode.stamp hne
  simp only [alike, Finset.mem_filter, mem_toFinset] at he hmax
  refine ⟨e, he.1, he.2, ?_⟩
  rintro ⟨f, hf, hsame, hlt⟩
  exact absurd hlt (not_lt.mpr (hmax f ⟨hf, hsame.trans he.2⟩))

theorem block_offset (h : r.dip.offset.toNat < 2 ^ 32) :
    r.block.offset.toNat = r.dip.offset.toNat := by
  rw [Record.block, UInt64.toNat_toUInt32, Nat.mod_eq_of_lt h]

theorem Part.weight_le (blocks : List Block) :
    Part.weight blocks ≤ blocks.length * (2 ^ 32 - 1) := by
  have hle := sum_le_card_nsmul (blocks.map fun mbp => mbp.blksize.toNat) (2 ^ 32 - 1) ?_
  · rwa [length_map] at hle
  · intro n hn
    obtain ⟨mbp, -, rfl⟩ := mem_map.mp hn
    have := mbp.blksize.toNat_lt
    omega

theorem sum_sizes_lt {blocks : List Block} (hnodup : (blocks.map Block.offset).Nodup) :
    Part.weight blocks < 2 ^ 64 := by
  have hoffsets : (blocks.map fun mbp => mbp.offset.toNat).Nodup := by
    have hmap := hnodup.map (f := UInt32.toNat) fun _ _ => UInt32.toNat_inj.mp
    rwa [map_map] at hmap
  have hlength : blocks.length ≤ 2 ^ 32 := by
    have hsub : (blocks.map fun mbp => mbp.offset.toNat).toFinset ⊆ Finset.range (2 ^ 32) := by
      intro n hn
      obtain ⟨mbp, -, rfl⟩ := mem_map.mp (mem_toFinset.mp hn)
      exact Finset.mem_range.mpr mbp.offset.toNat_lt
    have hcard := Finset.card_le_card hsub
    rwa [toFinset_card_of_nodup hoffsets, length_map, Finset.card_range] at hcard
  have hsum := Part.weight_le blocks
  have hmul := Nat.mul_le_mul_right (2 ^ 32 - 1) hlength
  omega

/-- After a scan in any order of all records nothing in the trees is out of date. -/
theorem Holds.keepsNewest (h : Holds dips p.mip.inode all p) (hscanned : Scanned dips all)
    (hall : ∀ d ∈ dips, ∃ r ∈ all, r.dip = d) (hoffsets : ∀ d ∈ dips, d.offset.toNat < 2 ^ 32) :
    KeepsNewest all p.mip := by
  have hoffset : ∀ {r}, r ∈ all → r.block.offset.toNat = r.dip.offset.toNat := fun hr =>
    block_offset (hoffsets _ (hscanned.mem _ hr))
  have hcurrent : ∀ {r}, r ∈ all → r.dip.inode = p.mip.inode →
      ∃ t ∈ all, t.dip.Same r.dip ∧ ¬ Stale dips t.dip ∧ t.block ∈ p.tree := by
    intro r hr hinode
    obtain ⟨e, he, hsame, hfresh⟩ := exists_current (hscanned.mem r hr)
    obtain ⟨t, ht, rfl⟩ := hall e he
    exact ⟨t, ht, hsame, hfresh, h.kept t ht (hsame.1.trans hinode) hfresh⟩
  have hsingle : (p.tree.map Block.offset).Nodup := by
    rw [List.Nodup, pairwise_map]
    apply List.Pairwise.imp _ h.ordered
    intro a b hab heq
    exact UInt32.lt_irrefl _ (heq ▸ (blockCmp_lt.mp hab).1)
  refine ⟨fun mbp hmbp => ?_, fun r hr hinode => ?_, hsingle, ?_⟩
  · obtain ⟨s, hs, hinode, rfl⟩ := h.mem mbp hmbp
    obtain ⟨t, ht, hsame, hfresh, hin⟩ := hcurrent hs hinode
    obtain rfl : s = t := hscanned.block_inj hs ht
      (Part.eq_of_cmp h.ordered hin hmbp (clash_iff.mp hsame.clash).2)
    refine ⟨s, hs, rfl, hinode, hoffset hs, fun u hu husame hne => ?_⟩
    rw [blkisnew_block, if_pos]
    refine lt_of_le_of_ne (not_lt.mp fun hlt => hfresh ⟨u.dip, hscanned.mem u hu, husame, hlt⟩) ?_
    exact fun heq => hne (hscanned.distinct u hu s hs husame heq)
  · obtain ⟨t, ht, hsame, -, hin⟩ := hcurrent hr hinode
    exact ⟨t.block, hin, by rw [hoffset ht, hsame.2]⟩
  · rw [h.size, UInt64.toNat_ofNat_of_lt' (sum_sizes_lt hsingle)]
    rfl

/-- What is not out of date is in the tree of its inode. -/
theorem KeepsNewest.current {mip : Inode} (h : KeepsNewest all mip)
    (hmem : ∀ s ∈ all, s.dip ∈ dips) (hr : r ∈ all) (hinode : r.dip.inode = mip.inode)
    (hfresh : ¬ Stale dips r.dip) : r.block ∈ mip.blktree.toList := by
  obtain ⟨mbp, hmbp, hoffset⟩ := h.covered r hr hinode
  obtain ⟨t, ht, rfl, hinode', hoffset', hnewest⟩ := h.newest mbp hmbp
  have hsame : r.dip.Same t.dip :=
    ⟨hinode.trans hinode'.symm, UInt64.toNat_inj.mp (hoffset.symm.trans hoffset')⟩
  by_cases heq : r = t
  · rwa [heq]
  · have hnew := hnewest r hr hsame heq
    rw [blkisnew_block] at hnew
    split_ifs at hnew with hlt hgt
    · exact absurd ⟨t.dip, hmem t ht, hsame.symm, hlt⟩ hfresh
    · cases hnew

/-! ## Layouts -/

/-- The tables can be read, and they hold `dips` in whatever order. -/
structure Stored (g : Geometry) (dips : List Dinode) (bread : ℕ → Option Table)
    (tables : ℕ → Table) : Prop where
  read : ∀ cg < g.ncg.toNat, bread (g.tableBlk cg) = some (tables cg)
  dips : ((records g tables).map Record.dip).Perm dips

section Layouts

variable {g : Geometry} {bread : ℕ → Option Table} {tables : ℕ → Table} {entries : List Dinode}

theorem Stored.dip_mem (h : Stored g dips bread tables) :
    ∀ r ∈ records g tables, r.dip ∈ dips := fun _ hr =>
  h.dips.mem_iff.mp (mem_map_of_mem hr)

theorem Stored.scanned (h : Stored g dips bread tables)
    (hdistinct : dips.Pairwise fun d e => d.Same e → d.stamp ≠ e.stamp) :
    Scanned dips (records g tables) := by
  refine ⟨records_nodup g tables, h.dip_mem,
    fun r hr s hs => records_place hr hs, fun r hr s hs hsame heq => ?_⟩
  have hsymm : ∀ {d e : Dinode}, (d.Same e → d.stamp ≠ e.stamp) → e.Same d → e.stamp ≠ d.stamp :=
    fun hne hsame => (hne hsame.symm).symm
  have hpairwise := (h.dips.pairwise_iff hsymm).mpr hdistinct
  rw [pairwise_map] at hpairwise
  have : Std.Symm fun r s : Record => r.dip.Same s.dip → r.dip.stamp ≠ s.dip.stamp :=
    ⟨fun _ _ => hsymm⟩
  by_contra hne
  exact hpairwise.forall hr hs hne hsame heq

theorem Stored.exists_record (h : Stored g dips bread tables) {d : Dinode} (hd : d ∈ dips) :
    ∃ r ∈ records g tables, r.dip = d := by
  simpa using h.dips.mem_iff.mpr hd

theorem Stored.read_low (h : Stored g dips bread tables) (hbelow : g.Below) :
    ∀ cg < g.ncg.toNat, bread (g.cgblk cg) = some (tables cg) := by
  intro cg hcg
  rw [Geometry.cgblk_eq hcg (Geometry.below_iff.mp hbelow cg hcg)]
  exact h.read cg hcg

variable (g) in
def Geometry.slots : ℕ := g.ncg.toNat * (g.blkpercg - 1)

def unused : Dinode := ⟨0, 0, 0, 0, 0, 0⟩

/-- Tables with these entries, one group after the other. -/
def layout (g : Geometry) (entries : List Dinode) (cg : ℕ) : Table where
  dip := fun blk =>
    if blk < g.blkpercg - 1 then entries.getD (cg * (g.blkpercg - 1) + blk) unused else unused
  magic := cgdescMagic

def readAt (g : Geometry) (tables : ℕ → Table) (blkno : ℕ) : Option Table :=
  ((List.range g.ncg.toNat).find? fun cg => g.tableBlk cg = blkno).map tables

theorem readAt_eq_some {blkno : ℕ} {table : Table} : readAt g tables blkno = some table ↔
    ∃ cg < g.ncg.toNat, g.tableBlk cg = blkno ∧ tables cg = table := by
  rw [readAt, Option.map_eq_some_iff]
  constructor
  · rintro ⟨cg, hfind, htable⟩
    exact ⟨cg, mem_range.mp (mem_of_find?_eq_some hfind), by simpa using find?_some hfind, htable⟩
  · rintro ⟨cg, hcg, rfl, htable⟩
    cases hfind : (List.range g.ncg.toNat).find? fun cg' => g.tableBlk cg' = g.tableBlk cg with
    | none => simpa using find?_eq_none.mp hfind cg (mem_range.mpr hcg)
    | some cg' =>
      have heq : g.tableBlk cg' = g.tableBlk cg := by simpa using find?_some hfind
      exact ⟨cg', rfl, by rwa [Geometry.tableBlk_inj heq]⟩

theorem flatMap_range {α : Type*} (f : ℕ → ℕ → α) (m n : ℕ) :
    ((List.range m).flatMap fun i => (List.range n).map (f i)) =
      (List.range (m * n)).map fun k => f (k / n) (k % n) := by
  induction m with
  | zero => simp
  | succ m ih =>
    rw [range_succ, flatMap_append, ih, Nat.succ_mul, range_add, map_append, map_map]
    congr 1
    rw [flatMap_singleton]
    refine map_congr_left fun k hk => ?_
    have hk := mem_range.mp hk
    rw [Function.comp_apply, Nat.mul_comm, Nat.mul_add_div (by omega), Nat.div_eq_of_lt hk,
      Nat.mul_add_mod, Nat.mod_eq_of_lt hk, Nat.add_zero]

theorem layout_dips (hfits : entries.length ≤ g.slots) :
    (records g (layout g entries)).map Record.dip = entries.filter fun d => d.size ≠ 0 := by
  have hgroup : ∀ cg, groupRecords g (layout g entries cg) cg =
      ((List.range (g.blkpercg - 1)).map fun blk =>
        (⟨cg, blk, entries.getD (cg * (g.blkpercg - 1) + blk) unused⟩ : Record)).filter
          fun r => r.dip.size ≠ 0 := by
    intro cg
    rw [groupRecords, if_neg (by simp [layout])]
    congr 1
    refine map_congr_left fun blk hblk => ?_
    simp [layout, mem_range.mp hblk]
  have hpad : ((List.range g.slots).map fun k => entries.getD k unused) =
      entries ++ replicate (g.slots - entries.length) unused := by
    refine ext_getElem (by simp; omega) fun k hk hk' => ?_
    rw [getElem_map, getElem_range, getElem_append, List.getD]
    split_ifs with hlt
    · simp [hlt]
    · simp [Nat.le_of_not_lt hlt]
  have hentries : (entries.filter fun d => d.size ≠ 0) =
      ((List.range g.slots).map fun k => entries.getD k unused).filter fun d => d.size ≠ 0 := by
    rw [hpad, filter_append, filter_replicate]
    simp [unused]
  simp only [records, hgroup]
  rw [← filter_flatMap, flatMap_range, ← Geometry.slots, hentries, filter_map, filter_map, map_map]
  simp only [Function.comp_def, Nat.div_add_mod']

theorem mem_layout {cg blk : ℕ} {d : Dinode} (hcg : cg < g.ncg.toNat) (hblk : blk < g.blkpercg - 1)
    (hentry : entries.getD (cg * (g.blkpercg - 1) + blk) unused = d) (hused : d.size ≠ 0) :
    ⟨cg, blk, d⟩ ∈ records g (layout g entries) :=
  mem_records.mpr ⟨hcg, rfl, hblk, by simp only [layout, if_pos hblk, hentry], hused⟩

theorem Geometry.blkpercg_ge (g : Geometry) : 16 ≤ g.blkpercg := by
  have hpow : 2 ^ 4 ≤ 2 ^ ((g.cgbits - 5) / 2) := by
    have := g.low
    exact Nat.pow_le_pow_right (by norm_num) (by omega)
  rwa [g.blkpercg_eq]

/-- The first two entries of a group change places. -/
theorem layout_swap {front back : List Dinode} {d e : Dinode} {cg j : ℕ}
    (hfront : front.length = j * (g.blkpercg - 1)) (hcg : cg ≠ j) :
    layout g (front ++ d :: e :: back) cg = layout g (front ++ e :: d :: back) cg := by
  have hblocks := g.blkpercg_ge
  unfold layout
  congr 1
  funext blk
  split_ifs with hblk
  · rw [List.getD, List.getD]
    congr 1
    rcases lt_or_gt_of_ne hcg with hlt | hgt
    · have hmul := Nat.mul_le_mul_right (g.blkpercg - 1) hlt
      rw [Nat.succ_mul] at hmul
      rw [getElem?_append_left (by omega), getElem?_append_left (by omega)]
    · have hmul := Nat.mul_le_mul_right (g.blkpercg - 1) hgt
      rw [Nat.succ_mul] at hmul
      obtain ⟨k, hk⟩ := Nat.exists_eq_add_of_le
        (show front.length + 2 ≤ cg * (g.blkpercg - 1) + blk by omega)
      rw [hk, getElem?_append_right (by omega), getElem?_append_right (by omega),
        show front.length + 2 + k - front.length = k + 2 by omega]
      rfl
  · rfl

theorem stored_layout (hfits : entries.length ≤ g.slots)
    (hperm : (entries.filter fun d => d.size ≠ 0).Perm dips) :
    Stored g dips (readAt g (layout g entries)) (layout g entries) where
  read := fun cg hcg => readAt_eq_some.mpr ⟨cg, hcg, rfl, rfl⟩
  dips := by rwa [layout_dips hfits]

end Layouts

/-! ## What is lost stays lost -/

namespace Part

variable {p' : Part} {mbp : Block}

theorem weight_subperm {blocks blocks' : List Block} (h : blocks <+~ blocks') :
    weight blocks ≤ weight blocks' := by
  obtain ⟨same, hperm, hsub⟩ := h
  rw [weight, ← (hperm.map _).sum_eq]
  exact (hsub.map _).sum_le_sum fun _ _ => Nat.zero_le _

/-- Whatever the comparison does, no more than one block is added. -/
theorem scan_effect (h : p.scan r = some p') :
    (p'.tree = p.tree ∧ p'.mip.size = p.mip.size ∧ p'.entered = p.entered) ∨
      ∃ gone kept, gone ++ kept <+~ p.tree ∧ p'.tree <+~ r.block :: kept ∧
        p'.mip.size = p.mip.size - UInt64.ofNat (weight gone) + r.dip.size.toUInt64 ∧
        p'.entered = p.entered ++ [r] := by
  have htree := looked_tree p r
  cases hfound : (p.mip.blktree.find blockCmp r.block).1 with
  | none =>
    rw [scan_none hfound] at h
    cases h
    refine .inr ⟨[], p.tree, Subperm.refl _, ?_, ?_, rfl⟩
    · rw [← htree]
      exact insert_subperm ..
    · rw [show UInt64.ofNat (weight []) = 0 from rfl, UInt64.sub_zero]
      rfl
  | some mbp =>
    obtain ⟨left, right, hroot⟩ := find_root hfound
    rw [scan, hfound] at h
    dsimp only at h
    split at h <;> cases h
    · exact .inl ⟨htree, rfl, rfl⟩
    · refine .inr ⟨[mbp], ((p.looked r).delete mbp).tree, ?_, insert_subperm .., ?_, rfl⟩
      · have hlooked : (p.looked r).mip.blktree = .node left mbp right := hroot
        rw [← htree, tree, tree, hlooked, delete, Inode.blkdelete, hlooked]
        exact remove_subperm Std.ReflCmp.compare_self
      · rw [show weight [mbp] = mbp.blksize.toNat from rfl, UInt64.ofNat_uInt32ToNat]
        rfl

theorem run_lost {rest : List Record} (hrest : ∀ s ∈ rest, s.block ≠ mbp) (hlost : mbp ∉ p.tree)
    (hrun : rest.foldlM scan p = some p') : mbp ∉ p'.tree := by
  refine run (Q := fun p => mbp ∉ p.tree) ?_ hlost hrun
  intro s hs p p' hlost hscan hin
  rcases scan_effect hscan with ⟨htree, -⟩ | ⟨gone, kept, hkept, htree, -⟩
  · exact hlost (htree ▸ hin)
  · rcases mem_cons.mp (htree.subset hin) with heq | hin
    · exact hrest s hs heq.symm
    · exact hlost (hkept.subset (by simp [hin]))

/-- The size counts blocks that are not in the tree. -/
def Overcounts (p : Part) : Prop :=
  ∃ n, p.mip.size = UInt64.ofNat n ∧ weight p.tree < n ∧ n ≤ weight (p.entered.map Record.block)

theorem Overcounts.scan (h : p.Overcounts) (hscan : p.scan r = some p') : p'.Overcounts := by
  obtain ⟨n, hsize, hlt, hle⟩ := h
  rcases scan_effect hscan with
    ⟨htree, hsize', hentered⟩ | ⟨gone, kept, hkept, htree, hsize', hentered⟩
  · exact ⟨n, hsize' ▸ hsize, htree ▸ hlt, hentered ▸ hle⟩
  · have hkept := weight_subperm hkept
    have htree := weight_subperm htree
    simp only [weight, map_append, sum_append, map_cons, sum_cons] at hkept htree hlt hle
    refine ⟨n - weight gone + r.dip.size.toNat, ?_, ?_, ?_⟩
    · rw [hsize', hsize, UInt64.ofNat_add, UInt64.ofNat_uInt32ToNat, UInt64.ofNat_sub]
      simp only [weight]
      omega
    · simp only [weight, Record.block] at hkept htree ⊢
      omega
    · rw [hentered]
      simp only [weight, map_append, sum_append, map_cons, sum_cons, map_nil, sum_nil]
        at hkept hle ⊢
      simp only [Record.block] at hle ⊢
      omega

/-- A record that is taken for the same as the root of the tree. -/
theorem scan_root {left right : Splay.Tree Block} (htree : p.mip.blktree = .node left s.block right)
    (hcmp : blockCmp r.block s.block = .eq) :
    p.scan r =
      if s.dip.stamp < r.dip.stamp then some ((p.delete s.block).enter r)
      else if r.dip.stamp < s.dip.stamp then some p else none := by
  have hfind : p.mip.blktree.find blockCmp r.block = (some s.block, p.mip.blktree) := by
    rw [htree]
    exact find_hit hcmp
  have hlooked : p.looked r = p := by
    rw [looked, hfind]
  rw [scan_some (by rw [hfind]), hlooked]

end Part

variable {a b d e f : Record} {rest : List Record}

theorem Scanned.block_ne (h : Scanned dips (a :: rest)) : ∀ s ∈ rest, s.block ≠ a.block := by
  intro s hs heq
  rw [h.block_inj (by simp [hs]) (by simp) heq] at hs
  exact (nodup_cons.mp h.nodup).1 hs

namespace Part

def first (ino : UInt64) (r : Record) : Part :=
  ⟨⟨ino, 0 + r.dip.size.toUInt64, .node .nil r.block .nil⟩, [r]⟩

theorem first_tree (ino : UInt64) (r : Record) : (first ino r).tree = [r.block] := rfl

theorem ordered_of_singleton (h : p.tree = [mbp]) : p.mip.blktree.Ordered blockCmp := by
  change p.tree.Pairwise _
  rw [h]
  exact pairwise_singleton _ _

theorem delete_pair {other : Block} (hordered : p.mip.blktree.Ordered blockCmp)
    (hperm : p.tree.Perm (mbp :: [other])) : (p.delete mbp).tree = [other] := by
  have hin : mbp ∈ p.tree := hperm.mem_iff.mpr (by simp)
  obtain ⟨-, hperm', -⟩ := delete_spec hordered hin
  exact perm_singleton.mp ((perm_cons _).mp (hperm'.symm.trans hperm))

/-- What is taken for the same as the only block is counted but not entered. -/
theorem Sized.overcounts (h : p.Sized) (htree : p.tree = [s.block])
    (hcmp : blockCmp r.block s.block = .eq) (hused : r.dip.size ≠ 0)
    (hentered : weight [s.block] ≤ weight (p.entered.map Record.block)) :
    (p.enter r).Overcounts := by
  have hroot : p.mip.blktree = .node .nil s.block .nil := toList_eq_singleton.mp htree
  have hsame : (p.enter r).tree = [s.block] := by
    rw [tree, Part.enter, Inode.blkcreate, hroot, insert_hit hcmp]
    rfl
  have hpos : r.dip.size.toNat ≠ 0 := fun hzero => hused (UInt32.toNat_inj.mp hzero)
  refine ⟨weight [s.block] + r.dip.size.toNat, ?_, ?_, ?_⟩
  · rw [UInt64.ofNat_add, UInt64.ofNat_uInt32ToNat, ← htree, ← h]
    rfl
  · rw [hsame]
    omega
  · have hadd : weight ((p.enter r).entered.map Record.block) =
        weight (p.entered.map Record.block) + r.dip.size.toNat := by
      simp [Part.enter, weight, Record.block]
    omega

end Part

/-- A record that meets nothing but an older one takes its place. -/
theorem Scanned.first_lost (h : Scanned dips (a :: b :: rest)) (hclash : a.dip.Clash b.dip)
    (hle : a.dip.stamp ≤ b.dip.stamp) (hp : part a.dip.inode (a :: b :: rest) = some p) :
    a.dip.stamp < b.dip.stamp ∧ a.block ∉ p.tree := by
  let first := Part.first a.dip.inode a
  have hhit : first.scan b = _ := Part.scan_root rfl (clash_iff.mp hclash.symm).2
  rw [part, filter_cons_of_pos (by simp), filter_cons_of_pos (by simp [hclash.1])] at hp
  obtain ⟨q, hq, hrun⟩ := Option.bind_eq_some_iff.mp (show (first.scan b).bind _ = some p from hp)
  rw [hhit, if_neg (not_lt.mpr hle)] at hq
  split_ifs at hq with hlt
  cases hq
  refine ⟨hlt, Part.run_lost (fun s hs => h.block_ne s ?_) ?_ hrun⟩
  · simp [(mem_filter.mp hs).1]
  · have hdeleted : (first.delete a.block).tree = [] := by
      obtain ⟨-, hperm, -⟩ := Part.delete_spec (Part.ordered_of_singleton (Part.first_tree _ a))
        (mem_singleton_self a.block)
      rw [Part.first_tree] at hperm
      simpa using hperm
    intro hin
    have hsub : ((first.delete a.block).enter b).tree <+~ b.block :: (first.delete a.block).tree :=
      insert_subperm ..
    rw [hdeleted] at hsub
    exact h.block_ne b (by simp) (mem_singleton.mp (hsub.subset hin)).symm

/-- A record that takes the place of one of two that it is taken for the same as is counted
but not entered. -/
theorem third_overcounts (hde : d.dip.Clash e.dip) (hdf : d.dip.Clash f.dip)
    (hef : ¬ e.dip.Clash f.dip) (hle : e.dip.stamp ≤ d.dip.stamp) (hused : d.dip.size ≠ 0)
    (hp : part d.dip.inode (f :: e :: d :: rest) = some p) : p.Overcounts := by
  have hcmp : blockCmp e.block f.block ≠ .eq := fun hcmp =>
    hef (clash_iff.mpr ⟨hde.1.symm.trans hdf.1, hcmp⟩)
  rw [part, filter_cons_of_pos (by simp [hdf.1]), filter_cons_of_pos (by simp [hde.1]),
    filter_cons_of_pos (by simp)] at hp
  let first := Part.first d.dip.inode f
  have hlooked : (first.looked e).tree = [f.block] := Part.looked_tree first e
  have hsized : (first.looked e).Sized := by
    rw [Part.Sized, hlooked]
    simp [Part.looked, first, Part.first, Part.weight, Record.block]
  have hsecond : first.scan e = some ((first.looked e).enter e) := by
    apply Part.scan_none
    rw [Option.eq_none_iff_forall_ne_some]
    intro mbp hfound
    obtain ⟨hin, heq⟩ := find_some hfound
    rw [mem_singleton.mp (show mbp ∈ [f.block] from hin)] at heq
    exact hcmp heq
  obtain ⟨hordered, -, left, right, htree, hlist⟩ :=
    Part.enter_spec (r := e) (Part.ordered_of_singleton hlooked) (by simpa [hlooked] using hcmp)
  have hperm : ((first.looked e).enter e).tree.Perm (e.block :: [f.block]) := by
    rw [Part.tree, htree, ← hlooked, hlist]
    exact perm_middle
  have hsized : ((first.looked e).enter e).Sized := hsized.enter (by rwa [hlooked])
  obtain ⟨q, hq, hrun⟩ := Option.bind_eq_some_iff.mp (show (first.scan e).bind _ = some p from hp)
  rw [hsecond] at hq
  cases hq
  obtain ⟨q, hq, hrun⟩ := Option.bind_eq_some_iff.mp
    (show (((first.looked e).enter e).scan d).bind _ = some p from hrun)
  rw [Part.scan_root htree (clash_iff.mp hde).2, if_neg (not_lt.mpr hle)] at hq
  split_ifs at hq
  cases hq
  refine Part.run (fun s _ _ _ h hscan => h.scan hscan) ?_ hrun
  have hdeleted := Part.delete_pair hordered hperm
  have hin : e.block ∈ ((first.looked e).enter e).tree := hperm.mem_iff.mpr (by simp)
  refine (hsized.delete (Part.delete_spec hordered hin).2.1).overcounts hdeleted
    (clash_iff.mp hdf).2 hused ?_
  simp [Part.delete, Part.enter, Part.looked, first, Part.first, Part.weight]

/-! ## All orders of a set of records -/

section Orders

variable {g : Geometry} {bread : ℕ → Option Table} {tables : ℕ → Table} {mmp : Mount}

/-- Whatever the order in which the records lie in the groups. -/
def RebuiltAlways (g : Geometry) (dips : List Dinode) : Prop :=
  ∀ bread tables, Stored g dips bread tables →
    ∃ mmp, scancg g bread Mount.empty = .ok mmp ∧ Rebuilt (records g tables) mmp

theorem rebuiltAlways (hdistinct : dips.Pairwise fun d e => d.Same e → d.stamp ≠ e.stamp)
    (hbelow : g.Below) (hoffsets : ∀ d ∈ dips, d.offset.toNat < 2 ^ 32)
    (hharm : Harmless dips) : RebuiltAlways g dips := by
  intro bread tables hstored
  have hscanned := hstored.scanned hdistinct
  rcases scancg_shows (hstored.read_low hbelow) with ⟨-, ino, hnone⟩ | ⟨mmp, hscan, hshows⟩
  · obtain ⟨p, hp, -⟩ := part_holds ino hharm hscanned
    cases hnone.symm.trans hp
  · refine ⟨mmp, hscan, ?_, fun ino => by rw [← hshows.known ino, mem_map], fun mip hmip => ?_⟩
    · rw [List.Nodup, pairwise_map]
      apply hshows.sorted.imp
      intro a b hab heq
      exact UInt64.lt_irrefl _ (heq ▸ hab)
    · obtain ⟨entered, hpart⟩ := hshows.inodes mip hmip
      obtain ⟨p, hp, h⟩ := part_holds mip.inode hharm hscanned
      cases hpart.symm.trans hp
      exact Holds.keepsNewest (p := ⟨mip, entered⟩) h hscanned
        (fun d hd => hstored.exists_record hd) hoffsets

theorem Rebuilt.part (h : Rebuilt (records g tables) mmp)
    (hread : ∀ cg < g.ncg.toNat, bread (g.cgblk cg) = some (tables cg))
    (hscan : scancg g bread empty = .ok mmp) (hr : r ∈ records g tables) :
    ∃ p, part r.dip.inode (records g tables) = some p ∧ KeepsNewest (records g tables) p.mip := by
  rcases scancg_shows hread with ⟨herror, -⟩ | ⟨mmp', hscan', hshows⟩
  · cases herror.symm.trans hscan
  · cases hscan.symm.trans hscan'
    obtain ⟨mip, hmip, hino⟩ := (hshows.known r.dip.inode).mpr ⟨r, hr, rfl⟩
    obtain ⟨entered, hpart⟩ := hshows.inodes mip hmip
    exact ⟨⟨mip, entered⟩, hino ▸ hpart, h.inodes mip hmip⟩

theorem Rebuilt.current (h : Rebuilt all mmp) (hmem : ∀ s ∈ all, s.dip ∈ dips) (hr : r ∈ all)
    (hfresh : ¬ Stale dips r.dip) : ∃ mip ∈ mmp.inotree.toList,
      mip.inode = r.dip.inode ∧ r.block ∈ mip.blktree.toList := by
  obtain ⟨mip, hmip, hino⟩ := mem_map.mp ((h.known r.dip.inode).mpr ⟨r, hr, rfl⟩)
  exact ⟨mip, hmip, hino, (h.inodes mip hmip).current hmem hr hino.symm hfresh⟩

theorem Geometry.Below.slots_lt (hbelow : g.Below) : g.slots < 2 ^ 32 := by
  have hblocks : (g.blkpercg - 1) * 2 ≤ 2 ^ g.cgbits := by
    have hle : 2 ^ ((g.cgbits - 5) / 2 + 1) ≤ 2 ^ g.cgbits := by
      have := g.low
      exact Nat.pow_le_pow_right (by norm_num) (by omega)
    rw [g.blkpercg_eq, Nat.sub_mul, ← Nat.pow_succ]
    exact (Nat.sub_le _ _).trans hle
  have hmul := Nat.mul_le_mul_left g.ncg.toNat hblocks
  have hbsize : 2 ^ ((5 + g.cgbits) / 2) ≤ 2 ^ 18 := by
    have := g.high
    exact Nat.pow_le_pow_right (by norm_num) (by omega)
  unfold Geometry.Below at hbelow
  rw [← Nat.mul_assoc] at hmul
  unfold Geometry.slots
  omega

theorem Part.Overcounts.not_keepsNewest (h : p.Overcounts) (hbelow : g.Below)
    (hlength : p.entered.length ≤ g.slots) : ¬ KeepsNewest all p.mip := by
  intro hkeeps
  obtain ⟨n, hsize, hlt, hle⟩ := h
  have hweight := Part.weight_le (p.entered.map Record.block)
  rw [length_map] at hweight
  have hslots := hbelow.slots_lt
  have hmul := Nat.mul_le_mul_right (2 ^ 32 - 1) (hlength.trans hslots.le)
  have heq : p.mip.size.toNat = Part.weight p.tree := hkeeps.size
  rw [hsize, UInt64.toNat_ofNat_of_lt' (show n < 2 ^ 64 by omega)] at heq
  omega

section Necessary

variable (hused : ∀ d ∈ dips, d.size ≠ 0) (hfits : dips.length ≤ g.slots)
include hused hfits

/-- Some records lie in front of all others. -/
theorem exists_order (front : List Dinode) (hnodup : front.Nodup) (hsub : front ⊆ dips) :
    ∃ rest, ((front ++ rest).filter fun d => d.size ≠ 0).Perm dips ∧
      (front ++ rest).length ≤ g.slots ∧
      (records g (layout g (front ++ rest))).map Record.dip = front ++ rest := by
  have hperm : (front ++ dips.diff front).Perm dips :=
    subperm_append_diff_self_of_count_le fun x _ => (subperm_of_subset hnodup hsub).count_le x
  have hfilter : ((front ++ dips.diff front).filter fun d => d.size ≠ 0) =
      front ++ dips.diff front :=
    filter_eq_self.mpr fun d hd => by simpa using hused d (hperm.mem_iff.mp hd)
  have hlength : (front ++ dips.diff front).length ≤ g.slots := hperm.length_eq.trans_le hfits
  exact ⟨_, by rwa [hfilter], hlength, (layout_dips hlength).trans hfilter⟩

/-- A record is the first entry of a group. -/
theorem exists_entry {d : Dinode} {j : ℕ} (hd : d ∈ dips) (hj : j < g.ncg.toNat) :
    ∃ front e back, front.length = j * (g.blkpercg - 1) ∧
      (front ++ d :: e :: back).length ≤ g.slots ∧
      ((front ++ d :: e :: back).filter fun d => d.size ≠ 0).Perm dips := by
  have hblocks := g.blkpercg_ge
  have hslots := Nat.mul_le_mul_right (g.blkpercg - 1) hj
  rw [Nat.succ_mul, ← Geometry.slots] at hslots
  have hcount : 0 < dips.length := length_pos_of_mem hd
  let others := dips.erase d ++ replicate (g.slots - dips.length) unused
  have hothers : others.length = g.slots - 1 := by
    simp only [others, length_append, length_erase_of_mem hd, length_replicate]
    omega
  obtain ⟨e, back, hback⟩ := exists_cons_of_length_pos
    (show 0 < (others.drop (j * (g.blkpercg - 1))).length by rw [length_drop]; omega)
  have hsplit : others = others.take (j * (g.blkpercg - 1)) ++ e :: back := by
    rw [← hback, take_append_drop]
  refine ⟨others.take (j * (g.blkpercg - 1)), e, back, ?_, ?_, (perm_middle.filter _).trans ?_⟩
  · rw [length_take]
    omega
  · have hlength := congrArg List.length hsplit
    simp only [length_append, length_cons] at hlength ⊢
    omega
  · rw [← hsplit, filter_cons_of_pos (by simpa using hused d hd), filter_append, filter_replicate,
      if_neg (by simp [unused]), append_nil, filter_eq_self.mpr fun d' hd' => by
        simpa using hused d' (mem_of_mem_erase hd')]
    exact (perm_cons_erase hd).symm

variable (hdistinct : dips.Pairwise fun d e => d.Same e → d.stamp ≠ e.stamp) (hbelow : g.Below)
  (hright : RebuiltAlways g dips)
include hdistinct hbelow hright

theorem RebuiltAlways.order (front : List Dinode) (hnodup : front.Nodup) (hsub : front ⊆ dips) :
    ∃ all rest, all.map Record.dip = front ++ rest ∧ all.length ≤ g.slots ∧ Scanned dips all ∧
      ∀ r ∈ all, ∃ p, part r.dip.inode all = some p ∧ KeepsNewest all p.mip := by
  obtain ⟨rest, hperm, hlength, hdips⟩ := exists_order hused hfits front hnodup hsub
  have hstored := stored_layout hlength hperm
  obtain ⟨mmp, hscan, hrebuilt⟩ := hright _ _ hstored
  refine ⟨_, rest, hdips, ?_, hstored.scanned hdistinct, fun r hr =>
    hrebuilt.part (hstored.read_low hbelow) hscan hr⟩
  rw [← length_map, hdips]
  exact hlength

theorem RebuiltAlways.offsets : ∀ d ∈ dips, d.offset.toNat < 2 ^ 32 := by
  intro d hd
  obtain ⟨all, rest, hall, -, -, hparts⟩ := hright.order hused hfits hdistinct hbelow
    [d] (nodup_singleton d) (by simpa using hd)
  obtain ⟨r, hr, rfl⟩ := mem_map.mp (show d ∈ all.map Record.dip by simp [hall])
  obtain ⟨p, hp, hkeeps⟩ := hparts r hr
  obtain ⟨mbp, -, hoffset⟩ := hkeeps.covered r hr (part_inode hp).symm
  rw [← hoffset]
  exact mbp.offset.toNat_lt

theorem RebuiltAlways.pairs : ∀ d ∈ dips, ∀ e ∈ dips, d.Clash e → ¬ d.Same e →
    d.stamp ≤ e.stamp → d.stamp < e.stamp ∧ Stale dips d := by
  intro d hd e he hclash hsame hle
  have hne : d ≠ e := by
    rintro rfl
    exact hsame ⟨rfl, rfl⟩
  obtain ⟨all, rest, hall, -, hscanned, hparts⟩ := hright.order hused hfits hdistinct hbelow
    [d, e] (by simpa using hne) (by simp [hd, he])
  obtain ⟨a, tail, rfl, rfl, htail⟩ := map_eq_cons_iff.mp hall
  obtain ⟨b, rest, rfl, rfl, -⟩ := map_eq_cons_iff.mp htail
  obtain ⟨p, hp, hkeeps⟩ := hparts a (by simp)
  obtain ⟨hlt, hlost⟩ := hscanned.first_lost hclash hle hp
  refine ⟨hlt, by_contra fun hfresh => hlost ?_⟩
  exact hkeeps.current hscanned.mem (by simp) (part_inode hp).symm hfresh

theorem RebuiltAlways.triples : ∀ d ∈ dips, ∀ e ∈ dips, ∀ f ∈ dips, d.Clash e → d.Clash f →
    ¬ e.Clash f → d.stamp < e.stamp := by
  intro d hd e he f hf hde hdf hef
  have hnodup : [f, e, d].Nodup := by
    have hfe : f ≠ e := by
      rintro rfl
      exact hef (Dinode.Same.clash ⟨rfl, rfl⟩)
    have hfd : f ≠ d := by
      rintro rfl
      exact hef hde.symm
    have hed : e ≠ d := by
      rintro rfl
      exact hef hdf
    simp [hfe, hfd, hed]
  by_contra hle
  obtain ⟨all, rest, hall, hlength, hscanned, hparts⟩ := hright.order hused hfits hdistinct hbelow
    [f, e, d] hnodup (by simp [hd, he, hf])
  obtain ⟨a, tail, rfl, rfl, htail⟩ := map_eq_cons_iff.mp hall
  obtain ⟨b, tail, rfl, rfl, htail'⟩ := map_eq_cons_iff.mp htail
  obtain ⟨c, rest, rfl, rfl, -⟩ := map_eq_cons_iff.mp htail'
  obtain ⟨p, hp, hkeeps⟩ := hparts c (by simp)
  have hover := third_overcounts hde hdf hef (not_lt.mp hle) (hused _ hd) hp
  refine hover.not_keepsNewest hbelow (le_trans ?_ hlength) hkeeps
  exact ((part_entered hp).trans filter_sublist).length_le

omit hdistinct hbelow in
/-- A table past 4 GB is not read, so that it does not matter where in it a record lies. -/
theorem RebuiltAlways.below (hne : dips ≠ []) : g.Below := by
  rw [Geometry.below_iff]
  by_contra! ⟨j, hj, hhigh⟩
  obtain ⟨d, hd, -, hfresh⟩ := exists_current (head_mem hne)
  have hblocks := g.blkpercg_ge
  obtain ⟨front, e, back, hfront, hlength, hperm⟩ := exists_entry hused hfits hd hj
  have hswap : (front ++ e :: d :: back).Perm (front ++ d :: e :: back) :=
    (Perm.swap _ _ _).append_left front
  have hstored := stored_layout hlength hperm
  have hstored' := stored_layout (hswap.length_eq.trans_le hlength) ((hswap.filter _).trans hperm)
  have hsame : ∀ cg, readAt g (layout g (front ++ d :: e :: back)) (g.cgblk cg) =
      readAt g (layout g (front ++ e :: d :: back)) (g.cgblk cg) := by
    intro cg
    have hlow := g.cgblk_lt cg
    ext table
    rw [readAt_eq_some, readAt_eq_some]
    refine exists_congr fun cg' => and_congr_right fun _ => and_congr_right fun hblk => ?_
    rw [layout_swap hfront]
    rintro rfl
    omega
  obtain ⟨mmp, hscan, hrebuilt⟩ := hright _ _ hstored
  obtain ⟨mmp', hscan', hrebuilt'⟩ := hright _ _ hstored'
  have hmmp : mmp = mmp' := by
    unfold scancg at hscan hscan'
    simp only [hsame] at hscan
    exact Except.ok.inj (hscan.symm.trans hscan')
  subst hmmp
  have hfirst : ⟨j, 0, d⟩ ∈ records g (layout g (front ++ d :: e :: back)) :=
    mem_layout hj (by omega) (by simp [← hfront]) (hused d hd)
  have hsecond : ⟨j, 1, d⟩ ∈ records g (layout g (front ++ e :: d :: back)) :=
    mem_layout hj (by omega) (by simp [← hfront]) (hused d hd)
  obtain ⟨mip, hmip, hino, hblock⟩ := hrebuilt.current hstored.dip_mem hfirst hfresh
  obtain ⟨mip', hmip', hino', hblock'⟩ := hrebuilt'.current hstored'.dip_mem hsecond hfresh
  cases inj_on_of_nodup_map hrebuilt.single hmip hmip' (hino.trans hino'.symm)
  have heq := inj_on_of_nodup_map (hrebuilt.inodes mip hmip).single hblock hblock' rfl
  cases congrArg Block.cgblk heq

end Necessary

/-- For every set of records: whatever the order in which they lie in the groups, the trees
hold the newest record for each offset of each inode, if and only if the tables lie in the
first 4 GB, the offsets fit into 32 bits and the comparison of the blocks is harmless. -/
theorem scan_keeps_newest (g : Geometry) {dips : List Dinode} (hne : dips ≠ [])
    (hused : ∀ d ∈ dips, d.size ≠ 0) (hfits : dips.length ≤ g.ncg.toNat * (g.blkpercg - 1))
    (hdistinct : dips.Pairwise fun d e => d.Same e → d.stamp ≠ e.stamp) :
    RebuiltAlways g dips ↔
      g.Below ∧ (∀ d ∈ dips, d.offset.toNat < 2 ^ 32) ∧ Harmless dips := by
  constructor
  · intro hright
    have hbelow := hright.below hused hfits hne
    exact ⟨hbelow, hright.offsets hused hfits hdistinct hbelow,
      hright.pairs hused hfits hdistinct hbelow, hright.triples hused hfits hdistinct hbelow⟩
  · rintro ⟨hbelow, hoffsets, hharm⟩
    exact rebuiltAlways hdistinct hbelow hoffsets hharm

end Orders

def oneGroup : Geometry := ⟨13, rfl, by norm_num, by norm_num, 1⟩

/-- A first block that was cut short before a short second one was written. -/
theorem scan_keeps_newest_cut_short :
    RebuiltAlways oneGroup
      [⟨2, 0, 0, 0, 1, 512⟩, ⟨2, 0, 0, 0, 2, 50⟩, ⟨2, 512, 0, 0, 3, 100⟩] :=
  (scan_keeps_newest oneGroup (by decide) (by decide) (by decide +kernel) (by decide)).mpr
    ⟨by unfold Geometry.Below; decide +kernel, by decide, by decide +kernel, by decide +kernel⟩

def tableOf (dips : List Dinode) : Table :=
  ⟨fun i => dips.getD i unused, cgdescMagic⟩

/-- Number, size and block offsets of the inodes after the scan of one table. -/
def inodesOf (dips : List Dinode) : Except Stop (List (UInt64 × UInt64 × List UInt32)) :=
  (scancg oneGroup (fun _ => some (tableOf dips)) empty).map fun mmp =>
    mmp.inotree.toList.map fun mip =>
      (mip.inode, mip.size, mip.blktree.toList.map Block.offset)

def threeGroups : Geometry := ⟨31, rfl, by norm_num, by norm_num, 3⟩

/-- A short last block takes the place of the block in front of it, or makes the kernel
panic, offsets that differ by 4 GB are taken for the same, and the third group of 2 GB is
looked for where the first one is. -/
theorem scan_loses_blocks :
    inodesOf [⟨2, 0, 0, 0, 1, 512⟩, ⟨2, 512, 0, 0, 2, 100⟩] = .ok [(2, 100, [512])] ∧
      inodesOf [⟨2, 0, 0, 0, 1, 512⟩, ⟨2, 512, 0, 0, 1, 100⟩] = .error .panic ∧
      inodesOf [⟨2, 0, 0, 0, 1, 512⟩, ⟨2, 2 ^ 32, 0, 0, 2, 512⟩] = .ok [(2, 512, [0])] ∧
      threeGroups.cgblk 2 = threeGroups.cgblk 0 ∧
      threeGroups.tableBlk 2 ≠ threeGroups.tableBlk 0 := by
  refine ⟨?_, ?_, ?_, ?_, ?_⟩
  · rfl
  · rfl
  · rfl
  · decide +kernel
  · decide +kernel

end AerieKernel.Milfs
