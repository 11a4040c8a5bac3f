import AerieKernel.ExtentModel
import AerieKernel.OrderedIntervals

/-!
# Editing the region list of an extent map

The region list of a valid map is an ordered list of intervals inside the
bounds of the map.  What `extent_insert_and_optimize` and the search of
`extent_free` do to it is said for any position and any descriptors.
-/

namespace AerieKernel.ExtentManager

open Word Intervals List ExtentRegion

variable {w : ℕ}

def ExtentRegion.lo (r : ExtentRegion w) : ℕ := r.erStart.toNat
def ExtentRegion.hi (r : ExtentRegion w) : ℕ := r.erEnd.toNat

structure Extent.Valid (ex : Extent w) : Prop where
  ordered : Ordered lo hi ex.exRegions
  inside : ∀ r ∈ ex.exRegions, ex.exStart.toNat ≤ r.lo ∧ r.hi ≤ ex.exEnd.toNat

/-- A non-empty block inside the extent that lies behind the first `last`
regions and before all others. -/
structure Placed (ex : Extent w) (start size : BitVec w) (last : ℕ) : Prop where
  size_pos : 0 < size.toNat
  above : ex.exStart.toNat ≤ start.toNat
  below : start.toNat + size.toNat ≤ ex.exEnd.toNat + 1
  front : ∀ r ∈ ex.exRegions.take last, r.hi < start.toNat
  back : ∀ r ∈ ex.exRegions.drop last, start.toNat + size.toNat ≤ r.lo

theorem ne_zero_of_toNat_pos {x : BitVec w} (hx : 0 < x.toNat) : x ≠ 0 := by
  rintro rfl
  simp at hx

variable {start size : BitVec w}

theorem toNat_finish (hsize : 0 < size.toNat) (hwrap : start.toNat + size.toNat ≤ 2 ^ w) :
    (start + (size - 1)).toNat = start.toNat + size.toNat - 1 := by
  have hpred := toNat_sub_one (ne_zero_of_toNat_pos hsize)
  rcases toNat_add_cases start (size - 1) with ⟨_, heq⟩ | ⟨hle, _⟩
  · omega
  · omega

variable {ex : Extent w}

theorem Placed.toNat_finish {last : ℕ} (hplaced : Placed ex start size last) :
    (start + (size - 1)).toNat = start.toNat + size.toNat - 1 := by
  have hbelow := hplaced.below
  exact ExtentManager.toNat_finish hplaced.size_pos (by omega)

@[simp] theorem extentFreeRegionDescriptor_frame (ex : Extent w) (rp : Descriptor) :
    let ex' := extentFreeRegionDescriptor ex rp
    ex'.exRegions = ex.exRegions ∧ ex'.exStart = ex.exStart ∧ ex'.exEnd = ex.exEnd ∧
      ex'.exFlags.nocoalesce = ex.exFlags.nocoalesce := by
  unfold extentFreeRegionDescriptor
  split_ifs <;> simp

structure SameRegions (ex ex' : Extent w) : Prop where
  exStart : ex'.exStart = ex.exStart
  exEnd : ex'.exEnd = ex.exEnd
  exRegions : ex'.exRegions = ex.exRegions
  nocoalesce : ex'.exFlags.nocoalesce = ex.exFlags.nocoalesce

theorem SameRegions.refl (ex : Extent w) : SameRegions ex ex :=
  ⟨rfl, rfl, rfl, rfl⟩

theorem SameRegions.trans {ex' ex'' : Extent w} (hfirst : SameRegions ex ex')
    (hsecond : SameRegions ex' ex'') : SameRegions ex ex'' :=
  ⟨hsecond.exStart.trans hfirst.exStart, hsecond.exEnd.trans hfirst.exEnd,
    hsecond.exRegions.trans hfirst.exRegions, hsecond.nocoalesce.trans hfirst.nocoalesce⟩

theorem sameRegions_freeRegionDescriptor (ex : Extent w) (rp : Descriptor) :
    SameRegions ex (extentFreeRegionDescriptor ex rp) := ⟨by simp, by simp, by simp, by simp⟩

theorem SameRegions.valid {ex' : Extent w} (hsame : SameRegions ex ex')
    (hvalid : ex.Valid) : ex'.Valid := by
  constructor
  · rw [hsame.exRegions]
    exact hvalid.ordered
  · rw [hsame.exRegions, hsame.exStart, hsame.exEnd]
    exact hvalid.inside

/-! ## Insertion -/

/-- The four shapes of the region list after an insertion: a new region, the
next region grown downwards, the previous region grown upwards, or both
neighbours joined. -/
theorem extentInsertAndOptimize_regions_cases (ex : Extent w) (start size : BitVec w) (after : ℕ)
    (rp : Descriptor) : let regions := (extentInsertAndOptimize ex start size after rp).exRegions
    regions = ex.exRegions.take after ++
        ⟨start, start + (size - 1), rp⟩ :: ex.exRegions.drop after ∨
      (ex.exFlags.nocoalesce = false ∧ ((∃ next more, ex.exRegions.drop after = next :: more ∧
            start + size = next.erStart ∧ regions = ex.exRegions.take after ++
              { next with erStart := start } :: more) ∨
          (∃ front last, ex.exRegions.take after = front ++ [last] ∧ last.erEnd + 1 = start ∧
            regions = front ++
              { last with erEnd := start + (size - 1) } :: ex.exRegions.drop after) ∨
          (∃ front last next more, ex.exRegions.take after = front ++ [last] ∧
            ex.exRegions.drop after = next :: more ∧
            last.erEnd + 1 = start ∧ start + size = next.erStart ∧ regions = front ++
              { last with erEnd := next.erEnd } :: more))) := by
  unfold extentInsertAndOptimize
  generalize ex.exRegions.take after = before
  generalize ex.exRegions.drop after = rest
  cases hlast : before.getLast? with
  | none =>
    have hbefore : before = [] := getLast?_eq_none_iff.mp hlast
    subst hbefore
    cases rest with
    | nil => simp
    | cons first more =>
      by_cases hjoin : (!ex.exFlags.nocoalesce && start + size == first.erStart) = true
      · have hparts := hjoin
        simp only [Bool.and_eq_true, Bool.not_eq_true', beq_iff_eq] at hparts
        refine .inr ⟨hparts.1, .inl ⟨first, more, rfl, hparts.2, ?_⟩⟩
        simp [hjoin]
      · refine .inl ?_
        simp [hjoin]
  | some last =>
    have hbefore : before = before.dropLast ++ [last] := (dropLast_append_getLast? last hlast).symm
    cases hcoalesce : ex.exFlags.nocoalesce with
    | true => simp [hlast]
    | false =>
      by_cases happended : last.erEnd + 1#w = start
      · cases rest with
        | nil =>
          refine .inr ⟨rfl, .inr (.inl ⟨before.dropLast, last, hbefore, happended, ?_⟩)⟩
          simp [hlast, happended]
        | cons next more =>
          by_cases hnext : start + size = next.erStart
          · refine .inr ⟨rfl, .inr (.inr
              ⟨before.dropLast, last, next, more, hbefore, rfl, happended, hnext, ?_⟩)⟩
            simp [hlast, happended, hnext]
          · refine .inr ⟨rfl, .inr (.inl ⟨before.dropLast, last, hbefore, happended, ?_⟩)⟩
            simp [hlast, happended, hnext]
      · cases rest with
        | nil => simp [hlast, happended]
        | cons next more =>
          by_cases hnext : start + size = next.erStart
          · refine .inr ⟨rfl, .inl ⟨next, more, rfl, hnext, ?_⟩⟩
            simp [hlast, happended, hnext]
          · simp [hlast, happended, hnext]

/-- One region holds `[p, q)`; without coalescing it is that region. -/
def ServedBy (exact : Bool) (regions : List (ExtentRegion w)) (p q : ℕ) : Prop :=
  ∃ r ∈ regions, r.lo ≤ p ∧ q ≤ r.hi + 1 ∧ (exact = true → r.lo = p ∧ r.hi + 1 = q)

def Serves (ex : Extent w) (start size : BitVec w) : Prop :=
  ServedBy ex.exFlags.nocoalesce ex.exRegions start.toNat (start.toNat + size.toNat)

/-- What an insertion achieves: the block is added to the covered addresses,
and every region survives inside a region of the new list. -/
structure Inserted (ex ex' : Extent w) (start size : BitVec w) : Prop where
  exStart : ex'.exStart = ex.exStart
  exEnd : ex'.exEnd = ex.exEnd
  nocoalesce : ex'.exFlags.nocoalesce = ex.exFlags.nocoalesce
  valid : ex'.Valid
  covers : ∀ a, Covers lo hi ex'.exRegions a ↔
    Covers lo hi ex.exRegions a ∨
      (start.toNat ≤ a ∧ a < start.toNat + size.toNat)
  keeps : ∀ r ∈ ex.exRegions, ∃ r' ∈ ex'.exRegions,
    r'.lo ≤ r.lo ∧ r.hi ≤ r'.hi ∧ (ex.exFlags.nocoalesce = true → r'.lo = r.lo ∧ r'.hi = r.hi)
  serves : Serves ex' start size

theorem extentInsertAndOptimize_frame (ex : Extent w) (start size : BitVec w) (after : ℕ)
    (rp : Descriptor) : let ex' := extentInsertAndOptimize ex start size after rp
    ex'.exStart = ex.exStart ∧ ex'.exEnd = ex.exEnd ∧
      ex'.exFlags.nocoalesce = ex.exFlags.nocoalesce := by
  unfold extentInsertAndOptimize
  dsimp only
  repeat' split
  all_goals simp

/-- An insertion replaces the neighbours it coalesces with, if any, by one
region `[l, h]` that covers them and the block. -/
theorem inserted_of_segment {ex' : Extent w} {front back : List (ExtentRegion w)}
    {z : ExtentRegion w} (old : List (ExtentRegion w)) (l h : ℕ) (hvalid : ex.Valid)
    (hframe : ex'.exStart = ex.exStart ∧ ex'.exEnd = ex.exEnd ∧
      ex'.exFlags.nocoalesce = ex.exFlags.nocoalesce)
    (hsplit : ex.exRegions = front ++ (old ++ back)) (hregions : ex'.exRegions = front ++ z :: back)
    (hlo : z.lo = l) (hhi : z.hi = h) (hproper : l ≤ h) (hfront : ∀ r ∈ front, r.hi < l)
    (hback : ∀ r ∈ back, h < r.lo) (hinside : ex.exStart.toNat ≤ l ∧ h ≤ ex.exEnd.toNat)
    (hrange : ∀ a, (l ≤ a ∧ a ≤ h) ↔ Covers lo hi old a ∨
        (start.toNat ≤ a ∧ a < start.toNat + size.toNat)) (hold : ∀ r ∈ old, l ≤ r.lo ∧ r.hi ≤ h)
    (hblock : l ≤ start.toNat ∧ start.toNat + size.toNat ≤ h + 1)
    (hexact : ex.exFlags.nocoalesce = true → old = [] ∧
      l = start.toNat ∧ h + 1 = start.toNat + size.toNat) : Inserted ex ex' start size := by
  subst hlo hhi
  obtain ⟨hstart, hend, hmode⟩ := hframe
  have hordered := hvalid.ordered
  rw [hsplit] at hordered
  have hmem : ∀ r, r ∈ front ∨ r ∈ back → r ∈ ex.exRegions := by
    intro r hr
    rw [hsplit]
    simp only [List.mem_append]
    tauto
  have hkept : Ordered lo hi (front ++ back) := by
    obtain ⟨hleft, hright, hcross⟩ := ordered_append.mp hordered
    exact ordered_append.mpr ⟨hleft, (ordered_append.mp hright).2.1,
      fun r hr r' hr' => hcross r hr r' (by simp [hr'])⟩
  refine ⟨hstart, hend, hmode, ⟨?_, ?_⟩, ?_, ?_, ?_⟩
  · rw [hregions]
    exact hkept.insert hproper hfront hback
  · intro r hr
    rw [hregions, List.mem_append, mem_cons] at hr
    rw [hstart, hend]
    rcases hr with hr | rfl | hr
    · exact hvalid.inside r (hmem r (.inl hr))
    · exact hinside
    · exact hvalid.inside r (hmem r (.inr hr))
  · intro a
    rw [hregions, hsplit, covers_append, covers_cons, covers_append, covers_append, hrange a]
    tauto
  · intro r hr
    rw [hsplit, List.mem_append, List.mem_append] at hr
    rw [hregions]
    rcases hr with hr | hr | hr
    · exact ⟨r, by simp [hr], le_refl _, le_refl _, fun _ => ⟨rfl, rfl⟩⟩
    · refine ⟨z, by simp, (hold r hr).1, (hold r hr).2, ?_⟩
      intro hnocoalesce
      rw [(hexact hnocoalesce).1] at hr
      simp at hr
    · exact ⟨r, by simp [hr], le_refl _, le_refl _, fun _ => ⟨rfl, rfl⟩⟩
  · refine ⟨z, by rw [hregions]; simp, hblock.1, hblock.2, ?_⟩
    intro hnocoalesce
    rw [hmode] at hnocoalesce
    exact (hexact hnocoalesce).2

variable {after : ℕ}

theorem Placed.lo_next {next : ExtentRegion w} {more : List (ExtentRegion w)}
    (hplaced : Placed ex start size after) (hdrop : ex.exRegions.drop after = next :: more)
    (hnext : start + size = next.erStart) : next.lo = start.toNat + size.toNat := by
  have hback : start.toNat + size.toNat ≤ next.lo := hplaced.back next (by simp [hdrop])
  rcases toNat_add_cases start size with ⟨_, heq⟩ | ⟨hwrap, _⟩
  · rw [lo, ← hnext, heq]
  · simp only [lo] at hback
    omega

theorem Placed.hi_last {last : ExtentRegion w} {front : List (ExtentRegion w)}
    (hplaced : Placed ex start size after) (htake : ex.exRegions.take after = front ++ [last])
    (hlast : last.erEnd + 1 = start) : last.hi + 1 = start.toNat := by
  have hfront : last.hi < start.toNat := hplaced.front last (by simp [htake])
  have hone := toNat_one_of_ne_zero (ne_zero_of_toNat_pos hplaced.size_pos)
  simp only [hi] at hfront ⊢
  rcases toNat_add_cases last.erEnd 1 with ⟨_, heq⟩ | ⟨_, heq⟩
  · rw [hlast] at heq
    omega
  · omega

theorem extentInsertAndOptimize_inserted (hvalid : ex.Valid) (hplaced : Placed ex start size after)
    (rp : Descriptor) :
    Inserted ex (extentInsertAndOptimize ex start size after rp) start size := by
  have hframe := extentInsertAndOptimize_frame ex start size after rp
  have hfinish := hplaced.toNat_finish
  have hsize := hplaced.size_pos
  have habove := hplaced.above
  have hbelow := hplaced.below
  have hsplit := (take_append_drop after ex.exRegions).symm
  have hordered := hvalid.ordered
  rcases extentInsertAndOptimize_regions_cases ex start size after rp with
    hnew | ⟨hmode, ⟨next, more, hdrop, hnext, hgrow⟩ | ⟨front, last, htake, hlast, hgrow⟩ |
      ⟨front, last, next, more, htake, hdrop, hlast, hnext, hjoin⟩⟩
  · refine inserted_of_segment [] start.toNat
      (start.toNat + size.toNat - 1) hvalid hframe hsplit hnew rfl hfinish
      (by omega) hplaced.front ?_ (by omega) ?_ (by simp) (by omega) ?_
    · intro r hr
      have hback := hplaced.back r hr
      omega
    · intro a
      simp only [covers_nil, false_or]
      omega
    · intro _
      exact ⟨rfl, rfl, by omega⟩
  · have hlo := hplaced.lo_next hdrop hnext
    rw [hdrop] at hsplit
    rw [hsplit] at hordered
    have hproper := hordered.proper_mid
    have hinside := hvalid.inside next (by rw [hsplit]; simp)
    refine inserted_of_segment [next] start.toNat next.hi hvalid hframe
      hsplit hgrow rfl rfl (by omega) hplaced.front
      (fun r hr => hordered.lt_back r hr) ⟨habove, hinside.2⟩ ?_ ?_ (by omega) (by simp [hmode])
    · intro a
      rw [covers_cons]
      simp only [covers_nil, or_false]
      omega
    · simp only [mem_singleton, forall_eq]
      omega
  · have hhi := hplaced.hi_last htake hlast
    rw [htake, append_assoc] at hsplit
    rw [hsplit] at hordered
    have hproper := hordered.proper_mid
    have hinside := hvalid.inside last (by rw [hsplit]; simp)
    refine inserted_of_segment [last] last.lo
      (start.toNat + size.toNat - 1) hvalid hframe hsplit hgrow rfl hfinish
      (by omega) (fun r hr => hordered.front_lt r hr) ?_
      ⟨hinside.1, by omega⟩ ?_ ?_ (by omega) (by simp [hmode])
    · intro r hr
      have hback := hplaced.back r hr
      omega
    · intro a
      rw [covers_cons]
      simp only [covers_nil, or_false]
      omega
    · simp only [mem_singleton, forall_eq]
      omega
  · have hlo := hplaced.lo_next hdrop hnext
    have hhi := hplaced.hi_last htake hlast
    rw [htake, hdrop, append_assoc] at hsplit
    rw [hsplit] at hordered
    have hlastProper := hordered.proper_mid
    have hlastInside := hvalid.inside last (by rw [hsplit]; simp)
    have hnextInside := hvalid.inside next (by rw [hsplit]; simp)
    have hback : Ordered lo hi (next :: more) :=
      (ordered_cons.mp (ordered_append.mp hordered).2.1).2.2
    obtain ⟨hnextProper, hmore, _⟩ := ordered_cons.mp hback
    refine inserted_of_segment [last, next] last.lo next.hi hvalid hframe
      hsplit hjoin rfl rfl (by omega) (fun r hr => hordered.front_lt r hr)
      (fun r hr => hmore r hr) ⟨hlastInside.1, hnextInside.2⟩ ?_ ?_ (by omega) (by simp [hmode])
    · intro a
      rw [covers_cons, covers_cons]
      simp only [covers_nil, or_false]
      omega
    · simp only [mem_cons, not_mem_nil, or_false, forall_eq_or_imp, forall_eq]
      omega

/-! ## Freeing -/

/-- What the removal of `[p, q)` achieves: the block is no longer covered,
no region grows, and what was held outside the block still is. -/
structure Removed (exact : Bool) (regions regions' : List (ExtentRegion w)) (p q : ℕ) : Prop where
  ordered : Ordered lo hi regions'
  within : ∀ r' ∈ regions', ∃ r ∈ regions, r.lo ≤ r'.lo ∧ r'.hi ≤ r.hi
  covers : ∀ a, Covers lo hi regions' a ↔
    Covers lo hi regions a ∧ ¬ (p ≤ a ∧ a < q)
  keeps : ∀ p' q', p' < q' → q' ≤ p ∨ q ≤ p' →
    ServedBy exact regions p' q' → ServedBy exact regions' p' q'

variable {exact : Bool} {rp : ExtentRegion w}

theorem Removed.cons {regions regions' : List (ExtentRegion w)} {p q : ℕ}
    (hordered : Ordered lo hi (rp :: regions)) (hbefore : rp.hi < p)
    (hremoved : Removed exact regions regions' p q) :
    Removed exact (rp :: regions) (rp :: regions') p q := by
  obtain ⟨hproper, hfirst, _⟩ := ordered_cons.mp hordered
  constructor
  · refine ordered_cons.mpr ⟨hproper, ?_, hremoved.ordered⟩
    intro r' hr'
    obtain ⟨r, hr, hlo, _⟩ := hremoved.within r' hr'
    exact lt_of_lt_of_le (hfirst r hr) hlo
  · exact forall_mem_cons.mpr ⟨⟨rp, by simp, le_refl _, le_refl _⟩,
      fun r' hr' => exists_mem_cons_of_exists (hremoved.within r' hr')⟩
  · intro a
    rw [covers_cons, covers_cons, hremoved.covers a]
    constructor
    · rintro (hin | ⟨hin, hout⟩)
      · exact ⟨.inl hin, by omega⟩
      · exact ⟨.inr hin, hout⟩
    · rintro ⟨hin | hin, hout⟩
      · exact .inl hin
      · exact .inr ⟨hin, hout⟩
  · rintro p' q' hlt hdisjoint ⟨r, hr, hserves⟩
    rcases mem_cons.mp hr with rfl | hr
    · exact ⟨r, by simp, hserves⟩
    · exact exists_mem_cons_of_exists (hremoved.keeps p' q' hlt hdisjoint ⟨r, hr, hserves⟩)

variable {rest : List (ExtentRegion w)}

theorem removed_of_pieces {p q : ℕ} (pieces : List (ExtentRegion w))
    (hordered : Ordered lo hi (rp :: rest)) (hholds : rp.lo ≤ p ∧ q ≤ rp.hi + 1)
    (hpieces : Ordered lo hi pieces) (hwithin : ∀ r ∈ pieces, rp.lo ≤ r.lo ∧ r.hi ≤ rp.hi)
    (hcovers : ∀ a, Covers lo hi pieces a ↔ (rp.lo ≤ a ∧ a ≤ rp.hi) ∧ ¬ (p ≤ a ∧ a < q))
    (hkeeps : ∀ p' q', p' < q' → q' ≤ p ∨ q ≤ p' → rp.lo ≤ p' → q' ≤ rp.hi + 1 →
      exact = false ∧ ∃ r ∈ pieces, r.lo ≤ p' ∧ q' ≤ r.hi + 1) :
    Removed exact (rp :: rest) (pieces ++ rest) p q := by
  obtain ⟨_, hfirst, hrest⟩ := ordered_cons.mp hordered
  constructor
  · refine ordered_append.mpr ⟨hpieces, hrest, ?_⟩
    intro r hr r' hr'
    exact lt_of_le_of_lt (hwithin r hr).2 (hfirst r' hr')
  · exact forall_mem_append.mpr ⟨fun r' hr' => ⟨rp, by simp, hwithin r' hr'⟩,
      fun r' hr' => ⟨r', by simp [hr'], le_refl _, le_refl _⟩⟩
  · intro a
    rw [covers_append, covers_cons, hcovers a]
    constructor
    · rintro (⟨hin, hout⟩ | ⟨r, hr, hin⟩)
      · exact ⟨.inl hin, hout⟩
      · have hbeyond := hfirst r hr
        exact ⟨.inr ⟨r, hr, hin⟩, by omega⟩
    · rintro ⟨hin | hin, hout⟩
      · exact .inl ⟨hin, hout⟩
      · exact .inr hin
  · rintro p' q' hlt hdisjoint ⟨r, hr, hlo, hhi, hexact⟩
    rcases mem_cons.mp hr with rfl | hr
    · obtain ⟨hmode, r', hr', hlo', hhi'⟩ := hkeeps p' q' hlt hdisjoint hlo hhi
      exact ⟨r', by simp [hr'], hlo', hhi', by simp [hmode]⟩
    · exact ⟨r, by simp [hr], hlo, hhi, hexact⟩

/-- The four ways in which `extent_free` edits the region that holds the
range. -/
theorem freeScan_holder {finish : BitVec w} {spare : Descriptor}
    (hordered : Ordered lo hi (rp :: rest))
    (hproper : start.toNat ≤ finish.toNat) (hlo : rp.lo ≤ start.toNat) (hhi : finish.toNat ≤ rp.hi)
    (hexact : exact = true → rp.lo = start.toNat ∧ rp.hi = finish.toNat) :
    ∃ regions freed used,
      freeScan exact start finish spare (rp :: rest) = .done regions freed used ∧
      Removed exact (rp :: rest) regions start.toNat (finish.toNat + 1) := by
  have hholds : rp.lo ≤ start.toNat ∧ finish.toNat + 1 ≤ rp.hi + 1 := by
    omega
  have hreach : ¬ rp.erEnd < start := by
    change ¬ rp.hi < start.toNat
    omega
  have hwithin : ¬ finish < rp.erStart := by
    change ¬ finish.toNat < rp.lo
    omega
  have hstartEq : start = rp.erStart ↔ start.toNat = rp.lo := BitVec.toNat_inj.symm
  have hfinishEq : finish = rp.erEnd ↔ finish.toNat = rp.hi := BitVec.toNat_inj.symm
  have hstartLt : rp.erStart < start ↔ rp.lo < start.toNat := Iff.rfl
  have hfinishLt : finish < rp.erEnd ↔ finish.toNat < rp.hi := Iff.rfl
  have hsuffix : finish.toNat < rp.hi → (finish + 1).toNat = finish.toNat + 1 :=
    fun hlt => toNat_add_one_of_lt (y := rp.erEnd) hlt
  have hprefix : rp.lo < start.toNat → (start - 1).toNat = start.toNat - 1 :=
    fun hlt => toNat_sub_one (ne_zero_of_toNat_pos (by omega))
  simp only [freeScan, if_neg hreach, if_neg hwithin, hstartEq, hfinishEq, hstartLt, hfinishLt]
  by_cases hall : start.toNat = rp.lo ∧ finish.toNat = rp.hi
  · rw [if_pos hall]
    refine ⟨rest, _, _, rfl, removed_of_pieces [] hordered hholds ordered_nil
      (by simp) (fun a => ?_) (fun p' q' => by omega)⟩
    simp only [covers_nil, false_iff]
    omega
  · rw [if_neg hall]
    have hmode : exact = false := by
      cases exact with
      | false => rfl
      | true =>
        have hboth := hexact rfl
        omega
    rw [if_neg (by simp [hmode])]
    -- one end of the region remains
    have hcut : ∀ z : ExtentRegion w, z.lo ≤ z.hi →
        (start.toNat = rp.lo ∧ z.lo = finish.toNat + 1 ∧ z.hi = rp.hi) ∨
          (finish.toNat = rp.hi ∧ z.lo = rp.lo ∧ z.hi + 1 = start.toNat) →
        Removed exact (rp :: rest) (z :: rest) start.toNat (finish.toNat + 1) := by
      intro z hz hends
      apply removed_of_pieces [z] hordered hholds
      · exact ordered_cons.mpr ⟨hz, by simp, ordered_nil⟩
      · simp only [mem_singleton, forall_eq]
        omega
      · intro a
        simp only [covers_cons, covers_nil, or_false]
        omega
      · intro p' q' _ _ _ _
        exact ⟨hmode, z, by simp, by omega, by omega⟩
    by_cases hfrontCut : start.toNat = rp.lo ∧ finish.toNat < rp.hi
    · rw [if_pos hfrontCut]
      have hzlo := hsuffix hfrontCut.2
      exact ⟨_, _, _, rfl, hcut _ (hzlo.trans_le hfrontCut.2) (.inl ⟨hfrontCut.1, hzlo, rfl⟩)⟩
    · rw [if_neg hfrontCut]
      by_cases hbackCut : rp.lo < start.toNat ∧ finish.toNat = rp.hi
      · rw [if_pos hbackCut]
        have hzhi := hprefix hbackCut.1
        refine ⟨_, _, _, rfl, hcut _ ?_ (.inr ⟨hbackCut.2, rfl, ?_⟩)⟩
        · exact (Nat.le_sub_one_of_lt hbackCut.1).trans_eq hzhi.symm
        · exact (congrArg (· + 1) hzhi).trans (Nat.sub_add_cancel (Nat.one_le_of_lt hbackCut.1))
      · -- the range lies strictly inside, so both ends remain
        have hmiddle : rp.lo < start.toNat ∧ finish.toNat < rp.hi := by
          omega
        rw [if_neg hbackCut, if_pos hmiddle]
        set z : ExtentRegion w := { rp with erEnd := start - 1 } with hz
        set z' : ExtentRegion w := ⟨finish + 1, rp.erEnd, spare⟩ with hz'
        have hzlo : z.lo = rp.lo := rfl
        have hzhi : z.hi = start.toNat - 1 := hprefix hmiddle.1
        have hzlo' : z'.lo = finish.toNat + 1 := hsuffix hmiddle.2
        have hzhi' : z'.hi = rp.hi := rfl
        refine ⟨_, _, _, rfl, removed_of_pieces [z, z'] hordered hholds ?_ ?_ ?_ ?_⟩
        · refine ordered_cons.mpr ⟨by omega, ?_, ordered_cons.mpr ⟨by omega, by simp, ordered_nil⟩⟩
          simp only [mem_singleton, forall_eq]
          omega
        · simp only [mem_cons, not_mem_nil, or_false, forall_eq_or_imp, forall_eq]
          omega
        · intro a
          simp only [covers_cons, covers_nil, or_false]
          omega
        · rintro p' q' _ (hleft | hright) _ _
          · exact ⟨hmode, z, by simp, by omega, by omega⟩
          · exact ⟨hmode, z', by simp, by omega, by omega⟩

theorem freeScan_removed {finish : BitVec w} (spare : Descriptor) {regions : List (ExtentRegion w)}
    (hordered : Ordered lo hi regions) (hproper : start.toNat ≤ finish.toNat)
    (hserved : ServedBy exact regions start.toNat (finish.toNat + 1)) : ∃ regions' freed used,
      freeScan exact start finish spare regions = .done regions' freed used ∧
      Removed exact regions regions' start.toNat (finish.toNat + 1) := by
  induction regions with
  | nil => simp [ServedBy] at hserved
  | cons rp rest ih =>
    obtain ⟨r, hr, hlo, hhi, hexact⟩ := hserved
    rcases mem_cons.mp hr with rfl | hr
    · exact freeScan_holder hordered hproper hlo (by omega)
        (fun hmode => by have := hexact hmode; omega)
    · obtain ⟨_, hfirst, hrest⟩ := ordered_cons.mp hordered
      have hbefore : rp.hi < start.toNat := lt_of_lt_of_le (hfirst r hr) hlo
      obtain ⟨regions', freed, used, hscan, hremoved⟩ := ih hrest ⟨r, hr, hlo, hhi, hexact⟩
      refine ⟨rp :: regions', freed, used, ?_, hremoved.cons hordered hbefore⟩
      have hreach : rp.erEnd < start := hbefore
      simp only [freeScan, if_pos hreach, hscan]

end AerieKernel.ExtentManager
