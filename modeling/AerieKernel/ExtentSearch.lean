import AerieKernel.ExtentRegionList

/-!
# The search for space in an extent map

The block that a search returns is free, and its insertion point is right.  For
`extent_alloc_region` this needs nothing but a valid map.  The candidate
starts of `extent_alloc_subregion` are sums that may wrap, and two of them are
not checked: the relocation past the last leading region, and the boundary
line.  The two conditions below say that these do not move a candidate back.
-/

namespace AerieKernel.ExtentManager

open Word Intervals List

variable {w : ℕ}

theorem leOv_iff {x y z : BitVec w} : leOv x y z = true ↔ x.toNat + y.toNat ≤ z.toNat := by
  simp only [leOv, Bool.and_eq_true, decide_eq_true_eq, BitVec.le_def]
  rcases toNat_add_cases x y with ⟨_, heq⟩ | ⟨_, heq⟩
  · omega
  · omega

/-- An aligned successor never falls back onto the address itself, so the
overflow check after the label `skip` excludes every other wrap. -/
theorem lt_extentAlign_succ_of_not_lt {x align skew : BitVec w} (halign : align ≠ 0)
    (hcheck : ¬ extentAlign (x + 1) align skew < x) :
    x.toNat < (extentAlign (x + 1) align skew).toNat := by
  obtain ⟨d, hd, hdlt⟩ := roundUp_displacement (x + 1) skew halign
  have hle : x.toNat ≤ (extentAlign (x + 1) align skew).toNat := by
    simpa [BitVec.lt_def] using hcheck
  refine lt_of_le_of_ne hle ?_
  intro hsame
  have hone := toNat_one_of_ne_zero halign
  rw [show extentAlign (x + 1) align skew = _ from hd] at hsame
  rcases toNat_add_cases x 1 with ⟨_, hx⟩ | ⟨_, hx⟩ <;>
    rcases toNat_add_cases (x + 1) d with ⟨_, hxd⟩ | ⟨_, hxd⟩ <;> omega

/-! ## Fixed regions -/

variable {start : BitVec w} {rest : List (ExtentRegion w)} {last : ℕ}

theorem regionScan_spec {finish : BitVec w} (before : List (ExtentRegion w)) {n : ℕ}
    (hordered : Ordered ExtentRegion.lo ExtentRegion.hi (before ++ rest))
    (hlast : before.length = last) (hbefore : ∀ r ∈ before, r.hi < start.toNat)
    (hscan : regionScan start finish rest last = some n) :
    (∀ r ∈ (before ++ rest).take n, r.hi < start.toNat) ∧
      ∀ r ∈ (before ++ rest).drop n, finish.toNat < r.lo := by
  induction rest generalizing before last with
  | nil =>
    simp only [regionScan, Option.some.injEq] at hscan
    subst hlast hscan
    simpa using hbefore
  | cons rp rest ih =>
    simp only [regionScan] at hscan
    split_ifs at hscan with hbeyond hconflict
    · simp only [Option.some.injEq] at hscan
      subst hlast hscan
      rw [take_left, drop_left]
      refine ⟨hbefore, forall_mem_cons.mpr ⟨hbeyond, fun r hr => ?_⟩⟩
      have hproper := hordered.proper_mid
      have hlater := hordered.lt_back r hr
      have hfirst : finish.toNat < rp.lo := hbeyond
      omega
    · have happend : before ++ rp :: rest = (before ++ [rp]) ++ rest := by
        simp
      rw [happend] at hordered ⊢
      exact ih (before ++ [rp]) hordered (by simp [hlast]) (forall_mem_append.mpr
        ⟨hbefore, forall_mem_singleton.mpr (Nat.lt_of_not_le hconflict)⟩) hscan

variable {ex : Extent w}

theorem regionAttempt_placed {q : RegionRequest w} (hvalid : ex.Valid) (hadmitted : q.Admitted ex)
    (hfound : regionAttempt ex q = .found start last) : Placed ex start q.size last := by
  obtain ⟨hsize, hnowrap, habove, hbelow⟩ := hadmitted
  unfold regionAttempt at hfound
  cases hscan : regionScan q.start (q.start + (q.size - 1)) ex.exRegions 0 with
  | none =>
    rw [hscan] at hfound
    cases hfound
  | some n =>
    simp only [hscan] at hfound
    obtain ⟨rfl, rfl⟩ := hfound
    have hspec := regionScan_spec [] hvalid.ordered rfl (by simp) hscan
    have hpred := toNat_sub_one hsize
    have hpos := one_le_toNat hsize
    have hfinish : (q.start + (q.size - 1)).toNat = q.start.toNat + q.size.toNat - 1 := by
      rw [BitVec.le_def] at hnowrap
      rcases toNat_add_cases q.start (q.size - 1) with
        ⟨_, heq⟩ | ⟨_, heq⟩
      · omega
      · omega
    rw [BitVec.le_def] at habove hbelow
    refine ⟨by omega, habove, by omega, hspec.1, ?_⟩
    intro r hr
    have hlater := hspec.2 r hr
    omega

/-! ## Subregions -/

def SubregionRequest.first (q : SubregionRequest w) : BitVec w :=
  extentAlign q.substart q.alignment q.skew

def SubregionRequest.beyond (q : SubregionRequest w) (rp : ExtentRegion w) : BitVec w :=
  extentAlign (rp.erEnd + 1) q.alignment q.skew

def candidates (ex : Extent w) (q : SubregionRequest w) : List (BitVec w) :=
  q.first :: ex.exRegions.map q.beyond

/-- The relocation past the last leading region, which the source does not
check, does not wrap. -/
def RelocationAdvances (ex : Extent w) (q : SubregionRequest w) : Prop :=
  ∀ last ∈ (leading ex q.first).getLast?, q.first ≤ last.erEnd → last.erEnd < q.beyond last

/-- The boundary line behind a candidate, where it is not taken to have
overflowed, is not in front of the candidate. -/
def BoundaryAdvances (ex : Extent w) (q : SubregionRequest w) : Prop :=
  q.boundary = 0 ∨ ∀ start ∈ candidates ex q,
    dontcross ex q start < ex.exStart ∨ start ≤ dontcross ex q start

instance (ex : Extent w) (q : SubregionRequest w) : Decidable (RelocationAdvances ex q) :=
  inferInstanceAs (Decidable (∀ last ∈ (leading ex q.first).getLast?, _ → _))

instance (ex : Extent w) (q : SubregionRequest w) : Decidable (BoundaryAdvances ex q) :=
  -- by the list of candidates, not by all words
  have := List.decidableBAll
    (fun start => dontcross ex q start < ex.exStart ∨
      start ≤ dontcross ex q start) (candidates ex q)
  instDecidableOr

variable {newstart : BitVec w} {q : SubregionRequest w}

theorem boundaryCheck_keep {refit : BitVec w → Bool} (hadvances : BoundaryAdvances ex q)
    (hcandidate : newstart ∈ candidates ex q) (hfit : refit newstart = true)
    (hkeep : boundaryCheck ex q newstart refit = .keep start) :
    refit start = true ∧ newstart.toNat ≤ start.toNat := by
  unfold boundaryCheck at hkeep
  rcases hadvances with hzero | hadvances
  · rw [if_pos hzero] at hkeep
    cases hkeep
    exact ⟨hfit, le_refl _⟩
  · have hline := hadvances newstart hcandidate
    dsimp only at hkeep
    split_ifs at hkeep with _ hlow _ hcross hrefit
    all_goals cases hkeep
    all_goals try exact ⟨hfit, le_refl _⟩
    have hstep := toNat_add_one_of_lt hcross
    have hforward : newstart.toNat ≤ (dontcross ex q newstart).toNat := hline.resolve_left hlow
    exact ⟨hrefit, by omega⟩

def Best.Sound (ex : Extent w) (q : SubregionRequest w) (best : Best w) : Prop :=
  best.bestovh = 0 ∨ Placed ex best.beststart q.size best.bestlast

variable {best : Best w}

theorem Best.Sound.update {ovh : BitVec w} (hsound : best.Sound ex q)
    (hplaced : Placed ex newstart q.size last) : (best.update ovh newstart last).Sound ex q := by
  unfold Best.update
  split_ifs
  · exact .inr hplaced
  · exact hsound

structure GapState (ex : Extent w) (q : SubregionRequest w) (passed rest : List (ExtentRegion w))
    (newstart : BitVec w) : Prop where
  split : ex.exRegions = passed ++ rest
  above : ex.exStart.toNat ≤ newstart.toNat
  beyond : ∀ r ∈ passed, r.hi < newstart.toNat
  candidate : newstart ∈ candidates ex q

variable {passed : List (ExtentRegion w)}

theorem GapState.placed (hgap : GapState ex q passed rest newstart) (hsize : q.size ≠ 0)
    (hforward : newstart.toNat ≤ start.toNat)
    (hinside : start.toNat + q.size.toNat ≤ ex.exEnd.toNat + 1)
    (hrest : ∀ r ∈ rest, start.toNat + q.size.toNat ≤ r.lo) :
    Placed ex start q.size passed.length := by
  have hpos := one_le_toNat hsize
  refine ⟨hpos, hgap.above.trans hforward, hinside, ?_, ?_⟩
  · rw [hgap.split, take_left]
    exact fun r hr => lt_of_lt_of_le (hgap.beyond r hr) hforward
  · rw [hgap.split, drop_left]
    exact hrest

theorem GapState.next {rp : ExtentRegion w} (hvalid : ex.Valid)
    (hgap : GapState ex q passed (rp :: rest) newstart) (hadvance : rp.hi < (q.beyond rp).toNat) :
    GapState ex q (passed ++ [rp]) rest (q.beyond rp) := by
  have hordered := hvalid.ordered
  rw [hgap.split] at hordered
  have hmem : rp ∈ ex.exRegions := by
    rw [hgap.split]
    simp
  have hproper := hordered.proper_mid
  have hinside := hvalid.inside rp hmem
  refine ⟨by rw [hgap.split]; simp, by omega, ?_, ?_⟩
  · refine forall_mem_append.mpr ⟨fun r hr => ?_, forall_mem_singleton.mpr hadvance⟩
    have hfront := hordered.front_lt r hr
    omega
  · exact mem_cons_of_mem _ (mem_map_of_mem hmem)

def ChunkOutcome.Sound (ex : Extent w) (q : SubregionRequest w) (last : ℕ) : ChunkOutcome w → Prop
  | .take newstart => Placed ex newstart q.size last
  | .fail => True
  | .skip best => best.Sound ex q

def GapOutcome.Sound (ex : Extent w) (q : SubregionRequest w) : GapOutcome w → Prop
  | .found newstart last => Placed ex newstart q.size last
  | .fail best => best.Sound ex q
  | .lastGap newstart last _ best =>
    best.Sound ex q ∧ ∃ passed rest, GapState ex q passed rest newstart ∧
      passed.length = last ∧ ∀ r ∈ rest, q.subend.toNat < r.lo

def Attempt.Sound (ex : Extent w) (size : BitVec w) : Attempt w → Prop
  | .found newstart last => Placed ex newstart size last
  | .noSpace => True
  | .overflow => True

section Search

variable {ex : Extent w} {q : SubregionRequest w}

theorem chunkBefore_sound {rp : ExtentRegion w} (hvalid : ex.Valid) (hsize : q.size ≠ 0)
    (hadvances : BoundaryAdvances ex q) (hgap : GapState ex q passed (rp :: rest) newstart)
    (hbest : best.Sound ex q) :
    (chunkBefore ex q rp newstart passed.length best).Sound ex q passed.length := by
  unfold chunkBefore
  split_ifs with hfit
  · cases hcheck : boundaryCheck ex q newstart (fun s => leOv s q.size rp.erStart) with
    | noRefit => exact hbest
    | overflow => trivial
    | keep start =>
      obtain ⟨hrefit, hforward⟩ := boundaryCheck_keep hadvances hgap.candidate hfit hcheck
      have hplaced : Placed ex start q.size passed.length := by
        have hordered := hvalid.ordered
        rw [hgap.split] at hordered
        have hproper := hordered.proper_mid
        have hinside := hvalid.inside rp (by rw [hgap.split]; simp)
        have hroom : start.toNat + q.size.toNat ≤ rp.lo := leOv_iff.mp hrefit
        refine hgap.placed hsize hforward (by omega) (forall_mem_cons.mpr ⟨hroom, fun r hr => ?_⟩)
        have hlater := hordered.lt_back r hr
        omega
      dsimp only
      split_ifs
      · exact hplaced
      · exact hbest.update hplaced
  · exact hbest

theorem gapLoop_sound (hvalid : ex.Valid) (hsize : q.size ≠ 0) (halign : q.alignment ≠ 0)
    (hadvances : BoundaryAdvances ex q) (hgap : GapState ex q passed rest newstart)
    (hbest : best.Sound ex q) : (gapLoop ex q rest newstart passed.length best).Sound ex q := by
  induction rest generalizing passed newstart best with
  | nil => exact ⟨hbest, passed, [], hgap, rfl, by simp⟩
  | cons rp rest ih =>
    unfold gapLoop
    split_ifs with hsubend
    · refine ⟨hbest, passed, rp :: rest, hgap, rfl, ?_⟩
      have hordered := hvalid.ordered
      rw [hgap.split] at hordered
      have hfirst : q.subend.toNat < rp.lo := hsubend
      have hproper := hordered.proper_mid
      refine forall_mem_cons.mpr ⟨hfirst, fun r hr => ?_⟩
      have hlater := hordered.lt_back r hr
      omega
    · have hchunk := chunkBefore_sound hvalid hsize hadvances hgap hbest
      cases hcase : chunkBefore ex q rp newstart passed.length best with
      | take start =>
        rw [hcase] at hchunk
        exact hchunk
      | fail => exact hbest
      | skip best' =>
        rw [hcase] at hchunk
        dsimp only
        split_ifs with hoverflow
        · exact hchunk
        · have hnext := hgap.next hvalid (lt_extentAlign_succ_of_not_lt halign hoverflow)
          have hloop := ih hnext hchunk
          rwa [length_append] at hloop

theorem failLabel_sound (hbest : best.Sound ex q) : (failLabel q best).Sound ex q.size := by
  unfold failLabel
  split_ifs with htake
  · rcases hbest with hzero | hplaced
    · simp [hzero] at htake
    · exact hplaced
  · trivial

theorem finalCheck_sound {exend : BitVec w} (hsize : q.size ≠ 0) (hsubend : q.subend ≤ ex.exEnd)
    (hadvances : BoundaryAdvances ex q) (hgap : GapState ex q passed rest newstart)
    (hrest : ∀ r ∈ rest, q.subend.toNat < r.lo) (hbest : best.Sound ex q) :
    (finalCheck ex q newstart passed.length exend best).Sound ex q.size := by
  unfold finalCheck
  split_ifs with hfit
  · cases hcheck : boundaryCheck ex q newstart (fun s => leOv s (q.size - 1) q.subend) with
    | noRefit | overflow => exact failLabel_sound hbest
    | keep start =>
      obtain ⟨hrefit, hforward⟩ := boundaryCheck_keep hadvances hgap.candidate hfit hcheck
      have hroom := leOv_iff.mp hrefit
      have hpred := toNat_sub_one hsize
      rw [BitVec.le_def] at hsubend
      have hplaced : Placed ex start q.size passed.length := by
        refine hgap.placed hsize hforward (by omega) ?_
        intro r hr
        have hlater := hrest r hr
        omega
      dsimp only
      split_ifs
      · exact hplaced
      · exact failLabel_sound (hbest.update hplaced)
  · exact failLabel_sound hbest

theorem gapState_leading (hvalid : ex.Valid) (hadvances : RelocationAdvances ex q)
    (habove : ¬ q.first < ex.exStart) :
    GapState ex q (leading ex q.first)
      (ex.exRegions.drop (leading ex q.first).length)
      (relocate q q.first (leading ex q.first).getLast?) := by
  have hsplit : ex.exRegions = leading ex q.first ++
      ex.exRegions.drop (leading ex q.first).length :=
    List.prefix_iff_eq_append.mp (List.takeWhile_prefix _) |>.symm
  have hfirst : ex.exStart.toNat ≤ q.first.toNat := Nat.le_of_not_lt habove
  cases hlast : (leading ex q.first).getLast? with
  | none =>
    have hnil := getLast?_eq_none_iff.mp hlast
    refine ⟨hsplit, hfirst, ?_, mem_cons_self⟩
    rw [hnil]
    simp
  | some last =>
    have hlead : leading ex q.first = (leading ex q.first).dropLast ++ [last] :=
      (dropLast_append_getLast? last hlast).symm
    have hmem : last ∈ ex.exRegions := by
      rw [hsplit, hlead]
      simp
    have hordered := hvalid.ordered
    rw [hsplit, hlead, append_assoc] at hordered
    have hproper := hordered.proper_mid
    have hinside := hvalid.inside last hmem
    -- a start behind the last leading region is behind all of them
    have hpassed : ∀ start : BitVec w, last.hi < start.toNat →
        ∀ r ∈ leading ex q.first, r.hi < start.toNat := by
      intro start hstart
      rw [hlead]
      refine forall_mem_append.mpr ⟨fun r hr => ?_, forall_mem_singleton.mpr hstart⟩
      have hfront := hordered.front_lt r hr
      omega
    unfold relocate
    dsimp only
    split_ifs with hreach
    · have hmove : last.hi < (q.beyond last).toNat := hadvances last hlast hreach
      refine ⟨hsplit, ?_, hpassed (q.beyond last) hmove, mem_cons_of_mem _ (mem_map_of_mem hmem)⟩
      change ex.exStart.toNat ≤ (q.beyond last).toNat
      omega
    · exact ⟨hsplit, hfirst, hpassed q.first (Nat.lt_of_not_le hreach), mem_cons_self⟩

theorem subregionAttempt_sound (hvalid : ex.Valid) (hadmitted : q.Admitted ex)
    (hrelocation : RelocationAdvances ex q) (hboundary : BoundaryAdvances ex q) :
    (subregionAttempt ex q).Sound ex q.size := by
  obtain ⟨⟨_, _, hsubend, _⟩, ⟨hsize, _⟩, halign, _⟩ := hadmitted
  unfold subregionAttempt
  dsimp only
  split_ifs with hoverflow
  · trivial
  · have hstart := gapState_leading hvalid hrelocation hoverflow
    have hloop := gapLoop_sound hvalid hsize halign hboundary hstart
      (.inl rfl : Best.none.Sound ex q)
    change Attempt.Sound ex q.size (match gapLoop ex q
        (ex.exRegions.drop (leading ex q.first).length)
        (relocate q q.first (leading ex q.first).getLast?)
        (leading ex q.first).length Best.none with
      | .found newstart last => .found newstart last
      | .fail best => failLabel q best
      | .lastGap newstart last exend best =>
        finalCheck ex q newstart last exend best)
    cases hcase : gapLoop ex q (ex.exRegions.drop (leading ex q.first).length)
        (relocate q q.first (leading ex q.first).getLast?)
        (leading ex q.first).length Best.none with
    | found newstart last =>
      rw [hcase] at hloop
      exact hloop
    | fail best =>
      rw [hcase] at hloop
      exact failLabel_sound hloop
    | lastGap newstart last exend best =>
      rw [hcase] at hloop
      obtain ⟨hbest, passed, rest, hgap, rfl, hrest⟩ := hloop
      exact finalCheck_sound hsize hsubend hboundary hgap hrest hbest

end Search

end AerieKernel.ExtentManager
