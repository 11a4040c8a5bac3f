import AerieKernel.ExtentSearch

/-!
# Runs of the extent manager

The region list covers exactly the blocks that have been granted and not yet
freed, and these blocks are disjoint.  One step of the system keeps this, so
it holds along every run in which no subregion search meets one of the two
unchecked wraps.
-/

namespace AerieKernel.ExtentManager

open Word Intervals Run List

variable {w : ℕ}

def Block.lo (block : Block w) : ℕ := block.start.toNat
def Block.bound (block : Block w) : ℕ :=
  block.start.toNat + block.size.toNat

def Block.Apart (block block' : Block w) : Prop :=
  block.bound ≤ block'.lo ∨ block'.bound ≤ block.lo

structure System.Exact (sys : System w) : Prop where
  valid : sys.ex.Valid
  covers : ∀ a, Covers ExtentRegion.lo ExtentRegion.hi sys.ex.exRegions a ↔
    ∃ block ∈ sys.granted, block.lo ≤ a ∧ a < block.bound
  disjoint : sys.granted.Pairwise Block.Apart
  running : sys.panicked = false

/-- What a step needs to know in addition: each granted block lies in one
region, and each sleeper passed the checks of its call. -/
structure System.Invariant (sys : System w) : Prop extends System.Exact sys where
  nonempty : ∀ block ∈ sys.granted, 0 < block.size.toNat
  served : ∀ block ∈ sys.granted, Serves sys.ex block.start block.size
  admitted : ∀ sleeper ∈ sys.sleepers, sleeper.request.Admitted sys.ex

def SpaceRequest.Advances (ex : Extent w) : SpaceRequest w → Prop
  | .region _ => True
  | .subregion q => RelocationAdvances ex q ∧ BoundaryAdvances ex q

/-- The condition on one step, in the state before it: if the step searches
for a subregion, the search meets neither of the unchecked wraps. -/
def Event.Advances (sys : System w) : Event w → Prop
  | .alloc q _ => q.Advances sys.ex
  | .wake index =>
    ∀ sleeper ∈ sys.sleepers[index]?, sleeper.request.Advances sys.ex
  | .interrupt _ => True
  | .free _ _ _ => True

variable {q : SpaceRequest w}

theorem SpaceRequest.Admitted.congr {ex ex' : Extent w} (hstart : ex'.exStart = ex.exStart)
    (hend : ex'.exEnd = ex.exEnd) (hadmitted : q.Admitted ex) : q.Admitted ex' := by
  cases q with
  | region q =>
    simpa only [SpaceRequest.Admitted, RegionRequest.Admitted, hstart, hend] using hadmitted
  | subregion q =>
    simpa only [SpaceRequest.Admitted, SubregionRequest.Admitted, hstart, hend] using hadmitted

instance (ex : Extent w) (q : SpaceRequest w) : Decidable (q.Advances ex) :=
  match q with
  | .region _ => isTrue trivial
  | .subregion _ => inferInstanceAs (Decidable (_ ∧ _))

instance (sys : System w) (event : Event w) : Decidable (event.Advances sys) :=
  match event with
  | .alloc q _ => inferInstanceAs (Decidable (q.Advances sys.ex))
  | .wake index => inferInstanceAs (Decidable
      (∀ sleeper ∈ sys.sleepers[index]?, sleeper.request.Advances sys.ex))
  | .interrupt _ | .free .. => isTrue trivial

/-! ## Changes of descriptors and flags -/

section SameRegions

variable {ex ex' : Extent w} (hsame : SameRegions ex ex')

include hsame

theorem SameRegions.advances (hadvances : q.Advances ex) : q.Advances ex' := by
  cases q with
  | region q => trivial
  | subregion q =>
    simpa only [SpaceRequest.Advances, RelocationAdvances,
      BoundaryAdvances, leading, candidates, dontcross, hsame.exStart,
      hsame.exRegions] using hadvances

variable {start size : BitVec w}

theorem SameRegions.serves (hserves : Serves ex start size) : Serves ex' start size := by
  simpa only [Serves, hsame.exRegions, hsame.nocoalesce] using hserves

end SameRegions

variable {sys : System w} {ex : Extent w}

theorem System.Invariant.sameRegions {sleepers : List (Sleeper w)}
    (hinv : sys.Invariant) (hsame : SameRegions sys.ex ex)
    (hsleepers : ∀ sleeper ∈ sleepers, sleeper.request.Admitted sys.ex) :
    System.Invariant { sys with ex := ex, sleepers := sleepers } where
  valid := hsame.valid hinv.valid
  covers := by
    rw [hsame.exRegions]
    exact hinv.covers
  disjoint := hinv.disjoint
  running := hinv.running
  nonempty := hinv.nonempty
  served := fun block hblock => hsame.serves (hinv.served block hblock)
  admitted := fun sleeper hsleeper =>
    SpaceRequest.Admitted.congr hsame.exStart hsame.exEnd (hsleepers sleeper hsleeper)

theorem System.Invariant.awake (hinv : sys.Invariant) (index : ℕ) :
    System.Invariant { sys with
      sleepers := sys.sleepers.eraseIdx index } :=
  hinv.sameRegions (SameRegions.refl sys.ex) fun sleeper hsleeper =>
    hinv.admitted sleeper (mem_of_mem_eraseIdx hsleeper)

def DescriptorOutcome.extent : DescriptorOutcome w → Extent w
  | .got _ ex => ex
  | .null ex => ex
  | .asleep ex => ex

theorem sameRegions_allocRegionDescriptor (ex : Extent w) (flags : CallFlags) (env : Environment) :
    SameRegions ex (extentAllocRegionDescriptor ex flags env).extent := by
  unfold extentAllocRegionDescriptor
  repeat' split
  all_goals exact ⟨rfl, rfl, rfl, rfl⟩

/-! ## Granting -/

theorem SpaceRequest.attempt_sound (hvalid : ex.Valid) (hadmitted : q.Admitted ex)
    (hadvances : q.Advances ex) : (q.attempt ex).Sound ex q.size := by
  cases q with
  | region q =>
    change (regionAttempt ex q).Sound ex q.size
    cases hattempt : regionAttempt ex q with
    | found start last =>
      exact regionAttempt_placed hvalid hadmitted hattempt
    | noSpace | overflow => trivial
  | subregion q =>
    exact subregionAttempt_sound hvalid hadmitted hadvances.1 hadvances.2

variable {start size : BitVec w}

theorem Placed.apart {last : ℕ} {block : Block w} (hplaced : Placed ex start size last)
    (hserves : Serves ex block.start block.size) : Block.Apart ⟨start, size⟩ block := by
  obtain ⟨r, hr, hlo, hhi, _⟩ := hserves
  rw [← take_append_drop last ex.exRegions, List.mem_append] at hr
  unfold Block.Apart Block.bound Block.lo
  rcases hr with hr | hr
  · have hfront := hplaced.front r hr
    exact .inr (by dsimp only; omega)
  · have hback := hplaced.back r hr
    exact .inl (by dsimp only; omega)

theorem Inserted.keeps_served {ex' : Extent w} {start' size' : BitVec w}
    (hinserted : Inserted ex ex' start size)
    (hserves : Serves ex start' size') : Serves ex' start' size' := by
  obtain ⟨r, hr, hlo, hhi, hexact⟩ := hserves
  obtain ⟨r', hr', hlo', hhi', hexact'⟩ := hinserted.keeps r hr
  refine ⟨r', hr', by omega, by omega, ?_⟩
  intro hmode
  rw [hinserted.nocoalesce] at hmode
  have hr'eq := hexact' hmode
  have hreq := hexact hmode
  omega

theorem System.Invariant.grant {last : ℕ} (hinv : sys.Invariant)
    (hplaced : Placed sys.ex start size last) (myrp : Descriptor) :
    System.Invariant { sys with
      ex := extentInsertAndOptimize sys.ex start size last myrp
      granted := ⟨start, size⟩ :: sys.granted } := by
  have hinserted := extentInsertAndOptimize_inserted hinv.valid hplaced myrp
  refine ⟨⟨hinserted.valid, ?_, ?_, hinv.running⟩, ?_, ?_, ?_⟩
  · intro a
    rw [hinserted.covers a, hinv.covers a]
    simp only [mem_cons, exists_eq_or_imp]
    exact or_comm
  · exact pairwise_cons.mpr
      ⟨fun block hblock => hplaced.apart (hinv.served block hblock), hinv.disjoint⟩
  · exact forall_mem_cons.mpr ⟨hplaced.size_pos, hinv.nonempty⟩
  · exact forall_mem_cons.mpr ⟨hinserted.serves,
      fun block hblock => hinserted.keeps_served (hinv.served block hblock)⟩
  · exact fun sleeper hsleeper =>
      SpaceRequest.Admitted.congr hinserted.exStart hinserted.exEnd (hinv.admitted sleeper hsleeper)

theorem System.Invariant.serve {myrp : Descriptor} (hinv : sys.Invariant)
    (hadmitted : q.Admitted sys.ex) (hadvances : q.Advances sys.ex) :
    (serve sys q myrp).1.Invariant := by
  have hsound := SpaceRequest.attempt_sound hinv.valid hadmitted hadvances
  unfold ExtentManager.serve
  cases hattempt : q.attempt sys.ex with
  | found start last =>
    rw [hattempt] at hsound
    exact hinv.grant hsound myrp
  | noSpace =>
    split_ifs
    · exact hinv.sameRegions ⟨rfl, rfl, rfl, rfl⟩
        (forall_mem_append.mpr ⟨hinv.admitted, forall_mem_singleton.mpr hadmitted⟩)
    · exact hinv.sameRegions (sameRegions_freeRegionDescriptor _ _) hinv.admitted
  | overflow =>
    exact hinv.sameRegions (sameRegions_freeRegionDescriptor _ _) hinv.admitted

/-! ## Freeing -/

theorem sameRegions_freeAll (ex : Extent w) (descriptors : List Descriptor) :
    SameRegions ex (freeAll ex descriptors) := by
  induction descriptors generalizing ex with
  | nil => exact SameRegions.refl ex
  | cons rp rest ih =>
    exact (sameRegions_freeRegionDescriptor ex rp).trans (ih (extentFreeRegionDescriptor ex rp))

theorem freeWith_removed (hvalid : ex.Valid) (hsize : 0 < size.toNat)
    (hserves : Serves ex start size) (nrp : Option Descriptor) :
    ∃ ex', freeWith ex start size nrp = .done ex' ∧
      (ex'.exStart = ex.exStart ∧ ex'.exEnd = ex.exEnd ∧
        ex'.exFlags.nocoalesce = ex.exFlags.nocoalesce) ∧
      Removed ex.exFlags.nocoalesce ex.exRegions ex'.exRegions
        start.toNat (start.toNat + size.toNat) := by
  have hfinish : (start + (size - 1)).toNat = start.toNat + size.toNat - 1 := by
    obtain ⟨r, _, _, hhi, _⟩ := hserves
    have hbound : r.hi < 2 ^ w := r.erEnd.isLt
    exact toNat_finish hsize (by omega)
  have hblock : (start + (size - 1)).toNat + 1 = start.toNat + size.toNat := by
    omega
  have hserved : ServedBy ex.exFlags.nocoalesce ex.exRegions start.toNat
      ((start + (size - 1)).toNat + 1) := by
    rw [hblock]
    exact hserves
  obtain ⟨regions, freed, used, hscan, hremoved⟩ :=
    freeScan_removed (nrp.getD ⟨true⟩) hvalid.ordered (by omega) hserved
  rw [hblock] at hremoved
  unfold freeWith
  rw [hscan]
  have hsame := sameRegions_freeAll { ex with exRegions := regions }
    (freed ++ if used then [] else nrp.toList)
  refine ⟨_, rfl, ⟨hsame.exStart, hsame.exEnd, hsame.nocoalesce⟩, ?_⟩
  rw [hsame.exRegions]
  exact hremoved

theorem System.Invariant.freed {block : Block w}
    (hinv : sys.Invariant) (hblock : block ∈ sys.granted)
    (hframe : ex.exStart = sys.ex.exStart ∧ ex.exEnd = sys.ex.exEnd ∧
      ex.exFlags.nocoalesce = sys.ex.exFlags.nocoalesce)
    (hremoved : Removed sys.ex.exFlags.nocoalesce sys.ex.exRegions
      ex.exRegions block.lo block.bound) :
    System.Invariant { sys with
      ex := ex, granted := sys.granted.erase block } := by
  obtain ⟨hstart, hend, hmode⟩ := hframe
  have hperm := perm_cons_erase hblock
  have hpair := (hperm.pairwise_iff fun h => Or.symm h).mp hinv.disjoint
  obtain ⟨hapart, hdisjoint⟩ := pairwise_cons.mp hpair
  have hkept : ∀ block' ∈ sys.granted.erase block, block' ∈ sys.granted :=
    fun block' hblock' => mem_of_mem_erase hblock'
  refine ⟨⟨⟨hremoved.ordered, ?_⟩, ?_, hdisjoint, hinv.running⟩,
    fun block' h => hinv.nonempty block' (hkept block' h), ?_, ?_⟩
  · intro r' hr'
    obtain ⟨r, hr, hlo, hhi⟩ := hremoved.within r' hr'
    have hinside := hinv.valid.inside r hr
    rw [hstart, hend]
    omega
  · intro a
    rw [hremoved.covers a, hinv.covers a]
    constructor
    · rintro ⟨⟨block', hblock', ha⟩, hout⟩
      rcases mem_cons.mp (hperm.mem_iff.mp hblock') with rfl | hblock'
      · exact absurd ha hout
      · exact ⟨block', hblock', ha⟩
    · rintro ⟨block', hblock', ha⟩
      refine ⟨⟨block', hkept block' hblock', ha⟩, ?_⟩
      rcases hapart block' hblock' with hleft | hright
      · omega
      · omega
  · intro block' hblock'
    have hserves := hinv.served block' (hkept block' hblock')
    have hpos := hinv.nonempty block' (hkept block' hblock')
    unfold Serves at hserves ⊢
    rw [hmode]
    exact hremoved.keeps _ _ (by omega) (hapart block' hblock').symm hserves
  · intro sleeper hsleeper
    exact SpaceRequest.Admitted.congr hstart hend (hinv.admitted sleeper hsleeper)

theorem extentFree_cases (hvalid : ex.Valid) (hsize : 0 < size.toNat)
    (hserves : Serves ex start size) (flags : CallFlags) (env : Environment) :
    (∃ ex', extentFree ex start size flags env = .done ex' ∧
        (ex'.exStart = ex.exStart ∧ ex'.exEnd = ex.exEnd ∧
          ex'.exFlags.nocoalesce = ex.exFlags.nocoalesce) ∧
        Removed ex.exFlags.nocoalesce ex.exRegions ex'.exRegions
          start.toNat (start.toNat + size.toNat)) ∨ ∃ ex', SameRegions ex ex' ∧
        (extentFree ex start size flags env = .error .enomem ex' ∨
          extentFree ex start size flags env = .asleep ex') := by
  unfold extentFree
  split_ifs
  · exact .inl (freeWith_removed hvalid hsize hserves none)
  · have hsame := sameRegions_allocRegionDescriptor ex flags env
    cases houtcome : extentAllocRegionDescriptor ex flags env with rw [houtcome] at hsame
    | null ex' =>
      exact .inr ⟨ex', hsame, .inl rfl⟩
    | asleep ex' =>
      exact .inr ⟨ex', hsame, .inr rfl⟩
    | got nrp ex' =>
      obtain ⟨ex'', hdone, hframe, hremoved⟩ := freeWith_removed
        (hsame.valid hvalid) hsize (hsame.serves hserves) (some nrp)
      rw [hsame.exStart, hsame.exEnd, hsame.nocoalesce] at hframe
      rw [hsame.nocoalesce, hsame.exRegions] at hremoved
      exact .inl ⟨ex'', hdone, hframe, hremoved⟩

/-! ## Whole runs -/

theorem System.Invariant.step {sys' : System w} {event : Event w} (hinv : sys.Invariant)
    (hadvances : event.Advances sys) (hstep : ExtentManager.step sys event = some sys') :
    sys'.Invariant := by
  unfold ExtentManager.step at hstep
  cases event with
  | alloc q env =>
    simp only [stepResult] at hstep
    split_ifs at hstep with hadmitted
    · have hsame := sameRegions_allocRegionDescriptor sys.ex q.flags env
      cases houtcome : extentAllocRegionDescriptor sys.ex q.flags env with
      | null ex | asleep ex =>
        rw [houtcome] at hsame hstep
        cases hstep
        exact hinv.sameRegions hsame hinv.admitted
      | got myrp ex =>
        rw [houtcome] at hsame hstep
        cases hstep
        exact (hinv.sameRegions hsame hinv.admitted).serve
          (SpaceRequest.Admitted.congr hsame.exStart hsame.exEnd hadmitted)
          (hsame.advances hadvances)
    · cases hstep
  | wake index =>
    cases hget : sys.sleepers[index]? with
    | none => simp [stepResult, hget] at hstep
    | some sleeper =>
      simp only [stepResult, hget, Option.map_some, Option.some.injEq] at hstep
      subst hstep
      have hmem := mem_of_getElem? hget
      exact (hinv.awake index).serve (hinv.admitted sleeper hmem) (hadvances sleeper hget)
  | interrupt index =>
    cases hget : sys.sleepers[index]? with
    | none => simp [stepResult, hget] at hstep
    | some sleeper =>
      simp only [stepResult, hget, Option.map_some, Option.some.injEq] at hstep
      subst hstep
      exact hinv.awake index
  | free block flags env =>
    simp only [stepResult] at hstep
    split_ifs at hstep with hblock
    · rcases extentFree_cases hinv.valid (hinv.nonempty block hblock)
          (hinv.served block hblock) flags env with
        ⟨ex, hfree, hframe, hremoved⟩ | ⟨ex, hsame, hfree | hfree⟩ <;>
        rw [hfree] at hstep <;> cases hstep
      · exact hinv.freed hblock hframe hremoved
      · exact hinv.sameRegions hsame hinv.admitted
      · exact hinv.sameRegions hsame hinv.admitted
    · cases hstep

theorem System.Invariant.initial (start finish : BitVec w) (fixed nocoalesce : Bool) (storage : ℕ) :
    (System.initial (extentCreate start finish fixed nocoalesce storage)).Invariant := by
  refine ⟨⟨⟨ordered_nil, ?_⟩, ?_, List.Pairwise.nil, rfl⟩, ?_, ?_, ?_⟩ <;>
    simp [System.initial, extentCreate]

/-- Along every run whose subregion searches meet neither of the unchecked
wraps, the region list is sorted, disjoint and inside the extent, and it
covers exactly the granted blocks, which are disjoint. -/
theorem extent_run_exact {start finish : BitVec w} {fixed nocoalesce : Bool} {storage : ℕ}
    {sys : System w}
    (hrun : GuardedRun step (fun sys event => event.Advances sys)
      (System.initial (extentCreate start finish fixed nocoalesce storage)) sys) :
    sys.Exact :=
  (hrun.invariant (System.Invariant.initial _ _ _ _ _)
    fun _ _ _ hinv hadvances hstep => hinv.step hadvances hstep).toExact

def fullExtent : Extent 64 := extentCreate 0 (-1) false false 0

def poolReady : Environment := ⟨true, false⟩

theorem extent_run_exact_free :
    ∃ sys,
      GuardedRun step (fun sys event => Event.Advances sys event) (System.initial fullExtent) sys ∧
      sys.granted = [⟨0x40, 16⟩] ∧ sys.Exact := by
  have hexec : exec step (fun sys event => Event.Advances sys event) (System.initial fullExtent)
      [.alloc (.region ⟨0, 0x21, {}⟩) poolReady,
        .alloc (.subregion ⟨0, -1, 16, 32, 0, 64, { fast := true }⟩) poolReady,
        .free ⟨0, 0x21⟩ {} poolReady] = some ⟨⟨0, -1, ⟨false, false, false, false⟩,
        [⟨0x40, 0x4f, ⟨true⟩⟩], []⟩, [], [⟨0x40, 16⟩], false⟩ := by
    decide +kernel
  have hrun := GuardedRun.of_exec hexec
  exact ⟨_, hrun, rfl, extent_run_exact hrun⟩

/-- Without the condition both wraps break the map.  A subregion at the top
of the address space is granted at address zero while its region is added
behind the last one, and a boundary of `2 ^ 63 + 1` leads a candidate back
into a granted block. -/
theorem extent_run_exact_needs_advances :
    (∃ sys, Reaches step (System.initial fullExtent) sys ∧
      sys.granted = [⟨0, 1⟩, ⟨-11, 11⟩] ∧
      sys.ex.exRegions = [⟨-11, 0, ⟨true⟩⟩] ∧ ¬ sys.Exact) ∧
    (∃ sys, Reaches step (System.initial fullExtent) sys ∧
      sys.granted = [⟨0x7ffffffffffffff1, 16⟩, ⟨0, 0xfffffffffffffff0⟩] ∧ ¬ sys.Exact) := by
  constructor
  · have hexec : exec step (fun _ _ => True) (System.initial fullExtent)
        [.alloc (.region ⟨-11, 11, {}⟩) poolReady,
          .alloc (.subregion ⟨-6, -1, 1, 1, 0, 0, { fast := true }⟩) poolReady] =
        some ⟨⟨0, -1, ⟨false, false, false, false⟩,
          [⟨-11, 0, ⟨true⟩⟩], []⟩, [], [⟨0, 1⟩, ⟨-11, 11⟩], false⟩ := by
      decide +kernel
    refine ⟨_, GuardedRun.of_exec hexec, rfl, rfl, fun hexact => ?_⟩
    have hproper := hexact.valid.ordered.proper ⟨-11, 0, ⟨true⟩⟩ (by simp)
    revert hproper
    decide
  · have hexec : exec step (fun _ _ => True) (System.initial fullExtent)
        [.alloc (.region ⟨0, 0xfffffffffffffff0, {}⟩) poolReady,
          .alloc (.subregion ⟨0, -1, 16, 1, 0, 0x8000000000000001,
            { fast := true }⟩) poolReady] =
        some ⟨⟨0, -1, ⟨false, false, false, false⟩, [⟨0, 0xffffffffffffffef, ⟨true⟩⟩,
            ⟨0x7ffffffffffffff1, 0x8000000000000000, ⟨true⟩⟩], []⟩, [],
          [⟨0x7ffffffffffffff1, 16⟩, ⟨0, 0xfffffffffffffff0⟩], false⟩ := by
      decide +kernel
    refine ⟨_, GuardedRun.of_exec hexec, rfl, fun hexact => ?_⟩
    have hapart := rel_of_pairwise_cons hexact.disjoint mem_cons_self
    simp [Block.Apart, Block.bound, Block.lo] at hapart

end AerieKernel.ExtentManager
