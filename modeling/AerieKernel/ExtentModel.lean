import AerieKernel.WordArithmetic
import AerieKernel.GuardedRuns

/-!
# The extent manager (`sys/kern/subr_extent.c`)

An extent map keeps the allocated regions of `[exStart, exEnd]` in a sorted
list.  A `u_long` is a word of `w` bits and every sum and difference below
wraps, as it does in the source.  A pointer into the region list (`last`,
`bestlast`, `after`) is the number of regions up to and including the one it
points at, so that zero stands for `NULL`.

A call first takes a region descriptor, then runs from the label
`alloc_start`.  With `EX_WAITSPACE` it may sleep there while it holds its
descriptor, and it starts again from the label when it is woken.
-/

namespace AerieKernel.ExtentManager

open Word

variable {w : ℕ}

/-- `er_flags`: was the descriptor allocated from the pool? -/
structure Descriptor where
  erAlloc : Bool
  deriving DecidableEq, Repr

structure ExtentRegion (w : ℕ) where
  erStart : BitVec w
  erEnd : BitVec w
  descriptor : Descriptor
  deriving DecidableEq

structure ExFlags where
  fixed : Bool
  nocoalesce : Bool
  wanted : Bool
  flwanted : Bool
  deriving DecidableEq, Repr

structure Extent (w : ℕ) where
  exStart : BitVec w
  exEnd : BitVec w
  exFlags : ExFlags
  exRegions : List (ExtentRegion w)
  fexFreelist : List Descriptor
  deriving DecidableEq

structure CallFlags where
  waitok : Bool := false
  fast : Bool := false
  mallocok : Bool := false
  waitspace : Bool := false
  boundzero : Bool := false
  deriving DecidableEq, Repr

inductive Errno where
  | einval
  | eagain
  | enomem
  | eintr
  deriving DecidableEq, Repr

def extentAlign (start align skew : BitVec w) : BitVec w :=
  Word.roundUp start align skew

/-- The macro `LE_OV`: `x + y ≤ z`, failing on overflow. -/
def leOv (x y z : BitVec w) : Bool :=
  decide (x ≤ x + y) && decide (x + y ≤ z)

/-! ## Region descriptors -/

/-- What the world outside the extent decides during one call: whether
`pool_get` finds a descriptor, and whether a sleep for one is
interrupted. -/
structure Environment where
  poolGet : Bool
  interrupted : Bool
  deriving DecidableEq, Repr

inductive DescriptorOutcome (w : ℕ) where
  | got (rp : Descriptor) (ex : Extent w)
  | null (ex : Extent w)
  | asleep (ex : Extent w)

variable (ex : Extent w)

def extentAllocRegionDescriptor (flags : CallFlags) (env : Environment) : DescriptorOutcome w :=
  let alloc : DescriptorOutcome w :=
    if env.poolGet then .got ⟨true⟩ ex else .null ex
  if ex.exFlags.fixed then
    match ex.fexFreelist with
    | rp :: rest => .got rp { ex with fexFreelist := rest }
    | [] =>
      if flags.mallocok then alloc
      else if !flags.waitok then .null ex
      else
        let waiting :=
          { ex with exFlags := { ex.exFlags with flwanted := true } }
        if env.interrupted then .null waiting else .asleep waiting
  else alloc

def extentFreeRegionDescriptor (rp : Descriptor) : Extent w :=
  if ex.exFlags.fixed then
    if rp.erAlloc && !ex.exFlags.flwanted then ex
    else
      { ex with
        fexFreelist := rp :: ex.fexFreelist
        exFlags := { ex.exFlags with flwanted := false } }
  else ex

/-! ## Insertion -/

def extentInsertAndOptimize (start size : BitVec w) (after : ℕ) (rp : Descriptor) : Extent w :=
  let before := ex.exRegions.take after
  let rest := ex.exRegions.drop after
  let region : ExtentRegion w := ⟨start, start + (size - 1), rp⟩
  match before.getLast? with
  | none =>
    match rest with
    | first :: more =>
      if !ex.exFlags.nocoalesce && start + size == first.erStart then
        extentFreeRegionDescriptor
          { ex with exRegions := { first with erStart := start } :: more }
          rp
      else { ex with exRegions := region :: rest }
    | [] => { ex with exRegions := [region] }
  | some last =>
    if ex.exFlags.nocoalesce then
      { ex with exRegions := before ++ region :: rest }
    else
      let appended := last.erEnd + 1 == start
      let grown : ExtentRegion w :=
        { last with erEnd := start + (size - 1) }
      match rest with
      | next :: more =>
        if start + size == next.erStart then
          if appended then
            let joined : ExtentRegion w :=
              { grown with erEnd := next.erEnd }
            extentFreeRegionDescriptor
              (extentFreeRegionDescriptor
                { ex with
                  exRegions := before.dropLast ++ joined :: more }
                next.descriptor)
              rp
          else
            extentFreeRegionDescriptor
              { ex with
                exRegions :=
                  before ++ { next with erStart := start } :: more }
              rp
        else if appended then
          extentFreeRegionDescriptor
            { ex with exRegions := before.dropLast ++ grown :: rest } rp
        else { ex with exRegions := before ++ region :: rest }
      | [] =>
        if appended then
          extentFreeRegionDescriptor
            { ex with exRegions := before.dropLast ++ [grown] } rp
        else { ex with exRegions := before ++ [region] }

/-! ## Searching for space -/

inductive Attempt (w : ℕ) where
  | found (newstart : BitVec w) (last : ℕ)
  | noSpace
  | overflow
  deriving DecidableEq

/-- The scan of `extent_alloc_region`: the number of regions before the
request, or `none` if one of them conflicts with it. -/
def regionScan (start finish : BitVec w) : List (ExtentRegion w) → ℕ → Option ℕ
  | [], last => some last
  | rp :: rest, last =>
    if finish < rp.erStart then some last
    else if start ≤ rp.erEnd then none
    else regionScan start finish rest (last + 1)

structure RegionRequest (w : ℕ) where
  start : BitVec w
  size : BitVec w
  flags : CallFlags
  deriving DecidableEq

structure SubregionRequest (w : ℕ) where
  substart : BitVec w
  subend : BitVec w
  size : BitVec w
  alignment : BitVec w
  skew : BitVec w
  boundary : BitVec w
  flags : CallFlags
  deriving DecidableEq

def regionAttempt (q : RegionRequest w) : Attempt w :=
  match regionScan q.start (q.start + (q.size - 1)) ex.exRegions 0 with
  | some last => .found q.start last
  | none => .noSpace

variable (q : SubregionRequest w) (newstart : BitVec w)

/-- The first address that a block starting at `newstart` may not reach. -/
def dontcross : BitVec w :=
  extentAlign (newstart + 1) q.boundary (if q.flags.boundzero then 0 else ex.exStart) - 1

inductive BoundaryOutcome (w : ℕ) where
  | keep (newstart : BitVec w)
  /-- The relocated block does not fit this gap any more. -/
  | noRefit
  /-- The relocated block leaves the extent, or the line overflows. -/
  | overflow

/-- The boundary check, shared by the gap loop and the last gap.  `refit`
says whether a relocated block still fits. -/
def boundaryCheck (refit : BitVec w → Bool) : BoundaryOutcome w :=
  if q.boundary = 0 then .keep newstart
  else
    let newend := newstart + (q.size - 1)
    let line := dontcross ex q newstart
    let inside (newstart line : BitVec w) : BoundaryOutcome w :=
      if ex.exEnd < newstart + q.size - 1 ∨ line < newstart then .overflow
      else .keep newstart
    if line < ex.exStart then inside newstart ex.exEnd
    else if line < newend then
      if refit (line + 1) then inside (line + 1) (line + q.boundary)
      else .noRefit
    else inside newstart line

structure Best (w : ℕ) where
  bestovh : BitVec w
  beststart : BitVec w
  bestlast : ℕ
  deriving DecidableEq

def Best.none : Best w := ⟨0, 0, 0⟩

def Best.update (best : Best w) (ovh newstart : BitVec w) (last : ℕ) : Best w :=
  if best.bestovh = 0 ∨ ovh < best.bestovh then ⟨ovh, newstart, last⟩
  else best

inductive GapOutcome (w : ℕ) where
  | found (newstart : BitVec w) (last : ℕ)
  | fail (best : Best w)
  /-- Every region up to `subend` has been passed. -/
  | lastGap (newstart : BitVec w) (last : ℕ) (exend : BitVec w)
      (best : Best w)

inductive ChunkOutcome (w : ℕ) where
  | take (newstart : BitVec w)
  | fail
  | skip (best : Best w)

def chunkBefore (rp : ExtentRegion w) (newstart : BitVec w)
    (last : ℕ) (best : Best w) : ChunkOutcome w :=
  if leOv newstart q.size rp.erStart then
    match boundaryCheck ex q newstart
        (fun s => leOv s q.size rp.erStart) with
    | .noRefit => .skip best
    | .overflow => .fail
    | .keep newstart =>
      let ovh := rp.erStart - newstart - q.size
      if q.flags.fast || ovh == 0 then .take newstart
      else .skip (best.update ovh newstart last)
  else .skip best

def gapLoop (ex : Extent w) (q : SubregionRequest w) :
    List (ExtentRegion w) → BitVec w → ℕ → Best w → GapOutcome w
  | [], newstart, last, best => .lastGap newstart last ex.exEnd best
  | rp :: rest, newstart, last, best =>
    if q.subend < rp.erStart then
      .lastGap newstart last rp.erStart best
    else
      match chunkBefore ex q rp newstart last best with
      | .take newstart => .found newstart last
      | .fail => .fail best
      | .skip best =>
        let newstart := extentAlign (rp.erEnd + 1) q.alignment q.skew
        if newstart < rp.erEnd then .fail best
        else gapLoop ex q rest newstart (last + 1) best

def failLabel (best : Best w) : Attempt w :=
  if !q.flags.fast && best.bestovh != 0 then
    .found best.beststart best.bestlast
  else .noSpace

def finalCheck (last : ℕ) (exend : BitVec w) (best : Best w) : Attempt w :=
  if leOv newstart (q.size - 1) q.subend then
    match boundaryCheck ex q newstart
        (fun s => leOv s (q.size - 1) q.subend) with
    | .noRefit => failLabel q best
    | .overflow => failLabel q best
    | .keep newstart =>
      let ovh := exend - newstart - (q.size - 1)
      if q.flags.fast || ovh == 0 then .found newstart last
      else failLabel q (best.update ovh newstart last)
  else failLabel q best

def leading : List (ExtentRegion w) :=
  ex.exRegions.takeWhile fun rp => decide (rp.erStart < newstart)

def relocate : Option (ExtentRegion w) → BitVec w
  | none => newstart
  | some last =>
    if newstart ≤ last.erEnd then
      extentAlign (last.erEnd + 1) q.alignment q.skew
    else newstart

def subregionAttempt : Attempt w :=
  let newstart := extentAlign q.substart q.alignment q.skew
  if newstart < ex.exStart then .overflow
  else
    let lead := leading ex newstart
    match gapLoop ex q (ex.exRegions.drop lead.length)
        (relocate q newstart lead.getLast?) lead.length Best.none with
    | .found newstart last => .found newstart last
    | .fail best => failLabel q best
    | .lastGap newstart last exend best =>
      finalCheck ex q newstart last exend best

/-! ## Freeing -/

inductive FreeScan (w : ℕ) where
  /-- The region list after the range is gone, the descriptors that came
  free, and whether the spare descriptor was used. -/
  | done (regions : List (ExtentRegion w)) (freed : List Descriptor)
      (usedSpare : Bool)
  | notFound

/-- The search of `extent_free` for the region that holds
`[start, finish]`. -/
def freeScan (nocoalesce : Bool) (start finish : BitVec w)
    (spare : Descriptor) : List (ExtentRegion w) → FreeScan w
  | [] => .notFound
  | rp :: rest =>
    let next : FreeScan w :=
      match freeScan nocoalesce start finish spare rest with
      | .done regions freed used => .done (rp :: regions) freed used
      | .notFound => .notFound
    if rp.erEnd < start then next
    else if finish < rp.erStart then .notFound
    else if start = rp.erStart ∧ finish = rp.erEnd then
      .done rest [rp.descriptor] false
    else if nocoalesce then next
    else if start = rp.erStart ∧ finish < rp.erEnd then
      .done ({ rp with erStart := finish + 1 } :: rest) [] false
    else if rp.erStart < start ∧ finish = rp.erEnd then
      .done ({ rp with erEnd := start - 1 } :: rest) [] false
    else if rp.erStart < start ∧ finish < rp.erEnd then
      .done ({ rp with erEnd := start - 1 } :: ⟨finish + 1, rp.erEnd, spare⟩ :: rest) [] true
    else next

inductive FreeOutcome (w : ℕ) where
  | done (ex : Extent w)
  | error (errno : Errno) (ex : Extent w)
  | asleep (ex : Extent w)
  | panic

def freeAll (descriptors : List Descriptor) : Extent w :=
  descriptors.foldl extentFreeRegionDescriptor ex

/-- The body of `extent_free` after its descriptor has been taken.  With
`EXF_NOCOALESCE` there is no spare descriptor and none is needed. -/
def freeWith (start size : BitVec w) (nrp : Option Descriptor) : FreeOutcome w :=
  match freeScan ex.exFlags.nocoalesce start (start + (size - 1))
      (nrp.getD ⟨true⟩) ex.exRegions with
  | .notFound => .panic
  | .done regions freed used =>
    let unused := if used then [] else nrp.toList
    let ex := freeAll { ex with exRegions := regions } (freed ++ unused)
    .done { ex with exFlags := { ex.exFlags with wanted := false } }

def extentFree (start size : BitVec w) (flags : CallFlags) (env : Environment) : FreeOutcome w :=
  if ex.exFlags.nocoalesce then freeWith ex start size none
  else
    match extentAllocRegionDescriptor ex flags env with
    | .null ex => .error .enomem ex
    | .asleep ex => .asleep ex
    | .got nrp ex => freeWith ex start size (some nrp)

/-! ## Calls on one extent map -/

inductive SpaceRequest (w : ℕ) where
  | region (q : RegionRequest w)
  | subregion (q : SubregionRequest w)
  deriving DecidableEq

def SpaceRequest.size : SpaceRequest w → BitVec w
  | .region q => q.size
  | .subregion q => q.size

def SpaceRequest.flags : SpaceRequest w → CallFlags
  | .region q => q.flags
  | .subregion q => q.flags

def SpaceRequest.attempt : SpaceRequest w → Attempt w
  | .region q => regionAttempt ex q
  | .subregion q => subregionAttempt ex q

/-- The `DIAGNOSTIC` checks of `extent_alloc_region`. -/
def RegionRequest.Admitted (q : RegionRequest w) : Prop :=
  q.size ≠ 0 ∧ q.start ≤ q.start + (q.size - 1) ∧
    ex.exStart ≤ q.start ∧ q.start + (q.size - 1) ≤ ex.exEnd

/-- The `DIAGNOSTIC` checks of `extent_alloc_subregion`. -/
def SubregionRequest.Admitted : Prop :=
  (ex.exStart ≤ q.substart ∧ q.substart ≤ ex.exEnd ∧ q.subend ≤ ex.exEnd ∧ ex.exStart ≤ q.subend) ∧
  (q.size ≠ 0 ∧ q.size - 1 ≤ q.subend - q.substart) ∧
  q.alignment ≠ 0 ∧ (q.boundary = 0 ∨ q.size ≤ q.boundary)

instance (ex : Extent w) (q : RegionRequest w) : Decidable (q.Admitted ex) :=
  inferInstanceAs (Decidable (_ ∧ _))

instance (ex : Extent w) (q : SubregionRequest w) : Decidable (q.Admitted ex) :=
  inferInstanceAs (Decidable (_ ∧ _))

def SpaceRequest.Admitted : SpaceRequest w → Prop
  | .region q => q.Admitted ex
  | .subregion q => q.Admitted ex

instance (ex : Extent w) (q : SpaceRequest w) : Decidable (q.Admitted ex) :=
  match q with
  | .region q => inferInstanceAs (Decidable (q.Admitted ex))
  | .subregion q => inferInstanceAs (Decidable (q.Admitted ex))

structure Sleeper (w : ℕ) where
  request : SpaceRequest w
  myrp : Descriptor
  deriving DecidableEq

structure Block (w : ℕ) where
  start : BitVec w
  size : BitVec w
  deriving DecidableEq

def Block.finish (block : Block w) : BitVec w :=
  block.start + (block.size - 1)

/-- An extent map, its sleeping callers, and the record of the blocks that
have been granted and not yet freed. -/
structure System (w : ℕ) where
  ex : Extent w
  sleepers : List (Sleeper w)
  granted : List (Block w)
  panicked : Bool
  deriving DecidableEq

inductive Result (w : ℕ) where
  | allocated (start : BitVec w)
  | freed
  | error (errno : Errno)
  | asleep
  deriving DecidableEq

inductive Event (w : ℕ) where
  | alloc (q : SpaceRequest w) (env : Environment)
  | wake (index : ℕ)
  | interrupt (index : ℕ)
  | free (block : Block w) (flags : CallFlags) (env : Environment)
  deriving DecidableEq

/-- One pass from `alloc_start` of a caller that holds `myrp`.  After an
alignment overflow a `DIAGNOSTIC` kernel panics instead of returning. -/
def serve (sys : System w) (q : SpaceRequest w) (myrp : Descriptor) : System w × Result w :=
  match q.attempt sys.ex with
  | .found newstart last =>
    ({ sys with
        ex := extentInsertAndOptimize sys.ex newstart q.size last myrp
        granted := ⟨newstart, q.size⟩ :: sys.granted },
      .allocated newstart)
  | .noSpace =>
    if q.flags.waitspace then
      ({ sys with
          ex := { sys.ex with
            exFlags := { sys.ex.exFlags with wanted := true } }
          sleepers := sys.sleepers ++ [⟨q, myrp⟩] },
        .asleep)
    else
      ({ sys with ex := extentFreeRegionDescriptor sys.ex myrp }, .error .eagain)
  | .overflow =>
    ({ sys with ex := extentFreeRegionDescriptor sys.ex myrp }, .error .einval)

/-- One call, or the next part of a call that slept.  A block is freed by
the caller it was granted to, so only granted blocks are freed. -/
def stepResult (sys : System w) : Event w → Option (System w × Result w)
  | .alloc q env =>
    if q.Admitted sys.ex then
      match extentAllocRegionDescriptor sys.ex q.flags env with
      | .null ex => some ({ sys with ex := ex }, .error .enomem)
      | .asleep ex => some ({ sys with ex := ex }, .asleep)
      | .got myrp ex => some (serve { sys with ex := ex } q myrp)
    else none
  | .wake index =>
    match sys.sleepers[index]? with
    | none => none
    | some sleeper =>
      some (serve
        { sys with sleepers := sys.sleepers.eraseIdx index }
        sleeper.request sleeper.myrp)
  | .interrupt index =>
    -- the sleeper returns without giving its descriptor back
    match sys.sleepers[index]? with
    | none => none
    | some _ =>
      some ({ sys with sleepers := sys.sleepers.eraseIdx index }, .error .eintr)
  | .free block flags env =>
    if block ∈ sys.granted then
      match extentFree sys.ex block.start block.size flags env with
      | .done ex =>
        some ({ sys with
          ex := ex, granted := sys.granted.erase block }, .freed)
      | .error errno ex => some ({ sys with ex := ex }, .error errno)
      | .asleep ex => some ({ sys with ex := ex }, .asleep)
      | .panic => some ({ sys with panicked := true }, .error .einval)
    else none

def step (sys : System w) (event : Event w) : Option (System w) :=
  (stepResult sys event).map Prod.fst

def extentCreate (start finish : BitVec w) (fixed nocoalesce : Bool) (storage : ℕ) : Extent w where
  exStart := start
  exEnd := finish
  exFlags := ⟨fixed, nocoalesce, false, false⟩
  exRegions := []
  fexFreelist := if fixed then List.replicate storage ⟨false⟩ else []

def System.initial : System w := ⟨ex, [], [], false⟩

end AerieKernel.ExtentManager
