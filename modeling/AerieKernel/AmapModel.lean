import Mathlib
import AerieKernel.GuardedRuns

/-!
# Anonymous maps and their references per page

The model of `uvm_amap.c` and `uvm_amap_i.h`.  Sizes and offsets are in slots.  A step of the
system is one call; `none` is a panic.  The outcome of an allocation and the size that
`malloc_roundup` gives are parameters of the call.
-/

namespace AerieKernel.Uvm

open Function

/-! ## The sparse array of anons -/

/-- `am_nused`, `am_slots`, `am_bckptr` and `am_anon` of an amap; an anon is a number. -/
structure Overlay where
  nused : ℕ
  slots : ℕ → ℕ
  bckptr : ℕ → ℕ
  anon : ℕ → Option ℕ

def Overlay.empty : Overlay := ⟨0, fun _ => 0, fun _ => 0, fun _ => none⟩

variable (o : Overlay)

/-- The part of `amap_add` for a slot that is not in use. -/
def Overlay.insert (slot anon : ℕ) : Overlay where
  nused := o.nused + 1
  slots := update o.slots o.nused slot
  bckptr := update o.bckptr slot o.nused
  anon := update o.anon slot (some anon)

/-- The part of `amap_add` for a slot whose anon is replaced. -/
def Overlay.replace (slot anon : ℕ) : Overlay :=
  { o with anon := update o.anon slot (some anon) }

/-- What `amap_unadd` and `amap_wiperange` do with a slot: the last entry of `am_slots` takes
the place of the removed one. -/
def Overlay.remove (slot : ℕ) : Overlay :=
  let ptr := o.bckptr slot
  let last := o.slots (o.nused - 1)
  if ptr ≠ o.nused - 1 then
    { nused := o.nused - 1
      slots := update o.slots ptr last
      bckptr := update o.bckptr last ptr
      anon := update o.anon slot none }
  else { o with nused := o.nused - 1, anon := update o.anon slot none }

/-- The loop of `amap_wiperange` over `am_anon`. -/
def wipeByAnon : ℕ → Overlay → ℕ → Overlay
  | 0, o, _ => o
  | n + 1, o, lcv =>
    wipeByAnon n (if (o.anon lcv).isNone then o else o.remove lcv) (lcv + 1)

/-- The loop of `amap_wiperange` over `am_slots`, which either advances `lcv` or drops
`stop`: the first argument is `stop - lcv`. -/
def wipeBySlots (slotoff slotend : ℕ) : ℕ → Overlay → ℕ → Overlay
  | 0, o, _ => o
  | n + 1, o, lcv =>
    let curslot := o.slots lcv
    if curslot < slotoff ∨ slotend ≤ curslot then wipeBySlots slotoff slotend n o (lcv + 1)
    else wipeBySlots slotoff slotend n (o.remove curslot) lcv

def amapWiperange (slotoff slots : ℕ) : Overlay :=
  if slots < o.nused then wipeByAnon slots o slotoff
  else wipeBySlots slotoff (slotoff + slots) o.nused o 0

/-- The first `n` turns of the loop of `amap_copy`. -/
def copyAnons (src : Overlay) (pageoff : ℕ) : ℕ → Overlay
  | 0 => Overlay.empty
  | n + 1 =>
    match src.anon (pageoff + n) with
    | none => copyAnons src pageoff n
    | some anon => (copyAnons src pageoff n).insert n anon

/-- The arrays that `amap_extend` allocates: `am_slots` is copied up to `am_nused`, the others
up to `am_nslot`. -/
def Overlay.enlarge (nslot : ℕ) : Overlay where
  nused := o.nused
  slots := fun i => if i < o.nused then o.slots i else 0
  bckptr := fun s => if s < nslot then o.bckptr s else 0
  anon := fun s => if s < nslot then o.anon s else none

/-! ## Reference counts of chunks -/

variable (ppref : ℕ → ℤ)

def ppGetreflen (offset : ℕ) : ℤ × ℕ :=
  if ppref offset > 0 then (ppref offset - 1, 1)
  else (ppref offset * -1 - 1, (ppref (offset + 1)).toNat)

def ppSetreflen (offset : ℕ) (ref : ℤ) (len : ℕ) : ℕ → ℤ :=
  if len = 1 then update ppref offset (ref + 1)
  else update (update ppref offset ((ref + 1) * -1)) (offset + 1) len

/-- The chunk at `lcv` is cut at `stop` if it goes past it; its length is returned. -/
def ppCut (lcv stop : ℕ) : (ℕ → ℤ) × ℤ × ℕ :=
  let (ref, len) := ppGetreflen ppref lcv
  if lcv + len > stop then
    (ppSetreflen (ppSetreflen ppref lcv ref (stop - lcv)) stop ref (len - (stop - lcv)),
      ref, stop - lcv)
  else (ppref, ref, len)

/-- The first loop of `amap_pp_adjref`: advance to `curslot`.  The result has `lcv` and
`prevlcv`. -/
def ppAdvance (curslot : ℕ) : ℕ → (ℕ → ℤ) → ℕ → ℕ → Option ((ℕ → ℤ) × ℕ × ℕ)
  | fuel, ppref, lcv, prevlcv =>
    if lcv < curslot then
      match fuel with
      | 0 => none
      | fuel + 1 =>
        let (ppref, _, len) := ppCut ppref lcv curslot
        ppAdvance curslot fuel ppref (lcv + len) lcv
    else some (ppref, lcv, prevlcv)

/-- The second loop of `amap_pp_adjref`. -/
def ppAdjust (stopslot prevlcv prevlen : ℕ) (prevref adjval : ℤ) :
    ℕ → Overlay → (ℕ → ℤ) → ℕ → Option (Overlay × (ℕ → ℤ))
  | fuel, o, ppref, lcv =>
    if lcv < stopslot then
      match fuel with
      | 0 => none
      | fuel + 1 =>
        let (ppref, ref, len) := ppCut ppref lcv stopslot
        let ref := ref + adjval
        if ref < 0 then none
        else
          let ppref :=
            if lcv = prevlcv + prevlen ∧ ref = prevref then
              ppSetreflen ppref prevlcv ref (prevlen + len)
            else ppSetreflen ppref lcv ref len
          ppAdjust stopslot prevlcv prevlen prevref adjval fuel
            (if ref = 0 then amapWiperange o lcv len else o) ppref (lcv + len)
    else some (o, ppref)

/-- `amap_pp_adjref`.  A chunk has at least one slot, so that the loops need no more turns
than there are slots. -/
def amapPpAdjref (curslot slotlen : ℕ) (adjval : ℤ) : Option (Overlay × (ℕ → ℤ)) :=
  (ppAdvance curslot curslot ppref 0 0).bind fun (ppref, lcv, prevlcv) =>
    -- without a previous chunk the comparison with `prevref` has to fail
    let (prevref, prevlen) := if lcv ≠ 0 then ppGetreflen ppref prevlcv else (-1, 0)
    if lcv ≠ curslot then none
    else ppAdjust (curslot + slotlen) prevlcv prevlen prevref adjval slotlen o ppref lcv

/-! ## The operations on an amap -/

/-- `am_ppref`: `NULL`, `PPREF_NONE` or an array. -/
inductive Ppref where
  | null
  | unused
  | array (ppref : ℕ → ℤ)

structure Amap where
  ref : ℕ
  maxslot : ℕ
  nslot : ℕ
  ppref : Ppref
  overlay : Overlay

variable (am : Amap)

def Amap.ppIsNull : Bool :=
  match am.ppref with
  | .null => true
  | _ => false

/-- A reference of a map entry: `ar_pageoff` and the number of slots of the entry. -/
structure Aref where
  pageoff : ℕ
  slots : ℕ
  deriving DecidableEq, Repr

def amapAlloc (slots totalslots : ℕ) : Amap := ⟨1, totalslots, slots, .null, .empty⟩

def amapPpEstablish (allocated : Bool) : Amap :=
  if allocated then
    { am with ppref := .array (ppSetreflen (fun _ => 0) 0 am.ref am.nslot) }
  else { am with ppref := .unused }

def Amap.adjref (curslot slotlen : ℕ) (adjval : ℤ) : Option Amap :=
  match am.ppref with
  | .array ppref =>
    (amapPpAdjref am.overlay ppref curslot slotlen adjval).map fun (overlay, ppref) =>
      { am with overlay := overlay, ppref := .array ppref }
  | _ => some am

def amapSplitref (orig : Aref) (leftslots : ℕ) (allocated : Bool) : Option Amap :=
  if leftslots = 0 ∨ am.nslot ≤ orig.pageoff + leftslots then none
  else
    let am := if am.ppIsNull then amapPpEstablish am allocated else am
    some { am with ref := am.ref + 1 }

/-- What `amap_ref` and `amap_unref` do after they have changed `am_ref`. -/
def Amap.adjustRange (offset len : ℕ) (all allocated : Bool) (adjval : ℤ) : Option Amap :=
  let am := if am.ppIsNull ∧ ¬ all ∧ len ≠ am.nslot then amapPpEstablish am allocated else am
  if all then am.adjref 0 am.nslot adjval else am.adjref offset len adjval

def amapRef (offset len : ℕ) (all allocated : Bool) : Option Amap :=
  { am with ref := am.ref + 1 }.adjustRange offset len all allocated 1

/-- Whether `amap_wipeout` finds an anon in every slot that is listed. -/
def Overlay.wipes : Bool :=
  (List.range o.nused).all fun i => (o.anon (o.slots i)).isSome

/-- `amap_unref`; the amap is freed with its last reference. -/
def amapUnref (offset len : ℕ) (all allocated : Bool) : Option (Option Amap) :=
  if am.ref = 1 then (if am.overlay.wipes then some none else none)
  else ({ am with ref := am.ref - 1 }.adjustRange offset len all allocated (-1)).map some

inductive Errno where
  | e2big
  | enomem
  deriving DecidableEq, Repr

def uvmAmapLarge : ℕ := 256

/-- The counts of the second and third case of `amap_extend`: the slots from `start` to
`am_nslot` get one more reference, those from `am_nslot` to `slotneed` their first one. -/
def Amap.extendPpref (start slotneed : ℕ) : Option Amap :=
  match am.ppref with
  | .array _ =>
    (if start < am.nslot then am.adjref start (am.nslot - start) 1 else some am).map fun am =>
      match am.ppref with
      | .array ppref =>
        { am with ppref := .array (ppSetreflen ppref am.nslot 1 (slotneed - am.nslot)) }
      | _ => am
  | _ => some am

/-- The array of counts in the third case of `amap_extend`: it is given up if no new one is
allocated, and stays the old one if the other arrays are not. -/
def Amap.reallocPpref (newppref newsl : Bool) : Amap :=
  match am.ppref with
  | .array ppref =>
    if ¬ newppref then { am with ppref := .unused }
    else if newsl then
      { am with ppref := .array fun i => if i < am.nslot then ppref i else 0 }
    else am
  | _ => am

/-- `amap_extend`, with the size of the new arrays and whether `newppref` and `newsl` are
allocated. -/
def amapExtend (aref : Aref) (slotadd slotalloc : ℕ) (newppref newsl : Bool) :
    Option (Amap × Option Errno) :=
  let start := aref.pageoff + aref.slots
  let slotneed := start + slotadd
  if am.nslot ≥ slotneed then (am.adjref start slotadd 1).map fun am => (am, none)
  else if am.maxslot ≥ slotneed then
    (am.extendPpref start slotneed).map fun am => ({ am with nslot := slotneed }, none)
  else if slotneed ≥ uvmAmapLarge then some (am, some .e2big)
  else
    let am := am.reallocPpref newppref newsl
    if ¬ newsl then some (am, some .enomem)
    else
      (Amap.extendPpref { am with overlay := am.overlay.enlarge am.nslot } start slotneed).map
        fun am => ({ am with nslot := slotneed, maxslot := slotalloc }, none)

/-- `amap_copy` for an entry with an amap that other entries use, too: the new amap and the
old one. -/
def amapCopy (src : Amap) (aref : Aref) (totalslots : ℕ) : Option (Amap × Amap) :=
  ({ src with ref := src.ref - 1 }.adjref aref.pageoff aref.slots (-1)).map fun old =>
    (⟨1, totalslots, aref.slots, .null, copyAnons src.overlay aref.pageoff aref.slots⟩, old)

def amapAdd (slot anon : ℕ) (replace : Bool) : Option Amap :=
  if am.nslot ≤ slot then none
  else if replace then
    (if (am.overlay.anon slot).isNone then none
    else some { am with overlay := am.overlay.replace slot anon })
  else if (am.overlay.anon slot).isSome then none
  else some { am with overlay := am.overlay.insert slot anon }

def amapUnadd (slot : ℕ) : Option Amap :=
  if am.nslot ≤ slot ∨ (am.overlay.anon slot).isNone then none
  else some { am with overlay := am.overlay.remove slot }

/-! ## The amaps of a set of entries -/

structure Held where
  amap : Amap
  refs : List Aref

abbrev Amaps := ℕ → Option Held

inductive AmapCall where
  | alloc (id slots padslots totalslots : ℕ)
  | splitref (id : ℕ) (orig : Aref) (leftslots : ℕ) (allocated : Bool)
  | ref (id : ℕ) (new : Aref) (all allocated : Bool)
  | unref (id : ℕ) (old : Aref) (all allocated : Bool)
  | extend (id : ℕ) (aref : Aref) (slotadd slotalloc : ℕ) (newppref newsl : Bool)
  | copy (id : ℕ) (aref : Aref) (new totalslots : ℕ)
  | add (id : ℕ) (aref : Aref) (slot anon : ℕ) (replace : Bool)
  | unadd (id : ℕ) (aref : Aref) (slot : ℕ)

def Amaps.onHeld (s : Amaps) (id : ℕ) (call : Held → Option (Option Held)) : Option Amaps :=
  (s id).bind fun h => (call h).map (update s id)

def amapStep (s : Amaps) : AmapCall → Option Amaps
  | .alloc id slots _ totalslots =>
    some (update s id (some ⟨amapAlloc slots totalslots, [⟨0, slots⟩]⟩))
  | .splitref id orig left allocated =>
    s.onHeld id fun h => (amapSplitref h.amap orig left allocated).map fun am => some ⟨am,
      ⟨orig.pageoff, left⟩ :: ⟨orig.pageoff + left, orig.slots - left⟩ :: h.refs.erase orig⟩
  | .ref id new all allocated =>
    s.onHeld id fun h => (amapRef h.amap new.pageoff new.slots all allocated).map
      fun am => some ⟨am, new :: h.refs⟩
  | .unref id old all allocated =>
    s.onHeld id fun h => (amapUnref h.amap old.pageoff old.slots all allocated).map
      fun am => am.map fun am => ⟨am, h.refs.erase old⟩
  | .extend id aref slotadd slotalloc newppref newsl =>
    s.onHeld id fun h => (amapExtend h.amap aref slotadd slotalloc newppref newsl).map
      fun (am, error) => some ⟨am,
        if error = none then ⟨aref.pageoff, aref.slots + slotadd⟩ :: h.refs.erase aref
        else h.refs⟩
  | .copy id aref new totalslots => (s id).bind fun h =>
    -- the only entry of an amap takes it over
    if h.amap.ref = 1 then some s
    else
      (amapCopy h.amap aref totalslots).map fun (am, old) =>
        update (update s id (some ⟨old, h.refs.erase aref⟩)) new
          (some ⟨am, [⟨0, aref.slots⟩]⟩)
  | .add id _ slot anon replace =>
    s.onHeld id fun h => (amapAdd h.amap slot anon replace).map fun am => some ⟨am, h.refs⟩
  | .unadd id _ slot =>
    s.onHeld id fun h => (amapUnadd h.amap slot).map fun am => some ⟨am, h.refs⟩

def Aref.Covers (r : Aref) (slot : ℕ) : Prop :=
  r.pageoff ≤ slot ∧ slot < r.pageoff + r.slots

instance (r : Aref) (slot : ℕ) : Decidable (r.Covers slot) :=
  inferInstanceAs (Decidable (_ ∧ _))

/-- What a caller has to keep to: it acts on a reference that it holds, a new reference is
to slots of the amap, and a new amap is large enough. -/
def AmapCall.Proper (s : Amaps) : AmapCall → Prop
  | .alloc id slots padslots totalslots =>
    s id = none ∧ 0 < slots ∧ slots + padslots ≤ totalslots
  | .splitref id orig left _ => ∃ h ∈ s id, orig ∈ h.refs ∧ 0 < left ∧ left < orig.slots
  | .ref id new all _ => ∃ h ∈ s id, 0 < new.slots ∧ new.pageoff + new.slots ≤ h.amap.nslot ∧
      (all → new = ⟨0, h.amap.nslot⟩)
  | .unref id old all _ => ∃ h ∈ s id, old ∈ h.refs ∧ (all → old = ⟨0, h.amap.nslot⟩)
  | .extend id aref slotadd slotalloc _ _ => ∃ h ∈ s id, aref ∈ h.refs ∧ 0 < slotadd ∧
      aref.pageoff + aref.slots + slotadd ≤ slotalloc
  | .copy id aref new totalslots =>
    s new = none ∧ aref.slots ≤ totalslots ∧ ∃ h ∈ s id, aref ∈ h.refs
  | .add id aref slot _ replace => ∃ h ∈ s id, aref ∈ h.refs ∧ aref.Covers slot ∧
      ((h.amap.overlay.anon slot).isSome ↔ replace)
  | .unadd id aref slot => ∃ h ∈ s id, aref ∈ h.refs ∧ aref.Covers slot ∧
      (h.amap.overlay.anon slot).isSome

instance (s : Amaps) (call : AmapCall) : Decidable (call.Proper s) := by
  cases call <;> (unfold AmapCall.Proper; infer_instance)

/-- A partial reference is not the first one of an amap without an array, and such an amap
is extended by its only entry. -/
def AmapCall.Counted (s : Amaps) : AmapCall → Prop
  | .ref id new _ _ => ∀ h ∈ s id, h.amap.ppIsNull → new.slots = h.amap.nslot
  | .extend id _ _ _ _ _ => ∀ h ∈ s id, h.amap.ppIsNull → h.amap.ref = 1
  | _ => True

instance (s : Amaps) (call : AmapCall) : Decidable (call.Counted s) := by
  cases call <;> (unfold AmapCall.Counted; infer_instance)

end AerieKernel.Uvm
