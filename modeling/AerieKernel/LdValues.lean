import AerieKernel.LdRelocs
import Mathlib.Data.BitVec

/-!
# What a relocation stores

`elf_symadd` makes section symbols of unwanted locals, and the fixers then only know the section.
The check of `amd64_fixone` is on single bits.
-/

namespace AerieKernel.Ld

open List BitVec

/-- A symbol of an object file: its offset in a section, or an absolute value. -/
structure ObjSym where
  isLocal : Bool
  isSection : Bool
  name : List Char
  sect : Option ℕ
  value : BitVec 64

/-- A `struct symlist`; `named` says that `sl_name` is not NULL. -/
structure Symlist where
  named : Bool
  sect : Option ℕ
  value : BitVec 64

/-- `elf_symadd` for a symbol that is defined in its object. -/
def elfSymadd (xflag : ℕ) (esym : ObjSym) : Option Symlist :=
  if esym.isLocal && (xflag == 2 || (xflag == 1 && esym.name.head? == some 'L')) then
    if esym.sect.isNone then none else some ⟨false, esym.sect, esym.value⟩
  else some ⟨!esym.isSection, esym.sect, esym.value⟩

def sectAddr (shAddr : ℕ → BitVec 64) (sect : Option ℕ) : BitVec 64 := (sect.map shAddr).getD 0

/-- What the fixers take as the value of a symbol, after the link has added `sh_addr` to the
symbols on the lists of the sections. -/
def Symlist.fixValue (shAddr : ℕ → BitVec 64) (sym : Symlist) : BitVec 64 :=
  if sym.named then sym.value + sectAddr shAddr sym.sect else sectAddr shAddr sym.sect

/-- What is left out of the address of the symbol. -/
def Symlist.lost (sym : Symlist) (esym : ObjSym) : BitVec 64 := if sym.named then 0 else esym.value

def ObjSym.address (shAddr : ℕ → BitVec 64) (esym : ObjSym) : BitVec 64 :=
  sectAddr shAddr esym.sect + esym.value

def I386Type.isPc (t : I386Type) : Bool := t = .pc32 ∨ t = .pc16

variable (t : Amd64Type)

def Amd64Type.isPc : Bool := t = .pc32 ∨ t = .pc16

/-- The original contents of the field; the signed types extend its sign. -/
def Amd64Type.field (bytes : List Byte) : BitVec 64 :=
  if t = .abs32s ∨ t = .pc32 then (BitVec.ofNat 32 (leValue bytes)).signExtend 64
  else BitVec.ofNat 64 (leValue bytes)

/-- `S + A` and the original field, minus `P` if the type is relative to it. -/
def target (isPc : Bool) (s place addend field : BitVec 64) : BitVec 64 :=
  (if isPc then s - place else s) + addend + field

variable (r : Relist Amd64Type) (base s : BitVec 64) (bytes : List Byte)

def Relist.target : BitVec 64 :=
  Ld.target r.type.isPc s (base + BitVec.ofNat 64 r.addr) r.addend (r.type.field bytes)

def Amd64Type.Extends (v : BitVec 64) : Prop :=
  (if t = .abs32 then (v.setWidth 32).setWidth 64 else (v.setWidth 32).signExtend 64) = v

def Relist.Amd64Stores : Prop :=
  ∀ new, amd64Fixone base r bytes = some new →
    BitVec.ofNat (8 * amd64Width r.type) (leValue new) = (r.target base s bytes).setWidth _

def Relist.Amd64Accepted : Prop :=
  amd64Width r.type = 4 →
    ((amd64Fixone base r bytes).isSome ↔ r.type.Extends (r.target base s bytes))

def Relist.I386Stores (r : Relist I386Type) (base s : BitVec 64) (bytes : List Byte) : Prop :=
  BitVec.ofNat (8 * i386Width r.type) (leValue (i386Fixone base r bytes)) =
    (Ld.target r.type.isPc s (base + BitVec.ofNat 64 r.addr) r.addend
      (BitVec.ofNat 64 (leValue bytes))).setWidth _

def Fits32s (v : BitVec 64) : Prop := -2 ^ 31 ≤ v.toInt ∧ v.toInt < 2 ^ 31

/-- When a relocation does what it should: the low bits of what is left out are zero, and a
value of type 32 or PC32 fits, since it is not checked; one of type 32S fits if bit 31 of the
sum is that of the field, and else does not. -/
def Relist.Right (lost : BitVec 64) : Prop :=
  if r.type = .abs32s then
    if (r.target base r.value bytes).getLsbD 31 = (leValue bytes).testBit 31 then
      lost.setWidth 32 = 0 ∧ Fits32s (r.target base s bytes)
    else ¬ Fits32s (r.target base s bytes)
  else lost.setWidth (8 * amd64Width r.type) = 0 ∧
    (r.type = .abs32 → (r.target base s bytes).toNat < 2 ^ 32) ∧
    (r.type = .pc32 → Fits32s (r.target base s bytes))

theorem extends_iff {t : Amd64Type} (v : BitVec 64) :
    t.Extends v ↔ if t = .abs32 then v.toNat < 2 ^ 32 else Fits32s v := by
  unfold Amd64Type.Extends
  split_ifs
  · rw [← BitVec.toNat_inj, BitVec.toNat_setWidth, BitVec.toNat_setWidth]
    have hlt := v.isLt
    omega
  · rw [← BitVec.toInt_inj, BitVec.toInt_signExtend_of_le (by decide), BitVec.toInt_setWidth,
      Fits32s, BitVec.toInt_eq_toNat_bmod]
    have hlt := v.isLt
    simp only [Int.bmod_def]
    omega

theorem leValue_leBytes (n v : ℕ) : leValue (leBytes n v) = v % 2 ^ (8 * n) := by
  induction n generalizing v with
  | zero => simp [leBytes, leValue, Nat.mod_one]
  | succ n ih =>
    rw [leBytes, leValue, ih, BitVec.toNat_ofNat, Nat.mul_succ, Nat.add_comm (8 * n), Nat.pow_add,
      Nat.mod_mul]

theorem addBytes_value {n : ℕ} (hn : n ≤ 8) (val addend : BitVec 64) (bytes : List Byte) :
    BitVec.ofNat (8 * n) (leValue (addBytes n val addend bytes)) =
      (val + addend + BitVec.ofNat 64 (leValue bytes)).setWidth (8 * n) := by
  have hmod (v : ℕ) : BitVec.ofNat (8 * n) (v % 2 ^ (8 * n)) = BitVec.ofNat (8 * n) v :=
    BitVec.eq_of_toNat_eq (by simp)
  rw [addBytes, leValue_leBytes, hmod, BitVec.setWidth_add _ _ (by omega),
    setWidth_add _ _ (by omega), setWidth_ofNat_of_le (by omega), Nat.add_assoc,
    Nat.add_comm, ofNat_add, ofNat_add, ofNat_toNat, ofNat_toNat, setWidth_eq]

theorem field_setWidth : (t.field bytes).setWidth (8 * amd64Width t) =
      (BitVec.ofNat 64 (leValue bytes)).setWidth (8 * amd64Width t) := by
  have hsign (x : BitVec 32) : (x.signExtend 64).setWidth 32 = x := by
    ext i hi
    rw [getElem_setWidth, getLsbD_signExtend]
    simp [hi, show i < 64 by omega]
  unfold Amd64Type.field
  split_ifs with ht
  · rcases ht with rfl | rfl
    all_goals exact (hsign _).trans (setWidth_ofNat_of_le (by decide) _).symm
  · rfl

section

variable (base : BitVec 64) (r : Relist Amd64Type) (bytes : List Byte)

def amd64Bytes (base : BitVec 64) (r : Relist Amd64Type) (bytes : List Byte) : List Byte :=
  addBytes (amd64Width r.type)
    (if r.type.isPc then r.value - (base + BitVec.ofNat 64 r.addr) else r.value) r.addend bytes

theorem amd64Bytes_value :
    BitVec.ofNat (8 * amd64Width r.type) (leValue (amd64Bytes base r bytes)) =
    (r.target base r.value bytes).setWidth _ := by
  have hle : amd64Width r.type ≤ 8 := (amd64 base).width_le r.type
  rw [amd64Bytes, addBytes_value hle, Relist.target, target, setWidth_add _ _ (by omega),
    setWidth_add _ (r.type.field bytes) (by omega), field_setWidth]

theorem amd64Fixone_eq : amd64Fixone base r bytes =
    if r.type = .abs32s ∧
        (r.target base r.value bytes).getLsbD 31 ≠ (leValue bytes).testBit 31 then none
    else some (amd64Bytes base r bytes) := by
  have hbit := congrArg (·.getLsbD 31) (amd64Bytes_value base r bytes)
  simp only [getLsbD_setWidth, getLsbD_ofNat] at hbit
  obtain ⟨addr, t, value, addend⟩ := r
  cases t <;> simp_all [amd64Fixone, amd64Bytes, Amd64Type.isPc, amd64Width]

end

theorem target_add (isPc : Bool) (s lost place addend field : BitVec 64) :
    target isPc (s + lost) place addend field = target isPc s place addend field + lost := by
  unfold target
  split_ifs <;> ring

theorem setWidth_add_eq {n : ℕ} (hn : n ≤ 64) (x lost : BitVec 64) :
    x.setWidth n = (x + lost).setWidth n ↔ lost.setWidth n = 0 := by
  rw [setWidth_add _ _ hn, left_eq_add]

theorem amd64_right (base lost : BitVec 64) (r : Relist Amd64Type) (bytes : List Byte) :
    r.Amd64Stores base (r.value + lost) bytes ∧ r.Amd64Accepted base (r.value + lost) bytes ↔
      r.Right base (r.value + lost) bytes lost := by
  have hle : amd64Width r.type ≤ 8 := (amd64 base).width_le r.type
  have hstores : BitVec.ofNat (8 * amd64Width r.type) (leValue (amd64Bytes base r bytes)) =
      (r.target base (r.value + lost) bytes).setWidth _ ↔
        lost.setWidth (8 * amd64Width r.type) = 0 := by
    have htarget : r.target base (r.value + lost) bytes = r.target base r.value bytes + lost :=
      target_add _ _ _ _ _ _
    rw [amd64Bytes_value, htarget, setWidth_add_eq (by omega)]
  simp only [Relist.Amd64Stores, Relist.Amd64Accepted, Relist.Right, amd64Fixone_eq, extends_iff]
  generalize r.target base (r.value + lost) bytes = v at *
  by_cases hsigned : r.type = .abs32s
  · have hwidth : amd64Width r.type = 4 := by rw [hsigned, amd64Width]
    have hnot : r.type ≠ .abs32 := by rw [hsigned]; decide
    rw [hwidth] at hstores ⊢
    rw [if_pos hsigned, if_neg hnot]
    by_cases hbit : (r.target base r.value bytes).getLsbD 31 = (leValue bytes).testBit 31
    · rw [if_neg fun h => h.2 hbit, if_pos hbit]
      simp only [Option.some.injEq, forall_eq', hstores, Option.isSome_some, true_iff, forall_const]
    · rw [if_pos ⟨hsigned, hbit⟩, if_neg hbit]
      simp
  · rw [if_neg hsigned, if_neg fun h => hsigned h.1]
    simp only [Option.some.injEq, forall_eq', hstores, Option.isSome_some, true_iff]
    refine and_congr_right fun _ => ?_
    cases ht : r.type <;> simp_all [amd64Width]

theorem fixValue_add {xflag : ℕ} {shAddr : ℕ → BitVec 64} {esym : ObjSym} {sym : Symlist}
    (hsym : elfSymadd xflag esym = some sym) :
    esym.address shAddr = sym.fixValue shAddr + sym.lost esym := by
  have hsect : sym.sect = esym.sect ∧ sym.value = esym.value := by
    unfold elfSymadd at hsym
    split_ifs at hsym <;> cases hsym <;> exact ⟨rfl, rfl⟩
  unfold Symlist.fixValue ObjSym.address Symlist.lost
  rw [hsect.1, hsect.2]
  split_ifs
  · rw [add_zero, add_comm]
  · rfl

/-- A relocation stores what it should and is refused when it should just under the condition
of `Right`, and those of i386, which are never refused, as far as the offset of a symbol without
a name does not matter. -/
theorem relocations_store_values (xflag : ℕ) (shAddr : ℕ → BitVec 64) {esym : ObjSym}
    {sym : Symlist} (hsym : elfSymadd xflag esym = some sym) (base addend : BitVec 64) (addr : ℕ)
    (bytes : List Byte) :
    (∀ t, (⟨addr, t, sym.fixValue shAddr, addend⟩ : Relist I386Type).I386Stores base
      (esym.address shAddr) bytes ↔ (sym.lost esym).setWidth (8 * i386Width t) = 0) ∧
    ∀ r : Relist Amd64Type, r.value = sym.fixValue shAddr →
      (r.Amd64Stores base (esym.address shAddr) bytes ∧
          r.Amd64Accepted base (esym.address shAddr) bytes ↔
        r.Right base (esym.address shAddr) bytes (sym.lost esym)) := by
  rw [fixValue_add hsym]
  refine ⟨fun t => ?_, fun r hr => hr ▸ amd64_right base _ r bytes⟩
  have hle : i386Width t ≤ 8 := (i386 base).width_le t
  have hvalue : BitVec.ofNat (8 * i386Width t) (leValue (i386Fixone base
      ⟨addr, t, sym.fixValue shAddr, addend⟩ bytes)) = (target t.isPc (sym.fixValue shAddr)
        (base + BitVec.ofNat 64 addr) addend (BitVec.ofNat 64 (leValue bytes))).setWidth _ := by
    cases t <;> exact addBytes_value hle _ _ _
  rw [Relist.I386Stores, hvalue, target_add, setWidth_add_eq (by omega)]

theorem relocations_store_values_named :
    (⟨4, .pc32, 0x1008, 0⟩ : Relist Amd64Type).Amd64Accepted 0x1000 0x1008 [0, 0, 0, 0] :=
  have hsym : elfSymadd 2 ⟨false, false, ['x'], some 0, 8⟩ = some ⟨true, some 0, 8⟩ := rfl
  (((relocations_store_values 2 (fun _ => 0x1000) hsym 0x1000 0 0 [0, 0, 0, 0]).2
    ⟨4, .pc32, 0x1008, 0⟩ rfl).mpr ⟨rfl, nofun, fun _ => by unfold Fits32s; decide⟩).2

/-- With `-x` a local symbol loses its offset, a value of type 32 is cut, and one of type 32S
that fits is refused. -/
theorem relocation_values_lost :
    (∃ sym, elfSymadd 2 ⟨true, false, ['x'], some 0, 8⟩ = some sym ∧
      ¬ (⟨0, .abs64, sym.fixValue fun _ => 0x1000, 0⟩ : Relist Amd64Type).Amd64Stores 0
        (ObjSym.address (fun _ => 0x1000) ⟨true, false, ['x'], some 0, 8⟩) (replicate 8 0)) ∧
    ¬ (⟨0, .abs32, 0x100000000, 0⟩ : Relist Amd64Type).Amd64Accepted 0 0x100000000 (replicate 4 0) ∧
    ¬ (⟨0, .abs32s, 0xffffffffffffffff, 0⟩ : Relist Amd64Type).Amd64Accepted 0
      0xffffffffffffffff (replicate 4 0) := by
  refine ⟨⟨_, rfl, fun h => ?_⟩, fun h => ?_, fun h => ?_⟩
  · exact absurd (h _ rfl) (by decide)
  · exact absurd ((h rfl).mp rfl) (by unfold Amd64Type.Extends; decide)
  · exact absurd ((h rfl).mpr (by unfold Amd64Type.Extends; decide)) (by decide)

end AerieKernel.Ld
