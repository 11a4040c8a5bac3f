import AerieKernel.RwlockModel

/-!
# The word of a read/write lock

The word as the number in its upper bits and the three flags, and what the
operations of `kern_rwlock.c` on it are in these terms.
-/

namespace AerieKernel.Rwlock

open BitVec Nat

variable {m : ℕ}

/-! ## Numbers with three low bits -/

theorem testBit_low {low : ℕ} (hlow : low < 8) (high i : ℕ) :
    (8 * high + low).testBit i = if i < 3 then low.testBit i else high.testBit (i - 3) :=
  testBit_two_pow_mul_add (i := 3) high hlow i

theorem testBit_of_lt_eight {low i : ℕ} (hlow : low < 8) (hi : ¬ i < 3) :
    low.testBit i = false := by
  apply testBit_lt_two_pow
  calc low < 2 ^ 3 := hlow
    _ ≤ 2 ^ i := Nat.pow_le_pow_right (by norm_num) (by omega)

section Low

variable {low bits : ℕ} (hlow : low < 8) (hbits : bits < 8) (high : ℕ)
include hlow hbits

theorem ofNat_and_low :
    BitVec.ofNat (m + 3) (8 * high + low) &&& BitVec.ofNat (m + 3) bits =
      BitVec.ofNat (m + 3) (low &&& bits) := by
  apply eq_of_getLsbD_eq
  intro i hi
  simp only [getLsbD_and, getLsbD_ofNat, hi, decide_true,
    Bool.true_and, testBit_low hlow, testBit_and]
  split_ifs with hthree
  · rfl
  · rw [testBit_of_lt_eight hbits hthree, Bool.and_false, Bool.and_false]

theorem ofNat_or_low :
    BitVec.ofNat (m + 3) (8 * high + low) ||| BitVec.ofNat (m + 3) bits =
      BitVec.ofNat (m + 3) (8 * high + (low ||| bits)) := by
  have hor : low ||| bits < 8 := or_lt_two_pow (n := 3) hlow hbits
  apply eq_of_getLsbD_eq
  intro i hi
  simp only [getLsbD_or, getLsbD_ofNat, hi, decide_true,
    Bool.true_and, testBit_low hlow, testBit_low hor, testBit_or]
  split_ifs with hthree
  · rfl
  · rw [testBit_of_lt_eight hbits hthree, Bool.or_false]

theorem ofNat_and_not_low :
    BitVec.ofNat (m + 3) (8 * high + low) &&& ~~~(BitVec.ofNat (m + 3) bits) =
      BitVec.ofNat (m + 3) (8 * high + (low &&& (7 ^^^ bits))) := by
  have hand : low &&& (7 ^^^ bits) < 8 := lt_of_le_of_lt and_le_left hlow
  apply eq_of_getLsbD_eq
  intro i hi
  simp only [getLsbD_and, getLsbD_not, getLsbD_ofNat, hi,
    decide_true, Bool.true_and, testBit_low hlow, testBit_low hand, testBit_and, testBit_xor]
  split_ifs with hthree
  · have hseven : testBit 7 i = true := by
      interval_cases i <;> rfl
    rw [hseven, Bool.true_xor]
  · rw [testBit_of_lt_eight hbits hthree, Bool.not_false, Bool.and_true]

end Low

theorem ofNat_low_inj {low low' : ℕ} (hlow : low < 8) (hlow' : low' < 8) :
    BitVec.ofNat (m + 3) low = BitVec.ofNat (m + 3) low' ↔ low = low' := by
  have hpow : 2 ^ (m + 3) = 8 * 2 ^ m := by ring
  constructor
  · intro heq
    have htoNat := congrArg BitVec.toNat heq
    rw [BitVec.toNat_ofNat, BitVec.toNat_ofNat, mod_eq_of_lt (by omega),
      mod_eq_of_lt (by omega)] at htoNat
    exact htoNat
  · rintro rfl
    rfl

/-! ## Number and flags -/

def lowBits (wrlock wrwant wait : Bool) : ℕ :=
  4 * wrlock.toNat + 2 * wrwant.toNat + wait.toNat

theorem lowBits_lt (wrlock wrwant wait : Bool) : lowBits wrlock wrwant wait < 8 := by
  revert wrlock wrwant wait
  decide

def encode (m high : ℕ) (wrlock wrwant wait : Bool) : Word m :=
  BitVec.ofNat (m + 3) (8 * high + lowBits wrlock wrwant wait)

section Encode

variable (high : ℕ) (wrlock wrwant wait : Bool)

theorem readIncr_eq : (rwlockReadIncr : Word m) = BitVec.ofNat (m + 3) 8 := by
  apply eq_of_toNat_eq
  simp [rwlockReadIncr, Nat.shiftLeft_eq]

theorem has_ofNat {bits : ℕ} (hbits : bits < 8) :
    has (encode m high wrlock wrwant wait) (BitVec.ofNat (m + 3) bits) =
      decide (lowBits wrlock wrwant wait &&& bits ≠ 0) := by
  have hlow := lowBits_lt wrlock wrwant wait
  rw [has, encode, ofNat_and_low hlow hbits]
  have hand : lowBits wrlock wrwant wait &&& bits < 8 := lt_of_le_of_lt and_le_left hlow
  rw [decide_eq_decide]
  exact not_congr (ofNat_low_inj hand (by norm_num))

@[simp] theorem has_wrlock : has (encode m high wrlock wrwant wait) rwlockWrlock = wrlock := by
  have hhas := has_ofNat (m := m) high wrlock wrwant wait (by norm_num : 4 < 8)
  refine hhas.trans ?_
  cases wrlock <;> cases wrwant <;> cases wait <;> rfl

@[simp] theorem has_wait : has (encode m high wrlock wrwant wait) rwlockWait = wait := by
  have hhas := has_ofNat (m := m) high wrlock wrwant wait (by norm_num : 1 < 8)
  refine hhas.trans ?_
  cases wrlock <;> cases wrwant <;> cases wait <;> rfl

theorem encode_or {wrlock' wrwant' wait' : Bool} {bits : ℕ} (hbits : bits < 8)
    (hlow : lowBits wrlock wrwant wait ||| bits = lowBits wrlock' wrwant' wait') :
    encode m high wrlock wrwant wait ||| BitVec.ofNat (m + 3) bits =
      encode m high wrlock' wrwant' wait' := by
  rw [encode, encode, ofNat_or_low (lowBits_lt wrlock wrwant wait) hbits, hlow]

theorem or_wait : encode m high wrlock wrwant wait ||| rwlockWait =
    encode m high wrlock wrwant true :=
  encode_or _ _ _ _ (by norm_num : 1 < 8) (by cases wrlock <;> cases wrwant <;> cases wait <;> rfl)

theorem waitSet_eq : (rwlockWait ||| rwlockWrwant : Word m) = BitVec.ofNat (m + 3) 3 :=
  ofNat_or_low (by norm_num : 1 < 8) (by norm_num : 2 < 8) 0

theorem or_waitSet_write :
    encode m high wrlock wrwant wait ||| (rwlockWait ||| rwlockWrwant) =
      encode m high wrlock true true := by
  rw [waitSet_eq]
  exact encode_or _ _ _ _ (by norm_num) (by cases wrlock <;> cases wrwant <;> cases wait <;> rfl)

theorem and_not_flags :
    encode m high wrlock wrwant wait &&& ~~~(rwlockWait ||| rwlockWrwant) =
      encode m high wrlock false false := by
  have hlow : lowBits wrlock wrwant wait &&& (7 ^^^ 3) =
      lowBits wrlock false false := by
    cases wrlock <;> cases wrwant <;> cases wait <;> rfl
  rw [waitSet_eq, encode, encode, ← hlow]
  exact ofNat_and_not_low (lowBits_lt wrlock wrwant wait) (by norm_num : 3 < 8) high

theorem add_readIncr : encode m high wrlock wrwant wait + rwlockReadIncr =
    encode m (high + 1) wrlock wrwant wait := by
  rw [readIncr_eq, encode, ← ofNat_add]
  congr 1
  ring

theorem sub_readIncr : encode m (high + 1) wrlock wrwant wait - rwlockReadIncr =
    encode m high wrlock wrwant wait := by
  rw [← add_readIncr, add_sub_cancel_right]

theorem encode_shift (hhigh : high < 2 ^ m) :
    (encode m high wrlock wrwant wait >>> 3).toNat = high := by
  have hpow : 2 ^ (m + 3) = 8 * 2 ^ m := by ring
  have hlow := lowBits_lt wrlock wrwant wait
  rw [BitVec.toNat_ushiftRight, encode, BitVec.toNat_ofNat, mod_eq_of_lt (by omega)]
  omega

theorem encode_inj {high' : ℕ} {wrlock' wrwant' wait' : Bool}
    (hhigh : high < 2 ^ m) (hhigh' : high' < 2 ^ m)
    (heq : encode m high wrlock wrwant wait = encode m high' wrlock' wrwant' wait') :
    high = high' ∧ wrlock = wrlock' ∧ wrwant = wrwant' ∧ wait = wait' := by
  have hpow : 2 ^ (m + 3) = 8 * 2 ^ m := by ring
  have hlow := lowBits_lt wrlock wrwant wait
  have hlow' := lowBits_lt wrlock' wrwant' wait'
  have htoNat := congrArg BitVec.toNat heq
  rw [encode, encode, BitVec.toNat_ofNat, BitVec.toNat_ofNat, mod_eq_of_lt (by omega),
    mod_eq_of_lt (by omega)] at htoNat
  refine ⟨by omega, ?_⟩
  have hbits : lowBits wrlock wrwant wait = lowBits wrlock' wrwant' wait' := by
    omega
  clear heq hlow hlow' htoNat
  revert wrlock wrwant wait wrlock' wrwant' wait'
  decide

theorem zero_eq_encode : (0 : Word m) = encode m 0 false false false := rfl

end Encode

/-! ## Addresses -/

variable (addr : Word m)

def procHigh : ℕ := addr.toNat / 8

theorem procHigh_lt : procHigh addr < 2 ^ m := by
  have hpow : 2 ^ (m + 3) = 8 * 2 ^ m := by ring
  rw [procHigh]
  omega

theorem rwProc_eq : rwProc addr = encode m (procHigh addr) false false false := by
  have hlow : addr.toNat % 8 < 8 := mod_lt _ (by norm_num)
  have haddr : addr = BitVec.ofNat (m + 3) (8 * procHigh addr + addr.toNat % 8) := by
    apply BitVec.eq_of_toNat_eq
    rw [toNat_ofNat, procHigh, div_add_mod, mod_eq_of_lt addr.isLt]
  have hand := ofNat_and_not_low (m := m) hlow (by norm_num : 7 < 8) (procHigh addr)
  rw [← haddr] at hand
  have hclear : addr.toNat % 8 &&& (7 ^^^ 7) = 0 := and_zero _
  rw [hclear] at hand
  exact hand

theorem enterInc_write :
    (0 : Word m) + enterInc .write addr = encode m (procHigh addr) true false false := by
  have hmult : BitVec.ofInt (m + 3) 1 = 1 := rfl
  have hlock : (rwlockWrlock : Word m) = BitVec.ofNat (m + 3) 4 := rfl
  rw [enterInc, rwOps, hmult, mul_one, rwProc_eq, hlock, encode, encode, ← ofNat_add]
  congr 1
  simp only [lowBits, Bool.toNat_false, Bool.toNat_true]
  ring

theorem rwProc_or_wrlock :
    rwProc addr ||| rwlockWrlock = encode m (procHigh addr) true false false := by
  rw [rwProc_eq]
  exact ofNat_or_low (lowBits_lt false false false) (by norm_num : 4 < 8) _

theorem enterInc_read : enterInc .read addr = (rwlockReadIncr : Word m) := by
  simp [enterInc, rwOps]

theorem encode_add_downgrade (wrwant wait : Bool) :
    encode m (procHigh addr) true wrwant wait + enterInc .downgrade addr =
      encode m 1 false wrwant wait := by
  have hmult : BitVec.ofInt (m + 3) (-1) = -1 := by
    rw [BitVec.ofInt_neg]
    rfl
  have hlock : (rwlockWrlock : Word m) = BitVec.ofNat (m + 3) 4 := rfl
  have hwriter : encode m (procHigh addr) true wrwant wait =
      encode m (procHigh addr) false false false +
        (BitVec.ofNat (m + 3) 4 + encode m 0 false wrwant wait) := by
    simp only [encode, ← BitVec.ofNat_add]
    congr 1
    simp only [lowBits, Bool.toNat_false, Bool.toNat_true]
    ring
  rw [enterInc, rwOps, hmult, rwProc_eq, hlock, hwriter, ← add_readIncr]
  ring

end AerieKernel.Rwlock
