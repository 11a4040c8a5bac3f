import Mathlib.Data.BitVec
import Mathlib.Tactic

/-!
# Sequence numbers

Numbers of 32 bits that are compared by the sign of their difference.  Seen from a base, a
number has a signed position; numbers that are near enough to each other compare like
their positions.
-/

namespace AerieKernel.Serial

open BitVec

abbrev Seq := BitVec 32

def seqLt (a b : Seq) : Bool := (a - b).toInt < 0
def seqLeq (a b : Seq) : Bool := (a - b).toInt ≤ 0
def seqGt (a b : Seq) : Bool := 0 < (a - b).toInt
def seqGeq (a b : Seq) : Bool := 0 ≤ (a - b).toInt

def pos (base a : Seq) : ℤ := (a - base).toInt

variable {base a b : Seq}

theorem pos_self (base : Seq) : pos base base = 0 := by
  unfold pos
  rw [sub_self]
  rfl

theorem le_pos (base a : Seq) : -2 ^ 31 ≤ pos base a := le_toInt _

theorem pos_lt (base a : Seq) : pos base a < 2 ^ 31 := toInt_lt

theorem sub_cases (base a b : Seq) :
    (a - b).toInt = pos base a - pos base b ∨
      (a - b).toInt = pos base a - pos base b - 2 ^ 32 ∨
      (a - b).toInt = pos base a - pos base b + 2 ^ 32 := by
  have hle := le_pos base a
  have hlt := pos_lt base a
  have hle' := le_pos base b
  have hlt' := pos_lt base b
  have hsub : (a - b).toInt = (pos base a - pos base b).bmod (2 ^ 32) := by
    unfold pos
    rw [← toInt_sub, sub_sub_sub_cancel_right]
  rw [hsub, Int.bmod_def]
  omega

theorem sub_eq (base : Seq) (hle : -2 ^ 31 ≤ pos base a - pos base b)
    (hlt : pos base a - pos base b < 2 ^ 31) : (a - b).toInt = pos base a - pos base b := by
  have hcases := sub_cases base a b
  have hle' : -2 ^ 31 ≤ (a - b).toInt := le_toInt _
  have hlt' : (a - b).toInt < 2 ^ 31 := toInt_lt
  omega

section Near

variable (ha : 0 ≤ pos base a) (hb : 0 ≤ pos base b)

include ha hb

theorem sub_near : (a - b).toInt = pos base a - pos base b := by
  have hlt := pos_lt base a
  have hlt' := pos_lt base b
  exact sub_eq base (by omega) (by omega)

theorem seqLt_iff : seqLt a b = true ↔ pos base a < pos base b := by
  rw [seqLt, sub_near ha hb, decide_eq_true_iff]
  omega

theorem seqLeq_iff : seqLeq a b = true ↔ pos base a ≤ pos base b := by
  rw [seqLeq, sub_near ha hb, decide_eq_true_iff]
  omega

theorem seqGt_iff : seqGt a b = true ↔ pos base b < pos base a := by
  rw [seqGt, sub_near ha hb, decide_eq_true_iff]
  omega

theorem seqGeq_iff : seqGeq a b = true ↔ pos base b ≤ pos base a := by
  rw [seqGeq, sub_near ha hb, decide_eq_true_iff]
  omega

end Near

theorem pos_of_pos {base' : Seq} (hbase : 0 ≤ pos base base') (ha : pos base base' ≤ pos base a) :
    pos base' a = pos base a - pos base base' := by
  have hlt := pos_lt base a
  exact sub_eq base (by omega) (by omega)

theorem toNat_sub (hle : pos base b ≤ pos base a) (hlt : pos base a - pos base b < 2 ^ 31) :
    ((a - b).toNat : ℤ) = pos base a - pos base b := by
  have hsub := sub_eq base (a := a) (b := b) (by omega) hlt
  rw [toInt_eq_toNat_cond] at hsub
  split_ifs at hsub with hhalf
  · exact hsub
  · omega

theorem pos_add {n : ℕ} (hlt : pos base a + n < 2 ^ 31) :
    pos base (a + BitVec.ofNat 32 n) = pos base a + n := by
  have hle := le_pos base a
  have hsum : pos base (a + BitVec.ofNat 32 n) = (pos base a + n).bmod (2 ^ 32) := by
    unfold pos
    rw [add_sub_right_comm, toInt_add, ← ofInt_natCast, toInt_ofInt, Int.add_bmod_bmod]
  rw [hsum]
  apply Int.bmod_eq_of_le
  · norm_num
    omega
  · norm_num
    omega

end AerieKernel.Serial
