import Mathlib.Tactic
import Mathlib.Data.BitVec

/-!
# Wrapping words of an arbitrary width

Unsigned machine words are `BitVec w`, and every operation on them is taken
modulo `2 ^ w`.  The lemmas say when a sum or a difference wraps, with side
conditions that are linear over the natural numbers, and that rounding up to a
mask adds less than the (non-zero) step.
-/

namespace AerieKernel.Word

open BitVec

variable {w : ℕ}

theorem toNat_add_cases (x y : BitVec w) :
    (x.toNat + y.toNat < 2 ^ w ∧ (x + y).toNat = x.toNat + y.toNat) ∨
      (2 ^ w ≤ x.toNat + y.toNat ∧ (x + y).toNat + 2 ^ w = x.toNat + y.toNat) := by
  rw [toNat_add]
  by_cases hlt : x.toNat + y.toNat < 2 ^ w
  · exact .inl ⟨hlt, Nat.mod_eq_of_lt hlt⟩
  · refine .inr ⟨by omega, ?_⟩
    have hmod : (x.toNat + y.toNat) % 2 ^ w = x.toNat + y.toNat - 2 ^ w := by
      rw [Nat.mod_eq_sub_mod (by omega)]
      exact Nat.mod_eq_of_lt (by omega)
    omega

theorem toNat_sub_cases (x y : BitVec w) :
    (y.toNat ≤ x.toNat ∧ (x - y).toNat = x.toNat - y.toNat) ∨
      (x.toNat < y.toNat ∧ (x - y).toNat + y.toNat = x.toNat + 2 ^ w) := by
  have hback : x - y + y = x := BitVec.sub_add_cancel x y
  rcases toNat_add_cases (x - y) y with ⟨hsum, heq⟩ | ⟨hsum, heq⟩
  · rw [hback] at heq
    exact .inl ⟨by omega, by omega⟩
  · rw [hback] at heq
    exact .inr ⟨by omega, by omega⟩

variable {x : BitVec w}

theorem one_le_toNat (hx : x ≠ 0) : 1 ≤ x.toNat := by
  by_contra hzero
  apply hx
  apply eq_of_toNat_eq
  simp
  omega

theorem toNat_one_of_ne_zero (hx : x ≠ 0) : (1 : BitVec w).toNat = 1 := by
  have hone := one_le_toNat hx
  simp only [ofNat_eq_ofNat]
  exact Nat.mod_eq_of_lt (by omega)

theorem toNat_sub_one (hx : x ≠ 0) : (x - 1).toNat = x.toNat - 1 := by
  have hone := toNat_one_of_ne_zero hx
  have hx1 := one_le_toNat hx
  rcases toNat_sub_cases x 1 with ⟨hle, heq⟩ | ⟨hlt, heq⟩
  · omega
  · omega

theorem toNat_add_one_of_lt {y : BitVec w} (hlt : x.toNat < y.toNat) :
    (x + 1).toNat = x.toNat + 1 := by
  have hone : (1 : BitVec w).toNat = 1 := toNat_one_of_ne_zero (x := y) (by rintro rfl; simp at hlt)
  rcases toNat_add_cases x 1 with ⟨_, heq⟩ | ⟨hle, _⟩
  · omega
  · omega

theorem and_not_eq_sub (y m : BitVec w) : y &&& ~~~m = y - (y &&& m) := by
  have hdisjoint : (y &&& ~~~m) &&& (y &&& m) = 0 := by
    ext i hi
    simp only [getElem_and, getElem_not]
    cases y[i] <;> cases m[i] <;> simp
  have hjoin : (y &&& ~~~m) ||| (y &&& m) = y := by
    ext i hi
    simp only [getElem_or, getElem_and, getElem_not]
    cases y[i] <;> cases m[i] <;> simp
  have hsum : (y &&& ~~~m) + (y &&& m) = y := by
    rw [add_eq_or_of_and_eq_zero _ _ hdisjoint, hjoin]
  exact eq_sub_of_add_eq hsum

/-- Round `x` up so that its distance from `skew` clears the bits of
`step - 1`. -/
def roundUp (x step skew : BitVec w) : BitVec w :=
  (((x - skew) + (step - 1)) &&& (-step)) + skew

theorem roundUp_eq_add (x step skew : BitVec w) :
    roundUp x step skew = x + ((step - 1) - (((x - skew) + (step - 1)) &&& (step - 1))) := by
  have hneg : -step = ~~~(step - 1) := by
    rw [not_eq_neg_add]
    change -step = -(step - 1) - 1
    ring
  unfold roundUp
  rw [hneg, and_not_eq_sub]
  ring

theorem roundUp_displacement (x skew : BitVec w) {step : BitVec w} (hstep : step ≠ 0) :
    ∃ d : BitVec w, roundUp x step skew = x + d ∧ d.toNat < step.toNat := by
  refine ⟨_, roundUp_eq_add x step skew, ?_⟩
  have hle : (((x - skew) + (step - 1)) &&& (step - 1)).toNat ≤ (step - 1).toNat := by
    exact Nat.and_le_right
  have hpred := toNat_sub_one hstep
  have hone := one_le_toNat hstep
  rcases toNat_sub_cases (step - 1) (((x - skew) + (step - 1)) &&& (step - 1)) with
    ⟨_, heq⟩ | ⟨hlt, _⟩
  · omega
  · omega

end AerieKernel.Word
