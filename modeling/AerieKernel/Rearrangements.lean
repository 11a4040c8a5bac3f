import Mathlib.Logic.Equiv.Basic
import Mathlib.Data.List.Perm.Subperm
import Mathlib.Data.List.Nodup
import Mathlib.Tactic.SplitIfs
import Mathlib.Tactic.Common

/-!
# Rearranged arrays

An array is a function from places to values.  An algorithm that works in place rearranges the
values between two places and leaves all others alone.
-/

namespace AerieKernel.Arrays

variable {α : Type*}

/-- The `w` cells from `p` on and those from `q` on change places. -/
def exchange (w p q : ℕ) (A : ℕ → α) : ℕ → α := fun x =>
  if q ≤ x ∧ x < q + w then A (p + (x - q))
  else if p ≤ x ∧ x < p + w then A (q + (x - p))
  else A x

theorem exchange_one (p q k : ℕ) (A : ℕ → α) :
    exchange 1 p q A k = if k = q then A p else if k = p then A q else A k := by
  simp only [exchange]
  split_ifs <;> first | omega | congr 1 <;> omega

/-- `B` is `A` with its values between `lo` and `hi` in another order. -/
def Rearranged (lo hi : ℕ) (A B : ℕ → α) : Prop :=
  ∃ σ : Equiv.Perm ℕ, (∀ k, k < lo ∨ hi ≤ k → σ k = k) ∧ B = A ∘ σ

namespace Rearranged

variable {lo hi l h : ℕ} {A B C : ℕ → α}

theorem refl (A : ℕ → α) : Rearranged lo hi A A :=
  ⟨Equiv.refl ℕ, fun _ _ => rfl, rfl⟩

theorem trans (hB : Rearranged lo hi A B) (hC : Rearranged lo hi B C) : Rearranged lo hi A C := by
  obtain ⟨σ, hσ, rfl⟩ := hB
  obtain ⟨τ, hτ, rfl⟩ := hC
  exact ⟨τ.trans σ, fun k hk => by simp [hτ k hk, hσ k hk], rfl⟩

theorem mono (hB : Rearranged l h A B) (hl : lo ≤ l) (hh : h ≤ hi) : Rearranged lo hi A B := by
  obtain ⟨σ, hσ, rfl⟩ := hB
  exact ⟨σ, fun k hk => hσ k (by omega), rfl⟩

theorem eq_of_out (hB : Rearranged lo hi A B) {k : ℕ} (hk : k < lo ∨ hi ≤ k) : B k = A k := by
  obtain ⟨σ, hσ, rfl⟩ := hB
  rw [Function.comp_apply, hσ k hk]

theorem exchange (A : ℕ → α) {r p q : ℕ} (hpq : p = q ∨ p + r ≤ q ∨ q + r ≤ p)
    (hp : lo ≤ p ∧ p + r ≤ hi) (hq : lo ≤ q ∧ q + r ≤ hi) :
    Rearranged lo hi A (exchange r p q A) := by
  have hinv : Function.Involutive (Arrays.exchange r p q id) := by
    intro k
    simp only [Arrays.exchange, id]
    split_ifs <;> omega
  refine ⟨hinv.toPerm, fun k hk => ?_, ?_⟩
  · rw [hinv.coe_toPerm]
    simp only [Arrays.exchange, id]
    split_ifs <;> omega
  · funext k
    rw [Function.comp_apply, hinv.coe_toPerm]
    simp only [Arrays.exchange, id]
    split_ifs <;> rfl

/-- A rearrangement keeps what holds of all the values between `lo` and `hi`. -/
theorem forall_mem (P : α → Prop) (hB : Rearranged lo hi A B)
    (hA : ∀ k, lo ≤ k → k < hi → P (A k)) : ∀ k, lo ≤ k → k < hi → P (B k) := by
  obtain ⟨σ, hσ, rfl⟩ := hB
  intro k hl hh
  by_cases hk : lo ≤ σ k ∧ σ k < hi
  · exact hA _ hk.1 hk.2
  · -- A value that leaves the range would be the image of two places.
    have hfix : σ k = k := σ.injective (hσ (σ k) (by omega))
    omega

theorem perm {n : ℕ} (hB : Rearranged 0 n A B) :
    ((List.range n).map B).Perm ((List.range n).map A) := by
  obtain ⟨σ, hσ, rfl⟩ := hB
  rw [← List.map_map]
  apply List.Perm.map
  have hnodup : ((List.range n).map σ).Nodup := List.nodup_range.map σ.injective
  apply (List.subperm_of_subset hnodup ?_).perm_of_length_le (by simp)
  intro k hk
  obtain ⟨i, hi, rfl⟩ := List.mem_map.mp hk
  have hid : Rearranged 0 n id (id ∘ σ) := ⟨σ, hσ, rfl⟩
  exact hid.forall_mem (· ∈ List.range n) (fun i _ hi => List.mem_range.mpr hi) i i.zero_le
    (List.mem_range.mp hi)

end Rearranged

end AerieKernel.Arrays
