import Mathlib.Tactic

/-!
# Rings of cells

A memory of `n` cells read from a first cell on, with cell 0 after cell `n - 1`.
The list that a ring holds, how it splits, and which cells it leaves alone.
-/

namespace AerieKernel.RingBuffer

open List

variable {α : Type*} {n : ℕ}

def contents (mem : ℕ → α) (n first len : ℕ) : List α :=
  (List.range len).map fun i => mem ((first + i) % n)

@[simp] theorem length_contents (mem : ℕ → α) (n first len : ℕ) :
    (contents mem n first len).length = len := by
  simp [contents]

@[simp] theorem contents_zero (mem : ℕ → α) (n first : ℕ) : contents mem n first 0 = [] := rfl

variable {first len : ℕ}

theorem contents_congr {mem mem' : ℕ → α}
    (hsame : ∀ i < len, mem' ((first + i) % n) = mem ((first + i) % n)) :
    contents mem' n first len = contents mem n first len := by
  apply map_congr_left
  intro i hi
  exact hsame i (mem_range.mp hi)

theorem contents_add (mem : ℕ → α) (n first a b : ℕ) :
    contents mem n first (a + b) =
      contents mem n first a ++ contents mem n ((first + a) % n) b := by
  rw [contents, range_add, map_append, map_map]
  congr 1
  apply map_congr_left
  intro i _
  simp only [Function.comp_apply, Nat.mod_add_mod, add_assoc]

theorem contents_straight (mem : ℕ → α) (hend : first + len ≤ n) :
    contents mem n first len = (List.range len).map fun i => mem (first + i) := by
  apply map_congr_left
  intro i hi
  have hi := mem_range.mp hi
  rw [Nat.mod_eq_of_lt (by omega)]

theorem contents_one (mem : ℕ → α) (hfirst : first < n) : contents mem n first 1 = [mem first] := by
  rw [contents_straight mem (by omega)]
  simp

theorem index_ne (first : ℕ) {i j : ℕ} (hij : i < j) (hj : j < i + n) :
    (first + i) % n ≠ (first + j) % n := by
  intro heq
  have hmod : (j - i) % n = 0 := by
    have hsub : (first + j) - (first + i) = j - i := by omega
    rw [← hsub]
    exact Nat.sub_mod_eq_zero_of_mod_eq heq.symm
  rw [Nat.mod_eq_of_lt (by omega)] at hmod
  omega

theorem advance_index (hend : first + len ≤ n) :
    (if first + len = n then 0 else first + len) = (first + len) % n := by
  split_ifs with heq
  · rw [heq, Nat.mod_self]
  · rw [Nat.mod_eq_of_lt (by omega)]

theorem last_index (hfirst : first < n) (hlen : len ≤ n) :
    (first + len) % n = if first + len < n then first + len else first + len - n := by
  split_ifs with hlt
  · exact Nat.mod_eq_of_lt hlt
  · rw [Nat.mod_eq_sub_mod (by omega), Nat.mod_eq_of_lt (by omega)]

end AerieKernel.RingBuffer
