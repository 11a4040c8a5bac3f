import Mathlib.Tactic

/-!
# Ordered lists of closed intervals

The elements of a list stand for closed intervals of a linear order through
two functions `lo` and `hi`.  An ordered list has proper intervals, each of
which ends before the next one begins; such a list describes a set of points
as a disjoint union.  The lemmas are those needed to edit a list in place:
put an interval into a gap, replace one interval by others, or merge two
neighbours.
-/

namespace AerieKernel.Intervals

variable {ι α : Type*} [LinearOrder α] {lo hi : ι → α}

/-- Proper intervals, in strictly increasing order and pairwise disjoint. -/
structure Ordered (lo hi : ι → α) (xs : List ι) : Prop where
  sorted : xs.Pairwise fun x y => hi x < lo y
  proper : ∀ x ∈ xs, lo x ≤ hi x

def Covers (lo hi : ι → α) (xs : List ι) (a : α) : Prop :=
  ∃ x ∈ xs, lo x ≤ a ∧ a ≤ hi x

theorem ordered_nil : Ordered lo hi ([] : List ι) :=
  ⟨List.Pairwise.nil, by simp⟩

variable {xs ys : List ι}

theorem ordered_append :
    Ordered lo hi (xs ++ ys) ↔
      Ordered lo hi xs ∧ Ordered lo hi ys ∧ ∀ x ∈ xs, ∀ y ∈ ys, hi x < lo y := by
  constructor
  · rintro ⟨hsorted, hproper⟩
    rw [List.pairwise_append] at hsorted
    exact ⟨⟨hsorted.1, fun x hx => hproper x (by simp [hx])⟩,
      ⟨hsorted.2.1, fun x hx => hproper x (by simp [hx])⟩, hsorted.2.2⟩
  · rintro ⟨hxs, hys, hcross⟩
    exact ⟨List.pairwise_append.mpr ⟨hxs.sorted, hys.sorted, hcross⟩,
      List.forall_mem_append.mpr ⟨hxs.proper, hys.proper⟩⟩

theorem ordered_cons {x : ι} :
    Ordered lo hi (x :: ys) ↔ lo x ≤ hi x ∧ (∀ y ∈ ys, hi x < lo y) ∧ Ordered lo hi ys := by
  constructor
  · rintro ⟨hsorted, hproper⟩
    rw [List.pairwise_cons] at hsorted
    exact ⟨hproper x (by simp), hsorted.1, hsorted.2, fun y hy => hproper y (by simp [hy])⟩
  · rintro ⟨hx, hfirst, hys⟩
    exact ⟨List.pairwise_cons.mpr ⟨hfirst, hys.sorted⟩, List.forall_mem_cons.mpr ⟨hx, hys.proper⟩⟩

variable {z : ι}

theorem Ordered.insert (hordered : Ordered lo hi (xs ++ ys)) (hproper : lo z ≤ hi z)
    (hfront : ∀ x ∈ xs, hi x < lo z) (hback : ∀ y ∈ ys, hi z < lo y) :
    Ordered lo hi (xs ++ z :: ys) := by
  obtain ⟨hxs, hys, hcross⟩ := ordered_append.mp hordered
  rw [ordered_append, ordered_cons]
  exact ⟨hxs, ⟨hproper, hback, hys⟩,
    fun x hx => List.forall_mem_cons.mpr ⟨hfront x hx, hcross x hx⟩⟩

section

variable (hordered : Ordered lo hi (xs ++ z :: ys))
include hordered

theorem Ordered.remove : Ordered lo hi (xs ++ ys) := by
  obtain ⟨hxs, hzys, hcross⟩ := ordered_append.mp hordered
  exact ordered_append.mpr ⟨hxs, (ordered_cons.mp hzys).2.2,
    fun x hx y hy => hcross x hx y (by simp [hy])⟩

theorem Ordered.front_lt : ∀ x ∈ xs, hi x < lo z :=
  fun x hx => (ordered_append.mp hordered).2.2 x hx z (by simp)

theorem Ordered.lt_back : ∀ y ∈ ys, hi z < lo y :=
  (ordered_cons.mp (ordered_append.mp hordered).2.1).2.1

theorem Ordered.proper_mid : lo z ≤ hi z :=
  hordered.proper z (by simp)

end

@[simp] theorem covers_append {a : α} :
    Covers lo hi (xs ++ ys) a ↔ Covers lo hi xs a ∨ Covers lo hi ys a := by
  simp only [Covers, List.mem_append, or_and_right, exists_or]

@[simp] theorem covers_cons {x : ι} {a : α} :
    Covers lo hi (x :: ys) a ↔ (lo x ≤ a ∧ a ≤ hi x) ∨ Covers lo hi ys a := by
  simp [Covers]

@[simp] theorem covers_nil {a : α} : ¬ Covers lo hi ([] : List ι) a := by
  simp [Covers]

end AerieKernel.Intervals
