import Mathlib.Tactic
import Mathlib.Data.List.Basic

/-!
# Search trees as ordered tables

A table is the list of the records of a search tree in the order of the tree.
The records are reached through pointers, and a search compares what it looks
for with one record after the other until it has found its place.  With a
comparison that is an order the search finds a record exactly if there is one,
and a record that is put at its place keeps the table ordered.
-/

namespace AerieKernel.Tables

open List

variable {ι α : Type*} (cmp : α → α → Ordering) (record : ι → α)

def find (probe : α) : List ι → Option ι
  | [] => none
  | p :: rest =>
    match cmp probe (record p) with
    | .lt => none
    | .eq => some p
    | .gt => find probe rest

def place (new : ι) : List ι → List ι
  | [] => [new]
  | p :: rest =>
    match cmp (record new) (record p) with
    | .gt => p :: place new rest
    | _ => new :: p :: rest

def Sorted (table : List ι) : Prop :=
  table.Pairwise fun p q => cmp (record p) (record q) = .lt

variable {cmp record} {table : List ι} {new p : ι} {probe : α}

theorem place_perm (new : ι) (table : List ι) :
    (place cmp record new table).Perm (new :: table) := by
  induction table with
  | nil => exact .refl _
  | cons p rest ih =>
    unfold place
    split
    · exact (ih.cons p).trans (.swap _ _ _)
    · exact .refl _

@[simp] theorem mem_place {q : ι} : q ∈ place cmp record new table ↔ q = new ∨ q ∈ table := by
  rw [(place_perm new table).mem_iff, mem_cons]

theorem erase_place [DecidableEq ι] (hnew : new ∉ table) :
    (place cmp record new table).erase new = table := by
  induction table with
  | nil => simp [place]
  | cons p rest ih =>
    obtain ⟨hp, hrest⟩ := not_or.mp (mt mem_cons.mpr hnew)
    unfold place
    split
    · rw [erase_cons_tail (by simpa using Ne.symm hp), ih hrest]
    · exact erase_cons_head ..

theorem mem_of_find_eq_some (h : find cmp record probe table = some p) :
    p ∈ table ∧ cmp probe (record p) = .eq := by
  induction table with
  | nil => cases h
  | cons q rest ih =>
    unfold find at h
    split at h
    · cases h
    · cases h
      exact ⟨mem_cons_self .., ‹_›⟩
    · exact ⟨mem_cons_of_mem _ (ih h).1, (ih h).2⟩

theorem Sorted.congr {record' : ι → α} (h : ∀ q ∈ table, record q = record' q)
    (hsorted : Sorted cmp record table) : Sorted cmp record' table := by
  apply List.Pairwise.imp_of_mem _ hsorted
  intro p q hp hq hlt
  rw [← h p hp, ← h q hq]
  exact hlt

theorem Sorted.erase [DecidableEq ι] (hsorted : Sorted cmp record table)
    (p : ι) : Sorted cmp record (table.erase p) := hsorted.sublist erase_sublist

section Order

variable [Std.TransCmp cmp]

section

variable (hsorted : Sorted cmp record table)
include hsorted

theorem Sorted.nodup : table.Nodup := by
  apply hsorted.imp
  rintro p q hlt rfl
  have hself : cmp (record p) (record p) = .eq := Std.ReflCmp.compare_self
  rw [hself] at hlt
  cases hlt

theorem Sorted.find_eq_some :
    find cmp record probe table = some p ↔ p ∈ table ∧ cmp probe (record p) = .eq := by
  induction table with
  | nil => simp [find]
  | cons q rest ih =>
    obtain ⟨hq, hrest⟩ := pairwise_cons.mp hsorted
    rw [mem_cons]
    unfold find
    split
    next hlt =>
      refine ⟨fun h => (by cases h), ?_⟩
      rintro ⟨rfl | hp, heq⟩
      · rw [hlt] at heq
        cases heq
      · rw [Std.TransCmp.lt_trans hlt (hq p hp)] at heq
        cases heq
    next heq =>
      rw [Option.some_inj]
      constructor
      · rintro rfl
        exact ⟨.inl rfl, heq⟩
      · rintro ⟨rfl | hp, hprobe⟩
        · rfl
        · rw [Std.TransCmp.congr_left heq, hq p hp] at hprobe
          cases hprobe
    next hgt =>
      rw [ih hrest]
      constructor
      · rintro ⟨hp, heq⟩
        exact ⟨.inr hp, heq⟩
      · rintro ⟨rfl | hp, heq⟩
        · rw [hgt] at heq
          cases heq
        · exact ⟨hp, heq⟩

theorem Sorted.eq_of_cmp_eq {q : ι} (hp : p ∈ table) (hq : q ∈ table)
    (heq : cmp (record p) (record q) = .eq) : p = q := by
  have hfind := hsorted.find_eq_some.mpr ⟨hq, heq⟩
  rw [hsorted.find_eq_some.mpr ⟨hp, Std.ReflCmp.compare_self⟩] at hfind
  exact Option.some.inj hfind

theorem Sorted.place (hnone : find cmp record (record new) table = none) :
    Sorted cmp record (place cmp record new table) := by
  induction table with
  | nil => exact pairwise_singleton ..
  | cons q rest ih =>
    obtain ⟨hq, hrest⟩ := pairwise_cons.mp hsorted
    unfold find at hnone
    unfold Tables.place
    cases hcmp : cmp (record new) (record q) with
    | gt =>
      rw [hcmp] at hnone
      apply pairwise_cons.mpr ⟨?_, ih hrest hnone⟩
      intro p hp
      rcases mem_place.mp hp with rfl | hp
      · exact Std.OrientedCmp.lt_of_gt hcmp
      · exact hq p hp
    | lt =>
      exact pairwise_cons.mpr ⟨forall_mem_cons.mpr
        ⟨hcmp, fun p hp => Std.TransCmp.lt_trans hcmp (hq p hp)⟩, hsorted⟩
    | eq =>
      rw [hcmp] at hnone
      cases hnone

end

end Order

variable {words : α → List ℕ}

theorem transCmp_of_words
    (h : ∀ a b, cmp a b = compare (words a) (words b)) : Std.TransCmp cmp := by
  have heq : cmp = compareOn words := by
    funext a b
    exact h a b
  rw [heq]
  infer_instance

end AerieKernel.Tables
