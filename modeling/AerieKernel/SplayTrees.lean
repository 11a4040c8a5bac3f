import Mathlib

/-!
# Splay trees

The model of the `SPLAY` macros of `sys/tree.h`.  A tree is the value of `sph_root`,
its nodes are the elements with their `spe_left` and `spe_right`.  Only the sign of a
comparison is ever read, so `cmp` gives an `Ordering`.

The lemmas say what the operations do to the elements in order.  They do not ask that
`cmp` is an order: a comparison with the wanted element only has to split the list.
-/

namespace AerieKernel.Splay

open List

universe u

inductive Tree (α : Type u) where
  | nil
  | node (left : Tree α) (elm : α) (right : Tree α)
  deriving DecidableEq

namespace Tree

variable {α : Type u}

def toList : Tree α → List α
  | nil => []
  | node left elm right => left.toList ++ elm :: right.toList

/-- The left tree with something put at its right end; its nodes are those that
`SPLAY_LINKRIGHT` took, the last one first. -/
def hangRight : List (Tree α × α) → Tree α → Tree α
  | [], tree => tree
  | (left, elm) :: frames, tree => hangRight frames (node left elm tree)

def hangLeft : List (α × Tree α) → Tree α → Tree α
  | [], tree => tree
  | (elm, right) :: frames, tree => hangLeft frames (node tree elm right)

def assemble (lefts : List (Tree α × α)) (rights : List (α × Tree α))
    (left : Tree α) (elm : α) (right : Tree α) : Tree α :=
  node (hangRight lefts left) elm (hangLeft rights right)

/-- The loop of `SPLAY`, where `comp` is the comparison with the wanted element.  It
never goes on to NULL. -/
def splayLoop (comp : α → Ordering) : Tree α → List (Tree α × α) → List (α × Tree α) → Tree α
  | nil, _, _ => nil
  | node left elm right, lefts, rights =>
    match comp elm with
    | .eq => assemble lefts rights left elm right
    | .lt =>
      match left with
      | nil => assemble lefts rights nil elm right
      | node left' tmp right' =>
        -- `SPLAY_ROTATE_RIGHT` makes `tmp` the root
        if comp tmp = .lt then
          match left' with
          | nil => assemble lefts rights nil tmp (node right' elm right)
          | node a b c =>
            splayLoop comp (node a b c) lefts ((tmp, node right' elm right) :: rights)
        else
          splayLoop comp (node left' tmp right') lefts ((elm, right) :: rights)
    | .gt =>
      match right with
      | nil => assemble lefts rights left elm nil
      | node left' tmp right' =>
        if comp tmp = .gt then
          match right' with
          | nil => assemble lefts rights (node left elm left') tmp nil
          | node a b c =>
            splayLoop comp (node a b c) ((node left elm left', tmp) :: lefts) rights
        else
          splayLoop comp (node left' tmp right') ((left, elm) :: lefts) rights

def splay (comp : α → Ordering) (tree : Tree α) : Tree α := splayLoop comp tree [] []

variable (cmp : α → α → Ordering)

def find (tree : Tree α) (elm : α) : Option α × Tree α :=
  match splay (cmp elm) tree with
  | nil => (none, nil)
  | node left root right =>
    if cmp elm root = .eq then (some root, node left root right)
    else (none, node left root right)

def insert (tree : Tree α) (elm : α) : Option α × Tree α :=
  match splay (cmp elm) tree with
  | nil => (none, node nil elm nil)
  | node left root right =>
    match cmp elm root with
    | .lt => (none, node left elm (node nil root right))
    | .gt => (none, node (node left root nil) elm right)
    | .eq => (some root, node left root right)

def setRight (right : Tree α) : Tree α → Tree α
  | nil => nil
  | node left elm _ => node left elm right

def remove (tree : Tree α) (elm : α) : Option α × Tree α :=
  match splay (cmp elm) tree with
  | nil => (none, nil)
  | node left root right =>
    if cmp elm root = .eq then
      match left with
      | nil => (some elm, right)
      | node a b c => (some elm, setRight right (splay (cmp elm) (node a b c)))
    else (none, node left root right)

def modifyRoot (f : α → α) : Tree α → Tree α
  | nil => nil
  | node left elm right => node left (f elm) right

/-! ## The elements in order -/

def leftElms : List (Tree α × α) → List α
  | [] => []
  | (left, elm) :: frames => leftElms frames ++ (left.toList ++ [elm])

def rightElms : List (α × Tree α) → List α
  | [] => []
  | (elm, right) :: frames => elm :: right.toList ++ rightElms frames

@[simp]
theorem toList_hangRight (frames : List (Tree α × α)) (tree : Tree α) :
    (hangRight frames tree).toList = leftElms frames ++ tree.toList := by
  induction frames generalizing tree with
  | nil => rfl
  | cons frame frames ih =>
    rw [hangRight, ih]
    simp [toList, leftElms]

@[simp]
theorem toList_hangLeft (frames : List (α × Tree α)) (tree : Tree α) :
    (hangLeft frames tree).toList = tree.toList ++ rightElms frames := by
  induction frames generalizing tree with
  | nil => simp [hangLeft, rightElms]
  | cons frame frames ih =>
    rw [hangLeft, ih]
    simp [toList, rightElms]

variable {tree : Tree α}

theorem toList_eq_nil : tree.toList = [] ↔ tree = nil := by
  cases tree <;> simp [toList]

theorem toList_eq_singleton {elm : α} : tree.toList = [elm] ↔ tree = node nil elm nil := by
  cases tree with
  | nil => simp [toList]
  | node left root right =>
    simp [toList, append_eq_singleton_iff, toList_eq_nil]

variable {comp : α → Ordering} {lefts : List (Tree α × α)} {rights : List (α × Tree α)}

theorem toList_splayLoop (hne : tree ≠ nil) :
    (splayLoop comp tree lefts rights).toList =
      leftElms lefts ++ tree.toList ++ rightElms rights := by
  fun_induction splayLoop comp tree lefts rights
  case case1 => exact absurd rfl hne
  all_goals simp_all [assemble, toList, leftElms, rightElms]

theorem toList_splay (comp : α → Ordering) (tree : Tree α) :
    (splay comp tree).toList = tree.toList := by
  cases tree with
  | nil => rfl
  | node left elm right =>
    rw [splay, toList_splayLoop (by simp)]
    simp [leftElms, rightElms]

/-- What is wanted is above a first part of the list and below the rest, and what is in
between is equal to it. -/
def Guides (comp : α → Ordering) (elms : List α) : Prop :=
  elms.Pairwise fun a b => (comp a = .lt → comp b = .lt) ∧ (comp b = .gt → comp a = .gt)

/-- At most one element is in between. -/
def Splits (comp : α → Ordering) (elms : List α) : Prop :=
  elms.Pairwise fun a b => comp a ≠ .gt → comp b = .lt

theorem Guides.of_append {first second : List α} (h : Guides comp (first ++ second)) :
    Guides comp first ∧ Guides comp second := by
  obtain ⟨hfirst, hsecond, -⟩ := pairwise_append.mp h
  exact ⟨hfirst, hsecond⟩

theorem Guides.before {first second : List α} {elm : α} (h : Guides comp (first ++ elm :: second))
    (helm : comp elm = .gt) : ∀ a ∈ first, comp a = .gt := by
  intro a ha
  obtain ⟨-, -, hcross⟩ := pairwise_append.mp h
  exact (hcross a ha elm (by simp)).2 helm

theorem Guides.after {first second : List α} {elm : α} (h : Guides comp (first ++ elm :: second))
    (helm : comp elm = .lt) : ∀ a ∈ second, comp a = .lt := by
  intro a ha
  obtain ⟨-, hsecond, -⟩ := pairwise_append.mp h
  exact ((pairwise_cons.mp hsecond).1 a ha).1 helm

theorem Splits.guides {elms : List α} (h : Splits comp elms) : Guides comp elms := by
  apply List.Pairwise.imp _ h
  intro a b hab
  refine ⟨fun hlt => hab (by simp [hlt]), fun hgt => ?_⟩
  by_contra hne
  cases hgt.symm.trans (hab hne)

theorem Guides.splits {elms : List α} (h : Guides comp elms)
    (hnone : ∀ a ∈ elms, comp a ≠ .eq) : Splits comp elms := by
  apply h.imp_of_mem
  intro a b ha _ hab hgt
  apply hab.1
  cases hcomp : comp a with
  | lt => rfl
  | eq => exact absurd hcomp (hnone a ha)
  | gt => exact absurd hcomp hgt

structure Parted (comp : α → Ordering) (left right : Tree α) : Prop where
  left : ∀ a ∈ left.toList, comp a = .gt
  right : ∀ a ∈ right.toList, comp a = .lt

theorem parted_assemble {left right : Tree α} {elm : α}
    (hlefts : ∀ a ∈ leftElms lefts, comp a = .gt) (hrights : ∀ a ∈ rightElms rights, comp a = .lt)
    (hleft : ∀ a ∈ left.toList, comp a = .gt) (hright : ∀ a ∈ right.toList, comp a = .lt) :
    ∃ left' elm' right', assemble lefts rights left elm right = node left' elm' right' ∧
        (comp elm' ≠ .eq → Parted comp left' right') := by
  refine ⟨_, _, _, rfl, fun _ => ⟨?_, ?_⟩⟩
  · rw [toList_hangRight, forall_mem_append]
    exact ⟨hlefts, hleft⟩
  · rw [toList_hangLeft, forall_mem_append]
    exact ⟨hright, hrights⟩

theorem rightElms_cons {elm : α} {right : Tree α} (helm : comp elm = .lt)
    (hright : ∀ a ∈ right.toList, comp a = .lt) (hrights : ∀ a ∈ rightElms rights, comp a = .lt) :
    ∀ a ∈ rightElms ((elm, right) :: rights), comp a = .lt := by
  rw [rightElms, forall_mem_append, forall_mem_cons]
  exact ⟨⟨helm, hright⟩, hrights⟩

theorem leftElms_cons {elm : α} {left : Tree α} (helm : comp elm = .gt)
    (hleft : ∀ a ∈ left.toList, comp a = .gt) (hlefts : ∀ a ∈ leftElms lefts, comp a = .gt) :
    ∀ a ∈ leftElms ((left, elm) :: lefts), comp a = .gt := by
  rw [leftElms, forall_mem_append, forall_mem_append, forall_mem_singleton]
  exact ⟨hlefts, hleft, helm⟩

theorem splayLoop_parted (hne : tree ≠ nil) (hguides : Guides comp tree.toList)
    (hlefts : ∀ a ∈ leftElms lefts, comp a = .gt) (hrights : ∀ a ∈ rightElms rights, comp a = .lt) :
    ∃ left elm right, splayLoop comp tree lefts rights = node left elm right ∧
      (comp elm ≠ .eq → Parted comp left right) := by
  fun_induction splayLoop comp tree lefts rights
  case case1 => exact absurd rfl hne
  case case2 left elm right lefts rights heq =>
    exact ⟨_, elm, _, rfl, fun hne => absurd heq hne⟩
  case case3 elm right lefts rights helm =>
    exact parted_assemble hlefts hrights (by simp [toList]) (hguides.after helm)
  case case4 elm right lefts rights _ tmp right' htmp =>
    have hrotated : Guides comp ([] ++ tmp :: (node right' elm right).toList) := by
      simpa [toList] using hguides
    exact parted_assemble hlefts hrights (by simp [toList]) (hrotated.after htmp)
  case case5 elm right lefts rights _ tmp right' htmp a b c ih =>
    have hrotated : Guides comp ((node a b c).toList ++ tmp :: (node right' elm right).toList) := by
      simpa [toList] using hguides
    exact ih (by simp) hrotated.of_append.1 hlefts
      (rightElms_cons htmp (hrotated.after htmp) hrights)
  case case6 elm right lefts rights helm left' tmp right' _ ih =>
    exact ih (by simp) hguides.of_append.1 hlefts (rightElms_cons helm (hguides.after helm) hrights)
  case case7 left elm lefts rights helm =>
    exact parted_assemble hlefts hrights (hguides.before helm) (by simp [toList])
  case case8 left elm lefts rights _ left' tmp htmp =>
    have hrotated : Guides comp ((node left elm left').toList ++ tmp :: []) := by
      simpa [toList] using hguides
    exact parted_assemble hlefts hrights (hrotated.before htmp) (by simp [toList])
  case case9 left elm lefts rights _ left' tmp htmp a b c ih =>
    have hrotated : Guides comp ((node left elm left').toList ++ tmp :: (node a b c).toList) := by
      simpa [toList] using hguides
    exact ih (by simp) hrotated.of_append.2.of_cons
      (leftElms_cons htmp (hrotated.before htmp) hlefts) hrights
  case case10 left elm lefts rights helm left' tmp right' _ ih =>
    exact ih (by simp) hguides.of_append.2.of_cons
      (leftElms_cons helm (hguides.before helm) hlefts) hrights

theorem splay_guided (hne : tree ≠ nil) (hguides : Guides comp tree.toList) :
    ∃ left elm right, splay comp tree = node left elm right ∧
      tree.toList = left.toList ++ elm :: right.toList ∧
      (comp elm ≠ .eq → Parted comp left right) := by
  obtain ⟨left, elm, right, hsplay, hparted⟩ :
      ∃ left elm right, splay comp tree = node left elm right ∧
        (comp elm ≠ .eq → Parted comp left right) :=
    splayLoop_parted hne hguides (by simp [leftElms]) (by simp [rightElms])
  exact ⟨left, elm, right, hsplay, by rw [← toList_splay comp tree, hsplay, toList], hparted⟩

theorem splay_parted (hne : tree ≠ nil) (hsplits : Splits comp tree.toList) :
    ∃ left elm right, splay comp tree = node left elm right ∧
      tree.toList = left.toList ++ elm :: right.toList ∧ Parted comp left right := by
  obtain ⟨left, elm, right, hsplay, hlist, hparted⟩ := splay_guided hne hsplits.guides
  refine ⟨left, elm, right, hsplay, hlist, ?_⟩
  by_cases heq : comp elm = .eq
  · rw [hlist, Splits, pairwise_append, pairwise_cons] at hsplits
    refine ⟨fun a ha => ?_, fun a ha => hsplits.2.1.1 a ha (by simp [heq])⟩
    by_contra hgt
    cases heq.symm.trans (hsplits.2.2 a ha elm (by simp) hgt)
  · exact hparted heq

/-- If something is equal to what is wanted, such an element gets to the root. -/
theorem splay_hit {a : α} (hguides : Guides comp tree.toList) (ha : a ∈ tree.toList)
    (heq : comp a = .eq) : ∃ left elm right, splay comp tree = node left elm right ∧
      tree.toList = left.toList ++ elm :: right.toList ∧ comp elm = .eq := by
  have hne : tree ≠ nil := by
    rintro rfl
    cases ha
  obtain ⟨left, root, right, hsplay, hlist, hparted⟩ := splay_guided hne hguides
  refine ⟨left, root, right, hsplay, hlist, ?_⟩
  by_contra hroot
  rw [hlist] at ha
  rcases List.mem_append.mp ha with ha | ha
  · cases heq.symm.trans ((hparted hroot).left a ha)
  · rcases mem_cons.mp ha with rfl | ha
    · exact hroot heq
    · cases heq.symm.trans ((hparted hroot).right a ha)

theorem splay_found {a : α} (hsplits : Splits comp tree.toList) (ha : a ∈ tree.toList)
    (heq : comp a = .eq) : ∃ left right, splay comp tree = node left a right ∧
      tree.toList = left.toList ++ a :: right.toList ∧ Parted comp left right := by
  have hne : tree ≠ nil := by
    rintro rfl
    cases ha
  obtain ⟨left, root, right, hsplay, hlist, hparted⟩ := splay_parted hne hsplits
  rw [hlist] at ha
  rcases List.mem_append.mp ha with ha | ha
  · cases heq.symm.trans (hparted.left a ha)
  · rcases mem_cons.mp ha with rfl | ha
    · exact ⟨left, right, hsplay, hlist, hparted⟩
    · cases heq.symm.trans (hparted.right a ha)

/-! ## The operations -/

variable {cmp : α → α → Ordering} {tree : Tree α} {elm : α}

theorem toList_find (cmp : α → α → Ordering) (tree : Tree α) (elm : α) :
    (find cmp tree elm).2.toList = tree.toList := by
  rw [← toList_splay (cmp elm) tree, find]
  split
  · next heq => rw [heq]
  · next heq =>
      rw [heq]
      split_ifs <;> rfl

theorem find_some {found : α} (h : (find cmp tree elm).1 = some found) :
    found ∈ tree.toList ∧ cmp elm found = .eq := by
  rw [← toList_splay (cmp elm) tree]
  unfold find at h
  split at h
  · cases h
  · next heq =>
      rw [heq]
      split_ifs at h with hroot
      · cases h
        exact ⟨by simp [toList], hroot⟩

theorem find_root {found : α} (h : (find cmp tree elm).1 = some found) :
    ∃ left right, (find cmp tree elm).2 = node left found right := by
  unfold find at h ⊢
  split at h
  · cases h
  · next left root right heq =>
      split_ifs at h with hroot
      cases h
      exact ⟨left, right, by simp [hroot]⟩

theorem find_none (hguides : Guides (cmp elm) tree.toList) (h : (find cmp tree elm).1 = none) :
    ∀ a ∈ tree.toList, cmp elm a ≠ .eq := by
  intro a ha heq
  obtain ⟨left, root, right, hsplay, -, hroot⟩ := splay_hit hguides ha heq
  rw [find, hsplay] at h
  simp [hroot] at h

section Root

variable {left right : Tree α} {root : α} (hroot : cmp elm root = .eq)
include hroot

theorem splay_root : splay (cmp elm) (node left root right) = node left root right := by
  unfold splay splayLoop
  simp [hroot, assemble, hangRight, hangLeft]

theorem find_hit : find cmp (node left root right) elm = (some root, node left root right) := by
  simp [find, splay_root hroot, hroot]

theorem insert_hit : insert cmp (node left root right) elm = (some root, node left root right) := by
  simp [insert, splay_root hroot, hroot]

/-- Whatever the order, no more than the root and what is in the new tree was in the old. -/
theorem remove_subperm :
    root :: (remove cmp (node left root right) elm).2.toList <+~
      left.toList ++ root :: right.toList := by
  refine Subperm.trans ?_ perm_middle.symm.subperm
  refine (subperm_cons root).mpr ?_
  rw [remove, splay_root hroot]
  cases left with
  | nil => simpa [hroot, toList] using Subperm.refl _
  | node a b c =>
    rw [← toList_splay (cmp elm) (node a b c)]
    simp only [hroot, if_true]
    cases splay (cmp elm) (node a b c) with
    | nil => exact (nil_sublist _).subperm
    | node left root right' =>
      simp only [setRight, toList]
      rw [append_assoc]
      exact ((sublist_append_right _ _).cons_cons _).append_left _ |>.subperm

end Root

theorem insert_subperm (cmp : α → α → Ordering) (tree : Tree α) (elm : α) :
    (insert cmp tree elm).2.toList <+~ elm :: tree.toList := by
  rw [← toList_splay (cmp elm) tree, insert]
  cases splay (cmp elm) tree with
  | nil => exact Subperm.refl _
  | node left root right =>
    cases hroot : cmp elm root with simp only [hroot, toList]
    | lt => exact perm_middle.subperm
    | gt =>
      rw [append_cons left.toList root right.toList]
      exact perm_middle.subperm
    | eq => exact (sublist_cons_self _ _).subperm

section

variable (hsplits : Splits (cmp elm) tree.toList)
include hsplits

theorem insert_spec (hnone : ∀ a ∈ tree.toList, cmp elm a ≠ .eq) :
    ∃ first second left right, tree.toList = first ++ second ∧
      insert cmp tree elm = (none, node left elm right) ∧
      left.toList = first ∧ right.toList = second ∧
      (∀ a ∈ first, cmp elm a = .gt) ∧ ∀ a ∈ second, cmp elm a = .lt := by
  by_cases hne : tree = nil
  · refine ⟨[], [], nil, nil, ?_, ?_, rfl, rfl, by simp, by simp⟩
    · simp [hne, toList]
    · rw [hne]
      rfl
  · obtain ⟨left, root, right, hsplay, hlist, hparted⟩ := splay_parted hne hsplits
    cases hroot : cmp elm root with
    | eq => exact absurd hroot (hnone root (by simp [hlist]))
    | lt =>
      refine ⟨left.toList, root :: right.toList, left, node nil root right, hlist, ?_,
        rfl, by simp [toList], hparted.left, forall_mem_cons.mpr ⟨hroot, hparted.right⟩⟩
      simp [insert, hsplay, hroot]
    | gt =>
      refine ⟨left.toList ++ [root], right.toList, node left root nil, right,
        by simp [hlist], ?_, by simp [toList], rfl,
        forall_mem_append.mpr ⟨hparted.left, forall_mem_singleton.mpr hroot⟩, hparted.right⟩
      simp [insert, hsplay, hroot]

omit hsplits in
theorem splay_last (hne : tree ≠ nil) (hall : ∀ a ∈ tree.toList, comp a = .gt) :
    ∃ left root, splay comp tree = node left root nil := by
  have hsplits : Splits comp tree.toList := by
    apply List.Pairwise.imp_of_mem (R := fun _ _ => True)
    · intro a b ha _ _ hgt
      exact absurd (hall a ha) hgt
    · exact pairwise_of_forall fun _ _ => trivial
  obtain ⟨left, root, right, hsplay, hlist, hparted⟩ := splay_parted hne hsplits
  have hright : right = nil := by
    rw [← toList_eq_nil, eq_nil_iff_forall_not_mem]
    intro a ha
    have hgt := hall a (by simp [hlist, ha])
    rw [hparted.right a ha] at hgt
    cases hgt
  exact ⟨left, root, by rw [hsplay, hright]⟩

theorem remove_spec {root : α} (hin : root ∈ tree.toList) (hroot : cmp elm root = .eq) :
    ∃ first second, tree.toList = first ++ root :: second ∧
      (∀ a ∈ first ++ second, cmp elm a ≠ .eq) ∧
      (remove cmp tree elm).1 = some elm ∧ (remove cmp tree elm).2.toList = first ++ second := by
  obtain ⟨left, right, hsplay, hlist, hparted⟩ := splay_found hsplits hin hroot
  refine ⟨left.toList, right.toList, hlist, ?_, ?_, ?_⟩
  · rw [forall_mem_append]
    simp +contextual [hparted.left, hparted.right]
  · rw [remove, hsplay]
    cases left <;> simp [hroot]
  · rw [remove, hsplay]
    cases left with
    | nil => simp [hroot, toList]
    | node b c d =>
      obtain ⟨left', root', hlast⟩ := splay_last (by simp) hparted.left
      have helms := toList_splay (cmp elm) (node b c d)
      rw [hlast] at helms
      simp only [hroot, hlast, setRight]
      rw [← helms]
      simp [toList]

end

/-! ## Ordered trees -/

def Ordered (cmp : α → α → Ordering) (tree : Tree α) : Prop :=
  tree.toList.Pairwise fun a b => cmp a b = .lt

section

variable (h : tree.Ordered cmp)
include h

theorem Ordered.insert [Std.OrientedCmp cmp] (hsplits : Splits (cmp elm) tree.toList)
    (hnone : ∀ a ∈ tree.toList, cmp elm a ≠ .eq) :
    (insert cmp tree elm).2.Ordered cmp ∧
      (∀ a, a ∈ (insert cmp tree elm).2.toList ↔ a = elm ∨ a ∈ tree.toList) ∧
      ∃ left right, insert cmp tree elm = (none, node left elm right) ∧
        tree.toList = left.toList ++ right.toList := by
  obtain ⟨first, second, left, right, hlist, hins, rfl, rfl, hfirst, hsecond⟩ :=
    insert_spec hsplits hnone
  rw [Ordered, hlist, pairwise_append] at h
  refine ⟨?_, fun a => ?_, left, right, hins, hlist⟩
  · rw [hins, Ordered, toList, pairwise_append, pairwise_cons]
    refine ⟨h.1, ⟨hsecond, h.2.1⟩, fun a ha => ?_⟩
    exact forall_mem_cons.mpr ⟨Std.OrientedCmp.lt_of_gt (hfirst a ha), h.2.2 a ha⟩
  · rw [hins, hlist, toList, perm_middle.mem_iff, mem_cons]

/-- A member is found where it is, even if `cmp` is not transitive. -/
theorem Ordered.splits_mem [Std.OrientedCmp cmp] (helm : elm ∈ tree.toList) :
    Splits (cmp elm) tree.toList := by
  obtain ⟨first, second, hlist⟩ := append_of_mem helm
  rw [Ordered, hlist, pairwise_append, pairwise_cons] at h
  obtain ⟨hfirst, ⟨helm, hsecond⟩, hcross⟩ := h
  rw [hlist, Splits, pairwise_append, pairwise_cons]
  have habove : ∀ a ∈ first, cmp elm a = .gt := fun a ha =>
    Std.OrientedCmp.gt_of_lt (hcross a ha elm (by simp))
  refine ⟨hfirst.imp_of_mem fun ha _ _ hne => absurd (habove _ ha) hne,
    ⟨fun a ha _ => helm a ha, hsecond.imp_of_mem fun _ hb _ _ => helm _ hb⟩,
    fun a ha _ _ hne => absurd (habove a ha) hne⟩

variable [Std.TransCmp cmp]

theorem Ordered.splits (elm : α) : Splits (cmp elm) tree.toList := by
  apply List.Pairwise.imp _ h
  intro a b hab hne
  exact Std.TransCmp.lt_of_isLE_of_lt (Ordering.isLE_iff_ne_gt.mpr hne) hab

theorem Ordered.remove {root : α} (hin : root ∈ tree.toList) (hroot : cmp elm root = .eq) :
    (remove cmp tree elm).1 = some elm ∧ (remove cmp tree elm).2.Ordered cmp ∧
      ∀ a, a ∈ (remove cmp tree elm).2.toList ↔ a ∈ tree.toList ∧ cmp elm a ≠ .eq := by
  obtain ⟨first, second, hlist, hother, hout, hrest⟩ := remove_spec (h.splits elm) hin hroot
  rw [Ordered, hlist] at h
  refine ⟨hout, ?_, fun a => ?_⟩
  · rw [Ordered, hrest]
    exact h.sublist ((sublist_cons_self _ _).append_left first)
  · rw [hrest, hlist, perm_middle.mem_iff, mem_cons]
    constructor
    · exact fun ha => ⟨.inr ha, hother a ha⟩
    · rintro ⟨ha, hne⟩
      refine ha.resolve_left ?_
      rintro rfl
      exact hne hroot

end

/-! ## Trees in a linear order -/

def Increasing {β : Type u} [LinearOrder β] (tree : Tree β) : Prop :=
  tree.toList.Pairwise (· < ·)

section Increasing

variable {β : Type u} [LinearOrder β] {tree : Tree β}

theorem increasing_iff : tree.Increasing ↔ tree.Ordered compare := by
  simp [Increasing, Ordered, compare_lt_iff_lt]

variable (h : tree.Increasing) {elm : β}
include h

theorem Increasing.find (helm : elm ∈ tree.toList) : (find compare tree elm).1 = some elm := by
  cases hfound : (Tree.find compare tree elm).1 with
  | none =>
    have hnone := find_none ((increasing_iff.mp h).splits elm).guides hfound
    exact absurd (compare_eq_iff_eq.mpr rfl) (hnone elm helm)
  | some found => rw [compare_eq_iff_eq.mp (find_some hfound).2]

theorem Increasing.insert (helm : elm ∉ tree.toList) :
    (insert compare tree elm).2.Increasing ∧
      ∀ a, a ∈ (insert compare tree elm).2.toList ↔ a = elm ∨ a ∈ tree.toList := by
  rw [increasing_iff] at h ⊢
  obtain ⟨hordered, hmem, -⟩ := h.insert (h.splits elm) fun a ha heq => helm (by
    rwa [compare_eq_iff_eq.mp heq])
  exact ⟨hordered, hmem⟩

theorem Increasing.remove (helm : elm ∈ tree.toList) :
    (remove compare tree elm).2.Increasing ∧
      ∀ a, a ∈ (remove compare tree elm).2.toList ↔ a ∈ tree.toList ∧ a ≠ elm := by
  rw [increasing_iff] at h ⊢
  obtain ⟨-, hordered, hmem⟩ := h.remove helm (compare_eq_iff_eq.mpr rfl)
  refine ⟨hordered, fun a => ?_⟩
  rw [hmem, ne_eq, compare_eq_iff_eq, eq_comm]

end Increasing

end Tree

end AerieKernel.Splay
