import AerieKernel.GuardedRuns
import AerieKernel.SplayTrees

/-!
# Sequences of calls on a splay tree

An element is known by its address, and `cmp` compares keys: a key element need not be in the
tree.
-/

namespace AerieKernel.Splay

open List

universe u

variable {α : Type u} (cmp : α → α → Ordering)

namespace Tree

/-- The loop of `SPLAY_NEXT`. -/
def leftmost : Tree α → Option α
  | nil => none
  | node nil elm _ => some elm
  | node (node a b c) _ _ => leftmost (node a b c)

/-- `SPLAY_NEXT` for an element of the tree, which becomes the root. -/
def next (tree : Tree α) (elm : α) : Option α × Tree α :=
  match splay (cmp elm) tree with
  | nil => (none, nil)
  | node left root right => (leftmost right, node left root right)

/-- `SPLAY_MIN` with `.lt` and `SPLAY_MAX` with `.gt`; the loop of `SPLAY_MINMAX` is the one of
`SPLAY` with all comparisons alike. -/
def minmax (val : Ordering) (tree : Tree α) : Option α × Tree α :=
  match splay (fun _ => val) tree with
  | nil => (none, nil)
  | node left root right => (some root, node left root right)

/-- The elements that `SPLAY_FOREACH` visits from `elm` on, at most `count` of them. -/
def foreachFrom : ℕ → Tree α → Option α → List α
  | 0, _, _ | _ + 1, _, none => []
  | count + 1, tree, some elm =>
    elm :: foreachFrom count (tree.next cmp elm).2 (tree.next cmp elm).1

def foreach (count : ℕ) (tree : Tree α) : List α :=
  foreachFrom cmp count (tree.minmax .lt).2 (tree.minmax .lt).1

end Tree

inductive Call (α : Type u) where
  | insert (elm : α)
  | remove (elm : α)
  | find (elm : α)
  | min
  | max
  | next (elm : α)

/-- What a call returns and the tree after it; `SPLAY_NEXT` is for elements of the tree. -/
def Call.apply [DecidableEq α] (tree : Tree α) : Call α → Option (Option α × Tree α)
  | .insert elm => some (tree.insert cmp elm)
  | .remove elm => some (tree.remove cmp elm)
  | .find elm => some (tree.find cmp elm)
  | .min => some (tree.minmax .lt)
  | .max => some (tree.minmax .gt)
  | .next elm => if elm ∈ tree.toList then some (tree.next cmp elm) else none

/-! ## The set -/

def Equal (members : Set α) (elm : α) : Option α → Prop
  | some m => m ∈ members ∧ cmp elm m = .eq
  | none => ∀ m ∈ members, cmp elm m ≠ .eq

def First (members : Set α) : Option α → Prop
  | some m => m ∈ members ∧ ∀ a ∈ members, a = m ∨ cmp m a = .lt
  | none => members = ∅

def Call.Returns (members : Set α) : Call α → Option α → Prop
  | .insert elm | .remove elm | .find elm => Equal cmp members elm
  | .min => First cmp members
  | .max => First (fun a b => cmp b a) members
  | .next elm => First cmp {a ∈ members | cmp elm a = .lt}

def Call.after (members : Set α) : Call α → Set α
  | .insert elm => members ∪ {a | a = elm ∧ Equal cmp members elm none}
  | .remove elm => {a ∈ members | cmp elm a ≠ .eq}
  | _ => members

def Tree.members (tree : Tree α) : Set α := {a | a ∈ tree.toList}

/-- A key that is removed is the member itself, if there is a member that is equal to it. -/
def RemovesMember (tree : Tree α) : Call α → Prop
  | .remove elm => ∀ a ∈ tree.toList, cmp elm a = .eq → a = elm
  | _ => True

section

variable {cmp} {tree : Tree α} {elm : α}

theorem Tree.leftmost_eq (tree : Tree α) : tree.leftmost = tree.toList.head? := by
  fun_induction leftmost tree with
  | case1 => rfl
  | case2 => rfl
  | case3 root right a b c ih =>
    rw [ih]
    simp [Tree.toList]

theorem first_head {elms : List α} (h : elms.Pairwise fun a b => cmp a b = .lt) :
    First cmp {a | a ∈ elms} elms.head? := by
  cases elms with
  | nil => simp [First]
  | cons a rest =>
    obtain ⟨ha, -⟩ := pairwise_cons.mp h
    exact ⟨by simp, fun b hb => (mem_cons.mp hb).imp_right (ha b)⟩

theorem Tree.minmax_spec (tree : Tree α) (val : Ordering) (hval : val ≠ .eq) :
    (tree.minmax val).2.toList = tree.toList ∧
      (val = .lt → (tree.minmax val).1 = tree.toList.head?) ∧
      (val = .gt → (tree.minmax val).1 = tree.toList.getLast?) := by
  by_cases hne : tree = nil
  · subst hne
    exact ⟨rfl, fun _ => rfl, fun _ => rfl⟩
  have hsplits : Splits (fun _ => val) tree.toList :=
    pairwise_of_forall fun _ _ hgt => by cases val <;> simp_all
  obtain ⟨left, root, right, hsplay, hlist, hleft, hright⟩ := splay_parted hne hsplits
  rw [minmax, hsplay, hlist]
  refine ⟨rfl, ?_, ?_⟩
  · rintro rfl
    have hnil : left.toList = [] := eq_nil_iff_forall_not_mem.mpr fun a ha => nomatch hleft a ha
    simp [hnil]
  · rintro rfl
    have hnil : right.toList = [] := eq_nil_iff_forall_not_mem.mpr fun a ha => nomatch hright a ha
    simp [hnil]

variable [Std.TransCmp cmp]

section

variable (h : tree.Ordered cmp)
include h

namespace Tree.Ordered

theorem next {first second : List α} (hsplit : tree.toList = first ++ elm :: second) :
    (tree.next cmp elm).2.toList = tree.toList ∧ (tree.next cmp elm).1 = second.head? := by
  have hself : cmp elm elm = .eq := Std.ReflCmp.compare_self
  obtain ⟨left, right, hsplay, hlist, hleft, hright⟩ :=
    splay_found (h.splits elm) (by simp [hsplit]) hself
  have hnotl : elm ∉ left.toList := fun hin => nomatch hself.symm.trans (hleft elm hin)
  have hnotr : elm ∉ right.toList := fun hin => nomatch hself.symm.trans (hright elm hin)
  rw [hlist, append_cons_inj_of_notMem hnotl hnotr] at hsplit
  rw [Tree.next, hsplay, ← hsplit.2.2]
  exact ⟨hlist.symm, right.leftmost_eq⟩

theorem first_behind {first second : List α} (hsplit : tree.toList = first ++ elm :: second) :
    First cmp {a ∈ tree.members | cmp elm a = .lt} second.head? := by
  rw [Ordered, hsplit, pairwise_append, pairwise_cons] at h
  obtain ⟨-, ⟨hsecond, hordered⟩, hcross⟩ := h
  have hmem : {a ∈ tree.members | cmp elm a = .lt} = {a | a ∈ second} := by
    ext a
    simp only [members, hsplit, List.mem_append, mem_cons]
    constructor
    · rintro ⟨ha | rfl | ha, hlt⟩
      · exact absurd hlt (Std.OrientedCmp.not_lt_of_lt (hcross a ha elm (by simp)))
      · cases hlt.symm.trans Std.ReflCmp.compare_self
      · exact ha
    · intro ha
      exact ⟨.inr (.inr ha), hsecond a ha⟩
  rw [hmem]
  exact first_head hordered

theorem foreachFrom {count : ℕ} {first second : List α} (hsplit : tree.toList = first ++ second)
    (hcount : second.length ≤ count) : Tree.foreachFrom cmp count tree second.head? = second := by
  induction second generalizing tree count first with
  | nil => cases count <;> rfl
  | cons elm second ih =>
    obtain ⟨count, rfl⟩ := Nat.exists_eq_add_of_le' (Nat.le_trans (Nat.le_add_left 1 _) hcount)
    obtain ⟨hlist, hnext⟩ := h.next hsplit
    rw [head?_cons, Tree.foreachFrom, hnext]
    have hsplit' : (tree.next cmp elm).2.toList = (first ++ [elm]) ++ second := by
      rw [hlist, hsplit, append_cons]
    exact congrArg (elm :: ·) (ih (by rwa [Ordered, hlist]) hsplit' (Nat.le_of_succ_le_succ hcount))

/-- The equal member that `SPLAY` brings to the root, or none. -/
theorem equal (elm : α) : ∃ found, Equal cmp tree.members elm found ∧
    (tree.find cmp elm).1 = found ∧ (found.isSome → tree.insert cmp elm = tree.find cmp elm) ∧
    (found = none → tree.remove cmp elm = tree.find cmp elm) := by
  by_cases hequal : ∃ a ∈ tree.toList, cmp elm a = .eq
  · obtain ⟨a, ha, heq⟩ := hequal
    obtain ⟨left, right, hsplay, -⟩ := splay_found (h.splits elm) ha heq
    exact ⟨some a, ⟨ha, heq⟩, by simp [Tree.find, Tree.insert, hsplay, heq]⟩
  · have hnone : ∀ a ∈ tree.toList, cmp elm a ≠ .eq := by simpa using hequal
    refine ⟨none, hnone, ?_⟩
    cases hsplay : splay (cmp elm) tree with
    | nil => simp [Tree.find, Tree.remove, hsplay]
    | node left root right =>
      have hroot := hnone root (by rw [← toList_splay (cmp elm) tree, hsplay]; simp [toList])
      simp [Tree.find, Tree.remove, hsplay, hroot]

theorem call [DecidableEq α] {call : Call α} {out : Option α × Tree α}
    (hout : call.apply cmp tree = some out) :
    out.2.Ordered cmp ∧ out.2.members = call.after cmp tree.members ∧
      (RemovesMember cmp tree call → call.Returns cmp tree.members out.1) := by
  have hsame {tree' : Tree α} (hlist : tree'.toList = tree.toList) :
      tree'.Ordered cmp ∧ tree'.members = tree.members := by
    rw [Ordered, members, hlist]
    exact ⟨h, rfl⟩
  have hfound := fun elm => hsame (toList_find cmp tree elm)
  cases call with
  | insert elm =>
    cases hout
    obtain ⟨found, hequal, hfind, hin, -⟩ := h.equal elm
    cases found with
    | none =>
      obtain ⟨hordered, hmem, left, right, hins, -⟩ := h.insert (h.splits elm) hequal
      refine ⟨hordered, Set.ext fun a => (hmem a).trans (or_comm.trans ?_), fun _ => by rwa [hins]⟩
      exact or_congr_right (and_iff_left hequal).symm
    | some a =>
      have hnone : ¬ Equal cmp tree.members elm none := fun hnone => hnone a hequal.1 hequal.2
      rw [hin rfl]
      exact ⟨(hfound elm).1, by simp [Call.after, hnone, hfound], fun _ => hfind ▸ hequal⟩
  | remove elm =>
    cases hout
    obtain ⟨found, hequal, hfind, -, hout⟩ := h.equal elm
    cases found with
    | none =>
      rw [hout rfl]
      refine ⟨(hfound elm).1, ?_, fun _ => hfind ▸ hequal⟩
      ext a
      simpa [Call.after, hfound] using hequal a
    | some a =>
      obtain ⟨hsome, hordered, hmem⟩ := h.remove hequal.1 hequal.2
      refine ⟨hordered, Set.ext hmem, fun hkey => ?_⟩
      obtain rfl := hkey a hequal.1 hequal.2
      exact hsome ▸ hequal
  | find elm =>
    cases hout
    obtain ⟨found, hequal, hfind, -⟩ := h.equal elm
    exact ⟨(hfound elm).1, (hfound elm).2, fun _ => hfind ▸ hequal⟩
  | min =>
    cases hout
    obtain ⟨hlist, hmin, -⟩ := tree.minmax_spec .lt (by decide)
    exact ⟨(hsame hlist).1, (hsame hlist).2, fun _ => hmin rfl ▸ first_head h⟩
  | max =>
    cases hout
    obtain ⟨hlist, -, hmax⟩ := tree.minmax_spec .gt (by decide)
    refine ⟨(hsame hlist).1, (hsame hlist).2, fun _ => ?_⟩
    simpa [Call.Returns, hmax rfl, members] using first_head (pairwise_reverse.mpr h)
  | next elm =>
    simp only [Call.apply] at hout
    split_ifs at hout with helm
    cases hout
    obtain ⟨first, second, hsplit⟩ := append_of_mem helm
    obtain ⟨hlist, hnext⟩ := h.next hsplit
    exact ⟨(hsame hlist).1, (hsame hlist).2, fun _ => hnext ▸ h.first_behind hsplit⟩

end Tree.Ordered

end

end

variable [DecidableEq α]

def splayStep (tree : Tree α) (call : Call α) : Option (Tree α) :=
  (call.apply cmp tree).map Prod.snd

/-- In every run the tree is ordered, a call makes of the members what it makes of the set and
returns what it returns there, unless it removes a member by another element that is equal to it,
and a walk visits all members in order. -/
theorem splay_tree_is_set [Std.TransCmp cmp] {tree : Tree α}
    (hrun : Run.Reaches (splayStep cmp) .nil tree) :
    tree.Ordered cmp ∧
      (∀ call out, call.apply cmp tree = some out → out.2.members = call.after cmp tree.members ∧
        (RemovesMember cmp tree call → call.Returns cmp tree.members out.1)) ∧
      ∀ count, tree.toList.length ≤ count → tree.foreach cmp count = tree.toList := by
  have h : tree.Ordered cmp := by
    apply Run.GuardedRun.invariant (P := Tree.Ordered cmp) (show Tree.Ordered cmp .nil from .nil)
      _ hrun
    intro before call after hbefore _ hstep
    obtain ⟨out, hout, rfl⟩ := Option.map_eq_some_iff.mp hstep
    exact (hbefore.call hout).1
  refine ⟨h, fun call out hout => (h.call hout).2, fun count hcount => ?_⟩
  obtain ⟨hlist, hmin, -⟩ := tree.minmax_spec .lt (by decide)
  have hfirst : (tree.minmax .lt).2.toList = [] ++ tree.toList := hlist
  rw [Tree.foreach, hmin rfl]
  exact Tree.Ordered.foreachFrom (by rwa [Tree.Ordered, hlist]) hfirst hcount

def keyCmp : ℕ × ℕ → ℕ × ℕ → Ordering := compareOn Prod.fst

instance : Std.TransCmp keyCmp := inferInstanceAs (Std.TransCmp (compareOn Prod.fst))

def afterCalls (calls : List (Call (ℕ × ℕ))) : Tree (ℕ × ℕ) :=
  Run.execD (splayStep keyCmp) (fun _ _ => True) .nil calls

theorem splay_tree_is_set_three_calls :
    ∃ tree : Tree (ℕ × ℕ), tree.toList = [(1, 10), (2, 20)] ∧ tree.foreach keyCmp 2 = tree.toList :=
  ⟨afterCalls [.insert (1, 10), .insert (2, 20), .find (1, 30)], by decide,
    (splay_tree_is_set keyCmp (Run.GuardedRun.of_execD (by decide))).2.2 2 (by decide)⟩

/-- `SPLAY_REMOVE` returns the key element that it was given and not the member. -/
theorem remove_returns_key :
    ∃ tree out, Run.Reaches (splayStep keyCmp) .nil tree ∧
      (Call.remove (1, 30)).apply keyCmp tree = some out ∧ tree.toList = [(1, 10)] ∧
      out.1 = some (1, 30) ∧ ¬ (Call.remove (1, 30)).Returns keyCmp tree.members out.1 := by
  refine ⟨afterCalls [.insert (1, 10)], _, Run.GuardedRun.of_execD (by decide), rfl, by decide,
    by decide, fun hreturns => ?_⟩
  exact absurd (show (1, 30) ∈ [(1, 10)] from hreturns.1) (by decide)

end AerieKernel.Splay
