import Mathlib.Data.List.Chain
import Mathlib.Data.List.Pairwise
import Mathlib.Logic.Relation

/-!
# Relations without cycles

A relation that gains one edge gains a cycle only if there was a path from
the head of the edge to its tail.  A path gives a list of the elements on it,
which are distinct if there is no cycle.
-/

namespace AerieKernel.Relations

open Relation

variable {α : Type*} {r r' : α → α → Prop} {a b : α}

def Acyclic (r : α → α → Prop) : Prop := ∀ a, ¬ TransGen r a a

theorem Acyclic.mono (hacyclic : Acyclic r) (hless : ∀ x y, r' x y → r x y) : Acyclic r' :=
  fun a hcycle => hacyclic a (TransGen.mono hless a a hcycle)

theorem transGen_of_insert (hnew : ∀ x y, r' x y → r x y ∨ x = a ∧ y = b) {x y : α}
    (hpath : TransGen r' x y) : TransGen r x y ∨ ReflTransGen r x a ∧ ReflTransGen r b y := by
  induction hpath with
  | single hedge =>
    rcases hnew _ _ hedge with hold | ⟨rfl, rfl⟩
    · exact .inl (TransGen.single hold)
    · exact .inr ⟨ReflTransGen.refl, ReflTransGen.refl⟩
  | tail _ hedge ih =>
    rcases hnew _ _ hedge with hold | ⟨rfl, rfl⟩
    · rcases ih with hpath | ⟨hbefore, hafter⟩
      · exact .inl (hpath.tail hold)
      · exact .inr ⟨hbefore, hafter.tail hold⟩
    · rcases ih with hpath | ⟨hbefore, _⟩
      · exact .inr ⟨hpath.to_reflTransGen, ReflTransGen.refl⟩
      · exact .inr ⟨hbefore, ReflTransGen.refl⟩

theorem Acyclic.insert (hacyclic : Acyclic r) (hnew : ∀ x y, r' x y → r x y ∨ x = a ∧ y = b)
    (hpath : ¬ ReflTransGen r b a) : Acyclic r' := by
  intro x hcycle
  rcases transGen_of_insert hnew hcycle with hold | ⟨hbefore, hafter⟩
  · exact hacyclic x hold
  · exact hpath (hafter.trans hbefore)

theorem exists_chain_of_transGen (hpath : TransGen r a b) :
    ∃ l, (a :: l).IsChain r ∧
      r ((a :: l).getLast (List.cons_ne_nil a l)) b ∧
      ∀ x ∈ a :: l, ∃ y, r x y := by
  induction hpath using TransGen.head_induction_on with
  | single hedge =>
    refine ⟨[], List.IsChain.singleton _, hedge, ?_⟩
    exact List.forall_mem_singleton.mpr ⟨b, hedge⟩
  | head hedge _ ih =>
    obtain ⟨l, hchain, hlast, hnext⟩ := ih
    refine ⟨_ :: l, List.IsChain.cons_cons hedge hchain, by rwa [List.getLast_cons_cons], ?_⟩
    exact List.forall_mem_cons.mpr ⟨⟨_, hedge⟩, hnext⟩

theorem Acyclic.nodup (hacyclic : Acyclic r) {l : List α} (hchain : l.IsChain r) : l.Nodup := by
  have hclosed : l.IsChain (TransGen r) := hchain.imp fun _ _ => TransGen.single
  apply (List.isChain_iff_pairwise.mp hclosed).imp
  rintro x y hpath rfl
  exact hacyclic x hpath

end AerieKernel.Relations
