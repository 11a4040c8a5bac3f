import Mathlib.Data.List.Nodup
import Mathlib.Logic.Function.Basic
import Mathlib.Tactic

/-!
# A family of queues

Circular queues with one head each share their elements: an element is linked
into one queue at a time, and can be taken off without knowing which.
-/

namespace AerieKernel.Queues

open Function

variable {κ ι : Type*}

structure Separate (queues : κ → List ι) : Prop where
  nodup : ∀ head, (queues head).Nodup
  unique : ∀ {head head' elem}, elem ∈ queues head → elem ∈ queues head' → head = head'

def Linked (queues : κ → List ι) (elem : ι) : Prop :=
  ∃ head, elem ∈ queues head

section Remove

variable [DecidableEq ι] {queues : κ → List ι} {elem x : ι} {head : κ}

def remove (queues : κ → List ι) (elem : ι) : κ → List ι :=
  fun head => (queues head).erase elem

theorem Separate.mem_remove (hseparate : Separate queues) :
    x ∈ remove queues elem head ↔ x ∈ queues head ∧ x ≠ elem := by
  rw [remove, (hseparate.nodup head).mem_erase_iff, and_comm]

theorem Separate.remove (hseparate : Separate queues) (elem : ι) :
    Separate (Queues.remove queues elem) := by
  constructor
  · exact fun head => (hseparate.nodup head).erase elem
  · intro fst snd x hfst hsnd
    exact hseparate.unique (hseparate.mem_remove.mp hfst).1 (hseparate.mem_remove.mp hsnd).1

theorem Separate.linked_remove (hseparate : Separate queues) :
    Linked (Queues.remove queues elem) x ↔ Linked queues x ∧ x ≠ elem := by
  constructor
  · rintro ⟨head, hmem⟩
    obtain ⟨hold, hne⟩ := hseparate.mem_remove.mp hmem
    exact ⟨⟨head, hold⟩, hne⟩
  · rintro ⟨⟨head, hmem⟩, hne⟩
    exact ⟨head, hseparate.mem_remove.mpr ⟨hmem, hne⟩⟩

end Remove

section Insert

variable [DecidableEq κ] {queues : κ → List ι} {elem x : ι}
  {head fst snd : κ}

def insert (queues : κ → List ι) (elem : ι) (head : κ) : κ → List ι :=
  Function.update queues head (queues head ++ [elem])

theorem mem_insert : x ∈ insert queues elem head fst ↔ x ∈ queues fst ∨ fst = head ∧ x = elem := by
  unfold insert
  by_cases hhead : fst = head
  · subst hhead
    simp
  · simp [hhead]

theorem linked_insert : Linked (insert queues elem head) x ↔ Linked queues x ∨ x = elem := by
  constructor
  · rintro ⟨fst, hmem⟩
    rcases mem_insert.mp hmem with hold | ⟨_, hnew⟩
    · exact .inl ⟨fst, hold⟩
    · exact .inr hnew
  · rintro (⟨fst, hmem⟩ | rfl)
    · exact ⟨fst, mem_insert.mpr (.inl hmem)⟩
    · exact ⟨head, mem_insert.mpr (.inr ⟨rfl, rfl⟩)⟩

theorem Separate.insert (hseparate : Separate queues) (hfree : ¬ Linked queues elem) (head : κ) :
    Separate (Queues.insert queues elem head) := by
  constructor
  · intro fst
    unfold Queues.insert
    by_cases hhead : fst = head
    · subst hhead
      rw [update_self, List.nodup_append]
      refine ⟨hseparate.nodup fst, List.nodup_singleton elem, ?_⟩
      intro x hx y hy heq
      apply hfree
      rw [← List.mem_singleton.mp hy, ← heq]
      exact ⟨fst, hx⟩
    · rw [update_of_ne hhead]
      exact hseparate.nodup fst
  · intro fst snd x hfst hsnd
    rcases mem_insert.mp hfst with hold | ⟨rfl, rfl⟩
    · rcases mem_insert.mp hsnd with hold' | ⟨_, rfl⟩
      · exact hseparate.unique hold hold'
      · exact absurd ⟨fst, hold⟩ hfree
    · rcases mem_insert.mp hsnd with hold' | ⟨heq, _⟩
      · exact absurd ⟨snd, hold'⟩ hfree
      · exact heq.symm

def append (queues : κ → List ι) (fst snd : κ) : κ → List ι :=
  Function.update (Function.update queues fst (queues fst ++ queues snd)) snd []

theorem mem_append (hne : fst ≠ snd) :
    x ∈ append queues fst snd head ↔
      (head ≠ snd ∧ x ∈ queues head) ∨ (head = fst ∧ x ∈ queues snd) := by
  unfold append
  by_cases hsnd : head = snd
  · subst hsnd
    simp [hne.symm]
  · by_cases hfst : head = fst
    · subst hfst
      simp [hsnd]
    · simp [hfst, hsnd]

theorem Separate.append (hseparate : Separate queues) (hne : fst ≠ snd) :
    Separate (Queues.append queues fst snd) := by
  constructor
  · intro head
    unfold Queues.append
    by_cases hsnd : head = snd
    · rw [hsnd, update_self]
      exact List.nodup_nil
    · rw [update_of_ne hsnd]
      by_cases hfst : head = fst
      · rw [hfst, update_self, List.nodup_append]
        refine ⟨hseparate.nodup fst, hseparate.nodup snd, ?_⟩
        rintro x hx y hy rfl
        exact hne (hseparate.unique hx hy)
      · rw [update_of_ne hfst]
        exact hseparate.nodup head
  · intro head head' x hhead hhead'
    rcases (mem_append hne).mp hhead with ⟨hsnd, hmem⟩ | ⟨heq, hmem⟩
    · rcases (mem_append hne).mp hhead' with ⟨_, hmem'⟩ | ⟨_, hmem'⟩
      · exact hseparate.unique hmem hmem'
      · exact absurd (hseparate.unique hmem hmem') hsnd
    · rcases (mem_append hne).mp hhead' with ⟨hsnd', hmem'⟩ | ⟨heq', _⟩
      · exact absurd (hseparate.unique hmem' hmem) hsnd'
      · rw [heq, heq']

theorem linked_append (hne : fst ≠ snd) : Linked (append queues fst snd) x ↔ Linked queues x := by
  constructor
  · rintro ⟨head, hmem⟩
    rcases (mem_append hne).mp hmem with ⟨_, hmem⟩ | ⟨_, hmem⟩
    · exact ⟨head, hmem⟩
    · exact ⟨snd, hmem⟩
  · rintro ⟨head, hmem⟩
    by_cases hsnd : head = snd
    · exact ⟨fst, (mem_append hne).mpr (.inr ⟨rfl, hsnd ▸ hmem⟩)⟩
    · exact ⟨head, (mem_append hne).mpr (.inl ⟨hsnd, hmem⟩)⟩

end Insert

/-! ## Queues by a key -/

structure Indexed (queues : κ → List ι) (key : ι → Option κ) : Prop where
  nodup : ∀ head, (queues head).Nodup
  mem : ∀ {head elem}, elem ∈ queues head ↔ key elem = some head

section Indexed

variable [DecidableEq ι] {queues : κ → List ι} {key : ι → Option κ} {elem : ι}

theorem Indexed.remove (h : Indexed queues key) (elem : ι) :
    Indexed (Queues.remove queues elem) (update key elem none) := by
  constructor
  · exact fun head => (h.nodup head).erase elem
  · intro head x
    rw [Queues.remove, (h.nodup head).mem_erase_iff, h.mem]
    by_cases hx : x = elem
    · simp [hx]
    · simp [hx]

theorem Indexed.put [DecidableEq κ] (h : Indexed queues key) (hfree : key elem = none) {head : κ}
    {queue : List ι} (hqueue : queue.Perm (elem :: queues head)) :
    Indexed (update queues head queue) (update key elem (some head)) := by
  have hnew : ∀ head, elem ∉ queues head := by
    intro head hmem
    rw [h.mem, hfree] at hmem
    cases hmem
  constructor
  · intro fst
    by_cases hhead : fst = head
    · rw [hhead, update_self, hqueue.nodup_iff]
      exact (h.nodup head).cons (hnew head)
    · rw [update_of_ne hhead]
      exact h.nodup fst
  · intro fst x
    by_cases hhead : fst = head
    · subst hhead
      rw [update_self, hqueue.mem_iff, List.mem_cons, h.mem]
      by_cases hx : x = elem
      · simp [hx]
      · simp [hx]
    · rw [update_of_ne hhead, h.mem]
      by_cases hx : x = elem
      · simp [hx, hfree, Ne.symm hhead]
      · simp [hx]

end Indexed

end AerieKernel.Queues
