import Mathlib.Data.List.TakeWhile
import Mathlib.Tactic

/-!
# Pieces of a stream

A stream of elements arrives in pieces that may overlap.  A queue keeps disjoint pieces in
their order: a new piece loses what the piece before it has already, and pieces behind it
lose what it brings.  The lemmas say what the queue holds after that.
-/

namespace AerieKernel.Pieces

open List

structure Piece (α τ : Type*) where
  start : ℕ
  data : List α
  tag : τ

variable {α τ : Type*} {p q new : Piece α τ} {ps before after : List (Piece α τ)} {n i : ℕ}

namespace Piece

def stop (p : Piece α τ) : ℕ := p.start + p.data.length

def Carries (p : Piece α τ) (i : ℕ) (a : α) : Prop :=
  p.start ≤ i ∧ p.data[i - p.start]? = some a

def behind (p : Piece α τ) (n : ℕ) : Piece α τ :=
  { p with start := max p.start n, data := p.data.drop (n - p.start) }

end Piece

theorem start_le_stop (p : Piece α τ) : p.start ≤ p.stop := Nat.le_add_right _ _

theorem behind_start (p : Piece α τ) (n : ℕ) : (p.behind n).start = max p.start n := rfl

theorem behind_stop (h : n ≤ p.stop) : (p.behind n).stop = p.stop := by
  unfold Piece.stop at *
  show max p.start n + (p.data.drop (n - p.start)).length = _
  rw [length_drop]
  omega

theorem Piece.Carries.of_behind {a : α} (h : (p.behind n).Carries i a) : p.Carries i a := by
  obtain ⟨hle, hget⟩ := h
  rw [behind_start] at hle hget
  refine ⟨by omega, ?_⟩
  have hdrop : (p.data.drop (n - p.start))[i - max p.start n]? = some a := hget
  rwa [getElem?_drop, show n - p.start + (i - max p.start n) = i - p.start by omega]
    at hdrop

def Part (p q : Piece α τ) : Prop := ∃ n ≤ q.stop, p = q.behind n

theorem Part.refl (p : Piece α τ) : Part p p :=
  ⟨p.start, start_le_stop p, by simp [Piece.behind]⟩

theorem Part.stop_eq (h : Part p q) : p.stop = q.stop := by
  obtain ⟨n, hn, rfl⟩ := h
  exact behind_stop hn

theorem Part.start_le (h : Part p q) : q.start ≤ p.start := by
  obtain ⟨n, -, rfl⟩ := h
  exact le_max_left _ _

theorem Part.tag_eq (h : Part p q) : p.tag = q.tag := by
  obtain ⟨n, -, rfl⟩ := h
  rfl

theorem Part.carries {a : α} (h : Part p q) (hp : p.Carries i a) : q.Carries i a := by
  obtain ⟨n, -, rfl⟩ := h
  exact hp.of_behind

theorem behind_behind (p : Piece α τ) (m n : ℕ) : (p.behind m).behind n = p.behind (max m n) := by
  unfold Piece.behind
  dsimp only
  rw [drop_drop]
  congr 1
  · omega
  · congr 1
    omega

theorem Part.trans {r : Piece α τ} (h : Part p q) (h' : Part q r) : Part p r := by
  have hstop := h'.stop_eq
  obtain ⟨n, hn, rfl⟩ := h
  obtain ⟨m, hm, rfl⟩ := h'
  exact ⟨max m n, by omega, behind_behind r m n⟩

/-! ## Queues -/

def Sorted (ps : List (Piece α τ)) : Prop := ps.Pairwise fun p q => p.stop ≤ q.start

def Covered (ps : List (Piece α τ)) (i : ℕ) : Prop :=
  ∃ p ∈ ps, p.start ≤ i ∧ i < p.stop

theorem covered_append : Covered (before ++ after) i ↔ Covered before i ∨ Covered after i := by
  unfold Covered
  simp only [List.mem_append, or_and_right, exists_or]

theorem covered_cons : Covered (p :: ps) i ↔ (p.start ≤ i ∧ i < p.stop) ∨ Covered ps i := by
  unfold Covered
  simp only [exists_mem_cons_iff]

def cut (n : ℕ) : List (Piece α τ) → List (Piece α τ)
  | [] => []
  | p :: ps =>
    if n ≤ p.start then p :: ps
    else if n < p.stop then p.behind n :: ps
    else cut n ps

theorem part_of_mem_cut (hp : p ∈ cut n ps) : ∃ q ∈ ps, Part p q := by
  induction ps with
  | nil => cases hp
  | cons x ps ih =>
    rw [cut] at hp
    split_ifs at hp with hle hlt
    · exact ⟨p, hp, Part.refl p⟩
    · rw [mem_cons] at hp
      rcases hp with rfl | hp
      · exact ⟨x, mem_cons_self, n, hlt.le, rfl⟩
      · exact ⟨p, mem_cons_of_mem _ hp, Part.refl p⟩
    · obtain ⟨q, hq, hpart⟩ := ih hp
      exact ⟨q, mem_cons_of_mem _ hq, hpart⟩

theorem le_start_of_mem_cut (hsorted : Sorted ps) (hp : p ∈ cut n ps) : n ≤ p.start := by
  induction ps with
  | nil => cases hp
  | cons x ps ih =>
    have hrest := pairwise_cons.mp hsorted
    rw [cut] at hp
    split_ifs at hp with hle hlt
    · rw [mem_cons] at hp
      rcases hp with rfl | hp
      · exact hle
      · have hnext := hrest.1 p hp
        have hx := start_le_stop x
        omega
    · rw [mem_cons] at hp
      rcases hp with rfl | hp
      · exact le_max_right _ _
      · have hnext := hrest.1 p hp
        omega
    · exact ih hrest.2 hp

theorem sorted_cut (hsorted : Sorted ps) : Sorted (cut n ps) := by
  induction ps with
  | nil => exact List.Pairwise.nil
  | cons x ps ih =>
    have hrest := pairwise_cons.mp hsorted
    rw [cut]
    split_ifs with hle hlt
    · exact hsorted
    · refine pairwise_cons.mpr ⟨?_, hrest.2⟩
      intro q hq
      rw [behind_stop hlt.le]
      exact hrest.1 q hq
    · exact ih hrest.2

theorem covered_cut (hn : n ≤ i) : Covered (cut n ps) i ↔ Covered ps i := by
  unfold Covered
  induction ps with
  | nil => rfl
  | cons x ps ih =>
    rw [cut]
    split_ifs with hle hlt
    · rfl
    · simp only [exists_mem_cons_iff, behind_start, behind_stop hlt.le]
      have hsame : (max x.start n ≤ i ∧ i < x.stop) ↔ (x.start ≤ i ∧ i < x.stop) := by omega
      rw [hsame]
    · rw [ih]
      simp only [exists_mem_cons_iff]
      constructor
      · exact .inr
      · rintro (⟨-, hstop⟩ | hrest)
        · omega
        · exact hrest

theorem sorted_append : Sorted (before ++ after) ↔
    Sorted before ∧ Sorted after ∧ ∀ p ∈ before, ∀ q ∈ after, p.stop ≤ q.start := pairwise_append

theorem stop_le_last (hsorted : Sorted ps) (hlast : ps.getLast? = some q) (hp : p ∈ ps) :
    p.stop ≤ q.stop := by
  obtain ⟨init, rfl⟩ := getLast?_eq_some_iff.mp hlast
  rw [List.mem_append, mem_singleton] at hp
  rcases hp with hp | rfl
  · have hle := (sorted_append.mp hsorted).2.2 p hp q (mem_singleton_self q)
    exact hle.trans (start_le_stop q)
  · exact le_rfl

/-! ## A new piece -/

def news (previous : Option (Piece α τ)) (new : Piece α τ) : Option (Piece α τ) :=
  match previous with
  | none => some new
  | some p =>
    if new.start < p.stop then
      if new.stop ≤ p.stop then none else some (new.behind p.stop)
    else some new

def arrive (new : Piece α τ) (ps : List (Piece α τ)) : Option (List (Piece α τ)) :=
  let before := ps.takeWhile fun p => p.start ≤ new.start
  let after := ps.dropWhile fun p => p.start ≤ new.start
  (news before.getLast? new).map fun new => before ++ new :: cut new.stop after

variable {new' : Piece α τ} {previous : Option (Piece α τ)}

theorem part_of_news (hnews : news previous new = some new') : Part new' new := by
  unfold news at hnews
  cases previous with
  | none =>
    cases hnews
    exact Part.refl _
  | some p =>
    dsimp only at hnews
    split_ifs at hnews with hlt hle
    · cases hnews
      exact ⟨p.stop, by omega, rfl⟩
    · cases hnews
      exact Part.refl _

theorem start_of_news (hnews : news previous new = some new') :
    new' = new ∨ ∃ p, previous = some p ∧ new.start < p.stop ∧ new'.start = p.stop := by
  unfold news at hnews
  cases previous with
  | none =>
    cases hnews
    exact .inl rfl
  | some p =>
    dsimp only at hnews
    split_ifs at hnews with hlt hle
    · cases hnews
      exact .inr ⟨p, rfl, hlt, by rw [behind_start]; omega⟩
    · cases hnews
      exact .inl rfl

theorem stop_le_news (hsorted : Sorted before)
    (hnews : news before.getLast? new = some new') (hp : p ∈ before) : p.stop ≤ new'.start := by
  cases hlast : before.getLast? with
  | none =>
    rw [getLast?_eq_none_iff] at hlast
    rw [hlast] at hp
    cases hp
  | some q =>
    have hle := stop_le_last hsorted hlast hp
    rw [hlast, news] at hnews
    split_ifs at hnews with hlt hcovered
    · cases hnews
      exact hle.trans (le_max_right _ _)
    · cases hnews
      omega

theorem mem_after (hsorted : Sorted ps)
    (hp : p ∈ ps.dropWhile fun p => decide (p.start ≤ n)) : n < p.start := by
  induction ps with
  | nil => cases hp
  | cons x ps ih =>
    have hrest := pairwise_cons.mp hsorted
    by_cases hx : x.start ≤ n
    · rw [dropWhile_cons_of_pos (by simpa using hx)] at hp
      exact ih hrest.2 hp
    · rw [dropWhile_cons_of_neg (by simpa using hx), mem_cons] at hp
      rcases hp with rfl | hp
      · omega
      · have hnext := hrest.1 p hp
        have hle := start_le_stop x
        omega

section Arrive

variable (hsorted : Sorted ps) {qs : List (Piece α τ)} (harrive : arrive new ps = some qs)

include hsorted harrive

theorem sorted_arrive : Sorted qs := by
  have hsplit := takeWhile_append_dropWhile (p := fun p => decide (p.start ≤ new.start)) (l := ps)
  rw [← hsplit, sorted_append] at hsorted
  obtain ⟨hbefore, hafter, hacross⟩ := hsorted
  rw [arrive, Option.map_eq_some_iff] at harrive
  obtain ⟨new', hnews, rfl⟩ := harrive
  refine sorted_append.mpr ⟨hbefore, pairwise_cons.mpr ⟨?_, sorted_cut hafter⟩, ?_⟩
  · intro q hq
    exact le_start_of_mem_cut hafter hq
  · intro p hp q hq
    rw [mem_cons] at hq
    rcases hq with rfl | hq
    · exact stop_le_news hbefore hnews hp
    · obtain ⟨r, hr, hpart⟩ := part_of_mem_cut hq
      exact (hacross p hp r hr).trans hpart.start_le

omit hsorted in
theorem part_of_mem_arrive (hp : p ∈ qs) : (∃ q ∈ ps, Part p q) ∨ Part p new := by
  rw [arrive, Option.map_eq_some_iff] at harrive
  obtain ⟨new', hnews, rfl⟩ := harrive
  rw [List.mem_append, mem_cons] at hp
  rcases hp with hp | rfl | hp
  · exact .inl ⟨p, takeWhile_subset _ hp, Part.refl p⟩
  · exact .inr (part_of_news hnews)
  · obtain ⟨q, hq, hpart⟩ := part_of_mem_cut hp
    exact .inl ⟨q, dropWhile_subset _ hq, hpart⟩

theorem covered_arrive (i : ℕ) : Covered qs i ↔ Covered ps i ∨ (new.start ≤ i ∧ i < new.stop) := by
  have hsplit := takeWhile_append_dropWhile (p := fun p => decide (p.start ≤ new.start)) (l := ps)
  have hafter : ∀ p ∈ ps.dropWhile fun p => decide (p.start ≤ new.start),
      new.start < p.start := fun p hp => mem_after hsorted hp
  have hfirst : ∀ p ∈ ps.takeWhile fun p => decide (p.start ≤ new.start),
      p.start ≤ new.start := fun p hp => by simpa using mem_takeWhile_imp hp
  rw [arrive, Option.map_eq_some_iff] at harrive
  obtain ⟨new', hnews, rfl⟩ := harrive
  rw [← hsplit, sorted_append] at hsorted
  obtain ⟨hbefore, hsorted', hacross⟩ := hsorted
  have hstop := (part_of_news hnews).stop_eq
  have hstart := start_of_news hnews
  generalize ps.takeWhile (fun p => decide (p.start ≤ new.start)) = before at *
  generalize ps.dropWhile (fun p => decide (p.start ≤ new.start)) = after at *
  rw [← hsplit]
  simp only [covered_append, covered_cons]
  by_cases hi : new'.stop ≤ i
  · rw [covered_cut hi]
    have hno : ¬ (new'.start ≤ i ∧ i < new'.stop) := by omega
    have hno' : ¬ (new.start ≤ i ∧ i < new.stop) := by omega
    tauto
  · have hcut : ¬ Covered (cut new'.stop after) i := by
      rintro ⟨q, hq, hqi, -⟩
      have hle := le_start_of_mem_cut hsorted' hq
      omega
    constructor
    · rintro (hb | hn | hc)
      · exact .inl (.inl hb)
      · have hle := (part_of_news hnews).start_le
        exact .inr (by omega)
      · exact absurd hc hcut
    · have hin : new.start ≤ i → Covered before i ∨ new'.start ≤ i ∧ i < new'.stop := by
        intro hle
        rcases hstart with rfl | ⟨p, hp, hlt, hpstart⟩
        · exact .inr (by omega)
        · by_cases hpi : i < p.stop
          · have hmem := mem_of_getLast? hp
            exact .inl ⟨p, hmem, (hfirst p hmem).trans hle, hpi⟩
          · exact .inr (by omega)
      rintro ((hb | ⟨q, hq, hqi, -⟩) | hn)
      · exact .inl hb
      · have hlt := hafter q hq
        exact (hin (by omega)).imp_right .inl
      · exact (hin hn.1).imp_right .inl

end Arrive

theorem exists_of_arrive_none (harrive : arrive new ps = none) :
    ∃ p ∈ ps, p.start ≤ new.start ∧ new.start < p.stop ∧ new.stop ≤ p.stop := by
  rw [arrive, Option.map_eq_none_iff] at harrive
  cases hlast : (ps.takeWhile fun p => decide (p.start ≤ new.start)).getLast? with
  | none =>
    rw [hlast] at harrive
    cases harrive
  | some p =>
    rw [hlast, news] at harrive
    split_ifs at harrive with hlt hle
    have hmem := mem_of_getLast? hlast
    have hfirst : p.start ≤ new.start := by simpa using mem_takeWhile_imp hmem
    exact ⟨p, takeWhile_subset _ hmem, hfirst, hlt, hle⟩

/-! ## Joining -/

def joined (next : ℕ) : List (Piece α τ) → Option ℕ
  | [] => some next
  | p :: ps => if p.start ≠ next then none else joined (next + p.data.length) ps

variable {next m : ℕ}

theorem joined_cons (h : joined next (p :: ps) = some m) :
    p.start = next ∧ joined p.stop ps = some m := by
  rw [joined] at h
  split_ifs at h with hstart
  rw [not_not] at hstart
  refine ⟨hstart, ?_⟩
  rw [Piece.stop, hstart]
  exact h

section

variable (h : joined next ps = some m)
include h

theorem carries_of_joined {a : α}
    (hget : (ps.flatMap (·.data))[i]? = some a) : ∃ p ∈ ps, p.Carries (next + i) a := by
  induction ps generalizing next i with
  | nil => cases hget
  | cons p ps ih =>
    obtain ⟨rfl, hrest⟩ := joined_cons h
    rw [flatMap_cons] at hget
    by_cases hi : i < p.data.length
    · rw [getElem?_append_left hi] at hget
      refine ⟨p, mem_cons_self, Nat.le_add_right _ _, ?_⟩
      rwa [Nat.add_sub_cancel_left]
    · rw [getElem?_append_right (by omega)] at hget
      obtain ⟨q, hq, hcarries⟩ := ih hrest hget
      refine ⟨q, mem_cons_of_mem _ hq, ?_⟩
      rwa [Piece.stop, show p.start + p.data.length + (i - p.data.length) = p.start + i by
        omega] at hcarries

theorem length_of_joined : next + (ps.flatMap (·.data)).length = m := by
  induction ps generalizing next with
  | nil =>
    cases h
    rfl
  | cons p ps ih =>
    obtain ⟨rfl, hrest⟩ := joined_cons h
    rw [flatMap_cons, length_append, ← ih hrest, Piece.stop, Nat.add_assoc]

theorem joined_le (hnext : next ≤ n) (hhigh : ∀ p ∈ ps, p.stop ≤ n) : m ≤ n := by
  induction ps generalizing next with
  | nil =>
    cases h
    exact hnext
  | cons p ps ih =>
    rw [forall_mem_cons] at hhigh
    exact ih (joined_cons h).2 hhigh.1 hhigh.2

end

theorem joined_of_covered (hsorted : Sorted ps) (hlow : ∀ p ∈ ps, next ≤ p.start)
    (hhigh : ∀ p ∈ ps, p.stop ≤ n) (hcovered : ∀ i, next ≤ i → i < n → Covered ps i) :
    ∃ m, joined next ps = some m := by
  induction ps generalizing next with
  | nil => exact ⟨next, rfl⟩
  | cons p ps ih =>
    obtain ⟨hafter, hrest⟩ := pairwise_cons.mp hsorted
    rw [forall_mem_cons] at hlow hhigh
    have hle := start_le_stop p
    have hstart : p.start = next := by
      by_contra hgap
      rcases covered_cons.mp (hcovered next le_rfl (by omega)) with hin | ⟨q, hq, hqi, -⟩
      · omega
      · have hnext := hafter q hq
        omega
    rw [joined, if_neg (not_not.mpr hstart), ← hstart]
    apply ih hrest hafter hhigh.2
    intro i hi hlt
    rcases covered_cons.mp (hcovered i (by omega) hlt) with hin | hin
    · omega
    · exact hin

/-! ## Queues of a program -/

section Related

variable {κ : Type*} {R : κ → Piece α τ → Prop} {qs : List κ}

section

variable (h : List.Forall₂ R qs ps)
include h

theorem forall₂_takeWhile {f : κ → Bool} {g : Piece α τ → Bool} (hfg : ∀ q p, R q p → f q = g p) :
    List.Forall₂ R (qs.takeWhile f) (ps.takeWhile g) ∧
      List.Forall₂ R (qs.dropWhile f) (ps.dropWhile g) := by
  induction h with
  | nil => exact ⟨List.Forall₂.nil, List.Forall₂.nil⟩
  | @cons q p qs ps hqp hrest ih =>
    rw [takeWhile_cons, takeWhile_cons, dropWhile_cons, dropWhile_cons, hfg q p hqp]
    by_cases hg : g p = true
    · rw [if_pos hg, if_pos hg, if_pos hg, if_pos hg]
      exact ⟨ih.1.cons hqp, ih.2⟩
    · rw [if_neg hg, if_neg hg, if_neg hg, if_neg hg]
      exact ⟨List.Forall₂.nil, hrest.cons hqp⟩

theorem forall₂_getLast? : Option.Rel R qs.getLast? ps.getLast? := by
  induction h with
  | nil => exact Option.Rel.none
  | @cons q p qs ps hqp hrest ih =>
    cases hrest with
    | nil => exact Option.Rel.some hqp
    | cons hqp' hrest' =>
      exact ih

omit h in
theorem exists_related {β γ : Type*} {R : β → γ → Prop} {xs : List β} {ys : List γ}
    (h : List.Forall₂ R xs ys) {y : γ} (hy : y ∈ ys) : ∃ x ∈ xs, R x y := by
  induction h with
  | nil => cases hy
  | cons hxy _ ih =>
    rw [mem_cons] at hy
    rcases hy with rfl | hy
    · exact ⟨_, mem_cons_self, hxy⟩
    · obtain ⟨x, hx, hrel⟩ := ih hy
      exact ⟨x, mem_cons_of_mem _ hx, hrel⟩

theorem exists_piece {q : κ} (hq : q ∈ qs) : ∃ p ∈ ps, R q p := exists_related h.flip hq

theorem pairwise_of_sorted {S : κ → κ → Prop} (hsorted : Sorted ps)
    (hS : ∀ q p q' p', R q p → R q' p' → p.stop ≤ p'.start → S q q') : qs.Pairwise S := by
  induction h with
  | nil => exact List.Pairwise.nil
  | @cons q p qs ps hqp hrest ih =>
    obtain ⟨hafter, hsorted'⟩ := pairwise_cons.mp hsorted
    refine pairwise_cons.mpr ⟨?_, ih hsorted'⟩
    intro q' hq'
    obtain ⟨p', hp', hrel⟩ := exists_piece hrest hq'
    exact hS q p q' p' hqp hrel (hafter p' hp')

end

end Related

end AerieKernel.Pieces
