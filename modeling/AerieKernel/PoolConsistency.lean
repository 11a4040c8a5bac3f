import AerieKernel.PoolModel
import Mathlib.Algebra.BigOperators.Group.Finset.Basic

/-!
# Consistency of a pool

Each page is on the list that its number of missing items asks for, and all counters are
what the lists and the items that are out say.  An operation changes one page.  While it
does, that page may be on a wrong list (`Loose`); it is then put on the right one.
-/

namespace AerieKernel.Pools

open List Pool

open Function (update update_self update_of_ne update_eq_self forall_update_iff)

/-! ## Pages on lists -/

structure ListedBut (p : ℕ) (empty part full : List ℕ) (nmissing : ℕ → ℕ)
    (perpage : ℕ) (S : Finset ℕ) : Prop where
  nodup_empty : empty.Nodup
  nodup_part : part.Nodup
  nodup_full : full.Nodup
  mem_empty : ∀ x ≠ p, x ∈ empty ↔ x ∈ S ∧ nmissing x = 0
  mem_part : ∀ x ≠ p, x ∈ part ↔ x ∈ S ∧ 0 < nmissing x ∧ nmissing x < perpage
  mem_full : ∀ x ≠ p, x ∈ full ↔ x ∈ S ∧ nmissing x = perpage

structure Listed (empty part full : List ℕ) (nmissing : ℕ → ℕ) (perpage : ℕ)
    (S : Finset ℕ) : Prop where
  nodup_empty : empty.Nodup
  nodup_part : part.Nodup
  nodup_full : full.Nodup
  mem_empty : ∀ x, x ∈ empty ↔ x ∈ S ∧ nmissing x = 0
  mem_part : ∀ x, x ∈ part ↔ x ∈ S ∧ 0 < nmissing x ∧ nmissing x < perpage
  mem_full : ∀ x, x ∈ full ↔ x ∈ S ∧ nmissing x = perpage

section Lists

variable {empty part full : List ℕ} {nmissing nmissing' : ℕ → ℕ} {perpage p : ℕ}
  {S : Finset ℕ}

theorem Listed.but (h : Listed empty part full nmissing perpage S)
    (hsame : ∀ x ≠ p, nmissing' x = nmissing x) :
    ListedBut p empty part full nmissing' perpage S where
  nodup_empty := h.nodup_empty
  nodup_part := h.nodup_part
  nodup_full := h.nodup_full
  mem_empty := by
    intro x hx
    rw [h.mem_empty, hsame x hx]
  mem_part := by
    intro x hx
    rw [h.mem_part, hsame x hx]
  mem_full := by
    intro x hx
    rw [h.mem_full, hsame x hx]

theorem ListedBut.erase (h : ListedBut p empty part full nmissing perpage S) :
    ListedBut p (empty.erase p) (part.erase p) (full.erase p) nmissing perpage S where
  nodup_empty := h.nodup_empty.erase p
  nodup_part := h.nodup_part.erase p
  nodup_full := h.nodup_full.erase p
  mem_empty := by
    intro x hx
    rw [mem_erase_of_ne hx, h.mem_empty x hx]
  mem_part := by
    intro x hx
    rw [mem_erase_of_ne hx, h.mem_part x hx]
  mem_full := by
    intro x hx
    rw [mem_erase_of_ne hx, h.mem_full x hx]

structure PutOn (p : ℕ) (l l' : List ℕ) (on : Prop) : Prop where
  nodup : l.Nodup → l'.Nodup
  mem : l.Nodup → (p ∈ l' ↔ on)
  others : ∀ x ≠ p, x ∈ l' ↔ x ∈ l

theorem putOn_cons (p : ℕ) (l : List ℕ) : PutOn p l (p :: l.erase p) True where
  nodup := fun h => nodup_cons.mpr ⟨h.not_mem_erase, h.erase p⟩
  mem := fun _ => by simp
  others := by
    intro x hx
    simp [hx]

theorem putOn_erase (p : ℕ) (l : List ℕ) : PutOn p l (l.erase p) False where
  nodup := fun h => h.erase p
  mem := fun h => by simpa using h.not_mem_erase
  others := fun x hx => mem_erase_of_ne hx

theorem ListedBut.putOn (h : ListedBut p empty part full nmissing perpage S)
    {empty' part' full' : List ℕ} {onEmpty onPart onFull : Prop}
    (hempty : PutOn p empty empty' onEmpty) (hpart : PutOn p part part' onPart)
    (hfull : PutOn p full full' onFull) (onEmpty_iff : onEmpty ↔ p ∈ S ∧ nmissing p = 0)
    (onPart_iff : onPart ↔ p ∈ S ∧ 0 < nmissing p ∧ nmissing p < perpage)
    (onFull_iff : onFull ↔ p ∈ S ∧ nmissing p = perpage) :
    Listed empty' part' full' nmissing perpage S where
  nodup_empty := hempty.nodup h.nodup_empty
  nodup_part := hpart.nodup h.nodup_part
  nodup_full := hfull.nodup h.nodup_full
  mem_empty := by
    intro x
    by_cases hx : x = p
    · rw [hx, hempty.mem h.nodup_empty, onEmpty_iff]
    · rw [hempty.others x hx, h.mem_empty x hx]
  mem_part := by
    intro x
    by_cases hx : x = p
    · rw [hx, hpart.mem h.nodup_part, onPart_iff]
    · rw [hpart.others x hx, h.mem_part x hx]
  mem_full := by
    intro x
    by_cases hx : x = p
    · rw [hx, hfull.mem h.nodup_full, onFull_iff]
    · rw [hfull.others x hx, h.mem_full x hx]

theorem Listed.keep (h : Listed empty part full nmissing perpage S)
    (hsame : ∀ x ≠ p, nmissing' x = nmissing x) (hold : 0 < nmissing p ∧ nmissing p < perpage)
    (hnew : 0 < nmissing' p ∧ nmissing' p < perpage) :
    Listed empty part full nmissing' perpage S where
  nodup_empty := h.nodup_empty
  nodup_part := h.nodup_part
  nodup_full := h.nodup_full
  mem_empty := by
    intro x
    rw [h.mem_empty]
    by_cases hx : x = p
    · rw [hx]
      omega
    · rw [hsame x hx]
  mem_part := by
    intro x
    rw [h.mem_part]
    by_cases hx : x = p
    · simp [hx, hold, hnew]
    · rw [hsame x hx]
  mem_full := by
    intro x
    rw [h.mem_full]
    by_cases hx : x = p
    · rw [hx]
      omega
    · rw [hsame x hx]

end Lists

/-! ## The invariant -/

structure PageOk (perpage : ℕ) (header : Header) : Prop where
  nodup : header.itemlist.Nodup
  bounded : ∀ i ∈ header.itemlist, i < perpage
  count : header.itemlist.length + header.nmissing = perpage

theorem PageOk.mem_of_idle {perpage : ℕ} {header : Header} (h : PageOk perpage header)
    (hidle : header.nmissing = 0) {i : ℕ} (hi : i < perpage) : i ∈ header.itemlist := by
  have hsub : header.itemlist.toFinset ⊆ Finset.range perpage := by
    intro x hx
    exact Finset.mem_range.mpr (h.bounded x (mem_toFinset.mp hx))
  have hcard : (Finset.range perpage).card ≤ header.itemlist.toFinset.card := by
    have hcount := h.count
    rw [toFinset_card_of_nodup h.nodup, Finset.card_range]
    omega
  have heq := Finset.eq_of_subset_of_card_le hsub hcard
  rw [← mem_toFinset, heq]
  exact Finset.mem_range.mpr hi

structure Loose (p : ℕ) (pp : Pool) (S : Finset ℕ) (out : List (ℕ × ℕ)) : Prop where
  positive : 0 < pp.itemsperpage
  listed : ListedBut p pp.emptypages pp.partpages pp.fullpages
    (fun x => (pp.header x).nmissing) pp.itemsperpage S
  pages : ∀ x ∈ S, PageOk pp.itemsperpage (pp.header x)
  nitems : pp.nitems = ∑ x ∈ S, (pp.header x).itemlist.length
  nidle : pp.nidle = (pp.emptypages.erase p).length +
    if p ∈ S ∧ (pp.header p).nmissing = 0 then 1 else 0
  npages : pp.npages = S.card
  nout : pp.nout = out.length
  out_nodup : out.Nodup
  mem_out : ∀ x i, (x, i) ∈ out ↔ x ∈ S ∧ i < pp.itemsperpage ∧ i ∉ (pp.header x).itemlist
  limit : pp.nout ≤ pp.hardlimit
  tree : pp.phinpage = false → pp.phtree.Increasing ∧ ∀ x, x ∈ pp.phtree.toList ↔ x ∈ S

structure Core (pp : Pool) (S : Finset ℕ) (out : List (ℕ × ℕ)) : Prop where
  positive : 0 < pp.itemsperpage
  listed : Listed pp.emptypages pp.partpages pp.fullpages
    (fun x => (pp.header x).nmissing) pp.itemsperpage S
  pages : ∀ x ∈ S, PageOk pp.itemsperpage (pp.header x)
  nitems : pp.nitems = ∑ x ∈ S, (pp.header x).itemlist.length
  nidle : pp.nidle = pp.emptypages.length
  npages : pp.npages = S.card
  nout : pp.nout = out.length
  out_nodup : out.Nodup
  mem_out : ∀ x i, (x, i) ∈ out ↔ x ∈ S ∧ i < pp.itemsperpage ∧ i ∉ (pp.header x).itemlist
  limit : pp.nout ≤ pp.hardlimit
  tree : pp.phinpage = false → pp.phtree.Increasing ∧ ∀ x, x ∈ pp.phtree.toList ↔ x ∈ S

structure CurOk (pp : Pool) (S : Finset ℕ) : Prop where
  free : ∀ x, pp.curpage = some x → x ∈ S ∧ (pp.header x).itemlist ≠ []
  none : pp.curpage = none → pp.nitems = 0

structure Consistent (pp : Pool) (S : Finset ℕ) (out : List (ℕ × ℕ)) : Prop where
  core : Core pp S out
  cur : CurOk pp S

section Steps

variable {pp : Pool} {S : Finset ℕ} {out out' : List (ℕ × ℕ)} {p : ℕ}

section

variable (h : Loose p pp S out)
include h

theorem Loose.core {empty part full : List ℕ}
    (hlisted : Listed empty part full (fun x => (pp.header x).nmissing) pp.itemsperpage S)
    (hempty : ∀ x ≠ p, x ∈ empty ↔ x ∈ pp.emptypages) :
    Core { pp with emptypages := empty, partpages := part, fullpages := full } S out := by
  refine { h with listed := hlisted, nidle := ?_ }
  have hperm : (empty.erase p).Perm (pp.emptypages.erase p) := by
    rw [perm_ext_iff_of_nodup (hlisted.nodup_empty.erase p) (h.listed.nodup_empty.erase p)]
    intro x
    rw [hlisted.nodup_empty.mem_erase_iff, h.listed.nodup_empty.mem_erase_iff]
    exact and_congr_right fun hx => hempty x hx
  have hmem := hlisted.mem_empty p
  show pp.nidle = empty.length
  rw [h.nidle, ← hperm.length_eq]
  by_cases hin : p ∈ empty
  · rw [if_pos (hmem.mp hin), length_erase_of_mem hin]
    have := length_pos_of_mem hin
    omega
  · rw [if_neg (fun hs => hin (hmem.mpr hs)), erase_of_not_mem hin]
    rfl

theorem Loose.toPart (hp : p ∈ S)
    (hpart : 0 < (pp.header p).nmissing ∧ (pp.header p).nmissing < pp.itemsperpage) :
    Core (pp.toPart p) S out := by
  refine h.core (h.listed.putOn (putOn_erase _ _) (putOn_cons _ _) (putOn_erase _ _)
    ?_ ?_ ?_) fun x hx => mem_erase_of_ne hx
  · simp [hp]
    omega
  · simp [hp, hpart]
  · simp [hp]
    omega

theorem Loose.toFull (hp : p ∈ S) (hfull : (pp.header p).nmissing = pp.itemsperpage) :
    Core (pp.toFull p) S out := by
  have hpositive := h.positive
  refine h.core (h.listed.putOn (putOn_erase _ _) (putOn_erase _ _) (putOn_cons _ _)
    ?_ ?_ ?_) fun x hx => mem_erase_of_ne hx
  · simp [hp, hfull]
    omega
  · simp [hfull]
  · simp [hp, hfull]

theorem Loose.toEmpty (hp : p ∈ S) (hempty : (pp.header p).nmissing = 0) :
    Core (pp.toEmpty p) S out := by
  have hpositive := h.positive
  refine h.core (h.listed.putOn (putOn_cons _ _) (putOn_erase _ _) (putOn_erase _ _)
    ?_ ?_ ?_) fun x hx => (putOn_cons p _).others x hx
  · simp [hp, hempty]
  · simp [hempty]
  · simp [hempty]
    omega

theorem Loose.setCur (curpage : Option ℕ) : Loose p { pp with curpage } S out := { h with }

theorem Loose.again : Loose p (pp.toPart p) S out := {
  h with
  listed := {
    h.listed.erase with
    nodup_part := (putOn_cons p _).nodup h.listed.nodup_part
    mem_part := by
      intro x hx
      show x ∈ p :: pp.partpages.erase p ↔ _
      rw [(putOn_cons p _).others x hx, h.listed.mem_part x hx]
      rfl }
  nidle := by
    show pp.nidle = ((pp.emptypages.erase p).erase p).length + _
    rw [erase_of_not_mem h.listed.nodup_empty.not_mem_erase]
    exact h.nidle }

end

theorem sum_update (header : ℕ → Header) (hp : p ∈ S) (new : Header) :
    ∑ x ∈ S, (update header p new x).itemlist.length + (header p).itemlist.length =
      ∑ x ∈ S, (header x).itemlist.length + new.itemlist.length := by
  rw [← Finset.add_sum_erase S _ hp,
    ← Finset.add_sum_erase S (fun x => (header x).itemlist.length) hp, update_self]
  have hrest : ∑ x ∈ S.erase p, (update header p new x).itemlist.length =
      ∑ x ∈ S.erase p, (header x).itemlist.length := by
    apply Finset.sum_congr rfl
    intro x hx
    rw [update_of_ne (Finset.ne_of_mem_erase hx)]
  omega

theorem Core.change (h : Core pp S out) (hp : p ∈ S) (new : Header)
    (nitems nout nidle : ℕ) (hpage : PageOk pp.itemsperpage new)
    (hnitems : nitems + (pp.header p).itemlist.length = pp.nitems + new.itemlist.length)
    (hnidle : nidle + (if (pp.header p).nmissing = 0 then 1 else 0) =
      pp.nidle + if new.nmissing = 0 then 1 else 0)
    (hnout : nout = out'.length) (hnodup : out'.Nodup) (hout : ∀ x i, (x, i) ∈ out' ↔
      x ∈ S ∧ i < pp.itemsperpage ∧ i ∉ (update pp.header p new x).itemlist)
    (hlimit : nout ≤ pp.hardlimit) :
    Loose p { pp.setHeader p new with nitems, nout, nidle } S out' where
  positive := h.positive
  listed := h.listed.but fun x hx => by
    show (update pp.header p new x).nmissing = _
    rw [update_of_ne hx]
  pages := (forall_update_iff pp.header fun x header => x ∈ S → PageOk _ header).mpr
    ⟨fun _ => hpage, fun x _ => h.pages x⟩
  nitems := by
    have hsum := sum_update pp.header hp new
    rw [← h.nitems] at hsum
    show nitems = ∑ x ∈ S, (update pp.header p new x).itemlist.length
    omega
  nidle := by
    show nidle = (pp.emptypages.erase p).length +
      if p ∈ S ∧ (update pp.header p new p).nmissing = 0 then 1 else 0
    rw [update_self]
    have hmem := h.listed.mem_empty p
    have hlength := h.nidle
    simp only [hp, true_and] at hmem ⊢
    by_cases hidle : (pp.header p).nmissing = 0
    · rw [if_pos hidle] at hnidle
      have hin := hmem.mpr hidle
      have := length_pos_of_mem hin
      rw [length_erase_of_mem hin]
      omega
    · rw [if_neg hidle] at hnidle
      rw [erase_of_not_mem (fun hin => hidle (hmem.mp hin))]
      omega
  npages := h.npages
  nout := hnout
  out_nodup := hnodup
  mem_out := hout
  limit := hlimit
  tree := h.tree

theorem Core.consistent_updateCurpage (h : Core pp S out) : Consistent pp.updateCurpage S out := by
  have hcount : ∀ x ∈ S, (pp.header x).nmissing ≠ pp.itemsperpage →
      (pp.header x).itemlist ≠ [] := by
    intro x hx hne hnil
    have hpage := (h.pages x hx).count
    rw [hnil, length_nil] at hpage
    omega
  unfold updateCurpage
  cases hpart : pp.partpages.head? with
  | some ph =>
    refine ⟨{ h with }, ?_, by simp⟩
    rintro x ⟨rfl⟩
    have hmem := (h.listed.mem_part ph).mp (mem_of_mem_head? hpart)
    exact ⟨hmem.1, hcount ph hmem.1 (by omega)⟩
  | none =>
    refine ⟨{ h with }, ?_, ?_⟩
    · intro x hx
      have hmem := (h.listed.mem_empty x).mp (mem_of_mem_head? hx)
      have := h.positive
      exact ⟨hmem.1, hcount x hmem.1 (by omega)⟩
    · intro hempty
      rw [h.nitems]
      apply Finset.sum_eq_zero
      intro x hx
      have hno : x ∉ pp.emptypages ∧ x ∉ pp.partpages := by
        rw [head?_eq_none_iff] at hpart
        have hempty' := head?_eq_none_iff.mp hempty
        simp [hpart, hempty']
      rw [h.listed.mem_empty, h.listed.mem_part] at hno
      have := (h.pages x hx).count
      simp only [hx, true_and] at hno
      omega

theorem Core.loose (h : Core pp S out) (hp : p ∈ S) : Loose p pp S out := by
  have hloose := h.change hp (pp.header p) pp.nitems pp.nout pp.nidle (h.pages p hp) rfl rfl
    h.nout h.out_nodup (by rw [update_eq_self]; exact h.mem_out) h.limit
  rwa [setHeader, update_eq_self] at hloose

theorem Loose.rmpage (h : Loose p pp S out) (hp : p ∈ S) (hidle : (pp.header p).nmissing = 0) :
    ∃ pp', pp.rmpage p = some pp' ∧ pp'.header = pp.header ∧ Consistent pp' (S.erase p) out := by
  have hnidle := h.nidle
  rw [if_pos ⟨hp, hidle⟩] at hnidle
  have hlength : (pp.header p).itemlist.length = pp.itemsperpage := by
    have := (h.pages p hp).count
    omega
  have hsum := Finset.add_sum_erase S (fun x => (pp.header x).itemlist.length) hp
  rw [← h.nitems] at hsum
  have hcard := Finset.card_erase_of_mem hp
  have hlisted : Listed (pp.emptypages.erase p) (pp.partpages.erase p)
      (pp.fullpages.erase p) (fun x => (pp.header x).nmissing) pp.itemsperpage (S.erase p) := by
    have hrest : ∀ x ≠ p, x ∈ S.erase p ↔ x ∈ S := fun x hx => by simp [hx]
    have hbut : ListedBut p pp.emptypages pp.partpages pp.fullpages
        (fun x => (pp.header x).nmissing) pp.itemsperpage (S.erase p) := {
      h.listed with
      mem_empty := fun x hx => by rw [h.listed.mem_empty x hx, hrest x hx]
      mem_part := fun x hx => by rw [h.listed.mem_part x hx, hrest x hx]
      mem_full := fun x hx => by rw [h.listed.mem_full x hx, hrest x hx] }
    apply hbut.putOn (putOn_erase _ _) (putOn_erase _ _) (putOn_erase _ _) <;> simp
  let pp' : Pool := { pp.unlink p with
    nidle := pp.nidle - 1
    nitems := pp.nitems - pp.itemsperpage
    phtree := if pp.phinpage then pp.phtree else (pp.phtree.remove compare p).2
    npages := pp.npages - 1 }
  have hcore : Core pp' (S.erase p) out := {
    h with
    listed := hlisted
    pages := fun x hx => h.pages x (Finset.mem_of_mem_erase hx)
    nitems := by
      show pp.nitems - pp.itemsperpage = _
      rw [← hsum, hlength, Nat.add_sub_cancel_left]
      rfl
    nidle := by
      show pp.nidle - 1 = (pp.emptypages.erase p).length
      omega
    npages := by
      show pp.npages - 1 = _
      rw [hcard, h.npages]
    mem_out := by
      intro x i
      rw [h.mem_out, Finset.mem_erase]
      constructor
      · rintro ⟨hx, hi, hout⟩
        refine ⟨⟨?_, hx⟩, hi, hout⟩
        rintro rfl
        exact hout ((h.pages x hx).mem_of_idle hidle hi)
      · rintro ⟨⟨-, hx⟩, hrest⟩
        exact ⟨hx, hrest⟩
    tree := by
      intro hin
      have hin' : pp.phinpage = false := hin
      obtain ⟨hinc, hmem⟩ := h.tree hin'
      obtain ⟨hinc', hmem'⟩ := hinc.remove ((hmem p).mpr hp)
      show Splay.Tree.Increasing (if pp.phinpage then _ else _) ∧
        ∀ x, x ∈ Splay.Tree.toList (if pp.phinpage then _ else _) ↔ _
      rw [hin']
      refine ⟨hinc', ?_⟩
      intro x
      rw [Finset.mem_erase, and_comm, ← hmem x]
      exact hmem' x }
  have hheader : pp'.updateCurpage.header = pp.header := by
    unfold updateCurpage
    split <;> rfl
  refine ⟨pp'.updateCurpage, ?_, hheader, hcore.consistent_updateCurpage⟩
  have hfine : ¬ ((pp.header p).nmissing = 0 ∧ (pp.nidle = 0 ∨ pp.nitems < pp.itemsperpage)) := by
    omega
  unfold Pool.rmpage
  rw [if_neg hfine, if_pos hidle]
  cases hin : pp.phinpage <;> simp [pp', unlink, hin]

/-! ## New pages -/

theorem primePage_eq (pp : Pool) (p : ℕ) :
    pp.primePage p = { pp.setHeader p ⟨List.range pp.itemsperpage, 0⟩ with
      emptypages := p :: pp.emptypages
      phtree := if pp.phinpage then pp.phtree else (pp.phtree.insert compare p).2
      nidle := pp.nidle + 1
      nitems := pp.nitems + pp.itemsperpage
      curpage := if pp.curpage = none then some p else pp.curpage
      npages := pp.npages + 1 } := by
  unfold primePage setHeader
  cases hin : pp.phinpage <;> cases hcur : pp.curpage <;> simp

theorem Consistent.primePage (h : Consistent pp S out) (hp : p ∉ S) :
    Consistent (pp.primePage p) (insert p S) out := by
  have hother : ∀ x ≠ p, update pp.header p ⟨List.range pp.itemsperpage, 0⟩ x =
      pp.header x := fun x hx => update_of_ne hx _ _
  have hne : ∀ x ∈ S, x ≠ p := by
    rintro x hx rfl
    exact hp hx
  have hpositive := h.core.positive
  have hlisted := h.core.listed
  have hno : p ∉ pp.emptypages ∧ p ∉ pp.partpages ∧ p ∉ pp.fullpages := by
    rw [hlisted.mem_empty, hlisted.mem_part, hlisted.mem_full]
    simp [hp]
  rw [primePage_eq]
  refine ⟨⟨hpositive, ⟨?_, hlisted.nodup_part, hlisted.nodup_full, ?_, ?_, ?_⟩, ?_, ?_, ?_,
    ?_, h.core.nout, h.core.out_nodup, ?_, h.core.limit, ?_⟩, ?_, ?_⟩
  · exact nodup_cons.mpr ⟨hno.1, hlisted.nodup_empty⟩
  · intro x
    by_cases hx : x = p
    · simp [setHeader, hx]
    · simp [setHeader, hx, hlisted.mem_empty x]
  · intro x
    by_cases hx : x = p
    · simp [setHeader, hx, hno]
    · simp [setHeader, hx, hlisted.mem_part x]
  · intro x
    by_cases hx : x = p
    · simp [setHeader, hx, hno]
      omega
    · simp [setHeader, hx, hlisted.mem_full x]
  · exact (forall_update_iff pp.header
      fun x header => x ∈ insert p S → PageOk pp.itemsperpage header).mpr
      ⟨fun _ => ⟨nodup_range, by simp, by simp⟩,
        fun x hne hx => h.core.pages x (Finset.mem_of_mem_insert_of_ne hx hne)⟩
  · show pp.nitems + pp.itemsperpage = ∑ x ∈ insert p S,
      (update pp.header p ⟨List.range pp.itemsperpage, 0⟩ x).itemlist.length
    rw [Finset.sum_insert hp, update_self, length_range, h.core.nitems, Nat.add_comm]
    congr 1
    apply Finset.sum_congr rfl
    intro x hx
    rw [hother x (hne x hx)]
  · rw [length_cons, h.core.nidle]
  · rw [Finset.card_insert_of_notMem hp, h.core.npages]
  · intro x i
    rw [h.core.mem_out]
    by_cases hx : x = p
    · simp [setHeader, hx, hp]
    · simp [setHeader, hx]
  · intro hin
    have hin' : pp.phinpage = false := hin
    obtain ⟨hinc, hmem⟩ := h.core.tree hin'
    obtain ⟨hinc', hmem'⟩ := hinc.insert (fun hin => hp ((hmem p).mp hin))
    rw [hin']
    refine ⟨hinc', ?_⟩
    intro x
    rw [Finset.mem_insert, ← hmem x]
    exact hmem' x
  · intro x hx
    dsimp only at hx
    show x ∈ insert p S ∧ (update pp.header p _ x).itemlist ≠ []
    split_ifs at hx with hcur
    · cases hx
      simp
      omega
    · obtain ⟨hin, hfree⟩ := h.cur.free x hx
      rw [hother x (hne x hin)]
      exact ⟨Finset.mem_insert_of_mem hin, hfree⟩
  · intro hnone
    dsimp only at hnone
    split_ifs at hnone with hcur
    exact absurd hnone hcur

structure Fresh (S : Finset ℕ) (grants : List (Option ℕ)) : Prop where
  nodup : (grants.filterMap id).Nodup
  new : ∀ p ∈ grants.filterMap id, p ∉ S

variable {grants : List (Option ℕ)}

theorem Fresh.head (h : Fresh S (some p :: grants)) : p ∉ S :=
  h.new p (by simp)

theorem Fresh.tail (h : Fresh S (some p :: grants)) : Fresh (insert p S) grants := by
  have hnodup : (p :: grants.filterMap id).Nodup := h.nodup
  rw [nodup_cons] at hnodup
  refine ⟨hnodup.2, ?_⟩
  intro x hx hin
  rcases Finset.mem_insert.mp hin with rfl | hin
  · exact hnodup.1 hx
  · exact h.new x (mem_cons_of_mem p hx) hin

theorem Consistent.catchup (h : Consistent pp S out)
    (hfresh : Fresh S grants) : ∃ S', Consistent (pp.catchup grants) S' out := by
  fun_induction Pool.catchup grants pp generalizing S with
  | case1 pp page grants hbelow ih => exact ih (h.primePage hfresh.head) hfresh.tail
  | case2 pp page grants habove => exact ⟨S, h⟩
  | case3 grants pp hnone => exact ⟨S, h⟩

/-! ## Getting and putting -/

def GetOk (out : List (ℕ × ℕ)) : Pool × Pool.Outcome → Prop
  | (pp, .item page i) => ∃ S, Consistent pp S ((page, i) :: out)
  | (pp, _) => ∃ S, Consistent pp S out

section

variable (h : Consistent pp S out)
include h

namespace Consistent

theorem takeItem (hcur : pp.curpage = some p) (hlimit : pp.nout < pp.hardlimit)
    (hfresh : Fresh S grants) :
    ∃ result, pp.takeItem p grants = some result ∧ GetOk out result := by
  obtain ⟨hp, hfree⟩ := h.cur.free p hcur
  have hcore := h.core
  have hpage := hcore.pages p hp
  unfold Pool.takeItem
  cases hitems : (pp.header p).itemlist with
  | nil => exact absurd hitems hfree
  | cons i items =>
    have hlength : items.length + 1 + (pp.header p).nmissing = pp.itemsperpage := by
      rw [← hpage.count, hitems, length_cons]
    have hnodup := hpage.nodup
    rw [hitems, nodup_cons] at hnodup
    have hbounded : ∀ j ∈ i :: items, j < pp.itemsperpage := by
      rw [← hitems]
      exact hpage.bounded
    have hnitems : pp.nitems ≠ 0 := by
      have hle := Finset.single_le_sum (f := fun x => (pp.header x).itemlist.length)
        (fun x _ => Nat.zero_le _) hp
      rw [← hcore.nitems] at hle
      simp only [hitems, length_cons] at hle
      omega
    have hnidle : ¬ ((pp.header p).nmissing = 0 ∧ pp.nidle = 0) := by
      rintro ⟨hzero, hidle⟩
      rw [hcore.nidle, length_eq_zero_iff] at hidle
      have hin := (hcore.listed.mem_empty p).mpr ⟨hp, hzero⟩
      rw [hidle] at hin
      cases hin
    have hnew : (p, i) ∉ out := by
      rw [hcore.mem_out, hitems]
      simp
    -- the page with its first item taken
    have hloose : Loose p
        { pp.setHeader p ⟨items, (pp.header p).nmissing + 1⟩ with
          nitems := pp.nitems - 1, nout := pp.nout + 1
          nidle := if (pp.header p).nmissing = 0 then pp.nidle - 1 else pp.nidle }
        S ((p, i) :: out) := by
      apply hcore.change hp
      · exact ⟨hnodup.2, fun j hj => hbounded j (by simp [hj]), by
          show items.length + ((pp.header p).nmissing + 1) = _
          omega⟩
      · rw [hitems]
        show pp.nitems - 1 + (items.length + 1) = pp.nitems + items.length
        omega
      · split_ifs <;> simp_all <;> omega
      · rw [length_cons, hcore.nout]
      · exact nodup_cons.mpr ⟨hnew, hcore.out_nodup⟩
      · intro x j
        rw [mem_cons, hcore.mem_out]
        by_cases hx : x = p
        · subst hx
          rw [hitems]
          by_cases hj : j = i
          · have hi := hbounded i (by simp)
            simp [hj, hp, hi, hnodup.1]
          · simp [hj]
        · simp [hx]
      · exact hlimit
    have hafter : ∀ pp' : Pool, Consistent pp' S ((p, i) :: out) →
        GetOk out (pp'.catchup grants, .item p i) := fun pp' h' => h'.catchup hfresh
    dsimp only
    rw [if_neg hnitems, if_neg hnidle]
    by_cases hnil : items = []
    · -- the page is full now
      have hfull : (pp.header p).nmissing + 1 = pp.itemsperpage := by
        rw [hnil, length_nil] at hlength
        omega
      rw [if_pos hnil]
      by_cases hzero : (pp.header p).nmissing = 0
      · rw [if_pos hzero] at hloose ⊢
        refine ⟨_, if_neg (not_not.mpr hfull), hafter _ ?_⟩
        apply Core.consistent_updateCurpage
        apply hloose.again.toFull hp
        simp [toPart, unlink, setHeader, hfull]
      · rw [if_neg hzero] at hloose ⊢
        refine ⟨_, if_neg (not_not.mpr hfull), hafter _ ?_⟩
        apply Core.consistent_updateCurpage
        apply hloose.toFull hp
        simp [setHeader, hfull]
    · have hpos := length_pos_of_ne_nil hnil
      rw [if_neg hnil]
      refine ⟨_, rfl, hafter _ ⟨?_, ?_⟩⟩
      · by_cases hzero : (pp.header p).nmissing = 0
        · rw [if_pos hzero] at hloose ⊢
          apply hloose.toPart hp
          simp [setHeader]
          omega
        · rw [if_neg hzero] at hloose ⊢
          apply hloose.core _ fun x _ => Iff.rfl
          apply hcore.listed.keep (p := p)
          · intro x hx
            simp [setHeader, hx]
          · omega
          · simp [setHeader]
            omega
      · constructor
        · intro x hx
          have heq : x = p := by
            have hsame : some x = some p := by
              rw [← hcur, ← hx]
              split_ifs <;> rfl
            exact Option.some.inj hsame
          subst heq
          refine ⟨hp, ?_⟩
          simp [setHeader, hnil]
        · intro hnone
          have hsame : none = some p := by
            rw [← hcur, ← hnone]
            split_ifs <;> rfl
          cases hsame

omit h in
theorem doGet (waitok limitfail : Bool) (h : Consistent pp S out) (hfresh : Fresh S grants) :
    ∃ result, pp.doGet waitok limitfail grants = some result ∧ GetOk out result := by
  fun_induction Pool.doGet waitok limitfail grants pp generalizing S
  case case1 hover => exact absurd h.core.limit (not_le.mpr hover)
  case case2 => exact ⟨_, rfl, S, { h.core with }, { h.cur with }⟩
  case case3 => exact ⟨_, rfl, S, h⟩
  case case4 grants pp hnot hne ph hcur =>
    have hlimit := lt_of_le_of_ne h.core.limit hne
    exact h.takeItem hcur hlimit hfresh
  case case5 hcur hitems => exact absurd (h.cur.none hcur) hitems
  case case6 => exact ⟨_, rfl, S, h⟩
  case case7 ih => exact ih (h.primePage hfresh.head) hfresh.tail
  case case8 => exact ⟨_, rfl, S, h⟩

omit h in
theorem doGetAllocated {grant : Option ℕ} (limitfail : Bool) (h : Consistent pp S out)
    (hfresh : Fresh S (grant :: grants)) :
    ∃ result, pp.doGetAllocated limitfail grant grants = some result ∧ GetOk out result := by
  cases grant with
  | none => exact ⟨_, rfl, S, { h.core with }, { h.cur with }⟩
  | some page => exact (h.primePage hfresh.head).doGet true limitfail hfresh.tail

theorem findPagehead (hp : p ∈ S) :
    ∃ phtree, pp.findPagehead p = some { pp with phtree } ∧
      Consistent { pp with phtree } S out := by
  unfold Pool.findPagehead
  by_cases hin : pp.phinpage = true
  · exact ⟨pp.phtree, if_pos hin, h⟩
  · obtain ⟨hinc, hmem⟩ := h.core.tree (Bool.eq_false_iff.mpr hin)
    have hfound := hinc.find ((hmem p).mpr hp)
    have hlist := Splay.Tree.toList_find compare pp.phtree p
    rw [if_neg hin]
    refine ⟨(pp.phtree.find compare p).2, ?_, { h.core with tree := ?_ }, { h.cur with }⟩
    · generalize pp.phtree.find compare p = result at *
      obtain ⟨found, phtree⟩ := result
      cases hfound
      rfl
    · intro _
      rw [Splay.Tree.Increasing, hlist]
      exact ⟨hinc, hmem⟩

theorem putItem {i : ℕ} (hout : (p, i) ∈ out) (hquiet : pp.wanted = true →
      1 < (pp.header p).nmissing ∧ (pp.header p).nmissing < pp.itemsperpage) :
    ∃ pp', pp.putItem p i = some pp' ∧ ∃ S', Consistent pp' S' (out.erase (p, i)) := by
  have hcore := h.core
  obtain ⟨hp, hi, hmissing⟩ := (hcore.mem_out p i).mp hout
  have hpage := hcore.pages p hp
  have hcount := hpage.count
  have hsome : 0 < (pp.header p).nmissing := by
    by_contra hzero
    exact hmissing (hpage.mem_of_idle (by omega) hi)
  have hloose : Loose p
      { pp.setHeader p ⟨i :: (pp.header p).itemlist, (pp.header p).nmissing - 1⟩ with
        nitems := pp.nitems + 1, nout := pp.nout - 1
        nidle := if (pp.header p).nmissing - 1 = 0 then pp.nidle + 1 else pp.nidle }
      S (out.erase (p, i)) := by
    apply hcore.change hp
    · refine ⟨nodup_cons.mpr ⟨hmissing, hpage.nodup⟩, forall_mem_cons.mpr ⟨hi, hpage.bounded⟩, ?_⟩
      show (i :: (pp.header p).itemlist).length + ((pp.header p).nmissing - 1) = _
      rw [length_cons]
      omega
    · rw [length_cons]
      omega
    · rw [if_neg hsome.ne']
      split_ifs <;> rfl
    · rw [length_erase_of_mem hout, hcore.nout]
    · exact hcore.out_nodup.erase _
    · intro x j
      rw [hcore.out_nodup.mem_erase_iff, hcore.mem_out]
      by_cases hx : x = p
      · subst hx
        by_cases hj : j = i
        · simp [hj]
        · simp [hj]
      · simp [hx]
    · exact le_trans (Nat.sub_le _ _) hcore.limit
  have hcur : ∀ pp' : Pool, pp'.curpage = (if pp.curpage = none then some p else pp.curpage) →
      pp'.header = update pp.header p
        ⟨i :: (pp.header p).itemlist, (pp.header p).nmissing - 1⟩ → CurOk pp' S := by
    intro pp' hcurpage hheader
    constructor
    · intro x hx
      rw [hcurpage] at hx
      rw [hheader]
      by_cases hxp : x = p
      · subst hxp
        exact ⟨hp, by simp⟩
      · rw [update_of_ne hxp]
        split_ifs at hx with hnone
        · exact absurd (Option.some.inj hx).symm hxp
        · exact h.cur.free x hx
    · intro hnone
      rw [hcurpage] at hnone
      split_ifs at hnone with hnone'
      exact absurd hnone hnone'
  -- a page that has items out before and after, and was not full
  have hkeep : 1 < (pp.header p).nmissing → (pp.header p).nmissing < pp.itemsperpage →
      Listed pp.emptypages pp.partpages pp.fullpages (fun x => (update pp.header p
        ⟨i :: (pp.header p).itemlist, (pp.header p).nmissing - 1⟩ x).nmissing)
        pp.itemsperpage S := by
    intro hlow hhigh
    apply hcore.listed.keep (p := p)
    · intro x hx
      rw [update_of_ne hx]
    · exact ⟨hsome, hhigh⟩
    · simp
      omega
  unfold Pool.putItem
  dsimp only [setHeader]
  by_cases hwanted : pp.wanted = true
  · obtain ⟨hlow, hhigh⟩ := hquiet hwanted
    have hnonzero : (pp.header p).nmissing - 1 ≠ 0 := by omega
    rw [if_neg hnonzero] at hloose
    rw [if_pos hwanted, if_neg hnonzero]
    have hmid := hloose.core (hkeep hlow hhigh) fun x _ => Iff.rfl
    exact ⟨_, rfl, S, { hmid with }, hcur _ rfl rfl⟩
  · rw [if_neg hwanted]
    by_cases hzero : (pp.header p).nmissing - 1 = 0
    · rw [if_pos hzero] at hloose
      rw [if_pos hzero]
      have hidle : (update pp.header p
          ⟨i :: (pp.header p).itemlist, (pp.header p).nmissing - 1⟩ p).nmissing = 0 := by
        simpa using hzero
      by_cases hmax : pp.maxpages < pp.nidle + 1
      · rw [if_pos hmax]
        have hloose' := hloose.setCur (if pp.curpage = none then some p else pp.curpage)
        obtain ⟨pp', hrm, -, hconsistent⟩ := hloose'.rmpage hp hidle
        refine ⟨pp'.updateCurpage, ?_, S.erase p, hconsistent.core.consistent_updateCurpage⟩
        rw [Option.map_eq_some_iff]
        exact ⟨pp', hrm, rfl⟩
      · rw [if_neg hmax]
        have hloose' := hloose.setCur (if pp.curpage = none then some p else pp.curpage)
        exact ⟨_, rfl, S, (hloose'.toEmpty hp hidle).consistent_updateCurpage⟩
    · rw [if_neg hzero] at hloose
      rw [if_neg hzero]
      by_cases hfull : (pp.header p).nmissing - 1 = pp.itemsperpage - 1
      · rw [if_pos hfull]
        have hmid := (hloose.setCur (some p)).toPart hp (by simp [setHeader]; omega)
        refine ⟨_, rfl, S, hmid, ?_, ?_⟩
        · rintro x ⟨rfl⟩
          exact ⟨hp, by simp [toPart, unlink]⟩
        · intro hnone
          cases hnone
      · rw [if_neg hfull]
        have hmid := hloose.core (hkeep (by omega) (by omega)) fun x _ => Iff.rfl
        exact ⟨_, rfl, S, { hmid with }, hcur _ rfl rfl⟩

theorem doPut {i : ℕ} (hout : (p, i) ∈ out) (hquiet : pp.wanted = true →
      1 < (pp.header p).nmissing ∧ (pp.header p).nmissing < pp.itemsperpage) :
    ∃ pp', pp.doPut p i = some pp' ∧ ∃ S', Consistent pp' S' (out.erase (p, i)) := by
  have hp := ((h.core.mem_out p i).mp hout).1
  have hnout : pp.nout ≠ 0 := by
    have := length_pos_of_mem hout
    have := h.core.nout
    omega
  obtain ⟨phtree, hfind, hfound⟩ := h.findPagehead hp
  rw [Pool.doPut, if_neg hnout, hfind]
  exact hfound.putItem hout hquiet

/-! ## Water marks -/

theorem primeLoop (count : ℕ) (hfresh : Fresh S grants) :
    ∃ S', Consistent (pp.primeLoop count grants) S' out := by
  fun_induction Pool.primeLoop count grants pp generalizing S with
  | case1 count page grants pp ih =>
    have hprimed := h.primePage hfresh.head
    exact ih ⟨{ hprimed.core with }, { hprimed.cur with }⟩ hfresh.tail
  | case2 => exact ⟨S, h⟩

theorem prime {n : BitVec 32} (hfresh : Fresh S grants) :
    ∃ S', Consistent (pp.prime n grants) S' out := by
  obtain ⟨S', h'⟩ := h.primeLoop (pp.pagesFor n).toInt.toNat hfresh
  refine ⟨S', ?_⟩
  unfold Pool.prime
  dsimp only
  split_ifs
  · exact ⟨{ h'.core with }, { h'.cur with }⟩
  · exact h'

theorem setlowat {n : BitVec 32} (hfresh : Fresh S grants) :
    ∃ S', Consistent (pp.setlowat n grants) S' out := by
  apply catchup _ hfresh
  exact ⟨{ h.core with }, { h.cur with }⟩

theorem reclaimLoop {rest : List ℕ}
    (hnodup : rest.Nodup) (hidle : ∀ x ∈ rest, x ∈ S ∧ (pp.header x).nmissing = 0) :
    ∃ pp', pp.reclaimLoop rest = some pp' ∧ ∃ S', Consistent pp' S' out := by
  induction rest generalizing pp S with
  | nil => exact ⟨pp, rfl, S, h⟩
  | cons ph rest ih =>
    obtain ⟨hin, hzero⟩ := hidle ph (by simp)
    obtain ⟨hnot, hnodup'⟩ := nodup_cons.mp hnodup
    unfold reclaimLoop
    split_ifs with hmin hbusy hlow
    · exact ⟨pp, rfl, S, h⟩
    · exact absurd hzero hbusy
    · exact ⟨pp, rfl, S, h⟩
    · obtain ⟨pp', hrm, hheader, h'⟩ := (h.core.loose hin).rmpage hin hzero
      rw [hrm]
      apply ih h' hnodup'
      intro x hx
      rw [hheader, Finset.mem_erase]
      obtain ⟨hin', hzero'⟩ := hidle x (by simp [hx])
      refine ⟨⟨?_, hin'⟩, hzero'⟩
      rintro rfl
      exact hnot hx

theorem reclaim : ∃ pp', pp.reclaim = some pp' ∧ ∃ S', Consistent pp' S' out :=
  h.reclaimLoop h.core.listed.nodup_empty fun x hx => (h.core.listed.mem_empty x).mp hx

end Consistent

end

theorem consistent_init (phinpage : Bool) {itemsperpage : ℕ} (maxpages hardlimit : ℕ)
    (hpositive : 0 < itemsperpage) :
    Consistent (poolInit phinpage itemsperpage maxpages hardlimit) ∅ [] where
  core := {
    positive := hpositive
    listed := ⟨nodup_nil, nodup_nil, nodup_nil, by simp [poolInit],
      by simp [poolInit], by simp [poolInit]⟩
    pages := by simp
    nitems := rfl
    nidle := rfl
    npages := rfl
    nout := rfl
    out_nodup := nodup_nil
    mem_out := by simp
    limit := Nat.zero_le _
    tree := fun _ => ⟨List.Pairwise.nil, by simp [poolInit, Splay.Tree.toList]⟩ }
  cur := ⟨by simp [poolInit], fun _ => rfl⟩

end Steps

end AerieKernel.Pools
