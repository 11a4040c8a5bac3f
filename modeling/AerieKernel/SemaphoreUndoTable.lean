import AerieKernel.SemaphoreAtomicity

/-!
# Undo records

`semundo_adjust` and `semundo_clear` keep the entries of a process in an array
without order, where the last entry takes the place of a deleted one.  What counts
is the adjustment that a record holds for a semaphore: no entry stands for zero.
-/

namespace AerieKernel.Semaphore

open List UndoTable Undo SemUndo

theorem find?_eq_some_of_nodup {α κ : Type*} {l : List α} {key : α → κ} {test : α → Bool} {a : α}
    (hnodup : (l.map key).Nodup) (ha : a ∈ l) (htest : test a = true)
    (hkey : ∀ b ∈ l, test b = true → key b = key a) : l.find? test = some a := by
  cases hfind : l.find? test with
  | none => exact absurd htest (find?_eq_none.mp hfind a ha)
  | some b =>
    have hb := mem_of_find?_eq_some hfind
    have heq := hkey b hb (find?_some hfind)
    rw [inj_on_of_nodup_map hnodup hb ha heq]

theorem find?_congr_of_nodup {α κ : Type*} {l l' : List α} {key : α → κ} {test : α → Bool}
    (hnodup' : (l'.map key).Nodup) (hkey : ∀ a b, test a = true → test b = true → key a = key b)
    (hsame : ∀ a, test a = true → (a ∈ l' ↔ a ∈ l)) : l'.find? test = l.find? test := by
  cases hfind : l.find? test with
  | none =>
    rw [find?_eq_none] at hfind ⊢
    intro a ha htest
    exact hfind a ((hsame a htest).mp ha) htest
  | some a =>
    have htest := find?_some hfind
    have ha := (hsame a htest).mpr (mem_of_find?_eq_some hfind)
    exact find?_eq_some_of_nodup hnodup' ha htest fun b _ hb => hkey b a hb htest

/-! ## The entries of a record -/

def Undo.key (entry : Undo) : ℕ × BitVec 16 := (entry.id, entry.num)

def adjustmentIn (ent : List Undo) (semid semnum : ℕ) : BitVec 16 :=
  ((ent.find? (·.isFor semid semnum)).map adjval).getD 0

structure EntriesOk (ent : List Undo) : Prop where
  distinct : (ent.map key).Nodup
  nonzero : ∀ entry ∈ ent, entry.adjval ≠ 0
  nums : ∀ entry ∈ ent, 0 ≤ entry.num.toInt

theorem isFor_iff {entry : Undo} {semid semnum : ℕ} :
    entry.isFor semid semnum = true ↔ entry.id = semid ∧ entry.num.toInt = (semnum : ℤ) := by
  simp [isFor]

theorem key_eq_of_isFor {a b : Undo} {semid semnum : ℕ} (ha : a.isFor semid semnum = true)
    (hb : b.isFor semid semnum = true) : a.key = b.key := by
  rw [isFor_iff] at ha hb
  have hnum : a.num = b.num := BitVec.eq_of_toInt_eq (ha.2.trans hb.2.symm)
  rw [key, key, ha.1, hb.1, hnum]

section Entries

variable {ent : List Undo} {semid semnum : ℕ}

theorem EntriesOk.adjustmentIn_eq (hok : EntriesOk ent) {entry : Undo} (hentry : entry ∈ ent)
    (hfor : entry.isFor semid semnum = true) : adjustmentIn ent semid semnum = entry.adjval := by
  have hfind : ent.find? (·.isFor semid semnum) = some entry :=
    find?_eq_some_of_nodup hok.distinct hentry hfor
      fun other _ hother => key_eq_of_isFor hother hfor
  rw [adjustmentIn, hfind]
  rfl

theorem adjustmentIn_eq_zero (hnone : ∀ entry ∈ ent, entry.isFor semid semnum = false) :
    adjustmentIn ent semid semnum = 0 := by
  have hfind : ent.find? (·.isFor semid semnum) = none := by
    rw [find?_eq_none]
    intro entry hentry
    simp [hnone entry hentry]
  rw [adjustmentIn, hfind]
  rfl

variable {ent' : List Undo}

theorem EntriesOk.adjustmentIn_congr (hok' : EntriesOk ent')
    (hsame : ∀ entry, entry.isFor semid semnum = true → (entry ∈ ent' ↔ entry ∈ ent)) :
    adjustmentIn ent' semid semnum = adjustmentIn ent semid semnum := by
  have hfind := find?_congr_of_nodup hok'.distinct (fun _ _ => key_eq_of_isFor) hsame
  rw [adjustmentIn, adjustmentIn, hfind]

theorem EntriesOk.sublist (hok : EntriesOk ent) (hsub : ent'.Sublist ent) : EntriesOk ent' where
  distinct := hok.distinct.sublist (hsub.map key)
  nonzero := fun entry hentry => hok.nonzero entry (hsub.subset hentry)
  nums := fun entry hentry => hok.nums entry (hsub.subset hentry)

theorem EntriesOk.perm (hok : EntriesOk ent) (hperm : ent'.Perm ent) : EntriesOk ent' where
  distinct := (hperm.map key).nodup_iff.mpr hok.distinct
  nonzero := fun entry hentry => hok.nonzero entry (hperm.subset hentry)
  nums := fun entry hentry => hok.nums entry (hperm.subset hentry)

theorem deleteEntry_append (before : List Undo) (entry : Undo) (after : List Undo) :
    ∃ moved, deleteEntry (before ++ entry :: after) before.length =
      before ++ moved ∧ moved.Perm after := by
  rcases eq_nil_or_concat' after with rfl | ⟨init, last, rfl⟩
  · refine ⟨[], ?_, List.Perm.refl _⟩
    simp [deleteEntry]
  · refine ⟨last :: init, ?_, (perm_append_singleton last init).symm⟩
    have hlast : (before ++ entry :: (init ++ [last])).getLast? = some last := by
      rw [← cons_append, ← append_assoc]
      exact getLast?_concat
    rw [deleteEntry, hlast]
    have hset : (before ++ entry :: (init ++ [last])).set before.length last =
        (before ++ last :: init) ++ [last] := by
      simp
    simp only [hset, dropLast_concat]

variable {adjval : BitVec 16}

theorem EntriesOk.add (hok : EntriesOk ent) (hnum : semnum < 32768) (hadjval : adjval ≠ 0)
    (hnone : ∀ entry ∈ ent, entry.isFor semid semnum = false) :
    let ent' := ent ++ [⟨adjval, BitVec.ofNat 16 semnum, semid⟩]
    EntriesOk ent' ∧ ∀ i n, adjustmentIn ent' i n = adjustmentIn ent i n +
      if i = semid ∧ n = semnum then adjval else 0 := by
  let entry : Undo := ⟨adjval, BitVec.ofNat 16 semnum, semid⟩
  have htoInt : entry.num.toInt = (semnum : ℤ) := by
    simp only [entry, BitVec.toInt_ofNat']
    rw [Int.bmod_def]
    split_ifs <;> omega
  have hfor : entry.isFor semid semnum = true := isFor_iff.mpr ⟨rfl, htoInt⟩
  have hdistinct : ((ent ++ [entry]).map key).Nodup := by
    rw [map_append, nodup_append]
    refine ⟨hok.distinct, by simp, ?_⟩
    intro key hkey key' hkey' heq
    obtain ⟨other, hother, rfl⟩ := mem_map.mp hkey
    rw [map_singleton, mem_singleton] at hkey'
    have hid : other.id = entry.id := congrArg Prod.fst (heq.trans hkey')
    have hnum : other.num = entry.num := congrArg Prod.snd (heq.trans hkey')
    have hfalse := hnone other hother
    rw [isFor, hid, hnum] at hfalse
    cases hfalse.symm.trans hfor
  have hok' : EntriesOk (ent ++ [entry]) := by
    refine ⟨hdistinct, forall_mem_append.mpr ⟨hok.nonzero, forall_mem_singleton.mpr hadjval⟩,
      forall_mem_append.mpr ⟨hok.nums, forall_mem_singleton.mpr ?_⟩⟩
    omega
  refine ⟨hok', fun i n => ?_⟩
  split_ifs with hin
  · obtain ⟨rfl, rfl⟩ := hin
    rw [hok'.adjustmentIn_eq (by simp) hfor, adjustmentIn_eq_zero hnone, zero_add]
  · rw [add_zero]
    apply hok'.adjustmentIn_congr
    intro other hother
    simp only [List.mem_append, mem_singleton, or_iff_left_iff_imp]
    rintro rfl
    rw [isFor_iff] at hother
    exact absurd ⟨hother.1.symm, by omega⟩ hin

section Replace

variable {before after : List Undo} {entry : Undo}

section

variable (hok : EntriesOk (before ++ entry :: after))
include hok

theorem adjustmentIn_replace {new : List Undo} (hok' : EntriesOk (before ++ new ++ after))
    (hfor : entry.isFor semid semnum = true) (hnew : ∀ other ∈ new, other.isFor semid semnum = true)
    {i n : ℕ} (hne : ¬ (i = semid ∧ n = semnum)) :
    adjustmentIn (before ++ new ++ after) i n = adjustmentIn (before ++ entry :: after) i n := by
  have hother : ∀ other : Undo, other.isFor semid semnum = true → ¬ other.isFor i n = true := by
    intro other hsem hin
    rw [isFor_iff] at hsem hin
    apply hne
    refine ⟨hin.1.symm.trans hsem.1, ?_⟩
    exact_mod_cast hin.2.symm.trans hsem.2
  apply hok'.adjustmentIn_congr
  intro other hin
  simp only [List.mem_append, mem_cons]
  constructor
  · rintro ((hbefore | hmem) | hafter)
    · exact .inl hbefore
    · exact absurd hin (hother other (hnew other hmem))
    · exact .inr (.inr hafter)
  · rintro (hbefore | rfl | hafter)
    · exact .inl (.inl hbefore)
    · exact absurd hin (hother other hfor)
    · exact .inr hafter

theorem EntriesOk.change
    (hfor : entry.isFor semid semnum = true) (hnew : entry.adjval + adjval ≠ 0) :
    let changed : Undo := { entry with adjval := entry.adjval + adjval }
    EntriesOk (before ++ [changed] ++ after) ∧
      ∀ i n, adjustmentIn (before ++ [changed] ++ after) i n =
        adjustmentIn (before ++ entry :: after) i n +
          if i = semid ∧ n = semnum then adjval else 0 := by
  let changed : Undo := { entry with adjval := entry.adjval + adjval }
  have hfor' : changed.isFor semid semnum = true := hfor
  have hdistinct : ((before ++ [changed] ++ after).map key).Nodup := by
    have hkeys := hok.distinct
    simp only [map_append, append_assoc] at hkeys ⊢
    exact hkeys
  have hok' : EntriesOk (before ++ [changed] ++ after) := by
    refine ⟨hdistinct, ?_, ?_⟩ <;> intro other hother <;>
      simp only [List.mem_append, mem_singleton] at hother <;>
      rcases hother with (hbefore | rfl) | hafter
    · exact hok.nonzero other (by simp [hbefore])
    · exact hnew
    · exact hok.nonzero other (by simp [hafter])
    · exact hok.nums other (by simp [hbefore])
    · exact hok.nums entry (by simp)
    · exact hok.nums other (by simp [hafter])
  refine ⟨hok', fun i n => ?_⟩
  split_ifs with hin
  · obtain ⟨rfl, rfl⟩ := hin
    rw [hok'.adjustmentIn_eq (by simp) hfor', hok.adjustmentIn_eq (by simp) hfor]
  · rw [add_zero]
    exact adjustmentIn_replace hok hok' hfor (by simpa using hfor') hin

theorem EntriesOk.delete (hfor : entry.isFor semid semnum = true) :
    let ent' := deleteEntry (before ++ entry :: after) before.length
    EntriesOk ent' ∧ ∀ i n, adjustmentIn ent' i n =
      if i = semid ∧ n = semnum then 0
      else adjustmentIn (before ++ entry :: after) i n := by
  obtain ⟨moved, hmoved, hperm⟩ := deleteEntry_append before entry after
  rw [hmoved]
  have hless : EntriesOk (before ++ [] ++ after) := hok.sublist (by simp)
  have hperm' : (before ++ moved).Perm (before ++ [] ++ after) := by
    rw [append_nil]
    exact hperm.append_left before
  have hok' := hless.perm hperm'
  refine ⟨hok', fun i n => ?_⟩
  rw [hok'.adjustmentIn_congr fun other _ => hperm'.mem_iff]
  split_ifs with hin
  · obtain ⟨rfl, rfl⟩ := hin
    apply adjustmentIn_eq_zero
    intro other hother
    by_contra hsame
    have hkey := key_eq_of_isFor (by simpa using hsame) hfor
    have hdistinct := hok.distinct
    rw [map_append, map_cons, nodup_middle, nodup_cons] at hdistinct
    apply hdistinct.1
    rw [← hkey, ← map_append]
    rw [append_nil] at hother
    exact mem_map_of_mem hother
  · exact adjustmentIn_replace hok hless hfor (by simp) hin

end

theorem modify_append (f : Undo → Undo) :
    (before ++ entry :: after).modify before.length f = before ++ [f entry] ++ after := by
  induction before with
  | nil => rfl
  | cons first before ih =>
    rw [cons_append, length_cons, modify_succ_cons, ih]
    rfl

end Replace

theorem EntriesOk.adjust {semume : ℕ} (hok : EntriesOk ent) (hnum : semnum < 32768)
    (hadjval : adjval ≠ 0) (hadjust : adjustEntries semume semid semnum adjval ent = some ent') :
    EntriesOk ent' ∧ ∀ i n, adjustmentIn ent' i n = adjustmentIn ent i n +
      if i = semid ∧ n = semnum then adjval else 0 := by
  rw [adjustEntries] at hadjust
  cases hfind : ent.findIdx? (·.isFor semid semnum) with rw [hfind] at hadjust
  | none =>
    dsimp only at hadjust
    rw [if_neg hadjval] at hadjust
    split_ifs at hadjust
    cases hadjust
    exact hok.add hnum hadjval (findIdx?_eq_none_iff.mp hfind)
  | some k =>
    obtain ⟨hk, hfor, _⟩ := findIdx?_eq_some_iff_getElem.mp hfind
    have hsplit : ent = ent.take k ++ ent[k] :: ent.drop (k + 1) := by
      rw [cons_getElem_drop_succ, take_append_drop]
    have hlength : k = (ent.take k).length := by
      rw [length_take]
      omega
    generalize ent.take k = before at hsplit hlength
    generalize ent[k] = entry at hsplit hfor
    generalize ent.drop (k + 1) = after at hsplit
    subst hsplit hlength
    simp only [getElem?_append_right (le_refl before.length),
      Nat.sub_self, getElem?_cons_zero, Option.map_some,
      Option.getD_some, if_neg hadjval] at hadjust
    split_ifs at hadjust with hnew
    · cases hadjust
      rw [modify_append]
      exact hok.change hfor hnew
    · cases hadjust
      obtain ⟨hok', hin⟩ := hok.delete hfor
      refine ⟨hok', fun i n => ?_⟩
      rw [hin]
      split_ifs with heq
      · rw [heq.1, heq.2, hok.adjustmentIn_eq (by simp) hfor, not_not.mp hnew]
      · rw [add_zero]

/-! ## The loop of `semundo_clear` -/

def Undo.cleared (entry : Undo) (semid : ℕ) (semnum : Option ℕ) : Bool :=
  entry.id = semid && semnum.all fun num => entry.num.toInt = (num : ℤ)

theorem cleared_iff {entry : Undo} {num : Option ℕ} :
    entry.cleared semid num = true ↔ entry.id = semid ∧ ∀ n ∈ num, entry.num.toInt = (n : ℤ) := by
  cases num <;> simp [cleared]

/-- The first entry for the set is the one to delete, or there is none to delete. -/
def ClearsFirst (semid num : ℕ) (ent : List Undo) : Prop :=
  ∀ entry, ent.find? (·.id = semid) = some entry →
    entry.num.toInt = (num : ℤ) ∨ ∀ other ∈ ent, other.cleared semid (some num) = false

theorem clearEntries_perm {num : Option ℕ} (fuel : ℕ) (before rest : List Undo)
    (hfuel : rest.length ≤ fuel) (hfirst : ∀ n ∈ num, ClearsFirst semid n rest)
    (hdistinct : (rest.map key).Nodup) :
    ∃ kept, clearEntries semid num fuel before.length (before ++ rest) = before ++ kept ∧
      kept.Perm (rest.filter fun entry => !entry.cleared semid num) := by
  induction fuel generalizing before rest with
  | zero =>
    rw [length_eq_zero_iff.mp (Nat.le_zero.mp hfuel)]
    exact ⟨[], rfl, List.Perm.refl _⟩
  | succ fuel ih =>
    cases rest with
    | nil => exact ⟨[], by simp [clearEntries], List.Perm.refl _⟩
    | cons entry rest =>
      have hfuel : rest.length ≤ fuel := by simpa using hfuel
      have hget : (before ++ entry :: rest)[before.length]? = some entry := by
        simp
      rw [map_cons, nodup_cons] at hdistinct
      rw [clearEntries, hget]
      dsimp only
      by_cases hid : entry.id = semid
      · obtain ⟨moved, hmoved, hperm⟩ := deleteEntry_append before entry rest
        rw [if_pos hid]
        cases num with
        | none =>
          -- the entry that has moved here is looked at next
          rw [hmoved]
          obtain ⟨kept, hkept, hrest⟩ := ih before moved (by rw [hperm.length_eq]; exact hfuel)
            nofun ((hperm.map _).nodup_iff.mpr hdistinct.2)
          refine ⟨kept, hkept, hrest.trans ?_⟩
          rw [filter_cons_of_neg (by simp [cleared, hid])]
          exact hperm.filter _
        | some num =>
          dsimp only
          split_ifs with hnum
          · refine ⟨moved, hmoved, hperm.trans ?_⟩
            rw [filter_cons_of_neg (by simp [cleared, hid, hnum])]
            rw [filter_eq_self.mpr]
            intro other hother
            by_contra hcleared
            have hcleared := cleared_iff.mp (by simpa using hcleared)
            have hsame : other.key = entry.key := by
              rw [key, key, hcleared.1, hid,
                BitVec.eq_of_toInt_eq ((hcleared.2 num rfl).trans hnum.symm)]
            exact hdistinct.1 (hsame ▸ mem_map_of_mem hother)
          · refine ⟨entry :: rest, rfl, ?_⟩
            have hnone := (hfirst num rfl entry (by simp [hid])).resolve_left hnum
            rw [filter_eq_self.mpr]
            intro other hother
            rw [hnone other hother]
            rfl
      · have hrest : ∀ n ∈ num, ClearsFirst semid n rest := by
          intro n hn first hfind
          rcases hfirst n hn first (by simpa [hid] using hfind) with hnum | hnone
          · exact .inl hnum
          · exact .inr fun other hother => hnone other (by simp [hother])
        obtain ⟨kept, hkept, hperm⟩ := ih (before ++ [entry]) rest hfuel hrest hdistinct.2
        refine ⟨entry :: kept, by simpa [hid] using hkept, ?_⟩
        rw [filter_cons_of_pos (by cases num <;> simp [cleared, hid])]
        exact hperm.cons entry

theorem EntriesOk.clear {num : Option ℕ} (hok : EntriesOk ent)
    (hfirst : ∀ n ∈ num, ClearsFirst semid n ent) :
    let ent' := clearEntries semid num ent.length 0 ent
    EntriesOk ent' ∧ ∀ i n, adjustmentIn ent' i n =
      if i = semid ∧ num.all (· = n) then 0 else adjustmentIn ent i n := by
  have hkept : (clearEntries semid num ent.length 0 ent).Perm
      (ent.filter fun entry => !entry.cleared semid num) := by
    obtain ⟨kept, hkept, hperm⟩ := clearEntries_perm ent.length [] ent le_rfl hfirst hok.distinct
    have hkept : clearEntries semid num ent.length 0 ent = kept := hkept
    rw [hkept]
    exact hperm
  have hless := hok.sublist (filter_sublist (p := fun entry => !entry.cleared semid num))
  have hok' := hless.perm hkept
  have hcleared : ∀ i n (entry : Undo), entry.isFor i n = true →
      (entry.cleared semid num = true ↔ i = semid ∧ num.all (· = n)) := by
    intro i n entry hfor
    rw [isFor_iff] at hfor
    rw [cleared_iff, hfor.1, hfor.2]
    cases num with
    | none => simp
    | some m => simp [eq_comm]
  refine ⟨hok', fun i n => ?_⟩
  split_ifs with hin
  · apply adjustmentIn_eq_zero
    intro entry hentry
    by_contra hfor
    have hclears := (hcleared i n entry (by simpa using hfor)).mpr hin
    have hmem := (hkept.mem_iff.mp hentry)
    rw [mem_filter, hclears] at hmem
    exact absurd hmem.2 (by simp)
  · apply hok'.adjustmentIn_congr
    intro entry hfor
    rw [hkept.mem_iff]
    have hstays : entry.cleared semid num = false := by
      by_contra hclears
      exact hin ((hcleared i n entry hfor).mp (by simpa using hclears))
    simp [hstays]

end Entries

/-! ## The records of processes -/

def UndoTable.entriesOf (table : UndoTable) (p : Proc) : List Undo :=
  ((table.semuList.find? (·.proc = p)).map ent).getD []

def UndoTable.adjustment (table : UndoTable) (p : Proc) (semid semnum : ℕ) : BitVec 16 :=
  adjustmentIn (table.entriesOf p) semid semnum

structure TableOk (table : UndoTable) : Prop where
  procs : (table.semuList.map proc).Nodup
  addrs : (table.semuList.map addr).Nodup
  entries : ∀ su ∈ table.semuList, EntriesOk su.ent
  nonempty : ∀ su ∈ table.semuList, su.ent ≠ []
  total : table.semutot = table.semuList.length

theorem entriesOf_eq_nil {table : UndoTable} {p : Proc}
    (hnone : ∀ su ∈ table.semuList, su.proc ≠ p) : table.entriesOf p = [] := by
  have hfind : table.semuList.find? (·.proc = p) = none := by
    rw [find?_eq_none]
    intro su hsu
    simpa using hnone su hsu
  rw [entriesOf, hfind]
  rfl

section Table

variable {table : UndoTable}

variable {su : SemUndo}

section

variable (hok : TableOk table)
include hok

theorem TableOk.entriesOf_eq (hsu : su ∈ table.semuList) : table.entriesOf su.proc = su.ent := by
  have hfind : table.semuList.find? (·.proc = su.proc) = some su :=
    find?_eq_some_of_nodup hok.procs hsu (by simp) (by simp)
  rw [entriesOf, hfind]
  rfl

omit hok in
theorem TableOk.entriesOf_congr {table' : UndoTable} {p : Proc} (hok' : TableOk table')
    (hsame : ∀ su, su.proc = p → (su ∈ table'.semuList ↔ su ∈ table.semuList)) :
    table'.entriesOf p = table.entriesOf p := by
  have hfind : table'.semuList.find? (·.proc = p) = table.semuList.find? (·.proc = p) :=
    find?_congr_of_nodup hok'.procs (by simp +contextual) (by simpa using hsame)
  rw [entriesOf, entriesOf, hfind]

omit hok in
theorem exists_record {p : Proc} {semid semnum : ℕ}
    (hadjust : table.adjustment p semid semnum ≠ 0) : ∃ su ∈ table.semuList, su.proc = p := by
  by_contra hnone
  apply hadjust
  have hnil : table.entriesOf p = [] := entriesOf_eq_nil fun su hsu hp =>
    hnone ⟨su, hsu, hp⟩
  rw [adjustment, hnil]
  rfl

theorem TableOk.remove {before after : List SemUndo}
    (hsplit : table.semuList = before ++ su :: after) :
    let table' : UndoTable := ⟨before ++ after, table.semutot - 1⟩
    TableOk table' ∧ ∀ q, table'.entriesOf q =
      if q = su.proc then [] else table.entriesOf q := by
  have hsub : (before ++ after).Sublist table.semuList := by simp [hsplit]
  have hok' : TableOk ⟨before ++ after, table.semutot - 1⟩ := by
    refine ⟨hok.procs.sublist (hsub.map _), hok.addrs.sublist (hsub.map _),
      fun other hother => hok.entries other (hsub.subset hother),
      fun other hother => hok.nonempty other (hsub.subset hother), ?_⟩
    have htotal := hok.total
    simp only [hsplit, length_append, length_cons] at htotal ⊢
    omega
  refine ⟨hok', fun q => ?_⟩
  split_ifs with hq
  · apply entriesOf_eq_nil
    intro other hother hproc
    have hdistinct := hok.procs
    rw [hsplit, map_append, map_cons, nodup_middle, nodup_cons, ← map_append] at hdistinct
    apply hdistinct.1
    rw [← hq, ← hproc]
    exact mem_map_of_mem hother
  · apply hok'.entriesOf_congr
    intro other hother
    have hne : other ≠ su := by
      rintro rfl
      exact hq hother.symm
    simp [hsplit, hne]

variable {ent : List Undo}

theorem TableOk.change {before after : List SemUndo}
    (hsplit : table.semuList = before ++ su :: after) (hent : EntriesOk ent)
    (hnonempty : ent ≠ []) :
    let table' : UndoTable := ⟨before ++ { su with ent := ent } :: after, table.semutot⟩
    TableOk table' ∧ ∀ q, table'.entriesOf q =
      if q = su.proc then ent else table.entriesOf q := by
  let su' : SemUndo := { su with ent := ent }
  have hmem : ∀ other ∈ before ++ su' :: after, other = su' ∨ other ∈ table.semuList := by
    intro other hother
    simp only [List.mem_append, mem_cons] at hother
    rcases hother with hbefore | heq | hafter
    · exact .inr (by simp [hsplit, hbefore])
    · exact .inl heq
    · exact .inr (by simp [hsplit, hafter])
  have hok' : TableOk ⟨before ++ su' :: after, table.semutot⟩ := by
    refine ⟨?_, ?_, ?_, ?_, ?_⟩
    · have hprocs := hok.procs
      rw [hsplit] at hprocs
      simpa [su'] using hprocs
    · have haddrs := hok.addrs
      rw [hsplit] at haddrs
      simpa [su'] using haddrs
    · intro other hother
      rcases hmem other hother with rfl | hold
      · exact hent
      · exact hok.entries other hold
    · intro other hother
      rcases hmem other hother with rfl | hold
      · exact hnonempty
      · exact hok.nonempty other hold
    · have htotal := hok.total
      rw [hsplit] at htotal
      simpa using htotal
  refine ⟨hok', fun q => ?_⟩
  split_ifs with hq
  · rw [hq]
    have hin : su' ∈ before ++ su' :: after := by simp
    exact hok'.entriesOf_eq hin
  · apply hok'.entriesOf_congr
    intro other hother
    have hne : other ≠ su ∧ other ≠ su' := by
      constructor <;> rintro rfl <;> exact hq hother.symm
    simp [hsplit, hne.1, hne.2]

omit hok in
theorem map_store_eq_self {addr : SemuPtr}
    {records : List SemUndo} (hne : ∀ su ∈ records, su.addr ≠ addr) :
    records.map (fun su => if su.addr = addr then { su with ent := ent }
      else su) = records := by
  conv_rhs => rw [← map_id records]
  apply map_congr_left
  intro su hsu
  rw [if_neg (hne su hsu)]
  rfl

theorem TableOk.store (hsu : su ∈ table.semuList) (hent : EntriesOk ent) :
    TableOk (storeEntries table su.addr ent) ∧ (∀ q, (storeEntries table su.addr ent).entriesOf q =
        if q = su.proc then ent else table.entriesOf q) ∧
      ∀ other ∈ (storeEntries table su.addr ent).semuList,
        other.proc = su.proc → other.addr = su.addr := by
  obtain ⟨before, after, hsplit⟩ := append_of_mem hsu
  have haddrs := hok.addrs
  rw [hsplit, map_append, map_cons, nodup_middle, nodup_cons, ← map_append] at haddrs
  have hothers : ∀ other ∈ before ++ after, other.addr ≠ su.addr := by
    intro other hother heq
    exact haddrs.1 (heq ▸ mem_map_of_mem hother)
  have hbefore : ∀ other ∈ before, other.addr ≠ su.addr := fun other hother =>
    hothers other (by simp [hother])
  have hafter : ∀ other ∈ after, other.addr ≠ su.addr := fun other hother =>
    hothers other (by simp [hother])
  rw [storeEntries]
  split_ifs with hnil
  · have herase : table.semuList.eraseP (·.addr = su.addr) = before ++ after := by
      rw [hsplit, eraseP_append_right _ (by simpa using hbefore)]
      simp
    rw [herase, hnil]
    obtain ⟨hok', hentries⟩ := hok.remove hsplit
    refine ⟨hok', hentries, ?_⟩
    intro other hother hproc
    have hnonempty := hok'.nonempty other hother
    rw [← hok'.entriesOf_eq hother, hentries, if_pos hproc] at hnonempty
    exact absurd rfl hnonempty
  · have hmap : table.semuList.map (fun other => if other.addr = su.addr then
        { other with ent := ent } else other) = before ++ { su with ent := ent } :: after := by
      rw [hsplit, map_append, map_cons, map_store_eq_self hbefore,
        map_store_eq_self hafter, if_pos rfl]
    rw [hmap]
    obtain ⟨hok', hentries⟩ := hok.change hsplit hent hnil
    refine ⟨hok', hentries, ?_⟩
    intro other hother hproc
    have hin : { su with ent := ent } ∈ before ++ { su with ent := ent } :: after := by simp
    have heq := inj_on_of_nodup_map hok'.procs hother hin hproc
    rw [heq]

theorem TableOk.insert (hproc : ∀ other ∈ table.semuList, other.proc ≠ su.proc)
    (haddr : ∀ other ∈ table.semuList, other.addr ≠ su.addr) (hent : EntriesOk su.ent)
    (hnonempty : su.ent ≠ []) : let table' : UndoTable := ⟨su :: table.semuList, table.semutot + 1⟩
    TableOk table' ∧ ∀ q, table'.entriesOf q =
      if q = su.proc then su.ent else table.entriesOf q := by
  have hok' : TableOk ⟨su :: table.semuList, table.semutot + 1⟩ := by
    refine ⟨?_, ?_, ?_, ?_, ?_⟩
    · exact nodup_cons.mpr ⟨by simpa using hproc, hok.procs⟩
    · exact nodup_cons.mpr ⟨by simpa using haddr, hok.addrs⟩
    · exact forall_mem_cons.mpr ⟨hent, hok.entries⟩
    · exact forall_mem_cons.mpr ⟨hnonempty, hok.nonempty⟩
    · simp [hok.total]
  refine ⟨hok', fun q => ?_⟩
  split_ifs with hq
  · rw [hq]
    have hin : su ∈ su :: table.semuList := by simp
    exact hok'.entriesOf_eq hin
  · apply hok'.entriesOf_congr
    intro other hother
    have hne : other ≠ su := by
      rintro rfl
      exact hq hother.symm
    simp [hne]

theorem TableOk.clear {semid : ℕ} {num : Option ℕ}
    (hfirst : ∀ su ∈ table.semuList, ∀ n ∈ num, ClearsFirst semid n su.ent) :
    TableOk (semundoClear semid num table) ∧
      ∀ q i n, (semundoClear semid num table).adjustment q i n =
        if i = semid ∧ num.all (· = n) then 0 else table.adjustment q i n := by
  let clear (su : SemUndo) : SemUndo :=
    { su with ent := clearEntries semid num su.ent.length 0 su.ent }
  let kept := (table.semuList.map clear).filter fun su => su.ent ≠ []
  have hsub : kept.Sublist (table.semuList.map clear) := filter_sublist
  have hclear : ∀ su ∈ kept, ∃ old ∈ table.semuList, su = clear old := by
    intro su hsu
    obtain ⟨old, hold, heq⟩ := mem_map.mp (hsub.subset hsu)
    exact ⟨old, hold, heq.symm⟩
  have hprocs : (table.semuList.map clear).map proc = table.semuList.map proc := by
    rw [map_map]
    rfl
  have haddrs : (table.semuList.map clear).map addr = table.semuList.map addr := by
    rw [map_map]
    rfl
  have hok' : TableOk (semundoClear semid num table) := by
    refine ⟨?_, ?_, ?_, ?_, ?_⟩
    · exact (hprocs ▸ hok.procs).sublist (hsub.map proc)
    · exact (haddrs ▸ hok.addrs).sublist (hsub.map addr)
    · intro su hsu
      obtain ⟨old, hold, rfl⟩ := hclear su hsu
      exact ((hok.entries old hold).clear (hfirst old hold)).1
    · intro su hsu
      simpa using (mem_filter.mp hsu).2
    · have hle : kept.length ≤ table.semuList.length := by
        simpa using hsub.length_le
      have htotal : (semundoClear semid num table).semutot =
          table.semutot - (table.semuList.length - kept.length) := rfl
      have hlength : (semundoClear semid num table).semuList.length =
          kept.length := rfl
      rw [htotal, hok.total]
      omega
  refine ⟨hok', fun q i n => ?_⟩
  rw [adjustment, adjustment]
  by_cases hq : ∃ su ∈ table.semuList, su.proc = q
  · obtain ⟨su, hsu, rfl⟩ := hq
    obtain ⟨_, hin⟩ := (hok.entries su hsu).clear (hfirst su hsu)
    have hentries : (semundoClear semid num table).entriesOf su.proc = (clear su).ent := by
      by_cases hnil : (clear su).ent = []
      · rw [hnil]
        apply entriesOf_eq_nil
        intro other hother hproc
        obtain ⟨old, hold, rfl⟩ := hclear other hother
        have heq : old = su := inj_on_of_nodup_map hok.procs hold hsu hproc
        exact hok'.nonempty _ hother (heq ▸ hnil)
      · have hmem : clear su ∈ (semundoClear semid num table).semuList :=
          mem_filter.mpr ⟨mem_map_of_mem hsu, by simpa using hnil⟩
        exact hok'.entriesOf_eq hmem
    rw [hentries, hok.entriesOf_eq hsu]
    exact hin i n
  · have hold : table.entriesOf q = [] := entriesOf_eq_nil fun su hsu hproc => hq ⟨su, hsu, hproc⟩
    have hnew : (semundoClear semid num table).entriesOf q = [] := by
      apply entriesOf_eq_nil
      intro su hsu hproc
      obtain ⟨old, hold, rfl⟩ := hclear su hsu
      exact hq ⟨old, hold, hproc⟩
    rw [hold, hnew]
    exact (ite_self _).symm

end

/-! ## One request -/

/-- What the pointer that `sys_semop` keeps may be: no pointer yet, and then the
pool gives a record that is not on the list, or the record of the process, if
that is still on the list. -/
def PointerOk (pool : Option SemuPtr) (p : Proc) (table : UndoTable) : Option SemuPtr → Prop
  | none => ∀ addr ∈ pool, ∀ su ∈ table.semuList, su.addr ≠ addr
  | some addr => ∀ su ∈ table.semuList, su.proc = p → su.addr = addr

def PointerListed (table : UndoTable) (suptr : Option SemuPtr) : Prop :=
  ∀ addr ∈ suptr, ∃ su ∈ table.semuList, su.addr = addr

section Request

variable {info : Seminfo} {pool : Option SemuPtr} {p : Proc} {semid semnum : ℕ}
  {adjval : BitVec 16} {table' : UndoTable} {suptr suptr' : Option SemuPtr}

structure Requested (pool : Option SemuPtr) (p : Proc) (semid semnum : ℕ) (adjval : BitVec 16)
    (table table' : UndoTable) (suptr' : Option SemuPtr) : Prop where
  ok : TableOk table'
  adjustment : ∀ q i n, table'.adjustment q i n = table.adjustment q i n +
    if q = p ∧ i = semid ∧ n = semnum then adjval else 0
  pointer : PointerOk pool p table' suptr'
  kept : suptr' ≠ none

theorem TableOk.adjustRecord (hok : TableOk table) (hnum : semnum < 32768) (hadjval : adjval ≠ 0)
    (hsu : su ∈ table.semuList) (hproc : su.proc = p)
    (hadjust : Semaphore.adjustRecord info semid semnum adjval table su = .ok table' suptr') :
    Requested pool p semid semnum adjval table table' suptr' := by
  rw [Semaphore.adjustRecord] at hadjust
  split at hadjust
  · cases hadjust
  · rename_i ent hent
    injection hadjust with htable hsuptr
    obtain ⟨hent', hin⟩ := (hok.entries su hsu).adjust hnum hadjval hent
    obtain ⟨hok', hentries, hpointer⟩ := hok.store hsu hent'
    subst htable hsuptr hproc
    refine ⟨hok', fun q i n => ?_, hpointer, by simp⟩
    rw [adjustment, adjustment, hentries]
    by_cases hq : q = su.proc
    · rw [if_pos hq, hin, hq, hok.entriesOf_eq hsu]
      simp
    · simp [hq]

theorem TableOk.insertRecord {addr : SemuPtr} (hok : TableOk table)
    (hnone : ∀ su ∈ table.semuList, su.proc ≠ p) (hfree : ∀ su ∈ table.semuList, su.addr ≠ addr)
    (hnum : semnum < 32768) (hadjval : adjval ≠ 0)
    (hadjust : Semaphore.adjustRecord info semid semnum adjval
      ⟨⟨addr, p, []⟩ :: table.semuList, table.semutot + 1⟩ ⟨addr, p, []⟩ = .ok table' suptr') :
    Requested pool p semid semnum adjval table table' suptr' := by
  let entry : Undo := ⟨adjval, BitVec.ofNat 16 semnum, semid⟩
  have hent : adjustEntries info.semume semid semnum adjval [] = some [entry] := by
    have hroom : ¬ 0 = info.semume := info.semume_pos.ne
    simp only [adjustEntries, findIdx?_nil, length_nil,
      if_neg hadjval, if_neg hroom, nil_append, entry]
  have hempty : EntriesOk [] := ⟨by simp, by simp, by simp⟩
  obtain ⟨hent', hin⟩ := hempty.adjust hnum hadjval hent
  have hstore : storeEntries ⟨⟨addr, p, []⟩ :: table.semuList, table.semutot + 1⟩ addr [entry] =
      ⟨⟨addr, p, [entry]⟩ :: table.semuList, table.semutot + 1⟩ := by
    rw [storeEntries, if_neg (by simp), map_cons, if_pos rfl, map_store_eq_self hfree]
  simp only [Semaphore.adjustRecord, hent, hstore] at hadjust
  cases hadjust
  let su : SemUndo := ⟨addr, p, [entry]⟩
  have hsu : EntriesOk su.ent := hent'
  obtain ⟨hok', hentries⟩ := hok.insert hnone hfree hsu (by simp [su])
  refine ⟨hok', fun q i n => ?_, forall_mem_cons.mpr
    ⟨fun _ => rfl, fun other hold hproc => absurd hproc (hnone other hold)⟩, by simp⟩
  rw [adjustment, adjustment, hentries]
  by_cases hq : q = p
  · rw [if_pos hq, hin, hq, entriesOf_eq_nil hnone]
    simp
  · rw [if_neg hq, if_neg (fun h => hq h.1), add_zero]

theorem TableOk.semundoAdjust (hok : TableOk table) (hpointer : PointerOk pool p table suptr)
    (hexists : suptr ≠ none → ∃ su ∈ table.semuList, su.proc = p) (hnum : semnum < 32768)
    (hadjval : adjval ≠ 0) (hadjust : Semaphore.semundoAdjust info pool p suptr semid semnum adjval
      table = .ok table' suptr') : Requested pool p semid semnum adjval table table' suptr' := by
  unfold Semaphore.semundoAdjust at hadjust
  cases suptr with
  | some addr =>
    obtain ⟨su, hsu, hproc⟩ := hexists (by simp)
    have haddr : su.addr = addr := hpointer su hsu hproc
    have hfind : table.semuList.find? (·.addr = addr) = some su :=
      find?_eq_some_of_nodup hok.addrs hsu (by simpa using haddr) (by simp [haddr])
    simp only [hfind] at hadjust
    exact hok.adjustRecord hnum hadjval hsu hproc hadjust
  | none =>
    cases hfind : table.semuList.find? (·.proc = p) with
    | some su =>
      have hproc : su.proc = p := by simpa using find?_some hfind
      simp only [hfind] at hadjust
      exact hok.adjustRecord hnum hadjval (mem_of_find?_eq_some hfind) hproc hadjust
    | none =>
      have hnone : ∀ su ∈ table.semuList, su.proc ≠ p := by
        simpa using hfind
      simp only [hfind, if_neg hadjval, semuAlloc] at hadjust
      split_ifs at hadjust
      cases pool with
      | none => cases hadjust
      | some addr =>
        exact hok.insertRecord hnone (hpointer addr rfl) hnum hadjval hadjust

end Request

end Table

end AerieKernel.Semaphore
