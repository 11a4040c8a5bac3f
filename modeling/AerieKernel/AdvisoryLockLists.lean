import AerieKernel.AdvisoryLockModel

/-!
# Walks over the lock list of a file

The locks of one owner are disjoint and sorted, which is what the early exit
of `lf_findoverlap` relies on.  Infinity is here the number after the largest
offset, so that ranges are compared as ordinary intervals.  The two conditions
`ClearFits` and `SetFits` exclude the requests for which `lf_end + 1` is not
an offset any more.
-/

namespace AerieKernel.AdvisoryLocks

open List Lockf

def Lockf.last (lf : Lockf) : ℤ :=
  if lf.lfEnd = -1 then 2 ^ 63 else lf.lfEnd

def Lockf.Contains (lf : Lockf) (x : ℤ) : Prop :=
  lf.lfStart ≤ x ∧ x ≤ lf.last

instance (lf : Lockf) (x : ℤ) : Decidable (lf.Contains x) :=
  inferInstanceAs (Decidable (_ ∧ _))

structure Lockf.WF (lf : Lockf) : Prop where
  start_nonneg : 0 ≤ lf.lfStart
  start_le : lf.lfStart ≤ offMax
  finish : lf.lfEnd = -1 ∨ (lf.lfStart ≤ lf.lfEnd ∧ lf.lfEnd ≤ offMax)

variable {lf : Lockf}

theorem Lockf.WF.start_le_last (hlf : lf.WF) : lf.lfStart ≤ lf.last := by
  have hstart := hlf.start_le
  have hfinish := hlf.finish
  unfold last offMax at *
  split_ifs <;> omega

structure ValidList (locks : List Lockf) : Prop where
  wf : ∀ lf ∈ locks, lf.WF
  sorted : locks.Pairwise fun lf lf' =>
    lf.lfId = lf'.lfId → lf.last < lf'.lfStart

def Holds (locks : List Lockf) (owner : Owner) (x : ℤ) (type : LockType) : Prop :=
  ∃ lf ∈ locks, lf.lfId = owner ∧ lf.lfType = type ∧ lf.Contains x

def ClearFits (lock : Lockf) (locks : List Lockf) : Prop :=
  lock.lfEnd = offMax → ∀ lf ∈ locks, lf.lfId = lock.lfId → lf.lfEnd ≠ -1

def SetFits (lock : Lockf) (locks : List Lockf) : Prop :=
  lock.lfEnd = offMax → ∀ lf ∈ locks, lf.lfId = lock.lfId →
    lf.lfEnd = -1 → lf.lfType = lock.lfType ∧ lf.lfStart ≤ lock.lfStart

instance (lock : Lockf) (locks : List Lockf) : Decidable (ClearFits lock locks) :=
  inferInstanceAs (Decidable (_ → ∀ lf ∈ locks, _ → _))

instance (lock : Lockf) (locks : List Lockf) : Decidable (SetFits lock locks) :=
  inferInstanceAs (Decidable (_ → ∀ lf ∈ locks, _ → _ → _))

variable {x : ℤ}

theorem wrapOff_of_mem (hlow : -(2 ^ 63) ≤ x) (hhigh : x ≤ offMax) : wrapOff x = x := by
  unfold offMax at hhigh
  apply Int.bmod_eq_of_le
  · omega
  · omega

@[simp] theorem Lockf.awake_frame (lf : Lockf) : lf.awake.lfStart = lf.lfStart ∧
    lf.awake.lfEnd = lf.lfEnd ∧ lf.awake.lfId = lf.lfId ∧ lf.awake.lfType = lf.lfType :=
  ⟨rfl, rfl, rfl, rfl⟩

variable {type : LockType} {owner : Owner}

@[simp] theorem holds_nil : ¬ Holds [] owner x type := by
  simp [Holds]

variable {locks : List Lockf}

@[simp] theorem holds_cons :
    Holds (lf :: locks) owner x type ↔
      (lf.lfId = owner ∧ lf.lfType = type ∧ lf.Contains x) ∨
        Holds locks owner x type := by
  simp [Holds]

variable {locks' : List Lockf}

@[simp] theorem holds_append :
    Holds (locks ++ locks') owner x type ↔
      Holds locks owner x type ∨ Holds locks' owner x type := by
  simp only [Holds, List.mem_append, or_and_right, exists_or]

theorem validList_cons :
    ValidList (lf :: locks) ↔
      lf.WF ∧ (∀ lf' ∈ locks, lf.lfId = lf'.lfId → lf.last < lf'.lfStart) ∧
        ValidList locks := by
  constructor
  · rintro ⟨hwf, hsorted⟩
    obtain ⟨hlf, hwf⟩ := forall_mem_cons.mp hwf
    obtain ⟨hfirst, hrest⟩ := pairwise_cons.mp hsorted
    exact ⟨hlf, hfirst, hwf, hrest⟩
  · rintro ⟨hlf, hfirst, hrest⟩
    exact ⟨forall_mem_cons.mpr ⟨hlf, hrest.wf⟩, pairwise_cons.mpr ⟨hfirst, hrest.sorted⟩⟩

theorem validList_nil : ValidList [] := ⟨by simp, List.Pairwise.nil⟩

theorem validList_singleton (hlf : lf.WF) : ValidList [lf] :=
  validList_cons.mpr ⟨hlf, by simp, validList_nil⟩

theorem ValidList.append (hleft : ValidList locks) (hright : ValidList locks')
    (hcross : ∀ lf ∈ locks, ∀ lf' ∈ locks', lf.lfId = lf'.lfId → lf.last < lf'.lfStart) :
    ValidList (locks ++ locks') :=
  ⟨forall_mem_append.mpr ⟨hleft.wf, hright.wf⟩,
    pairwise_append.mpr ⟨hleft.sorted, hright.sorted, hcross⟩⟩

theorem ValidList.sublist (hvalid : ValidList locks) (hsub : locks'.Sublist locks) :
    ValidList locks' := ⟨fun lf hlf => hvalid.wf lf (hsub.subset hlf), hvalid.sorted.sublist hsub⟩

/-! ## One round of the search -/

variable {lock : Lockf}

theorem lfFindoverlap_self_cases (hlock : lock.WF) (hlf : lf.WF) (hown : lf.lfId = lock.lfId) :
    (lfFindoverlap .self lock lf = .skip ∧ lf.last < lock.lfStart) ∨
    (lfFindoverlap .self lock lf = .stop ∧ lock.last < lf.lfStart) ∨
    (lfFindoverlap .self lock lf = .same ∧ lf.lfStart = lock.lfStart ∧ lf.lfEnd = lock.lfEnd) ∨
    (lfFindoverlap .self lock lf = .contains ∧ lf.lfStart ≤ lock.lfStart ∧ lock.last ≤ lf.last ∧
      (lf.lfStart < lock.lfStart ∨ lock.last < lf.last)) ∨
    (lfFindoverlap .self lock lf = .contained ∧ lock.lfStart ≤ lf.lfStart ∧ lf.last ≤ lock.last ∧
      (lock.lfStart < lf.lfStart ∨ lf.last < lock.last)) ∨
    (lfFindoverlap .self lock lf = .startsBefore ∧
      lf.lfStart < lock.lfStart ∧ lock.lfStart ≤ lf.last ∧ lf.last < lock.last) ∨
    (lfFindoverlap .self lock lf = .endsAfter ∧ lock.lfStart < lf.lfStart ∧ lf.lfStart ≤ lock.last ∧
      lock.last < lf.last) := by
  obtain ⟨hlockNonneg, hlockStart, hlockFinish⟩ := hlock
  obtain ⟨hlfNonneg, hlfStart, hlfFinish⟩ := hlf
  unfold offMax at *
  unfold lfFindoverlap last
  simp only [hown, ne_eq, not_true_eq_false, reduceCtorEq, false_and, or_self, if_false, true_and]
  split_ifs <;> simp <;> omega

theorem lfFindoverlap_self_other (hother : lf.lfId ≠ lock.lfId) :
    lfFindoverlap .self lock lf = .skip := by
  simp [lfFindoverlap, hother]

def Overlap (lf lf' : Lockf) : Prop :=
  lf.lfStart ≤ lf'.last ∧ lf'.lfStart ≤ lf.last

theorem lfFindoverlap_others_cases (hlock : lock.WF) (hlf : lf.WF) (hother : lf.lfId ≠ lock.lfId) :
    (lfFindoverlap .others lock lf = .skip ∧ ¬ Overlap lock lf) ∨
    (Overlap lock lf ∧ lfFindoverlap .others lock lf ∈
      [.same, .contains, .contained, .startsBefore, .endsAfter]) := by
  obtain ⟨hlockNonneg, hlockStart, hlockFinish⟩ := hlock
  obtain ⟨hlfNonneg, hlfStart, hlfFinish⟩ := hlf
  unfold offMax at *
  unfold lfFindoverlap Overlap last
  simp only [hother, reduceCtorEq, false_and, and_false, or_self, if_false]
  split_ifs <;> simp <;> omega

theorem lfFindoverlap_others_own (hown : lf.lfId = lock.lfId) :
    lfFindoverlap .others lock lf = .skip := by
  simp [lfFindoverlap, hown]

theorem lfGetblock_cons (hlock : lock.WF) (hlf : lf.WF) (rest : List Lockf) :
    (lfGetblock lock (lf :: rest) = some lf ∧ lf.lfId ≠ lock.lfId ∧ Overlap lock lf ∧
      conflicts lock lf) ∨ (lfGetblock lock (lf :: rest) = lfGetblock lock rest ∧
      (lf.lfId ≠ lock.lfId → Overlap lock lf → ¬ conflicts lock lf)) := by
  by_cases hown : lf.lfId = lock.lfId
  · exact .inr ⟨by simp [lfGetblock, lfFindoverlap_others_own hown], fun h => absurd hown h⟩
  · rcases lfFindoverlap_others_cases hlock hlf hown with ⟨hcase, hapart⟩ | ⟨hoverlap, hcase⟩
    · exact .inr ⟨by simp [lfGetblock, hcase], fun _ h => absurd h hapart⟩
    · have hvisit : lfGetblock lock (lf :: rest) =
          if conflicts lock lf then some lf else lfGetblock lock rest := by
        simp only [mem_cons, not_mem_nil, or_false] at hcase
        rcases hcase with h | h | h | h | h <;> simp [lfGetblock, h]
      by_cases hconflict : conflicts lock lf
      · exact .inl ⟨by rw [hvisit, if_pos hconflict], hown, hoverlap, hconflict⟩
      · exact .inr ⟨by rw [hvisit, if_neg hconflict], fun _ _ => hconflict⟩

/-- A lock that has no blocking lock conflicts with no overlapping lock of
another owner, and the blocking lock is such a lock. -/
theorem lfGetblock_spec (hlock : lock.WF) (hwf : ∀ lf ∈ locks, lf.WF) :
    match lfGetblock lock locks with
    | none => ∀ lf ∈ locks, lf.lfId ≠ lock.lfId → Overlap lock lf →
        ¬ conflicts lock lf
    | some block => block ∈ locks ∧ block.lfId ≠ lock.lfId ∧
        Overlap lock block ∧ conflicts lock block := by
  induction locks with
  | nil => simp [lfGetblock]
  | cons lf rest ih =>
    obtain ⟨hlf, hwf⟩ := forall_mem_cons.mp hwf
    rcases lfGetblock_cons hlock hlf rest with ⟨heq, hblocks⟩ | ⟨heq, hfree⟩
    all_goals rw [heq]
    · exact ⟨mem_cons_self, hblocks⟩
    · have hrest := ih hwf
      cases hget : lfGetblock lock rest with rw [hget] at hrest
      | none => exact forall_mem_cons.mpr ⟨hfree, hrest⟩
      | some block => exact ⟨mem_cons_of_mem _ hrest.1, hrest.2⟩

/-! ## Parts of a lock -/

theorem Lockf.WF.endBefore (hlock : lock.WF) (hlf : lf.WF) (hbefore : lf.lfStart < lock.lfStart) :
    (lf.endBefore lock).WF ∧ (lf.endBefore lock).last = lock.lfStart - 1 := by
  have hlockStart := hlock.start_le
  have hlfNonneg := hlf.start_nonneg
  have hend : (lf.endBefore lock).lfEnd = lock.lfStart - 1 := by
    apply wrapOff_of_mem
    · omega
    · omega
  have hstart : (lf.endBefore lock).lfStart = lf.lfStart := rfl
  constructor
  · constructor
    · exact hlfNonneg
    · omega
    · omega
  · rw [last, hend, if_neg (by omega)]

theorem Lockf.WF.startAfter (hlock : lock.WF) (hlf : lf.WF) (hafter : lock.last < lf.last)
    (hroom : lock.lfEnd ≠ offMax) :
    (lf.startAfter lock).WF ∧
      (lf.startAfter lock).lfStart = lock.last + 1 ∧
      (lf.startAfter lock).last = lf.last := by
  obtain ⟨hlockNonneg, -, hlockFinish⟩ := hlock
  obtain ⟨hlfNonneg, hlfStart, hlfFinish⟩ := hlf
  have hfinite : lock.lfEnd ≠ -1 := by
    intro hinf
    unfold last offMax at *
    split_ifs at hafter <;> omega
  have hlockLast : lock.last = lock.lfEnd := by
    rw [last, if_neg hfinite]
  have hstart : (lf.startAfter lock).lfStart = lock.last + 1 := by
    rw [hlockLast]
    apply wrapOff_of_mem <;> omega
  have hlast : (lf.startAfter lock).last = lf.last := rfl
  have hend : (lf.startAfter lock).lfEnd = lf.lfEnd := rfl
  refine ⟨⟨?_, ?_, ?_⟩, hstart, hlast⟩
  · omega
  · omega
  · rcases hlfFinish with hinf | hfin
    · exact .inl hinf
    · refine .inr ⟨?_, hfin.2⟩
      have hlfLast : lf.last = lf.lfEnd := by
        rw [last, if_neg (by omega)]
      omega

def FrontPart (lock lf : Lockf) (front : List Lockf) : Prop :=
  front = [] ∧ lock.lfStart ≤ lf.lfStart ∨ front = [lf.endBefore lock] ∧ lf.lfStart < lock.lfStart

def BackPart (lock lf : Lockf) (back : List Lockf) : Prop :=
  back = [] ∧ lf.last ≤ lock.last ∨
    lock.last < lf.last ∧ ∃ addr, back = [{ lf.startAfter lock with addr := addr }]

theorem lfSplit_parts (fresh : ℕ) (hlock : lock.WF) (hlf : lf.WF)
    (hstart : lf.lfStart ≤ lock.lfStart) (hlast : lock.last ≤ lf.last)
    (hproper : lf.lfStart < lock.lfStart ∨ lock.last < lf.last) :
    FrontPart lock lf (lfSplit fresh lf.awake lock).1 ∧
      BackPart lock lf (lfSplit fresh lf.awake lock).2 := by
  obtain ⟨hlockNonneg, -, hlockFinish⟩ := hlock
  obtain ⟨hlfNonneg, -, hlfFinish⟩ := hlf
  have hlastEq : lf.lfEnd = lock.lfEnd ↔ lf.last = lock.last := by
    unfold last offMax at *
    split_ifs <;> omega
  unfold lfSplit
  by_cases hsame : lf.lfStart = lock.lfStart
  · rw [if_pos (by simpa using hsame)]
    exact ⟨.inl ⟨rfl, hsame.ge⟩, .inr ⟨by omega, lf.addr, rfl⟩⟩
  · rw [if_neg (by simpa using hsame)]
    by_cases hend : lf.lfEnd = lock.lfEnd
    · rw [if_pos (by simpa using hend)]
      exact ⟨.inr ⟨rfl, by omega⟩, .inl ⟨rfl, (hlastEq.mp hend).le⟩⟩
    · rw [if_neg (by simpa using hend)]
      exact ⟨.inr ⟨rfl, by omega⟩, .inr ⟨by omega, fresh, rfl⟩⟩

/-! ## Clearing a range -/

structure Parts (lock lf : Lockf) (parts : List Lockf) : Prop where
  valid : ValidList parts
  inside : ∀ part ∈ parts, part.lfId = lf.lfId ∧ lf.lfStart ≤ part.lfStart ∧ part.last ≤ lf.last
  holds : ∀ owner x type, Holds parts owner x type ↔
    (lf.lfId = owner ∧ lf.lfType = type ∧ lf.Contains x) ∧ ¬ (owner = lock.lfId ∧ lock.Contains x)

structure Cleared (lock : Lockf) (locks locks' : List Lockf) : Prop where
  valid : ValidList locks'
  stems : ∀ lf' ∈ locks', ∃ lf ∈ locks, lf.lfId = lf'.lfId ∧ lf.lfStart ≤ lf'.lfStart
  holds : ∀ owner x type, Holds locks' owner x type ↔
    Holds locks owner x type ∧ ¬ (owner = lock.lfId ∧ lock.Contains x)

theorem Cleared.cons {parts : List Lockf} (hvalid : ValidList (lf :: locks))
    (hparts : Parts lock lf parts) (hcleared : Cleared lock locks locks') :
    Cleared lock (lf :: locks) (parts ++ locks') := by
  obtain ⟨_, hfirst, _⟩ := validList_cons.mp hvalid
  constructor
  · apply hparts.valid.append hcleared.valid
    intro part hpart lf' hlf' hid
    obtain ⟨horigin, _, hlast⟩ := hparts.inside part hpart
    obtain ⟨source, hsource, hsourceId, hsourceStart⟩ := hcleared.stems lf' hlf'
    have hafter := hfirst source hsource (by rw [← horigin, hid, hsourceId])
    omega
  · intro lf' hlf'
    rcases List.mem_append.mp hlf' with hlf' | hlf'
    · obtain ⟨hid, hstart, _⟩ := hparts.inside lf' hlf'
      exact ⟨lf, by simp, hid.symm, hstart⟩
    · obtain ⟨source, hsource, hbounds⟩ := hcleared.stems lf' hlf'
      exact ⟨source, by simp [hsource], hbounds⟩
  · intro owner x type
    rw [holds_append, holds_cons, hparts.holds, hcleared.holds]
    tauto

theorem cleared_of_beyond (hvalid : ValidList locks)
    (hbeyond : ∀ lf ∈ locks, lf.lfId = lock.lfId → lock.last < lf.lfStart) :
    Cleared lock locks locks := by
  refine ⟨hvalid, fun lf hlf => ⟨lf, hlf, rfl, le_refl _⟩, ?_⟩
  intro owner x type
  refine (and_iff_left_of_imp ?_).symm
  rintro ⟨lf, hlf, hid, _, hcontains⟩ ⟨howner, hin⟩
  have hafter := hbeyond lf hlf (by rw [hid, howner])
  exact (hafter.trans_le hcontains.1).not_ge hin.2

theorem parts_of_apart (hlf : lf.WF)
    (hapart : lf.lfId = lock.lfId → lf.last < lock.lfStart ∨ lock.last < lf.lfStart) :
    Parts lock lf [lf] := by
  refine ⟨validList_singleton hlf, by simp, ?_⟩
  intro owner x type
  simp only [holds_cons, holds_nil, or_false, Lockf.Contains]
  refine (and_iff_left_of_imp ?_).symm
  rintro ⟨hid, _, hin⟩ ⟨howner, hlockIn⟩
  have hsplit := hapart (by rw [hid, howner])
  omega

variable {front : List Lockf}

theorem FrontPart.spec (hlock : lock.WF) (hlf : lf.WF) (hfront : FrontPart lock lf front) :
    ValidList front ∧
      (∀ part ∈ front, part.lfId = lf.lfId ∧ lf.lfStart = part.lfStart ∧ part.last < lock.lfStart) ∧
      ∀ owner x type, Holds front owner x type ↔
        (lf.lfId = owner ∧ lf.lfType = type ∧ lf.lfStart ≤ x ∧ x < lock.lfStart) := by
  rcases hfront with ⟨rfl, hstart⟩ | ⟨rfl, hbefore⟩
  · refine ⟨validList_nil, by simp, ?_⟩
    intro owner x type
    simp only [holds_nil, false_iff]
    omega
  · obtain ⟨hwf, hend⟩ := Lockf.WF.endBefore hlock hlf hbefore
    refine ⟨validList_singleton hwf, ?_, ?_⟩
    · simp only [mem_singleton, forall_eq]
      exact ⟨rfl, rfl, by omega⟩
    · intro owner x type
      simp only [holds_cons, holds_nil, or_false, Lockf.Contains, hend]
      change lf.lfId = owner ∧ lf.lfType = type ∧ lf.lfStart ≤ x ∧ x ≤ lock.lfStart - 1 ↔ _
      rw [Int.le_sub_one_iff]

variable {back : List Lockf}

theorem BackPart.spec (hlock : lock.WF) (hlf : lf.WF)
    (hroom : lock.last < lf.last → lock.lfEnd ≠ offMax) (hback : BackPart lock lf back) :
    ValidList back ∧
      (∀ part ∈ back, part.lfId = lf.lfId ∧ lock.last < part.lfStart ∧ part.last = lf.last) ∧
      ∀ owner x type, Holds back owner x type ↔
        (lf.lfId = owner ∧ lf.lfType = type ∧ lock.last < x ∧ x ≤ lf.last) := by
  rcases hback with ⟨rfl, hlast⟩ | ⟨hafter, addr, rfl⟩
  · refine ⟨validList_nil, by simp, ?_⟩
    intro owner x type
    simp only [holds_nil, false_iff]
    omega
  · obtain ⟨hwf, hbegin, hlast⟩ := Lockf.WF.startAfter hlock hlf hafter (hroom hafter)
    refine ⟨validList_singleton { hwf with }, ?_, ?_⟩
    · simp only [mem_singleton, forall_eq]
      exact ⟨rfl, by omega, hlast⟩
    · intro owner x type
      simp only [holds_cons, holds_nil, or_false, hbegin]
      change lf.lfId = owner ∧ lf.lfType = type ∧ lock.last + 1 ≤ x ∧ x ≤ lf.last ↔ _
      rw [Int.add_one_le_iff]

theorem parts_of_cut (hlock : lock.WF) (hlf : lf.WF) (hown : lf.lfId = lock.lfId)
    (hoverlap : lock.lfStart ≤ lf.last ∧ lf.lfStart ≤ lock.last)
    (hroom : lock.last < lf.last → lock.lfEnd ≠ offMax) (hfront : FrontPart lock lf front)
    (hback : BackPart lock lf back) : Parts lock lf (front ++ back) := by
  obtain ⟨hfrontValid, hfrontIn, hfrontHolds⟩ := hfront.spec hlock hlf
  obtain ⟨hbackValid, hbackIn, hbackHolds⟩ := hback.spec hlock hlf hroom
  have hordered := hlock.start_le_last
  constructor
  · apply hfrontValid.append hbackValid
    intro part hpart part' hpart' _
    have hbefore := (hfrontIn part hpart).2.2
    have hbehind := (hbackIn part' hpart').2.1
    omega
  · refine forall_mem_append.mpr ⟨fun part hpart => ?_, fun part hpart => ?_⟩
    · obtain ⟨hid, hstart, hlast⟩ := hfrontIn part hpart
      exact ⟨hid, hstart.le, by omega⟩
    · obtain ⟨hid, hstart, hlast⟩ := hbackIn part hpart
      exact ⟨hid, by omega, hlast.le⟩
  · intro owner x type
    rw [holds_append, hfrontHolds, hbackHolds, ← hown]
    unfold Lockf.Contains
    constructor
    · rintro (⟨hid, htype, hin⟩ | ⟨hid, htype, hin⟩)
      · exact ⟨⟨hid, htype, by omega⟩, by omega⟩
      · exact ⟨⟨hid, htype, by omega⟩, by omega⟩
    · rintro ⟨⟨hid, htype, hin⟩, hout⟩
      by_cases hbefore : x < lock.lfStart
      · exact .inl ⟨hid, htype, hin.1, hbefore⟩
      · refine .inr ⟨hid, htype, ?_, hin.2⟩
        by_contra hinside
        exact hout ⟨hid.symm, by omega⟩

theorem room_of_finite (hlf : lf.WF) (hfinite : lock.lfEnd = offMax → lf.lfEnd ≠ -1)
    (hafter : lock.last < lf.last) : lock.lfEnd ≠ offMax := by
  intro hmax
  have hlfFinish := hlf.finish
  unfold last at hafter
  omega

theorem beyond_of_reach (hvalid : ValidList (lf :: locks)) (hown : lf.lfId = lock.lfId)
    (hreach : lock.last ≤ lf.last) :
    ∀ lf' ∈ locks, lf'.lfId = lock.lfId → lock.last < lf'.lfStart := by
  intro lf' hlf' hid
  have hafter := (validList_cons.mp hvalid).2.1 lf' hlf' (by rw [hown, hid])
  omega

theorem behind_of_reach (hvalid : ValidList (lf :: locks)) (hown : lf.lfId = lock.lfId)
    (hreach : lock.lfStart ≤ lf.last) :
    ∀ lf' ∈ locks, lf'.lfId = lock.lfId → lock.lfStart < lf'.lfStart := by
  intro lf' hlf' hid
  exact hreach.trans_lt ((validList_cons.mp hvalid).2.1 lf' hlf' (by rw [hown, hid]))

theorem beyond_of_stop (hvalid : ValidList (lf :: locks)) (hown : lf.lfId = lock.lfId)
    (hstop : lock.last < lf.lfStart) :
    ∀ lf' ∈ lf :: locks, lf'.lfId = lock.lfId → lock.last < lf'.lfStart := by
  have hordered := (validList_cons.mp hvalid).1.start_le_last
  exact forall_mem_cons.mpr ⟨fun _ => hstop, beyond_of_reach hvalid hown (hstop.le.trans hordered)⟩

theorem ClearFits.tail (hfits : ClearFits lock (lf :: locks)) : ClearFits lock locks :=
  fun hmax lf' hlf' => hfits hmax lf' (by simp [hlf'])

theorem lfClearlock_cleared (fresh : ℕ) (hlock : lock.WF) (hvalid : ValidList locks)
    (hfits : ClearFits lock locks) : Cleared lock locks (lfClearlock fresh lock locks).locks := by
  induction locks with
  | nil => exact ⟨hvalid, by simp [lfClearlock, Edit.leave], by
      simp [lfClearlock, Edit.leave]⟩
  | cons lf rest ih =>
    obtain ⟨hlf, -, hrest⟩ := validList_cons.mp hvalid
    have hcleared := ih hrest hfits.tail
    by_cases hown : lf.lfId = lock.lfId
    · have hroom : lock.last < lf.last → lock.lfEnd ≠ offMax :=
        room_of_finite hlf fun hmax => hfits hmax lf (by simp) hown
      have hordered := hlock.start_le_last
      have hlfOrdered := hlf.start_le_last
      have hend : lock.last ≤ lf.last → Cleared lock rest rest :=
        fun hreach => cleared_of_beyond hrest (beyond_of_reach hvalid hown hreach)
      unfold lfClearlock
      rcases lfFindoverlap_self_cases hlock hlf hown with
        ⟨hcase, hrange⟩ | ⟨hcase, hrange⟩ | ⟨hcase, hstart, hfinish⟩ |
        ⟨hcase, hstart, hlast, hproper⟩ | ⟨hcase, hstart, hlast, _⟩ |
        ⟨hcase, hstart, hreach, hlast⟩ | ⟨hcase, hstart, hreach, hlast⟩
      all_goals rw [hcase]
      · exact hcleared.cons hvalid (parts_of_apart hlf fun _ => .inl hrange)
      · exact cleared_of_beyond hvalid (beyond_of_stop hvalid hown hrange)
      · have hsame : lf.last = lock.last := by
          rw [last, last, hfinish]
        exact (hend hsame.ge).cons hvalid (parts_of_cut hlock hlf hown
          (by omega) hroom (.inl ⟨rfl, hstart.ge⟩) (.inl ⟨rfl, hsame.le⟩))
      · obtain ⟨hfront, hback⟩ := lfSplit_parts fresh hlock hlf hstart hlast hproper
        exact (hend hlast).cons hvalid (parts_of_cut hlock hlf hown (by omega) hroom hfront hback)
      · exact hcleared.cons hvalid (parts_of_cut hlock hlf hown
          (by omega) hroom (.inl ⟨rfl, hstart⟩) (.inl ⟨rfl, hlast⟩))
      · exact hcleared.cons hvalid (parts_of_cut hlock hlf hown
          (by omega) hroom (.inr ⟨rfl, hstart⟩) (.inl ⟨rfl, hlast.le⟩))
      · exact (hend hlast.le).cons hvalid (parts_of_cut hlock hlf hown
          (by omega) hroom (.inl ⟨rfl, hstart.le⟩) (.inr ⟨hlast, lf.addr, rfl⟩))
    · unfold lfClearlock
      rw [lfFindoverlap_self_other hown]
      exact hcleared.cons hvalid (parts_of_apart hlf fun h => absurd h hown)

/-! ## Setting a range -/

structure SameLock (lock lock' : Lockf) : Prop where
  addr : lock'.addr = lock.addr
  lfStart : lock'.lfStart = lock.lfStart
  lfEnd : lock'.lfEnd = lock.lfEnd
  lfId : lock'.lfId = lock.lfId
  lfFlags : lock'.lfFlags = lock.lfFlags
  lfType : lock'.lfType = lock.lfType

theorem SameLock.refl (lock : Lockf) : SameLock lock lock :=
  ⟨rfl, rfl, rfl, rfl, rfl, rfl⟩

variable {lock' : Lockf}

theorem SameLock.trans {lock'' : Lockf} (hfirst : SameLock lock lock')
    (hsecond : SameLock lock' lock'') : SameLock lock lock'' :=
  ⟨hsecond.addr.trans hfirst.addr, hsecond.lfStart.trans hfirst.lfStart,
    hsecond.lfEnd.trans hfirst.lfEnd, hsecond.lfId.trans hfirst.lfId,
    hsecond.lfFlags.trans hfirst.lfFlags, hsecond.lfType.trans hfirst.lfType⟩

theorem sameLock_takeList (lock lf : Lockf) : SameLock lock (lock.takeList lf) := by
  unfold Lockf.takeList
  split_ifs <;> exact ⟨rfl, rfl, rfl, rfl, rfl, rfl⟩

section

variable (hsame : SameLock lock lock')
include hsame

theorem SameLock.last : lock'.last = lock.last := by
  rw [Lockf.last, Lockf.last, hsame.lfEnd]

theorem SameLock.wf (hlock : lock.WF) : lock'.WF := by
  constructor
  · rw [hsame.lfStart]
    exact hlock.start_nonneg
  · rw [hsame.lfStart]
    exact hlock.start_le
  · rw [hsame.lfStart, hsame.lfEnd]
    exact hlock.finish

theorem SameLock.cleared (hcleared : Cleared lock' locks locks') : Cleared lock locks locks' := by
  refine ⟨hcleared.valid, hcleared.stems, ?_⟩
  intro owner x type
  rw [hcleared.holds, hsame.lfId, Lockf.Contains, hsame.lfStart, hsame.last]
  rfl

theorem SameLock.setFits (hfits : SetFits lock locks) : SetFits lock' locks := by
  unfold SetFits at hfits ⊢
  rw [hsame.lfEnd, hsame.lfId, hsame.lfType, hsame.lfStart]
  exact hfits

end

theorem SetFits.tail (hfits : SetFits lock (lf :: locks)) : SetFits lock locks :=
  fun hmax lf' hlf' => hfits hmax lf' (by simp [hlf'])

theorem cleared_startAfter (hlock : lock.WF) (hvalid : ValidList (lf :: locks))
    (hfits : SetFits lock (lf :: locks)) (hown : lf.lfId = lock.lfId)
    (hstart : lock.lfStart < lf.lfStart) (hreach : lf.lfStart ≤ lock.last)
    (hlast : lock.last < lf.last) :
    Cleared lock (lf :: locks) (lf.startAfter lock :: locks) ∧
      ∀ lf' ∈ lf.startAfter lock :: locks, lf'.lfId = lock.lfId → lock.last < lf'.lfStart := by
  obtain ⟨hlf, -, hrest⟩ := validList_cons.mp hvalid
  have hbeyond := beyond_of_reach hvalid hown hlast.le
  have hroom : lock.last < lf.last → lock.lfEnd ≠ offMax := by
    apply room_of_finite hlf
    intro hmax hinf
    have hleft := (hfits hmax lf (by simp) hown hinf).2
    omega
  refine ⟨(cleared_of_beyond hrest hbeyond).cons hvalid (parts_of_cut hlock hlf hown (by omega)
    hroom (.inl ⟨rfl, hstart.le⟩) (.inr ⟨hlast, lf.addr, rfl⟩)), ?_⟩
  have hnew := (Lockf.WF.startAfter hlock hlf hlast (hroom hlast)).2.1
  exact forall_mem_cons.mpr ⟨fun _ => by omega, hbeyond⟩

theorem lfSetlockLinked_cleared (fresh : ℕ) (passed : List Lockf) {rest : List Lockf}
    (hlock : lock.WF) (hvalid : ValidList rest) (hfits : SetFits lock rest)
    (hbehind : ∀ lf ∈ rest, lf.lfId = lock.lfId → lock.lfStart < lf.lfStart) :
    ∃ lock' back,
      (lfSetlockLinked fresh lock passed rest).locks = lock' :: (passed ++ back) ∧
      SameLock lock lock' ∧ Cleared lock rest back ∧
      ∀ lf ∈ back, lf.lfId = lock.lfId → lock.last < lf.lfStart := by
  induction rest generalizing lock passed with
  | nil =>
    refine ⟨lock, [], by simp [lfSetlockLinked, Edit.leave], SameLock.refl lock, ?_, by simp⟩
    exact cleared_of_beyond hvalid (by simp)
  | cons lf rest ih =>
    obtain ⟨hlf, -, hrest⟩ := validList_cons.mp hvalid
    obtain ⟨hbegin, hbehind⟩ := forall_mem_cons.mp hbehind
    by_cases hown : lf.lfId = lock.lfId
    · have hbegin := hbegin hown
      have hlfOrdered := hlf.start_le_last
      unfold lfSetlockLinked
      rcases lfFindoverlap_self_cases hlock hlf hown with
        ⟨hcase, hrange⟩ | ⟨hcase, hrange⟩ | ⟨hcase, hstart, _⟩ |
        ⟨hcase, hstart, _⟩ | ⟨hcase, hstart, hlast, _⟩ |
        ⟨hcase, hstart, _⟩ | ⟨hcase, hstart, hreach, hlast⟩
      all_goals rw [hcase]
      · omega
      · have hbeyond := beyond_of_stop hvalid hown hrange
        exact ⟨lock, lf :: rest, rfl, SameLock.refl lock, cleared_of_beyond hvalid hbeyond, hbeyond⟩
      · omega
      · omega
      · have htake := sameLock_takeList lock lf
        obtain ⟨lock', back, hlocks, hsame, hcleared, hbeyond⟩ :=
          @ih (lock.takeList lf) passed (htake.wf hlock) hrest (htake.setFits hfits.tail)
            (by rw [htake.lfId, htake.lfStart]; exact hbehind)
        refine ⟨lock', back, ?_, htake.trans hsame, ?_, ?_⟩
        · unfold Edit.takeList
          split_ifs <;> exact hlocks
        · exact (htake.cleared hcleared).cons hvalid
            (parts_of_cut hlock hlf hown (by omega) (by omega)
              (.inl ⟨rfl, hstart⟩) (.inl ⟨rfl, hlast⟩))
        · rw [← htake.last, ← htake.lfId]
          exact hbeyond
      · omega
      · exact ⟨lock, lf.startAfter lock :: rest, rfl, SameLock.refl lock,
          cleared_startAfter hlock hvalid hfits hown hstart hreach hlast⟩
    · obtain ⟨lock', back, hlocks, hsame, hcleared, hbeyond⟩ :=
        @ih lock (passed ++ [lf]) hlock hrest hfits.tail hbehind
      unfold lfSetlockLinked
      rw [lfFindoverlap_self_other hown]
      refine ⟨lock', lf :: back, by simpa using hlocks, hsame, ?_, ?_⟩
      · exact hcleared.cons hvalid (parts_of_apart hlf fun h => absurd h hown)
      · exact forall_mem_cons.mpr ⟨fun hid => absurd hid hown, hbeyond⟩

/-- The three ways in which a lock is set: it is linked into the list with
its range cleared, a lock of the same range takes its type, or a lock of the
same type contains it already. -/
inductive SetShape (lock : Lockf) (locks locks' : List Lockf) : Prop where
  | linked (front : List Lockf) (lock' : Lockf) (back : List Lockf)
      (hlocks : locks' = front ++ lock' :: back)
      (hsame : SameLock lock lock')
      (hcleared : Cleared lock locks (front ++ back))
      (hfront : ∀ lf ∈ front, lf.lfId = lock.lfId → lf.last < lock.lfStart)
      (hback : ∀ lf ∈ back, lf.lfId = lock.lfId → lock.last < lf.lfStart)
  | retyped (front : List Lockf) (lf : Lockf) (back : List Lockf)
      (hbefore : locks = front ++ lf :: back)
      (hlocks : locks' = front ++ lf.retype lock :: back)
      (hown : lf.lfId = lock.lfId)
      (hrange : lf.lfStart = lock.lfStart ∧ lf.lfEnd = lock.lfEnd)
  | kept (lf : Lockf) (hlocks : locks' = locks) (hmem : lf ∈ locks)
      (hown : lf.lfId = lock.lfId) (htype : lf.lfType = lock.lfType)
      (hrange : lf.lfStart ≤ lock.lfStart ∧ lock.last ≤ lf.last)

theorem SetShape.cons (hvalid : ValidList (lf :: locks))
    (hbefore : lf.lfId = lock.lfId → lf.last < lock.lfStart) (hshape : SetShape lock locks locks') :
    SetShape lock (lf :: locks) (lf :: locks') := by
  obtain ⟨hlf, _, _⟩ := validList_cons.mp hvalid
  cases hshape with
  | linked front lock' back hlocks hsame hcleared hfront hback =>
    refine .linked (lf :: front) lock' back (by simp [hlocks]) hsame ?_
      (forall_mem_cons.mpr ⟨hbefore, hfront⟩) hback
    rw [cons_append]
    exact hcleared.cons hvalid (parts_of_apart hlf fun h => .inl (hbefore h))
  | retyped front lf' back hlist hlocks hown hrange =>
    exact .retyped (lf :: front) lf' back (by simp [hlist]) (by simp [hlocks]) hown hrange
  | kept lf' hlocks hmem hown htype hrange =>
    exact .kept lf' (by rw [hlocks]) (by simp [hmem]) hown htype hrange

theorem lfSetlockWalk_shape (fresh : ℕ) (hlock : lock.WF) (hvalid : ValidList locks)
    (hfits : SetFits lock locks) : SetShape lock locks (lfSetlockWalk fresh lock locks).locks := by
  induction locks with
  | nil =>
    exact .linked [] lock [] rfl (SameLock.refl lock)
      (cleared_of_beyond hvalid (by simp)) (by simp) (by simp)
  | cons lf rest ih =>
    obtain ⟨hlf, -, hrest⟩ := validList_cons.mp hvalid
    by_cases hown : lf.lfId = lock.lfId
    · have hordered := hlock.start_le_last
      have hlfOrdered := hlf.start_le_last
      unfold lfSetlockWalk
      rcases lfFindoverlap_self_cases hlock hlf hown with
        ⟨hcase, hrange⟩ | ⟨hcase, hrange⟩ | ⟨hcase, hstart, hfinish⟩ |
        ⟨hcase, hstart, hlast, hproper⟩ | ⟨hcase, hstart, hlast, _⟩ |
        ⟨hcase, hstart, hreach, hlast⟩ | ⟨hcase, hstart, hreach, hlast⟩
      all_goals rw [hcase]
      · exact (ih hrest hfits.tail).cons hvalid fun _ => hrange
      · have hall := beyond_of_stop hvalid hown hrange
        exact .linked [] lock (lf :: rest) rfl (SameLock.refl lock)
          (cleared_of_beyond hvalid hall) (by simp) hall
      · refine .retyped [] lf rest rfl ?_ hown ⟨hstart, hfinish⟩
        split_ifs <;> rfl
      · dsimp only
        split_ifs with htype
        · exact .kept lf rfl (by simp) hown htype ⟨hstart, hlast⟩
        · have hroom : lock.last < lf.last → lock.lfEnd ≠ offMax :=
            room_of_finite hlf fun hmax hinf =>
              htype (hfits hmax lf (by simp) hown hinf).1
          obtain ⟨hfront, hback⟩ := lfSplit_parts fresh hlock hlf hstart hlast hproper
          set front := (lfSplit fresh lf.awake lock).1
          set back := (lfSplit fresh lf.awake lock).2
          have hparts := parts_of_cut hlock hlf hown (by omega) hroom hfront hback
          have hbeyond := beyond_of_reach hvalid hown hlast
          have hcleared := (cleared_of_beyond hrest hbeyond).cons hvalid hparts
          refine .linked front lock (back ++ rest) (by simp [Edit.leave, Edit.charge, Edit.wake])
            (SameLock.refl lock) (by simpa using hcleared) ?_ ?_
          · intro lf' hlf' _
            exact ((hfront.spec hlock hlf).2.1 lf' hlf').2.2
          · exact forall_mem_append.mpr
              ⟨fun lf' hlf' _ => ((hback.spec hlock hlf hroom).2.1 lf' hlf').2.1, hbeyond⟩
      · have htake := sameLock_takeList lock lf
        obtain ⟨lock', back, hlocks, hsame, hcleared, hback⟩ :=
          lfSetlockLinked_cleared fresh [] (htake.wf hlock) hrest (htake.setFits hfits.tail)
            (by rw [htake.lfId, htake.lfStart]; exact behind_of_reach hvalid hown (by omega))
        refine .linked [] lock' back ?_ (htake.trans hsame) ?_ (by simp) ?_
        · unfold Edit.takeList
          split_ifs <;> exact hlocks
        · exact (htake.cleared hcleared).cons hvalid
            (parts_of_cut hlock hlf hown (by omega) (by omega)
              (.inl ⟨rfl, hstart⟩) (.inl ⟨rfl, hlast⟩))
        · rw [← htake.last, ← htake.lfId]
          exact hback
      · obtain ⟨lock', back, hlocks, hsame, hcleared, hback⟩ :=
          lfSetlockLinked_cleared fresh [] hlock hrest hfits.tail
            (behind_of_reach hvalid hown hreach)
        refine .linked [lf.endBefore lock] lock' back ?_ hsame ?_ ?_ hback
        · exact congrArg (lf.endBefore lock :: ·) hlocks
        · exact hcleared.cons hvalid (parts_of_cut hlock hlf hown
            (by omega) (by omega) (.inr ⟨rfl, hstart⟩) (.inl ⟨rfl, hlast.le⟩))
        · simp only [mem_singleton, forall_eq]
          intro _
          have hend := (Lockf.WF.endBefore hlock hlf hstart).2
          omega
      · obtain ⟨hcleared, hbeyond⟩ := cleared_startAfter hlock hvalid hfits hown hstart hreach hlast
        exact .linked [] lock (lf.startAfter lock :: rest) rfl (SameLock.refl lock) hcleared
          (by simp) hbeyond
    · unfold lfSetlockWalk
      rw [lfFindoverlap_self_other hown]
      exact (ih hrest hfits.tail).cons hvalid fun h => absurd h hown

/-- The list after `lock` has been set: its owner holds its type on its
range, and nothing else has changed. -/
structure Assigned (lock : Lockf) (locks locks' : List Lockf) : Prop where
  valid : ValidList locks'
  holds : ∀ owner x type, Holds locks' owner x type ↔
    (owner = lock.lfId ∧ lock.Contains x ∧ type = lock.lfType) ∨
      (Holds locks owner x type ∧ ¬ (owner = lock.lfId ∧ lock.Contains x))

theorem validList_insert (hlock : lock.WF) (hvalid : ValidList (front ++ back))
    (hfront : ∀ lf ∈ front, lf.lfId = lock.lfId → lf.last < lock.lfStart)
    (hback : ∀ lf ∈ back, lf.lfId = lock.lfId → lock.last < lf.lfStart) :
    ValidList (front ++ lock :: back) := by
  obtain ⟨-, -, hcross⟩ := pairwise_append.mp hvalid.sorted
  apply (hvalid.sublist (sublist_append_left ..)).append (validList_cons.mpr
    ⟨hlock, fun lf hlf hid => hback lf hlf hid.symm, hvalid.sublist (sublist_append_right ..)⟩)
  intro lf hlf
  exact forall_mem_cons.mpr ⟨hfront lf hlf, hcross lf hlf⟩

theorem ValidList.unique {lf' : Lockf} (hvalid : ValidList (front ++ lf :: back))
    (hlf' : lf' ∈ front ++ back) (hid : lf'.lfId = lf.lfId)
    (hin : lf.Contains x) : ¬ lf'.Contains x := by
  obtain ⟨_, hright, hcross⟩ := pairwise_append.mp hvalid.sorted
  unfold Lockf.Contains at *
  rcases List.mem_append.mp hlf' with hmem | hmem
  · have hbefore := hcross lf' hmem lf (by simp) hid
    omega
  · have hafter := (pairwise_cons.mp hright).1 lf' hmem hid.symm
    omega

@[simp] theorem Lockf.retype_lfStart (lf lock : Lockf) : (lf.retype lock).lfStart = lf.lfStart := by
  unfold retype
  split_ifs <;> rfl

@[simp] theorem Lockf.retype_lfEnd (lf lock : Lockf) : (lf.retype lock).lfEnd = lf.lfEnd := by
  unfold retype
  split_ifs <;> rfl

@[simp] theorem Lockf.retype_lfId (lf lock : Lockf) : (lf.retype lock).lfId = lf.lfId := by
  unfold retype
  split_ifs <;> rfl

@[simp] theorem Lockf.retype_lfType (lf lock : Lockf) : (lf.retype lock).lfType = lock.lfType := by
  unfold retype
  split_ifs <;> rfl

theorem holds_of_holder {lf' : Lockf} (hvalid : ValidList (front ++ lf :: back))
    (hown : lf.lfId = lock.lfId) (hid : lf'.lfId = lock.lfId)
    (hcovers : ∀ x, lock.Contains x → lf.Contains x) (hsame : ∀ x, lf'.Contains x ↔ lf.Contains x)
    (htype : lf'.lfType = lock.lfType)
    (hrest : lf.lfType = lock.lfType ∨ ∀ x, lf.Contains x → lock.Contains x) (owner : Owner) (x : ℤ)
    (type : LockType) :
    Holds (front ++ lf' :: back) owner x type ↔
      (owner = lock.lfId ∧ lock.Contains x ∧ type = lock.lfType) ∨
        (Holds (front ++ lf :: back) owner x type ∧ ¬ (owner = lock.lfId ∧ lock.Contains x)) := by
  have halone : owner = lock.lfId → lf.Contains x → ¬ Holds (front ++ back) owner x type := by
    rintro howner hin ⟨other, hother, hotherId, _, hotherIn⟩
    exact hvalid.unique hother (by rw [hotherId, howner, hown]) hin hotherIn
  rw [holds_append] at halone
  simp only [holds_append, holds_cons, hown, hid, htype, hsame x]
  by_cases howner : owner = lock.lfId
  · by_cases hin : lock.Contains x
    · have hlfIn := hcovers x hin
      tauto
    · have hlfType : lf.Contains x → lf.lfType = lock.lfType :=
        fun hlfIn => hrest.resolve_right fun h => hin (h x hlfIn)
      simp only [hin, false_and, and_false, false_or, not_false_eq_true, and_true]
      by_cases hlfIn : lf.Contains x
      · rw [hlfType hlfIn]
      · simp [hlfIn]
  · simp only [howner, Ne.symm howner, false_and, false_or, not_false_eq_true, and_true]

theorem SetShape.assigned (hlock : lock.WF) (hvalid : ValidList locks)
    (hshape : SetShape lock locks locks') : Assigned lock locks locks' := by
  cases hshape with
  | linked front lock' back hlocks hsame hcleared hfront hback =>
    subst hlocks
    constructor
    · apply validList_insert (hsame.wf hlock) hcleared.valid
      · rw [hsame.lfId, hsame.lfStart]
        exact hfront
      · rw [hsame.lfId, hsame.last]
        exact hback
    · intro owner x type
      have hrest := hcleared.holds owner x type
      have hnew : lock'.Contains x ↔ lock.Contains x := by
        rw [Lockf.Contains, hsame.lfStart, hsame.last, Lockf.Contains]
      rw [holds_append] at hrest
      rw [holds_append, holds_cons, hsame.lfId, hsame.lfType, eq_comm (a := lock.lfType)]
      tauto
  | retyped front lf back hbefore hlocks hown hrange =>
    subst hbefore hlocks
    have hlast : lf.last = lock.last := by
      rw [last, last, hrange.2]
    have hnewLast : (lf.retype lock).last = lf.last := by
      rw [last, last, retype_lfEnd]
    have hcontains : ∀ x, lock.Contains x ↔ lf.Contains x := by
      intro x
      rw [Lockf.Contains, Lockf.Contains, hrange.1, hlast]
    constructor
    · obtain ⟨_, hright, hcross⟩ := pairwise_append.mp hvalid.sorted
      have hlf := hvalid.wf lf (by simp)
      have hkept : ValidList (front ++ back) :=
        hvalid.sublist ((sublist_cons_self lf back).append_left front)
      apply validList_insert _ hkept
      · intro lf' hlf' hid
        rw [retype_lfStart]
        exact hcross lf' hlf' lf (by simp) (by simpa using hid)
      · intro lf' hlf' hid
        rw [hnewLast]
        exact (pairwise_cons.mp hright).1 lf' hlf' (by simpa using hid.symm)
      · exact ⟨by simpa using hlf.start_nonneg,
          by simpa using hlf.start_le, by simpa using hlf.finish⟩
    · apply holds_of_holder hvalid hown (by simp [hown])
      · exact fun x => (hcontains x).mp
      · intro x
        rw [Lockf.Contains, Lockf.Contains, hnewLast, retype_lfStart]
      · exact retype_lfType lf lock
      · exact .inr fun x => (hcontains x).mpr
  | kept lf hlocks hmem hown htype hrange =>
    subst hlocks
    obtain ⟨front, back, rfl⟩ := append_of_mem hmem
    refine ⟨hvalid, holds_of_holder hvalid hown hown ?_ (fun _ => Iff.rfl) htype (.inl htype)⟩
    intro x hin
    unfold Lockf.Contains at *
    omega

end AerieKernel.AdvisoryLocks
