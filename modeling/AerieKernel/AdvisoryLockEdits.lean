import AerieKernel.AdvisoryLockLists
import Mathlib.Data.List.Flatten

/-!
# What a walk does to the blocked lists

Each request that waits for a lock of the file is on one blocked list before
the walk.  After it the request has been woken, or it is on the blocked list
of the same lock, or it has been moved to the lock that was set, or its lock
has dropped out of the list.  The last case needs a list whose locks of one
owner are not sorted.
-/

namespace AerieKernel.AdvisoryLocks

open List Edit Lockf

def blockedIn (locks : List Lockf) : List ℕ := locks.flatMap lfBlkhd

@[simp] theorem blockedIn_nil : blockedIn [] = [] := rfl

@[simp] theorem blockedIn_cons (lf : Lockf) (locks : List Lockf) :
    blockedIn (lf :: locks) = lf.lfBlkhd ++ blockedIn locks := rfl

@[simp] theorem blockedIn_append (locks locks' : List Lockf) :
    blockedIn (locks ++ locks') = blockedIn locks ++ blockedIn locks' := by
  simp [blockedIn]

theorem blockedIn_subperm {locks locks' : List Lockf} (hsub : locks.Subperm locks') :
    (blockedIn locks).Subperm (blockedIn locks') := by
  obtain ⟨kept, hperm, hkept⟩ := hsub
  exact ⟨blockedIn kept, hperm.flatMap_right lfBlkhd, hkept.flatMap lfBlkhd⟩

theorem addrs_subperm {locks locks' : List Lockf} (hsub : locks.Subperm locks') :
    (locks.map addr).Subperm (locks'.map addr) := by
  obtain ⟨kept, hperm, hkept⟩ := hsub
  exact ⟨kept.map addr, hperm.map addr, hkept.map addr⟩

/-- A lock of the new list is the lock that was set, or the new part of a
split, or it was in the list before. -/
def Stems (fresh : ℕ) (lock : Lockf) (moved : List ℕ) (locks : List Lockf) (lf' : Lockf) : Prop :=
  (lf'.addr = lock.addr ∧ lf'.lfId = lock.lfId ∧ ∀ a ∈ lf'.lfBlkhd, a ∈ moved ∨ a ∈ lock.lfBlkhd) ∨
  (lf'.addr = fresh ∧ lf'.lfBlkhd = []) ∨
  ∃ lf ∈ locks, lf.addr = lf'.addr ∧ lf.lfId = lf'.lfId ∧ ∀ a ∈ lf'.lfBlkhd, a ∈ lf.lfBlkhd

/-- No request is on two lists or both woken and blocked, no address is used
twice, and requests are moved only between locks of one owner. -/
structure Edit.Sane (fresh : ℕ) (lock : Lockf) (locks : List Lockf) (e : Edit) : Prop where
  blocked : ∀ a, e.woken.count a + (blockedIn e.locks).count a ≤
    lock.lfBlkhd.count a + (blockedIn locks).count a
  addrs : ∀ a, (e.locks.map addr).count a ≤
    (lock.addr :: fresh :: locks.map addr).count a
  stems : ∀ lf' ∈ e.locks, Stems fresh lock e.moved locks lf'
  woken : ∀ a ∈ e.woken, a ∈ blockedIn locks
  moved_own : ∀ a ∈ e.moved, ∃ lf ∈ locks, lf.lfId = lock.lfId ∧ a ∈ lf.lfBlkhd
  moved_to : ∀ a ∈ e.moved, ∃ lf' ∈ e.locks, lf'.addr = lock.addr ∧ a ∈ lf'.lfBlkhd

section Combinators

variable {fresh : ℕ} {lock : Lockf} {locks : List Lockf} {e : Edit}

variable {locks' : List Lockf}

theorem Stems.mono {moved moved' : List ℕ} {lf' : Lockf} (hstems : Stems fresh lock moved locks lf')
    (hmoved : ∀ a ∈ moved, a ∈ moved') (hlocks : ∀ lf ∈ locks, lf ∈ locks') :
    Stems fresh lock moved' locks' lf' := by
  rcases hstems with ⟨haddr, hid, hfrom⟩ | hnew | ⟨lf, hlf, hold⟩
  · exact .inl ⟨haddr, hid, fun a ha => (hfrom a ha).imp_left (hmoved a)⟩
  · exact .inr (.inl hnew)
  · exact .inr (.inr ⟨lf, hlocks lf hlf, hold⟩)

variable {lf : Lockf}

theorem stems_self {moved : List ℕ} (hlf : lf ∈ locks) : Stems fresh lock moved locks lf :=
  .inr (.inr ⟨lf, hlf, rfl, rfl, fun _ h => h⟩)

theorem sane_link (fresh : ℕ) (lock : Lockf) (locks : List Lockf) :
    (leave (lock :: locks)).Sane fresh lock locks where
  blocked := by simp [leave]
  addrs := by
    intro a
    simp only [leave, map_cons, count_cons]
    omega
  stems := forall_mem_cons.mpr ⟨.inl ⟨rfl, rfl, fun _ h => .inr h⟩, fun _ => stems_self⟩
  woken := by simp [leave]
  moved_own := by simp [leave]
  moved_to := by simp [leave]

section

variable (hsane : e.Sane fresh lock locks)
include hsane

namespace Edit.Sane

theorem cons {part : Lockf} (haddr : part.addr = lf.addr) (hid : part.lfId = lf.lfId)
    (hblkhd : part.lfBlkhd = lf.lfBlkhd) : (e.cons part).Sane fresh lock (lf :: locks) where
  blocked := by
    intro a
    have hblocked := hsane.blocked a
    simp only [Edit.cons, blockedIn_cons, hblkhd, count_append]
    omega
  addrs := by
    intro a
    have haddrs := hsane.addrs a
    simp only [Edit.cons, map_cons, haddr, count_cons] at haddrs ⊢
    omega
  stems := by
    refine forall_mem_cons.mpr ⟨.inr (.inr ⟨lf, by simp, haddr.symm, hid.symm,
      by simp [hblkhd]⟩), ?_⟩
    exact fun lf' hlf' => (hsane.stems lf' hlf').mono (fun _ h => h) (by simp_all)
  woken := fun a ha => mem_append_right _ (hsane.woken a ha)
  moved_own := fun a ha => exists_mem_cons_of_exists (hsane.moved_own a ha)
  moved_to := fun a ha => exists_mem_cons_of_exists (hsane.moved_to a ha)

theorem mono (hsub : locks.Subperm locks') : e.Sane fresh lock locks' where
  blocked := by
    intro a
    have hblocked := hsane.blocked a
    have hless := (blockedIn_subperm hsub).count_le a
    omega
  addrs := by
    intro a
    have haddrs := hsane.addrs a
    have hless := (addrs_subperm hsub).count_le a
    simp only [count_cons] at haddrs ⊢
    omega
  stems := fun lf' hlf' => (hsane.stems lf' hlf').mono (fun _ h => h) hsub.subset
  woken := fun a ha => (blockedIn_subperm hsub).subset (hsane.woken a ha)
  moved_own := by
    intro a ha
    obtain ⟨lf', hlf', hown⟩ := hsane.moved_own a ha
    exact ⟨lf', hsub.subset hlf', hown⟩
  moved_to := hsane.moved_to

theorem lose (passed : List Lockf) : e.Sane fresh lock (passed ++ locks) :=
  hsane.mono (sublist_append_right passed locks).subperm

omit hsane in
theorem wake (hsane : e.Sane fresh lock (lf.awake :: locks)) :
    (e.wake lf).Sane fresh lock (lf :: locks) where
  blocked := by
    intro a
    have hblocked := hsane.blocked a
    simp only [blockedIn_cons, awake, nil_append] at hblocked
    simp only [Edit.wake, blockedIn_cons, count_append]
    omega
  addrs := hsane.addrs
  stems := by
    intro lf' hlf'
    rcases hsane.stems lf' hlf' with hset | hnew | ⟨source, hsource, hold⟩
    · exact .inl hset
    · exact .inr (.inl hnew)
    · rcases mem_cons.mp hsource with rfl | hsource
      · refine .inr (.inr ⟨lf, by simp, hold.1, hold.2.1, ?_⟩)
        intro a ha
        have hnone := hold.2.2 a ha
        simp [awake] at hnone
      · exact .inr (.inr ⟨source, by simp [hsource], hold⟩)
  woken := forall_mem_append.mpr ⟨fun _ ha => mem_append_left _ ha,
    fun a ha => mem_append_right _ (hsane.woken a ha)⟩
  moved_own := by
    intro a ha
    obtain ⟨source, hsource, hown, hin⟩ := hsane.moved_own a ha
    rcases mem_cons.mp hsource with rfl | hsource
    · simp [awake] at hin
    · exact ⟨source, by simp [hsource], hown, hin⟩
  moved_to := hsane.moved_to

theorem shrink {part : Lockf} (haddr : part.addr = lf.addr) (hid : part.lfId = lf.lfId)
    (hblkhd : part.lfBlkhd = []) : ((e.cons part).wake lf).Sane fresh lock (lf :: locks) := by
  apply wake
  exact hsane.cons haddr hid hblkhd

theorem free (lf : Lockf) : (e.free lf).Sane fresh lock locks := { hsane with }

theorem charge (lf lock' : Lockf) : (e.charge lf lock').Sane fresh lock locks := { hsane with }

theorem rearrange (hmoved : e.moved = []) (hsub : locks'.Subperm e.locks) :
    ({ e with locks := locks' }).Sane fresh lock locks where
  blocked := by
    intro a
    have hless := (blockedIn_subperm hsub).count_le a
    have hblocked := hsane.blocked a
    dsimp only
    omega
  addrs := fun a => ((addrs_subperm hsub).count_le a).trans (hsane.addrs a)
  stems := fun lf' hlf' => hsane.stems lf' (hsub.subset hlf')
  woken := hsane.woken
  moved_own := hsane.moved_own
  moved_to := by
    intro a ha
    rw [hmoved] at ha
    simp at ha

end Edit.Sane

end

theorem sane_leave (fresh : ℕ) (lock : Lockf) (locks : List Lockf) :
    (leave locks).Sane fresh lock locks :=
  (sane_link fresh lock locks).rearrange rfl (sublist_cons_self lock locks).subperm

theorem Edit.Sane.move (hsane : e.Sane fresh
      { lock with lfBlkhd := lock.lfBlkhd ++ lf.lfBlkhd } locks)
    (hown : lf.lfId = lock.lfId)
    (hkeeps : ∀ a ∈ lf.lfBlkhd, ∃ lf' ∈ e.locks, lf'.addr = lock.addr ∧ a ∈ lf'.lfBlkhd) :
    (e.move lf).Sane fresh lock (lf :: locks) where
  blocked := by
    intro a
    have hblocked := hsane.blocked a
    simp only [count_append] at hblocked
    simp only [Edit.move, blockedIn_cons, count_append]
    omega
  addrs := by
    intro a
    have haddrs := hsane.addrs a
    simp only [Edit.move, map_cons, count_cons] at haddrs ⊢
    omega
  stems := by
    intro lf' hlf'
    rcases hsane.stems lf' hlf' with
      ⟨haddr, hid, hfrom⟩ | hnew | ⟨source, hsource, hold⟩
    · refine .inl ⟨haddr, hid, fun a ha => ?_⟩
      have hwhere := hfrom a ha
      simp only [List.mem_append] at hwhere
      simp only [Edit.move, List.mem_append]
      tauto
    · exact .inr (.inl hnew)
    · exact .inr (.inr ⟨source, by simp [hsource], hold⟩)
  woken := fun a ha => mem_append_right _ (hsane.woken a ha)
  moved_own := forall_mem_append.mpr ⟨fun _ ha => ⟨lf, mem_cons_self, hown, ha⟩,
    fun a ha => exists_mem_cons_of_exists (hsane.moved_own a ha)⟩
  moved_to := forall_mem_append.mpr ⟨hkeeps, hsane.moved_to⟩

theorem sane_split (fresh : ℕ) {cut : Lockf} {rest : List Lockf}
    (hsub : locks'.Sublist ((lfSplit fresh lf.awake cut).1 ++
      lock :: (lfSplit fresh lf.awake cut).2 ++ rest)) :
    (((leave locks').charge lf cut).wake lf).Sane fresh lock (lf :: rest) := by
  have hparts : ∀ part ∈ (lfSplit fresh lf.awake cut).1 ++
      (lfSplit fresh lf.awake cut).2, part.lfBlkhd = [] ∧
        (part.addr = fresh ∨ part.addr = lf.addr ∧ part.lfId = lf.lfId) := by
    unfold lfSplit
    split_ifs <;> simp [awake]
  have hempty : ∀ a, (blockedIn ((lfSplit fresh lf.awake cut).1 ++
      (lfSplit fresh lf.awake cut).2)).count a = 0 := by
    intro a
    rw [count_eq_zero, blockedIn, mem_flatMap]
    rintro ⟨part, hpart, ha⟩
    rw [(hparts part hpart).1] at ha
    simp at ha
  have hpartAddrs : ∀ a, (((lfSplit fresh lf.awake cut).1 ++
      (lfSplit fresh lf.awake cut).2).map addr).count a ≤ [fresh, lf.addr].count a := by
    intro a
    unfold lfSplit
    split_ifs <;> simp [awake, count_cons]
    omega
  have hwhole : (leave ((lfSplit fresh lf.awake cut).1 ++
      lock :: (lfSplit fresh lf.awake cut).2 ++ rest)).Sane fresh lock (lf.awake :: rest) := by
    constructor
    · intro a
      have hnone := hempty a
      simp only [blockedIn_append, count_append] at hnone
      simp only [leave, count_nil, blockedIn_append, blockedIn_cons, count_append]
      omega
    · intro a
      have hnew := hpartAddrs a
      simp only [map_append, count_append, count_cons, count_nil] at hnew
      simp only [leave, map_append, map_cons, count_append, count_cons]
      have hsame : lf.awake.addr = lf.addr := rfl
      rw [hsame]
      omega
    · intro lf' hlf'
      have hpart : ∀ part, part ∈ (lfSplit fresh lf.awake cut).1 ∨
          part ∈ (lfSplit fresh lf.awake cut).2 → Stems fresh lock [] (lf.awake :: rest) part := by
        intro part hpart
        obtain ⟨hnone, hnew | ⟨hold, hid⟩⟩ := hparts part (List.mem_append.mpr hpart)
        · exact .inr (.inl ⟨hnew, hnone⟩)
        · exact .inr (.inr ⟨lf.awake, by simp, hold.symm, hid.symm, by simp [hnone]⟩)
      simp only [leave, List.mem_append, mem_cons] at hlf'
      rcases hlf' with (hfront | rfl | hback) | hrest
      · exact hpart lf' (.inl hfront)
      · exact .inl ⟨rfl, rfl, fun _ h => .inr h⟩
      · exact hpart lf' (.inr hback)
      · exact stems_self (by simp [hrest])
    · simp [leave]
    · simp [leave]
    · simp [leave]
  exact ((hwhole.rearrange rfl hsub.subperm).charge lf cut).wake

end Combinators

/-! ## The walks -/

variable {lf : Lockf} {lock : Lockf}

theorem lfClearlock_sane (fresh : ℕ) (lock : Lockf) {other : Lockf} (locks : List Lockf) :
    (lfClearlock fresh lock locks).Sane fresh other locks := by
  induction locks with
  | nil => exact sane_leave fresh other []
  | cons lf rest ih =>
    unfold lfClearlock
    cases lfFindoverlap .self lock lf with
    | skip => exact ih.cons rfl rfl rfl
    | stop | panic => exact sane_leave fresh other (lf :: rest)
    | same => exact (((sane_leave fresh other rest).free lf).lose [lf.awake]).wake
    | contains => exact sane_split fresh (by simp)
    | contained => exact ((ih.free lf).lose [lf.awake]).wake
    | startsBefore => exact ih.shrink rfl rfl rfl
    | endsAfter => exact (sane_leave fresh other rest).shrink rfl rfl rfl

theorem lfSetlockLinked_head (fresh : ℕ) (lock : Lockf) (passed rest : List Lockf) :
    ∃ lock' ∈ (lfSetlockLinked fresh lock passed rest).locks,
      SameLock lock lock' ∧ ∀ a ∈ lock.lfBlkhd, a ∈ lock'.lfBlkhd := by
  have hself : ∀ lock : Lockf, SameLock lock lock ∧ ∀ a ∈ lock.lfBlkhd, a ∈ lock.lfBlkhd :=
    fun lock => ⟨SameLock.refl lock, fun _ h => h⟩
  induction rest generalizing lock passed with
  | nil => exact ⟨lock, mem_cons_self, hself lock⟩
  | cons lf rest ih =>
    unfold lfSetlockLinked
    cases lfFindoverlap .self lock lf with
    | skip => exact ih lock (passed ++ [lf])
    | stop | panic => exact ⟨lock, mem_cons_self, hself lock⟩
    | same | contains =>
      split_ifs <;> exact ⟨lock, mem_cons_self, hself lock⟩
    | contained =>
      obtain ⟨lock', hlock', hsame, hkeeps⟩ := ih (lock.takeList lf) passed
      refine ⟨lock', ?_, (sameLock_takeList lock lf).trans hsame, ?_⟩
      · unfold Edit.takeList
        split_ifs <;> exact hlock'
      · intro a ha
        apply hkeeps
        unfold Lockf.takeList
        split_ifs
        · exact ha
        · exact mem_append_left _ ha
    | startsBefore => exact ih lock []
    | endsAfter => exact ⟨lock, mem_cons_self, hself lock⟩

variable {fresh : ℕ} {e : Edit}

theorem Edit.Sane.passed {locks : List Lockf}
    (hsane : e.Sane fresh lock locks) (passed : List Lockf) :
    ({ e with locks := passed ++ e.locks }).Sane fresh lock (passed ++ locks) := by
  induction passed with
  | nil => exact hsane
  | cons lf passed ih => exact ih.cons rfl rfl rfl

variable {rest : List Lockf}

theorem Edit.Sane.linked {back : List Lockf} (hsane : e.Sane fresh lock rest)
    (hmoved : e.moved = []) (hlocks : e.locks.Perm (lock :: back)) (passed : List Lockf) :
    ({ e with locks := lock :: passed ++ back }).Sane fresh lock (passed ++ rest) := by
  apply (hsane.passed passed).rearrange hmoved
  apply List.Perm.subperm
  exact perm_middle.symm.trans (hlocks.symm.append_left passed)

theorem sane_retype (fresh : ℕ) (lock lf : Lockf) {locks : List Lockf}
    (hsane : e.Sane fresh lock rest) (hlocks : e.locks = locks) :
    (if downgrades lock lf then
      (({ e with locks := lf.retype lock :: locks }).free lock).wake lf
    else ({ e with locks := lf.retype lock :: locks }).free lock).Sane fresh lock (lf :: rest) := by
  subst hlocks
  by_cases hdown : downgrades lock lf
  · rw [if_pos hdown]
    have hshrink : ((e.cons (lf.retype lock)).wake lf).Sane fresh lock (lf :: rest) := by
      apply hsane.shrink
      all_goals simp [retype, hdown, awake]
    exact hshrink.free lock
  · rw [if_neg hdown]
    have hcons : (e.cons (lf.retype lock)).Sane fresh lock (lf :: rest) := by
      apply hsane.cons
      all_goals simp [retype, hdown]
    exact hcons.free lock

theorem sane_takeList {passed : List Lockf} (hvisit : lfFindoverlap .self lock lf = .contained)
    (hsane : (lfSetlockLinked fresh (lock.takeList lf) passed rest).Sane fresh
      (lock.takeList lf) (passed ++ rest)) :
    (((lfSetlockLinked fresh (lock.takeList lf) passed rest).free lf).takeList lock lf).Sane
      fresh lock (lf :: (passed ++ rest)) := by
  obtain ⟨lock', hlock', hsame, hkeeps⟩ := lfSetlockLinked_head fresh (lock.takeList lf) passed rest
  have haddr := ((sameLock_takeList lock lf).trans hsame).addr
  generalize lfSetlockLinked fresh (lock.takeList lf) passed rest = e at *
  unfold Edit.takeList
  unfold Lockf.takeList at hsane hkeeps
  by_cases hdown : downgrades lock lf
  · rw [if_pos hdown] at hsane ⊢
    exact ((hsane.free lf).lose [lf.awake]).wake
  · rw [if_neg hdown] at hsane hkeeps ⊢
    apply (hsane.free lf).move (by_contra fun hother => by
      simp [lfFindoverlap_self_other hother] at hvisit)
    intro a ha
    exact ⟨lock', hlock', haddr, hkeeps a (mem_append_right _ ha)⟩

theorem sane_startAfter (fresh : ℕ) (lock lf : Lockf) (passed rest : List Lockf) :
    ((leave (lock :: passed ++ lf.startAfter lock :: rest)).wake lf).Sane fresh lock
      (passed ++ lf :: rest) := by
  have hshrink : ((cons (lf.startAfter lock) (leave (lock :: rest))).wake lf).Sane
      fresh lock (lf :: rest) := (sane_link fresh lock rest).shrink rfl rfl rfl
  exact hshrink.linked rfl (List.Perm.swap _ _ _) passed

theorem lfSetlockLinked_sane (fresh : ℕ) (lock : Lockf) (passed rest : List Lockf) :
    (lfSetlockLinked fresh lock passed rest).Sane fresh lock (passed ++ rest) := by
  induction rest generalizing lock passed with
  | nil =>
    rw [append_nil]
    exact sane_link fresh lock passed
  | cons lf rest ih =>
    unfold lfSetlockLinked
    cases hvisit : lfFindoverlap .self lock lf with
    | skip =>
      have hrest := ih lock (passed ++ [lf])
      rwa [append_assoc] at hrest
    | stop | panic => exact sane_link fresh lock (passed ++ lf :: rest)
    | same =>
      have hretype := sane_retype fresh lock lf (sane_link fresh lock rest) rfl
      have hperm : (lf.retype lock :: lock :: rest).Perm
          (lock :: lf.retype lock :: rest) := List.Perm.swap _ _ _
      by_cases hdown : downgrades lock lf
      · rw [if_pos hdown] at hretype ⊢
        exact hretype.linked rfl hperm passed
      · rw [if_neg hdown] at hretype ⊢
        exact hretype.linked rfl hperm passed
    | contains =>
      by_cases htype : lf.lfType = lock.lfType
      · rw [if_pos htype]
        exact (sane_link fresh lock (passed ++ lf :: rest)).free lock
      · rw [if_neg htype]
        exact (sane_split fresh (by simp)).lose passed
    | contained =>
      exact (sane_takeList hvisit (ih _ passed)).mono perm_middle.symm.subperm
    | startsBefore =>
      exact (((ih lock []).lose [lf.awake]).wake).lose passed
    | endsAfter => exact sane_startAfter fresh lock lf passed rest

theorem lfSetlockWalk_sane (fresh : ℕ) (lock : Lockf) (locks : List Lockf) :
    (lfSetlockWalk fresh lock locks).Sane fresh lock locks := by
  induction locks with
  | nil => exact sane_link fresh lock []
  | cons lf rest ih =>
    unfold lfSetlockWalk
    cases hvisit : lfFindoverlap .self lock lf with
    | skip => exact ih.cons rfl rfl rfl
    | stop | panic => exact sane_link fresh lock (lf :: rest)
    | same => exact sane_retype fresh lock lf (sane_leave fresh lock rest) rfl
    | contains =>
      by_cases htype : lf.lfType = lock.lfType
      · rw [if_pos htype]
        exact (sane_leave fresh lock (lf :: rest)).free lock
      · rw [if_neg htype]
        exact sane_split fresh (List.Sublist.refl _)
    | contained => exact sane_takeList hvisit (lfSetlockLinked_sane fresh _ [] rest)
    | startsBefore =>
      exact (lfSetlockLinked_sane fresh lock [] rest).shrink rfl rfl rfl
    | endsAfter => exact sane_startAfter fresh lock lf [] rest

/-! ## No request is forgotten -/

structure Guards (lf lf' : Lockf) : Prop where
  lfId : lf'.lfId = lf.lfId
  lfStart : lf'.lfStart ≤ lf.lfStart
  last : lf.last ≤ lf'.last
  lfType : lf'.lfType = lf.lfType ∨ lf'.lfType = .wrlck

theorem Guards.refl (lf : Lockf) : Guards lf lf :=
  ⟨rfl, le_refl _, le_refl _, .inl rfl⟩

/-- Each request that was blocked has been woken, or is blocked by a lock
that guards at least as much. -/
def Edit.Accounts (locks : List Lockf) (e : Edit) : Prop :=
  ∀ lf ∈ locks, ∀ a ∈ lf.lfBlkhd, a ∈ e.woken ∨ ∃ lf' ∈ e.locks, a ∈ lf'.lfBlkhd ∧ Guards lf lf'

section Accounts

variable {locks : List Lockf} {e : Edit}

variable {locks' : List Lockf}

theorem accounts_of_subset (hsub : ∀ lf ∈ locks, lf ∈ locks') : (leave locks').Accounts locks :=
  fun lf hlf _ ha => .inr ⟨lf, hsub lf hlf, ha, Guards.refl lf⟩

theorem Edit.Accounts.cons {part : Lockf} (haccounts : e.Accounts locks)
    (hblkhd : ∀ a ∈ lf.lfBlkhd, a ∈ part.lfBlkhd)
    (hguards : Guards lf part) : (e.cons part).Accounts (lf :: locks) := by
  refine forall_mem_cons.mpr ⟨fun a ha => .inr ⟨part, mem_cons_self, hblkhd a ha, hguards⟩, ?_⟩
  exact fun lf' hlf' a ha => (haccounts lf' hlf' a ha).imp_right exists_mem_cons_of_exists

theorem Edit.Accounts.wake (haccounts : e.Accounts locks) : (e.wake lf).Accounts (lf :: locks) := by
  refine forall_mem_cons.mpr ⟨fun a ha => .inl (mem_append_left _ ha), ?_⟩
  exact fun lf' hlf' a ha => (haccounts lf' hlf' a ha).imp_left (mem_append_right _)

theorem Edit.Accounts.mono (haccounts : e.Accounts locks) (hsub : ∀ lf ∈ e.locks, lf ∈ locks') :
    ({ e with locks := locks' }).Accounts locks := by
  intro lf hlf a ha
  rcases haccounts lf hlf a ha with hwoken | ⟨holder, hholder, hholds⟩
  · exact .inl hwoken
  · exact .inr ⟨holder, hsub holder hholder, hholds⟩

end Accounts

theorem lfClearlock_accounts (fresh : ℕ) (lock : Lockf) (locks : List Lockf) :
    (lfClearlock fresh lock locks).Accounts locks := by
  induction locks with
  | nil => simp [Edit.Accounts]
  | cons lf rest ih =>
    have hleave : (leave rest).Accounts rest := accounts_of_subset fun _ h => h
    unfold lfClearlock
    cases lfFindoverlap .self lock lf with
    | skip => exact ih.cons (fun _ h => h) (Guards.refl lf)
    | stop | panic => exact accounts_of_subset fun _ h => h
    | same => exact hleave.wake
    | contains => exact (hleave.mono fun lf' hlf' => mem_append_right _ hlf').wake
    | contained => exact ih.wake
    | startsBefore => exact (ih.mono fun lf' hlf' => mem_cons_of_mem _ hlf').wake
    | endsAfter => exact (hleave.mono fun lf' hlf' => mem_cons_of_mem _ hlf').wake

variable {locks : List Lockf}

theorem lfClearlock_addrs {lf' : Lockf} (hlf' : lf' ∈ (lfClearlock fresh lock locks).locks) :
    lf'.addr = fresh ∨ ∃ lf ∈ locks, lf.addr = lf'.addr := by
  -- the walk links no lock, not even one at another address
  have hsane : (lfClearlock fresh lock locks).Sane fresh
      { lock with addr := lf'.addr + 1 } locks := lfClearlock_sane fresh lock locks
  rcases hsane.stems lf' hlf' with ⟨hset, _⟩ | hnew | ⟨lf, hlf, haddr, _⟩
  · dsimp only at hset
    omega
  · exact .inl hnew.1
  · exact .inr ⟨lf, hlf, haddr⟩

theorem lfClearlock_others (fresh : ℕ) (hlf : lf ∈ locks) (hother : lf.lfId ≠ lock.lfId) :
    lf ∈ (lfClearlock fresh lock locks).locks := by
  induction locks with
  | nil => simp at hlf
  | cons first rest ih =>
    by_cases hfirst : lf = first
    · subst hfirst
      rw [lfClearlock, lfFindoverlap_self_other hother]
      exact mem_cons_self
    · have hrest : lf ∈ rest := mem_of_ne_of_mem hfirst hlf
      have hdeep := ih hrest
      unfold lfClearlock
      cases lfFindoverlap .self lock first with
      | skip => exact mem_cons_of_mem _ hdeep
      | stop | panic => exact hlf
      | same => exact hrest
      | contains => exact mem_append_right _ hrest
      | contained => exact hdeep
      | startsBefore => exact mem_cons_of_mem _ hdeep
      | endsAfter => exact mem_cons_of_mem _ hrest

theorem type_of_not_downgrades (hlock : lock.lfType ≠ .unlck) (hlf : lf.lfType ≠ .unlck)
    (hdown : ¬ downgrades lock lf) : lock.lfType = lf.lfType ∨ lock.lfType = .wrlck := by
  unfold downgrades at hdown
  cases hlockType : lock.lfType <;> cases hlfType : lf.lfType <;> simp_all

theorem accounts_takeList {passed : List Lockf} (hlock : lock.lfType ≠ .unlck)
    (hlf : lf.lfType ≠ .unlck) (hown : lf.lfId = lock.lfId) (hstart : lock.lfStart ≤ lf.lfStart)
    (hlast : lf.last ≤ lock.last)
    (haccounts : (lfSetlockLinked fresh (lock.takeList lf) passed rest).Accounts (passed ++ rest)) :
    (((lfSetlockLinked fresh (lock.takeList lf) passed rest).free
      lf).takeList lock lf).Accounts (lf :: (passed ++ rest)) := by
  unfold Edit.takeList
  by_cases hdown : downgrades lock lf
  · rw [if_pos hdown]
    exact Edit.Accounts.wake haccounts
  · rw [if_neg hdown]
    intro lf' hlf' a ha
    rcases mem_cons.mp hlf' with rfl | hlf'
    · obtain ⟨lock', hlock', hsame, hkeeps⟩ :=
        lfSetlockLinked_head fresh (lock.takeList lf') passed rest
      have hfull := (sameLock_takeList lock lf').trans hsame
      refine .inr ⟨lock', hlock', ?_, ?_⟩
      · apply hkeeps
        rw [Lockf.takeList, if_neg hdown]
        exact mem_append_right _ ha
      · constructor
        · rw [hfull.lfId, hown]
        · rw [hfull.lfStart]
          exact hstart
        · rw [hfull.last]
          exact hlast
        · rw [hfull.lfType]
          exact type_of_not_downgrades hlock hlf hdown
    · exact haccounts lf' hlf' a ha

theorem lfSetlockLinked_accounts (fresh : ℕ) (passed : List Lockf) (hlock : lock.WF)
    (hvalid : ValidList rest) (hlockType : lock.lfType ≠ .unlck)
    (htyped : ∀ lf ∈ rest, lf.lfType ≠ .unlck)
    (hbehind : ∀ lf ∈ rest, lf.lfId = lock.lfId → lock.lfStart < lf.lfStart) :
    (lfSetlockLinked fresh lock passed rest).Accounts (passed ++ rest) := by
  induction rest generalizing lock passed with
  | nil =>
    rw [append_nil]
    exact accounts_of_subset fun lf hlf => mem_cons_of_mem _ hlf
  | cons lf rest ih =>
    obtain ⟨hlf, -, hrest⟩ := validList_cons.mp hvalid
    obtain ⟨hlfType, htyped⟩ := forall_mem_cons.mp htyped
    obtain ⟨hbegin, hbehind⟩ := forall_mem_cons.mp hbehind
    unfold lfSetlockLinked
    by_cases hown : lf.lfId = lock.lfId
    · have hbegin := hbegin hown
      have hordered := hlf.start_le_last
      rcases lfFindoverlap_self_cases hlock hlf hown with
        ⟨hcase, hrange⟩ | ⟨hcase, _⟩ | ⟨hcase, hstart, _⟩ |
        ⟨hcase, hstart, _⟩ | ⟨hcase, hstart, hlast, _⟩ |
        ⟨hcase, hstart, _⟩ | ⟨hcase, _⟩
      all_goals rw [hcase]
      · omega
      · exact accounts_of_subset fun lf' hlf' =>
          mem_cons_of_mem _ hlf'
      · omega
      · omega
      · have htake := sameLock_takeList lock lf
        have hrec := @ih (lock.takeList lf) passed (htake.wf hlock) hrest
          (by rwa [htake.lfType]) htyped (by rw [htake.lfId, htake.lfStart]; exact hbehind)
        have hall := accounts_takeList hlockType hlfType hown hstart hlast hrec
        intro lf' hlf'
        exact hall lf' (perm_middle.mem_iff.mp hlf')
      · omega
      · have hkeep : (leave (lock :: passed ++
            lf.startAfter lock :: rest)).Accounts (passed ++ rest) := by
          apply accounts_of_subset
          intro lf' hlf'
          simp only [List.mem_append, mem_cons] at *
          tauto
        intro lf' hlf'
        exact hkeep.wake lf' (perm_middle.mem_iff.mp hlf')
    · rw [lfFindoverlap_self_other hown]
      have hrec := @ih lock (passed ++ [lf]) hlock hrest hlockType htyped hbehind
      rwa [append_assoc] at hrec

theorem lfSetlockWalk_accounts (fresh : ℕ) (hlock : lock.WF) (hvalid : ValidList locks)
    (hlockType : lock.lfType ≠ .unlck) (htyped : ∀ lf ∈ locks, lf.lfType ≠ .unlck) :
    (lfSetlockWalk fresh lock locks).Accounts locks := by
  induction locks with
  | nil => simp [Edit.Accounts]
  | cons lf rest ih =>
    obtain ⟨hlf, -, hrest⟩ := validList_cons.mp hvalid
    obtain ⟨hlfType, htyped⟩ := forall_mem_cons.mp htyped
    have hrec := ih hrest htyped
    have hleave : ∀ {locks' : List Lockf}, (∀ lf' ∈ rest, lf' ∈ locks') →
        (leave locks').Accounts rest := accounts_of_subset
    unfold lfSetlockWalk
    by_cases hown : lf.lfId = lock.lfId
    · have hordered := hlf.start_le_last
      rcases lfFindoverlap_self_cases hlock hlf hown with
        ⟨hcase, _⟩ | ⟨hcase, _⟩ | ⟨hcase, hstart, hfinish⟩ |
        ⟨hcase, _⟩ | ⟨hcase, hstart, hlast, _⟩ |
        ⟨hcase, hstart, hreach, _⟩ | ⟨hcase, _⟩
      all_goals rw [hcase]
      · exact hrec.cons (fun _ h => h) (Guards.refl lf)
      · exact accounts_of_subset fun lf' hlf' =>
          mem_cons_of_mem _ hlf'
      · by_cases hdown : downgrades lock lf
        · rw [if_pos hdown]
          apply Edit.Accounts.wake
          exact hleave fun _ h => mem_cons_of_mem _ h
        · rw [if_neg hdown, retype, if_neg hdown]
          exact (hleave fun _ h => h).cons (fun _ h => h)
            ⟨rfl, le_refl _, le_refl _, type_of_not_downgrades hlockType hlfType hdown⟩
      · by_cases hsame : lf.lfType = lock.lfType
        · rw [if_pos hsame]
          exact accounts_of_subset fun _ h => h
        · rw [if_neg hsame]
          apply Edit.Accounts.wake
          exact hleave fun _ h => mem_append_right _ h
      · have htake := sameLock_takeList lock lf
        have hlinked := lfSetlockLinked_accounts fresh [] (htake.wf hlock)
          hrest (by rwa [htake.lfType]) htyped (by
            rw [htake.lfId, htake.lfStart]
            exact behind_of_reach hvalid hown (by omega))
        exact accounts_takeList hlockType hlfType hown hstart hlast hlinked
      · have hlinked := lfSetlockLinked_accounts fresh [] hlock hrest
          hlockType htyped (behind_of_reach hvalid hown hreach)
        apply Edit.Accounts.wake
        exact hlinked.mono fun _ h => mem_cons_of_mem _ h
      · apply Edit.Accounts.wake
        exact hleave fun _ h => by simp [h]
    · rw [lfFindoverlap_self_other hown]
      exact hrec.cons (fun _ h => h) (Guards.refl lf)

end AerieKernel.AdvisoryLocks
