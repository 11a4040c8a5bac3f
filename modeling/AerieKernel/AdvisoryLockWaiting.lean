import AerieKernel.AdvisoryLockSharing
import AerieKernel.AdvisoryLockEdits

/-!
# Requests that wait

A request that sleeps in `lf_setlock` is linked twice: its `lf_next` names
the lock that blocks it, and that lock has it on its blocked list.  No step
breaks the links, whatever the requests are.  The lock is still in the list and
in the way as long as the lists are sorted.
-/

namespace AerieKernel.AdvisoryLocks

open Run Function List System

/-! ## Links -/

def Request.LinkedTo (r : Request) (lf : Lockf) : Prop :=
  ∃ block, r.lfNext = some block ∧ block.addr = lf.addr ∧ block.lfId = lf.lfId

structure System.Linked (sys : System) : Prop where
  lock_addr : ∀ file, ∀ lf ∈ sys.head file, lf.addr < sys.nextAddr
  request_addr : ∀ r ∈ sys.requests, r.lock.addr < sys.nextAddr
  locks_nodup : ∀ file, ((sys.head file).map Lockf.addr).Nodup
  requests_nodup : (sys.requests.map fun r => r.lock.addr).Nodup
  procs_nodup : (sys.requests.map Request.proc).Nodup
  apart : ∀ file, ∀ lf ∈ sys.head file, ∀ r ∈ sys.requests, lf.addr ≠ r.lock.addr
  blocked_nodup : ∀ file, (blockedIn (sys.head file)).Nodup
  blocked : ∀ file, ∀ lf ∈ sys.head file, ∀ a ∈ lf.lfBlkhd,
    ∃ r ∈ sys.requests, r.lock.addr = a ∧ r.file = file ∧ r.LinkedTo lf
  unblocking : ∀ r ∈ sys.requests, r.lock.lfBlkhd = []
  asleep : ∀ r ∈ sys.requests, r.asleep → r.lfNext ≠ none

structure System.Unlinked (sys : System) (lock : Lockf) : Prop where
  addr_lt : lock.addr < sys.nextAddr
  locks : ∀ file, ∀ lf ∈ sys.head file, lf.addr ≠ lock.addr
  requests : ∀ r ∈ sys.requests, r.lock.addr ≠ lock.addr
  unblocking : lock.lfBlkhd = []

variable {r : Request} {sys : System} {r' : Request}

theorem System.Linked.request_unique (hlinked : sys.Linked) (hr : r ∈ sys.requests)
    (hr' : r' ∈ sys.requests) (haddr : r.lock.addr = r'.lock.addr) : r = r' :=
  inj_on_of_nodup_map hlinked.requests_nodup hr hr' haddr

theorem System.Linked.proc_unique (hlinked : sys.Linked) (hr : r ∈ sys.requests)
    (hr' : r' ∈ sys.requests) (hproc : r.proc = r'.proc) : r = r' :=
  inj_on_of_nodup_map hlinked.procs_nodup hr hr' hproc

variable {a : ℕ} {locks : List Lockf}

theorem mem_blockedIn : a ∈ blockedIn locks ↔ ∃ lf ∈ locks, a ∈ lf.lfBlkhd :=
  mem_flatMap

variable {lf lf' : Lockf}

theorem unique_of_blockedIn_nodup (hnodup : (blockedIn locks).Nodup) (hlf : lf ∈ locks)
    (hlf' : lf' ∈ locks) (ha : a ∈ lf.lfBlkhd) (ha' : a ∈ lf'.lfBlkhd) : lf = lf' := by
  by_contra hne
  have hdisjoint := (nodup_flatMap.mp hnodup).2
  have hsymm : Std.Symm (Function.onFun List.Disjoint Lockf.lfBlkhd) := ⟨fun _ _ h => h.symm⟩
  exact hdisjoint.forall hlf hlf' hne ha ha'

theorem System.Linked.mem_woken {file : ℕ} (hlinked : sys.Linked) (hr : r ∈ sys.requests)
    (ha : r.lock.addr ∈ blockedIn (sys.head file)) :
    r.file = file ∧ ∃ lf ∈ sys.head file, r.lock.addr ∈ lf.lfBlkhd ∧ r.LinkedTo lf := by
  obtain ⟨lf, hlf, hblocked⟩ := mem_blockedIn.mp ha
  obtain ⟨r', hr', haddr, hfile, hlink⟩ := hlinked.blocked file lf hlf _ hblocked
  rw [hlinked.request_unique hr' hr haddr] at hfile hlink
  exact ⟨hfile, lf, hlf, hblocked, hlink⟩

/-! ## Walks -/

section Walks

variable {sys : System} {file : ℕ} {lock : Lockf} {e : Edit}

theorem Request.edit_file (r : Request) : (r.edit lock e).file = r.file := by
  unfold Request.edit
  split_ifs <;> rfl

theorem Request.edit_proc (r : Request) : (r.edit lock e).proc = r.proc := by
  unfold Request.edit
  split_ifs <;> rfl

section

variable (hsane : e.Sane sys.nextAddr lock (sys.head file))
include hsane

section

variable (hlinked : sys.Linked)
include hlinked

section

variable (hlock : sys.Unlinked lock)
include hlock

theorem Edit.Sane.blockedIn_nodup : (blockedIn e.locks).Nodup := by
  rw [nodup_iff_count_le_one]
  intro a
  have hblocked := hsane.blocked a
  have hold := nodup_iff_count_le_one.mp (hlinked.blocked_nodup file) a
  rw [hlock.unblocking, count_nil] at hblocked
  omega

theorem Edit.Sane.not_woken (ha : a ∈ blockedIn e.locks) : a ∉ e.woken := by
  intro hwoken
  have hblocked := hsane.blocked a
  have hold := nodup_iff_count_le_one.mp (hlinked.blocked_nodup file) a
  have hhere := count_pos_iff.mpr ha
  have hthere := count_pos_iff.mpr hwoken
  rw [hlock.unblocking, count_nil] at hblocked
  omega

theorem Edit.Sane.linkedTo (hlf' : lf' ∈ e.locks) (ha : a ∈ lf'.lfBlkhd) :
    ∃ r ∈ sys.requests, r.lock.addr = a ∧ r.file = file ∧ (r.edit lock e).LinkedTo lf' := by
  have hin : a ∈ blockedIn e.locks := mem_blockedIn.mpr ⟨lf', hlf', ha⟩
  have hnotWoken := hsane.not_woken hlinked hlock hin
  rcases hsane.stems lf' hlf' with ⟨haddr, hid, hfrom⟩ | ⟨_, hempty⟩ | ⟨lf, hlf, haddr, hid, hsub⟩
  · -- the lock that was set: its requests have been moved to it
    have hmoved : a ∈ e.moved := by
      rcases hfrom a ha with hmoved | hown
      · exact hmoved
      · simp [hlock.unblocking] at hown
    obtain ⟨lf, hlf, _, hblocked⟩ := hsane.moved_own a hmoved
    obtain ⟨r, hr, hra, hfile, _⟩ := hlinked.blocked file lf hlf a hblocked
    refine ⟨r, hr, hra, hfile, lock.ref, ?_, haddr.symm, hid.symm⟩
    simp [Request.edit, hra, hnotWoken, hmoved]
  · simp [hempty] at ha
  · obtain ⟨r, hr, hra, hfile, block, hnext, hblock, hblockId⟩ :=
      hlinked.blocked file lf hlf a (hsub a ha)
    have hnotMoved : a ∉ e.moved := by
      intro hmoved
      obtain ⟨lf'', hlf'', haddr'', ha''⟩ := hsane.moved_to a hmoved
      have hsame := unique_of_blockedIn_nodup
        (hsane.blockedIn_nodup hlinked hlock) hlf' hlf'' ha ha''
      apply hlock.locks file lf hlf
      rw [haddr, hsame, haddr'']
    refine ⟨r, hr, hra, hfile, block, ?_, hblock.trans haddr, hblockId.trans hid⟩
    simp [Request.edit, hra, hnotWoken, hnotMoved, hnext]

omit hlock in
omit hlinked in
theorem Edit.Sane.addr_cases {file' : ℕ} (hlf' : lf' ∈ (sys.edit file lock e).head file') :
    lf'.addr = lock.addr ∨ lf'.addr = sys.nextAddr ∨ ∃ lf ∈ sys.head file', lf.addr = lf'.addr := by
  simp only [edit] at hlf'
  by_cases hfile : file' = file
  · rw [hfile, update_self] at hlf'
    rcases hsane.stems lf' hlf' with ⟨haddr, _⟩ | ⟨haddr, _⟩ | ⟨lf, hlf, haddr, _⟩
    · exact .inl haddr
    · exact .inr (.inl haddr)
    · exact .inr (.inr ⟨lf, hfile ▸ hlf, haddr⟩)
  · rw [update_of_ne hfile] at hlf'
    exact .inr (.inr ⟨lf', hlf', rfl⟩)

theorem Edit.Sane.locks_nodup : (e.locks.map Lockf.addr).Nodup := by
  have hold : (lock.addr :: sys.nextAddr :: (sys.head file).map Lockf.addr).Nodup := by
    rw [nodup_cons, nodup_cons, mem_cons, not_or]
    have hlt := hlock.addr_lt
    refine ⟨⟨by omega, ?_⟩, ?_, hlinked.locks_nodup file⟩
    · intro hmem
      obtain ⟨lf, hlf, haddr⟩ := mem_map.mp hmem
      exact hlock.locks file lf hlf haddr
    · intro hmem
      obtain ⟨lf, hlf, haddr⟩ := mem_map.mp hmem
      have hbound := hlinked.lock_addr file lf hlf
      omega
  rw [nodup_iff_count_le_one] at hold ⊢
  exact fun a => (hsane.addrs a).trans (hold a)

end

theorem Edit.Sane.edit_other (hr : r ∈ sys.requests)
    (hfile : r.file ≠ file) : r.edit lock e = r := by
  have hwoken : r.lock.addr ∉ e.woken := fun hmem =>
    hfile (hlinked.mem_woken hr (hsane.woken _ hmem)).1
  have hmoved : r.lock.addr ∉ e.moved := by
    intro hmem
    obtain ⟨lf, hlf, _, hblocked⟩ := hsane.moved_own _ hmem
    exact hfile (hlinked.mem_woken hr (mem_blockedIn.mpr ⟨lf, hlf, hblocked⟩)).1
  simp [Request.edit, hwoken, hmoved]

end

end

theorem System.Linked.edit (hlinked : sys.Linked) (hlock : sys.Unlinked lock)
    (hsane : e.Sane sys.nextAddr lock (sys.head file)) : (sys.edit file lock e).Linked := by
  have hlt := hlock.addr_lt
  constructor
  · intro file' lf' hlf'
    change lf'.addr < sys.nextAddr + 1
    rcases hsane.addr_cases hlf' with haddr | haddr | ⟨lf, hlf, haddr⟩
    · omega
    · omega
    · have hbound := hlinked.lock_addr file' lf hlf
      omega
  · intro r hr
    change r.lock.addr < sys.nextAddr + 1
    obtain ⟨r₀, hr₀, heq⟩ := edit_requests hr
    have hbound := hlinked.request_addr r₀ hr₀
    rw [heq]
    omega
  · exact (forall_update_iff _ fun _ (locks : List Lockf) => (locks.map Lockf.addr).Nodup).mpr
      ⟨hsane.locks_nodup hlinked hlock, fun file' _ => hlinked.locks_nodup file'⟩
  · simpa only [System.edit, map_map, Function.comp_def,
      Request.edit_lock] using hlinked.requests_nodup
  · simpa only [System.edit, map_map, Function.comp_def,
      Request.edit_proc] using hlinked.procs_nodup
  · intro file' lf' hlf' r hr
    obtain ⟨r₀, hr₀, heq⟩ := edit_requests hr
    rw [heq]
    rcases hsane.addr_cases hlf' with haddr | haddr | ⟨lf, hlf, haddr⟩
    · rw [haddr]
      exact (hlock.requests r₀ hr₀).symm
    · have hbound := hlinked.request_addr r₀ hr₀
      omega
    · rw [← haddr]
      exact hlinked.apart file' lf hlf r₀ hr₀
  · exact (forall_update_iff _ fun _ locks => (blockedIn locks).Nodup).mpr
      ⟨hsane.blockedIn_nodup hlinked hlock, fun file' _ => hlinked.blocked_nodup file'⟩
  · intro file' lf' hlf' a ha
    simp only [System.edit] at hlf' ⊢
    by_cases hfile : file' = file
    · rw [hfile, update_self] at hlf'
      obtain ⟨r, hr, hra, hrfile, hlink⟩ := hsane.linkedTo hlinked hlock hlf' ha
      exact ⟨r.edit lock e, mem_map_of_mem hr,
        by rw [Request.edit_lock, hra],
        by rw [Request.edit_file, hrfile, hfile], hlink⟩
    · rw [update_of_ne hfile] at hlf'
      obtain ⟨r, hr, hra, hrfile, hlink⟩ := hlinked.blocked file' lf' hlf' a ha
      have hsame := hsane.edit_other hlinked hr (by rwa [hrfile])
      exact ⟨r, mem_map.mpr ⟨r, hr, hsame⟩, hra, hrfile, hlink⟩
  · intro r hr
    obtain ⟨r₀, hr₀, heq⟩ := edit_requests hr
    rw [heq]
    exact hlinked.unblocking r₀ hr₀
  · intro r hr hasleep
    obtain ⟨r₀, hr₀, rfl⟩ := mem_map.mp hr
    have hold := hlinked.asleep r₀ hr₀
    unfold Request.edit at hasleep ⊢
    split_ifs at hasleep ⊢
    · simp
    · exact hold hasleep

end Walks

/-! ## Sleeping and leaving -/

section Steps

variable {sys : System}

theorem System.Linked.free (hlinked : sys.Linked) (lock : Lockf) : (sys.free lock).Linked :=
  { hlinked with }

theorem System.Linked.charge (hlinked : sys.Linked) (uid : ℕ) : (sys.charge uid).Linked :=
  { hlinked with
    lock_addr := fun file lf hlf =>
      (hlinked.lock_addr file lf hlf).trans (Nat.lt_succ_self _)
    request_addr := fun r hr =>
      (hlinked.request_addr r hr).trans (Nat.lt_succ_self _) }

theorem System.Linked.unlinked_call (hlinked : sys.Linked) (call : Call) (range : ℤ × ℤ) :
    (sys.charge call.uid).Unlinked (call.lock sys.nextAddr range) where
  addr_lt := Nat.lt_succ_self _
  locks := fun file lf hlf => (hlinked.lock_addr file lf hlf).ne
  requests := fun r hr => (hlinked.request_addr r hr).ne
  unblocking := rfl

variable {lock : Lockf}

theorem System.Linked.clearOwn (hlinked : sys.Linked) (hlock : sys.Unlinked lock) (file : ℕ) :
    (sys.clearOwn file lock).Linked ∧ (sys.clearOwn file lock).Unlinked lock := by
  unfold System.clearOwn
  split_ifs
  · have hcleared : sys.Unlinked lock.cleared := { hlock with }
    refine ⟨hlinked.edit hcleared (lfClearlock_sane sys.nextAddr lock.cleared (sys.head file)), ?_⟩
    have hlt := hlock.addr_lt
    constructor
    · exact hlt.trans (Nat.lt_succ_self _)
    · refine (forall_update_iff _ fun _ (locks : List Lockf) => ∀ lf ∈ locks,
      lf.addr ≠ lock.addr).mpr
        ⟨fun lf' hlf' => ?_, fun file' _ => hlock.locks file'⟩
      rcases lfClearlock_addrs hlf' with haddr | ⟨lf, hlf, haddr⟩
      · omega
      · rw [← haddr]
        exact hlock.locks file lf hlf
    · intro r hr
      obtain ⟨r₀, hr₀, heq⟩ := edit_requests hr
      rw [heq]
      exact hlock.requests r₀ hr₀
    · exact hlock.unblocking
  · exact ⟨hlinked, hlock⟩

variable {file : ℕ}

theorem mem_update_reblock {head : ℕ → List Lockf} {file' addr : ℕ} {change : List ℕ → List ℕ}
    (hlf' : lf' ∈ update head file ((head file).map (Lockf.reblock addr change)) file') :
    ∃ lf ∈ head file', SameLock lf lf' ∧
      (lf'.lfBlkhd = lf.lfBlkhd ∧ ¬ (file' = file ∧ lf.addr = addr) ∨
        file' = file ∧ lf.addr = addr ∧ lf'.lfBlkhd = change lf.lfBlkhd) := by
  by_cases hfile : file' = file
  · rw [hfile, update_self] at hlf'
    obtain ⟨lf, hlf, rfl⟩ := mem_map.mp hlf'
    refine ⟨lf, hfile ▸ hlf, sameLock_reblock addr change lf, ?_⟩
    unfold Lockf.reblock
    split_ifs with haddr
    · exact .inr ⟨hfile, haddr, rfl⟩
    · exact .inl ⟨rfl, fun h => haddr h.2⟩
  · rw [update_of_ne hfile] at hlf'
    exact ⟨lf', hlf', SameLock.refl lf', .inl ⟨rfl, fun h => hfile h.1⟩⟩

theorem exists_update_reblock {head : ℕ → List Lockf} {file' : ℕ} (file addr : ℕ)
    (change : List ℕ → List ℕ) (hlf : lf ∈ head file') :
    ∃ lf' ∈ update head file ((head file).map (Lockf.reblock addr change)) file',
      SameLock lf lf' ∧ ∀ a ∈ lf.lfBlkhd, a ∈ change lf.lfBlkhd → a ∈ lf'.lfBlkhd := by
  by_cases hfile : file' = file
  · subst hfile
    rw [update_self]
    refine ⟨_, mem_map_of_mem hlf, sameLock_reblock addr change lf, fun a ha ha' => ?_⟩
    unfold Lockf.reblock
    split_ifs
    · exact ha'
    · exact ha
  · rw [update_of_ne hfile]
    exact ⟨lf, hlf, SameLock.refl lf, fun _ ha _ => ha⟩

theorem map_addr_update_reblock (head : ℕ → List Lockf)
    (file file' addr : ℕ) (change : List ℕ → List ℕ) :
    (update head file ((head file).map (Lockf.reblock addr change)) file').map Lockf.addr =
    (head file').map Lockf.addr := by
  by_cases hfile : file' = file
  · rw [hfile, update_self, map_map]
    apply map_congr_left
    intro lf _
    exact (sameLock_reblock addr change lf).addr
  · rw [update_of_ne hfile]

theorem Request.LinkedTo.congr
    (hlink : r.LinkedTo lf) (hsame : SameLock lf lf') : r.LinkedTo lf' := by
  obtain ⟨block, hnext, haddr, hid⟩ := hlink
  exact ⟨block, hnext, haddr.trans hsame.addr.symm, hid.trans hsame.lfId.symm⟩

theorem count_blockedIn_append (addr a b : ℕ) (locks : List Lockf) :
    (blockedIn (locks.map (Lockf.reblock addr (· ++ [a])))).count b =
      (blockedIn locks).count b + (locks.map Lockf.addr).count addr * [a].count b := by
  induction locks with
  | nil => simp
  | cons lf rest ih =>
    simp only [map_cons, blockedIn_cons, count_append, ih, count_cons (a := addr)]
    unfold Lockf.reblock
    by_cases haddr : lf.addr = addr
    · simp only [count_append, haddr, beq_self_eq_true, if_true]
      ring
    · simp only [beq_iff_eq, haddr, if_false]
      ring

theorem blockedIn_erase_sublist (addr a : ℕ) (locks : List Lockf) :
    (blockedIn (locks.map (Lockf.reblock addr (·.erase a)))).Sublist (blockedIn locks) := by
  induction locks with
  | nil => exact List.Sublist.refl _
  | cons lf rest ih =>
    apply List.Sublist.append _ ih
    unfold Lockf.reblock
    split_ifs
    · exact erase_sublist
    · exact List.Sublist.refl _

theorem System.Linked.not_blocked (hlinked : sys.Linked) (hlock : sys.Unlinked lock) (file : ℕ) :
    lock.addr ∉ blockedIn (sys.head file) := by
  intro hmem
  obtain ⟨lf, hlf, ha⟩ := mem_blockedIn.mp hmem
  obtain ⟨r, hr, haddr, _⟩ := hlinked.blocked file lf hlf _ ha
  exact hlock.requests r hr haddr

theorem System.Linked.sleep (hlinked : sys.Linked) {block : Lockf} {proc : ℕ}
    (hlock : sys.Unlinked lock) (hblock : block ∈ sys.head file)
    (hproc : ∀ r ∈ sys.requests, r.proc ≠ proc) : (sys.sleep file proc lock block).Linked := by
  have hrequests : (sys.sleep file proc lock block).requests =
      sys.requests ++ [⟨lock, file, proc, some block.ref, true⟩] := rfl
  constructor
  · intro file' lf' hlf'
    obtain ⟨lf, hlf, hsame, _⟩ := mem_update_reblock hlf'
    rw [hsame.addr]
    exact hlinked.lock_addr file' lf hlf
  · exact forall_mem_append.mpr ⟨hlinked.request_addr, forall_mem_singleton.mpr hlock.addr_lt⟩
  · intro file'
    rw [System.sleep, map_addr_update_reblock]
    exact hlinked.locks_nodup file'
  · rw [hrequests, map_append, nodup_append_comm]
    refine nodup_cons.mpr ⟨fun hmem => ?_, hlinked.requests_nodup⟩
    obtain ⟨r, hr, haddr⟩ := mem_map.mp hmem
    exact hlock.requests r hr haddr
  · rw [hrequests, map_append, nodup_append_comm]
    refine nodup_cons.mpr ⟨fun hmem => ?_, hlinked.procs_nodup⟩
    obtain ⟨r, hr, heq⟩ := mem_map.mp hmem
    exact hproc r hr heq
  · intro file' lf' hlf'
    obtain ⟨lf, hlf, hsame, _⟩ := mem_update_reblock hlf'
    rw [hsame.addr]
    exact forall_mem_append.mpr
      ⟨hlinked.apart file' lf hlf, forall_mem_singleton.mpr (hlock.locks file' lf hlf)⟩
  · refine (forall_update_iff _ fun _ locks => (blockedIn locks).Nodup).mpr
      ⟨nodup_iff_count_le_one.mpr fun b => ?_, fun file' _ => hlinked.blocked_nodup file'⟩
    rw [count_blockedIn_append]
    have hlists := nodup_iff_count_le_one.mp (hlinked.blocked_nodup file) b
    have haddrs := nodup_iff_count_le_one.mp (hlinked.locks_nodup file) block.addr
    by_cases hb : b = lock.addr
    · subst hb
      rw [count_eq_zero.mpr (hlinked.not_blocked hlock file)]
      simpa using haddrs
    · have hzero : [lock.addr].count b = 0 := count_eq_zero.mpr (by simpa using hb)
      rw [hzero]
      simpa using hlists
  · intro file' lf' hlf' a ha
    obtain ⟨lf, hlf, hsame, hlist⟩ := mem_update_reblock hlf'
    have hold : a ∈ lf.lfBlkhd → ∃ r ∈ (sys.sleep file proc lock
        block).requests, r.lock.addr = a ∧ r.file = file' ∧
        r.LinkedTo lf' := by
      intro hmem
      obtain ⟨r, hr, hra, hfile, hlink⟩ := hlinked.blocked file' lf hlf a hmem
      exact ⟨r, mem_append_left _ hr, hra, hfile, hlink.congr hsame⟩
    rcases hlist with ⟨heq, _⟩ | ⟨hfile, haddr, heq⟩
    · exact hold (heq ▸ ha)
    · rw [heq] at ha
      rcases List.mem_append.mp ha with ha | ha
      · exact hold ha
      · subst hfile
        have hsameLock : lf = block := inj_on_of_nodup_map
          (hlinked.locks_nodup file') hlf hblock haddr
        refine ⟨_, mem_append_right _ mem_cons_self,
          (mem_singleton.mp ha).symm, rfl, block.ref, rfl, ?_, ?_⟩
        · rw [hsame.addr, hsameLock]
          rfl
        · rw [hsame.lfId, hsameLock]
          rfl
  · exact forall_mem_append.mpr ⟨hlinked.unblocking, forall_mem_singleton.mpr hlock.unblocking⟩
  · exact forall_mem_append.mpr
      ⟨hlinked.asleep, forall_mem_singleton.mpr fun _ => Option.some_ne_none _⟩

theorem mem_unblock_head (hlf' : lf' ∈ (sys.unblock r).head file) :
    ∃ lf ∈ sys.head file, SameLock lf lf' ∧
      (lf'.lfBlkhd = lf.lfBlkhd ∧ ¬ (file = r.file ∧ r.LinkedTo lf) ∨
        lf'.lfBlkhd = lf.lfBlkhd.erase r.lock.addr) := by
  unfold unblock at hlf'
  cases hnext : r.lfNext with rw [hnext] at hlf'
  | none =>
    refine ⟨lf', hlf', SameLock.refl lf', .inl ⟨rfl, ?_⟩⟩
    rintro ⟨_, block, hblock, _⟩
    rw [hnext] at hblock
    cases hblock
  | some block =>
    obtain ⟨lf, hlf, hsame, ⟨heq, hother⟩ | ⟨_, _, heq⟩⟩ := mem_update_reblock hlf'
    · refine ⟨lf, hlf, hsame, .inl ⟨heq, ?_⟩⟩
      rintro ⟨hfile, block', hblock', haddr', _⟩
      rw [hnext] at hblock'
      cases hblock'
      exact hother ⟨hfile, haddr'.symm⟩
    · exact ⟨lf, hlf, hsame, .inr heq⟩

theorem System.Linked.unblock (hlinked : sys.Linked)
    (hr : r ∈ sys.requests) : (sys.unblock r).Linked := by
  have hsub : ∀ {r'}, r' ∈ (sys.unblock r).requests → r' ∈ sys.requests :=
    fun h => mem_of_mem_filter h
  constructor
  · intro file lf' hlf'
    obtain ⟨lf, hlf, hsame, _⟩ := mem_unblock_head hlf'
    rw [hsame.addr]
    exact hlinked.lock_addr file lf hlf
  · exact fun r' hr' => hlinked.request_addr r' (hsub hr')
  · intro file
    have hold := hlinked.locks_nodup file
    unfold System.unblock
    cases r.lfNext with
    | none => exact hold
    | some block =>
      rwa [map_addr_update_reblock]
  · exact hlinked.requests_nodup.sublist (filter_sublist.map _)
  · exact hlinked.procs_nodup.sublist (filter_sublist.map _)
  · intro file lf' hlf' r' hr'
    obtain ⟨lf, hlf, hsame, _⟩ := mem_unblock_head hlf'
    rw [hsame.addr]
    exact hlinked.apart file lf hlf r' (hsub hr')
  · intro file
    have hold := hlinked.blocked_nodup file
    unfold System.unblock
    cases r.lfNext with
    | none => exact hold
    | some block =>
      exact (forall_update_iff _ fun _ locks => (blockedIn locks).Nodup).mpr
        ⟨(hlinked.blocked_nodup r.file).sublist (blockedIn_erase_sublist _ _ _),
          fun file' _ => hlinked.blocked_nodup file'⟩ file
  · intro file lf' hlf' a ha
    obtain ⟨lf, hlf, hsame, hlist⟩ := mem_unblock_head hlf'
    have hblkhd : lf.lfBlkhd.Nodup := (hlinked.blocked_nodup file).sublist
      (sublist_flatten_of_mem (mem_map_of_mem hlf))
    have hmem : a ∈ lf.lfBlkhd := by
      rcases hlist with ⟨heq, _⟩ | heq
      · exact heq ▸ ha
      · exact mem_of_mem_erase (heq ▸ ha)
    obtain ⟨r', hr', hra, hfile, hlink⟩ := hlinked.blocked file lf hlf a hmem
    refine ⟨r', mem_filter.mpr ⟨hr', ?_⟩, hra, hfile, hlink.congr hsame⟩
    -- the request that leaves is on no list any more
    rw [decide_eq_true_eq]
    intro hproc
    have hself := hlinked.proc_unique hr' hr hproc
    rcases hlist with ⟨_, hother⟩ | heq
    · exact hother ⟨hself ▸ hfile.symm, hself ▸ hlink⟩
    · rw [heq, ← hself, hra] at ha
      exact hblkhd.not_mem_erase ha
  · exact fun r' hr' => hlinked.unblocking r' (hsub hr')
  · exact fun r' hr' => hlinked.asleep r' (hsub hr')

theorem System.Linked.unlinked_unblock (hlinked : sys.Linked)
    (hr : r ∈ sys.requests) : (sys.unblock r).Unlinked r.lock where
  addr_lt := hlinked.request_addr r hr
  locks := by
    intro file lf' hlf'
    obtain ⟨lf, hlf, hsame, _⟩ := mem_unblock_head hlf'
    rw [hsame.addr]
    exact hlinked.apart file lf hlf r hr
  requests := by
    intro r' hr' haddr
    have hkept := mem_filter.mp hr'
    rw [hlinked.request_unique hkept.1 hr haddr] at hkept
    simp at hkept
  unblocking := hlinked.unblocking r hr

theorem unblock_proc_ne (hr' : r' ∈ (sys.unblock r).requests) : r'.proc ≠ r.proc := by
  have hkept := (mem_filter.mp hr').2
  simpa using hkept

theorem lfGetblock_mem {block : Lockf} (hblock : lfGetblock lock locks = some block) :
    block ∈ locks ∧ block.lfId ≠ lock.lfId := by
  induction locks with
  | nil => cases hblock
  | cons lf rest ih =>
    have hpass : lfGetblock lock rest = some block → block ∈ lf :: rest ∧ block.lfId ≠ lock.lfId :=
      fun h => ⟨mem_cons_of_mem _ (ih h).1, (ih h).2⟩
    by_cases hown : lf.lfId = lock.lfId
    · rw [lfGetblock, lfFindoverlap_others_own hown] at hblock
      exact hpass hblock
    · have htest : (if conflicts lock lf then some lf else
          lfGetblock lock rest) = some block →
          block ∈ lf :: rest ∧ block.lfId ≠ lock.lfId := by
        intro h
        split_ifs at h
        · cases h
          exact ⟨mem_cons_self, hown⟩
        · exact hpass h
      unfold lfGetblock at hblock
      cases hcase : lfFindoverlap .others lock lf <;>
        simp only [hcase] at hblock
      · exact hpass hblock
      · cases hblock
      all_goals first | exact htest hblock | cases hblock

theorem clearOwn_others (hlf : lf ∈ sys.head file) (hother : lf.lfId ≠ lock.lfId) :
    lf ∈ (sys.clearOwn file lock).head file := by
  unfold clearOwn
  split_ifs
  · simp only [edit, update_self]
    exact lfClearlock_others sys.nextAddr hlf hother
  · exact hlf

theorem lfSetlock_linked (limits : Limits) (hlinked : sys.Linked) {proc : ℕ}
    (hlock : sys.Unlinked lock) (hproc : ∀ r ∈ sys.requests, r.proc ≠ proc) :
    (lfSetlock limits sys file proc lock).1.Linked := by
  rcases lfSetlock_cases limits sys file proc lock with
    ⟨block, hblock, ⟨_, heq⟩ | ⟨_, heq⟩ | ⟨_, heq⟩⟩ | ⟨_, heq⟩
  all_goals rw [heq]
  · exact hlinked.free lock
  · exact hlinked.free lock
  · obtain ⟨hmem, hother⟩ := lfGetblock_mem hblock
    obtain ⟨hcleared, hunlinked⟩ := hlinked.clearOwn hlock file
    apply hcleared.sleep hunlinked
    · exact clearOwn_others hmem hother
    · unfold clearOwn
      split_ifs
      · intro r hr
        obtain ⟨r₀, hr₀, rfl⟩ := mem_map.mp hr
        rw [Request.edit_proc]
        exact hproc r₀ hr₀
      · exact hproc
  · exact hlinked.edit hlock (lfSetlockWalk_sane sys.nextAddr lock (sys.head file))

theorem System.Linked.signal (hlinked : sys.Linked) (pid : ℕ) :
    ({ sys with requests := sys.requests.map fun r =>
      if r.proc = pid then { r with asleep := false } else r } :
      System).Linked := by
  let wake : Request → Request := fun r =>
    if r.proc = pid then { r with asleep := false } else r
  have hwake : ∀ r, (wake r).lock = r.lock ∧ (wake r).file = r.file ∧
      (wake r).proc = r.proc ∧ (wake r).lfNext = r.lfNext := by
    intro r
    simp only [wake]
    split_ifs <;> exact ⟨rfl, rfl, rfl, rfl⟩
  constructor
  · exact hlinked.lock_addr
  · intro r hr
    obtain ⟨r₀, hr₀, _, rfl, _⟩ := mem_signal hr
    exact hlinked.request_addr r₀ hr₀
  · exact hlinked.locks_nodup
  · change ((sys.requests.map wake).map _).Nodup
    simpa only [map_map, Function.comp_def, (hwake _).1] using hlinked.requests_nodup
  · change ((sys.requests.map wake).map _).Nodup
    simpa only [map_map, Function.comp_def, (hwake _).2.2.1] using hlinked.procs_nodup
  · intro file lf hlf r hr
    obtain ⟨r₀, hr₀, _, rfl, _⟩ := mem_signal hr
    exact hlinked.apart file lf hlf r₀ hr₀
  · exact hlinked.blocked_nodup
  · intro file lf hlf a ha
    obtain ⟨r, hr, hra, hfile, block, hnext, hblock⟩ := hlinked.blocked file lf hlf a ha
    obtain ⟨hlock, hwfile, _, hwnext⟩ := hwake r
    exact ⟨wake r, mem_map_of_mem hr, by rw [hlock, hra],
      by rw [hwfile, hfile], block, by rw [hwnext, hnext], hblock⟩
  · intro r hr
    obtain ⟨r₀, hr₀, _, rfl, _⟩ := mem_signal hr
    exact hlinked.unblocking r₀ hr₀
  · intro r hr hasleep
    obtain ⟨r₀, hr₀, _, rfl, hwas⟩ := mem_signal hr
    exact hlinked.asleep r₀ hr₀ (hwas hasleep)

end Steps

variable {limits : Limits} {sys sys' : System} {event : Event}

theorem System.Linked.step (hlinked : sys.Linked)
    (hstep : AdvisoryLocks.step limits sys event = some sys') : sys'.Linked := by
  refine step_keeps hstep hlinked (fun _ lock h => h.free lock) hlinked.charge ?_ ?_
    hlinked.signal (fun r hr => hlinked.unblock hr) ?_
  · rintro call rfl hproc _ range _
    exact lfSetlock_linked limits (hlinked.charge call.uid) (hlinked.unlinked_call call range) hproc
  · rintro call rfl _ range _
    exact (hlinked.charge call.uid).edit (hlinked.unlinked_call call range)
      (lfClearlock_sane (sys.nextAddr + 1) (call.lock sys.nextAddr range) (sys.head call.file))
  · rintro r hmem interrupted rfl
    exact lfSetlock_linked limits (hlinked.unblock hmem)
      (hlinked.unlinked_unblock hmem) fun _ h => unblock_proc_ne h

theorem linked_initial : initial.Linked := by
  constructor <;> simp [initial]

/-! ## The lock in the way -/

structure Request.BlockedBy (r : Request) (lf : Lockf) : Prop where
  link : r.LinkedTo lf
  listed : r.lock.addr ∈ lf.lfBlkhd
  other : lf.lfId ≠ r.lock.lfId
  overlap : Overlap r.lock lf
  conflict : conflicts r.lock lf

def System.Waits (sys : System) : Prop :=
  ∀ r ∈ sys.requests, r.lfNext ≠ none → ∃ lf ∈ sys.head r.file, r.BlockedBy lf

variable {lock : Lockf}

theorem Guards.blocks (hguards : Guards lf lf') (hoverlap : Overlap lock lf)
    (hconflict : conflicts lock lf) : Overlap lock lf' ∧ conflicts lock lf' := by
  have hstart := hguards.lfStart
  have hlast := hguards.last
  constructor
  · unfold Overlap at hoverlap ⊢
    omega
  · unfold conflicts at hconflict ⊢
    rcases hguards.lfType with htype | htype
    · rwa [htype]
    · exact .inr htype

variable {file : ℕ}

theorem System.Waits.edit {e : Edit} (hwaits : sys.Waits) (hlinked : sys.Linked)
    (hlock : sys.Unlinked lock) (hsane : e.Sane sys.nextAddr lock (sys.head file))
    (haccounts : e.Accounts (sys.head file)) : (sys.edit file lock e).Waits := by
  have hlinked' := hlinked.edit hlock hsane
  intro r' hr' hnext'
  obtain ⟨r, hr, rfl⟩ := mem_map.mp hr'
  by_cases hfile : r.file = file
  · have hnotWoken : r.lock.addr ∉ e.woken := by
      intro hwoken
      simp [Request.edit, hwoken] at hnext'
    have hnext : r.lfNext ≠ none := by
      by_cases hmoved : r.lock.addr ∈ e.moved
      · obtain ⟨lf, hlf, _, ha⟩ := hsane.moved_own _ hmoved
        obtain ⟨_, _, _, _, block, hblock, _⟩ :=
          hlinked.mem_woken hr (mem_blockedIn.mpr ⟨lf, hlf, ha⟩)
        simp [hblock]
      · simpa [Request.edit, hnotWoken, hmoved] using hnext'
    obtain ⟨lf, hlf, hblocked⟩ := hwaits r hr hnext
    rw [hfile] at hlf
    rcases haccounts lf hlf _ hblocked.listed with hwoken | ⟨lf', hlf', ha, hguards⟩
    · exact absurd hwoken hnotWoken
    · have hmem : lf' ∈ (sys.edit file lock e).head r.file := by
        simpa [System.edit, hfile] using hlf'
      obtain ⟨r'', hr'', haddr, _, hlink⟩ := hlinked'.blocked _ lf' hmem _ ha
      rw [hlinked'.request_unique hr'' hr' (by rw [haddr, Request.edit_lock])] at hlink
      obtain ⟨hoverlap, hconflict⟩ := hguards.blocks hblocked.overlap hblocked.conflict
      refine ⟨lf', by rwa [Request.edit_file], hlink, ?_, ?_, ?_, ?_⟩
      all_goals rw [Request.edit_lock]
      · exact ha
      · rw [hguards.lfId]
        exact hblocked.other
      · exact hoverlap
      · exact hconflict
  · rw [hsane.edit_other hlinked hr hfile] at hnext' ⊢
    obtain ⟨lf, hlf, hblocked⟩ := hwaits r hr hnext'
    refine ⟨lf, ?_, hblocked⟩
    simpa only [System.edit, update_of_ne hfile] using hlf

theorem blockedBy_of_same (hlink : r.LinkedTo lf) (hother : lf.lfId ≠ r.lock.lfId)
    (hoverlap : Overlap r.lock lf) (hconflict : conflicts r.lock lf) (hsame : SameLock lf lf')
    (hlisted : r.lock.addr ∈ lf'.lfBlkhd) : r.BlockedBy lf' := by
  refine ⟨hlink.congr hsame, hlisted, by rwa [hsame.lfId], ?_, ?_⟩
  · unfold Overlap at hoverlap ⊢
    rwa [hsame.last, hsame.lfStart]
  · unfold conflicts at hconflict ⊢
    rwa [hsame.lfType]

theorem Request.BlockedBy.congr (hblocked : r.BlockedBy lf) (hsame : SameLock lf lf')
    (hlisted : r.lock.addr ∈ lf'.lfBlkhd) : r.BlockedBy lf' :=
  blockedBy_of_same hblocked.link hblocked.other hblocked.overlap hblocked.conflict hsame hlisted

theorem System.Waits.sleep (hwaits : sys.Waits) {block : Lockf} {proc : ℕ}
    (hblock : block ∈ sys.head file) (hother : block.lfId ≠ lock.lfId)
    (hoverlap : Overlap lock block) (hconflict : conflicts lock block) :
    (sys.sleep file proc lock block).Waits := by
  intro r hr hnext
  rcases List.mem_append.mp hr with hr | hr
  · obtain ⟨lf, hlf, hblocked⟩ := hwaits r hr hnext
    obtain ⟨lf', hlf', hsame, hkept⟩ := exists_update_reblock file block.addr (· ++ [lock.addr]) hlf
    exact ⟨lf', hlf', hblocked.congr hsame
      (hkept _ hblocked.listed (mem_append_left _ hblocked.listed))⟩
  · rw [mem_singleton.mp hr]
    refine ⟨block.reblock block.addr (· ++ [lock.addr]), ?_, blockedBy_of_same
      ⟨block.ref, rfl, rfl, rfl⟩ hother hoverlap hconflict (sameLock_reblock _ _ block) ?_⟩
    · simp only [System.sleep, update_self]
      exact mem_map_of_mem hblock
    · simp [Lockf.reblock]

theorem System.Waits.unblock (hwaits : sys.Waits) (hlinked : sys.Linked) (hr : r ∈ sys.requests) :
    (sys.unblock r).Waits := by
  intro r' hr' hnext
  have hmem : r' ∈ sys.requests := mem_of_mem_filter hr'
  have hne : r'.lock.addr ≠ r.lock.addr := by
    intro haddr
    apply unblock_proc_ne hr'
    rw [hlinked.request_unique hmem hr haddr]
  obtain ⟨lf, hlf, hblocked⟩ := hwaits r' hmem hnext
  unfold System.unblock
  cases r.lfNext with
  | none => exact ⟨lf, hlf, hblocked⟩
  | some block =>
    obtain ⟨lf', hlf', hsame, hkept⟩ :=
      exists_update_reblock r.file block.addr (·.erase r.lock.addr) hlf
    exact ⟨lf', hlf', hblocked.congr hsame
      (hkept _ hblocked.listed ((mem_erase_of_ne hne).mpr hblocked.listed))⟩

theorem System.Compatible.typed (hcompatible : sys.Compatible) (hvalid : sys.Valid)
    (hlf : lf ∈ sys.head file) : lf.lfType ≠ .unlck := by
  have hwf := (hvalid.locks file).wf lf hlf
  exact hcompatible.map.typed file lf.lfId lf.lfStart lf.lfType hwf.start_le
    ⟨lf, hlf, rfl, rfl, le_refl _, hwf.start_le_last⟩

theorem System.Waits.clearOwn (hwaits : sys.Waits) (hlinked : sys.Linked)
    (hlock : sys.Unlinked lock) (file : ℕ) : (sys.clearOwn file lock).Waits := by
  unfold System.clearOwn
  split_ifs
  · have hcleared : sys.Unlinked lock.cleared := { hlock with }
    exact hwaits.edit hlinked hcleared (lfClearlock_sane sys.nextAddr lock.cleared (sys.head file))
      (lfClearlock_accounts sys.nextAddr lock.cleared (sys.head file))
  · exact hwaits

theorem lfSetlock_waits (limits : Limits) (proc : ℕ) (hvalid : sys.Valid)
    (hcompatible : sys.Compatible) (hlinked : sys.Linked) (hunlinked : sys.Unlinked lock)
    (hlock : lock.WF) (htype : lock.lfType ≠ .unlck) (hwaits : sys.Waits) :
    (lfSetlock limits sys file proc lock).1.Waits := by
  rcases lfSetlock_cases limits sys file proc lock with
    ⟨block, hblock, ⟨_, heq⟩ | ⟨_, heq⟩ | ⟨_, heq⟩⟩ | ⟨_, heq⟩
  all_goals rw [heq]
  · exact hwaits
  · exact hwaits
  · have hspec := lfGetblock_spec hlock (hvalid.locks file).wf
    rw [hblock] at hspec
    obtain ⟨hmem, hother, hoverlap, hconflict⟩ := hspec
    exact (hwaits.clearOwn hlinked hunlinked file).sleep
      (clearOwn_others hmem hother) hother hoverlap hconflict
  · exact hwaits.edit hlinked hunlinked (lfSetlockWalk_sane sys.nextAddr lock (sys.head file))
      (lfSetlockWalk_accounts sys.nextAddr hlock (hvalid.locks file) htype
        fun lf hlf => hcompatible.typed hvalid hlf)

theorem System.Waits.step (hwaits : sys.Waits) (hvalid : sys.Valid) (hcompatible : sys.Compatible)
    (hlinked : sys.Linked) (hproper : event.Proper)
    (hstep : AdvisoryLocks.step limits sys event = some sys') : sys'.Waits := by
  have hcharge : ∀ uid, (sys.charge uid).Waits := fun _ => hwaits
  refine step_keeps hstep hwaits (fun _ _ h => h) hcharge ?_ ?_ ?_
    (fun r hr => hwaits.unblock hlinked hr) ?_
  · rintro call rfl _ hop range hrange
    exact lfSetlock_waits limits call.proc (hvalid.charge call.uid) (hcompatible.charge call.uid)
      (hlinked.charge call.uid) (hlinked.unlinked_call call range)
      (call.lock_wf sys.nextAddr hrange) (hproper hop) hwaits
  · rintro call rfl _ range _
    exact (hcharge call.uid).edit (hlinked.charge call.uid) (hlinked.unlinked_call call range)
      (lfClearlock_sane (sys.nextAddr + 1) (call.lock sys.nextAddr range) (sys.head call.file))
      (lfClearlock_accounts (sys.nextAddr + 1) (call.lock sys.nextAddr range) (sys.head call.file))
  · intro pid r hr hnext
    obtain ⟨r₀, hr₀, _, rfl, _⟩ := mem_signal hr
    obtain ⟨lf, hlf, hblocked⟩ := hwaits r₀ hr₀ hnext
    exact ⟨lf, hlf, { hblocked with link := hblocked.link }⟩
  · rintro r hmem interrupted rfl
    exact lfSetlock_waits limits r.proc (hvalid.unblock r) (hcompatible.unblock r)
      (hlinked.unblock hmem) (hlinked.unlinked_unblock hmem)
      (hvalid.requests r hmem) (hcompatible.requests r hmem) (hwaits.unblock hlinked hmem)

end AerieKernel.AdvisoryLocks
