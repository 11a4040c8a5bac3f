import AerieKernel.AcyclicRelations
import AerieKernel.AdvisoryLockWaiting

/-!
# Deadlock detection

Before a process sleeps in `lf_setlock`, the chain of sleeping processes from
the owner of the blocking lock on is followed, for at most `maxlockdepth`
steps.  A new edge of the wait-for graph is made only there: the walks over
the lock lists move requests between locks of one owner and wake others.
-/

namespace AerieKernel.AdvisoryLocks

open Run Relation Relations List System

/-! ## The wait-for graph -/

/-- The process sleeps in a request whose link names a lock of the other
process. -/
def WaitsFor (sys : System) (pid pid' : ℕ) : Prop :=
  ∃ r ∈ sys.requests, r.proc = pid ∧ r.asleep ∧
    ∃ block, r.lfNext = some block ∧ block.lfId = .proc pid'

def System.ChainsWithin (sys : System) (depth : ℕ) : Prop :=
  ∀ chain : List ℕ, chain.Nodup → chain.IsChain (WaitsFor sys) →
    (∀ pid ∈ chain, ∃ pid', WaitsFor sys pid pid') → chain.length ≤ depth

def Event.Posix : Event → Prop
  | .advlock call => call.flags.posix = true ∧ call.flags.flock = false ∧
      call.id = .proc call.proc
  | .signal _ | .resume _ _ => True

instance (event : Event) : Decidable event.Posix :=
  match event with
  | .advlock _ => inferInstanceAs (Decidable (_ ∧ _))
  | .signal _ | .resume .. => isTrue trivial

def PosixOwned (lfId : Owner) (lfFlags : LockFlags) : Prop :=
  lfFlags.posix = true ∧ ∃ pid, lfId = .proc pid

structure System.Posix (sys : System) : Prop where
  locks : ∀ file, ∀ lf ∈ sys.head file, PosixOwned lf.lfId lf.lfFlags
  requests : ∀ r ∈ sys.requests, r.lock.lfFlags.posix = true ∧
    r.lock.lfFlags.flock = false ∧ r.lock.lfId = .proc r.proc
  links : ∀ r ∈ sys.requests, ∀ block, r.lfNext = some block → PosixOwned block.lfId block.lfFlags

/-! ## The scan -/

variable {sys : System} {r : Request}

theorem asleepAt_of_mem (hlinked : sys.Linked) (hr : r ∈ sys.requests) (hasleep : r.asleep) :
    sys.asleepAt (.proc r.proc) = some r := by
  change sys.requests.find? _ = some r
  cases hfind : sys.requests.find? fun r' => r'.proc = r.proc ∧ r'.asleep with
  | none =>
    have hnone := find?_eq_none.mp hfind r hr
    simp [hasleep] at hnone
  | some r' =>
    have htest := find?_some hfind
    simp only [decide_eq_true_eq] at htest
    have hmem := mem_of_find?_eq_some hfind
    rw [hlinked.proc_unique hmem hr htest.1]

variable {depth pid : ℕ} {target : ℕ}

theorem deadlock_of_chain (hlinked : sys.Linked) (hposix : sys.Posix) {chain : List ℕ}
    (hchain : (pid :: chain).IsChain (WaitsFor sys))
    (hlast : WaitsFor sys ((pid :: chain).getLast (cons_ne_nil pid chain)) target)
    (hdepth : (pid :: chain).length ≤ depth) :
    deadlock sys (.proc target) depth (.proc pid) = true := by
  induction chain generalizing pid depth with
  | nil =>
    obtain ⟨r, hr, rfl, hasleep, block, hnext, hid⟩ := hlast
    cases depth with
    | zero => simp at hdepth
    | succ depth =>
      have hflag := (hposix.links r hr block hnext).1
      simp [deadlock, asleepAt_of_mem hlinked hr hasleep, hnext, hflag, hid]
  | cons pid' chain ih =>
    rw [isChain_cons_cons] at hchain
    obtain ⟨⟨r, hr, rfl, hasleep, block, hnext, hid⟩, hrest⟩ := hchain
    cases depth with
    | zero => simp at hdepth
    | succ depth =>
      have hflag := (hposix.links r hr block hnext).1
      have hfound := ih hrest (by rwa [getLast_cons_cons] at hlast) (by simpa using hdepth)
      simp [deadlock, asleepAt_of_mem hlinked hr hasleep, hnext, hflag, hid, hfound]

theorem transGen_of_deadlock (hposix : sys.Posix)
    (hfound : deadlock sys (.proc target) depth (.proc pid) = true) :
    TransGen (WaitsFor sys) pid target := by
  induction depth generalizing pid with
  | zero => cases hfound
  | succ depth ih =>
    unfold deadlock at hfound
    cases hasleep : sys.asleepAt (.proc pid) with
    | none => simp [hasleep] at hfound
    | some r =>
      have htest := find?_some hasleep
      simp only [decide_eq_true_eq] at htest
      have hr := mem_of_find?_eq_some hasleep
      cases hnext : r.lfNext with
      | none => simp [hasleep, hnext] at hfound
      | some block =>
        obtain ⟨hflag, pid', hid⟩ := hposix.links r hr block hnext
        have hedge : WaitsFor sys pid pid' := ⟨r, hr, htest.1, htest.2, block, hnext, hid⟩
        simp only [hasleep, hnext, hflag, hid, Bool.not_true,
          Bool.false_eq_true, if_false] at hfound
        split_ifs at hfound with htarget
        · cases htarget
          exact TransGen.single hedge
        · exact TransGen.head hedge (ih hfound)

/-! ## Owners -/

section Owners

variable {P : Owner → LockFlags → Prop} {lock lf : Lockf}

def Owned (P : Owner → LockFlags → Prop) (locks : List Lockf) : Prop :=
  ∀ lf ∈ locks, P lf.lfId lf.lfFlags

variable {locks : List Lockf}

theorem owned_cons : Owned P (lf :: locks) ↔ P lf.lfId lf.lfFlags ∧ Owned P locks :=
  forall_mem_cons

theorem owned_append {locks' : List Lockf} :
    Owned P (locks ++ locks') ↔ Owned P locks ∧ Owned P locks' := forall_mem_append

theorem lfSplit_owned (fresh : ℕ) (lock : Lockf) (hlf : P lf.lfId lf.lfFlags) :
    Owned P (lfSplit fresh lf.awake lock).1 ∧ Owned P (lfSplit fresh lf.awake lock).2 := by
  unfold lfSplit
  split_ifs <;> simpa [Owned, Lockf.awake] using hlf

theorem lfClearlock_owned (fresh : ℕ) (lock : Lockf) (howned : Owned P locks) :
    Owned P (lfClearlock fresh lock locks).locks := by
  induction locks with
  | nil => exact howned
  | cons lf rest ih =>
    obtain ⟨hlf, hrest⟩ := owned_cons.mp howned
    unfold lfClearlock
    cases lfFindoverlap .self lock lf with
    | skip => exact owned_cons.mpr ⟨hlf, ih hrest⟩
    | stop | panic => exact howned
    | same => exact hrest
    | contains =>
      obtain ⟨hfront, hback⟩ := lfSplit_owned fresh lock hlf
      exact owned_append.mpr ⟨owned_append.mpr ⟨hfront, hback⟩, hrest⟩
    | contained => exact ih hrest
    | startsBefore => exact owned_cons.mpr ⟨hlf, ih hrest⟩
    | endsAfter => exact owned_cons.mpr ⟨hlf, hrest⟩

theorem retype_owned (hlf : P lf.lfId lf.lfFlags) :
    P (lf.retype lock).lfId (lf.retype lock).lfFlags := by
  unfold Lockf.retype
  split_ifs <;> exact hlf

theorem takeList_owned (hlock : P lock.lfId lock.lfFlags) :
    P (lock.takeList lf).lfId (lock.takeList lf).lfFlags := by
  unfold Lockf.takeList
  split_ifs <;> exact hlock

theorem Edit.takeList_locks (e : Edit) (lock lf : Lockf) :
    (e.takeList lock lf).locks = e.locks := by
  unfold Edit.takeList
  split_ifs <;> rfl

theorem lfSetlockLinked_owned (fresh : ℕ) {passed rest : List Lockf}
    (hlock : P lock.lfId lock.lfFlags) (hpassed : Owned P passed) (hrest : Owned P rest) :
    Owned P (lfSetlockLinked fresh lock passed rest).locks := by
  induction rest generalizing lock passed with
  | nil => exact owned_cons.mpr ⟨hlock, hpassed⟩
  | cons lf rest ih =>
    obtain ⟨hlf, htail⟩ := owned_cons.mp hrest
    have hkept : ∀ {part : Lockf}, P part.lfId part.lfFlags →
        Owned P (lock :: passed ++ part :: rest) :=
      fun hpart => owned_append.mpr ⟨owned_cons.mpr ⟨hlock, hpassed⟩, owned_cons.mpr ⟨hpart, htail⟩⟩
    unfold lfSetlockLinked
    cases lfFindoverlap .self lock lf with
    | skip =>
      apply ih hlock _ htail
      exact owned_append.mpr ⟨hpassed, owned_cons.mpr ⟨hlf, by
        simp [Owned]⟩⟩
    | stop | panic => exact hkept hlf
    | same =>
      split_ifs <;> exact hkept (retype_owned hlf)
    | contains =>
      dsimp only
      split_ifs
      · exact hkept hlf
      · exact owned_append.mpr ⟨owned_cons.mpr ⟨hlock, (lfSplit_owned fresh lock hlf).2⟩, htail⟩
    | contained =>
      rw [Edit.takeList_locks]
      exact ih (takeList_owned hlock) hpassed htail
    | startsBefore => exact ih hlock (by simp [Owned]) htail
    | endsAfter => exact hkept hlf

theorem lfSetlockWalk_owned (fresh : ℕ) (hlock : P lock.lfId lock.lfFlags)
    (howned : Owned P locks) : Owned P (lfSetlockWalk fresh lock locks).locks := by
  have hnil : Owned P [] := by simp [Owned]
  induction locks with
  | nil => exact owned_cons.mpr ⟨hlock, hnil⟩
  | cons lf rest ih =>
    obtain ⟨hlf, hrest⟩ := owned_cons.mp howned
    unfold lfSetlockWalk
    cases lfFindoverlap .self lock lf with
    | skip => exact owned_cons.mpr ⟨hlf, ih hrest⟩
    | stop | panic => exact owned_cons.mpr ⟨hlock, howned⟩
    | same =>
      split_ifs <;> exact owned_cons.mpr ⟨retype_owned hlf, hrest⟩
    | contains =>
      dsimp only
      split_ifs
      · exact howned
      · obtain ⟨hfront, hback⟩ := lfSplit_owned fresh lock hlf
        exact owned_append.mpr ⟨owned_append.mpr ⟨hfront, owned_cons.mpr ⟨hlock, hback⟩⟩, hrest⟩
    | contained =>
      rw [Edit.takeList_locks]
      exact lfSetlockLinked_owned fresh (takeList_owned hlock) hnil hrest
    | startsBefore =>
      exact owned_cons.mpr ⟨hlf, lfSetlockLinked_owned fresh hlock hnil hrest⟩
    | endsAfter =>
      exact owned_cons.mpr ⟨hlock, owned_cons.mpr ⟨hlf, hrest⟩⟩

end Owners

/-! ## Steps -/

section Steps

variable {sys : System} {file proc : ℕ} {lock : Lockf}

structure PosixRequest (lock : Lockf) (proc : ℕ) : Prop where
  posix : lock.lfFlags.posix = true
  flock : lock.lfFlags.flock = false
  lfId : lock.lfId = .proc proc

theorem PosixRequest.owned (hlock : PosixRequest lock proc) : PosixOwned lock.lfId lock.lfFlags :=
  ⟨hlock.posix, proc, hlock.lfId⟩

theorem System.Posix.edit (hposix : sys.Posix) (hlock : PosixOwned lock.lfId lock.lfFlags)
    {e : Edit} (howned : Owned PosixOwned e.locks) : (sys.edit file lock e).Posix := by
  constructor
  · exact (Function.forall_update_iff _ fun _ => Owned PosixOwned).mpr
      ⟨howned, fun file' _ => hposix.locks file'⟩
  · intro r hr
    obtain ⟨r₀, hr₀, rfl⟩ := mem_map.mp hr
    rw [Request.edit_lock, Request.edit_proc]
    exact hposix.requests r₀ hr₀
  · intro r hr block hnext
    obtain ⟨r₀, hr₀, rfl⟩ := mem_map.mp hr
    unfold Request.edit at hnext
    split_ifs at hnext
    · cases hnext
      exact hlock
    · exact hposix.links r₀ hr₀ block hnext

theorem System.Posix.sleep (hposix : sys.Posix) {block : Lockf} (hlock : PosixRequest lock proc)
    (hblock : block ∈ sys.head file) : (sys.sleep file proc lock block).Posix := by
  constructor
  · intro file' lf' hlf'
    obtain ⟨lf, hlf, hsame, _⟩ := mem_update_reblock hlf'
    rw [hsame.lfId, hsame.lfFlags]
    exact hposix.locks file' lf hlf
  · exact forall_mem_append.mpr ⟨hposix.requests,
      forall_mem_singleton.mpr ⟨hlock.posix, hlock.flock, hlock.lfId⟩⟩
  · refine forall_mem_append.mpr ⟨hposix.links, forall_mem_singleton.mpr ?_⟩
    rintro block' ⟨⟩
    exact hposix.locks file block hblock

theorem System.Posix.unblock (hposix : sys.Posix) (r : Request) : (sys.unblock r).Posix := by
  constructor
  · intro file lf' hlf'
    obtain ⟨lf, hlf, hsame, _⟩ := mem_unblock_head hlf'
    rw [hsame.lfId, hsame.lfFlags]
    exact hposix.locks file lf hlf
  · exact fun r' hr' => hposix.requests r' (mem_of_mem_filter hr')
  · exact fun r' hr' => hposix.links r' (mem_of_mem_filter hr')

variable {pid' : ℕ}

theorem WaitsFor.of_edit {e : Edit} (hlinked : sys.Linked)
    (hsane : e.Sane sys.nextAddr lock (sys.head file))
    (hwaits : WaitsFor (sys.edit file lock e) pid pid') : WaitsFor sys pid pid' := by
  obtain ⟨r', hr', hproc, hasleep, block, hnext, hid⟩ := hwaits
  obtain ⟨r, hr, rfl⟩ := mem_map.mp hr'
  rw [Request.edit_proc] at hproc
  unfold Request.edit at hasleep hnext
  split_ifs at hasleep hnext with _ hmoved
  · obtain ⟨lf, hlf, hown, ha⟩ := hsane.moved_own _ hmoved
    obtain ⟨r₀, hr₀, haddr, _, block₀, hnext₀, _, hid₀⟩ := hlinked.blocked file lf hlf _ ha
    cases hlinked.request_unique hr₀ hr haddr
    cases hnext
    refine ⟨r, hr, hproc, hasleep, block₀, hnext₀, ?_⟩
    rw [hid₀, hown]
    exact hid
  · exact ⟨r, hr, hproc, hasleep, block, hnext, hid⟩

theorem WaitsFor.of_sleep {block : Lockf}
    (hwaits : WaitsFor (sys.sleep file proc lock block) pid pid') :
    WaitsFor sys pid pid' ∨ pid = proc ∧ block.lfId = .proc pid' := by
  obtain ⟨r, hr, hproc, hasleep, block', hnext, hid⟩ := hwaits
  rcases List.mem_append.mp hr with hr | hr
  · exact .inl ⟨r, hr, hproc, hasleep, block', hnext, hid⟩
  · rw [mem_singleton.mp hr] at hproc hnext
    cases hnext
    exact .inr ⟨hproc.symm, hid⟩

theorem WaitsFor.sleep (hwaits : WaitsFor sys pid pid') (file proc : ℕ) (lock block : Lockf) :
    WaitsFor (sys.sleep file proc lock block) pid pid' := by
  obtain ⟨r, hr, hedge⟩ := hwaits
  exact ⟨r, mem_append_left _ hr, hedge⟩

theorem System.ChainsWithin.mono {sys' : System} (hchains : sys.ChainsWithin depth)
    (hless : ∀ pid pid', WaitsFor sys' pid pid' → WaitsFor sys pid pid') :
    sys'.ChainsWithin depth := by
  intro chain hnodup hchain hwaiting
  apply hchains chain hnodup (hchain.imp hless)
  intro pid hpid
  obtain ⟨pid', hwaits⟩ := hwaiting pid hpid
  exact ⟨pid', hless pid pid' hwaits⟩

theorem deadlock_of_transGen (hlinked : sys.Linked) (hposix : sys.Posix)
    (hacyclic : Acyclic (WaitsFor sys)) (hchains : sys.ChainsWithin depth)
    (hpath : TransGen (WaitsFor sys) pid target) :
    deadlock sys (.proc target) depth (.proc pid) = true := by
  obtain ⟨chain, hchain, hlast, hwaiting⟩ := exists_chain_of_transGen hpath
  apply deadlock_of_chain hlinked hposix hchain hlast
  exact hchains _ (hacyclic.nodup hchain) hchain hwaiting

theorem clearOwn_of_posix (hlock : PosixRequest lock proc) : sys.clearOwn file lock = sys := by
  simp [clearOwn, hlock.flock]

variable {limits : Limits}

theorem lfSetlock_acyclic (hlinked : sys.Linked) (hposix : sys.Posix)
    (hacyclic : Acyclic (WaitsFor sys)) (hchains : sys.ChainsWithin limits.maxlockdepth)
    (hlock : PosixRequest lock proc) :
    (lfSetlock limits sys file proc lock).1.Posix ∧
      Acyclic (WaitsFor (lfSetlock limits sys file proc lock).1) := by
  rcases lfSetlock_cases limits sys file proc lock with
    ⟨block, hblock, ⟨_, heq⟩ | ⟨_, heq⟩ | ⟨hscan, heq⟩⟩ | ⟨_, heq⟩
  all_goals rw [heq]
  · exact ⟨{ hposix with }, hacyclic⟩
  · exact ⟨{ hposix with }, hacyclic⟩
  · obtain ⟨hmem, hother⟩ := lfGetblock_mem hblock
    obtain ⟨hflag, pid, hpid⟩ := hposix.locks file block hmem
    rw [clearOwn_of_posix hlock]
    refine ⟨hposix.sleep hlock hmem, ?_⟩
    refine hacyclic.insert (a := proc) (b := pid) ?_ ?_
    · intro x y hedge
      rcases hedge.of_sleep with hold | ⟨hx, hy⟩
      · exact .inl hold
      · rw [hpid] at hy
        cases hy
        exact .inr ⟨hx, rfl⟩
    · intro hpath
      rcases reflTransGen_iff_eq_or_transGen.mp hpath with heq | hpath
      · apply hother
        rw [hpid, hlock.lfId, heq]
      · have hfound := deadlock_of_transGen hlinked hposix hacyclic hchains hpath
        simp [hlock.posix, hflag, hlock.lfId, hpid, hfound] at hscan
  · have hsane := lfSetlockWalk_sane sys.nextAddr lock (sys.head file)
    exact ⟨hposix.edit hlock.owned (lfSetlockWalk_owned sys.nextAddr
        hlock.owned (hposix.locks file)), hacyclic.mono fun _ _ h => h.of_edit hlinked hsane⟩

theorem lfSetlock_edeadlk (hposix : sys.Posix) (hlock : PosixRequest lock proc)
    (hresult : (lfSetlock limits sys file proc lock).2 = .error .edeadlk) :
    ∃ block, lfGetblock lock (sys.head file) = some block ∧
      ¬ Acyclic (WaitsFor (sys.sleep file proc lock block)) := by
  rcases lfSetlock_cases limits sys file proc lock with
    ⟨block, hblock, ⟨_, heq⟩ | ⟨hscan, _⟩ | ⟨_, heq⟩⟩ | ⟨_, heq⟩
  · rw [heq] at hresult
    cases hresult
  · refine ⟨block, hblock, ?_⟩
    intro hacyclic
    obtain ⟨hmem, _⟩ := lfGetblock_mem hblock
    obtain ⟨_, pid, hpid⟩ := hposix.locks file block hmem
    rw [hlock.lfId, hpid] at hscan
    have hpath : TransGen (WaitsFor sys) pid proc :=
      transGen_of_deadlock hposix (Bool.and_eq_true_iff.mp hscan).2
    have hedge : WaitsFor (sys.sleep file proc lock block) proc pid :=
      ⟨_, mem_append_right _ mem_cons_self, rfl, rfl, block.ref,
        rfl, hpid⟩
    exact hacyclic proc (TransGen.head hedge
      (TransGen.mono (fun _ _ h => h.sleep file proc lock block) _ _ hpath))
  · rw [heq] at hresult
    cases hresult
  · rw [heq] at hresult
    cases hresult

end Steps

structure System.DeadlockFree (sys : System) : Prop where
  linked : sys.Linked
  posix : sys.Posix
  acyclic : Acyclic (WaitsFor sys)

theorem Call.posixRequest {call : Call} (hposix : (Event.advlock call).Posix) (addr : ℕ)
    (range : ℤ × ℤ) : PosixRequest (call.lock addr range) call.proc :=
  ⟨hposix.1, hposix.2.1, hposix.2.2⟩

variable {sys : System}

theorem System.Posix.posixRequest (hposix : sys.Posix)
    (hr : r ∈ sys.requests) : PosixRequest r.lock r.proc :=
  ⟨(hposix.requests r hr).1, (hposix.requests r hr).2.1, (hposix.requests r hr).2.2⟩

variable {limits : Limits}

theorem System.DeadlockFree.step {sys' : System} {event : Event} (hfree : sys.DeadlockFree)
    (hevent : event.Posix) (hchains : sys.ChainsWithin limits.maxlockdepth)
    (hstep : AdvisoryLocks.step limits sys event = some sys') : sys'.DeadlockFree := by
  obtain ⟨hlinked, hposix, hacyclic⟩ := hfree
  have hcharge : ∀ uid, (sys.charge uid).Posix := fun _ => { hposix with }
  have hless : ∀ r pid pid', WaitsFor (sys.unblock r) pid pid' →
      WaitsFor sys pid pid' := by
    rintro r pid pid' ⟨r', hr', hedge⟩
    exact ⟨r', mem_of_mem_filter hr', hedge⟩
  suffices hboth : sys'.Posix ∧ Acyclic (WaitsFor sys') from
    ⟨hlinked.step hstep, hboth.1, hboth.2⟩
  refine step_keeps (P := fun sys => sys.Posix ∧ Acyclic (WaitsFor sys)) hstep
    ⟨hposix, hacyclic⟩ (fun _ _ h => ⟨{ h.1 with }, h.2⟩) (fun uid => ⟨hcharge uid, hacyclic⟩)
    ?_ ?_ ?_ (fun r _ => ⟨hposix.unblock r, hacyclic.mono (hless r)⟩) ?_
  · rintro call rfl _ _ range _
    exact lfSetlock_acyclic (hlinked.charge call.uid) (hcharge call.uid) hacyclic
      hchains (call.posixRequest hevent sys.nextAddr range)
  · rintro call rfl _ range _
    refine ⟨(hcharge call.uid).edit (call.posixRequest hevent sys.nextAddr range).owned
      (lfClearlock_owned (sys.nextAddr + 1) _ (hposix.locks call.file)), hacyclic.mono ?_⟩
    intro pid pid' hedge
    have hold : WaitsFor (sys.charge call.uid) pid pid' :=
      WaitsFor.of_edit (hlinked.charge call.uid) (lfClearlock_sane (sys.nextAddr + 1)
          (call.lock sys.nextAddr range) (sys.head call.file)) hedge
    exact hold
  · intro pid
    refine ⟨⟨hposix.locks, ?_, ?_⟩, hacyclic.mono ?_⟩
    · intro r hr
      obtain ⟨r₀, hr₀, _, rfl, _⟩ := mem_signal hr
      exact hposix.requests r₀ hr₀
    · intro r hr
      obtain ⟨r₀, hr₀, _, rfl, _⟩ := mem_signal hr
      exact hposix.links r₀ hr₀
    · rintro pid₁ pid₂ ⟨r, hr, hproc, hasleep, hlink⟩
      obtain ⟨r₀, hr₀, _, rfl, hwas⟩ := mem_signal hr
      exact ⟨r₀, hr₀, hproc, hwas hasleep, hlink⟩
  · rintro r hmem interrupted rfl
    exact lfSetlock_acyclic (hlinked.unblock hmem) (hposix.unblock r)
      (hacyclic.mono (hless r)) (hchains.mono (hless r)) (hposix.posixRequest hmem)

theorem deadlockFree_initial : initial.DeadlockFree := by
  refine ⟨linked_initial, ?_, ?_⟩
  · constructor <;> simp [initial]
  · intro pid hcycle
    obtain ⟨_, ⟨r, hr, _⟩, _⟩ := TransGen.head'_iff.mp hcycle
    simp [initial] at hr

/-- Along every run of `fcntl` requests in which no chain of sleeping
processes is longer than `maxlockdepth`, the wait-for graph has no cycle, and
`EDEADLK` is returned only for a request whose sleep would close one. -/
theorem wait_graph_acyclic {limits : Limits} {sys : System} (hrun : GuardedRun (step limits)
      (fun sys event => event.Posix ∧ sys.ChainsWithin limits.maxlockdepth) System.initial sys) :
    Acyclic (WaitsFor sys) ∧ (∀ call sys', (Event.advlock call).Posix →
      stepResult limits sys (.advlock call) = some (sys', .error .edeadlk) →
      ∃ range block, call.range = some range ∧
        lfGetblock (call.lock sys.nextAddr range) (sys.head call.file) = some block ∧
        ¬ Acyclic (WaitsFor (sys.sleep call.file call.proc (call.lock sys.nextAddr range) block))) ∧
    ∀ pid interrupted sys',
      stepResult limits sys (.resume pid interrupted) = some (sys', .error .edeadlk) →
      ∃ r ∈ sys.requests, r.proc = pid ∧ ∃ block,
        lfGetblock r.lock ((sys.unblock r).head r.file) = some block ∧
        ¬ Acyclic (WaitsFor ((sys.unblock r).sleep r.file pid r.lock block)) := by
  have hfree : sys.DeadlockFree := by
    refine hrun.invariant deadlockFree_initial ?_
    intro before event after hbefore hguard hstep
    exact hbefore.step hguard.1 hguard.2 hstep
  refine ⟨hfree.acyclic, ?_, ?_⟩
  · intro call sys' hevent hstep
    simp only [stepResult] at hstep
    split_ifs at hstep
    have hresult : (lfAdvlock limits sys call).2 = .error .edeadlk := by
      rw [Option.some.inj hstep]
    rcases lfAdvlock_cases limits sys call with
      ⟨errno, herrno, heq⟩ | ⟨_, _, result, heq, hok⟩ | ⟨range, hrange,
        ⟨hop, heq⟩ | ⟨hop, heq⟩ | ⟨reply, heq⟩ | heq⟩
    all_goals rw [heq] at hresult
    · rcases herrno with rfl | rfl <;> cases hresult
    · rcases hok with rfl | rfl <;> cases hresult
    · have hcharge : (sys.charge call.uid).Posix := { hfree.posix with }
      obtain ⟨block, hblock, hcycle⟩ := lfSetlock_edeadlk hcharge
        (call.posixRequest hevent sys.nextAddr range) hresult
      exact ⟨range, block, hrange, hblock, hcycle⟩
    · cases hresult
    · cases hresult
    · cases hresult
  · intro pid interrupted sys' hstep
    obtain ⟨r, hmem, rfl, _, heq | heq⟩ := stepResult_resume hstep
    · cases heq
    · refine ⟨r, hmem, rfl, ?_⟩
      apply lfSetlock_edeadlk (hfree.posix.unblock r) (hfree.posix.posixRequest hmem)
      rw [← heq]

theorem chainsWithin_of_length
    (hlength : sys.requests.length ≤ depth) : sys.ChainsWithin depth := by
  intro chain hnodup _ hwaiting
  have hsub : chain ⊆ sys.requests.map Request.proc := by
    intro pid hpid
    obtain ⟨_, r, hr, hproc, _⟩ := hwaiting pid hpid
    exact mem_map.mpr ⟨r, hr, hproc⟩
  have hcount := (hnodup.subperm hsub).length_le
  rw [length_map] at hcount
  exact hcount.trans hlength

theorem wait_graph_acyclic_two :
    ∃ sys sys' call, GuardedRun (step defaultLimits)
        (fun sys event => event.Posix ∧
          sys.ChainsWithin defaultLimits.maxlockdepth) System.initial sys ∧
      WaitsFor sys 1 2 ∧ Acyclic (WaitsFor sys) ∧
      stepResult defaultLimits sys (.advlock call) = some (sys', .error .edeadlk) ∧
      ∃ range block, call.range = some range ∧
        lfGetblock (call.lock sys.nextAddr range) (sys.head call.file) = some block ∧
        ¬ Acyclic (WaitsFor (sys.sleep call.file call.proc
          (call.lock sys.nextAddr range) block)) := by
  let call := fcntl 2 .wrlck 0 2 true
  obtain ⟨sys, hrun, hrequests, hresult⟩ : ∃ sys, GuardedRun (step defaultLimits)
        (fun sys event => event.Posix ∧ sys.requests.length ≤ 50) initial sys ∧
      sys.requests = [⟨⟨4, 5, 6, .proc 1, ⟨true, false, true⟩, .wrlck, 0, []⟩, 0, 1,
          some ⟨2, .proc 2, ⟨true, false, false⟩⟩, true⟩] ∧
      (stepResult defaultLimits sys (.advlock call)).map Prod.snd = some (.error .edeadlk) :=
    ⟨execD (step defaultLimits) (fun sys event => event.Posix ∧ sys.requests.length ≤ 50)
      initial [.advlock (fcntl 1 .wrlck 0 2 false), .advlock (fcntl 2 .wrlck 5 2 false),
        .advlock (fcntl 1 .wrlck 5 2 true)],
      GuardedRun.of_execD (by decide +kernel), by decide +kernel,
      by decide +kernel⟩
  have hguarded : GuardedRun (step defaultLimits) (fun sys event => event.Posix ∧
        sys.ChainsWithin defaultLimits.maxlockdepth) initial sys :=
    hrun.mono fun _ _ h => ⟨h.1, chainsWithin_of_length h.2⟩
  obtain ⟨⟨sys', _⟩, hstep, rfl⟩ := Option.map_eq_some_iff.mp hresult
  obtain ⟨hacyclic, hcloses, _⟩ := wait_graph_acyclic hguarded
  refine ⟨sys, sys', call, hguarded, ?_, hacyclic, hstep, hcloses call sys' ⟨rfl, rfl, rfl⟩ hstep⟩
  exact ⟨_, by rw [hrequests]; exact mem_cons_self, rfl, rfl, _, rfl,
    rfl⟩

end AerieKernel.AdvisoryLocks
