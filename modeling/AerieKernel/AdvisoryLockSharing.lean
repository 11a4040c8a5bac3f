import AerieKernel.AdvisoryLockMap

/-!
# Compatible locks

Two owners hold a byte at the same time only if both hold it for reading.  A
lock is granted only after `lf_getblock` has found nothing in its way, and
every other change takes bytes away.
-/

namespace AerieKernel.AdvisoryLocks

open Run System

/-- The callers of `lf_advlock` set read locks and write locks only. -/
def Event.Proper : Event → Prop
  | .advlock call => call.op = .setlk → call.fl.lType ≠ .unlck
  | .signal _ | .resume _ _ => True

instance (event : Event) : Decidable event.Proper :=
  match event with
  | .advlock _ => inferInstanceAs (Decidable (_ → _))
  | .signal _ | .resume .. => isTrue trivial

structure SharedMap (sys : System) : Prop where
  typed : ∀ file owner x type, x ≤ offMax → sys.Maps file owner x type → type ≠ .unlck
  shared : ∀ file owner owner' x type type', x ≤ offMax →
    owner ≠ owner' → sys.Maps file owner x type →
    sys.Maps file owner' x type' → type = .rdlck ∧ type' = .rdlck

structure System.Compatible (sys : System) : Prop where
  map : SharedMap sys
  requests : ∀ r ∈ sys.requests, r.lock.lfType ≠ .unlck

variable {sys sys' : System}

theorem SharedMap.mono (hshared : SharedMap sys) (hless : ∀ file owner x type, x ≤ offMax →
      sys'.Maps file owner x type → sys.Maps file owner x type) :
    SharedMap sys' := by
  constructor
  · intro file owner x type hx hmaps
    exact hshared.typed file owner x type hx (hless _ _ _ _ hx hmaps)
  · intro file owner owner' x type type' hx hne hmaps hmaps'
    exact hshared.shared file owner owner' x type type' hx hne
      (hless _ _ _ _ hx hmaps) (hless _ _ _ _ hx hmaps')

theorem SharedMap.same (hshared : SharedMap sys) (hsame : SameMap sys sys') : SharedMap sys' :=
  hshared.mono fun file owner x type _ => (hsame file owner x type).mp

theorem SharedMap.clears {bytes : Bytes} (hshared : SharedMap sys)
    (hclears : ClearsMap bytes sys sys') : SharedMap sys' :=
  hshared.mono fun file owner x type hx hmaps =>
    ((hclears file owner x type hx).mp hmaps).2

variable {file : ℕ} {lock : Lockf}

theorem SharedMap.sets (hshared : SharedMap sys) (htype : lock.lfType ≠ .unlck)
    (hfree : ∀ owner x type, owner ≠ lock.lfId → lock.Contains x → sys.Maps file owner x type →
      lock.lfType ≠ .wrlck ∧ type ≠ .wrlck)
    (hsets : SetsMap (lock.bytes file) lock.lfType sys sys') :
    SharedMap sys' := by
  have hread : ∀ type : LockType, type ≠ .unlck → type ≠ .wrlck → type = .rdlck := by
    intro type hunlck hwrlck
    cases type <;> simp at *
  -- a byte of the lock that another owner holds too
  have hcross : ∀ owner x type, x ≤ offMax → owner ≠ lock.lfId →
      lock.Contains x → sys.Maps file owner x type → lock.lfType = .rdlck ∧ type = .rdlck := by
    intro owner x type hx hne hin hmaps
    obtain ⟨hlock, hother⟩ := hfree owner x type hne hin hmaps
    exact ⟨hread _ htype hlock, hread _ (hshared.typed file owner x type hx hmaps) hother⟩
  constructor
  · intro file' owner x type hx hmaps
    rcases (hsets file' owner x type hx).mp hmaps with ⟨_, rfl⟩ | ⟨_, hold⟩
    · exact htype
    · exact hshared.typed file' owner x type hx hold
  · intro file' owner owner' x type type' hx hne hmaps hmaps'
    rcases (hsets file' owner x type hx).mp hmaps with
      ⟨⟨rfl, rfl, hin⟩, rfl⟩ | ⟨_, hold⟩
    · rcases (hsets file' owner' x type' hx).mp hmaps' with
        ⟨⟨_, rfl, _⟩, _⟩ | ⟨_, hold'⟩
      · exact absurd rfl hne
      · exact hcross owner' x type' hx (Ne.symm hne) hin hold'
    · rcases (hsets file' owner' x type' hx).mp hmaps' with
        ⟨⟨rfl, rfl, hin⟩, rfl⟩ | ⟨_, hold'⟩
      · exact (hcross owner x type hx hne hin hold).symm
      · exact hshared.shared file' owner owner' x type type' hx hne hold hold'

theorem free_of_getblock_none (hvalid : sys.Valid) (hlock : lock.WF)
    (hnone : lfGetblock lock (sys.head file) = none) {owner : Owner} {x : ℤ} {type : LockType}
    (hne : owner ≠ lock.lfId) (hin : lock.Contains x) (hmaps : sys.Maps file owner x type) :
    lock.lfType ≠ .wrlck ∧ type ≠ .wrlck := by
  have hspec := lfGetblock_spec hlock (hvalid.locks file).wf
  rw [hnone] at hspec
  obtain ⟨lf, hlf, rfl, rfl, hlfIn⟩ := hmaps
  have hoverlap : Overlap lock lf := by
    unfold Lockf.Contains at hin hlfIn
    unfold Overlap
    omega
  have hquiet := hspec lf hlf hne hoverlap
  unfold conflicts at hquiet
  tauto

theorem lfSetlock_shared (limits : Limits) (proc : ℕ) (hvalid : sys.Valid) (hlock : lock.WF)
    (hfits : SetlockFits lock (sys.head file)) (htype : lock.lfType ≠ .unlck)
    (hshared : SharedMap sys) : SharedMap (lfSetlock limits sys file proc lock).1 := by
  have heffect := (lfSetlock_effect limits proc hvalid hlock hfits).2
  rcases lfSetlock_cases limits sys file proc lock with
    ⟨block, _, ⟨_, heq⟩ | ⟨_, heq⟩ | ⟨_, heq⟩⟩ | ⟨hnone, heq⟩
  all_goals rw [heq] at heffect ⊢
  · exact hshared.same heffect
  · exact hshared.same heffect
  · unfold SetlockEffect at heffect
    split_ifs at heffect
    · exact hshared.clears heffect
    · exact hshared.same heffect
  · exact hshared.sets htype (fun _ _ _ => free_of_getblock_none hvalid hlock hnone) heffect

theorem edit_requests {requests : List Request} {e : Edit} {r : Request}
    (hr : r ∈ requests.map (Request.edit lock e)) : ∃ r₀ ∈ requests, r.lock = r₀.lock := by
  obtain ⟨r₀, hr₀, rfl⟩ := List.mem_map.mp hr
  exact ⟨r₀, hr₀, Request.edit_lock lock e r₀⟩

theorem lfSetlock_requests {limits : Limits} {proc : ℕ} {r : Request}
    (hr : r ∈ (lfSetlock limits sys file proc lock).1.requests) :
    r.lock = lock ∨ ∃ r₀ ∈ sys.requests, r.lock = r₀.lock := by
  rcases lfSetlock_cases limits sys file proc lock with
    ⟨block, _, ⟨_, heq⟩ | ⟨_, heq⟩ | ⟨_, heq⟩⟩ | ⟨_, heq⟩
  all_goals rw [heq] at hr
  · exact .inr ⟨r, hr, rfl⟩
  · exact .inr ⟨r, hr, rfl⟩
  · rcases List.mem_append.mp hr with hr | hr
    · unfold clearOwn at hr
      split_ifs at hr
      · exact .inr (edit_requests hr)
      · exact .inr ⟨r, hr, rfl⟩
    · rw [List.mem_singleton.mp hr]
      exact .inl rfl
  · exact .inr (edit_requests hr)

theorem lfSetlock_compatible (limits : Limits) (proc : ℕ) (hvalid : sys.Valid) (hlock : lock.WF)
    (hfits : SetlockFits lock (sys.head file)) (htype : lock.lfType ≠ .unlck)
    (hcompatible : sys.Compatible) : (lfSetlock limits sys file proc lock).1.Compatible := by
  refine ⟨lfSetlock_shared limits proc hvalid hlock hfits htype hcompatible.map, ?_⟩
  intro r hr
  rcases lfSetlock_requests hr with heq | ⟨r₀, hr₀, heq⟩
  · rwa [heq]
  · rw [heq]
    exact hcompatible.requests r₀ hr₀

section

variable (hcompatible : sys.Compatible)
include hcompatible

namespace System.Compatible

theorem congr (hmap : SharedMap sys')
    (hlocks : ∀ r ∈ sys'.requests, ∃ r₀ ∈ sys.requests, r.lock = r₀.lock) : sys'.Compatible := by
  refine ⟨hmap, fun r hr => ?_⟩
  obtain ⟨r₀, hr₀, heq⟩ := hlocks r hr
  rw [heq]
  exact hcompatible.requests r₀ hr₀

theorem charge (uid : ℕ) : (sys.charge uid).Compatible :=
  ⟨hcompatible.map.same (sameMap_of_head rfl), hcompatible.requests⟩

theorem unblock (r : Request) : (sys.unblock r).Compatible :=
  ⟨hcompatible.map.same (sameMap_unblock sys r), fun r' hr' =>
    hcompatible.requests r' (List.mem_of_mem_filter hr')⟩

theorem step {limits : Limits} {event : Event} (hvalid : sys.Valid)
    (hfits : event.Fits sys) (hproper : event.Proper)
    (hstep : AdvisoryLocks.step limits sys event = some sys') : sys'.Compatible := by
  refine step_keeps hstep hcompatible
    (fun _ _ h => ⟨h.map.same (sameMap_of_head rfl), h.requests⟩) hcompatible.charge ?_ ?_ ?_
    (fun r _ => hcompatible.unblock r) ?_
  · rintro call rfl _ hop range hrange
    exact lfSetlock_compatible limits call.proc (hvalid.charge call.uid)
      (call.lock_wf sys.nextAddr hrange) (hfits.set hrange hop) (hproper hop)
      (hcompatible.charge call.uid)
  · rintro call rfl hop range hrange
    have hcharge := hcompatible.charge call.uid
    exact hcharge.congr (hcharge.map.clears (clearsMap_edit _ (hfits.cleared hrange hop hvalid)))
      fun _ hr => edit_requests hr
  · intro pid
    refine hcompatible.congr (hcompatible.map.same (sameMap_of_head rfl)) fun r hr => ?_
    obtain ⟨r₀, hr₀, _, rfl, _⟩ := mem_signal hr
    exact ⟨r₀, hr₀, rfl⟩
  · rintro r hmem interrupted rfl
    exact lfSetlock_compatible limits r.proc (hvalid.unblock r) (hvalid.requests r hmem)
      (setlockFits_unblock (hfits r hmem rfl)) (hcompatible.requests r hmem) (hcompatible.unblock r)

end System.Compatible

end

theorem compatible_initial : initial.Compatible := by
  refine ⟨⟨?_, ?_⟩, by simp [initial]⟩ <;>
    simp [System.Maps, initial]

instance (lf lf' : Lockf) : Decidable (Overlap lf lf') := inferInstanceAs (Decidable (_ ∧ _))

end AerieKernel.AdvisoryLocks
