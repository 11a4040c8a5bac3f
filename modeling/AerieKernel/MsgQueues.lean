import AerieKernel.MsgModel

/-!
# The identity of message queues and their sleeping senders

A slot is used again while processes sleep on it.  Receivers compare the sequence number when they
go on, senders do not, so that a message stays with its queue only if no sender that has slept
without the lock finds another queue in the slot.  A sender that finds its queue locked sleeps until
the lock is given up.  The process that holds the lock wakes it, unless it had locked the queue only
to wait and is interrupted.
-/

namespace AerieKernel.Msg

open Function

variable {info : Msginfo} {s s' : State} {p ix : ℕ} {id : Msqid} {proc : Proc}

namespace State

theorem has_eq_true :
    s.has id = true ↔ (s.queues id.ix).qbytes ≠ 0 ∧ (s.queues id.ix).seq = id.seq := by
  simp [has]

theorem setProc_self (s : State) (p : ℕ) (proc : Proc) : (s.setProc p proc).procs p = proc :=
  update_self ..

theorem setProc_of_ne {p' : ℕ} (s : State) (proc : Proc) (hne : p' ≠ p) :
    (s.setProc p proc).procs p' = s.procs p' := update_of_ne hne ..

theorem setQueue_self (s : State) (ix : ℕ) (q : Queue) : (s.setQueue ix q).queues ix = q :=
  update_self ..

theorem setQueue_of_ne {j : ℕ} (s : State) (q : Queue) (hne : j ≠ ix) :
    (s.setQueue ix q).queues j = s.queues j := update_of_ne hne ..

theorem lock_self (s : State) (ix : ℕ) : s.lock ix (s.queues ix).locked = s :=
  congrArg (fun queues => { s with queues }) (update_eq_self ..)

theorem sndLoop_setProc (s : State) (call : SndCall) :
    (s.setProc p proc).sndLoop info p call = s.sndLoop info p call := by
  simp [sndLoop, fail, setProc, note, lock, setQueue]

theorem foldl_freehdr (info : Msginfo) (msgs : List Message) (s : State) :
    let freed := msgs.foldl (fun s msg => s.freehdr info msg.ts) s
    freed.queues = s.queues ∧ freed.procs = s.procs ∧ freed.log = s.log := by
  induction msgs generalizing s with
  | nil => exact ⟨rfl, rfl, rfl⟩
  | cons msg msgs ih => exact ih _

/-! ## What a step can do -/

def took (s : State) (call : RcvCall) (msg : Message) : State :=
  let q := s.queues call.id.ix
  s.setQueue call.id.ix
    { q with msgs := q.msgs.eraseP (wanted call.msgtyp), cbytes := q.cbytes - msg.ts }

end State

structure Keeps (info : Msginfo) (guard : State → Event → Bool) (P : State → Prop) (s : State) :
    Prop where
  same : P s
  fail : ∀ p id error, P (s.fail p id error)
  created : ∀ ix key seq, (s.queues ix).locked = false →
    P (s.setQueue ix ⟨key, seq, false, [], 0, info.msgmnb⟩)
  sndLoop : ∀ p call, s.has call.id = true → P (s.sndLoop info p call)
  sndWoken : ∀ p call owns asleep signal, s.procs p = .sndWait call owns asleep →
    guard s (.sndWoken p signal) = true → P (s.sndWoken info p call owns signal)
  refused : ∀ p call error, s.procs p = .sndCopy call →
    P ((((s.lock call.id.ix false).freehdr info call.ts).wakeup call.id.ix).fail p call.id error)
  sent : ∀ p call type, s.procs p = .sndCopy call →
    P (((((s.lock call.id.ix false).append call type).wakeup call.id.ix).setProc p .idle).note
      call.id (.sent ⟨call.id.ix, (s.queues call.id.ix).seq⟩))
  rcvWait : ∀ p call, P (s.setProc p (.rcvWait call true))
  took : ∀ p call, ∀ msg ∈ (s.queues call.id.ix).msgs, s.has call.id = true →
    P (((s.took call msg).setProc p (.rcvCopy call msg)).note call.id (.took msg.origin))
  copyout : ∀ p call msg, P (s.copyout info p call msg)
  removed : ∀ ix, P (s.rmid info ix)

section

variable {guard : State → Event → Bool} {P : State → Prop} (hkeeps : Keeps info guard P s)
include hkeeps

theorem Keeps.rcvLoop {call : RcvCall} (hhas : s.has call.id = true) : P (s.rcvLoop p call) := by
  unfold State.rcvLoop
  dsimp only
  split
  next =>
    split_ifs
    · exact hkeeps.fail _ _ _
    · exact hkeeps.rcvWait _ _
  next msg hfind =>
    split_ifs
    · exact hkeeps.fail _ _ _
    · exact hkeeps.took _ _ msg (List.mem_of_find?_eq_some hfind) hhas

theorem Keeps.msgget (key : ℤ) (creat : Bool) : P (s.msgget info key creat) := by
  unfold State.msgget
  dsimp only
  split_ifs
  · exact hkeeps.same
  · split
    next => exact hkeeps.same
    next ix hfind =>
      have hfree := List.find?_some hfind
      simp only [decide_eq_true_eq, Bool.not_eq_true] at hfree
      exact hkeeps.created ix _ _ hfree.2

theorem Keeps.step {event : Event} (hguard : guard s event = true)
    (hstep : step info s event = some s') : P s' := by
  cases event with simp only [Msg.step] at hstep
  | msgget key creat =>
    cases hstep
    exact hkeeps.msgget key creat
  | msgsnd p call allowed =>
    split_ifs at hstep
    cases hstep
    unfold State.msgsnd
    split_ifs with hfound
    · exact hkeeps.sndLoop _ _ hfound.2
    · exact hkeeps.fail _ _ _
    · exact hkeeps.fail _ _ _
  | sndWoken p signal =>
    split at hstep
    next call owns asleep hproc =>
      split_ifs at hstep
      cases hstep
      exact hkeeps.sndWoken _ _ _ _ _ hproc hguard
    next => cases hstep
  | copyin p type =>
    split at hstep
    next call hproc =>
      cases hstep
      unfold State.copyin
      dsimp only
      split
      next => exact hkeeps.refused _ _ _ hproc
      next => exact hkeeps.sent _ _ _ hproc
    next => cases hstep
  | msgrcv p call allowed =>
    split_ifs at hstep
    cases hstep
    unfold State.msgrcv
    split_ifs with hfound
    · exact hkeeps.rcvLoop hfound.2
    · exact hkeeps.fail _ _ _
    · exact hkeeps.fail _ _ _
  | rcvWoken p signal =>
    split at hstep
    next call asleep hproc =>
      split_ifs at hstep
      cases hstep
      unfold State.rcvWoken
      split_ifs with hsignal hhas
      · exact hkeeps.fail _ _ _
      · exact hkeeps.rcvLoop hhas
      · exact hkeeps.fail _ _ _
    next => cases hstep
  | copyout p =>
    split at hstep
    next =>
      cases hstep
      exact hkeeps.copyout _ _ _
    next => cases hstep
  | rmid id =>
    cases hstep
    split_ifs
    · exact hkeeps.removed _
    · exact hkeeps.same

omit hkeeps in
theorem Keeps.run (hstart : P (initial info)) (hkeeps : ∀ s, P s → Keeps info guard P s)
    (hrun : Run.GuardedRun (Msg.step info) (guard · · = true) (initial info) s) : P s :=
  hrun.invariant hstart fun before _ _ hbefore hguard hstep =>
    (hkeeps before hbefore).step hguard hstep

end

/-! ## Messages stay with their queue -/

def Proc.holds : Proc → Option Msqid
  | .sndWait call true _ | .sndCopy call => some call.id
  | _ => none

def Result.IsFor (id : Msqid) : Result → Prop
  | .sent into => into = id
  | .took origin => origin = id
  | .failed _ => True

structure State.Kept (s : State) : Prop where
  held : ∀ p id, (s.procs p).holds = some id →
    (s.queues id.ix).locked = true ∧ (s.queues id.ix).seq = id.seq
  alone : ∀ p p' id id', (s.procs p).holds = some id → (s.procs p').holds = some id' →
    id.ix = id'.ix → p = p'
  origin : ∀ ix, ∀ msg ∈ (s.queues ix).msgs, msg.origin = ⟨ix, (s.queues ix).seq⟩
  log : ∀ entry ∈ s.log, entry.2.IsFor entry.1

/-- A sender that has slept without the lock does not find another queue in its slot. -/
def sameQueue (s : State) : Event → Bool
  | .sndWoken p signal =>
    match s.procs p with
    | .sndWait call false _ =>
      let q := s.queues call.id.ix
      signal || q.qbytes = 0 || q.seq = call.id.seq
    | _ => true
  | _ => true

/-- The call that an event belongs to, until it has put or taken its message. -/
def Event.call (s : State) : Event → Option Msqid
  | .msgsnd _ call _ => some call.id
  | .msgrcv _ call _ => some call.id
  | .sndWoken p _ | .copyin p _ | .rcvWoken p _ =>
    match s.procs p with
    | .sndWait call _ _ | .sndCopy call => some call.id
    | .rcvWait call _ => some call.id
    | _ => none
  | _ => none

theorem Proc.holds_wake : (proc.wake ix).holds = proc.holds := by
  cases proc with
  | sndWait call owns asleep => cases owns <;> rfl
  | _ => rfl

theorem State.holds_of_setProc {p' : ℕ} (hnone : proc.holds = none)
    (hholds : ((s.setProc p proc).procs p').holds = some id) :
    p' ≠ p ∧ (s.procs p').holds = some id := by
  by_cases heq : p' = p
  · rw [heq, s.setProc_self, hnone] at hholds
    cases hholds
  · rw [s.setProc_of_ne proc heq] at hholds
    exact ⟨heq, hholds⟩

section

variable (hkept : s.Kept)
include hkept

namespace State.Kept

theorem of_holds (hqueues : s'.queues = s.queues) (hlog : s'.log = s.log)
    (hholds : ∀ p id, (s'.procs p).holds = some id → (s.procs p).holds = some id) : s'.Kept := by
  constructor
  · intro p id hheld
    rw [hqueues]
    exact hkept.held p id (hholds p id hheld)
  · exact fun p p' id id' hheld hheld' =>
      hkept.alone p p' id id' (hholds p id hheld) (hholds p' id' hheld')
  · rw [hqueues]
    exact hkept.origin
  · rw [hlog]
    exact hkept.log

theorem setProc (hnone : proc.holds = none) : (s.setProc p proc).Kept :=
  hkept.of_holds rfl rfl fun _ _ hholds => (State.holds_of_setProc hnone hholds).2

theorem note {result : Result} (hresult : result.IsFor id) : (s.note id result).Kept :=
  { hkept with log := List.forall_mem_cons.mpr ⟨hresult, hkept.log⟩ }

theorem fail (error : Errno) : (s.fail p id error).Kept :=
  note (hkept.setProc rfl) trivial

theorem wakeup : (s.wakeup ix).Kept :=
  hkept.of_holds rfl rfl fun _ _ hholds => Proc.holds_wake ▸ hholds

omit hkept in
theorem finish (hended : (s.setProc p .idle).Kept) : ((s.wakeup ix).setProc p .idle).Kept := by
  refine hended.of_holds rfl rfl fun p' id hholds => ?_
  obtain ⟨hne, hwoken⟩ := State.holds_of_setProc rfl hholds
  rw [s.setProc_of_ne _ hne]
  exact Proc.holds_wake ▸ hwoken

theorem setQueue {q : Queue} (hidle : ∀ p id, (s.procs p).holds = some id → id.ix = ix →
      q.locked = (s.queues ix).locked ∧ q.seq = (s.queues ix).seq)
    (horigin : ∀ msg ∈ q.msgs, msg.origin = ⟨ix, q.seq⟩) : (s.setQueue ix q).Kept := by
  constructor
  · intro p id hholds
    show (update s.queues ix q id.ix).locked = true ∧ (update s.queues ix q id.ix).seq = id.seq
    by_cases heq : id.ix = ix
    · obtain ⟨hlocked, hseq⟩ := hidle p id hholds heq
      rw [heq, update_self, hlocked, hseq, ← heq]
      exact hkept.held p id hholds
    · rw [update_of_ne heq]
      exact hkept.held p id hholds
  · exact hkept.alone
  · exact (forall_update_iff s.queues fun ix q => ∀ msg ∈ q.msgs, msg.origin = ⟨ix, q.seq⟩).mpr
      ⟨horigin, fun ix' _ => hkept.origin ix'⟩
  · exact hkept.log

theorem unlock (hholds : (s.procs p).holds = some id) :
    ((s.setProc p .idle).lock id.ix false).Kept := by
  refine setQueue (hkept.setProc rfl) (fun p' id' hholds' heq => ?_) (hkept.origin id.ix)
  obtain ⟨hother, hbefore⟩ := State.holds_of_setProc rfl hholds'
  exact absurd (hkept.alone p' p id' id hbefore hholds heq) hother

theorem acquire (hunlocked : (s.queues id.ix).locked = false) (hseq : (s.queues id.ix).seq = id.seq)
    (hholds : proc.holds = some id) : ((s.lock id.ix true).setProc p proc).Kept := by
  have hothers : ∀ p' id', (s.procs p').holds = some id' → id'.ix ≠ id.ix := by
    intro p' id' hother heq
    have hlocked := (hkept.held p' id' hother).1
    rw [heq, hunlocked] at hlocked
    cases hlocked
  have hlocked : (s.lock id.ix true).Kept :=
    hkept.setQueue (fun p' id' hother heq => absurd heq (hothers p' id' hother))
      (hkept.origin id.ix)
  constructor
  · intro p' id' hholds'
    by_cases heq : p' = p
    · rw [heq, State.setProc_self, hholds] at hholds'
      cases hholds'
      simp [State.setProc, State.lock, State.setQueue, hseq]
    · rw [State.setProc_of_ne _ _ heq] at hholds'
      exact hlocked.held p' id' hholds'
  · intro p₁ p₂ id₁ id₂ hholds₁ hholds₂ hix
    by_cases h₁ : p₁ = p <;> by_cases h₂ : p₂ = p
    · rw [h₁, h₂]
    · rw [h₁, State.setProc_self, hholds] at hholds₁
      rw [State.setProc_of_ne _ _ h₂] at hholds₂
      cases hholds₁
      exact absurd hix.symm (hothers p₂ id₂ hholds₂)
    · rw [h₂, State.setProc_self, hholds] at hholds₂
      rw [State.setProc_of_ne _ _ h₁] at hholds₁
      cases hholds₂
      exact absurd hix (hothers p₁ id₁ hholds₁)
    · rw [State.setProc_of_ne _ _ h₁] at hholds₁
      rw [State.setProc_of_ne _ _ h₂] at hholds₂
      exact hkept.alone p₁ p₂ id₁ id₂ hholds₁ hholds₂ hix
  · exact hlocked.origin
  · exact hkept.log

theorem sndLoop {call : SndCall} (hseq : (s.queues call.id.ix).seq = call.id.seq) :
    (s.sndLoop info p call).Kept := by
  unfold State.sndLoop
  dsimp only
  split_ifs with hlong hneed
  · exact hkept.fail _
  · exact hkept.fail _
  · cases hlocked : (s.queues call.id.ix).locked with
    | true =>
      have hsame := s.lock_self call.id.ix
      rw [hlocked] at hsame
      rw [hsame]
      exact hkept.setProc rfl
    | false => exact hkept.acquire hlocked hseq rfl
  · rw [not_or, Bool.not_eq_true] at hneed
    exact acquire (p := p) { hkept with } hneed.1 hseq rfl

theorem took {call : RcvCall} (msg : Message) : (s.took call msg).Kept :=
  hkept.setQueue (fun _ _ _ _ => ⟨rfl, rfl⟩) fun msg hmsg =>
    hkept.origin _ msg (List.mem_of_mem_eraseP hmsg)

theorem append {call : SndCall} (type : ℤ) : (s.append call type).Kept := by
  refine hkept.setQueue (fun _ _ _ _ => ⟨rfl, rfl⟩) fun msg hmsg => ?_
  obtain hmsg | hmsg := List.mem_append.mp hmsg
  · exact hkept.origin _ msg hmsg
  · rw [List.mem_singleton.mp hmsg]

theorem sndWoken {call : SndCall} {owns asleep signal : Bool}
    (hproc : s.procs p = .sndWait call owns asleep)
    (hsame : sameQueue s (.sndWoken p signal) = true) :
      (s.sndWoken info p call owns signal).Kept := by
  simp only [sameQueue, hproc] at hsame
  unfold State.sndWoken
  cases owns with
  | false =>
    simp only [Bool.false_eq_true, if_false]
    split_ifs with hsignal hdead
    · exact hkept.fail _
    · exact hkept.fail _
    · exact hkept.sndLoop (by simpa [hsignal, hdead] using hsame)
  | true =>
    have hholds : (s.procs p).holds = some call.id := by rw [hproc, Proc.holds]
    have hended : ((s.lock call.id.ix false).setProc p .idle).Kept := hkept.unlock hholds
    have hfailed : ∀ error, ((s.lock call.id.ix false).fail p call.id error).Kept :=
      fun _ => hended.note trivial
    simp only [if_true]
    split_ifs
    · exact hfailed _
    · exact hfailed _
    · rw [← State.sndLoop_setProc]
      refine hended.sndLoop ?_
      simpa [State.setProc, State.lock, State.setQueue] using (hkept.held p _ hholds).2

theorem rmid : (s.rmid info ix).Kept := by
  obtain ⟨hqueues, hprocs, hlog⟩ := State.foldl_freehdr info (s.queues ix).msgs s
  refine wakeup (setQueue (hkept.of_holds hqueues hlog ?_) ?_ ?_)
  · rw [hprocs]
    exact fun _ _ hholds => hholds
  · intro _ _ _ _
    rw [hqueues]
    exact ⟨rfl, rfl⟩
  · exact nofun

theorem keeps : Keeps info sameQueue State.Kept s where
  same := hkept
  fail _ _ error := hkept.fail error
  created ix key seq hunlocked := by
    refine hkept.setQueue (fun p id hholds heq => ?_) nofun
    have hlocked := (hkept.held p id hholds).1
    rw [heq, hunlocked] at hlocked
    cases hlocked
  sndLoop _ _ hhas := hkept.sndLoop (State.has_eq_true.mp hhas).2
  sndWoken _ _ _ _ _ hproc hsame := hkept.sndWoken hproc hsame
  refused p call error hproc := by
    have hholds : (s.procs p).holds = some call.id := by rw [hproc, Proc.holds]
    have hunlocked := hkept.unlock hholds
    have hended : (((s.lock call.id.ix false).freehdr info call.ts).setProc p .idle).Kept :=
      { hunlocked with }
    exact hended.finish.note trivial
  sent p call type hproc := by
    have hholds : (s.procs p).holds = some call.id := by rw [hproc, Proc.holds]
    have hended : (((s.lock call.id.ix false).append call type).setProc p .idle).Kept :=
      (hkept.unlock hholds).append type
    refine hended.finish.note ?_
    show (⟨_, _⟩ : Msqid) = call.id
    rw [(hkept.held p _ hholds).2]
  rcvWait _ _ := hkept.setProc rfl
  took p call msg hmsg hhas := by
    refine note ((hkept.took msg).setProc rfl) ?_
    show msg.origin = call.id
    rw [hkept.origin _ msg hmsg, (State.has_eq_true.mp hhas).2]
  copyout p call msg := by
    have hfreed : (s.freehdr info msg.ts).Kept := { hkept with }
    exact hfreed.wakeup.setProc rfl
  removed _ := hkept.rmid

end State.Kept

end

/-- The error of a call whose queue is gone: `EIDRM`, unless there is one before. -/
def Event.error : Event → Errno
  | .msgsnd _ _ _ | .msgrcv _ _ _ => .einval
  | .sndWoken _ true | .rcvWoken _ true => .eintr
  | .copyin _ none => .efault
  | .copyin _ (some type) => if type < 1 then .einval else .eidrm
  | _ => .eidrm

theorem gone_fails (hkept : s.Kept) {event : Event} (hsame : sameQueue s event = true)
    (hcall : event.call s = some id) (hgone : s.has id = false)
    (hstep : step info s event = some s') : s'.log = (id, .failed event.error) :: s.log := by
  have hdead : (s.queues id.ix).seq = id.seq → (s.queues id.ix).qbytes = 0 := by
    intro hseq
    by_contra hlive
    rw [State.has_eq_true.mpr ⟨hlive, hseq⟩] at hgone
    cases hgone
  cases event with simp only [Msg.step] at hstep
  | msgsnd p call allowed =>
    cases hcall
    split_ifs at hstep
    cases hstep
    rw [State.msgsnd, if_pos (by simp [hgone])]
    rfl
  | sndWoken p signal =>
    split at hstep
    next call owns asleep hproc =>
      simp only [Event.call, hproc] at hcall
      cases hcall
      split_ifs at hstep
      cases hstep
      cases signal with
      | true => cases owns <;> rfl
      | false =>
        have hqbytes : (s.queues call.id.ix).qbytes = 0 := by
          cases owns with
          | false =>
            simp only [sameQueue, hproc, Bool.false_or, Bool.or_eq_true, decide_eq_true_eq] at hsame
            exact Or.elim hsame (fun h => h) hdead
          | true => exact hdead (hkept.held p call.id (by rw [hproc, Proc.holds])).2
        cases owns <;> simp [State.sndWoken, State.lock, State.setQueue, hqbytes, State.fail,
          State.note, State.setProc, Event.error]
    next => cases hstep
  | copyin p type =>
    split at hstep
    next call hproc =>
      simp only [Event.call, hproc] at hcall
      cases hcall
      cases hstep
      have hseq := (hkept.held p call.id (by rw [hproc, Proc.holds])).2
      obtain _ | type := type
      · rfl
      · simp only [State.copyin, hdead hseq, Event.error]
        by_cases htype : type < 1 <;> simp [htype, State.fail, State.note] <;> rfl
    next => cases hstep
  | msgrcv p call allowed =>
    cases hcall
    split_ifs at hstep
    cases hstep
    rw [State.msgrcv, if_pos (by simp [hgone])]
    rfl
  | rcvWoken p signal =>
    split at hstep
    next call asleep hproc =>
      simp only [Event.call, hproc] at hcall
      cases hcall
      split_ifs at hstep
      cases hstep
      unfold State.rcvWoken
      cases signal <;> simp [hgone, Event.error, State.fail, State.note, State.setProc]
    next => cases hstep
  | _ => cases hcall

/-- While no sender that has slept without the lock finds another queue in its slot, messages are
put into and taken from the queue of the identifier, and once that queue is removed calls fail with
`EIDRM` or an error that is found before. -/
theorem messages_stay_with_their_queue
    (hrun : Run.GuardedRun (step info) (sameQueue · · = true) (initial info) s) :
    (∀ entry ∈ s.log, entry.2.IsFor entry.1) ∧
      ∀ event id s', sameQueue s event = true → event.call s = some id → s.has id = false →
        step info s event = some s' → s'.log = (id, .failed event.error) :: s.log := by
  have hstart : (initial info).Kept :=
    ⟨fun _ _ h => (nomatch h), fun _ _ _ _ h => (nomatch h), fun _ _ h => (nomatch h),
      fun _ h => (nomatch h)⟩
  have hkept : s.Kept := Keeps.run hstart (fun _ hbefore => hbefore.keeps) hrun
  exact ⟨hkept.log, fun _ _ _ => gone_fails hkept⟩

def oneQueue : Msginfo := ⟨1, 16, 4, 8, 8⟩

def sends (size : ℕ) : SndCall := ⟨⟨0, 1⟩, size, false⟩

/-- Process 2 waits for process 1, which copies a message when the queue is removed. -/
def removedWhileCopying : List Event :=
  [.msgget 0 true, .msgsnd 1 (sends 4) true, .msgsnd 2 (sends 4) true, .rmid ⟨0, 1⟩,
    .copyin 1 (some 1)]

def removedState : State :=
  Run.execD (step oneQueue) (sameQueue · · = true) (initial oneQueue) removedWhileCopying

theorem messages_stay_with_their_queue_removed :
    removedState.log = [(⟨0, 1⟩, .failed .eidrm)] ∧
      ((step oneQueue removedState (.sndWoken 2 false)).getD removedState).log =
        (⟨0, 1⟩, .failed .eidrm) :: removedState.log :=
  ⟨by decide, (messages_stay_with_their_queue (Run.GuardedRun.of_execD (by decide))).2
    (.sndWoken 2 false) _ _ (by decide) rfl (by decide) rfl⟩

/-- The slot is used again before process 2 goes on: its message is put into the new queue. -/
theorem message_put_into_other_queue : ∃ s, Run.Reaches (step oneQueue) (initial oneQueue) s ∧
    (⟨0, 1⟩, .sent ⟨0, 2⟩) ∈ s.log :=
  ⟨Run.execD (step oneQueue) (fun _ _ => True) (initial oneQueue)
      (removedWhileCopying ++ [.msgget 0 true, .sndWoken 2 false, .copyin 2 (some 1)]),
    Run.GuardedRun.of_execD (by decide), by decide⟩

/-! ## Sleeping senders -/

def Proc.Waits (info : Msginfo) (queues : ℕ → Queue) : Proc → Prop
  | .sndWait call _ asleep => call.nowait = false ∧ call.msgsz ≤ info.msgmnb ∧
      (asleep = true → (queues call.id.ix).locked = true ∧ (queues call.id.ix).qbytes ≠ 0)
  | _ => True

structure State.Waits (info : Msginfo) (s : State) : Prop where
  limit : ∀ ix, (s.queues ix).qbytes = 0 ∨ (s.queues ix).qbytes = info.msgmnb
  procs : ∀ p, (s.procs p).Waits info s.queues

/-- Nothing is left to wait for. -/
abbrev State.Ready (info : Msginfo) (s : State) (call : SndCall) : Prop :=
  let q := s.queues call.id.ix
  q.locked = false ∧ call.msgsz + q.cbytes ≤ q.qbytes ∧ segsNeeded info call.msgsz ≤ s.nfree ∧
    s.freeHdrs ≠ 0

/-- A sender that has locked its queue to wait is not interrupted. -/
def patient (s : State) : Event → Bool
  | .sndWoken p signal =>
    match s.procs p with
    | .sndWait _ true _ => !signal
    | _ => true
  | _ => true

section

variable (hwaits : s.Waits info)
include hwaits

namespace State.Waits

theorem setProc (proc : Proc) (hproc : proc.Waits info s.queues) :
    (s.setProc p proc).Waits info where
  limit := hwaits.limit
  procs := (forall_update_iff s.procs fun _ proc => proc.Waits info s.queues).mpr
    ⟨hproc, fun p' _ => hwaits.procs p'⟩

theorem note (result : Result) : (s.note id result).Waits info :=
  { hwaits with }

theorem fail (error : Errno) : (s.fail p id error).Waits info :=
  (hwaits.setProc .idle trivial).note _

theorem setQueue {q : Queue} (hlimit : q.qbytes = 0 ∨ q.qbytes = info.msgmnb)
    (hkeeps : (s.queues ix).locked = true → (s.queues ix).qbytes ≠ 0 →
      q.locked = true ∧ q.qbytes ≠ 0) : (s.setQueue ix q).Waits info where
  limit := (forall_update_iff s.queues fun _ q => q.qbytes = 0 ∨ q.qbytes = _).mpr
    ⟨hlimit, fun j _ => hwaits.limit j⟩
  procs p := by
    have hproc := hwaits.procs p
    show (s.procs p).Waits info (s.setQueue ix q).queues
    cases hcase : s.procs p with rw [hcase] at hproc
    | sndWait call owns asleep =>
      refine ⟨hproc.1, hproc.2.1, fun hasleep => ?_⟩
      by_cases heq : call.id.ix = ix
      · rw [heq, s.setQueue_self]
        exact hkeeps (heq ▸ (hproc.2.2 hasleep).1) (heq ▸ (hproc.2.2 hasleep).2)
      · rw [s.setQueue_of_ne q heq]
        exact hproc.2.2 hasleep
    | _ => trivial

theorem wakeup (hprocs : s'.procs = s.procs) (hothers : ∀ j, j ≠ ix → s'.queues j = s.queues j)
    (hlimit : (s'.queues ix).qbytes = 0 ∨ (s'.queues ix).qbytes = info.msgmnb) :
    (s'.wakeup ix).Waits info where
  limit j := by
    show (s'.queues j).qbytes = 0 ∨ (s'.queues j).qbytes = info.msgmnb
    by_cases heq : j = ix
    · rw [heq]
      exact hlimit
    · rw [hothers j heq]
      exact hwaits.limit j
  procs p := by
    have hproc := hwaits.procs p
    show ((s'.procs p).wake ix).Waits info s'.queues
    rw [hprocs]
    cases hcase : s.procs p with rw [hcase] at hproc
    | sndWait call owns asleep =>
      refine ⟨hproc.1, hproc.2.1, fun hasleep => ?_⟩
      obtain ⟨hasleep, hne⟩ := Bool.and_eq_true_iff.mp hasleep
      rw [hothers _ (of_decide_eq_true hne)]
      exact hproc.2.2 hasleep
    | _ => trivial

theorem sndLoop {call : SndCall} {locked : Bool}
    (hlive : (s.queues call.id.ix).qbytes ≠ 0) (hstays : (s.lock call.id.ix locked).Waits info ∨
      call.nowait = false ∧ call.msgsz ≤ info.msgmnb) :
    ((s.lock call.id.ix locked).sndLoop info p call).Waits info := by
  have hlimit := (hwaits.limit call.id.ix).resolve_left hlive
  have hheld : (s.lock call.id.ix true).Waits info :=
    hwaits.setQueue (.inr hlimit) fun _ _ => ⟨rfl, hlive⟩
  have hagain : (s.lock call.id.ix locked).lock call.id.ix true = s.lock call.id.ix true := by
    simp only [State.lock, State.setQueue, update_self, update_idem]
  have hqueue : (s.lock call.id.ix locked).queues call.id.ix =
      { s.queues call.id.ix with locked } := s.setQueue_self ..
  unfold State.sndLoop
  dsimp only
  rw [hqueue]
  split_ifs with hlong hneed hnowait
  · obtain hunlocked | hfits := hstays
    · exact hunlocked.fail _
    · exact absurd hfits.2 (hlimit ▸ not_le.mpr hlong)
  · obtain hunlocked | hfits := hstays
    · exact hunlocked.fail _
    · rw [hfits.1] at hnowait
      cases hnowait
  · rw [hagain]
    refine hheld.setProc _ ⟨by simpa using hnowait, hlimit ▸ not_lt.mp hlong, fun _ => ?_⟩
    rw [State.lock, s.setQueue_self]
    exact ⟨rfl, hlive⟩
  · have hcopy : (((s.lock call.id.ix locked).lock call.id.ix true).setProc p
        (.sndCopy call)).Waits info := by
      rw [hagain]
      exact hheld.setProc _ trivial
    exact { hcopy with }

theorem sndWoken {call : SndCall} {owns asleep signal : Bool}
    (hproc : s.procs p = .sndWait call owns asleep)
    (hpatient : patient s (.sndWoken p signal) = true) :
    (s.sndWoken info p call owns signal).Waits info := by
  have hcall := hwaits.procs p
  simp only [patient, hproc] at hcall hpatient
  unfold State.sndWoken
  cases owns with
  | false =>
    simp only [Bool.false_eq_true, if_false]
    split_ifs with hsignal hdead
    · exact hwaits.fail _
    · exact hwaits.fail _
    · have hloop := hwaits.sndLoop (p := p) hdead (.inl (s.lock_self call.id.ix ▸ hwaits))
      rwa [s.lock_self] at hloop
  | true =>
    have hqueue : (s.lock call.id.ix false).queues call.id.ix =
        { s.queues call.id.ix with locked := false } := s.setQueue_self ..
    simp only [if_true, hqueue, Bool.not_eq_true'] at hpatient ⊢
    rw [hpatient, if_neg Bool.false_ne_true]
    split_ifs with hdead
    · -- nobody sleeps on a queue that has been removed
      have hunlocked : (s.lock call.id.ix false).Waits info :=
        hwaits.setQueue (.inl hdead) fun _ hlive => absurd hdead hlive
      exact hunlocked.fail _
    · exact hwaits.sndLoop hdead (.inr ⟨hcall.1, hcall.2.1⟩)

theorem keeps : Keeps info patient (State.Waits info) s where
  same := hwaits
  fail _ _ error := hwaits.fail error
  created _ _ _ hunlocked := hwaits.setQueue (.inr rfl) fun hlocked => by
    rw [hunlocked] at hlocked
    cases hlocked
  sndLoop p call hhas := by
    have hlive := (State.has_eq_true.mp hhas).1
    have hloop := hwaits.sndLoop (p := p) hlive (.inl (s.lock_self call.id.ix ▸ hwaits))
    rwa [s.lock_self] at hloop
  sndWoken _ _ _ _ _ hproc hpatient := hwaits.sndWoken hproc hpatient
  refused p call error _ := by
    have hwoken : (((s.lock call.id.ix false).freehdr info call.ts).wakeup call.id.ix).Waits info :=
      hwaits.wakeup rfl (fun j hne => s.setQueue_of_ne _ hne)
        (by simpa [State.freehdr, State.lock, State.setQueue] using hwaits.limit call.id.ix)
    exact hwoken.fail _
  sent p call type _ := by
    have hwoken : (((s.lock call.id.ix false).append call type).wakeup call.id.ix).Waits info := by
      refine hwaits.wakeup rfl (fun j hne => ?_) ?_
      · exact (State.setQueue_of_ne _ _ hne).trans (s.setQueue_of_ne _ hne)
      · simpa [State.append, State.lock, State.setQueue] using hwaits.limit call.id.ix
    exact (hwoken.setProc .idle trivial).note _
  rcvWait _ _ := hwaits.setProc _ trivial
  took p call msg _ _ := by
    have htaken : (s.took call msg).Waits info := hwaits.setQueue (hwaits.limit _) And.intro
    exact (htaken.setProc (.rcvCopy call msg) trivial).note _
  copyout p call msg := by
    have hwoken : ((s.freehdr info msg.ts).wakeup call.id.ix).Waits info :=
      hwaits.wakeup rfl (fun _ _ => rfl) (hwaits.limit _)
    exact hwoken.setProc _ trivial
  removed ix := by
    obtain ⟨hqueues, hprocs, -⟩ := State.foldl_freehdr info (s.queues ix).msgs s
    refine hwaits.wakeup hprocs (fun j hne => ?_) (.inl ?_)
    · exact (State.setQueue_of_ne _ _ hne).trans (congrFun hqueues j)
    · rw [State.setQueue_self]

end State.Waits

end

/-- While no sender that has locked its queue to wait is interrupted, a sender that is still
asleep, and so has not been woken since it went to sleep, has something to wait for. -/
theorem sleeping_sender_not_ready
    (hrun : Run.GuardedRun (step info) (patient · · = true) (initial info) s) {call : SndCall}
    {owns : Bool} (hproc : s.procs p = .sndWait call owns true) : ¬ s.Ready info call := by
  have hstart : (initial info).Waits info := ⟨fun _ => .inl rfl, fun _ => trivial⟩
  have hwaits : s.Waits info := Keeps.run hstart (fun _ hbefore => hbefore.keeps) hrun
  have hcall := hwaits.procs p
  rw [hproc] at hcall
  intro hready
  exact Bool.false_ne_true (hready.1.symm.trans (hcall.2.2 rfl).1)

/-- Process 1 fills the queue, process 2 locks it to wait and process 3 waits for process 2. -/
def twoWait : List Event :=
  [.msgget 0 true, .msgsnd 1 (sends 4) true, .copyin 1 (some 1), .msgsnd 2 (sends 16) true,
    .msgsnd 3 (sends 4) true]

def bothWaiting : State :=
  Run.execD (step oneQueue) (patient · · = true) (initial oneQueue) twoWait

theorem sleeping_sender_not_ready_twoWait : bothWaiting.procs 3 = .sndWait (sends 4) false true ∧
    ¬ bothWaiting.Ready oneQueue (sends 4) :=
  ⟨by decide, sleeping_sender_not_ready (p := 3) (Run.GuardedRun.of_execD (by decide))
    (by decide : bothWaiting.procs 3 = .sndWait (sends 4) false true)⟩

/-- Process 2 is interrupted: it gives up the lock and wakes nobody. -/
theorem sleeping_sender_ready : ∃ s, Run.Reaches (step oneQueue) (initial oneQueue) s ∧
    s.procs 3 = .sndWait (sends 4) false true ∧ s.Ready oneQueue (sends 4) :=
  ⟨Run.execD (step oneQueue) (fun _ _ => True) (initial oneQueue) (twoWait ++ [.sndWoken 2 true]),
    Run.GuardedRun.of_execD (by decide), by decide, by decide⟩

end AerieKernel.Msg
