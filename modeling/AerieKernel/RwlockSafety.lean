import AerieKernel.GuardedRuns
import AerieKernel.RwlockWord

/-!
# Safety of read/write locks

The word always tells who holds the lock: a writer with its address, or a number of
readers.  The flag `RWLOCK_WAIT` is cleared only by a thread that then calls
`wakeup`, and no thread falls asleep between the two unseen.
-/

namespace AerieKernel.Rwlock

open Function Finset

variable {m : ℕ} {T : Type*} [Fintype T] [DecidableEq T]

/-! ## Readers -/

def readers (hold : T → Hold) : ℕ :=
  (Finset.univ.filter fun t => hold t = .read).card

variable {hold : T → Hold} {t : T}

theorem readers_update_read (ht : hold t ≠ .read) :
    readers (update hold t .read) = readers hold + 1 := by
  have hinsert : (univ.filter fun u =>
      update hold t .read u = .read) =
      insert t (univ.filter fun u => hold u = .read) := by
    ext u
    by_cases hu : u = t
    · simp [hu]
    · simp [hu]
  rw [readers, hinsert, card_insert_of_notMem (by simp [ht]), readers]

theorem readers_update_none (ht : hold t = .read) :
    readers (update hold t .none) + 1 = readers hold := by
  have hne : update hold t .none t ≠ .read := by simp
  have hback := readers_update_read hne
  rw [update_idem, ← ht, update_eq_self] at hback
  exact hback.symm

theorem readers_eq_zero (hnone : ∀ t, hold t ≠ .read) : readers hold = 0 := by
  simp [readers, hnone]

theorem readers_pos (ht : hold t = .read) : 0 < readers hold :=
  card_pos.mpr ⟨t, by simp [ht]⟩

omit [Fintype T] in
theorem update_all {P : Hold → Prop} {new : Hold} (hnew : P new)
    (hothers : ∀ u, u ≠ t → P (hold u)) (u : T) : P (update hold t new u) := by
  by_cases hu : u = t
  · rwa [hu, update_self]
  · rw [update_of_ne hu]
    exact hothers u hu

omit [Fintype T] [DecidableEq T] in
theorem eq_of_alone {w : T} {x : Hold} (halone : ∀ u, u ≠ w → hold u = .none)
    (ht : hold t = x) (hx : x ≠ .none) : t = w := by
  by_contra hne
  exact hx (ht.symm.trans (halone t hne))

theorem procHigh_pos (procs : Procs m T) (t : T) : 0 < procHigh (procs.addr t) := by
  by_contra hzero
  apply procs.nonzero t
  rw [rwProc_eq, Nat.eq_zero_of_not_pos hzero]
  rfl

theorem readers_lt (procs : Procs m T) (hold : T → Hold) : readers hold < 2 ^ m := by
  have hinj : Function.Injective fun t => procHigh (procs.addr t) := by
    intro t u heq
    apply procs.distinct
    have heq : procHigh (procs.addr t) = procHigh (procs.addr u) := heq
    rw [rwProc_eq, rwProc_eq, heq]
  have hsub : univ.image (fun t => procHigh (procs.addr t)) ⊆ Finset.Ico 1 (2 ^ m) := by
    intro high hhigh
    obtain ⟨t, _, rfl⟩ := mem_image.mp hhigh
    exact mem_Ico.mpr ⟨procHigh_pos procs t, procHigh_lt _⟩
  have hcard := card_le_card hsub
  rw [card_image_of_injective _ hinj, Nat.card_Ico] at hcard
  have hreaders : readers hold ≤ (univ : Finset T).card := card_filter_le _ _
  have hpos : 0 < 2 ^ m := Nat.two_pow_pos m
  omega

/-! ## What the word tells -/

/-- The word and the holders agree.  A writer is alone, and a lock that nobody holds
has no flags. -/
inductive Tells (procs : Procs m T) (hold : T → Hold) (owner : Word m) : Prop
  | written (t : T) (wrwant wait : Bool) (hwriter : hold t = .write)
      (halone : ∀ u, u ≠ t → hold u = .none)
      (hwant : wrwant = true → wait = true)
      (howner : owner = encode m (procHigh (procs.addr t)) true wrwant wait)
  | shared (wrwant wait : Bool) (hnone : ∀ t, hold t ≠ .write)
      (hfree : readers hold = 0 → wait = false)
      (hwant : wrwant = true → wait = true)
      (howner : owner = encode m (readers hold) false wrwant wait)

section Word

variable {procs : Procs m T} {hold : T → Hold} {owner : Word m} {t : T}

section

variable (htells : Tells procs hold owner)
include htells

namespace Tells

theorem wrlock_iff : has owner rwlockWrlock = true ↔ ∃ t, hold t = .write := by
  cases htells with rw [howner, has_wrlock]
  | written t wrwant wait hwriter halone hwant howner =>
    exact ⟨fun _ => ⟨t, hwriter⟩, fun _ => rfl⟩
  | shared wrwant wait hnone hfree hwant howner =>
    constructor
    · intro hfalse
      cases hfalse
    · rintro ⟨t, ht⟩
      exact absurd ht (hnone t)

theorem hold_eq (ht : hold t ≠ .none) :
    hold t = if has owner rwlockWrlock then .write else .read := by
  cases htells with
  | written u wrwant wait hwriter halone hwant howner =>
    rw [howner, has_wrlock, if_pos rfl, eq_of_alone halone rfl ht, hwriter]
  | shared wrwant wait hnone hfree hwant howner =>
    rw [howner, if_neg (by simp)]
    cases hcase : hold t with
    | none => exact absurd hcase ht
    | read => rfl
    | write => exact absurd hcase (hnone t)

theorem exclusive :
    (∀ t u, hold t = .write → hold u = .write → t = u) ∧
      ∀ t u, hold t = .write → hold u ≠ .read := by
  cases htells with
  | written w wrwant wait hwriter halone hwant howner =>
    constructor
    · intro t u ht hu
      rw [eq_of_alone halone ht (by simp), eq_of_alone halone hu (by simp)]
    · intro t u _ hu
      rw [eq_of_alone halone hu (by simp), hwriter] at hu
      cases hu
  | shared wrwant wait hnone hfree hwant howner =>
    exact ⟨fun t _ ht => absurd ht (hnone t), fun t _ ht => absurd ht (hnone t)⟩

theorem count (hnone : ∀ t, hold t ≠ .write) : (owner >>> 3).toNat = readers hold := by
  cases htells with
  | written w wrwant wait hwriter halone hwant howner =>
    exact absurd hwriter (hnone w)
  | shared wrwant wait hnone hfree hwant howner =>
    rw [howner]
    exact encode_shift _ _ _ _ (readers_lt procs hold)

theorem enterRead (hfree : has owner rwlockWrlock = false) (ht : hold t ≠ .read) :
    Tells procs (update hold t .read) (owner + rwlockReadIncr) ∧
      has (owner + rwlockReadIncr) rwlockWait = has owner rwlockWait := by
  cases htells with
  | written t wrwant wait hwriter halone hwant howner =>
    rw [howner, has_wrlock] at hfree
    cases hfree
  | shared wrwant wait hnone hfree hwant howner =>
    rw [howner, add_readIncr, has_wait, has_wait]
    refine ⟨.shared wrwant wait (update_all (P := (· ≠ .write)) (by simp) fun u _ => hnone u)
      ?_ hwant ?_, rfl⟩
    · rw [readers_update_read ht]
      omega
    · rw [readers_update_read ht]

omit htells in
theorem enterWrite (htells : Tells procs hold 0) :
    Tells procs (update hold t .write) (encode m (procHigh (procs.addr t)) true false false) := by
  have hall : ∀ u, hold u = .none := by
    cases htells with
    | written u wrwant wait hwriter halone hwant howner =>
      have hlock := congrArg (has · rwlockWrlock) howner
      simp only [has_wrlock] at hlock
      exact absurd hlock (by simp [has])
    | shared wrwant wait hnone hfree hwant howner =>
      rw [zero_eq_encode] at howner
      obtain ⟨hzero, _⟩ := encode_inj _ _ _ _ (Nat.two_pow_pos m) (readers_lt procs hold) howner
      intro u
      cases hu : hold u with
      | none => rfl
      | read => exact absurd (readers_pos hu) (by omega)
      | write => exact absurd hu (hnone u)
  refine .written t false false (by simp) (fun u hu => ?_) (by simp) rfl
  rw [update_of_ne hu]
  exact hall u

theorem downgrade (ht : hold t = .write) :
    Tells procs (update hold t .read)
        (owner + enterInc .downgrade (procs.addr t)) ∧
      has (owner + enterInc .downgrade (procs.addr t)) rwlockWait =
        has owner rwlockWait := by
  cases htells with
  | written u wrwant wait hwriter halone hwant howner =>
    obtain rfl : t = u := eq_of_alone halone ht (by simp)
    have hcount : readers (update hold t .read) = 1 := by
      rw [readers_update_read (by rw [ht]; simp), readers_eq_zero]
      intro u
      by_cases hu : u = t
      · rw [hu, ht]
        simp
      · rw [halone u hu]
        simp
    rw [howner, encode_add_downgrade, has_wait, has_wait]
    refine ⟨.shared wrwant wait (update_all (P := (· ≠ .write)) (by simp)
      fun u hu => by simp [halone u hu]) ?_ hwant (by rw [hcount]), rfl⟩
    omega
  | shared wrwant wait hnone hfree hwant howner => exact absurd ht (hnone t)

theorem setWait {op : Op} (hcheck : has owner (rwOps op).check = true) :
    Tells procs hold (owner ||| (rwOps op).waitSet) ∧
      has (owner ||| (rwOps op).waitSet) rwlockWait = true := by
  cases op with
  | write =>
    have hne : owner ≠ 0 := by
      rintro rfl
      simp [has] at hcheck
    cases htells with rw [howner, rwOps, or_waitSet_write, has_wait]
    | written t wrwant wait hwriter halone hwant howner =>
      exact ⟨.written t true true hwriter halone (fun _ => rfl) rfl, rfl⟩
    | shared wrwant wait hnone hfree hwant howner =>
      refine ⟨.shared true true hnone ?_ (fun _ => rfl) rfl, rfl⟩
      intro hzero
      apply absurd howner
      have hwait := hfree hzero
      have hwant : wrwant = false := by
        by_contra htrue
        have := hwant (by simpa using htrue)
        rw [hwait] at this
        cases this
      rw [hzero, hwait, hwant]
      exact hne
  | read =>
    obtain ⟨t, ht⟩ := htells.wrlock_iff.mp hcheck
    cases htells with
    | written t wrwant wait hwriter halone hwant howner =>
      rw [howner, rwOps, or_wait, has_wait]
      exact ⟨.written t wrwant true hwriter halone (fun _ => rfl) rfl, rfl⟩
    | shared wrwant wait hnone hfree hwant howner =>
      exact absurd ht (hnone t)
  | downgrade => simp [has, rwOps] at hcheck

theorem exitRead (ht : hold t = .read) :
    (has owner rwlockWait = false →
      Tells procs (update hold t .none) (owner - rwlockReadIncr) ∧
        has (owner - rwlockReadIncr) rwlockWait = false) ∧ Tells procs (update hold t .none)
      ((owner - rwlockReadIncr) &&& ~~~(rwlockWait ||| rwlockWrwant)) := by
  cases htells with
  | written u wrwant wait hwriter halone hwant howner =>
    rw [eq_of_alone halone ht (by simp), hwriter] at ht
    cases ht
  | shared wrwant wait hnone hfree hwant howner =>
    have hcount := readers_update_none ht
    have hnone' : ∀ u, update hold t .none u ≠ .write :=
      update_all (P := (· ≠ .write)) (by simp) fun u _ => hnone u
    rw [howner, ← hcount, sub_readIncr, and_not_flags, has_wait, has_wait]
    refine ⟨fun hwait => ⟨.shared wrwant wait hnone' (fun _ => hwait) hwant rfl, hwait⟩, ?_⟩
    exact .shared false false hnone' (fun _ => rfl) (by simp) rfl

theorem exitWrite (ht : hold t = .write) : Tells procs (update hold t .none) 0 := by
  cases htells with
  | written u wrwant wait hwriter halone hwant howner =>
    obtain rfl : t = u := eq_of_alone halone ht (by simp)
    have hall : ∀ u, update hold t .none u = .none := update_all (P := (· = .none)) rfl halone
    have hzero : readers (update hold t .none) = 0 := readers_eq_zero fun u => by rw [hall u]; simp
    refine .shared false false (fun u => by rw [hall u]; simp) (fun _ => rfl) (by simp) ?_
    rw [hzero]
    exact zero_eq_encode
  | shared wrwant wait hnone hfree hwant howner => exact absurd ht (hnone t)

end Tells

end

end Word

/-! ## Threads -/

/-- `stops` says whether threads are stopped in `sleep_setup_signal`. -/
def PcOk (stops : Bool) (hold : Hold) : Pc m → Prop
  | .outside _ => True
  | .enterReadCas owner => hold ≠ .read ∧ has owner rwlockWrlock = false
  | .enter flags => mayEnter hold flags.op = true
  | .blocked flags o =>
    mayEnter hold flags.op = true ∧ has o (rwOps flags.op).check = true
  | .prepared flags o _ =>
    mayEnter hold flags.op = true ∧ has o (rwOps flags.op).check = true
  | .halted flags o _ => stops = true ∧
    mayEnter hold flags.op = true ∧ has o (rwOps flags.op).check = true
  | .finish flags _ _ => mayEnter hold flags.op = true
  | .asleep flags => mayEnter hold flags.op = true
  | .awake flags => mayEnter hold flags.op = true
  | .acquire flags o =>
    mayEnter hold flags.op = true ∧ has o (rwOps flags.op).check = false
  | .wakes => True
  | .exitReadCas owner => hold = .read ∧ has owner rwlockWait = false
  | .exitWriteCas owner => hold = .write ∧ has owner rwlockWait = false
  | .exit => hold ≠ .none
  | .exitLoad wrlock => hold = if wrlock then .write else .read
  | .exitCas wrlock _ => hold = if wrlock then .write else .read

def Pc.locked : Pc m → Bool
  | .prepared _ _ _ => true
  | .finish _ _ _ => true
  | _ => false

def Pc.drowsy : Pc m → Bool
  | .finish _ ready doSleep => ready && doSleep
  | .asleep _ => true
  | _ => false

structure Inv (procs : Procs m T) (stops : Bool) (state : State m T) : Prop where
  word : Tells procs state.hold state.owner
  pcs : ∀ t, PcOk stops (state.hold t) (state.pc t)
  sched : ∀ t, (state.pc t).locked = true → state.sched = some t
  sleepers : ∀ t, (state.pc t).drowsy = true →
    has state.owner rwlockWait = true ∨ ∃ u, state.pc u = .wakes

section Steps

variable {procs : Procs m T} {stops : Bool} {state : State m T} {t : T}

section

variable (hinv : Inv procs stops state)
include hinv

omit [DecidableEq T] in
theorem Inv.pc {pc : Pc m} (hpc : state.pc t = pc) : PcOk stops (state.hold t) pc := by
  rw [← hpc]
  exact hinv.pcs t

theorem Inv.move {owner : Word m} {hold : T → Hold} {pc : Pc m} {sched : Option T}
    (htells : Tells procs hold owner) (hothers : ∀ u, u ≠ t → hold u = state.hold u)
    (hpc : PcOk stops (hold t) pc) (hlocked : pc.locked = true → sched = some t)
    (hunlocked : ∀ u, u ≠ t → (state.pc u).locked = true → sched = some u)
    (hawaits : state.pc t ≠ .wakes)
    (hwait : has state.owner rwlockWait = true → has owner rwlockWait = true ∨ pc = .wakes)
    (hdrowsy : pc.drowsy = true → has owner rwlockWait = true ∨ (state.pc t).drowsy = true) :
    Inv procs stops ⟨owner, update state.pc t pc, hold, sched⟩ := by
  have hpending : (has state.owner rwlockWait = true ∨ ∃ u, state.pc u = .wakes) →
      has owner rwlockWait = true ∨ ∃ u, update state.pc t pc u = .wakes := by
    rintro (hold | ⟨u, hu⟩)
    · rcases hwait hold with hnew | hwakes
      · exact .inl hnew
      · exact .inr ⟨t, by simp [hwakes]⟩
    · have hne : u ≠ t := by
        rintro rfl
        exact hawaits hu
      exact .inr ⟨u, by simp [update_of_ne hne, hu]⟩
  refine ⟨htells, fun u => ?_, fun u hu => ?_, fun u hu => ?_⟩ <;>
    by_cases heq : u = t
  · subst heq
    simpa using hpc
  · simp only [update_of_ne heq, hothers u heq]
    exact hinv.pcs u
  · subst heq
    exact hlocked (by simpa using hu)
  · simp only [update_of_ne heq] at hu
    exact hunlocked u heq hu
  · subst heq
    rcases hdrowsy (by simpa using hu) with hnew | hold
    · exact .inl hnew
    · exact hpending (hinv.sleepers u hold)
  · simp only [update_of_ne heq] at hu
    exact hpending (hinv.sleepers u hu)

theorem Inv.setPc {pc : Pc m} (hpc : PcOk stops (state.hold t) pc) (hlocked : pc.locked = false)
    (hdrowsy : pc.drowsy = false) (hawaits : state.pc t ≠ .wakes) :
    Inv procs stops (state.setPc t pc) :=
  hinv.move hinv.word (fun _ _ => rfl) hpc
    (fun h => by rw [hlocked] at h; cases h) (fun u _ => hinv.sched u) hawaits
    .inl fun h => by rw [hdrowsy] at h; cases h

theorem Inv.setHold {owner : Word m} {hold : Hold} {pc : Pc m}
    (htells : Tells procs (update state.hold t hold) owner) (hpc : PcOk stops hold pc)
    (hlocked : pc.locked = false) (hdrowsy : pc.drowsy = false) (hawaits : state.pc t ≠ .wakes)
    (hwait : has state.owner rwlockWait = true → has owner rwlockWait = true ∨ pc = .wakes) :
    Inv procs stops (({ state with owner := owner }.setHold t hold).setPc t pc) :=
  hinv.move htells (fun u hu => update_of_ne hu _ _) (by simpa [State.setHold] using hpc)
    (fun h => by rw [hlocked] at h; cases h) (fun u _ => hinv.sched u) hawaits
    hwait fun h => by rw [hdrowsy] at h; cases h

theorem Inv.wakeup (hsched : state.sched = none) :
    Inv procs stops (state.wakeup.setPc t (.outside none)) := by
  have hlocked : ∀ u, (state.pc u).locked = false := by
    intro u
    by_contra htrue
    have hsome := hinv.sched u (by simpa using htrue)
    rw [hsched] at hsome
    cases hsome
  have hpc : ∀ u, PcOk stops (state.hold u) (state.pc u).wake ∧
      (state.pc u).wake.locked = false ∧ (state.pc u).wake.drowsy = false := by
    intro u
    have hok := hinv.pcs u
    have hfree := hlocked u
    cases hcase : state.pc u with
    | prepared flags o ready =>
      rw [hcase] at hfree
      cases hfree
    | finish flags ready doSleep =>
      rw [hcase] at hfree
      cases hfree
    | _ =>
      rw [hcase] at hok
      exact ⟨hok, rfl, rfl⟩
  have hupdate : ∀ u, PcOk stops (state.hold u) (update state.wakeup.pc t (.outside none) u) ∧
      (update state.wakeup.pc t (.outside none) u).locked = false ∧
      (update state.wakeup.pc t (.outside none) u).drowsy = false := by
    intro u
    by_cases hu : u = t
    · subst hu
      simp [PcOk, Pc.locked, Pc.drowsy]
    · rw [update_of_ne hu]
      exact hpc u
  refine ⟨hinv.word, fun u => (hupdate u).1, fun u hu => ?_, fun u hu => ?_⟩
  · have hfalse := (hupdate u).2.1
    exact absurd (hfalse.symm.trans hu) (by simp)
  · have hfalse := (hupdate u).2.2
    exact absurd (hfalse.symm.trans hu) (by simp)

theorem Inv.cas {old new : Word m} {hold : Hold} {success failure : Pc m}
    (hawaits : state.pc t ≠ .wakes) (hsuccess : state.owner = old →
      Tells procs (update state.hold t hold) new ∧
        (has old rwlockWait = true → has new rwlockWait = true ∨ success = .wakes))
    (hpc : PcOk stops hold success) (hlocked : success.locked = false)
    (hdrowsy : success.drowsy = false)
    (hpc' : PcOk stops (state.hold t) failure) (hlocked' : failure.locked = false)
    (hdrowsy' : failure.drowsy = false) :
    Inv procs stops (state.rwCas old new
      (fun state => (state.setHold t hold).setPc t success)
      (fun state => state.setPc t failure)) := by
  rw [State.rwCas]
  split_ifs with hne
  · exact hinv.setPc hpc' hlocked' hdrowsy' hawaits
  · have heq : state.owner = old := not_not.mp hne
    obtain ⟨htells, hwait⟩ := hsuccess heq
    exact hinv.setHold htells hpc hlocked hdrowsy hawaits (heq ▸ hwait)

end

variable {flags : Flags}

section

variable (hinv : Inv procs stops state)
include hinv

variable {o : Word m}

theorem Inv.acquire (hpc : state.pc t = .acquire flags o) (heq : state.owner = o) :
    Tells procs (update state.hold t flags.op.hold) (o + enterInc flags.op (procs.addr t)) ∧
      (has o rwlockWait = true → has (o + enterInc flags.op (procs.addr t)) rwlockWait = true) := by
  have hok := hinv.pc hpc
  obtain ⟨hmay, hcheck⟩ := hok
  subst heq
  have htells := hinv.word
  cases hop : flags.op with
  | write =>
    rw [hop] at hcheck
    have hzero : state.owner = 0 := by simpa [has, rwOps] using hcheck
    rw [hzero] at htells ⊢
    rw [enterInc_write]
    refine ⟨htells.enterWrite, fun hwait => ?_⟩
    simp [has] at hwait
  | read =>
    rw [hop] at hcheck hmay
    obtain ⟨htells', hwait⟩ := htells.enterRead hcheck (by simpa [mayEnter] using hmay)
    rw [enterInc_read]
    exact ⟨htells', fun h => hwait.trans h⟩
  | downgrade =>
    rw [hop] at hmay
    obtain ⟨htells', hwait⟩ := htells.downgrade (by simpa [mayEnter] using hmay)
    exact ⟨htells', fun h => hwait.trans h⟩

theorem Inv.exit {wrlock : Bool} {owner : Word m}
    (hpc : state.pc t = .exitCas wrlock owner) (heq : state.owner = owner) :
    Tells procs (update state.hold t .none) (if wrlock then 0
        else (owner - rwlockReadIncr) &&& ~~~(rwlockWait ||| rwlockWrwant)) := by
  have hok := hinv.pc hpc
  subst heq
  cases wrlock with
  | true => exact hinv.word.exitWrite hok
  | false => exact (hinv.word.exitRead hok).2

theorem Inv.prepare {ready : Bool} (hok : PcOk stops (state.hold t) (.prepared flags o ready))
    (hawaits : state.pc t ≠ .wakes) (hsched : state.sched = none) :
    Inv procs stops ((state.setSched (some t)).setPc t (.prepared flags o ready)) := by
  refine hinv.move hinv.word (fun _ _ => rfl) hok (fun _ => rfl) ?_ hawaits .inl nofun
  intro u _ hlocked
  have hsome := hinv.sched u hlocked
  rw [hsched] at hsome
  cases hsome

theorem Inv.setFlags {ready : Bool} (hpc : state.pc t = .prepared flags o ready) :
    Inv procs stops (state.rwCas o (o ||| (rwOps flags.op).waitSet)
      (fun state => state.setPc t (.finish flags ready true))
      (fun state => state.setPc t (.finish flags ready false))) := by
  have hok := hinv.pc hpc
  have hlock : state.sched = some t := hinv.sched t (by rw [hpc]; rfl)
  rw [State.rwCas]
  split_ifs with hne
  · exact hinv.move hinv.word (fun _ _ => rfl) hok.1 (fun _ => hlock)
      (fun u _ => hinv.sched u) (by rw [hpc]; simp) .inl (fun h => by simp [Pc.drowsy] at h)
  · have heq : state.owner = o := not_not.mp hne
    subst heq
    obtain ⟨htells, hwait⟩ := hinv.word.setWait hok.2
    exact hinv.move htells (fun _ _ => rfl) hok.1 (fun _ => hlock)
      (fun u _ => hinv.sched u) (by rw [hpc]; simp) (fun _ => .inl hwait) (fun _ => .inl hwait)

theorem Inv.sleepFinish {ready doSleep : Bool} (hpc : state.pc t = .finish flags ready doSleep) :
    Inv procs stops ((state.setSched none).setPc t
      (if ready && doSleep then .asleep flags else .awake flags)) := by
  have hok := hinv.pc hpc
  have hlock : state.sched = some t := hinv.sched t (by rw [hpc]; rfl)
  refine hinv.move hinv.word (fun _ _ => rfl) ?_ ?_ ?_ (by rw [hpc]; simp) .inl ?_
  · split_ifs <;> exact hok
  · split_ifs <;> exact nofun
  · intro u hu hlocked
    have hsome := hinv.sched u hlocked
    rw [hlock] at hsome
    exact absurd (Option.some.inj hsome).symm hu
  · split_ifs with hsleeps
    · intro _
      rw [hpc]
      exact .inr hsleeps
    · intro h
      cases h

theorem Inv.next {state' : State m T} {signal : Bool}
    (hstep : Rwlock.next procs state t signal = some state') : Inv procs stops state' := by
  have hok := hinv.pcs t
  unfold Rwlock.next at hstep
  cases hpc : state.pc t with simp only [hpc] at hstep hok
  | outside error => cases hstep
  | enterReadCas owner =>
    cases hstep
    refine hinv.cas (by simp [hpc]) ?_ trivial rfl rfl ?_ rfl rfl
    · rintro rfl
      obtain ⟨htells, hwait⟩ := hinv.word.enterRead hok.2 hok.1
      exact ⟨htells, fun h => .inl (hwait.trans h)⟩
    · simpa [PcOk, mayEnter] using hok.1
  | enter flags =>
    split_ifs at hstep with hcheck hnosleep <;>
      cases hstep
    · exact hinv.setPc trivial rfl rfl (by simp [hpc])
    · exact hinv.setPc ⟨hok, hcheck⟩ rfl rfl (by simp [hpc])
    · exact hinv.setPc ⟨hok, by simpa using hcheck⟩ rfl rfl (by simp [hpc])
  | blocked flags o =>
    split_ifs at hstep with hsched
    cases hstep
    exact hinv.prepare hok (by simp [hpc]) (by simpa using hsched)
  | halted flags o halt =>
    cases halt with dsimp only at hstep
    | stopped queued => cases hstep
    | sleeping =>
      split_ifs at hstep
      cases hstep
      exact hinv.setPc hok rfl rfl (by simp [hpc])
    | runnable =>
      split_ifs at hstep with hsched
      cases hstep
      exact hinv.prepare hok.2 (by simp [hpc]) (by simpa using hsched)
  | prepared flags o ready =>
    cases hstep
    exact hinv.setFlags hpc
  | finish flags ready doSleep =>
    cases hstep
    exact hinv.sleepFinish hpc
  | asleep flags =>
    split_ifs at hstep
    cases hstep
    exact hinv.setPc hok rfl rfl (by simp [hpc])
  | awake flags =>
    split_ifs at hstep <;> cases hstep
    · exact hinv.setPc trivial rfl rfl (by simp [hpc])
    · exact hinv.setPc trivial rfl rfl (by simp [hpc])
    · exact hinv.setPc hok rfl rfl (by simp [hpc])
  | acquire flags o =>
    cases hstep
    refine hinv.cas (by simp [hpc]) ?_ ?_ ?_ ?_ hok.1 rfl rfl
    · intro heq
      obtain ⟨htells, hwait⟩ := hinv.acquire hpc heq
      exact ⟨htells, fun h => .inl (hwait h)⟩
    · split_ifs <;> trivial
    · split_ifs <;> rfl
    · split_ifs <;> rfl
  | wakes =>
    split_ifs at hstep with hsched
    cases hstep
    exact hinv.wakeup (by simpa using hsched)
  | exitReadCas owner =>
    cases hstep
    refine hinv.cas (by simp [hpc]) ?_ trivial rfl rfl ?_ rfl rfl
    · rintro rfl
      refine ⟨((hinv.word.exitRead hok.1).1 hok.2).1, fun h => ?_⟩
      rw [hok.2] at h
      cases h
    · simp [PcOk, hok.1]
  | exitWriteCas owner =>
    cases hstep
    refine hinv.cas (by simp [hpc]) ?_ trivial rfl rfl ?_ rfl rfl
    · rintro rfl
      refine ⟨hinv.word.exitWrite hok.1, fun h => ?_⟩
      rw [hok.2] at h
      cases h
    · simp [PcOk, hok.1]
  | exit =>
    cases hstep
    refine hinv.setPc ?_ rfl rfl (by simp [hpc])
    exact hinv.word.hold_eq hok
  | exitLoad wrlock =>
    cases hstep
    exact hinv.setPc hok rfl rfl (by simp [hpc])
  | exitCas wrlock owner =>
    cases hstep
    refine hinv.cas (by simp [hpc]) ?_ ?_ ?_ ?_ hok rfl rfl
    · intro heq
      refine ⟨hinv.exit hpc heq, fun h => .inr ?_⟩
      rw [if_pos h]
    · split_ifs <;> trivial
    · split_ifs <;> rfl
    · split_ifs <;> rfl

theorem Inv.step {state' : State m T} {event : Event T}
    (hstops : event.isStop = true → stops = true)
    (hstep : Rwlock.step procs state event = some state') : Inv procs stops state' := by
  have hout : ∀ t, (state.pc t).isOutside = true → state.pc t ≠ .wakes := by
    intro t houtside hwakes
    rw [hwakes] at houtside
    cases houtside
  unfold Rwlock.step at hstep
  cases event with dsimp only at hstep
  | rwEnterRead t =>
    split_ifs at hstep with hmay hlock <;>
      cases hstep <;>
      obtain ⟨houtside, hmay⟩ := Bool.and_eq_true_iff.mp hmay
    · exact hinv.setPc hmay rfl rfl (hout t houtside)
    · exact hinv.setPc ⟨by simpa [mayEnter] using hmay, by simpa using hlock⟩ rfl rfl
        (hout t houtside)
  | rwEnterWrite t =>
    split_ifs at hstep with houtside
    cases hstep
    refine hinv.cas (hout t houtside) ?_ trivial rfl rfl rfl rfl rfl
    intro hzero
    have htells := hinv.word
    rw [hzero] at htells
    rw [rwProc_or_wrlock]
    exact ⟨htells.enterWrite, fun h => by simp [has] at h⟩
  | rwEnter t flags =>
    split_ifs at hstep with hmay
    cases hstep
    obtain ⟨houtside, hmay⟩ := Bool.and_eq_true_iff.mp hmay
    exact hinv.setPc hmay rfl rfl (hout t houtside)
  | rwExitRead t =>
    split_ifs at hstep with hmay hwait <;>
      cases hstep <;>
      obtain ⟨houtside, hholds⟩ := Bool.and_eq_true_iff.mp hmay <;>
      have hholds : state.hold t = .read := by simpa using hholds
    · exact hinv.setPc (by simp [PcOk, hholds]) rfl rfl (hout t houtside)
    · exact hinv.setPc ⟨hholds, by simpa using hwait⟩ rfl rfl (hout t houtside)
  | rwExitWrite t =>
    split_ifs at hstep with hmay hwait <;>
      cases hstep <;>
      obtain ⟨houtside, hholds⟩ := Bool.and_eq_true_iff.mp hmay <;>
      have hholds : state.hold t = .write := by simpa using hholds
    · exact hinv.setPc (by simp [PcOk, hholds]) rfl rfl (hout t houtside)
    · exact hinv.setPc ⟨hholds, by simpa using hwait⟩ rfl rfl (hout t houtside)
  | rwExit t =>
    split_ifs at hstep with hmay
    cases hstep
    obtain ⟨houtside, hholds⟩ := Bool.and_eq_true_iff.mp hmay
    exact hinv.setPc (by simpa [PcOk] using hholds) rfl rfl (hout t houtside)
  | next t signal => exact hinv.next hstep
  | stop t =>
    have hok := hinv.pcs t
    cases hpc : state.pc t with simp only [hpc] at hstep hok <;> try cases hstep
    | blocked flags o =>
      split_ifs at hstep
      cases hstep
      exact hinv.setPc ⟨hstops rfl, hok⟩ rfl rfl (by simp [hpc])
  | cont t caught =>
    have hok := hinv.pcs t
    cases hpc : state.pc t with simp only [hpc] at hstep hok <;> try cases hstep
    | halted flags o halt =>
      cases halt with dsimp only at hstep <;> try cases hstep
      | stopped queued =>
        split_ifs at hstep <;> cases hstep <;> exact hinv.setPc hok rfl rfl (by simp [hpc])

end

end Steps

theorem Inv.init (procs : Procs m T) (stops : Bool) : Inv procs stops (State.init m T) where
  word := by
    have hzero : readers (State.init m T).hold = 0 := readers_eq_zero fun _ => by simp [State.init]
    refine .shared false false (fun _ => by simp [State.init]) (fun _ => rfl) (by simp) ?_
    rw [hzero]
    exact zero_eq_encode
  pcs := fun _ => trivial
  sched := nofun
  sleepers := nofun

/-! ## Safety -/

/-- Over every interleaving a writer is alone and the word counts the readers while
there is no writer; if no thread was stopped in `sleep_setup_signal`, a thread that sleeps
while the lock is held has its flag in the word or a thread stands before a `wakeup`. -/
theorem rwlock_safe (procs : Procs m T) {state : State m T}
    (hrun : Run.Reaches (step procs) (State.init m T) state) :
    (∀ t u, state.hold t = .write → state.hold u = .write → t = u) ∧
    (∀ t u, state.hold t = .write → state.hold u ≠ .read) ∧
    ((∀ t, state.hold t ≠ .write) → (state.owner >>> 3).toNat = readers state.hold) ∧
    (Run.GuardedRun (step procs) (fun _ event => event.isStop = false) (State.init m T) state →
      ∀ t, (state.pc t).sleeps = true → (∃ u, state.hold u ≠ .none) →
        has state.owner rwlockWait = true ∨ ∃ u, state.pc u = .wakes) := by
  have hinv : Inv procs true state := by
    apply hrun.invariant (P := Inv procs true) (Inv.init procs true)
    intro before event after hbefore _ hstep
    exact hbefore.step (fun _ => rfl) hstep
  obtain ⟨hone, halone⟩ := hinv.word.exclusive
  refine ⟨hone, halone, hinv.word.count, fun hquiet t hsleeps _ => ?_⟩
  have hinv : Inv procs false state := by
    apply hquiet.invariant (P := Inv procs false) (Inv.init procs false)
    intro before event after hbefore hguard hstep
    exact hbefore.step (fun hstop => by rw [hguard] at hstop; cases hstop) hstep
  refine hinv.sleepers t ?_
  have hok := hinv.pcs t
  cases hpc : state.pc t with rw [hpc] at hsleeps hok <;> try cases hsleeps
  | asleep flags => rfl
  | halted flags o halt => cases hok.1

/-! ## Two threads -/

def twoProcs : Procs 61 Bool where
  addr := fun t => if t then 0x1000 else 0x2003
  distinct := by decide
  nonzero := by decide

/-- One thread takes the lock for writing, the other one falls asleep over it, and
then the first one downgrades and stands before its `wakeup`. -/
def downgradeRun : State 61 Bool :=
  Run.execD (step twoProcs) (fun _ event => event.isStop = false) (State.init 61 Bool)
    [.rwEnterWrite true, .rwEnter false { op := .write, intr := true },
      .next false false, .next false false, .next false false,
      .next false false, .rwEnter true { op := .downgrade }, .next true false,
      .next true false]

theorem rwlock_safe_downgrade :
    downgradeRun.pc false = .asleep { op := .write, intr := true } ∧
    downgradeRun.hold true = .read ∧
    (downgradeRun.owner >>> 3).toNat = readers downgradeRun.hold ∧
    (has downgradeRun.owner rwlockWait = true ∨ ∃ u, downgradeRun.pc u = .wakes) := by
  have hquiet : Run.GuardedRun (step twoProcs) (fun _ event => event.isStop = false)
      (State.init 61 Bool) downgradeRun := Run.GuardedRun.of_execD (by decide)
  obtain ⟨_, _, hcount, hsleeper⟩ := rwlock_safe twoProcs (hquiet.mono fun _ _ _ => trivial)
  exact ⟨by decide, by decide, hcount (by decide),
    hsleeper hquiet false (by decide) ⟨true, by decide⟩⟩

/-- A thread is stopped on its way to sleep over a lock that the other one holds, and a
`SIGCONT` puts it to sleep: no flag is in the word and no `wakeup` comes. -/
theorem stopped_thread_unflagged :
    ∃ state, Run.Reaches (step twoProcs) (State.init 61 Bool) state ∧
      (state.pc false).sleeps = true ∧ state.hold true = .write ∧
      has state.owner rwlockWait = false ∧ ∀ u, state.pc u ≠ .wakes :=
  ⟨Run.execD (step twoProcs) (fun _ _ => True) (State.init 61 Bool)
      [.rwEnterWrite true, .rwEnter false { op := .write, intr := true },
        .next false false, .stop false, .cont false false],
    Run.GuardedRun.of_execD (by decide), by decide, by decide, by decide, by decide⟩

end AerieKernel.Rwlock
