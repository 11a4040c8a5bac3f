import AerieKernel.GuardedRuns
import AerieKernel.TimeoutWheel

/-!
# Timeouts run on time

A timeout that is armed and left alone is followed through a run in which a
pass of `softclock` comes to its end between any two ticks.
-/

namespace AerieKernel.Timeouts

open Queues Run BitVec

variable {ι : Type}

def passedAfter (done : Bool) : Output ι → Bool
  | .ticked _ => false
  | .passEnded => true
  | .none | .bucketed _ | .ran _ => done

def passed (trace : List (Output ι)) : Bool :=
  trace.foldl passedAfter true

theorem passed_snoc (trace : List (Output ι)) (output : Output ι) :
    passed (trace ++ [output]) = passedAfter (passed trace) output := by
  simp [passed]

def Timely (traced : Traced ι) (event : Event ι) : Prop :=
  event = .hardclock → passed traced.trace = true

def Event.Spares (id : ι) : Event ι → Prop
  | .add new _ => new ≠ id
  | .del tmo => tmo ≠ id
  | .hardclock | .softclock => True

instance [DecidableEq ι] (traced : Traced ι) (event : Event ι) : Decidable (Timely traced event) :=
  inferInstanceAs (Decidable (_ → _))

instance [DecidableEq ι] (id : ι) (event : Event ι) : Decidable (event.Spares id) :=
  match event with
  | .add .. | .del _ => inferInstanceAs (Decidable (_ ≠ _))
  | .hardclock | .softclock => isTrue trivial

def ticksIn : List (Output ι) → ℕ
  | [] => 0
  | .ticked _ :: rest => ticksIn rest + 1
  | _ :: rest => ticksIn rest

theorem ticksIn_append (first rest : List (Output ι)) :
    ticksIn (first ++ rest) = ticksIn first + ticksIn rest := by
  induction first with
  | nil => simp [ticksIn]
  | cons output first ih =>
    cases output <;> (simp [ticksIn, ih]; try omega)

theorem exists_tick {trace : List (Output ι)} {n : ℕ} (hn : n < ticksIn trace) :
    ∃ first ticks rest, trace = first ++ .ticked ticks :: rest ∧ ticksIn first = n := by
  induction trace generalizing n with
  | nil => simp [ticksIn] at hn
  | cons output trace ih =>
    have hskip : n < ticksIn trace → ticksIn [output] = 0 → ∃ first ticks rest, output :: trace =
          first ++ .ticked ticks :: rest ∧ ticksIn first = n := by
      intro hlt hzero
      obtain ⟨first, ticks, rest, rfl, hfirst⟩ := ih hlt
      refine ⟨output :: first, ticks, rest, rfl, ?_⟩
      have hcons := ticksIn_append [output] first
      rw [List.singleton_append] at hcons
      omega
    cases output with
    | ticked ticks =>
      cases n with
      | zero => exact ⟨[], ticks, trace, rfl, rfl⟩
      | succ n =>
        have hlt : n < ticksIn trace := Nat.lt_of_succ_lt_succ hn
        obtain ⟨first, ticks', rest, rfl, hfirst⟩ := ih hlt
        exact ⟨.ticked ticks :: first, ticks', rest, rfl, by simp [ticksIn, hfirst]⟩
    | none => exact hskip hn rfl
    | bucketed tmo => exact hskip hn rfl
    | ran tmo => exact hskip hn rfl
    | passEnded => exact hskip hn rfl

variable [DecidableEq ι]

def OnTime (id : ι) (armed toTicks : BitVec 32) (first : List (Output ι)) : Output ι → Prop
  | .ticked ticks => ticks = armed + BitVec.ofNat 32 (ticksIn first + 1) ∧
      (0 < toTicks.toNat → toTicks.toNat ≤ ticksIn first → first.count (.ran id) = 1)
  | .passEnded => toTicks.toNat ≤ ticksIn first →
      first.count (.ran id) = 1
  | .ran tmo => tmo = id → 0 < toTicks.toNat →
      ticksIn first = toTicks.toNat
  | .none | .bucketed _ => True

structure Waiting (id : ι) (toTicks : BitVec 32) (sys : System ι)
    (done : Bool) (since : List (Output ι)) : Prop where
  onqueue : Linked sys.queues id
  count : since.count (.ran id) = 0
  ticks : ticksIn since ≤ toTicks.toNat ∨ toTicks.toNat = 0 ∧ ticksIn since = 1
  todo : done = true → 1 ≤ ticksIn since → id ∉ sys.queues .todo

structure Ran (id : ι) (toTicks : BitVec 32) (sys : System ι) (since : List (Output ι)) : Prop where
  offqueue : ¬ Linked sys.queues id
  count : since.count (.ran id) = 1
  ticks : toTicks.toNat ≤ ticksIn since

structure Follows (id : ι) (armed toTicks : BitVec 32) (sys : System ι)
    (done : Bool) (since : List (Output ι)) : Prop where
  ticks : sys.ticks = armed + BitVec.ofNat 32 (ticksIn since)
  toTime : (sys.timeouts id).toTime = toTicks + armed
  history : EachEntry (OnTime id armed toTicks) since
  status : Waiting id toTicks sys done since ∨ Ran id toTicks sys since

theorem Follows.rel {id : ι} {armed toTicks : BitVec 32} {sys : System ι} {done : Bool}
    {since : List (Output ι)} (hfollows : Follows id armed toTicks sys done since)
    (hsmall : 0 ≤ toTicks.toInt) (hticks : ticksIn since ≤ toTicks.toNat + 1) :
    sys.rel id = toTicks.toNat - ticksIn since := by
  unfold System.rel
  rw [hfollows.ticks, hfollows.toTime]
  rw [toInt_eq_toNat_cond] at hsmall
  rw [toInt_eq_toNat_cond, toNat_sub, toNat_add, toNat_add, toNat_ofNat]
  split_ifs at hsmall ⊢ <;> omega

variable {output : Output ι}

section Steps

variable {id : ι} {armed toTicks : BitVec 32} {sys sys' : System ι}
  {done : Bool} {since : List (Output ι)}

theorem Waiting.lt_of_not_todo (hwaiting : Waiting id toTicks sys done since)
    (hfollows : Follows id armed toTicks sys done since) (hinv : sys.Inv)
    (hsmall : 0 ≤ toTicks.toInt) (htodo : id ∉ sys.queues .todo) :
    ticksIn since < toTicks.toNat := by
  obtain ⟨head, hmem⟩ := hwaiting.onqueue
  cases head with
  | todo => exact absurd hmem htodo
  | wheel index =>
    obtain ⟨n, hn, hle, _⟩ := hinv.due id index hmem
    have hpos : 0 < sys.rel id := by omega
    have hticks := hwaiting.ticks
    rw [hfollows.rel hsmall (by omega)] at hpos
    omega

section

variable (hfollows : Follows id armed toTicks sys done since)
include hfollows

namespace Follows

theorem snoc {done' : Bool} (hother : output ≠ .ran id)
    (hticks : sys'.ticks = armed + BitVec.ofNat 32 (ticksIn (since ++ [output])))
    (htoTime : (sys'.timeouts id).toTime = (sys.timeouts id).toTime)
    (hontime : OnTime id armed toTicks since output)
    (hlinked : Linked sys'.queues id ↔ Linked sys.queues id)
    (hwaits : Waiting id toTicks sys done since → (ticksIn (since ++ [output]) ≤ toTicks.toNat ∨
        toTicks.toNat = 0 ∧ ticksIn (since ++ [output]) = 1) ∧
      (done' = true → 1 ≤ ticksIn (since ++ [output]) → id ∉ sys'.queues .todo)) :
    Follows id armed toTicks sys' done' (since ++ [output]) := by
  have hcount : (since ++ [output]).count (.ran id) = since.count (.ran id) := by
    simp [List.count_append, hother]
  refine ⟨hticks, htoTime.trans hfollows.toTime, hfollows.history.snoc hontime, ?_⟩
  rcases hfollows.status with hwaiting | hran
  · obtain ⟨hsoon, htodo⟩ := hwaits hwaiting
    exact .inl ⟨hlinked.mpr hwaiting.onqueue, hcount.trans hwaiting.count, hsoon, htodo⟩
  · have hmore : ticksIn since ≤ ticksIn (since ++ [output]) := by
      rw [ticksIn_append]
      exact Nat.le_add_right _ _
    exact .inr ⟨hlinked.not.mpr hran.offqueue, hcount.trans hran.count, hran.ticks.trans hmore⟩

theorem spared (hticks : sys'.ticks = sys.ticks)
    (htoTime : (sys'.timeouts id).toTime = (sys.timeouts id).toTime)
    (hqueues : ∀ head, id ∈ sys'.queues head ↔ id ∈ sys.queues head)
    (houtput : output = .none ∨ ∃ tmo, tmo ≠ id ∧ (output = .bucketed tmo ∨ output = .ran tmo)) :
    Follows id armed toTicks sys' (passedAfter done output) (since ++ [output]) := by
  have hsame : ticksIn (since ++ [output]) = ticksIn since := by
    rw [ticksIn_append]
    rcases houtput with rfl | ⟨tmo, hne, rfl | rfl⟩ <;> rfl
  have hdone : passedAfter done output = done := by
    rcases houtput with rfl | ⟨tmo, hne, rfl | rfl⟩ <;> rfl
  refine hfollows.snoc ?_ ?_ htoTime ?_ (by simp only [Linked, hqueues]) ?_
  · rcases houtput with rfl | ⟨tmo, hne, rfl | rfl⟩
    · simp
    · simp
    · simpa using hne
  · rw [hticks, hsame]
    exact hfollows.ticks
  · rcases houtput with rfl | ⟨tmo, hne, rfl | rfl⟩
    · trivial
    · trivial
    · exact fun heq => absurd heq hne
  · intro hwaiting
    rw [hdone, hsame, hqueues]
    exact ⟨hwaiting.ticks, hwaiting.todo⟩

omit hfollows in
theorem hardclock (hfollows : Follows id armed toTicks sys true since)
    (hinv : sys.Inv) (hsmall : 0 ≤ toTicks.toInt) :
    Follows id armed toTicks (timeoutHardclockUpdate sys).1 false
      (since ++ [.ticked (sys.ticks + 1)]) := by
  have hsame : ticksIn (since ++ [.ticked (sys.ticks + 1)]) = ticksIn since + 1 := by
    rw [ticksIn_append]
    rfl
  have hnext : sys.ticks + 1 = armed + BitVec.ofNat 32 (ticksIn since + 1) := by
    rw [hfollows.ticks, BitVec.ofNat_add, BitVec.add_assoc]
    rfl
  -- a pass has ended since the tick before, unless the timeout has been
  -- armed after it
  have hearly : Waiting id toTicks sys true since →
      ticksIn since = 0 ∨ ticksIn since < toTicks.toNat := by
    intro hwaiting
    by_cases hfirst : ticksIn since = 0
    · exact .inl hfirst
    · exact .inr (hwaiting.lt_of_not_todo hfollows hinv hsmall (hwaiting.todo rfl (by omega)))
  refine hfollows.snoc (by simp) ?_ rfl ⟨hnext, fun hpos hreached => ?_⟩ linked_movebuckets ?_
  · rw [hsame]
    exact hnext
  · rcases hfollows.status with hwaiting | hran
    · have hlt := hearly hwaiting
      omega
    · exact hran.count
  · intro hwaiting
    have hlt := hearly hwaiting
    exact ⟨by omega, by simp⟩

theorem passEnded (hinv : sys.Inv) (hsmall : 0 ≤ toTicks.toInt) (htodo : sys.queues .todo = []) :
    Follows id armed toTicks sys true (since ++ [.passEnded]) := by
  have hfree : id ∉ sys.queues .todo := by simp [htodo]
  refine hfollows.snoc (by simp) ?_ rfl (fun hreached => ?_) Iff.rfl ?_
  · rw [ticksIn_append]
    exact hfollows.ticks
  · rcases hfollows.status with hwaiting | hran
    · have hlt := hwaiting.lt_of_not_todo hfollows hinv hsmall hfree
      omega
    · exact hran.count
  · intro hwaiting
    rw [ticksIn_append]
    exact ⟨hwaiting.ticks, fun _ _ => hfree⟩

theorem waiting {head : Head} (hmem : id ∈ sys.queues head) :
    Waiting id toTicks sys done since := by
  rcases hfollows.status with hwaiting | hran
  · exact hwaiting
  · exact absurd ⟨head, hmem⟩ hran.offqueue

theorem bucketed (hinv : sys.Inv) (htodo : id ∈ sys.queues .todo) (index : ℕ) :
    Follows id armed toTicks
      (sys.set id (sys.timeouts id) (Queues.insert (remove sys.queues id) id (.wheel index))) done
      (since ++ [.bucketed id]) := by
  refine hfollows.snoc (by simp) ?_ (by simp [System.set]) trivial
    ⟨fun _ => ⟨.todo, htodo⟩, fun _ => linked_insert.mpr (.inr rfl)⟩ fun hwaiting => ?_
  · rw [ticksIn_append]
    exact hfollows.ticks
  · rw [ticksIn_append]
    refine ⟨hwaiting.ticks, fun _ _ hmem => ?_⟩
    have hinsert : id ∈ Queues.insert (remove sys.queues id) id (.wheel index) .todo := hmem
    rcases mem_insert.mp hinsert with hold | ⟨hhead, _⟩
    · exact (hinv.separate.mem_remove.mp hold).2 rfl
    · cases hhead

theorem ran (hinv : sys.Inv) (hsmall : 0 ≤ toTicks.toInt)
    (htodo : id ∈ sys.queues .todo) (hrel : sys.rel id ≤ 0)
    {timeout : Timeout} (htoTime : timeout.toTime = (sys.timeouts id).toTime) :
    Follows id armed toTicks (sys.set id timeout (remove sys.queues id)) done
      (since ++ [.ran id]) := by
  have hwaiting := hfollows.waiting htodo
  have hticks := hwaiting.ticks
  have hreached : toTicks.toNat ≤ ticksIn since := by
    rw [hfollows.rel hsmall (by omega)] at hrel
    omega
  constructor
  · rw [ticksIn_append]
    exact hfollows.ticks
  · simpa [System.set, htoTime] using hfollows.toTime
  · apply hfollows.history.snoc
    intro _ hpos
    omega
  · right
    constructor
    · change ¬ Linked (remove sys.queues id) id
      simp [hinv.separate.linked_remove]
    · simp [List.count_append, hwaiting.count]
    · rw [ticksIn_append]
      exact hreached

theorem step {event : Event ι} (hinv : sys.Inv) (hsmall : 0 ≤ toTicks.toInt)
    (hspares : event.Spares id) (htimely : event = .hardclock → done = true)
    (hstep : stepOutput sys event = some (sys', output)) :
    Follows id armed toTicks sys' (passedAfter done output) (since ++ [output]) := by
  cases event with
  | add new ticks =>
    obtain ⟨_, hadd, heq⟩ := Option.map_eq_some_iff.mp hstep
    cases heq
    have hqueues := timeoutAdd_queues hinv hadd
    obtain ⟨_, queues, rfl, _⟩ := timeoutAdd_cases hadd
    have hne : id ≠ new := fun h => hspares h.symm
    refine hfollows.spared ?_ ?_ ?_ (.inl rfl)
    · rfl
    · simp [System.set, hne]
    · exact fun head => hqueues id head hne
  | del tmo =>
    cases hstep
    have hne : id ≠ tmo := fun h => hspares h.symm
    refine hfollows.spared ?_ ?_ ?_ (.inl rfl)
    · rfl
    · simp [timeoutDel, System.set, hne]
    · exact fun head => timeoutDel_queues hinv tmo id head hne
  | hardclock =>
    cases hstep
    cases htimely rfl
    exact hfollows.hardclock hinv hsmall
  | softclock =>
    have heq : softclock sys = (sys', output) := Option.some.inj hstep
    rcases softclock_cases sys with ⟨htodo, hsoft⟩ | ⟨tmo, rest, htodo,
      ⟨hrel, hsoft⟩ | ⟨hrel, hsoft⟩⟩
    all_goals
      rw [hsoft] at heq
      cases heq
    · exact hfollows.passEnded hinv hsmall htodo
    · by_cases hself : tmo = id
      · subst hself
        exact hfollows.bucketed hinv (by simp [htodo]) _
      · have hne : id ≠ tmo := fun h => hself h.symm
        refine hfollows.spared ?_ ?_ ?_ (.inr ⟨tmo, hself, .inl rfl⟩)
        · rfl
        · simp [System.set]
        · intro head
          change id ∈ Queues.insert (remove sys.queues tmo) tmo _ head ↔ _
          simp [mem_insert, hinv.separate.mem_remove, hne]
    · by_cases hself : tmo = id
      · subst hself
        exact hfollows.ran hinv hsmall (by simp [htodo]) hrel rfl
      · have hne : id ≠ tmo := fun h => hself h.symm
        refine hfollows.spared ?_ ?_ ?_ (.inr ⟨tmo, hself, .inr rfl⟩)
        · rfl
        · simp [System.set, hne]
        · intro head
          change id ∈ remove sys.queues tmo head ↔ _
          simp [hinv.separate.mem_remove, hne]

end Follows

end

theorem follows_add (hinv : sys.Inv) (hadd : timeoutAdd sys id toTicks = some sys') (done : Bool) :
    0 ≤ toTicks.toInt ∧ Follows id sys.ticks toTicks sys' done [] := by
  have hafter := timeoutAdd_inv hinv hadd
  obtain ⟨hsmall, queues, rfl, _⟩ := timeoutAdd_cases hadd
  have honqueue := hafter.onqueue id
  refine ⟨hsmall, ?_, ?_, eachEntry_nil _, .inl ⟨?_, ?_, ?_, ?_⟩⟩
  · simp [System.set, ticksIn]
  · simp [System.set]
  · simpa [System.set] using honqueue
  · rfl
  · exact .inl (Nat.zero_le _)
  · simp [ticksIn]

end Steps

/-! ## Whole runs -/

theorem inv_of_run {ticks : BitVec 32} {timeouts : ι → Timeout}
    {guard : Traced ι → Event ι → Prop} {traced : Traced ι}
    (hrun : GuardedRun step guard ⟨System.startup ticks timeouts, []⟩ traced) : traced.sys.Inv := by
  refine hrun.invariant (P := fun traced => traced.sys.Inv) ⟨⟨fun _ => .nil, nofun⟩, fun _ => rfl,
    by simp [System.startup, timeoutSet, Linked], by simp [System.startup]⟩ ?_
  intro before event after hinv _ hstep
  obtain ⟨⟨sys, output⟩, hout, rfl⟩ := Option.map_eq_some_iff.mp hstep
  exact stepOutput_inv hinv hout

theorem follows_of_run {traced armed final : Traced ι} {id : ι} {toTicks : BitVec 32}
    (hinv : traced.sys.Inv) (hadd : step traced (.add id toTicks) = some armed)
    (hrest : GuardedRun step
      (fun traced event => Timely traced event ∧ event.Spares id)
      armed final) :
    (armed.sys.timeouts id).toTime = toTicks + traced.sys.ticks ∧
    ∃ since, final.trace = armed.trace ++ since ∧
      Follows id traced.sys.ticks toTicks final.sys (passed final.trace)
        since := by
  obtain ⟨⟨sys, output⟩, hout, rfl⟩ := Option.map_eq_some_iff.mp hadd
  obtain ⟨sys', hsys, heq⟩ := Option.map_eq_some_iff.mp hout
  cases heq
  have harmed := timeoutAdd_inv hinv hsys
  obtain ⟨hsmall, hfollows⟩ := follows_add hinv hsys (passed (traced.trace ++ [.none]))
  have hrun := hrest.invariant (P := fun now => now.sys.Inv ∧ ∃ since,
    now.trace = traced.trace ++ [.none] ++ since ∧
    Follows id traced.sys.ticks toTicks now.sys (passed now.trace) since)
    ⟨harmed, [], by simp, hfollows⟩ ?_
  · exact ⟨hfollows.toTime, hrun.2⟩
  · rintro before event after ⟨hbefore, since, htrace, hold⟩ ⟨htimely, hspares⟩ hstep
    obtain ⟨⟨sys'', output⟩, hout, rfl⟩ := Option.map_eq_some_iff.mp hstep
    refine ⟨stepOutput_inv hbefore hout, since ++ [output], ?_, ?_⟩
    · simp only [htrace, List.append_assoc]
    · simp only [passed_snoc]
      exact hold.step hbefore hsmall hspares htimely hout

theorem ticked_toTime_mem {id : ι} {armed toTicks : BitVec 32} {first rest : List (Output ι)}
    (hhistory : EachEntry (OnTime id armed toTicks) (first ++ rest)) (hpos : 0 < toTicks.toNat)
    (hreached : toTicks.toNat ≤ ticksIn first) : .ticked (toTicks + armed) ∈ first := by
  have hlt : toTicks.toNat - 1 < ticksIn first := by omega
  obtain ⟨front, ticks, back, rfl, hfront⟩ := exists_tick hlt
  have hvalue := (hhistory front (.ticked ticks) (back ++ rest) (by simp)).1
  have hback : toTicks.toNat - 1 + 1 = toTicks.toNat := by omega
  rw [hfront, hback, BitVec.ofNat_toNat, BitVec.add_comm] at hvalue
  simp [hvalue]

theorem ticksIn_before_toTime {id : ι} {armed toTicks : BitVec 32} {before after : List (Output ι)}
    (hhistory : EachEntry (OnTime id armed toTicks) (before ++ .ticked (toTicks + armed) :: after))
    (hpos : 0 < toTicks.toNat) (hfirst : .ticked (toTicks + armed) ∉ before) :
    ticksIn before + 1 = toTicks.toNat := by
  have hvalue := (hhistory before _ after rfl).1
  rw [BitVec.add_comm, BitVec.add_right_inj] at hvalue
  by_cases hlate : toTicks.toNat ≤ ticksIn before
  · exact absurd (ticked_toTime_mem hhistory hpos hlate) hfirst
  · have hcount := congrArg BitVec.toNat hvalue
    rw [BitVec.toNat_ofNat] at hcount
    omega

theorem toTicks_le_ticksIn {id : ι} {armed toTicks : BitVec 32} {since : List (Output ι)}
    (hhistory : EachEntry (OnTime id armed toTicks) since)
    (hticked : .ticked (toTicks + armed) ∈ since) : toTicks.toNat ≤ ticksIn since := by
  obtain ⟨before, after, rfl⟩ := List.append_of_mem hticked
  have hvalue := (hhistory before _ after rfl).1
  rw [BitVec.add_comm, BitVec.add_right_inj] at hvalue
  have hcount := congrArg BitVec.toNat hvalue
  rw [BitVec.toNat_ofNat] at hcount
  rw [ticksIn_append, ticksIn]
  omega

/-- Each round of a pass takes a timeout from the worklist and puts none on it. -/
theorem softclock_todo (sys : System ι) :
    (softclock sys).1.queues .todo = (sys.queues .todo).tail := by
  rcases softclock_cases sys with ⟨htodo, heq⟩ | ⟨tmo, rest, htodo, ⟨-, heq⟩ | ⟨-, heq⟩⟩ <;>
    simp [heq, htodo, System.set, Queues.insert, Queues.remove]

theorem softclock_pass_ends (guard : Traced ι → Event ι → Prop)
    (hguard : ∀ traced, guard traced .softclock) (traced : Traced ι) :
    ∃ ended outs, softclockPass ((traced.sys.queues .todo).length + 1) traced = some ended ∧
      GuardedRun step guard traced ended ∧ ended.trace = traced.trace ++ outs ++ [.passEnded] ∧
      ticksIn outs = 0 := by
  induction hlength : (traced.sys.queues .todo).length generalizing traced with
  | zero =>
    have hsoft : softclock traced.sys = (traced.sys, .passEnded) := by
      rw [softclock, List.length_eq_zero_iff.mp hlength]
    refine ⟨_, [], by rw [softclockPass, hsoft], ?_, by simp, rfl⟩
    exact (GuardedRun.refl _ _ _).snoc (hguard traced) (by simp [step, stepOutput, hsoft])
  | succ n ih =>
    have hshrinks := softclock_todo traced.sys
    obtain ⟨htodo, -⟩ | ⟨tmo, rest, htodo, hround⟩ := softclock_cases traced.sys
    · simp [htodo] at hlength
    obtain ⟨sys, output, hsoft, hout⟩ : ∃ sys output, softclock traced.sys = (sys, output) ∧
        (output = .bucketed tmo ∨ output = .ran tmo) := by
      rcases hround with ⟨-, heq⟩ | ⟨-, heq⟩
      · exact ⟨_, _, heq, .inl rfl⟩
      · exact ⟨_, _, heq, .inr rfl⟩
    rw [hsoft, htodo] at hshrinks
    rw [htodo] at hlength
    have hrest : sys.queues .todo = rest := hshrinks
    obtain ⟨ended, outs, hpass, hrun, htrace, hticks⟩ :=
      ih ⟨sys, traced.trace ++ [output]⟩ (by simpa [hrest] using hlength)
    have hfirst : GuardedRun step guard traced ⟨sys, traced.trace ++ [output]⟩ :=
      (GuardedRun.refl _ _ _).snoc (hguard traced) (by simp [step, stepOutput, hsoft])
    refine ⟨ended, output :: outs, ?_, hfirst.trans hrun, by simp [htrace], ?_⟩
    · rw [softclockPass, hsoft]
      rcases hout with rfl | rfl <;> exact hpass
    · rcases hout with rfl | rfl <;> exact hticks

/-- No timeout runs before its time.  In a run in which a pass of `softclock`
ends between any two ticks, a timeout that is armed and left alone runs once,
in the pass of the first tick with its time, or in the next pass if its time
is now; and a pass ends after as many rounds as there are timeouts on the
worklist, so that it does run. -/
theorem timeouts_run_on_time (ticks : BitVec 32) (timeouts : ι → Timeout) :
    (∀ traced sys' id,
      Reaches step ⟨System.startup ticks timeouts, []⟩ traced →
      softclock traced.sys = (sys', .ran id) →
      ((traced.sys.timeouts id).toTime - traced.sys.ticks).toInt ≤ 0) ∧
    ∀ traced armed final id toTicks,
      GuardedRun step Timely ⟨System.startup ticks timeouts, []⟩ traced →
      step traced (.add id toTicks) = some armed → GuardedRun step
        (fun traced event => Timely traced event ∧ event.Spares id) armed final →
      ∃ since, final.trace = armed.trace ++ since ∧ since.count (.ran id) ≤ 1 ∧
        (toTicks = 0 → EachEntry (fun first output =>
          output = .passEnded → first.count (.ran id) = 1) since) ∧
        (toTicks ≠ 0 → ∀ toTime, toTime = (armed.sys.timeouts id).toTime →
          (.ticked toTime ∉ since → .ran id ∉ since) ∧
          ∀ before after, since = before ++ .ticked toTime :: after →
            .ticked toTime ∉ before → .ran id ∉ before ∧ EachEntry (fun first output =>
                output = .passEnded ∨ (∃ ticks, output = .ticked ticks) →
                first.count (.ran id) = 1) after) ∧
        ∃ ended outs,
          softclockPass ((final.sys.queues .todo).length + 1) final = some ended ∧
          ended.trace = armed.trace ++ since ++ outs ++ [.passEnded] ∧
          (toTicks = 0 ∨ .ticked (armed.sys.timeouts id).toTime ∈ since →
            (since ++ outs).count (.ran id) = 1) := by
  constructor
  · intro traced sys' id _ hsoft
    rcases softclock_cases traced.sys with ⟨_, heq⟩ | ⟨tmo, rest, _, ⟨_, heq⟩ | ⟨hrel, heq⟩⟩
    all_goals
      rw [hsoft] at heq
      cases heq
    exact hrel
  · intro traced armed final id toTicks hrun hadd hrest
    obtain ⟨htoTime, since, htrace, hfollows⟩ := follows_of_run (inv_of_run hrun) hadd hrest
    have hhistory := hfollows.history
    refine ⟨since, htrace, ?_, ?_, ?_, ?_⟩
    · rcases hfollows.status with hwaiting | hran
      · exact hwaiting.count.le.trans (Nat.zero_le 1)
      · exact hran.count.le
    · rintro rfl first output rest hsince rfl
      exact hhistory first .passEnded rest hsince (Nat.zero_le _)
    · rintro hne _ rfl
      have hpos : 0 < toTicks.toNat := by
        apply Nat.pos_of_ne_zero
        intro hzero
        exact hne (eq_of_toNat_eq hzero)
      rw [htoTime]
      constructor
      · intro hnever hran
        obtain ⟨first, rest, rfl⟩ := List.append_of_mem hran
        have hreached := hhistory first _ rest rfl rfl hpos
        exact hnever (List.mem_append_left _ (ticked_toTime_mem hhistory hpos hreached.ge))
      · rintro before after rfl hfirst
        have hbefore := ticksIn_before_toTime hhistory hpos hfirst
        have hnotYet : .ran id ∉ before := by
          intro hran
          obtain ⟨first, rest, rfl⟩ := List.append_of_mem hran
          have hreached := hhistory first (.ran id)
            (rest ++ .ticked (toTicks + traced.sys.ticks) :: after) (by simp) rfl hpos
          rw [ticksIn_append] at hbefore
          omega
        refine ⟨hnotYet, ?_⟩
        rintro first output rest rfl houtput
        have hentry := hhistory (before ++
          .ticked (toTicks + traced.sys.ticks) :: first) output rest (by simp)
        have hcount : (before ++ .ticked (toTicks + traced.sys.ticks) ::
            first).count (.ran id) = first.count (.ran id) := by
          rw [List.count_append, List.count_eq_zero.mpr hnotYet]
          simp
        have hreached : toTicks.toNat ≤ ticksIn (before ++
            .ticked (toTicks + traced.sys.ticks) :: first) := by
          rw [ticksIn_append]
          simp only [ticksIn]
          omega
        rcases houtput with rfl | ⟨ticks, rfl⟩
        · rw [← hcount]
          exact hentry hreached
        · rw [← hcount]
          exact hentry.2 hpos hreached
    · obtain ⟨ended, outs, hpass, hended, hend, hticks⟩ := softclock_pass_ends
        (fun traced event => Timely traced event ∧ event.Spares id)
        (fun _ => ⟨nofun, trivial⟩) final
      obtain ⟨-, since', htrace', hfollows'⟩ :=
        follows_of_run (inv_of_run hrun) hadd (hrest.trans hended)
      rw [htrace] at hend
      refine ⟨ended, outs, hpass, hend, fun hdue => ?_⟩
      have hsince : since' = (since ++ outs) ++ .passEnded :: [] := by
        rw [htrace', List.append_assoc, List.append_assoc, List.append_cancel_left_eq] at hend
        rw [hend, List.append_assoc]
      refine hfollows'.history (since ++ outs) .passEnded [] hsince ?_
      rw [ticksIn_append, hticks, add_zero]
      rcases hdue with rfl | hticked
      · exact Nat.zero_le _
      · exact toTicks_le_ticksIn hhistory (htoTime ▸ hticked)

theorem timeouts_run_on_time_wrap :
    ∃ final : Traced ℕ, .ran 0 ∈ final.trace ∧
      ∃ before after, final.trace = before ++ after ∧ after.count (.ran 0) ≤ 1 := by
  let start : Traced ℕ := ⟨System.startup 4294967295
    fun _ => ⟨0, false, false, false⟩, []⟩
  let armed : Traced ℕ := (step start (.add 0 2)).get (by decide +kernel)
  obtain ⟨since, htrace, hcount, _⟩ :=
    (timeouts_run_on_time 4294967295 fun _ => ⟨0, false, false, false⟩).2 start armed
      (execD step (fun traced event => Timely traced event ∧ event.Spares 0) armed
        [.softclock, .softclock, .hardclock, .softclock, .hardclock, .softclock])
      0 2 (GuardedRun.refl _ _ _) (by simp [armed]) (GuardedRun.of_execD (by decide +kernel))
  exact ⟨_, by decide +kernel, _, since, htrace, hcount⟩

end AerieKernel.Timeouts
