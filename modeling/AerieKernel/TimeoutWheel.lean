import AerieKernel.TimeoutModel

/-!
# Buckets are moved in time

A timeout in a bucket is not due yet, and the bucket is moved to the worklist
at the latest when the timeout is due.  The bucket may be moved much earlier,
since a timeout that is put off stays where it is; `softclock` then finds a
new bucket for it.
-/

namespace AerieKernel.Timeouts

open Queues BitVec

/-! ## Arithmetic of the wheels -/

theorem maskwheel_eq {wheel : ℕ} (hwheel : wheel ≤ 3) (time : BitVec 32) :
    maskwheel wheel time = time.toNat / 256 ^ wheel % 256 := by
  have hshift : time.sshiftRight (wheel * wheelbits) &&& wheelmask =
      time >>> (wheel * wheelbits) &&& wheelmask := by
    apply eq_of_getLsbD_eq
    intro i hi
    by_cases hlow : i < 8
    · have hin : wheel * 8 + i < 32 := by omega
      simp only [wheelbits, getLsbD_and, getLsbD_sshiftRight, hin]
      simp [Nat.not_le.mpr hi]
    · have hmask : wheelmask.getLsbD i = false := by
        have hcases : ∀ i < 32, 8 ≤ i → wheelmask.getLsbD i = false := by
          decide
        exact hcases i hi (by omega)
      simp [hmask]
  rw [maskwheel, hshift, toNat_and, toNat_ushiftRight,
    Nat.shiftRight_eq_div_pow, wheelbits, pow_mul' 2 wheel 8]
  exact Nat.and_two_pow_sub_one_eq_mod _ 8

def MovesAt (index : ℕ) (time : BitVec 32) : Prop :=
  ∃ wheel ≤ 3, index = maskwheel wheel time + wheel * wheelsize ∧
    ∀ lower < wheel, maskwheel lower time = 0

variable {time : BitVec 32}

theorem movesAt_floor {wheel : ℕ} (hwheel : wheel ≤ 3) {abs : BitVec 32}
    (htime : time.toNat = abs.toNat - abs.toNat % 256 ^ wheel) :
    MovesAt (maskwheel wheel abs + wheel * wheelsize) time := by
  have hfloor : time.toNat = 256 ^ wheel * (abs.toNat / 256 ^ wheel) := by
    have hdiv := Nat.div_add_mod abs.toNat (256 ^ wheel)
    omega
  refine ⟨wheel, hwheel, ?_, ?_⟩
  · rw [maskwheel_eq hwheel, maskwheel_eq hwheel, hfloor, Nat.mul_div_cancel_left _ (by positivity)]
  · intro lower hlower
    obtain ⟨above, rfl⟩ := Nat.exists_eq_add_of_lt hlower
    rw [maskwheel_eq (by omega), hfloor, pow_succ, pow_add, mul_assoc,
      mul_assoc, Nat.mul_div_cancel_left _ (by positivity), mul_left_comm, Nat.mul_mod_right]

theorem toInt_eq_toNat {rel : BitVec 32} (hpos : 0 < rel.toInt) : rel.toInt = rel.toNat := by
  rw [toInt_eq_toNat_cond] at hpos ⊢
  split_ifs at hpos ⊢
  · rfl
  · omega

theorem movesAt_ahead (wheel : ℕ) (hwheel : wheel ≤ 3) {abs ticks : BitVec 32}
    (hpos : 0 < (abs - ticks).toInt) (hahead : abs.toNat % 256 ^ wheel < (abs - ticks).toNat) :
    ∃ n : ℕ, 1 ≤ n ∧ (n : ℤ) ≤ (abs - ticks).toInt ∧
      MovesAt (maskwheel wheel abs + wheel * wheelsize) (ticks + BitVec.ofNat 32 n) := by
  have hrel := toInt_eq_toNat hpos
  have hle := Nat.mod_le abs.toNat (256 ^ wheel)
  refine ⟨(abs - ticks).toNat - abs.toNat % 256 ^ wheel, by omega, by omega,
    movesAt_floor hwheel ?_⟩
  rw [toNat_add, toNat_ofNat]
  rw [toNat_sub] at hahead ⊢
  omega

theorem bucket_movesAt {abs ticks : BitVec 32} (hpos : 0 < (abs - ticks).toInt) :
    ∃ n : ℕ, 1 ≤ n ∧ (n : ℤ) ≤ (abs - ticks).toInt ∧
      MovesAt (bucket (abs - ticks) abs) (ticks + BitVec.ofNat 32 n) := by
  have hahead := fun wheel (hwheel : wheel ≤ 3) =>
    movesAt_ahead wheel hwheel hpos
  have hrel := toInt_eq_toNat hpos
  have hlow : ∀ wheel, abs.toNat % 256 ^ wheel < 256 ^ wheel :=
    fun wheel => Nat.mod_lt _ (by positivity)
  generalize abs - ticks = rel at hpos hahead hrel ⊢
  unfold bucket wheelbits
  split_ifs with htwo hone hthree
  · have hmoves := hahead 0 (by omega) (by simp; omega)
    simpa using hmoves
  · have hmoves := hahead 1 (by omega) ((hlow 1).trans_le (by omega))
    simpa using hmoves
  · exact hahead 2 (by omega) ((hlow 2).trans_le (by omega))
  · exact hahead 3 (by omega) ((hlow 3).trans_le (by omega))

/-! ## The tick -/

section Tick

variable {ι : Type} {queues : Head → List ι}

variable {id : ι}

theorem mem_movebucket {wheel index : ℕ} :
    id ∈ movebucket wheel time queues (.wheel index) ↔
      index ≠ maskwheel wheel time + wheel * wheelsize ∧ id ∈ queues (.wheel index) := by
  rw [movebucket, mem_append (by simp)]
  simp

theorem separate_movebuckets (time : BitVec 32)
    (hseparate : Separate queues) : Separate (movebuckets time queues) := by
  have hmove : ∀ {queues : Head → List ι} wheel, Separate queues →
      Separate (movebucket wheel time queues) := fun _ h => h.append (by simp)
  unfold movebuckets
  split_ifs
  · exact hmove 3 (hmove 2 (hmove 1 (hmove 0 hseparate)))
  · exact hmove 2 (hmove 1 (hmove 0 hseparate))
  · exact hmove 1 (hmove 0 hseparate)
  · exact hmove 0 hseparate

theorem linked_movebuckets : Linked (movebuckets time queues) id ↔ Linked queues id := by
  have hmove : ∀ {queues : Head → List ι} wheel,
      Linked (movebucket wheel time queues) id ↔ Linked queues id :=
    fun _ => linked_append (by simp)
  unfold movebuckets
  split_ifs
  · rw [hmove, hmove, hmove, hmove]
  · rw [hmove, hmove, hmove]
  · rw [hmove, hmove]
  · rw [hmove]

theorem mem_movebuckets {index : ℕ} (hmem : id ∈ movebuckets time queues (.wheel index)) :
    id ∈ queues (.wheel index) ∧ ¬ MovesAt index time := by
  unfold movebuckets at hmem
  -- a wheel above the first one with a digit that is not zero stays
  split_ifs at hmem with h0 h1 h2 <;> simp only [mem_movebucket] at hmem
  · refine ⟨hmem.2.2.2.2, ?_⟩
    rintro ⟨wheel, hwheel, hindex, _⟩
    interval_cases wheel <;> tauto
  · refine ⟨hmem.2.2.2, ?_⟩
    rintro ⟨wheel, hwheel, hindex, hzero⟩
    have hlt : wheel < 3 := by
      by_contra hge
      exact h2 (hzero 2 (by omega))
    interval_cases wheel <;> tauto
  · refine ⟨hmem.2.2, ?_⟩
    rintro ⟨wheel, hwheel, hindex, hzero⟩
    have hlt : wheel < 2 := by
      by_contra hge
      exact h1 (hzero 1 (by omega))
    interval_cases wheel <;> tauto
  · refine ⟨hmem.2, ?_⟩
    rintro ⟨wheel, hwheel, hindex, hzero⟩
    have hlt : wheel < 1 := by
      by_contra hge
      exact h0 (hzero 0 (by omega))
    interval_cases wheel
    exact hmem.1 hindex

end Tick

/-! ## The invariant -/

section Invariant

variable {ι : Type}

/-- Each timeout is on at most one queue, as its flag says, and the bucket of
a timeout is moved when the timeout is due or before. -/
structure System.Inv (sys : System ι) : Prop where
  separate : Separate sys.queues
  initialized : ∀ id, (sys.timeouts id).initialized = true
  onqueue : ∀ id, (sys.timeouts id).onqueue = true ↔ Linked sys.queues id
  due : ∀ id index, id ∈ sys.queues (.wheel index) → ∃ n : ℕ, 1 ≤ n ∧
    (n : ℤ) ≤ sys.rel id ∧ MovesAt index (sys.ticks + BitVec.ofNat 32 n)

variable {sys : System ι} {id : ι}

theorem rel_hardclock {toTime ticks : BitVec 32} (hlow : -(2 ^ 31) < (toTime - ticks).toInt) :
    (toTime - (ticks + 1)).toInt = (toTime - ticks).toInt - 1 := by
  have hone : (1 : BitVec 32).toNat = 1 := rfl
  rw [toInt_eq_toNat_cond, toNat_sub] at hlow
  rw [toInt_eq_toNat_cond, toInt_eq_toNat_cond,
    BitVec.toNat_sub, BitVec.toNat_sub, BitVec.toNat_add]
  split_ifs at hlow ⊢ <;> omega

theorem hardclock_inv (hinv : sys.Inv) : (timeoutHardclockUpdate sys).1.Inv where
  separate := separate_movebuckets _ hinv.separate
  initialized := hinv.initialized
  onqueue := fun id => (hinv.onqueue id).trans linked_movebuckets.symm
  due := by
    intro id index hmem
    obtain ⟨hold, hstays⟩ := mem_movebuckets hmem
    obtain ⟨n, hn, hle, hmoves⟩ := hinv.due id index hold
    have hne : n ≠ 1 := by
      rintro rfl
      exact hstays hmoves
    have hrel : (timeoutHardclockUpdate sys).1.rel id = sys.rel id - 1 :=
      rel_hardclock (by
        change -(2 ^ 31) < sys.rel id
        omega)
    refine ⟨n - 1, by omega, by omega, ?_⟩
    have htime : sys.ticks + 1 + BitVec.ofNat 32 (n - 1) = sys.ticks + BitVec.ofNat 32 n := by
      have hone : (1 : BitVec 32).toNat = 1 := rfl
      apply BitVec.eq_of_toNat_eq
      simp only [toNat_add, toNat_ofNat]
      omega
    change MovesAt index (sys.ticks + 1 + BitVec.ofNat 32 (n - 1))
    rwa [htime]

variable [DecidableEq ι]

theorem System.Inv.set (hinv : sys.Inv) {timeout : Timeout} {queues : Head → List ι}
    (hseparate : Separate queues) (hinitialized : timeout.initialized = true)
    (honqueue : timeout.onqueue = true ↔ Linked queues id)
    (hothers : ∀ other head, other ≠ id → (other ∈ queues head ↔ other ∈ sys.queues head))
    (hdue : ∀ index, id ∈ queues (.wheel index) → ∃ n : ℕ, 1 ≤ n ∧
      (n : ℤ) ≤ (timeout.toTime - sys.ticks).toInt ∧
      MovesAt index (sys.ticks + BitVec.ofNat 32 n)) : (sys.set id timeout queues).Inv := by
  constructor
  · exact hseparate
  · intro other
    by_cases hother : other = id
    · subst hother
      simpa [System.set] using hinitialized
    · simpa [System.set, hother] using hinv.initialized other
  · intro other
    by_cases hother : other = id
    · subst hother
      simpa [System.set] using honqueue
    · have hold := hinv.onqueue other
      simp only [System.set, Function.update_of_ne hother, Linked, hothers other _ hother]
      exact hold
  · intro other index hmem
    by_cases hother : other = id
    · subst hother
      simpa [System.rel, System.set] using hdue index hmem
    · have hold := hinv.due other index ((hothers other _ hother).mp hmem)
      simpa [System.rel, System.set, hother] using hold

variable {sys' : System ι} {toTicks : BitVec 32}

theorem timeoutAdd_cases {new : ι} (hadd : timeoutAdd sys new toTicks = some sys') :
    0 ≤ toTicks.toInt ∧ ∃ queues, sys' = sys.set new
      { sys.timeouts new with
        toTime := toTicks + sys.ticks
        onqueue := true
        triggered := false } queues ∧
      (((sys.timeouts new).onqueue = true ∧ queues = insert (remove sys.queues new) new .todo) ∨
        ((sys.timeouts new).onqueue = true ∧ sys.rel new ≤ toTicks.toInt ∧ queues = sys.queues) ∨
        ((sys.timeouts new).onqueue = false ∧ queues = insert sys.queues new .todo)) := by
  have hrel : toTicks + sys.ticks - sys.ticks = toTicks := add_sub_cancel toTicks sys.ticks
  unfold timeoutAdd at hadd
  dsimp only at hadd
  rw [hrel] at hadd
  split_ifs at hadd with _ hneg honqueue hsooner <;> cases hadd
  · exact ⟨by omega, _, rfl, .inl ⟨honqueue, rfl⟩⟩
  · exact ⟨by omega, _, rfl, .inr (.inl ⟨honqueue, Int.not_lt.mp hsooner, rfl⟩)⟩
  · exact ⟨by omega, _, rfl, .inr (.inr ⟨by simpa using honqueue,
      rfl⟩)⟩

section

variable (hinv : sys.Inv)
include hinv

theorem timeoutAdd_queues {new : ι} (hadd : timeoutAdd sys new toTicks = some sys') :
    ∀ other head, other ≠ new → (other ∈ sys'.queues head ↔ other ∈ sys.queues head) := by
  obtain ⟨_, queues, rfl, hcase⟩ := timeoutAdd_cases hadd
  intro other head hne
  change other ∈ queues head ↔ _
  rcases hcase with ⟨_, rfl⟩ | ⟨_, _, rfl⟩ | ⟨_, rfl⟩
  · simp [mem_insert, hinv.separate.mem_remove, hne]
  · exact Iff.rfl
  · simp [mem_insert, hne]

theorem timeoutAdd_inv {new : ι} (hadd : timeoutAdd sys new toTicks = some sys') : sys'.Inv := by
  have hothers := timeoutAdd_queues hinv hadd
  obtain ⟨_, queues, rfl, hcase⟩ := timeoutAdd_cases hadd
  rcases hcase with ⟨_, rfl⟩ | ⟨honqueue, hlater, rfl⟩ | ⟨hoff, rfl⟩
  · have hfree : ¬ Linked (remove sys.queues new) new := by
      simp [hinv.separate.linked_remove]
    refine hinv.set ((hinv.separate.remove new).insert hfree .todo) ?_ ?_ hothers ?_
    · exact hinv.initialized new
    · simp [linked_insert]
    · intro index hmem
      rcases mem_insert.mp hmem with hold | ⟨hhead, _⟩
      · exact absurd ⟨_, hold⟩ hfree
      · cases hhead
  · refine hinv.set hinv.separate ?_ ?_ hothers ?_
    · exact hinv.initialized new
    · simpa using (hinv.onqueue new).mp honqueue
    · intro index hmem
      obtain ⟨n, hn, hle, hmoves⟩ := hinv.due new index hmem
      rw [add_sub_cancel]
      exact ⟨n, hn, hle.trans hlater, hmoves⟩
  · have hfree : ¬ Linked sys.queues new := by
      rw [← hinv.onqueue new]
      simp [hoff]
    refine hinv.set (hinv.separate.insert hfree .todo) ?_ ?_ hothers ?_
    · exact hinv.initialized new
    · simp [linked_insert]
    · intro index hmem
      rcases mem_insert.mp hmem with hold | ⟨hhead, _⟩
      · exact absurd ⟨_, hold⟩ hfree
      · cases hhead

theorem timeoutDel_queues (tmo : ι) :
    ∀ other head, other ≠ tmo →
      (other ∈ (timeoutDel sys tmo).queues head ↔ other ∈ sys.queues head) := by
  intro other head hne
  simp only [timeoutDel, System.set]
  split_ifs
  · simp [hinv.separate.mem_remove, hne]
  · exact Iff.rfl

theorem timeoutDel_inv (tmo : ι) : (timeoutDel sys tmo).Inv := by
  have hothers := timeoutDel_queues hinv tmo
  have honqueue := hinv.onqueue tmo
  have hfree : ¬ Linked (if (sys.timeouts tmo).onqueue = true then
      remove sys.queues tmo else sys.queues) tmo := by
    split_ifs with hon
    · simp [hinv.separate.linked_remove]
    · rwa [← honqueue]
  refine hinv.set ?_ ?_ ?_ hothers ?_
  · split_ifs
    · exact hinv.separate.remove tmo
    · exact hinv.separate
  · exact hinv.initialized tmo
  · simpa using hfree
  · exact fun index hmem => absurd ⟨_, hmem⟩ hfree

omit hinv in
theorem softclock_cases (sys : System ι) :
    (sys.queues .todo = [] ∧ softclock sys = (sys, .passEnded)) ∨
    ∃ tmo rest, sys.queues .todo = tmo :: rest ∧ ((0 < sys.rel tmo ∧ softclock sys =
          (sys.set tmo (sys.timeouts tmo) (insert (remove sys.queues tmo) tmo (.wheel (bucket
              ((sys.timeouts tmo).toTime - sys.ticks)
              (sys.timeouts tmo).toTime))), .bucketed tmo)) ∨ (sys.rel tmo ≤ 0 ∧ softclock sys =
          (sys.set tmo { sys.timeouts tmo with
              onqueue := false
              triggered := true } (remove sys.queues tmo), .ran tmo))) := by
  unfold softclock
  cases htodo : sys.queues .todo with
  | nil => exact .inl ⟨rfl, rfl⟩
  | cons tmo rest =>
    refine .inr ⟨tmo, rest, rfl, ?_⟩
    by_cases hrel : 0 < ((sys.timeouts tmo).toTime - sys.ticks).toInt
    · exact .inl ⟨hrel, if_pos hrel⟩
    · exact .inr ⟨Int.not_lt.mp hrel, if_neg hrel⟩

theorem softclock_inv : (softclock sys).1.Inv := by
  rcases softclock_cases sys with ⟨_, heq⟩ | ⟨tmo, rest, htodo, ⟨hrel, heq⟩ | ⟨_, heq⟩⟩
  all_goals rw [heq]
  · exact hinv
  · have hfree : ¬ Linked (remove sys.queues tmo) tmo := by
      simp [hinv.separate.linked_remove]
    have hqueued : Linked sys.queues tmo := ⟨.todo, by simp [htodo]⟩
    refine hinv.set ((hinv.separate.remove tmo).insert hfree _) (hinv.initialized tmo) ?_ ?_ ?_
    · simp [linked_insert, hinv.onqueue tmo, hqueued]
    · intro other head hne
      simp [mem_insert, hinv.separate.mem_remove, hne]
    · intro index hmem
      rcases mem_insert.mp hmem with hold | ⟨hhead, _⟩
      · exact absurd ⟨_, hold⟩ hfree
      · cases hhead
        exact bucket_movesAt hrel
  · have hfree : ¬ Linked (remove sys.queues tmo) tmo := by
      simp [hinv.separate.linked_remove]
    refine hinv.set (hinv.separate.remove tmo) ?_ ?_ ?_ ?_
    · exact hinv.initialized tmo
    · simpa using hfree
    · intro other head hne
      simp [hinv.separate.mem_remove, hne]
    · exact fun index hmem => absurd ⟨_, hmem⟩ hfree

theorem stepOutput_inv {event : Event ι} {output : Output ι}
    (hstep : stepOutput sys event = some (sys', output)) : sys'.Inv := by
  cases event with
  | add new toTicks =>
    obtain ⟨_, hadd, heq⟩ := Option.map_eq_some_iff.mp hstep
    cases heq
    exact timeoutAdd_inv hinv hadd
  | del tmo =>
    cases hstep
    exact timeoutDel_inv hinv tmo
  | hardclock =>
    cases hstep
    exact hardclock_inv hinv
  | softclock =>
    have heq : softclock sys = (sys', output) := Option.some.inj hstep
    have hafter := softclock_inv hinv
    rwa [heq] at hafter

end

end Invariant

end AerieKernel.Timeouts
