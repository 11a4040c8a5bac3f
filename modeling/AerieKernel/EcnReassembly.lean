import AerieKernel.IpReassModel

/-!
# ECN across reassembly

`ip_reass` compares a fragment with the one that is first in the queue at that moment, and the
datagram gets the header of the one that is first in the end.
-/

namespace AerieKernel.IpReass

def ecn (tos : BitVec 8) : BitVec 8 := tos &&& iptosEcnMask

/-- Whether `ip_reass` puts a fragment into the queue. -/
def takes (mem : Memory) (fp : Option (List Ipqent)) (ipqe : Ipqent) : Bool :=
  match fp with
  | none => mem.ipq
  | some fragq => ((compareEcn ipqe.ip.tos fragq).bind (insert · ipqe)).isSome

def accepts (mem : Memory) (fp : Option (List Ipqent)) (m : Packet) : Bool :=
  if !m.isFragment then false
  else if m.badFrag then false
  else if m.mff ∨ m.entry.ip.off ≠ 0 then
    if !mem.room then false
    else if !mem.ipqent then false
    else takes mem fp m.entry
  else false

/-- The queue, the TOS fields of the fragments that were accepted since it was made, and the
datagram that the last packet has completed. -/
structure Marked where
  fp : Option (List Ipqent)
  accepted : List (BitVec 8)
  datagram : Option Datagram

def Marked.current (sys : Marked) : List (BitVec 8) := if sys.fp.isNone then [] else sys.accepted

def markedStep (sys : Marked) : Event → Option Marked
  | .packet mem m =>
    let (fp, datagram) := ipv4Input mem sys.fp m
    let accepted := if accepts mem sys.fp m then m.ip.tos :: sys.current else sys.current
    some { fp, accepted, datagram }
  | .freef => some ⟨none, [], none⟩

/-- The header of a datagram has CE if an accepted fragment had it, and CE and Not-ECT are not
mixed. -/
structure EcnKept (sys : Marked) : Prop where
  ce : ∀ d, sys.datagram = some d → ∀ tos ∈ sys.accepted, ecn tos = iptosEcnCe →
    ecn d.ip.tos = iptosEcnCe
  unmixed : sys.datagram.isSome → ∀ tos ∈ sys.accepted, ∀ tos' ∈ sys.accepted,
    ecn tos = iptosEcnCe → ecn tos' ≠ iptosEcnNotect

/-- A fragment that goes to the front of the queue has the codepoint of the one it displaces. -/
def KeepsFront (sys : Marked) : Event → Prop
  | .packet _ m => ∀ q ∈ sys.fp.bind List.head?, m.entry.ip.off.toNat < q.ip.off.toNat →
      ecn m.ip.tos = ecn q.ip.tos
  | .freef => True

/-- What a TOS field says of the fragments that were compared with it. -/
def Speaks (tos : BitVec 8) (accepted : List (BitVec 8)) : Prop :=
  ∀ t ∈ accepted, (ecn t = iptosEcnCe → ecn tos = iptosEcnCe) ∧
    (ecn t = iptosEcnNotect → ecn tos = iptosEcnNotect)

variable {tos t : BitVec 8} {accepted : List (BitVec 8)} {first q : Ipqent}
  {rest fragq fragq' : List Ipqent} {mem : Memory} {m : Packet} {sys : Marked}

theorem speaks_cons : Speaks tos (t :: accepted) ↔
    ((ecn t = iptosEcnCe → ecn tos = iptosEcnCe) ∧
      (ecn t = iptosEcnNotect → ecn tos = iptosEcnNotect)) ∧ Speaks tos accepted :=
  List.forall_mem_cons

theorem ecn_or_ce (tos : BitVec 8) : ecn (tos ||| iptosEcnCe) = iptosEcnCe := by
  revert tos
  decide

/-- What is first after the comparison speaks also for the new fragment. -/
theorem compareEcn_speaks (h : Speaks first.ip.tos accepted)
    (hcompare : compareEcn t (first :: rest) = some fragq) :
    ∃ first', fragq = first' :: rest ∧ first'.ip.off = first.ip.off ∧
      (ecn t = ecn first.ip.tos → first' = first) ∧ Speaks first'.ip.tos (t :: accepted) := by
  simp only [compareEcn] at hcompare
  split_ifs at hcompare with hce hnot hce' hnot'
  · cases hcompare
    refine ⟨_, rfl, rfl, fun heq => absurd (heq.symm.trans hce) hce', speaks_cons.mpr ⟨?_, ?_⟩⟩
    · exact ⟨fun _ => ecn_or_ce _, fun hzero => absurd (hce.symm.trans hzero) (by decide)⟩
    · exact fun t' ht' => ⟨fun _ => ecn_or_ce _, fun hzero => absurd ((h t' ht').2 hzero) hnot⟩
  all_goals
    cases hcompare
    refine ⟨first, rfl, rfl, fun _ => rfl, speaks_cons.mpr ⟨?_, h⟩⟩
    grind [ecn, iptosEcnCe, iptosEcnNotect]

theorem insert_speaks {ipqe : Ipqent} (h : Speaks first.ip.tos (ipqe.ip.tos :: accepted))
    (hfront : ipqe.ip.off.toNat < first.ip.off.toNat → ecn ipqe.ip.tos = ecn first.ip.tos)
    (hinsert : insert (first :: rest) ipqe = some fragq) :
    ∃ q fragq', fragq = q :: fragq' ∧ Speaks q.ip.tos (ipqe.ip.tos :: accepted) := by
  obtain ⟨new, hnew, rfl⟩ := Option.map_eq_some_iff.mp hinsert
  by_cases hle : first.ip.off.toNat ≤ ipqe.ip.off.toNat
  · simp [hle, h]
  · simp only [List.takeWhile_cons, hle, decide_false, Bool.false_eq_true, if_false,
      List.getLast?_nil, trimNew, Option.some.injEq] at hnew
    subst hnew
    simpa [List.takeWhile_cons, hle, Speaks, hfront (Nat.lt_of_not_le hle)] using h

/-- The first of the queue and the header of a datagram speak for what was accepted. -/
structure Spoken (accepted : List (BitVec 8)) (fp : Option (List Ipqent)) (d : Option Datagram) :
    Prop where
  queue : ∀ fragq, fp = some fragq → ∃ first rest, fragq = first :: rest ∧
    Speaks first.ip.tos accepted
  datagram : ∀ d', d = some d' → Speaks d'.ip.tos accepted

theorem spoken_queue (h : Speaks first.ip.tos accepted) :
    Spoken accepted (some (first :: rest)) none :=
  ⟨fun _ hq => ⟨first, rest, (Option.some.inj hq).symm, h⟩, nofun⟩

theorem spoken_gone (accepted : List (BitVec 8)) : Spoken accepted none none :=
  ⟨nofun, nofun⟩

theorem Spoken.map_datagram {fp : Option (List Ipqent)} {d : Option Datagram}
    (h : Spoken accepted fp d) {f : Datagram → Datagram} (hf : ∀ d, (f d).ip.tos = d.ip.tos) :
    Spoken accepted fp (d.map f) := by
  refine ⟨h.queue, fun _ hd => ?_⟩
  obtain ⟨d', hd', rfl⟩ := Option.map_eq_some_iff.mp hd
  rw [hf]
  exact h.datagram d' hd'

theorem complete_spoken (h : Speaks first.ip.tos accepted) :
    Spoken accepted (complete (first :: rest)).1 (complete (first :: rest)).2 := by
  unfold complete
  split
  · next hfirst _ =>
    cases hfirst
    split_ifs
    · exact spoken_queue h
    · exact spoken_gone accepted
    · refine ⟨nofun, ?_⟩
      rintro _ ⟨⟩
      exact h
  · exact spoken_queue h

theorem Marked.current_spoken (h : Spoken sys.accepted sys.fp sys.datagram) :
    Spoken sys.current sys.fp none := by
  refine ⟨fun fragq hfp => ?_, nofun⟩
  simpa [Marked.current, hfp] using h.queue fragq hfp

theorem ipReass_spoken (mem : Memory) (ipqe : Ipqent) (h : Spoken sys.accepted sys.fp sys.datagram)
    (hfront : ∀ q ∈ sys.fp.bind List.head?, ipqe.ip.off.toNat < q.ip.off.toNat →
      ecn ipqe.ip.tos = ecn q.ip.tos) :
    Spoken (if takes mem sys.fp ipqe then ipqe.ip.tos :: sys.current else sys.current)
      (ipReass mem sys.fp ipqe).1 (ipReass mem sys.fp ipqe).2 := by
  have hcurrent := (Marked.current_spoken h).queue
  unfold ipReass takes
  cases hfp : sys.fp with
  | none =>
    by_cases hmem : mem.ipq
    · simp only [hmem]
      exact complete_spoken (by simp [Speaks, Marked.current, hfp])
    · simp only [hmem]
      exact spoken_gone _
  | some fragq =>
    obtain ⟨first, rest, rfl, hspeaks⟩ := hcurrent fragq hfp
    cases hcompare : compareEcn ipqe.ip.tos (first :: rest) with
    | none => simpa [hcompare] using spoken_queue hspeaks
    | some fragq =>
      obtain ⟨first', rfl, hoff, hsame, hspeaks'⟩ := compareEcn_speaks hspeaks hcompare
      cases hinsert : insert (first' :: rest) ipqe with
      | none => simpa [hcompare, hinsert] using spoken_queue (speaks_cons.mp hspeaks').2
      | some fragq =>
        have hfront' : ipqe.ip.off.toNat < first'.ip.off.toNat →
            ecn ipqe.ip.tos = ecn first'.ip.tos := by
          intro hlt
          have heq := hfront first (by simp [hfp]) (hoff ▸ hlt)
          rw [hsame heq, heq]
        obtain ⟨q, fragq', rfl, hq⟩ := insert_speaks hspeaks' hfront' hinsert
        simpa [hcompare, hinsert] using complete_spoken hq

theorem ipv4Input_spoken (h : Spoken sys.accepted sys.fp sys.datagram)
    (hfront : KeepsFront sys (.packet mem m)) :
    Spoken (if accepts mem sys.fp m then m.ip.tos :: sys.current else sys.current)
      (ipv4Input mem sys.fp m).1 (ipv4Input mem sys.fp m).2 := by
  have hkeep := Marked.current_spoken h
  have hgone := spoken_gone sys.current
  have htake := ipReass_spoken mem m.entry h hfront
  unfold ipv4Input accepts
  split_ifs
  all_goals first | contradiction | exact hkeep | exact hgone | skip
  all_goals
    simp only [*] at htake
    exact htake.map_datagram fun _ => rfl

theorem markedStep_spoken {event : Event} {sys' : Marked}
    (h : Spoken sys.accepted sys.fp sys.datagram) (hfront : KeepsFront sys event)
    (hstep : markedStep sys event = some sys') : Spoken sys'.accepted sys'.fp sys'.datagram := by
  cases event with
  | freef =>
    cases hstep
    exact spoken_gone _
  | packet mem m =>
    obtain rfl := Option.some.inj hstep
    exact ipv4Input_spoken h hfront

def Marked.start : Marked := ⟨none, [], none⟩

/-- While nothing with another codepoint goes to the front of the queue, CE is not lost. -/
theorem ecn_kept_across_reassembly
    (hrun : Run.GuardedRun markedStep KeepsFront Marked.start sys) : EcnKept sys := by
  have h : Spoken sys.accepted sys.fp sys.datagram := by
    apply Run.GuardedRun.invariant (P := fun sys => Spoken sys.accepted sys.fp sys.datagram)
      _ _ hrun
    · exact spoken_gone []
    · exact fun _ _ _ => markedStep_spoken
  refine ⟨fun d hd tos htos => (h.datagram d hd tos htos).1, ?_⟩
  intro hsome tos htos tos' htos' hce hnot
  obtain ⟨d, hd⟩ := Option.isSome_iff_exists.mp hsome
  have hce := (h.datagram d hd tos htos).1 hce
  have hnot := (h.datagram d hd tos' htos').2 hnot
  exact absurd (hce.symm.trans hnot) (by decide)

instance (sys : Marked) (event : Event) : Decidable (KeepsFront sys event) :=
  match event with
  | .packet _ _ => inferInstanceAs (Decidable (∀ q ∈ _, _))
  | .freef => isTrue trivial

def eightBytes (tos : BitVec 8) (off : BitVec 16) : Event :=
  .packet ⟨true, false, true, true⟩ ⟨⟨5, tos, 28, off⟩, List.replicate 8 0, rfl⟩

def markedAfter (events : List Event) : Marked :=
  Run.execD markedStep (fun _ _ => True) Marked.start events

theorem ecn_kept_across_reassembly_in_order :
    EcnKept (Run.execD markedStep KeepsFront Marked.start [eightBytes 2 ipMf, eightBytes 3 1]) ∧
      (Run.execD markedStep KeepsFront Marked.start
        [eightBytes 2 ipMf, eightBytes 3 1]).datagram.map (·.ip.tos) = some 3 :=
  ⟨ecn_kept_across_reassembly (Run.GuardedRun.of_execD (by decide)), by decide⟩

/-- The fragment with CE comes first and is displaced, or one without ECT is displaced before it. -/
theorem ce_lost_or_mixed :
    (∃ sys, Run.Reaches markedStep Marked.start sys ∧ sys.datagram.map (·.ip.tos) = some 2 ∧
      sys.accepted = [2, 3] ∧ ¬ EcnKept sys) ∧
    ∃ sys, Run.Reaches markedStep Marked.start sys ∧ sys.datagram.isSome ∧
      sys.accepted = [3, 2, 0] ∧ ¬ EcnKept sys := by
  refine ⟨⟨markedAfter [eightBytes 3 1, eightBytes 2 ipMf], Run.GuardedRun.of_execD (by decide),
    by decide, by decide, fun h => ?_⟩, markedAfter [eightBytes 0 2, eightBytes 2 (ipMf ||| 1),
      eightBytes 3 ipMf], Run.GuardedRun.of_execD (by decide), by decide, by decide, fun h => ?_⟩
  · exact absurd (h.ce _ rfl 3 (by decide) (by decide)) (by decide)
  · exact h.unmixed (by decide) 3 (by decide) 0 (by decide) (by decide) (by decide)

end AerieKernel.IpReass
