import AerieKernel.StreamPieces
import AerieKernel.IpReassModel

/-!
# Which datagrams are put together

The queue of a datagram is a queue of pieces as long as no fragment ends above
`IP_MAXPACKET`, since `ip_off` is then rewritten without overflow.
-/

namespace AerieKernel.IpReass

open List Pieces

open AerieKernel.Pieces (Piece Part Sorted Covered)

/-- A fragment as a piece of the datagram, with `ipqe_mff` and the header length. -/
abbrev FragPiece := Piece UInt8 (Bool × ℕ)

def Fragment.piece (f : Fragment) : FragPiece := ⟨f.start, f.data, (f.mff, f.hlen)⟩

structure StandsFor (tos : BitVec 8) (q : Ipqent) (p : FragPiece) : Prop where
  off : q.ip.off.toNat = p.start
  len : q.ip.len.toNat = p.data.length
  data : q.data = p.data
  mff : q.mff = p.tag.1
  hlen : q.ip.hlen = p.tag.2
  tos_eq : q.ip.tos = tos
  stop_le : p.stop ≤ ipMaxpacket

variable {tos : BitVec 8} {q ipqe : Ipqent} {p new : FragPiece} {fragq : List Ipqent}
  {ps : List FragPiece}

theorem StandsFor.stop (h : StandsFor tos q p) : q.ip.off.toNat + q.ip.len.toNat = p.stop := by
  rw [h.off, h.len, Piece.stop]

theorem StandsFor.adjust {n i : ℕ} (h : StandsFor tos q p) (hn : p.start + i = n)
    (hlt : n < p.stop) : StandsFor tos (q.adjust i) (p.behind n) := by
  have hoff := h.off
  have hlen := h.len
  have hle : p.stop ≤ 65535 := h.stop_le
  constructor
  · show (BitVec.ofNat 16 _).toNat = max p.start n
    rw [BitVec.toNat_ofNat]
    omega
  · show (BitVec.ofNat 16 _).toNat = (p.data.drop _).length
    rw [BitVec.toNat_ofNat, length_drop]
    omega
  · show q.data.drop i = p.data.drop (n - p.start)
    rw [h.data, ← hn, Nat.add_sub_cancel_left]
  · exact h.mff
  · exact h.hlen
  · exact h.tos_eq
  · rw [behind_stop hlt.le]
    exact h.stop_le

/-! ## Insertion -/

theorem trimNew_news {before : Option Ipqent} {before' : Option FragPiece}
    (hbefore : Option.Rel (StandsFor tos) before before') (hnew : StandsFor tos ipqe new) :
    Option.Rel (StandsFor tos) (trimNew before ipqe) (Pieces.news before' new) := by
  cases hbefore with
  | none => exact Option.Rel.some hnew
  | @some q p hq =>
    have hstop := hq.stop
    have hstop' := hnew.stop
    have hoff := hnew.off
    unfold trimNew news
    dsimp only
    by_cases hover : new.start < p.stop
    · rw [if_pos (by omega), if_pos hover]
      by_cases hall : new.stop ≤ p.stop
      · rw [if_pos (by omega), if_pos hall]
        exact Option.Rel.none
      · rw [if_neg (by omega), if_neg hall]
        exact Option.Rel.some (hnew.adjust (by omega) (by omega))
    · rw [if_neg (by omega), if_neg hover]
      exact Option.Rel.some hnew

section

variable (hqueue : List.Forall₂ (StandsFor tos) fragq ps)
include hqueue

theorem trimQueued_cut (hnew : StandsFor tos ipqe new) :
    List.Forall₂ (StandsFor tos) (trimQueued ipqe fragq) (Pieces.cut new.stop ps) := by
  have hstop := hnew.stop
  induction hqueue with
  | nil => exact List.Forall₂.nil
  | @cons q p fragq ps hq hrest ih =>
    have hqstop := hq.stop
    have hqoff := hq.off
    unfold trimQueued cut
    by_cases hbelow : new.stop ≤ p.start
    · rw [if_pos (by omega), if_pos hbelow]
      exact hrest.cons hq
    · rw [if_neg (by omega), if_neg hbelow]
      by_cases hinside : new.stop < p.stop
      · rw [if_pos (by omega), if_pos hinside]
        exact hrest.cons (hq.adjust (by omega) hinside)
      · rw [if_neg (by omega), if_neg hinside]
        exact ih

theorem insert_arrive (hnew : StandsFor tos ipqe new) :
    Option.Rel (List.Forall₂ (StandsFor tos)) (insert fragq ipqe) (Pieces.arrive new ps) := by
  obtain ⟨hbefore, hafter⟩ := forall₂_takeWhile
    (f := fun q => decide (q.ip.off.toNat ≤ ipqe.ip.off.toNat))
    (g := fun p => decide (p.start ≤ new.start)) hqueue (by
      intro q p hq
      rw [hq.off, hnew.off])
  have hnews := trimNew_news (forall₂_getLast? hbefore) hnew
  unfold insert arrive
  dsimp only
  generalize trimNew _ ipqe = ipqe' at *
  generalize news _ new = new' at *
  cases hnews with
  | none => exact Option.Rel.none
  | some hnew' =>
    apply Option.Rel.some
    exact rel_append hbefore (List.Forall₂.cons hnew' (trimQueued_cut hafter hnew'))

theorem compareEcn_same : compareEcn tos fragq = some fragq := by
  cases hqueue with
  | nil => rfl
  | cons hq hrest =>
    unfold compareEcn
    dsimp only
    rw [hq.tos_eq]
    by_cases hce : tos &&& iptosEcnMask = iptosEcnCe
    · rw [if_pos hce, hce, if_neg (by decide), if_neg (by decide)]
    · rw [if_neg hce, if_neg (fun h => h.2 h.1)]

end

/-! ## Completion -/

/-- The fragments make a datagram of `n` bytes: they leave no gap, no fragment that ends at
`n` has more fragments behind it, and the header fits. -/
structure Complete (fs : List Fragment) (n : ℕ) : Prop where
  ends : ∃ f ∈ fs, f.start + f.data.length = n
  last : ∀ f ∈ fs, f.start + f.data.length = n → f.mff = false
  covered : ∀ i < n, ∃ f ∈ fs, f.start ≤ i ∧ i < f.start + f.data.length
  bounded : ∀ f ∈ fs, f.start + f.data.length ≤ n
  fits : ∀ f ∈ fs, f.start = 0 → n + f.hlen ≤ ipMaxpacket

structure Queues (tos : BitVec 8) (fs : List Fragment) (fragq : List Ipqent) : Prop where
  pieces : ∃ ps, List.Forall₂ (StandsFor tos) fragq ps ∧ Sorted ps ∧
    (∀ p ∈ ps, ∃ f ∈ fs, Part p f.piece) ∧
    ∀ i, (∃ f ∈ fs, f.start ≤ i ∧ i < f.start + f.data.length) → Covered ps i
  nonempty : fragq ≠ []

variable {fs : List Fragment} {f : Fragment}

theorem reach_joined (hqueue : List.Forall₂ (StandsFor tos) fragq ps) (next : ℕ) :
    reach next fragq = Pieces.joined next ps := by
  induction hqueue generalizing next with
  | nil => rfl
  | cons hq hrest ih =>
    rw [reach, joined, hq.off, hq.len, ih]

theorem flatMap_data (hqueue : List.Forall₂ (StandsFor tos) fragq ps) :
    fragq.flatMap (·.data) = ps.flatMap (·.data) := by
  induction hqueue with
  | nil => rfl
  | cons hq hrest ih =>
    rw [flatMap_cons, flatMap_cons, hq.data, ih]

theorem complete_queue {n : ℕ} (hsorted : Sorted ps) (hsource : ∀ p ∈ ps, ∃ f ∈ fs, Part p f.piece)
    (hcovered : ∀ i, (∃ f ∈ fs, f.start ≤ i ∧ i < f.start + f.data.length) → Covered ps i)
    (hcomplete : Complete fs n) :
    (∃ m ≤ n, Pieces.joined 0 ps = some m) ∧ ∀ p, ps.getLast? = some p → p.tag.1 = false := by
  have hbound : ∀ p ∈ ps, p.stop ≤ n := by
    intro p hp
    obtain ⟨f, hf, hpart⟩ := hsource p hp
    rw [hpart.stop_eq]
    exact hcomplete.bounded f hf
  constructor
  · obtain ⟨m, hm⟩ := joined_of_covered hsorted (fun p _ => Nat.zero_le p.start) hbound
      (fun i _ hi => hcovered i (hcomplete.covered i hi))
    exact ⟨m, joined_le hm (Nat.zero_le n) hbound, hm⟩
  · intro p hlast
    have hp := mem_of_getLast? hlast
    have hend : p.stop = n := by
      apply le_antisymm (hbound p hp)
      by_cases hn : n = 0
      · omega
      · obtain ⟨q, hq, -, hlt⟩ := hcovered (n - 1) (hcomplete.covered (n - 1) (by omega))
        have hle := stop_le_last hsorted hlast hq
        omega
    obtain ⟨f, hf, hpart⟩ := hsource p hp
    rw [hpart.tag_eq]
    exact hcomplete.last f hf (hpart.stop_eq.symm.trans hend)

structure Outcome (tos : BitVec 8) (fs : List Fragment)
    (r : Option (List Ipqent) × Option Datagram) : Prop where
  queue : ∀ fragq, r.1 = some fragq → Queues tos fs fragq
  data : ∀ d, r.2 = some d → ∀ i a, d.data[i]? = some a → ∃ f ∈ fs, f.piece.Carries i a
  len : ∀ d, r.2 = some d → d.ip.len.toNat = d.data.length ∧ d.data.length + d.ip.hlen ≤ ipMaxpacket
  prompt : r.1.isSome = true ∨ r.2 = none → ∀ n, ¬ Complete fs n

section

variable (h : Queues tos fs fragq)
include h

theorem outcome_queued (hnot : ∀ n, ¬ Complete fs n) : Outcome tos fs (some fragq, none) := by
  refine ⟨?_, nofun, nofun, fun _ => hnot⟩
  rintro _ ⟨⟩
  exact h

theorem complete_outcome : Outcome tos fs (complete fragq) := by
  obtain ⟨ps, hqueue, hsorted, hsource, hcovered⟩ := h.pieces
  cases hqueue with
  | nil => exact absurd rfl h.nonempty
  | @cons first p rest ps' hp hrest =>
    have hqueue := hrest.cons hp
    have hjoined := reach_joined hqueue 0
    have hlast := forall₂_getLast? hqueue
    unfold complete
    rw [hjoined, head?_cons]
    rw [getLast?_eq_some_getLast (cons_ne_nil _ _)]
    cases hlast with
    | some hend =>
      cases hnext : joined 0 (p :: ps') with
      | none =>
        apply outcome_queued h
        intro n hcomplete
        obtain ⟨⟨m, -, hm⟩, -⟩ := complete_queue hsorted hsource hcovered hcomplete
        rw [hnext] at hm
        cases hm
      | some next =>
        dsimp only
        split_ifs with hmff hlong
        · -- the last fragment has more behind it
          apply outcome_queued h
          intro n hcomplete
          have hmore := (complete_queue hsorted hsource hcovered hcomplete).2 _
            (getLast?_eq_some_getLast (cons_ne_nil _ _))
          rw [← hend.mff, hmff] at hmore
          cases hmore
        · refine ⟨nofun, nofun, nofun, fun _ n hcomplete => ?_⟩
          obtain ⟨⟨m, hle, hm⟩, -⟩ := complete_queue hsorted hsource hcovered hcomplete
          rw [hnext, Option.some.injEq] at hm
          obtain ⟨f, hf, hpart⟩ := hsource p mem_cons_self
          have hstart := (joined_cons hnext).1
          have hzero : f.start ≤ p.start := hpart.start_le
          have hhlen : p.tag.2 = f.hlen := congrArg Prod.snd hpart.tag_eq
          have hfits := hcomplete.fits f hf (by omega)
          rw [hp.hlen] at hlong
          omega
        · have hlength := length_of_joined hnext
          rw [Nat.zero_add, ← flatMap_data hqueue] at hlength
          constructor
          · exact nofun
          · rintro _ ⟨⟩ i a hget
            rw [flatMap_data hqueue] at hget
            obtain ⟨p', hp', hcarries⟩ := carries_of_joined hnext hget
            rw [Nat.zero_add] at hcarries
            obtain ⟨f, hf, hpart⟩ := hsource p' hp'
            exact ⟨f, hf, hpart.carries hcarries⟩
          · rintro _ ⟨⟩
            rw [not_lt] at hlong
            refine ⟨?_, hlength ▸ hlong⟩
            have hmax : next + first.ip.hlen ≤ 65535 := hlong
            rw [BitVec.toNat_ofNat, hlength]
            omega
          · rintro (hsome | hnone)
            · cases hsome
            · cases hnone

/-! ## A fragment -/

section

variable (hnew : StandsFor tos ipqe f.piece)
include hnew

omit h in
theorem queues_single : Queues tos [f] [ipqe] := by
  refine ⟨⟨[f.piece], List.Forall₂.cons hnew List.Forall₂.nil, pairwise_singleton _ _,
    ?_, ?_⟩, cons_ne_nil _ _⟩
  · exact forall_mem_singleton.mpr ⟨f, mem_singleton_self f, Part.refl _⟩
  · rintro i ⟨f', hf', hi⟩
    rw [mem_singleton] at hf'
    subst hf'
    exact ⟨_, mem_singleton_self _, hi⟩

omit hnew in
omit h in
theorem exists_of_insert_none (hqueue : List.Forall₂ (StandsFor tos) fragq ps)
    (hnew : StandsFor tos ipqe new) (hinsert : insert fragq ipqe = none) :
    ∃ p ∈ ps, p.start ≤ new.start ∧ new.start < p.stop ∧ new.stop ≤ p.stop := by
  have hrel := insert_arrive hqueue hnew
  rw [hinsert] at hrel
  cases harrive : arrive new ps with
  | none => exact exists_of_arrive_none harrive
  | some qs =>
    rw [harrive] at hrel
    cases hrel

theorem queues_drop (hinsert : insert fragq ipqe = none) : Queues tos (f :: fs) fragq := by
  obtain ⟨ps, hqueue, hsorted, hsource, hcovered⟩ := h.pieces
  obtain ⟨p, hp, hstart, -, hstop⟩ := exists_of_insert_none hqueue hnew hinsert
  refine ⟨⟨ps, hqueue, hsorted, ?_, ?_⟩, h.nonempty⟩
  · intro p hp
    obtain ⟨f', hf', hpart⟩ := hsource p hp
    exact ⟨f', mem_cons_of_mem _ hf', hpart⟩
  · rintro i ⟨f', hf', hi⟩
    rw [mem_cons] at hf'
    rcases hf' with rfl | hf'
    · exact ⟨p, hp, hstart.trans hi.1, hi.2.trans_le hstop⟩
    · exact hcovered i ⟨f', hf', hi⟩

theorem not_complete_drop
    (hinsert : insert fragq ipqe = none) (hnot : ∀ n, ¬ Complete fs n) (n : ℕ) :
    ¬ Complete (f :: fs) n := by
  intro hcomplete
  obtain ⟨ps, hqueue, -, hsource, -⟩ := h.pieces
  obtain ⟨p, hp, hstart, -, hstop⟩ := exists_of_insert_none hqueue hnew hinsert
  obtain ⟨g, hg, hpart⟩ := hsource p hp
  have hgstart : g.start ≤ f.start := hpart.start_le.trans hstart
  have hgstop : f.start + f.data.length ≤ g.start + g.data.length := hstop.trans_eq hpart.stop_eq
  have hgend := hcomplete.bounded g (mem_cons_of_mem _ hg)
  apply hnot n
  constructor
  · obtain ⟨f', hf', hend⟩ := hcomplete.ends
    rw [mem_cons] at hf'
    rcases hf' with rfl | hf'
    · exact ⟨g, hg, by omega⟩
    · exact ⟨f', hf', hend⟩
  · exact fun f' hf' => hcomplete.last f' (mem_cons_of_mem _ hf')
  · intro i hi
    obtain ⟨f', hf', hin⟩ := hcomplete.covered i hi
    rw [mem_cons] at hf'
    rcases hf' with rfl | hf'
    · exact ⟨g, hg, by omega, by omega⟩
    · exact ⟨f', hf', hin⟩
  · exact fun f' hf' => hcomplete.bounded f' (mem_cons_of_mem _ hf')
  · exact fun f' hf' => hcomplete.fits f' (mem_cons_of_mem _ hf')

theorem queues_insert {fragq' : List Ipqent} (hinsert : insert fragq ipqe = some fragq') :
    Queues tos (f :: fs) fragq' := by
  obtain ⟨ps, hqueue, hsorted, hsource, hcovered⟩ := h.pieces
  have hrel := insert_arrive hqueue hnew
  rw [hinsert] at hrel
  cases harrive : arrive f.piece ps with rw [harrive] at hrel
  | none =>
    cases hrel
  | some qs =>
    cases hrel with
    | some hqs =>
      refine ⟨⟨qs, hqs, sorted_arrive hsorted harrive, ?_, ?_⟩, ?_⟩
      · intro p hp
        rcases part_of_mem_arrive harrive hp with ⟨q, hq, hpart⟩ | hpart
        · obtain ⟨f', hf', hpart'⟩ := hsource q hq
          exact ⟨f', mem_cons_of_mem _ hf', hpart.trans hpart'⟩
        · exact ⟨f, mem_cons_self, hpart⟩
      · rintro i ⟨f', hf', hi⟩
        rw [covered_arrive hsorted harrive]
        rw [mem_cons] at hf'
        rcases hf' with rfl | hf'
        · exact .inr hi
        · exact .inl (hcovered i ⟨f', hf', hi⟩)
      · intro hnil
        unfold insert at hinsert
        rw [Option.map_eq_some_iff] at hinsert
        obtain ⟨ipqe', -, happend⟩ := hinsert
        rw [hnil] at happend
        exact cons_ne_nil _ _ (append_eq_nil_iff.mp happend).2

end

end

theorem not_complete_nil (n : ℕ) : ¬ Complete [] n := by
  intro hcomplete
  obtain ⟨f, hf, -⟩ := hcomplete.ends
  cases hf

variable {mem : Memory} {fp : Option (List Ipqent)}

theorem ipReass_outcome (hnew : StandsFor tos ipqe f.piece) (hmem : mem.ipq = true)
    (hqueue : ∀ fragq, fp = some fragq → Queues tos fs fragq) (hnot : ∀ n, ¬ Complete fs n)
    (hfirst : fp = none → fs = []) : Outcome tos (f :: fs) (ipReass mem fp ipqe) := by
  unfold ipReass
  cases fp with
  | none =>
    rw [hfirst rfl]
    rw [if_pos hmem]
    exact complete_outcome (queues_single hnew)
  | some fragq =>
    have h := hqueue fragq rfl
    obtain ⟨ps, hpieces, -⟩ := h.pieces
    dsimp only
    rw [hnew.tos_eq, compareEcn_same hpieces]
    dsimp only
    cases hinsert : insert fragq ipqe with
    | none =>
      exact outcome_queued (queues_drop h hnew hinsert) (not_complete_drop h hnew hinsert hnot)
    | some fragq' => exact complete_outcome (queues_insert h hnew hinsert)

variable {m : Packet}

theorem entry_standsFor (htos : m.ip.tos = tos)
    (hend : m.fragment.start + m.data.length ≤ ipMaxpacket) :
    StandsFor tos m.entry m.fragment.piece := by
  refine ⟨?_, ?_, rfl, rfl, rfl, htos, hend⟩
  · show (m.ip.off <<< 3).toNat = 8 * (m.ip.off.toNat % 2 ^ 13)
    rw [BitVec.toNat_shiftLeft]
    omega
  · show (m.ip.len - BitVec.ofNat 16 m.ip.hlen).toNat = m.data.length
    have hlen := m.length_eq
    rw [BitVec.toNat_sub, BitVec.toNat_ofNat]
    omega

/-! ## Runs -/

/-- A fragment ends at or below `IP_MAXPACKET`, all have one TOS, and there is memory. -/
def Fits (tos : BitVec 8) (_ : System) : Event → Prop
  | .packet mem m => mem.room = true ∧ mem.ipqent = true ∧ mem.ipq = true ∧ m.ip.tos = tos ∧
      m.fragment.start + m.data.length ≤ ipMaxpacket
  | .freef => True

instance (tos : BitVec 8) (sys : System) (event : Event) : Decidable (Fits tos sys event) :=
  match event with
  | .packet _ _ => inferInstanceAs (Decidable (_ ∧ _))
  | .freef => isTrue trivial

structure Reassembled (sys : System) : Prop where
  sorted : ∀ fragq, sys.fp = some fragq →
    fragq.Pairwise fun q q' => q.ip.off.toNat + q.ip.len.toNat ≤ q'.ip.off.toNat
  data : ∀ fragq, sys.fp = some fragq → ∀ q ∈ fragq,
    q.data.length = q.ip.len.toNat ∧ ∃ f ∈ sys.arrived, ∀ i a, q.data[i]? = some a →
      f.start ≤ q.ip.off.toNat + i ∧ f.data[q.ip.off.toNat + i - f.start]? = some a
  datagram : ∀ d, sys.datagram = some d → d.ip.len.toNat = d.ip.hlen + d.data.length ∧
    ∀ i a, d.data[i]? = some a → ∃ f ∈ sys.arrived, f.start ≤ i ∧ f.data[i - f.start]? = some a
  prompt : sys.datagram = none → ∀ n, ¬ Complete sys.arrived n

structure Inv (tos : BitVec 8) (sys : System) : Prop where
  queue : ∀ fragq, sys.fp = some fragq → Queues tos sys.arrived fragq
  data : ∀ d, sys.datagram = some d → ∀ i a, d.data[i]? = some a →
    ∃ f ∈ sys.arrived, f.piece.Carries i a
  len : ∀ d, sys.datagram = some d → d.ip.len.toNat = d.ip.hlen + d.data.length
  prompt : sys.fp.isSome = true ∨ sys.datagram = none → ∀ n, ¬ Complete sys.arrived n

variable {sys sys' : System}

section

variable (h : Inv tos sys)
include h

theorem Inv.current_queue (fragq : List Ipqent) (hfp : sys.fp = some fragq) :
    Queues tos sys.current fragq := by
  unfold System.current
  rw [hfp]
  exact h.queue fragq hfp

theorem Inv.current_not_complete (n : ℕ) : ¬ Complete sys.current n := by
  unfold System.current
  cases hfp : sys.fp with
  | none => exact not_complete_nil n
  | some fragq => exact h.prompt (.inl (by rw [hfp]; rfl)) n

theorem Inv.keep : Inv tos ⟨sys.fp, sys.current, none⟩ :=
  ⟨h.current_queue, nofun, nofun, fun _ => h.current_not_complete⟩

omit h in
theorem isFragment_off (hfragment : m.isFragment = true) : m.mff = true ∨ m.entry.ip.off ≠ 0 := by
  unfold Packet.isFragment at hfragment
  unfold Packet.mff Packet.entry
  simp only [decide_eq_true_eq] at *
  by_contra hnot
  rw [not_or, not_not, not_not] at hnot
  obtain ⟨hmf, hoff⟩ := hnot
  have hlow : ∀ i < 13, m.ip.off.getLsbD i = false := by
    intro i hi
    have hbit := congrArg (BitVec.getLsbD · (i + 3)) hoff
    simpa only [BitVec.getLsbD_shiftLeft, show i + 3 < 16 by omega, decide_true,
      show ¬ i + 3 < 3 by omega, decide_false, Bool.not_false, Bool.true_and,
      Nat.add_sub_cancel, BitVec.ofNat_eq_ofNat, BitVec.getLsbD_zero] using hbit
  have hmore : m.ip.off.getLsbD 13 = false := by
    have hbit := congrArg (BitVec.getLsbD · 13) hmf
    simpa [ipMf] using hbit
  apply hfragment
  apply BitVec.eq_of_getLsbD_eq
  intro i hi
  rw [BitVec.getLsbD_and]
  by_cases hlt : i < 14
  · have hzero : m.ip.off.getLsbD i = false := by
      by_cases hi13 : i < 13
      · exact hlow i hi13
      · rwa [show i = 13 by omega]
    rw [hzero]
    simp
  · have hmask : ∀ j < 2, (~~~ (ipDf ||| ipRf)).getLsbD (14 + j) = false := by decide
    rw [show i = 14 + (i - 14) by omega, hmask (i - 14) (by omega)]
    simp

theorem packet_inv (hfits : Fits tos sys (.packet mem m))
    (hstep : step sys (.packet mem m) = some sys') : Inv tos sys' := by
  obtain ⟨hroom, hipqent, hipq, htos, hend⟩ := hfits
  unfold step ipv4Input at hstep
  dsimp only at hstep
  cases hfragment : m.isFragment with
  | false =>
    rw [hfragment] at hstep
    cases hstep
    exact h.keep
  | true =>
    cases hbad : m.badFrag with
    | true =>
      rw [hfragment, hbad] at hstep
      cases hstep
      exact h.keep
    | false =>
      rw [hfragment, hbad, if_pos (isFragment_off hfragment), hroom, hipqent,
        if_neg (by decide)] at hstep
      cases hstep
      have hout := ipReass_outcome (entry_standsFor htos hend) hipq h.current_queue
        h.current_not_complete (by
          intro hfp
          unfold System.current
          rw [hfp]
          rfl)
      refine ⟨hout.queue, ?_, ?_, ?_⟩
      · intro d hd
        obtain ⟨d', hd', rfl⟩ := Option.map_eq_some_iff.mp hd
        exact hout.data d' hd'
      · intro d hd
        obtain ⟨d', hd', rfl⟩ := Option.map_eq_some_iff.mp hd
        obtain ⟨hlen, hmax⟩ := hout.len d' hd'
        have hmax' : d'.data.length + d'.ip.hlen ≤ 65535 := hmax
        show (BitVec.ofNat 16 _).toNat = d'.ip.hlen + d'.data.length
        rw [BitVec.toNat_ofNat]
        omega
      · intro hor
        apply hout.prompt
        rcases hor with hsome | hnone
        · exact .inl hsome
        · exact .inr (Option.map_eq_none_iff.mp hnone)

theorem step_inv {event : Event} (hfits : Fits tos sys event)
    (hstep : step sys event = some sys') : Inv tos sys' := by
  cases event with
  | packet mem m => exact packet_inv h hfits hstep
  | freef =>
    cases hstep
    exact ⟨nofun, nofun, nofun, fun _ => not_complete_nil⟩

theorem reassembled_of_inv : Reassembled sys := by
  constructor
  · intro fragq hfp
    obtain ⟨ps, hqueue, hsorted, -⟩ := (h.queue fragq hfp).pieces
    apply pairwise_of_sorted hqueue hsorted
    intro q p q' p' hq hq' hle
    rw [hq.stop, hq'.off]
    exact hle
  · intro fragq hfp q hq
    obtain ⟨ps, hqueue, -, hsource, -⟩ := (h.queue fragq hfp).pieces
    obtain ⟨p, hp, hstands⟩ := exists_piece hqueue hq
    obtain ⟨f, hf, hpart⟩ := hsource p hp
    refine ⟨by rw [hstands.data, hstands.len], f, hf, ?_⟩
    intro i a hget
    rw [hstands.data] at hget
    rw [hstands.off]
    apply hpart.carries
    refine ⟨Nat.le_add_right _ _, ?_⟩
    rwa [Nat.add_sub_cancel_left]
  · exact fun d hd => ⟨h.len d hd, h.data d hd⟩
  · exact fun hnone => h.prompt (.inr hnone)

end

/-- While no fragment ends above `IP_MAXPACKET`, the fragments of a datagram are put together
as they were sent. -/
theorem ip_reassembled (tos : BitVec 8) {sys : System}
    (hrun : Run.GuardedRun step (Fits tos) start sys) : Reassembled sys := by
  apply reassembled_of_inv
  apply Run.GuardedRun.invariant (P := Inv tos) _ _ hrun
  · exact ⟨nofun, nofun, nofun, fun _ => not_complete_nil⟩
  · intro before event after hinv hfits hstep
    exact step_inv hinv hfits hstep

def packet (off : BitVec 16) (data : List UInt8) (hlen : data.length < 2 ^ 16 - 20) : Packet where
  ip := ⟨5, 0, BitVec.ofNat 16 (20 + data.length), off⟩
  data := data
  length_eq := by
    rw [BitVec.toNat_ofNat]
    simp only [Ip.hlen]
    simp
    omega

def plenty : Memory := ⟨true, false, true, true⟩

def overlapping : List Event :=
  [.packet plenty (packet 1 (List.range 10 |>.map UInt8.ofNat) (by decide)),
    .packet plenty (packet ipMf (List.replicate 16 7) (by decide))]

theorem ip_reassembled_overlapping :
    Reassembled (Run.execD step (Fits 0) start overlapping) ∧
      (Run.execD step (Fits 0) start overlapping).datagram =
        some ⟨⟨5, 0, 38, 0⟩, List.replicate 16 7 ++ [8, 9]⟩ :=
  ⟨ip_reassembled 0 (Run.GuardedRun.of_execD (by decide)), by decide⟩

def farFragments : List Event :=
  [.packet plenty (packet (ipMf ||| 0x1fff) (List.replicate 40 7) (by decide)),
    .packet plenty (packet (ipMf ||| 0x1fff) (List.replicate 48 7) (by decide))]

/-- The offset of what is left of the second fragment does not fit 16 bits, and the fragment is
queued for another place behind the first one. -/
theorem far_fragment_wraps :
    ∃ sys, Run.Reaches step start sys ∧
      (sys.fp.map fun fragq => fragq.map (·.ip.off)) = some [65528, 32] ∧
      ¬ Reassembled sys := by
  refine ⟨Run.execD step (fun _ _ => True) start farFragments,
    Run.GuardedRun.of_execD (by decide), by decide, fun hall => ?_⟩
  have hsorted := hall.sorted _ rfl
  revert hsorted
  decide

end AerieKernel.IpReass
