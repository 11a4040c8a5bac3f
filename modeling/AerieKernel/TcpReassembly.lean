import AerieKernel.StreamPieces
import AerieKernel.TcpReassModel

/-!
# What a TCP connection presents

The queue of `tcp_reass` is a queue of pieces of the stream that begins with the first
`rcv_nxt`.  Positions in this stream are not taken modulo `2 ^ 32`.
-/

namespace AerieKernel.TcpReass

open List Pieces

open AerieKernel.Pieces (Piece Part)
open Serial (Seq seqGt)

variable {origin : Seq} {lo : ℕ}

def number (origin : Seq) (position : ℕ) : Seq := origin + BitVec.ofNat 32 position

theorem number_add (origin : Seq) (a b : ℕ) :
    number origin (a + b) = number origin a + BitVec.ofNat 32 b := by
  unfold number
  rw [BitVec.ofNat_add, add_assoc]

variable {a b : ℕ}

theorem toInt_number_sub (origin : Seq) (hle : b ≤ a + 2 ^ 31) (hlt : a < b + 2 ^ 31) :
    (number origin a - number origin b).toInt = (a : ℤ) - b := by
  have hsub : number origin a - number origin b = BitVec.ofInt 32 ((a : ℤ) - b) := by
    unfold number
    rw [add_sub_add_left_eq_sub, sub_eq_iff_eq_add, ← BitVec.ofInt_natCast 32 b,
      ← BitVec.ofInt_add, sub_add_cancel, BitVec.ofInt_natCast]
  rw [hsub, BitVec.toInt_ofInt]
  apply Int.bmod_eq_of_le
  · norm_num
    omega
  · norm_num
    omega

theorem number_inj (hle : b ≤ a + 2 ^ 30) (hle' : a ≤ b + 2 ^ 30) :
    number origin a = number origin b ↔ a = b := by
  constructor
  · intro heq
    have hdiff := toInt_number_sub origin (a := a) (b := b) (by omega) (by omega)
    rw [heq, sub_self] at hdiff
    have hzero : (0 : Seq).toInt = 0 := rfl
    omega
  · rintro rfl
    rfl

structure StandsFor (origin : Seq) (lo : ℕ) (q : Tcpqent) (p : Piece UInt8 Bool) : Prop where
  seq : q.seq = number origin p.start
  reseqlen : q.reseqlen.toNat = p.data.length
  data : q.data = p.data
  fin : q.fin = p.tag
  low : lo ≤ p.start
  high : p.stop ≤ lo + 2 ^ 30

variable {p : Piece UInt8 Bool}

theorem StandsFor.stop_seq {q : Tcpqent} (h : StandsFor origin lo q p) :
    q.seq + q.reseqlen.zeroExtend 32 = number origin p.stop := by
  unfold Piece.stop
  rw [number_add, h.seq, ← h.reseqlen]
  congr 1
  apply BitVec.eq_of_toNat_eq
  simp

def Segment.StandsFor (origin : Seq) (lo : ℕ) (th : Segment) (p : Piece UInt8 Bool) : Prop :=
  th.seq = number origin p.start ∧ th.data = p.data ∧ th.fin = p.tag ∧ lo ≤ p.start ∧
    p.stop ≤ lo + 2 ^ 30 ∧ p.data.length < 2 ^ 16

theorem seqGt_eq (ha : lo ≤ a) (ha' : a ≤ lo + 2 ^ 30) (hb : lo ≤ b) (hb' : b ≤ lo + 2 ^ 30) :
    (!seqGt (number origin a) (number origin b)) = decide (a ≤ b) := by
  unfold seqGt
  rw [toInt_number_sub origin (by omega) (by omega)]
  by_cases hle : a ≤ b
  · simp [hle]
  · simp [hle]
    omega

/-! ## Enqueueing -/

section Enqueue

variable {segq : List Tcpqent} {ps : List (Piece UInt8 Bool)} {th : Segment}
  {new : Piece UInt8 Bool}

theorem trimNew_news {p : Option Tcpqent} {p' : Option (Piece UInt8 Bool)}
    (hp : Option.Rel (StandsFor origin lo) p p') (hth : th.StandsFor origin lo new) :
    Option.Rel (fun th new => Segment.StandsFor origin lo th new)
      (trimNew p th) (Pieces.news p' new) := by
  obtain ⟨hseq, hdata, hfin, hlow, hhigh, hlen⟩ := hth
  have hstop : new.stop = new.start + new.data.length := rfl
  cases hp with
  | none => exact Option.Rel.some ⟨hseq, hdata, hfin, hlow, hhigh, hlen⟩
  | @some q p hq =>
    have hqle := start_le_stop p
    have hqlow := hq.low
    have hqhigh := hq.high
    unfold trimNew news
    dsimp only
    rw [hq.stop_seq, hseq, toInt_number_sub origin (by omega) (by omega)]
    by_cases hover : new.start < p.stop
    · rw [if_pos (by omega), if_pos hover]
      by_cases hall : new.stop ≤ p.stop
      · rw [if_pos hall, if_pos]
        · exact Option.Rel.none
        · rw [hdata]
          omega
      · rw [if_neg hall, if_neg]
        · refine Option.Rel.some ⟨?_, ?_, hfin, ?_, ?_, ?_⟩
          · show number origin new.start + BitVec.ofInt 32 _ = number origin (max _ _)
            rw [show max new.start p.stop = new.start + (p.stop - new.start) by omega, number_add]
            congr 1
            rw [show (p.stop : ℤ) - new.start = ((p.stop - new.start : ℕ) : ℤ) by omega,
              BitVec.ofInt_natCast]
          · show th.data.drop _ = new.data.drop _
            congr 1
            omega
          · show lo ≤ max _ _
            omega
          · rw [behind_stop (by omega)]
            exact hhigh
          · show (new.data.drop _).length < _
            rw [length_drop]
            omega
        · rw [hdata]
          omega
    · rw [if_neg (by omega), if_neg hover]
      exact Option.Rel.some ⟨hseq, hdata, hfin, hlow, hhigh, hlen⟩

theorem trimQueued_cut {n : ℕ} (hqueue : List.Forall₂ (StandsFor origin lo) segq ps)
    (hlow : lo ≤ n) (hhigh : n ≤ lo + 2 ^ 30) :
    List.Forall₂ (StandsFor origin lo) (trimQueued (number origin n) segq) (Pieces.cut n ps) := by
  induction hqueue with
  | nil => exact List.Forall₂.nil
  | @cons q p segq ps hq hrest ih =>
    have hple := start_le_stop p
    have hplow := hq.low
    have hphigh := hq.high
    have hlen := hq.reseqlen
    unfold trimQueued cut
    rw [hq.seq, toInt_number_sub origin (by omega) (by omega)]
    by_cases hbelow : n ≤ p.start
    · rw [if_pos (by omega), if_pos hbelow]
      exact hrest.cons hq
    · rw [if_neg (by omega), if_neg hbelow]
      by_cases hinside : n < p.stop
      · rw [if_pos, if_pos hinside]
        · refine hrest.cons ⟨?_, ?_, ?_, hq.fin, ?_, ?_⟩
          · show number origin p.start + BitVec.ofInt 32 _ = number origin (max _ _)
            rw [show max p.start n = p.start + (n - p.start) by omega, number_add]
            congr 1
            rw [show (n : ℤ) - p.start = ((n - p.start : ℕ) : ℤ) by omega, BitVec.ofInt_natCast]
          · show (q.reseqlen - BitVec.ofInt 16 _).toNat = (p.data.drop _).length
            unfold Piece.stop at hinside
            rw [length_drop,
              show (n : ℤ) - p.start = ((n - p.start : ℕ) : ℤ) by omega,
              BitVec.ofInt_natCast, BitVec.toNat_sub, BitVec.toNat_ofNat]
            omega
          · show q.data.drop _ = p.data.drop _
            rw [hq.data]
            congr 1
            omega
          · show lo ≤ max _ _
            omega
          · rw [behind_stop hinside.le]
            exact hphigh
        · unfold Piece.stop at hinside
          omega
      · rw [if_neg, if_neg hinside]
        · exact ih
        · unfold Piece.stop at hinside
          omega

theorem enqueue_arrive (hqueue : List.Forall₂ (StandsFor origin lo) segq ps)
    (hth : th.StandsFor origin lo new) :
    Option.Rel (List.Forall₂ (StandsFor origin lo)) (enqueue segq th) (Pieces.arrive new ps) := by
  have hle := start_le_stop new
  obtain ⟨hseq, -, -, hlow, hhigh, -⟩ := id hth
  obtain ⟨hbefore, hafter⟩ := forall₂_takeWhile
    (f := fun q => !seqGt q.seq th.seq) (g := fun p => decide (p.start ≤ new.start)) hqueue (by
      intro q p hq
      have hple := start_le_stop p
      have hphigh := hq.high
      rw [hq.seq, hseq]
      exact seqGt_eq hq.low (by omega) hlow (by omega))
  have hnews := trimNew_news (forall₂_getLast? hbefore) hth
  unfold enqueue arrive
  dsimp only
  generalize trimNew _ th = th' at *
  generalize news _ new = new' at *
  cases hnews with
  | none => exact Option.Rel.none
  | @some th' new' hth' =>
    obtain ⟨hseq', hdata', hfin', hlow', hhigh', hlen'⟩ := hth'
    have hle' := start_le_stop new'
    refine Option.Rel.some (rel_append hbefore (List.Forall₂.cons ?_ ?_))
    · refine ⟨hseq', ?_, hdata', hfin', hlow', hhigh'⟩
      rw [BitVec.toNat_ofNat, hdata', Nat.mod_eq_of_lt hlen']
    · rw [hseq', hdata', ← number_add]
      exact trimQueued_cut hafter (by unfold Piece.stop at hle'; omega) hhigh'

end Enqueue

/-! ## Presenting -/

/-- The connection has presented what lies below `adv` and queues pieces of what was
received, `rs`. -/
structure Ordered (origin : Seq) (rs : List (Piece UInt8 Bool)) (adv : ℕ) (tp : Tcb) : Prop where
  rcvNxt : tp.rcvNxt = number origin adv
  presented : tp.soRcv.length = adv
  carried : ∀ i a, tp.soRcv[i]? = some a → ∃ r ∈ rs, r.Carries i a
  queue : ∃ ps, List.Forall₂ (StandsFor origin adv) tp.segq ps ∧ Pieces.Sorted ps ∧
    ∀ p ∈ ps, ∃ r ∈ rs, Part p r

variable {rs : List (Piece UInt8 Bool)} {adv hi : ℕ} {tp : Tcb}

theorem carried_append {soRcv : List UInt8}
    (hcarried : ∀ i a, soRcv[i]? = some a → ∃ r ∈ rs, r.Carries i a)
    (hstart : p.start = soRcv.length) (hsource : ∃ r ∈ rs, Part p r) (i : ℕ) (a : UInt8)
    (hget : (soRcv ++ p.data)[i]? = some a) : ∃ r ∈ rs, r.Carries i a := by
  by_cases hold : i < soRcv.length
  · rw [getElem?_append_left hold] at hget
    exact hcarried i a hget
  · rw [getElem?_append_right (by omega), ← hstart] at hget
    obtain ⟨r, hr, hpart⟩ := hsource
    exact ⟨r, hr, hpart.carries ⟨by omega, hget⟩⟩

variable {segq : List Tcpqent}

theorem presentLoop_ordered {ps : List (Piece UInt8 Bool)} {soRcv : List UInt8} (flags : Bool)
    (hqueue : List.Forall₂ (StandsFor origin adv) segq ps) (hsorted : Pieces.Sorted ps)
    (hsource : ∀ p ∈ ps, ∃ r ∈ rs, Part p r)
    (hcarried : ∀ i a, soRcv[i]? = some a → ∃ r ∈ rs, r.Carries i a)
    (hlen : soRcv.length = adv) (hadv : adv ≤ hi) (hhi : ∀ p ∈ ps, p.stop ≤ hi) :
    ∃ adv' ≥ adv, adv' ≤ hi ∧
      Ordered origin rs adv' (presentLoop false (number origin adv) soRcv flags segq).1 ∧
      ((presentLoop false (number origin adv) soRcv flags segq).2 = true →
        (flags = true ∧ adv' = adv) ∨ ∃ r ∈ rs, r.tag = true ∧ r.stop = adv') := by
  induction ps generalizing adv segq soRcv flags with
  | nil =>
    cases hqueue
    refine ⟨adv, le_rfl, hadv, ⟨rfl, hlen, hcarried, [], List.Forall₂.nil, hsorted, ?_⟩, ?_⟩
    · exact hsource
    · exact fun hflags => .inl ⟨hflags, rfl⟩
  | cons p ps ih =>
    cases hqueue with
    | @cons q _ rest _ hq hrest =>
      have hlow := hq.low
      have hhigh := hq.high
      have hle := start_le_stop p
      have hseq : q.seq = number origin adv ↔ p.start = adv := by
        rw [hq.seq]
        exact number_inj (by omega) (by omega)
      rw [presentLoop]
      by_cases hnext : p.start = adv
      · rw [if_pos (hseq.mpr hnext)]
        have hstop : q.reseqlen.zeroExtend 32 + number origin adv = number origin p.stop := by
          rw [add_comm, ← hnext, ← hq.seq, hq.stop_seq]
        have hpstop : p.stop = adv + p.data.length := by rw [← hnext]; rfl
        have hafter := pairwise_cons.mp hsorted
        rw [add_comm, hstop, hq.data]
        have hrest' : List.Forall₂ (StandsFor origin p.stop) rest ps := by
          have hboth := ((List.forall₂_and_left _ _).mpr ⟨hafter.1, hrest.flip⟩).flip
          refine hboth.imp fun q' p' ⟨hlow', hq'⟩ => ?_
          have hhigh' := hq'.high
          exact { hq' with low := hlow', high := by omega }
        obtain ⟨adv', hge, hadv', hordered, hfin⟩ := ih q.fin hrest' hafter.2
          (fun r hr => hsource r (mem_cons_of_mem _ hr))
          (carried_append hcarried (hnext.trans hlen.symm) (hsource p mem_cons_self))
          (by rw [length_append, hlen, hpstop]) (hhi p mem_cons_self)
          (fun r hr => hhi r (mem_cons_of_mem _ hr))
        refine ⟨adv', by omega, hadv', hordered, fun hflags => .inr ?_⟩
        rcases hfin hflags with ⟨hqfin, rfl⟩ | hfound
        · obtain ⟨r, hr, hpart⟩ := hsource p mem_cons_self
          refine ⟨r, hr, ?_, hpart.stop_eq.symm⟩
          rw [← hpart.tag_eq, ← hq.fin, hqfin]
        · exact hfound
      · rw [if_neg (fun h => hnext (hseq.mp h))]
        refine ⟨adv, le_rfl, hadv, ⟨rfl, hlen, hcarried, p :: ps, hrest.cons hq, hsorted,
          hsource⟩, ?_⟩
        exact fun hflags => .inl ⟨hflags, rfl⟩

def Presents (origin : Seq) (rs : List (Piece UInt8 Bool)) (adv : ℕ) (r : Tcb × Bool) : Prop :=
  ∃ adv' ≥ adv, adv' ≤ adv + 2 ^ 30 ∧ Ordered origin rs adv' r.1 ∧
    (r.2 = true → ∃ r ∈ rs, r.tag = true ∧ r.stop = adv')

section

variable (h : Ordered origin rs adv tp)
include h

theorem presents_quiet : Presents origin rs adv (tp, false) :=
  ⟨adv, le_rfl, by omega, h, nofun⟩

omit h in
theorem present_presents (established : Bool) (h : Ordered origin rs adv tp) :
    Presents origin rs adv (present established false tp) := by
  cases established with
  | false => exact presents_quiet h
  | true =>
    obtain ⟨hnxt, hlen, hcarried, ps, hqueue, hsorted, hsource⟩ := h
    have hhi : ∀ p ∈ ps, p.stop ≤ adv + 2 ^ 30 := by
      intro p hp
      obtain ⟨q, -, hq⟩ := exists_related hqueue hp
      exact hq.high
    obtain ⟨adv', hge, hle, hordered, hfin⟩ := presentLoop_ordered false hqueue
      hsorted hsource hcarried hlen (Nat.le_add_right adv (2 ^ 30)) hhi
    rw [← hnxt] at hordered hfin
    refine ⟨adv', hge, hle, hordered, fun hflags => ?_⟩
    rcases hfin hflags with ⟨hfalse, -⟩ | hfound
    · cases hfalse
    · exact hfound

/-! ## A call -/

theorem ordered_segq
    (hqueue : ∃ ps, List.Forall₂ (StandsFor origin adv) segq ps ∧ Pieces.Sorted ps ∧
      ∀ p ∈ ps, ∃ r ∈ rs, Part p r) : Ordered origin rs adv { tp with segq } :=
  { h with queue := hqueue }

theorem ordered_getEntry {alloc : Bool} {th : Segment} {tp' : Tcb}
    (hentry : getEntry alloc tp th = some tp') :
    Ordered origin rs adv tp' ∧ tp'.rcvNxt = tp.rcvNxt := by
  unfold getEntry at hentry
  split_ifs at hentry
  · cases hentry
    exact ⟨h, rfl⟩
  · cases hentry
    refine ⟨ordered_segq h ?_, rfl⟩
    obtain ⟨ps, hqueue, hsorted, hsource⟩ := h.queue
    refine ⟨ps.dropLast, ?_, hsorted.sublist (dropLast_sublist ps), ?_⟩
    · rw [dropLast_eq_take, dropLast_eq_take, ← hqueue.length_eq]
      exact List.forall₂_take _ hqueue
    · exact fun p hp => hsource p (dropLast_subset ps hp)

theorem ordered_enqueue {th : Segment} {new : Piece UInt8 Bool} (hth : th.StandsFor origin adv new)
    (hnew : new ∈ rs) (henqueue : enqueue tp.segq th = some segq) :
    Ordered origin rs adv { tp with segq } := by
  obtain ⟨ps, hqueue, hsorted, hsource⟩ := h.queue
  have hrel := enqueue_arrive hqueue hth
  rw [henqueue] at hrel
  cases harrive : arrive new ps with rw [harrive] at hrel
  | none =>
    cases hrel
  | some qs =>
    cases hrel with
    | some hqs =>
      refine ordered_segq h ⟨qs, hqs, sorted_arrive hsorted harrive, ?_⟩
      intro p hp
      rcases part_of_mem_arrive harrive hp with ⟨q, hq, hpart⟩ | hpart
      · obtain ⟨r, hr, hpart'⟩ := hsource q hq
        exact ⟨r, hr, hpart.trans hpart'⟩
      · exact ⟨new, hnew, hpart⟩

end

theorem tcpReass_presents (alloc established : Bool) (th : Option Segment)
    (h : Ordered origin rs adv tp)
    (hth : ∀ th', th = some th' → ∃ new ∈ rs, th'.StandsFor origin adv new) :
    Presents origin rs adv (tcpReass alloc established false tp th) := by
  unfold tcpReass
  cases th with
  | none => exact present_presents established h
  | some th =>
    obtain ⟨new, hnew, hstands⟩ := hth th rfl
    dsimp only
    cases hentry : getEntry alloc tp th with
    | none => exact presents_quiet (ordered_segq h ⟨[], .nil, .nil, nofun⟩)
    | some tp' =>
      have h' := (ordered_getEntry h hentry).1
      dsimp only
      cases henqueue : enqueue tp'.segq th with
      | none => exact presents_quiet h'
      | some segq =>
        exact present_presents established (ordered_enqueue h' hstands hnew henqueue)

/-! ## Runs -/

def Received.piece (r : Received) : Piece UInt8 Bool := ⟨r.start, r.data, r.fin⟩

def Tcb.offset (tp : Tcb) (q : Tcpqent) : ℕ := (q.seq - tp.rcvNxt).toNat

structure Reassembled (origin : Seq) (sys : System) : Prop where
  sorted : sys.tp.segq.Pairwise fun q q' =>
    sys.tp.offset q + q.reseqlen.toNat ≤ sys.tp.offset q'
  window : ∀ q ∈ sys.tp.segq, q.data.length = q.reseqlen.toNat ∧
    sys.tp.offset q + q.reseqlen.toNat ≤ 2 ^ 30
  rcvNxt : sys.tp.rcvNxt = origin + BitVec.ofNat 32 sys.advanced
  presented : sys.tp.soRcv.length = sys.advanced
  carried : ∀ i a, sys.tp.soRcv[i]? = some a →
    ∃ r ∈ sys.received, r.start ≤ i ∧ r.data[i - r.start]? = some a
  fin : sys.fin = true → ∃ r ∈ sys.received, r.fin = true ∧ r.start + r.data.length = sys.advanced

/-- The segment lies in the window, its length fits the header field and the socket takes
the data. -/
def Fits (sys : System) (call : Call) : Prop :=
  call.cantrcvmore = false ∧ ∀ th ∈ call.th,
    (th.seq - sys.tp.rcvNxt).toNat + th.data.length ≤ 2 ^ 30 ∧ th.data.length < 2 ^ 16

instance (sys : System) (call : Call) : Decidable (Fits sys call) :=
  inferInstanceAs (Decidable (_ ∧ _))

def Inv (origin : Seq) (sys : System) : Prop :=
  Ordered origin (sys.received.map Received.piece) sys.advanced sys.tp ∧
    (sys.fin = true → ∃ r ∈ sys.received.map Received.piece, r.tag = true ∧ r.stop = sys.advanced)

theorem Ordered.mono {rs' : List (Piece UInt8 Bool)} (h : Ordered origin rs adv tp)
    (hsub : rs ⊆ rs') : Ordered origin rs' adv tp := by
  obtain ⟨hnxt, hlen, hcarried, ps, hqueue, hsorted, hsource⟩ := h
  refine ⟨hnxt, hlen, ?_, ps, hqueue, hsorted, ?_⟩
  · intro i a hget
    obtain ⟨r, hr, hcarries⟩ := hcarried i a hget
    exact ⟨r, hsub hr, hcarries⟩
  · intro p hp
    obtain ⟨r, hr, hpart⟩ := hsource p hp
    exact ⟨r, hsub hr, hpart⟩

theorem number_sub_toNat (hle : b ≤ a) (hlt : a < b + 2 ^ 32) :
    (number origin a - number origin b).toNat = a - b := by
  have hsplit : number origin a = number origin b + BitVec.ofNat 32 (a - b) := by
    rw [← number_add, show b + (a - b) = a by omega]
  rw [hsplit, add_sub_cancel_left, BitVec.toNat_ofNat]
  omega

variable {sys : System}

theorem receive_standsFor {th : Segment} (hnxt : sys.tp.rcvNxt = number origin sys.advanced)
    (hwindow : (th.seq - sys.tp.rcvNxt).toNat + th.data.length ≤ 2 ^ 30)
    (hlen : th.data.length < 2 ^ 16) : th.StandsFor origin sys.advanced (sys.receive th).piece := by
  refine ⟨?_, rfl, rfl, Nat.le_add_right _ _, ?_, hlen⟩
  · show th.seq = number origin (sys.advanced + _)
    rw [number_add, ← hnxt, BitVec.ofNat_toNat, BitVec.setWidth_eq, add_sub_cancel]
  · show sys.advanced + _ + th.data.length ≤ _
    omega

theorem step_inv {sys' : System} {call : Call} (h : Inv origin sys) (hfits : Fits sys call)
    (hstep : step sys call = some sys') : Inv origin sys' := by
  obtain ⟨hopen, hth⟩ := hfits
  obtain ⟨hordered, -⟩ := h
  unfold step at hstep
  dsimp only at hstep
  cases hstep
  rw [hopen]
  have hmore : Ordered origin (((call.th.map sys.receive).toList ++ sys.received).map
      Received.piece) sys.advanced sys.tp := by
    apply hordered.mono
    rw [map_append]
    exact subset_append_right _ _
  have hpresents := tcpReass_presents call.alloc call.established call.th hmore (by
    intro th hcall
    obtain ⟨hwindow, hlen⟩ := hth th hcall
    refine ⟨(sys.receive th).piece, ?_, receive_standsFor hordered.rcvNxt hwindow hlen⟩
    rw [hcall]
    exact mem_cons_self)
  obtain ⟨adv', hge, hle, hordered', hfin⟩ := hpresents
  have hadv : sys.advanced + ((tcpReass call.alloc call.established false sys.tp call.th).1.rcvNxt
      - sys.tp.rcvNxt).toNat = adv' := by
    rw [hordered'.rcvNxt, hordered.rcvNxt, number_sub_toNat hge (by omega)]
    omega
  constructor
  · rw [hadv]
    exact hordered'
  · rw [hadv]
    exact hfin

theorem inv_start (origin : Seq) : Inv origin (start origin) := by
  refine ⟨⟨?_, rfl, fun i a hget => ?_, [], List.Forall₂.nil, List.Pairwise.nil, ?_⟩, ?_⟩
  · show origin = origin + 0
    rw [add_zero]
  · cases hget
  · exact nofun
  · exact nofun

theorem StandsFor.offset {q : Tcpqent} (h : StandsFor origin adv q p)
    (hnxt : tp.rcvNxt = number origin adv) : tp.offset q = p.start - adv := by
  have hhigh := h.high
  have hle := start_le_stop p
  unfold Tcb.offset
  rw [h.seq, hnxt, number_sub_toNat h.low (by omega)]

theorem reassembled_of_inv (h : Inv origin sys) : Reassembled origin sys := by
  obtain ⟨⟨hnxt, hlen, hcarried, ps, hqueue, hsorted, -⟩, hfin⟩ := h
  refine ⟨?_, ?_, hnxt, hlen, ?_, ?_⟩
  · apply pairwise_of_sorted hqueue hsorted
    intro q p q' p' hq hq' hle
    have hlow := hq.low
    unfold Piece.stop at hle
    rw [hq.offset hnxt, hq'.offset hnxt, hq.reseqlen]
    omega
  · intro q hq
    obtain ⟨p, -, hstands⟩ := exists_piece hqueue hq
    have hhigh := hstands.high
    have hlow := hstands.low
    unfold Piece.stop at hhigh
    rw [hstands.offset hnxt, hstands.reseqlen, hstands.data]
    omega
  · intro i a hget
    obtain ⟨r, hr, hcarries⟩ := hcarried i a hget
    obtain ⟨r, hr', rfl⟩ := mem_map.mp hr
    exact ⟨r, hr', hcarries⟩
  · intro hflags
    obtain ⟨r, hr, htag, hstop⟩ := hfin hflags
    obtain ⟨r, hr', rfl⟩ := mem_map.mp hr
    exact ⟨r, hr', htag, hstop⟩

/-- While the segments fit, the connection presents the stream. -/
theorem tcp_reassembled (origin : Seq) {sys : System}
    (hrun : Run.GuardedRun step Fits (start origin) sys) : Reassembled origin sys := by
  apply reassembled_of_inv
  apply Run.GuardedRun.invariant (P := Inv origin) (inv_start origin) _ hrun
  intro before call after hinv hfits hstep
  exact step_inv hinv hfits hstep

/-- Two segments with a gap, a zero-length one with `FIN` and the one that closes the gap,
across the end of the sequence space. -/
def gapCalls : List Call :=
  [⟨true, true, false, some ⟨1, [4, 5], false⟩⟩, ⟨true, true, false, some ⟨3, [], true⟩⟩,
    ⟨true, true, false, some ⟨2 ^ 32 - 2, [1, 2, 3, 9], false⟩⟩]

def afterGap : System :=
  Run.execD step Fits (start (2 ^ 32 - 2)) gapCalls

theorem tcp_reassembled_gap :
    Reassembled (2 ^ 32 - 2) afterGap ∧ afterGap.fin = true ∧ afterGap.tp.soRcv = [1, 2, 3, 9, 5] :=
  ⟨tcp_reassembled _ (Run.GuardedRun.of_execD (by decide)), by decide, by decide⟩

def longCall (data : List UInt8) : Call := ⟨true, true, false, some ⟨1, data, false⟩⟩

def shortCall : Call := ⟨true, true, false, some ⟨0, [7], false⟩⟩

theorem step_longCall {data : List UInt8} (hlen : data.length = 2 ^ 16) :
    step (start 0) (longCall data) =
      some ⟨⟨[⟨1, 0, data, false⟩], 0, []⟩, 0, [⟨1, data, false⟩], false⟩ := by
  simp [step, start, longCall, tcpReass, getEntry, enqueue, trimNew, trimQueued, present,
    presentLoop, System.receive, hlen]

theorem step_shortCall (data : List UInt8) :
    step ⟨⟨[⟨1, 0, data, false⟩], 0, []⟩, 0, [⟨1, data, false⟩], false⟩ shortCall =
      some ⟨⟨[], 1, 7 :: data⟩, 1, [⟨0, [7], false⟩, ⟨1, data, false⟩], false⟩ := by
  simp [step, shortCall, tcpReass, getEntry, enqueue, trimNew, trimQueued, present,
    presentLoop, System.receive, seqGt]

/-- With a length of `2 ^ 16` bytes the 16-bit field is zero, and `rcv_nxt` does not advance
over the data that goes to the socket. -/
theorem long_segment_presented :
    ∃ sys, Run.Reaches step (start 0) sys ∧ sys.tp.soRcv.length = 2 ^ 16 + 1 ∧
      sys.tp.rcvNxt = 1 ∧ ¬ Reassembled 0 sys := by
  obtain ⟨data, hlen⟩ : ∃ data : List UInt8, data.length = 2 ^ 16 :=
    ⟨List.replicate (2 ^ 16) 7, length_replicate⟩
  have hreach := ((Run.GuardedRun.refl step (fun _ _ => True) (start 0)).snoc trivial
    (step_longCall hlen)).snoc trivial (step_shortCall data)
  refine ⟨_, hreach, congrArg (· + 1) hlen, rfl, fun hall => ?_⟩
  have hpresented : data.length + 1 = 1 := hall.presented
  omega

end AerieKernel.TcpReass
