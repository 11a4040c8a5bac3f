import AerieKernel.SackModel

/-!
# What the scoreboard keeps

Holes are seen from `snd_una`.  Each step of the walk replaces the current hole by holes
inside it, so that the list stays in its order.
-/

namespace AerieKernel.Sack

open Serial List

variable {base lo hi : Seq} {h : Sackhole}

structure HoleIn (base lo hi : Seq) (h : Sackhole) : Prop where
  low : pos base lo ≤ pos base h.start
  nonempty : pos base h.start < pos base h.end_
  high : pos base h.end_ ≤ pos base hi
  start_le : pos base h.start ≤ pos base h.rxmit
  le_end : pos base h.rxmit ≤ pos base h.end_

structure Board (base lo hi : Seq) (holes : List Sackhole) : Prop where
  each : ∀ h ∈ holes, HoleIn base lo hi h
  sorted : holes.Pairwise fun h h' => pos base h.end_ ≤ pos base h'.start

theorem HoleIn.mono {lo' hi' : Seq} (hh : HoleIn base lo hi h) (hlo : pos base lo' ≤ pos base lo)
    (hhi : pos base hi ≤ pos base hi') : HoleIn base lo' hi' h :=
  { hh with low := hlo.trans hh.low, high := hh.high.trans hhi }

theorem Board.mono {lo' hi' : Seq} {holes : List Sackhole} (hboard : Board base lo hi holes)
    (hlo : pos base lo' ≤ pos base lo) (hhi : pos base hi ≤ pos base hi') :
    Board base lo' hi' holes := { hboard with each := fun h hh => (hboard.each h hh).mono hlo hhi }

theorem board_nil : Board base lo hi [] := ⟨nofun, List.Pairwise.nil⟩

theorem board_append {xs ys : List Sackhole} :
    Board base lo hi (xs ++ ys) ↔ Board base lo hi xs ∧ Board base lo hi ys ∧
      ∀ h ∈ xs, ∀ h' ∈ ys, pos base h.end_ ≤ pos base h'.start := by
  constructor
  · rintro ⟨heach, hsorted⟩
    rw [forall_mem_append] at heach
    rw [pairwise_append] at hsorted
    exact ⟨⟨heach.1, hsorted.1⟩, ⟨heach.2, hsorted.2.1⟩, hsorted.2.2⟩
  · rintro ⟨hxs, hys, hacross⟩
    exact ⟨forall_mem_append.mpr ⟨hxs.each, hys.each⟩,
      pairwise_append.mpr ⟨hxs.sorted, hys.sorted, hacross⟩⟩

theorem board_cons {hs : List Sackhole} :
    Board base lo hi (h :: hs) ↔ HoleIn base lo hi h ∧ Board base lo hi hs ∧
      ∀ h' ∈ hs, pos base h.end_ ≤ pos base h'.start := by
  constructor
  · rintro ⟨heach, hsorted⟩
    rw [forall_mem_cons] at heach
    rw [pairwise_cons] at hsorted
    exact ⟨heach.1, ⟨heach.2, hsorted.2⟩, hsorted.1⟩
  · rintro ⟨hh, hhs, hacross⟩
    exact ⟨forall_mem_cons.mpr ⟨hh, hhs.each⟩, pairwise_cons.mpr ⟨hacross, hhs.sorted⟩⟩

theorem Board.replace {xs ys news : List Sackhole} (hboard : Board base lo hi (xs ++ h :: ys))
    (hnews : Board base h.start h.end_ news) : Board base lo hi (xs ++ news ++ ys) := by
  obtain ⟨hxs, hcons, hacross⟩ := board_append.mp hboard
  obtain ⟨hh, hys, hafter⟩ := board_cons.mp hcons
  rw [append_assoc, board_append, board_append]
  refine ⟨hxs, ⟨⟨?_, hnews.sorted⟩, hys, ?_⟩, ?_⟩
  · intro n hn
    exact (hnews.each n hn).mono hh.low hh.high
  · intro n hn h' hh'
    exact (hnews.each n hn).high.trans (hafter h' hh')
  · intro x hx n hn
    rw [List.mem_append] at hn
    rcases hn with hn | hn
    · exact (hacross x hx h mem_cons_self).trans (hnews.each n hn).low
    · exact hacross x hx n (mem_cons_of_mem _ hn)

theorem board_single (hh : HoleIn base lo hi h) : Board base lo hi [h] :=
  board_cons.mpr ⟨hh, board_nil, nofun⟩

/-! ## The walk -/

section Walk

variable {maxseg : ℕ} {sack : Sackblk}

theorem HoleIn.self (hh : HoleIn base lo hi h) : HoleIn base h.start h.end_ h :=
  { hh with low := le_rfl, high := le_rfl }

theorem HoleIn.dup (hh : HoleIn base lo hi h) : HoleIn base lo hi (h.dup maxseg sack) :=
  { hh with }

variable (hlo : 0 ≤ pos base lo) (hstart : pos base lo < pos base sack.start)

include hlo hstart

theorem HoleIn.cutEnd (maxseg : ℕ) (hh : HoleIn base lo hi h)
    (hleft : pos base h.start < pos base sack.start) :
    HoleIn base h.start sack.start (h.cutEnd maxseg sack) := by
  have hlow := hh.low
  have hrx := hh.start_le
  have hmin : seqLt h.rxmit sack.start = true ↔ pos base h.rxmit < pos base sack.start :=
    seqLt_iff (by omega) (by omega)
  unfold Sackhole.cutEnd seqMin
  apply HoleIn.dup
  by_cases hlt : seqLt h.rxmit sack.start = true
  · rw [if_pos hlt]
    exact ⟨le_rfl, hleft, le_rfl, hrx, (hmin.mp hlt).le⟩
  · rw [if_neg hlt]
    exact ⟨le_rfl, hleft, le_rfl, hleft.le, le_rfl⟩

variable (hend : pos base sack.start < pos base sack.end_)

include hend

theorem HoleIn.cutStart (hh : HoleIn base lo hi h) (hleft : pos base sack.end_ < pos base h.end_) :
    HoleIn base sack.end_ h.end_ (h.cutStart sack) := by
  have hlow := hh.low
  have hrx := hh.start_le
  have hmax : seqGt h.rxmit sack.end_ = true ↔ pos base sack.end_ < pos base h.rxmit :=
    seqGt_iff (by omega) (by omega)
  unfold Sackhole.cutStart seqMax
  by_cases hgt : seqGt h.rxmit sack.end_ = true
  · rw [if_pos hgt]
    exact ⟨le_rfl, hleft, le_rfl, (hmax.mp hgt).le, hh.le_end⟩
  · rw [if_neg hgt]
    exact ⟨le_rfl, hleft, le_rfl, le_rfl, hleft.le⟩

theorem walk_board (maxseg : ℕ) (numholes : ℤ) (passed rest : List Sackhole)
    (hboard : Board base lo hi (passed ++ rest)) :
    ∃ w, walk maxseg sack numholes passed rest = some w ∧ Board base lo hi (w.passed ++ w.rest) ∧
      w.numholes - (w.passed ++ w.rest).length = numholes - (passed ++ rest).length := by
  induction rest generalizing numholes passed with
  | nil => exact ⟨_, rfl, hboard, rfl⟩
  | cons cur rest ih =>
    have hcur := hboard.each cur (mem_append_right _ mem_cons_self)
    have hlow := hcur.low
    have hne := hcur.nonempty
    -- the current hole is replaced and the walk goes on
    have hgo : ∀ (n : ℤ) (news : List Sackhole), Board base cur.start cur.end_ news →
        n - news.length = numholes - 1 → ∃ w, walk maxseg sack n (passed ++ news) rest = some w ∧
          Board base lo hi (w.passed ++ w.rest) ∧
          w.numholes - (w.passed ++ w.rest).length = numholes - (passed ++ cur :: rest).length := by
      intro n news hnews hcount
      obtain ⟨w, hwalk, hw, hnum⟩ := ih n (passed ++ news) (hboard.replace hnews)
      refine ⟨w, hwalk, hw, ?_⟩
      rw [hnum]
      simp only [length_append, length_cons]
      omega
    have hend_start : seqLeq sack.end_ cur.start = true ↔
        pos base sack.end_ ≤ pos base cur.start := seqLeq_iff (by omega) (by omega)
    have hstart_end : seqGeq sack.start cur.end_ = true ↔
        pos base cur.end_ ≤ pos base sack.start := seqGeq_iff (by omega) (by omega)
    have hstart_start : seqLeq sack.start cur.start = true ↔
        pos base sack.start ≤ pos base cur.start := seqLeq_iff (by omega) (by omega)
    have hend_end : seqGeq sack.end_ cur.end_ = true ↔
        pos base cur.end_ ≤ pos base sack.end_ := seqGeq_iff (by omega) (by omega)
    have hinside : seqLt cur.start sack.start = true ↔
        pos base cur.start < pos base sack.start := seqLt_iff (by omega) (by omega)
    have hinside' : seqGt cur.end_ sack.end_ = true ↔
        pos base sack.end_ < pos base cur.end_ := seqGt_iff (by omega) (by omega)
    simp only [walk, hend_start, hstart_end, hstart_start, hend_end, Bool.and_eq_true, hinside,
      hinside']
    by_cases hbefore : pos base sack.end_ ≤ pos base cur.start
    · rw [if_pos hbefore]
      exact ⟨_, rfl, hboard, rfl⟩
    rw [if_neg hbefore]
    by_cases hbeyond : pos base cur.end_ ≤ pos base sack.start
    · rw [if_pos hbeyond]
      exact hgo numholes _ (board_single hcur.self.dup) rfl
    rw [if_neg hbeyond]
    by_cases hfirst : pos base sack.start ≤ pos base cur.start
    · rw [if_pos hfirst]
      by_cases hall : pos base cur.end_ ≤ pos base sack.end_
      · rw [if_pos hall]
        have hgone := hgo (numholes - 1) [] board_nil (by simp)
        rwa [append_nil] at hgone
      · rw [if_neg hall]
        have hcut := hcur.cutStart hlo hstart hend (not_le.mp hall)
        exact hgo numholes _ (board_single (hcut.mono (not_le.mp hbefore).le le_rfl)) rfl
    rw [if_neg hfirst]
    have hcut := hcur.cutEnd hlo hstart maxseg (not_le.mp hfirst)
    by_cases hlast : pos base cur.end_ ≤ pos base sack.end_
    · rw [if_pos hlast]
      exact hgo numholes _ (board_single (hcut.mono le_rfl (not_le.mp hbeyond).le)) rfl
    rw [if_neg hlast, if_pos ⟨not_le.mp hfirst, not_le.mp hlast⟩]
    by_cases hget : sack.getSplit = true
    · rw [hget]
      have hcut' := hcur.cutStart hlo hstart hend (not_le.mp hlast)
      refine hgo (numholes + 1) _ (board_cons.mpr ⟨hcut.mono le_rfl (not_le.mp hbeyond).le,
        board_single (hcut'.mono (not_le.mp hbefore).le le_rfl), ?_⟩)
        (by simp only [length_cons, length_nil]; omega)
      exact forall_mem_singleton.mpr hend.le
    · rw [Bool.not_eq_true] at hget
      rw [hget]
      exact ⟨_, rfl, hboard, rfl⟩

theorem walk_beyond (maxseg : ℕ) (numholes : ℤ) (passed rest : List Sackhole)
    (hrest : ∀ h ∈ rest, HoleIn base lo hi h ∧ pos base h.end_ ≤ pos base sack.start) :
    walk maxseg sack numholes passed rest =
      some ⟨passed ++ rest.map (·.dup maxseg sack), [], numholes, false⟩ := by
  induction rest generalizing passed with
  | nil => rw [walk, map_nil, append_nil]
  | cons cur rest ih =>
    rw [forall_mem_cons] at hrest
    obtain ⟨⟨hcur, hle⟩, hrest⟩ := hrest
    have hlow := hcur.low
    have hne := hcur.nonempty
    have hend_start : seqLeq sack.end_ cur.start = true ↔
        pos base sack.end_ ≤ pos base cur.start := seqLeq_iff (by omega) (by omega)
    have hstart_end : seqGeq sack.start cur.end_ = true ↔
        pos base cur.end_ ≤ pos base sack.start := seqGeq_iff (by omega) (by omega)
    rw [walk, if_neg (by rw [hend_start]; omega), if_pos (hstart_end.mpr hle), ih _ hrest]
    simp

end Walk

/-! ## The option -/

structure Scored (lo : Seq) (tp : Tcpcb) : Prop where
  board : Board tp.sndUna lo tp.sndMax tp.sndHoles
  numholes : tp.sndNumholes = tp.sndHoles.length
  lastsack : ∀ h ∈ tp.sndHoles, pos tp.sndUna h.end_ ≤ pos tp.sndUna tp.rcvLastsack
  lastsack_le : tp.sndHoles ≠ [] → pos tp.sndUna tp.rcvLastsack ≤ pos tp.sndUna tp.sndMax

variable {tp : Tcpcb} {ack : Seq} {sack : Sackblk}

theorem scored_iff : Scored lo tp ↔ Board tp.sndUna lo tp.rcvLastsack tp.sndHoles ∧
    tp.sndNumholes = tp.sndHoles.length ∧
    (tp.sndHoles ≠ [] → pos tp.sndUna tp.rcvLastsack ≤ pos tp.sndUna tp.sndMax) := by
  constructor
  · intro h
    refine ⟨⟨fun x hx => ?_, h.board.sorted⟩, h.numholes, h.lastsack_le⟩
    exact { h.board.each x hx with high := h.lastsack x hx }
  · rintro ⟨hboard, hnum, hle⟩
    refine ⟨⟨fun x hx => ?_, hboard.sorted⟩, hnum, fun x hx => (hboard.each x hx).high, hle⟩
    exact (hboard.each x hx).mono le_rfl (hle (ne_nil_of_mem hx))

/-- A block that is not skipped begins above the acknowledgement and below `snd_max`. -/
def Begins (tp : Tcpcb) (ack : Seq) (sack : Sackblk) : Prop :=
  skips tp ack sack = false → seqGt sack.start ack = true ∧ seqLt sack.start tp.sndMax = true

theorem begins_pos (hack : 0 ≤ pos tp.sndUna ack)
    (hle : pos tp.sndUna ack ≤ pos tp.sndUna tp.sndMax)
    (hmax : pos tp.sndUna tp.sndMax ≤ 2 ^ 30) (hskips : skips tp ack sack = false)
    (hbegins : Begins tp ack sack) :
    pos tp.sndUna ack < pos tp.sndUna sack.start ∧
      pos tp.sndUna sack.start < pos tp.sndUna sack.end_ ∧
      pos tp.sndUna sack.end_ ≤ pos tp.sndUna tp.sndMax := by
  obtain ⟨hgt, hlt⟩ := hbegins hskips
  unfold skips at hskips
  simp only [Bool.or_eq_false_iff] at hskips
  obtain ⟨⟨⟨hempty, hold⟩, -⟩, hbeyond⟩ := hskips
  unfold seqLeq at hempty hold
  unfold seqGt at hbeyond hgt
  unfold seqLt at hlt
  rw [decide_eq_false_iff_not] at hempty hold hbeyond
  rw [decide_eq_true_iff] at hgt hlt
  change ¬ pos tp.sndUna sack.end_ ≤ 0 at hold
  have hstart := le_pos tp.sndUna sack.start
  have hstart' := pos_lt tp.sndUna sack.start
  have hend := pos_lt tp.sndUna sack.end_
  have hcases := sub_cases tp.sndUna sack.end_ sack.start
  have hcases' := sub_cases tp.sndUna sack.end_ tp.sndMax
  have hcases'' := sub_cases tp.sndUna sack.start ack
  have hcases''' := sub_cases tp.sndUna sack.start tp.sndMax
  have hb := BitVec.toInt_lt (x := sack.end_ - sack.start)
  have hb' := BitVec.toInt_lt (x := sack.start - ack)
  have hb'' := BitVec.le_toInt (sack.start - tp.sndMax)
  have hb''' := BitVec.le_toInt (sack.end_ - tp.sndMax)
  omega

def SameWindow (tp tp' : Tcpcb) : Prop := tp'.sndUna = tp.sndUna ∧ tp'.sndMax = tp.sndMax

theorem SameWindow.begins {tp' : Tcpcb} (hsame : SameWindow tp tp') (h : Begins tp ack sack) :
    Begins tp' ack sack := by
  unfold Begins skips at *
  rwa [hsame.1, hsame.2]

section Option

variable (hack : 0 ≤ pos tp.sndUna ack) (hle : pos tp.sndUna ack ≤ pos tp.sndUna tp.sndMax)
  (hmax : pos tp.sndUna tp.sndMax ≤ 2 ^ 30)

include hack hle hmax

theorem sackBlock_scored (h : Scored ack tp) (hbegins : Begins tp ack sack) :
    ∃ tp' done, sackBlock tp ack sack = some (tp', done) ∧ Scored ack tp' ∧ SameWindow tp tp' := by
  unfold sackBlock
  cases hskips : skips tp ack sack with
  | true => exact ⟨tp, false, rfl, h, rfl, rfl⟩
  | false =>
    obtain ⟨hstart, hend, hhigh⟩ := begins_pos hack hle hmax hskips hbegins
    rw [if_neg (by decide)]
    cases hholes : tp.sndHoles with dsimp only
    | nil =>
      split_ifs
      · exact ⟨tp, true, rfl, h, rfl, rfl⟩
      · refine ⟨_, _, rfl, scored_iff.mpr ⟨board_single ?_, rfl, fun _ => hhigh⟩, rfl, rfl⟩
        exact ⟨le_rfl, hstart, hend.le, le_rfl, hstart.le⟩
    | cons first others =>
      rw [← hholes]
      have hne : tp.sndHoles ≠ [] := by
        rw [hholes]
        exact cons_ne_nil _ _
      obtain ⟨hboard, hnum, hle_max⟩ := scored_iff.mp h
      have hlast := hle_max hne
      -- the first hole ends above `snd_una`
      have hfirst := hboard.each first (by rw [hholes]; exact mem_cons_self)
      have hlow := hfirst.low
      have hfirst_ne := hfirst.nonempty
      have hfirst_high := hfirst.high
      have hbehind : seqLt tp.rcvLastsack sack.start = true ↔
          pos tp.sndUna tp.rcvLastsack < pos tp.sndUna sack.start := seqLt_iff (by omega) (by omega)
      obtain ⟨w, hwalk, hw, hcount⟩ := walk_board hack hstart hend
        tp.maxseg tp.sndNumholes [] tp.sndHoles hboard
      rw [hwalk]
      rw [hnum, nil_append] at hcount
      have hnum' : w.numholes = (w.passed ++ w.rest).length := by omega
      have hplain : Scored ack
          { tp with sndHoles := w.passed ++ w.rest, sndNumholes := w.numholes } :=
        scored_iff.mpr ⟨hw, hnum', fun _ => hlast⟩
      dsimp only
      split_ifs with hnobufs happend hget
      · exact ⟨_, _, rfl, hplain, rfl, rfl⟩
      · exact ⟨_, _, rfl, hplain, rfl, rfl⟩
      · rw [hbehind] at happend
        -- the block lies beyond all holes, so the walk has passed them all
        have hbeyond := walk_beyond hack hstart hend tp.maxseg tp.sndNumholes [] tp.sndHoles
          (fun x hx => ⟨hboard.each x hx, (hboard.each x hx).high.trans happend.le⟩)
        rw [hwalk, Option.some.injEq] at hbeyond
        have hrest : w.rest = [] := by rw [hbeyond]
        have hpassed : w.passed ≠ [] := by
          rw [hbeyond, hholes]
          exact cons_ne_nil _ _
        rw [hrest, append_nil] at hw hnum'
        unfold appendHole
        rw [if_pos hpassed]
        refine ⟨_, _, rfl, scored_iff.mpr ⟨board_append.mpr ⟨hw.mono le_rfl ?_, ?_, ?_⟩, ?_,
          fun _ => hhigh⟩, rfl, rfl⟩
        · exact (happend.trans hend).le
        · apply board_single
          refine ⟨?_, happend, hend.le, le_rfl, happend.le⟩
          show pos tp.sndUna ack ≤ pos tp.sndUna tp.rcvLastsack
          omega
        · exact fun x hx => forall_mem_singleton.mpr (hw.each x hx).high
        · rw [hnum', length_append]
          rfl
      · exact ⟨_, _, rfl, hplain, rfl, rfl⟩

end Option

theorem sackBlocks_scored {blocks : List Sackblk} (hack : 0 ≤ pos tp.sndUna ack)
    (hle : pos tp.sndUna ack ≤ pos tp.sndUna tp.sndMax) (hmax : pos tp.sndUna tp.sndMax ≤ 2 ^ 30)
    (h : Scored ack tp) (hbegins : ∀ sack ∈ blocks, Begins tp ack sack) :
    ∃ tp', sackBlocks tp ack blocks = some tp' ∧ Scored ack tp' ∧ SameWindow tp tp' := by
  induction blocks generalizing tp with
  | nil => exact ⟨tp, rfl, h, rfl, rfl⟩
  | cons sack blocks ih =>
    rw [forall_mem_cons] at hbegins
    obtain ⟨tp', done, hblock, h', hsame⟩ := sackBlock_scored hack hle hmax h hbegins.1
    rw [sackBlocks, hblock]
    cases done with
    | true => exact ⟨tp', rfl, h', hsame⟩
    | false =>
      obtain ⟨tp'', hblocks, h'', hsame'⟩ := ih (by rwa [hsame.1])
        (by rwa [hsame.1, hsame.2]) (by rwa [hsame.1, hsame.2]) h'
        (fun b hb => hsame.begins (hbegins.2 b hb))
      exact ⟨tp'', hblocks, h'', hsame'.1.trans hsame.1, hsame'.2.trans hsame.2⟩

theorem Scored.congr {lo' : Seq} (h : Scored lo tp) (hlo : pos tp.sndUna lo' ≤ pos tp.sndUna lo) :
    Scored lo' tp := { h with board := h.board.mono hlo le_rfl }

theorem tcpSackOption_scored {blocks : List Sackblk} (thAck : Bool)
    (hmax : pos tp.sndUna tp.sndMax ≤ 2 ^ 30) (hmax0 : 0 ≤ pos tp.sndUna tp.sndMax)
    (h : Scored lo tp) (hlo : pos tp.sndUna lo = max 0 (pos tp.sndUna ack))
    (hbegins : ∀ sack ∈ blocks, Begins tp ack sack) :
    ∃ tp', tcpSackOption tp thAck ack blocks = some tp' ∧ Scored lo tp' ∧ SameWindow tp tp' := by
  have hcount : ¬ tp.sndNumholes < 0 := by
    rw [h.numholes]
    omega
  unfold tcpSackOption
  split_ifs with hthAck hwindow
  · exact ⟨tp, rfl, h, rfl, rfl⟩
  · exact ⟨tp, rfl, h, rfl, rfl⟩
  · rw [Bool.not_eq_true, Bool.or_eq_false_iff] at hwindow
    have hack : 0 ≤ pos tp.sndUna ack := by
      have hnot := hwindow.1
      unfold seqLt at hnot
      rw [decide_eq_false_iff_not] at hnot
      exact not_lt.mp hnot
    have hle : pos tp.sndUna ack ≤ pos tp.sndUna tp.sndMax := by
      have hgt : seqGt ack tp.sndMax = true ↔ pos tp.sndUna tp.sndMax < pos tp.sndUna ack :=
        seqGt_iff hack hmax0
      by_contra hlt
      rw [hgt.mpr (not_le.mp hlt)] at hwindow
      cases hwindow.2
    obtain ⟨tp', hblocks, h', hsame⟩ := sackBlocks_scored hack hle hmax (h.congr (by omega)) hbegins
    refine ⟨tp', hblocks, h'.congr ?_, hsame⟩
    rw [hsame.1]
    omega

variable {options : List (List Sackblk)}

theorem tcpDooptions_scored (thAck : Bool) (hmax : pos tp.sndUna tp.sndMax ≤ 2 ^ 30)
    (hmax0 : 0 ≤ pos tp.sndUna tp.sndMax) (h : Scored lo tp)
    (hlo : pos tp.sndUna lo = max 0 (pos tp.sndUna ack))
    (hbegins : ∀ blocks ∈ options, ∀ sack ∈ blocks, Begins tp ack sack) :
    ∃ tp', tcpDooptions tp thAck ack options = some tp' ∧ Scored lo tp' ∧ SameWindow tp tp' := by
  induction options generalizing tp with
  | nil => exact ⟨tp, rfl, h, rfl, rfl⟩
  | cons blocks options ih =>
    rw [forall_mem_cons] at hbegins
    obtain ⟨tp', hoption, h', hsame⟩ := tcpSackOption_scored thAck hmax hmax0 h hlo hbegins.1
    obtain ⟨tp'', hoptions, h'', hsame'⟩ := ih (by rwa [hsame.1, hsame.2])
      (by rwa [hsame.1, hsame.2]) h' (by rwa [hsame.1])
      (fun bs hbs b hb => hsame.begins (hbegins.2 bs hbs b hb))
    refine ⟨tp'', ?_, h'', hsame'.1.trans hsame.1, hsame'.2.trans hsame.2⟩
    rw [tcpDooptions, hoption]
    exact hoptions

/-! ## Acknowledged holes -/

theorem delHoles_board (lastack : Seq) {holes : List Sackhole} (numholes : ℤ)
    (hlo : 0 ≤ pos base lo) (hack : pos base lo ≤ pos base lastack) (h : Board base lo hi holes) :
    Board base lastack hi (delHoles lastack numholes holes).1 ∧
      (delHoles lastack numholes holes).2 - (delHoles lastack numholes holes).1.length =
        numholes - holes.length := by
  induction holes generalizing numholes with
  | nil => exact ⟨board_nil, rfl⟩
  | cons cur rest ih =>
    obtain ⟨hcur, hrest, hafter⟩ := board_cons.mp h
    have hlow := hcur.low
    have hne := hcur.nonempty
    have hrx := hcur.start_le
    have hend : seqLeq cur.end_ lastack = true ↔ pos base cur.end_ ≤ pos base lastack :=
      seqLeq_iff (by omega) (by omega)
    have hstart : seqLt cur.start lastack = true ↔ pos base cur.start < pos base lastack :=
      seqLt_iff (by omega) (by omega)
    have hrxmit : seqLt cur.rxmit lastack = true ↔ pos base cur.rxmit < pos base lastack :=
      seqLt_iff (by omega) (by omega)
    simp only [delHoles, hend, hstart]
    -- the holes behind one that is left lie above the acknowledgement
    have hkeep : ¬ pos base cur.end_ ≤ pos base lastack → Board base lastack hi rest := by
      intro hlt
      refine ⟨fun h' hh' => ?_, hrest.sorted⟩
      have hnext := hafter h' hh'
      exact { hrest.each h' hh' with low := by omega }
    by_cases hgone : pos base cur.end_ ≤ pos base lastack
    · rw [if_pos hgone]
      obtain ⟨hboard, hnum⟩ := ih (numholes - 1) hrest
      refine ⟨hboard, ?_⟩
      rw [length_cons]
      omega
    · rw [if_neg hgone]
      by_cases hcut : pos base cur.start < pos base lastack
      · rw [if_pos hcut]
        have hrange : pos base lastack ≤
            pos base (if seqLt cur.rxmit lastack then lastack else cur.rxmit) ∧
            pos base (if seqLt cur.rxmit lastack then lastack else cur.rxmit) ≤
              pos base cur.end_ := by
          split_ifs with hlt
          · exact ⟨le_rfl, (not_le.mp hgone).le⟩
          · exact ⟨not_lt.mp (fun hless => hlt (hrxmit.mpr hless)), hcur.le_end⟩
        exact ⟨board_cons.mpr ⟨⟨le_rfl, not_le.mp hgone, hcur.high, hrange.1, hrange.2⟩,
          hkeep hgone, hafter⟩, rfl⟩
      · rw [if_neg hcut]
        exact ⟨board_cons.mpr ⟨{ hcur with low := not_lt.mp hcut }, hkeep hgone, hafter⟩, rfl⟩

def lastack (tp : Tcpcb) (ack : Seq) : Seq := if seqGt ack tp.sndUna then ack else tp.sndUna

theorem lastack_pos (tp : Tcpcb) (ack : Seq) :
    pos tp.sndUna (lastack tp ack) = max 0 (pos tp.sndUna ack) := by
  unfold lastack
  have hgt : seqGt ack tp.sndUna = decide (0 < pos tp.sndUna ack) := rfl
  rw [hgt]
  by_cases hpos : 0 < pos tp.sndUna ack
  · rw [decide_eq_true hpos, if_pos rfl, max_eq_right hpos.le]
  · rw [decide_eq_false hpos, if_neg Bool.false_ne_true, pos_self, max_eq_left (not_lt.mp hpos)]

theorem tcpDelSackholes_scored (h : Scored tp.sndUna tp) :
    Scored (lastack tp ack) (tcpDelSackholes tp ack) := by
  have hself := pos_self tp.sndUna
  have hlast := lastack_pos tp ack
  obtain ⟨hboard, hnum, hle⟩ := scored_iff.mp h
  obtain ⟨hkept, hcount⟩ := delHoles_board (lastack tp ack) tp.sndNumholes
    hself.ge (by omega) hboard
  refine scored_iff.mpr ⟨hkept, ?_, fun hne => hle fun hnil => hne ?_⟩
  · show (delHoles (lastack tp ack) tp.sndNumholes tp.sndHoles).2 =
      ((delHoles (lastack tp ack) tp.sndNumholes tp.sndHoles).1.length : ℤ)
    omega
  · show (delHoles (lastack tp ack) tp.sndNumholes tp.sndHoles).1 = []
    rw [hnil]
    rfl

/-! ## Steps -/

/-- Blocks begin where they should, and not too much data is under way. -/
def Fits (tp : Tcpcb) : Event → Prop
  | .ack _ ack options _ => ∀ blocks ∈ options, ∀ sack ∈ blocks, Begins tp ack sack
  | .send len => pos tp.sndUna tp.sndMax + len ≤ 2 ^ 30
  | .retransmit _ _ => True

structure Inv (tp : Tcpcb) : Prop where
  scored : Scored tp.sndUna tp
  max_nonneg : 0 ≤ pos tp.sndUna tp.sndMax
  max_le : pos tp.sndUna tp.sndMax ≤ 2 ^ 30

theorem Board.move {holes : List Sackhole} (h : Board base lo hi holes) (hlo : 0 ≤ pos base lo) :
    Board lo lo hi holes := by
  have hle : ∀ a b, pos base lo ≤ pos base a → pos base a ≤ pos base b → pos lo a ≤ pos lo b := by
    intro a b ha hab
    rw [pos_of_pos hlo ha, pos_of_pos hlo (ha.trans hab)]
    omega
  have hin : ∀ x ∈ holes, HoleIn lo lo hi x := by
    intro x hx
    have hx' := h.each x hx
    have hend := hx'.low.trans hx'.nonempty.le
    refine ⟨hle _ _ le_rfl hx'.low, ?_, hle _ _ hend hx'.high, hle _ _ hx'.low hx'.start_le,
      hle _ _ (hx'.low.trans hx'.start_le) hx'.le_end⟩
    rw [pos_of_pos hlo hx'.low, pos_of_pos hlo hend]
    exact sub_lt_sub_right hx'.nonempty _
  refine ⟨hin, h.sorted.imp_of_mem ?_⟩
  intro x y hx hy hxy
  have hx' := h.each x hx
  exact hle _ _ (hx'.low.trans hx'.nonempty.le) hxy

theorem scored_move (h : Scored ack tp) (hack : 0 ≤ pos tp.sndUna ack) :
    Scored ack { tp with sndUna := ack } := by
  obtain ⟨hboard, hnum, hle⟩ := scored_iff.mp h
  refine scored_iff.mpr ⟨hboard.move hack, hnum, fun hne => ?_⟩
  obtain ⟨x, hx⟩ := exists_mem_of_ne_nil _ hne
  have hx' := hboard.each x hx
  have hlast := hx'.low.trans (hx'.nonempty.le.trans hx'.high)
  rw [pos_of_pos hack hlast, pos_of_pos hack (hlast.trans (hle hne))]
  exact sub_le_sub_right (hle hne) _

theorem ack_inv (thAck used : Bool) (h : Inv tp)
    (hfits : ∀ blocks ∈ options, ∀ sack ∈ blocks, Begins tp ack sack) :
    ∃ tp', step tp (.ack thAck ack options used) = some tp' ∧ Inv tp' := by
  have hlast := lastack_pos tp ack
  have hdel : Scored (lastack tp ack) (tcpDelSackholes tp ack) := tcpDelSackholes_scored h.scored
  have hdone : ∃ tp', tcpDooptions (tcpDelSackholes tp ack) thAck ack options = some tp' ∧
      Scored (lastack tp ack) tp' ∧ SameWindow (tcpDelSackholes tp ack) tp' :=
    tcpDooptions_scored thAck h.max_le h.max_nonneg hdel hlast hfits
  obtain ⟨tp', hoptions, h', huna, hmax⟩ := hdone
  change tp'.sndUna = tp.sndUna at huna
  change tp'.sndMax = tp.sndMax at hmax
  refine ⟨_, by rw [step, hoptions]; rfl, ?_⟩
  have hnonneg := h.max_nonneg
  have hle := h.max_le
  dsimp only
  split_ifs with hused
  · simp only [Bool.and_eq_true] at hused
    obtain ⟨⟨-, hgt⟩, hmost⟩ := hused
    rw [huna] at hgt
    rw [hmax] at hmost
    have hpos : 0 < pos tp.sndUna ack := of_decide_eq_true hgt
    have hack : pos tp.sndUna ack ≤ pos tp.sndUna tp.sndMax := by
      by_contra hlt
      have hiff : seqGt ack tp.sndMax = true ↔ pos tp.sndUna tp.sndMax < pos tp.sndUna ack :=
        seqGt_iff hpos.le hnonneg
      rw [hiff.mpr (not_le.mp hlt)] at hmost
      cases hmost
    have hscored : Scored ack tp' := h'.congr (by rw [huna]; omega)
    have hmoved := pos_of_pos hpos.le hack
    refine ⟨scored_move hscored (by rw [huna]; exact hpos.le), ?_, ?_⟩
    · show 0 ≤ pos ack tp'.sndMax
      rw [hmax]
      omega
    · show pos ack tp'.sndMax ≤ _
      rw [hmax]
      omega
  · refine ⟨h'.congr ?_, ?_, ?_⟩
    · rw [huna, pos_self]
      omega
    · rwa [huna, hmax]
    · rwa [huna, hmax]

theorem send_inv {len : ℕ} (h : Inv tp) (hfits : pos tp.sndUna tp.sndMax + len ≤ 2 ^ 30) :
    Inv { tp with sndMax := tp.sndMax + BitVec.ofNat 32 len } := by
  have hadd : pos tp.sndUna (tp.sndMax + BitVec.ofNat 32 len) = pos tp.sndUna tp.sndMax + len :=
    pos_add (by omega)
  have hnonneg := h.max_nonneg
  obtain ⟨hboard, hnum, hle⟩ := scored_iff.mp h.scored
  refine ⟨scored_iff.mpr ⟨hboard, hnum, fun hne => (hle hne).trans ?_⟩, ?_, ?_⟩
  · show pos tp.sndUna tp.sndMax ≤ pos tp.sndUna (_ + _)
    omega
  · show 0 ≤ pos tp.sndUna (_ + _)
    omega
  · show pos tp.sndUna (_ + _) ≤ _
    omega

theorem HoleIn.rexmit (len : ℕ) (hlo : 0 ≤ pos base lo) (hh : HoleIn base lo hi h) :
    HoleIn base lo hi (rexmit len h) := by
  have hlow := hh.low
  have hstart := hh.start_le
  have hend := hh.le_end
  have hlt := pos_lt base h.end_
  have hleft := toNat_sub hend (by omega)
  have hadd : pos base (h.rxmit + BitVec.ofNat 32 (min len (h.end_ - h.rxmit).toNat)) =
      pos base h.rxmit + (min len (h.end_ - h.rxmit).toNat : ℕ) := pos_add (by omega)
  constructor
  · exact hh.low
  · exact hh.nonempty
  · exact hh.high
  · show pos base h.start ≤ pos base (h.rxmit + _)
    omega
  · show pos base (h.rxmit + _) ≤ pos base h.end_
    omega

theorem board_modify {holes : List Sackhole} (len : ℕ) (hlo : 0 ≤ pos base lo)
    (hboard : Board base lo hi holes) (i : ℕ) : Board base lo hi (holes.modify i (rexmit len)) := by
  by_cases hi : i < holes.length
  · have hsplit : holes = holes.take i ++ holes[i] :: holes.drop (i + 1) := by simp
    rw [hsplit] at hboard
    have hnew := hboard.replace (board_single ((hboard.each _ (by simp)).self.rexmit len ?_))
    · rwa [append_assoc, singleton_append, ← modify_eq_take_cons_drop hi] at hnew
    · exact hlo.trans (hboard.each _ (by simp)).low
  · rwa [modify_eq_self (not_lt.mp hi)]

theorem retransmit_inv (h : Inv tp) (i len : ℕ) :
    Inv { tp with sndHoles := tp.sndHoles.modify i (rexmit len) } := by
  obtain ⟨hboard, hnum, hle⟩ := scored_iff.mp h.scored
  refine ⟨scored_iff.mpr ⟨board_modify len (pos_self tp.sndUna).ge hboard i, ?_, ?_⟩,
    h.max_nonneg, h.max_le⟩
  · rwa [length_modify]
  · intro hne
    apply hle
    rintro hnil
    rw [hnil, modify_nil] at hne
    exact hne rfl

theorem step_inv {event : Event} (h : Inv tp) (hfits : Fits tp event) :
    ∃ tp', step tp event = some tp' ∧ Inv tp' := by
  cases event with
  | ack thAck ack options used => exact ack_inv thAck used h hfits
  | send len => exact ⟨_, rfl, send_inv h hfits⟩
  | retransmit i len => exact ⟨_, rfl, retransmit_inv h i len⟩

/-! ## Runs -/

theorem inv_of_run {iss lastsack : Seq} {maxseg : ℕ}
    (hrun : Run.GuardedRun step Fits (start iss lastsack maxseg) tp) : Inv tp := by
  apply Run.GuardedRun.invariant (P := Inv) _ _ hrun
  · have hself := pos_self iss
    refine ⟨⟨board_nil, rfl, ?_, fun hne => absurd rfl hne⟩, hself.ge, ?_⟩
    · exact nofun
    · exact hself.trans_le (by norm_num)
  · intro before event after hinv hfits hstep
    obtain ⟨tp', hstep', hinv'⟩ := step_inv hinv hfits
    cases hstep.symm.trans hstep'
    exact hinv'

/-- While blocks begin above the acknowledgement, the scoreboard is in order and no step
follows a NULL pointer. -/
theorem sack_scoreboard (iss lastsack : Seq) (maxseg : ℕ)
    (hrun : Run.GuardedRun step Fits (start iss lastsack maxseg) tp) :
    Scored tp.sndUna tp ∧ ∀ event, Fits tp event → ∃ tp', step tp event = some tp' := by
  have h := inv_of_run hrun
  refine ⟨h.scored, fun event hfits => ?_⟩
  obtain ⟨tp', hstep, -⟩ := step_inv h hfits
  exact ⟨tp', hstep⟩

instance (tp : Tcpcb) (event : Event) : Decidable (Fits tp event) :=
  match event with
  | .ack _ _ options _ =>
    inferInstanceAs (Decidable (∀ blocks ∈ options, ∀ sack ∈ blocks, _ → _))
  | .send _ => inferInstanceAs (Decidable (_ ≤ _))
  | .retransmit .. => isTrue trivial

def threeBlocks : List Event :=
  [.send 100,
    .ack true 0 [[⟨10, 20, true, true⟩, ⟨60, 70, true, true⟩], [⟨30, 40, true, true⟩]] true]

theorem sack_scoreboard_three_blocks :
    (Run.execD step Fits (start 0 0 10) threeBlocks).sndHoles.map (fun h => (h.start, h.end_)) =
        [(0, 10), (20, 30), (40, 60)] ∧
      Scored (Run.execD step Fits (start 0 0 10) threeBlocks).sndUna
        (Run.execD step Fits (start 0 0 10) threeBlocks) :=
  ⟨by decide, (sack_scoreboard 0 0 10 (Run.GuardedRun.of_execD (by decide))).1⟩

def emptyHole : List Event := [.send 100, .ack true 0 [[⟨0, 20, true, true⟩]] true]

theorem empty_hole_made :
    ∃ tp, Run.Reaches step (start 0 0 10) tp ∧
      tp.sndHoles.map (fun h => (h.start, h.end_)) = [(0, 0)] ∧ ¬ Scored tp.sndUna tp := by
  refine ⟨Run.execD step (fun _ _ => True) (start 0 0 10) emptyHole,
    Run.GuardedRun.of_execD (by decide), by decide, fun hall => ?_⟩
  have hne := (hall.board.each ⟨0, 0, 2, 0⟩ (by decide)).nonempty
  exact lt_irrefl _ hne

/-! ## What is sent -/

/-- No byte of a hole is between `nxt` and `nxt'`, and `nxt'` is in a hole or behind all that
was received, if `nxt` is not before the first hole. -/
structure SkipsSacked (base lastsack nxt nxt' : Seq) (holes : List Sackhole) : Prop where
  le : pos base nxt ≤ pos base nxt'
  kept : pos base nxt < pos base nxt' →
    ∀ h ∈ holes, pos base h.end_ ≤ pos base nxt ∨ pos base nxt' ≤ pos base h.start
  skipped : (∃ h ∈ holes, pos base h.start ≤ pos base nxt) → pos base nxt' < pos base lastsack →
    ∃ h ∈ holes, pos base h.start ≤ pos base nxt' ∧ pos base nxt' < pos base h.end_

theorem sackAdjustLoop_skips {nxt : Seq} (hnxt : 0 ≤ pos base nxt) (hlo : 0 ≤ pos base lo)
    (hless : ¬ seqGeq nxt hi) {holes : List Sackhole} (hboard : Board base lo hi holes) :
    SkipsSacked base hi nxt (sackAdjustLoop hi nxt holes) holes := by
  induction holes with
  | nil => exact ⟨le_rfl, nofun, fun ⟨_, hh, _⟩ => absurd hh not_mem_nil⟩
  | cons cur rest ih =>
    obtain ⟨⟨hlow, hnonempty, hhigh, -⟩, hrest, hbehind⟩ := board_cons.mp hboard
    unfold sackAdjustLoop
    split_ifs with hin <;> rw [seqLt_iff hnxt (by omega)] at hin
    · refine ⟨le_rfl, by omega, fun ⟨h, hh, hle⟩ _ => ⟨h, hh, hle, ?_⟩⟩
      rcases mem_cons.mp hh with rfl | hh'
      · exact hin
      · have hafter := hbehind h hh'
        omega
    cases rest with dsimp only
    | nil =>
      rw [seqGeq_iff hnxt (by omega)] at hless
      exact ⟨by omega, fun _ => forall_mem_singleton.mpr (by omega), by omega⟩
    | cons next rest =>
      have hstart := hbehind next mem_cons_self
      split_ifs with hon <;> rw [seqGeq_iff hnxt (by omega)] at hon
      · obtain ⟨hle, hkept, hskipped⟩ := ih hrest
        refine ⟨hle, fun hmoved => forall_mem_cons.mpr ⟨by omega, hkept hmoved⟩, fun _ hmore => ?_⟩
        exact exists_mem_cons_of_exists (hskipped ⟨next, mem_cons_self, hon⟩ hmore)
      · obtain ⟨⟨-, hfilled, -⟩, -, hafter⟩ := board_cons.mp hrest
        refine ⟨by omega, fun _ => ?_, fun _ _ => ⟨next, by simp, le_rfl, hfilled⟩⟩
        refine forall_mem_cons.mpr ⟨by omega, forall_mem_cons.mpr ⟨by omega, fun h hh => ?_⟩⟩
        have hbeyond := hafter h hh
        omega

/-- A segment is data of a hole that was not sent again yet; without one, though `recovering`,
no such data is left in a hole with enough duplicates. -/
def SentFromHole (base : Seq) (holes : List Sackhole) (recovering : Prop) : Option (ℤ × ℕ) → Prop
  | some (off, len) => 0 < len ∧ ∃ h ∈ holes, off = pos base h.rxmit ∧ pos base h.start ≤ off ∧
      off + len ≤ pos base h.end_
  | none => recovering →
      ∀ h ∈ holes, tcprexmtthresh ≤ h.dups → pos base h.rxmit = pos base h.end_

section Run

variable {iss lastsack : Seq} {maxseg : ℕ}
  (hrun : Run.GuardedRun step Fits (start iss lastsack maxseg) tp)

include hrun

theorem board_of_run : Board tp.sndUna tp.sndUna tp.rcvLastsack tp.sndHoles :=
  (scored_iff.mp (inv_of_run hrun).scored).1

/-- After a timeout, `snd_nxt` is moved over received data only, and over all of it up to the
next hole. -/
theorem sack_adjust_skips_sacked (sndNxt : Seq) (hnxt : 0 ≤ pos tp.sndUna sndNxt) :
    SkipsSacked tp.sndUna tp.rcvLastsack sndNxt (tcpSackAdjust tp sndNxt) tp.sndHoles := by
  have hboard := board_of_run hrun
  have huna := pos_self tp.sndUna
  unfold tcpSackAdjust
  split_ifs with hbeyond
  · refine ⟨le_rfl, by omega, fun ⟨h, hh, _⟩ hless => ?_⟩
    obtain ⟨hlow, hnonempty, hhigh, -⟩ := hboard.each h hh
    rw [seqGeq_iff hnxt (by omega)] at hbeyond
    omega
  · exact sackAdjustLoop_skips hnxt huna.ge hbeyond hboard

theorem sack_segment_from_hole (hmaxseg : 0 < tp.maxseg) (sackEnable sendalot : Bool)
    (dupacks : ℕ) :
    SentFromHole tp.sndUna tp.sndHoles
      (sackEnable = true ∧ sendalot = false ∧ tcprexmtthresh ≤ dupacks)
      (sackSegment sackEnable sendalot dupacks tp) := by
  have huna := pos_self tp.sndUna
  unfold sackSegment
  split_ifs with hsend
  swap
  · rintro ⟨henable, halot, hacks⟩
    simp [henable, halot, hacks] at hsend
  simp only [Bool.and_eq_true] at hsend
  rw [tcpSackOutput, hsend.1.1]
  cases hfind : tp.sndHoles.find? _ with
  | none =>
    intro _ h hh hdups
    obtain ⟨hlow, -, -, hstart, hend⟩ := (board_of_run hrun).each h hh
    have hnot := find?_eq_none.mp hfind h hh
    -- no hole is an old one
    have hold : ¬ seqLt h.rxmit tp.sndUna := by
      rw [seqLt_iff (by omega) huna.ge]
      omega
    have hlt : seqLt h.rxmit h.end_ ↔ pos tp.sndUna h.rxmit < pos tp.sndUna h.end_ :=
      seqLt_iff (by omega) (by omega)
    simp [hdups, hold, hlt] at hnot
    omega
  | some h =>
    have hh := mem_of_find?_eq_some hfind
    obtain ⟨hlow, hnonempty, -, hstart, -⟩ := (board_of_run hrun).each h hh
    have hpending := find?_some hfind
    simp only [Bool.and_eq_true] at hpending
    have hlt : pos tp.sndUna h.rxmit < pos tp.sndUna h.end_ :=
      (seqLt_iff (by omega) (by omega)).mp hpending.1.2
    have hend := pos_lt tp.sndUna h.end_
    have hlen := toNat_sub hlt.le (by omega)
    refine ⟨by omega, h, hh, rfl, hstart, ?_⟩
    change pos _ _ + _ ≤ _
    omega

end Run

theorem sack_adjust_three_blocks :
    let tp := Run.execD step Fits (start 0 0 10) threeBlocks
    tcpSackAdjust tp 15 = 20 ∧
      SkipsSacked tp.sndUna tp.rcvLastsack 15 (tcpSackAdjust tp 15) tp.sndHoles :=
  ⟨by decide, sack_adjust_skips_sacked (Run.GuardedRun.of_execD (by decide)) 15 (by decide)⟩

theorem sack_segment_three_blocks :
    let tp := Run.execD step Fits (start 0 0 10) threeBlocks
    sackSegment true false 3 tp = some (0, 10) ∧ SentFromHole tp.sndUna tp.sndHoles
      (true = true ∧ false = false ∧ tcprexmtthresh ≤ 3) (sackSegment true false 3 tp) :=
  ⟨by decide, sack_segment_from_hole (Run.GuardedRun.of_execD (by decide)) (by decide) _ _ _⟩

end AerieKernel.Sack
