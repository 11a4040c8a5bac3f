import AerieKernel.GuardedRuns
import AerieKernel.PfFragmentModel

/-!
# Reassembly

The queue of a datagram holds pieces of its payload under headers of their own,
and the check for completeness adds up the lengths in these headers.  A fragment
that is cut at its front gets a header without the length of the header in
`ip_len`, and a queued fragment that is cut by a part of a unit gets the wrong
offset.  Without these two cuts headers and bytes agree, what is put together is
what was received, and what was received is put together.
-/

namespace AerieKernel.PacketFilter

open List Mbuf

def Mbuf.Carries (m : Mbuf) (position : ℕ) (byte : Byte) : Prop :=
  m.start ≤ position ∧ m.payload[position - m.start]? = some byte

def Held (items : List Mbuf) (position : ℕ) (byte : Byte) : Prop :=
  ∃ m ∈ items, m.Carries position byte

variable {m : Mbuf} {position : ℕ} {byte : Byte}

theorem Mbuf.Carries.lt_stop (hcarries : m.Carries position byte) : position < m.stop := by
  obtain ⟨hstart, hbyte⟩ := hcarries
  obtain ⟨hlt, _⟩ := List.getElem?_eq_some_iff.mp hbyte
  rw [stop]
  omega

theorem Mbuf.exists_carries (hstart : m.start ≤ position) (hstop : position < m.stop) :
    ∃ byte, m.Carries position byte := by
  have hlt : position - m.start < m.payload.length := by
    rw [stop] at hstop
    omega
  exact ⟨_, hstart, getElem?_eq_getElem hlt⟩

variable {ys : List Mbuf}

@[simp] theorem held_append {xs : List Mbuf} :
    Held (xs ++ ys) position byte ↔ Held xs position byte ∨ Held ys position byte := by
  simp only [Held, List.mem_append, or_and_right, exists_or]

@[simp] theorem held_cons :
    Held (m :: ys) position byte ↔ m.Carries position byte ∨ Held ys position byte := by
  simp [Held]

@[simp] theorem not_held_nil : ¬ Held [] position byte := by
  simp [Held]

theorem Mbuf.start_le_stop (m : Mbuf) : m.start ≤ m.stop :=
  Nat.le_add_right _ _

structure PiecesOk (items : List Mbuf) : Prop where
  sound : ∀ m ∈ items, m.Sound
  sorted : items.Pairwise fun m m' => m.stop ≤ m'.start

theorem piecesOk_append {xs : List Mbuf} :
    PiecesOk (xs ++ ys) ↔ PiecesOk xs ∧ PiecesOk ys ∧ ∀ x ∈ xs, ∀ y ∈ ys, x.stop ≤ y.start := by
  constructor
  · rintro ⟨hsound, hsorted⟩
    rw [forall_mem_append] at hsound
    rw [pairwise_append] at hsorted
    exact ⟨⟨hsound.1, hsorted.1⟩, ⟨hsound.2, hsorted.2.1⟩, hsorted.2.2⟩
  · rintro ⟨hxs, hys, hcross⟩
    exact ⟨forall_mem_append.mpr ⟨hxs.sound, hys.sound⟩,
      pairwise_append.mpr ⟨hxs.sorted, hys.sorted, hcross⟩⟩

theorem piecesOk_cons {x : Mbuf} :
    PiecesOk (x :: ys) ↔ x.Sound ∧ (∀ y ∈ ys, x.stop ≤ y.start) ∧ PiecesOk ys := by
  constructor
  · rintro ⟨hsound, hsorted⟩
    rw [forall_mem_cons] at hsound
    rw [pairwise_cons] at hsorted
    exact ⟨hsound.1, hsorted.1, hsound.2, hsorted.2⟩
  · rintro ⟨hx, hfirst, hys⟩
    exact ⟨forall_mem_cons.mpr ⟨hx, hys.sound⟩, pairwise_cons.mpr ⟨hfirst, hys.sorted⟩⟩

/-! ## The cuts -/

/-- The new fragment begins inside a queued one and reaches behind its end. -/
def Overruns (queued m : Mbuf) : Prop :=
  queued.start ≤ m.start ∧ m.start < queued.stop ∧ queued.stop < m.stop

/-- The new fragment ends inside a queued one that begins behind it, and not at a
multiple of eight bytes. -/
def SplitsUnit (queued m : Mbuf) : Prop :=
  m.start < queued.start ∧ queued.start < m.stop ∧ m.stop < queued.stop ∧
    (m.stop - queued.start) % 8 ≠ 0

instance (queued m : Mbuf) : Decidable (Overruns queued m) :=
  inferInstanceAs (Decidable (_ ∧ _ ∧ _))

instance (queued m : Mbuf) : Decidable (SplitsUnit queued m) :=
  inferInstanceAs (Decidable (_ ∧ _ ∧ _ ∧ _))

theorem arriving_of (hsound : m.Sound) : Arriving.of m = ⟨m, m.start, m.payload.length⟩ := by
  have hstop := hsound.stop_le
  rw [ipMaxPacket, stop] at hstop
  rw [Arriving.of, hsound.frIpOff_eq, hsound.ipLen_eq, u16_eq rfl (by omega)]

variable {frep : Mbuf}

theorem cutArriving_spec (hfrep : frep.Sound) (hm : m.Sound)
    (hbelow : frep.start ≤ m.start) (hinside : ¬ Overruns frep m) :
    (m.stop ≤ frep.stop ∧ m.start < frep.stop ∧ cutArriving (some frep) (Arriving.of m) = none) ∨
    (frep.stop ≤ m.start ∧ cutArriving (some frep) (Arriving.of m) = some (Arriving.of m)) := by
  have hstop : frep.stop = frep.start + frep.payload.length := rfl
  have hmstop : m.stop = m.start + m.payload.length := rfl
  have hmax := hfrep.stop_le
  rw [ipMaxPacket] at hmax
  rw [Overruns] at hinside
  simp only [arriving_of hm, cutArriving, hfrep.frIpOff_eq, hfrep.ipLen_eq]
  by_cases hover : m.start < frep.stop
  · left
    have hprecut : u16 ((frep.start : ℤ) + frep.payload.length - m.start) =
        frep.stop - m.start := u16_eq (by omega) (by omega)
    refine ⟨by omega, hover, ?_⟩
    rw [if_pos (by omega), if_pos (by omega)]
  · right
    exact ⟨by omega, by rw [if_neg (by omega)]⟩

def Mbuf.behind (m : Mbuf) (stop : ℕ) : Mbuf :=
  (((m.setLen (u16 (m.ip.len - (stop - m.start : ℕ)))).addOff
    ((stop - m.start) / 8)).adjFront (stop - m.start))

variable {stop : ℕ}

theorem Mbuf.behind_spec (hsound : m.Sound) (hstart : m.start < stop) (hstop : stop < m.stop)
    (haligned : (stop - m.start) % 8 = 0) :
    (m.behind stop).Sound ∧ (m.behind stop).start = stop ∧
      (m.behind stop).stop = m.stop ∧
      ∀ position byte, (m.behind stop).Carries position byte ↔
        stop ≤ position ∧ m.Carries position byte := by
  have hmax := hsound.stop_le
  have hlen := hsound.len_eq
  have hlenLt := hsound.len_lt
  rw [ipMaxPacket] at hmax
  have hmstop : m.stop = m.start + m.payload.length := rfl
  have hmstart : m.start = m.ip.off * 8 := rfl
  have hoff : (m.behind stop).ip.off = stop / 8 := by
    simp only [behind, setLen, addOff, adjFront]
    omega
  have hnewStart : (m.behind stop).start = stop := by
    rw [start]
    omega
  have hpayload : (m.behind stop).payload = m.payload.drop (stop - m.start) := rfl
  have hnewStop : (m.behind stop).stop = m.stop := by
    rw [Mbuf.stop, hpayload, length_drop]
    omega
  have hnewLen : (m.behind stop).ip.len =
      (m.behind stop).hlen + (m.behind stop).payload.length := by
    rw [hpayload, length_drop]
    have hhlen : (m.behind stop).hlen = m.hlen := rfl
    exact u16_eq (by omega) (by omega)
  refine ⟨⟨by omega, ?_, hnewLen, ?_⟩, hnewStart, hnewStop, ?_⟩
  · rw [hnewLen, hpayload, length_drop]
    have hhlen : (m.behind stop).hlen = m.hlen := rfl
    omega
  · rw [hnewStop]
    exact hsound.stop_le
  · intro position byte
    rw [Mbuf.Carries, Mbuf.Carries, hnewStart, hpayload, getElem?_drop]
    by_cases hge : stop ≤ position
    · have hindex : stop - m.start + (position - stop) = position - m.start := by omega
      rw [hindex]
      simp only [hge, true_and, iff_and_self]
      intro _
      omega
    · simp [hge]

structure CutTo (stop : ℕ) (back back' : List Mbuf) : Prop where
  pieces : PiecesOk back'
  above : ∀ m ∈ back', stop ≤ m.start
  origin : ∀ m' ∈ back', ∃ m ∈ back, m'.stop = m.stop ∧ m'.hlen = m.hlen
  held : ∀ position byte, Held back' position byte ↔ stop ≤ position ∧ Held back position byte

theorem cutTo_self {back : List Mbuf} (hpieces : PiecesOk back)
    (habove : ∀ m ∈ back, stop ≤ m.start) : CutTo stop back back := by
  refine ⟨hpieces, habove, fun m hm => ⟨m, hm, rfl, rfl⟩, ?_⟩
  intro position byte
  simp only [iff_and_self]
  rintro ⟨m, hm, hstart, _⟩
  exact (habove m hm).trans hstart

variable {rest : List Mbuf}

theorem CutTo.drop_first {frea : Mbuf} {back' : List Mbuf} (hcut : CutTo stop rest back')
    (hover : frea.stop ≤ stop) : CutTo stop (frea :: rest) back' := by
  refine ⟨hcut.pieces, hcut.above, ?_, ?_⟩
  · exact fun m' hm' => exists_mem_cons_of_exists (hcut.origin m' hm')
  · intro position byte
    rw [hcut.held, held_cons]
    constructor
    · exact fun ⟨hge, hheld⟩ => ⟨hge, .inr hheld⟩
    · rintro ⟨hge, hcarries | hheld⟩
      · have hlt := hcarries.lt_stop
        omega
      · exact ⟨hge, hheld⟩

theorem cutTo_behind {frea : Mbuf} (hpieces : PiecesOk (frea :: rest)) (hstart : frea.start < stop)
    (hstop : stop < frea.stop) (haligned : (stop - frea.start) % 8 = 0) :
    CutTo stop (frea :: rest) (frea.behind stop :: rest) := by
  obtain ⟨hsound, hfirst, hrest⟩ := piecesOk_cons.mp hpieces
  obtain ⟨hnew, hnewStart, hnewStop, hcarries⟩ := frea.behind_spec hsound hstart hstop haligned
  have habove : ∀ m ∈ rest, stop ≤ m.start := fun m hm =>
    hstop.le.trans (hfirst m hm)
  refine ⟨piecesOk_cons.mpr ⟨hnew, hnewStop ▸ hfirst, hrest⟩,
    forall_mem_cons.mpr ⟨hnewStart.ge, habove⟩, forall_mem_cons.mpr
      ⟨⟨frea, by simp, hnewStop, rfl⟩, fun m' hm' => ⟨m', mem_cons_of_mem _ hm', rfl, rfl⟩⟩, ?_⟩
  · intro position byte
    rw [held_cons, held_cons, hcarries, (cutTo_self hrest habove).held]
    tauto

theorem cutQueued_spec {back : List Mbuf} (hm : m.Sound)
    (hpieces : PiecesOk back) (habove : ∀ queued ∈ back, m.start < queued.start)
    (haligned : ∀ queued ∈ back, ¬ SplitsUnit queued m) :
    CutTo m.stop back (cutQueued m.stop back) := by
  induction back with
  | nil => exact cutTo_self hpieces (by simp)
  | cons frea rest ih =>
    obtain ⟨hsound, hfirst, hrest⟩ := piecesOk_cons.mp hpieces
    have hmax := hm.stop_le
    have hnot := haligned frea (by simp)
    have hfrea := habove frea (by simp)
    have hstop : frea.stop = frea.start + frea.payload.length := rfl
    rw [ipMaxPacket] at hmax
    rw [cutQueued, hsound.frIpOff_eq, hsound.ipLen_eq]
    by_cases hreach : frea.start < m.stop
    · have haftercut : u16 ((m.stop : ℤ) - frea.start) =
          m.stop - frea.start := u16_eq (by omega) (by omega)
      rw [if_pos hreach, haftercut]
      by_cases hpart : m.stop < frea.stop
      · rw [if_pos (by omega)]
        apply cutTo_behind hpieces hreach hpart
        by_contra hrem
        exact hnot ⟨hfrea, hreach, hpart, hrem⟩
      · rw [if_neg (by omega)]
        exact (ih hrest (fun queued hqueued => habove queued (by simp [hqueued]))
          (fun queued hqueued => haligned queued (by simp [hqueued]))).drop_first
          (Nat.le_of_not_lt hpart)
    · rw [if_neg hreach]
      refine cutTo_self hpieces
        (forall_mem_cons.mpr ⟨Nat.le_of_not_lt hreach, fun queued hqueued => ?_⟩)
      have hle := hfirst queued hqueued
      omega

/-! ## The new fragment enters the queue -/

def CutsCleanly (items : List Mbuf) (m : Mbuf) : Prop :=
  ∀ queued ∈ items, ¬ Overruns queued m ∧ ¬ SplitsUnit queued m

instance (items : List Mbuf) (m : Mbuf) : Decidable (CutsCleanly items m) :=
  inferInstanceAs (Decidable (∀ queued ∈ items, _))

structure Inserted (m : Mbuf) (items items' : List Mbuf) : Prop where
  pieces : PiecesOk items'
  mem : m ∈ items'
  origin : ∀ piece ∈ items', ∃ old ∈ m :: items, piece.stop = old.stop ∧ piece.hlen = old.hlen
  held : ∀ position byte, Held items' position byte → Held (m :: items) position byte
  covered : ∀ position byte, Held (m :: items) position byte → ∃ byte', Held items' position byte'

theorem inserted_of_cut {front back back' : List Mbuf} (hm : m.Sound) (hfront : PiecesOk front)
    (hbefore : ∀ queued ∈ front, queued.stop ≤ m.start)
    (hbehind : ∀ queued ∈ back, m.start < queued.start) (hcut : CutTo m.stop back back') :
    Inserted m (front ++ back) (front ++ m :: back') := by
  have hproper := m.start_le_stop
  constructor
  · refine piecesOk_append.mpr ⟨hfront, piecesOk_cons.mpr ⟨hm, hcut.above, hcut.pieces⟩, ?_⟩
    intro x hx
    have hle := hbefore x hx
    refine forall_mem_cons.mpr ⟨hle, fun y hy => ?_⟩
    have habove := hcut.above y hy
    omega
  · simp
  · refine forall_mem_append.mpr ⟨fun piece hpiece => ⟨piece, by simp [hpiece], rfl, rfl⟩,
      forall_mem_cons.mpr ⟨⟨m, by simp, rfl, rfl⟩, fun piece hpiece => ?_⟩⟩
    obtain ⟨old, hold, hsame⟩ := hcut.origin piece hpiece
    exact ⟨old, by simp [hold], hsame⟩
  · intro position byte hheld
    rw [held_append, held_cons, hcut.held] at hheld
    rw [held_cons, held_append]
    tauto
  · intro position byte hheld
    rw [held_cons, held_append] at hheld
    rcases hheld with hnew | hold | hold
    · exact ⟨byte, by simp [hnew]⟩
    · exact ⟨byte, by simp [hold]⟩
    · -- a byte behind the new fragment stays, one inside it is its own
      by_cases hafter : m.stop ≤ position
      · have hkept := (hcut.held position byte).mpr ⟨hafter, hold⟩
        exact ⟨byte, by simp [hkept]⟩
      · obtain ⟨queued, hqueued, hstart, _⟩ := hold
        have hlt := hbehind queued hqueued
        obtain ⟨byte', hown⟩ := exists_carries (hlt.le.trans hstart) (Nat.lt_of_not_le hafter)
        exact ⟨byte', by simp [hown]⟩

variable {frag : Fragment Mbuf}

theorem queueFragment_spec (mff : Bool) (hm : m.Sound) (hpieces : PiecesOk frag.items)
    (hclean : CutsCleanly frag.items m) :
    (queueFragment frag m mff = none ∧
      ∃ queued ∈ frag.items, queued.start ≤ m.start ∧ m.stop ≤ queued.stop) ∨
    ∃ items', queueFragment frag m mff = some { frag.note m.stop mff with items := items' } ∧
      Inserted m frag.items items' := by
  have hsorted : frag.items.Pairwise fun x y => x.frIpOff ≤ y.frIpOff := by
    apply hpieces.sorted.imp_of_mem
    intro x y hx hy hle
    rw [(hpieces.sound x hx).frIpOff_eq, (hpieces.sound y hy).frIpOff_eq]
    exact x.start_le_stop.trans hle
  have hmax : u16 ((m.payload.length : ℤ) + m.start) = m.stop := by
    have hle := hm.stop_le
    rw [ipMaxPacket] at hle
    exact u16_eq (by simp [stop, add_comm]) (by omega)
  have hstop : m.payload.length + m.start = m.stop := Nat.add_comm _ _
  have hsplit := passed_append_notPassed frIpOff m.start frag.items
  have hbelow : ∀ x ∈ passed frIpOff m.start frag.items,
      x.frIpOff ≤ m.start := fun _ => le_of_mem_passed
  have habove : ∀ x ∈ notPassed frIpOff m.start frag.items,
      m.start < x.frIpOff := fun _ => lt_of_mem_notPassed hsorted
  rw [queueFragment]
  simp only [arriving_of hm, hmax]
  generalize passed frIpOff m.start frag.items = front at *
  generalize notPassed frIpOff m.start frag.items = back at *
  rw [← hsplit] at hpieces hclean ⊢
  obtain ⟨hfront, hback, _⟩ := piecesOk_append.mp hpieces
  have hbehind : ∀ queued ∈ back, m.start < queued.start := by
    intro queued hqueued
    rw [← (hback.sound queued hqueued).frIpOff_eq]
    exact habove queued hqueued
  have hcut := cutQueued_spec hm hback hbehind fun queued hqueued =>
    (hclean queued (by simp [hqueued])).2
  rcases eq_nil_or_concat front with rfl | ⟨init, frep, rfl⟩
  · right
    refine ⟨_, ?_, inserted_of_cut hm hfront (by simp) hbehind hcut⟩
    simp [cutArriving, hstop]
  · rw [concat_eq_append] at *
    have hfrep : frep ∈ init ++ [frep] := by
      simp
    have hsound := hfront.sound frep hfrep
    have hstart : frep.start ≤ m.start := by
      rw [← hsound.frIpOff_eq]
      exact hbelow frep hfrep
    rw [getLast?_concat, ← arriving_of hm]
    rcases cutArriving_spec hsound hm hstart (hclean frep (mem_append_left _ hfrep)).1 with
        ⟨hinside, _, heq⟩ | ⟨hafter, heq⟩
    · left
      rw [heq]
      exact ⟨rfl, frep, mem_append_left _ hfrep, hstart, hinside⟩
    · right
      have hbefore : ∀ queued ∈ init ++ [frep], queued.stop ≤ m.start := by
        intro queued hqueued
        rcases List.mem_append.mp hqueued with hqueued | hqueued
        · have hle := (piecesOk_append.mp hfront).2.2 queued hqueued frep (by simp)
          exact hle.trans hstart
        · rw [mem_singleton.mp hqueued]
          exact hafter
      refine ⟨_, ?_, inserted_of_cut hm hfront hbefore hbehind hcut⟩
      rw [heq, arriving_of hm]
      simp [hstop]

/-! ## The check for completeness -/

section Scan

variable {frMax : ℕ} {items : List Mbuf}

variable {off : ℕ}

theorem scanQueue_cons
    (hpieces : PiecesOk (frep :: rest)) (hfit : off + frep.payload.length ≤ ipMaxPacket) :
    scanQueue frMax off (frep :: rest) =
      if off + frep.payload.length < frMax ∧
          rest.head?.map start ≠ some (off + frep.payload.length) then
        none
      else scanQueue frMax (off + frep.payload.length) rest := by
  obtain ⟨hsound, _, hrest⟩ := piecesOk_cons.mp hpieces
  have hsum : u16 ((off : ℤ) + frep.payload.length) = off + frep.payload.length := by
    rw [ipMaxPacket] at hfit
    exact u16_eq (by simp) (by omega)
  have hnext : rest.head?.map frIpOff = rest.head?.map start := by
    cases rest with
    | nil => rfl
    | cons next others =>
      simp [(hrest.sound next (by simp)).frIpOff_eq]
  rw [scanQueue, hsound.ipLen_eq, hsum, hnext]

theorem scanQueue_sound {total : ℕ} (hpieces : PiecesOk items)
    (hstarts : ∀ m ∈ items, off ≤ m.start) (hstops : ∀ m ∈ items, m.stop ≤ frMax)
    (hoff : off ≤ frMax) (hmax : frMax ≤ ipMaxPacket)
    (hscan : scanQueue frMax off items = some total) (htotal : frMax ≤ total) : total = frMax ∧
      (items.flatMap payload).length = frMax - off ∧
      ∀ i byte, (items.flatMap payload)[i]? = some byte → Held items (off + i) byte := by
  induction items generalizing off with
  | nil =>
    simp only [scanQueue, Option.some.injEq] at hscan
    simp
    omega
  | cons frep rest ih =>
    obtain ⟨_, hfirst, hrest⟩ := piecesOk_cons.mp hpieces
    have hstart := hstarts frep (by simp)
    have hstop := hstops frep (by simp)
    have hlength : frep.stop = frep.start + frep.payload.length := rfl
    rw [scanQueue_cons hpieces (by omega)] at hscan
    split_ifs at hscan with hmissing
    -- a gap before the piece would show in the sum
    have hat : frep.start = off := by
      by_cases hshort : off + frep.payload.length < frMax
      · have hnext : rest.head?.map start = some (off + frep.payload.length) := by
          by_contra hne
          exact hmissing ⟨hshort, hne⟩
        obtain ⟨next, hhead, hsame⟩ := Option.map_eq_some_iff.mp hnext
        have hle := hfirst next (mem_of_head? hhead)
        omega
      · omega
    obtain ⟨htotal, hjoined, hheld⟩ := ih hrest (fun m hm => by have hle := hfirst m hm; omega)
      (fun m hm => hstops m (by simp [hm])) (by omega) hscan
    refine ⟨htotal, ?_, ?_⟩
    · rw [flatMap_cons, length_append]
      omega
    · intro i byte hbyte
      rw [flatMap_cons, getElem?_append] at hbyte
      rw [held_cons]
      split_ifs at hbyte with hi
      · left
        refine ⟨by omega, ?_⟩
        rw [hat, Nat.add_sub_cancel_left]
        exact hbyte
      · right
        have hposition : off + frep.payload.length + (i - frep.payload.length) = off + i := by omega
        rw [← hposition]
        exact hheld _ _ hbyte

theorem start_of_covered (hpieces : PiecesOk (frep :: rest)) (hstart : off ≤ frep.start)
    (hstop : frep.stop ≤ frMax) (hcovered : ∀ position, off ≤ position → position < frMax →
      ∃ byte, Held (frep :: rest) position byte) : frep.start = off := by
  have hproper := frep.start_le_stop
  by_cases hend : frMax ≤ off
  · omega
  · obtain ⟨byte, hheld⟩ := hcovered off le_rfl (Nat.lt_of_not_le hend)
    rcases held_cons.mp hheld with ⟨hle, _⟩ | ⟨other, hother, hle, _⟩
    · omega
    · have hbefore := (piecesOk_cons.mp hpieces).2.1 other hother
      omega

theorem scanQueue_complete (hpieces : PiecesOk items) (hstarts : ∀ m ∈ items, off ≤ m.start)
    (hstops : ∀ m ∈ items, m.stop ≤ frMax) (hoff : off ≤ frMax) (hmax : frMax ≤ ipMaxPacket)
    (hcovered : ∀ position, off ≤ position → position < frMax → ∃ byte, Held items position byte) :
    scanQueue frMax off items = some frMax := by
  induction items generalizing off with
  | nil =>
    have heq : off = frMax := by
      by_contra hne
      obtain ⟨byte, hheld⟩ := hcovered off le_rfl (by omega)
      exact not_held_nil hheld
    rw [scanQueue, heq]
  | cons frep rest ih =>
    obtain ⟨_, hfirst, hrest⟩ := piecesOk_cons.mp hpieces
    have hstop := hstops frep (by simp)
    have hlength : frep.stop = frep.start + frep.payload.length := rfl
    have hat := start_of_covered hpieces (hstarts frep (by simp)) hstop hcovered
    have hsum : off + frep.payload.length = frep.stop := by
      omega
    have hrestCovered : ∀ position, frep.stop ≤ position →
        position < frMax → ∃ byte, Held rest position byte := by
      intro position hge hlt
      obtain ⟨byte, hheld⟩ := hcovered position (by omega) hlt
      rcases held_cons.mp hheld with hcarries | hheld
      · have hinside := hcarries.lt_stop
        omega
      · exact ⟨byte, hheld⟩
    have hrestStops : ∀ m ∈ rest, m.stop ≤ frMax := fun m hm =>
      hstops m (by simp [hm])
    rw [scanQueue_cons hpieces (by omega), hsum, if_neg]
    · exact ih hrest hfirst hrestStops hstop hrestCovered
    · rintro ⟨hshort, hmissing⟩
      cases rest with
      | nil =>
        obtain ⟨byte, hheld⟩ := hrestCovered frep.stop le_rfl hshort
        exact not_held_nil hheld
      | cons next others =>
        apply hmissing
        rw [head?_cons, Option.map_some,
          start_of_covered hrest (hfirst next (by simp)) (hrestStops next (by simp)) hrestCovered]

end Scan

/-! ## The descriptor -/

structure QueueOk (received : List Mbuf) (frag : Fragment Mbuf) : Prop where
  pieces : PiecesOk frag.items
  nonempty : frag.items ≠ []
  le_max : ∀ m ∈ frag.items, m.stop ≤ frag.frMax
  max_le : frag.frMax ≤ ipMaxPacket
  held : ∀ position byte, Held frag.items position byte → Held received position byte
  last : frag.seenLast = true → ∃ m ∈ received, m.ip.mf = false

variable {received : List Mbuf}

theorem QueueOk.insert {items' : List Mbuf} (hok : QueueOk received frag)
    (hm : m.Sound) (hinserted : Inserted m frag.items items') :
    QueueOk (received ++ [m])
      { frag.note m.stop m.ip.mf with items := items' } := by
  have hmax := frag.note_frMax m.stop m.ip.mf
  constructor
  · exact hinserted.pieces
  · exact ne_nil_of_mem hinserted.mem
  · intro piece hpiece
    obtain ⟨old, hold, hstop, _⟩ := hinserted.origin piece hpiece
    simp only [hmax, hstop]
    rcases mem_cons.mp hold with rfl | hold
    · exact le_max_right _ _
    · exact (hok.le_max old hold).trans (le_max_left _ _)
  · simp only [hmax]
    exact Nat.max_le.mpr ⟨hok.max_le, hm.stop_le⟩
  · intro position byte hheld
    rw [held_append, held_cons]
    rcases held_cons.mp (hinserted.held position byte hheld) with hnew | hold
    · exact .inr (.inl hnew)
    · exact .inl (hok.held position byte hold)
  · intro hseen
    simp only [Fragment.note, Bool.or_eq_true, Bool.not_eq_true'] at hseen
    rcases hseen with hseen | hlast
    · obtain ⟨old, hold, hmf⟩ := hok.last hseen
      exact ⟨old, by simp [hold], hmf⟩
    · exact ⟨m, by simp, hlast⟩

theorem QueueOk.weaken (hok : QueueOk received frag) (m : Mbuf) :
    QueueOk (received ++ [m]) frag := by
  refine ⟨hok.pieces, hok.nonempty, hok.le_max, hok.max_le, ?_, ?_⟩
  · intro position byte hheld
    rw [held_append]
    exact .inl (hok.held position byte hheld)
  · intro hseen
    obtain ⟨old, hold, hmf⟩ := hok.last hseen
    exact ⟨old, by simp [hold], hmf⟩

theorem queueOk_first (received : List Mbuf) (hm : m.Sound) :
    QueueOk (received ++ [m]) (({ items := [m] } : Fragment Mbuf).note m.stop m.ip.mf) := by
  have hmax := ({ items := [m] } : Fragment Mbuf).note_frMax m.stop m.ip.mf
  constructor
  · exact piecesOk_cons.mpr ⟨hm, by simp, by simp, List.Pairwise.nil⟩
  · simp [Fragment.note]
  · rw [hmax]
    simp [Fragment.note]
  · rw [hmax]
    simpa using hm.stop_le
  · intro position byte hheld
    rw [held_append]
    exact .inr hheld
  · intro hseen
    exact ⟨m, by simp, by simpa [Fragment.note] using hseen⟩

theorem finishReassembly_packet {packet : Mbuf}
    (hpacket : (finishReassembly frag).2 = some packet) :
    ∃ off first rest, completeLength frag = some off ∧
      frag.items = first :: rest ∧ first.hlen + off ≤ ipMaxPacket ∧
      packet = joinQueue off first rest := by
  rw [finishReassembly] at hpacket
  split at hpacket
  · rename_i off first rest hcomplete hitems
    split_ifs at hpacket with hbig
    exact ⟨off, first, rest, hcomplete, hitems, Nat.le_of_not_lt hbig,
      (Option.some.inj hpacket).symm⟩
  · simp at hpacket

variable {off : ℕ}

theorem QueueOk.completeLength (hok : QueueOk received frag)
    (hcomplete : completeLength frag = some off) : frag.seenLast = true ∧ off = frag.frMax ∧
      (frag.items.flatMap payload).length = frag.frMax ∧
      ∀ i byte, (frag.items.flatMap payload)[i]? = some byte → Held frag.items i byte := by
  rw [PacketFilter.completeLength] at hcomplete
  split_ifs at hcomplete with hseen
  obtain ⟨hscan, htotal⟩ := Option.filter_eq_some_iff.mp hcomplete
  obtain ⟨hoff, hlength, hheld⟩ := scanQueue_sound hok.pieces (by simp)
    hok.le_max (Nat.zero_le _) hok.max_le hscan (by simpa using htotal)
  exact ⟨hseen, hoff, hlength, by simpa using hheld⟩

theorem QueueOk.packet {packet : Mbuf} (hok : QueueOk received frag)
    (hpacket : (finishReassembly frag).2 = some packet) :
    frag.seenLast = true ∧ packet.payload.length = frag.frMax ∧
      packet.ip.len = packet.hlen + frag.frMax ∧
      ∀ i byte, packet.payload[i]? = some byte → Held frag.items i byte := by
  obtain ⟨off, first, rest, hcomplete, hitems, hfit, rfl⟩ := finishReassembly_packet hpacket
  obtain ⟨hseen, rfl, hlength, hheld⟩ := hok.completeLength hcomplete
  have hjoin : (joinQueue frag.frMax first rest).payload = frag.items.flatMap payload := by
    rw [hitems, flatMap_cons, joinQueue]
  rw [ipMaxPacket] at hfit
  refine ⟨hseen, by rw [hjoin, hlength], ?_, ?_⟩
  · change u16 ((frag.frMax : ℤ) + first.hlen) = first.hlen + frag.frMax
    exact u16_eq (by push_cast; ring) (by omega)
  · intro i byte hbyte
    rw [hjoin] at hbyte
    exact hheld i byte hbyte

def QueueSlotOk (received : List Mbuf) : Option (Fragment Mbuf) → Prop
  | none => True
  | some frag => QueueOk received frag

def EntersCleanly (queue : Option (Fragment Mbuf)) (m : Mbuf) : Prop :=
  ∀ frag, queue = some frag → CutsCleanly frag.items m

variable {alloc : Bool}

theorem enterFragment_new {mff : Bool} (hm : m.Sound)
    (henter : enterFragment alloc none m mff = some frag) :
    frag = ({ items := [m] } : Fragment Mbuf).note m.stop mff := by
  have hmax : u16 ((m.payload.length : ℤ) + m.start) = m.stop := by
    have hle := hm.stop_le
    rw [ipMaxPacket] at hle
    exact u16_eq (by simp [stop, add_comm]) (by omega)
  simp only [enterFragment, arriving_of hm, hmax] at henter
  split_ifs at henter
  exact (Option.some.inj henter).symm

variable {queue : Option (Fragment Mbuf)}

theorem enterFragment_ok (hslot : QueueSlotOk received queue) (hm : m.Sound)
    (hclean : EntersCleanly queue m) (henter : enterFragment alloc queue m m.ip.mf = some frag) :
    QueueOk (received ++ [m]) frag := by
  cases queue with
  | none =>
    rw [enterFragment_new hm henter]
    exact queueOk_first received hm
  | some old =>
    rcases queueFragment_spec m.ip.mf hm (QueueOk.pieces hslot)
      (hclean old rfl) with ⟨hdrop, _⟩ | ⟨items', heq, hinserted⟩
    · rw [enterFragment, hdrop] at henter
      cases henter
    · rw [enterFragment, heq] at henter
      cases henter
      exact QueueOk.insert hslot hm hinserted

theorem pfReassemble_ok (hslot : QueueSlotOk received queue) (hm : m.Sound)
    (hclean : EntersCleanly queue m) :
    QueueSlotOk (received ++ [m]) (pfReassemble alloc queue m m.ip.mf).1 := by
  rw [pfReassemble]
  cases henter : enterFragment alloc queue m m.ip.mf with
  | none =>
    cases queue with
    | none => trivial
    | some frag => exact QueueOk.weaken hslot m
  | some frag =>
    dsimp only [finishReassembly]
    split
    · split_ifs <;> trivial
    · exact enterFragment_ok hslot hm hclean henter

/-! ## Soundness over sequences of fragments -/

structure ReassemblyState where
  datagram : Datagram := {}
  received : List Mbuf := []

variable (rule : ScrubFlags) (state : ReassemblyState) (event : Arrival × NormAlloc)

def reassemblyStep : Option ReassemblyState :=
  some ⟨(pfNormalizeIp rule event.2 event.1.out state.datagram event.1.m).1,
    state.received ++ [clearDf rule event.1.m]⟩

def ScrubFlags.Buffers : Prop :=
  rule.fragCrop = false ∧ rule.fragDrop = false

def GetsToQueue : Prop :=
  Admitted state.datagram.queue (clearDf rule event.1.m) ∧ event.2.frent = true

def ReassemblyGuard : Prop :=
  GetsToQueue rule state event ∧ EntersCleanly state.datagram.queue event.1.m

variable {event : Arrival × NormAlloc}

theorem reassemblyStep_ok {rule : ScrubFlags} (hrule : rule.Buffers)
    {before after : ReassemblyState} (hslot : QueueSlotOk before.received before.datagram.queue)
    (hguard : ReassemblyGuard rule before event)
    (hstep : reassemblyStep rule before event = some after) :
    QueueSlotOk after.received after.datagram.queue := by
  obtain ⟨hgets, hclean⟩ := hguard
  obtain ⟨⟨max, hcheck, hlast⟩, hfrent⟩ := hgets
  have hsound := (checkIp_cases (clearDf_wellFormed event.1.wellFormed) hcheck).1
  cases hstep
  simp only [pfNormalizeIp, hcheck, hlast, hfrent, hrule.1, hrule.2]
  exact pfReassemble_ok hslot hsound hclean

/-- As long as no fragment begins inside a queued one and reaches behind its end
and none takes a part of a unit from a queued one, a packet that `pf_reassemble`
returns has the length `fr_max`, the last fragment has been seen, and each of its
bytes is the byte of a received fragment at the same position. -/
theorem reassembled_from_received {rule : ScrubFlags} (hrule : rule.Buffers)
    {state : ReassemblyState}
    (hrun : Run.GuardedRun (reassemblyStep rule) (ReassemblyGuard rule) {} state)
    {event : Arrival × NormAlloc} (hguard : ReassemblyGuard rule state event)
    {m packet : Mbuf} (hm : clearDf rule event.1.m = m)
    (hpacket : (pfReassemble event.2.frag state.datagram.queue m m.ip.mf).2 = some packet) :
    ∃ frag, enterFragment event.2.frag state.datagram.queue m m.ip.mf = some frag ∧
      frag.seenLast = true ∧ (∃ r ∈ state.received ++ [m], r.ip.mf = false) ∧
      packet.payload.length = frag.frMax ∧ packet.ip.len = packet.hlen + frag.frMax ∧
      ∀ i, i < frag.frMax → ∃ byte r, packet.payload[i]? = some byte ∧
        r ∈ state.received ++ [m] ∧ r.start ≤ i ∧ r.payload[i - r.start]? = some byte := by
  have hslot : QueueSlotOk state.received state.datagram.queue := by
    apply hrun.invariant (P := fun state => QueueSlotOk state.received state.datagram.queue)
    · trivial
    · intro before event after hbefore hguard hstep
      exact reassemblyStep_ok hrule hbefore hguard hstep
  obtain ⟨⟨⟨max, hcheck, _⟩, _⟩, hclean⟩ := hguard
  have hsound := (checkIp_cases (clearDf_wellFormed event.1.wellFormed) hcheck).1
  subst hm
  rw [pfReassemble] at hpacket
  cases henter : enterFragment event.2.frag state.datagram.queue
      (clearDf rule event.1.m) (clearDf rule event.1.m).ip.mf with
  | none =>
    rw [henter] at hpacket
    cases hpacket
  | some frag =>
    rw [henter] at hpacket
    have hok := enterFragment_ok hslot hsound hclean henter
    obtain ⟨hseen, hlength, hlen, hbytes⟩ := hok.packet hpacket
    refine ⟨frag, rfl, hseen, hok.last hseen, hlength, hlen, ?_⟩
    intro i hi
    have hbyte : packet.payload[i]? = some packet.payload[i] := getElem?_eq_getElem (by omega)
    obtain ⟨r, hr, hstart, hsame⟩ := hok.held i _ (hbytes i _ hbyte)
    exact ⟨_, r, hbyte, hr, hstart, hsame⟩

def counting (hl off count : ℕ) (mf : Bool) : Mbuf :=
  { ip := { hl := hl, len := hl * 4 + count, off := off, mf := mf }
    payload := (List.range count).map fun i => BitVec.ofNat 8 (off * 8 + i) }

def countingArrival (hl off count : ℕ) (mf : Bool) : Arrival × NormAlloc :=
  ({ m := counting (hl % 16) (off % 8192) (count % 65000) mf
     wellFormed := by
      refine ⟨Nat.mod_lt _ (by decide), ?_, Nat.mod_lt _ (by decide), fun _ => ?_⟩
      · simp only [counting]
        omega
      · simp [counting, hlen] }, {})

def bufferRule : ScrubFlags := {}

def reassemblyAfter (events : List (Arrival × NormAlloc)) : ReassemblyState :=
  events.foldl (fun state event => (reassemblyStep bufferRule state event).getD state) {}

theorem reassembled_from_received_cut :
    ∃ packet frag,
      (pfReassemble true
        (reassemblyAfter [countingArrival 5 2 16 false]).datagram.queue
        (counting 5 0 24 true) true).2 = some packet ∧ enterFragment true
        (reassemblyAfter [countingArrival 5 2 16 false]).datagram.queue
        (counting 5 0 24 true) true = some frag ∧ packet.payload.length = frag.frMax := by
  have hguard : ReassemblyGuard bufferRule (reassemblyAfter [countingArrival 5 2 16 false])
      (countingArrival 5 0 24 true) := ⟨⟨⟨_, rfl, rfl⟩, rfl⟩, by rintro _ ⟨⟩; decide⟩
  have hrun : Run.GuardedRun (reassemblyStep bufferRule) (ReassemblyGuard bufferRule) {}
      (reassemblyAfter [countingArrival 5 2 16 false]) :=
    (Run.GuardedRun.refl _ _ _).tail
      ⟨countingArrival 5 2 16 false, ⟨⟨⟨_, rfl, rfl⟩, rfl⟩, by rintro _ ⟨⟩⟩, rfl⟩
  obtain ⟨frag, henter, _, _, hlength, _⟩ :=
    reassembled_from_received ⟨rfl, rfl⟩ hrun hguard rfl rfl
  exact ⟨_, frag, rfl, henter, hlength⟩

/-- Fragments with a header of six words: the second begins inside the first and
the third inside what is left of the second. -/
def overrunEvents : List (Arrival × NormAlloc) :=
  [countingArrival 6 0 16 true, countingArrival 6 1 40 true, countingArrival 6 3 24 true]

theorem overrunEvents_run :
    Run.GuardedRun (reassemblyStep bufferRule) (GetsToQueue bufferRule) {}
      (reassemblyAfter overrunEvents) :=
  (((Run.GuardedRun.refl _ _ _).tail ⟨countingArrival 6 0 16 true, ⟨⟨_, rfl, rfl⟩, rfl⟩, rfl⟩).tail
    ⟨countingArrival 6 1 40 true, ⟨⟨_, rfl, rfl⟩, rfl⟩, rfl⟩).tail
    ⟨countingArrival 6 3 24 true, ⟨⟨_, rfl, rfl⟩, rfl⟩, rfl⟩

/-- The second of two fragments without `IP_MF` ends inside the first, and the
third fragment takes the place of the second. -/
def splitEvents : List (Arrival × NormAlloc) :=
  [countingArrival 5 2 20 false, countingArrival 5 1 12 false, countingArrival 5 0 24 true]

theorem splitEvents_run :
    Run.GuardedRun (reassemblyStep bufferRule) (GetsToQueue bufferRule) {}
      (reassemblyAfter splitEvents) :=
  (((Run.GuardedRun.refl _ _ _).tail ⟨countingArrival 5 2 20 false, ⟨⟨_, rfl, rfl⟩, rfl⟩, rfl⟩).tail
    ⟨countingArrival 5 1 12 false, ⟨⟨_, rfl, rfl⟩, rfl⟩, rfl⟩).tail
    ⟨countingArrival 5 0 24 true, ⟨⟨_, rfl, rfl⟩, rfl⟩, rfl⟩

/-- A cut fragment is counted with fewer bytes than it has: eighty bytes are
returned for a datagram of fifty-six, and byte 48 is the one of position 24.  A
queued fragment that loses four bytes keeps its offset: byte 24 is the one of
position 28. -/
theorem reassembled_at_wrong_place :
    (∃ state packet frag,
      Run.GuardedRun (reassemblyStep bufferRule) (GetsToQueue bufferRule) {} state ∧
      GetsToQueue bufferRule state (countingArrival 6 6 8 false) ∧
      (pfReassemble true state.datagram.queue (counting 6 6 8 false) false).2 = some packet ∧
      enterFragment true state.datagram.queue (counting 6 6 8 false) false = some frag ∧
      frag.frMax = 56 ∧ packet.payload.length = 80 ∧ packet.payload[48]? = some 24 ∧
      ∀ r ∈ state.received ++ [counting 6 6 8 false],
        r.payload[48 - r.start]? ≠ some 24 ∨ ¬ r.start ≤ 48) ∧ ∃ state packet,
      Run.GuardedRun (reassemblyStep bufferRule) (GetsToQueue bufferRule) {} state ∧
      GetsToQueue bufferRule state (countingArrival 5 4 4 false) ∧
      (pfReassemble true state.datagram.queue (counting 5 4 4 false) false).2 = some packet ∧
      packet.payload.length = 36 ∧ packet.payload[24]? = some 28 ∧
      ∀ r ∈ state.received ++ [counting 5 4 4 false],
        r.payload[24 - r.start]? ≠ some 28 ∨ ¬ r.start ≤ 24 :=
  ⟨⟨_, _, _, overrunEvents_run, ⟨⟨_, rfl, rfl⟩, rfl⟩, rfl, rfl, rfl, rfl, rfl,
    by decide⟩,
    ⟨_, _, splitEvents_run, ⟨⟨_, rfl, rfl⟩, rfl⟩, rfl, rfl, rfl, by decide⟩⟩

end AerieKernel.PacketFilter
