import AerieKernel.PfReassembly

/-!
# Completeness of reassembly

Fragments are cut from one payload, with whatever overlaps, and handed to
`pf_reassemble` in some order.  If none of them is cut at its front on arrival,
the queue covers what has come so far, and the datagram is put together at the
latest when the last of the fragments comes.
-/

namespace AerieKernel.PacketFilter

open List

structure CutFrom (data : List Byte) (m : Mbuf) : Prop where
  hl : m.ip.hl = 5
  len : m.ip.len = 20 + m.payload.length
  stop_le : m.stop ≤ data.length
  payload : m.payload = (data.drop m.start).take m.payload.length
  mf : m.ip.mf = true ↔ m.stop < data.length

section Delivery

variable {data : List Byte} {received : List Mbuf} {frag : Fragment Mbuf}
  {m : Mbuf}

section

variable (hcut : CutFrom data m)
include hcut

theorem CutFrom.hlen : m.hlen = 20 := by
  rw [Mbuf.hlen, hcut.hl]

theorem CutFrom.sound (hfits : 20 + data.length ≤ ipMaxPacket) : m.Sound := by
  have hstop := hcut.stop_le
  have hlength : m.stop = m.ip.off * 8 + m.payload.length := rfl
  have hlen := hcut.len
  rw [ipMaxPacket] at hfits
  refine ⟨by omega, by omega, ?_, ?_⟩
  · rw [hlen, hcut.hlen]
  · rw [ipMaxPacket]
    omega

theorem CutFrom.mf_eq_false : m.ip.mf = false ↔ m.stop = data.length := by
  have hstop := hcut.stop_le
  rw [← Bool.not_eq_true, hcut.mf]
  omega

theorem CutFrom.byte {position : ℕ} {byte : Byte}
    (hcarries : m.Carries position byte) : data[position]? = some byte := by
  obtain ⟨hstart, hbyte⟩ := hcarries
  rw [hcut.payload, getElem?_take] at hbyte
  split_ifs at hbyte
  rwa [getElem?_drop, Nat.add_sub_cancel' hstart] at hbyte

end

structure Gathers (data : List Byte) (received : List Mbuf) (frag : Fragment Mbuf) : Prop where
  ok : QueueOk received frag
  covered : ∀ position byte, Held received position byte → ∃ byte', Held frag.items position byte'
  hlen : ∀ m ∈ frag.items, m.hlen = 20
  max_le : frag.frMax ≤ data.length
  reaches : ∀ m ∈ frag.items, m.stop = data.length → frag.seenLast = true
  max_eq : frag.seenLast = true → frag.frMax = data.length
  seen : (∃ m ∈ received, m.ip.mf = false) → frag.seenLast = true

theorem gathers_first (hcut : CutFrom data m) (hfits : 20 + data.length ≤ ipMaxPacket) :
    Gathers data [m] (({ items := [m] } : Fragment Mbuf).note m.stop m.ip.mf) := by
  have hmax := ({ items := [m] } : Fragment Mbuf).note_frMax m.stop m.ip.mf
  have hitems : (({ items := [m] } : Fragment Mbuf).note m.stop m.ip.mf).items = [m] := rfl
  have hseen : (({ items := [m] } : Fragment Mbuf).note m.stop m.ip.mf).seenLast = !m.ip.mf := by
    simp [Fragment.note]
  have hend := hcut.mf_eq_false
  constructor
  · exact queueOk_first [] (hcut.sound hfits)
  · exact fun position byte hheld => ⟨byte, hheld⟩
  · simp [hitems, hcut.hlen]
  · rw [hmax]
    exact hcut.stop_le
  · simpa [hitems, hseen] using hend.mpr
  · simpa [hmax, hseen] using hend.mp
  · simp [hseen]

theorem Gathers.insert {items' : List Mbuf} (hgathers : Gathers data received frag)
    (hcut : CutFrom data m) (hfits : 20 + data.length ≤ ipMaxPacket)
    (hinserted : Inserted m frag.items items') :
    Gathers data (received ++ [m])
      { frag.note m.stop m.ip.mf with items := items' } := by
  have hmax := frag.note_frMax m.stop m.ip.mf
  have hend := hcut.mf_eq_false
  constructor
  · exact hgathers.ok.insert (hcut.sound hfits) hinserted
  · intro position byte hheld
    rw [held_append] at hheld
    rcases hheld with hold | hnew
    · obtain ⟨byte', hheld⟩ := hgathers.covered position byte hold
      exact hinserted.covered position byte' (by simp [hheld])
    · exact hinserted.covered position byte (by simpa using Or.inl hnew)
  · intro piece hpiece
    obtain ⟨old, hold, _, hhlen⟩ := hinserted.origin piece hpiece
    rw [hhlen]
    rcases mem_cons.mp hold with rfl | hold
    · exact hcut.hlen
    · exact hgathers.hlen old hold
  · simp only [hmax]
    exact Nat.max_le.mpr ⟨hgathers.max_le, hcut.stop_le⟩
  · intro piece hpiece hstop
    obtain ⟨old, hold, hsame, _⟩ := hinserted.origin piece hpiece
    rw [hsame] at hstop
    simp only [Fragment.note, Bool.or_eq_true, Bool.not_eq_true']
    rcases mem_cons.mp hold with rfl | hold
    · exact .inr (hend.mpr hstop)
    · exact .inl (hgathers.reaches old hold hstop)
  · intro hseen
    simp only [Fragment.note, Bool.or_eq_true, Bool.not_eq_true'] at hseen
    simp only [hmax]
    rcases hseen with hseen | hlast
    · rw [hgathers.max_eq hseen]
      exact max_eq_left hcut.stop_le
    · rw [hend.mp hlast]
      exact max_eq_right hgathers.max_le
  · rintro ⟨r, hr, hlast⟩
    simp only [Fragment.note, Bool.or_eq_true, Bool.not_eq_true']
    rcases List.mem_append.mp hr with hr | hr
    · exact .inl (hgathers.seen ⟨r, hr, hlast⟩)
    · rw [mem_singleton.mp hr] at hlast
      exact .inr hlast

theorem Gathers.drop (hgathers : Gathers data received frag)
    (hcut : CutFrom data m) {queued : Mbuf} (hqueued : queued ∈ frag.items)
    (hstart : queued.start ≤ m.start) (hstop : m.stop ≤ queued.stop) :
    Gathers data (received ++ [m]) frag := by
  have hle := hgathers.ok.le_max queued hqueued
  have hmax := hgathers.max_le
  refine ⟨hgathers.ok.weaken m, ?_, hgathers.hlen, hmax, hgathers.reaches, hgathers.max_eq, ?_⟩
  · intro position byte hheld
    rw [held_append] at hheld
    rcases hheld with hold | hnew
    · exact hgathers.covered position byte hold
    · obtain ⟨r, hr, hcarries⟩ := hnew
      rw [mem_singleton.mp hr] at hcarries
      obtain ⟨byte', hown⟩ := Mbuf.exists_carries
        (hstart.trans hcarries.1) (hcarries.lt_stop.trans_le hstop)
      exact ⟨byte', queued, hqueued, hown⟩
  · rintro ⟨r, hr, hlast⟩
    rcases List.mem_append.mp hr with hr | hr
    · exact hgathers.seen ⟨r, hr, hlast⟩
    · rw [mem_singleton.mp hr, hcut.mf_eq_false] at hlast
      exact hgathers.reaches queued hqueued (by omega)

def CoversAll (data : List Byte) (fragments : List Mbuf) : Prop :=
  ∀ position, position < data.length → ∃ m ∈ fragments, m.start ≤ position ∧ position < m.stop

theorem exists_last (hcut : ∀ m ∈ received, CutFrom data m) (hne : received ≠ [])
    (hcovers : CoversAll data received) : ∃ m ∈ received, m.ip.mf = false := by
  by_cases hempty : data.length = 0
  · obtain ⟨m, hm⟩ := exists_mem_of_ne_nil received hne
    have hle := (hcut m hm).stop_le
    exact ⟨m, hm, (hcut m hm).mf_eq_false.mpr (by omega)⟩
  · obtain ⟨m, hm, _, hlast⟩ := hcovers (data.length - 1) (by omega)
    have hle := (hcut m hm).stop_le
    exact ⟨m, hm, (hcut m hm).mf_eq_false.mpr (by omega)⟩

section

variable (hgathers : Gathers data received frag)
include hgathers

theorem Gathers.packet_eq {packet : Mbuf} (hcut : ∀ m ∈ received, CutFrom data m)
    (hpacket : (finishReassembly frag).2 = some packet) : packet.payload = data := by
  obtain ⟨hseen, hlength, _, hbytes⟩ := hgathers.ok.packet hpacket
  rw [hgathers.max_eq hseen] at hlength
  apply ext_getElem hlength
  intro i hi hdata
  have hbyte : packet.payload[i]? = some packet.payload[i] := getElem?_eq_getElem hi
  obtain ⟨r, hr, hcarries⟩ := hgathers.ok.held i _ (hbytes i _ hbyte)
  have hsame := (hcut r hr).byte hcarries
  rw [getElem?_eq_getElem hdata] at hsame
  exact (Option.some.inj hsame).symm

theorem Gathers.complete
    (hfits : 20 + data.length ≤ ipMaxPacket) (hcut : ∀ m ∈ received, CutFrom data m)
    (hne : received ≠ []) (hcovers : CoversAll data received) :
    ∃ packet, finishReassembly frag = (none, some packet) := by
  have hseen := hgathers.seen (exists_last hcut hne hcovers)
  have hmax := hgathers.max_eq hseen
  have hscan : scanQueue frag.frMax 0 frag.items = some frag.frMax := by
    apply scanQueue_complete hgathers.ok.pieces (by simp) hgathers.ok.le_max
      (Nat.zero_le _) hgathers.ok.max_le
    intro position _ hlt
    obtain ⟨m, hm, hstart, hstop⟩ := hcovers position (by omega)
    obtain ⟨byte, hcarries⟩ := Mbuf.exists_carries hstart hstop
    exact hgathers.covered position byte ⟨m, hm, hcarries⟩
  have hcomplete : completeLength frag = some frag.frMax := by
    rw [completeLength, if_pos hseen, hscan]
    simp
  cases hitems : frag.items with
  | nil => exact absurd hitems hgathers.ok.nonempty
  | cons first rest =>
    have hhlen := hgathers.hlen first (by simp [hitems])
    refine ⟨joinQueue frag.frMax first rest, ?_⟩
    rw [finishReassembly, hcomplete, hitems]
    simp only
    rw [if_neg (by omega)]

theorem Gathers.finish
    (hfits : 20 + data.length ≤ ipMaxPacket) (hcut : ∀ m ∈ received, CutFrom data m) :
    (∃ packet, (finishReassembly frag).2 = some packet ∧ packet.payload = data) ∨
      finishReassembly frag = (some frag, none) := by
  cases hpacket : (finishReassembly frag).2 with
  | some packet => exact .inl ⟨packet, rfl, hgathers.packet_eq hcut hpacket⟩
  | none =>
    right
    rw [finishReassembly] at hpacket ⊢
    split at hpacket
    · rename_i off first rest hcomplete hitems
      have hhlen := hgathers.hlen first (by simp [hitems])
      have hmax := hgathers.max_le
      obtain ⟨_, hoff, _⟩ := hgathers.ok.completeLength hcomplete
      rw [if_neg (by omega)] at hpacket
      cases hpacket
    · rfl

end

/-! ## Delivery of the fragments -/

/-- The first packet that `pf_reassemble` returns when the fragments come one
after the other. -/
def deliver : Option (Fragment Mbuf) → List Mbuf → Option Mbuf
  | _, [] => none
  | queue, m :: rest =>
    match pfReassemble true queue m m.ip.mf with
    | (_, some packet) => some packet
    | (queue, none) => deliver queue rest

/-- Up to the first packet that is returned, each fragment enters the queue
without a cut at its front and without taking a part of a unit from another. -/
def EnterCleanly : Option (Fragment Mbuf) → List Mbuf → Prop
  | _, [] => True
  | queue, m :: rest =>
    EntersCleanly queue m ∧
      ((pfReassemble true queue m m.ip.mf).2 = none →
        EnterCleanly (pfReassemble true queue m m.ip.mf).1 rest)

def Waits (data : List Byte) (received : List Mbuf) : Option (Fragment Mbuf) → Prop
  | none => received = []
  | some frag =>
    Gathers data received frag ∧ finishReassembly frag = (some frag, none)

variable {queue : Option (Fragment Mbuf)}

theorem Waits.step (hwaits : Waits data received queue) (hfits : 20 + data.length ≤ ipMaxPacket)
    (hcuts : ∀ r ∈ received ++ [m], CutFrom data r) (hclean : EntersCleanly queue m) :
    (∃ packet, (pfReassemble true queue m m.ip.mf).2 = some packet ∧ packet.payload = data) ∨
    ((pfReassemble true queue m m.ip.mf).2 = none ∧
      Waits data (received ++ [m]) (pfReassemble true queue m m.ip.mf).1) := by
  have hcut := hcuts m (by simp)
  have hm := hcut.sound hfits
  -- once the fragment is in the queue
  have hentered : ∀ frag, enterFragment true queue m m.ip.mf = some frag →
      Gathers data (received ++ [m]) frag →
      (∃ packet, (pfReassemble true queue m m.ip.mf).2 = some packet ∧ packet.payload = data) ∨
      ((pfReassemble true queue m m.ip.mf).2 = none ∧
        Waits data (received ++ [m]) (pfReassemble true queue m m.ip.mf).1) := by
    intro frag henter hgathers
    have hfinish : pfReassemble true queue m m.ip.mf =
        finishReassembly frag := by
      rw [pfReassemble, henter]
    rw [hfinish]
    rcases hgathers.finish hfits hcuts with hdone | hwaiting
    · exact .inl hdone
    · right
      rw [hwaiting]
      exact ⟨rfl, hgathers, hwaiting⟩
  cases queue with
  | none =>
    have hnone : received = [] := hwaits
    subst hnone
    cases henter : enterFragment true none m m.ip.mf with
    | none => simp [enterFragment] at henter
    | some frag =>
      apply hentered frag henter
      rw [enterFragment_new hm henter]
      exact gathers_first hcut hfits
  | some frag =>
    obtain ⟨hgathers, hwaiting⟩ := hwaits
    rcases queueFragment_spec m.ip.mf hm hgathers.ok.pieces
      (hclean frag rfl) with ⟨hdrop, queued, hqueued, hstart, hstop⟩ | ⟨items', heq, hinserted⟩
    · right
      rw [pfReassemble, enterFragment, hdrop]
      exact ⟨rfl, hgathers.drop hcut hqueued hstart hstop, hwaiting⟩
    · exact hentered _ heq (hgathers.insert hcut hfits hinserted)

theorem Waits.deliver {rest : List Mbuf} (hwaits : Waits data received queue)
    (hfits : 20 + data.length ≤ ipMaxPacket) (hcuts : ∀ r ∈ received ++ rest, CutFrom data r)
    (hne : received ++ rest ≠ []) (hcovers : CoversAll data (received ++ rest))
    (hclean : EnterCleanly queue rest) :
    ∃ packet, deliver queue rest = some packet ∧ packet.payload = data := by
  induction rest generalizing received queue with
  | nil =>
    rw [append_nil] at hcuts hne hcovers
    cases queue with
    | none => exact absurd hwaits hne
    | some frag =>
      -- all has come, and a complete queue does not wait
      obtain ⟨packet, hdone⟩ := hwaits.1.complete hfits hcuts hne hcovers
      rw [hwaits.2] at hdone
      exact absurd hdone (by simp)
  | cons m rest ih =>
    have happend : received ++ m :: rest = received ++ [m] ++ rest := by
      simp
    obtain ⟨hfirst, hlater⟩ := hclean
    rw [PacketFilter.deliver]
    rcases hwaits.step hfits (fun r hr => hcuts r (by
        rw [happend]
        exact mem_append_left _ hr)) hfirst with
      ⟨packet, hpacket, hdata⟩ | ⟨hnone, hwaiting⟩
    · generalize pfReassemble true queue m m.ip.mf = result at *
      obtain ⟨queue', packet'⟩ := result
      subst hpacket
      exact ⟨packet, rfl, hdata⟩
    · rw [happend] at hcuts hne hcovers
      have hrest := hlater hnone
      generalize pfReassemble true queue m m.ip.mf = result at *
      obtain ⟨queue', packet'⟩ := result
      subst hnone
      exact ih hwaiting hcuts hne hcovers hrest

end Delivery

/-- Fragments that are cut from a payload and cover it, delivered in any order,
yield the payload, as long as none of them is cut at its front on arrival and
none takes a part of a unit from a queued one. -/
theorem reassembled_when_covered {data : List Byte} {fragments : List Mbuf}
    (hfits : 20 + data.length ≤ ipMaxPacket) (hne : fragments ≠ [])
    (hcuts : ∀ m ∈ fragments, CutFrom data m) (hcovers : CoversAll data fragments)
    (hclean : EnterCleanly none fragments) :
    ∃ packet, deliver none fragments = some packet ∧ packet.payload = data := by
  have hwaits : Waits data [] none := rfl
  exact hwaits.deliver hfits (by simpa using hcuts) (by simpa using hne)
    (by simpa using hcovers) hclean

def countingData : List Byte :=
  (List.range 32).map (BitVec.ofNat 8)

/-- The last of these fragments takes the place of the first and cuts the
second. -/
def coveringFragments : List Mbuf :=
  [counting 5 1 8 true, counting 5 2 16 false, counting 5 0 24 true]

theorem reassembled_when_covered_cut :
    ∃ packet, deliver none coveringFragments = some packet ∧ packet.payload = countingData := by
  apply reassembled_when_covered (by decide) (by decide)
  · intro m hm
    fin_cases hm <;> exact ⟨rfl, rfl, by decide, by decide, by decide⟩
  · unfold CoversAll
    decide
  · exact ⟨by rintro _ ⟨⟩, fun _ => ⟨by rintro _ ⟨⟩; decide,
      fun _ => ⟨by rintro _ ⟨⟩; decide, fun _ => trivial⟩⟩⟩

def overlappingFragments : List Mbuf :=
  [counting 5 0 16 true, counting 5 1 24 false]

/-- What is left of the second fragment has sixteen bytes and the length sixteen
in its header, from which the check takes away the twenty bytes of the header;
the datagram is never put together. -/
theorem overlapping_never_reassembled :
    20 + countingData.length ≤ ipMaxPacket ∧
      (∀ m ∈ overlappingFragments, CutFrom countingData m) ∧
      CoversAll countingData overlappingFragments ∧ deliver none overlappingFragments = none := by
  refine ⟨by decide, ?_, ?_, rfl⟩
  · intro m hm
    fin_cases hm <;> exact ⟨rfl, rfl, by decide, by decide, by decide⟩
  · unfold CoversAll
    decide

end AerieKernel.PacketFilter
