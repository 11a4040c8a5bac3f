import AerieKernel.GuardedRuns
import AerieKernel.OrderedIntervals
import AerieKernel.PfFragmentModel

/-!
# The fragment cache

A rule with `fragment crop` lets fragments through one by one and remembers which
bytes have gone through.  A new fragment is cut where it overlaps what has been
passed before.  The cut at its end is right.  The cut at its front shortens the
remembered range as well, so that bytes are passed and not remembered.
-/

namespace AerieKernel.PacketFilter

open Intervals List Mbuf Fragment FrCache

def Cached (ranges : List FrCache) (position : ℕ) : Prop :=
  ∃ range ∈ ranges, range.frOff ≤ position ∧ position < range.frEnd

def Mbuf.Covers (m : Mbuf) (position : ℕ) : Prop :=
  m.start ≤ position ∧ position < m.stop

variable {position : ℕ}

@[simp] theorem cached_append {xs ys : List FrCache} :
    Cached (xs ++ ys) position ↔ Cached xs position ∨ Cached ys position := by
  simp only [Cached, List.mem_append, or_and_right, exists_or]

@[simp] theorem cached_cons {range : FrCache} {ys : List FrCache} :
    Cached (range :: ys) position ↔
      (range.frOff ≤ position ∧ position < range.frEnd) ∨
        Cached ys position := by
  simp [Cached]

@[simp] theorem not_cached_nil : ¬ Cached [] position := by
  simp [Cached]

abbrev RangesOk (ranges : List FrCache) : Prop :=
  Ordered frOff frEnd ranges

/-! ## Putting a piece between its neighbours -/

/-- What the ranges before a piece that begins at `off` become: `front` and the
beginning `low` of the range that holds the piece. -/
def JoinsPrevious (before : List FrCache) (off : ℕ) (front : List FrCache) (low : ℕ) : Prop :=
  (front = before ∧ low = off ∧ ∀ range ∈ before, range.frEnd < off) ∨
    ∃ frp, before = front ++ [frp] ∧ frp.frEnd = off ∧ low = frp.frOff

/-- What the ranges behind a fragment up to `max` become: `back` and the end
`high` of the range that holds the piece, which itself ends at `stop`. -/
def JoinsNext (after : List FrCache) (max : ℕ) (back : List FrCache) (high stop : ℕ) : Prop :=
  (back = after ∧ high = max ∧ stop = max ∧
    ∀ range ∈ after, max < range.frOff) ∨
    ∃ fra, after = fra :: back ∧ fra.frOff ≤ max ∧ high = fra.frEnd ∧ stop = fra.frOff

structure Added (ranges : List FrCache) (off stop : ℕ) (ranges' : List FrCache) : Prop where
  ordered : RangesOk ranges'
  cached : ∀ position, Cached ranges' position ↔
    Cached ranges position ∨ (off ≤ position ∧ position < stop)
  fresh : ∀ position, off ≤ position → position < stop → ¬ Cached ranges position
  le_stop : off ≤ stop
  bounded : ∀ bound, stop ≤ bound →
    (∀ range ∈ ranges, range.frEnd ≤ bound) →
    ∀ range ∈ ranges', range.frEnd ≤ bound

section Joining

variable {before after front back : List FrCache} {off max low high stop : ℕ}

theorem JoinsPrevious.spec (hjoins : JoinsPrevious before off front low)
    (hbefore : RangesOk before) :
    (∀ range ∈ front, range.frEnd < low) ∧ RangesOk front ∧ low ≤ off ∧
      (∀ range ∈ before, range.frEnd ≤ off) ∧ (∀ range ∈ front, range ∈ before) ∧
      ∀ position, Cached before position ↔
        Cached front position ∨ (low ≤ position ∧ position < off) := by
  rcases hjoins with ⟨rfl, rfl, hbelow⟩ | ⟨frp, rfl, rfl, rfl⟩
  · refine ⟨hbelow, hbefore, le_rfl, fun range hrange =>
      (hbelow range hrange).le, fun _ hrange => hrange, ?_⟩
    intro position
    constructor
    · exact .inl
    · rintro (hcached | ⟨hlow, hhigh⟩)
      · exact hcached
      · omega
  · have hlast := hbefore.front_lt
    have hproper := hbefore.proper_mid
    refine ⟨hlast, by simpa using hbefore.remove, hproper,
      forall_mem_append.mpr ⟨fun range hrange => ?_, forall_mem_singleton.mpr le_rfl⟩,
      by simp +contextual, by simp⟩
    have hlt := hlast range hrange
    omega

theorem JoinsNext.spec (hjoins : JoinsNext after max back high stop) (hafter : RangesOk after)
    (habove : ∀ range ∈ after, off < range.frOff) (hoff : off ≤ max) :
    (∀ range ∈ back, high < range.frOff) ∧ RangesOk back ∧ off ≤ stop ∧
      stop ≤ high ∧ (∀ range ∈ after, stop ≤ range.frOff) ∧
      (∀ bound, stop ≤ bound → (∀ range ∈ after, range.frEnd ≤ bound) →
        high ≤ bound ∧ ∀ range ∈ back, range.frEnd ≤ bound) ∧ ∀ position, Cached after position ↔
        Cached back position ∨ (stop ≤ position ∧ position < high) := by
  rcases hjoins with ⟨rfl, rfl, rfl, hbeyond⟩ | ⟨fra, rfl, hmeets, rfl, rfl⟩
  · refine ⟨hbeyond, hafter, hoff, le_rfl, fun range hrange =>
      (hbeyond range hrange).le, fun _ hstop hall => ⟨hstop, hall⟩, ?_⟩
    intro position
    constructor
    · exact .inl
    · rintro (hcached | ⟨hlow, hhigh⟩)
      · exact hcached
      · omega
  · obtain ⟨hproper, hfirst, hback⟩ := ordered_cons.mp hafter
    refine ⟨hfirst, hback, (habove fra (by simp)).le, hproper,
      forall_mem_cons.mpr ⟨le_rfl, fun range hrange => ?_⟩, fun bound _ => forall_mem_cons.mp, ?_⟩
    · have hlt := hfirst range hrange
      omega
    · intro position
      rw [cached_cons, or_comm]

theorem added_of_joins (hordered : RangesOk (before ++ after))
    (habove : ∀ range ∈ after, off < range.frOff) (hoff : off ≤ max)
    (hprevious : JoinsPrevious before off front low) (hnext : JoinsNext after max back high stop) :
    Added (before ++ after) off stop (front ++ ⟨low, high⟩ :: back) := by
  obtain ⟨hbefore, hafter, _⟩ := ordered_append.mp hordered
  obtain ⟨hfront, hfrontOk, hlow, hends, hmem, hbeforeCached⟩ := hprevious.spec hbefore
  obtain ⟨hback, hbackOk, hstop, hhigh, hstarts, hbounds, hafterCached⟩ :=
    hnext.spec hafter habove hoff
  constructor
  · refine ordered_append.mpr ⟨hfrontOk, ordered_cons.mpr ⟨by simp only; omega, hback, hbackOk⟩, ?_⟩
    intro range hrange
    have hlt := hfront range hrange
    refine forall_mem_cons.mpr ⟨hlt, fun other hother => ?_⟩
    have hgt := hback other hother
    omega
  · intro position
    rw [cached_append, cached_append, cached_cons, hbeforeCached, hafterCached]
    by_cases hfrontCached : Cached front position
    · simp [hfrontCached]
    · by_cases hbackCached : Cached back position
      · simp [hbackCached]
      · simp only [hfrontCached, hbackCached, false_or, or_false]
        omega
  · intro position hge hlt hcached
    rcases cached_append.mp hcached with ⟨range, hrange, _, hend⟩ | ⟨range, hrange, hstart, _⟩
    · have hle := hends range hrange
      omega
    · have hle := hstarts range hrange
      omega
  · exact hstop
  · intro bound hbound hall
    obtain ⟨hallBefore, hallAfter⟩ := forall_mem_append.mp hall
    exact forall_mem_append.mpr ⟨fun range hrange => hallBefore range (hmem range hrange),
      forall_mem_cons.mpr (hbounds bound hbound hallAfter)⟩

end Joining

/-! ## The two neighbours -/

def Mbuf.crop (m : Mbuf) (stop : ℕ) : Mbuf :=
  { m with
    ip := { m.ip with len := m.hlen + (stop - m.start) }
    payload := m.payload.take (stop - m.start) }

variable {m : Mbuf}

theorem Mbuf.Sound.crop_stop (hsound : m.Sound) : m.crop m.stop = m := by
  have hlen := hsound.len_eq
  simp only [crop, stop, Nat.add_sub_cancel_left, take_length, ← hlen]

theorem Mbuf.crop_covers {stop : ℕ} (hstop : stop ≤ m.stop) :
    (m.crop stop).Covers position ↔ m.start ≤ position ∧ position < stop := by
  have hlength : (m.crop stop).stop = m.start + (stop - m.start) := by
    simp only [Mbuf.stop, Mbuf.crop, Mbuf.start, length_take]
    simp only [Mbuf.stop, Mbuf.start] at hstop
    omega
  have hstart : (m.crop stop).start = m.start := rfl
  rw [Mbuf.Covers, hstart]
  omega

def startVars (m : Mbuf) (cur : Option FrCache) : CacheVars :=
  { m := m, ipLen := m.payload.length, off := m.start, max := m.stop,
    cur := cur }

theorem cacheVars_of (hsound : m.Sound) : CacheVars.of m = startVars m none := by
  have hstop := hsound.stop_le
  rw [ipMaxPacket] at hstop
  have hstart : m.start ≤ m.stop := Nat.le_add_right _ _
  have hoff : u16 (m.ip.off * 8) = m.start := u16_eq (by simp [start]) (by omega)
  have hmax : u16 (m.payload.length + m.start) = m.stop :=
    u16_eq (by simp [stop, add_comm]) (by omega)
  simp [CacheVars.of, startVars, hoff, hmax, hsound.ipLen_eq]

def RunsOver (range : FrCache) (m : Mbuf) : Prop :=
  range.frOff ≤ m.start ∧ m.start < range.frEnd ∧ range.frEnd < m.stop

instance (range : FrCache) (m : Mbuf) : Decidable (RunsOver range m) :=
  inferInstanceAs (Decidable (_ ∧ _ ∧ _))

theorem meetPrevious_spec {frp : FrCache}
    (hbelow : frp.frOff ≤ m.start) (hinside : ¬ RunsOver frp m) :
    (m.stop ≤ frp.frEnd ∧
      meetPrevious {} false frp (startVars m none) = (frp, .error .dropFragment)) ∨
    (frp.frEnd = m.start ∧ meetPrevious {} false frp (startVars m none) =
        (⟨frp.frOff, m.stop⟩, .ok (startVars m none))) ∨ (frp.frEnd < m.start ∧
      meetPrevious {} false frp (startVars m none) =
        (frp, .ok (startVars m (some ⟨m.start, m.stop⟩)))) := by
  have hstop : m.stop = m.start + m.payload.length := rfl
  rw [RunsOver] at hinside
  by_cases hdead : m.stop ≤ frp.frEnd
  · left
    refine ⟨hdead, ?_⟩
    rw [meetPrevious, if_pos (by simp only [startVars]; omega)]
  · have hlive : ¬ (frp.frEnd : ℤ) - (startVars m none).off ≥ (startVars m none).ipLen := by
      simp only [startVars]
      omega
    right
    by_cases hadjacent : frp.frEnd = m.start
    · left
      refine ⟨hadjacent, ?_⟩
      rw [meetPrevious, if_neg hlive, if_pos (by simp only [startVars]; omega)]
      rfl
    · right
      refine ⟨by omega, ?_⟩
      rw [meetPrevious, if_neg hlive, if_neg (by simp only [startVars]; omega),
        if_neg (by simp only [startVars]; omega)]
      rfl

/-- How the call stands when it comes to the range behind the fragment: the
range before the fragment, the range `cur`, and of the ranges up to there what
stays as it is and where the last one begins. -/
inductive Pending (m : Mbuf) : Option FrCache → Option FrCache → List FrCache → ℕ → Prop
  | first : Pending m none none [] m.start
  | extended (low : ℕ) : Pending m (some ⟨low, m.stop⟩) none [] low
  | gap (frp : FrCache) (hgap : frp.frEnd < m.start) :
      Pending m (some frp) (some ⟨m.start, m.stop⟩) [frp] m.start

section Next

variable {m : Mbuf} {frp cur : Option FrCache} {keep : List FrCache} {low : ℕ}
  {fra : FrCache}

theorem Pending.glue (hpending : Pending m frp cur keep low) :
    glue frp cur { fra with frOff := m.start } = keep ++ [⟨low, fra.frEnd⟩] := by
  have hstart : m.start ≤ m.stop := Nat.le_add_right _ _
  cases hpending <;> simp [PacketFilter.glue, hstart]

theorem meetNext_touching (hsound : m.Sound) (hpending : Pending m frp cur keep low)
    (habove : m.start < fra.frOff) (hreach : fra.frOff ≤ m.stop) :
    ∃ vars, meetNext {} false frp fra (startVars m cur) = (keep ++ [⟨low, fra.frEnd⟩], .ok vars) ∧
      vars.m = m.crop fra.frOff ∧ vars.max = fra.frOff ∧ vars.hosed = false := by
  have hmax := hsound.stop_le
  have hlenLt := hsound.len_lt
  have hlenEq := hsound.len_eq
  rw [ipMaxPacket] at hmax
  have hstop : m.stop = m.start + m.payload.length := rfl
  rw [meetNext, ← hpending.glue]
  by_cases hadjacent : fra.frOff = m.stop
  · rw [if_pos (by simp only [startVars]; omega)]
    refine ⟨startVars m cur, rfl, ?_, hadjacent.symm, rfl⟩
    rw [hadjacent, hsound.crop_stop]
    rfl
  · rw [if_neg (by simp only [startVars]; omega), if_pos (by simp only [startVars]; omega)]
    refine ⟨_, rfl, ?_, u16_eq (by simp only [startVars]; ring) (by omega), rfl⟩
    have hcut : ((m.stop : ℤ) - fra.frOff).toNat = m.stop - fra.frOff := by
      omega
    have hlen : u16 ((m.ip.len : ℤ) - (m.stop - fra.frOff)) = m.hlen + (fra.frOff - m.start) :=
      u16_eq (by omega) (by omega)
    have htake : m.payload.length - (m.stop - fra.frOff) = fra.frOff - m.start := by
      omega
    simp only [startVars, hcut, hlen, adjBack, setLen, crop, htake]

theorem meetNext_apart (hpending : Pending m frp cur keep low) (hapart : m.stop < fra.frOff) :
    ∃ cur', meetNext {} false frp fra (startVars m cur) =
      (keep ++ [⟨low, m.stop⟩, fra], .ok (startVars m cur')) := by
  rw [meetNext, if_neg (by simp only [startVars]; omega), if_neg (by simp only [startVars]; omega)]
  cases hpending with
  | first => exact ⟨some ⟨m.start, m.stop⟩, rfl⟩
  | extended low => exact ⟨none, rfl⟩
  | gap frp hgap => exact ⟨some ⟨m.start, m.stop⟩, rfl⟩

end Next

structure Accepts (m : Mbuf) (ranges ranges' : List FrCache) (vars : CacheVars) : Prop where
  added : Added ranges m.start vars.max ranges'
  nonempty : ranges' ≠ []
  max_le : vars.max ≤ m.stop
  packet : vars.m = m.crop vars.max
  hosed : vars.hosed = false

section Neighbours

variable {m : Mbuf} {frp cur : Option FrCache} {low : ℕ}
  {before after front keep : List FrCache}

theorem accepts_last (hsound : m.Sound) (hordered : RangesOk before)
    (hjoins : JoinsPrevious before m.start front low) :
    Accepts m before (front ++ [⟨low, m.stop⟩]) (startVars m cur) := by
  have hordered' : RangesOk (before ++ []) := by
    simpa using hordered
  have hadded := added_of_joins hordered' (by simp)
    (Nat.le_add_right m.start m.payload.length) hjoins (.inl ⟨rfl, rfl, rfl, by simp⟩)
  rw [append_nil] at hadded
  exact ⟨hadded, by simp, le_rfl, hsound.crop_stop.symm, rfl⟩

theorem accepts_next {fra : FrCache} {rest : List FrCache} (hsound : m.Sound)
    (hordered : RangesOk (before ++ fra :: rest))
    (habove : ∀ range ∈ fra :: rest, m.start < range.frOff) (hpending : Pending m frp cur keep low)
    (hjoins : JoinsPrevious before m.start (front ++ keep) low) :
    ∃ middle vars,
      meetNext {} false frp fra (startVars m cur) = (middle, .ok vars) ∧
      Accepts m (before ++ fra :: rest) (front ++ middle ++ rest) vars := by
  have hstop : m.start ≤ m.stop := Nat.le_add_right _ _
  by_cases hreach : fra.frOff ≤ m.stop
  · obtain ⟨vars, heq, hpacket, hmax, hhosed⟩ :=
      meetNext_touching hsound hpending (habove fra (by simp)) hreach
    have hadded := added_of_joins hordered habove hstop hjoins (.inr ⟨fra, rfl, hreach, rfl, rfl⟩)
    refine ⟨_, vars, heq, ?_, by simp, hmax ▸ hreach, hmax ▸ hpacket, hhosed⟩
    rw [hmax]
    simpa using hadded
  · obtain ⟨cur', heq⟩ := meetNext_apart hpending (Nat.lt_of_not_le hreach)
    have hbeyond : ∀ range ∈ fra :: rest, m.stop < range.frOff := by
      refine forall_mem_cons.mpr ⟨Nat.lt_of_not_le hreach, fun range hrange => ?_⟩
      have hproper := hordered.proper_mid
      have hlt := hordered.lt_back range hrange
      omega
    have hadded := added_of_joins hordered habove hstop hjoins (.inl ⟨rfl, rfl, rfl, hbeyond⟩)
    refine ⟨_, _, heq, ?_, by simp, le_rfl, hsound.crop_stop.symm, rfl⟩
    simpa [startVars] using hadded

end Neighbours

variable {m : Mbuf} {ranges : List FrCache}

theorem meetNeighbours_spec (hordered : RangesOk ranges) (hne : ranges ≠ []) (hsound : m.Sound)
    (hinside : ∀ range ∈ ranges, ¬ RunsOver range m) :
    meetNeighbours {} false ranges (startVars m none) = (ranges, .error .dropFragment) ∨
      ∃ ranges' vars, meetNeighbours {} false ranges (startVars m none) = (ranges', .ok vars) ∧
        Accepts m ranges ranges' vars := by
  have hsorted : ranges.Pairwise fun x y => x.frOff ≤ y.frOff := by
    apply hordered.sorted.imp_of_mem
    intro x y hx _ hlt
    exact (hordered.proper x hx).trans hlt.le
  have hoff : (startVars m none).off = m.start := rfl
  have hsplit := passed_append_notPassed frOff m.start ranges
  have hbelow : ∀ range ∈ passed frOff m.start ranges,
      range.frOff ≤ m.start := fun _ => le_of_mem_passed
  have habove : ∀ range ∈ notPassed frOff m.start ranges,
      m.start < range.frOff := fun _ => lt_of_mem_notPassed hsorted
  rw [meetNeighbours, hoff]
  generalize passed frOff m.start ranges = before at *
  generalize notPassed frOff m.start ranges = after at *
  subst hsplit
  rcases eq_nil_or_concat before with rfl | ⟨front, frp, rfl⟩
  · cases after with
    | nil => simp at hne
    | cons fra rest =>
      have hjoins : JoinsPrevious [] m.start ([] ++ []) m.start := .inl ⟨rfl, rfl, by simp⟩
      obtain ⟨middle, vars, heq, haccepts⟩ := accepts_next hsound hordered habove .first hjoins
      right
      refine ⟨_, vars, ?_, by simpa using haccepts⟩
      simp [heq]
  · have hfrp : frp ∈ front ++ [frp] := by
      simp
    have hbeforeOk := (ordered_append.mp hordered).1
    rw [concat_eq_append] at *
    simp only [getLast?_concat]
    rcases meetPrevious_spec (hbelow frp hfrp) (hinside frp (mem_append_left _ hfrp)) with
        ⟨_, heq⟩ | ⟨hadjacent, heq⟩ | ⟨hgap, heq⟩
    · simp [heq]
    · right
      rw [heq]
      have hjoins : JoinsPrevious (front ++ [frp]) m.start (front ++ [])
          frp.frOff := .inr ⟨frp, by simp, hadjacent, rfl⟩
      cases after with
      | nil =>
        refine ⟨_, startVars m none, rfl, ?_⟩
        rw [append_nil] at hordered ⊢
        simpa [startVars] using accepts_last hsound hordered hjoins
      | cons fra rest =>
        obtain ⟨middle, vars, hnext, haccepts⟩ :=
          accepts_next hsound hordered habove (.extended frp.frOff) hjoins
        exact ⟨_, vars, by simp [hnext], haccepts⟩
    · right
      rw [heq]
      have hends : ∀ range ∈ front ++ [frp], range.frEnd < m.start := by
        refine forall_mem_append.mpr ⟨fun range hrange => ?_, forall_mem_singleton.mpr hgap⟩
        have hlt := hbeforeOk.front_lt range hrange
        have hproper := hbeforeOk.proper_mid
        omega
      have hjoins : JoinsPrevious (front ++ [frp]) m.start (front ++ [frp])
          m.start := .inl ⟨rfl, rfl, hends⟩
      cases after with
      | nil =>
        refine ⟨_, startVars m (some ⟨m.start, m.stop⟩), rfl, ?_⟩
        rw [append_nil] at hordered ⊢
        simpa [startVars] using accepts_last hsound hordered hjoins
      | cons fra rest =>
        obtain ⟨middle, vars, hnext, haccepts⟩ :=
          accepts_next hsound hordered habove (.gap frp hgap) hjoins
        exact ⟨_, vars, by simp [hnext], haccepts⟩

/-! ## One fragment -/

def Sent (sent : List Mbuf) (position : ℕ) : Prop :=
  ∃ m ∈ sent, m.Covers position

variable {sent : List Mbuf}

@[simp] theorem sent_snoc :
    Sent (sent ++ [m]) position ↔ Sent sent position ∨ m.Covers position := by
  simp [Sent, or_and_right, exists_or]

theorem sent_markCached {out : Bool} :
    Sent (sent ++ [m.markCached out]) position ↔ Sent (sent ++ [m]) position := by
  rw [sent_snoc, sent_snoc]
  rfl

structure CacheOk (sent : List Mbuf) (frag : Fragment FrCache) : Prop where
  nonempty : frag.items ≠ []
  ordered : RangesOk frag.items
  le_max : ∀ range ∈ frag.items, range.frEnd ≤ frag.frMax
  keeps : frag.drop = false
  cached : ∀ position, Cached frag.items position ↔ Sent sent position

def SlotOk (sent : List Mbuf) : Option (Fragment FrCache) → Prop
  | some frag => CacheOk sent frag
  | none => ∃ length, ∀ position, Sent sent position ↔ position < length

variable {frag : Fragment FrCache}

theorem CacheOk.failFragment (hok : CacheOk sent frag) (exit : CacheExit) (mff : Bool) :
    CacheOk sent (failFragment exit false mff frag) :=
  ⟨hok.nonempty, hok.ordered, hok.le_max,
    by simp [PacketFilter.failFragment, hok.keeps], hok.cached⟩

theorem passFragment_slotOk {max : ℕ} (mff : Bool) (hok : CacheOk sent (frag.note max mff)) :
    SlotOk sent (passFragment frag max mff) := by
  rw [passFragment]
  split_ifs with hdone
  · obtain ⟨_, hfirst⟩ := hdone
    obtain ⟨hnonempty, hordered, hmax, _, hcached⟩ := hok
    generalize frag.note max mff = noted at *
    cases hitems : noted.items with
    | nil => exact absurd hitems hnonempty
    | cons first rest =>
      rw [hitems] at hfirst hordered hmax hcached
      simp only [head?_cons, Option.any_some, Bool.and_eq_true, decide_eq_true_eq] at hfirst
      obtain ⟨hstart, hend⟩ := hfirst
      obtain ⟨_, hbehind, hrest⟩ := ordered_cons.mp hordered
      -- a second range would lie behind fr_max
      have hnone : rest = [] := by
        cases rest with
        | nil => rfl
        | cons second others =>
          have hlt := hbehind second (by simp)
          have hle := hmax second (by simp)
          have hproper := hrest.proper second (by simp)
          omega
      refine ⟨first.frEnd, fun position => ?_⟩
      rw [← hcached, hnone]
      simp [hstart]
  · exact hok

theorem CacheOk.accept {vars : CacheVars} (mff : Bool) (hok : CacheOk sent frag)
    (haccepts : Accepts m frag.items ranges vars) :
    CacheOk (sent ++ [vars.m])
      (({ frag with items := ranges } : Fragment FrCache).note vars.max mff) := by
  refine ⟨haccepts.nonempty, haccepts.added.ordered, ?_, hok.keeps, ?_⟩
  · rw [note_frMax]
    apply haccepts.added.bounded _ (le_max_right _ _)
    intro range hrange
    exact (hok.le_max range hrange).trans (le_max_left _ _)
  · intro position
    rw [sent_snoc, haccepts.packet, crop_covers haccepts.max_le, ← hok.cached]
    exact haccepts.added.cached position

/-- What a call of `pf_fragcache` gives: no packet, or one with bytes that have
not been passed before. -/
def CallOk (sent : List Mbuf) (cache : Option (Fragment FrCache)) : Option Mbuf → Prop
  | none => SlotOk sent cache
  | some m =>
    SlotOk (sent ++ [m]) cache ∧ ∀ position, m.Covers position → ¬ Sent sent position

theorem pfFragcache_first (mff : Bool) (hsound : m.Sound) :
    CallOk [] (pfFragcache {} false none m mff).1 (pfFragcache {} false none m mff).2 := by
  have hstop : m.start ≤ m.stop := Nat.le_add_right _ _
  rw [pfFragcache, cacheVars_of hsound]
  refine ⟨passFragment_slotOk mff ⟨by simp [note], ?_, ?_, rfl, ?_⟩, ?_⟩
  · exact ordered_cons.mpr ⟨hstop, by simp, ordered_nil⟩
  · rw [note_frMax]
    simp [note, startVars]
  · simp [note, startVars, Sent, Mbuf.Covers]
  · simp [Sent]

theorem pfFragcache_next (mff : Bool) (hsound : m.Sound) (hok : CacheOk sent frag)
    (hinside : ∀ range ∈ frag.items, ¬ RunsOver range m) :
    CallOk sent (pfFragcache {} false (some frag) m mff).1
      (pfFragcache {} false (some frag) m mff).2 := by
  rw [pfFragcache, cacheVars_of hsound]
  rcases meetNeighbours_spec hok.ordered hok.nonempty hsound hinside with
    heq | ⟨ranges, vars, heq, haccepts⟩
  · rw [heq]
    exact hok.failFragment .dropFragment mff
  · simp only [heq, haccepts.hosed]
    refine ⟨passFragment_slotOk mff (hok.accept mff haccepts), ?_⟩
    intro position hcovers
    rw [haccepts.packet, crop_covers haccepts.max_le] at hcovers
    rw [← hok.cached]
    exact haccepts.added.fresh position hcovers.1 hcovers.2

/-! ## Sequences of fragments -/

structure CropState where
  datagram : Datagram := {}
  sent : List Mbuf := []

variable (rule : ScrubFlags) (state : CropState) (arrival : Arrival)

def cropStep : Option CropState :=
  let result :=
    pfNormalizeIp rule {} arrival.out state.datagram arrival.m
  some ⟨result.1, state.sent ++ result.2.toList⟩

def ScrubFlags.Crops : Prop :=
  rule.fragCrop = true ∧ rule.fragDrop = false

def GetsToCache : Prop :=
  Admitted state.datagram.cache (clearDf rule arrival.m) ∧
    (arrival.out && arrival.m.fragcacheTag) = false

/-- The fragment does not begin inside a cached range and reach behind its end,
and the datagram has not been passed completely before. -/
def MeetsNoFront : Prop :=
  (∀ frag, state.datagram.cache = some frag → ∀ range ∈ frag.items, ¬ RunsOver range arrival.m) ∧
  (state.datagram.cache = none → state.sent = [])

def CropGuard : Prop :=
  GetsToCache rule state arrival ∧ MeetsNoFront state arrival

def DisjointPayloads (sent : List Mbuf) : Prop :=
  sent.Pairwise fun m m' => ∀ position, m.Covers position → ¬ m'.Covers position

structure CropOk (state : CropState) : Prop where
  disjoint : DisjointPayloads state.sent
  slot : SlotOk state.sent state.datagram.cache

variable {cache : Option (Fragment FrCache)}

theorem SlotOk.keeps (hslot : SlotOk sent cache) : cache.any drop = false := by
  cases cache with
  | none => rfl
  | some frag => exact CacheOk.keeps hslot

theorem SlotOk.congr {sent' : List Mbuf} (hslot : SlotOk sent cache)
    (hsame : ∀ position, Sent sent position ↔ Sent sent' position) : SlotOk sent' cache := by
  cases cache with
  | none =>
    obtain ⟨length, hlength⟩ := hslot
    exact ⟨length, fun position => (hsame position).symm.trans (hlength position)⟩
  | some frag =>
    obtain ⟨hnonempty, hordered, hmax, hkeeps, hcached⟩ := hslot
    exact ⟨hnonempty, hordered, hmax, hkeeps, fun position =>
      (hcached position).trans (hsame position)⟩

theorem CallOk.keeps {packet : Option Mbuf} (hcall : CallOk sent cache packet) :
    cache.any drop = false := by
  cases packet with
  | none => exact SlotOk.keeps hcall
  | some m => exact SlotOk.keeps hcall.1

theorem pfNormalizeIp_crop {rule : ScrubFlags} {state : CropState} {arrival : Arrival}
    {packet : Option Mbuf} (hrule : rule.Crops) (hgets : GetsToCache rule state arrival)
    (hm : clearDf rule arrival.m = m)
    (hcall : pfFragcache {} false state.datagram.cache m m.ip.mf = (cache, packet))
    (hkeeps : cache.any drop = false) :
    pfNormalizeIp rule {} arrival.out state.datagram arrival.m =
      ({ state.datagram with cache := cache }, packet.map fun m => m.markCached arrival.out) := by
  obtain ⟨⟨max, hcheck, hlast⟩, hway⟩ := hgets
  have htag : (arrival.out && m.fragcacheTag) = false := by
    rw [← hm]
    exact hway
  rw [hm] at hcheck
  simp [pfNormalizeIp, hm, hcheck, hlast, htag, hrule.1, hrule.2, hcall, hkeeps]

theorem cropStep_ok {rule : ScrubFlags} (hrule : rule.Crops) {before after : CropState}
    {arrival : Arrival} (hok : CropOk before) (hguard : CropGuard rule before arrival)
    (hstep : cropStep rule before arrival = some after) : CropOk after := by
  obtain ⟨hgets, hinside, hfirst⟩ := hguard
  obtain ⟨max, hcheck, _⟩ := hgets.1
  have hsound := (checkIp_cases (clearDf_wellFormed arrival.wellFormed) hcheck).1
  cases hstep
  generalize hm : clearDf rule arrival.m = m at hsound
  generalize heq : pfFragcache {} false before.datagram.cache m m.ip.mf = call
  obtain ⟨cache, packet⟩ := call
  have hcall : CallOk before.sent cache packet := by
    cases hcache : before.datagram.cache with
    | none =>
      have hfirstOk := pfFragcache_first m.ip.mf hsound
      rw [← hcache, heq] at hfirstOk
      rw [hfirst hcache]
      exact hfirstOk
    | some frag =>
      have hslot := hok.slot
      rw [hcache] at hslot
      have hnextOk := pfFragcache_next m.ip.mf hsound hslot (hm ▸ hinside frag hcache)
      rw [← hcache, heq] at hnextOk
      exact hnextOk
  rw [pfNormalizeIp_crop hrule hgets hm heq hcall.keeps]
  cases packet with
  | none =>
    refine ⟨?_, ?_⟩ <;> simp only [Option.map_none, Option.toList_none, append_nil]
    · exact hok.disjoint
    · exact hcall
  | some new =>
    obtain ⟨hslot, hfresh⟩ := hcall
    constructor
    · apply pairwise_append.mpr
      refine ⟨hok.disjoint, pairwise_singleton _ _, ?_⟩
      intro old hold marked hmarked position hcovers hagain
      rw [Option.map_some, Option.toList_some, mem_singleton] at hmarked
      subst hmarked
      exact hfresh position hagain ⟨old, hold, hcovers⟩
    · exact hslot.congr fun position => sent_markCached.symm

/-- As long as no fragment runs over the end of a cached range and none comes
after the datagram has been completed, the ranges stay sorted, disjoint and
apart, they hold exactly the bytes that have been passed, and no byte is passed
twice.  Once the descriptor is gone, what has been passed is a datagram without
holes. -/
theorem cache_holds_what_was_passed {rule : ScrubFlags} (hrule : rule.Crops) {state : CropState}
    (hrun : Run.GuardedRun (cropStep rule) (CropGuard rule) {} state) :
    DisjointPayloads state.sent ∧ (∀ frag, state.datagram.cache = some frag →
        RangesOk frag.items ∧ ∀ position, Cached frag.items position ↔ Sent state.sent position) ∧
      (state.datagram.cache = none →
        ∃ length, ∀ position, Sent state.sent position ↔ position < length) := by
  have hok : CropOk state := by
    apply hrun.invariant (P := CropOk)
    · exact ⟨List.Pairwise.nil, 0, by simp [Sent]⟩
    · intro before arrival after hbefore hguard hstep
      exact cropStep_ok hrule hbefore hguard hstep
  obtain ⟨hdisjoint, hslot⟩ := hok
  refine ⟨hdisjoint, ?_, ?_⟩
  · intro frag hcache
    rw [hcache] at hslot
    exact ⟨hslot.ordered, hslot.cached⟩
  · intro hcache
    rw [hcache] at hslot
    exact hslot

def zeros (off count : ℕ) (mf : Bool) : Mbuf :=
  { ip := { hl := 5, len := 20 + count, off := off, mf := mf }
    payload := List.replicate count 0 }

def zerosArrival (off : Fin 8192) (count : Fin 65000) (mf : Bool) : Arrival where
  m := zeros off count mf
  wellFormed := by
    refine ⟨by simp [zeros], ?_, off.isLt, fun _ => ?_⟩
    · simp only [zeros]
      omega
    · simp [zeros, hlen]

def cropRule : ScrubFlags := { fragCrop := true }

def cropAfter (arrivals : List Arrival) : CropState :=
  arrivals.foldl (fun state arrival => (cropStep cropRule state arrival).getD state) {}

def gapArrivals : List Arrival :=
  [zerosArrival 0 16 true, zerosArrival 3 8 true, zerosArrival 2 16 true]

theorem gapArrivals_run :
    Run.GuardedRun (cropStep cropRule) (CropGuard cropRule) {} (cropAfter gapArrivals) :=
  (((Run.GuardedRun.refl _ _ _).tail ⟨zerosArrival 0 16 true, ⟨⟨⟨_, rfl, rfl⟩, rfl⟩,
      by rintro _ ⟨⟩, fun _ => rfl⟩, rfl⟩).tail
    ⟨zerosArrival 3 8 true, ⟨⟨⟨_, rfl, rfl⟩, rfl⟩,
      by rintro _ ⟨⟩; decide, by rintro ⟨⟩⟩, rfl⟩).tail
    ⟨zerosArrival 2 16 true, ⟨⟨⟨_, rfl, rfl⟩, rfl⟩, by rintro _ ⟨⟩; decide, by rintro ⟨⟩⟩, rfl⟩

theorem cache_holds_what_was_passed_gap :
    cropRule.Crops ∧ DisjointPayloads (cropAfter gapArrivals).sent ∧
      ∀ position, Cached [⟨0, 32⟩] position ↔ Sent (cropAfter gapArrivals).sent position :=
  ⟨⟨rfl, rfl⟩, (cache_holds_what_was_passed ⟨rfl, rfl⟩ gapArrivals_run).1,
    ((cache_holds_what_was_passed ⟨rfl, rfl⟩ gapArrivals_run).2.1 _ rfl).2⟩

def overlapArrivals : List Arrival :=
  [zerosArrival 0 16 true, zerosArrival 1 24 true]

def wholeArrivals : List Arrival :=
  [zerosArrival 0 8 true, zerosArrival 1 8 false]

theorem overlapArrivals_run :
    Run.GuardedRun (cropStep cropRule) (GetsToCache cropRule) {} (cropAfter overlapArrivals) :=
  ((Run.GuardedRun.refl _ _ _).tail ⟨zerosArrival 0 16 true, ⟨⟨_, rfl, rfl⟩, rfl⟩, rfl⟩).tail
    ⟨zerosArrival 1 24 true, ⟨⟨_, rfl, rfl⟩, rfl⟩, rfl⟩

theorem wholeArrivals_run :
    Run.GuardedRun (cropStep cropRule) (GetsToCache cropRule) {} (cropAfter wholeArrivals) :=
  ((Run.GuardedRun.refl _ _ _).tail ⟨zerosArrival 0 8 true, ⟨⟨_, rfl, rfl⟩, rfl⟩, rfl⟩).tail
    ⟨zerosArrival 1 8 false, ⟨⟨_, rfl, rfl⟩, rfl⟩, rfl⟩

/-- Of the fragment that runs over the end of a range, sixteen bytes are passed
and eight are remembered; the other eight are passed again when they come in a
fragment of their own.  A fragment of a datagram that is complete is passed again
in any case. -/
theorem cache_forgets_what_was_passed :
    (∃ state frag,
      Run.GuardedRun (cropStep cropRule) (GetsToCache cropRule) {} state ∧
        state.datagram.cache = some frag ∧ frag.items = [⟨0, 24⟩] ∧ Sent state.sent 31) ∧ (∃ state,
      Run.GuardedRun (cropStep cropRule) (GetsToCache cropRule) {} state ∧
        ¬ DisjointPayloads state.sent) ∧ ∃ state,
      Run.GuardedRun (cropStep cropRule) (GetsToCache cropRule) {} state ∧
        ¬ DisjointPayloads state.sent := by
  refine ⟨⟨_, _, overlapArrivals_run, rfl, rfl, ?_⟩,
    ⟨_, overlapArrivals_run.tail ⟨zerosArrival 3 8 true, ⟨⟨_, rfl, rfl⟩, rfl⟩, rfl⟩, ?_⟩,
    ⟨_, wholeArrivals_run.tail ⟨zerosArrival 0 8 true, ⟨⟨_, rfl, rfl⟩, rfl⟩, rfl⟩, ?_⟩⟩
  · exact ⟨_, mem_cons_of_mem _ (mem_singleton.mpr rfl), by decide, by decide⟩
  · intro hdisjoint
    exact pairwise_iff_getElem.mp hdisjoint 1 2 (by decide) (by decide)
      (by decide) 24 ⟨by decide, by decide⟩ ⟨by decide, by decide⟩
  · intro hdisjoint
    exact pairwise_iff_getElem.mp hdisjoint 0 2 (by decide) (by decide)
      (by decide) 0 ⟨by decide, by decide⟩ ⟨by decide, by decide⟩

end AerieKernel.PacketFilter
