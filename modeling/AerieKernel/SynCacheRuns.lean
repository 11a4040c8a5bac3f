import AerieKernel.SynCacheModel

/-!
# Runs of the SYN cache

Where the live entries are linked and how they are counted after any number of steps, and
in which stage of its life every allocated entry is.
-/

namespace AerieKernel.SynCache

open Function List Entry

/-! ## The life of an entry -/

/-- The stages of an entry; `run` is the function that `softclock` is about to run on it.
The timer may be about to run on an entry that has been removed meanwhile. -/
inductive Entry.Stage (run : Option Callback) (e : Entry) : Prop
  | live (hlive : e.live = true) (hfunc : e.func = some .timer) (hgiven : e.given = 0)
      (hreaped : e.reaped = 0)
      (htimer : e.linked = 1 ∧ e.onqueue = true ∧ run = none ∨
        e.linked = 0 ∧ e.onqueue = false ∧ run = some .timer)
  | outside (hlive : e.live = false) (hgiven : e.given = 0) (hreaped : e.reaped = 0)
      (hlinked : e.linked = 0) (honqueue : e.onqueue = false)
      (hrun : run = none ∨ run = some .timer ∧ e.dead = true)
  | given (hlive : e.live = false) (hgiven : e.given = 1) (hreaped : e.reaped = 0)
      (hlinked : e.linked = 1) (honqueue : e.onqueue = true) (hfunc : e.func = some .reaper)
      (hrun : run = none ∨ run = some .timer ∧ e.dead = true)
  | reaping (hlive : e.live = false) (hgiven : e.given = 1) (hreaped : e.reaped = 0)
      (hlinked : e.linked = 0) (honqueue : e.onqueue = false) (hrun : run = some .reaper)
  | released (hlive : e.live = false) (hgiven : e.given = 1) (hreaped : e.reaped = 1)
      (hlinked : e.linked = 0) (honqueue : e.onqueue = false) (hrun : run = none)

namespace Entry

/-- Neither live nor given to the reaper. -/
def owed (e : Entry) : Bool := !e.live && e.given == 0

variable {run : Option Callback} {e : Entry}

theorem held_put (e : Entry) : e.put.held = e.put.owed := by
  simp [put, timeoutSet, timeoutAdd, owed]

theorem live_rm (e : Entry) : e.rm.live = false := by
  unfold rm timeoutDel
  split <;> simp [live]

theorem live_put (e : Entry) : e.put.live = e.live := by
  simp [put, timeoutSet, timeoutAdd, live]

theorem timeoutDel_eq (e : Entry) :
    ∃ onqueue linked, e.timeoutDel = { e with onqueue := onqueue, linked := linked } := by
  unfold timeoutDel
  split
  · exact ⟨_, _, rfl⟩
  · exact ⟨e.onqueue, e.linked, rfl⟩

theorem timerArm_eq (e : Entry) : ∃ rxtcur func onqueue linked, e.timerArm =
    { e with rxtcur := rxtcur, func := func, onqueue := onqueue, linked := linked } := by
  unfold timerArm timeoutAdd timeoutSet
  dsimp only
  split <;> split <;> exact ⟨_, _, _, _, rfl⟩

namespace Stage

theorem rm (h : Stage run e) (hlive : e.live = true) : Stage run e.rm := by
  cases h with
  | live _ hfunc hgiven hreaped htimer =>
    rcases htimer with ⟨hlinked, honqueue, hrun⟩ | ⟨hlinked, honqueue, hrun⟩
    · apply outside <;> simp [Entry.rm, timeoutDel, Entry.live, *]
    · apply outside <;> simp [Entry.rm, timeoutDel, Entry.live, *]
  | outside hnot | given hnot | reaping hnot | released hnot => simp [hnot] at hlive

theorem put (h : Stage run e) (hlive : e.live = false) (hgiven : e.given = 0) :
    Stage run e.put := by
  cases h with
  | outside _ _ hreaped hlinked honqueue hrun =>
    have hlive' := (live_put e).trans hlive
    apply given <;> simp_all [Entry.put, timeoutSet, timeoutAdd]
  | live hnot => simp [hnot] at hlive
  | given _ hnot | reaping _ hnot | released _ hnot => omega

theorem insert (h : Stage none e) (hlive : e.live = false) (hgiven : e.given = 0)
    (hdead : e.dead = false) (hfunc : e.func = none) :
    Stage none (Entry.timerArm { e with rxttot := 0, rxtshift := 0, inserted := true }) := by
  cases h with
  | outside _ _ hreaped hlinked honqueue hrun =>
    apply live <;> simp [Entry.timerArm, timeoutSet, timeoutAdd, Entry.live, *]
  | live hnot => simp [hnot] at hlive
  | given _ hnot | reaping _ hnot | released _ hnot => omega

theorem rearm (h : Stage (some .timer) e) (hlive : e.live = true) (rxtshift : ℕ) :
    Stage none (Entry.timerArm { e with rxtshift := rxtshift }) := by
  cases h with
  | live _ hfunc hgiven hreaped htimer =>
    apply live <;> simp_all [Entry.timerArm, timeoutAdd, Entry.live]
  | outside hnot | given hnot | reaping hnot | released hnot => simp [hnot] at hlive

theorem softclock (h : Stage none e) {func : Callback} (hfunc : e.func = some func)
    (hlinked : 0 < e.linked) : Stage (some func) e.timeoutDel := by
  cases h with
  | live hlive hfunc' hgiven hreaped htimer =>
    rcases htimer with ⟨_, honqueue, _⟩ | ⟨_, _, hrun⟩
    · apply live <;> simp_all [timeoutDel, Entry.live]
    · cases hrun
  | given hlive hgiven hreaped _ honqueue hfunc' hrun =>
    apply reaping <;> simp_all [timeoutDel, Entry.live]
  | outside _ _ _ hnot | reaping _ _ _ hnot | released _ _ _ hnot => omega

theorem idle (h : Stage (some .timer) e) (hdead : e.dead = true) : Stage none e := by
  cases h with
  | live hlive => simp [Entry.live, hdead] at hlive
  | outside hlive hgiven hreaped hlinked honqueue =>
    exact .outside hlive hgiven hreaped hlinked honqueue (.inl rfl)
  | given hlive hgiven hreaped hlinked honqueue hfunc =>
    exact .given hlive hgiven hreaped hlinked honqueue hfunc (.inl rfl)
  | reaping _ _ _ _ _ hrun | released _ _ _ _ _ hrun => cases hrun

theorem reap (h : Stage (some .reaper) e) : Stage none { e with reaped := e.reaped + 1 } := by
  cases h with
  | reaping hlive hgiven hreaped hlinked honqueue =>
    apply released <;> simp_all [Entry.live]
  | live _ _ _ _ htimer => simp at htimer
  | outside _ _ _ _ _ hrun | given _ _ _ _ _ _ hrun | released _ _ _ _ _ hrun => simp at hrun

theorem congr (h : Stage run e) {e' : Entry} (hlive : e'.live = e.live) (hdead : e'.dead = e.dead)
    (hfunc : e'.func = e.func) (honqueue : e'.onqueue = e.onqueue) (hlinked : e'.linked = e.linked)
    (hgiven : e'.given = e.given) (hreaped : e'.reaped = e.reaped) : Stage run e' := by
  cases h with
  | live => apply live <;> simp_all
  | outside => apply outside <;> simp_all
  | given => apply given <;> simp_all
  | reaping => apply reaping <;> simp_all
  | released => apply released <;> simp_all

end Stage

end Entry

namespace Cache

variable {c c' : Cache} {id : ℕ} {limits : Limits}

def Live (c : Cache) (x : ℕ) : Prop := x < c.next ∧ (c.entry x).live = true

instance (c : Cache) : DecidablePred c.Live := fun _ => inferInstanceAs (Decidable (_ ∧ _))

def liveSet (c : Cache) : Finset ℕ := (Finset.range c.next).filter c.Live

variable {x : ℕ}

theorem mem_liveSet : x ∈ c.liveSet ↔ c.Live x := by
  simp only [liveSet, Finset.mem_filter, Finset.mem_range, and_iff_right_iff_imp]
  exact fun h => h.1

def runs (c : Cache) (x : ℕ) : Option Callback :=
  match c.running with
  | some (id, func) => if x = id then some func else none
  | none => none

@[simp] theorem entry_modify_self (f : Entry → Entry) :
    (c.modify id f).entry id = f (c.entry id) := update_self ..

theorem entry_modify_of_ne (hx : x ≠ id) (f : Entry → Entry) :
    (c.modify id f).entry x = c.entry x := update_of_ne hx ..

structure Staged (c : Cache) : Prop where
  stage : ∀ x < c.next, (c.entry x).Stage (c.runs x)
  running : ∀ x func, c.running = some (x, func) → x < c.next

theorem Staged.modify (h : Staged c) (f : Entry → Entry)
    (hid : id < c.next → (f (c.entry id)).Stage (c.runs id)) : Staged (c.modify id f) := by
  refine ⟨?_, h.running⟩
  intro x hx
  by_cases hxid : x = id
  · subst hxid
    rw [entry_modify_self]
    exact hid hx
  · rw [entry_modify_of_ne hxid]
    exact h.stage x hx

theorem Staged.done (h : Staged c) {func : Callback} (hrun : c.running = some (id, func))
    (f : Entry → Entry) (hid : (f (c.entry id)).Stage none) :
    Staged { c.modify id f with running := none } := by
  constructor
  · intro x hx
    by_cases hxid : x = id
    · subst hxid
      simpa [Cache.modify, runs] using hid
    · simpa [Cache.modify, runs, hxid, hrun] using h.stage x hx
  · exact nofun

/-! ## Where the live entries are -/

def place (e : Entry) : Sockaddr × Sockaddr × BitVec 32 × ℕ × Option ℕ :=
  (e.src, e.dst, e.hash, e.bucketidx, e.tp)

def bucketKey (c : Cache) (x : ℕ) : Option ℕ :=
  if c.Live x then some (c.entry x).bucketidx else none

def ownerKey (c : Cache) (x : ℕ) : Option ℕ := if c.Live x then (c.entry x).tp else none

/-- Every live entry is in the bucket of its hash and on the list of its `sc_tp`; the
buckets and the lists have nothing else, and the numbers count them. -/
structure Placed (limits : Limits) (c : Cache) : Prop where
  buckets : Queues.Indexed c.buckets c.bucketKey
  owners : Queues.Indexed c.tSc c.ownerKey
  owned : ∀ x, c.Live x → ∃ tp, (c.entry x).tp = some tp
  hashed : ∀ x, c.Live x → (c.entry x).hash = synHash c.secrets (c.entry x).src (c.entry x).dst
  index : ∀ x, c.Live x → (c.entry x).bucketidx = (c.entry x).hash.toNat % tcpSynCacheSize
  unique : ∀ x y, c.Live x → c.Live y → (c.entry x).src = (c.entry y).src →
    (c.entry x).dst = (c.entry y).dst → x = y
  length : ∀ b, (c.lengths b).toNat = (c.buckets b).length
  length_le : ∀ b, (c.buckets b).length ≤ limits.synBucketLimit
  count : c.count = c.liveSet.card
  count_le : c.count ≤ limits.synCacheLimit

theorem Placed.mem_bucket (h : Placed limits c) {b : ℕ} :
    x ∈ c.buckets b ↔ c.Live x ∧ (c.entry x).bucketidx = b := by
  rw [h.buckets.mem, bucketKey]
  split <;> simp [*]

variable {tp : ℕ}

section

variable (h : Placed limits c)
include h

theorem Placed.mem_owner : x ∈ c.tSc tp ↔ c.Live x ∧ (c.entry x).tp = some tp := by
  rw [h.owners.mem, ownerKey]
  split <;> simp [*]

theorem Placed.congr (c' : Cache) (hnext : ∀ x, c'.Live x ↔ c.Live x)
    (hbuckets : c'.buckets = c.buckets) (hlengths : c'.lengths = c.lengths)
    (htSc : c'.tSc = c.tSc) (hcount : c'.count = c.count) (hsecrets : c'.secrets = c.secrets)
    (hentry : ∀ x, c.Live x → place (c'.entry x) = place (c.entry x)) : Placed limits c' := by
  simp only [place, Prod.mk.injEq] at hentry
  constructor
  case buckets =>
    have hkey : c'.bucketKey = c.bucketKey := by
      funext x
      by_cases hx : c.Live x <;> simp [bucketKey, hnext, hx, hentry]
    rw [hbuckets, hkey]
    exact h.buckets
  case owners =>
    have hkey : c'.ownerKey = c.ownerKey := by
      funext x
      by_cases hx : c.Live x <;> simp [ownerKey, hnext, hx, hentry]
    rw [htSc, hkey]
    exact h.owners
  case count =>
    have hset : c'.liveSet = c.liveSet := Finset.ext fun x => by simp only [mem_liveSet, hnext]
    rw [hcount, hset]
    exact h.count
  case owned =>
    simp only [hnext]
    exact fun x hx => by simpa [hentry x hx] using h.owned x hx
  case hashed =>
    simp only [hnext]
    exact fun x hx => by simpa [hentry x hx, hsecrets] using h.hashed x hx
  case index =>
    simp only [hnext]
    exact fun x hx => by simpa [hentry x hx] using h.index x hx
  case unique =>
    simp only [hnext]
    exact fun x y hx hy => by simpa [hentry x hx, hentry y hy] using h.unique x y hx hy
  case length => simpa [hlengths, hbuckets] using h.length
  case length_le => simpa [hbuckets] using h.length_le
  case count_le => simpa [hcount] using h.count_le

omit h in
theorem live_modify {f : Entry → Entry} (hlive : (f (c.entry id)).live = (c.entry id).live)
    (x : ℕ) : (c.modify id f).Live x ↔ c.Live x := by
  by_cases hx : x = id
  · subst hx
    simp [Live, Cache.modify, hlive]
  · simp [Live, Cache.modify, hx]

theorem Placed.modify (f : Entry → Entry) (hlive : (f (c.entry id)).live = (c.entry id).live)
    (hplace : (c.entry id).live = true → place (f (c.entry id)) = place (c.entry id)) :
    Placed limits (c.modify id f) := by
  apply h.congr (c.modify id f) (live_modify hlive) rfl rfl rfl rfl rfl
  intro x hx
  by_cases hxid : x = id
  · subst hxid
    simpa [Cache.modify] using hplace hx.2
  · simp [Cache.modify, hxid]

omit h in
theorem live_rm (c : Cache) (id x : ℕ) : (c.rm id).Live x ↔ c.Live x ∧ x ≠ id := by
  by_cases hx : x = id
  · simp [hx, Live, Cache.rm, Cache.modify, Entry.live_rm]
  · simp [hx, Live, Cache.rm, Cache.modify]

theorem Placed.rm (hlive : c.Live id) : Placed limits (c.rm id) := by
  have hother : ∀ x, x ≠ id → (c.rm id).entry x = c.entry x := fun x hx => update_of_ne hx _ _
  have hin : id ∈ c.buckets (c.entry id).bucketidx := h.mem_bucket.mpr ⟨hlive, rfl⟩
  have hold : ∀ {x}, (c.rm id).Live x → c.Live x ∧ (c.rm id).entry x = c.entry x := by
    intro x hx
    rw [live_rm] at hx
    exact ⟨hx.1, hother x hx.2⟩
  constructor
  case buckets =>
    have hkey : (c.rm id).bucketKey = update c.bucketKey id none := by
      funext x
      by_cases hx : x = id
      · simp [hx, bucketKey, live_rm]
      · simp [hx, bucketKey, live_rm, hother x hx]
    rw [hkey]
    exact h.buckets.remove id
  case owners =>
    have hkey : (c.rm id).ownerKey = update c.ownerKey id none := by
      funext x
      by_cases hx : x = id
      · simp [hx, ownerKey, live_rm]
      · simp [hx, ownerKey, live_rm, hother x hx]
    rw [hkey]
    exact h.owners.remove id
  case owned =>
    intro x hx
    rw [(hold hx).2]
    exact h.owned x (hold hx).1
  case hashed =>
    intro x hx
    rw [(hold hx).2]
    exact h.hashed x (hold hx).1
  case index =>
    intro x hx
    rw [(hold hx).2]
    exact h.index x (hold hx).1
  case unique =>
    intro x y hx hy
    rw [(hold hx).2, (hold hy).2]
    exact h.unique x y (hold hx).1 (hold hy).1
  case length =>
    intro b
    have hlen := h.length b
    by_cases hb : b = (c.entry id).bucketidx
    · subst hb
      have hpos := length_pos_of_mem hin
      simp only [Cache.rm, update_self, Queues.remove, length_erase_of_mem hin]
      bv_omega
    · have hnot : id ∉ c.buckets b := fun hmem => hb (h.mem_bucket.mp hmem).2.symm
      simpa [Cache.rm, hb, Queues.remove, erase_of_not_mem hnot] using hlen
  case length_le => exact fun b => length_erase_le.trans (h.length_le b)
  case count =>
    have hset : (c.rm id).liveSet = c.liveSet.erase id := by
      ext x
      rw [mem_liveSet, live_rm, Finset.mem_erase, mem_liveSet, and_comm]
    rw [hset, Finset.card_erase_of_mem (mem_liveSet.mpr hlive), ← h.count]
    rfl
  case count_le => exact (Nat.sub_le _ _).trans h.count_le

theorem Placed.rekey (secrets : Secrets) : Placed limits (c.rekey secrets) := by
  unfold Cache.rekey
  split
  case isFalse => exact h
  case isTrue hzero =>
    have hnone : ∀ x, ¬c.Live x := by
      intro x hx
      have hpos := Finset.card_pos.mpr ⟨x, mem_liveSet.mpr hx⟩
      rw [← h.count, hzero] at hpos
      exact absurd hpos (lt_irrefl 0)
    exact { h with hashed := fun x hx => absurd hx (hnone x) }

theorem Placed.lookup {src dst : Sockaddr} (hlookup : c.lookup src dst = some id) :
    c.Live id ∧ (c.entry id).src = src ∧ (c.entry id).dst = dst := by
  have hmatch := find?_some hlookup
  simp only [decide_eq_true_eq] at hmatch
  exact ⟨(h.mem_bucket.mp (mem_of_find?_eq_some hlookup)).1, hmatch.2⟩

theorem Placed.lookup_live (hlive : c.Live id) :
    c.lookup (c.entry id).src (c.entry id).dst = some id := by
  cases hfind : c.lookup (c.entry id).src (c.entry id).dst with
  | none =>
    have hmem : id ∈ c.buckets ((synHash c.secrets (c.entry id).src (c.entry id).dst).toNat %
        tcpSynCacheSize) := by
      rw [h.mem_bucket, h.index id hlive, h.hashed id hlive]
      exact ⟨hlive, rfl⟩
    have hno := find?_eq_none.mp hfind id hmem
    simp [h.hashed id hlive] at hno
  | some y =>
    obtain ⟨hy, hsrc, hdst⟩ := h.lookup hfind
    rw [h.unique y id hy hlive hsrc hdst]

end

/-! ### Insertion -/

structure Unlinked (c : Cache) (id tp : ℕ) : Prop where
  lt_next : id < c.next
  inserted : (c.entry id).inserted = false
  dead : (c.entry id).dead = false
  func : (c.entry id).func = none
  onqueue : (c.entry id).onqueue = false
  given : (c.entry id).given = 0
  held : (c.entry id).held = false
  owned : (c.entry id).tp = some tp
  hashed : (c.entry id).hash = synHash c.secrets (c.entry id).src (c.entry id).dst
  index : (c.entry id).bucketidx = (c.entry id).hash.toNat % tcpSynCacheSize
  fresh : ∀ x, c.Live x → ¬((c.entry x).src = (c.entry id).src ∧ (c.entry x).dst = (c.entry id).dst)

theorem Unlinked.not_live (hu : Unlinked c id tp) : ¬c.Live id := by
  simp [Live, live, hu.inserted]

theorem Unlinked.timerArm (hu : Unlinked c id tp) :
    ∃ rxtcur, Entry.timerArm { c.entry id with rxttot := 0, rxtshift := 0, inserted := true } =
      { c.entry id with
        rxtcur := rxtcur, rxttot := 0, rxtshift := 0, inserted := true, func := some .timer
        onqueue := true, linked := (c.entry id).linked + 1 } := by
  simp [Entry.timerArm, Entry.timeoutSet, Entry.timeoutAdd, hu.func]

theorem Placed.link (h : Placed limits c) (hu : Unlinked c id tp)
    (hlength : (c.buckets (c.entry id).bucketidx).length < limits.synBucketLimit)
    (hless : c.count < limits.synCacheLimit) (hlimit : limits.synBucketLimit < 2 ^ 16) :
    Placed limits (c.link id tp) := by
  obtain ⟨rxtcur, harm⟩ := hu.timerArm
  have hown : (c.link id tp).entry id = _ := (update_self ..).trans harm
  have hother : ∀ x, x ≠ id → (c.link id tp).entry x = c.entry x := fun x hx => update_of_ne hx _ _
  have hlive : ∀ x, (c.link id tp).Live x ↔ c.Live x ∨ x = id := by
    intro x
    have hnext : (c.link id tp).next = c.next := rfl
    by_cases hx : x = id
    · simp [Live, hx, hnext, hown, hu.lt_next, live, hu.dead]
    · simp [Live, hx, hnext, hother x hx]
  have hne : ∀ {x}, c.Live x → x ≠ id := fun hx heq => hu.not_live (heq ▸ hx)
  constructor
  case buckets =>
    have hkey : (c.link id tp).bucketKey = update c.bucketKey id (some (c.entry id).bucketidx) := by
      funext x
      by_cases hx : x = id
      · simp [hx, bucketKey, hlive, hown]
      · simp [hx, bucketKey, hlive, hother x hx]
    rw [hkey]
    exact h.buckets.put (by simp [bucketKey, hu.not_live]) (perm_append_singleton _ _)
  case owners =>
    have hkey : (c.link id tp).ownerKey = update c.ownerKey id (some tp) := by
      funext x
      by_cases hx : x = id
      · simp [hx, ownerKey, hlive, hown, hu.owned]
      · simp [hx, ownerKey, hlive, hother x hx]
    rw [hkey]
    exact h.owners.put (by simp [ownerKey, hu.not_live]) (List.Perm.refl _)
  case owned =>
    intro x hx
    rcases (hlive x).mp hx with hold | rfl
    · rw [hother x (hne hold)]
      exact h.owned x hold
    · rw [hown]
      exact ⟨tp, hu.owned⟩
  case hashed =>
    intro x hx
    rcases (hlive x).mp hx with hold | rfl
    · rw [hother x (hne hold)]
      exact h.hashed x hold
    · rw [hown]
      exact hu.hashed
  case index =>
    intro x hx
    rcases (hlive x).mp hx with hold | rfl
    · rw [hother x (hne hold)]
      exact h.index x hold
    · rw [hown]
      exact hu.index
  case unique =>
    intro x y hx hy hsrc hdst
    rcases (hlive x).mp hx with hold | rfl
    · rw [hother x (hne hold)] at hsrc hdst
      rcases (hlive y).mp hy with hold' | rfl
      · rw [hother y (hne hold')] at hsrc hdst
        exact h.unique x y hold hold' hsrc hdst
      · rw [hown] at hsrc hdst
        exact absurd ⟨hsrc, hdst⟩ (hu.fresh x hold)
    · rw [hown] at hsrc hdst
      rcases (hlive y).mp hy with hold' | rfl
      · rw [hother y (hne hold')] at hsrc hdst
        exact absurd ⟨hsrc.symm, hdst.symm⟩ (hu.fresh y hold')
      · rfl
  case length =>
    intro b
    have hlen := h.length b
    by_cases hb : b = (c.entry id).bucketidx
    · subst hb
      simp only [Cache.link, update_self, length_append, length_singleton]
      bv_omega
    · simpa [Cache.link, hb] using hlen
  case length_le =>
    intro b
    by_cases hb : b = (c.entry id).bucketidx
    · subst hb
      simpa [Cache.link] using hlength
    · simpa [Cache.link, hb] using h.length_le b
  case count =>
    have hset : (c.link id tp).liveSet = Insert.insert id c.liveSet := by
      ext x
      rw [mem_liveSet, hlive, Finset.mem_insert, mem_liveSet, or_comm]
    have hmem : id ∉ c.liveSet := fun hmem => hu.not_live (mem_liveSet.mp hmem)
    rw [hset, Finset.card_insert_of_notMem hmem, ← h.count]
    rfl
  case count_le => exact hless

/-! ## The functions of the cache -/

structure Inv (limits : Limits) (c : Cache) : Prop where
  placed : Placed limits c
  staged : Staged c

section

variable (h : Inv limits c)
include h

theorem Inv.rm (hlive : c.Live id) : Inv limits (c.rm id) := by
  have hstaged : Staged (c.modify id Entry.rm) :=
    h.staged.modify Entry.rm fun hid => (h.staged.stage id hid).rm hlive.2
  exact ⟨h.placed.rm hlive, { hstaged with }⟩

theorem Inv.given_eq_zero (hlive : c.Live id) : (c.entry id).given = 0 := by
  cases h.staged.stage id hlive.1 with
  | live _ _ hgiven | outside _ hgiven => exact hgiven
  | given hnot | reaping hnot | released hnot => simp [hlive.2] at hnot

theorem Inv.put (hlive : (c.entry id).live = false)
    (hgiven : (c.entry id).given = 0) : Inv limits (c.modify id put) := by
  constructor
  · apply h.placed.modify _ (live_put _)
    intro hnot
    simp [hlive] at hnot
  · exact h.staged.modify _ fun hid => (h.staged.stage id hid).put hlive hgiven

theorem Inv.drop (hlive : c.Live id) : Inv limits (c.drop id) := by
  have hentry : (c.rm id).entry id = (c.entry id).rm := update_self ..
  apply (h.rm hlive).put
  · rw [hentry]
    exact Entry.live_rm _
  · have hgiven : (c.entry id).rm.given = (c.entry id).given := by
      unfold Entry.rm Entry.timeoutDel
      split <;> rfl
    rw [hentry, hgiven]
    exact h.given_eq_zero hlive

omit h in
theorem live_drop (c : Cache) (id x : ℕ) : (c.drop id).Live x ↔ c.Live x ∧ x ≠ id := by
  rw [Cache.drop, live_modify (live_put _), live_rm]

omit h in
theorem entry_drop (hx : x ≠ id) : (c.drop id).entry x = c.entry x :=
  (entry_modify_of_ne hx _).trans (update_of_ne hx ..)

omit h in
theorem Unlinked.drop {victim : ℕ} (hu : Unlinked c id tp) (hlive : c.Live victim) :
    Unlinked (c.drop victim) id tp := by
  have hentry : (c.drop victim).entry id = c.entry id :=
    entry_drop fun heq => hu.not_live (heq ▸ hlive)
  have hfresh : ∀ x, (c.drop victim).Live x → ¬(((c.drop victim).entry x).src =
      (c.entry id).src ∧ ((c.drop victim).entry x).dst = (c.entry id).dst) := by
    intro x hx
    obtain ⟨hold, hne⟩ := (live_drop c victim x).mp hx
    rw [entry_drop hne]
    exact hu.fresh x hold
  constructor <;> try rw [hentry]
  exacts [hu.lt_next, hu.inserted, hu.dead, hu.func, hu.onqueue, hu.given, hu.held, hu.owned,
    hu.hashed, hu.index, hfresh]

theorem Inv.toss {idx : ℕ} (hu : Unlinked c id tp) (htoss : c.toss idx = some c') :
    Inv limits c' ∧ Unlinked c' id tp ∧ c'.entry id = c.entry id ∧ c'.count + 1 = c.count ∧
      (∀ b, (c'.buckets b).length ≤ (c.buckets b).length) ∧
      (c'.buckets idx).length + 1 = (c.buckets idx).length := by
  unfold Cache.toss at htoss
  split at htoss
  case h_1 => cases htoss
  case h_2 victim rest hbucket =>
    cases htoss
    have hin : victim ∈ c.buckets idx := by
      rw [hbucket]
      exact mem_cons_self
    have hlive : c.Live victim := (h.placed.mem_bucket.mp hin).1
    have hbuckets : ∀ b, (c.drop victim).buckets b = (c.buckets b).erase victim := fun _ => rfl
    have hcount : (c.drop victim).count = c.count - 1 := rfl
    have hpos : 0 < c.count := by
      rw [h.placed.count]
      exact Finset.card_pos.mpr ⟨victim, mem_liveSet.mpr hlive⟩
    refine ⟨h.drop hlive, hu.drop hlive, entry_drop fun heq => hu.not_live (heq ▸ hlive),
      ?_, ?_, ?_⟩
    · omega
    · exact fun b => length_erase_le
    · rw [hbuckets, length_erase_of_mem hin]
      have hpos := length_pos_of_mem hin
      omega

theorem Inv.makeRoom (hu : Unlinked c id tp)
    (hroom : c.makeRoom limits (c.entry id).bucketidx = some c') :
    Inv limits c' ∧ Unlinked c' id tp ∧
      (c'.buckets (c'.entry id).bucketidx).length < limits.synBucketLimit ∧
      c'.count < limits.synCacheLimit := by
  have hle := h.placed.length_le (c.entry id).bucketidx
  have hlen := h.placed.length (c.entry id).bucketidx
  have hcount := h.placed.count_le
  unfold Cache.makeRoom at hroom
  split at hroom
  case isTrue =>
    obtain ⟨hinv, hu', hentry, hless, -, hshort⟩ := h.toss hu hroom
    rw [hentry]
    exact ⟨hinv, hu', by omega, by omega⟩
  case isFalse hshort =>
    split at hroom
    case isTrue =>
      obtain ⟨idx, -, htoss⟩ := Option.bind_eq_some_iff.mp hroom
      obtain ⟨hinv, hu', hentry, hless, hlonger, -⟩ := h.toss hu htoss
      have hbound := hlonger (c.entry id).bucketidx
      rw [hentry]
      exact ⟨hinv, hu', by omega, by omega⟩
    case isFalse =>
      cases hroom
      exact ⟨h, hu, by omega, by omega⟩

variable (src dst : Sockaddr)

theorem Inv.allocate (irs iss : Serial.Seq) (win : BitVec 32) (tp : ℕ) :
    Inv limits (c.allocate src dst irs iss win tp) ∧
      ∀ x, (c.allocate src dst irs iss win tp).Live x ↔ c.Live x := by
  have hother : ∀ x, x < c.next → (c.allocate src dst irs iss win tp).entry x = c.entry x :=
    fun x hx => update_of_ne hx.ne _ _
  have hlive : ∀ x, (c.allocate src dst irs iss win tp).Live x ↔ c.Live x := by
    intro x
    rcases lt_trichotomy x c.next with hx | hx | hx
    · simp [Live, Cache.allocate, hx, hx.ne, Nat.lt_succ_of_lt hx]
    · simp [Live, hx, Cache.allocate, live]
    · have hgt : ¬x < c.next + 1 := by omega
      simp [Live, hx.le, Cache.allocate, hgt]
  have hruns : (c.allocate src dst irs iss win tp).runs c.next = none := by
    unfold runs
    split
    case h_1 id func hrun => exact if_neg (h.staged.running id func hrun).ne'
    case h_2 => rfl
  refine ⟨⟨?_, ?_, ?_⟩, hlive⟩
  · apply h.placed.congr (c.allocate src dst irs iss win tp) hlive rfl rfl rfl rfl rfl
    intro x hx
    simp [hother x hx.1]
  · intro x hx
    by_cases hxn : x = c.next
    · subst hxn
      rw [hruns]
      apply Entry.Stage.outside <;> simp [Cache.allocate, live]
    · have hlt : x < c.next := lt_of_le_of_ne (Nat.lt_succ_iff.mp hx) hxn
      rw [hother x hlt]
      exact h.staged.stage x hlt
  · exact fun x func hrun => Nat.lt_succ_of_lt (h.staged.running x func hrun)

omit h in
theorem rekey_eq (c : Cache) (secrets : Secrets) :
    ∃ drawn, c.rekey secrets = { c with secrets := drawn } := by
  unfold Cache.rekey
  split
  · exact ⟨secrets, rfl⟩
  · exact ⟨c.secrets, rfl⟩

namespace Inv

theorem rekey (secrets : Secrets) : Inv limits (c.rekey secrets) := by
  refine ⟨h.placed.rekey secrets, ?_⟩
  obtain ⟨drawn, hdrawn⟩ := rekey_eq c secrets
  rw [hdrawn]
  exact { h.staged with }

theorem assign (hlive : (c.entry id).live = false) : Inv limits (c.assign id) := by
  constructor
  · apply h.placed.modify
    · rfl
    · exact fun hnot => absurd hnot (by simp [hlive])
  · apply h.staged.modify
    exact fun hid => (h.staged.stage id hid).congr rfl rfl rfl rfl rfl rfl rfl

theorem assigned {src dst : Sockaddr} (hnone : c.lookup src dst = none)
    (irs iss : Serial.Seq) (win : BitVec 32) (tp : ℕ) (secrets : Secrets) :
    Inv limits (((c.allocate src dst irs iss win tp).rekey secrets).assign c.next) ∧
      Unlinked (((c.allocate src dst irs iss win tp).rekey secrets).assign c.next) c.next tp := by
  obtain ⟨halloc, hsame⟩ := h.allocate src dst irs iss win tp
  have hrekey := halloc.rekey secrets
  obtain ⟨drawn, hdrawn⟩ := rekey_eq (c.allocate src dst irs iss win tp) secrets
  rw [hdrawn] at hrekey ⊢
  refine ⟨hrekey.assign (by simp [Cache.allocate, live]), ?_⟩
  constructor
  case lt_next => exact Nat.lt_succ_self _
  case fresh =>
    intro x hx
    have hold : c.Live x := by
      rw [← hsame]
      by_cases hxn : x = c.next
      · subst hxn
        simp [Live, Cache.assign, Cache.modify, Cache.allocate, live] at hx
      · simpa [Live, Cache.assign, Cache.modify, hxn] using hx
    have hne : x ≠ c.next := hold.1.ne
    simp only [Cache.assign, Cache.modify, Cache.allocate, update_self, update_of_ne hne]
    rintro ⟨rfl, rfl⟩
    rw [h.placed.lookup_live hold] at hnone
    cases hnone
  all_goals simp [Cache.assign, Cache.modify, Cache.allocate]

theorem add (hlimit : limits.synBucketLimit < 2 ^ 16) {src dst : Sockaddr} {irs iss : Serial.Seq}
    {win : BitVec 32} {allocated responded : Bool} {secrets : Secrets}
    (hadd : c.add limits tp src dst irs iss win allocated responded secrets = some c') :
    Inv limits c' := by
  unfold Cache.add at hadd
  split at hadd
  case isTrue =>
    cases hadd
    exact h
  case isFalse hnew =>
    have hnone : c.lookup src dst = none := by
      rw [Bool.or_eq_true, not_or] at hnew
      simpa using hnew.1
    split at hadd
    case isTrue =>
      obtain ⟨hinv, hu⟩ := h.assigned hnone irs iss win tp secrets
      obtain ⟨room, hroom, rfl⟩ := Option.map_eq_some_iff.mp hadd
      obtain ⟨hinv', hu', hlength, hless⟩ := hinv.makeRoom hu hroom
      refine ⟨hinv'.placed.link hu' hlength hless hlimit, ?_⟩
      have hidle : room.runs c.next = none := by
        cases hinv'.staged.stage c.next hu'.lt_next with
        | live hlive => simp [live, hu'.inserted] at hlive
        | outside _ _ _ _ _ hrun => simpa [hu'.dead] using hrun
        | given _ hnot | reaping _ hnot | released _ hnot => simp [hu'.given] at hnot
      have hstaged : Staged (room.modify c.next fun e =>
          timerArm { e with rxttot := 0, rxtshift := 0, inserted := true }) := by
        apply hinv'.staged.modify
        intro hid
        have hstage := hinv'.staged.stage c.next hid
        rw [hidle] at hstage ⊢
        exact hstage.insert (by simp [live, hu'.inserted]) hu'.given hu'.dead hu'.func
      exact { hstaged with }
    case isFalse =>
      cases hadd
      apply (h.allocate src dst irs iss win tp).1.put
      · simp [Cache.allocate, live]
      · simp [Cache.allocate]

/-! ### The other functions -/

theorem modify (f : Entry → Entry)
    (hsame : ∀ e, f e =
      { e with unreach := (f e).unreach, rxttot := (f e).rxttot, held := (f e).held }) :
    Inv limits (c.modify id f) := by
  constructor
  · apply h.placed.modify
    · rw [hsame]
      rfl
    · intro _
      rw [hsame]
      exact rfl
  · apply h.staged.modify
    intro hid
    rw [hsame]
    exact (h.staged.stage id hid).congr rfl rfl rfl rfl rfl rfl rfl

theorem hold (hlive : c.Live id) : Inv limits (c.hold id) := (h.rm hlive).modify _ fun _ => rfl

theorem get (seq ack : Serial.Seq) : Inv limits (c.get src dst seq ack) := by
  unfold Cache.get
  split
  case h_1 => exact h
  case h_2 id hfound =>
    dsimp only
    split
    · exact h
    · exact h.hold (h.placed.lookup hfound).1

theorem reset (seq : Serial.Seq) : Inv limits (c.reset src dst seq) := by
  unfold Cache.reset
  split
  case h_1 => exact h
  case h_2 id hfound =>
    dsimp only
    split
    · exact h
    · exact h.hold (h.placed.lookup hfound).1

theorem unreach (seq : Serial.Seq) : Inv limits (c.unreach src dst seq) := by
  unfold Cache.unreach
  split
  case h_1 => exact h
  case h_2 id hfound =>
    dsimp only
    split
    · exact h
    · split
      · exact h.modify _ fun _ => rfl
      · exact h.hold (h.placed.lookup hfound).1

omit h in
theorem dropAll (ids : List ℕ) (hnodup : ids.Nodup) (h : Inv limits c)
    (hlive : ∀ x ∈ ids, c.Live x) :
    Inv limits (ids.foldl Cache.drop c) ∧
      ∀ tp x, x ∈ (ids.foldl Cache.drop c).tSc tp → x ∈ c.tSc tp ∧ x ∉ ids := by
  induction ids generalizing c with
  | nil => exact ⟨h, fun tp x hx => ⟨hx, not_mem_nil⟩⟩
  | cons id ids ih =>
    obtain ⟨hout, hrest⟩ := nodup_cons.mp hnodup
    have hid := hlive id mem_cons_self
    have hstep := ih hrest (h.drop hid) fun x hx => (live_drop c id x).mpr
      ⟨hlive x (mem_cons_of_mem id hx), fun heq => hout (heq ▸ hx)⟩
    refine ⟨hstep.1, ?_⟩
    intro tp x hx
    obtain ⟨hmem, hnot⟩ := hstep.2 tp x hx
    have hmem' : x ∈ (c.tSc tp).erase id := hmem
    obtain ⟨hne, hold⟩ := (h.placed.owners.nodup tp).mem_erase_iff.mp hmem'
    exact ⟨hold, by simp [hne, hnot]⟩

theorem cleanup (tp : ℕ) : Inv limits (c.cleanup tp) := by
  obtain ⟨hinv, hgone⟩ := dropAll (c.tSc tp) (h.placed.owners.nodup tp) h fun x hx =>
    (h.placed.mem_owner.mp hx).1
  unfold Cache.cleanup
  dsimp only
  generalize (c.tSc tp).foldl Cache.drop c = after at hinv hgone ⊢
  have hempty : after.tSc tp = [] := by
    apply eq_nil_iff_forall_not_mem.mpr
    intro x hx
    obtain ⟨hin, hout⟩ := hgone tp x hx
    exact hout hin
  rw [← hempty, update_eq_self]
  exact hinv

theorem stage_running {func : Callback} (hrun : c.running = some (id, func)) :
    (c.entry id).Stage (some func) := by
  have hstage := h.staged.stage id (h.staged.running id _ hrun)
  rwa [show c.runs id = some func by simp [runs, hrun]] at hstage

theorem idle (hrun : c.running = some (id, .timer)) (hdead : (c.entry id).dead = true) :
    Inv limits { c with running := none } := by
  have hdone := h.staged.done hrun (fun e => e) ((h.stage_running hrun).idle hdead)
  simp only [Cache.modify, update_eq_self] at hdone
  exact ⟨{ h.placed with }, hdone⟩

theorem dropRunning (hlive : c.Live id) (hrun : c.running = some (id, .timer)) :
    Inv limits { c.drop id with running := none } := by
  apply (h.drop hlive).idle hrun
  simp [Cache.drop, Cache.rm, Cache.modify, Entry.put, Entry.timeoutSet, Entry.timeoutAdd,
    Entry.rm, Entry.timeoutDel]
  split <;> rfl

theorem timer (hrun : c.running = some (id, .timer)) :
    Inv limits { c.synCacheTimer limits id with running := none } := by
  unfold Cache.synCacheTimer
  dsimp only
  split
  case isTrue hdead => exact h.idle hrun hdead
  case isFalse hdead =>
    have hlive : c.Live id := by
      cases h.stage_running hrun with
      | live hlive => exact ⟨h.staged.running id _ hrun, hlive⟩
      | outside _ _ _ _ _ hnot | given _ _ _ _ _ _ hnot => simp [hdead] at hnot
      | reaping _ _ _ _ _ hnot | released _ _ _ _ _ hnot => simp at hnot
    split
    case isTrue => exact h.dropRunning hlive hrun
    case isFalse =>
      have hinv : Inv limits (c.modify id fun e => { e with rxttot := e.rxttot + e.rxtcur }) :=
        h.modify _ fun _ => rfl
      have hlive' : (c.modify id fun e => { e with rxttot := e.rxttot + e.rxtcur }).Live id :=
        (live_modify rfl id).mpr hlive
      split
      case isTrue => exact hinv.dropRunning hlive' hrun
      case isFalse =>
        have hrun' : (c.modify id fun e => { e with rxttot := e.rxttot + e.rxtcur }).running =
          some (id, .timer) := hrun
        generalize c.modify id (fun e => { e with rxttot := e.rxttot + e.rxtcur }) = w
          at hinv hlive' hrun' ⊢
        have hplaced : Placed limits
            (w.modify id fun e => timerArm { e with rxtshift := e.rxtshift + 1 }) := by
          obtain ⟨_, _, _, _, harm⟩ := timerArm_eq
            { w.entry id with rxtshift := (w.entry id).rxtshift + 1 }
          apply hinv.placed.modify
          · rw [harm]
            rfl
          · rw [harm]
            exact fun _ => rfl
        exact ⟨{ hplaced with }, hinv.staged.done hrun' _
          ((hinv.stage_running hrun').rearm hlive'.2 _)⟩

end Inv

end

/-! ## Entries that are held -/

/-- Between two steps the entries that are neither live nor given to the reaper are those that
a function holds. -/
def Settled (c : Cache) (x : ℕ) : Prop := x < c.next → (c.entry x).held = (c.entry x).owed

theorem settled_update (hs : x ≠ id → c.Settled x) (hnext : c'.next = c.next)
    (hid : (c'.entry id).held = (c'.entry id).owed) (hother : x ≠ id → c'.entry x = c.entry x) :
    c'.Settled x := by
  intro hx
  by_cases hxid : x = id
  · exact hxid ▸ hid
  · rw [hother hxid]
    exact hs hxid (hnext ▸ hx)

theorem settled_put (hs : x ≠ id → c.Settled x) : (c.modify id Entry.put).Settled x :=
  settled_update hs rfl (by rw [entry_modify_self]; exact held_put _)
    fun hx => entry_modify_of_ne hx _

section

variable (hs : c.Settled x)
include hs

theorem Settled.modify {f : Entry → Entry} (hheld : (f (c.entry id)).held = (c.entry id).held)
    (howed : (f (c.entry id)).owed = (c.entry id).owed) : (c.modify id f).Settled x := by
  intro hx
  by_cases hxid : x = id
  · subst hxid
    rw [entry_modify_self, hheld, howed]
    exact hs hx
  · rw [entry_modify_of_ne hxid]
    exact hs hx

theorem Settled.drop : (c.drop id).Settled x :=
  settled_update (fun _ => hs) rfl (by rw [Cache.drop, entry_modify_self]; exact held_put _)
    entry_drop

theorem Settled.hold (hgiven : (c.entry id).given = 0) : (c.hold id).Settled x := by
  refine settled_update (fun _ => hs) rfl ?_ fun hx =>
    (entry_modify_of_ne hx _).trans (update_of_ne hx ..)
  have hentry : (c.hold id).entry id = { (c.entry id).rm with held := true } := by
    simp [Cache.hold, Cache.rm]
  obtain ⟨_, _, hrm⟩ := timeoutDel_eq { c.entry id with dead := true, tp := none }
  rw [hentry, Entry.rm, hrm]
  simp [owed, live, hgiven]

theorem Settled.makeRoom {idx : ℕ} (hroom : c.makeRoom limits idx = some c') : c'.Settled x := by
  have htoss : ∀ idx, c.toss idx = some c' → c'.Settled x := by
    intro idx htoss
    unfold Cache.toss at htoss
    split at htoss <;> cases htoss
    exact hs.drop
  unfold Cache.makeRoom at hroom
  split_ifs at hroom
  · exact htoss _ hroom
  · obtain ⟨idx, -, hidx⟩ := Option.bind_eq_some_iff.mp hroom
    exact htoss idx hidx
  · cases hroom
    exact hs

theorem Settled.lookup {g : ℕ → Cache} {found : Option ℕ}
    (hg : ∀ id, found = some id → (g id).Settled x) :
    (match found with | none => c | some id => g id).Settled x := by
  split
  · exact hs
  · exact hg _ rfl

theorem Settled.dropAll (ids : List ℕ) : (ids.foldl Cache.drop c).Settled x := by
  induction ids generalizing c with
  | nil => exact hs
  | cons id ids ih => exact ih hs.drop

theorem Settled.timer : (c.synCacheTimer limits id).Settled x := by
  have hsame : ∀ {e : Entry}, e.timerArm.held = e.held ∧ e.timerArm.owed = e.owed := by
    intro e
    obtain ⟨_, _, _, _, harm⟩ := timerArm_eq e
    rw [harm]
    exact ⟨rfl, rfl⟩
  have htotal : (c.modify id fun e => { e with rxttot := e.rxttot + e.rxtcur }).Settled x :=
    hs.modify rfl rfl
  unfold Cache.synCacheTimer
  dsimp only
  split_ifs
  · exact hs
  · exact hs.drop
  · exact htotal.drop
  · exact htotal.modify hsame.1 hsame.2

end

theorem Settled.allocate (hs : ∀ x, c.Settled x) (src dst : Sockaddr) (irs iss : Serial.Seq)
    (win : BitVec 32) (tp : ℕ) (hx : x ≠ c.next) :
    (c.allocate src dst irs iss win tp).Settled x := by
  intro hlt
  have hentry : (c.allocate src dst irs iss win tp).entry x = c.entry x := update_of_ne hx ..
  rw [hentry]
  exact hs x (lt_of_le_of_ne (Nat.lt_succ_iff.mp hlt) hx)

theorem Inv.settled_add (h : Inv limits c) (hs : ∀ x, c.Settled x) {src dst : Sockaddr}
    {irs iss : Serial.Seq} {win : BitVec 32} {allocated responded : Bool} {secrets : Secrets}
    (hadd : c.add limits tp src dst irs iss win allocated responded secrets = some c') :
    c'.Settled x := by
  have hold := Settled.allocate (x := x) hs src dst irs iss win tp
  unfold Cache.add at hadd
  split_ifs at hadd with hnew
  · cases hadd
    exact hs x
  · have hnone : c.lookup src dst = none := by
      rw [Bool.or_eq_true, not_or] at hnew
      simpa using hnew.1
    obtain ⟨hinv, hu⟩ := h.assigned hnone irs iss win tp secrets
    obtain ⟨room, hroom, rfl⟩ := Option.map_eq_some_iff.mp hadd
    obtain ⟨-, hu', -⟩ := hinv.makeRoom hu hroom
    obtain ⟨_, harm⟩ := hu'.timerArm
    obtain ⟨drawn, hdrawn⟩ := rekey_eq (c.allocate src dst irs iss win tp) secrets
    rw [hdrawn] at hroom
    refine settled_update (c := room) (fun hx : x ≠ c.next => ?_) rfl ?_ fun hx =>
      update_of_ne hx ..
    · have hbefore : Settled { c.allocate src dst irs iss win tp with secrets := drawn } x :=
        hold hx
      exact (hbefore.modify rfl rfl).makeRoom hroom
    · have hentry : (room.link c.next tp).entry c.next = _ := (update_self ..).trans harm
      rw [hentry]
      simp [owed, live, hu'.dead, hu'.held]
  · cases hadd
    exact settled_put hold

end Cache

/-! ## Runs -/

open Cache

theorem initial_inv (limits : Limits) (entry : ℕ → Entry) (secrets : Secrets) :
    Inv limits (initial entry secrets) := by
  constructor
  · constructor
    case count => rfl
    case buckets => constructor <;> simp [bucketKey, Live, initial]
    case owners => constructor <;> simp [ownerKey, Live, initial]
    all_goals simp [Live, initial]
  · constructor
    · exact fun x hx => absurd hx (Nat.not_lt_zero x)
    · exact nofun

variable {limits : Limits} {c : Cache}

theorem step_inv (hlimit : limits.synBucketLimit < 2 ^ 16) {c' : Cache} (h : Inv limits c)
    (hs : ∀ x, c.Settled x) {event : Event} (hstep : step limits c event = some c') :
    Inv limits c' := by
  cases event with
  | add tp src dst irs iss win allocated responded secrets =>
    exact h.add hlimit hstep
  | get src dst seq ack =>
    cases hstep
    exact h.get src dst seq ack
  | reset src dst seq =>
    cases hstep
    exact h.reset src dst seq
  | unreach src dst seq =>
    cases hstep
    exact h.unreach src dst seq
  | put id =>
    simp only [step] at hstep
    split_ifs at hstep with hheld
    cases hstep
    have howed := (hs id hheld.1).symm.trans hheld.2
    simp only [owed, Bool.and_eq_true, beq_iff_eq, Bool.not_eq_true'] at howed
    exact h.put howed.1 howed.2
  | cleanup tp =>
    cases hstep
    exact h.cleanup tp
  | softclock id =>
    simp only [step] at hstep
    split at hstep
    case h_1 func hidle hfunc =>
      split_ifs at hstep with hin
      cases hstep
      obtain ⟨_, _, hdel⟩ := timeoutDel_eq (c.entry id)
      have hplaced : Placed limits (c.modify id timeoutDel) := by
        apply h.placed.modify
        · rw [hdel]
          rfl
        · rw [hdel]
          exact fun _ => rfl
      refine ⟨{ hplaced with }, ?_, ?_⟩
      · intro x hx
        have hstage := h.staged.stage x hx
        by_cases hxid : x = id
        · subst hxid
          simp only [runs, hidle] at hstage ⊢
          rw [entry_modify_self]
          exact hstage.softclock hfunc hin.2
        · simpa [runs, hidle, hxid, entry_modify_of_ne hxid] using hstage
      · intro x func hrun
        cases hrun
        exact hin.1
    case h_2 => cases hstep
  | callback =>
    simp only [step] at hstep
    split at hstep
    case h_1 => cases hstep
    case h_2 id hrun =>
      cases hstep
      exact h.timer hrun
    case h_3 id hrun =>
      cases hstep
      have hplaced : Placed limits (c.modify id fun e => { e with reaped := e.reaped + 1 }) :=
        h.placed.modify _ rfl fun _ => rfl
      exact ⟨{ hplaced with }, h.staged.done hrun _ (h.stage_running hrun).reap⟩

theorem step_settled (h : Inv limits c) (hs : ∀ x, c.Settled x) {c' : Cache} {event : Event}
    (hstep : step limits c event = some c') (x : ℕ) : c'.Settled x := by
  have hhold : ∀ {src dst id}, c.lookup src dst = some id → (c.hold id).Settled x :=
    fun hfound => (hs x).hold (h.given_eq_zero (h.placed.lookup hfound).1)
  cases event with
  | add => exact h.settled_add hs hstep
  | get | reset =>
    cases hstep
    refine (hs x).lookup fun id hfound => ?_
    dsimp only
    split_ifs
    exacts [hs x, hhold hfound]
  | unreach =>
    cases hstep
    refine (hs x).lookup fun id hfound => ?_
    dsimp only
    split_ifs
    exacts [hs x, (hs x).modify rfl rfl, hhold hfound]
  | put id =>
    simp only [step] at hstep
    split_ifs at hstep
    cases hstep
    exact settled_put fun _ => hs x
  | cleanup tp =>
    cases hstep
    exact (hs x).dropAll _
  | softclock id =>
    simp only [step] at hstep
    split at hstep <;> try split at hstep
    all_goals cases hstep
    obtain ⟨_, _, hdel⟩ := timeoutDel_eq (c.entry id)
    have hafter : (c.modify id timeoutDel).Settled x :=
      (hs x).modify (by rw [hdel]) (by rw [hdel]; rfl)
    exact hafter
  | callback =>
    simp only [step] at hstep
    split at hstep <;> cases hstep
    · exact (hs x).timer
    · rename_i id _
      have hafter : (c.modify id fun e => { e with reaped := e.reaped + 1 }).Settled x :=
        (hs x).modify rfl rfl
      exact hafter

def Cache.bucketOf (c : Cache) (id : ℕ) : ℕ :=
  (synHash c.secrets (c.entry id).src (c.entry id).dst).toNat % tcpSynCacheSize

/-- What is expected of the cache: where the live entries are, what the lengths count, and
that every allocated entry that is not live, nor held by a function that is to come to its
`SYN_CACHE_PUT`, has been given to the reaper once, is on no list and has no other timeout. -/
structure Consistent (limits : Limits) (c : Cache) : Prop where
  bucket : ∀ b id, id ∈ c.buckets b ↔ c.Live id ∧ c.bucketOf id = b
  owner : ∀ tp id, id ∈ c.tSc tp ↔ c.Live id ∧ (c.entry id).tp = some tp
  owned : ∀ id, c.Live id → ∃ tp, (c.entry id).tp = some tp
  unique : ∀ x y, c.Live x → c.Live y → (c.entry x).src = (c.entry y).src →
    (c.entry x).dst = (c.entry y).dst → x = y
  found : ∀ id, c.Live id → c.lookup (c.entry id).src (c.entry id).dst = some id
  length : ∀ b, (c.lengths b).toNat = (c.liveSet.filter fun id => c.bucketOf id = b).card
  length_le : ∀ b, (c.lengths b).toNat ≤ limits.synBucketLimit
  count : c.count = c.liveSet.card
  count_le : c.count ≤ limits.synCacheLimit
  once : ∀ id < c.next, (c.entry id).reaped ≤ (c.entry id).given ∧
    (c.entry id).given = if (c.entry id).live || (c.entry id).held then 0 else 1
  left : ∀ id < c.next, 0 < (c.entry id).given → (∀ b, id ∉ c.buckets b) ∧ ∀ tp, id ∉ c.tSc tp
  waiting : ∀ id < c.next, 0 < (c.entry id).given → (c.entry id).reaped = 0 →
    (c.entry id).linked = 1 ∧ (c.entry id).func = some .reaper ∧
        c.running ≠ some (id, .reaper) ∨
      (c.entry id).linked = 0 ∧ c.running = some (id, .reaper)
  finished : ∀ id < c.next, 0 < (c.entry id).reaped →
    (c.entry id).linked = 0 ∧ ∀ func, c.running ≠ some (id, func)

theorem Cache.Placed.bucketOf (h : Placed limits c) {id : ℕ}
    (hlive : c.Live id) : (c.entry id).bucketidx = c.bucketOf id := by
  rw [h.index id hlive, h.hashed id hlive]
  rfl

theorem Cache.running_of_runs {id : ℕ} {func : Callback} :
    c.running = some (id, func) ↔ c.runs id = some func := by
  unfold runs
  split
  case h_1 y func' hrun =>
    rw [hrun]
    by_cases hy : id = y
    · simp [hy]
    · simp [hy, Ne.symm hy]
  case h_2 hrun => simp [hrun]

theorem Cache.Inv.consistent (h : Inv limits c) (hs : ∀ x, c.Settled x) : Consistent limits c := by
  have hbucket : ∀ b id, id ∈ c.buckets b ↔ c.Live id ∧ c.bucketOf id = b := by
    intro b id
    rw [h.placed.mem_bucket]
    apply and_congr_right
    intro hlive
    rw [h.placed.bucketOf hlive]
  constructor
  case bucket => exact hbucket
  case owner => exact fun _ _ => h.placed.mem_owner
  case owned => exact h.placed.owned
  case unique => exact h.placed.unique
  case found => exact fun _ => h.placed.lookup_live
  case length =>
    intro b
    rw [h.placed.length, ← toFinset_card_of_nodup (h.placed.buckets.nodup b)]
    congr 1
    ext id
    rw [mem_toFinset, Finset.mem_filter, mem_liveSet, hbucket]
  case length_le =>
    intro b
    rw [h.placed.length]
    exact h.placed.length_le b
  case count => exact h.placed.count
  case count_le => exact h.placed.count_le
  case once =>
    intro id hid
    rw [hs id hid, owed]
    cases h.staged.stage id hid <;> simp_all
  case left =>
    intro id hid hgiven
    have hlive : ¬c.Live id := by
      intro hlive
      cases h.staged.stage id hid with
      | live _ _ hnot | outside _ hnot => omega
      | given hnot | reaping hnot | released hnot => simp [hlive.2] at hnot
    exact ⟨fun b hmem => hlive (h.placed.mem_bucket.mp hmem).1,
      fun tp hmem => hlive (h.placed.mem_owner.mp hmem).1⟩
  case waiting =>
    intro id hid hgiven hreaped
    rw [Ne, running_of_runs]
    cases h.staged.stage id hid with
    | live _ _ hnot | outside _ hnot => omega
    | given _ _ _ hlinked _ hfunc hrun => exact .inl ⟨hlinked, hfunc, by aesop⟩
    | reaping _ _ _ hlinked _ hrun => exact .inr ⟨hlinked, hrun⟩
    | released _ _ hnot => omega
  case finished =>
    intro id hid hreaped
    cases h.staged.stage id hid with
    | released _ _ _ hlinked _ hrun =>
      refine ⟨hlinked, ?_⟩
      intro func hfunc
      rw [running_of_runs, hrun] at hfunc
      cases hfunc
    | live _ _ _ hnot | outside _ _ hnot | given _ _ hnot | reaping _ _ hnot => omega

theorem syn_cache_consistent (limits : Limits) (hlimit : limits.synBucketLimit < 2 ^ 16)
    (entry : ℕ → Entry) (secrets : Secrets) {c : Cache}
    (hrun : Run.Reaches (step limits) (initial entry secrets) c) : Consistent limits c := by
  have hinv := Run.GuardedRun.invariant (P := fun c => Inv limits c ∧ ∀ x, c.Settled x)
    ⟨initial_inv limits entry secrets, fun x hx => absurd hx (Nat.not_lt_zero x)⟩
    (fun _ _ _ h _ hstep => ⟨step_inv hlimit h.1 h.2 hstep, step_settled h.1 h.2 hstep⟩) hrun
  exact hinv.1.consistent hinv.2

def unusedEntry : Entry where
  src := .inet 0 0
  dst := .inet 0 0
  hash := 0
  bucketidx := 0
  tp := none
  dead := false
  unreach := false
  irs := 0
  iss := 0
  win := 0
  rxtcur := 0
  rxttot := 0
  rxtshift := 0
  func := none
  onqueue := false
  linked := 0
  held := false
  inserted := false
  given := 0
  reaped := 0

def cancelled (port : ℕ) : Event :=
  .add 0 (.inet 0 (BitVec.ofNat 16 port)) (.inet 0 0) 0 0 0 true true ⟨0, 0⟩

/-- The second entry tosses the first one, which is released; the third is removed by the
acknowledgement of its peer. -/
def tossedThenReleased : List Event :=
  [cancelled 1, cancelled 2, .softclock 0, .callback, cancelled 3, .get (.inet 0 3) (.inet 0 0) 1 1]

theorem syn_cache_consistent_tossed :
    let c := Run.execD (step ⟨2, 1, 150⟩) (fun _ _ => True)
      (initial (fun _ => unusedEntry) ⟨0, 0⟩) tossedThenReleased
    (c.entry 0).reaped = 1 ∧ (c.entry 1).given = 1 ∧ (c.entry 2).dead ∧ Consistent ⟨2, 1, 150⟩ c :=
  ⟨by decide +kernel, by decide +kernel, by decide +kernel,
    syn_cache_consistent ⟨2, 1, 150⟩ (by decide) (fun _ => unusedEntry) ⟨0, 0⟩
      (Run.GuardedRun.of_execD (by decide +kernel))⟩

/-! ### A bucket with more entries than its length can count -/

def wideLimits : Limits := ⟨2 ^ 16, 2 ^ 16, 150⟩

structure Flooded (n : ℕ) (c : Cache) : Prop where
  next : c.next = n
  count : c.count = n
  secrets : c.secrets = ⟨0, 0⟩
  bucket : c.buckets 0 = List.range n
  length : c.lengths 0 = BitVec.ofNat 16 n
  ports : ∀ id < n, (c.entry id).src = .inet 0 (BitVec.ofNat 16 id)

theorem Flooded.lookup {n : ℕ} (h : Flooded n c) (hn : n < 2 ^ 16) :
    c.lookup (.inet 0 (BitVec.ofNat 16 n)) (.inet 0 0) = none := by
  have hzero : synHash c.secrets (.inet 0 (BitVec.ofNat 16 n)) (.inet 0 0) = 0 := by
    simp [h.secrets, synHash]
  unfold Cache.lookup
  rw [hzero]
  apply find?_eq_none.mpr
  intro id hid
  have hlt : id < n := by
    have hid' : id ∈ c.buckets 0 := hid
    rwa [h.bucket, mem_range] at hid'
  have hport : BitVec.ofNat 16 id ≠ BitVec.ofNat 16 n := by
    intro heq
    have hnat := congrArg BitVec.toNat heq
    rw [BitVec.toNat_ofNat, BitVec.toNat_ofNat, Nat.mod_eq_of_lt hn,
      Nat.mod_eq_of_lt (hlt.trans hn)] at hnat
    exact hlt.ne hnat
  simp [h.ports id hlt, hport]

theorem Flooded.add {n : ℕ} (h : Flooded n c) (hn : n < 2 ^ 16) :
    ∃ c', step wideLimits c (cancelled n) = some c' ∧ Flooded (n + 1) c' := by
  have hshort : ¬wideLimits.synBucketLimit ≤ (c.lengths 0).toNat := not_le.mpr (c.lengths 0).isLt
  have hless : ¬wideLimits.synCacheLimit ≤ c.count := by
    rw [h.count]
    exact not_le.mpr hn
  have hnone := h.lookup hn
  have hrekey : ∀ c : Cache, c.secrets = ⟨0, 0⟩ → c.rekey ⟨0, 0⟩ = c := by
    intro c hsecrets
    unfold Cache.rekey
    split
    · rw [← hsecrets]
    · rfl
  -- the new entry, before it is linked
  generalize hnew : (c.allocate (.inet 0 (BitVec.ofNat 16 n)) (.inet 0 0) 0 0 0 0).assign c.next
    = new
  have hentry : (new.entry n).src = .inet 0 (BitVec.ofNat 16 n) ∧ (new.entry n).bucketidx = 0 := by
    simp [← hnew, ← h.next, Cache.assign, Cache.modify, Cache.allocate, h.secrets, synHash]
  have hroom : new.makeRoom wideLimits (new.entry n).bucketidx = some new := by
    have hsame : new.count = c.count ∧ new.lengths = c.lengths := by rw [← hnew]; exact ⟨rfl, rfl⟩
    rw [hentry.2, Cache.makeRoom, hsame.1, hsame.2, if_neg hshort, if_neg hless]
  have hstep : step wideLimits c (cancelled n) = some (new.link n 0) := by
    simp only [cancelled, step, Cache.add, hnone, Cache.insert]
    rw [hrekey _ (show (c.allocate _ _ _ _ _ _).secrets = _ from h.secrets), hnew, h.next, hroom]
    rfl
  refine ⟨_, hstep, ?_⟩
  unfold Cache.link
  rw [hentry.2]
  constructor
  case next => rw [← hnew, ← h.next]; rfl
  case count => rw [← hnew, ← h.count]; rfl
  case secrets => rw [← hnew]; exact h.secrets
  case bucket =>
    rw [← hnew]
    simp [Cache.assign, Cache.modify, Cache.allocate, h.bucket, range_succ]
  case length =>
    rw [← hnew]
    simp [Cache.assign, Cache.modify, Cache.allocate, h.length, BitVec.ofNat_add]
  case ports =>
    intro id hid
    by_cases hlast : id = n
    · subst hlast
      obtain ⟨_, _, _, _, harm⟩ := timerArm_eq
        { new.entry id with rxttot := 0, rxtshift := 0, inserted := true }
      rw [entry_modify_self, harm]
      exact hentry.1
    · have hlt : id < n := by omega
      have hne : id ≠ c.next := by
        rw [h.next]
        exact hlast
      rw [entry_modify_of_ne hlast, ← hnew, ← h.ports id hlt]
      simp [Cache.assign, Cache.modify, Cache.allocate, hne]

theorem flooded_of_le (n : ℕ) (hn : n ≤ 2 ^ 16) :
    ∃ c, Run.Reaches (step wideLimits) (initial (fun _ => unusedEntry) ⟨0, 0⟩) c ∧ Flooded n c := by
  induction n with
  | zero =>
    refine ⟨_, Run.GuardedRun.refl _ _ _, ?_⟩
    constructor
    case ports => exact fun id hid => absurd hid (Nat.not_lt_zero id)
    all_goals rfl
  | succ n ih =>
    obtain ⟨c, hrun, hflood⟩ := ih (Nat.le_of_succ_le hn)
    obtain ⟨c', hstep, hnext⟩ := hflood.add hn
    exact ⟨c', hrun.snoc trivial hstep, hnext⟩

theorem bucket_length_wraps :
    ∃ c, Run.Reaches (step wideLimits) (initial (fun _ => unusedEntry) ⟨0, 0⟩) c ∧
      (c.buckets 0).length = 2 ^ 16 ∧ c.lengths 0 = 0 ∧ ¬Consistent wideLimits c := by
  obtain ⟨c, hrun, h⟩ := flooded_of_le (2 ^ 16) le_rfl
  have hzero : c.lengths 0 = 0 := by
    rw [h.length]
    rfl
  refine ⟨c, hrun, by rw [h.bucket, length_range], hzero, ?_⟩
  intro hall
  have hmem : 0 ∈ c.buckets 0 := by
    rw [h.bucket, mem_range]
    exact Nat.two_pow_pos 16
  obtain ⟨hlive, hbucket⟩ := (hall.bucket 0 0).mp hmem
  have hpos : 0 < (c.liveSet.filter fun id => c.bucketOf id = 0).card :=
    Finset.card_pos.mpr ⟨0, Finset.mem_filter.mpr ⟨mem_liveSet.mpr hlive, hbucket⟩⟩
  rw [← hall.length 0, hzero] at hpos
  exact absurd hpos (by decide)

end AerieKernel.SynCache
