import AerieKernel.AdvisoryLockLists

/-!
# The lock map of a file

The lock list of a file stands for a map from owners and bytes to lock types.
A call changes the map where it says, and along a run the locks of one owner
stay disjoint and sorted and those of different owners compatible, as long as
no request computes the successor of the largest offset.
-/

namespace AerieKernel.AdvisoryLocks

open Run Function List System

/-! ## Changes of blocked lists only -/

section SameLocks

variable {change : Lockf → Lockf} (hchange : ∀ lf, SameLock lf (change lf))

include hchange

theorem holds_map (locks : List Lockf) (owner : Owner) (x : ℤ) (type : LockType) :
    Holds (locks.map change) owner x type ↔ Holds locks owner x type := by
  simp only [Holds, mem_map, exists_exists_and_eq_and]
  apply exists_congr
  intro lf
  rw [(hchange lf).lfId, (hchange lf).lfType, Lockf.Contains,
    (hchange lf).lfStart, (hchange lf).last]
  rfl

variable {locks : List Lockf}

theorem ValidList.map (hvalid : ValidList locks) : ValidList (locks.map change) := by
  constructor
  · simp only [mem_map, forall_exists_index, and_imp, forall_apply_eq_imp_iff₂]
    exact fun lf hlf => (hchange lf).wf (hvalid.wf lf hlf)
  · apply pairwise_map.mpr
    apply hvalid.sorted.imp
    intro lf lf' hafter
    rw [(hchange lf).lfId, (hchange lf').lfId, (hchange lf).last, (hchange lf').lfStart]
    exact hafter

variable {lock : Lockf}

theorem clearFits_map (hfits : ClearFits lock locks) : ClearFits lock (locks.map change) := by
  intro hmax
  simp only [mem_map, forall_exists_index, and_imp, forall_apply_eq_imp_iff₂]
  intro lf hlf
  rw [(hchange lf).lfId, (hchange lf).lfEnd]
  exact hfits hmax lf hlf

theorem setFits_map (hfits : SetFits lock locks) : SetFits lock (locks.map change) := by
  intro hmax
  simp only [mem_map, forall_exists_index, and_imp, forall_apply_eq_imp_iff₂]
  intro lf hlf
  rw [(hchange lf).lfId, (hchange lf).lfEnd, (hchange lf).lfType, (hchange lf).lfStart]
  exact hfits hmax lf hlf

theorem lfFindoverlap_change (type : Search) (lock lf : Lockf) :
    lfFindoverlap type lock (change lf) = lfFindoverlap type lock lf := by
  unfold lfFindoverlap
  rw [(hchange lf).lfId, (hchange lf).lfEnd, (hchange lf).lfStart]

theorem lfGetblock_map (lock : Lockf) (locks : List Lockf) :
    lfGetblock lock (locks.map change) = (lfGetblock lock locks).map change := by
  induction locks with
  | nil => rfl
  | cons lf rest ih =>
    have hconflicts : conflicts lock (change lf) ↔ conflicts lock lf := by
      rw [conflicts, conflicts, (hchange lf).lfType]
    simp only [map_cons, lfGetblock, lfFindoverlap_change hchange, hconflicts]
    split
    · exact ih
    · rfl
    · rfl
    all_goals
      rw [ih, apply_ite (Option.map change)]
      rfl

end SameLocks

theorem sameLock_reblock (addr : ℕ) (change : List ℕ → List ℕ)
    (lf : Lockf) : SameLock lf (lf.reblock addr change) := by
  unfold Lockf.reblock
  split_ifs <;> exact ⟨rfl, rfl, rfl, rfl, rfl, rfl⟩

/-! ## The outcomes of `lf_setlock` -/

theorem lfSetlock_cases (limits : Limits) (sys : System) (file proc : ℕ) (lock : Lockf) :
    (∃ block, lfGetblock lock (sys.head file) = some block ∧ ((lock.lfFlags.wait = false ∧
          lfSetlock limits sys file proc lock = (sys.free lock, .error .eagain)) ∨
        ((lock.lfFlags.posix && block.lfFlags.posix &&
            deadlock sys lock.lfId limits.maxlockdepth block.lfId) = true ∧
          lfSetlock limits sys file proc lock = (sys.free lock, .error .edeadlk)) ∨
        ((lock.lfFlags.posix && block.lfFlags.posix &&
            deadlock sys lock.lfId limits.maxlockdepth block.lfId) = false ∧
          lfSetlock limits sys file proc lock =
            ((sys.clearOwn file lock).sleep file proc lock block, .asleep)))) ∨
    (lfGetblock lock (sys.head file) = none ∧ lfSetlock limits sys file proc lock =
        (sys.edit file lock (lfSetlockWalk sys.nextAddr lock (sys.head file)), .ok)) := by
  cases hblock : lfGetblock lock (sys.head file) with
  | none =>
    refine .inr ⟨rfl, ?_⟩
    simp only [lfSetlock, hblock]
  | some block =>
    refine .inl ⟨block, rfl, ?_⟩
    simp only [lfSetlock, hblock]
    cases hwait : lock.lfFlags.wait with
    | false => exact .inl ⟨rfl, by simp⟩
    | true =>
      cases hdead : (lock.lfFlags.posix && block.lfFlags.posix &&
          deadlock sys lock.lfId limits.maxlockdepth block.lfId) with
      | true => exact .inr (.inl ⟨rfl, by simp⟩)
      | false => exact .inr (.inr ⟨rfl, by simp⟩)

/-- The condition under which a request makes no sum past the largest
offset.  The source computes the end of the range plus one for a lock of the
owner that reaches beyond the range. -/
def SetlockFits (lock : Lockf) (locks : List Lockf) : Prop :=
  if (lfGetblock lock locks).isNone then SetFits lock locks
  else lock.lfFlags.flock ∧ lock.lfType = .wrlck → ClearFits lock locks

def Event.Fits (sys : System) : Event → Prop
  | .advlock call => ∀ range ∈ call.range,
      let lock := call.lock sys.nextAddr range
      match call.op with
      | .setlk => SetlockFits lock (sys.head call.file)
      | .unlck => ClearFits lock (sys.head call.file)
      | .getlk | .other => True
  | .signal _ => True
  | .resume pid _ => ∀ r ∈ sys.requests, r.proc = pid →
      SetlockFits r.lock (sys.head r.file)

instance (lock : Lockf) (locks : List Lockf) : Decidable (SetlockFits lock locks) := by
  unfold SetlockFits
  infer_instance

instance (sys : System) (event : Event) : Decidable (event.Fits sys) :=
  match event with
  | .advlock call =>
    match hop : call.op with
    | .setlk => decidable_of_iff (∀ range ∈ call.range, SetlockFits
        (call.lock sys.nextAddr range) (sys.head call.file))
        (by simp [Event.Fits, hop])
    | .unlck => decidable_of_iff (∀ range ∈ call.range, ClearFits
        (call.lock sys.nextAddr range) (sys.head call.file))
        (by simp [Event.Fits, hop])
    | .getlk | .other => isTrue (by simp [Event.Fits, hop])
  | .signal _ => isTrue trivial
  | .resume _ _ => inferInstanceAs (Decidable (∀ r ∈ sys.requests, _ → SetlockFits _ _))

/-! ## One call -/

structure System.Valid (sys : System) : Prop where
  locks : ∀ file, ValidList (sys.head file)
  requests : ∀ r ∈ sys.requests, r.lock.WF

def System.Maps (sys : System) (file : ℕ) (owner : Owner) (x : ℤ) (type : LockType) : Prop :=
  Holds (sys.head file) owner x type

def SameMap (sys sys' : System) : Prop :=
  ∀ file owner x type, sys'.Maps file owner x type ↔ sys.Maps file owner x type

abbrev Bytes := ℕ → Owner → ℤ → Prop

def ClearsMap (bytes : Bytes) (sys sys' : System) : Prop :=
  ∀ file owner x type, x ≤ offMax →
    (sys'.Maps file owner x type ↔ ¬ bytes file owner x ∧ sys.Maps file owner x type)

def SetsMap (bytes : Bytes) (lfType : LockType) (sys sys' : System) : Prop :=
  ∀ file owner x type, x ≤ offMax →
    (sys'.Maps file owner x type ↔
      (bytes file owner x ∧ type = lfType) ∨ (¬ bytes file owner x ∧ sys.Maps file owner x type))

def Lockf.bytes (lock : Lockf) (file : ℕ) : Bytes :=
  fun file' owner x => file' = file ∧ owner = lock.lfId ∧ lock.Contains x

variable {sys sys' : System}

theorem ClearsMap.congr {bytes bytes' : Bytes} (hclears : ClearsMap bytes sys sys')
    (hbytes : ∀ file owner x, x ≤ offMax → (bytes file owner x ↔ bytes' file owner x)) :
    ClearsMap bytes' sys sys' := by
  intro file owner x type hx
  rw [hclears file owner x type hx, hbytes file owner x hx]

theorem SetsMap.congr {bytes bytes' : Bytes} {lfType : LockType}
    (hsets : SetsMap bytes lfType sys sys')
    (hbytes : ∀ file owner x, x ≤ offMax → (bytes file owner x ↔ bytes' file owner x)) :
    SetsMap bytes' lfType sys sys' := by
  intro file owner x type hx
  rw [hsets file owner x type hx, hbytes file owner x hx]

theorem System.Valid.congr (hvalid : sys.Valid) (hhead : sys'.head = sys.head)
    (hrequests : ∀ r ∈ sys'.requests, r.lock.WF) : sys'.Valid := by
  constructor
  · rw [hhead]
    exact hvalid.locks
  · exact hrequests

theorem sameMap_of_head (hhead : sys'.head = sys.head) : SameMap sys sys' := by
  intro file owner x type
  rw [System.Maps, System.Maps, hhead]

@[simp] theorem Request.edit_lock (lock : Lockf) (e : Edit) (r : Request) :
    (r.edit lock e).lock = r.lock := by
  unfold Request.edit
  split_ifs <;> rfl

variable {file : ℕ} {lock : Lockf} {e : Edit}

theorem System.Valid.edit (hvalid : sys.Valid) (hlocks : ValidList e.locks) :
    (sys.edit file lock e).Valid := by
  constructor
  · exact (forall_update_iff _ fun _ => ValidList).mpr ⟨hlocks, fun file' _ => hvalid.locks file'⟩
  · intro r hr
    simp only [System.edit, mem_map] at hr
    obtain ⟨r₀, hr₀, rfl⟩ := hr
    rw [Request.edit_lock]
    exact hvalid.requests r₀ hr₀

theorem System.edit_maps {file' : ℕ} {owner : Owner} {x : ℤ} {type : LockType} :
    (sys.edit file lock e).Maps file' owner x type ↔
      if file' = file then Holds e.locks owner x type
      else sys.Maps file' owner x type := by
  by_cases hfile : file' = file
  · subst hfile
    simp [System.Maps, edit]
  · simp [System.Maps, edit, hfile]

theorem clearsMap_edit (lock' : Lockf) (hcleared : Cleared lock (sys.head file) e.locks) :
    ClearsMap (lock.bytes file) sys (sys.edit file lock' e) := by
  intro file' owner x type _
  rw [edit_maps, Lockf.bytes]
  by_cases hfile : file' = file
  · subst hfile
    rw [hcleared.holds, and_comm]
    simp [System.Maps]
  · simp [hfile]

theorem setsMap_edit (hassigned : Assigned lock (sys.head file) e.locks) :
    SetsMap (lock.bytes file) lock.lfType sys (sys.edit file lock e) := by
  intro file' owner x type _
  rw [edit_maps, Lockf.bytes]
  by_cases hfile : file' = file
  · subst hfile
    rw [if_pos rfl, hassigned.holds]
    tauto
  · simp [hfile]

variable {change : Lockf → Lockf}

theorem sameMap_update (hchange : ∀ lf, SameLock lf (change lf))
    (hhead : sys'.head = update sys.head file ((sys.head file).map change)) : SameMap sys sys' := by
  intro file' owner x type
  rw [System.Maps, System.Maps, hhead]
  by_cases hfile : file' = file
  · subst hfile
    rw [update_self]
    exact holds_map hchange _ owner x type
  · rw [update_of_ne hfile]

theorem validLists_update (hchange : ∀ lf, SameLock lf (change lf)) (hvalid : sys.Valid) :
    ∀ file', ValidList (update sys.head file ((sys.head file).map change) file') :=
  (forall_update_iff _ fun _ => ValidList).mpr
    ⟨(hvalid.locks file).map hchange, fun file' _ => hvalid.locks file'⟩

def SetlockEffect (file : ℕ) (lock : Lockf) (sys sys' : System) : Result → Prop
  | .ok => SetsMap (lock.bytes file) lock.lfType sys sys'
  | .asleep =>
    if lock.lfFlags.flock ∧ lock.lfType = .wrlck then
      ClearsMap (lock.bytes file) sys sys'
    else SameMap sys sys'
  | .error _ | .getlk _ => SameMap sys sys'

variable {sys'' : System}

theorem SameMap.trans (hfirst : SameMap sys sys') (hsecond : SameMap sys' sys'') :
    SameMap sys sys'' :=
  fun file owner x type =>
    (hsecond file owner x type).trans (hfirst file owner x type)

theorem SameMap.setlockEffect {result : Result} (hsame : SameMap sys sys')
    (heffect : SetlockEffect file lock sys' sys'' result) :
    SetlockEffect file lock sys sys'' result := by
  unfold SetlockEffect at heffect ⊢
  cases result with
  | ok =>
    intro file' owner x type hx
    rw [heffect file' owner x type hx, hsame file' owner x type]
  | asleep =>
    split_ifs at heffect ⊢
    · intro file' owner x type hx
      rw [heffect file' owner x type hx, hsame file' owner x type]
    · exact hsame.trans heffect
  | error errno => exact hsame.trans heffect
  | getlk reply => exact hsame.trans heffect

theorem ClearsMap.trans {bytes : Bytes} (hfirst : ClearsMap bytes sys sys')
    (hsecond : SameMap sys' sys'') : ClearsMap bytes sys sys'' :=
  fun file owner x type hx =>
    (hsecond file owner x type).trans (hfirst file owner x type hx)

theorem System.Valid.sleep (hvalid : sys.Valid) {proc : ℕ} {block : Lockf} (hlock : lock.WF) :
    (sys.sleep file proc lock block).Valid := by
  constructor
  · exact validLists_update (sameLock_reblock _ _) hvalid
  · exact forall_mem_append.mpr ⟨hvalid.requests, forall_mem_singleton.mpr hlock⟩

theorem sameMap_sleep (sys : System) (file proc : ℕ) (lock block : Lockf) :
    SameMap sys (sys.sleep file proc lock block) := sameMap_update (sameLock_reblock _ _) rfl

theorem System.Valid.free (hvalid : sys.Valid) (lock : Lockf) : (sys.free lock).Valid :=
  hvalid.congr rfl hvalid.requests

theorem clearOwn_effect (hvalid : sys.Valid) (hlock : lock.WF)
    (hfits : lock.lfFlags.flock ∧ lock.lfType = .wrlck → ClearFits lock (sys.head file)) :
    (sys.clearOwn file lock).Valid ∧
      SetlockEffect file lock sys (sys.clearOwn file lock) .asleep := by
  unfold clearOwn SetlockEffect
  by_cases hflock : lock.lfFlags.flock ∧ lock.lfType = .wrlck
  · rw [if_pos hflock, if_pos hflock]
    have hcleared : Cleared lock.cleared (sys.head file)
        (lfClearlock sys.nextAddr lock.cleared (sys.head file)).locks :=
      lfClearlock_cleared _ { hlock with } (hvalid.locks file) (hfits hflock)
    exact ⟨hvalid.edit hcleared.valid, clearsMap_edit _
      { hcleared with }⟩
  · rw [if_neg hflock, if_neg hflock]
    exact ⟨hvalid, sameMap_of_head rfl⟩

theorem lfSetlock_effect (limits : Limits) (proc : ℕ) (hvalid : sys.Valid) (hlock : lock.WF)
    (hfits : SetlockFits lock (sys.head file)) :
    (lfSetlock limits sys file proc lock).1.Valid ∧
      SetlockEffect file lock sys
        (lfSetlock limits sys file proc lock).1
        (lfSetlock limits sys file proc lock).2 := by
  unfold SetlockFits at hfits
  rcases lfSetlock_cases limits sys file proc lock with
    ⟨block, hblock, ⟨_, heq⟩ | ⟨_, heq⟩ | ⟨_, heq⟩⟩ | ⟨hblock, heq⟩
  all_goals rw [heq]
  · exact ⟨hvalid.free lock, sameMap_of_head rfl⟩
  · exact ⟨hvalid.free lock, sameMap_of_head rfl⟩
  · rw [hblock] at hfits
    obtain ⟨hclear, heffect⟩ := clearOwn_effect hvalid hlock hfits
    refine ⟨hclear.sleep hlock, ?_⟩
    have hsame := sameMap_sleep (sys.clearOwn file lock) file proc lock block
    unfold SetlockEffect at heffect ⊢
    split_ifs at heffect ⊢
    · exact heffect.trans hsame
    · exact heffect.trans hsame
  · rw [hblock] at hfits
    have hassigned := (lfSetlockWalk_shape sys.nextAddr hlock
      (hvalid.locks file) hfits).assigned hlock (hvalid.locks file)
    exact ⟨hvalid.edit hassigned.valid, setsMap_edit hassigned⟩

/-! ## The range of a call -/

/-- The bytes that a call names, in exact arithmetic: from the offset on,
`lLen` bytes, or all of them if `lLen` is zero. -/
def Call.Requests (call : Call) (x : ℤ) : Prop :=
  let start := match call.fl.lWhence with
    | .seekSet | .seekCur => call.fl.lStart.val
    | .seekEnd => call.size.val + call.fl.lStart.val
    | .other => 0
  start ≤ x ∧ (call.fl.lLen.val = 0 ∨ x < start + call.fl.lLen.val)

def Call.LengthFits (call : Call) : Prop :=
  call.fl.lLen.val = -(2 ^ 63) → call.start ≠ some 0

theorem wrapOff_eq (x : ℤ) :
    wrapOff x =
      if x % 18446744073709551616 < 9223372036854775808 then
        x % 18446744073709551616
      else x % 18446744073709551616 - 18446744073709551616 := by
  simp [wrapOff, Int.bmod]

theorem wrapOff_le (x : ℤ) : wrapOff x ≤ offMax := by
  rw [wrapOff_eq, offMax]
  split_ifs <;> omega

variable {call : Call} {range : ℤ × ℤ}

theorem Call.range_cases (hrange : call.range = some range) :
    call.start = some range.1 ∧ 0 ≤ range.1 ∧ (call.fl.lLen.val = 0 ∧ range.2 = -1 ∨
        call.fl.lLen.val ≠ 0 ∧ range.1 ≤ range.2 ∧
          range.2 = wrapOff (wrapOff (range.1 + call.fl.lLen.val) - 1)) := by
  unfold Call.range at hrange
  cases hstart : call.start with
  | none => simp [hstart] at hrange
  | some start =>
    simp only [hstart] at hrange
    split_ifs at hrange with hneg hlen hwrap
    · cases hrange
      exact ⟨rfl, by omega, .inl ⟨hlen, rfl⟩⟩
    · cases hrange
      exact ⟨rfl, by omega, .inr ⟨hlen, by omega, rfl⟩⟩

theorem Call.start_le {start : ℤ} (hstart : call.start = some start) : start ≤ offMax := by
  unfold Call.start at hstart
  split at hstart
  · cases hstart
    exact call.fl.lStart.high
  · cases hstart
    exact call.fl.lStart.high
  · cases hstart
    exact wrapOff_le _
  · cases hstart

theorem Call.lock_wf (addr : ℕ) (hrange : call.range = some range) : (call.lock addr range).WF := by
  obtain ⟨hstart, hnonneg, hfinish⟩ := call.range_cases hrange
  refine ⟨hnonneg, Call.start_le hstart, ?_⟩
  rcases hfinish with ⟨_, hinf⟩ | ⟨_, hle, hwrap⟩
  · exact .inl hinf
  · refine .inr ⟨hle, ?_⟩
    change range.2 ≤ offMax
    rw [hwrap]
    exact wrapOff_le _

theorem Call.requests_iff {start : ℤ}
    (hstart : call.start = some start) (hnonneg : 0 ≤ start) (x : ℤ) :
    call.Requests x ↔ start ≤ x ∧ (call.fl.lLen.val = 0 ∨ x < start + call.fl.lLen.val) := by
  unfold Call.Requests
  unfold Call.start at hstart
  cases hwhence : call.fl.lWhence with
  | seekSet | seekCur =>
    simp only [hwhence, Option.some.injEq] at hstart
    rw [hstart]
  | seekEnd =>
    simp only [hwhence, Option.some.injEq] at hstart
    have hlow := call.fl.lStart.low
    have hhigh := call.fl.lStart.high
    have hsizeHigh := call.size.high
    have hsize := call.size_nonneg
    have hexact : call.size.val + call.fl.lStart.val = start := by
      rw [wrapOff_eq] at hstart
      unfold offMax at *
      split_ifs at hstart <;> omega
    rw [hexact]
  | other => simp [hwhence] at hstart

theorem finish_exact {start len finish : ℤ} (hnonneg : 0 ≤ start) (hstart : start ≤ offMax)
    (hlow : -(2 ^ 63) ≤ len) (hhigh : len ≤ offMax) (hfits : len = -(2 ^ 63) → start ≠ 0)
    (hle : start ≤ finish) (hfinish : finish = wrapOff (wrapOff (start + len) - 1)) :
    finish = start + len - 1 := by
  simp only [wrapOff_eq] at hfinish
  unfold offMax at *
  split_ifs at hfinish <;> omega

theorem Call.contains_iff_requests {x : ℤ} (addr : ℕ) (hrange : call.range = some range)
    (hfits : call.LengthFits) (hx : x ≤ offMax) :
    (call.lock addr range).Contains x ↔ call.Requests x := by
  obtain ⟨hstart, hnonneg, hfinish⟩ := call.range_cases hrange
  have hlast : (call.lock addr range).last =
      if range.2 = -1 then 2 ^ 63 else range.2 := rfl
  rw [Call.requests_iff hstart hnonneg, Lockf.Contains]
  change range.1 ≤ x ∧ _ ↔ _
  rcases hfinish with ⟨hlen, hinf⟩ | ⟨hlen, hle, hwrap⟩
  · unfold offMax at hx
    omega
  · have hexact := finish_exact hnonneg (Call.start_le hstart) call.fl.lLen.low call.fl.lLen.high
      (fun hmin hzero => hfits hmin (by rw [hstart, hzero])) hle hwrap
    omega

def Call.bytes (call : Call) : Bytes :=
  fun file owner x => file = call.file ∧ owner = call.id ∧ call.Requests x

def AdvlockEffect (call : Call) (sys sys' : System) : Result → Prop
  | .ok =>
    match call.op with
    | .setlk => SetsMap call.bytes call.fl.lType sys sys'
    | .unlck => ClearsMap call.bytes sys sys'
    | .getlk | .other => SameMap sys sys'
  | .asleep =>
    if call.flags.flock ∧ call.fl.lType = .wrlck then
      ClearsMap call.bytes sys sys'
    else SameMap sys sys'
  | .error _ | .getlk _ => SameMap sys sys'

theorem System.Valid.charge (hvalid : sys.Valid) (uid : ℕ) : (sys.charge uid).Valid :=
  hvalid.congr rfl hvalid.requests

theorem lfAdvlock_cases (limits : Limits) (sys : System) (call : Call) :
    (∃ errno, (errno = .einval ∨ errno = .enomem) ∧
      lfAdvlock limits sys call = (sys, .error errno)) ∨
    (sys.head call.file = [] ∧ call.op ≠ .setlk ∧
      ∃ result, lfAdvlock limits sys call = (sys, result) ∧ (result = .ok ∨ result = .getlk none)) ∨
    ∃ range, call.range = some range ∧ ((call.op = .setlk ∧ lfAdvlock limits sys call =
          lfSetlock limits (sys.charge call.uid) call.file call.proc
            (call.lock sys.nextAddr range)) ∨ (call.op = .unlck ∧ lfAdvlock limits sys call =
          (((sys.charge call.uid).edit call.file (call.lock sys.nextAddr range)
            (lfClearlock (sys.nextAddr + 1) (call.lock sys.nextAddr range)
              (sys.head call.file))).free (call.lock sys.nextAddr range), .ok)) ∨
        (∃ reply, lfAdvlock limits sys call =
          ((sys.charge call.uid).free (call.lock sys.nextAddr range), .getlk reply)) ∨
        lfAdvlock limits sys call =
          ((sys.charge call.uid).free (call.lock sys.nextAddr range), .error .einval)) := by
  unfold lfAdvlock
  cases hrange : call.range with
  | none => exact .inl ⟨_, .inl rfl, rfl⟩
  | some range =>
    by_cases hempty : sys.head call.file = [] ∧ call.op ≠ .setlk
    · refine .inr (.inl ⟨hempty.1, hempty.2, _, if_pos hempty, ?_⟩)
      split_ifs
      · exact .inr rfl
      · exact .inl rfl
    · simp only [if_neg hempty]
      cases halloc : lfAllocFails limits sys call with
      | true => exact .inl ⟨_, .inr rfl, rfl⟩
      | false =>
        refine .inr (.inr ⟨range, rfl, ?_⟩)
        cases hop : call.op with
        | setlk => exact .inl ⟨rfl, rfl⟩
        | unlck => exact .inr (.inl ⟨rfl, rfl⟩)
        | getlk => exact .inr (.inr (.inl ⟨_, rfl⟩))
        | other => exact .inr (.inr (.inr rfl))

theorem Event.Fits.set (hfits : Event.Fits sys (.advlock call)) {range : ℤ × ℤ}
    (hrange : call.range = some range) (hop : call.op = .setlk) :
    SetlockFits (call.lock sys.nextAddr range) (sys.head call.file) := by
  have hset := hfits range hrange
  rwa [hop] at hset

theorem Event.Fits.cleared (hfits : Event.Fits sys (.advlock call)) {range : ℤ × ℤ}
    (hrange : call.range = some range) (hop : call.op = .unlck) (hvalid : sys.Valid) :
    Cleared (call.lock sys.nextAddr range) (sys.head call.file)
      (lfClearlock (sys.nextAddr + 1) (call.lock sys.nextAddr range)
        (sys.head call.file)).locks := by
  have hclear := hfits range hrange
  rw [hop] at hclear
  exact lfClearlock_cleared _ (call.lock_wf sys.nextAddr hrange) (hvalid.locks call.file) hclear

theorem lfAdvlock_effect (limits : Limits) (hvalid : sys.Valid)
    (hfits : Event.Fits sys (.advlock call)) (hlength : call.LengthFits) :
    AdvlockEffect call sys (lfAdvlock limits sys call).1 (lfAdvlock limits sys call).2 := by
  -- the range that is locked is the range that was asked for
  have hbytes : ∀ range, call.range = some range → ∀ file owner x, x ≤ offMax →
        ((call.lock sys.nextAddr range).bytes call.file file owner x ↔
          call.bytes file owner x) := by
    intro range hrange file owner x hx
    rw [Lockf.bytes, call.contains_iff_requests sys.nextAddr hrange hlength hx]
    rfl
  rcases lfAdvlock_cases limits sys call with
    ⟨errno, _, heq⟩ | ⟨hempty, hop, result, heq, hresult⟩ | ⟨range, hrange,
      ⟨hop, heq⟩ | ⟨hop, heq⟩ | ⟨reply, heq⟩ | heq⟩
  all_goals rw [heq]
  · exact sameMap_of_head rfl
  · have hnone : ∀ owner x type, ¬ sys.Maps call.file owner x type := by
      intro owner x type
      rw [System.Maps, hempty]
      exact holds_nil
    rcases hresult with rfl | rfl
    · unfold AdvlockEffect
      cases hcase : call.op with
      | setlk => exact absurd hcase hop
      | unlck =>
        intro file owner x type _
        unfold Call.bytes
        by_cases hfile : file = call.file
        · subst hfile
          simp [hnone]
        · simp [hfile]
      | getlk | other => exact sameMap_of_head rfl
    · exact sameMap_of_head rfl
  · have heffect := (lfSetlock_effect limits call.proc (hvalid.charge call.uid)
      (call.lock_wf sys.nextAddr hrange) (hfits.set hrange hop)).2
    generalize lfSetlock limits (sys.charge call.uid) call.file call.proc
      (call.lock sys.nextAddr range) = outcome at heffect ⊢
    unfold AdvlockEffect
    unfold SetlockEffect at heffect
    cases hresult : outcome.2 with rw [hresult] at heffect
    | ok =>
      simp only [hop]
      exact SetsMap.congr heffect (hbytes range hrange)
    | asleep =>
      split_ifs at heffect ⊢ with hflock hflock' hflock'
      · exact ClearsMap.congr heffect (hbytes range hrange)
      · exact absurd hflock hflock'
      · exact absurd hflock' hflock
      · exact heffect
    | error errno => exact heffect
    | getlk reply => exact heffect
  · unfold AdvlockEffect
    simp only [hop]
    exact ClearsMap.congr (clearsMap_edit (call.lock sys.nextAddr range)
      (hfits.cleared hrange hop hvalid)) (hbytes range hrange)
  · exact sameMap_of_head rfl
  · exact sameMap_of_head rfl

/-! ## Runs -/

theorem System.Valid.unblock (hvalid : sys.Valid) (r : Request) : (sys.unblock r).Valid := by
  constructor
  · intro file
    unfold System.unblock
    cases r.lfNext with
    | none => exact hvalid.locks file
    | some block =>
      exact validLists_update (sameLock_reblock _ _) hvalid file
  · intro r' hr'
    exact hvalid.requests r' (mem_of_mem_filter hr')

theorem sameMap_unblock (sys : System) (r : Request) : SameMap sys (sys.unblock r) := by
  cases hnext : r.lfNext with
  | none =>
    apply sameMap_of_head
    simp [unblock, hnext]
  | some block =>
    apply sameMap_update (sameLock_reblock block.addr (·.erase r.lock.addr))
    simp [unblock, hnext]
    rfl

theorem setlockFits_unblock {r : Request} (hfits : SetlockFits lock (sys.head file)) :
    SetlockFits lock ((sys.unblock r).head file) := by
  unfold unblock
  cases r.lfNext with
  | none => exact hfits
  | some block =>
    by_cases hfile : file = r.file
    · subst hfile
      have hchange := sameLock_reblock block.addr (·.erase r.lock.addr)
      simp only [update_self]
      unfold SetlockFits at hfits ⊢
      rw [lfGetblock_map hchange, Option.isNone_map]
      split_ifs at hfits ⊢
      · exact setFits_map hchange hfits
      · exact fun hflock => clearFits_map hchange (hfits hflock)
    · simpa only [update_of_ne hfile] using hfits

variable {limits : Limits}

theorem stepResult_resume {pid : ℕ} {interrupted : Bool} {outcome : System × Result}
    (hstep : stepResult limits sys (.resume pid interrupted) = some outcome) :
    ∃ r ∈ sys.requests, r.proc = pid ∧ r.asleep = false ∧
      (outcome = ((sys.unblock r).free r.lock, .error .eintr) ∨
        outcome = lfSetlock limits (sys.unblock r) r.file r.proc r.lock) := by
  cases hfind : sys.requests.find? fun r => r.proc = pid ∧ !r.asleep with
  | none =>
    simp only [stepResult, hfind] at hstep
    cases hstep
  | some r =>
    have htest := find?_some hfind
    simp only [Bool.not_eq_true', decide_eq_true_eq] at htest
    refine ⟨r, mem_of_find?_eq_some hfind, htest.1, htest.2, ?_⟩
    simp only [stepResult, hfind] at hstep
    split_ifs at hstep
    · exact .inl (Option.some.inj hstep).symm
    · exact .inr (Option.some.inj hstep).symm

theorem mem_signal {pid : ℕ} {r : Request} (hr : r ∈ sys.requests.map fun r =>
      if r.proc = pid then { r with asleep := false } else r) :
    ∃ r₀ ∈ sys.requests, ∃ asleep, r = { r₀ with asleep } ∧ (asleep → r₀.asleep) := by
  obtain ⟨r₀, hr₀, rfl⟩ := mem_map.mp hr
  refine ⟨r₀, hr₀, ?_⟩
  split_ifs
  · exact ⟨false, rfl, by simp⟩
  · exact ⟨r₀.asleep, rfl, id⟩

theorem step_keeps {P : System → Prop} {event : Event}
    (hstep : AdvisoryLocks.step limits sys event = some sys') (hsys : P sys)
    (hfree : ∀ sys lock, P sys → P (free sys lock)) (hcharge : ∀ uid, P (sys.charge uid))
    (hset : ∀ call, event = .advlock call → (∀ r ∈ sys.requests, r.proc ≠ call.proc) →
      call.op = .setlk → ∀ range, call.range = some range →
      P (lfSetlock limits (sys.charge call.uid) call.file call.proc
        (call.lock sys.nextAddr range)).1)
    (hclear : ∀ call, event = .advlock call → call.op = .unlck → ∀ range, call.range = some range →
      P ((sys.charge call.uid).edit call.file (call.lock sys.nextAddr range)
        (lfClearlock (sys.nextAddr + 1) (call.lock sys.nextAddr range) (sys.head call.file))))
    (hsignal : ∀ pid, P { sys with requests := sys.requests.map fun r =>
      if r.proc = pid then { r with asleep := false } else r })
    (hunblock : ∀ r ∈ sys.requests, P (sys.unblock r))
    (hresume : ∀ r ∈ sys.requests, ∀ interrupted, event = .resume r.proc interrupted →
      P (lfSetlock limits (sys.unblock r) r.file r.proc r.lock).1) : P sys' := by
  obtain ⟨outcome, hresult, rfl⟩ := Option.map_eq_some_iff.mp hstep
  cases event with
  | advlock call =>
    simp only [stepResult] at hresult
    split_ifs at hresult with hbusy
    cases hresult
    rcases lfAdvlock_cases limits sys call with
      ⟨errno, _, heq⟩ | ⟨_, _, result, heq, _⟩ | ⟨range, hrange,
        ⟨hop, heq⟩ | ⟨hop, heq⟩ | ⟨reply, heq⟩ | heq⟩
    all_goals rw [heq]
    · exact hsys
    · exact hsys
    · exact hset call rfl (by simpa using hbusy) hop range hrange
    · exact hfree _ _ (hclear call rfl hop range hrange)
    · exact hfree _ _ (hcharge call.uid)
    · exact hfree _ _ (hcharge call.uid)
  | signal pid =>
    cases hresult
    exact hsignal pid
  | resume pid interrupted =>
    obtain ⟨r, hmem, rfl, _, rfl | rfl⟩ := stepResult_resume hresult
    · exact hfree _ _ (hunblock r hmem)
    · exact hresume r hmem interrupted rfl

theorem System.Valid.step {event : Event} (hvalid : sys.Valid) (hfits : event.Fits sys)
    (hstep : AdvisoryLocks.step limits sys event = some sys') : sys'.Valid := by
  refine step_keeps hstep hvalid (fun _ lock h => h.free lock) hvalid.charge ?_ ?_ ?_
    (fun r _ => hvalid.unblock r) ?_
  · rintro call rfl _ hop range hrange
    exact (lfSetlock_effect limits call.proc (hvalid.charge call.uid)
      (call.lock_wf sys.nextAddr hrange) (hfits.set hrange hop)).1
  · rintro call rfl hop range hrange
    exact (hvalid.charge call.uid).edit (hfits.cleared hrange hop hvalid).valid
  · intro pid
    refine ⟨hvalid.locks, fun r hr => ?_⟩
    obtain ⟨r₀, hr₀, _, rfl, _⟩ := mem_signal hr
    exact hvalid.requests r₀ hr₀
  · rintro r hmem interrupted rfl
    exact (lfSetlock_effect limits r.proc (hvalid.unblock r)
      (hvalid.requests r hmem) (setlockFits_unblock (hfits r hmem rfl))).1

theorem valid_initial : initial.Valid :=
  ⟨fun _ => validList_nil, by simp [initial]⟩

theorem valid_of_run {guard : System → Event → Prop}
    (hguard : ∀ sys event, guard sys event → Event.Fits sys event)
    (hrun : GuardedRun (step limits) guard initial sys) : sys.Valid :=
  hrun.invariant valid_initial fun before event _ hvalid hmeets hstep =>
    hvalid.step (hguard before event hmeets) hstep

/-- Along every run in which no request passes the largest offset, a call
changes the map exactly where it says, and a call that fails does not change
it.  The same holds for a request that was blocked when it gets its lock. -/
theorem advlock_map_exact {limits : Limits} {sys : System}
    (hrun : GuardedRun (step limits) (fun sys event => event.Fits sys) System.initial sys) :
    (∀ call sys' result, Event.Fits sys (.advlock call) → call.LengthFits →
      stepResult limits sys (.advlock call) = some (sys', result) →
      AdvlockEffect call sys sys' result) ∧ ∀ pid interrupted sys' result,
      Event.Fits sys (.resume pid interrupted) →
      stepResult limits sys (.resume pid interrupted) = some (sys', result) →
      ∃ r ∈ sys.requests, r.proc = pid ∧ SetlockEffect r.file r.lock sys sys' result := by
  have hvalid := valid_of_run (fun _ _ h => h) hrun
  constructor
  · intro call sys' result hfits hlength hstep
    simp only [stepResult] at hstep
    split_ifs at hstep
    have heffect := lfAdvlock_effect limits hvalid hfits hlength
    rwa [Option.some.inj hstep] at heffect
  · intro pid interrupted sys' result hfits hstep
    obtain ⟨r, hmem, hproc, _, hcase⟩ := stepResult_resume hstep
    refine ⟨r, hmem, hproc, ?_⟩
    have hsame := sameMap_unblock sys r
    rcases hcase with heq | heq
    · cases heq
      exact hsame.trans (sameMap_of_head rfl)
    · have heffect := (lfSetlock_effect limits r.proc (hvalid.unblock r) (hvalid.requests r hmem)
        (setlockFits_unblock (hfits r hmem hproc))).2
      rw [← heq] at heffect
      exact hsame.setlockEffect heffect

def fcntlCall (pid : ℕ) (op : Op) (lType : LockType) (lStart lLen : Off) (wait : Bool) : Call where
  proc := pid
  uid := 0
  file := 0
  size := ⟨0, by decide, by decide⟩
  id := .proc pid
  op := op
  fl := ⟨lType, .seekSet, lStart, lLen⟩
  flags := ⟨true, false, wait⟩
  size_nonneg := by decide

def defaultLimits : Limits := ⟨50, 1024⟩

def off (x : ℕ) (hx : (x : ℤ) ≤ offMax) : Off :=
  ⟨x, by omega, hx⟩

def fcntl (pid : ℕ) (lType : LockType) (lStart lLen : ℕ) (wait : Bool) : Call :=
  fcntlCall pid (if lType = .unlck then .unlck else .setlk) lType
    (off (lStart % 2 ^ 63) (by unfold offMax; omega))
      (off (lLen % 2 ^ 63) (by unfold offMax; omega))
    wait

def lockAll : Event := .advlock (fcntl 1 .wrlck 0 0 false)

instance (sys : System) (file : ℕ) (owner : Owner) (x : ℤ) (type : LockType) :
    Decidable (sys.Maps file owner x type) :=
  inferInstanceAs (Decidable (∃ lf ∈ sys.head file, _ ∧ _ ∧ lf.Contains x))

theorem exists_step_maps (sys : System) (call : Call) (x : ℤ)
    (hstep : ((stepResult defaultLimits sys (.advlock call)).map fun outcome =>
      (decide (outcome.1.Maps 0 (.proc 1) x .wrlck), outcome.2)) = some (true, .ok)) :
    ∃ sys', stepResult defaultLimits sys (.advlock call) = some (sys', .ok) ∧
      sys'.Maps 0 (.proc 1) x .wrlck := by
  obtain ⟨⟨sys', result⟩, hresult, houtcome⟩ := Option.map_eq_some_iff.mp hstep
  obtain ⟨hmaps, rfl⟩ := Prod.mk.inj houtcome
  exact ⟨sys', hresult, of_decide_eq_true hmaps⟩

theorem advlock_map_exact_unlock :
    ∃ sys call sys', sys'.Maps 0 (.proc 1) 4 .wrlck ∧
      AdvlockEffect call sys sys' .ok ∧ call.op = .unlck := by
  let sys := execD (step defaultLimits) (fun sys event => event.Fits sys)
    initial [lockAll]
  let call := fcntl 1 .unlck 5 2 false
  have hrun : GuardedRun (step defaultLimits)
      (fun sys event => event.Fits sys) initial sys := GuardedRun.of_execD (by decide +kernel)
  obtain ⟨sys', hresult, hmaps⟩ := exists_step_maps sys call 4 (by decide +kernel)
  refine ⟨sys, call, sys', hmaps, ?_, rfl⟩
  exact (advlock_map_exact hrun).1 call sys' .ok (by decide +kernel)
    (by intro h; exact absurd h (by decide)) hresult

/-- An unlock of the bytes from 5 to the largest offset leaves a lock from
byte 0 to infinity on all bytes, and a request with the smallest length locks
all bytes instead of being refused. -/
theorem advlock_map_exact_needs_fits :
    (∃ sys call sys', Reaches (step defaultLimits) System.initial sys ∧
      call.op = .unlck ∧ call.Requests 5 ∧
      stepResult defaultLimits sys (.advlock call) = some (sys', .ok) ∧
      sys'.Maps 0 (.proc 1) 5 .wrlck ∧ ¬ AdvlockEffect call sys sys' .ok) ∧
    (∃ call sys', call.op = .setlk ∧ call.fl.lLen.val = -(2 ^ 63) ∧
      stepResult defaultLimits System.initial (.advlock call) = some (sys', .ok) ∧
      sys'.Maps 0 (.proc 1) 5 .wrlck ∧ ¬ AdvlockEffect call System.initial sys' .ok) := by
  constructor
  · let sys := execD (step defaultLimits) (fun _ _ => True)
      initial [lockAll]
    let call := fcntl 1 .unlck 5 9223372036854775803 false
    have hrun : Reaches (step defaultLimits) initial sys := GuardedRun.of_execD (by decide +kernel)
    obtain ⟨sys', hresult, hmaps⟩ := exists_step_maps sys call 5 (by decide +kernel)
    have hrequests : call.Requests 5 := ⟨by decide, by decide⟩
    refine ⟨sys, call, sys', hrun, rfl, hrequests, hresult, hmaps, ?_⟩
    intro heffect
    have hcleared := (heffect 0 (.proc 1) 5 .wrlck (by decide)).mp hmaps
    exact hcleared.1 ⟨rfl, rfl, hrequests⟩
  · let call := fcntlCall 1 .setlk .wrlck (off 0 (by decide))
      ⟨-9223372036854775808, by decide, by decide⟩ false
    obtain ⟨sys', hresult, hmaps⟩ := exists_step_maps initial call 5 (by decide +kernel)
    refine ⟨call, sys', rfl, rfl, hresult, hmaps, ?_⟩
    intro heffect
    rcases (heffect 0 (.proc 1) 5 .wrlck (by decide)).mp hmaps with
      ⟨⟨_, _, hrequests⟩, _⟩ | ⟨_, hbefore⟩
    · revert hrequests
      unfold Call.Requests
      decide
    · exact absurd hbefore holds_nil

end AerieKernel.AdvisoryLocks
