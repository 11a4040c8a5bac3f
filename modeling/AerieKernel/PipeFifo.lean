import AerieKernel.PipeModel
import AerieKernel.RingBuffers

/-!
# A pipe is a queue

What is read from a pipe and what is in its ring are the transfers of the writes in the
order in which they were made, as long as the buffer is only enlarged while it is empty.
-/

namespace AerieKernel.Pipe

open Function List Nat

/-! ## The ring -/

structure RingOk (b : Pipebuf) : Prop where
  out_lt : b.outPos < b.size
  cnt_le : b.cnt ≤ b.size
  in_eq : b.inPos = (b.outPos + b.cnt) % b.size

def Pipebuf.contents (b : Pipebuf) : List UInt8 :=
  RingBuffer.contents b.buffer b.size b.outPos b.cnt

def Filled (b : Pipebuf) (uio : List UInt8) (n : ℕ) : Prop :=
  ∀ j < n, uio[j]? = some (b.buffer ((b.inPos + j) % b.size))

variable {b : Pipebuf} {uio : List UInt8} {pos k n : ℕ}

theorem RingOk.in_lt (h : RingOk b) : b.inPos < b.size := by
  have hlt := h.out_lt
  rw [h.in_eq]
  exact mod_lt _ (by omega)

variable {i : ℕ} {bytes : List UInt8} {buffer : ℕ → UInt8}

theorem store_outside
    (hout : i < pos ∨ pos + bytes.length ≤ i) : store buffer pos bytes i = buffer i := by
  unfold store
  split_ifs with hpos
  · rw [getElem?_eq_none (by omega), Option.getD_none]
  · rfl

section Store

variable (hring : RingOk b) (hpos : pos = (b.inPos + k) % b.size)
  (hend : pos + n ≤ b.size) (hspace : b.cnt + (k + n) ≤ b.size)

include hring hpos hend

theorem cell_eq {d : ℕ} (hd : d < n) : pos + d = (b.outPos + (b.cnt + k + d)) % b.size := by
  have hmod : pos + d = (b.inPos + k + d) % b.size := by
    rw [add_mod, ← hpos, add_mod_mod, mod_eq_of_lt (by omega)]
  rw [hmod, hring.in_eq, add_assoc, mod_add_mod]
  congr 1
  omega

include hspace

theorem outside_of_lt {m : ℕ} (hi : i < b.cnt + k) (hm : m ≤ n) :
    (b.outPos + i) % b.size < pos ∨ pos + m ≤ (b.outPos + i) % b.size := by
  by_contra hin
  have hcell := cell_eq hring hpos hend (d := (b.outPos + i) % b.size - pos) (by omega)
  rw [Nat.add_sub_cancel' (by omega)] at hcell
  exact RingBuffer.index_ne b.outPos (by omega) (by omega) hcell

theorem contents_store (hlen : bytes.length ≤ n) :
    Pipebuf.contents { b with buffer := store b.buffer pos bytes } = b.contents := by
  apply RingBuffer.contents_congr
  intro i hi
  have hi' : i < b.cnt := hi
  exact store_outside (outside_of_lt hring hpos hend hspace (by omega) hlen)

theorem filled_store (hfilled : Filled b uio k) (hlen : k + n ≤ uio.length) :
    Filled { b with buffer := store b.buffer pos ((uio.drop k).take n) } uio (k + n) := by
  intro j hj
  have hplace : (b.inPos + j) % b.size = (b.outPos + (b.cnt + j)) % b.size := by
    rw [hring.in_eq, mod_add_mod, add_assoc]
  have hbytes : ((uio.drop k).take n).length ≤ n := length_take_le _ _
  show uio[j]? = some (store b.buffer pos _ ((b.inPos + j) % b.size))
  by_cases hold : j < k
  · rw [hfilled j hold, hplace,
      store_outside (outside_of_lt hring hpos hend hspace (by omega) hbytes)]
  · have hcell := cell_eq hring hpos hend (d := j - k) (by omega)
    rw [hplace, show b.cnt + j = b.cnt + k + (j - k) by omega, ← hcell]
    have hget : uio[j]? = some uio[j] := getElem?_eq_getElem (by omega)
    rw [hget, store, if_pos (le_add_right _ _), Nat.add_sub_cancel_left,
      getElem?_take_of_lt (by omega), getElem?_drop, Nat.add_sub_cancel' (not_lt.mp hold), hget,
      Option.getD_some]

end Store

variable {size segsize : ℕ}

theorem commit_ring (hring : RingOk b) (hspace : b.cnt + size ≤ b.size)
    (hseg : segsize = min size (b.size - b.inPos)) (hfilled : Filled b uio size)
    (hlen : size ≤ uio.length) :
    RingOk { b with
      inPos := if b.size ≤ b.inPos + size then size - segsize else b.inPos + size
      cnt := b.cnt + size } ∧
    RingBuffer.contents b.buffer b.size b.outPos (b.cnt + size) = b.contents ++ uio.take size := by
  have hin := hring.in_lt
  constructor
  · refine ⟨hring.out_lt, hspace, ?_⟩
    show (if b.size ≤ b.inPos + size then _ else _) = (b.outPos + (b.cnt + size)) % b.size
    have hnext : (b.outPos + (b.cnt + size)) % b.size = (b.inPos + size) % b.size := by
      rw [hring.in_eq, mod_add_mod, add_assoc]
    rw [hnext, RingBuffer.last_index hin (by omega)]
    split_ifs <;> omega
  · rw [RingBuffer.contents_add, ← hring.in_eq]
    congr 1
    apply ext_getElem?
    intro j
    by_cases hj : j < size
    · rw [getElem?_take_of_lt hj, hfilled j hj, RingBuffer.contents, getElem?_map,
        getElem?_range hj, Option.map_some]
    · rw [getElem?_eq_none, getElem?_eq_none]
      · rw [length_take]
        omega
      · rw [RingBuffer.length_contents]
        omega

theorem consume_ring (hring : RingOk b) (hsize : size ≤ b.cnt) (hend : b.outPos + size ≤ b.size) :
    let cnt := b.cnt - size
    let outPos := if b.size ≤ b.outPos + size then 0 else b.outPos + size
    let b' : Pipebuf := { b with
      cnt
      inPos := if cnt = 0 then 0 else b.inPos
      outPos := if cnt = 0 then 0 else outPos }
    RingOk b' ∧
      ((List.range size).map fun i => b.buffer (b.outPos + i)) ++ b'.contents = b.contents := by
  have hlt := hring.out_lt
  have hle := hring.cnt_le
  have hnext : (if b.size ≤ b.outPos + size then 0 else b.outPos + size) =
      (b.outPos + size) % b.size := by
    rw [RingBuffer.last_index hlt (by omega)]
    split_ifs <;> omega
  rw [hnext]
  have hcontents : b.contents = RingBuffer.contents b.buffer b.size b.outPos size ++
      RingBuffer.contents b.buffer b.size ((b.outPos + size) % b.size) (b.cnt - size) := by
    rw [← RingBuffer.contents_add, Nat.add_sub_cancel' hsize]
    rfl
  rw [hcontents, RingBuffer.contents_straight b.buffer hend]
  by_cases hempty : b.cnt - size = 0
  · refine ⟨⟨?_, ?_, ?_⟩, ?_⟩
    · show (if b.cnt - size = 0 then 0 else _) < b.size
      rw [if_pos hempty]
      omega
    · show b.cnt - size ≤ b.size
      omega
    · simp [hempty]
    · unfold Pipebuf.contents
      simp [hempty]
  · refine ⟨⟨?_, ?_, ?_⟩, ?_⟩
    · show (if b.cnt - size = 0 then 0 else _) < b.size
      rw [if_neg hempty]
      exact mod_lt _ (by omega)
    · show b.cnt - size ≤ b.size
      omega
    · show (if b.cnt - size = 0 then 0 else b.inPos) =
        ((if b.cnt - size = 0 then 0 else _) + (b.cnt - size)) % b.size
      rw [if_neg hempty, if_neg hempty, mod_add_mod, hring.in_eq]
      congr 1
      omega
    · unfold Pipebuf.contents
      simp [hempty]

/-! ## The processes -/

def Proc.holds : Proc → Bool
  | .moveFirst _ _ _ | .moveSecond _ _ _ | .moveOut _ _ => true
  | _ => false

def Proc.writer : Proc → Option Writer
  | .wantResize w | .sleepSpace w | .wantWrite w _ | .moveFirst w _ _ | .moveSecond w _ _ =>
    some w
  | _ => none

/-- What a process has found out about the ring.  Without the lock this is only that a small
write fits, which is tested again. -/
def MoveOk (b : Pipebuf) : Proc → Prop
  | .wantWrite w space => 0 < space ∧ w.uio ≠ [] ∧ (w.origResid ≤ pipeBuf → w.uio.length ≤ space)
  | .moveFirst w size segsize => Move b w size segsize
  | .moveSecond w size segsize =>
    Move b w size segsize ∧ segsize < size ∧ Filled b w.uio segsize
  | .moveOut _ size => size ≤ b.cnt ∧ b.outPos + size ≤ b.size
  | _ => True
where Move (b : Pipebuf) (w : Writer) (size segsize : ℕ) : Prop :=
    0 < size ∧ size ≤ w.uio.length ∧ b.cnt + size ≤ b.size ∧
      segsize = min size (b.size - b.inPos) ∧ (w.origResid ≤ pipeBuf → size = w.uio.length)

variable (transfers : List Transfer)

def sent (call : ℕ) : List Transfer :=
  transfers.filter fun t => t.call = call

structure CallOk (transfers : List Transfer) (id : ℕ) (c : Call) : Prop where
  first : ∃ rest, (sent transfers id).flatMap (·.bytes) ++ rest = c.data ∧
    (c.result = some none → rest = [])
  whole : c.result = some none → c.data.length ≤ pipeBuf → c.data ≠ [] →
    sent transfers id = [⟨id, c.data⟩]

structure WriterOk (calls : ℕ → Option Call) (transfers : List Transfer) (w : Writer) (c : Call) :
    Prop where
  call : calls w.call = some c
  open_ : c.result = none
  data : (sent transfers w.call).flatMap (·.bytes) ++ w.uio = c.data
  resid : w.origResid = c.data.length
  small : c.data.length ≤ pipeBuf → sent transfers w.call = [] ∨
    (w.uio = [] ∧ sent transfers w.call = [⟨w.call, c.data⟩])

structure Core (sys : System) : Prop where
  ring : RingOk sys.buf
  stream : sys.taken ++ sys.buf.contents = sys.transfers.flatMap (·.bytes)
  calls : ∀ id c, sys.calls id = some c → CallOk sys.transfers id c
  fresh : ∀ id, sys.ncalls ≤ id → sys.calls id = none
  known : ∀ t ∈ sys.transfers, ∃ c, sys.calls t.call = some c

structure Procs (sys : System) (P : ℕ → Prop) : Prop where
  locked : ∀ q, P q → (sys.procs q).holds = true → sys.lock = true
  single : ∀ q q', P q → P q' → (sys.procs q).holds = true → (sys.procs q').holds = true → q = q'
  move : ∀ q, P q → MoveOk sys.buf (sys.procs q)
  writer : ∀ q w, P q → (sys.procs q).writer = some w → ∃ c, WriterOk sys.calls sys.transfers w c
  separate : ∀ q q' w w', P q → P q' → (sys.procs q).writer = some w →
    (sys.procs q').writer = some w' → w.call = w'.call → q = q'

structure Inv (sys : System) : Prop where
  core : Core sys
  procs : Procs sys fun _ => True

abbrev Others (sys : System) (pid : ℕ) : Prop := Procs sys (· ≠ pid)

def Owns (sys : System) (pid : ℕ) (w : Writer) : Prop :=
  (∃ c, WriterOk sys.calls sys.transfers w c) ∧
    ∀ q ≠ pid, ∀ w', (sys.procs q).writer = some w' → w'.call ≠ w.call

def Alone (sys : System) (pid : ℕ) : Prop := ∀ q ≠ pid, (sys.procs q).holds = false

variable {sys : System} {pid : ℕ} {w : Writer}

theorem Inv.others (h : Inv sys) (pid : ℕ) : Others sys pid where
  locked := fun q _ => h.procs.locked q trivial
  single := fun q q' _ _ => h.procs.single q q' trivial trivial
  move := fun q _ => h.procs.move q trivial
  writer := fun q w _ => h.procs.writer q w trivial
  separate := fun q q' w w' _ _ => h.procs.separate q q' w w' trivial trivial

theorem Inv.owns (h : Inv sys) (hw : (sys.procs pid).writer = some w) : Owns sys pid w := by
  refine ⟨h.procs.writer pid w trivial hw, ?_⟩
  intro q hq w' hw' heq
  exact hq (h.procs.separate q pid w' w trivial trivial hw' hw heq)

theorem Inv.alone (h : Inv sys) (hholds : (sys.procs pid).holds = true) : Alone sys pid := by
  intro q hq
  rw [← Bool.not_eq_true]
  intro hother
  exact hq (h.procs.single q pid trivial trivial hother hholds)

theorem Procs.alone_of_unlocked (h : Others sys pid) (hlock : sys.lock = false) :
    Alone sys pid := by
  intro q hq
  rw [← Bool.not_eq_true]
  intro hother
  have hlocked := h.locked q hq hother
  rw [hlock] at hlocked
  cases hlocked

variable {lock : Bool}

theorem inv_setProc {p : Proc} (hcore : Core sys) (hothers : Others sys pid)
    (hlock : (lock = true ∧ Alone sys pid) ∨ (p.holds = false ∧ (lock = sys.lock ∨ Alone sys pid)))
    (hmove : MoveOk sys.buf p) (hwriter : ∀ w, p.writer = some w → Owns sys pid w) :
    Inv { sys.setProc pid p with lock } := by
  have hself : update sys.procs pid p pid = p := update_self ..
  have hne : ∀ q, q ≠ pid → update sys.procs pid p q = sys.procs q := fun q hq => update_of_ne hq ..
  refine ⟨{ hcore with }, ?_, ?_, ?_, ?_, ?_⟩
  all_goals simp only [System.setProc]
  · intro q _ hholds
    by_cases hq : q = pid
    · rw [hq, hself] at hholds
      rcases hlock with ⟨hlock, -⟩ | ⟨hnot, -⟩
      · exact hlock
      · rw [hnot] at hholds
        cases hholds
    · rw [hne q hq] at hholds
      rcases hlock with ⟨hlock, -⟩ | ⟨-, hlock | halone⟩
      · exact hlock
      · rw [hlock]
        exact hothers.locked q hq hholds
      · rw [halone q hq] at hholds
        cases hholds
  · intro q q' _ _ hholds hholds'
    have hclash : ∀ r ≠ pid, (sys.procs r).holds = true → p.holds = true → False := by
      intro r hr hrholds hpholds
      rcases hlock with ⟨-, halone⟩ | ⟨hnot, -⟩
      · rw [halone r hr] at hrholds
        cases hrholds
      · rw [hnot] at hpholds
        cases hpholds
    by_cases hq : q = pid <;> by_cases hq' : q' = pid
    · rw [hq, hq']
    · rw [hq, hself] at hholds
      rw [hne q' hq'] at hholds'
      exact (hclash q' hq' hholds' hholds).elim
    · rw [hq', hself] at hholds'
      rw [hne q hq] at hholds
      exact (hclash q hq hholds hholds').elim
    · rw [hne q hq] at hholds
      rw [hne q' hq'] at hholds'
      exact hothers.single q q' hq hq' hholds hholds'
  · intro q _
    by_cases hq : q = pid
    · rw [hq, hself]
      exact hmove
    · rw [hne q hq]
      exact hothers.move q hq
  · intro q w _ hw
    by_cases hq : q = pid
    · rw [hq, hself] at hw
      exact (hwriter w hw).1
    · rw [hne q hq] at hw
      exact hothers.writer q w hq hw
  · intro q q' w w' _ _ hw hw' hcall
    by_cases hq : q = pid <;> by_cases hq' : q' = pid
    · rw [hq, hq']
    · rw [hq, hself] at hw
      rw [hne q' hq'] at hw'
      exact ((hwriter w hw).2 q' hq' w' hw' hcall.symm).elim
    · rw [hq', hself] at hw'
      rw [hne q hq] at hw
      exact ((hwriter w' hw').2 q hq w hw hcall).elim
    · rw [hne q hq] at hw
      rw [hne q' hq'] at hw'
      exact hothers.separate q q' w w' hq hq' hw hw' hcall

/-! ## Frames -/

theorem moveOk_of_not_holds {b' : Pipebuf} {p : Proc} (hnot : p.holds = false)
    (h : MoveOk b p) : MoveOk b' p := by
  cases p with
  | moveFirst w size segsize => cases hnot
  | moveSecond w size segsize => cases hnot
  | moveOut r size => cases hnot
  | _ => exact h

theorem others_frame {sys' : System} (h : Others sys pid) (hprocs : sys'.procs = sys.procs)
    (hlock : (sys'.lock = sys.lock ∧ sys'.buf = sys.buf) ∨ Alone sys pid)
    (hcalls : ∀ q ≠ pid, ∀ w, (sys.procs q).writer = some w → sys'.calls w.call = sys.calls w.call ∧
        sent sys'.transfers w.call = sent sys.transfers w.call) : Others sys' pid := by
  refine ⟨?_, ?_, ?_, ?_, ?_⟩
  all_goals rw [hprocs]
  · intro q hq hholds
    rcases hlock with ⟨hlock, -⟩ | halone
    · rw [hlock]
      exact h.locked q hq hholds
    · rw [halone q hq] at hholds
      cases hholds
  · exact h.single
  · intro q hq
    rcases hlock with ⟨-, hbuf⟩ | halone
    · rw [hbuf]
      exact h.move q hq
    · exact moveOk_of_not_holds (halone q hq) (h.move q hq)
  · intro q w hq hw
    obtain ⟨hcall, hsent⟩ := hcalls q hq w hw
    obtain ⟨c, hc⟩ := h.writer q w hq hw
    refine ⟨c, ?_, hc.open_, ?_, hc.resid, ?_⟩
    · rw [hcall, hc.call]
    · rw [hsent, hc.data]
    · rw [hsent]
      exact hc.small
  · exact h.separate

/-! ## Writes -/

theorem returnWrite_inv {error : Option Errno} (hcore : Core sys) (hothers : Others sys pid)
    (howns : Owns sys pid w) (hlock : lock = sys.lock ∨ Alone sys pid)
    (herror : error = none → w.uio = []) : Inv { returnWrite sys pid w.call error with lock } := by
  obtain ⟨⟨c, hc⟩, hother⟩ := howns
  unfold returnWrite
  generalize hdef : update sys.calls w.call
    ((sys.calls w.call).map fun c => { c with result := some error }) = calls
  have hcalls : ∀ id, calls id =
      if id = w.call then some { c with result := some error } else sys.calls id := by
    intro id
    rw [← hdef, update_apply, hc.call]
    rfl
  have hcore' : Core { sys with calls } := by
    refine ⟨hcore.ring, hcore.stream, ?_, ?_, ?_⟩
    · intro id c' hc'
      change calls id = some c' at hc'
      rw [hcalls id] at hc'
      split_ifs at hc' with hid
      · cases hc'
        rw [hid]
        constructor
        · refine ⟨w.uio, hc.data, ?_⟩
          intro hok
          exact herror (Option.some.inj hok)
        · intro hok hsmall hne
          have huio := herror (Option.some.inj hok)
          rcases hc.small hsmall with hnone | ⟨-, hone⟩
          · have hdata := hc.data
            rw [hnone, huio] at hdata
            exact absurd hdata.symm hne
          · exact hone
      · exact hcore.calls id c' hc'
    · intro id hid
      show calls id = none
      rw [hcalls id, if_neg]
      · exact hcore.fresh id hid
      · intro heq
        have hnone := hcore.fresh id hid
        rw [heq, hc.call] at hnone
        cases hnone
    · intro t ht
      show ∃ c, calls t.call = some c
      rw [hcalls]
      split_ifs
      · exact ⟨_, rfl⟩
      · exact hcore.known t ht
  have hothers' : Others { sys with calls } pid := by
    refine others_frame hothers ?_ (.inl ⟨?_, ?_⟩) ?_
    · rfl
    · rfl
    · rfl
    · intro q hq w' hw'
      refine ⟨?_, rfl⟩
      show calls w'.call = _
      rw [hcalls, if_neg (hother q hq w' hw')]
  exact inv_setProc hcore' hothers' (.inr ⟨rfl, hlock⟩) trivial nofun

theorem endWrite_inv {error : Option Errno} {resid : ℕ} (hcore : Core sys)
    (hothers : Others sys pid) (howns : Owns sys pid w) (hlock : lock = sys.lock ∨ Alone sys pid)
    (herror : error = none ∨ error = some .epipe → resid = w.uio.length)
    (hnone : error = none → resid = 0) : Inv { endWrite sys pid w.call resid error with lock } := by
  apply returnWrite_inv hcore hothers howns hlock
  intro hok
  apply eq_nil_of_length_eq_zero
  split_ifs at hok with hpipe
  · rw [← herror (.inr hpipe.2.2), hpipe.2.1]
  · rw [← herror (.inl hok), hnone hok]

theorem writeLoop_inv (hcore : Core sys) (hothers : Others sys pid) (howns : Owns sys pid w) :
    Inv (writeLoop sys pid w) := by
  unfold writeLoop
  dsimp only
  by_cases hresid : w.uio.length = 0
  · rw [if_pos hresid]
    exact endWrite_inv hcore hothers howns (.inl rfl) (fun _ => rfl) (fun _ => hresid)
  · rw [if_neg hresid]
    by_cases heof : sys.eof = true
    · rw [if_pos heof]
      exact endWrite_inv hcore hothers howns (.inl rfl) (fun _ => rfl) nofun
    · rw [if_neg heof]
      have hput : ∀ p : Proc, p.holds = false → MoveOk sys.buf p → p.writer = some w →
          Inv (sys.setProc pid p) := by
        intro p hholds hmove hwriter
        refine inv_setProc hcore hothers (.inr ⟨hholds, .inl rfl⟩) hmove ?_
        intro w' hw'
        rw [hwriter] at hw'
        cases hw'
        exact howns
      generalize hspace : (if sys.buf.size - sys.buf.cnt < w.uio.length ∧ w.origResid ≤ pipeBuf
        then 0 else sys.buf.size - sys.buf.cnt) = space
      by_cases hpos : 0 < space
      · rw [if_pos hpos]
        refine hput _ rfl ⟨hpos, ?_, ?_⟩ rfl
        · intro hnil
          rw [hnil] at hresid
          exact hresid rfl
        · intro hsmall
          split_ifs at hspace with hlittle
          · omega
          · rw [not_and_or] at hlittle
            rcases hlittle with hle | hbig
            · omega
            · exact absurd hsmall hbig
      · rw [if_neg hpos]
        by_cases hnonblock : w.nonblock = true
        · rw [if_pos hnonblock]
          refine endWrite_inv hcore hothers howns (.inl rfl) ?_ nofun
          intro h
          rfl
        · rw [if_neg hnonblock]
          exact hput _ rfl trivial rfl

theorem pipeWrite_inv (h : Inv sys) (data : List UInt8) (nonblock : Bool) :
    Inv (pipeWrite sys pid data nonblock) := by
  unfold pipeWrite
  dsimp only
  generalize hdef : update sys.calls sys.ncalls (some ⟨data, none⟩) = calls
  have hcalls : ∀ id, calls id = if id = sys.ncalls then some ⟨data, none⟩ else sys.calls id := by
    intro id
    rw [← hdef, update_apply]
  have hsent : sent sys.transfers sys.ncalls = [] := by
    unfold sent
    rw [filter_eq_nil_iff]
    intro t ht heq
    obtain ⟨c, hc⟩ := h.core.known t ht
    rw [of_decide_eq_true heq, h.core.fresh sys.ncalls le_rfl] at hc
    cases hc
  have hcore : Core { sys with ncalls := sys.ncalls + 1, calls } := by
    refine ⟨h.core.ring, h.core.stream, ?_, ?_, ?_⟩
    · intro id c hc
      change calls id = some c at hc
      rw [hcalls id] at hc
      split_ifs at hc with hid
      · cases hc
        refine ⟨⟨data, ?_, nofun⟩, nofun⟩
        rw [hid]
        rw [hsent]
        rfl
      · exact h.core.calls id c hc
    · intro id hid
      have hid' : sys.ncalls + 1 ≤ id := hid
      show calls id = none
      rw [hcalls id, if_neg (by omega)]
      exact h.core.fresh id (by omega)
    · intro t ht
      show ∃ c, calls t.call = some c
      rw [hcalls]
      split_ifs
      · exact ⟨_, rfl⟩
      · exact h.core.known t ht
  have hlt : ∀ q w, (sys.procs q).writer = some w → w.call ≠ sys.ncalls := by
    intro q w hw heq
    obtain ⟨c, hc⟩ := h.procs.writer q w trivial hw
    have hnone := h.core.fresh w.call (by omega)
    rw [hc.call] at hnone
    cases hnone
  have hothers : Others { sys with ncalls := sys.ncalls + 1, calls } pid := by
    refine others_frame (h.others pid) ?_ (.inl ⟨?_, ?_⟩) ?_
    · rfl
    · rfl
    · rfl
    · intro q _ w hw
      refine ⟨?_, rfl⟩
      show calls w.call = _
      rw [hcalls, if_neg (hlt q w hw)]
  have howns : Owns { sys with ncalls := sys.ncalls + 1, calls } pid
      ⟨sys.ncalls, data, data.length, nonblock⟩ := by
    refine ⟨⟨⟨data, none⟩, ?_, rfl, ?_, rfl, fun _ => .inl hsent⟩, fun q _ w hw => hlt q w hw⟩
    · show calls sys.ncalls = _
      rw [hcalls, if_pos rfl]
    · rw [hsent]
      rfl
  split_ifs
  · exact returnWrite_inv hcore hothers howns (.inl rfl) nofun
  · refine inv_setProc hcore hothers (.inr ⟨rfl, .inl rfl⟩) trivial ?_
    rintro _ ⟨⟩
    exact howns
  · exact writeLoop_inv hcore hothers howns

theorem resize_inv {valloc : Bool} (h : Inv sys) (hlock : sys.lock = false) (howns : Owns sys pid w)
    (hempty : valloc = true → sys.buf.cnt = 0) : Inv (resize sys pid w valloc) := by
  have halone := (h.others pid).alone_of_unlocked hlock
  cases valloc with
  | false => exact writeLoop_inv h.core (h.others pid) howns
  | true =>
    have hcontents : sys.buf.contents = [] := by
      unfold Pipebuf.contents
      rw [hempty rfl]
      rfl
    refine writeLoop_inv ⟨⟨?_, ?_, ?_⟩, ?_, h.core.calls, h.core.fresh, h.core.known⟩ ?_ howns
    · show 0 < bigPipeSize
      decide
    · exact zero_le _
    · rfl
    · have hstream := h.core.stream
      rw [hcontents] at hstream
      exact hstream
    · refine others_frame (h.others pid) ?_ (.inr halone) ?_
      · rfl
      · exact fun q _ w' _ => ⟨rfl, rfl⟩

theorem beginTransfer_inv {space : ℕ} (h : Inv sys) (hlock : sys.lock = false)
    (hproc : sys.procs pid = .wantWrite w space) : Inv (beginTransfer sys pid w space) := by
  have howns : Owns sys pid w := h.owns (by rw [hproc]; rfl)
  have hmove := h.procs.move pid trivial
  rw [hproc] at hmove
  obtain ⟨hpos, hne, hsmall⟩ := hmove
  have hlen := length_pos_iff.mpr hne
  unfold beginTransfer
  by_cases hspace : sys.buf.size - sys.buf.cnt < space
  · rw [if_pos hspace]
    exact writeLoop_inv h.core (h.others pid) howns
  · rw [if_neg hspace]
    refine inv_setProc h.core (h.others pid)
      (.inl ⟨rfl, (h.others pid).alone_of_unlocked hlock⟩) ⟨?_, ?_, ?_, rfl, ?_⟩ ?_
    · omega
    · omega
    · omega
    · intro hle
      omega
    · rintro _ ⟨⟩
      exact howns

theorem store_inv (bytes : List UInt8) (h : Inv sys) (halone : Alone sys pid)
    (hpos : pos = (sys.buf.inPos + k) % sys.buf.size) (hend : pos + n ≤ sys.buf.size)
    (hspace : sys.buf.cnt + (k + n) ≤ sys.buf.size) (hlen : bytes.length ≤ n) :
    Core (sys.store pos bytes) ∧ Others (sys.store pos bytes) pid := by
  constructor
  · have hcontents := contents_store h.core.ring hpos hend hspace hlen
    refine ⟨{ h.core.ring with }, ?_, h.core.calls, h.core.fresh, h.core.known⟩
    exact (congrArg (sys.taken ++ ·) hcontents).trans h.core.stream
  · refine others_frame (h.others pid) ?_ (.inr halone) ?_
    · rfl
    · exact fun q _ w _ => ⟨rfl, rfl⟩

theorem sent_append_self (call : ℕ) (bytes : List UInt8) :
    sent (transfers ++ [⟨call, bytes⟩]) call = sent transfers call ++ [⟨call, bytes⟩] := by
  simp [sent]

theorem sent_append_of_ne {call call' : ℕ} (bytes : List UInt8)
    (hne : call' ≠ call) : sent (transfers ++ [⟨call, bytes⟩]) call' = sent transfers call' := by
  simp [sent, hne.symm]

theorem commit_inv (hcore : Core sys) (hothers : Others sys pid) (halone : Alone sys pid)
    (howns : Owns sys pid w) (hmove : MoveOk.Move sys.buf w size segsize)
    (hfilled : Filled sys.buf w.uio size) : Inv (commit sys pid w size segsize) := by
  obtain ⟨hpos, hsize, hspace, hseg, hsmall⟩ := hmove
  obtain ⟨⟨c, hc⟩, hother⟩ := howns
  obtain ⟨hring, hcontents⟩ := commit_ring hcore.ring hspace hseg hfilled hsize
  apply writeLoop_inv
  · refine ⟨hring, ?_, ?_, hcore.fresh, ?_⟩
    · show sys.taken ++ RingBuffer.contents _ _ _ _ = (sys.transfers ++ [_]).flatMap _
      rw [hcontents, ← append_assoc, hcore.stream]
      simp
    · intro id c' hc'
      by_cases hid : id = w.call
      · subst hid
        rw [hc.call] at hc'
        cases hc'
        refine ⟨⟨w.uio.drop size, ?_, ?_⟩, ?_⟩
        · rw [sent_append_self, ← hc.data]
          simp
        · intro hok
          rw [hc.open_] at hok
          cases hok
        · intro hok
          rw [hc.open_] at hok
          cases hok
      · obtain ⟨hfirst, hwhole⟩ := hcore.calls id c' hc'
        constructor
        · rw [sent_append_of_ne _ _ hid]
          exact hfirst
        · rw [sent_append_of_ne _ _ hid]
          exact hwhole
    · exact forall_mem_append.mpr ⟨hcore.known, forall_mem_singleton.mpr ⟨c, hc.call⟩⟩
  · refine others_frame hothers ?_ (.inr halone) ?_
    · rfl
    · exact fun q hq w' hw' => ⟨rfl, sent_append_of_ne _ _ (hother q hq w' hw')⟩
  · refine ⟨⟨c, hc.call, hc.open_, ?_, hc.resid, ?_⟩, hother⟩
    · rw [sent_append_self, ← hc.data]
      simp
    · intro hle
      right
      have hall : size = w.uio.length := hsmall (hc.resid.trans_le hle)
      refine ⟨drop_eq_nil_of_le hall.ge, ?_⟩
      rcases hc.small hle with hnone | ⟨hnil, -⟩
      · have hdata := hc.data
        rw [hnone] at hdata
        rw [sent_append_self, hnone, hall, take_length, ← hdata]
        rfl
      · rw [hnil] at hsize
        have hzero : size ≤ 0 := hsize
        omega

/-! ## Reads -/

theorem readLoop_inv {r : Reader} (hcore : Core sys) (hothers : Others sys pid)
    (halone : Alone sys pid) : Inv (readLoop sys pid r) := by
  have hout := hcore.ring.out_lt
  have hquiet : ∀ p : Proc, p.holds = false → p.writer = none → MoveOk sys.buf p →
      Inv { sys.setProc pid p with lock := false } := by
    intro p hholds hwriter hmove
    refine inv_setProc hcore hothers (.inr ⟨hholds, .inr halone⟩) hmove ?_
    intro w hw
    rw [hwriter] at hw
    cases hw
  unfold readLoop
  split_ifs
  · exact hquiet _ rfl rfl trivial
  · refine inv_setProc hcore hothers (.inl ⟨rfl, halone⟩) ⟨?_, ?_⟩ nofun
    · omega
    · omega
  · exact hquiet _ rfl rfl trivial
  · exact hquiet _ rfl rfl trivial

theorem consume_inv {r : Reader} (h : Inv sys)
    (hproc : sys.procs pid = .moveOut r size) : Inv (consume sys pid r size) := by
  have hmove := h.procs.move pid trivial
  rw [hproc] at hmove
  have halone : Alone sys pid := h.alone (by rw [hproc]; rfl)
  obtain ⟨hring, hcontents⟩ := consume_ring h.core.ring hmove.1 hmove.2
  apply readLoop_inv
  · refine ⟨hring, ?_, h.core.calls, h.core.fresh, h.core.known⟩
    rw [append_assoc, hcontents]
    exact h.core.stream
  · refine others_frame (h.others pid) ?_ (.inr halone) ?_
    · rfl
    · exact fun q _ w _ => ⟨rfl, rfl⟩
  · exact halone

/-! ## Steps -/

variable {sys' : System}

theorem moveFirst_pos (h : Inv sys) (hmove : MoveOk.Move sys.buf w size segsize) :
    sys.buf.inPos = (sys.buf.inPos + 0) % sys.buf.size ∧
      sys.buf.inPos + segsize ≤ sys.buf.size ∧ segsize ≤ size := by
  have hin := h.core.ring.in_lt
  obtain ⟨-, -, -, hseg, -⟩ := hmove
  refine ⟨?_, by omega, by omega⟩
  rw [add_zero, mod_eq_of_lt hin]

theorem moveSecond_pos (h : Inv sys)
    (hmove : MoveOk.Move sys.buf w size segsize) (hlt : segsize < size) :
    0 = (sys.buf.inPos + segsize) % sys.buf.size ∧ segsize + (size - segsize) = size ∧
      0 + (size - segsize) ≤ sys.buf.size := by
  have hin := h.core.ring.in_lt
  obtain ⟨-, -, hspace, hseg, -⟩ := hmove
  refine ⟨?_, by omega, by omega⟩
  rw [show sys.buf.inPos + segsize = sys.buf.size by omega, mod_self]

theorem moved_inv (h : Inv sys) (hmoved : moved sys pid = some sys') : Inv sys' := by
  have hmove := h.procs.move pid trivial
  unfold moved at hmoved
  cases hproc : sys.procs pid with rw [hproc] at hmoved hmove
  | moveFirst w size segsize =>
    have howns : Owns sys pid w := h.owns (by rw [hproc]; rfl)
    have halone : Alone sys pid := h.alone (by rw [hproc]; rfl)
    obtain ⟨hpos, hend, hle⟩ := moveFirst_pos h hmove
    have hmove' := hmove
    obtain ⟨-, hsize, hspace, hseg, -⟩ := hmove
    have hstored := store_inv (k := 0) (n := segsize) (w.uio.take segsize) h halone hpos hend
      (by omega) (length_take_le _ _)
    have hfirst : Filled sys.buf w.uio 0 := fun j hj => absurd hj (not_lt_zero j)
    have hfilled := filled_store h.core.ring hpos hend (by omega) hfirst (by omega)
    rw [zero_add] at hfilled
    dsimp only at hmoved
    split_ifs at hmoved with hmore
    · cases hmoved
      refine inv_setProc hstored.1 hstored.2 (.inl ⟨?_, halone⟩) ⟨hmove', hmore, hfilled⟩ ?_
      · exact h.procs.locked pid trivial (by rw [hproc]; rfl)
      · rintro _ ⟨⟩
        exact howns
    · cases hmoved
      have hall : segsize = size := by omega
      rw [hall] at hfilled
      refine commit_inv hstored.1 hstored.2 halone howns hmove' ?_
      rw [hall]
      exact hfilled
  | moveSecond w size segsize =>
    have howns : Owns sys pid w := h.owns (by rw [hproc]; rfl)
    have halone : Alone sys pid := h.alone (by rw [hproc]; rfl)
    obtain ⟨hmove', hlt, hfirst⟩ := hmove
    obtain ⟨hpos, hsum, hend⟩ := moveSecond_pos h hmove' hlt
    obtain ⟨-, hsize, hspace, -⟩ := id hmove'
    have hstored := store_inv ((w.uio.drop segsize).take (size - segsize)) h halone hpos
      hend (by omega) (length_take_le _ _)
    have hfilled := filled_store h.core.ring hpos hend (by omega) hfirst (by omega)
    rw [hsum] at hfilled
    cases hmoved
    exact commit_inv hstored.1 hstored.2 halone howns hmove' hfilled
  | moveOut r size =>
    cases hmoved
    exact consume_inv h hproc
  | _ => cases hmoved

theorem fault_inv (h : Inv sys) (hfault : fault sys pid n = some sys') : Inv sys' := by
  have hmove := h.procs.move pid trivial
  unfold fault at hfault
  cases hproc : sys.procs pid with rw [hproc] at hfault hmove
  | moveFirst w size segsize =>
    have howns : Owns sys pid w := h.owns (by rw [hproc]; rfl)
    have halone : Alone sys pid := h.alone (by rw [hproc]; rfl)
    obtain ⟨hpos, hend, hle⟩ := moveFirst_pos h hmove
    obtain ⟨-, hsize, hspace, -⟩ := hmove
    have hstored := store_inv (k := 0) (n := segsize) (w.uio.take (min n segsize)) h halone
      hpos hend (by omega) ((length_take_le _ _).trans (min_le_right _ _))
    cases hfault
    exact endWrite_inv hstored.1 hstored.2 howns (.inr halone)
      (fun herror => by rcases herror with h | h <;> cases h) nofun
  | moveSecond w size segsize =>
    have howns : Owns sys pid w := h.owns (by rw [hproc]; rfl)
    have halone : Alone sys pid := h.alone (by rw [hproc]; rfl)
    obtain ⟨hmove', hlt, -⟩ := hmove
    obtain ⟨hpos, hsum, hend⟩ := moveSecond_pos h hmove' hlt
    obtain ⟨-, hsize, hspace, -⟩ := hmove'
    have hstored := store_inv ((w.uio.drop segsize).take (min n (size - segsize))) h
      halone hpos hend (by omega) ((length_take_le _ _).trans (min_le_right _ _))
    cases hfault
    exact endWrite_inv hstored.1 hstored.2 howns (.inr halone)
      (fun herror => by rcases herror with h | h <;> cases h) nofun
  | moveOut r size =>
    have halone : Alone sys pid := h.alone (by rw [hproc]; rfl)
    cases hfault
    exact inv_setProc h.core (h.others pid) (.inr ⟨rfl, .inr halone⟩) trivial nofun
  | _ => cases hfault

theorem interrupt_inv (h : Inv sys) (hinterrupt : interrupt sys pid = some sys') : Inv sys' := by
  unfold interrupt at hinterrupt
  have hend : ∀ w, (sys.procs pid).writer = some w →
      Inv (endWrite sys pid w.call w.uio.length (some .eintr)) := by
    intro w hw
    exact endWrite_inv h.core (h.others pid) (h.owns hw) (.inl rfl) (fun _ => rfl) nofun
  have hidle : Inv (sys.setProc pid .idle) :=
    inv_setProc h.core (h.others pid) (.inr ⟨rfl, .inl rfl⟩) trivial nofun
  cases hproc : sys.procs pid with rw [hproc] at hinterrupt
  | wantResize w =>
    cases hinterrupt
    exact returnWrite_inv h.core (h.others pid) (h.owns (by rw [hproc]; rfl)) (.inl rfl) nofun
  | wantWrite w space =>
    cases hinterrupt
    exact hend w (by rw [hproc]; rfl)
  | sleepSpace w =>
    cases hinterrupt
    exact hend w (by rw [hproc]; rfl)
  | wantRead r =>
    cases hinterrupt
    exact hidle
  | sleepData r =>
    cases hinterrupt
    exact hidle
  | _ => cases hinterrupt

/-- A process that enlarges the buffer finds it empty under the lock. -/
def Unhurried (sys : System) : Event → Prop
  | .resume pid valloc =>
    match sys.procs pid with
    | .wantResize _ => sys.lock = false → valloc = true → sys.buf.cnt = 0
    | _ => True
  | _ => True

theorem resume_inv {valloc : Bool} (h : Inv sys) (hguard : Unhurried sys (.resume pid valloc))
    (hresume : resume sys pid valloc = some sys') : Inv sys' := by
  unfold resume at hresume
  unfold Unhurried at hguard
  dsimp only at hguard
  cases hproc : sys.procs pid with rw [hproc] at hresume hguard
  | wantResize w =>
    cases hlock : sys.lock with rw [hlock] at hresume
    | true =>
      cases hresume
      exact h
    | false =>
      cases hresume
      exact resize_inv h hlock (h.owns (by rw [hproc]; rfl)) (hguard hlock)
  | wantWrite w space =>
    cases hlock : sys.lock with rw [hlock] at hresume
    | true =>
      cases hresume
      exact h
    | false =>
      cases hresume
      exact beginTransfer_inv h hlock hproc
  | wantRead r =>
    cases hlock : sys.lock with rw [hlock] at hresume
    | true =>
      cases hresume
      exact h
    | false =>
      cases hresume
      exact readLoop_inv h.core (h.others pid) ((h.others pid).alone_of_unlocked hlock)
  | sleepSpace w =>
    have howns : Owns sys pid w := h.owns (by rw [hproc]; rfl)
    dsimp only at hresume
    split_ifs at hresume
    · cases hresume
      exact endWrite_inv h.core (h.others pid) howns (.inl rfl) (fun _ => rfl) nofun
    · cases hresume
      exact writeLoop_inv h.core (h.others pid) howns
  | sleepData r =>
    cases hresume
    exact inv_setProc h.core (h.others pid) (.inr ⟨rfl, .inl rfl⟩) trivial nofun
  | _ => cases hresume

theorem step_inv {event : Event} (h : Inv sys) (hguard : Unhurried sys event)
    (hstep : step sys event = some sys') : Inv sys' := by
  cases event with
  | write pid data nonblock =>
    unfold step at hstep
    dsimp only at hstep
    cases hproc : sys.procs pid with rw [hproc] at hstep
    | idle =>
      cases hstep
      exact pipeWrite_inv h data nonblock
    | _ => cases hstep
  | read pid resid nonblock =>
    unfold step at hstep
    dsimp only at hstep
    cases hproc : sys.procs pid with rw [hproc] at hstep
    | idle =>
      cases hstep
      exact inv_setProc h.core (h.others pid) (.inr ⟨rfl, .inl rfl⟩) trivial nofun
    | _ => cases hstep
  | resume pid valloc => exact resume_inv h hguard hstep
  | interrupt pid => exact interrupt_inv h hstep
  | moved pid => exact moved_inv h hstep
  | fault pid n => exact fault_inv h hstep
  | eof | others =>
    cases hstep
    exact ⟨{ h.core with }, { h.procs with }⟩

/-! ## Runs -/

/-- What is promised of a pipe: what was read and what is in the ring are the transfers of
the writes; those of one write are the beginning of its data, all of it if the write was
successful and in one piece if it was small. -/
structure Fifo (sys : System) : Prop where
  stream : sys.taken ++ sys.buf.contents = sys.transfers.flatMap (·.bytes)
  writes : ∀ t ∈ sys.transfers, ∃ c, sys.calls t.call = some c
  calls : ∀ id c, sys.calls id = some c → CallOk sys.transfers id c
  cnt_le : sys.buf.cnt ≤ sys.buf.size
  distance : sys.buf.inPos = (sys.buf.outPos + sys.buf.cnt) % sys.buf.size

theorem inv_start : Inv start := by
  refine ⟨⟨⟨by decide, by decide, by decide⟩, rfl, ?_, fun _ _ => rfl, ?_⟩, ?_, ?_, ?_, ?_, ?_⟩
  · exact nofun
  · exact nofun
  · exact nofun
  · exact nofun
  · exact fun _ _ => trivial
  · exact nofun
  · exact nofun

/-- A pipe is a queue of transfers while its buffer is only enlarged when it is empty. -/
theorem pipe_fifo {sys : System} (hrun : Run.GuardedRun step Unhurried start sys) : Fifo sys := by
  have h : Inv sys := by
    apply Run.GuardedRun.invariant (P := Inv) inv_start _ hrun
    intro before event after hinv hguard hstep
    exact step_inv hinv hguard hstep
  exact ⟨h.core.stream, h.core.known, h.core.calls, h.core.ring.cnt_le, h.core.ring.in_eq⟩

instance (sys : System) (event : Event) : Decidable (Unhurried sys event) := by
  unfold Unhurried
  cases event with
  | resume pid valloc =>
    dsimp only
    split <;> infer_instance
  | _ => exact instDecidableTrue

def twoWriters : List Event :=
  [.write 1 [1, 2] false, .resume 1 true, .write 2 [3] false, .resume 2 true, .read 3 2 false,
    .moved 1, .resume 2 true, .resume 2 true, .moved 2, .resume 3 true, .moved 3]

theorem pipe_fifo_two_writers :
    Fifo (Run.execD step Unhurried start twoWriters) ∧
      (Run.execD step Unhurried start twoWriters).taken = [1, 2] ∧
      (Run.execD step Unhurried start twoWriters).buf.contents = [3] :=
  ⟨pipe_fifo (Run.GuardedRun.of_execD (by decide)), by decide, by decide⟩

/-- A writer waits for the lock to enlarge the buffer while another one puts a byte into it. -/
def hurriedWriters (data : List UInt8) : List Event :=
  [.write 1 [7] false, .resume 1 true, .write 2 data false, .moved 1, .resume 2 true]

theorem exec_hurriedWriters {data : List UInt8} (hlen : pipeSize < data.length) :
    ∃ sys, Run.exec step (fun _ _ => True) start (hurriedWriters data) = some sys ∧
      sys.transfers = [⟨0, [7]⟩] ∧ sys.calls 0 = some ⟨[7], some none⟩ ∧ sys.taken = [] ∧
      sys.buf.cnt = 0 := by
  have hlen' : 16384 < data.length := hlen
  have hpos : data ≠ [] := ne_nil_of_length_pos (by omega)
  have hbig : ¬ data.length ≤ 512 := by omega
  simp [hurriedWriters, Run.exec, step, start, pipeWrite, writeLoop, System.setProc, resume,
    beginTransfer, moved, commit, System.store, endWrite, returnWrite, resize, pipespace,
    pipeSize, bigPipeSize, limitBigPipes, pipeBuf, hlen', hpos, hbig]

theorem byte_lost_by_resize :
    ∃ sys, Run.Reaches step start sys ∧ sys.transfers = [⟨0, [7]⟩] ∧
      sys.calls 0 = some ⟨[7], some none⟩ ∧ sys.taken = [] ∧ sys.buf.cnt = 0 ∧ ¬ Fifo sys := by
  obtain ⟨data, hlen⟩ : ∃ data : List UInt8, pipeSize < data.length :=
    ⟨List.replicate (pipeSize + 1) 7, by rw [length_replicate]; exact lt_succ_self _⟩
  obtain ⟨sys, hexec, htransfers, hcall, htaken, hcnt⟩ := exec_hurriedWriters hlen
  refine ⟨sys, Run.GuardedRun.of_exec hexec, htransfers, hcall, htaken, hcnt, fun hall => ?_⟩
  have hstream := hall.stream
  unfold Pipebuf.contents at hstream
  rw [htransfers, htaken, hcnt] at hstream
  cases hstream

end AerieKernel.Pipe
