import AerieKernel.GuardedRuns
import AerieKernel.PfStateModel

/-!
# TCP sequence numbers

The model of `pf_tcp_track_full`, which checks the sequence numbers of a packet
against its state and, for a state with modulation, shifts them by a constant for
each direction.  The branch for the first packet from one end is taken when
`seqlo` is zero.  A sequence space that wraps gets there too, and a packet that
takes this branch with both constants known is forwarded as it came.
-/

namespace AerieKernel.PacketFilter

inductive TcpsState where
  | closed
  | listen
  | synSent
  | synReceived
  | established
  | closeWait
  | finWait1
  | closing
  | lastAck
  | finWait2
  | timeWait
  | proxySrc
  | proxyDst
  deriving DecidableEq, Repr

def TcpsState.level : TcpsState → ℕ
  | .closed => 0
  | .listen => 1
  | .synSent => 2
  | .synReceived => 3
  | .established => 4
  | .closeWait => 5
  | .finWait1 => 6
  | .closing => 7
  | .lastAck => 8
  | .finWait2 => 9
  | .timeWait => 10
  | .proxySrc => 11
  | .proxyDst => 12

/-- `struct pf_state_peer`; `scrub` says whether there is a scrub record. -/
structure Peer where
  scrub : Bool := false
  seqlo : BitVec 32 := 0
  seqhi : BitVec 32 := 0
  seqdiff : BitVec 32 := 0
  maxWin : BitVec 16 := 0
  state : TcpsState := .closed
  wscale : BitVec 8 := 0
  deriving DecidableEq, Repr

structure TcpHdr where
  seq : BitVec 32
  ack : BitVec 32
  win : BitVec 16 := 0
  flagSyn : Bool := false
  flagAck : Bool := false
  flagFin : Bool := false
  flagRst : Bool := false
  deriving DecidableEq, Repr

/-- The header, the length of the data, and what the options and the flags of the
packet descriptor say. -/
structure TcpPacket where
  th : TcpHdr
  pLen : BitVec 32 := 0
  hasOptions : Bool := false
  wscale : BitVec 8 := 0
  tcpNorm : Bool := false
  ipReas : Bool := false
  deriving DecidableEq, Repr

/-- What the functions that the call uses return, and the modulator that the loop
over `arc4random` ends with. -/
structure TrackOracle where
  modulator : { diff : BitVec 32 // diff ≠ 0 } := ⟨1, by decide⟩
  normalizeInitFails : Bool := false
  modulatesSack : Bool := false
  statefulDrops : Bool := false
  statefulCopyback : Bool := false
  overConnlimit : Bool := false

def seqGeq (a b : BitVec 32) : Bool := 0 ≤ (a - b).toInt

def seqGt (a b : BitVec 32) : Bool := 0 < (a - b).toInt

def wscaleFlag (wscale : BitVec 8) : Bool := wscale &&& 0x80 ≠ 0

def wscaleShift (wscale : BitVec 8) : ℕ := (wscale &&& 0x0f).toNat

def scaled (win : BitVec 16) (shift : ℕ) : BitVec 32 :=
  win.setWidth 32 <<< shift

def scaledMax (win : BitVec 16) (shift : ℕ) : BitVec 32 :=
  if scaled win shift = 0 then 1 else scaled win shift

def maxAckWindow : ℤ := 0xffff + 1500

/-- The peers, the header and the local variables of `pf_tcp_track_full`. -/
structure TrackVars where
  src : Peer
  dst : Peer
  th : TcpHdr
  copyback : Bool := false
  win : BitVec 16
  sws : ℕ
  dws : ℕ
  ack : BitVec 32 := 0
  seq : BitVec 32
  last : BitVec 32 := 0
  deriving DecidableEq, Repr

def TrackVars.init (src dst : Peer) (packet : TcpPacket) : TrackVars :=
  let scales := src.wscale ≠ 0 ∧ dst.wscale ≠ 0 ∧ !packet.th.flagSyn
  { src := src, dst := dst, th := packet.th, win := packet.th.win
    sws := if scales then wscaleShift src.wscale else 0
    dws := if scales then wscaleShift dst.wscale else 0
    seq := packet.th.seq }

def TrackVars.modulate (vars : TrackVars) (packet : TcpPacket) (srcDiff : BitVec 32) : TrackVars :=
  let ack := packet.th.ack - vars.dst.seqdiff
  { vars with
    ack := ack
    th := { vars.th with seq := packet.th.seq + srcDiff, ack := ack }
    copyback := true }

/-- The end of the data, with one for each of `TH_SYN` and `TH_FIN`. -/
def endOf (packet : TcpPacket) : BitVec 32 :=
  packet.th.seq + packet.pLen + (if packet.th.flagSyn then 1 else 0) +
    (if packet.th.flagFin then 1 else 0)

def negotiateScale (packet : TcpPacket) (vars : TrackVars) : TrackVars :=
  if packet.th.flagSyn && wscaleFlag vars.dst.wscale then
    if wscaleFlag packet.wscale then
      let sws := wscaleShift packet.wscale
      { vars with
        src := { vars.src with wscale := packet.wscale }
        sws := sws
        win := ((vars.win.setWidth 32 + (1 <<< sws) - 1) >>> sws).setWidth 16
        dws := wscaleShift vars.dst.wscale }
    else
      { vars with
        src := { vars.src with wscale := packet.wscale }
        dst := { vars.dst with
          maxWin := vars.dst.maxWin <<< wscaleShift vars.dst.wscale
          wscale := 0 } }
  else vars

def openPeer (packet : TcpPacket) (vars : TrackVars) : TrackVars :=
  let reach := vars.last + scaledMax vars.dst.maxWin vars.dws
  { vars with
    src := { vars.src with
      seqlo := packet.th.seq
      state := if vars.src.state.level < TcpsState.synSent.level then .synSent
        else vars.src.state
      seqhi := if vars.src.seqhi = 1 ∨ seqGeq reach vars.src.seqhi then reach
        else vars.src.seqhi
      maxWin := if vars.win.toNat > vars.src.maxWin.toNat then vars.win
        else vars.src.maxWin } }

variable (oracle : TrackOracle) (packet : TcpPacket) (vars : TrackVars)

/-- `First packet from this end`; `none` if there is no memory for a scrub
record. -/
def firstPacket : Option TrackVars :=
  let scrubs := (packet.tcpNorm || vars.dst.scrub) && !vars.src.scrub
  if scrubs && oracle.normalizeInitFails then none
  else
    let vars :=
      { vars with src := { vars.src with scrub := vars.src.scrub || scrubs } }
    let vars :=
      if vars.dst.seqdiff ≠ 0 ∧ vars.src.seqdiff = 0 then
        ({ vars with src := { vars.src with
          seqdiff := oracle.modulator } } : TrackVars).modulate packet
            oracle.modulator
      else { vars with ack := packet.th.ack }
    some (openPeer packet (negotiateScale packet { vars with last := endOf packet }))

def laterPacket : TrackVars :=
  let vars :=
    if vars.src.seqdiff ≠ 0 then vars.modulate packet vars.src.seqdiff
    else { vars with ack := packet.th.ack - vars.dst.seqdiff }
  { vars with last := endOf packet }

def easeNumbers : TrackVars :=
  let ack :=
    if !packet.th.flagAck then vars.dst.seqlo
    else if (vars.ack = 0 ∧ packet.th.flagRst) ∨
        vars.dst.state.level < TcpsState.synSent.level then vars.dst.seqlo
    else vars.ack
  if vars.seq = vars.last then
    { vars with ack := ack, seq := vars.src.seqlo, last := vars.src.seqlo }
  else { vars with ack := ack }

def ackskew : ℤ := (vars.dst.seqlo - vars.ack).toInt

def insideWindows : Bool :=
  seqGeq vars.src.seqhi vars.last &&
    seqGeq vars.seq (vars.src.seqlo - scaled vars.dst.maxWin vars.dws) &&
    decide (ackskew vars ≥ -maxAckWindow) &&
    decide (ackskew vars ≤ (BitVec.ofInt 32 maxAckWindow <<< vars.sws).toInt) &&
    (!packet.th.flagRst || packet.th.seq = vars.src.seqlo ||
      packet.th.seq = vars.src.seqlo + 1 ||
      packet.th.seq + 1 = vars.src.seqlo || !packet.ipReas)

def looselyInside : Bool :=
  (vars.dst.state.level < TcpsState.synSent.level ||
    vars.dst.state.level ≥ TcpsState.finWait2.level ||
    vars.src.state.level ≥ TcpsState.finWait2.level) &&
  seqGeq (vars.src.seqhi + BitVec.ofInt 32 maxAckWindow) vars.last &&
  seqGeq vars.seq (vars.src.seqlo - BitVec.ofInt 32 maxAckWindow)

/-- `update max window`, `synchronize sequencing` and `slide the window`. -/
def slideWindows : TrackVars :=
  { vars with
    src := { vars.src with
      maxWin := if vars.src.maxWin.toNat < vars.win.toNat then vars.win
        else vars.src.maxWin
      seqlo := if seqGt vars.last vars.src.seqlo then vars.last
        else vars.src.seqlo }
    dst := { vars.dst with
      seqhi :=
        if seqGeq (vars.ack + scaled vars.win vars.sws) vars.dst.seqhi then
          vars.ack + scaledMax vars.win vars.sws
        else vars.dst.seqhi } }

def Peer.raise (peer : Peer) (state : TcpsState) : Peer :=
  { peer with
    state := if peer.state.level < state.level then state else peer.state }

def noteFin : TrackVars :=
  if packet.th.flagFin then { vars with src := vars.src.raise .closing }
  else vars

def noteRst : TrackVars :=
  if packet.th.flagRst then
    { vars with
      src := { vars.src with state := .timeWait }
      dst := { vars.dst with state := .timeWait } }
  else vars

def noteSyn : TrackVars :=
  if packet.th.flagSyn then { vars with src := vars.src.raise .synSent }
  else vars

def noteAck : TrackVars :=
  if packet.th.flagAck then
    if vars.dst.state = .synSent then
      { vars with dst := { vars.dst with state := .established } }
    else if vars.dst.state = .closing then
      { vars with dst := { vars.dst with state := .finWait2 } }
    else vars
  else vars

def establishes : Bool :=
  packet.th.flagAck && vars.dst.state = .synSent && vars.src.state = .established

def timeoutOf (src dst : Peer) : Timeout :=
  let s := src.state.level
  let d := dst.state.level
  if s ≥ TcpsState.finWait2.level ∧ d ≥ TcpsState.finWait2.level then
    .tcpClosed
  else if s ≥ TcpsState.closing.level ∧ d ≥ TcpsState.closing.level then
    .tcpFinWait
  else if s < TcpsState.established.level ∨ d < TcpsState.established.level then .tcpOpening
  else if s ≥ TcpsState.closing.level ∨ d ≥ TcpsState.closing.level then
    .tcpClosing
  else .tcpEstablished

/-- The peers after the call, the timeout if it is set anew, whether the packet
is passed and a reset is sent, and the header. -/
structure Tracked where
  src : Peer
  dst : Peer
  timeout : Option Timeout := none
  pass : Bool
  sendsReset : Bool := false
  th : TcpHdr
  copyback : Bool
  deriving DecidableEq, Repr

def Tracked.of (pass : Bool) : Tracked :=
  { src := vars.src, dst := vars.dst, pass := pass, th := vars.th
    copyback := vars.copyback }

def trackInside : Tracked :=
  let scrubs := vars.dst.scrub || vars.src.scrub
  let vars :=
    { vars with
      copyback := vars.copyback || (scrubs && oracle.statefulCopyback) }
  if scrubs && oracle.statefulDrops then Tracked.of vars false
  else
    let vars := noteFin packet (noteSyn packet (slideWindows vars))
    if establishes packet vars && oracle.overConnlimit then
      Tracked.of (noteAck packet vars) false
    else
      let vars := noteRst packet (noteAck packet vars)
      { Tracked.of vars true with timeout := some (timeoutOf vars.src vars.dst) }

def trackLoose : Tracked :=
  let scrubs := vars.dst.scrub || vars.src.scrub
  let vars :=
    { vars with
      copyback := vars.copyback || (scrubs && oracle.statefulCopyback) }
  if scrubs && oracle.statefulDrops then Tracked.of vars false
  else
    Tracked.of (noteRst packet (noteFin packet (slideWindows vars))) true

/-- A packet outside the windows; during the handshake the peer starts anew. -/
def trackBad : Tracked :=
  if vars.dst.state = .synSent ∧ vars.src.state = .synSent then
    { Tracked.of vars false with
      src := { vars.src with seqlo := 0, seqhi := 1, maxWin := 1 }
      sendsReset := !packet.th.flagRst }
  else Tracked.of vars false

def trackNumbers : Tracked :=
  let vars := easeNumbers packet vars
  let vars :=
    { vars with
      copyback := vars.copyback ||
        (vars.dst.seqdiff ≠ 0 && packet.hasOptions && oracle.modulatesSack) }
  if insideWindows packet vars then trackInside oracle packet vars
  else if looselyInside vars then trackLoose oracle packet vars
  else trackBad packet vars

def pfTcpTrackFull (src dst : Peer) : Tracked :=
  let vars := TrackVars.init src dst packet
  if src.seqlo = 0 then
    match firstPacket oracle packet vars with
    | none => Tracked.of vars false
    | some vars => trackNumbers oracle packet vars
  else trackNumbers oracle packet (laterPacket packet vars)

/-! ## What the call leaves alone -/

structure SameHeader (before after : TrackVars) : Prop where
  src : after.src.seqdiff = before.src.seqdiff
  dst : after.dst.seqdiff = before.dst.seqdiff
  th : after.th = before.th
  copyback : before.copyback = true → after.copyback = true

structure KeepsHeader (vars : TrackVars) (result : Tracked) : Prop where
  src : result.src.seqdiff = vars.src.seqdiff
  dst : result.dst.seqdiff = vars.dst.seqdiff
  th : result.th = vars.th
  copyback : vars.copyback = true → result.copyback = true

section Frame

variable {a b c : TrackVars} {packet : TcpPacket} {oracle : TrackOracle}
  {result : Tracked}

theorem SameHeader.trans (hab : SameHeader a b) (hbc : SameHeader b c) : SameHeader a c :=
  ⟨hbc.src.trans hab.src, hbc.dst.trans hab.dst, hbc.th.trans hab.th,
    fun h => hbc.copyback (hab.copyback h)⟩

theorem SameHeader.keeps (hab : SameHeader a b) (hb : KeepsHeader b result) :
    KeepsHeader a result :=
  ⟨hb.src.trans hab.src, hb.dst.trans hab.dst, hb.th.trans hab.th,
    fun h => hb.copyback (hab.copyback h)⟩

theorem slideWindows_same (vars : TrackVars) : SameHeader vars (slideWindows vars) :=
  ⟨rfl, rfl, rfl, id⟩

variable (packet : TcpPacket) (vars : TrackVars)

theorem noteFin_same : SameHeader vars (noteFin packet vars) := by
  rw [noteFin]
  split_ifs <;> exact ⟨rfl, rfl, rfl, id⟩

theorem noteSyn_same : SameHeader vars (noteSyn packet vars) := by
  rw [noteSyn]
  split_ifs <;> exact ⟨rfl, rfl, rfl, id⟩

theorem noteAck_same : SameHeader vars (noteAck packet vars) := by
  rw [noteAck]
  split_ifs <;> exact ⟨rfl, rfl, rfl, id⟩

theorem noteRst_same : SameHeader vars (noteRst packet vars) := by
  rw [noteRst]
  split_ifs <;> exact ⟨rfl, rfl, rfl, id⟩

theorem easeNumbers_same : SameHeader vars (easeNumbers packet vars) := by
  rw [easeNumbers]
  split_ifs <;> exact ⟨rfl, rfl, rfl, id⟩

theorem same_copyback (more : Bool) :
    SameHeader vars { vars with copyback := vars.copyback || more } :=
  ⟨rfl, rfl, rfl, fun h => by simp [h]⟩

theorem keeps_of (pass : Bool) : KeepsHeader vars (Tracked.of vars pass) :=
  ⟨rfl, rfl, rfl, id⟩

variable (oracle : TrackOracle) (packet : TcpPacket) (vars : TrackVars)

theorem trackInside_keeps : KeepsHeader vars (trackInside oracle packet vars) := by
  rw [trackInside]
  apply (same_copyback vars _).keeps
  split_ifs
  · exact keeps_of _ _
  · apply (((slideWindows_same _).trans (noteSyn_same packet _)).trans
      (noteFin_same packet _)).keeps
    apply (noteAck_same packet _).keeps
    dsimp only
    split_ifs
    · exact keeps_of _ _
    · exact (noteRst_same packet _).keeps ⟨rfl, rfl, rfl, id⟩

theorem trackLoose_keeps : KeepsHeader vars (trackLoose oracle packet vars) := by
  rw [trackLoose]
  apply (same_copyback vars _).keeps
  split_ifs
  · exact keeps_of _ _
  · exact (((slideWindows_same _).trans (noteFin_same packet _)).trans
      (noteRst_same packet _)).keeps (keeps_of _ _)

theorem trackBad_keeps : KeepsHeader vars (trackBad packet vars) := by
  rw [trackBad]
  split_ifs <;> exact ⟨rfl, rfl, rfl, id⟩

theorem trackNumbers_keeps : KeepsHeader vars (trackNumbers oracle packet vars) := by
  rw [trackNumbers]
  apply ((easeNumbers_same packet vars).trans (same_copyback _ _)).keeps
  split_ifs
  · exact trackInside_keeps oracle packet _
  · exact trackLoose_keeps oracle packet _
  · exact trackBad_keeps packet _

end Frame

theorem pfTcpTrackFull_later {src : Peer} (dst : Peer) (oracle : TrackOracle)
    (packet : TcpPacket) (hseqlo : src.seqlo ≠ 0) (hdiff : src.seqdiff ≠ 0) :
    let result := pfTcpTrackFull oracle packet src dst
    result.src.seqdiff = src.seqdiff ∧ result.dst.seqdiff = dst.seqdiff ∧ result.copyback = true ∧
      result.th.seq = packet.th.seq + src.seqdiff ∧
      result.th.ack = packet.th.ack - dst.seqdiff := by
  have hkeeps := trackNumbers_keeps oracle packet
    (laterPacket packet (TrackVars.init src dst packet))
  have hlater : laterPacket packet (TrackVars.init src dst packet) =
      { (TrackVars.init src dst packet).modulate packet src.seqdiff with
        last := endOf packet } := by
    rw [laterPacket, if_pos (show (TrackVars.init src dst packet).src.seqdiff ≠ 0 from hdiff)]
    rfl
  rw [pfTcpTrackFull, if_neg hseqlo]
  obtain ⟨hsrc, hdst, hth, hcopyback⟩ := hkeeps
  rw [hlater] at hsrc hdst hth hcopyback ⊢
  refine ⟨hsrc, hdst, hcopyback rfl, ?_, ?_⟩
  · rw [hth]
    rfl
  · rw [hth]
    rfl

/-! ## A connection -/

structure Forwarded where
  forward : Bool
  received : TcpHdr
  sent : TcpHdr
  deriving DecidableEq, Repr

structure Connection where
  src : Peer
  dst : Peer
  timeout : Timeout := .tcpFirstPacket
  forwarded : List Forwarded := []
  deriving DecidableEq, Repr

structure TrackEvent where
  forward : Bool
  packet : TcpPacket
  oracle : TrackOracle := {}

variable (conn : Connection)

def Connection.sender (forward : Bool) : Peer :=
  if forward then conn.src else conn.dst

/-- `pf_test_state_tcp` from its call of `pf_tcp_track_full` on: the header goes
back into the packet if that is asked for. -/
def Connection.step (event : TrackEvent) : Option Connection :=
  let result := pfTcpTrackFull event.oracle event.packet
    (conn.sender event.forward) (conn.sender !event.forward)
  let entry : Forwarded :=
    { forward := event.forward
      received := event.packet.th
      sent := if result.copyback then result.th else event.packet.th }
  some
    { src := if event.forward then result.src else result.dst
      dst := if event.forward then result.dst else result.src
      timeout := result.timeout.getD conn.timeout
      forwarded :=
        if result.pass then conn.forwarded ++ [entry] else conn.forwarded }

/-- The end that the packet comes from has a `seqlo` other than zero. -/
def KnownSender (event : TrackEvent) : Prop :=
  (conn.sender event.forward).seqlo ≠ 0

def Forwarded.Shifted (entry : Forwarded) (srcDiff dstDiff : BitVec 32) : Prop :=
  let own := if entry.forward then srcDiff else dstDiff
  let other := if entry.forward then dstDiff else srcDiff
  entry.sent.seq = entry.received.seq + own ∧
    (entry.received.flagAck = true → entry.sent.ack = entry.received.ack - other)

structure ShiftsBy (srcDiff dstDiff : BitVec 32) (conn : Connection) : Prop where
  src : conn.src.seqdiff = srcDiff
  dst : conn.dst.seqdiff = dstDiff
  shifted : ∀ entry ∈ conn.forwarded, entry.Shifted srcDiff dstDiff

theorem Connection.sender_seqdiff {srcDiff dstDiff : BitVec 32} {conn : Connection}
    (hshifts : ShiftsBy srcDiff dstDiff conn) (forward : Bool) :
    (conn.sender forward).seqdiff = if forward then srcDiff else dstDiff := by
  rw [Connection.sender]
  split_ifs
  · exact hshifts.src
  · exact hshifts.dst

theorem ShiftsBy.step {srcDiff dstDiff : BitVec 32} (hsrc : srcDiff ≠ 0) (hdst : dstDiff ≠ 0)
    {before after : Connection} {event : TrackEvent} (hshifts : ShiftsBy srcDiff dstDiff before)
    (hknown : KnownSender before event) (hstep : before.step event = some after) :
    ShiftsBy srcDiff dstDiff after := by
  cases hstep
  have hown := before.sender_seqdiff hshifts event.forward
  have hother := before.sender_seqdiff hshifts (!event.forward)
  have hdiff : (before.sender event.forward).seqdiff ≠ 0 := by
    rw [hown]
    split_ifs
    · exact hsrc
    · exact hdst
  obtain ⟨hresSrc, hresDst, hcopyback, hseq, hack⟩ :=
    pfTcpTrackFull_later (before.sender !event.forward) event.oracle event.packet hknown hdiff
  rw [hown] at hresSrc hseq
  rw [hother] at hresDst hack
  generalize pfTcpTrackFull event.oracle event.packet
    (before.sender event.forward) (before.sender !event.forward) = result at *
  constructor
  · cases hforward : event.forward <;> simp_all
  · cases hforward : event.forward <;> simp_all
  · intro entry hentry
    have hcases : entry ∈ before.forwarded ∨
        entry = ⟨event.forward, event.packet.th, result.th⟩ := by
      simp only at hentry
      split_ifs at hentry
      · simpa using hentry
      · exact .inl hentry
    rcases hcases with hold | rfl
    · exact hshifts.shifted entry hold
    · refine ⟨hseq, fun _ => ?_⟩
      rw [hack]
      cases event.forward <;> rfl

/-- As long as each packet comes from an end whose `seqlo` is not zero, every
packet that is passed carries its sequence number plus the modulator of its
sender and its acknowledgement minus the modulator of its receiver, and the
modulators are the same for the whole connection. -/
theorem modulation_is_uniform {start conn : Connection}
    (hsrc : start.src.seqdiff ≠ 0) (hdst : start.dst.seqdiff ≠ 0) (hstart : start.forwarded = [])
    (hrun : Run.GuardedRun Connection.step KnownSender start conn) :
    conn.src.seqdiff = start.src.seqdiff ∧ conn.dst.seqdiff = start.dst.seqdiff ∧
      ∀ entry ∈ conn.forwarded, entry.Shifted start.src.seqdiff start.dst.seqdiff := by
  have hshifts : ShiftsBy start.src.seqdiff start.dst.seqdiff conn := by
    apply hrun.invariant (P := ShiftsBy start.src.seqdiff start.dst.seqdiff)
    · exact ⟨rfl, rfl, by simp [hstart]⟩
    · intro before event after hbefore hknown hstep
      exact hbefore.step hsrc hdst hknown hstep
  exact ⟨hshifts.src, hshifts.dst, hshifts.shifted⟩

/-- An established connection with sixteen bytes to go until the numbers of the
first end wrap. -/
def wrappingConnection : Connection :=
  { src :=
      { seqlo := 0xfffffff0, seqhi := 4096, seqdiff := 1000, maxWin := 65535
        state := .established }
    dst :=
      { seqlo := 5000, seqhi := 70000, seqdiff := 2000, maxWin := 65535
        state := .established }
    timeout := .tcpEstablished }

def lastBeforeWrap : TrackEvent :=
  { forward := true
    packet :=
      { th := { seq := 0xfffffff0, ack := 7000, win := 65535, flagAck := true }
        pLen := 16 } }

def replyAfterWrap : TrackEvent :=
  { forward := false
    packet :=
      { th := { seq := 5000, ack := 1000, win := 65535, flagAck := true }
        pLen := 10 } }

def firstAfterWrap : TrackEvent :=
  { forward := true
    packet :=
      { th := { seq := 0, ack := 7000, win := 65535, flagAck := true }
        pLen := 8 } }

def Connection.after (events : List TrackEvent) : Connection :=
  events.foldl (fun conn event => (conn.step event).getD conn) conn

theorem modulation_is_uniform_wrap :
    (wrappingConnection.after [lastBeforeWrap, replyAfterWrap]).forwarded.length = 2 ∧ ∀ entry ∈
        (wrappingConnection.after [lastBeforeWrap, replyAfterWrap]).forwarded,
        entry.Shifted 1000 2000 := by
  have hrun : Run.GuardedRun Connection.step KnownSender wrappingConnection
      (wrappingConnection.after [lastBeforeWrap, replyAfterWrap]) :=
    ((Run.GuardedRun.refl _ _ _).tail ⟨lastBeforeWrap, by unfold KnownSender; decide, rfl⟩).tail
      ⟨replyAfterWrap, by unfold KnownSender; decide, rfl⟩
  exact ⟨rfl, (modulation_is_uniform (by decide) (by decide) rfl hrun).2.2⟩

/-- The packet that ends at the end of the sequence space sets `seqlo` to zero,
and the next one from this end is forwarded with the numbers it came with. -/
theorem not_modulated_after_wrap :
    ∃ conn, Run.Reaches Connection.step wrappingConnection conn ∧
      conn.src.seqdiff = 1000 ∧ conn.dst.seqdiff = 2000 ∧
      ∃ entry ∈ conn.forwarded, entry.forward = true ∧ entry.received.flagAck = true ∧
        entry.sent = entry.received ∧ ¬ entry.Shifted 1000 2000 := by
  refine ⟨wrappingConnection.after [lastBeforeWrap, firstAfterWrap],
    ((Run.GuardedRun.refl _ _ _).tail ⟨lastBeforeWrap, trivial, rfl⟩).tail
      ⟨firstAfterWrap, trivial, rfl⟩, rfl, rfl,
    ⟨true, firstAfterWrap.packet.th, firstAfterWrap.packet.th⟩, ?_, rfl, rfl,
    rfl, ?_⟩
  · decide
  · unfold Forwarded.Shifted
    decide

end AerieKernel.PacketFilter
