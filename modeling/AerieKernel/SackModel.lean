import AerieKernel.GuardedRuns
import AerieKernel.SerialNumbers

/-!
# The SACK scoreboard

The model of `tcp_sack_option`, `tcp_del_sackholes`, `tcp_sack_adjust` and `tcp_sack_output`,
with the parts of `tcp_input` and `tcp_output` that move `snd_una`, `snd_max` and `rxmit`.
The list of holes is walked with a trailing pointer `p`: the holes that were passed are kept
apart from those to come, and `p` is the last one that was passed, or the current one as long
as none was.
-/

namespace AerieKernel.Sack

open Serial

structure Sackhole where
  start : Seq
  end_ : Seq
  dups : ℕ
  rxmit : Seq
  deriving DecidableEq

/-- A block of the option, and what `pool_get` gives while it is processed: for a new hole
and for the second part of one that is split. -/
structure Sackblk where
  start : Seq
  end_ : Seq
  getNew : Bool
  getSplit : Bool

structure Tcpcb where
  sndUna : Seq
  sndMax : Seq
  sndHoles : List Sackhole
  sndNumholes : ℤ
  rcvLastsack : Seq
  maxseg : ℕ

def tcprexmtthresh : ℕ := 3

def seqMin (a b : Seq) : Seq := if seqLt a b then a else b
def seqMax (a b : Seq) : Seq := if seqGt a b then a else b

/-! ## Walking over the holes -/

def Sackhole.dup (maxseg : ℕ) (sack : Sackblk) (h : Sackhole) : Sackhole :=
  { h with
    dups :=
      if tcprexmtthresh ≤ (sack.end_ - h.end_).toNat / maxseg then tcprexmtthresh
      else h.dups + 1 }

def Sackhole.cutStart (sack : Sackblk) (h : Sackhole) : Sackhole :=
  { h with start := sack.end_, rxmit := seqMax h.rxmit sack.end_ }

def Sackhole.cutEnd (maxseg : ℕ) (sack : Sackblk) (h : Sackhole) : Sackhole :=
  Sackhole.dup maxseg sack { h with end_ := sack.start, rxmit := seqMin h.rxmit sack.start }

/-- The end of the loop: the holes passed, those left and `snd_numholes`; with `nobufs` the
option is given up. -/
structure Walk where
  passed : List Sackhole
  rest : List Sackhole
  numholes : ℤ
  nobufs : Bool

/-- The loop over the holes; `none` if it does not end. -/
def walk (maxseg : ℕ) (sack : Sackblk) (numholes : ℤ) (passed : List Sackhole) :
    List Sackhole → Option Walk
  | [] => some ⟨passed, [], numholes, false⟩
  | cur :: rest =>
    if seqLeq sack.end_ cur.start then some ⟨passed, cur :: rest, numholes, false⟩
    else if seqGeq sack.start cur.end_ then
      walk maxseg sack numholes (passed ++ [cur.dup maxseg sack]) rest
    else if seqLeq sack.start cur.start then
      if seqGeq sack.end_ cur.end_ then walk maxseg sack (numholes - 1) passed rest
      else walk maxseg sack numholes (passed ++ [cur.cutStart sack]) rest
    else if seqGeq sack.end_ cur.end_ then
      walk maxseg sack numholes (passed ++ [cur.cutEnd maxseg sack]) rest
    else if seqLt cur.start sack.start && seqGt cur.end_ sack.end_ then
      if !sack.getSplit then some ⟨passed, cur :: rest, numholes, true⟩
      else
        walk maxseg sack (numholes + 1) (passed ++ [cur.cutEnd maxseg sack, cur.cutStart sack]) rest
    -- nothing was done to the current hole, which is looked at again
    else none

/-- Append a hole behind `p`; `none` if `p` is NULL. -/
def appendHole (w : Walk) (temp : Sackhole) : Option (List Sackhole) :=
  if w.passed ≠ [] then some (w.passed ++ [temp])
  else
    match w.rest with
    | [] => none
    | cur :: _ => some [cur, temp]

/-! ## The option -/

def newDups (maxseg : ℕ) (sack : Sackblk) : ℕ :=
  max 1 (min tcprexmtthresh ((sack.end_ - sack.start).toNat / maxseg))

/-- The checks of a block before the holes are looked at. -/
def skips (tp : Tcpcb) (ack : Seq) (sack : Sackblk) : Bool :=
  seqLeq sack.end_ sack.start || seqLeq sack.end_ tp.sndUna ||
    (seqGt ack tp.sndUna && seqLt sack.start ack) || seqGt sack.end_ tp.sndMax

/-- One block of the option, and whether the option is given up. -/
def sackBlock (tp : Tcpcb) (ack : Seq) (sack : Sackblk) : Option (Tcpcb × Bool) :=
  if skips tp ack sack then some (tp, false)
  else
    match tp.sndHoles with
    | [] =>
      if !sack.getNew then some (tp, true)
      else
        some ({ tp with
          sndHoles := [⟨ack, sack.start, newDups tp.maxseg sack, ack⟩]
          sndNumholes := 1
          rcvLastsack := sack.end_ }, false)
    | holes =>
      match walk tp.maxseg sack tp.sndNumholes [] holes with
      | none => none
      | some w =>
        let tp := { tp with sndHoles := w.passed ++ w.rest, sndNumholes := w.numholes }
        if w.nobufs then some (tp, true)
        else if seqLt tp.rcvLastsack sack.start then
          if !sack.getNew then some (tp, true)
          else
            let temp : Sackhole :=
              ⟨tp.rcvLastsack, sack.start, newDups tp.maxseg sack, tp.rcvLastsack⟩
            (appendHole w temp).map fun sndHoles =>
              ({ tp with
                sndHoles
                sndNumholes := tp.sndNumholes + 1
                rcvLastsack := sack.end_ }, false)
        else some (tp, false)

def sackBlocks (tp : Tcpcb) (ack : Seq) : List Sackblk → Option Tcpcb
  | [] => some tp
  | sack :: rest =>
    match sackBlock tp ack sack with
    | none => none
    | some (tp, true) => some tp
    | some (tp, false) => sackBlocks tp ack rest

/-- `tcp_sack_option` for an option with whole blocks. -/
def tcpSackOption (tp : Tcpcb) (thAck : Bool) (ack : Seq) (blocks : List Sackblk) : Option Tcpcb :=
  if !thAck then some tp
  else if seqLt ack tp.sndUna || seqGt ack tp.sndMax then some tp
  else
    sackBlocks { tp with sndNumholes := if tp.sndNumholes < 0 then 0 else tp.sndNumholes }
      ack blocks

/-! ## Acknowledged holes -/

def delHoles (lastack : Seq) (numholes : ℤ) : List Sackhole → List Sackhole × ℤ
  | [] => ([], numholes)
  | cur :: rest =>
    if seqLeq cur.end_ lastack then delHoles lastack (numholes - 1) rest
    else if seqLt cur.start lastack then
      ({ cur with
        start := lastack
        rxmit := if seqLt cur.rxmit lastack then lastack else cur.rxmit } :: rest, numholes)
    else (cur :: rest, numholes)

def tcpDelSackholes (tp : Tcpcb) (ack : Seq) : Tcpcb :=
  let lastack := if seqGt ack tp.sndUna then ack else tp.sndUna
  let (sndHoles, sndNumholes) := delHoles lastack tp.sndNumholes tp.sndHoles
  { tp with sndHoles, sndNumholes }

/-! ## The system -/

inductive Event where
  -- a segment with some SACK options; its ACK is used unless the segment is dropped
  | ack (thAck : Bool) (ack : Seq) (options : List (List Sackblk)) (used : Bool)
  -- new data is sent
  | send (len : ℕ)
  -- data of a hole is sent again
  | retransmit (i len : ℕ)

/-- `tcp_dooptions` as far as it is about SACK. -/
def tcpDooptions (tp : Tcpcb) (thAck : Bool) (ack : Seq) : List (List Sackblk) → Option Tcpcb
  | [] => some tp
  | blocks :: options =>
    (tcpSackOption tp thAck ack blocks).bind fun tp => tcpDooptions tp thAck ack options

def rexmit (len : ℕ) (h : Sackhole) : Sackhole :=
  { h with rxmit := h.rxmit + BitVec.ofNat 32 (min len (h.end_ - h.rxmit).toNat) }

def step (tp : Tcpcb) : Event → Option Tcpcb
  | .ack thAck ack options used =>
    (tcpDooptions (tcpDelSackholes tp ack) thAck ack options).map fun tp =>
      if used && thAck && seqGt ack tp.sndUna && !seqGt ack tp.sndMax then
        { tp with sndUna := ack }
      else tp
  | .send len => some { tp with sndMax := tp.sndMax + BitVec.ofNat 32 len }
  | .retransmit i len => some { tp with sndHoles := tp.sndHoles.modify i (rexmit len) }

def start (iss lastsack : Seq) (maxseg : ℕ) : Tcpcb := ⟨iss, iss, [], 0, lastsack, maxseg⟩

/-! ## What is sent -/

/-- The loop of `tcp_sack_adjust` from a hole on. -/
def sackAdjustLoop (lastsack sndNxt : Seq) : List Sackhole → Seq
  | [] => sndNxt
  | cur :: rest =>
    if seqLt sndNxt cur.end_ then sndNxt
    else
      match rest with
      | [] => lastsack
      | next :: _ =>
        if seqGeq sndNxt next.start then sackAdjustLoop lastsack sndNxt rest else next.start

/-- `tcp_sack_adjust`: the new `snd_nxt`. -/
def tcpSackAdjust (tp : Tcpcb) (sndNxt : Seq) : Seq :=
  if seqGeq sndNxt tp.rcvLastsack then sndNxt
  else sackAdjustLoop tp.rcvLastsack sndNxt tp.sndHoles

def tcpSackOutput (sackEnable : Bool) (tp : Tcpcb) : Option Sackhole :=
  if !sackEnable then none
  else tp.sndHoles.find? fun p =>
    tcprexmtthresh ≤ p.dups && seqLt p.rxmit p.end_ && !seqLt p.rxmit tp.sndUna

/-- `off` and `len` of the segment that `tcp_output` sends for a hole, if it does. -/
def sackSegment (sackEnable sendalot : Bool) (dupacks : ℕ) (tp : Tcpcb) : Option (ℤ × ℕ) :=
  if sackEnable && !sendalot && tcprexmtthresh ≤ dupacks then
    (tcpSackOutput sackEnable tp).map fun p =>
      ((p.rxmit - tp.sndUna).toInt, min tp.maxseg (p.end_ - p.rxmit).toNat)
  else none

end AerieKernel.Sack
