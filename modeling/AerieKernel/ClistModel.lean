import Mathlib.Tactic
import Mathlib.Data.BitVec

/-!
# Clists

The model of the ring buffers of `tty_subr.c`.  A clist has `c_cn` bytes and, if it
was made with quoting, a map with one bit for each of them.  Pointers into the ring
are offsets from `c_cs`; NULL is `none`.  An access outside of the ring or of the map
has no outcome.
-/

namespace AerieKernel.Tty

abbrev Byte := BitVec 8

def qmem (n : ℕ) : ℕ := (n - 1) / 8 + 1

/-- `struct clist`; `c_ce` is `c_cs + c_cn`. -/
structure Clist where
  cn : ℕ
  cs : ℕ → Byte
  cq : Option (ℕ → Byte)
  cf : Option ℕ
  cl : Option ℕ
  cc : ℕ

variable (size : ℕ)

def clalloc (quot : Bool) : Clist where
  cn := size
  cs := fun _ => 0
  cq := if quot then some fun _ => 0 else none
  cf := none
  cl := none
  cc := 0

/-! ## The quote map -/

variable (map : ℕ → Byte)

def modifyByte (i : ℕ) (f : Byte → Byte) : Option (ℕ → Byte) :=
  if i < size then some (Function.update map i (f (map i))) else none

def isset (i : ℕ) : Option Bool :=
  if i / 8 < size then some (map (i / 8) &&& ((1 : Byte) <<< (i % 8)) ≠ 0) else none

def setbit (i : ℕ) : Option (ℕ → Byte) :=
  modifyByte size map (i / 8) (· ||| ((1 : Byte) <<< (i % 8)))

def clrbit (i : ℕ) : Option (ℕ → Byte) :=
  modifyByte size map (i / 8) (· &&& ~~~((1 : Byte) <<< (i % 8)))

def clearBytes (size : ℕ) : ℕ → ℕ → (ℕ → Byte) → Option (ℕ → Byte)
  | 0, _, map => some map
  | count + 1, i, map =>
    (modifyByte size map i fun _ => 0).bind (clearBytes size count (i + 1))

/-- `clrbits`; the masks are computed as `int` and stored in a `u_char`. -/
def clrbits (off len : ℕ) : Option (ℕ → Byte) :=
  if len = 1 then clrbit size map off
  else
    let sby := off / 8
    let sbi := off % 8
    let eby := (off + len) / 8
    let ebi := (off + len) % 8
    if sby = eby then
      let mask : Byte := BitVec.ofNat 8 ((2 ^ (ebi - sbi) - 1) * 2 ^ sbi)
      modifyByte size map sby (· &&& ~~~mask)
    else
      (modifyByte size map sby (· &&& BitVec.ofNat 8 (2 ^ sbi - 1))).bind fun map =>
          (modifyByte size map eby
            (· &&& ~~~(BitVec.ofNat 8 (2 ^ ebi - 1)))).bind
              (clearBytes size (eby - (sby + 1)) (sby + 1))

namespace Clist

/-! ## The ring -/

variable (clp : Clist)

def load (i : ℕ) : Option Byte :=
  if i < clp.cn then some (clp.cs i) else none

def store (i : ℕ) (value : Byte) : Option Clist :=
  if i < clp.cn then some { clp with cs := Function.update clp.cs i value }
  else none

def copyOut (i len : ℕ) : Option (List Byte) :=
  if i + len ≤ clp.cn then some ((List.range len).map fun k => clp.cs (i + k))
  else none

def blockAt (mem : ℕ → Byte) (i : ℕ) (bytes : List Byte) : ℕ → Byte :=
  fun k => if i ≤ k ∧ k < i + bytes.length then bytes.getD (k - i) 0 else mem k

def copyIn (i : ℕ) (bytes : List Byte) : Option Clist :=
  if i + bytes.length ≤ clp.cn then
    some { clp with cs := blockAt clp.cs i bytes }
  else none

def zero (i len : ℕ) : Option Clist :=
  clp.copyIn i (List.replicate len 0)

def modifyQuotes (f : ℕ → (ℕ → Byte) → Option (ℕ → Byte)) : Option Clist :=
  match clp.cq with
  | none => some clp
  | some map => (f (qmem clp.cn) map).map fun map => { clp with cq := some map }

/-- `TTY_QUOTE` if the map has the bit. -/
def quoteOf (i : ℕ) : Option (BitVec 32) :=
  match clp.cq with
  | none => some 0
  | some map =>
    (isset (qmem clp.cn) map i).map fun set => if set then 0x100 else 0

def wrap (i : ℕ) : ℕ := if i = clp.cn then 0 else i

def resetIfEmpty : Clist :=
  if clp.cc = 0 then { clp with cf := none, cl := none } else clp

/-! ## Single characters -/

def getc : Option (BitVec 32 × Clist) :=
  if clp.cc = 0 then some (-1, clp)
  else
    clp.cf.bind fun f => clp.cl.bind fun l =>
    (clp.load f).bind fun byte =>
    (clp.store f 0).bind fun clp =>
    (clp.quoteOf f).bind fun quote =>
    -- the bit that is cleared is not the one of the character
    (clp.modifyQuotes fun size map => clrbit size map l).map fun clp =>
      (byte.setWidth 32 ||| quote,
        { clp with cf := some (clp.wrap (f + 1)), cc := clp.cc - 1 }.resetIfEmpty)

def startIfEmpty : Clist :=
  if clp.cc = 0 then { clp with cf := some 0, cl := some 0 } else clp

def putc (c : BitVec 32) (clp : Clist) : Option (BitVec 32 × Clist) :=
  if clp.cc = clp.cn then some (-1, clp)
  else
    let clp := clp.startIfEmpty
    clp.cl.bind fun l =>
    (clp.store l (c.setWidth 8)).bind fun clp =>
    (clp.modifyQuotes fun size map =>
      if c &&& 0x100 ≠ 0 then setbit size map l else clrbit size map l).map
      fun clp =>
        (0, { clp with cc := clp.cc + 1, cl := some (clp.wrap (l + 1)) })

def unputc : Option (BitVec 32 × Clist) :=
  if clp.cc = 0 then some (-1, clp)
  else
    clp.cl.bind fun l =>
    let l := if l = 0 then clp.cn - 1 else l - 1
    let clp := { clp with cl := some l, cc := clp.cc - 1 }
    (clp.load l).bind fun byte =>
    (clp.quoteOf l).map fun quote =>
      (byte.setWidth 32 ||| quote, clp.resetIfEmpty)

/-! ## Many characters -/

def takePiece (n f l count : ℕ) : ℕ :=
  let cc := if f ≥ l then n - f else l - f
  if cc > count then count else cc

/-- The loop of `q_to_b`; each turn takes at least one character, so there are no
more turns than `count`. -/
def qToBLoop : ℕ → Clist → ℕ → List Byte → Option (List Byte × Clist)
  | 0, clp, _, moved => some (moved, clp)
  | fuel + 1, clp, count, moved =>
    if count > 0 ∧ clp.cc > 0 then
      clp.cf.bind fun f => clp.cl.bind fun l =>
      let cc := takePiece clp.cn f l count
      (clp.copyOut f cc).bind fun bytes =>
      (clp.zero f cc).bind fun clp =>
      -- cleared are the bits from `c_cl` on
      (clp.modifyQuotes fun size map => clrbits size map l cc).bind fun clp =>
        qToBLoop fuel
          { clp with cc := clp.cc - cc, cf := some (clp.wrap (f + cc)) }
          (count - cc) (moved ++ bytes)
    else some (moved, clp)

/-- The bytes that have been copied to the buffer; their number is returned. -/
def qToB (count : ℤ) : Option (List Byte × Clist) :=
  (qToBLoop count.toNat clp count.toNat []).map fun (moved, clp) =>
    (moved, clp.resetIfEmpty)

def ndflushLoop : ℕ → Clist → ℕ → Option Clist
  | 0, clp, _ => some clp
  | fuel + 1, clp, count =>
    if count > 0 ∧ clp.cc > 0 then
      clp.cf.bind fun f => clp.cl.bind fun l =>
      let cc := takePiece clp.cn f l count
      ndflushLoop fuel
        { clp with cc := clp.cc - cc, cf := some (clp.wrap (f + cc)) }
        (count - cc)
    else some clp

def ndflush (count : ℤ) : Option Clist :=
  if count = clp.cc then some { clp with cc := 0, cf := none, cl := none }
  else (ndflushLoop count.toNat clp count.toNat).map resetIfEmpty

def putPiece (n f l count : ℕ) : ℕ :=
  let cc := if f > l then f - l else n - l
  if cc > count then count else cc

def bToQLoop : ℕ → Clist → List Byte → Option (List Byte × Clist)
  | 0, clp, bytes => some (bytes, clp)
  | fuel + 1, clp, bytes =>
    if bytes.length > 0 ∧ clp.cc < clp.cn then
      clp.cf.bind fun f => clp.cl.bind fun l =>
      let cc := putPiece clp.cn f l bytes.length
      (clp.copyIn l (bytes.take cc)).bind fun clp =>
      (clp.modifyQuotes fun size map => clrbits size map l cc).bind fun clp =>
        bToQLoop fuel
          { clp with cc := clp.cc + cc, cl := some (clp.wrap (l + cc)) }
          (bytes.drop cc)
    else some (bytes, clp)

/-- `b_to_q` with a buffer of `count` bytes; the number of bytes that are left is
returned. -/
def bToQ (bytes : List Byte) (clp : Clist) : Option (ℕ × Clist) :=
  if bytes.length = 0 then some (0, clp)
  else if clp.cc = clp.cn then some (bytes.length, clp)
  else
    (bToQLoop bytes.length clp.startIfEmpty bytes).map fun (rest, clp) =>
      (rest.length, clp)

/-- The test of a quote bit in `ndqb`, with the places of the map that are read. -/
def testQuote (quotes : Bool) (i : ℕ) : Option (Bool × List ℕ) :=
  if quotes then
    clp.cq.bind fun map => (isset (qmem clp.cn) map i).map fun set => (set, [i])
  else some (false, [])

def ndqbLoop (clp : Clist) (flag : BitVec 32) (quotes : Bool) :
    ℕ → ℕ → ℕ → List ℕ → Option (ℕ × List ℕ)
  | 0, _, count, places => some (count, places)
  | cc + 1, i, count, places =>
    (clp.load i).bind fun byte =>
    if byte.setWidth 32 &&& flag ≠ 0 then some (count, places)
    else
      -- `i` has been incremented when the quote bit is looked at
      (clp.testQuote quotes (i + 1)).bind fun (quoted, place) =>
      if quoted then some (count, places ++ place)
      else if i + 1 = clp.cn then some (count + 1, places ++ place)
      else ndqbLoop clp flag quotes cc (i + 1) (count + 1) (places ++ place)

/-- The count that `ndqb` returns, and the places of the quote map that it reads. -/
def ndqb (flag : BitVec 32) : Option (ℕ × List ℕ) :=
  if clp.cc = 0 then some (0, [])
  else
    clp.cf.bind fun f =>
    if flag = 0 then
      clp.cl.map fun l => (if l ≤ f then clp.cn - f else l - f, [])
    else if flag &&& 0x100 ≠ 0 then
      ndqbLoop clp (flag &&& ~~~0x100) true clp.cc f 0 []
    else ndqbLoop clp flag false clp.cc f 0 []

end Clist

/-! ## Calls -/

inductive Call where
  | putc (c : BitVec 32)
  | getc
  | unputc
  | bToQ (bytes : List Byte)
  | qToB (count : ℤ)
  | ndflush (count : ℤ)
  deriving DecidableEq, Repr

inductive Result where
  | char (c : BitVec 32)
  | count (count : ℕ)
  | bytes (bytes : List Byte)
  | nothing
  deriving DecidableEq, Repr

def call (clp : Clist) : Call → Option (Result × Clist)
  | .putc c => (clp.putc c).map fun (c, clp) => (.char c, clp)
  | .getc => clp.getc.map fun (c, clp) => (.char c, clp)
  | .unputc => clp.unputc.map fun (c, clp) => (.char c, clp)
  | .bToQ bytes => (Clist.bToQ bytes clp).map fun (left, clp) => (.count left, clp)
  | .qToB count => (clp.qToB count).map fun (moved, clp) => (.bytes moved, clp)
  | .ndflush count => (clp.ndflush count).map fun clp => (.nothing, clp)

def calls (clp : Clist) : List Call → Option (List Result × Clist)
  | [] => some ([], clp)
  | first :: rest =>
    (call clp first).bind fun (result, clp) =>
      (calls clp rest).map fun (results, clp) => (result :: results, clp)

end AerieKernel.Tty
