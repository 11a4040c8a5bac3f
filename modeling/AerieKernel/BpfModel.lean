import Mathlib

/-!
# The packet filter machine

The model of `bpf_filter.c`: the checks of `bpf_validate`, and `bpf_filter`
as a machine that executes one instruction at a time.  What C leaves
undefined is a fault: an instruction fetched behind the end of the program, a
cell of `mem` that does not exist, a division by zero, and a byte read
outside the packet.  `mem` starts with arbitrary contents.  A shift by 32 or
more is what the platform makes of it.
-/

namespace AerieKernel.Bpf

/-! ## Instructions -/

abbrev Byte := BitVec 8

abbrev Word := BitVec 32

structure BpfInsn where
  code : BitVec 16
  jt : Byte
  jf : Byte
  k : Word
  deriving DecidableEq, Repr

def bpfLd : BitVec 16 := 0x00
def bpfLdx : BitVec 16 := 0x01
def bpfSt : BitVec 16 := 0x02
def bpfStx : BitVec 16 := 0x03
def bpfAlu : BitVec 16 := 0x04
def bpfJmp : BitVec 16 := 0x05
def bpfRet : BitVec 16 := 0x06
def bpfMisc : BitVec 16 := 0x07

def bpfW : BitVec 16 := 0x00
def bpfH : BitVec 16 := 0x08
def bpfB : BitVec 16 := 0x10

def bpfImm : BitVec 16 := 0x00
def bpfAbs : BitVec 16 := 0x20
def bpfInd : BitVec 16 := 0x40
def bpfMem : BitVec 16 := 0x60
def bpfLen : BitVec 16 := 0x80
def bpfMsh : BitVec 16 := 0xa0

def bpfAdd : BitVec 16 := 0x00
def bpfSub : BitVec 16 := 0x10
def bpfMul : BitVec 16 := 0x20
def bpfDiv : BitVec 16 := 0x30
def bpfOr : BitVec 16 := 0x40
def bpfAnd : BitVec 16 := 0x50
def bpfLsh : BitVec 16 := 0x60
def bpfRsh : BitVec 16 := 0x70
def bpfNeg : BitVec 16 := 0x80

def bpfJa : BitVec 16 := 0x00
def bpfJeq : BitVec 16 := 0x10
def bpfJgt : BitVec 16 := 0x20
def bpfJge : BitVec 16 := 0x30
def bpfJset : BitVec 16 := 0x40

def bpfK : BitVec 16 := 0x00
def bpfX : BitVec 16 := 0x08
def bpfA : BitVec 16 := 0x10

def bpfTax : BitVec 16 := 0x00
def bpfTxa : BitVec 16 := 0x80

def bpfClass (code : BitVec 16) : BitVec 16 := code &&& 0x07
def bpfMode (code : BitVec 16) : BitVec 16 := code &&& 0xe0
def bpfOp (code : BitVec 16) : BitVec 16 := code &&& 0xf0
def bpfRval (code : BitVec 16) : BitVec 16 := code &&& 0x18

def bpfMaxinsns : ℕ := 512

def bpfMinbufsize : ℕ := 32

def bpfMemwords : ℕ := 16

/-! ## The validator -/

/-- The variable `bpf_maxbufsize`, an `int` that `bpf_sysctl` may set. -/
structure Maxbufsize where
  val : ℕ
  low : bpfMinbufsize ≤ val
  high : val < 2 ^ 31

/-- The checks of `bpf_validate` for one instruction.  The sums for the jumps
are those of 32-bit unsigned numbers. -/
def insnValid (maxbufsize : Maxbufsize) (len i : ℕ) (p : BpfInsn) : Bool :=
  let cls := bpfClass p.code
  if cls = bpfLd ∨ cls = bpfLdx then
    let mode := bpfMode p.code
    if mode = bpfImm then true
    else if mode = bpfAbs ∨ mode = bpfInd ∨ mode = bpfMsh then
      p.k.toNat < maxbufsize.val
    else if mode = bpfMem then p.k.toNat < bpfMemwords
    else mode = bpfLen
  else if cls = bpfSt ∨ cls = bpfStx then p.k.toNat < bpfMemwords
  else if cls = bpfAlu then
    let op := bpfOp p.code
    if op ∈ [bpfAdd, bpfSub, bpfMul, bpfOr, bpfAnd, bpfLsh, bpfRsh, bpfNeg]
    then true
    else if op = bpfDiv then !(bpfRval p.code = bpfK && p.k = 0)
    else false
  else if cls = bpfJmp then
    let op := bpfOp p.code
    let from' : Word := BitVec.ofNat 32 (i + 1)
    if op = bpfJa then
      !(decide (from' + p.k < from') ||
        decide (len ≤ (from' + p.k).toNat))
    else if op ∈ [bpfJeq, bpfJgt, bpfJge, bpfJset] then
      !(decide (len ≤ (from' + p.jt.setWidth 32).toNat) ||
        decide (len ≤ (from' + p.jf.setWidth 32).toNat))
    else false
  else cls = bpfRet ∨ cls = bpfMisc

def insnsValid (maxbufsize : Maxbufsize) (len : ℕ) : ℕ → List BpfInsn → Bool
  | _, [] => true
  | i, p :: rest =>
    insnValid maxbufsize len i p && insnsValid maxbufsize len (i + 1) rest

def bpfValidate (maxbufsize : Maxbufsize) (f : List BpfInsn) : Bool :=
  if f.length < 1 ∨ bpfMaxinsns < f.length then false
  else if insnsValid maxbufsize f.length 0 f then
    (f.getLast?.map fun p => bpfClass p.code) = some bpfRet
  else false

/-! ## The packet -/

/-- Bytes that are there when `buflen` is not zero. -/
structure Buffer where
  bytes : List Byte
  nonempty : bytes ≠ []
  fits : bytes.length < 2 ^ 32

/-- What `p` points to: a buffer of `buflen` bytes, or a chain of mbufs if
`buflen` is zero. -/
inductive Packet where
  | buffer (buf : Buffer)
  | chain (m : List Byte) (next : List (List Byte))

def Packet.buflen : Packet → ℕ
  | .buffer buf => buf.bytes.length
  | .chain _ _ => 0

inductive Fault where
  | fetch (pc : ℕ)
  | mem (index : ℕ)
  | divide
  | read (offset : ℕ)
  deriving DecidableEq, Repr

inductive Stop where
  | returned (value : Word)
  | fault (fault : Fault)
  deriving DecidableEq, Repr

def readByte (bytes : List Byte) (offset : ℕ) : Except Stop Word :=
  match bytes[offset]? with
  | some byte => .ok (byte.setWidth 32)
  | none => .error (.fault (.read offset))

def Packet.read (p : Packet) (offset : ℕ) : Except Stop Word :=
  match p with
  | .buffer buf => readByte buf.bytes offset
  | .chain _ _ => .error (.fault (.read offset))

inductive Size where
  | w
  | h
  | b
  deriving DecidableEq, Repr

def Size.bytes : Size → ℕ
  | .w => 4
  | .h => 2
  | .b => 1

def extractLong (b0 b1 b2 b3 : Word) : Word :=
  b0 <<< 24 ||| b1 <<< 16 ||| b2 <<< 8 ||| b3

def extractShort (b0 b1 : Word) : Word := b0 <<< 8 ||| b1

def Packet.extract (p : Packet) (size : Size) (k : ℕ) : Except Stop Word :=
  match size with
  | .w => do
      let b0 ← p.read k
      let b1 ← p.read (k + 1)
      let b2 ← p.read (k + 2)
      let b3 ← p.read (k + 3)
      return extractLong b0 b1 b2 b3
  | .h => do
      let b0 ← p.read k
      let b1 ← p.read (k + 1)
      return extractShort b0 b1
  | .b => p.read k

/-- `MINDEX`: the mbuf with the offset in it, the ones behind it and the
offset there. -/
def mindex : List Byte → List (List Byte) → ℕ → Option (List Byte × List (List Byte) × ℕ)
  | m, next, k =>
    if k < m.length then some (m, next, k)
    else
      match next with
      | [] => none
      | m' :: next' => mindex m' next' (k - m.length)

/-- `bpf_m_xword`; an error makes the filter return zero. -/
def bpfMXword (m : List Byte) (next : List (List Byte)) (k : ℕ) : Except Stop Word :=
  match mindex m next k with
  | none => .error (.returned 0)
  | some (m, next, k) =>
    if k + 4 ≤ m.length then do
      let b0 ← readByte m k
      let b1 ← readByte m (k + 1)
      let b2 ← readByte m (k + 2)
      let b3 ← readByte m (k + 3)
      return extractLong b0 b1 b2 b3
    else
      match next with
      | [] => .error (.returned 0)
      | m0 :: _ =>
        if m0.length + m.length - k < 4 then .error (.returned 0)
        else if m.length - k = 1 then do
          let b0 ← readByte m k
          let b1 ← readByte m0 0
          let b2 ← readByte m0 1
          let b3 ← readByte m0 2
          return extractLong b0 b1 b2 b3
        else if m.length - k = 2 then do
          let b0 ← readByte m k
          let b1 ← readByte m (k + 1)
          let b2 ← readByte m0 0
          let b3 ← readByte m0 1
          return extractLong b0 b1 b2 b3
        else do
          let b0 ← readByte m k
          let b1 ← readByte m (k + 1)
          let b2 ← readByte m (k + 2)
          let b3 ← readByte m0 0
          return extractLong b0 b1 b2 b3

/-- `bpf_m_xhalf`; the length of the next mbuf is not looked at. -/
def bpfMXhalf (m : List Byte) (next : List (List Byte)) (k : ℕ) : Except Stop Word :=
  match mindex m next k with
  | none => .error (.returned 0)
  | some (m, next, k) =>
    if k + 2 ≤ m.length then do
      let b0 ← readByte m k
      let b1 ← readByte m (k + 1)
      return extractShort b0 b1
    else
      match next with
      | [] => .error (.returned 0)
      | m0 :: _ => do
          let b0 ← readByte m k
          let b1 ← readByte m0 0
          return extractShort b0 b1

def mbufByte (m : List Byte) (next : List (List Byte)) (k : ℕ) : Except Stop Word :=
  match mindex m next k with
  | none => .error (.returned 0)
  | some (m, _, k) => readByte m k

def mbufLoad (m : List Byte) (next : List (List Byte)) (size : Size) (k : ℕ) : Except Stop Word :=
  match size with
  | .w => bpfMXword m next k
  | .h => bpfMXhalf m next k
  | .b => mbufByte m next k

/-! ## The platform -/

inductive SizeT where
  | ilp32
  | lp64
  deriving DecidableEq, Repr

structure Platform where
  sizeT : SizeT
  wideLsh : Word → Word → Word
  wideRsh : Word → Word → Word

/-- `k + sizeof(...)` with the width of `size_t`. -/
def Platform.sum (platform : Platform) (k : Word) (size : ℕ) : ℕ :=
  match platform.sizeT with
  | .ilp32 => (k.toNat + size) % 2 ^ 32
  | .lp64 => k.toNat + size

/-- The check before a load; a byte is checked without a sum. -/
def Platform.beyond (platform : Platform) (p : Packet) (size : Size) (k : Word) : Prop :=
  match size with
  | .w | .h => p.buflen < platform.sum k size.bytes
  | .b => p.buflen ≤ k.toNat

instance (platform : Platform) (p : Packet) (size : Size) (k : Word) :
    Decidable (platform.beyond p size k) :=
  match size with
  | .w | .h => inferInstanceAs (Decidable (_ < _))
  | .b => inferInstanceAs (Decidable (_ ≤ _))

def load (platform : Platform) (p : Packet) (size : Size) (k : Word) : Except Stop Word :=
  if platform.beyond p size k then
    match p with
    | .buffer _ => .error (.returned 0)
    | .chain m next => mbufLoad m next size k.toNat
  else p.extract size k.toNat

/-! ## The interpreter -/

inductive Src where
  | k
  | x
  deriving DecidableEq, Repr

inductive Alu where
  | add
  | sub
  | mul
  | div
  | and
  | or
  | lsh
  | rsh
  deriving DecidableEq, Repr

inductive Cond where
  | jgt
  | jge
  | jeq
  | jset
  deriving DecidableEq, Repr

/-- The cases of the switch in `bpf_filter`. -/
inductive Op where
  | retK
  | retA
  | ldAbs (size : Size)
  | ldInd (size : Size)
  | ldLen
  | ldxLen
  | ldxMsh
  | ldImm
  | ldxImm
  | ldMem
  | ldxMem
  | st
  | stx
  | ja
  | jump (cond : Cond) (src : Src)
  | alu (op : Alu) (src : Src)
  | neg
  | tax
  | txa
  deriving DecidableEq, Repr

/-- The case labels, in the order of the source. -/
def opcodes : List (BitVec 16 × Op) :=
  [(bpfRet ||| bpfK, .retK),
    (bpfRet ||| bpfA, .retA),
    (bpfLd ||| bpfW ||| bpfAbs, .ldAbs .w),
    (bpfLd ||| bpfH ||| bpfAbs, .ldAbs .h),
    (bpfLd ||| bpfB ||| bpfAbs, .ldAbs .b),
    (bpfLd ||| bpfW ||| bpfLen, .ldLen),
    (bpfLdx ||| bpfW ||| bpfLen, .ldxLen),
    (bpfLd ||| bpfW ||| bpfInd, .ldInd .w),
    (bpfLd ||| bpfH ||| bpfInd, .ldInd .h),
    (bpfLd ||| bpfB ||| bpfInd, .ldInd .b),
    (bpfLdx ||| bpfMsh ||| bpfB, .ldxMsh),
    (bpfLd ||| bpfImm, .ldImm),
    (bpfLdx ||| bpfImm, .ldxImm),
    (bpfLd ||| bpfMem, .ldMem),
    (bpfLdx ||| bpfMem, .ldxMem),
    (bpfSt, .st),
    (bpfStx, .stx),
    (bpfJmp ||| bpfJa, .ja),
    (bpfJmp ||| bpfJgt ||| bpfK, .jump .jgt .k),
    (bpfJmp ||| bpfJge ||| bpfK, .jump .jge .k),
    (bpfJmp ||| bpfJeq ||| bpfK, .jump .jeq .k),
    (bpfJmp ||| bpfJset ||| bpfK, .jump .jset .k),
    (bpfJmp ||| bpfJgt ||| bpfX, .jump .jgt .x),
    (bpfJmp ||| bpfJge ||| bpfX, .jump .jge .x),
    (bpfJmp ||| bpfJeq ||| bpfX, .jump .jeq .x),
    (bpfJmp ||| bpfJset ||| bpfX, .jump .jset .x),
    (bpfAlu ||| bpfAdd ||| bpfX, .alu .add .x),
    (bpfAlu ||| bpfSub ||| bpfX, .alu .sub .x),
    (bpfAlu ||| bpfMul ||| bpfX, .alu .mul .x),
    (bpfAlu ||| bpfDiv ||| bpfX, .alu .div .x),
    (bpfAlu ||| bpfAnd ||| bpfX, .alu .and .x),
    (bpfAlu ||| bpfOr ||| bpfX, .alu .or .x),
    (bpfAlu ||| bpfLsh ||| bpfX, .alu .lsh .x),
    (bpfAlu ||| bpfRsh ||| bpfX, .alu .rsh .x),
    (bpfAlu ||| bpfAdd ||| bpfK, .alu .add .k),
    (bpfAlu ||| bpfSub ||| bpfK, .alu .sub .k),
    (bpfAlu ||| bpfMul ||| bpfK, .alu .mul .k),
    (bpfAlu ||| bpfDiv ||| bpfK, .alu .div .k),
    (bpfAlu ||| bpfAnd ||| bpfK, .alu .and .k),
    (bpfAlu ||| bpfOr ||| bpfK, .alu .or .k),
    (bpfAlu ||| bpfLsh ||| bpfK, .alu .lsh .k),
    (bpfAlu ||| bpfRsh ||| bpfK, .alu .rsh .k),
    (bpfAlu ||| bpfNeg, .neg),
    (bpfMisc ||| bpfTax, .tax),
    (bpfMisc ||| bpfTxa, .txa)]

def decode (code : BitVec 16) : Option Op := opcodes.lookup code

structure State where
  pc : ℕ
  a : Word
  x : Word
  mem : ℕ → Word

def Cond.holds (cond : Cond) (a b : Word) : Bool :=
  match cond with
  | .jgt => b.toNat < a.toNat
  | .jge => b.toNat ≤ a.toNat
  | .jeq => a = b
  | .jset => a &&& b ≠ 0

def State.operand (s : State) (insn : BpfInsn) : Src → Word
  | .k => insn.k
  | .x => s.x

/-- Only a divisor in the index register is checked at run time. -/
def alu (platform : Platform) (op : Alu) (src : Src) (a b : Word) : Except Stop Word :=
  match op with
  | .add => .ok (a + b)
  | .sub => .ok (a - b)
  | .mul => .ok (a * b)
  | .div =>
    if b = 0 then
      match src with
      | .x => .error (.returned 0)
      | .k => .error (.fault .divide)
    else .ok (a / b)
  | .and => .ok (a &&& b)
  | .or => .ok (a ||| b)
  | .lsh => .ok (if b.toNat < 32 then a <<< b else platform.wideLsh a b)
  | .rsh => .ok (if b.toNat < 32 then a >>> b else platform.wideRsh a b)

def State.readMem (s : State) (k : Word) : Except Stop Word :=
  if k.toNat < bpfMemwords then .ok (s.mem k.toNat)
  else .error (.fault (.mem k.toNat))

def State.writeMem (s : State) (k value : Word) : Except Stop State :=
  if k.toNat < bpfMemwords then
    .ok { s with mem := Function.update s.mem k.toNat value }
  else .error (.fault (.mem k.toNat))

def State.next (s : State) : State := { s with pc := s.pc + 1 }

def execute (platform : Platform) (p : Packet) (wirelen : Word)
    (insn : BpfInsn) (s : State) : Op → Except Stop State
  | .retK => .error (.returned insn.k)
  | .retA => .error (.returned s.a)
  | .ldAbs size => do
      let value ← load platform p size insn.k
      return { s with a := value }.next
  | .ldInd size => do
      let value ← load platform p size (s.x + insn.k)
      return { s with a := value }.next
  | .ldLen => .ok { s with a := wirelen }.next
  | .ldxLen => .ok { s with x := wirelen }.next
  | .ldxMsh => do
      let value ← load platform p .b insn.k
      return { s with x := (value &&& 0xf) <<< 2 }.next
  | .ldImm => .ok { s with a := insn.k }.next
  | .ldxImm => .ok { s with x := insn.k }.next
  | .ldMem => do
      let value ← s.readMem insn.k
      return { s with a := value }.next
  | .ldxMem => do
      let value ← s.readMem insn.k
      return { s with x := value }.next
  | .st => do
      let s ← s.writeMem insn.k s.a
      return s.next
  | .stx => do
      let s ← s.writeMem insn.k s.x
      return s.next
  | .ja => .ok { s with pc := s.pc + insn.k.toNat + 1 }
  | .jump cond src =>
    let offset := if cond.holds s.a (s.operand insn src) then insn.jt
      else insn.jf
    .ok { s with pc := s.pc + offset.toNat + 1 }
  | .alu op src => do
      let value ← alu platform op src s.a (s.operand insn src)
      return { s with a := value }.next
  | .neg => .ok { s with a := -s.a }.next
  | .tax => .ok { s with x := s.a }.next
  | .txa => .ok { s with a := s.x }.next

def step (platform : Platform) (f : List BpfInsn) (p : Packet)
    (wirelen : Word) (s : State) : Except Stop State :=
  match f[s.pc]? with
  | none => .error (.fault (.fetch s.pc))
  | some insn =>
    match decode insn.code with
    | none => .error (.returned 0)
    | some op => execute platform p wirelen insn s op

def run (platform : Platform) (f : List BpfInsn) (p : Packet)
    (wirelen : Word) : ℕ → State → Except Stop State
  | 0, s => .ok s
  | n + 1, s => do
      let s ← step platform f p wirelen s
      run platform f p wirelen n s

def State.start (mem : ℕ → Word) : State := ⟨0, 0, 0, mem⟩

/-- `bpf_filter` for at most `n` instructions; no filter accepts all. -/
def bpfFilter (platform : Platform) (pc : Option (List BpfInsn)) (p : Packet) (wirelen : Word)
    (mem : ℕ → Word) (n : ℕ) : Except Stop State :=
  match pc with
  | none => .error (.returned (-1))
  | some f => run platform f p wirelen n (State.start mem)

end AerieKernel.Bpf
