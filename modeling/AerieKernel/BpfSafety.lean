import AerieKernel.BpfModel

/-!
# Safety of validated filters

The validator and the interpreter look at the same instruction in two ways:
one at the fields of the code, the other at whole codes.  A validated program
can fault in two ways only.  The divisor of a division by a constant is not
checked, since the field that the validator compares with `BPF_K` has a bit of
the operation in it.  And with a 32-bit `size_t` the bound check of an indirect
load can wrap.
-/

namespace AerieKernel.Bpf

open BitVec Packet

/-! ## What the validator guarantees -/

def Op.cls : Op → BitVec 16
  | .retK | .retA => bpfRet
  | .ldAbs _ | .ldInd _ | .ldLen | .ldImm | .ldMem => bpfLd
  | .ldxLen | .ldxMsh | .ldxImm | .ldxMem => bpfLdx
  | .st => bpfSt
  | .stx => bpfStx
  | .ja | .jump _ _ => bpfJmp
  | .alu _ _ | .neg => bpfAlu
  | .tax | .txa => bpfMisc

def Op.mode : Op → Option (BitVec 16)
  | .ldAbs _ => some bpfAbs
  | .ldInd _ => some bpfInd
  | .ldxMsh => some bpfMsh
  | .ldMem | .ldxMem => some bpfMem
  | _ => none

def Op.jump? : Op → Option (BitVec 16)
  | .ja => some bpfJa
  | .jump .jgt _ => some bpfJgt
  | .jump .jge _ => some bpfJge
  | .jump .jeq _ => some bpfJeq
  | .jump .jset _ => some bpfJset
  | _ => none

theorem mem_of_lookup {α β : Type*} [BEq α] [LawfulBEq α] {a : α} {b : β}
    {l : List (α × β)} (hlookup : l.lookup a = some b) : (a, b) ∈ l := by
  induction l with
  | nil => cases hlookup
  | cons entry l ih =>
    rw [List.lookup] at hlookup
    split at hlookup
    · rename_i hkey
      cases hlookup
      rw [eq_of_beq hkey]
      exact List.mem_cons_self
    · exact List.mem_cons_of_mem _ (ih hlookup)

theorem decode_fields {code : BitVec 16} {op : Op} (hdecode : decode code = some op) :
    bpfClass code = op.cls ∧ (op.mode = none ∨ op.mode = some (bpfMode code)) ∧
      (op.jump? = none ∨ op.jump? = some (bpfOp code)) := by
  have hall : ∀ entry ∈ opcodes, bpfClass entry.1 = entry.2.cls ∧
      (entry.2.mode = none ∨ entry.2.mode = some (bpfMode entry.1)) ∧
      (entry.2.jump? = none ∨ entry.2.jump? = some (bpfOp entry.1)) := by
    decide
  exact hall (code, op) (mem_of_lookup hdecode)

def Op.Checked (len i : ℕ) (insn : BpfInsn) : Op → Prop
  | .ldAbs _ | .ldInd _ | .ldxMsh => insn.k.toNat < 2 ^ 31
  | .ldMem | .ldxMem | .st | .stx => insn.k.toNat < bpfMemwords
  | .ja => i + insn.k.toNat + 1 < len
  | .jump _ _ => i + insn.jt.toNat + 1 < len ∧ i + insn.jf.toNat + 1 < len
  | _ => True

variable {maxbufsize : Maxbufsize} {i : ℕ} {len : ℕ} {insn : BpfInsn}

theorem insnValid_load (hcls : bpfClass insn.code = bpfLd ∨ bpfClass insn.code = bpfLdx)
    (hmode : bpfMode insn.code = bpfAbs ∨ bpfMode insn.code = bpfInd ∨ bpfMode insn.code = bpfMsh)
    (hvalid : insnValid maxbufsize len i insn = true) : insn.k.toNat < 2 ^ 31 := by
  have hhigh := maxbufsize.high
  have himm : bpfMode insn.code ≠ bpfImm := by
    rcases hmode with h | h | h <;> rw [h] <;> decide
  simp only [insnValid, if_pos hcls, if_neg himm, if_pos hmode, decide_eq_true_eq] at hvalid
  omega

theorem insnValid_mem (hcase : (bpfClass insn.code = bpfLd ∨ bpfClass insn.code = bpfLdx) ∧
        bpfMode insn.code = bpfMem ∨ bpfClass insn.code = bpfSt ∨ bpfClass insn.code = bpfStx)
    (hvalid : insnValid maxbufsize len i insn = true) : insn.k.toNat < bpfMemwords := by
  rcases hcase with ⟨hcls, hmode⟩ | hcls
  · have himm : ¬ bpfMem = bpfImm := by decide
    have hload : ¬ (bpfMem = bpfAbs ∨ bpfMem = bpfInd ∨ bpfMem = bpfMsh) := by
      decide
    simpa only [insnValid, if_pos hcls, hmode, if_neg himm, if_neg hload,
      if_true, decide_eq_true_eq] using hvalid
  · have hload : ¬ (bpfClass insn.code = bpfLd ∨ bpfClass insn.code = bpfLdx) := by
      rcases hcls with h | h <;> rw [h] <;> decide
    simpa only [insnValid, if_neg hload, if_pos hcls, decide_eq_true_eq] using hvalid

theorem insnValid_jmp (hcls : bpfClass insn.code = bpfJmp) (hlen : len ≤ bpfMaxinsns) (hi : i < len)
    (hvalid : insnValid maxbufsize len i insn = true) :
    (bpfOp insn.code = bpfJa → i + insn.k.toNat + 1 < len) ∧
      (bpfOp insn.code ≠ bpfJa → i + insn.jt.toNat + 1 < len ∧ i + insn.jf.toNat + 1 < len) := by
  have h1 : ¬ (bpfJmp = bpfLd ∨ bpfJmp = bpfLdx) := by decide
  have h2 : ¬ (bpfJmp = bpfSt ∨ bpfJmp = bpfStx) := by decide
  have h3 : ¬ bpfJmp = bpfAlu := by decide
  simp only [insnValid, hcls, if_neg h1, if_neg h2, if_neg h3, if_true] at hvalid
  unfold bpfMaxinsns at hlen
  constructor
  · intro hop
    simp only [hop, if_true, Bool.not_eq_true', Bool.or_eq_false_iff,
      decide_eq_false_iff_not, lt_def, toNat_add, toNat_ofNat] at hvalid
    omega
  · intro hop
    simp only [if_neg hop] at hvalid
    split_ifs at hvalid
    simp only [Bool.not_eq_true', Bool.or_eq_false_iff,
      decide_eq_false_iff_not, toNat_add, toNat_ofNat, toNat_setWidth] at hvalid
    omega

theorem checked_of_insnValid {op : Op} (hlen : len ≤ bpfMaxinsns) (hi : i < len)
    (hvalid : insnValid maxbufsize len i insn = true)
    (hdecode : decode insn.code = some op) : op.Checked len i insn := by
  obtain ⟨hcls, hmode, hjump⟩ := decode_fields hdecode
  cases op with
  | ldAbs size =>
    apply insnValid_load (.inl hcls) _ hvalid
    simp [Op.mode] at hmode
    exact .inl hmode.symm
  | ldInd size =>
    apply insnValid_load (.inl hcls) _ hvalid
    simp [Op.mode] at hmode
    exact .inr (.inl hmode.symm)
  | ldxMsh =>
    apply insnValid_load (.inr hcls) _ hvalid
    simp [Op.mode] at hmode
    exact .inr (.inr hmode.symm)
  | ldMem =>
    simp [Op.mode] at hmode
    exact insnValid_mem (.inl ⟨.inl hcls, hmode.symm⟩) hvalid
  | ldxMem =>
    simp [Op.mode] at hmode
    exact insnValid_mem (.inl ⟨.inr hcls, hmode.symm⟩) hvalid
  | st => exact insnValid_mem (.inr (.inl hcls)) hvalid
  | stx => exact insnValid_mem (.inr (.inr hcls)) hvalid
  | ja =>
    simp [Op.jump?] at hjump
    exact (insnValid_jmp hcls hlen hi hvalid).1 hjump.symm
  | jump cond src =>
    apply (insnValid_jmp hcls hlen hi hvalid).2
    cases cond <;> simp [Op.jump?] at hjump <;> rw [← hjump] <;> decide
  | _ => trivial

/-! ## Loads from a buffer -/

variable {offset : ℕ}

theorem readByte_of_lt {bytes : List Byte} (hlt : offset < bytes.length) :
    ∃ value, readByte bytes offset = .ok value := by
  simp [readByte, hlt]

theorem readByte_of_le {bytes : List Byte} (hle : bytes.length ≤ offset) :
    readByte bytes offset = .error (.fault (.read offset)) := by
  simp [readByte, hle]

variable {buf : Buffer} {size : Size}

theorem extract_of_le {k : ℕ} (hle : k + size.bytes ≤ buf.bytes.length) :
    ∃ value, (Packet.buffer buf).extract size k = .ok value := by
  have hread : ∀ i < size.bytes, ∃ value, readByte buf.bytes (k + i) = .ok value :=
    fun i hi => readByte_of_lt (by omega)
  cases size with obtain ⟨b0, h0⟩ := hread 0 (by decide)
  | w =>
    obtain ⟨b1, h1⟩ := hread 1 (by decide)
    obtain ⟨b2, h2⟩ := hread 2 (by decide)
    obtain ⟨b3, h3⟩ := hread 3 (by decide)
    rw [Nat.add_zero] at h0
    exact ⟨extractLong b0 b1 b2 b3, by
      simp [Packet.extract, Packet.read, h0, h1, h2, h3, bind, Except.bind, pure, Except.pure]⟩
  | h =>
    obtain ⟨b1, h1⟩ := hread 1 (by decide)
    rw [Nat.add_zero] at h0
    exact ⟨extractShort b0 b1, by
      simp [Packet.extract, Packet.read, h0, h1, bind, Except.bind, pure, Except.pure]⟩
  | b =>
    exact ⟨b0, h0⟩

theorem read_bind_fault {α : Type} {next : Word → Except Stop α}
    (hnext : ∀ value, offset < buf.bytes.length → ∃ fault, next value = .error (.fault fault)) :
    ∃ fault, ((buffer buf).read offset >>= next) = .error (.fault fault) := by
  by_cases hlt : offset < buf.bytes.length
  · obtain ⟨value, hvalue⟩ := readByte_of_lt hlt
    obtain ⟨fault, hfault⟩ := hnext value hlt
    refine ⟨fault, ?_⟩
    simp only [Packet.read, hvalue]
    exact hfault
  · have hout := readByte_of_le (Nat.not_lt.mp hlt)
    exact ⟨.read offset, by simp [Packet.read, hout, bind, Except.bind]⟩

theorem extract_of_lt {k : ℕ} (hlt : buf.bytes.length < k + size.bytes) :
    ∃ fault, (buffer buf).extract size k = .error (.fault fault) := by
  cases size with
  | w =>
    apply read_bind_fault
    intro _ _
    apply read_bind_fault
    intro _ _
    apply read_bind_fault
    intro _ _
    apply read_bind_fault
    intro _ hlast
    simp only [Size.bytes] at hlt
    omega
  | h =>
    apply read_bind_fault
    intro _ _
    apply read_bind_fault
    intro _ hlast
    simp only [Size.bytes] at hlt
    omega
  | b =>
    have hout := readByte_of_le (Nat.le_of_lt_succ hlt)
    exact ⟨.read k, hout⟩

variable (platform : Platform) (buf : Buffer)

def Wraps (size : Size) (k : Word) : Prop :=
  platform.sizeT = .ilp32 ∧ size ≠ .b ∧ 2 ^ 32 ≤ k.toNat + size.bytes ∧
    k.toNat + size.bytes - 2 ^ 32 ≤ buf.bytes.length

/-- A load gives a value, or ends the filter, or faults; it faults exactly
if the bound check wraps. -/
theorem load_buffer (size : Size) (k : Word) :
    (¬ Wraps platform buf size k ∧ ((∃ value, load platform (.buffer buf) size k = .ok value) ∨
        load platform (.buffer buf) size k = .error (.returned 0))) ∨
    (Wraps platform buf size k ∧ ∃ fault,
      load platform (.buffer buf) size k = .error (.fault fault)) := by
  have hfits := buf.fits
  by_cases hbeyond : platform.beyond (.buffer buf) size k
  · refine .inl ⟨?_, .inr ?_⟩
    · rintro ⟨hsize, hnotByte, hhigh, hlow⟩
      cases size with
      | b => exact hnotByte rfl
      | w | h =>
        simp only [Platform.beyond, Platform.sum, hsize, buflen] at hbeyond hhigh hlow
        omega
    · simp [load, hbeyond]
  · have hload : load platform (.buffer buf) size k = (buffer buf).extract size k.toNat := by
      simp [load, hbeyond]
    rw [hload]
    by_cases hle : k.toNat + size.bytes ≤ buf.bytes.length
    · refine .inl ⟨?_, .inl (extract_of_le hle)⟩
      rintro ⟨_, _, hhigh, _⟩
      omega
    · refine .inr ⟨?_, extract_of_lt (Nat.not_le.mp hle)⟩
      cases size with
      | b =>
        simp only [Platform.beyond, buflen, Size.bytes] at hbeyond hle
        omega
      | w | h =>
        simp only [Platform.beyond, Platform.sum, buflen] at hbeyond
        cases hsize : platform.sizeT with simp only [hsize] at hbeyond
        | lp64 =>
          omega
        | ilp32 =>
          refine ⟨hsize, by simp, ?_, ?_⟩ <;>
            simp only [Size.bytes] at hbeyond hle ⊢ <;> omega

/-! ## One instruction -/

def Op.Hazard (insn : BpfInsn) (s : State) : Op → Prop
  | .alu .div .k => insn.k = 0
  | .ldInd size => Wraps platform buf size (s.x + insn.k)
  | _ => False

def Outcome (len : ℕ) (hazard : Prop) (s : State) (result : Except Stop State) : Prop :=
  (¬ hazard ∧ ((∃ s', result = .ok s' ∧ s.pc < s'.pc ∧ s'.pc < len) ∨
    ∃ value, result = .error (.returned value))) ∨
  (hazard ∧ ∃ fault, result = .error (.fault fault))

section Execute

variable {platform : Platform} {buf : Buffer} {insn : BpfInsn} {s : State}
  {len : ℕ} {hazard : Prop}

theorem outcome_ok {s' : State} (hsafe : ¬ hazard)
    (hforward : s.pc < s'.pc) (hinside : s'.pc < len) :
    Outcome len hazard s (.ok s') := .inl ⟨hsafe, .inl ⟨s', rfl, hforward, hinside⟩⟩

theorem outcome_returned {value : Word} (hsafe : ¬ hazard) :
    Outcome len hazard s (.error (.returned value)) := .inl ⟨hsafe, .inr ⟨value, rfl⟩⟩

theorem outcome_load {k : Word} {next : Word → State} (hhazard : hazard ↔ Wraps platform buf size k)
    (hpc : ∀ value, (next value).pc = s.pc + 1) (hinside : s.pc + 1 < len) :
    Outcome len hazard s (do
      let value ← load platform (.buffer buf) size k
      return next value) := by
  rcases load_buffer platform buf size k with
    ⟨hsafe, ⟨value, hvalue⟩ | hzero⟩ | ⟨hwraps, fault, hfault⟩
  · rw [hvalue]
    apply outcome_ok (hhazard.not.mpr hsafe) <;>
      simp only [hpc value] <;> omega
  · rw [hzero]
    exact outcome_returned (hhazard.not.mpr hsafe)
  · rw [hfault]
    exact .inr ⟨hhazard.mpr hwraps, fault, rfl⟩

theorem execute_outcome {op : Op} (wirelen : Word) (hchecked : op.Checked len s.pc insn)
    (hinside : op ≠ .retK → op ≠ .retA → s.pc + 1 < len) :
    Outcome len (op.Hazard platform buf insn s) s
      (execute platform (.buffer buf) wirelen insn s op) := by
  have hnext : ∀ {s' : State} {hazard : Prop}, ¬ hazard →
      op ≠ .retK → op ≠ .retA → s'.pc = s.pc + 1 → Outcome len hazard s (.ok s') := by
    intro s' hazard hsafe hretK hretA hpc
    have hlt := hinside hretK hretA
    apply outcome_ok hsafe <;> omega
  have hword : ∀ k : Word, k.toNat < 2 ^ 31 → ∀ size, ¬ Wraps platform buf size k := by
    rintro k hk size ⟨_, _, hhigh, _⟩
    cases size <;> simp only [Size.bytes] at hhigh <;> omega
  cases op with
  | retK | retA => exact outcome_returned not_false
  | ldAbs size =>
    refine outcome_load (k := insn.k) ?_ (fun _ => rfl) (hinside nofun nofun)
    exact iff_of_false not_false (hword _ hchecked size)
  | ldInd size =>
    exact outcome_load Iff.rfl (fun _ => rfl) (hinside nofun nofun)
  | ldLen | ldxLen => exact hnext not_false nofun nofun rfl
  | ldxMsh =>
    refine outcome_load (k := insn.k) ?_ (fun _ => rfl) (hinside nofun nofun)
    exact iff_of_false not_false (hword _ hchecked .b)
  | ldImm | ldxImm => exact hnext not_false nofun nofun rfl
  | ldMem | ldxMem =>
    have hmem : insn.k.toNat < bpfMemwords := hchecked
    simp only [execute, State.readMem, if_pos hmem]
    exact hnext not_false nofun nofun rfl
  | st | stx =>
    have hmem : insn.k.toNat < bpfMemwords := hchecked
    simp only [execute, State.writeMem, if_pos hmem]
    exact hnext not_false nofun nofun rfl
  | ja =>
    apply outcome_ok not_false
    · change s.pc < s.pc + insn.k.toNat + 1
      omega
    · exact hchecked
  | jump cond src =>
    simp only [execute]
    by_cases hholds : cond.holds s.a (s.operand insn src) = true
    · rw [if_pos hholds]
      apply outcome_ok not_false
      · change s.pc < s.pc + insn.jt.toNat + 1
        omega
      · exact hchecked.1
    · rw [if_neg hholds]
      apply outcome_ok not_false
      · change s.pc < s.pc + insn.jf.toNat + 1
        omega
      · exact hchecked.2
  | alu op src =>
    cases op with
    | div =>
      simp only [execute, alu]
      by_cases hzero : s.operand insn src = 0
      · rw [if_pos hzero]
        cases src with
        | x => exact outcome_returned not_false
        | k => exact .inr ⟨hzero, .divide, rfl⟩
      · rw [if_neg hzero]
        refine hnext ?_ nofun nofun rfl
        cases src with
        | x => exact not_false
        | k => exact hzero
    | add | sub | mul | and | or | lsh | rsh =>
      exact hnext not_false nofun nofun rfl
  | neg | tax | txa => exact hnext not_false nofun nofun rfl

end Execute

/-! ## Whole programs -/

variable {f : List BpfInsn}

theorem insnValid_of_insnsValid {len start : ℕ} (hvalid : insnsValid maxbufsize len start f = true)
    {insn : BpfInsn} (hinsn : f[i]? = some insn) :
    insnValid maxbufsize len (start + i) insn = true := by
  induction f generalizing start i with
  | nil => simp at hinsn
  | cons p rest ih =>
    rw [insnsValid, Bool.and_eq_true] at hvalid
    cases i with
    | zero =>
      cases hinsn
      exact hvalid.1
    | succ i =>
      have hrest := ih hvalid.2 (i := i) (by simpa using hinsn)
      rwa [Nat.add_right_comm] at hrest

structure Validated (f : List BpfInsn) : Prop where
  pos : 0 < f.length
  checked : ∀ i insn op, f[i]? = some insn → decode insn.code = some op → op.Checked f.length i insn
  last : ∀ insn op, f[f.length - 1]? = some insn →
    decode insn.code = some op → op = .retK ∨ op = .retA

theorem validated_of_bpfValidate (hvalid : bpfValidate maxbufsize f = true) : Validated f := by
  unfold bpfValidate at hvalid
  split_ifs at hvalid with hlen hinsns
  have hmax : f.length ≤ bpfMaxinsns := by omega
  constructor
  · omega
  · intro i insn op hinsn hdecode
    have hinside : i < f.length := (List.getElem?_eq_some_iff.mp hinsn).1
    have hone := insnValid_of_insnsValid hinsns hinsn
    rw [Nat.zero_add] at hone
    exact checked_of_insnValid hmax hinside hone hdecode
  · intro insn op hinsn hdecode
    rw [List.getLast?_eq_getElem?, hinsn, decide_eq_true_eq,
      Option.map_some, Option.some.injEq] at hvalid
    have hcls := (decode_fields hdecode).1
    rw [hvalid] at hcls
    revert hcls
    cases op <;> simp [Op.cls] <;> decide

def Hazard (platform : Platform) (f : List BpfInsn) (buf : Buffer) (s : State) : Prop :=
  ∃ insn op, f[s.pc]? = some insn ∧ decode insn.code = some op ∧ op.Hazard platform buf insn s

theorem step_outcome (hvalid : Validated f) (platform : Platform) (buf : Buffer) (wirelen : Word)
    {s : State} (hpc : s.pc < f.length) :
    Outcome f.length (Hazard platform f buf s) s (step platform f (.buffer buf) wirelen s) := by
  obtain ⟨insn, hinsn⟩ : ∃ insn, f[s.pc]? = some insn := ⟨_, List.getElem?_eq_getElem hpc⟩
  cases hdecode : decode insn.code with
  | none =>
    simp only [step, hinsn, hdecode]
    apply outcome_returned
    rintro ⟨insn', op, hfetch, hop, _⟩
    rw [hinsn] at hfetch
    cases hfetch
    rw [hdecode] at hop
    cases hop
  | some op =>
    have hiff : Hazard platform f buf s ↔
        op.Hazard platform buf insn s := by
      constructor
      · rintro ⟨insn', op', hfetch, hop, hhazard⟩
        rw [hinsn] at hfetch
        cases hfetch
        rw [hdecode] at hop
        cases hop
        exact hhazard
      · exact fun hhazard => ⟨insn, op, hinsn, hdecode, hhazard⟩
    simp only [step, hinsn, hdecode, hiff]
    apply execute_outcome wirelen (hvalid.checked s.pc insn op hinsn hdecode)
    intro hretK hretA
    by_contra hend
    have hlast : s.pc = f.length - 1 := by omega
    rcases hvalid.last insn op (hlast ▸ hinsn) hdecode with h | h
    · exact hretK h
    · exact hretA h

/-- The program counter grows with each step, so a run without hazards comes
to an end. -/
theorem run_returns (hvalid : Validated f)
    (platform : Platform) (buf : Buffer) (wirelen : Word) {n : ℕ}
    {s : State} (hpc : s.pc < f.length) (hn : f.length ≤ s.pc + n)
    (hsafe : ∀ m s', run platform f (.buffer buf) wirelen m s = .ok s' →
      ¬ Hazard platform f buf s') :
    ∃ value, run platform f (.buffer buf) wirelen n s = .error (.returned value) := by
  induction n generalizing s with
  | zero => omega
  | succ n ih =>
    rcases step_outcome hvalid platform buf wirelen hpc with
      ⟨_, ⟨s', hstep, hforward, hinside⟩ | ⟨value, hstep⟩⟩ | ⟨hhazard, _⟩
    · have hrun : ∀ m, run platform f (.buffer buf) wirelen (m + 1) s =
          run platform f (.buffer buf) wirelen m s' := by
        intro m
        simp only [run, hstep, bind, Except.bind]
      rw [hrun]
      apply ih hinside (by omega)
      intro m s'' hm
      exact hsafe (m + 1) s'' (by rw [hrun, hm])
    · exact ⟨value, by simp only [run, hstep, bind, Except.bind]⟩
    · exact absurd hhazard (hsafe 0 s rfl)

theorem run_add (platform : Platform) (f : List BpfInsn) (p : Packet)
    (wirelen : Word) (m n : ℕ) (s : State) :
    run platform f p wirelen (m + n) s =
      (run platform f p wirelen m s >>= run platform f p wirelen n) := by
  induction m generalizing s with
  | zero => simp [run, bind, Except.bind]
  | succ m ih =>
    rw [Nat.succ_add]
    simp only [run]
    cases hstep : step platform f p wirelen s with
    | error stop => rfl
    | ok s' => exact ih s'

/-- A validated program returns a value after at most as many instructions as
it has, without a fault, exactly if no instruction that it reaches divides by
the constant zero or, with a 32-bit `size_t`, makes an indirect load whose
bound check wraps to a sum inside the buffer. -/
theorem bpf_filter_returns_iff {maxbufsize : Maxbufsize}
    {f : List BpfInsn} (hvalid : bpfValidate maxbufsize f = true)
    (platform : Platform) (buf : Buffer) (wirelen : Word)
    (mem : ℕ → Word) :
    (∃ value, bpfFilter platform (some f) (.buffer buf) wirelen mem
      f.length = .error (.returned value)) ↔
    ∀ n s, bpfFilter platform (some f) (.buffer buf) wirelen mem n = .ok s →
      ¬ Hazard platform f buf s := by
  have hvalidated := validated_of_bpfValidate hvalid
  simp only [bpfFilter]
  constructor
  · rintro ⟨value, hvalue⟩ n s hrun hhazard
    have hpc : s.pc < f.length := by
      obtain ⟨insn, op, hinsn, _⟩ := hhazard
      exact (List.getElem?_eq_some_iff.mp hinsn).1
    rcases step_outcome hvalidated platform buf wirelen hpc with
      ⟨hsafe, _⟩ | ⟨_, fault, hstep⟩
    · exact hsafe hhazard
    · have hfault : ∀ m, run platform f (.buffer buf) wirelen (n + (m + 1))
          (State.start mem) = .error (.fault fault) := by
        intro m
        rw [run_add, hrun]
        simp only [bind, Except.bind, run, hstep]
      by_cases hlt : n < f.length
      · have heq := hfault (f.length - n - 1)
        rw [show n + (f.length - n - 1 + 1) = f.length by omega, hvalue] at heq
        cases heq
      · have hsplit := run_add platform f (.buffer buf) wirelen f.length
          (n - f.length) (State.start mem)
        rw [Nat.add_sub_cancel' (Nat.not_lt.mp hlt), hrun, hvalue] at hsplit
        cases hsplit
  · intro hsafe
    exact run_returns hvalidated platform buf wirelen hvalidated.pos (by simp [State.start]) hsafe

def defaultMaxbufsize : Maxbufsize :=
  ⟨2 * 1024 * 1024, by decide, by decide⟩

def fourBytes : Buffer := ⟨[1, 2, 3, 4], by decide, by decide⟩

def ilp32 : Platform := ⟨.ilp32, fun _ _ => 0, fun _ _ => 0⟩

theorem bpf_filter_returns_iff_word :
    ∃ f, bpfValidate defaultMaxbufsize f = true ∧
      bpfFilter ilp32 (some f) (.buffer fourBytes) 4 (fun _ => 0) f.length =
        .error (.returned 0x01020304) ∧
      ∀ n s, bpfFilter ilp32 (some f) (.buffer fourBytes) 4 (fun _ => 0) n =
        .ok s → ¬ Hazard ilp32 f fourBytes s := by
  let f : List BpfInsn := [⟨bpfLd ||| bpfW ||| bpfAbs, 0, 0, 0⟩, ⟨bpfRet ||| bpfA, 0, 0, 0⟩]
  have hreturns : bpfFilter ilp32 (some f) (.buffer fourBytes) 4
      (fun _ => 0) f.length = .error (.returned 0x01020304) := rfl
  have hvalid : bpfValidate defaultMaxbufsize f = true := by decide
  exact ⟨f, hvalid, hreturns, (bpf_filter_returns_iff hvalid ilp32 fourBytes
    4 fun _ => 0).mp ⟨_, hreturns⟩⟩

/-- A division by the constant zero passes the validator, and so does a word
load at `X + k` with `X` all ones, which reads far outside the buffer if
`size_t` has 32 bits. -/
theorem bpf_filter_returns_needs_no_hazard :
    (∃ f, bpfValidate defaultMaxbufsize f = true ∧
      ∀ platform mem, bpfFilter platform (some f) (.buffer fourBytes) 4 mem
        f.length = .error (.fault .divide)) ∧ ∃ f, bpfValidate defaultMaxbufsize f = true ∧
      ∀ mem, bpfFilter ilp32 (some f) (.buffer fourBytes) 4 mem f.length =
        .error (.fault (.read 4294967295)) := by
  constructor
  · exact ⟨[⟨bpfAlu ||| bpfDiv ||| bpfK, 0, 0, 0⟩,
      ⟨bpfRet ||| bpfA, 0, 0, 0⟩], by decide, fun _ _ => rfl⟩
  · let f : List BpfInsn := [⟨bpfLdx ||| bpfImm, 0, 0, 4294967295⟩,
      ⟨bpfLd ||| bpfW ||| bpfInd, 0, 0, 0⟩, ⟨bpfRet ||| bpfA, 0, 0, 0⟩]
    refine ⟨f, by decide, fun mem => ?_⟩
    have hfirst : step ilp32 f (.buffer fourBytes) 4 (State.start mem) =
        .ok ⟨1, 0, 4294967295, mem⟩ := rfl
    have hsecond : step ilp32 f (.buffer fourBytes) 4
        ⟨1, 0, 4294967295, mem⟩ = .error (.fault (.read 4294967295)) := by
      change (load ilp32 (.buffer fourBytes) .w (4294967295 + 0) >>= _) = _
      rfl
    change run ilp32 f (.buffer fourBytes) 4 3 (State.start mem) = _
    simp only [run, hfirst, hsecond, bind, Except.bind]

end AerieKernel.Bpf
