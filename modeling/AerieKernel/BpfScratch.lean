import AerieKernel.BpfSafety

/-!
# The scratch memory of a filter

`bpf_filter` does not clear `mem`, and `bpf_validate` does not ask whether a cell is stored
before it is loaded.  Two runs that differ in `mem` only go the same way as long as they load
no cell that they have not stored.
-/

namespace AerieKernel.Bpf

/-- The next instruction is one of `ops`, for the cell `k`. -/
def State.Uses (s : State) (f : List BpfInsn) (ops : List Op) (k : Word) : Prop :=
  ∃ insn op, f[s.pc]? = some insn ∧ decode insn.code = some op ∧ op ∈ ops ∧ insn.k = k

def State.Loads (s : State) (f : List BpfInsn) (k : Word) : Prop := s.Uses f [.ldMem, .ldxMem] k

def State.Stores (s : State) (f : List BpfInsn) (k : Word) : Prop := s.Uses f [.st, .stx] k

/-- The two runs have ended in the same way, or go on with states that differ in cells
outside `stored` only. -/
def Alike (stored : Word → Prop) : Except Stop State → Except Stop State → Prop
  | .ok s, .ok s' => s' = { s with mem := s'.mem } ∧ ∀ k, stored k → s.mem k.toNat = s'.mem k.toNat
  | .error stop, .error stop' => stop = stop'
  | _, _ => False

theorem alike_bind {stored : Word → Prop} {next next' : Word → State} (value : Except Stop Word)
    (hnext : ∀ v, Alike stored (.ok (next v)) (.ok (next' v))) :
    Alike stored (value >>= fun v => .ok (next v)) (value >>= fun v => .ok (next' v)) := by
  cases value with
  | error stop => rfl
  | ok v => exact hnext v

variable {platform : Platform} {f : List BpfInsn} {p : Packet} {wirelen : Word}

theorem execute_alike {stored stored' : Word → Prop} {s : State} {mem : ℕ → Word}
    {insn : BpfInsn} {op : Op} (hmem : ∀ k, stored k → s.mem k.toNat = mem k.toNat)
    (hloads : op ∈ [.ldMem, .ldxMem] → stored insn.k)
    (hstored : ∀ k, stored' k → stored k ∨ op ∈ [.st, .stx] ∧ insn.k = k) :
    Alike stored' (execute platform p wirelen insn s op)
      (execute platform p wirelen insn { s with mem := mem } op) := by
  have hkeep : op ∉ [.st, .stx] → ∀ k, stored' k → s.mem k.toNat = mem k.toNat := by
    intro hop k hk
    exact hmem k ((hstored k hk).resolve_right fun h => hop h.1)
  cases op with
  | retK | retA => rfl
  | ldAbs | ldInd | ldxMsh | alu => exact alike_bind _ fun _ => ⟨rfl, hkeep (by simp)⟩
  | ldMem | ldxMem =>
    simp only [execute, State.readMem, ← hmem _ (hloads (by simp))]
    exact alike_bind _ fun _ => ⟨rfl, hkeep (by simp)⟩
  | st | stx =>
    simp only [execute, State.writeMem]
    split_ifs
    · refine ⟨rfl, fun k hk => ?_⟩
      change Function.update s.mem _ _ _ = Function.update mem _ _ _
      by_cases heq : k.toNat = insn.k.toNat
      · rw [heq, Function.update_self, Function.update_self]
      · rw [Function.update_of_ne heq, Function.update_of_ne heq]
        exact hmem k ((hstored k hk).resolve_right fun h => heq (by rw [h.2]))
    · rfl
  | _ => exact ⟨rfl, hkeep (by simp)⟩

theorem filter_succ (mem : ℕ → Word) (n : ℕ) :
    bpfFilter platform (some f) p wirelen mem (n + 1) =
      (bpfFilter platform (some f) p wirelen mem n >>= step platform f p wirelen) := by
  refine (run_add platform f p wirelen n 1 _).trans (congrArg _ (funext fun s => ?_))
  simp only [run]
  cases step platform f p wirelen s <;> rfl

/-- One of the first `n` instructions has stored the cell `k`. -/
def StoredBy (platform : Platform) (f : List BpfInsn) (p : Packet) (wirelen : Word)
    (mem : ℕ → Word) (n : ℕ) (k : Word) : Prop :=
  ∃ m < n, ∃ s, bpfFilter platform (some f) p wirelen mem m = .ok s ∧ s.Stores f k

theorem step_alike {mem mem' : ℕ → Word} {n : ℕ} {s : State}
    (hrun : bpfFilter platform (some f) p wirelen mem n = .ok s)
    (hloads : ∀ k, s.Loads f k → StoredBy platform f p wirelen mem n k)
    (hmem : ∀ k, StoredBy platform f p wirelen mem n k → s.mem k.toNat = mem' k.toNat) :
    Alike (StoredBy platform f p wirelen mem (n + 1)) (step platform f p wirelen s)
      (step platform f p wirelen { s with mem := mem' }) := by
  unfold step
  cases hinsn : f[s.pc]? with
  | none => rfl
  | some insn =>
    cases hdecode : decode insn.code with simp only [hdecode]
    | none => rfl
    | some op =>
      apply execute_alike hmem
      · exact fun hop => hloads insn.k ⟨insn, op, hinsn, hdecode, hop, rfl⟩
      · rintro k ⟨m, hm, s₀, hrun₀, hstores⟩
        rcases Nat.lt_succ_iff_lt_or_eq.mp hm with hlt | rfl
        · exact .inl ⟨m, hlt, s₀, hrun₀, hstores⟩
        · rw [hrun] at hrun₀
          cases hrun₀
          obtain ⟨insn', op', hinsn', hdecode', hop, hk⟩ := hstores
          rw [hinsn] at hinsn'
          cases hinsn'
          rw [hdecode] at hdecode'
          cases hdecode'
          exact .inr ⟨hop, hk⟩

variable (mem : ℕ → Word) (hstored : ∀ n s k, bpfFilter platform (some f) p wirelen mem n = .ok s →
  s.Loads f k → StoredBy platform f p wirelen mem n k)

include hstored

theorem filter_alike (mem' : ℕ → Word) (n : ℕ) :
    Alike (StoredBy platform f p wirelen mem n) (bpfFilter platform (some f) p wirelen mem n)
      (bpfFilter platform (some f) p wirelen mem' n) := by
  induction n with
  | zero => exact ⟨rfl, by simp [StoredBy]⟩
  | succ n ih =>
    rw [filter_succ, filter_succ]
    match hrun : bpfFilter platform (some f) p wirelen mem n,
        bpfFilter platform (some f) p wirelen mem' n, ih with
    | .error stop, .error _, ih => exact ih
    | .ok s, .ok s', ⟨hsame, hmem⟩ =>
      rw [hsame]
      exact step_alike hrun (fun k => hstored n s k hrun) hmem

/-- As long as each cell is stored before it is loaded, the contents that `mem` has at the
start have no influence on when and how a filter ends. -/
theorem filter_ignores_mem (mem' : ℕ → Word) (n : ℕ) (stop : Stop) :
    bpfFilter platform (some f) p wirelen mem n = .error stop ↔
      bpfFilter platform (some f) p wirelen mem' n = .error stop := by
  have halike := filter_alike mem hstored mem' n
  match bpfFilter platform (some f) p wirelen mem n,
      bpfFilter platform (some f) p wirelen mem' n, halike with
  | .error _, .error _, rfl => rfl
  | .ok _, .ok _, _ => simp

omit hstored

def keepSeven : List BpfInsn :=
  [⟨bpfLd ||| bpfImm, 0, 0, 7⟩, ⟨bpfSt, 0, 0, 3⟩, ⟨bpfLd ||| bpfMem, 0, 0, 3⟩,
    ⟨bpfRet ||| bpfA, 0, 0, 0⟩]

theorem filter_ignores_mem_stored :
    bpfValidate defaultMaxbufsize keepSeven = true ∧ ∀ mem,
      bpfFilter ilp32 (some keepSeven) (.buffer fourBytes) 4 mem 4 = .error (.returned 7) := by
  refine ⟨by decide, fun mem => (filter_ignores_mem (fun _ => 0) ?_ mem 4 _).mp rfl⟩
  rintro n ⟨pc, a, x, m⟩ k hrun ⟨insn, op, hinsn, hdecode, hop, rfl⟩
  match pc, hinsn with
  | 0, rfl | 1, rfl | 3, rfl =>
    cases hdecode
    simp at hop
  | 2, rfl =>
    match n, hrun with
    | 0, hrun | 1, hrun => cases hrun
    | n + 2, _ => exact ⟨1, by omega, _, rfl, _, .st, rfl, rfl, by simp, rfl⟩

/-- A validated program can return what was left in `mem`. -/
theorem filter_returns_mem : ∃ f, bpfValidate defaultMaxbufsize f = true ∧
    ∀ platform p wirelen mem, bpfFilter platform (some f) p wirelen mem f.length =
      .error (.returned (mem 0)) :=
  ⟨[⟨bpfLd ||| bpfMem, 0, 0, 0⟩, ⟨bpfRet ||| bpfA, 0, 0, 0⟩], by decide, fun _ _ _ _ => rfl⟩

end AerieKernel.Bpf
