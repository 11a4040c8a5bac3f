import AerieKernel.Rearrangements

/-!
# `qsort`

The model of `stdlib/qsort.c` over a byte memory.  A pointer into the array is the number of the
element it points to, counted from the array that the caller passed, and a size is a number of
elements.  The array is an object in memory, so that no address or size wraps.
-/

namespace AerieKernel.Qsort

open Arrays

abbrev Mem := ℕ → UInt8

/-- The arguments of a call that stay the same, and `sizeof(long)`. -/
structure Call where
  long : ℕ
  long_pos : 0 < long
  aa : ℕ
  es : ℕ
  es_pos : 0 < es
  cmp : (Fin es → UInt8) → (Fin es → UInt8) → ℤ

/-- The comparison function is a total preorder. -/
structure IsPreorder {α : Type*} (cmp : α → α → ℤ) : Prop where
  swap : ∀ x y, 0 ≤ cmp x y ↔ cmp y x ≤ 0
  trans : ∀ x y z, cmp x y ≤ 0 → cmp y z ≤ 0 → cmp x z ≤ 0

/-- The loop runs `i` times; it is entered with `0 < i` only. -/
def swapcode (w : ℕ) : ℕ → ℕ → ℕ → Mem → Mem
  | 0, _, _, mem => mem
  | i + 1, pi, pj, mem => swapcode w i (pi + w) (pj + w) (exchange w pi pj mem)

theorem swapcode_eq (w : ℕ) {i p q : ℕ} (mem : Mem)
    (h : p = q ∨ p + i * w ≤ q ∨ q + i * w ≤ p) :
    swapcode w i p q mem = exchange (i * w) p q mem := by
  induction i generalizing p q mem with
  | zero =>
    funext x
    simp only [swapcode, exchange]
    split_ifs <;> first | rfl | omega
  | succ i ih =>
    rw [Nat.succ_mul] at h ⊢
    rw [swapcode, ih _ (by omega)]
    funext x
    simp only [exchange]
    split_ifs <;> first | omega | congr 1 <;> omega

namespace Call

variable (c : Call) (lo : ℕ)

def addr (p : ℕ) : ℕ := c.aa + p * c.es

/-- The element at a pointer. -/
def elem (mem : Mem) (p : ℕ) : Fin c.es → UInt8 := fun i => mem (c.addr p + i)

/-- `cmp` on two pointers. -/
def cmpAt (mem : Mem) (p q : ℕ) : ℤ := c.cmp (c.elem mem p) (c.elem mem q)

/-- `SWAPINIT`; like every function below, for the part of the array that starts at `lo`. -/
def swaptype : ℕ :=
  if c.addr lo % c.long ≠ 0 ∨ c.es % c.long ≠ 0 then 2 else if c.es = c.long then 0 else 1

def swapfunc (a b n : ℕ) (mem : Mem) : Mem :=
  if c.swaptype lo ≤ 1 then swapcode c.long (n / c.long) a b mem else swapcode 1 (n / 1) a b mem

def swap (p q : ℕ) (mem : Mem) : Mem :=
  if c.swaptype lo = 0 then exchange c.long (c.addr p) (c.addr q) mem
  else c.swapfunc lo (c.addr p) (c.addr q) c.es mem

def vecswap (p q r : ℕ) (mem : Mem) : Mem :=
  if 0 < r then c.swapfunc lo (c.addr p) (c.addr q) (r * c.es) mem else mem

def med3 (mem : Mem) (p q r : ℕ) : ℕ :=
  if c.cmpAt mem p q < 0 then
    if c.cmpAt mem q r < 0 then q else if c.cmpAt mem p r < 0 then r else p
  else if 0 < c.cmpAt mem q r then q else if c.cmpAt mem p r < 0 then p else r

/-- The inner loop of the insertion sort, from `pl` down. -/
def sink : ℕ → Mem → Mem
  | 0, mem => mem
  | p + 1, mem =>
    if lo < p + 1 ∧ 0 < c.cmpAt mem p (p + 1) then sink p (c.swap lo (p + 1) p mem) else mem

def insertion (n : ℕ) (mem : Mem) : Mem :=
  (List.range' (lo + 1) (n - 1)).foldl (fun mem pm => c.sink lo pm mem) mem

/-- The choice of `pm`. -/
def pivot (n : ℕ) (mem : Mem) : ℕ :=
  let pm := lo + n / 2
  if 7 < n then
    let pn := lo + (n - 1)
    if 40 < n then
      let d := n / 8
      c.med3 mem (c.med3 mem lo (lo + d) (lo + 2 * d)) (c.med3 mem (pm - d) pm (pm + d))
        (c.med3 mem (pn - 2 * d) (pn - d) pn)
    else c.med3 mem lo pm pn
  else pm

end Call

/-- The variables of the partition. -/
structure Part where
  pa : ℕ
  pb : ℕ
  pc : ℕ
  pd : ℕ
  swapCnt : Bool
  mem : Mem
  pb_pos : 0 < pb

namespace Call

variable (c : Call) (lo : ℕ)

/-- The first inner loop. -/
def scanUp (s : Part) : Part :=
  if s.pb ≤ s.pc ∧ c.cmpAt s.mem s.pb lo ≤ 0 then
    if c.cmpAt s.mem s.pb lo = 0 then
      scanUp ⟨s.pa + 1, s.pb + 1, s.pc, s.pd, true, c.swap lo s.pa s.pb s.mem, s.pb.succ_pos⟩
    else scanUp { s with pb := s.pb + 1, pb_pos := s.pb.succ_pos }
  else s
  termination_by s.pc + 1 - s.pb

/-- The second inner loop. -/
def scanDown (s : Part) : Part :=
  if s.pb ≤ s.pc ∧ 0 ≤ c.cmpAt s.mem s.pc lo then
    if c.cmpAt s.mem s.pc lo = 0 then
      scanDown ⟨s.pa, s.pb, s.pc - 1, s.pd - 1, true, c.swap lo s.pc s.pd s.mem, s.pb_pos⟩
    else scanDown { s with pc := s.pc - 1 }
  else s
  termination_by s.pc + 1 - s.pb
  decreasing_by all_goals have := s.pb_pos; omega

theorem scanUp_mono (s : Part) : (c.scanUp lo s).pc = s.pc ∧ s.pb ≤ (c.scanUp lo s).pb := by
  fun_induction c.scanUp lo s <;> grind

theorem scanDown_mono (s : Part) :
    (c.scanDown lo s).pb = s.pb ∧ (c.scanDown lo s).pc ≤ s.pc := by
  fun_induction c.scanDown lo s <;> grind

/-- The loop around the two. -/
def partition (s : Part) : Part :=
  let t := c.scanDown lo (c.scanUp lo s)
  if t.pc < t.pb then t
  else partition ⟨t.pa, t.pb + 1, t.pc - 1, t.pd, true, c.swap lo t.pb t.pc t.mem, t.pb.succ_pos⟩
  termination_by s.pc + 1 - s.pb
  decreasing_by
    have hu := c.scanUp_mono lo s
    have hd := c.scanDown_mono lo (c.scanUp lo s)
    have ht := t.pb_pos
    simp only [t] at *
    omega

variable {mem : Mem} {p q r : ℕ}

theorem elem_exchange (r p q : ℕ) (mem : Mem) :
    c.elem (exchange (r * c.es) (c.addr p) (c.addr q) mem) = exchange r p q (c.elem mem) := by
  funext k i
  have hlt (m : ℕ) : k * c.es + i < m * c.es ↔ k < m := by
    rw [← Nat.div_lt_iff_lt_mul c.es_pos, Nat.mul_comm, Nat.mul_add_div c.es_pos,
      Nat.div_eq_of_lt i.isLt, Nat.add_zero]
  have hin (m : ℕ) : c.addr m ≤ c.addr k + i ∧ c.addr k + i < c.addr m + r * c.es ↔
      m ≤ k ∧ k < m + r := by
    have hm := hlt m
    have hr := hlt (m + r)
    rw [Nat.add_mul] at hr
    simp only [addr]
    omega
  have hat (m m' : ℕ) (h : m ≤ k) : c.addr m' + (c.addr k + i - c.addr m) =
      c.addr (m' + (k - m)) + i := by
    obtain ⟨j, rfl⟩ := Nat.exists_eq_add_of_le h
    simp only [addr, Nat.add_sub_cancel_left, Nat.add_mul]
    omega
  simp only [elem, exchange, hin]
  split_ifs with h h'
  · rw [hat q p h.1]
    rfl
  · rw [hat p q h'.1]
    rfl
  · rfl

theorem swapfunc_eq (mem : Mem) (h : p = q ∨ p + r ≤ q ∨ q + r ≤ p) :
    c.swapfunc lo (c.addr p) (c.addr q) (r * c.es) mem =
      exchange (r * c.es) (c.addr p) (c.addr q) mem := by
  have hdisj : c.addr p = c.addr q ∨ c.addr p + r * c.es ≤ c.addr q ∨
      c.addr q + r * c.es ≤ c.addr p := by
    rcases h with rfl | h | h
    · exact Or.inl rfl
    all_goals
      have := Nat.mul_le_mul_right c.es h
      rw [Nat.add_mul] at this
      simp only [addr]
      omega
  unfold swapfunc
  split_ifs with ht
  · have hdvd : c.long ∣ r * c.es := by
      unfold swaptype at ht
      split_ifs at ht with hm
      all_goals exact Nat.dvd_mul_left_of_dvd (Nat.dvd_of_mod_eq_zero (by omega)) r
    rw [swapcode_eq _ _ (by rwa [Nat.div_mul_cancel hdvd]), Nat.div_mul_cancel hdvd]
  · rw [swapcode_eq _ _ (by simpa using hdisj), Nat.div_one, Nat.mul_one]

theorem elem_swap (p q : ℕ) (mem : Mem) :
    c.elem (c.swap lo p q mem) = exchange 1 p q (c.elem mem) := by
  rw [← elem_exchange, ← c.swapfunc_eq lo mem (by omega), swap]
  split_ifs with ht
  · have hes : c.es = c.long := by
      unfold swaptype at ht
      split_ifs at ht with _ hes
      exact hes
    rw [c.swapfunc_eq lo mem (by omega), Nat.one_mul, ← hes]
  · rw [Nat.one_mul]

theorem elem_vecswap (mem : Mem) (h : p + r ≤ q) :
    c.elem (c.vecswap lo p q r mem) = exchange r p q (c.elem mem) := by
  unfold vecswap
  split_ifs with hr
  · rw [c.swapfunc_eq lo mem (by omega), elem_exchange]
  · funext k
    simp only [exchange]
    split_ifs <;> first | rfl | omega

theorem rearranged_swap {hi : ℕ} (hp : lo ≤ p ∧ p < hi) (hq : lo ≤ q ∧ q < hi) (l : ℕ) :
    Rearranged lo hi (c.elem mem) (c.elem (c.swap l p q mem)) := by
  rw [c.elem_swap l p q mem]
  exact .exchange _ (by omega) (by omega) (by omega)

/-- The part of `n` elements from `lo` of `A` is put in order, and the rest is left alone. -/
structure Sorts (n : ℕ) (A B : ℕ → Fin c.es → UInt8) : Prop where
  rearranged : Rearranged lo (lo + n) A B
  sorted : ∀ i j, lo ≤ i → i < j → j < lo + n → c.cmp (B i) (B j) ≤ 0

theorem Sorts.of_le_one {n : ℕ} (hn : n ≤ 1) (A : ℕ → Fin c.es → UInt8) : c.Sorts lo n A A :=
  ⟨.refl A, fun i j _ _ _ => by omega⟩

variable {c lo} (hc : IsPreorder c.cmp)

include hc in
/-- Only the element at `p` may be smaller than ones before it. -/
theorem sorts_sink {n p : ℕ} {mem : Mem} (hlo : lo ≤ p) (hp : p < lo + n)
    (h : ∀ i j, lo ≤ i → i < j → j < lo + n → j ≠ p → c.cmpAt mem i j ≤ 0) :
    c.Sorts lo n (c.elem mem) (c.elem (c.sink lo p mem)) := by
  fun_induction c.sink lo p mem with
  | case1 mem => exact ⟨.refl _, fun i j hi hij hj => h i j hi hij hj (by omega)⟩
  | case2 p mem hstep ih =>
    have hle : c.cmpAt mem (p + 1) p ≤ 0 := (hc.swap _ _).mp (Int.le_of_lt hstep.2)
    have hsorts := ih (by omega) (by omega) ?_
    · exact ⟨(c.rearranged_swap lo (by omega) (by omega) lo).trans hsorts.rearranged,
        hsorts.sorted⟩
    · intro i j hi hij hj hne
      simp only [cmpAt, elem_swap, exchange_one] at *
      grind
  | case3 p mem hstop =>
    refine ⟨.refl _, fun i j hi hij hj => ?_⟩
    by_cases hne : j = p + 1
    · subst hne
      have hlast : c.cmpAt mem p (p + 1) ≤ 0 := by omega
      rcases Nat.lt_succ_iff_lt_or_eq.mp hij with hip | rfl
      · exact hc.trans _ _ _ (h i p hi hip (by omega) (by omega)) hlast
      · exact hlast
    · exact h i j hi hij hj hne

include hc in
theorem sorts_insertion (n : ℕ) (mem : Mem) :
    c.Sorts lo n (c.elem mem) (c.elem (c.insertion lo n mem)) := by
  induction n with
  | zero => exact .of_le_one c lo (by omega) _
  | succ n ih =>
    rcases n.eq_zero_or_pos with rfl | hn
    · exact .of_le_one c lo (by omega) _
    have hstep : c.insertion lo (n + 1) mem = c.sink lo (lo + n) (c.insertion lo n mem) := by
      obtain ⟨n, rfl⟩ := Nat.exists_eq_add_of_le' hn
      simp only [insertion, Nat.add_sub_cancel, List.range'_1_concat, List.foldl_append]
      rw [List.foldl_cons, List.foldl_nil, show lo + 1 + n = lo + (n + 1) by omega]
    rw [hstep]
    have hsorts : c.Sorts lo (n + 1) _ _ := sorts_sink hc (Nat.le_add_right lo n) (by omega)
      fun i j hi hij hj hne => ih.sorted i j hi hij (by omega)
    exact ⟨(ih.rearranged.mono (Nat.le_refl lo) (by omega)).trans hsorts.rearranged,
      hsorts.sorted⟩

/-- Elements equal to the one at `lo` stand at both ends, the smaller ones from `pa` to `pb` and
the greater ones from `pc` to `pd`. -/
structure Split (c : Call) (lo hi : ℕ) (A : ℕ → Fin c.es → UInt8) (s : Part) : Prop where
  rearranged : Rearranged lo hi A (c.elem s.mem)
  bounds : lo < s.pa ∧ s.pa ≤ s.pb ∧ s.pb ≤ s.pc + 1 ∧ s.pc ≤ s.pd ∧ s.pd < hi
  low : ∀ i, lo < i → i < s.pa → c.cmpAt s.mem i lo = 0
  lt : ∀ i, s.pa ≤ i → i < s.pb → c.cmpAt s.mem i lo < 0
  gt : ∀ i, s.pc < i → i ≤ s.pd → 0 < c.cmpAt s.mem i lo
  high : ∀ i, s.pd < i → i < hi → c.cmpAt s.mem i lo = 0

variable {hi : ℕ} {A : ℕ → Fin c.es → UInt8} {s : Part}

theorem Split.scanUp (h : c.Split lo hi A s) : c.Split lo hi A (c.scanUp lo s) ∧
    ((c.scanUp lo s).pb ≤ (c.scanUp lo s).pc →
      0 < c.cmpAt (c.scanUp lo s).mem (c.scanUp lo s).pb lo) := by
  fun_induction c.scanUp lo s with
  | case1 s hle heq ih =>
    obtain ⟨hr, hb, hlow, hlt, hgt, hhigh⟩ := h
    refine ih ⟨hr.trans (c.rearranged_swap lo (by omega) (by omega) lo),
      by simp only; omega, ?_, ?_, ?_, ?_⟩
    all_goals simp only [cmpAt, elem_swap, exchange_one] at *; grind
  | case2 s hle hne ih =>
    obtain ⟨hr, hb, hlow, hlt, hgt, hhigh⟩ := h
    exact ih ⟨hr, by simp only; omega, hlow, by grind, hgt, hhigh⟩
  | case3 s hstop => exact ⟨h, by omega⟩

theorem Split.scanDown (h : c.Split lo hi A s) (hup : s.pb ≤ s.pc → 0 < c.cmpAt s.mem s.pb lo) :
    c.Split lo hi A (c.scanDown lo s) ∧ ((c.scanDown lo s).pb ≤ (c.scanDown lo s).pc →
      0 < c.cmpAt (c.scanDown lo s).mem (c.scanDown lo s).pb lo ∧
        c.cmpAt (c.scanDown lo s).mem (c.scanDown lo s).pc lo < 0) := by
  fun_induction c.scanDown lo s with
  | case1 s hle heq ih =>
    obtain ⟨hr, hb, hlow, hlt, hgt, hhigh⟩ := h
    refine ih ⟨hr.trans (c.rearranged_swap lo (by omega) (by omega) lo),
      by simp only; omega, ?_, ?_, ?_, ?_⟩ ?_
    all_goals simp only [cmpAt, elem_swap, exchange_one] at *; grind
  | case2 s hle hne ih =>
    obtain ⟨hr, hb, hlow, hlt, hgt, hhigh⟩ := h
    exact ih ⟨hr, by simp only; omega, hlow, hlt, by grind, hhigh⟩ (by grind)
  | case3 s hstop => exact ⟨h, fun hle => ⟨hup hle, by omega⟩⟩

theorem Split.partition (h : c.Split lo hi A s) : c.Split lo hi A (c.partition lo s) ∧
    (c.partition lo s).pc < (c.partition lo s).pb := by
  fun_induction c.partition lo s with
  | case1 s t hlt => exact ⟨(h.scanUp.1.scanDown h.scanUp.2).1, hlt⟩
  | case2 s t hle ih =>
    obtain ⟨⟨hr, hb, hlow, hlt, hgt, hhigh⟩, hscan⟩ : c.Split lo hi A t ∧ (t.pb ≤ t.pc →
        0 < c.cmpAt t.mem t.pb lo ∧ c.cmpAt t.mem t.pc lo < 0) :=
      h.scanUp.1.scanDown h.scanUp.2
    have hscan := hscan (by omega)
    refine ih ⟨hr.trans (c.rearranged_swap lo (by omega) (by omega) lo), ?_, ?_, ?_, ?_, ?_⟩
    all_goals simp only [cmpAt, elem_swap, exchange_one] at *; grind

/-- The state in which the partition of `n` elements starts. -/
def start (c : Call) (lo n : ℕ) (mem : Mem) : Part :=
  ⟨lo + 1, lo + 1, lo + (n - 1), lo + (n - 1), false, c.swap lo lo (c.pivot lo n mem) mem,
    lo.succ_pos⟩

theorem med3_mem (c : Call) (mem : Mem) (p q r : ℕ) :
    c.med3 mem p q r = p ∨ c.med3 mem p q r = q ∨ c.med3 mem p q r = r := by
  unfold med3
  split_ifs <;> simp

theorem pivot_mem (c : Call) (lo : ℕ) {n : ℕ} (mem : Mem) (hn : 7 ≤ n) :
    lo ≤ c.pivot lo n mem ∧ c.pivot lo n mem < lo + n := by
  unfold pivot
  have h := c.med3_mem mem
  grind

theorem split_start (c : Call) (lo : ℕ) {n : ℕ} (mem : Mem) (hn : 7 ≤ n) :
    c.Split lo (lo + n) (c.elem mem) (c.start lo n mem) :=
  ⟨c.rearranged_swap lo (by omega) (c.pivot_mem lo mem hn) lo, by simp only [start]; omega,
    by grind [start], by grind [start], by grind [start], by grind [start]⟩

/-- `qsort` of the `n` elements from `lo` on; `goto loop` is the last call. -/
def qsort (c : Call) (lo n : ℕ) (mem : Mem) : Mem :=
  if n < 7 then c.insertion lo n mem
  else
    let s := c.partition lo (c.start lo n mem)
    if s.swapCnt = false then c.insertion lo n s.mem
    else
      let pn := lo + n
      let r := min (s.pa - lo) (s.pb - s.pa)
      let mem₁ := c.vecswap lo lo (s.pb - r) r s.mem
      let r := min (s.pd - s.pc) (pn - s.pd - 1)
      let mem₂ := c.vecswap lo s.pb (pn - r) r mem₁
      let mem₃ := if 1 < s.pb - s.pa then qsort c lo (s.pb - s.pa) mem₂ else mem₂
      if 1 < s.pd - s.pc then qsort c (pn - (s.pd - s.pc)) (s.pd - s.pc) mem₃ else mem₃
  termination_by n
  decreasing_by
    all_goals
      have hb := (c.split_start lo (n := n) mem (by omega)).partition.1.bounds
      simp only [s] at *
      omega

include hc in
/-- The two calls of `vecswap` bring the equal elements to the middle. -/
theorem Split.gather {v : Fin c.es → UInt8} {r r' : ℕ} (h : c.Split lo hi A s) (hend : s.pc < s.pb)
    (hv : c.elem s.mem lo = v) (hr : r = min (s.pa - lo) (s.pb - s.pa))
    (hr' : r' = min (s.pd - s.pc) (hi - s.pd - 1)) {B : ℕ → Fin c.es → UInt8}
    (hB : B = c.elem (c.vecswap lo s.pb (hi - r') r' (c.vecswap lo lo (s.pb - r) r s.mem))) :
    Rearranged lo hi A B ∧ (∀ i, lo ≤ i → i < hi - (s.pd - s.pc) → c.cmp (B i) v ≤ 0) ∧
      ∀ i, lo + (s.pb - s.pa) ≤ i → i < hi → 0 ≤ c.cmp (B i) v := by
  obtain ⟨hre, hb, hlow, hlt, hgt, hhigh⟩ := h
  have hself : c.cmpAt s.mem lo lo = 0 := by
    have := hc.swap (c.elem s.mem lo) (c.elem s.mem lo)
    unfold cmpAt
    omega
  have hle (k : ℕ) (hk : lo ≤ k ∧ k < s.pb ∨ s.pd < k ∧ k < hi) :
      c.cmp (c.elem s.mem k) v ≤ 0 := by
    subst hv
    grind [cmpAt]
  have hge (k : ℕ) (hk : lo ≤ k ∧ k < s.pa ∨ s.pc < k ∧ k < hi) :
      0 ≤ c.cmp (c.elem s.mem k) v := by
    subst hv
    grind [cmpAt]
  rw [c.elem_vecswap lo _ (by omega), c.elem_vecswap lo _ (by omega)] at hB
  replace hr : r ≤ s.pa - lo ∧ r ≤ s.pb - s.pa ∧ (r = s.pa - lo ∨ r = s.pb - s.pa) := by omega
  replace hr' : r' ≤ s.pd - s.pc ∧ r' ≤ hi - s.pd - 1 ∧
      (r' = s.pd - s.pc ∨ r' = hi - s.pd - 1) := by omega
  refine ⟨?_, fun i hlo hlt => ?_, fun i hlo hlt => ?_⟩
  · rw [hB]
    exact (hre.trans (.exchange _ (by omega) (by omega) (by omega))).trans
      (.exchange _ (by omega) (by omega) (by omega))
  · simp only [hB, exchange]
    split_ifs <;> exact hle _ (by omega)
  · simp only [hB, exchange]
    split_ifs <;> exact hge _ (by omega)

include hc in
theorem Sorts.of_parts {n l g : ℕ} {v : Fin c.es → UInt8} {B C : ℕ → Fin c.es → UInt8}
    (hn : l + g ≤ n) (hle : ∀ i, lo ≤ i → i < lo + n - g → c.cmp (A i) v ≤ 0)
    (hge : ∀ i, lo + l ≤ i → i < lo + n → 0 ≤ c.cmp (A i) v)
    (hB : c.Sorts lo l A B) (hC : c.Sorts (lo + n - g) g B C) : c.Sorts lo n A C := by
  have hsum : lo + n - g + g = lo + n := by omega
  have hrB : Rearranged lo (lo + n - g) A B := hB.rearranged.mono (Nat.le_refl lo) (by omega)
  have hrC : Rearranged (lo + l) (lo + n) B C := hC.rearranged.mono (by omega) (by omega)
  refine ⟨(hrB.mono (Nat.le_refl lo) (by omega)).trans (hrC.mono (by omega) (Nat.le_refl _)),
    fun i j hi hij hj => ?_⟩
  by_cases hjl : j < lo + l
  · rw [hrC.eq_of_out (by omega), hrC.eq_of_out (by omega)]
    exact hB.sorted i j hi hij hjl
  by_cases hig : lo + n - g ≤ i
  · exact hC.sorted i j hig hij (by omega)
  · have hi' : c.cmp (C i) v ≤ 0 := by
      rw [hC.rearranged.eq_of_out (by omega)]
      exact hrB.forall_mem (c.cmp · v ≤ 0) hle i hi (by omega)
    have hj' : 0 ≤ c.cmp (C j) v := by
      refine hrC.forall_mem (0 ≤ c.cmp · v) (fun k hk hk' => ?_) j (by omega) hj
      rw [hB.rearranged.eq_of_out (by omega)]
      exact hge k hk hk'
    exact hc.trans _ _ _ hi' ((hc.swap _ _).mp hj')

include hc in
/-- Once the equal elements stand in the middle and both other parts are in order, all is. -/
theorem Split.sorts {n : ℕ} {C D : ℕ → Fin c.es → UInt8} (h : c.Split lo (lo + n) A s)
    (hend : s.pc < s.pb) {r r' : ℕ} (hr : r = min (s.pa - lo) (s.pb - s.pa))
    (hr' : r' = min (s.pd - s.pc) (lo + n - s.pd - 1))
    (hC : c.Sorts lo (s.pb - s.pa)
      (c.elem (c.vecswap lo s.pb (lo + n - r') r' (c.vecswap lo lo (s.pb - r) r s.mem))) C)
    (hD : c.Sorts (lo + n - (s.pd - s.pc)) (s.pd - s.pc) C D) : c.Sorts lo n A D := by
  have hb := h.bounds
  obtain ⟨hre, hle, hge⟩ := h.gather hc hend rfl hr hr' rfl
  have hsorts := Sorts.of_parts hc (by omega) hle hge hC hD
  exact ⟨hre.trans hsorts.rearranged, hsorts.sorted⟩

include hc in
theorem sorts_qsort (lo n : ℕ) (mem : Mem) :
    c.Sorts lo n (c.elem mem) (c.elem (c.qsort lo n mem)) := by
  induction n using Nat.strongRecOn generalizing lo mem with
  | _ n ih =>
    -- A part of at most one element is not sorted by a call.
    have hcall (lo k : ℕ) (mem : Mem) (hk : k < n) : c.Sorts lo k (c.elem mem)
        (c.elem (if 1 < k then c.qsort lo k mem else mem)) := by
      split_ifs with h
      · exact ih k hk lo mem
      · exact .of_le_one c lo (by omega) _
    rw [qsort]
    by_cases hn : n < 7
    · rw [if_pos hn]
      exact sorts_insertion hc n mem
    obtain ⟨hsplit, hend⟩ := (c.split_start lo mem (Nat.le_of_not_lt hn)).partition
    have hb := hsplit.bounds
    rw [if_neg hn]
    by_cases hcnt : (c.partition lo (c.start lo n mem)).swapCnt = false
    · have hsorts : c.Sorts lo n _ _ :=
        sorts_insertion hc n (c.partition lo (c.start lo n mem)).mem
      simp only [hcnt, if_true]
      exact ⟨hsplit.rearranged.trans hsorts.rearranged, hsorts.sorted⟩
    · simp only [hcnt, if_false]
      exact hsplit.sorts hc hend rfl rfl (hcall _ _ _ (by omega)) (hcall _ _ _ (by omega))

/-- The elements of an array of `n`. -/
def contents (c : Call) (n : ℕ) (mem : Mem) : List (Fin c.es → UInt8) :=
  (List.range n).map (c.elem mem)

end Call

theorem qsort_sorts (c : Call) (hc : IsPreorder c.cmp) (n : ℕ) (mem : Mem) :
    (c.contents n (c.qsort 0 n mem)).Perm (c.contents n mem) ∧
      (c.contents n (c.qsort 0 n mem)).Pairwise fun x y => c.cmp x y ≤ 0 := by
  obtain ⟨hre, hsorted⟩ := Call.sorts_qsort hc 0 n mem
  rw [Nat.zero_add] at hre hsorted
  refine ⟨hre.perm, List.pairwise_map.mpr ?_⟩
  exact List.pairwise_lt_range.imp_of_mem fun {i j} _ hj hij =>
    hsorted i j i.zero_le hij (List.mem_range.mp hj)

/-- Nine elements of two bytes at an odd address, compared by their first bytes. -/
def byFirst : Call := ⟨8, by decide, 3, 2, by decide, fun x y => (x 0).toNat - (y 0).toNat⟩

theorem byFirst_isPreorder : IsPreorder byFirst.cmp :=
  ⟨fun x y => by simp only [byFirst]; omega, fun x y z => by simp only [byFirst]; omega⟩

theorem qsort_sorts_by_first :
    let mem : Mem := fun x => UInt8.ofNat (5 * x)
    (byFirst.contents 9 (byFirst.qsort 0 9 mem)).Perm (byFirst.contents 9 mem) ∧
      (byFirst.contents 9 (byFirst.qsort 0 9 mem)).Pairwise fun x y => byFirst.cmp x y ≤ 0 :=
  qsort_sorts byFirst byFirst_isPreorder 9 _

end AerieKernel.Qsort
