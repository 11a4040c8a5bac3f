import AerieKernel.ClistModel

/-!
# The quote map of a clist

What the operations on the bytes of the map do to its bits.
-/

namespace AerieKernel.Tty

open Function

/-! ## Bits of the map -/

def bitAt (map : ℕ → Byte) (i : ℕ) : Bool := (map (i / 8)).getLsbD (i % 8)

variable {i : ℕ}

theorem getLsbD_one_shift (i k : ℕ) (hk : k < 8) :
    ((1 : Byte) <<< i).getLsbD k = decide (k = i) := by
  by_cases hlt : k < i
  · have hne : k ≠ i := by omega
    simp [hlt, hne]
  · by_cases heq : k = i
    · simp [heq]
      omega
    · have hpos : k - i ≠ 0 := by omega
      simp [heq, hpos]

theorem isset_eq {size : ℕ} {map : ℕ → Byte} (hi : i / 8 < size) :
    isset size map i = some (bitAt map i) := by
  rw [isset, if_pos hi, bitAt]
  congr 1
  have hbit : ∀ k < 8, (map (i / 8) &&& ((1 : Byte) <<< (i % 8))).getLsbD k =
      ((map (i / 8)).getLsbD k && decide (k = i % 8)) := by
    intro k hk
    rw [BitVec.getLsbD_and, getLsbD_one_shift _ _ hk]
  cases hset : (map (i / 8)).getLsbD (i % 8) with
  | true =>
    rw [decide_eq_true_iff]
    intro hzero
    have hat := hbit (i % 8) (Nat.mod_lt _ (by norm_num))
    rw [hzero, hset] at hat
    simp at hat
  | false =>
    rw [decide_eq_false_iff_not, not_not]
    apply BitVec.eq_of_getLsbD_eq
    intro k hk
    rw [hbit k hk]
    by_cases heq : k = i % 8
    · rw [heq, hset]
      simp
    · simp [heq]

section Bits

variable {size : ℕ} {map : ℕ → Byte}

theorem bitAt_update {byte : Byte} (j : ℕ) :
    bitAt (update map i byte) j = if j / 8 = i then byte.getLsbD (j % 8) else bitAt map j := by
  rw [bitAt, update_apply]
  split_ifs <;> rfl

theorem getLsbD_clear (byte mask : Byte) (k : ℕ) (hk : k < 8) :
    (byte &&& ~~~mask).getLsbD k = if mask.getLsbD k then false else byte.getLsbD k := by
  rw [BitVec.getLsbD_and, BitVec.getLsbD_not, decide_eq_true hk]
  cases mask.getLsbD k <;> simp

theorem getLsbD_set (byte mask : Byte) (k : ℕ) (_ : k < 8) :
    (byte ||| mask).getLsbD k = if mask.getLsbD k then true else byte.getLsbD k := by
  rw [BitVec.getLsbD_or]
  cases mask.getLsbD k <;> simp

theorem bitAt_masked {byte mask : Byte} {value : Bool} {P : ℕ → Prop} [DecidablePred P]
    (hbyte : ∀ k < 8, byte.getLsbD k = if mask.getLsbD k then value else (map i).getLsbD k)
    (hmask : ∀ j, P j ↔ j / 8 = i ∧ mask.getLsbD (j % 8) = true) (j : ℕ) :
    bitAt (update map i byte) j = if P j then value else bitAt map j := by
  rw [bitAt_update, hbyte _ (Nat.mod_lt _ (by norm_num)), bitAt]
  by_cases hin : j / 8 = i
  · simp [hmask, hin]
  · simp [hmask, hin]

theorem mem_bit_iff (i j : ℕ) :
    j = i ↔ j / 8 = i / 8 ∧ ((1 : Byte) <<< (i % 8)).getLsbD (j % 8) = true := by
  rw [getLsbD_one_shift _ _ (Nat.mod_lt _ (by norm_num)), decide_eq_true_iff]
  omega

theorem clrbit_eq (map : ℕ → Byte) (hi : i / 8 < size) :
    ∃ map', clrbit size map i = some map' ∧
      ∀ j, bitAt map' j = if j = i then false else bitAt map j :=
  ⟨_, by rw [clrbit, modifyByte, if_pos hi], bitAt_masked (getLsbD_clear _ _) (mem_bit_iff i)⟩

theorem setbit_eq (map : ℕ → Byte) (hi : i / 8 < size) :
    ∃ map', setbit size map i = some map' ∧
      ∀ j, bitAt map' j = if j = i then true else bitAt map j :=
  ⟨_, by rw [setbit, modifyByte, if_pos hi], bitAt_masked (getLsbD_set _ _) (mem_bit_iff i)⟩

/-! ## Ranges of bits -/

theorem clearBytes_eq (map : ℕ → Byte) (count : ℕ) (hend : i + count ≤ size) :
    ∃ map', clearBytes size count i map = some map' ∧ ∀ j, bitAt map' j =
        if i ≤ j / 8 ∧ j / 8 < i + count then false else bitAt map j := by
  induction count generalizing i map with
  | zero =>
    refine ⟨map, rfl, fun j => ?_⟩
    rw [if_neg (by omega)]
  | succ count ih =>
    obtain ⟨map', hrest, hbits⟩ := ih (update map i 0) (i := i + 1) (by omega)
    refine ⟨map', ?_, fun j => ?_⟩
    · rw [clearBytes, modifyByte, if_pos (by omega)]
      exact hrest
    · rw [hbits, bitAt_update]
      have hzero : (0 : Byte).getLsbD (j % 8) = false := by simp
      split_ifs <;> first | rfl | exact hzero | omega

theorem getLsbD_low_mask (k i : ℕ) (hi : i < 8) :
    (BitVec.ofNat 8 (2 ^ k - 1)).getLsbD i = decide (i < k) := by
  rw [BitVec.getLsbD_ofNat]
  simp [hi]

theorem getLsbD_middle_mask (s e i : ℕ) (hi : i < 8) :
    (BitVec.ofNat 8 ((2 ^ (e - s) - 1) * 2 ^ s)).getLsbD i = decide (s ≤ i ∧ i < e) := by
  rw [BitVec.getLsbD_ofNat, Nat.testBit_mul_two_pow]
  by_cases hs : s ≤ i
  · by_cases he : i < e
    · have hlt : i - s < e - s := by omega
      simp [hi, hs, he, hlt]
    · have hge : ¬ i - s < e - s := by omega
      simp [hi, hs, he, hge]
  · simp [hs]

def BitsInside (n : ℕ) (range : ℕ × ℕ) : Prop :=
  range.2 = 1 ∨ (range.1 + range.2) / 8 < qmem n

instance (n : ℕ) (range : ℕ × ℕ) : Decidable (BitsInside n range) :=
  inferInstanceAs (Decidable (_ ∨ _))

theorem clrbits_eq (map : ℕ → Byte) {n off len : ℕ} (hoff : off < n) (hlen : 0 < len)
    (hinside : BitsInside n (off, len)) :
    ∃ map', clrbits (qmem n) map off len = some map' ∧
      ∀ j, bitAt map' j =
        if off ≤ j ∧ j < off + len then false else bitAt map j := by
  have hfirst : off / 8 < qmem n := by
    rw [qmem]
    omega
  unfold clrbits
  dsimp only
  split_ifs with hone hsame
  · obtain ⟨map', hclr, hbits⟩ := clrbit_eq map hfirst
    refine ⟨map', hclr, fun j => ?_⟩
    rw [hbits]
    split_ifs <;> first | rfl | omega
  · refine ⟨_, by unfold modifyByte; rw [if_pos hfirst], bitAt_masked (getLsbD_clear _ _) ?_⟩
    intro j
    rw [getLsbD_middle_mask _ _ _ (Nat.mod_lt _ (by norm_num)), decide_eq_true_iff]
    omega
  · have hlast : (off + len) / 8 < qmem n := hinside.resolve_left hone
    let low : Byte := map (off / 8) &&& BitVec.ofNat 8 (2 ^ (off % 8) - 1)
    let map₁ := update map (off / 8) low
    let high : Byte := map₁ ((off + len) / 8) &&&
      ~~~(BitVec.ofNat 8 (2 ^ ((off + len) % 8) - 1))
    let map₂ := update map₁ ((off + len) / 8) high
    have hmiddle : off / 8 + 1 + ((off + len) / 8 - (off / 8 + 1)) ≤ qmem n := by
      omega
    obtain ⟨map', hclear, hbits⟩ := clearBytes_eq map₂ _ hmiddle
    refine ⟨map', ?_, fun j => ?_⟩
    · unfold modifyByte
      rw [if_pos hfirst, Option.bind_some, if_pos hlast]
      exact hclear
    · have hmod : j % 8 < 8 := Nat.mod_lt _ (by norm_num)
      have hlow : low.getLsbD (j % 8) =
          ((map (off / 8)).getLsbD (j % 8) && decide (j % 8 < off % 8)) := by
        rw [BitVec.getLsbD_and, getLsbD_low_mask _ _ hmod]
      have hhigh : high.getLsbD (j % 8) =
          ((map₁ ((off + len) / 8)).getLsbD (j % 8) && !decide (j % 8 < (off + len) % 8)) := by
        rw [BitVec.getLsbD_and, BitVec.getLsbD_not, getLsbD_low_mask _ _ hmod]
        simp [hmod]
      have hmap₁ : map₁ ((off + len) / 8) = map ((off + len) / 8) := update_of_ne (by omega) _ _
      rw [hbits, bitAt_update, bitAt_update, hhigh, hlow, hmap₁]
      by_cases hin : off ≤ j ∧ j < off + len
      · split_ifs with hmiddle hend hstart
        · rfl
        · have hlt : j % 8 < (off + len) % 8 := by omega
          simp [hlt]
        · have hge : ¬ j % 8 < off % 8 := by omega
          simp [hge]
        · omega
      · split_ifs with hmiddle hend hstart
        · omega
        · have hge : ¬ j % 8 < (off + len) % 8 := by omega
          simp [hge, bitAt, hend]
        · have hlt : j % 8 < off % 8 := by omega
          simp [hlt, bitAt, hstart]
        · rfl

end Bits

end AerieKernel.Tty
