import Mathlib.Tactic
import Mathlib.Data.ZMod.Basic

/-!
# Checksums after a rewrite

`pf` rewrites fields of a packet and brings the checksums that cover them up to date, one
word of 16 bits after the other.  A checksum is right if it and the words that it covers add
up to zero modulo 65535.  The functions get pointers to the fields that they change; `rest`
is the sum of all other words that a checksum covers.
-/

namespace AerieKernel.PacketFilter

open List

def pfCksumFixup (cksum old new : BitVec 16) (udp : Bool) : BitVec 16 :=
  if udp ∧ cksum = 0 then 0
  else
    let l : BitVec 32 := cksum.setWidth 32 + old.setWidth 32 - new.setWidth 32
    let l := (l >>> 16) + (l &&& 65535)
    let l := l &&& 65535
    if udp ∧ l = 0 then 0xffff else l.setWidth 16

/-- `addr16` of an address, in the order of the machine. -/
abbrev Words := ℕ → BitVec 16

inductive Af where
  | inet
  | inet6

/-- The indices of the words of an address. -/
def Af.indices : Af → List ℕ
  | .inet => [0, 1]
  | .inet6 => [0, 1, 2, 3, 4, 5, 6, 7]

def pfAcpy (af : Af) (a b : Words) : Words := fun i => if i ∈ af.indices then b i else a i

/-- The nested calls for the words of an address. -/
def fixups (af : Af) (cksum : BitVec 16) (ao an : Words) (u : Bool) : BitVec 16 :=
  af.indices.foldl (fun cksum i => pfCksumFixup cksum (ao i) (an i) u) cksum

/-- What `pf_change_ap` points to. -/
structure ApFields where
  a : Words
  p : BitVec 16
  ic : BitVec 16
  pc : BitVec 16

def pfChangeAp (f : ApFields) (an : Words) (pn : BitVec 16) (u : Bool) (af : Af) : ApFields :=
  let ao := f.a
  let po := f.p
  let f := { f with a := pfAcpy af f.a an, p := pn }
  match af with
  | .inet =>
    { f with
      ic := fixups .inet f.ic ao an false
      pc := pfCksumFixup (fixups .inet f.pc ao an u) po pn u }
  | .inet6 => { f with pc := pfCksumFixup (fixups .inet6 f.pc ao an u) po pn u }

/-- The two words of a number of 32 bits, on every machine. -/
def halves (x : BitVec 32) : BitVec 16 × BitVec 16 :=
  ((x / 65536).setWidth 16, (x % 65536).setWidth 16)

def pfChangeA (ao : BitVec 32) (c : BitVec 16) (an : BitVec 32) (u : Bool) :
    BitVec 32 × BitVec 16 :=
  (an, pfCksumFixup (pfCksumFixup c (halves ao).1 (halves an).1 u) (halves ao).2 (halves an).2 u)

def pfChangeA6 (a : Words) (c : BitVec 16) (an : Words) (u : Bool) : Words × BitVec 16 :=
  (pfAcpy .inet6 a an, fixups .inet6 c a an u)

/-- What `pf_change_icmp` points to; `ip`, `oa` and `pc` may be null. -/
structure IcmpFields where
  ia : Words
  ip : Option (BitVec 16)
  oa : Option Words
  pc : Option (BitVec 16)
  h2c : BitVec 16
  ic : BitVec 16
  hc : BitVec 16

namespace IcmpFields

def changePort (f : IcmpFields) (np : BitVec 16) (u : Bool) : IcmpFields :=
  match f.ip with
  | none => f
  | some oip =>
    let f := { f with ip := some np, ic := pfCksumFixup f.ic oip np false }
    match f.pc with
    | none => f
    | some opc =>
      let pc := pfCksumFixup opc oip np u
      { f with pc := some pc, ic := pfCksumFixup f.ic opc pc false }

variable (f : IcmpFields) (na : Words) (u : Bool) (af : Af)

def changeInner : IcmpFields :=
  let oia := f.ia
  let f := { f with ia := pfAcpy af f.ia na }
  match af with
  | .inet =>
    let h2c := fixups .inet f.h2c oia na false
    { f with h2c, ic := pfCksumFixup (fixups .inet f.ic oia na false) f.h2c h2c false }
  | .inet6 => { f with ic := fixups .inet6 f.ic oia na u }

def changeOuter : IcmpFields :=
  match f.oa with
  | none => f
  | some ooa =>
    let f := { f with oa := some (pfAcpy af ooa na) }
    match af with
    | .inet => { f with hc := fixups .inet f.hc ooa na false }
    | .inet6 => { f with ic := fixups .inet6 f.ic ooa na u }

end IcmpFields

def pfChangeIcmp (f : IcmpFields) (na : Words) (np : BitVec 16) (u : Bool) (af : Af) :
    IcmpFields :=
  ((f.changePort np u).changeInner na u af).changeOuter na u af

/-! ## Sums -/

def total (words : List (BitVec 16)) : ZMod 65535 := (words.map fun w => (w.toNat : ZMod 65535)).sum

/-- The checksum `c` is right for the words it covers, or it is that of a UDP datagram
without one. -/
def Verifies (udp : Bool) (c : BitVec 16) (words : List (BitVec 16)) (rest : ZMod 65535) : Prop :=
  (udp = true ∧ c = 0) ∨ total (c :: words) + rest = 0

/-- A checksum that was right is right again for the new words, and no UDP checksum stays
none. -/
def Kept (udp : Bool) (c c' : BitVec 16) (words words' : List (BitVec 16)) : Prop :=
  (∀ rest, Verifies udp c words rest → Verifies udp c' words' rest) ∧
    (udp = true ∧ c = 0 → c' = 0)

/-- `c'` is `c` after words have been changed whose sum was greater by `less`. -/
structure Updates (udp : Bool) (c c' : BitVec 16) (less : ZMod 65535) : Prop where
  zero : udp = true ∧ c = 0 → c' = 0
  sum : ¬ (udp = true ∧ c = 0) → total [c'] = total [c] + less ∧ ¬ (udp = true ∧ c' = 0)

theorem total_cons (w : BitVec 16) (words : List (BitVec 16)) :
    total (w :: words) = total [w] + total words := by
  simp [total]

theorem total_append (words words' : List (BitVec 16)) :
    total (words ++ words') = total words + total words' := by
  simp [total]

/-- The carry is added back and a borrow taken off again, as a sum of numbers. -/
def foldedSum (c old new : ℕ) : ℕ :=
  if new ≤ c + old then if c + old - new < 65536 then c + old - new else c + old - new - 65535
  else c + old + 65535 - new

theorem foldedSum_eq_zero {c old new : ℕ} (hc : c < 65536) (hold : old < 65536)
    (hnew : new < 65536) :
    foldedSum c old new = 0 ↔ c + old = new ∨ c + old = 0 ∧ new = 65535 := by
  unfold foldedSum
  split_ifs <;> omega

/-- The second of two sums is zero: the quoted checksum takes the first change back. -/
theorem foldedSum_twice {c old new pc : ℕ} (hc : c < 65536) (hold : old < 65536)
    (hpc : pc < 65536) (hnew : new < 65536) :
    foldedSum (foldedSum c old new) pc
        (if pc = 0 then 0 else if foldedSum pc old new = 0 then 65535
          else foldedSum pc old new) = 0 ↔
      if pc = 0 then c + old = new ∨ c + old = 0 ∧ new = 65535
      else (c = 0 ∨ c = 65535 ∧ old ≠ new) ∧
        if new ≤ old then pc + old ≤ new + 65535 else pc + old ≤ new := by
  have hlt : foldedSum c old new < 65536 := by
    unfold foldedSum
    split_ifs <;> omega
  have hlt' : foldedSum pc old new < 65536 := by
    unfold foldedSum
    split_ifs <;> omega
  by_cases hnone : pc = 0
  · rw [if_pos hnone, if_pos hnone, foldedSum_eq_zero hlt hpc (by omega), hnone,
      ← foldedSum_eq_zero hc hold hnew]
    omega
  · rw [if_neg hnone, if_neg hnone, foldedSum_eq_zero hlt hpc (by split_ifs <;> omega)]
    clear hlt hlt'
    unfold foldedSum
    split_ifs <;> omega

theorem eq_zero_iff (w : BitVec 16) : w = 0 ↔ w.toNat = 0 := by
  rw [← BitVec.toNat_inj]
  rfl

theorem folded_word (c old new : BitVec 16) :
    let l : BitVec 32 := c.setWidth 32 + old.setWidth 32 - new.setWidth 32
    ((l >>> 16) + (l &&& 65535) &&& 65535).toNat = foldedSum c.toNat old.toNat new.toNat := by
  intro l
  have hand (x : BitVec 32) : (x &&& 65535).toNat = x.toNat % 65536 :=
    Nat.and_two_pow_sub_one_eq_mod x.toNat 16
  have hl : l.toNat = (2 ^ 32 - new.toNat + (c.toNat + old.toNat)) % 2 ^ 32 := by
    simp only [l, BitVec.toNat_sub, BitVec.toNat_add, BitVec.toNat_setWidth]
    omega
  clear_value l
  simp only [hand, BitVec.toNat_add, BitVec.toNat_ushiftRight, Nat.shiftRight_eq_div_pow]
  unfold foldedSum
  split_ifs with hle hlt
  · omega
  · have hhigh : l.toNat / 65536 = 1 := by omega
    omega
  · omega

theorem toNat_fixup (u : Bool) (c old new : BitVec 16) :
    (pfCksumFixup c old new u).toNat =
      if u = true ∧ c = 0 then 0
      else if u = true ∧ foldedSum c.toNat old.toNat new.toNat = 0 then 65535
      else foldedSum c.toNat old.toNat new.toNat := by
  have hfold := folded_word c old new
  have hlt : foldedSum c.toNat old.toNat new.toNat < 2 ^ 16 := by
    unfold foldedSum
    split_ifs <;> omega
  unfold pfCksumFixup
  dsimp only at hfold ⊢
  generalize (_ : BitVec 32) &&& 65535 = l at hfold ⊢
  have hzero : l = 0 ↔ foldedSum c.toNat old.toNat new.toNat = 0 := by
    rw [← hfold, ← BitVec.toNat_inj]
    rfl
  simp only [hzero]
  split_ifs
  · rfl
  · rfl
  · rw [BitVec.toNat_setWidth, hfold, Nat.mod_eq_of_lt hlt]

section

variable {u : Bool} {c c' c'' : BitVec 16} {less less' : ZMod 65535}

theorem updates_fixup (u : Bool) (c old new : BitVec 16) :
    Updates u c (pfCksumFixup c old new u) (total [old] - total [new]) := by
  refine ⟨fun hnone => if_pos hnone, fun hsome => ?_⟩
  have hfixup := toNat_fixup u c old new
  rw [if_neg hsome] at hfixup
  have hmod : ((pfCksumFixup c old new u).toNat + new.toNat) % 65535 =
      (c.toNat + old.toNat) % 65535 := by
    rw [hfixup, foldedSum]
    split_ifs <;> omega
  have hsum :
      ((pfCksumFixup c old new u).toNat : ZMod 65535) + new.toNat = c.toNat + old.toNat := by
    exact_mod_cast (ZMod.natCast_eq_natCast_iff' _ _ _).mpr hmod
  refine ⟨?_, ?_⟩
  · simp only [total, map_cons, map_nil, sum_singleton, ← add_sub_assoc]
    exact eq_sub_of_add_eq hsum
  · rintro ⟨hu, hzero⟩
    simp only [hu, true_and] at hfixup
    split_ifs at hfixup <;> simp_all

namespace Updates

theorem refl (u : Bool) (c : BitVec 16) : Updates u c c 0 :=
  ⟨And.right, fun hsome => ⟨(add_zero _).symm, hsome⟩⟩

theorem trans (h : Updates u c c' less) (h' : Updates u c' c'' less') :
    Updates u c c'' (less + less') := by
  refine ⟨fun hnone => h'.zero ⟨hnone.1, h.zero hnone⟩, fun hsome => ?_⟩
  obtain ⟨hsum, hsome'⟩ := h.sum hsome
  obtain ⟨hsum', hsome''⟩ := h'.sum hsome'
  exact ⟨by rw [hsum', hsum, add_assoc], hsome''⟩

theorem congr (h : Updates u c c' less) (heq : less' = less) : Updates u c c' less' := heq ▸ h

theorem plain (h : Updates u c c' less) (hsome : ¬ (u = true ∧ c = 0)) : Updates false c c' less :=
  ⟨nofun, fun _ => ⟨(h.sum hsome).1, nofun⟩⟩

theorem kept {words words' : List (BitVec 16)} (h : Updates u c c' less)
    (hless : total words - total words' = less) : Kept u c c' words words' := by
  refine ⟨fun rest hold => ?_, h.zero⟩
  by_cases hnone : u = true ∧ c = 0
  · exact .inl ⟨hnone.1, h.zero hnone⟩
  · right
    rw [← hold.resolve_left hnone, total_cons, total_cons c, (h.sum hnone).1, ← hless]
    ring

end Updates

theorem kept_false_iff {words words' : List (BitVec 16)} :
    Kept false c c' words words' ↔ total (c :: words) = total (c' :: words') := by
  constructor
  · rintro ⟨hkept, -⟩
    have hsum := (hkept (-total (c :: words)) (.inr (add_neg_cancel _))).resolve_left nofun
    exact (add_neg_eq_zero.mp hsum).symm
  · intro heq
    refine ⟨fun rest hold => .inr ?_, nofun⟩
    rw [← heq]
    exact hold.resolve_left nofun

theorem updates_foldl (ao an : Words) (indices : List ℕ) (c : BitVec 16) :
    Updates u c (indices.foldl (fun c i => pfCksumFixup c (ao i) (an i) u) c)
      (total (indices.map ao) - total (indices.map an)) := by
  induction indices generalizing c with
  | nil => simpa using Updates.refl u c
  | cons i indices ih =>
    refine ((updates_fixup u c (ao i) (an i)).trans (ih _)).congr ?_
    rw [map_cons, map_cons, total_cons, total_cons (an i)]
    ring

end

def Af.list (af : Af) (a : Words) : List (BitVec 16) := af.indices.map a

theorem updates_fixups (af : Af) (c : BitVec 16) (ao an : Words) (u : Bool) :
    Updates u c (fixups af c ao an u) (total (af.list ao) - total (af.list an)) :=
  updates_foldl ao an af.indices c

@[simp] theorem list_acpy (af : Af) (a an : Words) : af.list (pfAcpy af a an) = af.list an :=
  map_congr_left fun _ hi => if_pos hi

theorem kept_fixups (af : Af) (c : BitVec 16) (a an : Words) (u : Bool) :
    Kept u c (fixups af c a an u) (af.list a) (af.list (pfAcpy af a an)) :=
  (updates_fixups af c a an u).kept (by rw [list_acpy])

namespace IcmpFields

variable (f : IcmpFields) (na : Words) (np : BitVec 16) (u : Bool) (af : Af)

/-- What the ICMP checksum covers of the fields: the quoted packet and, for IPv6, the
addresses around it. -/
def covered : List (BitVec 16) :=
  af.list f.ia ++ f.ip.toList ++ f.pc.toList ++
    match af with
    | .inet => [f.h2c]
    | .inet6 => (f.oa.map af.list).getD []

def Moves (f' : IcmpFields) : Prop :=
  Updates false f.ic f'.ic (total (f.covered af) - total (f'.covered af))

theorem changePort_eq :
    ∃ ip pc ic, f.changePort np u = { f with ip := ip, pc := pc, ic := ic } := by
  unfold changePort
  split
  · exact ⟨_, _, _, rfl⟩
  · dsimp only
    split <;> exact ⟨_, _, _, rfl⟩

theorem changePort_moves : f.Moves af (f.changePort np u) := by
  obtain ⟨ia, ip, oa, pc, h2c, ic, hc⟩ := f
  cases ip with
  | none => exact (Updates.refl false ic).congr (sub_self _)
  | some oip =>
    have hport := updates_fixup false ic oip np
    cases pc with
    | none =>
      refine hport.congr ?_
      simp only [covered, changePort, total_append, Option.toList]
      ring
    | some opc =>
      refine (hport.trans (updates_fixup false _ opc (pfCksumFixup opc oip np u))).congr ?_
      simp only [covered, changePort, total_append, Option.toList]
      ring

/-- The ICMP checksum is zero once the port and the quoted checksum, if they are there, are
brought up to date. -/
def ZeroAfterPort : Prop :=
  let opc := (f.pc.getD 0).toNat
  match f.ip with
  | none => f.ic.toNat = 0
  | some oip =>
    if opc = 0 then
      f.ic.toNat + oip.toNat = np.toNat ∨ f.ic.toNat + oip.toNat = 0 ∧ np.toNat = 65535
    else
      (f.ic.toNat = 0 ∨ f.ic.toNat = 65535 ∧ oip.toNat ≠ np.toNat) ∧
        if np.toNat ≤ oip.toNat then opc + oip.toNat ≤ np.toNat + 65535
        else opc + oip.toNat ≤ np.toNat

theorem changePort_zero : (f.changePort np true).ic = 0 ↔ f.ZeroAfterPort np := by
  rw [eq_zero_iff, ZeroAfterPort]
  obtain ⟨ia, ip, oa, pc, h2c, ic, hc⟩ := f
  have hic := ic.isLt
  have hnp := np.isLt
  cases ip with
  | none => exact Iff.rfl
  | some oip =>
    have hoip := oip.isLt
    cases pc with
    | none =>
      simp only [changePort, toNat_fixup, Bool.false_eq_true, false_and, if_false]
      exact foldedSum_eq_zero hic hoip hnp
    | some opc =>
      have hopc := opc.isLt
      simp only [changePort, toNat_fixup, Bool.false_eq_true, false_and, if_false, true_and,
        eq_zero_iff, Option.getD_some]
      exact foldedSum_twice hic hoip hopc hnp

theorem changeInner_moves (hsome : af = .inet6 → ¬ (u = true ∧ f.ic = 0)) :
    f.Moves af (f.changeInner na u af) := by
  cases af with
  | inet =>
    have haddr := updates_fixups .inet f.ic f.ia na false
    refine (haddr.trans (updates_fixup false _ f.h2c (fixups .inet f.h2c f.ia na false))).congr ?_
    simp only [covered, changeInner, total_append, list_acpy]
    ring
  | inet6 =>
    refine ((updates_fixups .inet6 f.ic f.ia na u).plain (hsome rfl)).congr ?_
    simp only [covered, changeInner, total_append, list_acpy]
    ring

theorem changeOuter_moves (hsome : af = .inet6 → ¬ (u = true ∧ f.ic = 0)) :
    f.Moves af (f.changeOuter na u af) := by
  obtain ⟨ia, ip, oa, pc, h2c, ic, hc⟩ := f
  cases oa with
  | none => exact (Updates.refl false ic).congr (sub_self _)
  | some ooa =>
    cases af with
    | inet => exact (Updates.refl false ic).congr (sub_self _)
    | inet6 =>
      refine ((updates_fixups .inet6 ic ooa na u).plain (hsome rfl)).congr ?_
      simp only [covered, changeOuter, total_append, Option.map_some, Option.getD_some, list_acpy]
      ring

/-- The addresses that an ICMPv6 checksum covers add up to the same as the new ones. -/
def SameSums : Prop :=
  total (Af.inet6.list f.ia) + ((f.oa.map fun oa => total (Af.inet6.list oa)).getD 0) =
    total (Af.inet6.list na) + ((f.oa.map fun _ => total (Af.inet6.list na)).getD 0)

theorem total_covered6 : total (f.covered .inet6) = total (Af.inet6.list f.ia) +
    total f.ip.toList + total f.pc.toList +
      (f.oa.map fun oa => total (Af.inet6.list oa)).getD 0 := by
  simp only [covered, total_append]
  cases f.oa with
  | none => rfl
  | some ooa => rfl

/-- A zero checksum is left as it is, whatever the addresses are. -/
theorem change_of_zero (hic : f.ic = 0) :
    let f' := (f.changeInner na true .inet6).changeOuter na true .inet6
    f'.ic = 0 ∧ (total (f.covered .inet6) = total (f'.covered .inet6) ↔ f.SameSums na) := by
  have hstays : ∀ a, fixups .inet6 0 a na true = 0 := fun a =>
    (updates_fixups .inet6 0 a na true).zero ⟨rfl, rfl⟩
  obtain ⟨ia, ip, oa, pc, h2c, ic, hc⟩ := f
  obtain rfl : ic = 0 := hic
  cases oa with
  | none =>
    refine ⟨hstays ia, ?_⟩
    simp only [total_covered6, changeInner, changeOuter, SameSums, list_acpy, Option.map_none,
      Option.getD_none, add_zero, add_left_inj]
  | some ooa =>
    refine ⟨by simp only [changeInner, changeOuter, hstays], ?_⟩
    simp only [total_covered6, changeInner, changeOuter, SameSums, list_acpy, Option.map_some,
      Option.getD_some]
    constructor <;> intro heq <;> linear_combination heq

theorem kept_iff_of_zero (hzero : f.ZeroAfterPort np) :
    let f' := pfChangeIcmp f na np true .inet6
    Kept false f.ic f'.ic (f.covered .inet6) (f'.covered .inet6) ↔ f.SameSums na := by
  have hic := (f.changePort_zero np).mpr hzero
  have hport := ((f.changePort_moves np true .inet6).sum nofun).1
  obtain ⟨hzero', hsums⟩ := (f.changePort np true).change_of_zero na hic
  obtain ⟨ip, pc, ic, hf⟩ := f.changePort_eq np true
  have hsame : (f.changePort np true).SameSums na ↔ f.SameSums na := by rw [hf, SameSums, SameSums]
  rw [hic] at hport
  rw [pfChangeIcmp, ← hsame, ← hsums]
  dsimp only
  rw [kept_false_iff, hzero', total_cons f.ic, total_cons 0, hport]
  constructor <;> intro heq <;> linear_combination heq

end IcmpFields

/-- An ICMPv6 message that quotes a UDP datagram. -/
def quotedUdp (ic : BitVec 16) : IcmpFields := ⟨fun _ => 0, none, none, none, 0, ic, 0⟩

end AerieKernel.PacketFilter
