import Mathlib.Tactic
import Mathlib.Data.List.TakeWhile

/-!
# Relocation of a section in pieces

The model of `ldloadasect` of `ld2.c` with `i386_fix` and `amd64_fix`.  A section is read
through a buffer; the fixer returns how many bytes at the end of the buffer it holds back
because a relocation goes past it.  `none` is an exit of the linker with an error.
-/

namespace AerieKernel.Ld

open List Option

abbrev Byte := BitVec 8

def elfSbufsz : ℕ := 0x200

def leValue : List Byte → ℕ
  | [] => 0
  | b :: bs => b.toNat + 256 * leValue bs

def leBytes : ℕ → ℕ → List Byte
  | 0, _ => []
  | n + 1, v => BitVec.ofNat 8 v :: leBytes n (v / 256)

theorem leBytes_length (n v : ℕ) : (leBytes n v).length = n := by
  induction n generalizing v with
  | zero => rfl
  | succ n ih => rw [leBytes, length_cons, ih]

/-- A `struct relist`; `value` is `st_value` of the symbol, or `sh_addr` of the section that
stands for it. -/
structure Relist (τ : Type) where
  addr : ℕ
  type : τ
  value : BitVec 64
  addend : BitVec 64

/-- What `la_fix` of an architecture does at one relocation. -/
structure Fixer (τ : Type) where
  width : τ → ℕ
  fixone : Relist τ → List Byte → Option (List Byte)
  width_le : ∀ t, width t ≤ 8
  fixone_length : ∀ r bytes new, fixone r bytes = some new → new.length = width r.type

/-- `v += val + addend` for a number of `n` bytes. -/
def addBytes (n : ℕ) (val addend : BitVec 64) (bytes : List Byte) : List Byte :=
  leBytes n (leValue bytes + (val.setWidth (8 * n)).toNat + addend.toNat)

inductive I386Type where
  | abs32
  | pc32
  | abs16
  | pc16
  deriving DecidableEq

def i386Width : I386Type → ℕ
  | .abs32 | .pc32 => 4
  | .abs16 | .pc16 => 2

variable (shAddr : BitVec 64)

/-- `i386_fixone`, with the value that `i386_fix` gives to it. -/
def i386Fixone (r : Relist I386Type) (bytes : List Byte) : List Byte :=
  match r.type with
  | .abs32 | .abs16 => addBytes (i386Width r.type) r.value r.addend bytes
  | .pc32 | .pc16 =>
    addBytes (i386Width r.type) (r.value - (shAddr + BitVec.ofNat 64 r.addr)) r.addend bytes

def i386 : Fixer I386Type where
  width := i386Width
  fixone := fun r bytes => some (i386Fixone shAddr r bytes)
  width_le := fun t => by cases t <;> decide
  fixone_length := by
    rintro r bytes _ ⟨⟩
    unfold i386Fixone
    split <;> exact leBytes_length _ _

inductive Amd64Type where
  | abs64
  | abs32
  | abs32s
  | pc32
  | abs16
  | pc16
  deriving DecidableEq

def amd64Width : Amd64Type → ℕ
  | .abs64 => 8
  | .abs32 | .abs32s | .pc32 => 4
  | .abs16 | .pc16 => 2

/-- `amd64_fixone`; a signed number must keep its sign, which is tested on the words as the
host reads them; the host is little-endian. -/
def amd64Fixone (r : Relist Amd64Type) (bytes : List Byte) : Option (List Byte) :=
  match r.type with
  | .abs64 | .abs32 | .abs16 => some (addBytes (amd64Width r.type) r.value r.addend bytes)
  | .pc32 | .pc16 =>
    some (addBytes (amd64Width r.type) (r.value - (shAddr + BitVec.ofNat 64 r.addr)) r.addend bytes)
  | .abs32s =>
    let new := addBytes 4 r.value r.addend bytes
    if (leValue new).testBit 31 ≠ (leValue bytes).testBit 31 then none else some new

def amd64 : Fixer Amd64Type where
  width := amd64Width
  fixone := amd64Fixone shAddr
  width_le := fun t => by cases t <;> decide
  fixone_length := by
    intro r bytes new hnew
    unfold amd64Fixone at hnew
    split at hnew
    case h_6 htype =>
      simp only at hnew
      split_ifs at hnew
      cases hnew
      rw [htype]
      exact leBytes_length _ _
    all_goals
      cases hnew
      exact leBytes_length _ _

section Load

variable {τ : Type} (fx : Fixer τ)

/-- The relocations that were applied, each with the place in the section. -/
abbrev Applied (τ : Type) := List (ℤ × Relist τ)

/-- Every relocation once, at its address. -/
def placed (rels : List (Relist τ)) : Applied τ :=
  rels.map fun r => (r.addr, r)

def firstAddr (rels : List (Relist τ)) : ℤ :=
  rels.head?.elim 0 (·.addr)

/-- `reoff`, which is an `int`; `left` is `ep - p`. -/
def reoff (r : Relist τ) (rest : List (Relist τ)) (left : ℤ) : ℤ :=
  match rest with
  | [] => left
  | next :: _ => ((next.addr : ℤ) - r.addr).bmod (2 ^ 32)

/-- The difference of two addresses in a row is an `int`. -/
def Near (rels : List (Relist τ)) : Prop :=
  rels.IsChain fun a b => b.addr < a.addr + 2 ^ 31

def relsFrom (off : ℕ) (rels : List (Relist τ)) : List (Relist τ) :=
  rels.dropWhile fun r => r.addr < off

namespace Fixer

def patch (r : Relist τ) (p : ℕ) (buf : List Byte) : Option (List Byte) :=
  (fx.fixone r ((buf.drop p).take (fx.width r.type))).map fun new =>
    buf.take p ++ new ++ buf.drop (p + fx.width r.type)

/-- The loop of `i386_fix` and `amd64_fix` over the relocations that are left, with the
number of bytes that are held back.  `place` is where in the section `p` points to; there is
no result if that is before the buffer. -/
def fixLoop (off : ℕ) : ℤ → List (Relist τ) → List Byte → Option (List Byte × ℕ × Applied τ)
  | _, [], buf => some (buf, 0, [])
  | place, r :: rest, buf =>
    let left := off + buf.length - place
    if 0 < left then
      (if place < off then none
      else if left < fx.width r.type then some (buf, left.toNat, [])
      else (fx.patch r (place - off).toNat buf).bind fun buf =>
        (fixLoop off (place + reoff r rest left) rest buf).map fun (buf, bof, done) =>
          (buf, bof, (place, r) :: done))
    else some (buf, 0, [])

def fix (off : ℕ) (rels : List (Relist τ)) (buf : List Byte) :
    Option (List Byte × ℕ × Applied τ) :=
  fx.fixLoop off (firstAddr (relsFrom off rels)) (relsFrom off rels) buf

/-- The loop of `ldloadasect`.  `held` are the bytes at the front of the buffer, `input` what
is left of the input file; the result is the output, what is not read, and what was applied. -/
def loadLoop (rels : List (Relist τ)) (sl : ℕ) :
    ℕ → ℕ → List Byte → List Byte → Option (List Byte × List Byte × Applied τ)
  | fuel, off, held, input =>
    if off < sl then
      match fuel with
      | 0 => none
      | fuel + 1 =>
        let len := min (elfSbufsz - held.length) (sl - off)
        if input.length < len then none
        else
          (fx.fix off rels (held ++ input.take len)).bind fun (buf, bof, done) =>
            -- a write of no bytes counts as an error
            if elfSbufsz ≤ bof ∨ buf.length ≤ bof then none
            else
              let written := buf.take (buf.length - bof)
              (loadLoop rels sl fuel (off + written.length) (buf.drop (buf.length - bof))
                (input.drop len)).map fun (out, rest, more) => (written ++ out, rest, done ++ more)
    else some ([], input, [])

/-- `ldloadasect`.  Every turn writes at least one byte. -/
def ldloadasect (rels : List (Relist τ)) (sl : ℕ) (input : List Byte) :
    Option (List Byte × List Byte × Applied τ) :=
  fx.loadLoop rels sl sl 0 [] input

/-! ## All relocations on the whole section -/

def applyAll : List (Relist τ) → List Byte → Option (List Byte)
  | [], section_ => some section_
  | r :: rest, section_ => (fx.patch r r.addr section_).bind (applyAll rest)

/-- The relocations of a section: inside it and sorted by address. -/
structure Sorted (rels : List (Relist τ)) (sl : ℕ) : Prop where
  inside : ∀ r ∈ rels, r.addr + fx.width r.type ≤ sl ∧ r.addr < sl
  sorted : rels.Pairwise fun a b => a.addr ≤ b.addr

def straddles (bound : ℕ) (r : Relist τ) : Bool :=
  r.addr < bound ∧ bound < r.addr + fx.width r.type

/-- From the buffer at `off` on, a buffer that begins with bytes held back is filled up, and
the relocation for which they are held back is the first at its address. -/
def Clean (rels : List (Relist τ)) (sl : ℕ) : ℕ → ℕ → Prop
  | 0, _ => True
  | fuel + 1, off => off + elfSbufsz < sl →
      match rels.find? (fx.straddles (off + elfSbufsz)) with
      | none => Clean rels sl fuel (off + elfSbufsz)
      | some r => r.addr + elfSbufsz ≤ sl ∧ rels.find? (fun x => r.addr ≤ x.addr) = some r ∧
          Clean rels sl fuel r.addr

end Fixer

end Load

section Proofs

variable {τ : Type} {fx : Fixer τ} {r : Relist τ} {rels rem : List (Relist τ)}
    {p off sl : ℕ} {b b' u v : List Byte}

theorem Fixer.patch_length (hp : p + fx.width r.type ≤ b.length)
    (hpatch : fx.patch r p b = some b') : b'.length = b.length := by
  obtain ⟨new, hnew, rfl⟩ := Option.map_eq_some_iff.mp hpatch
  have hlength := fx.fixone_length r _ new hnew
  simp only [length_append, length_take, length_drop]
  omega

theorem Fixer.patch_append (hp : p + fx.width r.type ≤ b.length) :
    fx.patch r (u.length + p) (u ++ b ++ v) = (fx.patch r p b).map fun b' => u ++ b' ++ v := by
  have hbytes : ((u ++ b ++ v).drop (u.length + p)).take (fx.width r.type) =
      (b.drop p).take (fx.width r.type) := by
    rw [append_assoc, ← drop_drop, drop_left, drop_append_of_le_length (by omega),
      take_append_of_le_length (by rw [length_drop]; omega)]
  simp only [Fixer.patch, hbytes, Option.map_map]
  congr 1
  funext new
  have htake : (u ++ b ++ v).take (u.length + p) = u ++ b.take p := by
    rw [append_assoc, take_length_add_append, take_append_of_le_length (by omega)]
  have hdrop : (u ++ b ++ v).drop (u.length + p + fx.width r.type) =
      b.drop (p + fx.width r.type) ++ v := by
    rw [append_assoc, Nat.add_assoc, ← drop_drop, drop_left, drop_append_of_le_length hp]
  rw [htake, hdrop]
  simp

/-- What the fixer leaves to the next buffer: the relocations from the one that goes past the
end on, or those behind the end. -/
structure Fixer.Left (fx : Fixer τ) (bound bof : ℕ) (fixed left : List (Relist τ)) : Prop where
  within : ∀ r ∈ fixed, r.addr + fx.width r.type ≤ bound ∧ r.addr < bound
  behind : ∀ r ∈ left, bound ≤ r.addr + bof
  held : bof = 0 ∨ ∃ r rest, left = r :: rest ∧ r.addr + bof = bound ∧ bof < fx.width r.type

/-- The place of the next relocation is its address. -/
theorem Fixer.fixLoop_next (hnear : Near (r :: rem)) (hle : ∀ r' ∈ rem, r.addr ≤ r'.addr)
    (left : ℤ) : fx.fixLoop off (r.addr + reoff r rem left) rem b =
      fx.fixLoop off (firstAddr rem) rem b := by
  cases rem with
  | nil => rfl
  | cons next rest =>
    have hlt : next.addr < r.addr + 2 ^ 31 := (isChain_cons_cons.mp hnear).1
    have hge := hle next (mem_cons_self ..)
    have hint : ((next.addr : ℤ) - r.addr).bmod (2 ^ 32) = next.addr - r.addr :=
      Int.bmod_eq_of_le_mul_two (by omega) (by omega)
    simp only [reoff, hint, firstAddr, head?_cons, elim_some, add_sub_cancel]

theorem Fixer.fixLoop_spec (hfront : u.length = off) (hrem : ∀ r ∈ rem, off ≤ r.addr)
    (hsorted : rem.Pairwise fun a b => a.addr ≤ b.addr) (hnear : Near rem) :
    (fx.fixLoop off (firstAddr rem) rem b = none ∧ fx.applyAll rem (u ++ b ++ v) = none) ∨
    ∃ b' bof fixed left, fx.fixLoop off (firstAddr rem) rem b = some (b', bof, placed fixed) ∧
      rem = fixed ++ left ∧ b'.length = b.length ∧ fx.Left (off + b.length) bof fixed left ∧
      fx.applyAll rem (u ++ b ++ v) = fx.applyAll left (u ++ b' ++ v) := by
  induction rem generalizing b with
  | nil => exact .inr ⟨b, 0, [], [], rfl, rfl, rfl, ⟨by simp, by simp, .inl rfl⟩, rfl⟩
  | cons r rest ih =>
    have hoff := hrem r (mem_cons_self ..)
    obtain ⟨hfirst, hrest⟩ := pairwise_cons.mp hsorted
    have hmin : ∀ r' ∈ r :: rest, r.addr ≤ r'.addr := forall_mem_cons.mpr ⟨le_rfl, hfirst⟩
    have hplace : ¬ (r.addr : ℤ) < off := by omega
    rw [show firstAddr (r :: rest) = r.addr from rfl]
    simp only [fixLoop, if_neg hplace]
    split
    next hin =>
      split
      next hpast =>
        refine .inr ⟨b, _, [], r :: rest, rfl, rfl, rfl, ⟨by simp, ?_, .inr ?_⟩, rfl⟩
        · intro r' hr'
          have := hmin r' hr'
          omega
        · exact ⟨r, rest, rfl, by omega, by omega⟩
      next hfits =>
        have hp : r.addr - off + fx.width r.type ≤ b.length := by omega
        have hwhole := Fixer.patch_append (u := u) (v := v) hp
        rw [show u.length + (r.addr - off) = r.addr by omega] at hwhole
        rw [applyAll, hwhole, show ((r.addr : ℤ) - off).toNat = r.addr - off by omega]
        cases hpatch : fx.patch r (r.addr - off) b with
        | none => exact .inl ⟨rfl, rfl⟩
        | some b₁ =>
          have hlength := Fixer.patch_length hp hpatch
          simp only [bind_some, map_some, fixLoop_next hnear hfirst]
          obtain ⟨hnone, hwhole'⟩ | ⟨b', bof, fixed, left, heq, rfl, hlen, hleft, happly⟩ :=
            ih (b := b₁) (fun r' hr' => hrem r' (mem_cons_of_mem _ hr')) hrest hnear.tail
          · rw [hnone]
            exact .inl ⟨rfl, hwhole'⟩
          · rw [hlength] at hleft
            rw [heq]
            exact .inr ⟨b', bof, r :: fixed, left, rfl, rfl, hlen.trans hlength,
              ⟨forall_mem_cons.mpr ⟨⟨by omega, by omega⟩, hleft.within⟩, hleft.behind,
                hleft.held⟩, happly⟩
    next hout =>
      refine .inr ⟨b, 0, [], r :: rest, rfl, rfl, rfl, ⟨by simp, ?_, .inl rfl⟩, rfl⟩
      intro r' hr'
      have := hmin r' hr'
      omega

theorem relsFrom_append {bound : ℕ} {first rest : List (Relist τ)}
    (hfirst : ∀ r ∈ first, r.addr < bound) (hrest : ∀ r ∈ rest, bound ≤ r.addr) :
    relsFrom bound (first ++ rest) = rest := by
  rw [relsFrom, dropWhile_append_of_pos fun r hr => decide_eq_true (hfirst r hr)]
  cases rest with
  | nil => rfl
  | cons r rest =>
    have := hrest r (mem_cons_self ..)
    rw [dropWhile_cons_of_neg (by simpa using this)]

theorem relsFrom_zero (rels : List (Relist τ)) : relsFrom 0 rels = rels := by
  cases rels <;> simp [relsFrom]

theorem split_addr (hsorted : rels.Pairwise fun a b => a.addr ≤ b.addr) (bound : ℕ) :
    ∃ first, rels = first ++ relsFrom bound rels ∧
      (∀ r ∈ first, r.addr < bound) ∧
      ∀ r ∈ relsFrom bound rels, bound ≤ r.addr := by
  refine ⟨_, (takeWhile_append_dropWhile ..).symm, ?_, ?_⟩
  · intro r hr
    simpa using mem_takeWhile_imp hr
  · cases hrest : relsFrom bound rels with
    | nil => simp
    | cons r rest =>
      have hr : bound ≤ r.addr := by
        have hhead := head?_dropWhile_not (fun r : Relist τ => decide (r.addr < bound)) rels
        rw [← relsFrom, hrest] at hhead
        simpa using hhead
      have hpair : (r :: rest).Pairwise fun a b => a.addr ≤ b.addr :=
        hrest ▸ hsorted.sublist (dropWhile_sublist _)
      exact forall_mem_cons.mpr ⟨hr, fun r' hr' => hr.trans ((pairwise_cons.mp hpair).1 r' hr')⟩

namespace Fixer

theorem patch_take {n : ℕ} (hn : n ≤ p) (hle : n ≤ b.length)
    (hpatch : fx.patch r p b = some b') : b'.take n = b.take n := by
  obtain ⟨new, -, rfl⟩ := map_eq_some_iff.mp hpatch
  rw [append_assoc, take_append_of_le_length (by rw [length_take]; omega),
    take_take, Nat.min_eq_left hn]

theorem applyAll_take {n : ℕ} (hn : ∀ r ∈ rem, n ≤ r.addr) (hle : n ≤ b.length)
    (happly : fx.applyAll rem b = some b') : b'.take n = b.take n := by
  induction rem generalizing b with
  | nil =>
    cases happly
    rfl
  | cons r rest ih =>
    obtain ⟨b₁, hpatch, hrest⟩ := bind_eq_some_iff.mp happly
    have htake := patch_take (hn r (mem_cons_self ..)) hle hpatch
    have hle₁ : n ≤ b₁.length := by
      have := congrArg List.length htake
      rw [length_take, length_take] at this
      omega
    rw [ih (fun r' hr' => hn r' (mem_cons_of_mem _ hr')) hle₁ hrest, htake]

/-- The state at the head of a turn: `u` is written, `held` at the front of the buffer, and
what of the buffer is not held back can be filled. -/
structure Turn (sl off : ℕ) (u held input : List Byte) : Prop where
  written : u.length = off
  within : off + held.length ≤ sl
  enough : sl ≤ off + held.length + input.length
  full : held = [] ∨ off + elfSbufsz ≤ sl ∧ held.length < elfSbufsz

/-- What a turn does: it fixes a buffer of `len` new bytes and writes `k`. -/
structure TurnDone (fx : Fixer τ) (rels : List (Relist τ)) (sl off : ℕ) (held input buf : List Byte)
    (len k bof : ℕ) (fixed left : List (Relist τ)) : Prop where
  leaves : fx.Left (off + buf.length) bof fixed left
  split : relsFrom off rels = fixed ++ left
  size : buf.length = min elfSbufsz (sl - off)
  read : held.length + len = buf.length
  kept : k + bof = buf.length
  bof_lt : bof < 8 ∧ 0 < k
  last : off + buf.length = sl → bof = 0
  loop : ∀ fuel, fx.loadLoop rels sl (fuel + 1) off held input =
    (fx.loadLoop rels sl fuel (off + k) (buf.drop k)
      (input.drop len)).map fun (out, rest, more) =>
        (buf.take k ++ out, rest, placed fixed ++ more)

section Turn

variable {held input : List Byte} (h : fx.Sorted rels sl) (hnear : Near rels)
include h hnear

theorem loadLoop_turn (ht : Turn sl off u held input) (hlt : off < sl) :
    (∀ fuel, fx.loadLoop rels sl (fuel + 1) off held input = none) ∧
      fx.applyAll (relsFrom off rels)
        (u ++ held ++ input.take (sl - off - held.length)) = none ∨
    ∃ buf len k bof fixed left, TurnDone fx rels sl off held input buf len k bof fixed left ∧
      fx.applyAll (relsFrom off rels)
        (u ++ held ++ input.take (sl - off - held.length)) =
      fx.applyAll left (u ++ buf ++ (input.drop len).take (sl - off - held.length - len)) := by
  obtain ⟨first, hsplit, -, hrem⟩ := split_addr h.sorted off
  generalize hdrop : relsFrom off rels = rem at hsplit hrem ⊢
  -- the buffer is filled, or ends with the section
  generalize hlen : min (elfSbufsz - held.length) (sl - off) = len
  have hbuf : held.length + len = min elfSbufsz (sl - off) := by
    obtain hnil | hfull := ht.full
    · simp only [hnil, length_nil] at hlen ⊢
      omega
    · omega
  have hinput : ¬ input.length < len := by
    have := ht.enough
    omega
  have hwhole : u ++ held ++ input.take (sl - off - held.length) =
      u ++ (held ++ input.take len) ++ (input.drop len).take (sl - off - held.length - len) := by
    rw [append_assoc, append_assoc, append_assoc, ← take_add]
    congr 4
    omega
  have hblen : (held ++ input.take len).length = held.length + len := by
    rw [length_append, length_take, Nat.min_eq_left (by omega)]
  have hsuffix : rem <:+ rels := ⟨first, hsplit.symm⟩
  rw [hwhole]
  obtain ⟨hnone, hwhole'⟩ | ⟨b', bof, fixed, left, heq, rfl, hlength, hleft, happly⟩ :=
    @fixLoop_spec τ fx rem off (held ++ input.take len) u
      ((input.drop len).take (sl - off - held.length - len)) ht.written hrem
      (h.sorted.sublist hsuffix.sublist) (hnear.suffix hsuffix)
  · refine .inl ⟨fun fuel => ?_, hwhole'⟩
    simp only [loadLoop, if_pos hlt, hlen, if_neg hinput, fix, hdrop, hnone, bind_none]
  rw [hblen] at hlength hleft
  -- a relocation that is held back begins behind the start of the buffer
  have hbof : bof < 8 ∧ bof < b'.length ∧ (off + b'.length = sl → bof = 0) := by
    obtain rfl | ⟨r, rest, rfl, haddr, hwidth⟩ := hleft.held
    · exact ⟨by omega, by unfold elfSbufsz at hbuf; omega, fun _ => rfl⟩
    · have hin := h.inside r (by rw [hsplit]; simp)
      have hw := fx.width_le r.type
      unfold elfSbufsz at hbuf
      exact ⟨by omega, by omega, by omega⟩
  have hguard : ¬ (elfSbufsz ≤ bof ∨ b'.length ≤ bof) := by
    unfold elfSbufsz
    omega
  refine .inr ⟨b', len, b'.length - bof, bof, fixed, left, ⟨by rwa [hlength], hdrop,
    hlength.trans hbuf, hlength.symm, by omega, ⟨hbof.1, by omega⟩, hbof.2.2, fun fuel => ?_⟩,
    happly⟩
  rw [loadLoop, if_pos hlt]
  simp only [hlen, if_neg hinput, fix, hdrop, heq, bind_some, if_neg hguard,
    length_take_of_le (Nat.sub_le b'.length bof)]

end Turn

section Step

variable {held input buf : List Byte} {len k bof fuel : ℕ} {fixed left : List (Relist τ)}

/-- The first relocation that goes past the end of a full buffer is the one held back. -/
theorem TurnDone.find (h : fx.Sorted rels sl)
    (hd : TurnDone fx rels sl off held input buf len k bof fixed left)
    (hfull : buf.length = elfSbufsz) :
    rels.find? (fx.straddles (off + elfSbufsz)) = if bof = 0 then none else left.head? := by
  have hleft := hd.leaves
  obtain ⟨first, hsplit, hfirst, -⟩ := split_addr h.sorted off
  rw [hfull] at hleft
  have hnone : (first ++ fixed).find? (fx.straddles (off + elfSbufsz)) = none := by
    apply find?_eq_none.mpr
    intro r hr
    have hend : r.addr + fx.width r.type ≤ off + elfSbufsz := by
      obtain hr | hr := List.mem_append.mp hr
      · have := hfirst r hr
        have := fx.width_le r.type
        unfold elfSbufsz
        omega
      · exact (hleft.within r hr).1
    simp only [straddles, decide_eq_true_eq]
    omega
  rw [hsplit, hd.split, ← append_assoc, find?_append, hnone, none_or]
  split
  next hzero =>
    refine find?_eq_none.mpr fun r hr => ?_
    have := hleft.behind r hr
    simp only [straddles, decide_eq_true_eq]
    omega
  next hpos =>
    obtain ⟨r, rest, rfl, haddr, hwidth⟩ := hleft.held.resolve_left hpos
    rw [find?_cons_of_pos (by simp only [straddles, decide_eq_true_eq]; omega), head?_cons]

theorem find_first {bound : ℕ} {pre rest : List (Relist τ)}
    (hpre : ∀ x ∈ pre, x.addr + fx.width x.type ≤ bound) (hr : bound < r.addr + fx.width r.type) :
    (pre ++ r :: rest).find? (fun x => r.addr ≤ x.addr) = some r ↔
      ∀ x ∈ pre, x.addr < r.addr := by
  rw [find?_append, find?_cons_of_pos (by simp)]
  constructor
  · intro hfind
    cases hfirst : pre.find? (fun x => r.addr ≤ x.addr) with
    | none => simpa using hfirst
    | some x =>
      rw [hfirst] at hfind
      cases hfind
      have := hpre r (mem_of_find?_eq_some hfirst)
      omega
  · intro hlt
    rw [find?_eq_none.mpr (by simpa using hlt), none_or]

theorem clean_past (hpast : sl ≤ off + elfSbufsz) : fx.Clean rels sl fuel off := by
  cases fuel with
  | zero => trivial
  | succ fuel => exact fun _ => by omega

variable (h : fx.Sorted rels sl) (hd : TurnDone fx rels sl off held input buf len k bof fixed left)
include hd

theorem TurnDone.next (ht : Turn sl off u held input)
    (hfull : bof = 0 ∨ off + k + elfSbufsz ≤ sl) :
    Turn sl (off + k) (u ++ buf.take k)
      (buf.drop k) (input.drop len) := by
  have hsize := hd.size
  have hread := hd.read
  have hkept := hd.kept
  have hbof := hd.bof_lt
  have henough := ht.enough
  constructor
  · rw [length_append, length_take, ht.written]
    omega
  · rw [length_drop]
    omega
  · rw [length_drop, length_drop]
    omega
  · rw [← length_eq_zero_iff, length_drop]
    unfold elfSbufsz at *
    omega

include h

theorem TurnDone.relsFrom (hbefore : ∀ x ∈ fixed, x.addr < off + k) :
    relsFrom (off + k) rels = left := by
  obtain ⟨first, hsplit, hfirst, -⟩ := split_addr h.sorted off
  have hkept := hd.kept
  have hbof := hd.bof_lt
  rw [hsplit, hd.split, ← append_assoc]
  apply relsFrom_append
  · intro r hr
    obtain hr | hr := List.mem_append.mp hr
    · have := hfirst r hr
      omega
    · exact hbefore r hr
  · intro r hr
    have := hd.leaves.behind r hr
    omega

/-- The relocation held back is the first at its address if all before it are before that
address. -/
theorem TurnDone.held_first (hzero : bof ≠ 0) :
    off + elfSbufsz < sl ∧ buf.length = elfSbufsz ∧ ∃ r rest, left = r :: rest ∧ r ∈ rels ∧
      off + k = r.addr ∧
      (rels.find? (fun x => r.addr ≤ x.addr) = some r ↔ ∀ x ∈ fixed, x.addr < r.addr) := by
  obtain ⟨r, rest, rfl, haddr, hwidth⟩ := hd.leaves.held.resolve_left hzero
  have hsize := hd.size
  have hkept := hd.kept
  have hbof := hd.bof_lt
  have hlast := hd.last
  have hmore : off + elfSbufsz < sl := by omega
  have hfull : buf.length = elfSbufsz := by omega
  obtain ⟨first, hsplit, hfirst, -⟩ := split_addr h.sorted off
  rw [hd.split, ← append_assoc] at hsplit
  have hpre : ∀ x ∈ first ++ fixed, x.addr + fx.width x.type ≤ off + buf.length := by
    refine forall_mem_append.mpr ⟨fun x hx => ?_, fun x hx => (hd.leaves.within x hx).1⟩
    have := hfirst x hx
    have := fx.width_le x.type
    unfold elfSbufsz at hfull
    omega
  refine ⟨hmore, hfull, r, rest, rfl, by simp [hsplit], by omega, ?_⟩
  rw [hsplit, find_first hpre (by omega), forall_mem_append]
  refine and_iff_right fun x hx => ?_
  have := hfirst x hx
  omega

theorem TurnDone.clean_iff : fx.Clean rels sl (fuel + 1) off ↔
    (bof = 0 ∨ off + k + elfSbufsz ≤ sl) ∧
    (∀ x ∈ fixed, x.addr < off + k) ∧
    fx.Clean rels sl fuel (off + k) := by
  by_cases hzero : bof = 0
  · have hsize := hd.size
    obtain rfl : k = buf.length := by
      have := hd.kept
      omega
    have hfixed : ∀ x ∈ fixed, x.addr < off + buf.length := fun x hx => (hd.leaves.within x hx).2
    simp only [hzero, true_or, true_and, and_iff_right hfixed]
    by_cases hmore : off + elfSbufsz < sl
    · have hfull : buf.length = elfSbufsz := by omega
      simp [Clean, hd.find h hfull, hzero, hmore, hfull]
    · exact iff_of_true (clean_past (by omega)) (clean_past (by omega))
  · obtain ⟨hmore, hfull, r, rest, rfl, -, hstart, hfirst⟩ := hd.held_first h hzero
    rw [hstart]
    simp [Clean, hd.find h hfull, hzero, hmore, hfirst]

end Step

/-- The loop reads what it asks for. -/
theorem loadLoop_read {fuel : ℕ} {held input out rest : List Byte} {done : Applied τ}
    (hload : fx.loadLoop rels sl fuel off held input = some (out, rest, done)) :
    rest.length + (if off < sl then min (elfSbufsz - held.length) (sl - off) else 0) ≤
      input.length := by
  induction fuel generalizing off held input out done with
  | zero =>
    rw [loadLoop] at hload
    split_ifs at hload ⊢
    cases hload
    rfl
  | succ fuel ih =>
    rw [loadLoop] at hload
    split_ifs at hload ⊢ with hlt
    · simp only at hload
      split_ifs at hload with hshort
      obtain ⟨⟨buf, bof, done'⟩, -, hbind⟩ := bind_eq_some_iff.mp hload
      simp only at hbind
      split_ifs at hbind
      obtain ⟨⟨out', rest', more⟩, hnext, heq⟩ := map_eq_some_iff.mp hbind
      simp only [Prod.mk.injEq] at heq
      obtain ⟨-, rfl, -⟩ := heq
      have hle := (Nat.le_add_right ..).trans (ih hnext)
      rw [length_drop] at hle
      omega
    · cases hload
      rfl

/-- What the loop has to give from the turn at `off` on. -/
def loaded (fx : Fixer τ) (rels : List (Relist τ)) (sl off : ℕ) (u held input : List Byte) :
    Option (List Byte × List Byte × Applied τ) :=
  (fx.applyAll (relsFrom off rels) (u ++ held ++ input.take (sl - off - held.length))).map
    fun out => (out.drop off, input.drop (sl - off - held.length), placed (relsFrom off rels))

section Loads

variable {fuel : ℕ} {held input : List Byte} (h : fx.Sorted rels sl) (hnear : Near rels)
include h

theorem loadLoop_done (ht : Turn sl off u held input) (hdone : sl ≤ off) :
    fx.loadLoop rels sl fuel off held input = fx.loaded rels sl off u held input := by
  have hnil : held = [] := by
    have := ht.within
    exact eq_nil_of_length_eq_zero (by omega)
  have hrem : relsFrom off rels = [] :=
    dropWhile_eq_nil_iff.mpr fun r hr => by
      have := h.inside r hr
      simp only [decide_eq_true_eq]
      omega
  have hlt : ¬ off < sl := by omega
  rw [loaded, hrem, hnil, Nat.sub_eq_zero_of_le hdone, Nat.zero_sub]
  cases fuel <;> simp [loadLoop, hlt, applyAll, placed, ht.written]

include hnear

/-- The invariant of the loop: the bytes written, held back and not read are the section with
the relocations before the buffer applied. -/
theorem loadLoop_eq (ht : Turn sl off u held input)
    (hfuel : sl ≤ off + fuel) (hclean : fx.Clean rels sl fuel off) :
    fx.loadLoop rels sl fuel off held input = fx.loaded rels sl off u held input := by
  induction fuel generalizing off held input u with
  | zero => exact loadLoop_done h ht (by omega)
  | succ fuel ih =>
    by_cases hlt : off < sl
    case neg => exact loadLoop_done h ht (by omega)
    obtain ⟨hnone, hwhole⟩ | ⟨buf, len, k, bof, fixed, left, hd, happly⟩ :=
      loadLoop_turn h hnear ht hlt
    · rw [hnone, loaded, hwhole]
      rfl
    obtain ⟨hfull, hbefore, hclean'⟩ := (hd.clean_iff h).mp hclean
    have hnext := hd.next ht hfull
    have hread := hd.read
    have hkept := hd.kept
    have hbof := hd.bof_lt
    rw [loaded, happly, hd.loop, ih hnext (by omega) hclean', loaded, hd.relsFrom h hbefore,
      Option.map_map, append_assoc u, take_append_drop]
    have hcount : sl - (off + k) - (buf.drop k).length = sl - off - held.length - len := by
      rw [length_drop]
      omega
    rw [hcount]
    apply Option.map_congr
    intro out hout
    have hsame := applyAll_take (n := off + k)
      (fun r hr => by have := hd.leaves.behind r hr; omega)
      (by have := ht.written; simp; omega) hout
    rw [append_assoc, ← ht.written, take_length_add_append,
      take_append_of_le_length (by omega), ht.written] at hsame
    have hwritten : out.drop off = buf.take k ++ out.drop (off + k) := by
      calc out.drop off = (out.take (off + k) ++ out.drop (off + k)).drop off := by
            rw [take_append_drop]
        _ = (u ++ (buf.take k ++ out.drop (off + k))).drop off := by
            rw [hsame, append_assoc]
        _ = buf.take k ++ out.drop (off + k) := drop_left' ht.written
    have hall : len + (sl - off - held.length - len) = sl - off - held.length := by
      have := hd.size
      omega
    simp only [Function.comp_apply, hwritten, drop_drop, hall, hd.split, placed, map_append]

/-- A turn that begins at a relocation applies the first one at that address first. -/
theorem head_of_loads {out rest : List Byte} (hr : r ∈ rels) (ht : Turn sl r.addr u held input)
    (hload : fx.loadLoop rels sl fuel r.addr held input = some (out, rest, placed (r :: rem))) :
    rels.find? (fun x => r.addr ≤ x.addr) = some r := by
  have hlt := (h.inside r hr).2
  cases fuel with
  | zero =>
    rw [loadLoop, if_pos hlt] at hload
    cases hload
  | succ fuel =>
    obtain ⟨hnone, -⟩ | ⟨buf, len, k, bof, fixed, left, hd, -⟩ := loadLoop_turn h hnear ht hlt
    · rw [hnone] at hload
      cases hload
    rw [hd.loop] at hload
    obtain ⟨⟨out', rest', more'⟩, -, heq⟩ := map_eq_some_iff.mp hload
    have hfind : rels.find? (fun x => r.addr ≤ x.addr) = (fixed ++ left).head? := by
      rw [← hd.split, relsFrom, find?_eq_head?_dropWhile_not]
      simp only [← decide_not, Nat.not_le]
    cases fixed with
    | cons x fixed =>
      simp only [placed, map_cons, cons_append, Prod.mk.injEq, cons.injEq] at heq
      rw [hfind, cons_append, head?_cons, heq.2.2.1.2]
    | nil =>
      -- no relocation is applied, not even `r`
      obtain ⟨first, hsplit, hfirst, -⟩ := split_addr h.sorted r.addr
      rw [hsplit, hd.split] at hr
      obtain hr | hr := List.mem_append.mp hr
      · exact absurd (hfirst r hr) (Nat.lt_irrefl _)
      · have := hd.leaves.behind r hr
        have := hd.kept
        have := hd.bof_lt
        omega

/-- Where the loop reads no more than the section and applies every relocation once, the
boundaries are clean. -/
theorem clean_of_loads {out rest : List Byte} (ht : Turn sl off u held input)
    (hload : fx.loadLoop rels sl fuel off held input =
      some (out, rest, placed (relsFrom off rels)))
    (hrest : input.length ≤ rest.length + (sl - off - held.length)) :
    fx.Clean rels sl fuel off := by
  induction fuel generalizing off held input u out with
  | zero => trivial
  | succ fuel ih =>
    by_cases hlt : off < sl
    case neg => exact clean_past (by omega)
    obtain ⟨hnone, -⟩ | ⟨buf, len, k, bof, fixed, left, hd, -⟩ := loadLoop_turn h hnear ht hlt
    · rw [hnone] at hload
      cases hload
    rw [hd.loop, hd.split] at hload
    obtain ⟨⟨out', rest', more⟩, hnext, heq⟩ := map_eq_some_iff.mp hload
    simp only [Prod.mk.injEq, placed, map_append, append_cancel_left_eq] at heq
    obtain ⟨-, rfl, rfl⟩ := heq
    have hsize := hd.size
    have hread := hd.read
    have hkept := hd.kept
    have hbof := hd.bof_lt
    have hlast := hd.last
    have hfull : bof = 0 ∨ off + k + elfSbufsz ≤ sl := by
      by_contra hshort
      have hmost := loadLoop_read hnext
      rw [if_pos (by omega), length_drop, length_drop] at hmost
      unfold elfSbufsz at *
      omega
    have ht' := hd.next ht hfull
    have hbefore : ∀ x ∈ fixed, x.addr < off + k := by
      by_contra hlate
      have hzero : bof ≠ 0 := by
        rintro rfl
        exact hlate fun x hx => (hd.leaves.within x hx).2.trans_eq (by omega)
      obtain ⟨-, -, r, left, rfl, hr, hstart, hfirst⟩ := hd.held_first h hzero
      rw [hstart] at ht' hnext hlate
      -- the next turn begins at `r`, and has to apply `r` first
      exact hlate (hfirst.mp (head_of_loads h hnear hr ht' hnext))
    have hnext' : fx.loadLoop rels sl fuel (off + k) (buf.drop k)
        (input.drop len) = some (out', rest', placed (relsFrom (off + k) rels)) := by
      rw [hd.relsFrom h hbefore]
      exact hnext
    refine (hd.clean_iff h).mpr ⟨hfull, hbefore, ih ht' hnext' ?_⟩
    rw [length_drop, length_drop]
    omega

end Loads

theorem fix_whole (h : fx.Sorted rels sl) (hnear : Near rels) (hb : b.length = sl) :
    fx.fix 0 rels b = (fx.applyAll rels b).map fun b' => (b', 0, placed rels) := by
  simp only [fix, relsFrom_zero]
  obtain ⟨hnone, hwhole⟩ | ⟨b', bof, fixed, left, heq, rfl, hlength, hleft, happly⟩ :=
    @fixLoop_spec τ fx rels 0 b [] [] rfl (fun r _ => Nat.zero_le r.addr) h.sorted hnear
  · rw [nil_append, append_nil] at hwhole
    rw [hnone, hwhole]
    rfl
  · simp only [nil_append, append_nil] at happly hleft
    have hbof : bof = 0 := by
      obtain hzero | ⟨r, rest, rfl, haddr, hwidth⟩ := hleft.held
      · exact hzero
      · have := h.inside r (by simp)
        omega
    have hnil : left = [] := by
      apply eq_nil_iff_forall_not_mem.mpr
      intro r hr
      have := hleft.behind r hr
      have := h.inside r (mem_append_right _ hr)
      omega
    rw [heq, happly, hbof, hnil, append_nil]
    rfl

/-- Where every relocation is applied at its address, no difference of addresses is cut. -/
theorem near_of_fixLoop {place : ℤ} {bof : ℕ}
    (hfix : fx.fixLoop off place rem b = some (b', bof, placed rem)) :
    (∀ r ∈ rem.head?, place = r.addr) ∧ Near rem := by
  induction rem generalizing place b with
  | nil => exact ⟨by simp, .nil⟩
  | cons r rest ih =>
    simp only [fixLoop] at hfix
    split_ifs at hfix
    case neg =>
      obtain ⟨b₁, -, hmap⟩ := bind_eq_some_iff.mp hfix
      obtain ⟨⟨b₂, bof', done⟩, hrest, heq⟩ := map_eq_some_iff.mp hmap
      simp only [placed, map_cons, Prod.mk.injEq, cons.injEq, and_true] at heq
      obtain ⟨rfl, rfl, rfl, rfl⟩ := heq
      obtain ⟨hplace, hnear⟩ := ih hrest
      refine ⟨by simp, ?_⟩
      cases rest with
      | nil => exact .singleton r
      | cons next rest =>
        have hnext := hplace next rfl
        have hlt := Int.bmod_lt (x := (next.addr : ℤ) - r.addr) (m := 2 ^ 32) (by decide)
        simp only [reoff] at hnext
        exact .cons_cons (by omega) hnear
    all_goals simp [placed] at hfix

theorem applyAll_length (hin : ∀ r ∈ rem, r.addr + fx.width r.type ≤ b.length)
    (happly : fx.applyAll rem b = some b') : b'.length = b.length := by
  induction rem generalizing b with
  | nil =>
    cases happly
    rfl
  | cons r rest ih =>
    obtain ⟨b₁, hpatch, hrest⟩ := bind_eq_some_iff.mp happly
    have hlength := patch_length (hin r (mem_cons_self ..)) hpatch
    rw [ih (fun r' hr' => hlength ▸ hin r' (mem_cons_of_mem _ hr')) hrest, hlength]

/-- What loading a section in pieces is for: the input is read up to the end of the section,
the output is the section as one call of the fixer leaves it, and each relocation is applied
once, in the order of the addresses. -/
def LoadsAsOneCall (fx : Fixer τ) (rels : List (Relist τ)) (sl : ℕ) (input : List Byte) : Prop :=
  fx.ldloadasect rels sl input =
      (fx.fix 0 rels (input.take sl)).map (fun out => (out.1, input.drop sl, out.2.2)) ∧
    fx.fix 0 rels (input.take sl) =
      (fx.applyAll rels (input.take sl)).map (fun out => (out, 0, placed rels)) ∧
    ∀ out rest done, fx.ldloadasect rels sl input = some (out, rest, done) →
      out.length = sl ∧ rest = input.drop sl

theorem Turn.start {input : List Byte} (hinput : sl ≤ input.length) : Turn sl 0 [] [] input :=
  ⟨rfl, by simp, by simpa using hinput, .inl rfl⟩

section Main

variable {input : List Byte} (h : fx.Sorted rels sl) (hinput : sl ≤ input.length)
include h hinput

theorem loads_of_clean (hnear : Near rels) (hclean : fx.Clean rels sl sl 0) :
    fx.LoadsAsOneCall rels sl input := by
  have hload : fx.ldloadasect rels sl input =
      (fx.applyAll rels (input.take sl)).map fun out => (out, input.drop sl, placed rels) := by
    have hrun := loadLoop_eq h hnear (.start hinput) (by omega) hclean
    rw [loaded, relsFrom_zero] at hrun
    simpa [ldloadasect] using hrun
  have htake : (input.take sl).length = sl := by
    rw [length_take, Nat.min_eq_left hinput]
  have hfix := fix_whole h hnear htake
  refine ⟨?_, hfix, ?_⟩
  · rw [hload, hfix, Option.map_map]
    rfl
  · intro out rest done hout
    rw [hload] at hout
    obtain ⟨out, happly, hpair⟩ := map_eq_some_iff.mp hout
    cases hpair
    have hin : ∀ r ∈ rels, r.addr + fx.width r.type ≤ (input.take sl).length := fun r hr =>
      (h.inside r hr).1.trans_eq htake.symm
    exact ⟨(applyAll_length hin happly).trans htake, rfl⟩

theorem clean_of_loadsAsOneCall (happly : fx.applyAll rels (input.take sl) ≠ none)
    (hloads : fx.LoadsAsOneCall rels sl input) : Near rels ∧ fx.Clean rels sl sl 0 := by
  obtain ⟨out, hout⟩ := ne_none_iff_exists'.mp happly
  obtain ⟨hload, hfix, -⟩ := hloads
  rw [hout, map_some] at hfix
  rw [hfix, map_some] at hload
  rw [fix, relsFrom_zero] at hfix
  have hnear := (near_of_fixLoop hfix).2
  have hstart : fx.loadLoop rels sl sl 0 [] input =
      some (out, input.drop sl, placed (relsFrom 0 rels)) := by
    rw [relsFrom_zero]
    exact hload
  exact ⟨hnear, clean_of_loads h hnear (.start hinput) hstart (by simp [hinput])⟩

end Main

end Fixer

theorem i386_applyAll (shAddr : BitVec 64) (rels : List (Relist I386Type)) (b : List Byte) :
    (i386 shAddr).applyAll rels b ≠ none := by
  induction rels generalizing b with
  | nil => simp [Fixer.applyAll]
  | cons r rest ih => exact ih _

end Proofs

/-- A section that is read through the buffer is relocated as if it were fixed in one call,
exactly where no buffer but a full one begins with bytes held back, these are for the first
relocation at their address, and no two relocations in a row are too far apart.  A fixer of
`amd64` can give the section up. -/
theorem section_relocated_as_one_call (shAddr : BitVec 64) (sl : ℕ) (input : List Byte)
    (hinput : sl ≤ input.length) :
    (∀ rels, (i386 shAddr).Sorted rels sl →
      ((i386 shAddr).LoadsAsOneCall rels sl input ↔
        Near rels ∧ (i386 shAddr).Clean rels sl sl 0)) ∧
    ∀ rels, (amd64 shAddr).Sorted rels sl →
      (Near rels ∧ (amd64 shAddr).Clean rels sl sl 0 →
        (amd64 shAddr).LoadsAsOneCall rels sl input) ∧
      ((amd64 shAddr).applyAll rels (input.take sl) ≠ none →
        (amd64 shAddr).LoadsAsOneCall rels sl input →
        Near rels ∧ (amd64 shAddr).Clean rels sl sl 0) := by
  refine ⟨fun rels h => ⟨?_, fun hok => Fixer.loads_of_clean h hinput hok.1 hok.2⟩, fun rels h =>
    ⟨fun hok => Fixer.loads_of_clean h hinput hok.1 hok.2, ?_⟩⟩
  · exact Fixer.clean_of_loadsAsOneCall h hinput (i386_applyAll shAddr rels _)
  · exact Fixer.clean_of_loadsAsOneCall h hinput

theorem section_relocated_two_buffers :
    (i386 0).LoadsAsOneCall [⟨510, .abs32, 1, 0⟩] 1024 (List.replicate 1024 0) := by
  have hin : ∀ r ∈ [(⟨510, .abs32, 1, 0⟩ : Relist I386Type)],
      r.addr + (i386 0).width r.type ≤ 1024 ∧ r.addr < 1024 := by
    decide
  refine ((section_relocated_as_one_call 0 1024 (List.replicate 1024 0)
    length_replicate.ge).1 _ ⟨hin, by simp⟩).mpr ⟨.singleton _, fun _ => ?_⟩
  refine ⟨by decide, rfl, fun _ => ?_⟩
  exact fun hmore => absurd hmore (by decide)

/-- Behind a buffer that holds bytes back, the clipped length does not count them. -/
theorem section_written_past_its_end :
    (i386 0).Sorted [⟨510, .abs32, 0, 0⟩] 514 ∧
      ¬ (i386 0).LoadsAsOneCall [⟨510, .abs32, 0, 0⟩] 514 (List.replicate 516 0) ∧
      ((i386 0).ldloadasect [⟨510, .abs32, 0, 0⟩] 514 (List.replicate 516 0)).map
        (fun out => (out.1.length, out.2.1.length)) = some (516, 0) := by
  have hrun : ((i386 0).ldloadasect [⟨510, .abs32, 0, 0⟩] 514 (List.replicate 516 0)).map
      (fun out => (out.1.length, out.2.1.length)) = some (516, 0) := by
    decide +kernel
  refine ⟨⟨by decide, by simp⟩, ?_, hrun⟩
  rintro ⟨-, -, hlength⟩
  obtain ⟨out, hout, hpair⟩ := map_eq_some_iff.mp hrun
  have := (hlength out.1 out.2.1 out.2.2 hout).1
  simp only [Prod.mk.injEq] at hpair
  omega

end AerieKernel.Ld
