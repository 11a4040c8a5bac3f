import AerieKernel.MilfsModel
import AerieKernel.ClistBits

/-!
# The scan of a MILFS as a fold over records

The scan goes over the records of all groups.  What it does to an inode depends on the
records of this inode only, so the trees and bitmaps after a scan are those of separate
scans of the inodes, and the tree of inodes plays no part in what follows.
-/

namespace AerieKernel.Milfs

open List Splay.Tree Mount

open Splay.Tree (Splits)
open Tty (bitAt setbit clrbit setbit_eq clrbit_eq)

/-! ## Records -/

structure Record where
  cg : ℕ
  blk : ℕ
  dip : Dinode
  deriving DecidableEq

def Record.block (r : Record) : Block where
  inode := r.dip.inode
  offset := r.dip.offset.toUInt32
  blksize := r.dip.size
  cgno := r.cg
  cgblk := r.blk
  modsec := r.dip.modsec
  modusec := r.dip.modusec
  gen := r.dip.gen

def Dinode.Same (d e : Dinode) : Prop :=
  d.inode = e.inode ∧ d.offset = e.offset

instance (d e : Dinode) : Decidable (d.Same e) := inferInstanceAs (Decidable (_ ∧ _))

def Dinode.stamp (d : Dinode) : ℕ ×ₗ ℤ ×ₗ ℤ :=
  toLex (d.gen.toNat, toLex (d.modsec.toInt, d.modusec.toInt))

theorem Dinode.Same.symm {d e : Dinode} (h : d.Same e) : e.Same d := ⟨h.1.symm, h.2.symm⟩

theorem Dinode.Same.trans {d e f : Dinode} (h : d.Same e) (h' : e.Same f) : d.Same f :=
  ⟨h.1.trans h'.1, h.2.trans h'.2⟩

variable (g : Geometry)

def groupRecords (table : Table) (cg : ℕ) : List Record :=
  if table.magic ≠ cgdescMagic then []
  else
    ((List.range (g.blkpercg - 1)).map fun i => ⟨cg, i, table.dip i⟩).filter fun r => r.dip.size ≠ 0

def records (tables : ℕ → Table) : List Record :=
  (List.range g.ncg.toNat).flatMap fun cg => groupRecords g (tables cg) cg

def Geometry.tableBlk (cg : ℕ) : ℕ :=
  (0x2000 + (cg + 1) * 2 ^ g.cgbits - 2 ^ ((5 + g.cgbits) / 2)) / 512

def Geometry.Below : Prop :=
  0x2000 + g.ncg.toNat * 2 ^ g.cgbits - 2 ^ ((5 + g.cgbits) / 2) < 2 ^ 32

section Records

variable {g} {tables : ℕ → Table} {r s : Record}

theorem mem_groupRecords {table : Table} {cg : ℕ} : r ∈ groupRecords g table cg ↔ r.cg = cg ∧
    table.magic = cgdescMagic ∧ r.blk < g.blkpercg - 1 ∧ r.dip = table.dip r.blk ∧
      r.dip.size ≠ 0 := by
  unfold groupRecords
  split_ifs with hmagic
  · simp [hmagic]
  · simp only [mem_filter, mem_map, mem_range, decide_eq_true_eq]
    constructor
    · rintro ⟨⟨blk, hblk, rfl⟩, hsize⟩
      exact ⟨rfl, not_not.mp hmagic, hblk, rfl, hsize⟩
    · rintro ⟨rfl, -, hblk, hdip, hsize⟩
      exact ⟨⟨r.blk, hblk, by rw [← hdip]⟩, hsize⟩

theorem mem_records : r ∈ records g tables ↔
    r.cg < g.ncg.toNat ∧ (tables r.cg).magic = cgdescMagic ∧ r.blk < g.blkpercg - 1 ∧
      r.dip = (tables r.cg).dip r.blk ∧ r.dip.size ≠ 0 := by
  simp only [records, mem_flatMap, mem_range, mem_groupRecords]
  constructor
  · rintro ⟨cg, hcg, rfl, h⟩
    exact ⟨hcg, h⟩
  · rintro ⟨hcg, h⟩
    exact ⟨r.cg, hcg, rfl, h⟩

theorem records_place (hr : r ∈ records g tables) (hs : s ∈ records g tables)
    (hcg : r.cg = s.cg) (hblk : r.blk = s.blk) : r = s := by
  obtain ⟨-, -, -, hr, -⟩ := mem_records.mp hr
  obtain ⟨-, -, -, hs, -⟩ := mem_records.mp hs
  have hdip : r.dip = s.dip := by rw [hr, hs, hcg, hblk]
  cases r
  cases s
  simp_all

theorem records_nodup (g : Geometry) (tables : ℕ → Table) : (records g tables).Nodup := by
  rw [records, nodup_flatMap]
  constructor
  · intro cg _
    unfold groupRecords
    split_ifs
    · exact nodup_nil
    · apply List.Nodup.filter
      apply List.Nodup.map _ nodup_range
      intro i j hij
      exact (Record.mk.inj hij).2.1
  · apply List.Pairwise.imp _ (nodup_range (n := g.ncg.toNat))
    intro cg cg' hne r hr hr'
    exact hne ((mem_groupRecords.mp hr).1.symm.trans (mem_groupRecords.mp hr').1)

end Records

/-! ## The scan as a fold over the records -/

def scanRecord (mmp : Mount) (r : Record) : Except Stop Mount :=
  scanEntry g r.cg mmp r.blk r.dip

theorem scanino_eq (mmp : Mount) (table : Table) (cg : ℕ) :
    scanino g mmp table cg = (groupRecords g table cg).foldlM (scanRecord g) mmp := by
  unfold scanino groupRecords
  split_ifs with hmagic
  · rfl
  · generalize List.range (g.blkpercg - 1) = places
    induction places generalizing mmp with
    | nil => rfl
    | cons i places ih =>
      rw [foldlM_cons, map_cons, filter_cons]
      by_cases hsize : (table.dip i).size = 0
      · have hkeep : scanEntry g cg mmp i (table.dip i) = .ok mmp := by
          rw [scanEntry, if_pos hsize]
        rw [hkeep, if_neg (by simp [hsize])]
        exact ih mmp
      · rw [if_pos (by simp [hsize])]
        congr 1
        funext mmp'
        exact ih mmp'

variable {tables : ℕ → Table} {bread : ℕ → Option Table}

theorem scancg_eq {g : Geometry} (hread : ∀ cg < g.ncg.toNat, bread (g.cgblk cg) = some (tables cg))
    (mmp : Mount) : scancg g bread mmp = (records g tables).foldlM (scanRecord g) mmp := by
  unfold scancg records
  have hin : ∀ cg ∈ List.range g.ncg.toNat, cg < g.ncg.toNat := by simp
  generalize List.range g.ncg.toNat = groups at hin
  induction groups generalizing mmp with
  | nil => rfl
  | cons cg groups ih =>
    rw [foldlM_cons, flatMap_cons, foldlM_append, hread cg (hin cg (by simp))]
    dsimp only
    rw [scanino_eq]
    congr 1
    funext mmp'
    exact ih mmp' fun i hi => hin i (by simp [hi])

section Geometry

variable (g : Geometry)

theorem oneShift_toNat {k : ℕ} (hk : k < 32) : ((1 : UInt32) <<< UInt32.ofNat k).toNat = 2 ^ k := by
  have hmod : (UInt32.ofNat k).toNat % 32 = k := by
    rw [UInt32.toNat_ofNat', Nat.mod_mod_of_dvd _ (by norm_num), Nat.mod_eq_of_lt hk]
  have hpow : 2 ^ k < 2 ^ 32 := Nat.pow_lt_pow_right (by norm_num) hk
  rw [UInt32.toNat_shiftLeft, hmod, Nat.shiftLeft_eq]
  simpa using Nat.mod_eq_of_lt hpow

theorem Geometry.cgsize_toNat : g.cgsize.toNat = 2 ^ g.cgbits :=
  oneShift_toNat g.high

theorem Geometry.bsize_toNat : g.bsize.toNat = 2 ^ ((5 + g.cgbits) / 2) := by
  have := g.high
  exact oneShift_toNat (by omega)

theorem Geometry.blkpercg_eq : g.blkpercg = 2 ^ ((g.cgbits - 5) / 2) := by
  have hodd := g.odd
  have hlow := g.low
  rw [Geometry.blkpercg, UInt32.toNat_div, g.cgsize_toNat, g.bsize_toNat,
    Nat.pow_div (by omega) (by norm_num)]
  congr 1
  omega

theorem Geometry.eight_dvd_blkpercg : 8 ∣ g.blkpercg := by
  rw [g.blkpercg_eq, show 8 = 2 ^ 3 from rfl]
  have := g.low
  exact pow_dvd_pow 2 (by omega)

variable {g}

theorem Geometry.bsize_le (g : Geometry) : 2 ^ ((5 + g.cgbits) / 2) ≤ 2 ^ g.cgbits := by
  have := g.low
  exact Nat.pow_le_pow_right (by norm_num) (by omega)

theorem Geometry.le_group (cg : ℕ) : 2 ^ g.cgbits ≤ (cg + 1) * 2 ^ g.cgbits :=
  Nat.le_mul_of_pos_left _ (by omega)

theorem Geometry.cgblk_eq {cg : ℕ} (hcg : cg < g.ncg.toNat) (hlow : g.tableBlk cg < 2 ^ 23) :
    g.cgblk cg = g.tableBlk cg := by
  have hsmall := g.bsize_le
  have hone := g.le_group cg
  have hncg := g.ncg.toNat_lt
  have hbsize := g.bsize.toNat_lt
  rw [g.bsize_toNat] at hbsize
  unfold Geometry.tableBlk at hlow
  unfold Geometry.cgblk Geometry.tableBlk
  rw [UInt32.toNat_shiftRight, UInt32.toNat_add, UInt32.toNat_sub, UInt32.toNat_mul,
    g.cgsize_toNat, g.bsize_toNat, UInt32.toNat_ofNat',
    Nat.mod_eq_of_lt (show cg + 1 < 2 ^ 32 by omega)]
  have hshift : ∀ n, n >>> ((9 : UInt32).toNat % 32) = n / 512 := fun n =>
    Nat.shiftRight_eq_div_pow n 9
  have hboot : (0x2000 : UInt32).toNat = 0x2000 := rfl
  rw [hshift]
  omega

theorem Geometry.cgblk_lt (g : Geometry) (cg : ℕ) : g.cgblk cg < 2 ^ 23 := by
  unfold Geometry.cgblk
  generalize 0x2000 + (UInt32.ofNat (cg + 1) * g.cgsize - g.bsize) = address
  have hlt := address.toNat_lt
  rw [UInt32.toNat_shiftRight]
  have hshift : address.toNat >>> ((9 : UInt32).toNat % 32) = address.toNat / 512 :=
    Nat.shiftRight_eq_div_pow _ 9
  omega

theorem Geometry.below_iff :
    g.Below ↔ ∀ cg < g.ncg.toNat, g.tableBlk cg < 2 ^ 23 := by
  have hsmall := g.bsize_le
  unfold Geometry.Below Geometry.tableBlk
  constructor
  · intro hbelow cg hcg
    have hgroups : (cg + 1) * 2 ^ g.cgbits ≤ g.ncg.toNat * 2 ^ g.cgbits :=
      Nat.mul_le_mul_right _ hcg
    omega
  · intro hlow
    rcases Nat.eq_zero_or_pos g.ncg.toNat with hzero | hpos
    · rw [hzero, Nat.zero_mul]
      exact lt_of_le_of_lt (Nat.sub_le _ _) (by norm_num)
    · have hlast := hlow (g.ncg.toNat - 1) (by omega)
      rw [Nat.sub_add_cancel hpos] at hlast
      omega

theorem Geometry.tableBlk_inj {cg cg' : ℕ} (h : g.tableBlk cg = g.tableBlk cg') : cg = cg' := by
  have hlarge : 2 ^ 13 ≤ 2 ^ g.cgbits := Nat.pow_le_pow_right (by norm_num) g.low
  have hlt : ∀ {cg cg' : ℕ}, cg < cg' → g.tableBlk cg < g.tableBlk cg' := by
    intro cg cg' hcg
    have hsmall := g.bsize_le
    have hone := g.le_group cg
    have hnext : (cg + 1 + 1) * 2 ^ g.cgbits ≤ (cg' + 1) * 2 ^ g.cgbits :=
      Nat.mul_le_mul_right _ (by omega)
    rw [Nat.add_mul (cg + 1)] at hnext
    unfold Geometry.tableBlk
    omega
  rcases lt_trichotomy cg cg' with hlt' | heq | hgt
  · exact absurd h (hlt hlt').ne
  · exact heq
  · exact absurd h (hlt hgt).ne'

end Geometry

/-! ## The scan of one inode -/

theorem blkisnew_block (r s : Record) :
    blkisnew r.dip s.block =
      if s.dip.stamp < r.dip.stamp then some true
      else if r.dip.stamp < s.dip.stamp then some false else none := by
  have hgen : ∀ a b : UInt32, a < b ↔ a.toNat < b.toNat := fun a b =>
    UInt32.lt_iff_toNat_lt
  have hsec : ∀ a b : Int32, a < b ↔ a.toInt < b.toInt := fun a b =>
    Int32.lt_iff_toInt_lt
  unfold blkisnew Dinode.stamp Record.block
  simp only [Prod.Lex.toLex_lt_toLex, hgen, hsec]
  split_ifs <;> first | rfl | omega

/-- An inode in the middle of a scan, with the records that were entered into its tree. -/
structure Part where
  mip : Inode
  entered : List Record

namespace Part

def tree (p : Part) : List Block := p.mip.blktree.toList

def looked (p : Part) (r : Record) : Part :=
  { p with mip := { p.mip with blktree := (p.mip.blktree.find blockCmp r.block).2 } }

def delete (p : Part) (mbp : Block) : Part := { p with mip := p.mip.blkdelete mbp }

def enter (p : Part) (r : Record) : Part := ⟨p.mip.blkcreate r.block, p.entered ++ [r]⟩

/-- What `milfs_scanblk` does to an inode; there is no outcome if it panics. -/
def scan (p : Part) (r : Record) : Option Part :=
  match (p.mip.blktree.find blockCmp r.block).1 with
  | none => some ((p.looked r).enter r)
  | some mbp =>
    match blkisnew r.dip mbp with
    | none => none
    | some false => some (p.looked r)
    | some true => some (((p.looked r).delete mbp).enter r)

end Part

/-- The scan of the records of one inode. -/
def part (ino : UInt64) (seen : List Record) : Option Part :=
  (seen.filter fun r => r.dip.inode = ino).foldlM Part.scan ⟨⟨ino, 0, .nil⟩, []⟩

theorem part_append (ino : UInt64) (seen rest : List Record) :
    part ino (seen ++ rest) = (part ino seen).bind
      ((rest.filter fun r => r.dip.inode = ino).foldlM Part.scan) := by
  rw [part, filter_append, foldlM_append]
  rfl

theorem part_concat (ino : UInt64) (seen : List Record) (r : Record) :
    part ino (seen ++ [r]) =
      if r.dip.inode = ino then (part ino seen).bind (·.scan r) else part ino seen := by
  rw [part_append, filter_singleton]
  split_ifs with hinode <;> simp [hinode]

theorem part_unseen {ino : UInt64} {seen : List Record} (h : ∀ r ∈ seen, r.dip.inode ≠ ino) :
    part ino seen = some ⟨⟨ino, 0, .nil⟩, []⟩ := by
  rw [part, filter_eq_nil_iff.mpr fun r hr => by simpa using h r hr]
  rfl

section One

variable {p p' : Part} {r s : Record} {ino : UInt64} {seen : List Record}

theorem Part.scan_inode (h : p.scan r = some p') : p'.mip.inode = p.mip.inode := by
  unfold scan at h
  split at h
  · cases h
    rfl
  · split at h
    all_goals
      cases h
      try rfl

theorem Part.scan_entered (h : p.scan r = some p') :
    p'.entered = p.entered ∨ p'.entered = p.entered ++ [r] := by
  unfold scan at h
  split at h
  · cases h
    exact .inr rfl
  · split at h
    · cases h
    · cases h
      exact .inl rfl
    · cases h
      exact .inr rfl

/-- What holds at the start of a scan and is kept by each record holds at its end. -/
theorem Part.run {Q : Part → Prop} {rest : List Record}
    (hstep : ∀ r ∈ rest, ∀ p p', Q p → p.scan r = some p' → Q p')
    (h : Q p) (hrun : rest.foldlM Part.scan p = some p') : Q p' := by
  induction rest generalizing p with
  | nil =>
    cases hrun
    exact h
  | cons r rest ih =>
    rw [foldlM_cons] at hrun
    obtain ⟨q, hscan, hrest⟩ := Option.bind_eq_some_iff.mp hrun
    exact ih (fun s hs => hstep s (by simp [hs])) (hstep r (by simp) p q h hscan) hrest

theorem part_inode (h : part ino seen = some p) : p.mip.inode = ino :=
  Part.run (Q := fun p => p.mip.inode = ino)
    (fun _ _ _ _ hq hscan => (Part.scan_inode hscan).trans hq) rfl h

theorem Part.run_entered {rest : List Record} (hrun : rest.foldlM Part.scan p = some p') :
    p'.entered.Sublist (p.entered ++ rest) := by
  induction rest generalizing p with
  | nil =>
    cases hrun
    simp
  | cons r rest ih =>
    rw [foldlM_cons] at hrun
    obtain ⟨q, hscan, hrest⟩ := Option.bind_eq_some_iff.mp hrun
    refine (ih hrest).trans ?_
    rcases scan_entered hscan with heq | heq <;> rw [heq]
    · exact (sublist_cons_self _ _).append_left _
    · simp

theorem part_entered (h : part ino seen = some p) :
    p.entered.Sublist (seen.filter fun r => r.dip.inode = ino) :=
  Part.run_entered h

/-! ## One record -/

variable {g : Geometry}

theorem Geometry.byte_lt (g : Geometry) {blk : ℕ} (hblk : blk < g.blkpercg) :
    blk / 8 < g.blkpercg / 8 := by
  have := g.eight_dvd_blkpercg
  omega

theorem clearBit_spec (mmp : Mount) (cg : ℕ) {blk : ℕ} (hblk : blk < g.blkpercg) :
    ∃ bmap, (mmp.modifyBits g cg fun size map => clrbit size map blk) = .ok { mmp with bmap } ∧
      ∀ cg' blk', bitAt (bmap cg') blk' = true ↔
        bitAt (mmp.bmap cg') blk' = true ∧ ¬ (cg' = cg ∧ blk' = blk) := by
  obtain ⟨map, hclr, hbits⟩ := clrbit_eq (mmp.bmap cg) (g.byte_lt hblk)
  refine ⟨Function.update mmp.bmap cg map, ?_, ?_⟩
  · unfold modifyBits
    dsimp only
    rw [hclr]
  · intro cg' blk'
    by_cases hcg : cg' = cg
    · subst hcg
      rw [Function.update_self, hbits]
      by_cases hb : blk' = blk <;> simp [hb]
    · simp [hcg]

theorem enterBlock_spec (mmp : Mount) (mip : Inode)
    (hblk : r.blk < g.blkpercg) (hinode : r.dip.inode = mip.inode) :
    ∃ bmap, enterBlock g mmp mip r.dip r.cg r.blk =
        .ok ⟨mmp.inotree.modifyRoot fun _ => mip.blkcreate r.block, bmap⟩ ∧
      ∀ cg blk, bitAt (bmap cg) blk = true ↔
        bitAt (mmp.bmap cg) blk = true ∨ (r.cg = cg ∧ r.blk = blk) := by
  obtain ⟨map, hset, hbits⟩ := setbit_eq (mmp.bmap r.cg) (g.byte_lt hblk)
  refine ⟨Function.update mmp.bmap r.cg map, ?_, ?_⟩
  · unfold enterBlock modifyBits setInode
    dsimp only
    rw [hset, ← hinode]
    rfl
  · intro cg blk
    by_cases hcg : r.cg = cg
    · subst hcg
      rw [Function.update_self, hbits]
      by_cases hb : r.blk = blk
      · simp [hb]
      · simp [hb, Ne.symm hb]
    · simp [hcg, Ne.symm hcg]

/-- If a block takes the place of another one, its own bit is cleared and set again. -/
theorem scanblk_part (mmp : Mount) (hblk : r.blk < g.blkpercg) (hinode : r.dip.inode = p.mip.inode)
    (hentered : ∀ s ∈ p.entered, bitAt (mmp.bmap s.cg) s.blk = true) :
    (p.scan r = none ∧ scanblk g mmp p.mip r.dip r.cg r.blk = .error .panic) ∨
      ∃ p' bmap, p.scan r = some p' ∧ scanblk g mmp p.mip r.dip r.cg r.blk =
          .ok ⟨mmp.inotree.modifyRoot fun _ => p'.mip, bmap⟩ ∧
        ∀ cg blk, bitAt (bmap cg) blk = true ↔
          bitAt (mmp.bmap cg) blk = true ∨ ∃ s ∈ p'.entered, s.cg = cg ∧ s.blk = blk := by
  have hfind : p.mip.blklookup r.dip.offset.toUInt32 r.dip.size =
      ((p.mip.blktree.find blockCmp r.block).1, (p.looked r).mip) := rfl
  have hadd : ∀ {bits bits' : Bool} {cg blk : ℕ},
      (bits = true ↔ bits' = true ∨ r.cg = cg ∧ r.blk = blk) →
      ((∃ s ∈ p.entered, s.cg = cg ∧ s.blk = blk) → bits' = true) →
      (bits = true ↔ bits' = true ∨ ∃ s ∈ p.entered ++ [r], s.cg = cg ∧ s.blk = blk) := by
    intro bits bits' cg blk hbits hold
    rw [hbits]
    simp only [List.mem_append, mem_singleton, or_and_right, exists_or, exists_eq_left]
    exact ⟨Or.imp_right .inr, fun h => h.elim .inl fun h => h.imp_left hold⟩
  have hold : ∀ {cg blk}, (∃ s ∈ p.entered, s.cg = cg ∧ s.blk = blk) →
      bitAt (mmp.bmap cg) blk = true := by
    rintro cg blk ⟨s, hs, rfl, rfl⟩
    exact hentered s hs
  unfold scanblk Part.scan
  rw [hfind]
  cases (p.mip.blktree.find blockCmp r.block).1 with
  | none =>
    obtain ⟨bmap, henter, hbits⟩ := enterBlock_spec mmp (p.looked r).mip hblk hinode
    exact .inr ⟨_, bmap, rfl, henter, fun cg blk => hadd (hbits cg blk) hold⟩
  | some mbp =>
    dsimp only
    cases blkisnew r.dip mbp with
    | none => exact .inl ⟨rfl, rfl⟩
    | some newer =>
      cases newer with
      | false =>
        refine .inr ⟨_, mmp.bmap, rfl, rfl, fun cg blk => ?_⟩
        exact ⟨.inl, fun h => h.elim id hold⟩
      | true =>
        obtain ⟨bmap, hclear, hcleared⟩ := clearBit_spec mmp r.cg hblk
        obtain ⟨bmap', henter, hbits⟩ := enterBlock_spec { mmp with bmap }
          ((p.looked r).mip.blkdelete mbp) hblk hinode
        refine .inr ⟨_, bmap', rfl, ?_, fun cg blk => hadd ?_ hold⟩
        · dsimp only
          rw [hclear]
          exact henter
        · rw [hbits, hcleared, eq_comm (a := cg), eq_comm (a := blk)]
          tauto

end One

/-! ## The inodes -/

variable {seen : List Record} {mmp : Mount} {p : Part} {r : Record}

/-- After a scan of `seen` the tree has the inodes of these records, each as its own scan
leaves it, and the bits are those of all blocks that were ever entered. -/
structure Shows (seen : List Record) (mmp : Mount) : Prop where
  sorted : mmp.inotree.toList.Pairwise fun a b => a.inode < b.inode
  known : ∀ ino, (∃ mip ∈ mmp.inotree.toList, mip.inode = ino) ↔ ∃ r ∈ seen, r.dip.inode = ino
  inodes : ∀ mip ∈ mmp.inotree.toList, ∃ entered, part mip.inode seen = some ⟨mip, entered⟩
  bits : ∀ cg blk, bitAt (mmp.bmap cg) blk = true ↔
    ∃ ino p, part ino seen = some p ∧ ∃ r ∈ p.entered, r.cg = cg ∧ r.blk = blk

theorem Shows.exists_part (h : Shows seen mmp) :
    ∀ r ∈ seen, ∃ p, part r.dip.inode seen = some p := by
  intro r hr
  obtain ⟨mip, hmip, hino⟩ := (h.known r.dip.inode).mpr ⟨r, hr, rfl⟩
  obtain ⟨entered, hp⟩ := h.inodes mip hmip
  exact ⟨_, hino ▸ hp⟩

theorem inodeCmp_eq (mip₁ mip₂ : Inode) :
    inodeCmp mip₁ mip₂ = compare mip₁.inode.toNat mip₂.inode.toNat := by
  unfold inodeCmp
  simp only [UInt64.lt_iff_toNat_lt]
  rcases lt_trichotomy mip₁.inode.toNat mip₂.inode.toNat with hlt | heq | hgt
  · rw [if_neg (by omega), if_pos hlt, compare_lt_iff_lt.mpr hlt]
  · simp [heq]
  · rw [if_pos hgt, compare_gt_iff_gt.mpr hgt]

theorem inode_splits (mip : Inode) {inodes : List Inode}
    (hsorted : inodes.Pairwise fun a b => a.inode < b.inode) : Splits (inodeCmp mip) inodes := by
  apply hsorted.imp
  intro a b hab hne
  rw [inodeCmp_eq, ne_eq, compare_gt_iff_gt] at hne
  rw [inodeCmp_eq, compare_lt_iff_lt]
  have := UInt64.lt_iff_toNat_lt.mp hab
  omega

structure Looked (seen : List Record) (mmp : Mount) (p : Part)
    (left right : Splay.Tree Inode) : Prop where
  tree : mmp.inotree = .node left p.mip right
  sorted : (left.toList ++ p.mip :: right.toList).Pairwise fun a b => a.inode < b.inode
  known : ∀ ino, ino ≠ p.mip.inode →
    ((∃ other ∈ left.toList ++ right.toList, other.inode = ino) ↔ ∃ r ∈ seen, r.dip.inode = ino)
  others : ∀ other ∈ left.toList ++ right.toList,
    ∃ entered, part other.inode seen = some ⟨other, entered⟩
  here : part p.mip.inode seen = some p

theorem Looked.distinct {left right : Splay.Tree Inode} (h : Looked seen mmp p left right) :
    ∀ other ∈ left.toList ++ right.toList, other.inode ≠ p.mip.inode := by
  intro other hother heq
  obtain ⟨-, hcons, hcross⟩ := pairwise_append.mp h.sorted
  have hlt : other.inode < p.mip.inode ∨ p.mip.inode < other.inode := by
    rcases List.mem_append.mp hother with hother | hother
    · exact .inl (hcross other hother p.mip (by simp))
    · exact .inr ((pairwise_cons.mp hcons).1 other hother)
  rw [heq, or_self] at hlt
  exact UInt64.lt_irrefl _ hlt

theorem inode_looked (h : Shows seen mmp) (ino : UInt64) :
    ∃ p inotree left right, p.mip.inode = ino ∧ Looked seen { mmp with inotree } p left right ∧
      (mmp.inolookup ino = (some p.mip, { mmp with inotree }) ∨
        ∃ inotree', mmp.inolookup ino = (none, { mmp with inotree := inotree' }) ∧
          inocreate { mmp with inotree := inotree' } ino = (p.mip, { mmp with inotree })) := by
  have hlist := toList_find inodeCmp mmp.inotree ⟨ino, 0, .nil⟩
  have hlookup : mmp.inolookup ino = ((mmp.inotree.find inodeCmp ⟨ino, 0, .nil⟩).1,
    { mmp with inotree := (mmp.inotree.find inodeCmp ⟨ino, 0, .nil⟩).2 }) := rfl
  cases hfound : (mmp.inotree.find inodeCmp ⟨ino, 0, .nil⟩).1 with
  | some mip =>
    obtain ⟨hin, hcmp⟩ := find_some hfound
    obtain ⟨left, right, hroot⟩ := find_root hfound
    rw [inodeCmp_eq, compare_eq_iff_eq, UInt64.toNat_inj] at hcmp
    rw [hroot] at hlist hlookup
    rw [toList] at hlist
    obtain ⟨entered, hpart⟩ := h.inodes mip hin
    refine ⟨⟨mip, entered⟩, .node left mip right, left, right, hcmp.symm, ⟨rfl, ?_, ?_, ?_, hpart⟩,
      .inl (by rw [hlookup, hfound])⟩
    · rw [hlist]
      exact h.sorted
    · intro other hne
      rw [← h.known other, ← hlist]
      simp only [List.mem_append, mem_cons]
      constructor
      · rintro ⟨x, hx, rfl⟩
        exact ⟨x, by tauto, rfl⟩
      · rintro ⟨x, hx, rfl⟩
        exact ⟨x, by tauto, rfl⟩
    · intro other hother
      apply h.inodes
      rw [← hlist]
      simp only [List.mem_append] at hother ⊢
      tauto
  | none =>
    have hsplits : ∀ tree : Splay.Tree Inode, tree.toList = mmp.inotree.toList →
        Splits (inodeCmp ⟨ino, 0, .nil⟩) tree.toList := by
      intro tree htree
      rw [htree]
      exact inode_splits _ h.sorted
    have hnone : ∀ other ∈ mmp.inotree.toList, inodeCmp ⟨ino, 0, .nil⟩ other ≠ .eq :=
      find_none (hsplits _ rfl).guides hfound
    have hunseen : ∀ r ∈ seen, r.dip.inode ≠ ino := by
      intro r hr heq
      obtain ⟨other, hother, hino⟩ := (h.known ino).mpr ⟨r, hr, heq⟩
      apply hnone other hother
      rw [inodeCmp_eq, compare_eq_iff_eq, hino]
    obtain ⟨first, second, left, right, hsame, hins, rfl, rfl, hfirst, hsecond⟩ :=
      insert_spec (hsplits _ hlist) (by rw [hlist]; exact hnone)
    rw [hlist] at hsame
    refine ⟨⟨⟨ino, 0, .nil⟩, []⟩, .node left ⟨ino, 0, .nil⟩ right, left, right, rfl,
      ⟨rfl, ?_, ?_, ?_, part_unseen hunseen⟩, .inr ⟨_, by rw [hlookup, hfound], ?_⟩⟩
    · have hsorted := h.sorted
      rw [hsame] at hsorted
      obtain ⟨hleft, hright, hcross⟩ := pairwise_append.mp hsorted
      rw [pairwise_append, pairwise_cons]
      refine ⟨hleft, ⟨?_, hright⟩, ?_⟩
      · intro other hother
        have hlt := hsecond other hother
        rw [inodeCmp_eq, compare_lt_iff_lt] at hlt
        exact UInt64.lt_iff_toNat_lt.mpr hlt
      · intro other hother
        refine forall_mem_cons.mpr ⟨?_, hcross other hother⟩
        have hgt := hfirst other hother
        rw [inodeCmp_eq, compare_gt_iff_gt] at hgt
        exact UInt64.lt_iff_toNat_lt.mpr hgt
    · intro other _
      rw [← h.known other, ← hsame]
    · intro other hother
      apply h.inodes
      rw [hsame]
      exact hother
    · unfold inocreate
      dsimp only
      rw [hins]

theorem Looked.shows {p' : Part} {left right : Splay.Tree Inode} {bmap : ℕ → ℕ → Tty.Byte}
    (h : Looked seen mmp p left right) (hinode : r.dip.inode = p.mip.inode)
    (hscan : p.scan r = some p')
    (hbits : ∀ cg blk, bitAt (bmap cg) blk = true ↔
      (∃ ino p, part ino seen = some p ∧ ∃ r ∈ p.entered, r.cg = cg ∧ r.blk = blk) ∨
        ∃ s ∈ p'.entered, s.cg = cg ∧ s.blk = blk) :
    Shows (seen ++ [r]) ⟨mmp.inotree.modifyRoot fun _ => p'.mip, bmap⟩ := by
  have hinode' := Part.scan_inode hscan
  have hpart : ∀ ino, part ino (seen ++ [r]) =
      if ino = p.mip.inode then some p' else part ino seen := by
    intro ino
    rw [part_concat, hinode]
    by_cases hino : p.mip.inode = ino
    · subst hino
      simp [h.here, hscan]
    · simp [hino, Ne.symm hino]
  have htree : (mmp.inotree.modifyRoot fun _ => p'.mip).toList =
      left.toList ++ p'.mip :: right.toList := by
    rw [h.tree]
    rfl
  refine ⟨?_, ?_, ?_, ?_⟩
  · rw [htree]
    have hsorted := h.sorted
    rw [pairwise_append, pairwise_cons] at hsorted ⊢
    rw [hinode']
    refine ⟨hsorted.1, hsorted.2.1, ?_⟩
    intro other hother after hafter
    rcases mem_cons.mp hafter with rfl | hafter
    · rw [hinode']
      exact hsorted.2.2 other hother p.mip (by simp)
    · exact hsorted.2.2 other hother after (by simp [hafter])
  · intro ino
    rw [htree]
    by_cases hino : ino = p.mip.inode
    · constructor
      · intro _
        exact ⟨r, by simp, hinode.trans hino.symm⟩
      · intro _
        exact ⟨p'.mip, by simp, hinode'.trans hino.symm⟩
    · constructor
      · rintro ⟨other, hother, rfl⟩
        have hin : other ∈ left.toList ++ right.toList := by
          simp only [List.mem_append, mem_cons] at hother ⊢
          rcases hother with hother | rfl | hother
          · exact .inl hother
          · exact absurd hinode' hino
          · exact .inr hother
        obtain ⟨s, hs, hs'⟩ := (h.known _ hino).mp ⟨other, hin, rfl⟩
        exact ⟨s, by simp [hs], hs'⟩
      · rintro ⟨s, hs, rfl⟩
        rcases List.mem_append.mp hs with hs | hs
        · obtain ⟨other, hother, hother'⟩ := (h.known _ hino).mpr ⟨s, hs, rfl⟩
          refine ⟨other, ?_, hother'⟩
          simp only [List.mem_append] at hother ⊢
          tauto
        · rw [mem_singleton.mp hs] at hino
          exact absurd hinode hino
  · intro other hother
    rw [hpart]
    rw [htree, List.mem_append, mem_cons, or_left_comm] at hother
    rcases hother with rfl | hother
    · exact ⟨p'.entered, if_pos hinode'⟩
    · have hin := List.mem_append.mpr hother
      rw [if_neg (h.distinct other hin)]
      exact h.others other hin
  · intro cg blk
    rw [hbits]
    simp only [hpart]
    constructor
    · rintro (⟨ino, q, hq, s, hs, hplace⟩ | hs)
      · by_cases hino : ino = p.mip.inode
        · refine ⟨ino, p', if_pos hino, s, ?_, hplace⟩
          rw [hino, h.here] at hq
          cases hq
          rcases Part.scan_entered hscan with heq | heq <;> simp [heq, hs]
        · exact ⟨ino, q, by rwa [if_neg hino], s, hs, hplace⟩
      · exact ⟨p.mip.inode, p', if_pos rfl, hs⟩
    · rintro ⟨ino, q, hq, hs⟩
      split_ifs at hq with hino
      · cases hq
        exact .inr hs
      · exact .inl ⟨ino, q, hq, hs⟩

variable {g : Geometry}

theorem scanRecord_shows (hblk : r.blk < g.blkpercg) (hsize : r.dip.size ≠ 0)
    (h : Shows seen mmp) :
    (scanRecord g mmp r = .error .panic ∧ part r.dip.inode (seen ++ [r]) = none) ∨
      ∃ mmp', scanRecord g mmp r = .ok mmp' ∧ Shows (seen ++ [r]) mmp' := by
  obtain ⟨p, inotree, left, right, hino, hlooked, hlookup⟩ := inode_looked h r.dip.inode
  have heq : scanRecord g mmp r = scanblk g { mmp with inotree } p.mip r.dip r.cg r.blk := by
    rw [scanRecord, scanEntry, if_neg hsize]
    rcases hlookup with hlookup | ⟨inotree', hlookup, hcreate⟩
    · rw [hlookup]
    · rw [hlookup]
      dsimp only
      rw [hcreate]
  have hentered : ∀ s ∈ p.entered, bitAt (mmp.bmap s.cg) s.blk = true := fun s hs =>
    (h.bits s.cg s.blk).mpr ⟨_, p, hlooked.here, s, hs, rfl, rfl⟩
  rw [heq]
  rcases scanblk_part { mmp with inotree } hblk hino.symm hentered with
    ⟨hnone, hscan⟩ | ⟨p', bmap, hsome, hscan, hbits⟩
  · refine .inl ⟨hscan, ?_⟩
    rw [part_concat, if_pos rfl, ← hino, hlooked.here]
    exact hnone
  · refine .inr ⟨_, hscan, hlooked.shows hino.symm hsome fun cg blk => ?_⟩
    rw [hbits, h.bits]

theorem fold_shows {rest : List Record}
    (hplaces : ∀ r ∈ rest, r.blk < g.blkpercg ∧ r.dip.size ≠ 0) (h : Shows seen mmp) :
    (rest.foldlM (scanRecord g) mmp = .error .panic ∧ ∃ ino, part ino (seen ++ rest) = none) ∨
      ∃ mmp', rest.foldlM (scanRecord g) mmp = .ok mmp' ∧ Shows (seen ++ rest) mmp' := by
  induction rest generalizing seen mmp with
  | nil => exact .inr ⟨mmp, rfl, by rwa [append_nil]⟩
  | cons r rest ih =>
    obtain ⟨hblk, hsize⟩ := hplaces r (by simp)
    rw [foldlM_cons, append_cons]
    rcases scanRecord_shows hblk hsize h with ⟨hscan, hnone⟩ | ⟨mmp', hscan, h'⟩
    · rw [hscan]
      exact .inl ⟨rfl, r.dip.inode, by rw [part_append, hnone]; rfl⟩
    · rw [hscan]
      exact ih (fun s hs => hplaces s (by simp [hs])) h'

theorem shows_empty : Shows [] empty where
  sorted := List.Pairwise.nil
  known := by simp [empty, toList]
  inodes := by simp [empty, toList]
  bits := by
    intro cg blk
    constructor
    · intro hbit
      simp [empty, bitAt] at hbit
    · rintro ⟨ino, p, hp, r, hr, -⟩
      cases hp
      cases hr

variable {tables : ℕ → Table} {bread : ℕ → Option Table}

/-- The scan of the tables that are read. -/
theorem scancg_shows (hread : ∀ cg < g.ncg.toNat, bread (g.cgblk cg) = some (tables cg)) :
    (scancg g bread empty = .error .panic ∧ ∃ ino, part ino (records g tables) = none) ∨
      ∃ mmp, scancg g bread empty = .ok mmp ∧ Shows (records g tables) mmp := by
  rw [scancg_eq hread]
  refine fold_shows (fun r hr => ?_) shows_empty
  obtain ⟨-, -, hblk, -, hsize⟩ := mem_records.mp hr
  exact ⟨by omega, hsize⟩

end AerieKernel.Milfs
