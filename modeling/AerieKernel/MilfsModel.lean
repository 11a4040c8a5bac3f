import AerieKernel.SplayTrees
import AerieKernel.ClistModel

/-!
# Mounting a MILFS

The model of the scan of `milfs_subr.c` that rebuilds the inode and block trees from the
tables of dynamic inodes, one at the end of each cylinder group, and of the search for a
free block.  Machine arithmetic is kept: block offsets are cut to 32 bits and the
addresses of the tables are computed in 32 bits.
-/

namespace AerieKernel.Milfs

open Tty (Byte setbit clrbit)

structure Dinode where
  inode : UInt64
  offset : UInt64
  modsec : Int32
  modusec : Int32
  gen : UInt32
  size : UInt32
  deriving DecidableEq

structure Block where
  inode : UInt64
  offset : UInt32
  blksize : UInt32
  cgno : ℕ
  cgblk : ℕ
  modsec : Int32
  modusec : Int32
  gen : UInt32
  deriving DecidableEq

/-- `struct milfs_inode`, as far as the scan uses it. -/
structure Inode where
  inode : UInt64
  size : UInt64
  blktree : Splay.Tree Block

/-- The last block of a cylinder group; its last entry is the descriptor. -/
structure Table where
  dip : ℕ → Dinode
  magic : UInt32

def cgdescMagic : UInt32 := 0x15ec0a92

/-- What `milfs_mountfs` finds out: `2 ^ cgbits` is the size of a cylinder group. -/
structure Geometry where
  cgbits : ℕ
  odd : cgbits % 2 = 1
  low : 13 ≤ cgbits
  high : cgbits < 32
  ncg : UInt32

namespace Geometry

variable (g : Geometry)

def cgsize : UInt32 := 1 <<< UInt32.ofNat g.cgbits

def bsize : UInt32 := 1 <<< UInt32.ofNat ((5 + g.cgbits) / 2)

def blkpercg : ℕ := (g.cgsize / g.bsize).toNat

def cgblk (cg : ℕ) : ℕ :=
  ((0x2000 + (UInt32.ofNat (cg + 1) * g.cgsize - g.bsize)) >>> 9).toNat

end Geometry

/-- `struct milfs_mount`; the bitmaps have `mm_blkpercg / NBBY` bytes. -/
structure Mount where
  inotree : Splay.Tree Inode
  bmap : ℕ → ℕ → Byte

inductive Stop where
  | error
  | panic
  | astray
  deriving DecidableEq

/-! ## Comparisons -/

def blockCmp (mbp₁ mbp₂ : Block) : Ordering :=
  if mbp₁.offset < mbp₂.offset then
    if mbp₁.blksize > mbp₂.blksize then .eq else .lt
  else if mbp₁.offset > mbp₂.offset then
    if mbp₂.blksize > mbp₁.blksize then .eq else .gt
  else .eq

def inodeCmp (mip₁ mip₂ : Inode) : Ordering :=
  if mip₁.inode > mip₂.inode then .gt
  else if mip₁.inode < mip₂.inode then .lt
  else .eq

/-- `milfs_blkisnew`, without an outcome if it panics. -/
def blkisnew (dip : Dinode) (mbp : Block) : Option Bool :=
  if dip.gen > mbp.gen then some true
  else if dip.gen < mbp.gen then some false
  else if dip.modsec > mbp.modsec then some true
  else if dip.modsec < mbp.modsec then some false
  else if dip.modusec > mbp.modusec then some true
  else if dip.modusec < mbp.modusec then some false
  else none

/-! ## Inodes and blocks -/

/-- `milfs_inolookup`; an inode that is found is the root of the tree. -/
def Mount.inolookup (mmp : Mount) (ino : UInt64) : Option Inode × Mount :=
  let (mip, inotree) := mmp.inotree.find inodeCmp ⟨ino, 0, .nil⟩
  (mip, { mmp with inotree })

/-- `milfs_inocreate`; the new inode is the root of the tree. -/
def Mount.inocreate (mmp : Mount) (ino : UInt64) : Inode × Mount :=
  let mip : Inode := ⟨ino, 0, .nil⟩
  (mip, { mmp with inotree := (mmp.inotree.insert inodeCmp mip).2 })

def Mount.setInode (mmp : Mount) (mip : Inode) : Mount :=
  { mmp with inotree := mmp.inotree.modifyRoot fun _ => mip }

def Inode.blklookup (mip : Inode) (offset size : UInt32) : Option Block × Inode :=
  let mb : Block := ⟨0, offset, size, 0, 0, 0, 0, 0⟩
  let (mbp, blktree) := mip.blktree.find blockCmp mb
  (mbp, { mip with blktree })

/-- `milfs_blkcreate`.  The caller sets the remaining fields of the block after it has
been inserted; no comparison reads them. -/
def Inode.blkcreate (mip : Inode) (mbp : Block) : Inode :=
  { mip with
    blktree := (mip.blktree.insert blockCmp mbp).2
    size := mip.size + mbp.blksize.toUInt64 }

def Inode.blkdelete (mip : Inode) (mbp : Block) : Inode :=
  { mip with
    blktree := (mip.blktree.remove blockCmp mbp).2
    size := mip.size - mbp.blksize.toUInt64 }

/-! ## The scan -/

variable (g : Geometry) (mmp : Mount)

def Mount.modifyBits (cg : ℕ) (f : ℕ → (ℕ → Byte) → Option (ℕ → Byte)) : Except Stop Mount :=
  match f (g.blkpercg / 8) (mmp.bmap cg) with
  | some map => .ok { mmp with bmap := Function.update mmp.bmap cg map }
  | none => .error .astray

def enterBlock (mip : Inode) (dip : Dinode) (cg blk : ℕ) : Except Stop Mount :=
  let mbp : Block :=
    { inode := mip.inode, offset := dip.offset.toUInt32, blksize := dip.size,
      cgno := cg, cgblk := blk, modsec := dip.modsec, modusec := dip.modusec,
      gen := dip.gen }
  (mmp.setInode (mip.blkcreate mbp)).modifyBits g cg fun size map => setbit size map blk

def scanblk (mip : Inode) (dip : Dinode) (cg blk : ℕ) : Except Stop Mount :=
  match mip.blklookup dip.offset.toUInt32 dip.size with
  | (none, mip) => enterBlock g mmp mip dip cg blk
  | (some mbp, mip) =>
    match blkisnew dip mbp with
    | none => .error .panic
    | some false => .ok (mmp.setInode mip)
    | some true => do
        -- the bit of the new block is cleared, not that of `mbp`
        let mmp ← mmp.modifyBits g cg fun size map => clrbit size map blk
        enterBlock g mmp (mip.blkdelete mbp) dip cg blk

def scanEntry (cg : ℕ) (mmp : Mount) (blk : ℕ) (dip : Dinode) : Except Stop Mount :=
  if dip.size = 0 then .ok mmp
  else
    match mmp.inolookup dip.inode with
    | (some mip, mmp) => scanblk g mmp mip dip cg blk
    | (none, mmp) =>
      let (mip, mmp) := mmp.inocreate dip.inode
      scanblk g mmp mip dip cg blk

def scanino (table : Table) (cg : ℕ) : Except Stop Mount :=
  if table.magic ≠ cgdescMagic then .ok mmp
  else
    (List.range (g.blkpercg - 1)).foldlM (fun mmp i => scanEntry g cg mmp i (table.dip i)) mmp

/-- `milfs_scancg`, where `bread` gives no table if the block cannot be read. -/
def scancg (bread : ℕ → Option Table) (mmp : Mount) : Except Stop Mount :=
  (List.range g.ncg.toNat).foldlM
    (fun mmp i =>
      match bread (g.cgblk i) with
      | none => .error .error
      | some table => scanino g mmp table i)
    mmp

def Mount.empty : Mount := ⟨.nil, fun _ _ => 0⟩

/-! ## Free blocks -/

/-- The inner loop of `milfs_getfreeblk`, `count` bits before its end. -/
def lowestBit : ℕ → ℕ → Byte → Option ℕ
  | 0, _, _ => none
  | count + 1, j, nzeros =>
    if nzeros &&& 1 = 1 then some j else lowestBit count (j + 1) (nzeros >>> 1)

def freeFrom (map : ℕ → Byte) : ℕ → ℕ → Option ℕ
  | 0, _ => none
  | count + 1, i =>
    let nzeros := map i ^^^ 0xff
    if nzeros = 0 then freeFrom map count (i + 1)
    else
      match lowestBit 8 0 nzeros with
      | some j => some (i * 8 + j)
      | none => freeFrom map count (i + 1)

/-- `milfs_getfreeblk`; `none` is -1. -/
def Mount.getfreeblk (cg : ℕ) : Option ℕ :=
  freeFrom (mmp.bmap cg) (g.blkpercg / 8) 0

end AerieKernel.Milfs
