import Mathlib.Data.List.FinRange
import EasyKernels.Lib.Bits
import EasyKernels.Xv6.Param

/-!
# The on-disk format of `fs.h`

The disk as the file system sees it through the buffer cache: an array of blocks. `readsb` reads
the super block, `readDinode` and `writeDinode` the inode of a number in the inode blocks, `bmapBit`
the free-map bit of a block. `Layout` is how `mkfs` places the parts: inode blocks, then the free
map, then the data blocks up to the end of the file system.

The lemmas say what the views give after a write: a written inode reads back
(`readDinode_writeDinode_self`), the other inodes and everything outside its block are kept, and a
change of one bit of the free map keeps the others.
-/

set_option autoImplicit false

namespace EasyKernels.Xv6

open Nat List Function Lib.Bytes

/-! ### Constants -/

/-- `NDIRECT`. -/
def nDirect : ℕ := 12

/-- `NINDIRECT`: the number of block numbers in a block. -/
def nIndirect : ℕ := bSize / 4

/-- `MAXFILE`: the largest number of blocks of a file. -/
def maxFile : ℕ := nDirect + nIndirect

/-- `IPB`: the number of inodes in a block. -/
def ipb : ℕ := bSize / 64

/-- `BPB`: the number of bits in a block. -/
def bpb : ℕ := bSize * 8

/-- `T_DIR`. -/
def tDir : UInt16 := 1

/-- `T_FILE`. -/
def tFile : UInt16 := 2

/-- `T_DEV`. -/
def tDev : UInt16 := 3

/-- The blocks of the disk. -/
abbrev Disk := ℕ → Block

/-! ### The super block -/

/-- `struct superblock`. -/
structure SuperBlock where
  size : ℕ
  nblocks : ℕ
  ninodes : ℕ
  nlog : ℕ
  logstart : ℕ
  inodestart : ℕ
  bmapstart : ℕ
  deriving DecidableEq, Repr

def readsb (d : Disk) : SuperBlock where
  size := (d 1).field 0 4
  nblocks := (d 1).field 4 4
  ninodes := (d 1).field 8 4
  nlog := (d 1).field 12 4
  logstart := (d 1).field 16 4
  inodestart := (d 1).field 20 4
  bmapstart := (d 1).field 24 4

variable {d d' : Disk} {sb : SuperBlock} {inum b off : ℕ}

theorem readsb_congr (h : d' 1 = d 1) : readsb d' = readsb d := by
  simp only [readsb, h]

/-- The first data block. -/
def SuperBlock.datastart (sb : SuperBlock) : ℕ := sb.size - sb.nblocks

/-- `IBLOCK`: the block that holds an inode. -/
def SuperBlock.iblock (sb : SuperBlock) (inum : ℕ) : ℕ := inum / ipb + sb.inodestart

/-- `BBLOCK`: the block of the free map that holds the bit of a block. -/
def SuperBlock.bblock (sb : SuperBlock) (b : ℕ) : ℕ := b / bpb + sb.bmapstart

/-- The parts of the disk follow each other as `mkfs` places them. -/
structure Layout (sb : SuperBlock) : Prop where
  super_lt : 1 < sb.inodestart
  inodes_lt : sb.ninodes / ipb + sb.inodestart < sb.bmapstart
  bitmap_lt : sb.size / bpb + sb.bmapstart < sb.datastart
  size_lt : sb.size < 2 ^ 31

/-- The data blocks. -/
def SuperBlock.data (sb : SuperBlock) : Set ℕ := { b | sb.datastart ≤ b ∧ b < sb.size }

/-- The blocks of the free map. -/
def SuperBlock.bitmap (sb : SuperBlock) : Set ℕ := { b | sb.bmapstart ≤ b ∧ b < sb.datastart }

section

variable (h : Layout sb)

include h

theorem Layout.iblock_lt (hi : inum < sb.ninodes) : sb.iblock inum < sb.bmapstart := by
  have hdiv : inum / ipb ≤ sb.ninodes / ipb := Nat.div_le_div_right hi.le
  have hlt := h.inodes_lt
  unfold SuperBlock.iblock
  omega

theorem Layout.bblock_mem (hb : b < sb.size) : sb.bblock b ∈ sb.bitmap := by
  have hdiv : b / bpb ≤ sb.size / bpb := Nat.div_le_div_right hb.le
  have hlt := h.bitmap_lt
  constructor
  · exact le_add_left _ _
  · unfold SuperBlock.bblock
    omega

theorem Layout.iblock_notMem_bitmap (hi : inum < sb.ninodes) : sb.iblock inum ∉ sb.bitmap :=
  fun hmem ↦ (not_le.mpr (h.iblock_lt hi)) hmem.1

theorem Layout.one_lt_bmapstart : 1 < sb.bmapstart :=
  h.super_lt.trans (lt_of_le_of_lt (le_add_left _ _) h.inodes_lt)

theorem Layout.bmapstart_lt : sb.bmapstart < sb.datastart :=
  lt_of_le_of_lt (le_add_left _ _) h.bitmap_lt

end

/-! ### Inodes -/

/-- `struct dinode`; the short fields are kept as their 16 bits. -/
@[ext]
structure Dinode where
  type : UInt16
  major : UInt16
  minor : UInt16
  nlink : UInt16
  size : UInt32
  addrs : Fin (nDirect + 1) → UInt32

/-- The inode that `memset` leaves. -/
def Dinode.zero : Dinode where
  type := 0
  major := 0
  minor := 0
  nlink := 0
  size := 0
  addrs := fun _ ↦ 0

/-- The inode at an offset of a block. -/
def Dinode.decode (bp : Block) (off : ℕ) : Dinode where
  type := UInt16.ofNat (bp.field off 2)
  major := UInt16.ofNat (bp.field (off + 2) 2)
  minor := UInt16.ofNat (bp.field (off + 4) 2)
  nlink := UInt16.ofNat (bp.field (off + 6) 2)
  size := UInt32.ofNat (bp.field (off + 8) 4)
  addrs := fun k ↦ UInt32.ofNat (bp.field (off + 12 + 4 * k) 4)

variable (dip : Dinode)

/-- The fields of an inode at an offset: offset, width and value of each. -/
def Dinode.fields (off : ℕ) : List (ℕ × ℕ × ℕ) :=
  [(off, 2, dip.type.toNat), (off + 2, 2, dip.major.toNat), (off + 4, 2, dip.minor.toNat),
    (off + 6, 2, dip.nlink.toNat), (off + 8, 4, dip.size.toNat)] ++
    (List.finRange (nDirect + 1)).map fun k ↦ (off + 12 + 4 * k.val, 4, (dip.addrs k).toNat)

/-- The inode `ilock` reads. -/
def readDinode (sb : SuperBlock) (d : Disk) (inum : ℕ) : Dinode :=
  Dinode.decode (d (sb.iblock inum)) (inum % ipb * 64)

/-- The disk after `iupdate` has stored an inode. -/
def writeDinode (sb : SuperBlock) (d : Disk) (inum : ℕ) (dip : Dinode) : Disk :=
  update d (sb.iblock inum)
    ((d (sb.iblock inum)).putFields (dip.fields (inum % ipb * 64)))

open Dinode

theorem Dinode.mem_fields {dip : Dinode} {f : ℕ × ℕ × ℕ} (h : f ∈ dip.fields off) :
    off ≤ f.1 ∧ f.1 + f.2.1 ≤ off + 64 := by
  simp only [fields, cons_append, nil_append, mem_cons, mem_map] at h
  rcases h with rfl | rfl | rfl | rfl | rfl | ⟨k, -, rfl⟩
  all_goals simp only
  · omega
  · omega
  · omega
  · omega
  · omega
  · have hk : k.val < 13 := k.isLt
    omega

theorem Dinode.pairwise_fields (off : ℕ) :
    (dip.fields off).Pairwise fun f g ↦ f.1 + f.2.1 ≤ g.1 := by
  refine pairwise_append.mpr ⟨by simp, ?_, fun f hf g hg ↦ ?_⟩
  · rw [pairwise_map]
    refine (pairwise_lt_finRange _).imp fun {j k} hjk ↦ ?_
    simp only
    omega
  · obtain ⟨k, -, rfl⟩ := mem_map.mp hg
    simp only [mem_cons, not_mem_nil, or_false] at hf
    rcases hf with rfl | rfl | rfl | rfl | rfl <;> simp only <;> omega

/-- A field of a stored inode reads back. -/
theorem Dinode.field_putFields {dip : Dinode} {bp : Block} {start width value : ℕ}
    (hoff : off + 64 ≤ bSize) (hmem : (start, width, value) ∈ dip.fields off)
    (hvalue : value < 256 ^ width) : (bp.putFields (dip.fields off)).field start width = value :=
  field_putFields_of_mem (dip.pairwise_fields off) hmem
    ((mem_fields hmem).2.trans hoff) hvalue

theorem Dinode.decode_putFields (bp : Block) (hoff : off + 64 ≤ bSize) :
    decode (bp.putFields (dip.fields off)) off = dip := by
  have hshort : ∀ {start : ℕ} {value : UInt16}, (start, 2, value.toNat) ∈ dip.fields off →
      UInt16.ofNat ((bp.putFields (dip.fields off)).field start 2) = value := by
    intro start value hmem
    rw [field_putFields hoff hmem value.toNat_lt, UInt16.ofNat_toNat]
  have hlong : ∀ {start : ℕ} {value : UInt32}, (start, 4, value.toNat) ∈ dip.fields off →
      UInt32.ofNat ((bp.putFields (dip.fields off)).field start 4) = value := by
    intro start value hmem
    rw [field_putFields hoff hmem value.toNat_lt, UInt32.ofNat_toNat]
  ext1
  iterate 4 exact hshort (by simp [fields])
  · exact hlong (by simp [fields])
  · funext k
    exact hlong (mem_append_right _ (mem_map.mpr ⟨k, mem_finRange k, rfl⟩))

/-- An inode in another place of the block is kept. -/
theorem Dinode.decode_putFields_of_ne (bp : Block) {i j : ℕ} (hij : i ≠ j) :
    decode (bp.putFields (dip.fields (i * 64))) (j * 64) =
      decode bp (j * 64) := by
  have hkeep : ∀ {start width : ℕ}, j * 64 ≤ start → start + width ≤ j * 64 + 64 →
      (bp.putFields (dip.fields (i * 64))).field start width = bp.field start width := by
    intro start width hlow hhigh
    refine field_putFields_of_disjoint fun f hf ↦ ?_
    have hf' := mem_fields hf
    omega
  have hk : ∀ k : Fin (nDirect + 1), k.val < 13 := fun k ↦ k.isLt
  ext1
  · simp only [decode, hkeep le_rfl (show j * 64 + 2 ≤ j * 64 + 64 by omega)]
  · simp only [decode,
      hkeep (show j * 64 ≤ j * 64 + 2 by omega) (show j * 64 + 2 + 2 ≤ j * 64 + 64 by omega)]
  · simp only [decode,
      hkeep (show j * 64 ≤ j * 64 + 4 by omega) (show j * 64 + 4 + 2 ≤ j * 64 + 64 by omega)]
  · simp only [decode,
      hkeep (show j * 64 ≤ j * 64 + 6 by omega) (show j * 64 + 6 + 2 ≤ j * 64 + 64 by omega)]
  · simp only [decode,
      hkeep (show j * 64 ≤ j * 64 + 8 by omega) (show j * 64 + 8 + 4 ≤ j * 64 + 64 by omega)]
  · funext k
    have hlt := hk k
    simp only [decode, hkeep (show j * 64 ≤ j * 64 + 12 + 4 * k.val by omega)
      (show j * 64 + 12 + 4 * k.val + 4 ≤ j * 64 + 64 by omega)]

theorem inodeOffset_le (inum : ℕ) : inum % ipb * 64 + 64 ≤ bSize := by
  have hmod : inum % ipb < 8 := mod_lt inum (by decide)
  have hsize : bSize = 512 := rfl
  omega

@[simp] theorem readDinode_writeDinode_self (sb : SuperBlock) (d : Disk) (inum : ℕ)
    (dip : Dinode) : readDinode sb (writeDinode sb d inum dip) inum = dip := by
  rw [readDinode, writeDinode, update_self]
  exact decode_putFields dip _ (inodeOffset_le inum)

theorem readDinode_writeDinode_of_ne (sb : SuperBlock) (d : Disk) {other : ℕ} (dip : Dinode)
    (hne : other ≠ inum) :
    readDinode sb (writeDinode sb d inum dip) other = readDinode sb d other := by
  rw [readDinode, readDinode, writeDinode]
  by_cases hblock : sb.iblock other = sb.iblock inum
  · have hslot : inum % ipb ≠ other % ipb := by
      intro heq
      have hdiv : other / ipb = inum / ipb := by
        unfold SuperBlock.iblock at hblock
        omega
      rw [← div_add_mod other ipb, ← div_add_mod inum ipb, hdiv, heq] at hne
      exact hne rfl
    rw [hblock, update_self]
    exact decode_putFields_of_ne dip _ hslot
  · rw [update_of_ne hblock]

theorem readDinode_congr (h : d' (sb.iblock inum) = d (sb.iblock inum)) :
    readDinode sb d' inum = readDinode sb d inum := by
  rw [readDinode, readDinode, h]

theorem writeDinode_of_ne (sb : SuperBlock) (d : Disk) {x : ℕ} (dip : Dinode)
    (hne : x ≠ sb.iblock inum) : writeDinode sb d inum dip x = d x :=
  update_of_ne hne _ _

/-! ### The free map -/

/-- The free-map bit of a block. -/
def bmapBit (sb : SuperBlock) (d : Disk) (b : ℕ) : Bool := (d (sb.bblock b)).bit (b % bpb)

theorem bmapBit_congr (h : d' (sb.bblock b) = d (sb.bblock b)) :
    bmapBit sb d' b = bmapBit sb d b := by
  rw [bmapBit, bmapBit, h]

private theorem bitIndex_inj {x : ℕ} (hblock : sb.bblock x = sb.bblock b) :
    x % bpb = b % bpb ↔ x = b := by
  unfold SuperBlock.bblock at hblock
  constructor
  · intro hmod
    rw [← div_add_mod x bpb, ← div_add_mod b bpb, hmod, show x / bpb = b / bpb by omega]
  · intro heq
    rw [heq]

private theorem bitIndex_lt (b : ℕ) : b % bpb < 8 * bSize := by
  have hlt := mod_lt b (show 0 < bpb by decide)
  rwa [mul_comm]

theorem bmapBit_setBit (sb : SuperBlock) (d : Disk) (b x : ℕ) :
    bmapBit sb (update d (sb.bblock b) ((d (sb.bblock b)).setBit (b % bpb))) x =
      if x = b then true else bmapBit sb d x := by
  by_cases hblock : sb.bblock x = sb.bblock b
  · rw [bmapBit, hblock, update_self, bit_setBit (bitIndex_lt b), bmapBit, hblock]
    simp only [bitIndex_inj hblock]
  · rw [bmapBit_congr (update_of_ne hblock _ _), if_neg fun heq ↦ hblock (by rw [heq])]

theorem bmapBit_clearBit (sb : SuperBlock) (d : Disk) (b x : ℕ) :
    bmapBit sb (update d (sb.bblock b) ((d (sb.bblock b)).clearBit (b % bpb))) x =
      if x = b then false else bmapBit sb d x := by
  by_cases hblock : sb.bblock x = sb.bblock b
  · rw [bmapBit, hblock, update_self, bit_clearBit (bitIndex_lt b), bmapBit, hblock]
    simp only [bitIndex_inj hblock]
  · rw [bmapBit_congr (update_of_ne hblock _ _), if_neg fun heq ↦ hblock (by rw [heq])]

attribute [irreducible] readDinode writeDinode bmapBit

end EasyKernels.Xv6
