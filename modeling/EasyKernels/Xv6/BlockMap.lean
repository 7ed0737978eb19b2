import Mathlib.Data.Finset.Card
import EasyKernels.Lib.Ownership
import EasyKernels.Xv6.DiskFormat

/-!
# Blocks of the disk and of files: `balloc`, `bfree`, `bmap`

The functions work on the disk and on the in-core copy of one inode, and stop with a `FsPanic` where
the source calls `panic`. A file's blocks hang on the `Slot`s of its inode, the entries of `addrs[]`
and those of the indirect block, and `Dinode.ref` reads the block number in a slot. `Sound` is the
invariant of the allocator over a table of inodes: every block number in a slot of an allocated
inode is a data block, no block is in two slots, and the free map has exactly these blocks and all
others before the data blocks marked.

`Grows` is what happens to an inode while slots of it are filled and its bytes are written, and it
composes: slots that were filled stay and the other files are as they were. `bmap` changes no byte
of any file (`bmap_spec`), because `balloc` gives out a block that no slot refers to and clears it
(`balloc_spec`).
-/

set_option autoImplicit false

namespace EasyKernels.Xv6

open Nat List Option Function Lib Lib.Bytes
open Finset hiding range mem_range

/-- The panics of `fs.c`. -/
inductive FsPanic
  | outOfBlocks
  | freeingFreeBlock
  | outOfRange
  | noInodes
  | igetNoInodes
  | ilock
  | noType
  deriving DecidableEq, Repr

/-! ### `balloc` and `bfree` -/

variable (sb : SuperBlock)

/-- The inner loop of `balloc` over a block of the free map. -/
def scanBits (bp : Block) (b : ℕ) : Option ℕ :=
  ((List.range bpb).find? fun bi ↦ b + bi < sb.size ∧ bp.bit bi = false).map (b + ·)

/-- The loops of `balloc`: the first block whose bit is clear. -/
def scanFree (d : Disk) : Option ℕ :=
  (List.range ((sb.size + bpb - 1) / bpb)).findSome? fun k ↦
    scanBits sb (d (sb.bblock (k * bpb))) (k * bpb)

def balloc (d : Disk) : Except FsPanic (ℕ × Disk) :=
  match scanFree sb d with
  | some b =>
    let d := update d (sb.bblock b) ((d (sb.bblock b)).setBit (b % bpb))
    .ok (b, update d b (zero bSize))
  | none => .error .outOfBlocks

def bfree (d : Disk) (b : ℕ) : Except FsPanic Disk :=
  let sb := readsb d
  if bmapBit sb d b = false then .error .freeingFreeBlock
  else .ok (update d (sb.bblock b) ((d (sb.bblock b)).clearBit (b % bpb)))

variable {sb : SuperBlock} {d d' : Disk} {ip : Dinode}

variable {b : ℕ}

theorem scanFree_eq_some (h : scanFree sb d = some b) : b < sb.size ∧ bmapBit sb d b = false := by
  obtain ⟨k, -, hk⟩ := exists_of_findSome?_eq_some h
  obtain ⟨bi, hbi, rfl⟩ := map_eq_some_iff.mp hk
  have hfound := find?_some hbi
  have hlt := mem_range.mp (mem_of_find?_eq_some hbi)
  simp only [decide_eq_true_eq] at hfound
  refine ⟨hfound.1, ?_⟩
  have hdiv : (k * bpb + bi) / bpb = k * bpb / bpb := by
    rw [Nat.mul_comm, Nat.mul_add_div (by decide), Nat.mul_div_cancel_left _ (by decide),
      div_eq_of_lt hlt, add_zero]
  have hmod : (k * bpb + bi) % bpb = bi := by
    rw [mul_comm, mul_add_mod, mod_eq_of_lt hlt]
  unfold bmapBit
  rw [SuperBlock.bblock, hdiv, hmod]
  exact hfound.2

theorem scanFree_eq_none (h : scanFree sb d = none) (hb : b < sb.size) : bmapBit sb d b = true := by
  have hk : b / bpb ∈ range ((sb.size + bpb - 1) / bpb) := by
    have hpos : 0 < bpb := by decide
    rw [mem_range, div_lt_iff_lt_mul hpos]
    have hceil := div_add_mod (sb.size + bpb - 1) bpb
    have hmod := mod_lt (sb.size + bpb - 1) hpos
    rw [mul_comm] at hceil
    omega
  have hnone := findSome?_eq_none_iff.mp h _ hk
  rw [scanBits, map_eq_none_iff, find?_eq_none] at hnone
  have hbit := hnone (b % bpb) (mem_range.mpr (mod_lt b (by decide)))
  have hsplit : b / bpb * bpb + b % bpb = b := div_add_mod' b bpb
  have hdiv : b / bpb * bpb / bpb = b / bpb := Nat.mul_div_cancel _ (by decide)
  simp only [decide_eq_true_eq, hsplit, not_and, Bool.not_eq_false, SuperBlock.bblock, hdiv] at hbit
  unfold bmapBit
  exact hbit hb

/-! ### The blocks of an inode -/

/-- The places of an inode that can hold a block number. -/
inductive Slot
  /-- An entry of `addrs[]`; the last one is for the indirect block. -/
  | addr (k : Fin (nDirect + 1))
  /-- An entry of the indirect block. -/
  | entry (j : Fin nIndirect)
  deriving DecidableEq

/-- A block number, where 0 stands for none. -/
def blockNumber (n : ℕ) : Option ℕ := if n = 0 then none else some n

/-- Entry `j` of the block numbers in block `a`. -/
def indirectEntry (d : Disk) (a j : ℕ) : ℕ := (d a).field (4 * j) 4

section

variable (ip : Dinode)

/-- The number of the indirect block. -/
def Dinode.indirect : ℕ := (ip.addrs (Fin.last nDirect)).toNat

/-- The block number in a slot. -/
def Dinode.ref (d : Disk) : Slot → Option ℕ
  | .addr k => blockNumber (ip.addrs k).toNat
  | .entry j => if ip.indirect = 0 then none else blockNumber (indirectEntry d ip.indirect j)

/-- The slot for a block of a file. -/
def slotOf (bn : ℕ) : Option Slot :=
  if h : bn < nDirect then some (.addr ⟨bn, h.trans (Nat.lt_succ_self _)⟩)
  else if h : bn - nDirect < nIndirect then some (.entry ⟨bn - nDirect, h⟩)
  else none

/-- The disk block of a block of a file. -/
def Dinode.block (d : Disk) (bn : ℕ) : Option ℕ := (slotOf bn).bind (ip.ref d)

/-- A byte of a file; a block that is not there reads as zeros. -/
def Dinode.byte (d : Disk) (i : ℕ) : UInt8 :=
  match ip.block d (i / bSize) with
  | some a => (d a).get (i % bSize)
  | none => 0

end

/-- The block numbers in the slots of the allocated inodes of a table. -/
def refs (sb : SuperBlock) (d : Disk) (table : ℕ → Dinode) (slot : ℕ × Slot) : Option ℕ :=
  if slot.1 < sb.ninodes ∧ (table slot.1).type ≠ 0 then (table slot.1).ref d slot.2 else none

/-- The invariant of the allocator, over a table of inodes. -/
structure Sound (sb : SuperBlock) (d : Disk) (table : ℕ → Dinode) : Prop where
  layout : Layout sb
  super : readsb d = sb
  owns : Owns (refs sb d table) (bmapBit sb d) sb.data
  /-- The blocks before the data blocks are marked. -/
  reserved : ∀ b < sb.datastart, bmapBit sb d b = true

variable {n j bn : ℕ} {table : ℕ → Dinode}

theorem blockNumber_eq_some : blockNumber n = some b ↔ n = b ∧ b ≠ 0 := by
  unfold blockNumber
  split_ifs with h
  · simp only [false_iff, not_and, not_not]
    rintro rfl
    exact h
  · simp only [some.injEq]
    exact ⟨fun heq ↦ ⟨heq, heq ▸ h⟩, And.left⟩

theorem blockNumber_eq_none : blockNumber n = none ↔ n = 0 := by
  simp [blockNumber]

open Dinode

/-- The slots of an inode depend on the indirect block alone. -/
theorem Dinode.ref_congr (h : ip.indirect ≠ 0 → d' ip.indirect = d ip.indirect) (s : Slot) :
    ip.ref d' s = ip.ref d s := by
  cases s with
  | addr k => rfl
  | entry j =>
    simp only [ref]
    split_ifs with hzero
    · rfl
    · rw [indirectEntry, indirectEntry, h hzero]

theorem Dinode.block_congr (h : ip.indirect ≠ 0 → d' ip.indirect = d ip.indirect) (bn : ℕ) :
    ip.block d' bn = ip.block d bn := by
  cases hslot : slotOf bn with
  | none => simp [block, hslot]
  | some s => simp [block, hslot, ref_congr h s]

theorem Dinode.ref_indirect {a : ℕ} :
    ip.ref d (.addr (Fin.last nDirect)) = some a ↔ ip.indirect = a ∧ a ≠ 0 :=
  blockNumber_eq_some

/-- An inode whose blocks keep their contents has the same slots and bytes. -/
theorem Dinode.same_of_blocks (hkeep : ∀ s x, ip.ref d s = some x → d' x = d x) :
    (∀ s, ip.ref d' s = ip.ref d s) ∧ ∀ i, ip.byte d' i = ip.byte d i := by
  have hindirect : ip.indirect ≠ 0 → d' ip.indirect = d ip.indirect :=
    fun hne ↦ hkeep _ _ (ref_indirect.mpr ⟨rfl, hne⟩)
  refine ⟨ref_congr hindirect, fun i ↦ ?_⟩
  rw [byte, byte, block_congr hindirect]
  cases hblock : ip.block d (i / bSize) with
  | none => rfl
  | some a =>
    obtain ⟨s, -, hs⟩ := bind_eq_some_iff.mp hblock
    simp only [hkeep s a hs]

theorem Sound.data_pos (h : Sound sb d table) : 0 < sb.datastart :=
  lt_of_le_of_lt (zero_le _) h.layout.bmapstart_lt

/-- What `balloc` returns: a data block that was free, now marked and cleared. -/
structure Allocated (sb : SuperBlock) (d : Disk) (b : ℕ) (d' : Disk) : Prop where
  mem_data : b ∈ sb.data
  free : bmapBit sb d b = false
  bit_eq : ∀ x < sb.size, bmapBit sb d' x = if x = b then true else bmapBit sb d x
  zero : d' b = Bytes.zero bSize
  frame : ∀ x, x ≠ b → x ∉ sb.bitmap → d' x = d x

/-- `balloc` returns a free block, marked and cleared, or there is none. -/
theorem balloc_spec (h : Sound sb d table) :
    (∃ b d', balloc sb d = .ok (b, d') ∧ Allocated sb d b d') ∨
      balloc sb d = .error .outOfBlocks ∧ ∀ b < sb.size, bmapBit sb d b = true := by
  cases hscan : scanFree sb d with
  | none => exact .inr ⟨by simp [balloc, hscan], fun b hb ↦ scanFree_eq_none hscan hb⟩
  | some b =>
    obtain ⟨hlt, hfree⟩ := scanFree_eq_some hscan
    have hdata : sb.datastart ≤ b := by
      by_contra hb
      rw [h.reserved b (by omega)] at hfree
      simp at hfree
    have hmap : ∀ x < sb.size, sb.bblock x ≠ b := by
      intro x hx heq
      have hmem := (h.layout.bblock_mem hx).2
      omega
    refine .inl ⟨b, _, by rw [balloc, hscan], ⟨hdata, hlt⟩, hfree, fun x hx ↦ ?_,
      update_self _ _ _, fun x hx hxmap ↦ ?_⟩
    · rw [bmapBit_congr (update_of_ne (hmap x hx) _ _), bmapBit_setBit]
    · rw [update_of_ne hx, update_of_ne]
      rintro rfl
      exact hxmap (h.layout.bblock_mem hlt)

/-! ### Filling slots -/

/-- The number of free blocks. -/
def freeBlocks (sb : SuperBlock) (d : Disk) : ℕ :=
  ((Finset.range sb.size).filter fun b ↦ bmapBit sb d b = false).card

/-- The slots of a set that hold no block number. -/
def Dinode.emptySlots (ip : Dinode) (d : Disk) (S : Finset Slot) : Finset Slot :=
  S.filter fun s ↦ ip.ref d s = none

/-- An inode and the disk before and after slots of a set `S` were filled and bytes of the file
changed to `bytes`: filled slots stay filled, the other files and the blocks before the free map are
as they were, and every free block that is gone fills a slot. -/
structure Grows (sb : SuperBlock) (table : ℕ → Dinode) (inum : ℕ) (S : Finset Slot) (ip : Dinode)
    (d : Disk) (ip' : Dinode) (d' : Disk) (bytes : ℕ → UInt8) : Prop where
  sound : Sound sb d' (update table inum ip')
  same : ip' = { ip with addrs := ip'.addrs }
  keep : ∀ s b, ip.ref d s = some b → ip'.ref d' s = some b
  byte_eq : ∀ i, ip'.byte d' i = bytes i
  others : ∀ j, j ≠ inum → j < sb.ninodes → (table j).type ≠ 0 →
    (∀ s, (table j).ref d' s = (table j).ref d s) ∧ ∀ i, (table j).byte d' i = (table j).byte d i
  frame : ∀ x < sb.bmapstart, d' x = d x
  count : freeBlocks sb d' + (ip.emptySlots d S).card =
    freeBlocks sb d + (ip'.emptySlots d' S).card
  idle : ip.emptySlots d S = ∅ → ip' = ip

variable {sb : SuperBlock} {table : ℕ → Dinode} {inum : ℕ} {S : Finset Slot}
  {ip ip' ip'' : Dinode} {d d' d'' : Disk} {bytes bytes' : ℕ → UInt8}

theorem Grows.refl (h : Sound sb d (update table inum ip)) :
    Grows sb table inum S ip d ip d (ip.byte d) where
  sound := h
  same := rfl
  keep := fun _ _ hs ↦ hs
  byte_eq := fun _ ↦ rfl
  others := fun _ _ _ _ ↦ ⟨fun _ ↦ rfl, fun _ ↦ rfl⟩
  frame := fun _ _ ↦ rfl
  count := rfl
  idle := fun _ ↦ rfl

theorem Grows.emptySlots_subset (h : Grows sb table inum S ip d ip' d' bytes) :
    ip'.emptySlots d' S ⊆ ip.emptySlots d S := by
  intro s hs
  simp only [emptySlots, Finset.mem_filter] at hs ⊢
  refine ⟨hs.1, ?_⟩
  cases href : ip.ref d s with
  | none => rfl
  | some b => simp [h.keep s b href] at hs

theorem Grows.trans (h : Grows sb table inum S ip d ip' d' bytes)
    (h' : Grows sb table inum S ip' d' ip'' d'' bytes') :
    Grows sb table inum S ip d ip'' d'' bytes' where
  sound := h'.sound
  same := by rw [h'.same, h.same]
  keep := fun s b hs ↦ h'.keep s b (h.keep s b hs)
  byte_eq := h'.byte_eq
  others := fun j hj hlt htype ↦ by
    obtain ⟨href, hbyte⟩ := h.others j hj hlt htype
    obtain ⟨href', hbyte'⟩ := h'.others j hj hlt htype
    exact ⟨fun s ↦ (href' s).trans (href s), fun i ↦ (hbyte' i).trans (hbyte i)⟩
  frame := fun x hx ↦ (h'.frame x hx).trans (h.frame x hx)
  count := by
    have hfirst := h.count
    have hsecond := h'.count
    omega
  idle := fun hempty ↦ by
    rw [h'.idle (subset_empty.mp (hempty ▸ h.emptySlots_subset)), h.idle hempty]

/-- The block in a slot of an allocated inode. -/
theorem refs_eq (hlt : j < sb.ninodes) (htype : (table j).type ≠ 0) (s : Slot) :
    refs sb d table (j, s) = (table j).ref d s :=
  if_pos ⟨hlt, htype⟩

theorem slotOf_ne_indirect {s : Slot} (h : slotOf bn = some s) : s ≠ .addr (Fin.last nDirect) := by
  unfold slotOf at h
  split_ifs at h with hdirect hentry
  · cases h
    simp only [ne_eq, Slot.addr.injEq, Fin.ext_iff, Fin.val_last]
    omega
  · cases h
    simp

theorem slotOf_inj {bn' : ℕ} {s : Slot} (h : slotOf bn = some s) (h' : slotOf bn' = some s) :
    bn = bn' := by
  unfold slotOf at h h'
  split_ifs at h h' with hdirect hdirect' hentry' hentry hdirect' hentry'
  all_goals
    cases h
    simp only [some.injEq, Slot.addr.injEq, Slot.entry.injEq, Fin.mk.injEq, reduceCtorEq] at h'
  · exact h'.symm
  · omega

theorem freeBlocks_take (hb : b < sb.size) (hfree : bmapBit sb d b = false)
    (hbit : ∀ x < sb.size, bmapBit sb d' x = if x = b then true else bmapBit sb d x) :
    freeBlocks sb d' + 1 = freeBlocks sb d := by
  have herase : ((Finset.range sb.size).filter fun x ↦ bmapBit sb d' x = false) =
      ((Finset.range sb.size).filter fun x ↦ bmapBit sb d x = false).erase b := by
    ext x
    by_cases hx : x < sb.size
    · rcases eq_or_ne x b with rfl | hxb
      · simp [hbit x hx]
      · simp [hxb, hbit x hx]
    · simp [hx]
  rw [freeBlocks, herase, freeBlocks]
  exact Finset.card_erase_add_one (Finset.mem_filter.mpr ⟨Finset.mem_range.mpr hb, hfree⟩)

theorem emptySlots_take {s : Slot} (hs : s ∈ S) (hempty : ip.ref d s = none)
    (href : ∀ t, ip'.ref d' t = if t = s then some b else ip.ref d t) :
    (ip'.emptySlots d' S).card + 1 = (ip.emptySlots d S).card := by
  have herase : ip'.emptySlots d' S = (ip.emptySlots d S).erase s := by
    ext t
    simp only [emptySlots, mem_erase, href]
    by_cases hts : t = s
    · simp [hts]
    · simp [hts]
  rw [herase]
  exact card_erase_add_one (mem_filter.mpr ⟨hs, hempty⟩)

/-- The blocks that keep their contents when a block is allocated for an inode: all but that block,
the free map and the inode's own indirect block. -/
structure Untouched (sb : SuperBlock) (ip : Dinode) (d : Disk) (b x : ℕ) : Prop where
  ne_block : x ≠ b
  notMem_bitmap : x ∉ sb.bitmap
  ne_indirect : ip.ref d (.addr (Fin.last nDirect)) ≠ some x

/-- A slot of an inode of the table. -/
theorem refs_self (hlt : inum < sb.ninodes) (htype : ip.type ≠ 0) (s : Slot) :
    refs sb d (update table inum ip) (inum, s) = ip.ref d s := by
  rw [refs_eq hlt (by rwa [update_self]), update_self]

theorem refs_other (hj : j ≠ inum) (hlt : j < sb.ninodes) (htype : (table j).type ≠ 0) (s : Slot) :
    refs sb d (update table inum ip) (j, s) = (table j).ref d s := by
  rw [refs_eq hlt (by rwa [update_of_ne hj]), update_of_ne hj]

theorem refs_congr {table' : ℕ → Dinode} {x : ℕ × Slot} (hsame : x.1 < sb.ninodes →
      table' x.1 = table x.1 ∧
        ((table x.1).type ≠ 0 → (table x.1).ref d' x.2 = (table x.1).ref d x.2)) :
    refs sb d' table' x = refs sb d table x := by
  unfold refs
  by_cases hlt : x.1 < sb.ninodes
  · obtain ⟨htable, href⟩ := hsame hlt
    rw [htable]
    split_ifs with halloc
    · exact href halloc.2
    · rfl
  · simp only [hlt, false_and, if_false]

theorem refs_congr_of_ne {table' : ℕ → Dinode} {s : Slot} (hj : j ≠ inum)
    (hsame : j < sb.ninodes → table' j = table j ∧
      ((table j).type ≠ 0 → (table j).ref d' s = (table j).ref d s)) :
    refs sb d' (update table' inum ip') (j, s) = refs sb d (update table inum ip) (j, s) :=
  refs_congr (by simpa only [update_of_ne hj] using hsame)

/-- The slots and bytes of an inode depend on `addrs[]` alone. -/
theorem Dinode.same_of_addrs (h : ip'.addrs = ip.addrs) :
    (∀ s, ip'.ref d s = ip.ref d s) ∧ (∀ bn, ip'.block d bn = ip.block d bn) ∧
      ∀ i, ip'.byte d i = ip.byte d i := by
  have hindirect : ip'.indirect = ip.indirect := by rw [indirect, indirect, h]
  have href : ∀ s, ip'.ref d s = ip.ref d s := by
    intro s
    cases s <;> simp only [ref, hindirect, h]
  have hblock : ∀ bn, ip'.block d bn = ip.block d bn := by
    intro bn
    rw [block, block, funext href]
  exact ⟨href, hblock, fun i ↦ by rw [byte, byte, hblock]⟩

/-- The allocator does not look at the other fields of an inode. -/
theorem Sound.congr_inode (h : Sound sb d (update table inum ip))
    (htype : ip'.type = ip.type) (haddrs : ip'.addrs = ip.addrs) :
    Sound sb d (update table inum ip') := by
  refine ⟨h.layout, h.super, h.owns.congr (fun x ↦ ?_) fun _ _ ↦ rfl, h.reserved⟩
  obtain ⟨j, s⟩ := x
  rcases eq_or_ne j inum with rfl | hj
  · simp only [refs, update_self, htype, (same_of_addrs haddrs).1]
  · simp only [refs, update_of_ne hj]

theorem Sound.congr_table {table' : ℕ → Dinode} (h : Sound sb d table)
    (htable : ∀ j < sb.ninodes, table' j = table j) : Sound sb d table' :=
  ⟨h.layout, h.super, h.owns.congr (fun _ ↦ refs_congr fun hlt ↦ ⟨htable _ hlt, fun _ ↦ rfl⟩)
    fun _ _ ↦ rfl, h.reserved⟩

/-- `iupdate` stores an inode of the table: the table is the disk's, and no file changes. -/
theorem Sound.iupdate (h : Sound sb d (update table inum ip)) (hlt : inum < sb.ninodes)
    (htable : ∀ j < sb.ninodes, j ≠ inum → readDinode sb d j = table j) :
    Sound sb (writeDinode sb d inum ip) (readDinode sb (writeDinode sb d inum ip)) ∧
      (∀ j < sb.ninodes, readDinode sb (writeDinode sb d inum ip) j =
        update table inum ip j) ∧
      ∀ j < sb.ninodes, (update table inum ip j).type ≠ 0 →
        (∀ s, (update table inum ip j).ref (writeDinode sb d inum ip) s =
          (update table inum ip j).ref d s) ∧
        ∀ i, (update table inum ip j).byte (writeDinode sb d inum ip) i =
          (update table inum ip j).byte d i := by
  have hblock := h.layout.iblock_lt hlt
  have hmap := h.layout.bmapstart_lt
  have hkeep : ∀ x, sb.bmapstart ≤ x → writeDinode sb d inum ip x = d x :=
    fun x hx ↦ writeDinode_of_ne sb d ip (by omega)
  have hbit : ∀ x < sb.size, bmapBit sb (writeDinode sb d inum ip) x = bmapBit sb d x :=
    fun x hx ↦ bmapBit_congr (hkeep _ (h.layout.bblock_mem hx).1)
  refine (and_iff_right_of_imp fun ⟨hread, hfiles⟩ ↦ ⟨h.layout, ?_,
    h.owns.congr (fun x ↦ refs_congr fun hlt ↦ ⟨hread _ hlt, fun htype ↦
      (hfiles _ hlt htype).1 _⟩) fun b hb ↦ hbit b hb.2, fun x hx ↦ ?_⟩).mpr
    ⟨fun j hj ↦ ?_, fun j hj htype ↦ ?_⟩
  · rcases eq_or_ne j inum with rfl | hji
    · rw [readDinode_writeDinode_self, update_self]
    · rw [readDinode_writeDinode_of_ne sb d ip hji, htable j hj hji, update_of_ne hji]
  · refine same_of_blocks fun s x hx ↦ hkeep x ?_
    have hdata := h.owns.mem_pool (j, s) x (by rw [refs_eq hj htype, hx])
    exact hmap.le.trans hdata.1
  · rw [readsb_congr (writeDinode_of_ne sb d ip ?_), h.super]
    have hsuper := h.layout.super_lt
    have hle : sb.inodestart ≤ sb.iblock inum := le_add_left _ _
    omega
  · rw [hbit x (hx.trans_le (sub_le _ _)), h.reserved x hx]

section Take

variable {b : ℕ} (h : Sound sb d (update table inum ip)) (hlt : inum < sb.ninodes)
  (htype : ip.type ≠ 0)

include h hlt htype

variable {a x : ℕ}

theorem Sound.mem_data {s : Slot} (hs : ip.ref d s = some a) : a ∈ sb.data :=
  h.owns.mem_pool (inum, s) a (by rw [refs_self hlt htype, hs])

/-- A block in a slot of an inode is marked. -/
theorem Sound.marked {s : Slot} (hs : ip.ref d s = some a) :
    a < sb.size ∧ bmapBit sb d a = true :=
  ⟨(h.mem_data hlt htype hs).2, h.owns.used_of_owned ((refs_self hlt htype s).trans hs)⟩

theorem Sound.untouched_of_lt (hb : b ∈ sb.data) (hx : x < sb.bmapstart) :
    Untouched sb ip d b x := by
  have hmap := h.layout.bmapstart_lt
  refine ⟨fun heq ↦ ?_, fun hmem ↦ absurd hmem.1 (by omega), fun href ↦ ?_⟩
  · have hdata := hb.1
    omega
  · have hdata := (h.mem_data hlt htype href).1
    omega

/-- A block of another inode, or a block of the inode other than the indirect block. -/
theorem Sound.untouched_of_ref (hfree : bmapBit sb d b = false) {j : ℕ} {s : Slot}
    (hx : refs sb d (update table inum ip) (j, s) = some x)
    (hne : (j, s) ≠ (inum, .addr (Fin.last nDirect))) : Untouched sb ip d b x := by
  refine ⟨?_, fun hmem ↦ ?_, fun href ↦ hne ?_⟩
  · rintro rfl
    rw [h.owns.used_of_owned hx] at hfree
    simp at hfree
  · exact (not_lt.mpr (h.owns.mem_pool _ _ hx).1) hmem.2
  · exact h.owns.inj _ _ x hx (by rw [refs_self hlt htype, href])

/-- A free block fills an empty slot of an inode. -/
theorem Sound.take {s : Slot} (hs : s ∈ S) (hempty : ip.ref d s = none) (hdata : b ∈ sb.data)
    (hfree : bmapBit sb d b = false)
    (hbit : ∀ x < sb.size, bmapBit sb d' x = if x = b then true else bmapBit sb d x)
    (hzero : d' b = zero bSize) (hframe : ∀ x, Untouched sb ip d b x → d' x = d x)
    (hsame : ip' = { ip with addrs := ip'.addrs })
    (href : ∀ t, ip'.ref d' t = if t = s then some b else ip.ref d t) :
    Grows sb table inum S ip d ip' d' (ip.byte d) := by
  have htype' : ip'.type ≠ 0 := by rwa [hsame]
  have hothers : ∀ j, j ≠ inum → j < sb.ninodes → (table j).type ≠ 0 →
      (∀ t, (table j).ref d' t = (table j).ref d t) ∧
        ∀ i, (table j).byte d' i = (table j).byte d i := by
    intro j hj hjlt hjtype
    refine same_of_blocks fun t x hx ↦ hframe x ?_
    refine h.untouched_of_ref hlt htype hfree (j := j) (s := t) ?_ (by simp [hj])
    rw [refs_other hj hjlt hjtype, hx]
  have hlow : ∀ x < sb.bmapstart, d' x = d x :=
    fun x hx ↦ hframe x (h.untouched_of_lt hlt htype hdata hx)
  have hrefs : ∀ x, refs sb d' (update table inum ip') x =
      if x = (inum, s) then some b else refs sb d (update table inum ip) x := by
    rintro ⟨j, t⟩
    rcases eq_or_ne j inum with rfl | hj
    · rw [refs_self hlt htype', refs_self hlt htype, href]
      simp
    · rw [if_neg (by simp [hj])]
      exact refs_congr_of_ne hj fun hjlt ↦ ⟨rfl, fun hjtype ↦ (hothers j hj hjlt hjtype).1 t⟩
  have hsize : sb.datastart ≤ sb.size := sub_le _ _
  refine ⟨⟨h.layout, ?_, ?_, fun x hx ↦ ?_⟩, hsame, fun t a ht ↦ ?_, fun i ↦ ?_, hothers, hlow,
    ?_, fun hnone ↦ ?_⟩
  · rw [readsb_congr (hlow 1 h.layout.one_lt_bmapstart), h.super]
  · refine h.owns.take (s := (inum, s)) ?_ hdata hfree hrefs fun c hc ↦ hbit c hc.2
    rw [refs_self hlt htype, hempty]
  · rw [hbit x (by omega), h.reserved x hx]
    simp
  · rw [href, if_neg, ht]
    rintro rfl
    simp [hempty] at ht
  · rw [byte, byte, block, block]
    cases hslot : slotOf (i / bSize) with
    | none => rfl
    | some t =>
      simp only [bind_some, href]
      by_cases hts : t = s
      · -- The block that was not there and the new block are all zeros.
        simp [hts, hempty, hzero]
      · rw [if_neg hts]
        cases ht : ip.ref d t with
        | none => rfl
        | some a =>
          have hkeep := hframe a (h.untouched_of_ref hlt htype hfree (j := inum) (s := t)
            (by rw [refs_self hlt htype, ht]) (by simp [slotOf_ne_indirect hslot]))
          simp only [hkeep]
  · have hfreeBlocks := freeBlocks_take hdata.2 hfree hbit
    have hslots := emptySlots_take hs hempty href
    omega
  · have hmem : s ∈ ip.emptySlots d S := mem_filter.mpr ⟨hs, hempty⟩
    simp [hnone] at hmem

/-- A block in a slot of a file is written. -/
theorem Sound.store {bn : ℕ} {s : Slot} (hslot : slotOf bn = some s) (href : ip.ref d s = some a)
    (data : Block) : Grows sb table inum S ip d ip (update d a data)
      fun i ↦ if i / bSize = bn then data.get (i % bSize) else ip.byte d i := by
  have hdata := h.mem_data hlt htype href
  have howned : refs sb d (update table inum ip) (inum, s) = some a := by
    rw [refs_self hlt htype, href]
  have hne : ∀ j t x, refs sb d (update table inum ip) (j, t) = some x →
      (j, t) ≠ (inum, s) → x ≠ a := by
    rintro j t x hx hjt rfl
    exact hjt (h.owns.inj _ _ x hx howned)
  have hself : ∀ t, ip.ref (update d a data) t = ip.ref d t := by
    refine ref_congr fun hindirect ↦ update_of_ne ?_ _ _
    refine hne inum (.addr (Fin.last nDirect)) _ ?_ ?_
    · rw [refs_self hlt htype]
      exact ref_indirect.mpr ⟨rfl, hindirect⟩
    · simp [Ne.symm (slotOf_ne_indirect hslot)]
  have hothers : ∀ j, j ≠ inum → j < sb.ninodes → (table j).type ≠ 0 →
      (∀ t, (table j).ref (update d a data) t = (table j).ref d t) ∧
        ∀ i, (table j).byte (update d a data) i = (table j).byte d i := by
    intro j hj hjlt hjtype
    refine same_of_blocks fun t x hx ↦ update_of_ne (hne j t x ?_ (by simp [hj])) _ _
    rw [refs_other hj hjlt hjtype, hx]
  have hlow : ∀ x < sb.datastart, update d a data x = d x := by
    intro x hx
    refine update_of_ne ?_ _ _
    rintro rfl
    exact (not_le.mpr hx) hdata.1
  have hbit : ∀ x < sb.size, bmapBit sb (update d a data) x = bmapBit sb d x :=
    fun x hx ↦ bmapBit_congr (hlow _ (h.layout.bblock_mem hx).2)
  have hmap := h.layout.bmapstart_lt
  refine ⟨⟨h.layout, ?_, ?_, fun x hx ↦ ?_⟩, rfl, fun t b ht ↦ by rw [hself, ht], fun i ↦ ?_,
    hothers, fun x hx ↦ hlow x (hx.trans hmap), ?_, fun _ ↦ rfl⟩
  · rw [readsb_congr (hlow 1 (h.layout.one_lt_bmapstart.trans hmap)), h.super]
  · refine h.owns.congr (fun x ↦ ?_) fun c hc ↦ hbit c hc.2
    obtain ⟨j, t⟩ := x
    rcases eq_or_ne j inum with rfl | hj
    · rw [refs_self hlt htype, refs_self hlt htype, hself]
    · exact refs_congr_of_ne hj fun hjlt ↦ ⟨rfl, fun hjtype ↦ (hothers j hj hjlt hjtype).1 t⟩
  · rw [hbit x (hx.trans_le (sub_le _ _)), h.reserved x hx]
  · split_ifs with hi
    · rw [byte, block, hi, hslot, bind_some, hself, href]
      simp only [update_self]
    · rw [byte, byte, block, block]
      cases hother : slotOf (i / bSize) with
      | none => rfl
      | some t =>
        rw [bind_some, bind_some, hself]
        cases ht : ip.ref d t with
        | none => rfl
        | some x =>
          have hts : t ≠ s := by
            rintro rfl
            exact hi (slotOf_inj hother hslot)
          have hx := hne inum t x (by rw [refs_self hlt htype, ht]) (by simp [hts])
          simp only [update_of_ne hx]
  · have hfree : freeBlocks sb (update d a data) = freeBlocks sb d := by
      refine congrArg card (filter_congr fun x hx ↦ ?_)
      rw [hbit x (Finset.mem_range.mp hx)]
    have hslots : ip.emptySlots (update d a data) S = ip.emptySlots d S :=
      filter_congr fun t _ ↦ by rw [hself]
    rw [hfree, hslots]

end Take

/-! ### `bmap` -/

/-- The block number in an entry of `addrs[]`, allocated if there is none. -/
def loadAddr (sb : SuperBlock) (d : Disk) (ip : Dinode) (k : Fin (nDirect + 1)) :
    Except FsPanic (ℕ × Dinode × Disk) :=
  if ip.addrs k = 0 then
    match balloc sb d with
    | .ok (b, d) => .ok (b, { ip with addrs := update ip.addrs k (UInt32.ofNat b) }, d)
    | .error e => .error e
  else .ok ((ip.addrs k).toNat, ip, d)

def bmap (sb : SuperBlock) (d : Disk) (ip : Dinode) (bn : ℕ) :
    Except FsPanic (ℕ × Dinode × Disk) :=
  if h : bn < nDirect then loadAddr sb d ip ⟨bn, h.trans (Nat.lt_succ_self _)⟩
  else if bn - nDirect < nIndirect then
    match loadAddr sb d ip (Fin.last nDirect) with
    | .ok (a, ip, d) =>
      let addr := indirectEntry d a (bn - nDirect)
      if addr = 0 then
        match balloc sb d with
        | .ok (b, d) =>
          .ok (b, ip, update d a ((d a).putField (4 * (bn - nDirect)) 4 b))
        | .error e => .error e
      else .ok (addr, ip, d)
    | .error e => .error e
  else .error .outOfRange

/-- The slots that `bmap` may fill for a block of a file. -/
def slotsFor (bn : ℕ) : Finset Slot :=
  match slotOf bn with
  | some (.addr k) => {.addr k}
  | some (.entry j) => {.addr (Fin.last nDirect), .entry j}
  | none => ∅

section Bmap

variable (h : Sound sb d (update table inum ip)) (hlt : inum < sb.ninodes)
  (htype : ip.type ≠ 0)

include h hlt htype

omit h hlt htype in
theorem freeBlocks_eq_zero (hfull : ∀ b < sb.size, bmapBit sb d b = true) :
    freeBlocks sb d = 0 := by
  rw [freeBlocks, Finset.card_eq_zero, filter_eq_empty_iff]
  intro b hb
  simp [hfull b (Finset.mem_range.mp hb)]

omit h hlt htype in
theorem freeBlocks_lt_emptySlots {s : Slot} (hs : s ∈ S) (hempty : ip.ref d s = none)
    (hfull : ∀ b < sb.size, bmapBit sb d b = true) :
    freeBlocks sb d < (ip.emptySlots d S).card := by
  rw [freeBlocks_eq_zero hfull, card_pos]
  exact ⟨s, mem_filter.mpr ⟨hs, hempty⟩⟩

variable {b : ℕ}

open UInt32

omit hlt htype in
/-- The number of an allocated block fits in an entry of `addrs[]`. -/
theorem Sound.toNat_ofNat (hb : b ∈ sb.data) :
    (ofNat b).toNat = b ∧ blockNumber b = some b := by
  have hsize := h.layout.size_lt
  have hlt := hb.2
  have hpos := h.data_pos
  have hlow := hb.1
  refine ⟨toNat_ofNat_of_lt' ?_, blockNumber_eq_some.mpr ⟨rfl, by omega⟩⟩
  change b < 2 ^ 32
  omega

omit hlt in
/-- The indirect block keeps its contents when a block is allocated. -/
theorem Sound.indirect_eq (hb : Allocated sb d b d') (hlt : inum < sb.ninodes)
    (hne : ip.indirect ≠ 0) : d' ip.indirect = d ip.indirect := by
  have href : ip.ref d (.addr (Fin.last nDirect)) = some ip.indirect :=
    ref_indirect.mpr ⟨rfl, hne⟩
  have hdata := h.mem_data hlt htype href
  have hused := (h.marked hlt htype href).2
  refine hb.frame _ ?_ fun hmem ↦ (not_lt.mpr hdata.1) hmem.2
  rintro rfl
  rw [hb.free] at hused
  simp at hused

variable {k : Fin (nDirect + 1)} {bn : ℕ}

/-- An entry of `addrs[]` that was 0 gets a block. -/
theorem Sound.takeAddr (hk : .addr k ∈ S) (hzero : ip.addrs k = 0) (hb : Allocated sb d b d') :
    Grows sb table inum S ip d
      { ip with addrs := update ip.addrs k (ofNat b) } d' (ip.byte d) := by
  obtain ⟨hnat, hnumber⟩ := h.toNat_ofNat hb.mem_data
  have hempty : ip.ref d (.addr k) = none := blockNumber_eq_none.mpr (by rw [hzero]; rfl)
  refine h.take hlt htype hk hempty hb.mem_data hb.free hb.bit_eq hb.zero
    (fun x hx ↦ hb.frame x hx.ne_block hx.notMem_bitmap) rfl fun t ↦ ?_
  cases t with
  | addr j =>
    rcases eq_or_ne j k with rfl | hjk
    · simp only [ref, update_self, hnat, hnumber, if_true]
    · simp [ref, hjk]
  | entry j =>
    rw [if_neg (by simp)]
    by_cases hlast : k = Fin.last nDirect
    · -- The inode had no indirect block, and the new one has no entries.
      subst hlast
      have hold : ip.indirect = 0 := by rw [indirect, hzero]; rfl
      have hnew : indirect { ip with
          addrs := update ip.addrs (Fin.last nDirect) (ofNat b) } = b := by
        simp only [indirect, update_self, hnat]
      have hentry : indirectEntry d' b j = 0 := by
        rw [indirectEntry, hb.zero, field_zero]
      simp only [ref, hold, hnew, hentry, if_true]
      simp [blockNumber]
    · have hsame : indirect { ip with
          addrs := update ip.addrs k (ofNat b) } = ip.indirect := by
        simp only [indirect, update_of_ne (Ne.symm hlast)]
      simp only [ref, hsame]
      split_ifs with hnone
      · rfl
      · rw [indirectEntry, indirectEntry, h.indirect_eq htype hb hlt hnone]

theorem loadAddr_spec (hk : .addr k ∈ S) :
    (∃ a ip' d', loadAddr sb d ip k = .ok (a, ip', d') ∧ Grows sb table inum S ip d ip' d'
        (ip.byte d) ∧ ip'.ref d' (.addr k) = some a) ∨
      loadAddr sb d ip k = .error .outOfBlocks ∧
        freeBlocks sb d < (ip.emptySlots d S).card := by
  unfold loadAddr
  split_ifs with hzero
  · have hempty : ip.ref d (.addr k) = none := blockNumber_eq_none.mpr (by rw [hzero]; rfl)
    rcases balloc_spec h with ⟨b, d', hok, hb⟩ | ⟨herror, hfull⟩
    · refine .inl ⟨b, _, d', by rw [hok], h.takeAddr hlt htype hk hzero hb, ?_⟩
      obtain ⟨hnat, hnumber⟩ := h.toNat_ofNat hb.mem_data
      simp only [ref, update_self, hnat, hnumber]
    · exact .inr ⟨by rw [herror], freeBlocks_lt_emptySlots hk hempty hfull⟩
  · refine .inl ⟨_, _, _, rfl, .refl h, blockNumber_eq_some.mpr ⟨rfl, fun heq ↦ hzero ?_⟩⟩
    exact UInt32.toNat_inj.mp (by simpa using heq)

/-- An entry of the indirect block that was 0 gets a block. -/
theorem Sound.takeEntry {j : Fin nIndirect} (hj : .entry j ∈ S) (hne : ip.indirect ≠ 0)
    (hzero : indirectEntry d ip.indirect j = 0) (hb : Allocated sb d b d') :
    Grows sb table inum S ip d ip
        (update d' ip.indirect ((d' ip.indirect).putField (4 * j) 4 b)) (ip.byte d) ∧
      ip.ref (update d' ip.indirect ((d' ip.indirect).putField (4 * j) 4 b))
        (.entry j) = some b := by
  obtain ⟨hnat, hnumber⟩ := h.toNat_ofNat hb.mem_data
  have hindirect := h.mem_data hlt htype (ref_indirect.mpr ⟨rfl, hne⟩)
  have hblock : d' ip.indirect = d ip.indirect := h.indirect_eq htype hb hlt hne
  have hbne : b ≠ ip.indirect := by
    rintro rfl
    have hused := (h.marked hlt htype (ref_indirect.mpr ⟨rfl, hne⟩)).2
    rw [hb.free] at hused
    cases hused
  have hfits : 4 * j.val + 4 ≤ bSize := by
    have hlt : j.val < 128 := j.isLt
    have hsize : bSize = 512 := rfl
    omega
  have hvalue : b < 256 ^ 4 := by
    have hsize := h.layout.size_lt
    have hb' := hb.mem_data.2
    omega
  have href : ∀ t, ip.ref (update d' ip.indirect ((d' ip.indirect).putField (4 * j) 4 b)) t =
        if t = .entry j then some b else ip.ref d t := by
    intro t
    cases t with
    | addr k => simp [ref]
    | entry i =>
      simp only [ref, if_neg hne, indirectEntry, update_self]
      rcases eq_or_ne i j with rfl | hij
      · rw [field_putField_self hfits hvalue, hnumber, if_pos rfl]
      · rw [field_putField_of_disjoint (by omega), hblock, if_neg (by simpa using hij)]
  refine ⟨h.take hlt htype hj ?_ hb.mem_data hb.free (fun x hx ↦ ?_) ?_
    (fun x hx ↦ ?_) rfl href, ?_⟩
  · simp [ref, hne, hzero, blockNumber]
  · rw [bmapBit_congr (update_of_ne ?_ _ _), hb.bit_eq x hx]
    intro heq
    exact absurd (heq ▸ h.layout.bblock_mem hx).2 (not_lt.mpr hindirect.1)
  · rw [update_of_ne hbne, hb.zero]
  · rw [update_of_ne, hb.frame x hx.ne_block hx.notMem_bitmap]
    rintro rfl
    exact hx.ne_indirect (ref_indirect.mpr ⟨rfl, hne⟩)
  · rw [href, if_pos rfl]

omit h hlt htype in
/-- `bmap` of a block that is there changes nothing. -/
theorem bmap_of_block {a : ℕ} (hblock : ip.block d bn = some a) :
    bmap sb d ip bn = .ok (a, ip, d) := by
  have hload : ∀ {k : Fin (nDirect + 1)} {a : ℕ}, ip.ref d (.addr k) = some a →
      loadAddr sb d ip k = .ok (a, ip, d) := by
    intro k a hk
    obtain ⟨rfl, hne⟩ := blockNumber_eq_some.mp hk
    rw [loadAddr, if_neg]
    intro hzero
    exact hne (by rw [hzero]; rfl)
  obtain ⟨s, hslot, href⟩ := bind_eq_some_iff.mp hblock
  unfold bmap
  unfold slotOf at hslot
  split_ifs at hslot with hdirect hentry
  · cases hslot
    rw [dif_pos hdirect]
    exact hload href
  · cases hslot
    rw [dif_neg hdirect, if_pos hentry]
    simp only [ref] at href
    split_ifs at href with hindirect
    obtain ⟨rfl, hne⟩ := blockNumber_eq_some.mp href
    rw [hload (ref_indirect.mpr ⟨rfl, hindirect⟩)]
    simp only [if_neg hne]

/-- `bmap` of a block that a file can have returns the block in its slot, filling the slot if there
is none, or `balloc` finds no free block. -/
theorem bmap_spec {s : Slot} (hslot : slotOf bn = some s) (hS : slotsFor bn ⊆ S) :
    (∃ a ip' d', bmap sb d ip bn = .ok (a, ip', d') ∧ Grows sb table inum S ip d ip' d'
        (ip.byte d) ∧ ip'.ref d' s = some a) ∨
      bmap sb d ip bn = .error .outOfBlocks ∧ freeBlocks sb d < (ip.emptySlots d S).card := by
  unfold bmap
  unfold slotsFor at hS
  rw [hslot] at hS
  unfold slotOf at hslot
  split_ifs at hslot with hdirect hentry
  · cases hslot
    rw [dif_pos hdirect]
    exact loadAddr_spec h hlt htype (hS (Finset.mem_singleton_self _))
  · cases hslot
    rw [dif_neg hdirect, if_pos hentry]
    have hlast : .addr (Fin.last nDirect) ∈ S := hS (by simp)
    have hmem : .entry ⟨bn - nDirect, hentry⟩ ∈ S := hS (by simp)
    rcases loadAddr_spec h hlt htype hlast with ⟨a, ip', d', hok, hgrows, href⟩ | ⟨herror, hfew⟩
    · obtain ⟨hindirect, hne⟩ := ref_indirect.mp href
      subst hindirect
      have htype' : ip'.type ≠ 0 := by rwa [hgrows.same]
      simp only [hok]
      split_ifs with hzero
      · rcases balloc_spec hgrows.sound with ⟨b, d'', hok', hb⟩ | ⟨herror, hfull⟩
        · obtain ⟨hgrows', href'⟩ := hgrows.sound.takeEntry hlt htype' hmem hne hzero hb
          rw [funext hgrows.byte_eq] at hgrows'
          exact .inl ⟨b, ip', _, by rw [hok'], hgrows.trans hgrows', href'⟩
        · refine .inr ⟨by rw [herror], ?_⟩
          have hempty : ip'.ref d' (.entry ⟨bn - nDirect, hentry⟩) = none := by
            simp [ref, hne, hzero, blockNumber]
          have hfew := freeBlocks_lt_emptySlots hmem hempty hfull
          have hcount := hgrows.count
          omega
      · refine .inl ⟨_, _, _, rfl, hgrows, ?_⟩
        simp only [ref, if_neg hne]
        exact blockNumber_eq_some.mpr ⟨rfl, hzero⟩
    · rw [herror]
      exact .inr ⟨rfl, hfew⟩

end Bmap

end EasyKernels.Xv6
