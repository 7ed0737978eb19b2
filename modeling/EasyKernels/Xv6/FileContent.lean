import Mathlib.Order.Interval.Finset.Nat
import EasyKernels.Xv6.BlockMap

/-!
# The contents of files: `readi` and `writei`

A file is the list of its bytes, `Dinode.content`. `writeLoop_spec` and `readLoop_spec` are the
loops of `writei` and `readi`, which go from block boundary to block boundary; `file_content` is
what the two functions do to the list, for an inode whose blocks below its size are all there
(`Full`): a write overlays the new bytes, a read returns the bytes that are there, the other files
do not change.

Scope. The functions of `devsw[]` are parameters, and they do not touch the disk. A byte of the
caller's memory is a value of `src`; the loops carry the count `tot` and what remains of `n`.
-/

set_option autoImplicit false

namespace EasyKernels.Xv6

open Nat List Function Lib Lib.Bytes

/-- `NDEV`. -/
def nDev : ℕ := 10

/-- `devsw[]`. -/
structure Devsw where
  read : ℕ → Option (UInt32 → ℤ × List UInt8)
  write : ℕ → Option ((ℕ → UInt8) → UInt32 → ℤ)

/-- The loop of `readi`, with `n - tot` bytes to go. -/
def readLoop (sb : SuperBlock) : ℕ → ℕ → ℕ → Dinode → Disk →
    Except FsPanic (List UInt8 × Dinode × Disk)
  | 0, _, _, ip, d => .ok ([], ip, d)
  | fuel + 1, off, rest, ip, d =>
    if rest = 0 then .ok ([], ip, d)
    else
      match bmap sb d ip (off / bSize) with
      | .ok (a, ip, d) =>
        let m := min rest (bSize - off % bSize)
        match readLoop sb fuel (off + m) (rest - m) ip d with
        | .ok (bytes, ip', d') => .ok ((d a).slice (off % bSize) m ++ bytes, ip', d')
        | .error e => .error e
      | .error e => .error e

/-- `readi`: the result, the bytes copied to `dst`, the inode and the disk. -/
def readi (devsw : Devsw) (sb : SuperBlock) (d : Disk) (ip : Dinode) (off n : UInt32) :
    Except FsPanic (ℤ × List UInt8 × Dinode × Disk) :=
  if ip.type = tDev then
    -- A negative `major` is at least 2 ^ 15 as 16 bits.
    match if nDev ≤ ip.major.toNat then none else devsw.read ip.major.toNat with
    | some read => .ok ((read n).1, (read n).2, ip, d)
    | none => .ok (-1, [], ip, d)
  else if off > ip.size ∨ off + n < off then .ok (-1, [], ip, d)
  else
    let n := if off + n > ip.size then ip.size - off else n
    match readLoop sb n.toNat off.toNat n.toNat ip d with
    | .ok (bytes, ip, d) => .ok (n.toNat, bytes, ip, d)
    | .error e => .error e

/-- The loop of `writei`, with `tot` bytes done and `n - tot` to go. -/
def writeLoop (sb : SuperBlock) (src : ℕ → UInt8) : ℕ → ℕ → ℕ → ℕ → Dinode → Disk →
    Except FsPanic (Dinode × Disk)
  | 0, _, _, _, ip, d => .ok (ip, d)
  | fuel + 1, tot, off, rest, ip, d =>
    if rest = 0 then .ok (ip, d)
    else
      match bmap sb d ip (off / bSize) with
      | .ok (a, ip, d) =>
        let m := min rest (bSize - off % bSize)
        writeLoop sb src fuel (tot + m) (off + m) (rest - m) ip
          (update d a
            ((d a).put (off % bSize) ((List.range m).map fun i ↦ src (tot + i))))
      | .error e => .error e

/-- `writei`: the result, the inode and the disk. -/
def writei (devsw : Devsw) (sb : SuperBlock) (d : Disk) (inum : ℕ) (ip : Dinode)
    (src : ℕ → UInt8) (off n : UInt32) : Except FsPanic (ℤ × Dinode × Disk) :=
  if ip.type = tDev then
    match if nDev ≤ ip.major.toNat then none else devsw.write ip.major.toNat with
    | some write => .ok (write src n, ip, d)
    | none => .ok (-1, ip, d)
  else if off > ip.size ∨ off + n < off then .ok (-1, ip, d)
  else if off + n > UInt32.ofNat (maxFile * bSize) then .ok (-1, ip, d)
  else
    match writeLoop sb src n.toNat 0 off.toNat n.toNat ip d with
    | .ok (ip, d) =>
      if n > 0 ∧ off + n > ip.size then
        let ip := { ip with size := off + n }
        .ok (n.toNat, ip, writeDinode sb d inum ip)
      else .ok (n.toNat, ip, d)
    | .error e => .error e

/-! ### Files as lists of bytes -/

variable (ip : Dinode)

/-- The contents of a file. -/
def Dinode.content (d : Disk) : List UInt8 :=
  (List.range ip.size.toNat).map (ip.byte d)

/-- All blocks of a file below its size are there. -/
def Dinode.Full (d : Disk) : Prop :=
  ∀ bn, bn * bSize < ip.size.toNat → ∃ a, ip.block d bn = some a

/-- A list with `new` laid over it at `off`. -/
def overlay (old : List UInt8) (off : ℕ) (new : List UInt8) : List UInt8 :=
  old.take off ++ new ++ old.drop (off + new.length)

/-- The bytes `old` with `n` bytes of `new` laid over them at `off`. -/
def laid (old : ℕ → UInt8) (off n : ℕ) (new : ℕ → UInt8) (i : ℕ) : UInt8 :=
  if off ≤ i ∧ i < off + n then new (i - off) else old i

/-- The slots that a write of `n` bytes at `off` may fill. -/
def writeSlots (off n : ℕ) : Finset Slot :=
  (Finset.Ico off (off + n)).biUnion fun i ↦ slotsFor (i / bSize)

/-- The number of blocks that a write has to allocate. -/
def blocksNeeded (d : Disk) (off n : ℕ) : ℕ :=
  (ip.emptySlots d (writeSlots off n)).card

variable {off n bn : ℕ} {ip' : Dinode} {d' : Disk}

theorem overlay_map_range {size : ℕ} (hoff : off ≤ size) (old new : ℕ → UInt8) :
    overlay ((range size).map old) off ((range n).map new) =
      (range (max size (off + n))).map (laid old off n new) := by
  refine ext_getElem ?_ fun i hi hi' ↦ ?_
  · simp only [overlay, length_append, length_take, length_map, length_range,
      length_drop]
    omega
  · simp only [length_map, length_range] at hi'
    simp only [getElem_map, getElem_range, laid]
    by_cases hlow : i < off
    · rw [if_neg (by omega)]
      simp only [overlay, append_assoc]
      rw [getElem_append_left (by simp; omega)]
      simp
    · by_cases hmid : i < off + n
      · rw [if_pos ⟨by omega, hmid⟩]
        simp only [overlay, append_assoc]
        rw [getElem_append_right (by simp; omega), getElem_append_left (by simp; omega)]
        simp only [length_take, length_map, length_range, getElem_map,
          getElem_range, min_eq_left hoff]
      · rw [if_neg (by omega)]
        simp only [overlay]
        rw [getElem_append_right (by simp; omega)]
        simp only [length_append, length_take, length_map, length_range,
          getElem_drop, getElem_map, getElem_range, min_eq_left hoff]
        congr 1
        omega

theorem map_getD_range (p : List UInt8) : (range p.length).map (fun i ↦ p.getD i 0) = p := by
  refine ext_getElem (by simp) fun i hi hi' ↦ ?_
  simp [getD_eq_getElem?_getD, getElem?_eq_getElem hi']

theorem laid_zero (old : ℕ → UInt8) (off : ℕ) (new : ℕ → UInt8) : laid old off 0 new = old :=
  funext fun _ ↦ if_neg (by omega)

/-- The bytes of `src` from `tot` on are laid over `old` in two pieces. -/
theorem laid_laid {m rest : ℕ} (hm : m ≤ rest) (old src : ℕ → UInt8) (off tot : ℕ) :
    laid (laid old off m fun i ↦ src (tot + i)) (off + m) (rest - m) (fun i ↦ src (tot + m + i)) =
      laid old off rest fun i ↦ src (tot + i) := by
  funext i
  simp only [laid]
  split_ifs
  all_goals first | rfl | omega | (congr 1; omega)

variable {sb : SuperBlock} {table : ℕ → Dinode} {inum : ℕ} {S : Finset Slot}
  {ip : Dinode} {d : Disk}

/-! ### The loops -/

theorem slotOf_isSome (h : bn < maxFile) : ∃ s, slotOf bn = some s := by
  have hmax : maxFile = nDirect + nIndirect := rfl
  unfold slotOf
  split_ifs with hdirect hentry
  · exact ⟨_, rfl⟩
  · exact ⟨_, rfl⟩
  · omega

open Dinode

/-- The loop of `readi` over blocks that are there returns their bytes and changes nothing. -/
theorem readLoop_spec {fuel rest : ℕ} (hfuel : rest ≤ fuel)
    (hthere : ∀ i, off ≤ i → i < off + rest → ∃ a, ip.block d (i / bSize) = some a) :
    readLoop sb fuel off rest ip d =
      .ok ((range rest).map fun i ↦ ip.byte d (off + i), ip, d) := by
  induction fuel generalizing off rest with
  | zero =>
    obtain rfl : rest = 0 := by omega
    rfl
  | succ fuel ih =>
    rw [readLoop]
    rcases eq_or_ne rest 0 with rfl | hrest
    · rfl
    · rw [if_neg hrest]
      obtain ⟨a, ha⟩ := hthere off le_rfl (by omega)
      rw [bmap_of_block ha]
      have hsize : bSize = 512 := rfl
      have hmod : off % bSize < bSize := mod_lt off (by decide)
      generalize hm : min rest (bSize - off % bSize) = m
      have hmrest : m ≤ rest := by omega
      have hchunk : (d a).slice (off % bSize) m = (range m).map fun i ↦ ip.byte d (off + i) := by
        refine map_congr_left fun i hi ↦ ?_
        have hi' := mem_range.mp hi
        have hdiv : (off + i) / bSize = off / bSize := by
          rw [hsize] at hm hmod ⊢
          omega
        have hoff : (off + i) % bSize = off % bSize + i := by
          rw [hsize] at hm hmod ⊢
          omega
        rw [byte, hdiv, ha, hoff]
      have hsplit : range rest = range m ++ (range (rest - m)).map (m + ·) := by
        rw [← range_add, Nat.add_sub_cancel' hmrest]
      have hloop : readLoop sb fuel (off + m) (rest - m) ip d =
          .ok ((range (rest - m)).map fun i ↦ ip.byte d (off + m + i), ip, d) :=
        ih (by omega) fun i hi hlt ↦ hthere i (by omega) (by omega)
      simp only [hloop, hchunk]
      rw [hsplit, map_append, map_map]
      simp only [comp_def, add_assoc]

variable {src bytes : ℕ → UInt8} {a : ℕ} {x : Slot}

/-- The bytes of a file after a run of bytes within one block of it has been written. -/
theorem chunk_byte {tot m : ℕ} (hblock : ip.block d (off / bSize) = some a)
    (hm : off % bSize + m ≤ bSize) : (fun i ↦ if i / bSize = off / bSize then
        ((d a).put (off % bSize) ((range m).map fun i ↦ src (tot + i))).get (i % bSize)
      else ip.byte d i) = laid (ip.byte d) off m fun i ↦ src (tot + i) := by
  have hsize : bSize = 512 := rfl
  funext i
  rw [laid]
  by_cases hdiv : i / bSize = off / bSize
  · have hlt : i % bSize < bSize := mod_lt i (by decide)
    rw [if_pos hdiv, byte, hdiv, hblock]
    by_cases hin : off ≤ i ∧ i < off + m
    · have hoff : i % bSize = off % bSize + (i - off) := by
        rw [hsize] at hdiv ⊢
        omega
      rw [if_pos hin, hoff, get_put_of_lt (by simp; omega) (by simpa using hm)]
      simp
    · rw [if_neg hin, get_put_of_disjoint]
      rw [length_map, length_range]
      rw [hsize] at hdiv ⊢
      omega
  · rw [if_neg hdiv, if_neg]
    rw [hsize] at hdiv hm
    omega

/-- The loop of `writei` lays the bytes of `src` over the file, or `balloc` finds no free block. -/
theorem writeLoop_spec (src : ℕ → UInt8) (fuel tot off rest : ℕ)
    (h : Sound sb d (update table inum ip)) (hlt : inum < sb.ninodes)
    (htype : ip.type ≠ 0) (hfuel : rest ≤ fuel) (hmax : off + rest ≤ maxFile * bSize)
    (hS : ∀ i, off ≤ i → i < off + rest → slotsFor (i / bSize) ⊆ S) :
    (∃ ip' d', writeLoop sb src fuel tot off rest ip d = .ok (ip', d') ∧
        Grows sb table inum S ip d ip' d' (laid (ip.byte d) off rest fun i ↦ src (tot + i)) ∧
        ∀ i, off ≤ i → i < off + rest → ∃ a, ip'.block d' (i / bSize) = some a) ∨
      writeLoop sb src fuel tot off rest ip d = .error .outOfBlocks ∧
        freeBlocks sb d < (ip.emptySlots d S).card := by
  have hnone : Grows sb table inum S ip d ip d (laid (ip.byte d) off 0 fun i ↦ src (tot + i)) := by
    rw [laid_zero]
    exact .refl h
  induction fuel generalizing tot off rest ip d with
  | zero =>
    obtain rfl : rest = 0 := by omega
    exact .inl ⟨ip, d, rfl, hnone, fun i hi hi' ↦ by omega⟩
  | succ fuel ih =>
    rw [writeLoop]
    rcases eq_or_ne rest 0 with rfl | hrest
    · exact .inl ⟨ip, d, rfl, hnone, fun i hi hi' ↦ by omega⟩
    · rw [if_neg hrest]
      have hsize : bSize = 512 := rfl
      have hmod : off % bSize < bSize := mod_lt off (by decide)
      have hbn : off / bSize < maxFile := by
        rw [div_lt_iff_lt_mul (by decide)]
        omega
      obtain ⟨s, hslot⟩ := slotOf_isSome hbn
      rcases bmap_spec h hlt htype hslot (hS off le_rfl (by omega)) with
        ⟨a, ip₁, d₁, hok, hgrows, href⟩ | ⟨herror, hfew⟩
      · rw [hok]
        generalize hm : min rest (bSize - off % bSize) = m
        have htype₁ : ip₁.type ≠ 0 := by rwa [hgrows.same]
        have hstore := hgrows.sound.store (S := S) hlt htype₁ hslot href
          ((d₁ a).put (off % bSize) ((range m).map fun i ↦ src (tot + i)))
        rw [chunk_byte (by rw [block, hslot, Option.bind_some, href]) (by omega),
          funext hgrows.byte_eq] at hstore
        have hboth := hgrows.trans hstore
        rcases ih (tot + m) (off + m) (rest - m) hboth.sound htype₁ (by omega) (by omega)
          (fun i hi hi' ↦ hS i (by omega) (by omega))
          (by rw [laid_zero]; exact .refl hboth.sound) with
          ⟨ip', d', hok', hgrows', hthere⟩ | ⟨herror, hfew⟩
        · refine .inl ⟨ip', d', hok', ?_, fun i hi hi' ↦ ?_⟩
          · rw [← laid_laid (show m ≤ rest by omega)]
            rw [funext hboth.byte_eq] at hgrows'
            exact hboth.trans hgrows'
          · by_cases hhigh : off + m ≤ i
            · exact hthere i hhigh (by omega)
            · have hdiv : i / bSize = off / bSize := by
                rw [hsize] at hm ⊢
                omega
              refine ⟨a, ?_⟩
              rw [hdiv, block, hslot, Option.bind_some]
              exact hgrows'.keep s a (hstore.keep s a href)
        · refine .inr ⟨herror, ?_⟩
          have hcount := hboth.count
          omega
      · rw [herror]
        exact .inr ⟨rfl, hfew⟩

/-! ### What the loops leave -/

theorem slots_filled (hblock : ip.block d bn = some a) {s : Slot} (hs : s ∈ slotsFor bn) :
    ip.ref d s ≠ none := by
  obtain ⟨t, hslot, href⟩ := Option.bind_eq_some_iff.mp hblock
  unfold slotsFor at hs
  rw [hslot] at hs
  cases t with
  | addr k =>
    rw [Finset.mem_singleton] at hs
    simp [hs, href]
  | entry j =>
    rw [Finset.mem_insert, Finset.mem_singleton] at hs
    rcases hs with rfl | rfl
    · simp only [ref] at href
      split_ifs at href with hzero
      rw [ref_indirect.mpr ⟨rfl, hzero⟩]
      simp
    · simp [href]

/-- What an operation on one file leaves, with the inode in core: the disk is sound with that inode
in the table, and the other files are as they were. -/
structure FileStep (sb : SuperBlock) (inum : ℕ) (d : Disk) (ip' : Dinode) (d' : Disk) : Prop where
  sound : Sound sb d' (update (readDinode sb d') inum ip')
  others : ∀ j < sb.ninodes, j ≠ inum → readDinode sb d' j = readDinode sb d j ∧
    ((readDinode sb d j).type ≠ 0 →
      (∀ s, (readDinode sb d j).ref d' s = (readDinode sb d j).ref d s) ∧
        ∀ i, (readDinode sb d j).byte d' i = (readDinode sb d j).byte d i)

namespace FileStep

variable {ip' ip'' : Dinode} {d' d'' : Disk}

theorem refl {ip : Dinode} (hsound : Sound sb d (readDinode sb d))
    (hread : readDinode sb d inum = ip) : FileStep sb inum d ip d := by
  refine ⟨?_, fun _ _ _ ↦ ⟨rfl, fun _ ↦ ⟨fun _ ↦ rfl, fun _ ↦ rfl⟩⟩⟩
  rw [← hread, update_eq_self]
  exact hsound

section

variable (h : FileStep sb inum d ip' d')

include h

theorem sound_of_stored (hread : readDinode sb d' inum = ip') : Sound sb d' (readDinode sb d') := by
  have hsound := h.sound
  rwa [← hread, update_eq_self] at hsound

/-- Fields that the allocator does not look at change. -/
theorem congr_inode (htype : ip''.type = ip'.type) (haddrs : ip''.addrs = ip'.addrs) :
    FileStep sb inum d ip'' d' :=
  ⟨h.sound.congr_inode htype haddrs, h.others⟩

/-- `iupdate` stores the inode. -/
theorem iupdate (hlt : inum < sb.ninodes) : FileStep sb inum d ip' (writeDinode sb d' inum ip') ∧
      (ip'.type ≠ 0 → (∀ s, ip'.ref (writeDinode sb d' inum ip') s = ip'.ref d' s) ∧
        ∀ i, ip'.byte (writeDinode sb d' inum ip') i = ip'.byte d' i) := by
  obtain ⟨hsound, hread, hfiles⟩ := h.sound.iupdate hlt fun _ _ _ ↦ rfl
  have hself := hfiles inum hlt
  rw [update_self] at hself
  refine ⟨⟨?_, fun j hj hne ↦ ?_⟩, hself⟩
  · refine hsound.congr_table fun j hj ↦ ?_
    by_cases hji : j = inum
    · rw [hji, update_self, readDinode_writeDinode_self]
    · rw [update_of_ne hji]
  · obtain ⟨hold, hkeep⟩ := h.others j hj hne
    have hnew := hread j hj
    have hfile := hfiles j hj
    rw [update_of_ne hne, hold] at hnew hfile
    refine ⟨hnew, fun htype ↦ ⟨fun s ↦ ?_, fun i ↦ ?_⟩⟩
    · exact ((hfile htype).1 s).trans ((hkeep htype).1 s)
    · exact ((hfile htype).2 i).trans ((hkeep htype).2 i)

end

/-- A free inode is allocated, without blocks. -/
theorem alloc (hsound : Sound sb d (readDinode sb d)) (hlt : inum < sb.ninodes)
    (hfree : (readDinode sb d inum).type = 0) (haddrs : ip'.addrs = fun _ ↦ 0) :
    FileStep sb inum d ip' (writeDinode sb d inum ip') := by
  refine FileStep.iupdate ⟨⟨hsound.layout, hsound.super, hsound.owns.congr (fun x ↦ ?_)
    fun _ _ ↦ rfl, hsound.reserved⟩, fun _ _ _ ↦ ⟨rfl, fun _ ↦ ⟨fun _ ↦ rfl, fun _ ↦ rfl⟩⟩⟩ hlt |>.1
  obtain ⟨j, s⟩ := x
  rcases eq_or_ne j inum with rfl | hj
  · cases s <;> simp [refs, hfree, ref, indirect, haddrs, blockNumber]
  · simp only [refs, update_of_ne hj]

end FileStep

/-- An inode whose slots are kept still has all its blocks. -/
theorem Dinode.Full.congr (h : ip.Full d) (hsize : ip'.size = ip.size)
    (href : ∀ s b, ip.ref d s = some b → ip'.ref d' s = some b) : ip'.Full d' := by
  intro bn hbn
  rw [hsize] at hbn
  obtain ⟨a, ha⟩ := h bn hbn
  obtain ⟨s, hslot, hs⟩ := Option.bind_eq_some_iff.mp ha
  exact ⟨a, by rw [block, hslot, Option.bind_some, href s a hs]⟩

/-- A write within a file needs no block. -/
theorem Dinode.Full.emptySlots_writeSlots (h : ip.Full d) (hend : n = 0 ∨ off + n ≤ ip.size.toNat) :
    ip.emptySlots d (writeSlots off n) = ∅ := by
  refine Finset.filter_eq_empty_iff.mpr fun s hs ↦ ?_
  obtain ⟨i, hi, hs'⟩ := Finset.mem_biUnion.mp hs
  rw [Finset.mem_Ico] at hi
  have hdiv := div_mul_le_self i bSize
  obtain ⟨a, ha⟩ := h (i / bSize) (by omega)
  exact slots_filled ha hs'

theorem Grows.fileStep (h : Grows sb (readDinode sb d) inum S ip d ip' d' bytes) :
    FileStep sb inum d ip' d' := by
  have hread : ∀ j < sb.ninodes, readDinode sb d' j = readDinode sb d j :=
    fun j hj ↦ readDinode_congr (h.frame _ (h.sound.layout.iblock_lt hj))
  refine ⟨h.sound.congr_table fun j hj ↦ ?_, fun j hj hne ↦ ⟨hread j hj, h.others j hne hj⟩⟩
  by_cases hji : j = inum
  · rw [hji, update_self, update_self]
  · rw [update_of_ne hji, update_of_ne hji, hread j hj]

@[simp] theorem Dinode.block_resize (ip : Dinode) (size : UInt32) (d : Disk) (bn : ℕ) :
    block { ip with size := size } d bn = ip.block d bn :=
  (same_of_addrs rfl).2.1 bn

@[simp] theorem Dinode.byte_resize (ip : Dinode) (size : UInt32) (d : Disk) (i : ℕ) :
    byte { ip with size := size } d i = ip.byte d i :=
  (same_of_addrs rfl).2.2 i

/-- An empty slot outside the set stays empty: every free block that is gone fills a slot of the
set. -/
theorem Grows.ref_eq_none {bytes' : ℕ → UInt8} (h : Grows sb table inum S ip d ip' d' bytes)
    (h' : Grows sb table inum (insert x S) ip d ip' d' bytes') (hx : x ∉ S)
    (hempty : ip.ref d x = none) : ip'.ref d' x = none := by
  by_contra hfilled
  have hbefore : ip.emptySlots d (insert x S) = insert x (ip.emptySlots d S) := by
    rw [emptySlots, Finset.filter_insert, if_pos hempty, emptySlots]
  have hafter : ip'.emptySlots d' (insert x S) = ip'.emptySlots d' S := by
    rw [emptySlots, Finset.filter_insert, if_neg hfilled, emptySlots]
  have hcount := h.count
  have hcount' := h'.count
  have hnew : x ∉ ip.emptySlots d S := fun hmem ↦ hx (Finset.mem_filter.mp hmem).1
  rw [hbefore, hafter, Finset.card_insert_of_notMem hnew] at hcount'
  omega

/-- A block after the end of a write is not in a slot that the write may fill. -/
theorem notMem_writeSlots (hslot : slotOf bn = some x) (hbn : off + n ≤ bn * bSize) :
    x ∉ writeSlots off n := by
  intro hmem
  obtain ⟨i, hi, hx⟩ := Finset.mem_biUnion.mp hmem
  rw [Finset.mem_Ico] at hi
  have hlast := slotOf_ne_indirect hslot
  have hi' : i / bSize < bn := Nat.div_lt_of_lt_mul (by rw [Nat.mul_comm]; omega)
  unfold slotsFor at hx
  cases hslot' : slotOf (i / bSize) with
  | none => simp [hslot'] at hx
  | some y =>
    have hxy : x = y := by
      rw [hslot'] at hx
      cases y with
      | addr k => exact Finset.mem_singleton.mp hx
      | entry j =>
        rw [Finset.mem_insert, Finset.mem_singleton] at hx
        exact hx.resolve_left hlast
    rw [slotOf_inj hslot (hxy ▸ hslot')] at hi'
    exact lt_irrefl _ hi'

theorem slotsFor_subset_writeSlots {i : ℕ} (hi : off ≤ i) (hi' : i < off + n) :
    slotsFor (i / bSize) ⊆ writeSlots off n :=
  Finset.subset_biUnion_of_mem (fun i ↦ slotsFor (i / bSize)) (Finset.mem_Ico.mpr ⟨hi, hi'⟩)

/-- The loop of `writei` allocates no block after those it writes. -/
theorem writeLoop_beyond (h : Sound sb d (update table inum ip)) (hlt : inum < sb.ninodes)
    (htype : ip.type ≠ 0) (hmax : off + n ≤ maxFile * bSize)
    (hloop : writeLoop sb src n 0 off n ip d = .ok (ip', d')) :
    Grows sb table inum (writeSlots off n) ip d ip' d' (laid (ip.byte d) off n src) ∧
      ∀ bn, off + n ≤ bn * bSize → ip.block d bn = none → ip'.block d' bn = none := by
  have hgrows : ∀ S, writeSlots off n ⊆ S →
      Grows sb table inum S ip d ip' d' (laid (ip.byte d) off n src) := by
    intro S hS
    rcases writeLoop_spec src n 0 off n h hlt htype le_rfl hmax
      fun i hi hi' ↦ (slotsFor_subset_writeSlots hi hi').trans hS with
      ⟨ip₁, d₁, hok, hgrows, -⟩ | ⟨herror, -⟩
    · rw [hloop, Except.ok.injEq, Prod.mk.injEq] at hok
      obtain ⟨rfl, rfl⟩ := hok
      simpa only [zero_add] using hgrows
    · rw [hloop] at herror
      cases herror
  refine ⟨hgrows _ (Finset.Subset.refl _), fun bn hbn hnone ↦ ?_⟩
  rw [block] at hnone ⊢
  cases hslot : slotOf bn with
  | none => rfl
  | some x =>
    rw [hslot, Option.bind_some] at hnone
    exact (hgrows _ (Finset.Subset.refl _)).ref_eq_none (hgrows _ (Finset.subset_insert x _))
      (notMem_writeSlots hslot hbn) hnone

/-! ### `readi` and `writei` -/

open UInt32

theorem add_lt_self_iff (off n : UInt32) : off + n < off ↔ 2 ^ 32 ≤ off.toNat + n.toNat := by
  have hoff := off.toNat_lt
  have hn := n.toNat_lt
  rw [UInt32.lt_iff_toNat_lt, UInt32.toNat_add]
  omega

theorem toNat_add_of_lt {off n : UInt32} (h : off.toNat + n.toNat < 2 ^ 32) :
    (off + n).toNat = off.toNat + n.toNat := by
  rw [UInt32.toNat_add, mod_eq_of_lt h]

theorem toNat_maxFile : (ofNat (maxFile * bSize)).toNat = maxFile * bSize := by decide

/-- The calls of `writei` that fail. -/
def WriteFails (ip : Dinode) (off n : UInt32) : Prop :=
  ip.size < off ∨ 2 ^ 32 ≤ off.toNat + n.toNat ∨ maxFile * bSize < off.toNat + n.toNat

instance decidableWriteFails (ip : Dinode) (off n : UInt32) : Decidable (WriteFails ip off n) :=
  inferInstanceAs (Decidable (_ ∨ _ ∨ _))

/-- The calls of `readi` that fail. -/
def ReadFails (ip : Dinode) (off n : UInt32) : Prop :=
  ip.size < off ∨ 2 ^ 32 ≤ off.toNat + n.toNat

/-- The tests of `writei`, which wrap around. -/
theorem writeFails_iff {off n : UInt32} : WriteFails ip off n ↔
    (off > ip.size ∨ off + n < off) ∨ off + n > ofNat (maxFile * bSize) := by
  rw [WriteFails, add_lt_self_iff, ← or_assoc, gt_iff_lt, gt_iff_lt]
  refine or_congr_right' fun hfirst ↦ ?_
  rw [lt_iff_toNat_lt, toNat_add_of_lt (by omega), toNat_maxFile]

section Files

variable (hsound : Sound sb d (readDinode sb d)) (hlt : inum < sb.ninodes)
  (hread : readDinode sb d inum = ip) (htype : ip.type ≠ 0) (hdev : ip.type ≠ tDev)

include hdev

variable {devsw : Devsw} {src : ℕ → UInt8} {off n : UInt32}

theorem writei_of_fails (h : WriteFails ip off n) :
    writei devsw sb d inum ip src off n = .ok (-1, ip, d) := by
  rw [writei, if_neg hdev]
  split_ifs with hfirst hlarge
  · rfl
  · rfl
  · exact absurd (writeFails_iff.mp h) (not_or.mpr ⟨hfirst, hlarge⟩)

/-- `readi` of a file whose blocks are there. -/
theorem readi_spec (hfull : ip.Full d) (off n : UInt32) :
    (ReadFails ip off n → readi devsw sb d ip off n = .ok (-1, [], ip, d)) ∧
      (¬ ReadFails ip off n → readi devsw sb d ip off n =
        .ok ((min n.toNat (ip.size.toNat - off.toNat) : ℕ),
          ((ip.content d).drop off.toNat).take n.toNat, ip, d)) := by
  rw [readi, if_neg hdev]
  constructor
  · intro hfails
    rw [if_pos]
    rwa [add_lt_self_iff]
  · intro hok
    rw [if_neg (by rwa [add_lt_self_iff])]
    simp only [ReadFails, not_or, lt_iff_toNat_lt] at hok
    have hcount : (if off + n > ip.size then ip.size - off else n).toNat =
        min n.toNat (ip.size.toNat - off.toNat) := by
      have hle : off.toNat ≤ ip.size.toNat := by omega
      split_ifs with hmore
      · rw [gt_iff_lt, lt_iff_toNat_lt, toNat_add_of_lt (by omega)] at hmore
        rw [UInt32.toNat_sub_of_le _ _ (by rwa [UInt32.le_iff_toNat_le])]
        omega
      · rw [gt_iff_lt, lt_iff_toNat_lt, toNat_add_of_lt (by omega)] at hmore
        omega
    have hbytes : ((range (min n.toNat (ip.size.toNat - off.toNat))).map fun i ↦
        ip.byte d (off.toNat + i)) = ((ip.content d).drop off.toNat).take n.toNat := by
      refine ext_getElem ?_ fun i hi hi' ↦ ?_
      · simp [content]
      · simp [content]
    simp only [hcount]
    rw [readLoop_spec le_rfl fun i hi hi' ↦ ?_, hbytes]
    refine hfull (i / bSize) ?_
    have hdiv := div_mul_le_self i bSize
    omega

include hsound hlt hread htype

/-- What a call of `writei` that does not fail leaves, unless it runs out of blocks. The bytes
beyond those it writes, and the blocks that are not there, are as they were. -/
theorem writei_spec (hfull : ip.Full d) (hok : ¬ WriteFails ip off n) :
    (∃ ip' d', writei devsw sb d inum ip src off n = .ok (n.toNat, ip', d') ∧
        ip'.content d' = overlay (ip.content d) off.toNat ((range n.toNat).map src) ∧
        ip'.Full d' ∧ ip'.type = ip.type ∧ readDinode sb d' inum = ip' ∧
        FileStep sb inum d ip' d' ∧
        (∀ i, off.toNat + n.toNat ≤ i → ip'.byte d' i = ip.byte d i) ∧
        ∀ bn, off.toNat + n.toNat ≤ bn * bSize → ip.block d bn = none → ip'.block d' bn = none) ∨
      writei devsw sb d inum ip src off n = .error .outOfBlocks ∧
        freeBlocks sb d < blocksNeeded ip d off.toNat n.toNat := by
  obtain ⟨hfirst, hlarge⟩ := not_or.mp (writeFails_iff.not.mp hok)
  simp only [WriteFails, not_or, lt_iff_toNat_lt] at hok
  obtain ⟨hoff, hwrap, hmax⟩ := hok
  have hadd : (off + n).toNat = off.toNat + n.toNat := toNat_add_of_lt (by omega)
  have hsound' : Sound sb d (update (readDinode sb d) inum ip) := by
    rwa [← hread, update_eq_self]
  rw [writei, if_neg hdev, if_neg hfirst, if_neg hlarge]
  rcases writeLoop_spec src n.toNat 0 off.toNat n.toNat hsound' hlt htype le_rfl (by omega)
    fun i ↦ slotsFor_subset_writeSlots with
    ⟨ip', d', hloop, -, hthere⟩ | ⟨herror, hfew⟩
  · obtain ⟨hgrows, hbeyond⟩ := writeLoop_beyond hsound' hlt htype (by omega) hloop
    have hkeep : ∀ i, off.toNat + n.toNat ≤ i → ip'.byte d' i = ip.byte d i :=
      fun i hi ↦ (hgrows.byte_eq i).trans (if_neg (by omega))
    rw [hloop]
    have hsize : ip'.size = ip.size := by rw [hgrows.same]
    have hlap := overlay_map_range (n := n.toNat) (show off.toNat ≤ ip.size.toNat by omega)
      (ip.byte d) src
    by_cases hmore : n > 0 ∧ off + n > ip'.size
    · simp only [if_pos hmore]
      rw [gt_iff_lt, gt_iff_lt, lt_iff_toNat_lt, lt_iff_toNat_lt, hadd, hsize]
        at hmore
      have hstep : FileStep sb inum d { ip' with size := off + n } d' :=
        hgrows.fileStep.congr_inode rfl rfl
      obtain ⟨hstored, hfile⟩ := hstep.iupdate hlt
      obtain ⟨href, hbyte⟩ := hfile (by rw [hgrows.same]; exact htype)
      replace hbyte := fun i ↦ (hbyte i).trans (byte_resize ip' (off + n) d' i)
      have hblock : ∀ bn, block { ip' with size := off + n } _ bn = ip'.block d' bn := fun bn ↦ by
        rw [block, funext href]
        exact block_resize ip' (off + n) d' bn
      refine .inl ⟨_, _, rfl, ?_, fun bn hbn ↦ ?_, by rw [hgrows.same],
        readDinode_writeDinode_self _ _ _ _, hstored, fun i hi ↦ (hbyte i).trans (hkeep i hi),
        fun bn hbn hnone ↦ (hblock bn).trans (hbeyond bn hbn hnone)⟩
      · rw [content, content, hlap, funext fun i ↦ (hbyte i).trans (hgrows.byte_eq i),
          max_eq_right hmore.2.le]
        simp only [hadd]
      · rw [hblock]
        by_cases hold : bn * bSize < ip.size.toNat
        · exact hfull.congr hsize hgrows.keep bn (by rwa [hsize])
        · have hnew := hthere (bn * bSize) (by omega) (by rw [← hadd]; exact hbn)
          rwa [Nat.mul_div_cancel _ (by decide)] at hnew
    · simp only [if_neg hmore]
      rw [gt_iff_lt, gt_iff_lt, lt_iff_toNat_lt, lt_iff_toNat_lt, hadd, hsize]
        at hmore
      have hend : n.toNat = 0 ∨ off.toNat + n.toNat ≤ ip.size.toNat := by
        simp at hmore
        omega
      -- Every block the loop has touched was there, so no slot was empty.
      have hempty := hfull.emptySlots_writeSlots hend
      refine .inl ⟨_, _, rfl, ?_, hfull.congr hsize hgrows.keep, by rw [hgrows.same], ?_,
        hgrows.fileStep, hkeep, hbeyond⟩
      · have hmax : max ip.size.toNat (off.toNat + n.toNat) = ip.size.toNat := by omega
        rw [content, content, hlap, funext hgrows.byte_eq, hsize, hmax]
      · rw [hgrows.idle hempty, ← hread]
        exact readDinode_congr (hgrows.frame _ (hsound.layout.iblock_lt hlt))
  · rw [herror]
    exact .inr ⟨rfl, hfew⟩

/-- The contents of files: a write overlays the list of bytes and keeps all blocks of the file
there, a read returns the bytes that are there, and the other files keep their contents. -/
theorem file_content (devsw : Devsw) (hfull : ip.Full d) (src : ℕ → UInt8) (off n : UInt32) :
    (WriteFails ip off n → writei devsw sb d inum ip src off n = .ok (-1, ip, d)) ∧
      (¬ WriteFails ip off n → blocksNeeded ip d off.toNat n.toNat ≤ freeBlocks sb d →
        ∃ ip' d', writei devsw sb d inum ip src off n = .ok (n.toNat, ip', d') ∧
          ip'.content d' = overlay (ip.content d) off.toNat ((List.range n.toNat).map src) ∧
          ip'.Full d' ∧ readDinode sb d' inum = ip' ∧
          ∀ j < sb.ninodes, j ≠ inum → (readDinode sb d j).type ≠ 0 →
            readDinode sb d' j = readDinode sb d j ∧
              (readDinode sb d' j).content d' = (readDinode sb d j).content d) ∧
      (ReadFails ip off n → readi devsw sb d ip off n = .ok (-1, [], ip, d)) ∧
      (¬ ReadFails ip off n → readi devsw sb d ip off n =
        .ok ((min n.toNat (ip.size.toNat - off.toNat) : ℕ),
          ((ip.content d).drop off.toNat).take n.toNat, ip, d)) := by
  refine ⟨writei_of_fails hdev, fun hok hfree ↦ ?_, readi_spec hdev hfull off n⟩
  rcases writei_spec hsound hlt hread htype hdev hfull hok with
    ⟨ip', d', hwrite, hcontent, hfull', -, hstored, hstep, -⟩ | ⟨-, hfew⟩
  · refine ⟨ip', d', hwrite, hcontent, hfull', hstored, fun j hj hne htype' ↦ ?_⟩
    obtain ⟨hsame, hkeep⟩ := hstep.others j hj hne
    refine ⟨hsame, ?_⟩
    rw [hsame, content, content, funext (hkeep htype').2]
  · omega

end Files

/-! ### Disks whose soundness is computed -/

section Owners

variable {sb : SuperBlock} {d : Disk}

/-- Every reference to a block is the one that the block is assigned to. -/
abbrev Owned (sb : SuperBlock) (d : Disk) (owner : ℕ → Option (ℕ × Slot)) : Prop :=
  ∀ j < sb.ninodes, (readDinode sb d j).type ≠ 0 →
    (∀ k, ∀ b ∈ (readDinode sb d j).ref d (.addr k), owner b = some (j, .addr k)) ∧
      ((readDinode sb d j).indirect ≠ 0 →
        ∀ i, ∀ b ∈ (readDinode sb d j).ref d (.entry i), owner b = some (j, .entry i))

variable {owner : ℕ → Option (ℕ × Slot)} {x y : ℕ × Slot} {b : ℕ}

theorem Owned.eq (h : Owned sb d owner) (hx : refs sb d (readDinode sb d) x = some b) :
    owner b = some x := by
  obtain ⟨j, s⟩ := x
  rw [refs] at hx
  split_ifs at hx with hused
  obtain ⟨haddr, hentry⟩ := h j hused.1 hused.2
  cases s with
  | addr k => exact haddr k b hx
  | entry i =>
    refine hentry (fun hzero ↦ ?_) i b hx
    simp [Dinode.ref, hzero] at hx

theorem Owned.inj (h : Owned sb d owner) (hx : refs sb d (readDinode sb d) x = some b)
    (hy : refs sb d (readDinode sb d) y = some b) : x = y :=
  Option.some.inj ((h.eq hx).symm.trans (h.eq hy))

/-- The disk is sound when the free map has the blocks before the data blocks, and of these the
ones that an inode refers to. -/
theorem Owned.sound (h : Owned sb d owner) (hlayout : Layout sb) (hsuper : readsb d = sb)
    (hdata : ∀ b x, owner b = some x → b ∈ sb.data)
    (hbits : ∀ b < sb.size, sb.datastart ≤ b →
      (bmapBit sb d b = true ↔ ∃ x ∈ owner b, refs sb d (readDinode sb d) x = some b))
    (hreserved : ∀ b < sb.datastart, bmapBit sb d b = true) : Sound sb d (readDinode sb d) where
  layout := hlayout
  super := hsuper
  owns := by
    refine ⟨fun x b hx ↦ hdata b x (h.eq hx), fun _ _ _ ↦ h.inj, fun b hb ↦ ?_⟩
    rw [hbits b hb.2 hb.1]
    exact ⟨fun ⟨x, _, hx⟩ ↦ ⟨x, hx⟩, fun ⟨x, hx⟩ ↦ ⟨x, h.eq hx, hx⟩⟩
  reserved := hreserved

end Owners

/-! ### A small disk -/

/-- A file system with three inodes and five data blocks, 4 to 8. -/
def smallSb : SuperBlock where
  size := 9
  nblocks := 5
  ninodes := 3
  nlog := 0
  logstart := 2
  inodestart := 2
  bmapstart := 3

/-- `devsw[]` before any driver has set its entry. -/
def noDevices : Devsw where
  read := fun _ ↦ none
  write := fun _ ↦ none

def emptyFile : Dinode := { Dinode.zero with type := tFile, nlink := 1 }

/-- A file of one byte, in block `a`. -/
def oneByteFile (a : UInt32) : Dinode :=
  { Dinode.zero with
    type := tFile
    nlink := 1
    size := 1
    addrs := fun k ↦ if k.val = 0 then a else 0 }

/-- Inode 1 is an empty file, inode 2 a file of one byte in block `a`; `map` is the free map. -/
def smallDisk (a : UInt32) (map : UInt8) : Disk :=
  writeDinode smallSb (writeDinode smallSb (fun b ↦
    if b = 1 then (zero bSize).putFields
      [(0, 4, 9), (4, 4, 5), (8, 4, 3), (16, 4, 2), (20, 4, 2), (24, 4, 3)]
    else if b = 3 then (zero bSize).put 0 [map]
    else if b = 4 then (zero bSize).put 0 [7]
    else zero bSize) 1 emptyFile) 2 (oneByteFile a)

theorem smallDisk_inodes (a : UInt32) (map : UInt8) :
    readDinode smallSb (smallDisk a map) 1 = emptyFile ∧
    readDinode smallSb (smallDisk a map) 2 = oneByteFile a ∧
    (readDinode smallSb (smallDisk a map) 0).type = 0 := by
  refine ⟨?_, readDinode_writeDinode_self _ _ _ _, ?_⟩
  · rw [smallDisk, readDinode_writeDinode_of_ne _ _ _ (by decide), readDinode_writeDinode_self]
  · rw [smallDisk, readDinode_writeDinode_of_ne _ _ _ (by decide),
      readDinode_writeDinode_of_ne _ _ _ (by decide)]
    unfold readDinode
    simp [decode, SuperBlock.iblock, smallSb, ipb, field_zero]

theorem smallSb_layout : Layout smallSb := ⟨by decide, by decide, by decide, by decide⟩

/-- On the small disk a block can only belong to the first place of inode 2. -/
def smallOwner (a b : ℕ) : Option (ℕ × Slot) :=
  if a = b then some (2, .addr ⟨0, succ_pos _⟩) else none

theorem smallDisk_sound : Sound smallSb (smallDisk 4 31) (readDinode smallSb (smallDisk 4 31)) := by
  have howned : Owned smallSb (smallDisk 4 31) (smallOwner 4) := by decide +kernel
  refine howned.sound smallSb_layout (by decide +kernel) (fun b x hb ↦ ?_) (by decide +kernel)
    (by decide +kernel)
  rw [smallOwner] at hb
  split_ifs at hb with heq
  subst heq
  exact ⟨by decide, by decide⟩

theorem oneByteFile_full : (oneByteFile 4).Full (smallDisk 4 31) := by
  intro bn hbn
  have hfirst : bn * 512 < 1 := hbn
  obtain rfl : bn = 0 := by omega
  exact ⟨4, by decide +kernel⟩

/-- After its byte 600 more are written to the file, which takes a second block, and the other file
stays empty. -/
theorem file_content_smallDisk : ∃ ip' d',
    writei noDevices smallSb (smallDisk 4 31) 2 (oneByteFile 4) (fun _ ↦ 9) 1 600 =
        .ok (600, ip', d') ∧
      ip'.content d' = 7 :: replicate 600 9 ∧ (readDinode smallSb d' 1).content d' = [] := by
  obtain ⟨hempty, hbyte, -⟩ := smallDisk_inodes 4 31
  obtain ⟨ip', d', hwrite, hcontent, -, -, hothers⟩ := (file_content smallDisk_sound
    (show 2 < smallSb.ninodes by decide) hbyte (by decide) (by decide) noDevices oneByteFile_full
    (fun _ ↦ 9) 1 600).2.1 (by decide +kernel) (by decide +kernel)
  refine ⟨ip', d', hwrite, hcontent.trans (by decide +kernel), ?_⟩
  rw [(hothers 1 (by decide) (by decide) (by rw [hempty]; decide)).2, hempty]
  decide +kernel

/-- Where block 4 is not marked, though inode 2 refers to it, a write to inode 1 takes it. -/
theorem writei_takes_unmarked :
    (∀ x y b, refs smallSb (smallDisk 4 15) (readDinode smallSb (smallDisk 4 15)) x = some b →
        refs smallSb (smallDisk 4 15) (readDinode smallSb (smallDisk 4 15)) y = some b → x = y) ∧
      readDinode smallSb (smallDisk 4 15) 1 = emptyFile ∧ emptyFile.type ≠ tDev ∧
      emptyFile.Full (smallDisk 4 15) ∧ ¬ WriteFails emptyFile 0 1 ∧
      blocksNeeded emptyFile (smallDisk 4 15) 0 1 ≤ freeBlocks smallSb (smallDisk 4 15) ∧
      (readDinode smallSb (smallDisk 4 15) 2).content (smallDisk 4 15) = [7] ∧
      ((writei noDevices smallSb (smallDisk 4 15) 1 emptyFile (fun _ ↦ 9) 0 1).toOption.map
        fun r ↦ (r.1, (readDinode smallSb r.2.2 2).content r.2.2)) = some (1, [9]) := by
  obtain ⟨hempty, -, -⟩ := smallDisk_inodes 4 15
  have howned : Owned smallSb (smallDisk 4 15) (smallOwner 4) := by decide +kernel
  refine ⟨fun _ _ _ ↦ howned.inj, hempty, by decide,
    fun bn hbn ↦ absurd hbn (not_lt_zero _), by decide +kernel, by decide +kernel,
    by decide +kernel, by decide +kernel⟩

end EasyKernels.Xv6
