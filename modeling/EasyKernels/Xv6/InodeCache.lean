import EasyKernels.Lib.Calls
import EasyKernels.Xv6.FileContent

/-!
# The inode cache, and block allocation along a run

The functions of `fs.c` that go through `icache` as a machine: a state is the disk and the entries
of the cache, an event is one call. `itrunc_spec` says that truncating an inode frees exactly the
blocks in its slots; it is reached from `iput` alone, when the last reference to an inode without
links goes.

`Inv` is what every call keeps: the disk is sound, the files have all their blocks, an inode is
cached at most once, and a valid entry is the inode on the disk. `blockAllocation` reads the
allocator's part off it: a data block is marked exactly when one slot of one allocated inode refers
to it, the blocks before the data blocks stay marked, and `bfree` finds every block it frees marked.

Scope. Calls are atomic here, which is what the inode locks and the buffer locks are for, and there
is one device. The inode numbers given to `iget` come from directory entries and are below
`sb.ninodes`. Callers of `iupdate` change `major`, `minor` and `nlink` and no other field.
-/

set_option autoImplicit false

namespace EasyKernels.Xv6

open Nat List Function Lib Lib.Bytes Lib.Runs

/-! ### `itrunc` -/

/-- A loop of `itrunc`: `bfree` of the block numbers that are not 0. -/
def freeEach {ι : Type*} (number : Disk → ι → ℕ) : List ι → Disk → Except FsPanic Disk
  | [], d => .ok d
  | i :: rest, d =>
    if number d i = 0 then freeEach number rest d
    else
      match bfree d (number d i) with
      | .ok d => freeEach number rest d
      | .error e => .error e

/-- The part of `itrunc` for the indirect block. -/
def freeIndirect (d : Disk) (ip : Dinode) : Except FsPanic Disk :=
  if ip.indirect = 0 then .ok d
  else
    match freeEach (fun d j ↦ indirectEntry d ip.indirect j.val) (List.finRange nIndirect) d with
    | .ok d => bfree d ip.indirect
    | .error e => .error e

def itrunc (sb : SuperBlock) (d : Disk) (inum : ℕ) (ip : Dinode) :
    Except FsPanic (Dinode × Disk) :=
  match freeEach (fun _ k ↦ (ip.addrs k.castSucc).toNat) (List.finRange nDirect) d with
  | .ok d =>
    match freeIndirect d ip with
    | .ok d =>
      let ip := { ip with size := 0, addrs := fun _ ↦ 0 }
      .ok (ip, writeDinode sb d inum ip)
    | .error e => .error e
  | .error e => .error e

/-- The blocks of a set are freed: their bits are clear, and nothing outside the free map
changes. -/
structure Freed (sb : SuperBlock) (d : Disk) (blocks : Set ℕ) (d' : Disk) : Prop where
  frame : ∀ x, x ∉ sb.bitmap → d' x = d x
  bit_iff : ∀ x < sb.size, bmapBit sb d' x = true ↔ bmapBit sb d x = true ∧ x ∉ blocks

section Free

variable {sb : SuperBlock} {d d' d'' : Disk} {B B' : Set ℕ}

theorem Freed.refl (sb : SuperBlock) (d : Disk) : Freed sb d ∅ d :=
  ⟨fun _ _ ↦ rfl, fun _ _ ↦ by simp⟩

theorem Freed.trans (h : Freed sb d B d') (h' : Freed sb d' B' d'') : Freed sb d (B ∪ B') d'' := by
  refine ⟨fun x hx ↦ (h'.frame x hx).trans (h.frame x hx), fun x hx ↦ ?_⟩
  rw [h'.bit_iff x hx, h.bit_iff x hx, Set.mem_union, not_or, and_assoc]

theorem Freed.readsb_eq (h : Freed sb d B d') (hlayout : Layout sb) : readsb d' = readsb d := by
  refine readsb_congr (h.frame 1 fun hmem ↦ ?_)
  exact (not_le.mpr hlayout.one_lt_bmapstart) hmem.1

/-- `bfree` of a block that is marked. -/
theorem bfree_spec (hlayout : Layout sb) (hsuper : readsb d = sb) {b : ℕ} (hb : b < sb.size)
    (hbit : bmapBit sb d b = true) : ∃ d', bfree d b = .ok d' ∧ Freed sb d {b} d' := by
  refine ⟨update d (sb.bblock b) ((d (sb.bblock b)).clearBit (b % bpb)), ?_,
    fun x hx ↦ ?_, fun x hx ↦ ?_⟩
  · simp only [bfree, hsuper, hbit, Bool.true_eq_false, if_false]
  · refine update_of_ne ?_ _ _
    rintro rfl
    exact hx (hlayout.bblock_mem hb)
  · rw [bmapBit_clearBit]
    by_cases hxb : x = b
    · simp [hxb]
    · simp [hxb]

/-- The loop frees the numbers in `r`, when they are marked and differ, and the loop still reads
them while the free map changes. -/
theorem freeEach_spec {ι : Type*} (number : Disk → ι → ℕ) (r : ι → Option ℕ) (l : List ι)
    (hlayout : Layout sb) (hsuper : readsb d = sb)
    (hnumber : ∀ d', (∀ x, x ∉ sb.bitmap → d' x = d x) → ∀ i, blockNumber (number d' i) = r i)
    (hmarked : ∀ i ∈ l, ∀ b, r i = some b → b < sb.size ∧ bmapBit sb d b = true)
    (hdistinct : l.Pairwise fun i j ↦ ∀ b, r i = some b → r j ≠ some b) :
    ∃ d', freeEach number l d = .ok d' ∧ Freed sb d { b | ∃ i ∈ l, r i = some b } d' := by
  induction l generalizing d with
  | nil =>
    refine ⟨d, rfl, ?_⟩
    simpa using Freed.refl sb d
  | cons i rest ih =>
    obtain ⟨hfirst, hrest⟩ := pairwise_cons.mp hdistinct
    have hi := hnumber d (fun _ _ ↦ rfl) i
    rw [freeEach]
    split_ifs with hzero
    · have hnone : r i = none := by rw [← hi, hzero]; rfl
      obtain ⟨d', hok, hfreed⟩ := ih hsuper hnumber
        (fun j hj ↦ hmarked j (mem_cons_of_mem _ hj)) hrest
      refine ⟨d', hok, ?_⟩
      simpa [hnone] using hfreed
    · have hsome : r i = some (number d i) := by
        rw [← hi]
        exact blockNumber_eq_some.mpr ⟨rfl, hzero⟩
      obtain ⟨hlt, hbit⟩ := hmarked i mem_cons_self _ hsome
      obtain ⟨d₁, hok, hfreed⟩ := bfree_spec hlayout hsuper hlt hbit
      rw [hok]
      obtain ⟨d', hok', hfreed'⟩ := ih ((hfreed.readsb_eq hlayout).trans hsuper)
        (fun d' hd' ↦ hnumber d' fun x hx ↦ (hd' x hx).trans (hfreed.frame x hx))
        (fun j hj b hb ↦ by
          obtain ⟨hb', hbit'⟩ := hmarked j (mem_cons_of_mem _ hj) b hb
          refine ⟨hb', (hfreed.bit_iff b hb').mpr ⟨hbit', ?_⟩⟩
          rintro rfl
          exact hfirst j hj _ hsome hb) hrest
      refine ⟨d', hok', ?_⟩
      have hboth := hfreed.trans hfreed'
      have hset : { b | ∃ j ∈ i :: rest, r j = some b } =
          {number d i} ∪ { b | ∃ j ∈ rest, r j = some b } := by
        ext b
        simp [hsome, eq_comm]
      rwa [hset]

end Free

/-- The block numbers in the indirect block, and its own. -/
def Dinode.indirectBlocks (ip : Dinode) (d : Disk) : Set ℕ :=
  { b | (∃ j, ip.ref d (.entry j) = some b) ∨ ip.ref d (.addr (Fin.last nDirect)) = some b }

section Truncate

variable {sb : SuperBlock} {inum : ℕ} {ip : Dinode} {d d' : Disk}
  (h : Sound sb d (update (readDinode sb d) inum ip)) (hlt : inum < sb.ninodes)
  (htype : ip.type ≠ 0)

include h hlt htype

open Dinode

/-- The slots of an inode are emptied and their blocks freed. -/
theorem Sound.release {ip' : Dinode} (hfreed : Freed sb d { b | ∃ s, ip.ref d s = some b } d')
    (hempty : ∀ s, ip'.ref d' s = none) : FileStep sb inum d ip' d' := by
  have hmap : ∀ x ∈ sb.data, d' x = d x :=
    fun x hx ↦ hfreed.frame x fun hmem ↦ (not_lt.mpr hx.1) hmem.2
  have hread : ∀ j < sb.ninodes, readDinode sb d' j = readDinode sb d j :=
    fun j hj ↦ readDinode_congr (hfreed.frame _ (h.layout.iblock_notMem_bitmap hj))
  have hothers : ∀ j < sb.ninodes, j ≠ inum → (readDinode sb d j).type ≠ 0 →
      (∀ s, (readDinode sb d j).ref d' s = (readDinode sb d j).ref d s) ∧
        ∀ i, (readDinode sb d j).byte d' i = (readDinode sb d j).byte d i := by
    intro j hj hne htype'
    refine same_of_blocks fun s x hx ↦ hmap x ?_
    exact h.owns.mem_pool (j, s) x (by rw [refs_other hne hj htype', hx])
  refine ⟨⟨h.layout, (hfreed.readsb_eq h.layout).trans h.super, ?_, fun b hb ↦ ?_⟩,
    fun j hj hne ↦ ⟨hread j hj, hothers j hj hne⟩⟩
  · refine h.owns.release { x | x.1 = inum } (fun x hx ↦ ?_) (fun x hx ↦ ?_) fun b hb ↦ ?_
    · obtain ⟨j, s⟩ := x
      obtain rfl : j = inum := hx
      simp [refs, hempty]
    · obtain ⟨j, s⟩ := x
      have hne : j ≠ inum := hx
      exact refs_congr_of_ne hne fun hj ↦ ⟨hread j hj, fun htype ↦ (hothers j hj hne htype).1 s⟩
    · rw [hfreed.bit_iff b hb.2]
      refine and_congr_right fun _ ↦ ⟨fun hnot x hx hrefs ↦ hnot ?_, fun hnot hmem ↦ ?_⟩
      · obtain ⟨j, s⟩ := x
        obtain rfl : j = inum := hx
        rw [refs_self hlt htype] at hrefs
        exact ⟨s, hrefs⟩
      · obtain ⟨s, hs⟩ := hmem
        exact hnot (inum, s) rfl (by rw [refs_self hlt htype, hs])
  · rw [hfreed.bit_iff b (hb.trans_le (sub_le _ _))]
    refine ⟨h.reserved b hb, fun hmem ↦ ?_⟩
    obtain ⟨s, hs⟩ := hmem
    exact absurd (h.mem_data hlt htype hs).1 (not_le.mpr hb)

/-- The slots of an inode have different blocks. -/
theorem Sound.slot_inj {s t : Slot} {b : ℕ} (hs : ip.ref d s = some b) (ht : ip.ref d t = some b) :
    s = t := by
  have heq := h.owns.inj (inum, s) (inum, t) b (by rw [refs_self hlt htype, hs])
    (by rw [refs_self hlt htype, ht])
  exact congrArg Prod.snd heq

theorem freeIndirect_spec {B : Set ℕ} (hfreed : Freed sb d B d')
    (hrest : ∀ j b, ip.ref d (.entry j) = some b → b ∉ B) (hindirect : ip.indirect ∉ B) :
    ∃ d'', freeIndirect d' ip = .ok d'' ∧ Freed sb d (B ∪ ip.indirectBlocks d) d'' := by
  rw [freeIndirect]
  by_cases hzero : ip.indirect = 0
  · refine ⟨d', by rw [if_pos hzero], ?_⟩
    have hnone : ip.indirectBlocks d = ∅ := by
      refine Set.eq_empty_iff_forall_notMem.mpr fun b hb ↦ ?_
      rcases hb with ⟨j, hj⟩ | hlast
      · simp [ref, hzero] at hj
      · exact (ref_indirect.mp hlast).2 ((ref_indirect.mp hlast).1.symm.trans hzero)
    rwa [hnone, Set.union_empty]
  · rw [if_neg hzero]
    have hlast : ip.ref d (.addr (Fin.last nDirect)) = some ip.indirect :=
      ref_indirect.mpr ⟨rfl, hzero⟩
    have hdata := h.mem_data hlt htype hlast
    have hsuper := (hfreed.readsb_eq h.layout).trans h.super
    have hread : ∀ d₁, (∀ x, x ∉ sb.bitmap → d₁ x = d' x) → ∀ j : Fin nIndirect,
        blockNumber (indirectEntry d₁ ip.indirect j) = ip.ref d (.entry j) := by
      intro d₁ hd₁ j
      have hout : ip.indirect ∉ sb.bitmap := fun hmem ↦ (not_lt.mpr hdata.1) hmem.2
      rw [ref, if_neg hzero, indirectEntry, indirectEntry, hd₁ _ hout, hfreed.frame _ hout]
    obtain ⟨d₁, hok, hfreed₁⟩ := freeEach_spec _ _ (finRange nIndirect) h.layout hsuper hread
      (fun j _ b hb ↦ by
        obtain ⟨hsize, hbit⟩ := h.marked hlt htype hb
        exact ⟨hsize, (hfreed.bit_iff b hsize).mpr ⟨hbit, hrest j b hb⟩⟩)
      ((nodup_finRange nIndirect).imp fun hne b hb hb' ↦
        hne (Slot.entry.inj (h.slot_inj hlt htype hb hb')))
    rw [hok]
    have hboth := hfreed.trans hfreed₁
    obtain ⟨hsize, hbit⟩ := h.marked hlt htype hlast
    have hnot : ip.indirect ∉
        B ∪ { b | ∃ j ∈ finRange nIndirect, ip.ref d (.entry j) = some b } := by
      rintro (hmem | ⟨j, -, hj⟩)
      · exact hindirect hmem
      · exact absurd (h.slot_inj hlt htype hj hlast) (by simp)
    obtain ⟨d'', hok', hfreed'⟩ := bfree_spec h.layout
      ((hboth.readsb_eq h.layout).trans h.super) hsize ((hboth.bit_iff _ hsize).mpr ⟨hbit, hnot⟩)
    refine ⟨d'', hok', ?_⟩
    have hset : B ∪ { b | ∃ j ∈ finRange nIndirect, ip.ref d (.entry j) = some b } ∪
        {ip.indirect} = B ∪ ip.indirectBlocks d := by
      rw [Set.union_assoc]
      congr 1
      ext b
      simp [indirectBlocks, hlast, eq_comm, or_comm]
    rw [← hset]
    exact hboth.trans hfreed'

/-- `itrunc` frees the blocks of the inode and no others, and never finds one of them free. -/
theorem itrunc_spec : ∃ d', itrunc sb d inum ip =
      .ok ({ ip with size := 0, addrs := fun _ ↦ 0 },
        writeDinode sb d' inum { ip with size := 0, addrs := fun _ ↦ 0 }) ∧
    FileStep sb inum d { ip with size := 0, addrs := fun _ ↦ 0 } d' := by
  obtain ⟨d₁, hok, hfreed⟩ := freeEach_spec (fun _ (k : Fin nDirect) ↦ (ip.addrs k.castSucc).toNat)
    (fun k ↦ ip.ref d (.addr k.castSucc)) (finRange nDirect) h.layout h.super (fun _ _ _ ↦ rfl)
    (fun k _ b hb ↦ h.marked hlt htype hb)
    ((nodup_finRange nDirect).imp fun hne b hb hb' ↦ hne (Fin.castSucc_injective _
      (Slot.addr.inj (h.slot_inj hlt htype hb hb'))))
  obtain ⟨d', hok', hfreed'⟩ := freeIndirect_spec h hlt htype hfreed (fun j b hb hmem ↦ by
      obtain ⟨k, -, hk⟩ := hmem
      exact absurd (h.slot_inj hlt htype hb hk) (by simp))
    (fun hmem ↦ by
      obtain ⟨k, -, hk⟩ := hmem
      have hne : ip.indirect ≠ 0 := (blockNumber_eq_some.mp hk).2
      have heq := h.slot_inj hlt htype hk (ref_indirect.mpr ⟨rfl, hne⟩)
      exact absurd (Slot.addr.inj heq) (Fin.castSucc_lt_last k).ne)
  refine ⟨d', by simp only [itrunc, hok, hok'], h.release hlt htype ?_ fun s ↦ ?_⟩
  · have hset : { b | ∃ k ∈ finRange nDirect, ip.ref d (.addr k.castSucc) = some b } ∪
        ip.indirectBlocks d = { b | ∃ s, ip.ref d s = some b } := by
      ext b
      simp only [mem_finRange, true_and]
      constructor
      · rintro (⟨k, hk⟩ | ⟨j, hj⟩ | hlast)
        · exact ⟨_, hk⟩
        · exact ⟨_, hj⟩
        · exact ⟨_, hlast⟩
      · rintro ⟨s, hs⟩
        cases s with
        | addr k =>
          refine Fin.lastCases (fun hk ↦ .inr (.inr hk)) (fun k hk ↦ .inl ⟨k, hk⟩) k hs
        | entry j => exact .inr (.inl ⟨j, hs⟩)
    rwa [hset] at hfreed'
  · cases s with
    | addr k => simp [ref, blockNumber]
    | entry j => simp [ref, indirect]

end Truncate

/-! ### One file changes -/

/-- An allocated inode that is not a device's has all its blocks. -/
def Dinode.Whole (ip : Dinode) (d : Disk) : Prop := ip.type ≠ 0 → ip.type ≠ tDev → ip.Full d

/-- What holds of the disk between calls. -/
structure DiskInv (sb : SuperBlock) (d : Disk) : Prop where
  sound : Sound sb d (readDinode sb d)
  whole : ∀ j < sb.ninodes, (readDinode sb d j).Whole d

section FileSteps

variable {sb : SuperBlock} {inum : ℕ} {ip ip' : Dinode} {d d' : Disk}

theorem DiskInv.fileStep_refl (h : DiskInv sb d) (hread : readDinode sb d inum = ip) :
    FileStep sb inum d ip d :=
  .refl h.sound hread

theorem DiskInv.step (h : DiskInv sb d) (hstep : FileStep sb inum d ip' d')
    (hstored : readDinode sb d' inum = ip') (hwhole : ip'.Whole d') : DiskInv sb d' := by
  refine ⟨hstep.sound_of_stored hstored, fun j hj ↦ ?_⟩
  by_cases hji : j = inum
  · rwa [hji, hstored]
  · obtain ⟨hsame, hkeep⟩ := hstep.others j hj hji
    rw [hsame]
    intro htype hdev
    exact (h.whole j hj htype hdev).congr rfl fun s b hs ↦ by rw [(hkeep htype).1, hs]

variable (h : DiskInv sb d) (hlt : inum < sb.ninodes) (hread : readDinode sb d inum = ip)
  (htype : ip.type ≠ 0)

include h hlt hread htype

omit htype in
theorem DiskInv.whole_of_read : ip.Whole d := hread ▸ h.whole inum hlt

/-- `readi` changes nothing. -/
theorem readi_step (devsw : Devsw) (off n : UInt32) :
    ∃ r bytes, readi devsw sb d ip off n = .ok (r, bytes, ip, d) := by
  by_cases hdev : ip.type = tDev
  · rw [readi, if_pos hdev]
    split
    · exact ⟨_, _, rfl⟩
    · exact ⟨_, _, rfl⟩
  · have hfull := h.whole_of_read hlt hread htype hdev
    by_cases hfails : ReadFails ip off n
    · exact ⟨_, _, (readi_spec hdev hfull off n).1 hfails⟩
    · exact ⟨_, _, (readi_spec hdev hfull off n).2 hfails⟩

/-- `writei` leaves the inode in core and on the disk the same, unless it runs out of blocks. -/
theorem writei_step (devsw : Devsw) (src : ℕ → UInt8) (off n : UInt32) :
    (∃ r ip' d', writei devsw sb d inum ip src off n = .ok (r, ip', d') ∧
        FileStep sb inum d ip' d' ∧ readDinode sb d' inum = ip' ∧ ip'.type = ip.type ∧
        ip'.Whole d') ∨
      writei devsw sb d inum ip src off n = .error .outOfBlocks := by
  have hwhole := h.whole_of_read hlt hread
  have hidle : ∀ r, writei devsw sb d inum ip src off n = .ok (r, ip, d) →
      ∃ r ip' d', writei devsw sb d inum ip src off n = .ok (r, ip', d') ∧
        FileStep sb inum d ip' d' ∧ readDinode sb d' inum = ip' ∧ ip'.type = ip.type ∧
        ip'.Whole d' :=
    fun r hr ↦ ⟨r, ip, d, hr, h.fileStep_refl hread, hread, rfl, hwhole⟩
  by_cases hdev : ip.type = tDev
  · refine .inl ?_
    have hdevice : ∃ r, writei devsw sb d inum ip src off n = .ok (r, ip, d) := by
      rw [writei, if_pos hdev]
      split
      · exact ⟨_, rfl⟩
      · exact ⟨_, rfl⟩
    obtain ⟨r, hr⟩ := hdevice
    exact hidle r hr
  · by_cases hfails : WriteFails ip off n
    · exact .inl (hidle _ (writei_of_fails hdev hfails))
    · rcases writei_spec h.sound hlt hread htype hdev (hwhole htype hdev) hfails with
        ⟨ip', d', hwrite, -, hfull, htype', hstored, hstep, -⟩ | ⟨herror, -⟩
      · exact .inl ⟨_, ip', d', hwrite, hstep, hstored, htype', fun _ _ ↦ hfull⟩
      · exact .inr herror

/-- `iupdate` after a change of fields that the allocator does not look at. -/
theorem iupdate_step (ip' : Dinode) (htype' : ip'.type = ip.type) (hsize : ip'.size = ip.size)
    (haddrs : ip'.addrs = ip.addrs) : FileStep sb inum d ip' (writeDinode sb d inum ip') ∧
      ip'.Whole (writeDinode sb d inum ip') := by
  obtain ⟨hstep, hfile⟩ := ((h.fileStep_refl hread).congr_inode htype' haddrs).iupdate hlt
  refine ⟨hstep, fun hne hdev ↦ ?_⟩
  rw [htype'] at hne hdev
  refine (h.whole_of_read hlt hread hne hdev).congr hsize fun s b hs ↦ ?_
  rw [(hfile (htype'.trans_ne htype)).1, (Dinode.same_of_addrs haddrs).1, hs]

/-- `itrunc` and the `iupdate` that frees the inode. -/
theorem ifree_step : ∃ d',
    itrunc sb d inum ip = .ok ({ ip with size := 0, addrs := fun _ ↦ 0 }, d') ∧
    FileStep sb inum d { ip with type := 0, size := 0, addrs := fun _ ↦ 0 }
      (writeDinode sb d' inum { ip with type := 0, size := 0, addrs := fun _ ↦ 0 }) := by
  obtain ⟨d₁, hok, hstep⟩ := itrunc_spec (h.fileStep_refl hread).sound hlt htype
  obtain ⟨hstored, -⟩ := hstep.iupdate hlt
  refine ⟨_, hok, FileStep.iupdate ?_ hlt |>.1⟩
  -- The inode refers to no block, so it does not matter whether it is allocated.
  refine ⟨⟨hstored.sound.layout, hstored.sound.super, hstored.sound.owns.congr (fun x ↦ ?_)
    fun _ _ ↦ rfl, hstored.sound.reserved⟩, hstored.others⟩
  obtain ⟨j, s⟩ := x
  rcases eq_or_ne j inum with rfl | hj
  · cases s <;> simp [refs, Dinode.ref, Dinode.indirect, blockNumber]
  · simp only [refs, update_of_ne hj]

omit hread htype in
/-- A free inode is allocated. -/
theorem ialloc_step (hfree : (readDinode sb d inum).type = 0) (type : UInt16) :
    FileStep sb inum d { Dinode.zero with type := type }
      (writeDinode sb d inum { Dinode.zero with type := type }) :=
  .alloc h.sound hlt hfree rfl

end FileSteps

/-! ### The machine -/

namespace InodeCache

/-- `struct inode`. -/
structure Inode where
  inum : ℕ
  ref : ℕ
  valid : Bool
  dinode : Dinode

/-- The disk and `icache`. -/
structure State where
  disk : Disk
  inode : Fin nInode → Inode

inductive Event
  | iget (inum : ℕ)
  | idup (k : Fin nInode)
  | ilock (k : Fin nInode)
  | readi (k : Fin nInode) (off n : UInt32)
  | writei (k : Fin nInode) (src : ℕ → UInt8) (off n : UInt32)
  /-- The caller sets fields of a locked inode and calls `iupdate`. -/
  | iupdate (k : Fin nInode) (major minor nlink : UInt16)
  | ialloc (type : UInt16)
  | iput (k : Fin nInode)

/-- The machine after boot. -/
def initial (disk : Disk) : State where
  disk := disk
  inode := fun _ ↦ { inum := 0, ref := 0, valid := false, dinode := Dinode.zero }

variable (s : State)

def State.setInode (k : Fin nInode) (ip : Inode) : State :=
  { s with inode := update s.inode k ip }

/-- The entry that holds an inode. -/
def State.lookup (inum : ℕ) : Option (Fin nInode) :=
  (List.finRange nInode).find? fun k ↦ 0 < (s.inode k).ref ∧ (s.inode k).inum = inum

/-- The first empty entry. -/
def State.empty : Option (Fin nInode) :=
  (List.finRange nInode).find? fun k ↦ (s.inode k).ref = 0

def State.iget (inum : ℕ) : Except FsPanic (Fin nInode × State) :=
  match s.lookup inum with
  | some k => .ok (k, s.setInode k { s.inode k with ref := (s.inode k).ref + 1 })
  | none =>
    match s.empty with
    | some k => .ok (k, s.setInode k { s.inode k with inum := inum, ref := 1, valid := false })
    | none => .error .igetNoInodes

variable (sb : SuperBlock)

def State.ilock (k : Fin nInode) : Except FsPanic State :=
  if (s.inode k).ref < 1 then .error .ilock
  else if (s.inode k).valid then .ok s
  else
    let dip := readDinode sb s.disk (s.inode k).inum
    if dip.type = 0 then .error .noType
    else .ok (s.setInode k { s.inode k with valid := true, dinode := dip })

/-- The inode that the scan of `ialloc` finds. -/
def freeInode (d : Disk) : Option ℕ :=
  (List.range' 1 (sb.ninodes - 1)).find? fun inum ↦ (readDinode sb d inum).type = 0

def State.ialloc (type : UInt16) : Except FsPanic (Fin nInode × State) :=
  match freeInode sb s.disk with
  | some inum =>
    State.iget { s with disk := writeDinode sb s.disk inum { Dinode.zero with type := type } } inum
  | none => .error .noInodes

/-- The part of `iput` that frees an inode without links when its last reference goes. -/
def State.ifree (k : Fin nInode) : Except FsPanic State :=
  if (s.inode k).valid ∧ (s.inode k).dinode.nlink = 0 ∧ (s.inode k).ref = 1 then
    match itrunc sb s.disk (s.inode k).inum (s.inode k).dinode with
    | .ok (ip, d) =>
      let ip := { ip with type := 0 }
      .ok { disk := writeDinode sb d (s.inode k).inum ip
            inode := update s.inode k { s.inode k with valid := false, dinode := ip } }
    | .error e => .error e
  else .ok s

def State.iput (k : Fin nInode) : Except FsPanic State :=
  match s.ifree sb k with
  | .ok s => .ok (s.setInode k { s.inode k with ref := (s.inode k).ref - 1 })
  | .error e => .error e

/-- One call. The caller of `readi`, `writei` and `iupdate` has the inode locked, and a reference is
dropped by someone who has one. -/
def step (devsw : Devsw) (s : State) : Event → Outcome FsPanic State
  | .iget inum =>
      if inum < sb.ninodes then Outcome.ofExcept ((s.iget inum).map Prod.snd) else .blocked
  | .idup k =>
    if 0 < (s.inode k).ref then
      .next (s.setInode k { s.inode k with ref := (s.inode k).ref + 1 })
    else .blocked
  | .ilock k => Outcome.ofExcept (s.ilock sb k)
  | .readi k off n =>
    if 0 < (s.inode k).ref ∧ (s.inode k).valid then
      Outcome.ofExcept ((Xv6.readi devsw sb s.disk (s.inode k).dinode off n).map fun r ↦
        { disk := r.2.2.2
          inode := update s.inode k { s.inode k with dinode := r.2.2.1 } })
    else .blocked
  | .writei k src off n =>
    if 0 < (s.inode k).ref ∧ (s.inode k).valid then
      Outcome.ofExcept
        ((Xv6.writei devsw sb s.disk (s.inode k).inum (s.inode k).dinode src off n).map fun r ↦
        { disk := r.2.2
          inode := update s.inode k { s.inode k with dinode := r.2.1 } })
    else .blocked
  | .iupdate k major minor nlink =>
    if 0 < (s.inode k).ref ∧ (s.inode k).valid then
      let ip := { (s.inode k).dinode with major := major, minor := minor, nlink := nlink }
      .next { disk := writeDinode sb s.disk (s.inode k).inum ip
              inode := update s.inode k { s.inode k with dinode := ip } }
    else .blocked
  | .ialloc type =>
    if type = 0 then .blocked else Outcome.ofExcept ((s.ialloc sb type).map Prod.snd)
  | .iput k => if 0 < (s.inode k).ref then Outcome.ofExcept (s.iput sb k) else .blocked

/-! ### The invariant -/

/-- What holds of the cache, over the disk: an inode is cached once, and a valid entry is the inode
on the disk. -/
structure CacheInv (sb : SuperBlock) (d : Disk) (inode : Fin nInode → Inode) : Prop where
  inum_lt : ∀ k, 0 < (inode k).ref → (inode k).inum < sb.ninodes
  stored : ∀ k, 0 < (inode k).ref → (inode k).valid = true →
    readDinode sb d (inode k).inum = (inode k).dinode ∧ (inode k).dinode.type ≠ 0
  unique : ∀ k l, 0 < (inode k).ref → 0 < (inode l).ref → (inode k).inum = (inode l).inum → k = l

/-- What every call keeps. -/
structure Inv (sb : SuperBlock) (s : State) : Prop where
  disk : DiskInv sb s.disk
  cache : CacheInv sb s.disk s.inode

variable {sb : SuperBlock} {devsw : Devsw} {s t : State} {d d' : Disk} {inode : Fin nInode → Inode}

variable {k : Fin nInode} {inum : ℕ}

/-- An entry of the cache is replaced, and the inodes of the other entries are still on the disk. -/
theorem CacheInv.set (h : CacheInv sb d inode) {ip : Inode}
    (hothers : ∀ l, l ≠ k → 0 < (inode l).ref → (inode l).valid = true →
      readDinode sb d' (inode l).inum = readDinode sb d (inode l).inum) (hlt : ip.inum < sb.ninodes)
    (hself : ip.valid = true → readDinode sb d' ip.inum = ip.dinode ∧ ip.dinode.type ≠ 0)
    (hnew : ∀ l, l ≠ k → 0 < (inode l).ref → (inode l).inum ≠ ip.inum) :
    CacheInv sb d' (update inode k ip) := by
  refine ⟨fun l ↦ ?_, fun l ↦ ?_, fun l m ↦ ?_⟩
  · rw [update_apply]
    split_ifs with hlk
    · exact fun _ ↦ hlt
    · exact h.inum_lt l
  · rw [update_apply]
    split_ifs with hlk
    · exact fun _ ↦ hself
    · intro hl hv
      rw [hothers l hlk hl hv]
      exact h.stored l hl hv
  · rw [update_apply, update_apply]
    split_ifs with hlk hmk hmk
    · exact fun _ _ _ ↦ hlk.trans hmk.symm
    · exact fun _ hm heq ↦ absurd heq.symm (hnew m hmk hm)
    · exact fun hl _ heq ↦ absurd heq (hnew l hlk hl)
    · exact h.unique l m

theorem CacheInv.inum_ne (h : CacheInv sb d inode) (href : 0 < (inode k).ref) (l : Fin nInode)
    (hl : l ≠ k) (hlref : 0 < (inode l).ref) : (inode l).inum ≠ (inode k).inum :=
  fun heq ↦ hl (h.unique l k hlref href heq)

/-- An entry in use is replaced by one for the same inode. -/
theorem Inv.setInode (h : Inv sb s) {ip : Inode} (href : 0 < (s.inode k).ref)
    (hinum : ip.inum = (s.inode k).inum) (hself : ip.valid = true →
      readDinode sb s.disk (s.inode k).inum = ip.dinode ∧ ip.dinode.type ≠ 0) :
    Inv sb (s.setInode k ip) := by
  refine ⟨h.disk, h.cache.set (fun _ _ _ _ ↦ rfl) ?_ ?_ ?_⟩ <;> rw [hinum]
  · exact h.cache.inum_lt k href
  · exact hself
  · exact h.cache.inum_ne href

/-- A file changes, together with the entry that holds its inode. -/
theorem Inv.fileStep (h : Inv sb s) {ip' : Dinode} {node : Inode} (href : 0 < (s.inode k).ref)
    (hstep : FileStep sb (s.inode k).inum s.disk ip' d')
    (hstored : readDinode sb d' (s.inode k).inum = ip') (hwhole : ip'.Whole d')
    (hinum : node.inum = (s.inode k).inum)
    (hnode : node.valid = true → node.dinode = ip' ∧ ip'.type ≠ 0) :
    Inv sb { disk := d', inode := update s.inode k node } := by
  refine ⟨h.disk.step hstep hstored hwhole, h.cache.set (fun l hl hlref _ ↦ ?_) ?_ (fun hv ↦ ?_) ?_⟩
  · exact (hstep.others _ (h.cache.inum_lt l hlref) (h.cache.inum_ne href l hl hlref)).1
  · rw [hinum]
    exact h.cache.inum_lt k href
  · obtain ⟨hdinode, htype⟩ := hnode hv
    rw [hinum, hstored, hdinode]
    exact ⟨rfl, htype⟩
  · rw [hinum]
    exact h.cache.inum_ne href

theorem lookup_eq_some (h : s.lookup inum = some k) :
    0 < (s.inode k).ref ∧ (s.inode k).inum = inum := by
  simpa using find?_some h

theorem lookup_eq_none (h : s.lookup inum = none) (k : Fin nInode) (href : 0 < (s.inode k).ref) :
    (s.inode k).inum ≠ inum := by
  have hk := find?_eq_none.mp h k (mem_finRange k)
  simp only [decide_eq_true_eq, not_and] at hk
  exact hk href

/-- What a call may do: it keeps the invariant, and does not panic in `bfree`. -/
def Sane (sb : SuperBlock) : Outcome FsPanic State → Prop
  | .next t => Inv sb t
  | .fault e => e ≠ .freeingFreeBlock
  | .blocked => True

theorem Sane.guard {c : Prop} [Decidable c] {o : Outcome FsPanic State} (h : c → Sane sb o) :
    Sane sb (if c then o else .blocked) := by
  split_ifs with hc
  · exact h hc
  · trivial

theorem Inv.iget (h : Inv sb s) (hlt : inum < sb.ninodes) :
    Sane sb (.ofExcept ((s.iget inum).map Prod.snd)) := by
  unfold State.iget
  cases hlookup : s.lookup inum with
  | some l =>
    obtain ⟨href, -⟩ := lookup_eq_some hlookup
    exact h.setInode href rfl (h.cache.stored l href)
  | none =>
    cases hempty : s.empty with
    | none => exact nofun
    | some l =>
      exact ⟨h.disk, h.cache.set (fun _ _ _ _ ↦ rfl) hlt nofun
        fun m _ hmref ↦ lookup_eq_none hlookup m hmref⟩

theorem freeInode_eq_some (h : freeInode sb d = some inum) :
    inum < sb.ninodes ∧ (readDinode sb d inum).type = 0 := by
  have hfree := find?_some h
  have hmem := mem_range'_1.mp (mem_of_find?_eq_some h)
  exact ⟨by omega, by simpa using hfree⟩

theorem Inv.ialloc (h : Inv sb s) (type : UInt16) :
    Sane sb (.ofExcept ((s.ialloc sb type).map Prod.snd)) := by
  unfold State.ialloc
  cases hfree : freeInode sb s.disk with
  | none => exact nofun
  | some inum =>
    obtain ⟨hlt, htype⟩ := freeInode_eq_some hfree
    have hstep := ialloc_step h.disk hlt htype type
    refine Inv.iget ⟨h.disk.step hstep (readDinode_writeDinode_self _ _ _ _) ?_, ?_⟩ hlt
    · intro _ _ bn hbn
      exact absurd hbn (not_lt_zero _)
    · refine ⟨h.cache.inum_lt, fun l hl hv ↦ ?_, h.cache.unique⟩
      -- A valid entry holds an allocated inode, so its inode is another one.
      obtain ⟨hread, hne⟩ := h.cache.stored l hl hv
      have hother : (s.inode l).inum ≠ inum := by
        rintro rfl
        rw [hread] at htype
        exact hne htype
      rw [(hstep.others _ (h.cache.inum_lt l hl) hother).1]
      exact ⟨hread, hne⟩

theorem Inv.iput (h : Inv sb s) (href : 0 < (s.inode k).ref) :
    Sane sb (.ofExcept (s.iput sb k)) := by
  have hlt := h.cache.inum_lt k href
  unfold State.iput State.ifree
  by_cases hlast : (s.inode k).valid ∧ (s.inode k).dinode.nlink = 0 ∧ (s.inode k).ref = 1
  · obtain ⟨hread, htype⟩ := h.cache.stored k href hlast.1
    obtain ⟨d', hok, hstep⟩ := ifree_step h.disk hlt hread htype
    simp only [if_pos hlast, hok, State.setInode, update_self, update_idem]
    refine h.fileStep href hstep (readDinode_writeDinode_self _ _ _ _) ?_ rfl fun hv ↦ ?_
    · intro hne
      exact absurd rfl hne
    · cases hv
  · rw [if_neg hlast]
    exact h.setInode href rfl (h.cache.stored k href)

theorem Inv.ilock (h : Inv sb s) (k : Fin nInode) : Sane sb (.ofExcept (s.ilock sb k)) := by
  simp only [State.ilock]
  split_ifs with href hvalid hfree
  · exact nofun
  · exact h
  · exact nofun
  · exact h.setInode (by omega) rfl fun _ ↦ ⟨rfl, hfree⟩

/-- `bfree` is reached from `iput` alone, and there it finds every block marked. -/
theorem Inv.step (h : Inv sb s) (e : Event) : Sane sb (step sb devsw s e) := by
  cases e with
  | iget inum => exact .guard h.iget
  | idup k => exact .guard fun href ↦ h.setInode href rfl (h.cache.stored k href)
  | ilock k => exact h.ilock k
  | readi k off n =>
    refine .guard fun hcan ↦ ?_
    obtain ⟨hread, htype⟩ := h.cache.stored k hcan.1 hcan.2
    have hlt := h.cache.inum_lt k hcan.1
    obtain ⟨r, bytes, hok⟩ := readi_step h.disk hlt hread htype devsw off n
    rw [hok]
    exact h.fileStep hcan.1 (h.disk.fileStep_refl hread) hread (h.disk.whole_of_read hlt hread) rfl
      fun _ ↦ ⟨rfl, htype⟩
  | writei k src off n =>
    refine .guard fun hcan ↦ ?_
    obtain ⟨hread, htype⟩ := h.cache.stored k hcan.1 hcan.2
    rcases writei_step h.disk (h.cache.inum_lt k hcan.1) hread htype devsw src off n with
      ⟨r, ip', d', hok, hfile, hstored, htype', hwhole⟩ | herror
    · rw [hok]
      exact h.fileStep hcan.1 hfile hstored hwhole rfl fun _ ↦ ⟨rfl, htype'.trans_ne htype⟩
    · rw [herror]
      exact nofun
  | iupdate k major minor nlink =>
    refine .guard fun hcan ↦ ?_
    obtain ⟨hread, htype⟩ := h.cache.stored k hcan.1 hcan.2
    obtain ⟨hfile, hwhole⟩ := iupdate_step h.disk (h.cache.inum_lt k hcan.1) hread htype
      { (s.inode k).dinode with major := major, minor := minor, nlink := nlink } rfl rfl rfl
    exact h.fileStep hcan.1 hfile (readDinode_writeDinode_self _ _ _ _) hwhole rfl
      fun _ ↦ ⟨rfl, htype⟩
  | ialloc type =>
    simp only [InodeCache.step]
    split_ifs
    · trivial
    · exact h.ialloc type
  | iput k => exact .guard h.iput

/-- What `balloc` does on any disk. -/
theorem balloc_cases (sb : SuperBlock) (d : Disk) :
    (∃ b d', balloc sb d = .ok (b, d') ∧ bmapBit sb d b = false ∧ d' b = zero bSize) ∨
      balloc sb d = .error .outOfBlocks ∧ ∀ b < sb.size, bmapBit sb d b = true := by
  cases hscan : scanFree sb d with
  | none => exact .inr ⟨by simp [balloc, hscan], fun b hb ↦ scanFree_eq_none hscan hb⟩
  | some b =>
    exact .inl ⟨b, _, by rw [balloc, hscan], (scanFree_eq_some hscan).2, update_self _ _ _⟩

/-- Block allocation along every run from a disk that is sound and whose files have all their
blocks. -/
theorem blockAllocation {disk : Disk} (hsound : Sound sb disk (readDinode sb disk))
    (hwhole : ∀ j < sb.ninodes, (readDinode sb disk j).Whole disk) {es : List Event}
    (hrun : run (step sb devsw) (initial disk) es = some s) :
    (∀ b ∈ sb.data, bmapBit sb s.disk b = true ↔
        ∃! x, refs sb s.disk (readDinode sb s.disk) x = some b) ∧
      (∀ x y b, refs sb s.disk (readDinode sb s.disk) x = some b →
        refs sb s.disk (readDinode sb s.disk) y = some b → x = y) ∧
      (∀ b < sb.datastart, bmapBit sb s.disk b = true) ∧
      (∀ k, 0 < (s.inode k).ref → (s.inode k).valid = true →
        (s.inode k).dinode = readDinode sb s.disk (s.inode k).inum) ∧
      (∀ e, step sb devsw s e ≠ .fault .freeingFreeBlock) ∧
      ∀ d, (∃ b d', balloc sb d = .ok (b, d') ∧ bmapBit sb d b = false ∧ d' b = zero bSize) ∨
        balloc sb d = .error .outOfBlocks ∧ ∀ b < sb.size, bmapBit sb d b = true := by
  have hstart : Inv sb (initial disk) := by
    refine ⟨⟨hsound, hwhole⟩, fun k hk ↦ ?_, fun k hk ↦ ?_, fun k l hk ↦ ?_⟩
    all_goals exact absurd hk (not_lt_zero _)
  have hinv : Inv sb s := run_invariant hstart (fun u e t hu hnext ↦ by
    have hsane : Sane sb (step sb devsw u e) := hu.step e
    rwa [hnext] at hsane) hrun
  refine ⟨fun b hb ↦ hinv.disk.sound.owns.used_iff_existsUnique hb,
    hinv.disk.sound.owns.inj, hinv.disk.sound.reserved,
    fun k hk hv ↦ (hinv.cache.stored k hk hv).1.symm, fun e hfault ↦ ?_, balloc_cases sb⟩
  have hsane : Sane sb (step sb devsw s e) := hinv.step e
  rw [hfault] at hsane
  exact hsane rfl

/-- An inode is looked up and locked, its last link goes, and its last reference is dropped. -/
def removeFile (inum : ℕ) (k : Fin nInode) : List Event :=
  [.iget inum, .ilock k, .iupdate k 0 0 0, .iput k]

theorem smallDisk_whole {j : ℕ} (hj : j < smallSb.ninodes) :
    (readDinode smallSb (smallDisk 4 31) j).Whole (smallDisk 4 31) := by
  obtain ⟨hempty, hbyte, hfree⟩ := smallDisk_inodes 4 31
  have hlt : j < 3 := hj
  obtain rfl | rfl | rfl : j = 0 ∨ j = 1 ∨ j = 2 := by omega
  · exact fun htype ↦ absurd hfree htype
  · rw [hempty]
    exact fun _ _ bn hbn ↦ absurd hbn (not_lt_zero _)
  · rw [hbyte]
    exact fun _ _ ↦ oneByteFile_full

/-- The file of the small disk is removed, and its block is free. -/
theorem blockAllocation_removeFile : ∃ s, run (step smallSb noDevices) (initial (smallDisk 4 31))
      (removeFile 2 ⟨0, by decide⟩) = some s ∧ bmapBit smallSb s.disk 4 = false ∧
      ∀ b < 4, bmapBit smallSb s.disk b = true :=
  ⟨_, run_get (by decide +kernel), by decide +kernel,
    (blockAllocation smallDisk_sound (fun _ hj ↦ smallDisk_whole hj) (run_get _)).2.2.1⟩

/-- On a disk where an inode refers to the block of the free map, removing the file clears that
block's bit, though the free map was right about every data block. -/
theorem removeFile_frees_bitmap :
    (∀ b ∈ smallSb.data, bmapBit smallSb (smallDisk 3 15) b = true ↔
        ∃! x, refs smallSb (smallDisk 3 15) (readDinode smallSb (smallDisk 3 15)) x = some b) ∧
      (∀ x y b, refs smallSb (smallDisk 3 15) (readDinode smallSb (smallDisk 3 15)) x = some b →
        refs smallSb (smallDisk 3 15) (readDinode smallSb (smallDisk 3 15)) y = some b → x = y) ∧
      (∀ b < smallSb.datastart, bmapBit smallSb (smallDisk 3 15) b = true) ∧
      ∃ s, run (step smallSb noDevices) (initial (smallDisk 3 15))
        (removeFile 2 ⟨0, by decide⟩) = some s ∧ bmapBit smallSb s.disk 3 = false := by
  have hbits : ∀ b < 9, 4 ≤ b → bmapBit smallSb (smallDisk 3 15) b ≠ true := by decide +kernel
  have howned : Owned smallSb (smallDisk 3 15) (smallOwner 3) := by decide +kernel
  refine ⟨fun b hb ↦ iff_of_false (hbits b hb.2 hb.1) ?_, fun _ _ _ ↦ howned.inj, by decide +kernel,
    by decide +kernel⟩
  rintro ⟨x, hx, -⟩
  have howner := howned.eq hx
  rw [smallOwner] at howner
  split_ifs at howner with heq
  exact absurd hb.1 (heq ▸ by decide)

/-- A byte is written to a locked file, and the last reference is dropped. -/
def writeByte (inum : ℕ) (k : Fin nInode) : List Event :=
  [.iget inum, .ilock k, .writei k (fun _ ↦ 9) 0 1, .iput k]

/-- On a sound disk whose file has a size of one byte and no block, a write fills the hole, and
`iupdate` is not called since the size stays: the block is marked, and no inode refers to it. -/
theorem writeByte_leaks :
    Sound smallSb (smallDisk 0 15) (readDinode smallSb (smallDisk 0 15)) ∧
      ∃ s, run (step smallSb noDevices) (initial (smallDisk 0 15))
          (writeByte 2 ⟨0, by decide⟩) = some s ∧ bmapBit smallSb s.disk 4 = true ∧
        ∀ x, refs smallSb s.disk (readDinode smallSb s.disk) x ≠ some 4 := by
  have howned : Owned smallSb (smallDisk 0 15) fun _ ↦ none := by decide +kernel
  refine ⟨?_, ?_⟩
  · exact howned.sound smallSb_layout (by decide +kernel) (by simp) (by decide +kernel)
      (by decide +kernel)
  · obtain ⟨s, hrun, hbit, haddrs⟩ : ∃ s, run (step smallSb noDevices) (initial (smallDisk 0 15))
        (writeByte 2 ⟨0, by decide⟩) = some s ∧ bmapBit smallSb s.disk 4 = true ∧
          ∀ j < 3, ∀ k, (readDinode smallSb s.disk j).addrs k = 0 := by
      decide +kernel
    refine ⟨s, hrun, hbit, fun x ↦ ?_⟩
    obtain ⟨j, slot⟩ := x
    rw [refs]
    split_ifs with hj
    · cases slot <;> simp [Dinode.ref, Dinode.indirect, haddrs j hj.1, blockNumber]
    · simp

end InodeCache

end EasyKernels.Xv6
