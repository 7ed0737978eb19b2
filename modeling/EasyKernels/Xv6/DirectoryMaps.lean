import EasyKernels.Xv6.DirectoryFiles

/-!
# Directories are finite maps

`directoryIsMap` says, for every sequence of `dirlink` and of clearing entries on one directory,
that no two entries in use have the same name, that `dirlookup` finds the entry of a name with its
offset, that `dirlink` returns -1 and changes nothing exactly when the name is there and otherwise
adds it, that clearing removes a name, and that both leave the other names alone. `dirlink` does
this exactly when `Op.Fits` holds: a name that is not there must have an inode number of 16 bits,
and a place.

A directory file has `MAXFILE` blocks at most. When all of its 4480 entries are in use, `dirlink`
of a new name does not return -1: `writei` does, and `dirlink` panics (`dirlink_panics`).
-/

set_option autoImplicit false

namespace EasyKernels.Xv6.DirectoryFiles

open Nat Option Lib Lib.Bytes Lib.Runs Lib.LinkTree
open List hiding lookup lookup_eq_none_iff

/-! ### Sequences of operations -/

/-- The operations on a directory. -/
inductive Op
  | dirlink (name : ℕ → UInt8) (inum : UInt32)
  | clear (name : ℕ → UInt8)

/-- `dirlink` is called with the number of an inode. -/
def Op.Valid : Op → Prop
  | .dirlink _ inum => inum ≠ 0
  | .clear _ => True

/-- A name that is to be added has an inode number that fits into an entry, and there is room. -/
def Op.Fits (s : State) : Op → Prop
  | .dirlink name inum =>
    lookup s.entries (cname name) = none → inum.toNat < 2 ^ 16 ∧ HasRoom s
  | .clear _ => True

/-- A directory in which no name is twice. -/
structure IsMap (sb : SuperBlock) (dp : ℕ) (s : State) : Prop extends IsDirectory sb dp s where
  distinct : DistinctNames s.entries

section Runs

variable (devsw : Devsw) (sb : SuperBlock) (dp : ℕ) (s : State)

def step : Op → Outcome Panic State
  | .dirlink name inum => .ofExcept ((dirlink devsw sb dp s name inum).map Prod.snd)
  | .clear name => .ofExcept ((clearEntry devsw sb dp s name).map Prod.snd)

/-- What `dirlookup` returns: the inode number and the offset of the entry. -/
def found (name : ℕ → UInt8) : Except Panic (Option (ℕ × UInt32)) :=
  (dirlookup devsw sb s name).map Prod.fst

/-- A name is in the directory. -/
def Present (name : ℕ → UInt8) : Prop :=
  ∃ de ∈ s.entries, de.inum ≠ 0 ∧ de.name = cname name

/-- `dirlink` returns -1 and changes nothing when the name is there, adds it when it is not, and
leaves the other names. -/
def Links (name : ℕ → UInt8) (inum : UInt32) : Prop :=
  ∃ r s', dirlink devsw sb dp s name inum = .ok (r, s') ∧ (r = -1 ↔ Present s name) ∧
    (r = -1 → s' = s) ∧ (r ≠ -1 → ∃ off, found devsw sb s' name = .ok (some (inum.toNat, off))) ∧
    ∀ other, cname other ≠ cname name → found devsw sb s' other = found devsw sb s other

/-- The clearing of an entry removes the name, and leaves the other names. -/
def Clears (name : ℕ → UInt8) : Prop :=
  ∃ r s', clearEntry devsw sb dp s name = .ok (r, s') ∧ (r = -1 ↔ ¬ Present s name) ∧
    (r = -1 → s' = s) ∧ found devsw sb s' name = .ok none ∧
    ∀ other, cname other ≠ cname name → found devsw sb s' other = found devsw sb s other

end Runs

variable {devsw : Devsw} {sb : SuperBlock} {dp : ℕ} {s s' : State} {name : ℕ → UInt8}
  {inum : UInt32}

/-! ### One operation -/

theorem present_iff : Present s name ↔ lookup s.entries (cname name) ≠ none := by
  rw [Ne, lookup_eq_none_iff, Present]
  push Not
  constructor
  · rintro ⟨⟨i, name'⟩, hmem, hinum, rfl⟩
    obtain ⟨k, hk⟩ := mem_iff_getElem?.mp hmem
    exact ⟨k, i, hk, hinum⟩
  · rintro ⟨k, i, hk, hi⟩
    exact ⟨_, mem_of_getElem? hk, hi, rfl⟩

theorem found_eq (h : IsDirectory sb dp s) (name : ℕ → UInt8) :
    found devsw sb s name = .ok ((lookup s.entries (cname name)).map fun r ↦
      (r.1, UInt32.ofNat (direntSize * r.2))) := by
  rw [found, dirlookup_eq h]
  rfl

theorem found_congr (h : IsDirectory sb dp s) (h' : IsDirectory sb dp s')
    (hsame : lookup s'.entries (cname name) = lookup s.entries (cname name)) :
    found devsw sb s' name = found devsw sb s name := by
  rw [found_eq h, found_eq h', hsame]

section

variable (h : IsMap sb dp s)

include h

/-- `dirlookup` returns the inode number of the entry with the name, and its offset. -/
theorem found_eq_some_iff {i : ℕ} {off : UInt32} : found devsw sb s name = .ok (some (i, off)) ↔
      ∃ k, off.toNat = direntSize * k ∧ i ≠ 0 ∧
        s.entries[k]? = some ⟨i, cname name⟩ := by
  rw [found_eq h.toIsDirectory, Except.ok.injEq, map_eq_some_iff]
  constructor
  · rintro ⟨⟨i', k⟩, hlookup, heq⟩
    cases heq
    obtain ⟨hi, hk⟩ := lookup_eq_some hlookup
    obtain ⟨hlt, -⟩ := List.getElem?_eq_some_iff.mp hk
    exact ⟨k, h.toNat_off hlt.le, hi, hk⟩
  · rintro ⟨k, hoff, hi, hk⟩
    refine ⟨(i, k), h.distinct.lookup_eq_some_iff.mpr ⟨hi, hk⟩, ?_⟩
    rw [Prod.mk.injEq]
    refine ⟨rfl, UInt32.toNat_inj.mp ?_⟩
    obtain ⟨hlt, -⟩ := List.getElem?_eq_some_iff.mp hk
    rw [h.toNat_off hlt.le, hoff]

/-- What `dirlink` does where it can, with the directory it leaves. -/
theorem dirlink_links (hinum : inum ≠ 0) (hfits : (Op.dirlink name inum).Fits s)
    (hblocks : dirlink devsw sb dp s name inum ≠ .error (.fs .outOfBlocks)) :
    Links devsw sb dp s name inum ∧
      ∀ r s', dirlink devsw sb dp s name inum = .ok (r, s') → IsMap sb dp s' := by
  cases hlookup : lookup s.entries (cname name) with
  | some r =>
    have hsome : lookup s.entries (cname name) ≠ none := by simp [hlookup]
    have hlink : dirlink devsw sb dp s name inum = .ok (-1, s) :=
      dirlink_of_found h.toIsDirectory inum hsome
    refine ⟨⟨-1, s, hlink, iff_of_true rfl (present_iff.mpr hsome), fun _ ↦ rfl,
      fun hne ↦ absurd rfl hne, fun _ _ ↦ rfl⟩, fun r s' hok ↦ ?_⟩
    cases hlink.symm.trans hok
    exact h
  | none =>
    obtain ⟨hlt, hroom⟩ := hfits hlookup
    rcases dirlink_spec devsw h.toIsDirectory inum hlookup hroom with
      ⟨s', hlink, hdir, hentries⟩ | ⟨herror, -⟩
    · rw [mod_eq_of_lt hlt] at hentries
      have hmap : IsMap sb dp s' := ⟨hdir, hentries ▸ h.distinct.insertEntry hlookup⟩
      have hne : inum.toNat ≠ 0 := fun hzero ↦ hinum (UInt32.toNat_inj.mp hzero)
      have hnew : ∀ other, lookup s'.entries other = if other = cname name
          then some (inum.toNat, freeIndex s.entries) else lookup s.entries other := by
        intro other
        rw [hentries, h.distinct.lookup_insertEntry hne hlookup]
      refine ⟨⟨0, s', hlink, iff_of_false (by decide) ?_, fun hr ↦ absurd hr (by decide),
        fun _ ↦ ⟨UInt32.ofNat (direntSize * freeIndex s.entries), ?_⟩, fun other hother ↦ ?_⟩,
        fun r t hok ↦ ?_⟩
      · rw [present_iff, not_not, hlookup]
      · rw [found_eq hdir, hnew, if_pos rfl]
        rfl
      · exact found_congr h.toIsDirectory hdir (by rw [hnew, if_neg hother])
      · cases hlink.symm.trans hok
        exact hmap
    · exact absurd herror hblocks

/-- Where it cannot, the name is not found afterwards under its number, or `dirlink` panics. -/
theorem not_links (hfits : ¬ (Op.dirlink name inum).Fits s) : ¬ Links devsw sb dp s name inum := by
  simp only [Op.Fits, Classical.not_imp] at hfits
  obtain ⟨hlookup, hbad⟩ := hfits
  rintro ⟨r, s', hlink, hr, -, hadded, -⟩
  by_cases hroom : HasRoom s
  · have hlarge : 2 ^ 16 ≤ inum.toNat := not_lt.mp fun hlt ↦ hbad ⟨hlt, hroom⟩
    have hne : r ≠ -1 := fun heq ↦ present_iff.mp (hr.mp heq) hlookup
    obtain ⟨off, hfound⟩ := hadded hne
    rcases dirlink_spec devsw h.toIsDirectory inum hlookup hroom with
      ⟨t, hok, hdir, -⟩ | ⟨herror, -⟩
    · cases hlink.symm.trans hok
      rw [found_eq hdir, Except.ok.injEq, map_eq_some_iff] at hfound
      obtain ⟨⟨i, k⟩, hlookup', heq⟩ := hfound
      cases heq
      have hlt := inum_lt_of_mem (mem_of_getElem? (lookup_eq_some hlookup').2)
      exact not_le.mpr hlt hlarge
    · cases hlink.symm.trans herror
  · rw [dirlink_of_full h.toIsDirectory inum hlookup hroom] at hlink
    cases hlink

theorem clearEntry_clears (name : ℕ → UInt8) : Clears devsw sb dp s name ∧
      ∀ r s', clearEntry devsw sb dp s name = .ok (r, s') → IsMap sb dp s' := by
  cases hlookup : lookup s.entries (cname name) with
  | none =>
    have hclear : clearEntry devsw sb dp s name = .ok (-1, s) :=
      clearEntry_of_absent h.toIsDirectory hlookup
    refine ⟨⟨-1, s, hclear, iff_of_true rfl ?_, fun _ ↦ rfl, ?_, fun _ _ ↦ rfl⟩, fun r s' hok ↦ ?_⟩
    · rw [present_iff, not_not, hlookup]
    · rw [found_eq h.toIsDirectory, hlookup]
      rfl
    · cases hclear.symm.trans hok
      exact h
  | some r =>
    obtain ⟨s', hclear, hdir, hentries⟩ : ∃ s', clearEntry devsw sb dp s name = .ok (0, s') ∧ _ :=
      clearEntry_spec h.toIsDirectory hlookup
    have hmap : IsMap sb dp s' := ⟨hdir, hentries ▸ h.distinct.clear inum_zeros r.2⟩
    have hgone : ∀ other, lookup s'.entries other =
        if other = cname name then none else lookup s.entries other := by
      intro other
      rw [hentries, h.distinct.lookup_clear inum_zeros hlookup]
    refine ⟨⟨0, s', hclear, iff_of_false (by decide) ?_, fun hr ↦ absurd hr (by decide), ?_,
      fun other hother ↦ ?_⟩, fun r t hok ↦ ?_⟩
    · rw [not_not, present_iff, hlookup]
      simp
    · rw [found_eq hdir, hgone, if_pos rfl]
      rfl
    · exact found_congr h.toIsDirectory hdir (by rw [hgone, if_neg hother])
    · cases hclear.symm.trans hok
      exact hmap

/-- An operation that fits leaves a directory in which no name is twice. -/
theorem step_isMap {op : Op} (hvalid : op.Valid) (hfits : op.Fits s)
    (hstep : step devsw sb dp s op = .next s') : IsMap sb dp s' := by
  cases op with
  | dirlink =>
    obtain ⟨⟨r, t⟩, hok, rfl⟩ := map_eq_ok.mp (Outcome.ofExcept_eq_next.mp hstep)
    exact (dirlink_links h hvalid hfits (by rw [hok]; simp)).2 r t hok
  | clear name =>
    obtain ⟨⟨r, t⟩, hok, rfl⟩ := map_eq_ok.mp (Outcome.ofExcept_eq_next.mp hstep)
    exact (clearEntry_clears h name).2 r t hok

end

/-! ### The theorem -/

/-- A directory is a finite map after every sequence of operations that fit. Assumes: `dirlink` is
called with inode numbers, and `balloc` finds the blocks it looks for. -/
theorem directoryIsMap (devsw : Devsw) (sb : SuperBlock) (dp : ℕ) {s₀ s : State} {ops : List Op}
    (hstart : IsMap sb dp s₀)
    (hmeets : Meets (step devsw sb dp) (fun s op ↦ op.Valid ∧ op.Fits s) s₀ ops)
    (hrun : run (step devsw sb dp) s₀ ops = some s) :
    DistinctNames s.entries ∧
      (∀ name, ∃ r, found devsw sb s name = .ok r ∧ ∀ i off, r = some (i, off) ↔
        ∃ k, off.toNat = direntSize * k ∧ i ≠ 0 ∧
          s.entries[k]? = some { inum := i, name := cname name }) ∧
      (∀ name inum, inum ≠ 0 → dirlink devsw sb dp s name inum ≠ .error (.fs .outOfBlocks) →
        (Links devsw sb dp s name inum ↔ (Op.dirlink name inum).Fits s)) ∧
      ∀ name, Clears devsw sb dp s name := by
  have hmap : IsMap sb dp s := run_induction_of_meets (I := fun _ s ↦ IsMap sb dp s) hstart
    (fun _ _ _ _ _ h hop hstep ↦ step_isMap h hop.1 hop.2 hstep) hmeets hrun
  refine ⟨hmap.distinct, fun name ↦ ⟨_, found_eq hmap.toIsDirectory name, fun i off ↦ ?_⟩,
    fun name inum hinum hblocks ↦ ⟨fun hlinks ↦ ?_, fun hfits ↦ ?_⟩,
    fun name ↦ (clearEntry_clears hmap name).1⟩
  · have hiff : found devsw sb s name = .ok (some (i, off)) ↔ _ := found_eq_some_iff hmap
    rwa [found_eq hmap.toIsDirectory, Except.ok.injEq] at hiff
  · by_contra hfits
    exact not_links hmap hfits hlinks
  · exact (dirlink_links hmap hinum hfits hblocks).1

/-! ### A full directory -/

/-- A file system with 143 data blocks, from block 4 on. -/
def fullSb : SuperBlock where
  size := 147
  nblocks := 143
  ninodes := 2
  nlog := 0
  logstart := 2
  inodestart := 2
  bmapstart := 3

/-- A byte of the directory file: entry `k` is for inode 1 and has a name of two bytes. -/
def fullByte (i : ℕ) : UInt8 :=
  if i % 16 = 0 then 1
  else if i % 16 = 2 then UInt8.ofNat (1 + i / 16 % 128)
  else if i % 16 = 3 then UInt8.ofNat (1 + i / 16 / 128)
  else 0

/-- The directory has all data blocks but two: 16 is the indirect block, which lists the blocks
after it. -/
def fullInode : Dinode :=
  { Dinode.zero with
    type := tDir
    nlink := 1
    size := UInt32.ofNat (maxFile * bSize)
    addrs := fun k ↦ UInt32.ofNat (4 + k.val) }

/-- A block of the directory file. -/
def fullBlock (bn : ℕ) : Block := fun i ↦ fullByte (bn * bSize + i.val)

/-- The free map: blocks 145 and 146 are free. -/
def fullMap : Block := fun i ↦ if i.val = 18 then 249 else 255

/-- The indirect block, with the numbers from 17 on. -/
def fullIndirect : Block := fun i ↦ if i.val % 4 = 0 then UInt8.ofNat (17 + i.val / 4) else 0

def fullBlocks : Disk := fun b ↦
  if b = 1 then (zero bSize).putFields
    [(0, 4, 147), (4, 4, 143), (8, 4, 2), (16, 4, 2), (20, 4, 2), (24, 4, 3)]
  else if b = 2 then zero bSize
  else if b = 3 then fullMap
  else if b = 16 then fullIndirect
  else if b < 16 then fullBlock (b - 4)
  else fullBlock (b - 5)

def full : State where
  inode := fullInode
  disk := writeDinode fullSb fullBlocks 1 fullInode

/-- The place of a block number in the directory. -/
def fullOwner (b : ℕ) : Option (ℕ × Slot) :=
  if h : 4 ≤ b ∧ b - 4 < nDirect + 1 then some (1, .addr ⟨b - 4, h.2⟩)
  else if h : 17 ≤ b ∧ b - 17 < nIndirect then some (1, .entry ⟨b - 17, h.2⟩)
  else none

theorem full_sound : Sound fullSb full.disk (readDinode fullSb full.disk) := by
  have howned : Owned fullSb full.disk fullOwner := by decide +kernel
  refine howned.sound ⟨by decide, by decide, by decide, by decide⟩ (by decide +kernel)
    (fun b x hb ↦ ?_) (by decide +kernel) (by decide +kernel)
  have hdirect : nDirect = 12 := rfl
  have hindirect : nIndirect = 128 := rfl
  have hrange : 4 ≤ b ∧ b < 145 := by
    rw [fullOwner] at hb
    split_ifs at hb <;> omega
  exact ⟨hrange.1, hrange.2.trans (by decide)⟩

theorem full_block : ∀ bn < 140,
    full.inode.block full.disk bn = some (if bn < 12 then 4 + bn else 5 + bn) := by
  decide +kernel

variable {b j bn k : ℕ}

theorem full_disk_block (hbn : bn < 140) :
    full.disk (if bn < 12 then 4 + bn else 5 + bn) = fullBlock bn := by
  have hne : (if bn < 12 then 4 + bn else 5 + bn) ≠ 2 := by split_ifs <;> omega
  refine (writeDinode_of_ne fullSb fullBlocks fullInode hne).trans ?_
  rw [fullBlocks]
  split_ifs <;> first | omega | rw [Nat.add_sub_cancel_left]

theorem full_content : full.inode.content full.disk = (range 71680).map fullByte := by
  refine map_congr_left fun i hi ↦ ?_
  have hlt : i < 71680 := mem_range.mp hi
  have hbn : i / bSize < 140 := Nat.div_lt_of_lt_mul hlt
  have hmod : i % bSize < bSize := mod_lt i (by decide)
  rw [Dinode.byte, full_block _ hbn]
  simp only
  rw [full_disk_block hbn, Bytes.get, dif_pos hmod, fullBlock, div_add_mod']

/-- The name of an entry. -/
def fullName (k : ℕ) : Name := [UInt8.ofNat (1 + k % 128), UInt8.ofNat (1 + k / 128)]

theorem ofNat_succ_ne_zero : ∀ n < 255, UInt8.ofNat (1 + n) ≠ 0 := by decide +kernel

theorem toNat_ofNat_succ : ∀ n < 255, (UInt8.ofNat (1 + n)).toNat = 1 + n := by decide +kernel

theorem full_chunk (hk : k < 4480) : chunk (full.inode.content full.disk) k =
    1 :: 0 :: (fullName k ++ replicate 12 0) := by
  have hchunk : chunk (full.inode.content full.disk) k =
      (range direntSize).map fun r ↦ fullByte (direntSize * k + r) := by
    refine ext_getElem? fun r ↦ ?_
    rw [getElem?_chunk, full_content, direntSize]
    by_cases hr : r < 16
    · rw [if_pos hr, getElem?_map, getElem?_map, getElem?_range (by omega), getElem?_range hr]
      rfl
    · rw [if_neg hr, getElem?_eq_none (by simpa using hr)]
  have hbyte : ∀ r < direntSize, fullByte (direntSize * k + r) =
      if r = 0 then 1 else if r = 2 then UInt8.ofNat (1 + k % 128)
      else if r = 3 then UInt8.ofNat (1 + k / 128) else 0 := by
    intro r hr
    rw [direntSize] at hr ⊢
    rw [fullByte, show (16 * k + r) % 16 = r by omega, show (16 * k + r) / 16 = k by omega]
  rw [hchunk, map_congr_left fun r hr ↦ hbyte r (mem_range.mp hr)]
  rfl

theorem full_entries : full.entries =
    (range 4480).map fun k ↦ ⟨1, fullName k⟩ := by
  have hlen : (full.inode.content full.disk).length / direntSize = 4480 := by
    rw [full_content, length_map, length_range]
    rfl
  rw [State.entries, dirents, hlen]
  refine map_congr_left fun k hk ↦ ?_
  have hlt : k < 4480 := mem_range.mp hk
  rw [full_chunk hlt, direntOf, Dirent.mk.injEq]
  refine ⟨by simp [deInum, leValue], ?_⟩
  rw [fullName]
  have hfirst := ofNat_succ_ne_zero (k % 128) (by omega)
  have hsecond := ofNat_succ_ne_zero (k / 128) (by omega)
  generalize UInt8.ofNat (1 + k % 128) = first at hfirst ⊢
  generalize UInt8.ofNat (1 + k / 128) = second at hsecond ⊢
  simp [cname, deName, upTo, Directories.dirSiz, hfirst, hsecond]

theorem fullName_inj (hj : j < 4480) (hk : k < 4480) (h : fullName j = fullName k) : j = k := by
  simp only [fullName, cons.injEq, and_true, ← UInt8.toNat_inj] at h
  rw [toNat_ofNat_succ _ (by omega), toNat_ofNat_succ _ (by omega), toNat_ofNat_succ _ (by omega),
    toNat_ofNat_succ _ (by omega)] at h
  omega

theorem full_getElem? {de : Dirent} (h : full.entries[k]? = some de) :
    k < 4480 ∧ de = ⟨1, fullName k⟩ := by
  rw [full_entries, getElem?_map] at h
  obtain ⟨l, hl, rfl⟩ := map_eq_some_iff.mp h
  obtain ⟨hlt, heq⟩ := List.getElem?_eq_some_iff.mp hl
  rw [getElem_range] at heq
  rw [length_range] at hlt
  exact ⟨hlt, by rw [heq]⟩

theorem full_isMap : IsMap fullSb 1 full where
  sound := full_sound
  lt := by decide
  stored := readDinode_writeDinode_self _ _ _ _
  dir := rfl
  full := fun bn hbn ↦ by
    have hlt : bn * 512 < 71680 := hbn
    exact ⟨_, full_block bn (by omega)⟩
  size_dvd := by decide
  size_le := by decide
  distinct := by
    intro j k de de' hj hk _ _ hname
    obtain ⟨hj', rfl⟩ := full_getElem? hj
    obtain ⟨hk', rfl⟩ := full_getElem? hk
    exact fullName_inj hj' hk' hname

/-- A name that the directory does not have. -/
def newName : ℕ → UInt8 := fun i ↦ if i = 0 then 97 else 0

theorem full_absent : lookup full.entries (cname newName) = none := by
  refine lookup_eq_none_iff.mpr fun k i hk ↦ ?_
  obtain ⟨-, heq⟩ := full_getElem? hk
  have hname := congrArg (fun de : Dirent ↦ de.name.length) heq
  have hlen : (cname newName).length = 1 := by decide
  simp only [hlen, fullName] at hname
  simp at hname

/-- The directory is well formed, the name is not in it and two blocks are free, but `dirlink` does
not add the name: it panics. -/
theorem dirlink_panics : IsMap fullSb 1 full ∧ ¬ Present full newName ∧
    freeBlocks fullSb full.disk = 2 ∧
    dirlink noDevices fullSb 1 full newName 1 = .error .dirlink := by
  refine ⟨full_isMap, ?_, by decide +kernel,
    dirlink_of_full full_isMap.toIsDirectory 1 full_absent ?_⟩
  · rw [present_iff, not_not]
    exact full_absent
  · rintro (hfree | hgrow)
    · have hzero := inum_freeIndex (getElem?_eq_getElem hfree)
      obtain ⟨-, heq⟩ := full_getElem? (getElem?_eq_getElem hfree)
      rw [heq] at hzero
      exact one_ne_zero hzero
    · exact absurd hgrow (by decide)

/-- The name of the first entry. -/
def firstName : ℕ → UInt8 := fun i ↦ if i < 2 then 1 else 0

theorem full_first : lookup full.entries (cname firstName) = some (1, 0) := by
  refine full_isMap.distinct.lookup_eq_some_iff.mpr ⟨one_ne_zero, ?_⟩
  rw [full_entries, getElem?_map, getElem?_range (by decide)]
  decide

/-- The first entry of the full directory is cleared. -/
theorem full_clear : ∃ s, clearEntry noDevices fullSb 1 full firstName = .ok (0, s) ∧
    IsDirectory fullSb 1 s ∧ lookup s.entries (cname newName) = none ∧
    freeIndex s.entries < s.entries.length := by
  obtain ⟨s, hclear, hdir, hentries⟩ : ∃ s, clearEntry noDevices fullSb 1 full firstName = _ ∧ _ :=
    clearEntry_spec full_isMap.toIsDirectory full_first
  refine ⟨s, hclear, hdir, ?_, ?_⟩
  · rw [hentries, full_isMap.distinct.lookup_clear inum_zeros full_first, full_absent]
    exact ite_self none
  · refine findIdx_lt_length_of_exists ⟨direntOf (replicate direntSize 0), ?_, ?_⟩
    · rw [hentries]
      exact mem_set (by simp [full_entries]) _
    · exact decide_eq_true inum_zeros

/-- An entry of the full directory is cleared, and then a new name is linked. -/
theorem directoryIsMap_full : ∃ s s' r off,
    run (step noDevices fullSb 1) full [.clear firstName] = some s ∧
      dirlink noDevices fullSb 1 s newName 7 = .ok (r, s') ∧ r ≠ -1 ∧
      found noDevices fullSb s' newName = .ok (some (7, off)) := by
  obtain ⟨s, hclear, hdir, habsent, hfree⟩ := full_clear
  have hrun : run (step noDevices fullSb 1) full [.clear firstName] = some s :=
    run_cons_eq_some.mpr ⟨s, by rw [step, hclear]; rfl, rfl⟩
  have hblocks : dirlink noDevices fullSb 1 s newName 7 ≠ .error (.fs .outOfBlocks) := by
    rcases dirlink_spec noDevices hdir 7 habsent (.inl hfree) with ⟨s', hok, -⟩ | ⟨-, hend, -⟩
    · rw [hok]
      simp
    · omega
  have hmeets : Meets (step noDevices fullSb 1) (fun s op ↦ op.Valid ∧ op.Fits s) full
      [.clear firstName] := meets_cons.mpr ⟨⟨trivial, trivial⟩, fun t _ ↦ meets_nil _ t⟩
  obtain ⟨-, -, hlinks, -⟩ := directoryIsMap noDevices fullSb 1 full_isMap hmeets hrun
  obtain ⟨r, s', hok, hr, -, hfound, -⟩ := (hlinks newName 7 (by decide) hblocks).mpr
    fun _ ↦ ⟨by decide, .inl hfree⟩
  have hne : r ≠ -1 := fun heq ↦ present_iff.mp (hr.mp heq) habsent
  obtain ⟨off, hoff⟩ := hfound hne
  exact ⟨s, s', r, off, hrun, hok, hne, hoff⟩

end EasyKernels.Xv6.DirectoryFiles
