import EasyKernels.Xv6.DirectoryFiles

/-!
# `mkfs`

The program that makes a file system image out of a list of files. `Image` is the image and the two
counters; `rsect` and `wsect` read and write a sector, and `iappend` adds bytes to a file by way of
`addrs[]` and the indirect block. A block is given out by counting `freeblock` up: the free map is
written at the end, with a bit for every block below it.

`Image.mapped` is the image with that free map already in its place. On it `iappend` is the
kernel's `writei` at the end of the file (`iappend_simulates`): counting up gives the block that
`balloc` would find. So what `FileContent` says about `writei` holds for the images that `mkfs`
makes.

Scope. `mkfs` runs on a machine of the byte order of the image, so that `xshort` and `xint` are the
identity. The image file can be opened and written, and a file that is opened can be read.
-/

set_option autoImplicit false

namespace EasyKernels.Xv6.Mkfs

open Nat List Function Lib Lib.Bytes Lib.Runs Lib.LinkTree
open Directories (nInodes nMeta nBlocks rootIno slash)
open DirectoryFiles (newEntry)

/-! ### The program -/

/-- How `mkfs` ends when it does not end with status 0. -/
inductive Exit
  | assertion
  | openFile
  | rsect
  deriving DecidableEq, Repr

/-- The image: its sectors as far as they have been written, and the counters of `mkfs`. -/
structure Image where
  disk : Disk
  sectors : ℕ
  freeinode : ℕ
  freeblock : ℕ

/-- `sb`. -/
def sb : SuperBlock where
  size := fsSize.toNat
  nblocks := nBlocks
  ninodes := nInodes
  nlog := logSize
  logstart := 2
  inodestart := 2 + logSize
  bmapstart := 2 + logSize + (nInodes / ipb + 1)

variable (s : Image)

def wsect (sec : ℕ) (buf : Block) : Image :=
  { s with disk := update s.disk sec buf, sectors := max s.sectors (sec + 1) }

def rsect (sec : ℕ) : Except Exit Block :=
  if sec < s.sectors then .ok (s.disk sec) else .error .rsect

def winode (inum : ℕ) (ip : Dinode) : Except Exit Image := do
  let buf ← rsect s (sb.iblock inum)
  pure (wsect s (sb.iblock inum) (buf.putFields (ip.fields (inum % ipb * 64))))

def rinode (inum : ℕ) : Except Exit Dinode := do
  let buf ← rsect s (sb.iblock inum)
  pure (Dinode.decode buf (inum % ipb * 64))

def ialloc (type : UInt16) : Except Exit (ℕ × Image) := do
  let inum := s.freeinode
  let s := { s with freeinode := s.freeinode + 1 }
  let s ← winode s inum { Dinode.zero with type := type, nlink := 1 }
  pure (inum, s)

/-- The free map of an image whose first blocks are in use. -/
def usedMap (used : ℕ) : Block := (List.range used).foldl (fun buf i ↦ buf.setBit i) (zero bSize)

def balloc (used : ℕ) : Except Exit Image :=
  if used < bSize * 8 then .ok (wsect s sb.bmapstart (usedMap used)) else .error .assertion

/-- The block number in an entry of `addrs[]`, the next free block if there is none. -/
def loadAddr (din : Dinode) (k : Fin (nDirect + 1)) : ℕ × Dinode × Image :=
  if din.addrs k = 0 then
    (s.freeblock, { din with addrs := update din.addrs k (UInt32.ofNat s.freeblock) },
      { s with freeblock := s.freeblock + 1 })
  else ((din.addrs k).toNat, din, s)

theorem direct_lt {fbn : ℕ} (h : fbn < nDirect) : fbn < nDirect + 1 :=
  h.trans (lt_succ_self _)

/-- The block `x` for block `fbn` of a file. -/
def blockFor (din : Dinode) (fbn : ℕ) : Except Exit (ℕ × Dinode × Image) :=
  if h : fbn < nDirect then .ok (loadAddr s din ⟨fbn, direct_lt h⟩)
  else do
    let (a, din, s) := loadAddr s din (Fin.last nDirect)
    let indirect ← rsect s a
    let entry := indirect.field (4 * (fbn - nDirect)) 4
    if entry = 0 then
      let s' := { s with freeblock := s.freeblock + 1 }
      pure (s.freeblock, din,
        wsect s' a (indirect.putField (4 * (fbn - nDirect)) 4 s.freeblock))
    else pure (entry, din, s)

/-- The loop of `iappend` over the bytes that are left. Every turn takes one at least. -/
def iappendLoop : ℕ → List UInt8 → ℕ → Dinode → Image → Except Exit (ℕ × Dinode × Image)
  | 0, _, off, din, s => .ok (off, din, s)
  | fuel + 1, p, off, din, s =>
    if p = [] then .ok (off, din, s)
    else
      let fbn := off / bSize
      if fbn < maxFile then do
        let (x, din, s) ← blockFor s din fbn
        let n1 := min p.length ((fbn + 1) * bSize - off)
        let buf ← rsect s x
        let s := wsect s x (buf.put (off - fbn * bSize) (p.take n1))
        iappendLoop fuel (p.drop n1) (off + n1) din s
      else .error .assertion

def iappend (inum : ℕ) (p : List UInt8) : Except Exit Image := do
  let din ← rinode s inum
  let (off, din, s) ← iappendLoop p.length p din.size.toNat din s
  winode s inum { din with size := UInt32.ofNat off }

/-- A file on the command line: its name, and what successive reads return. There is nothing to
read when it cannot be opened. -/
structure File where
  name : List UInt8
  chunks : Option (List (List UInt8))
  chunks_le : ∀ cs ∈ chunks, ∀ c ∈ cs, 0 < c.length ∧ c.length ≤ bSize

/-- The bytes of a file. -/
def File.bytes (file : File) : List UInt8 := (file.chunks.getD []).flatten

/-- `"_"`, which the names of the programs start with. -/
def underscore : UInt8 := 95

/-- The name in the file system, without a leading `_`. -/
def File.fsName (file : File) : List UInt8 :=
  if file.name.head? = some underscore then file.name.tail else file.name

/-- A string as the bytes from its address on. -/
def cstring (name : List UInt8) : ℕ → UInt8 := fun i ↦ name.getD i 0

/-- The loop that copies a file. -/
def appendChunks (inum : ℕ) : List (List UInt8) → Image → Except Exit Image
  | [], s => .ok s
  | buf :: rest, s => do
    let s ← iappend s inum buf
    appendChunks inum rest s

/-- One turn of the loop over the files. -/
def addFile (rootino : ℕ) (file : File) : Except Exit Image :=
  if slash ∈ file.name then .error .assertion
  else
    match file.chunks with
    | none => .error .openFile
    | some chunks => do
      let (inum, s) ← ialloc s tFile
      let s ← iappend s rootino (newEntry (cstring file.fsName) (UInt32.ofNat inum))
      appendChunks inum chunks s

def addFiles (rootino : ℕ) : List File → Image → Except Exit Image
  | [], s => .ok s
  | file :: rest, s => do
    let s ← addFile s rootino file
    addFiles rootino rest s

/-- The size of the root directory is made a number of whole blocks. -/
def fixRoot (rootino : ℕ) : Except Exit Image := do
  let din ← rinode s rootino
  winode s rootino { din with size := UInt32.ofNat ((din.size.toNat / bSize + 1) * bSize) }

/-- The image after the zeros and the super block have been written. -/
def blank : Image :=
  let empty : Image :=
    { disk := fun _ ↦ zero bSize, sectors := 0, freeinode := 1, freeblock := nMeta }
  let s := (List.range fsSize.toNat).foldl (fun s i ↦ wsect s i (zero bSize)) empty
  wsect s 1 ((zero bSize).putFields [(0, 4, sb.size), (4, 4, sb.nblocks), (8, 4, sb.ninodes),
    (12, 4, sb.nlog), (16, 4, sb.logstart), (20, 4, sb.inodestart), (24, 4, sb.bmapstart)])

/-- `main`, from the list of files to the image. -/
def mkfs (files : List File) : Except Exit Image := do
  let (rootino, s) ← ialloc blank tDir
  if rootino = rootIno then do
    let s ← iappend s rootino (newEntry (cstring dot) (UInt32.ofNat rootino))
    let s ← iappend s rootino (newEntry (cstring dotdot) (UInt32.ofNat rootino))
    let s ← addFiles rootino files s
    let s ← fixRoot s rootino
    balloc s s.freeblock
  else .error .assertion

/-! ### The free map -/

theorem sb_layout : Layout sb := ⟨by decide, by decide, by decide, by decide⟩

/-- The image with the free map that `balloc` would write. -/
def Image.mapped : Disk := update s.disk sb.bmapstart (usedMap s.freeblock)

/-- The image is all there, and the blocks that have not been given out are zeros. -/
structure Counted (s : Image) : Prop where
  sectors : s.sectors = sb.size
  low : sb.datastart ≤ s.freeblock
  high : s.freeblock ≤ sb.size
  fresh : ∀ b, s.freeblock ≤ b → b < sb.size → s.disk b = zero bSize

theorem usedMap_succ (used : ℕ) : usedMap (used + 1) = (usedMap used).setBit used := by
  rw [usedMap, range_succ, foldl_append]
  rfl

theorem bit_usedMap {used : ℕ} (hused : used ≤ bpb) (i : ℕ) :
    (usedMap used).bit i = decide (i < used) := by
  induction used with
  | zero =>
    have hzero : usedMap 0 = zero bSize := rfl
    rw [hzero, bit_eq_testBit, get_zero]
    simp
  | succ used ih =>
    have hlt : used < 8 * bSize := by
      rw [bpb] at hused
      omega
    rw [usedMap_succ, bit_setBit hlt, ih (by omega)]
    by_cases hi : i = used
    · simp [hi]
    · rw [if_neg hi, decide_eq_decide]
      omega

variable {s s' : Image} {inum : ℕ} {din : Dinode} {table : ℕ → Dinode}

variable {b : ℕ} {p : List UInt8}

theorem mapped_of_ne (hb : b ≠ sb.bmapstart) : s.mapped b = s.disk b :=
  update_of_ne hb _ _

theorem mapped_wsect {x : ℕ} (hx : x ≠ sb.bmapstart) (buf : Block) :
    (wsect s x buf).mapped = update s.mapped x buf :=
  update_comm hx _ _ _

/-- A data block is not the free map. -/
theorem ne_bmapstart (hb : b ∈ sb.data) : b ≠ sb.bmapstart := by
  rintro rfl
  exact absurd hb.1 (by decide)

section

variable (h : Counted s)

include h

/-- The kernel would find the block that `freeblock` counts. -/
theorem scanFree_mapped :
    scanFree sb s.mapped = if s.freeblock < sb.size then some s.freeblock else none := by
  have hhigh := h.high
  have hsize : sb.size = 1000 := rfl
  have hbpb : bpb = 4096 := rfl
  have hbit : ∀ i, (s.mapped sb.bmapstart).bit i = decide (i < s.freeblock) := by
    intro i
    rw [Image.mapped, update_self, bit_usedMap (by omega)]
  have hscan : scanFree sb s.mapped = scanBits sb (s.mapped sb.bmapstart) 0 := by
    have hrange : range ((sb.size + bpb - 1) / bpb) = [0] := by decide
    have hblock : sb.bblock 0 = sb.bmapstart := by decide
    rw [scanFree, hrange, findSome?_singleton, zero_mul, hblock]
  rw [hscan, scanBits]
  simp only [hbit, decide_eq_false_iff_not, not_lt, zero_add]
  split_ifs with hlt
  · rw [Option.map_eq_some_iff]
    refine ⟨s.freeblock, find?_range_eq_some.mpr ⟨?_, mem_range.mpr (by omega), ?_⟩, rfl⟩
    · simpa using hlt
    · simp only [Bool.not_eq_eq_eq_not, Bool.not_true, decide_eq_false_iff_not]
      omega
  · rw [Option.map_eq_none_iff, find?_eq_none]
    simp only [decide_eq_true_eq]
    omega

/-- Counting `freeblock` up is what the kernel's `balloc` does. -/
theorem balloc_mapped (hlt : s.freeblock < sb.size) : Xv6.balloc sb s.mapped =
      .ok (s.freeblock, { s with freeblock := s.freeblock + 1 : Image }.mapped) := by
  have hsize : sb.size = 1000 := rfl
  have hbpb : bpb = 4096 := rfl
  have hdata : s.freeblock ∈ sb.data := ⟨h.low, hlt⟩
  have hblock : sb.bblock s.freeblock = sb.bmapstart := by
    rw [SuperBlock.bblock, div_eq_of_lt (by omega), zero_add]
  rw [Xv6.balloc, scanFree_mapped h, if_pos hlt]
  simp only [hblock, mod_eq_of_lt (show s.freeblock < bpb by omega), Except.ok.injEq,
    Prod.mk.injEq, true_and]
  funext x
  rcases eq_or_ne x s.freeblock with rfl | hx
  · rw [update_self, mapped_of_ne (ne_bmapstart hdata), h.fresh _ le_rfl hlt]
  · rw [update_of_ne hx]
    rcases eq_or_ne x sb.bmapstart with rfl | hmap
    · rw [update_self, Image.mapped, update_self, Image.mapped,
        update_self, usedMap_succ]
    · rw [update_of_ne hmap, mapped_of_ne hmap, mapped_of_ne hmap]

theorem balloc_mapped_full (hfull : ¬ s.freeblock < sb.size) :
    Xv6.balloc sb s.mapped = .error .outOfBlocks := by
  rw [Xv6.balloc, scanFree_mapped h, if_neg hfull]

theorem Counted.next (hlt : s.freeblock < sb.size) :
    Counted { s with freeblock := s.freeblock + 1 } where
  sectors := h.sectors
  low := le_succ_of_le h.low
  high := hlt
  fresh := fun b hb hsize ↦ h.fresh b (le_of_succ_le hb) hsize

variable {x : ℕ}

/-- A block that has been given out is written. -/
theorem Counted.wsect (hx : x < s.freeblock) (buf : Block) : Counted (wsect s x buf) where
  sectors := by
    have hhigh := h.high
    have hsectors := h.sectors
    show max s.sectors (x + 1) = _
    omega
  low := h.low
  high := h.high
  fresh := fun b hb hsize ↦ by
    have hne : b ≠ x := by
      rintro rfl
      exact (not_le.mpr hx) hb
    exact (update_of_ne hne _ _).trans (h.fresh b hb hsize)

/-! ### `iappend` is `writei` -/

/-- The free map marks the blocks that have been given out. -/
theorem bmapBit_mapped {b : ℕ} (hb : b < sb.size) :
    bmapBit sb s.mapped b = decide (b < s.freeblock) := by
  have hsize : sb.size = 1000 := rfl
  have hbpb : bpb = 4096 := rfl
  have hhigh := h.high
  have hblock : sb.bblock b = sb.bmapstart := by
    rw [SuperBlock.bblock, div_eq_of_lt (by omega), zero_add]
  unfold bmapBit
  rw [hblock, Image.mapped, update_self, mod_eq_of_lt (by omega), bit_usedMap (by omega)]

/-- The block in a slot is a data block that has been given out. -/
theorem lt_freeblock (hsound : Sound sb s.mapped (update table inum din))
    (hlt : inum < sb.ninodes) (htype : din.type ≠ 0) {x : Slot} {a : ℕ}
    (ha : din.ref s.mapped x = some a) : a ∈ sb.data ∧ a < s.freeblock := by
  have hdata := hsound.mem_data hlt htype ha
  refine ⟨hdata, ?_⟩
  have hused := hsound.owns.used_of_owned ((refs_self hlt htype x).trans ha)
  rw [bmapBit_mapped h hdata.2] at hused
  exact of_decide_eq_true hused

theorem rsect_ok (hx : x < s.freeblock) : rsect s x = .ok (s.disk x) := by
  have hhigh := h.high
  have hsectors := h.sectors
  rw [rsect, if_pos (by omega)]

end

/-- A block that `mkfs` has given out, with the image after it. -/
structure Given (s : Image) (a : ℕ) (s' : Image) : Prop where
  counted : Counted s'
  mem_data : a ∈ sb.data
  lt : a < s'.freeblock
  freeinode : s'.freeinode = s.freeinode

section Simulation

variable (h : Counted s) (hsound : Sound sb s.mapped (update table inum din))
  (hlt : inum < sb.ninodes) (htype : din.type ≠ 0)

include h hsound hlt htype

/-- An entry of `addrs[]` is filled as in the kernel, or with a block past the end of the image. -/
theorem loadAddr_simulates (k : Fin (nDirect + 1)) : ∃ a din' s', loadAddr s din k = (a, din', s') ∧
      (Xv6.loadAddr sb s.mapped din k = .ok (a, din', s'.mapped) ∧ Given s a s' ∨
        Xv6.loadAddr sb s.mapped din k = .error .outOfBlocks ∧ s'.sectors ≤ a) := by
  unfold loadAddr Xv6.loadAddr
  by_cases hzero : din.addrs k = 0
  · refine ⟨_, _, _, if_pos hzero, ?_⟩
    rw [if_pos hzero]
    by_cases hfree : s.freeblock < sb.size
    · rw [balloc_mapped h hfree]
      exact .inl ⟨rfl, h.next hfree, ⟨h.low, hfree⟩, lt_succ_self _, rfl⟩
    · rw [balloc_mapped_full h hfree]
      exact .inr ⟨rfl, h.sectors.le.trans (not_lt.mp hfree)⟩
  · refine ⟨_, _, _, if_neg hzero, .inl ⟨if_neg hzero, ?_⟩⟩
    have href : din.ref s.mapped (.addr k) = some (din.addrs k).toNat :=
      blockNumber_eq_some.mpr ⟨rfl, fun heq ↦ hzero (UInt32.toNat_inj.mp (by simpa using heq))⟩
    obtain ⟨hdata, hused⟩ := lt_freeblock h hsound hlt htype href
    exact ⟨h, hdata, hused, rfl⟩

variable {a fbn : ℕ} {din' : Dinode}

omit h in
/-- An entry of the indirect block is a block that has been given out. -/
theorem indirect_given
    (hkernel : Xv6.loadAddr sb s.mapped din (Fin.last nDirect) = .ok (a, din', s'.mapped))
    (hgiven : Given s a s') {j : Fin nIndirect} (hne : (s'.disk a).field (4 * j) 4 ≠ 0) :
    (s'.disk a).field (4 * j) 4 ∈ sb.data ∧ (s'.disk a).field (4 * j) 4 < s'.freeblock := by
  have hmem : .addr (Fin.last nDirect) ∈ ({.addr (Fin.last nDirect)} : Finset Slot) :=
    Finset.mem_singleton_self _
  rcases loadAddr_spec hsound hlt htype hmem with ⟨a', ip', d', hok, hgrows, href⟩ | ⟨herror, -⟩
  · rw [hkernel, Except.ok.injEq, Prod.mk.injEq, Prod.mk.injEq] at hok
    obtain ⟨rfl, rfl, rfl⟩ := hok
    obtain ⟨hindirect, hne'⟩ := Dinode.ref_indirect.mp href
    have htype' : din'.type ≠ 0 := by rwa [hgrows.same]
    refine lt_freeblock hgiven.counted hgrows.sound hlt htype' (x := .entry j) ?_
    rw [Dinode.ref, if_neg (hindirect ▸ hne'), indirectEntry, hindirect,
      mapped_of_ne (ne_bmapstart hgiven.mem_data), blockNumber_eq_some]
    exact ⟨rfl, hne⟩
  · rw [hkernel] at herror
    cases herror

/-- A block of a file is found or allocated as `bmap` does it, or the next `rsect` fails. -/
theorem blockFor_simulates (hbn : fbn < maxFile) :
    (∃ a din' s', blockFor s din fbn = .ok (a, din', s') ∧
        bmap sb s.mapped din fbn = .ok (a, din', s'.mapped) ∧ Given s a s') ∨
      bmap sb s.mapped din fbn = .error .outOfBlocks ∧
        ((∃ e, blockFor s din fbn = .error e) ∨
          ∃ a din' s', blockFor s din fbn = .ok (a, din', s') ∧ s'.sectors ≤ a) := by
  unfold blockFor bmap
  by_cases hdirect : fbn < nDirect
  · rw [dif_pos hdirect, dif_pos hdirect]
    obtain ⟨a, din', s', hload, ⟨hkernel, hgiven⟩ | ⟨hkernel, hend⟩⟩ := loadAddr_simulates h hsound
      hlt htype ⟨fbn, hdirect.trans (lt_succ_self _)⟩
    · exact .inl ⟨a, din', s', by rw [hload], hkernel, hgiven⟩
    · exact .inr ⟨hkernel, .inr ⟨a, din', s', by rw [hload], hend⟩⟩
  · have hindirect : fbn - nDirect < nIndirect := by
      have hmax : maxFile = nDirect + nIndirect := rfl
      omega
    rw [dif_neg hdirect, dif_neg hdirect, if_pos hindirect]
    obtain ⟨a, din', s', hload, ⟨hkernel, hgiven⟩ | ⟨hkernel, hend⟩⟩ :=
      loadAddr_simulates h hsound hlt htype (Fin.last nDirect)
    · have hblock : s'.mapped a = s'.disk a := mapped_of_ne (ne_bmapstart hgiven.mem_data)
      rw [hload, hkernel]
      simp only [rsect_ok hgiven.counted hgiven.lt, bind, Except.bind, indirectEntry, hblock]
      split_ifs with hzero
      · by_cases hfree : s'.freeblock < sb.size
        · rw [balloc_mapped hgiven.counted hfree]
          refine .inl ⟨_, _, _, rfl, ?_, ?_⟩
          · rw [mapped_wsect (ne_bmapstart hgiven.mem_data)]
            simp only [mapped_of_ne (ne_bmapstart hgiven.mem_data)]
          · exact ⟨(hgiven.counted.next hfree).wsect (hgiven.lt.trans (lt_succ_self _)) _,
              ⟨hgiven.counted.low, hfree⟩, lt_succ_self _, hgiven.freeinode⟩
        · rw [balloc_mapped_full hgiven.counted hfree]
          refine .inr ⟨rfl, .inr ⟨_, _, _, rfl, ?_⟩⟩
          have hused := hgiven.lt
          have hsectors := hgiven.counted.sectors
          show max s'.sectors (a + 1) ≤ s'.freeblock
          omega
      · refine .inl ⟨_, _, _, rfl, rfl, ?_⟩
        obtain ⟨hdata, hused⟩ := indirect_given hsound hlt htype hkernel hgiven
          (j := ⟨fbn - nDirect, hindirect⟩) hzero
        exact ⟨hgiven.counted, hdata, hused, hgiven.freeinode⟩
    · rw [hload, hkernel]
      refine .inr ⟨rfl, .inl ⟨.rsect, ?_⟩⟩
      simp only [rsect, if_neg (not_lt.mpr hend)]
      rfl

omit h in
/-- What the invariant of the allocator says after a block has been found and written. -/
theorem blockFor_sound {x : Slot} (hslot : slotOf fbn = some x)
    (hbmap : bmap sb s.mapped din fbn = .ok (a, din', s'.mapped)) (data : Block) : din'.type ≠ 0 ∧
      Sound sb (update s'.mapped a data) (update table inum din') := by
  rcases bmap_spec hsound hlt htype hslot (Finset.Subset.refl _) with
    ⟨a', ip', d', hok, hgrows, href⟩ | ⟨herror, -⟩
  · rw [hbmap, Except.ok.injEq, Prod.mk.injEq, Prod.mk.injEq] at hok
    obtain ⟨rfl, rfl, rfl⟩ := hok
    have htype' : din'.type ≠ 0 := by rwa [hgrows.same]
    exact ⟨htype', (hgrows.sound.store (S := slotsFor fbn) hlt htype' hslot href data).sound⟩
  · rw [hbmap] at herror
    cases herror

/-- The loop of `iappend` is the loop of `writei`, or both run out of blocks. -/
theorem iappendLoop_simulates (src : ℕ → UInt8) (fuel tot off : ℕ) {p : List UInt8}
    (hfuel : p.length ≤ fuel) (hmax : off + p.length ≤ maxFile * bSize)
    (hp : p = (range p.length).map fun i ↦ src (tot + i)) :
    (∃ din' s', iappendLoop fuel p off din s = .ok (off + p.length, din', s') ∧
        writeLoop sb src fuel tot off p.length din s.mapped = .ok (din', s'.mapped) ∧
        Counted s' ∧ s'.freeinode = s.freeinode) ∨
      (∃ e, iappendLoop fuel p off din s = .error e) ∧
        writeLoop sb src fuel tot off p.length din s.mapped = .error .outOfBlocks := by
  induction fuel generalizing tot off p din s with
  | zero =>
    obtain rfl : p = [] := length_eq_zero_iff.mp (by omega)
    exact .inl ⟨din, s, rfl, rfl, h, rfl⟩
  | succ fuel ih =>
    rw [iappendLoop, writeLoop]
    rcases eq_or_ne p [] with rfl | hnil
    · exact .inl ⟨din, s, rfl, rfl, h, rfl⟩
    · have hpos : 0 < p.length := length_pos_iff.mpr hnil
      have hsize : bSize = 512 := rfl
      have hbn : off / bSize < maxFile := by
        rw [div_lt_iff_lt_mul (by decide)]
        omega
      obtain ⟨x, hslot⟩ := slotOf_isSome hbn
      rw [if_neg hnil, if_neg hpos.ne']
      simp only [if_pos hbn]
      rcases blockFor_simulates h hsound hlt htype hbn with
        ⟨a, din₁, s₁, hblock, hbmap, hgiven⟩ | ⟨hbmap, hfails⟩
      · rw [hblock, hbmap]
        have hstart : off - off / bSize * bSize = off % bSize := by
          rw [hsize]
          omega
        have hrest : (off / bSize + 1) * bSize - off = bSize - off % bSize := by
          rw [hsize]
          omega
        simp only [bind, Except.bind, rsect_ok hgiven.counted hgiven.lt, hstart, hrest]
        generalize hm : min p.length (bSize - off % bSize) = m
        have htake : p.take m = (range m).map fun i ↦ src (tot + i) := by
          rw [hp, ← map_take, take_range, min_eq_left (by omega)]
        have hlen : (p.drop m).length = p.length - m := length_drop
        have hdrop : p.drop m = (range (p.drop m).length).map fun i ↦ src (tot + m + i) := by
          refine ext_getElem (by simp) fun i hi hi' ↦ ?_
          have hget : p[m + i]? = some (src (tot + (m + i))) := by
            rw [hp, getElem?_map, getElem?_range (by omega), Option.map_some]
          rw [getElem_map, getElem_range, getElem_drop, add_assoc]
          exact (List.getElem?_eq_some_iff.mp hget).2
        have hmod : off % bSize < bSize := mod_lt off (by decide)
        obtain ⟨htype₁, hsound₁⟩ := blockFor_sound hsound hlt htype hslot hbmap
          ((s₁.disk a).put (off % bSize) (p.take m))
        have hmapped := mapped_wsect (s := s₁) (ne_bmapstart hgiven.mem_data)
          ((s₁.disk a).put (off % bSize) (p.take m))
        rw [← hmapped] at hsound₁
        have hloop := ih (hgiven.counted.wsect hgiven.lt _) hsound₁ htype₁ (tot + m) (off + m)
          (by omega) (by omega) hdrop
        rw [hmapped, hlen] at hloop
        rw [mapped_of_ne (ne_bmapstart hgiven.mem_data), ← htake]
        rcases hloop with ⟨din', s', hmk, hwrite, hcounted, hinode⟩ | hfails
        · refine .inl ⟨din', s', ?_, hwrite, hcounted, hinode.trans hgiven.freeinode⟩
          rw [hmk, Nat.add_assoc, Nat.add_sub_cancel' (by omega)]
        · exact .inr hfails
      · refine .inr ⟨?_, by rw [hbmap]⟩
        rcases hfails with ⟨e, herror⟩ | ⟨a, din', s', hok, hend⟩
        · exact ⟨e, by rw [herror]; rfl⟩
        · refine ⟨.rsect, ?_⟩
          rw [hok]
          simp only [bind, Except.bind, rsect, if_neg (not_lt.mpr hend)]

end Simulation

theorem iappendLoop_le {fuel off off' : ℕ} {din' : Dinode}
    (hok : iappendLoop fuel p off din s = .ok (off', din', s')) (hfuel : p.length ≤ fuel)
    (hp : p ≠ []) : off + p.length ≤ maxFile * bSize := by
  induction fuel generalizing p off din s with
  | zero => exact absurd (length_eq_zero_iff.mp (by omega)) hp
  | succ fuel ih =>
    rw [iappendLoop, if_neg hp] at hok
    by_cases hbn : off / bSize < maxFile
    · rw [if_pos hbn] at hok
      obtain ⟨⟨x, din₁, s₁⟩, -, hok⟩ := bind_eq_ok.mp hok
      obtain ⟨buf, -, hok⟩ := bind_eq_ok.mp hok
      have hsize : bSize = 512 := rfl
      have hmax : maxFile = 140 := rfl
      generalize hn : min p.length ((off / bSize + 1) * bSize - off) = n1 at hok
      have hlen : (p.drop n1).length = p.length - n1 := length_drop
      rw [hsize] at hbn hn ⊢
      by_cases hnil : p.drop n1 = []
      · rw [hnil, length_nil] at hlen
        omega
      · have hrest := ih hok (by omega) hnil
        rw [hsize, hmax, hlen] at hrest
        omega
    · rw [if_neg hbn] at hok
      cases hok

theorem Counted.iblock_lt (h : Counted s) (hlt : inum < sb.ninodes) :
    sb.iblock inum < s.freeblock :=
  (sb_layout.iblock_lt hlt).trans (sb_layout.bmapstart_lt.trans_le h.low)

/-- `winode` is `iupdate`. -/
theorem winode_eq (h : Counted s) (hlt : inum < sb.ninodes) (ip : Dinode) :
    ∃ s', winode s inum ip = .ok s' ∧ s'.mapped = writeDinode sb s.mapped inum ip ∧ Counted s' ∧
      s'.freeinode = s.freeinode ∧ s'.freeblock = s.freeblock := by
  have hblock := sb_layout.iblock_lt hlt
  have hused := h.iblock_lt hlt
  refine ⟨wsect s (sb.iblock inum) ((s.disk (sb.iblock inum)).putFields
    (ip.fields (inum % ipb * 64))), ?_, ?_, h.wsect hused _, rfl, rfl⟩
  · rw [winode, rsect_ok h hused]
    rfl
  · rw [mapped_wsect hblock.ne]
    unfold writeDinode
    rw [mapped_of_ne hblock.ne]

theorem rinode_eq (h : Counted s) (hlt : inum < sb.ninodes) :
    rinode s inum = .ok (readDinode sb s.mapped inum) := by
  have hblock := sb_layout.iblock_lt hlt
  have hused := h.iblock_lt hlt
  unfold readDinode
  rw [rinode, rsect_ok h hused, mapped_of_ne hblock.ne]
  rfl

/-- `iappend` is `writei` at the end of the file, or the file gets too long or there are no more
blocks. -/
theorem iappend_simulates (devsw : Devsw) (h : Counted s)
    (hsound : Sound sb s.mapped (readDinode sb s.mapped)) (hlt : inum < sb.ninodes)
    (hread : readDinode sb s.mapped inum = din) (htype : din.type ≠ 0) (hdev : din.type ≠ tDev)
    (hp : p ≠ []) : (∃ s' ip', iappend s inum p = .ok s' ∧
        writei devsw sb s.mapped inum din (fun i ↦ p.getD i 0) din.size (UInt32.ofNat p.length) =
          .ok (p.length, ip', s'.mapped) ∧
        Counted s' ∧ s'.freeinode = s.freeinode ∧
        din.size.toNat + p.length ≤ maxFile * bSize) ∨
      (∃ e, iappend s inum p = .error e) ∧
        (maxFile * bSize < din.size.toNat + p.length ∨
          writei devsw sb s.mapped inum din (fun i ↦ p.getD i 0) din.size (UInt32.ofNat p.length) =
            .error .outOfBlocks) := by
  have hsound' : Sound sb s.mapped (update (readDinode sb s.mapped) inum din) := by
    rwa [← hread, update_eq_self]
  rw [iappend, rinode_eq h hlt, hread]
  simp only [bind, Except.bind]
  by_cases hmax : din.size.toNat + p.length ≤ maxFile * bSize
  · have hpos : 0 < p.length := length_pos_iff.mpr hp
    have hmax' : maxFile * bSize = 71680 := rfl
    have hn : (UInt32.ofNat p.length).toNat = p.length := by
      rw [UInt32.toNat_ofNat', mod_eq_of_lt (by omega)]
    have hadd : (din.size + UInt32.ofNat p.length).toNat = din.size.toNat + p.length := by
      rw [toNat_add_of_lt (by omega), hn]
    have hsrc : p = (range p.length).map fun i ↦ p.getD (0 + i) 0 := by
      simp only [zero_add, map_getD_range]
    have hfits : ¬ (din.size > din.size ∨ din.size + UInt32.ofNat p.length < din.size) := by
      rw [not_or, add_lt_self_iff, gt_iff_lt]
      exact ⟨UInt32.lt_irrefl _, by omega⟩
    have hfits' : ¬ din.size + UInt32.ofNat p.length > UInt32.ofNat (maxFile * bSize) := by
      rw [gt_iff_lt, UInt32.lt_iff_toNat_lt, hadd, toNat_maxFile]
      omega
    rw [writei, if_neg hdev, if_neg hfits, if_neg hfits', hn]
    rcases iappendLoop_simulates h hsound' hlt htype (fun i ↦ p.getD i 0) p.length 0
      din.size.toNat le_rfl hmax hsrc with
      ⟨ip, s₁, hloop, hwrite, hcounted, hinode⟩ | ⟨⟨e, hloop⟩, hwrite⟩
    · have hsize : ip.size = din.size := by
        rw [(writeLoop_beyond hsound' hlt htype hmax hwrite).1.same]
      have hgrown : UInt32.ofNat p.length > 0 ∧ din.size + UInt32.ofNat p.length > ip.size := by
        rw [hsize, gt_iff_lt, gt_iff_lt, UInt32.lt_iff_toNat_lt, UInt32.lt_iff_toNat_lt, hadd, hn]
        exact ⟨hpos, by omega⟩
      obtain ⟨s₂, hwinode, hmapped, hcounted₂, hinode₂, -⟩ := winode_eq hcounted hlt
        { ip with size := UInt32.ofNat (din.size.toNat + p.length) }
      refine .inl ⟨s₂, { ip with size := din.size + UInt32.ofNat p.length }, ?_, ?_, hcounted₂,
        hinode₂.trans hinode, hmax⟩
      · rw [hloop]
        exact hwinode
      · rw [hwrite]
        simp only [if_pos hgrown]
        rw [hmapped, UInt32.ofNat_add, UInt32.ofNat_toNat]
    · refine .inr ⟨⟨e, by rw [hloop]⟩, .inr ?_⟩
      rw [hwrite]
  · refine .inr ⟨?_, .inl (by omega)⟩
    cases hloop : iappendLoop p.length p din.size.toNat din s with
    | error e => exact ⟨e, rfl⟩
    | ok r => exact absurd (iappendLoop_le hloop le_rfl hp) hmax

end EasyKernels.Xv6.Mkfs
