import EasyKernels.Xv6.MkfsImages

/-!
# When the images of `mkfs` are well formed

`mkfsImage` says, for every list of files for which `mkfs` ends with status 0, that the image is
what the kernel relies on (`WellFormed`) exactly when there are at most 198 files and the entries
of the root directory do not fill whole blocks.

`ialloc` of `mkfs` does not compare `freeinode` with `NINODES`, so the 199th file gets inode 200.
And `main` rounds the size of the root directory up to the next block even if it is a number of
whole blocks: with 30 files the 32 entries fill one block, and the size says two
(`rootWithoutBlock`).
-/

set_option autoImplicit false

namespace EasyKernels.Xv6.Mkfs

open Nat List Function Lib Lib.Bytes Lib.Runs Lib.LinkTree
open Directories (rootIno)
open DirectoryFiles (newEntry dirents direntOf direntSize chunk deInum cname)

/-- What the kernel relies on in an image. -/
structure WellFormed (files : List File) (img : Image) : Prop where
  super : readsb img.disk = sb
  /-- The entries of the root directory are for inodes. -/
  inums : ∀ de ∈ dirents ((readDinode sb img.disk rootIno).content img.disk),
    de.inum < sb.ninodes
  named : ∀ (k : ℕ) (file : File), files[k]? = some file →
    (dirents ((readDinode sb img.disk rootIno).content img.disk))[k + 2]? =
      some { inum := k + 2, name := cname (cstring file.fsName) }
  /-- A file has all blocks below its size. -/
  blocks : ∀ i < sb.ninodes, (readDinode sb img.disk i).type ≠ 0 → ∀ bn,
    bn * bSize < (readDinode sb img.disk i).size.toNat →
      ∃ a ∈ sb.data, (readDinode sb img.disk i).block img.disk bn = some a
  once : ∀ x y b, refs sb img.disk (readDinode sb img.disk) x = some b →
    refs sb img.disk (readDinode sb img.disk) y = some b → x = y
  bitmap : ∀ b < sb.size, bmapBit sb img.disk b = true ↔
    b < sb.datastart ∨ ∃ x, refs sb img.disk (readDinode sb img.disk) x = some b
  /-- The inodes that were written are in the inode table. -/
  inodes : ∀ i, 0 < i → i < img.freeinode → i < sb.ninodes
  /-- The blocks that were written for files are data blocks. -/
  data : ∀ x b, refs sb img.disk (readDinode sb img.disk) x = some b → b ∈ sb.data
  /-- The kernel reads the bytes of the file. -/
  contents : ∀ (k : ℕ) (file : File), files[k]? = some file → ∀ devsw,
    readi devsw sb img.disk (readDinode sb img.disk (k + 2)) 0
        (readDinode sb img.disk (k + 2)).size =
      .ok (file.bytes.length, file.bytes, readDinode sb img.disk (k + 2), img.disk)

/-! ### The entries of the root directory -/

variable {k : ℕ} {e : List UInt8} {files : List File} {s : Image}

theorem chunk_flatten {entries : List (List UInt8)} (rest : List UInt8)
    (hlen : ∀ e ∈ entries, e.length = direntSize) (hk : entries[k]? = some e) :
    chunk (entries.flatten ++ rest) k = e := by
  induction entries generalizing k with
  | nil => simp at hk
  | cons first others ih =>
    have hfirst := hlen first mem_cons_self
    cases k with
    | zero =>
      cases hk
      rw [chunk, flatten_cons, mul_zero, drop_zero, append_assoc, take_left' hfirst]
    | succ k =>
      have hrest := ih (fun e he ↦ hlen e (mem_cons_of_mem _ he)) hk
      have hdrop : (first ++ (others.flatten ++ rest)).drop (direntSize * (k + 1)) =
          (others.flatten ++ rest).drop (direntSize * k) := by
        rw [mul_succ, add_comm, ← drop_drop, drop_left' hfirst]
      rw [chunk, flatten_cons, append_assoc, hdrop]
      exact hrest

variable {bytes : List UInt8} {m n : ℕ}

theorem leValue_zeros (h : ∀ x ∈ bytes, x = 0) : leValue bytes = 0 := by
  induction bytes with
  | nil => rfl
  | cons first rest ih =>
    rw [leValue, h first mem_cons_self, ih fun x hx ↦ h x (mem_cons_of_mem _ hx)]
    rfl

/-- After the entries there are zeros. -/
theorem deInum_zeros (hk : bytes.length ≤ direntSize * k) :
    deInum (chunk (bytes ++ replicate m 0) k) = 0 := by
  refine leValue_zeros fun x hx ↦ ?_
  have hmem : x ∈ (bytes ++ replicate m 0).drop (direntSize * k) :=
    mem_of_mem_take (mem_of_mem_take hx)
  rw [drop_append, drop_eq_nil_of_le hk, nil_append] at hmem
  exact eq_of_mem_replicate (mem_of_mem_drop hmem)

theorem length_rootEntries (files : List File) : (rootEntries files).length = files.length + 2 := by
  simp [rootEntries]

theorem length_of_mem_rootEntries (he : e ∈ rootEntries files) : e.length = direntSize := by
  simp only [rootEntries, mem_cons, mem_mapIdx] at he
  rcases he with rfl | rfl | ⟨k, hk, rfl⟩
  all_goals exact DirectoryFiles.length_newEntry _ _

theorem length_rootBytes (files : List File) :
    (rootEntries files).flatten.length = direntSize * (files.length + 2) := by
  rw [length_flatten, map_congr_left fun e he ↦ length_of_mem_rootEntries he]
  simp [length_rootEntries, mul_comm]

open UInt32

/-- The entry of a file in the root directory. -/
theorem direntOf_file (hle : files.length + 2 ≤ sb.ninodes) {file : File}
    (hk : files[k]? = some file) : ∃ e, (rootEntries files)[k + 2]? = some e ∧
      direntOf e = ⟨k + 2, cname (cstring file.fsName)⟩ := by
  obtain ⟨hlt, -⟩ := List.getElem?_eq_some_iff.mp hk
  have hninodes : sb.ninodes = 200 := rfl
  refine ⟨newEntry (cstring file.fsName) (ofNat (k + 2)), ?_, ?_⟩
  · rw [rootEntries, getElem?_cons_succ, getElem?_cons_succ, getElem?_mapIdx, hk,
      Option.map_some]
  · rw [DirectoryFiles.direntOf_newEntry, toNat_ofNat', mod_eq_of_lt (by omega),
      mod_eq_of_lt (by omega)]

theorem inum_rootEntries (hle : files.length + 2 ≤ sb.ninodes)
    (hk : (rootEntries files)[k]? = some e) : (direntOf e).inum < sb.ninodes := by
  match k with
  | 0 =>
    cases hk
    decide
  | 1 =>
    cases hk
    decide
  | j + 2 =>
    obtain ⟨hlt, -⟩ := List.getElem?_eq_some_iff.mp hk
    rw [length_rootEntries] at hlt
    have hj : j < files.length := by omega
    obtain ⟨e', he', hdirent⟩ := direntOf_file hle (getElem?_eq_getElem hj)
    rw [hk] at he'
    rw [Option.some.inj he', hdirent]
    show j + 2 < _
    omega

/-! ### The image -/

section Image

variable {files : List File} {s : Image} (h : Inv s (fileBytes files))
  (hinode : s.freeinode = files.length + 2) (hle : files.length + 2 ≤ sb.ninodes)

/-- The image with the root directory padded. -/
def padded (s : Image) : Disk := writeDinode sb s.mapped rootIno (paddedRoot s)

theorem readDinode_padded (s : Image) : readDinode sb (padded s) rootIno = paddedRoot s :=
  readDinode_writeDinode_self _ _ _ _

include h

/-- The padding changes the size of the root directory and nothing else. -/
theorem padded_step (hroot : rootIno < s.freeinode) :
    FileStep sb rootIno s.mapped (paddedRoot s) (padded s) ∧
      (∀ bn, (paddedRoot s).block (padded s) bn =
        (readDinode sb s.mapped rootIno).block s.mapped bn) ∧
      ∀ i, (paddedRoot s).byte (padded s) i = (readDinode sb s.mapped rootIno).byte s.mapped i := by
  have hlt : rootIno < sb.ninodes := by decide
  have hstep : FileStep sb rootIno s.mapped (paddedRoot s) s.mapped :=
    (FileStep.refl h.sound rfl).congr_inode rfl rfl
  obtain ⟨hstored, hsame⟩ := hstep.iupdate hlt
  have htype := (h.type_eq rootIno hlt (by decide) hroot).trans_ne (inodeType_ne _).1
  obtain ⟨href, hbyte⟩ := hsame htype
  refine ⟨hstored, fun bn ↦ ?_, fun i ↦ (hbyte i).trans (Dinode.byte_resize _ _ _ i)⟩
  rw [padded, Dinode.block, funext href]
  exact Dinode.block_resize _ _ _ bn

include hinode

omit h in
theorem rootIno_lt : rootIno < s.freeinode := by
  rw [hinode]
  show 1 < _
  omega

/-- The root directory before the padding. -/
theorem root_file : IsFile s.mapped (readDinode sb s.mapped rootIno) (rootEntries files).flatten :=
  h.file rootIno (by decide) (by decide) (rootIno_lt hinode)

theorem root_size : (readDinode sb s.mapped rootIno).size.toNat = direntSize * (files.length + 2) :=
  (root_file h hinode).size_eq.trans (length_rootBytes files)

include hle

theorem paddedRoot_size : (paddedRoot s).size.toNat =
    (direntSize * (files.length + 2) / bSize + 1) * bSize := by
  have hninodes : sb.ninodes = 200 := rfl
  have hdirent : direntSize = 16 := rfl
  have hb : bSize = 512 := rfl
  show (ofNat _).toNat = _
  rw [root_size h hinode, toNat_ofNat', mod_eq_of_lt]
  rw [hdirent, hb]
  omega

theorem paddedRoot_content : ∃ m, (paddedRoot s).content (padded s) =
    (rootEntries files).flatten ++ replicate m 0 := by
  have hfile := root_file h hinode
  have hsize := root_size h hinode
  obtain ⟨-, -, hbyte⟩ := padded_step h (rootIno_lt hinode)
  have hle' : direntSize * (files.length + 2) ≤ (paddedRoot s).size.toNat := by
    rw [paddedRoot_size h hinode hle, Nat.add_mul, Nat.one_mul, Nat.mul_comm _ bSize]
    exact (Nat.lt_mul_div_succ _ (by decide)).le
  refine ⟨(paddedRoot s).size.toNat - direntSize * (files.length + 2), ?_⟩
  rw [Dinode.content, funext hbyte, ← Nat.add_sub_cancel' hle', range_add, map_append,
    map_map, ← hsize, ← hfile.content]
  congr 1
  refine eq_replicate_iff.mpr ⟨by simp, fun x hx ↦ ?_⟩
  obtain ⟨i, -, rfl⟩ := mem_map.mp hx
  exact hfile.clear _ (Nat.le_add_right _ _)

variable {i : ℕ}

omit hle in
/-- A file other than the root directory is as it was before the padding. -/
theorem padded_file (hi : i < sb.ninodes) (hpos : 0 < i) (hlt : i < s.freeinode)
    (hne : i ≠ rootIno) : IsFile (padded s) (readDinode sb (padded s) i) (fileBytes files i) ∧
      (readDinode sb (padded s) i).type ≠ tDev := by
  obtain ⟨hstep, -⟩ := padded_step h (rootIno_lt hinode)
  obtain ⟨hsame, hkeep⟩ := hstep.others i hi hne
  have htype := h.type_eq i hi hpos hlt
  obtain ⟨href, hbyte⟩ := hkeep (htype.trans_ne (inodeType_ne i).1)
  rw [hsame]
  exact ⟨(h.file i hi hpos hlt).congr href hbyte, htype.trans_ne (inodeType_ne i).2⟩

/-- The root directory has its last block exactly when its entries do not fill whole blocks. -/
theorem paddedRoot_full_iff : (paddedRoot s).Full (padded s) ↔ (files.length + 2) % 32 ≠ 0 := by
  have hfile := root_file h hinode
  have hsize := root_size h hinode
  obtain ⟨-, hblock, -⟩ := padded_step h (rootIno_lt hinode)
  have hdirent : direntSize = 16 := rfl
  have hb : bSize = 512 := rfl
  have hnew := paddedRoot_size h hinode hle
  rw [hdirent, hb] at hnew
  rw [hdirent] at hsize
  constructor
  · intro hfull hwhole
    obtain ⟨a, ha⟩ := hfull ((files.length + 2) / 32) (by rw [hnew, hb]; omega)
    rw [hblock, hfile.tight _ (by rw [hsize, hb]; omega)] at ha
    cases ha
  · intro hpart bn hbn
    rw [hnew, hb] at hbn
    obtain ⟨a, ha⟩ := hfile.full bn (by rw [hsize, hb]; omega)
    exact ⟨a, (hblock bn).trans ha⟩

/-- The root directory of the image. -/
theorem padded_inums {de : Dirent} (hde : de ∈ dirents ((paddedRoot s).content (padded s))) :
    de.inum < sb.ninodes := by
  obtain ⟨m, hcontent⟩ := paddedRoot_content h hinode hle
  obtain ⟨k, -, rfl⟩ := mem_map.mp hde
  rw [hcontent]
  by_cases hk : k < (rootEntries files).length
  · rw [chunk_flatten _ (fun e he ↦ length_of_mem_rootEntries he) (getElem?_eq_getElem hk)]
    exact inum_rootEntries hle (getElem?_eq_getElem hk)
  · have hzero : deInum (chunk ((rootEntries files).flatten ++ replicate m 0) k) = 0 := by
      refine deInum_zeros ?_
      rw [length_rootBytes, ← length_rootEntries files]
      exact mul_le_mul_left _ (not_lt.mp hk)
    show deInum _ < _
    rw [hzero]
    decide

variable {file : File}

theorem padded_named {k : ℕ} (hk : files[k]? = some file) :
    (dirents ((paddedRoot s).content (padded s)))[k + 2]? =
      some ⟨k + 2, cname (cstring file.fsName)⟩ := by
  obtain ⟨m, hcontent⟩ := paddedRoot_content h hinode hle
  obtain ⟨e, he, hdirent⟩ := direntOf_file hle hk
  obtain ⟨hlt, -⟩ := List.getElem?_eq_some_iff.mp he
  have hlen : k + 2 < ((rootEntries files).flatten ++ replicate m 0).length / direntSize := by
    rw [length_rootEntries] at hlt
    have hdirent : direntSize = 16 := rfl
    rw [length_append, length_rootBytes, hdirent]
    omega
  rw [hcontent, dirents, getElem?_map, getElem?_range hlen, Option.map_some,
    chunk_flatten _ (fun e he ↦ length_of_mem_rootEntries he) he, hdirent]

omit hle in
/-- The invariant of the allocator in the image. -/
theorem padded_sound : Sound sb (padded s) (readDinode sb (padded s)) :=
  (padded_step h (rootIno_lt hinode)).1.sound_of_stored (readDinode_padded s)

omit hle in
/-- An inode in use is the root directory or a file of the list. -/
theorem padded_used (hi : i < sb.ninodes) (htype : (readDinode sb (padded s) i).type ≠ 0) :
    0 < i ∧ i < s.freeinode := by
  by_contra hout
  have hroot := rootIno_lt hinode
  have hunused : i = 0 ∨ s.freeinode ≤ i := by omega
  have hne : i ≠ rootIno := by
    rintro rfl
    exact hout ⟨by decide, hroot⟩
  rw [((padded_step h hroot).1.others i hi hne).1] at htype
  exact htype (h.unused i hi hunused)

theorem padded_blocks (hpart : (files.length + 2) % 32 ≠ 0) (hi : i < sb.ninodes)
    (htype : (readDinode sb (padded s) i).type ≠ 0) :
    (readDinode sb (padded s) i).Full (padded s) := by
  obtain ⟨hpos, hlt⟩ := padded_used h hinode hi htype
  by_cases hne : i = rootIno
  · rw [hne, readDinode_padded]
    exact (paddedRoot_full_iff h hinode hle).mpr hpart
  · exact (padded_file h hinode hi hpos hlt hne).1.full

/-- What the kernel reads in a file of the list. -/
theorem padded_contents {k : ℕ} (hk : files[k]? = some file) (devsw : Devsw) :
    readi devsw sb (padded s) (readDinode sb (padded s) (k + 2)) 0
        (readDinode sb (padded s) (k + 2)).size =
      .ok (file.bytes.length, file.bytes, readDinode sb (padded s) (k + 2), padded s) := by
  obtain ⟨hlen, -⟩ := List.getElem?_eq_some_iff.mp hk
  obtain ⟨hfile, hdev⟩ := padded_file h hinode (show k + 2 < sb.ninodes by omega) (succ_pos _)
    (by omega) (add_two_ne_rootIno k)
  have hbytes : fileBytes files (k + 2) = file.bytes := by
    rw [fileBytes, if_neg (add_two_ne_rootIno k), if_pos (Nat.le_add_left _ _), Nat.add_sub_cancel,
      hk]
    rfl
  rw [hbytes] at hfile
  have hsize := hfile.size_eq
  have hfits : ¬ ReadFails (readDinode sb (padded s) (k + 2)) 0
      (readDinode sb (padded s) (k + 2)).size := by
    have hlt := (readDinode sb (padded s) (k + 2)).size.toNat_lt
    rw [ReadFails, UInt32.lt_iff_toNat_lt, UInt32.toNat_zero]
    omega
  rw [(readi_spec hdev hfile.full _ _).2 hfits, hfile.content, UInt32.toNat_zero, hsize,
    drop_zero, take_length, Nat.sub_zero, Nat.min_self]

end Image

variable {files : List File} {img : Image}

/-- With 199 files or more an inode is outside the inode table. -/
theorem WellFormed.length_le (hok : mkfs files = .ok img) (h : WellFormed files img) :
    files.length ≤ 198 := by
  have hinode := mkfs_freeinode files img hok
  have hlast := h.inodes (files.length + 1) (succ_pos _) (by omega)
  have hninodes : sb.ninodes = 200 := rfl
  omega

/-- The root directory has its last block only if its entries do not fill whole blocks. -/
theorem WellFormed.part (hok : mkfs files = .ok img) (h : WellFormed files img) :
    (files.length + 2) % 32 ≠ 0 := by
  have hlen := h.length_le hok
  have hninodes : sb.ninodes = 200 := rfl
  have hle : files.length + 2 ≤ sb.ninodes := by omega
  obtain ⟨s, hinv, hinode, hdisk⟩ := mkfs_spec hok hle
  have hroot : readDinode sb img.disk rootIno = paddedRoot s := by
    rw [hdisk]
    exact readDinode_padded s
  have hblocks := h.blocks rootIno (by decide)
  rw [hroot] at hblocks
  have htype : (paddedRoot s).type ≠ 0 :=
    (hinv.type_eq rootIno (by decide) (by decide) (rootIno_lt hinode)).trans_ne (inodeType_ne _).1
  rw [← paddedRoot_full_iff hinv hinode hle]
  intro bn hbn
  obtain ⟨a, -, ha⟩ := hblocks htype bn hbn
  rw [hdisk] at ha
  exact ⟨a, ha⟩

/-! ### The result -/

/-- `mkfs` makes an image that the kernel can rely on exactly when the files and the root directory
fit in the inode table and the entries do not fill whole blocks. -/
theorem mkfsImage (hok : mkfs files = .ok img) :
    WellFormed files img ↔ files.length ≤ 198 ∧ (files.length + 2) % 32 ≠ 0 := by
  constructor
  · intro h
    exact ⟨h.length_le hok, h.part hok⟩
  · rintro ⟨hlen, hpart⟩
    have hninodes : sb.ninodes = 200 := rfl
    have hle : files.length + 2 ≤ sb.ninodes := by omega
    obtain ⟨s, hinv, hinode, hdisk⟩ := mkfs_spec hok hle
    have hdisk' : img.disk = padded s := hdisk
    have hsound := padded_sound hinv hinode
    have hroot := readDinode_padded s
    constructor <;> try rw [hdisk']
    · exact hsound.super
    · rw [hroot]
      exact fun de hde ↦ padded_inums hinv hinode hle hde
    · rw [hroot]
      exact fun k file hk ↦ padded_named hinv hinode hle hk
    · intro i hi htype bn hbn
      obtain ⟨a, ha⟩ := padded_blocks hinv hinode hle hpart hi htype bn hbn
      obtain ⟨x, hslot, href⟩ := Option.bind_eq_some_iff.mp ha
      exact ⟨a, hsound.owns.mem_pool (i, x) a ((if_pos ⟨hi, htype⟩).trans href), ha⟩
    · exact hsound.owns.inj
    · intro b hb
      by_cases hdata : b < sb.datastart
      · simp [hsound.reserved b hdata, hdata]
      · rw [hsound.owns.used_iff b ⟨not_lt.mp hdata, hb⟩]
        simp [hdata]
    · intro i _ hi
      rw [mkfs_freeinode files img hok] at hi
      omega
    · exact hsound.owns.mem_pool
    · exact fun k file hk devsw ↦ padded_contents hinv hinode hle hk devsw

/-- The program `_sh`, read in two pieces. -/
def shell : File where
  name := [95, 115, 104]
  chunks := some [[127, 69, 76, 70], [1, 2, 3]]
  chunks_le := by simp [bSize]

/-- A text. -/
def readme : File where
  name := [82, 69, 65, 68, 77, 69]
  chunks := some [[104, 105, 10]]
  chunks_le := by simp [bSize]

theorem exists_ok {r : Except Exit Image} (h : r.toOption.isSome = true) : ∃ img, r = .ok img := by
  cases r with
  | ok img => exact ⟨img, rfl⟩
  | error e => cases h

theorem mkfsImage_twoFiles : ∃ img, mkfs [shell, readme] = .ok img ∧
    WellFormed [shell, readme] img := by
  obtain ⟨img, hok⟩ := exists_ok (show (mkfs [shell, readme]).toOption.isSome = true by
    decide +kernel)
  exact ⟨img, hok, (mkfsImage hok).mpr (by decide)⟩

/-- With 30 files the entries of the root directory fill its only block, and its size says two. -/
theorem rootWithoutBlock : ∃ img, mkfs (List.replicate 30 readme) = .ok img ∧
    ¬ WellFormed (List.replicate 30 readme) img := by
  obtain ⟨img, hok⟩ := exists_ok
    (show (mkfs (List.replicate 30 readme)).toOption.isSome = true by decide +kernel)
  exact ⟨img, hok, fun h ↦ h.part hok (by decide)⟩

end EasyKernels.Xv6.Mkfs
