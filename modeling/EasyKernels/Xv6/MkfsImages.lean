import EasyKernels.Xv6.Mkfs

/-!
# The images that `mkfs` makes

`Inv s contents` says that the image of a state of `mkfs`, with its free map, is a sound file system
in which file `i` has the bytes `contents i`. `ialloc` adds an empty file (`ialloc_spec`), `iappend`
adds bytes at the end of a file (`iappend_spec`), and the loop over the files adds them one after
another (`addFiles_spec`). `mkfs_spec` is the image at the end, and `mkfs_freeinode` counts the
inodes that were made.
-/

set_option autoImplicit false

namespace EasyKernels.Xv6.Mkfs

open Nat List Function Lib Lib.Bytes Lib.Runs Lib.LinkTree
open Directories (rootIno)
open DirectoryFiles (newEntry dirents direntOf direntSize)

/-! ### The contents of the files -/

/-- A file with its bytes: all blocks below its size are there, and there is nothing after it. -/
structure IsFile (d : Disk) (ip : Dinode) (bytes : List UInt8) : Prop where
  full : ip.Full d
  content : ip.content d = bytes
  tight : ∀ bn, ip.size.toNat ≤ bn * bSize → ip.block d bn = none
  clear : ∀ i, ip.size.toNat ≤ i → ip.byte d i = 0

/-- The type of the inodes that `mkfs` makes. -/
def inodeType (i : ℕ) : UInt16 := if i = rootIno then tDir else tFile

/-- The state of `mkfs` with the contents of the files so far. -/
structure Inv (s : Image) (contents : ℕ → List UInt8) : Prop where
  counted : Counted s
  sound : Sound sb s.mapped (readDinode sb s.mapped)
  pos : 0 < s.freeinode
  unused : ∀ i < sb.ninodes, i = 0 ∨ s.freeinode ≤ i → (readDinode sb s.mapped i).type = 0
  type_eq : ∀ i < sb.ninodes, 0 < i → i < s.freeinode →
    (readDinode sb s.mapped i).type = inodeType i
  file : ∀ i < sb.ninodes, 0 < i → i < s.freeinode →
    IsFile s.mapped (readDinode sb s.mapped i) (contents i)

variable {ip : Dinode} {bytes p : List UInt8} {files : List File}

variable {d : Disk} {type : UInt16} {chunks : List (List UInt8)} {file : File} {r : ℕ × Image}
  {img : Image} {din : Dinode}

open Dinode

theorem IsFile.size_eq (h : IsFile d ip bytes) : ip.size.toNat = bytes.length := by
  rw [← h.content]
  simp [Dinode.content]

/-- A file whose slots and bytes are kept. -/
theorem IsFile.congr {d' : Disk} (h : IsFile d ip bytes) (href : ∀ x, ip.ref d' x = ip.ref d x)
    (hbyte : ∀ i, ip.byte d' i = ip.byte d i) : IsFile d' ip bytes where
  full := h.full.congr rfl fun x b hx ↦ (href x).trans hx
  content := by rw [← h.content, Dinode.content, Dinode.content, funext hbyte]
  tight := fun bn hbn ↦ by
    rw [block, funext href]
    exact h.tight bn hbn
  clear := fun i hi ↦ (hbyte i).trans (h.clear i hi)

variable {s s' : Image} {contents : ℕ → List UInt8} {inum : ℕ}

theorem inodeType_ne (i : ℕ) : inodeType i ≠ 0 ∧ inodeType i ≠ tDev := by
  unfold inodeType
  split_ifs <;> decide

/-- A step on one file keeps the others. -/
theorem Inv.fileStep (h : Inv s contents) (hpos : 0 < inum) (hcounted : Counted s')
    (hstep : FileStep sb inum s.mapped ip s'.mapped) (hstored : readDinode sb s'.mapped inum = ip)
    (hfree : s.freeinode ≤ s'.freeinode) (hinum : inum < s'.freeinode)
    (hnew : ∀ i, s.freeinode ≤ i → i < s'.freeinode → i = inum) (htype : ip.type = inodeType inum)
    (hfile : IsFile s'.mapped ip bytes) : Inv s' (update contents inum bytes) where
  counted := hcounted
  sound := hstep.sound_of_stored hstored
  pos := h.pos.trans_le hfree
  unused := fun i hi hunused ↦ by
    have hne : i ≠ inum := by omega
    rw [(hstep.others i hi hne).1]
    exact h.unused i hi (by omega)
  type_eq := fun i hi hpos' hlt' ↦ by
    by_cases hne : i = inum
    · rw [hne, hstored, htype]
    · rw [(hstep.others i hi hne).1]
      exact h.type_eq i hi hpos' (by have hnew' := hnew i; omega)
  file := fun i hi hpos' hlt' ↦ by
    by_cases hne : i = inum
    · rw [hne, hstored, update_self]
      exact hfile
    · have hold : i < s.freeinode := by
        have hnew' := hnew i
        omega
      obtain ⟨hsame, hkeep⟩ := hstep.others i hi hne
      have hkept := hkeep ((h.type_eq i hi hpos' hold).trans_ne (inodeType_ne i).1)
      rw [hsame, update_of_ne hne]
      exact (h.file i hi hpos' hold).congr hkept.1 hkept.2

/-- `ialloc` makes an empty file. -/
theorem ialloc_spec (h : Inv s contents) (hlt : s.freeinode < sb.ninodes)
    (htype : type = inodeType s.freeinode) : ∃ s', ialloc s type = .ok (s.freeinode, s') ∧
      Inv s' (update contents s.freeinode []) ∧ s'.freeinode = s.freeinode + 1 ∧
      s'.freeblock = s.freeblock := by
  set ip : Dinode := { Dinode.zero with type := type, nlink := 1 } with hip
  have hcounted : Counted { s with freeinode := s.freeinode + 1 } :=
    ⟨h.counted.sectors, h.counted.low, h.counted.high, h.counted.fresh⟩
  obtain ⟨s', hwinode, hmapped, hcounted', hinode, hblock⟩ := winode_eq hcounted hlt ip
  have hfree := h.unused s.freeinode hlt (.inr le_rfl)
  have hstep : FileStep sb s.freeinode s.mapped ip s'.mapped := by
    rw [hmapped]
    exact .alloc h.sound hlt hfree rfl
  have hstored : readDinode sb s'.mapped s.freeinode = ip := by
    rw [hmapped, readDinode_writeDinode_self]
  have hnone : ∀ bn, ip.block s'.mapped bn = none := by
    intro bn
    rw [Dinode.block]
    cases hslot : slotOf bn with
    | none => rfl
    | some x => cases x <;> simp [Dinode.ref, Dinode.indirect, hip, Dinode.zero, blockNumber]
  have hbyte : ∀ i, ip.byte s'.mapped i = 0 := by
    intro i
    rw [Dinode.byte, hnone]
  refine ⟨s', ?_, ?_, hinode, hblock⟩
  · exact bind_eq_ok.mpr ⟨s', hwinode, rfl⟩
  · have hinode' : s'.freeinode = s.freeinode + 1 := hinode
    refine h.fileStep h.pos hcounted' hstep hstored (by omega) (by omega)
      (fun i _ _ ↦ by omega) htype ⟨fun bn hbn ↦ ?_, rfl, fun bn _ ↦ hnone bn, fun i _ ↦ hbyte i⟩
    exact absurd hbn (not_lt_zero _)

/-- The free blocks are those that have not been counted. -/
theorem freeBlocks_mapped (h : Counted s) : freeBlocks sb s.mapped = sb.size - s.freeblock := by
  have hfree : ((Finset.range sb.size).filter fun b ↦ bmapBit sb s.mapped b = false) =
      Finset.Ico s.freeblock sb.size := by
    ext b
    rw [Finset.mem_filter, Finset.mem_range, Finset.mem_Ico]
    constructor
    · rintro ⟨hb, hbit⟩
      rw [bmapBit_mapped h hb, decide_eq_false_iff_not] at hbit
      exact ⟨not_lt.mp hbit, hb⟩
    · rintro ⟨hb, hsize⟩
      rw [bmapBit_mapped h hsize, decide_eq_false_iff_not]
      exact ⟨hsize, not_lt.mpr hb⟩
  rw [freeBlocks, hfree, card_Ico]

theorem overlay_end (old new : List UInt8) : overlay old old.length new = old ++ new := by
  simp [overlay]

section

variable (h : Inv s contents) (hlt : inum < sb.ninodes) (hpos : 0 < inum)
  (hinum : inum < s.freeinode)

include h hlt hpos hinum

open UInt32

/-- `iappend` adds bytes to a file, unless it gets too long or there are no more blocks. -/
theorem iappend_spec (hp : p ≠ []) : (∃ s', iappend s inum p = .ok s' ∧
        Inv s' (update contents inum (contents inum ++ p)) ∧
        s'.freeinode = s.freeinode ∧ (contents inum).length + p.length ≤ maxFile * bSize) ∨
      (∃ e, iappend s inum p = .error e) ∧
        (maxFile * bSize < (contents inum).length + p.length ∨
          sb.size - s.freeblock < blocksNeeded (readDinode sb s.mapped inum) s.mapped
            (contents inum).length p.length) := by
  have hfile := h.file inum hlt hpos hinum
  have hsize := hfile.size_eq
  have htype := h.type_eq inum hlt hpos hinum
  have htype₁ := htype.trans_ne (inodeType_ne inum).1
  have htype₂ := htype.trans_ne (inodeType_ne inum).2
  have hmax' : maxFile * bSize = 71680 := rfl
  have hfits : (contents inum).length + p.length ≤ maxFile * bSize →
      (ofNat p.length).toNat = p.length ∧
      ¬ WriteFails (readDinode sb s.mapped inum) (readDinode sb s.mapped inum).size
        (ofNat p.length) := by
    intro hmax
    have hn : (ofNat p.length).toNat = p.length := by
      rw [toNat_ofNat', mod_eq_of_lt (by omega)]
    rw [WriteFails, lt_iff_toNat_lt, hn, hsize]
    omega
  have hspec : ¬ WriteFails (readDinode sb s.mapped inum) (readDinode sb s.mapped inum).size
      (ofNat p.length) → (∃ ip' d', writei noDevices sb s.mapped inum _
        (fun i ↦ p.getD i 0) _ _ = .ok (_, ip', d') ∧ _) ∨ _ :=
    writei_spec h.sound hlt rfl htype₁ htype₂ hfile.full
  rcases iappend_simulates noDevices h.counted h.sound hlt rfl htype₁ htype₂ hp with
    ⟨s', ip', hok, hwrite, hcounted, hinode, hmax⟩ | ⟨hfails, hcause⟩
  · rw [hsize] at hmax
    obtain ⟨hn, hnot⟩ := hfits hmax
    refine .inl ⟨s', hok, ?_, hinode, hmax⟩
    rcases hspec hnot with
      ⟨ip'', d', hwrite', hcontent, hfull, htype', hstored, hstep, hbyte, hblock⟩ | ⟨herror, -⟩
    · rw [hwrite, Except.ok.injEq, Prod.mk.injEq, Prod.mk.injEq] at hwrite'
      obtain ⟨-, rfl, rfl⟩ := hwrite'
      rw [hn, map_getD_range, hfile.content, hsize, overlay_end] at hcontent
      rw [hn, hsize] at hbyte hblock
      have hsize' : ip'.size.toNat = (contents inum).length + p.length := by
        rw [← length_append, ← hcontent]
        simp [content]
      refine h.fileStep hpos hcounted hstep hstored hinode.ge (hinode ▸ hinum)
        (fun i hi hi' ↦ by omega) (htype'.trans htype)
        ⟨hfull, hcontent, fun bn hbn ↦ hblock bn (hsize' ▸ hbn) (hfile.tight bn (by omega)),
          fun i hi ↦ ?_⟩
      rw [hbyte i (hsize' ▸ hi)]
      exact hfile.clear i (by omega)
    · rw [hwrite] at herror
      cases herror
  · refine .inr ⟨hfails, ?_⟩
    by_cases hmax : (contents inum).length + p.length ≤ maxFile * bSize
    · obtain ⟨hn, hnot⟩ := hfits hmax
      rcases hspec hnot with ⟨ip'', d', hwrite', -⟩ | ⟨-, hfew⟩
      · rw [hwrite'] at hcause
        rcases hcause with hlong | herror
        · omega
        · cases herror
      · rw [freeBlocks_mapped h.counted, hn, hsize] at hfew
        exact .inr hfew
    · exact .inl (by omega)

/-- What `iappend` leaves when it returns. -/
theorem iappend_inv (hp : p ≠ []) (hok : iappend s inum p = .ok s') :
    Inv s' (update contents inum (contents inum ++ p)) ∧ s'.freeinode = s.freeinode := by
  rcases iappend_spec h hlt hpos hinum hp with ⟨s₁, hok₁, hinv, hinode, -⟩ | ⟨⟨e, herror⟩, -⟩
  · rw [hok] at hok₁
    cases hok₁
    exact ⟨hinv, hinode⟩
  · rw [hok] at herror
    cases herror

/-! ### The files, one after another -/

theorem appendChunks_spec (hchunks : ∀ c ∈ chunks, c ≠ [])
    (hok : appendChunks inum chunks s = .ok s') :
    Inv s' (update contents inum (contents inum ++ chunks.flatten)) ∧
      s'.freeinode = s.freeinode := by
  induction chunks generalizing s contents with
  | nil =>
    cases hok
    rw [flatten_nil, append_nil, update_eq_self]
    exact ⟨h, rfl⟩
  | cons buf rest ih =>
    obtain ⟨s₁, happend, hok⟩ := bind_eq_ok.mp hok
    obtain ⟨hinv, hinode⟩ := iappend_inv h hlt hpos hinum (hchunks buf mem_cons_self) happend
    obtain ⟨hinv', hinode'⟩ := ih hinv (hinode ▸ hinum)
      (fun c hc ↦ hchunks c (mem_cons_of_mem _ hc)) hok
    rw [update_self, update_idem, append_assoc] at hinv'
    exact ⟨hinv', hinode'.trans hinode⟩

end

section

variable (files : List File)

/-- The entries of the root directory. -/
def rootEntries : List (List UInt8) :=
  newEntry (cstring dot) (UInt32.ofNat rootIno) ::
    newEntry (cstring dotdot) (UInt32.ofNat rootIno) ::
      files.mapIdx fun k file ↦ newEntry (cstring file.fsName) (UInt32.ofNat (k + 2))

/-- The contents of the files of an image. -/
def fileBytes (i : ℕ) : List UInt8 :=
  if i = rootIno then (rootEntries files).flatten
  else if 2 ≤ i then ((files[i - 2]?).map File.bytes).getD []
  else []

theorem add_two_ne_rootIno (n : ℕ) : n + 2 ≠ rootIno := by
  show n + 2 ≠ 1
  omega

theorem fileBytes_concat (file : File) :
    fileBytes (files ++ [file]) = update (update (fileBytes files) rootIno
      (fileBytes files rootIno ++
        newEntry (cstring file.fsName) (UInt32.ofNat (files.length + 2))))
      (files.length + 2) file.bytes := by
  funext i
  by_cases hlast : i = files.length + 2
  · subst hlast
    rw [update_self, fileBytes, if_neg (add_two_ne_rootIno _),
      if_pos (Nat.le_add_left _ _), Nat.add_sub_cancel, getElem?_concat_length]
    rfl
  · rw [update_of_ne hlast]
    rcases eq_or_ne i rootIno with rfl | hroot
    · rw [update_self, fileBytes, fileBytes, if_pos rfl, if_pos rfl, rootEntries,
        rootEntries, mapIdx_append]
      simp
    · rw [update_of_ne hroot, fileBytes, fileBytes, if_neg hroot, if_neg hroot]
      split_ifs with htwo
      · rcases lt_or_ge (i - 2) files.length with hin | hout
        · rw [getElem?_append_left hin]
        · rw [getElem?_eq_none hout, getElem?_eq_none]
          rw [length_append, length_singleton]
          omega
      · rfl

end

theorem newEntry_ne_nil (name : ℕ → UInt8) (i : UInt32) : newEntry name i ≠ [] := by
  intro hnil
  have hlen := DirectoryFiles.length_newEntry name i
  rw [hnil] at hlen
  cases hlen

/-- One more file. -/
theorem addFile_spec (h : Inv s (fileBytes files)) (hinode : s.freeinode = files.length + 2)
    (hlt : files.length + 2 < sb.ninodes) (hok : addFile s rootIno file = .ok s') :
    Inv s' (fileBytes (files ++ [file])) ∧ s'.freeinode = files.length + 3 := by
  unfold addFile at hok
  split_ifs at hok with hslash
  cases hchunks : file.chunks with
  | none => simp [hchunks] at hok
  | some chunks =>
    simp only [hchunks] at hok
    obtain ⟨s₁, hialloc, hinv₁, hinode₁, -⟩ := ialloc_spec h (hinode ▸ hlt)
      (show tFile = _ by rw [hinode, inodeType, if_neg (add_two_ne_rootIno _)])
    obtain ⟨r, hr, hok⟩ := bind_eq_ok.mp hok
    rw [hialloc] at hr
    cases hr
    obtain ⟨s₂, happend, hok⟩ := bind_eq_ok.mp hok
    have hroot : rootIno < s₁.freeinode := by
      show 1 < _
      omega
    obtain ⟨hinv₂, hinode₂⟩ := iappend_inv hinv₁ (show rootIno < sb.ninodes by decide) (by decide)
      hroot (newEntry_ne_nil _ _) happend
    obtain ⟨hinv₃, hinode₃⟩ := appendChunks_spec hinv₂ (hinode ▸ hlt) (by omega) (by omega)
      (fun c hc hnil ↦ by
        have hpos := (file.chunks_le chunks hchunks c hc).1
        rw [hnil] at hpos
        cases hpos) hok
    refine ⟨?_, by omega⟩
    have hne : s.freeinode ≠ rootIno := hinode ▸ add_two_ne_rootIno _
    have hbytes : file.bytes = chunks.flatten := by rw [File.bytes, hchunks, Option.getD_some]
    rw [fileBytes_concat, hbytes, ← hinode]
    rw [update_of_ne hne, update_self, nil_append,
      update_of_ne hne.symm, update_comm hne, update_idem] at hinv₃
    exact hinv₃

theorem addFiles_spec {rest : List File} (h : Inv s (fileBytes files))
    (hinode : s.freeinode = files.length + 2) (hlt : files.length + rest.length + 2 ≤ sb.ninodes)
    (hok : addFiles rootIno rest s = .ok s') :
    Inv s' (fileBytes (files ++ rest)) ∧ s'.freeinode = files.length + rest.length + 2 := by
  induction rest generalizing s files with
  | nil =>
    cases hok
    rw [append_nil, length_nil]
    exact ⟨h, hinode⟩
  | cons file rest ih =>
    obtain ⟨s₁, hadd, hok⟩ := bind_eq_ok.mp hok
    rw [length_cons] at hlt
    obtain ⟨hinv, hinode'⟩ := addFile_spec h hinode (by omega) hadd
    have hlen : (files ++ [file]).length = files.length + 1 := by simp
    obtain ⟨hinv', hinode''⟩ := ih hinv (by omega) (by omega) hok
    rw [append_assoc, singleton_append] at hinv'
    exact ⟨hinv', by rw [hinode'', hlen, length_cons]; omega⟩

/-! ### The start and the end -/

/-- The super block. -/
def superBlock : Block :=
  (zero bSize).putFields [(0, 4, sb.size), (4, 4, sb.nblocks), (8, 4, sb.ninodes),
    (12, 4, sb.nlog), (16, 4, sb.logstart), (20, 4, sb.inodestart), (24, 4, sb.bmapstart)]

theorem zeros_eq (n : ℕ) {s : Image} (hs : s.disk = fun _ ↦ zero bSize) :
    (range n).foldl (fun s i ↦ wsect s i (zero bSize)) s =
      { s with sectors := max s.sectors n } := by
  induction n with
  | zero => rw [range_zero, foldl_nil, max_zero]
  | succ n ih =>
    have hdisk : update s.disk n (zero bSize) = s.disk := by
      rw [hs]
      exact update_eq_self n _
    rw [range_succ, foldl_append, ih, foldl_cons, foldl_nil, wsect, hdisk, Image.mk.injEq]
    refine ⟨rfl, ?_, rfl, rfl⟩
    show max (max s.sectors n) (n + 1) = max s.sectors (n + 1)
    omega

theorem blank_eq :
    blank = ⟨update (fun _ ↦ zero bSize) 1 superBlock, sb.size, 1, sb.datastart⟩ := by
  unfold blank
  simp only
  rw [zeros_eq _ rfl]
  rfl

theorem blank_freeinode : blank.freeinode = 1 := by rw [blank_eq]

theorem blank_disk {b : ℕ} (hb : b ≠ 1) : blank.disk b = zero bSize := by
  rw [blank_eq]
  show update (fun _ ↦ zero bSize) 1 superBlock b = _
  rw [update_of_ne hb]

theorem blank_counted : Counted blank where
  sectors := by rw [blank_eq]
  low := by rw [blank_eq]
  high := by
    rw [blank_eq]
    decide
  fresh := fun b hb _ ↦ by
    refine blank_disk ?_
    rintro rfl
    rw [blank_eq] at hb
    exact absurd hb (by decide)

theorem blank_type {i : ℕ} (hi : i < sb.ninodes) : (readDinode sb blank.mapped i).type = 0 := by
  have hblock := sb_layout.iblock_lt hi
  have hlow : sb.inodestart ≤ sb.iblock i := le_add_left _ _
  have hne : sb.iblock i ≠ 1 := by
    have hstart : sb.inodestart = 32 := rfl
    omega
  unfold readDinode
  rw [mapped_of_ne hblock.ne, blank_disk hne, decode, field_zero]
  rfl

theorem blank_inv : Inv blank fun _ ↦ [] where
  counted := blank_counted
  sound := by
    have hrefs : ∀ x, refs sb blank.mapped (readDinode sb blank.mapped) x = none := by
      rintro ⟨j, x⟩
      unfold refs
      split_ifs with halloc
      · exact absurd (blank_type halloc.1) halloc.2
      · rfl
    have hfree : blank.freeblock = sb.datastart := by rw [blank_eq]
    refine ⟨sb_layout, ?_, ⟨fun x b hx ↦ ?_, fun x y b hx ↦ ?_, fun b hb ↦ ?_⟩, fun b hb ↦ ?_⟩
    · rw [readsb_congr (d := fun _ ↦ superBlock)]
      · decide +kernel
      · rfl
    · simp [hrefs] at hx
    · simp [hrefs] at hx
    · rw [bmapBit_mapped blank_counted hb.2, hfree]
      simp [hrefs, not_lt.mpr hb.1]
    · rw [bmapBit_mapped blank_counted (hb.trans_le (sub_le _ _)), hfree]
      exact decide_eq_true hb
  pos := by rw [blank_freeinode]; decide
  unused := fun i hi _ ↦ blank_type hi
  type_eq := fun i _ hpos hlt ↦ by
    rw [blank_freeinode] at hlt
    omega
  file := fun i _ hpos hlt ↦ by
    rw [blank_freeinode] at hlt
    omega

/-- The root directory with its first two entries. -/
theorem root_spec {s₁ s₂ : Image} (halloc : ialloc blank tDir = .ok r)
    (hdot : iappend r.2 r.1 (newEntry (cstring dot) (UInt32.ofNat r.1)) = .ok s₁)
    (hdotdot : iappend s₁ r.1 (newEntry (cstring dotdot) (UInt32.ofNat r.1)) = .ok s₂) :
    r.1 = rootIno ∧ Inv s₂ (fileBytes []) ∧ s₂.freeinode = 2 := by
  have hone : blank.freeinode = rootIno := blank_freeinode
  obtain ⟨s₀, hok, hinv, hinode, -⟩ := ialloc_spec blank_inv
    (by rw [hone]; decide) (show tDir = inodeType blank.freeinode by rw [hone]; rfl)
  rw [halloc] at hok
  obtain rfl := Except.ok.inj hok
  simp only [hone] at hdot hdotdot hinv hinode ⊢
  have hlt : rootIno < sb.ninodes := by decide
  have hinode₀ : s₀.freeinode = 2 := hinode
  obtain ⟨hinv₁, hinode₁⟩ := iappend_inv hinv hlt (by decide) (hinode₀ ▸ by decide)
    (newEntry_ne_nil _ _) hdot
  obtain ⟨hinv₂, hinode₂⟩ := iappend_inv hinv₁ hlt (by decide) (by rw [hinode₁, hinode₀]; decide)
    (newEntry_ne_nil _ _) hdotdot
  refine ⟨trivial, ?_, hinode₂.trans (hinode₁.trans hinode₀)⟩
  convert hinv₂ using 1
  funext i
  rcases eq_or_ne i rootIno with rfl | hi
  · simp [fileBytes, rootEntries]
  · rw [update_of_ne hi, update_of_ne hi, update_of_ne hi, fileBytes,
      if_neg hi]
    simp

/-- The root directory when its size has been made a number of whole blocks. -/
def paddedRoot (s : Image) : Dinode :=
  { readDinode sb s.mapped rootIno with
    size := UInt32.ofNat
      (((readDinode sb s.mapped rootIno).size.toNat / bSize + 1) * bSize) }

/-- The image that `mkfs` leaves, from the state after the loop over the files. -/
theorem mkfs_spec (hok : mkfs files = .ok img) (hle : files.length + 2 ≤ sb.ninodes) :
    ∃ s, Inv s (fileBytes files) ∧ s.freeinode = files.length + 2 ∧
      img.disk = writeDinode sb s.mapped rootIno (paddedRoot s) := by
  obtain ⟨r, halloc, hok⟩ := bind_eq_ok.mp hok
  by_cases hr : r.1 = rootIno
  · simp only [if_pos hr] at hok
    obtain ⟨s₁, hdot, hok⟩ := bind_eq_ok.mp hok
    obtain ⟨s₂, hdotdot, hok⟩ := bind_eq_ok.mp hok
    obtain ⟨s₃, hadd, hok⟩ := bind_eq_ok.mp hok
    obtain ⟨s₄, hfix, hballoc⟩ := bind_eq_ok.mp hok
    obtain ⟨-, hinv₂, hinode₂⟩ := root_spec halloc hdot hdotdot
    rw [hr] at hadd hfix
    obtain ⟨hinv, hinode⟩ := addFiles_spec hinv₂ hinode₂ (by simpa using hle) hadd
    rw [length_nil, zero_add] at hinode
    refine ⟨s₃, hinv, hinode, ?_⟩
    rw [fixRoot, rinode_eq hinv.counted (by decide)] at hfix
    obtain ⟨s₅, hwinode, hmapped, -⟩ :=
      winode_eq hinv.counted (show rootIno < sb.ninodes by decide) (paddedRoot s₃)
    rw [show s₄ = s₅ from Except.ok.inj (hfix.symm.trans hwinode)] at hballoc
    unfold balloc at hballoc
    split_ifs at hballoc
    cases hballoc
    exact hmapped
  · simp only [if_neg hr] at hok
    cases hok

/-! ### The number of inodes -/

theorem winode_counts (s : Image) (inum : ℕ) (ip : Dinode) : Post (winode s inum ip) fun t ↦
    t.freeinode = s.freeinode ∧ t.freeblock = s.freeblock :=
  .bind (fun _ _ ↦ trivial) fun _ _ ↦ .ok ⟨rfl, rfl⟩

theorem loadAddr_counts (s : Image) (din : Dinode) (k : Fin (nDirect + 1)) :
    (loadAddr s din k).2.2.freeinode = s.freeinode ∧
      (loadAddr s din k).2.2.freeblock ≤ s.freeblock + 1 := by
  unfold loadAddr
  split_ifs
  · exact ⟨rfl, le_rfl⟩
  · exact ⟨rfl, le_succ _⟩

/-- A block of a file takes a new block and perhaps one for the indirect block. -/
theorem blockFor_counts (s : Image) (din : Dinode) (fbn : ℕ) : Post (blockFor s din fbn) fun r ↦
    r.2.2.freeinode = s.freeinode ∧ r.2.2.freeblock ≤ s.freeblock + 2 := by
  unfold blockFor
  split_ifs with hdirect
  · obtain ⟨hinode, hblock⟩ := loadAddr_counts s din ⟨fbn, direct_lt hdirect⟩
    exact .ok ⟨hinode, hblock.trans (le_succ _)⟩
  · obtain ⟨hinode, hblock⟩ := loadAddr_counts s din (Fin.last nDirect)
    refine .bind (fun _ _ ↦ trivial) fun indirect _ ↦ ?_
    dsimp only
    split_ifs
    · exact .ok ⟨hinode, succ_le_succ hblock⟩
    · exact .ok ⟨hinode, hblock.trans (le_succ _)⟩

theorem iappendLoop_freeinode (fuel off : ℕ) : Post (iappendLoop fuel p off din s) fun r ↦
    r.2.2.freeinode = s.freeinode := by
  induction fuel generalizing p off din s with
  | zero => exact .ok rfl
  | succ fuel ih =>
    rw [iappendLoop]
    dsimp only
    split_ifs
    · exact .ok rfl
    · refine .bind (blockFor_counts s din _) fun r hr ↦ .bind (fun _ _ ↦ trivial) fun buf _ ↦ ?_
      exact (ih _).mono fun _ ht ↦ ht.trans hr.1
    · exact .error

theorem iappend_freeinode (s : Image) (inum : ℕ) (p : List UInt8) :
    Post (iappend s inum p) fun t ↦ t.freeinode = s.freeinode :=
  .bind (fun _ _ ↦ trivial) fun _ _ ↦ .bind (iappendLoop_freeinode _ _) fun _ hr ↦
    (winode_counts _ _ _).mono fun _ ht ↦ ht.1.trans hr

theorem ialloc_freeinode (s : Image) (type : UInt16) :
    Post (ialloc s type) fun r ↦ r.2.freeinode = s.freeinode + 1 :=
  .bind (winode_counts _ _ _) fun _ ht ↦ .ok ht.1

theorem appendChunks_freeinode (chunks : List (List UInt8)) :
    Post (appendChunks inum chunks s) fun t ↦ t.freeinode = s.freeinode := by
  induction chunks generalizing s with
  | nil => exact .ok rfl
  | cons buf rest ih =>
    exact .bind (iappend_freeinode s inum buf) fun _ ht ↦ ih.mono fun _ hu ↦ hu.trans ht

theorem addFile_freeinode (s : Image) (inum : ℕ) (file : File) :
    Post (addFile s inum file) fun t ↦ t.freeinode = s.freeinode + 1 := by
  unfold addFile
  split_ifs
  · exact .error
  split
  · exact .error
  · exact .bind (ialloc_freeinode s tFile) fun r hr ↦ .bind (iappend_freeinode _ _ _) fun t ht ↦
      (appendChunks_freeinode _).mono fun _ hu ↦ hu.trans (ht.trans hr)

theorem addFiles_freeinode (files : List File) :
    Post (addFiles inum files s) fun t ↦ t.freeinode = s.freeinode + files.length := by
  induction files generalizing s with
  | nil => exact .ok rfl
  | cons file rest ih =>
    refine .bind (addFile_freeinode s inum file) fun t ht ↦ ih.mono fun u hu ↦ ?_
    rw [hu, ht, length_cons]
    omega

/-- `mkfs` makes an inode for each file, whatever their number. -/
theorem mkfs_freeinode (files : List File) :
    Post (mkfs files) fun img ↦ img.freeinode = files.length + 2 := by
  refine .bind (ialloc_freeinode blank tDir) fun r hr ↦ ?_
  dsimp only
  split_ifs
  · refine .bind (iappend_freeinode _ _ _) fun s₁ h₁ ↦ .bind (iappend_freeinode _ _ _) fun s₂ h₂ ↦
      .bind (addFiles_freeinode _) fun s₃ h₃ ↦
      .bind (.bind (fun _ _ ↦ trivial) fun _ _ ↦ winode_counts _ _ _) fun s₄ h₄ ↦ ?_
    unfold balloc
    split_ifs
    · refine .ok ?_
      show s₄.freeinode = _
      rw [h₄.1, h₃, h₂, h₁, hr, blank_freeinode]
      omega
    · exact .error
  · exact .error

end EasyKernels.Xv6.Mkfs
