import EasyKernels.Lib.EntryMap
import EasyKernels.Xv6.Directories
import EasyKernels.Xv6.FileContent

/-!
# Directories as files of entries

`dirlookup` and `dirlink` of `fs.c`, and the part of `sys_unlink` that clears an entry, as they
read and write the file of a directory: 16 bytes at a time through `readi` and `writei`, with names
compared by `strncmp` and stored by `strncpy`. A name is the bytes from a pointer on, and what
counts of it is `cname`, its first `DIRSIZ` bytes up to a NUL.

`dirents` reads the file as a list of entries. `dirlookup_eq`, `dirlink_spec` and `clearEntry_spec`
say that the functions are the operations on that list: `lookup`, `insertEntry`, and an entry set to
zeros. These are the operations of `Directories`, whose inodes have such a list for their contents.

Scope. The references that `iget` takes and `iput` drops are those of `Directories`; here
`dirlookup` returns the number that it calls `iget` with. `sys_unlink` has found its directory and
its checks of the inode to be unlinked have passed.
-/

set_option autoImplicit false

namespace EasyKernels.Xv6.DirectoryFiles

open Nat Option Lib Lib.Bytes Lib.Runs Lib.LinkTree
open List hiding map_map
open Directories (dirSiz)

/-! ### Strings -/

/-- `strncmp`. -/
def strncmp : (ℕ → UInt8) → (ℕ → UInt8) → ℕ → ℤ
  | _, _, 0 => 0
  | p, q, n + 1 =>
    if p 0 ≠ 0 ∧ p 0 = q 0 then strncmp (fun i ↦ p (i + 1)) (fun i ↦ q (i + 1)) n
    else (p 0).toNat - (q 0).toNat

/-- `strncpy`: the bytes it stores. -/
def strncpy : (ℕ → UInt8) → ℕ → List UInt8
  | _, 0 => []
  | t, n + 1 => if t 0 = 0 then List.replicate (n + 1) 0 else t 0 :: strncpy (fun i ↦ t (i + 1)) n

def namecmp (s t : ℕ → UInt8) : ℤ := strncmp s t dirSiz

/-- The first `n` bytes of a string, up to a NUL. -/
def upTo : (ℕ → UInt8) → ℕ → List UInt8
  | _, 0 => []
  | p, n + 1 => if p 0 = 0 then [] else p 0 :: upTo (fun i ↦ p (i + 1)) n

/-- What counts of a name. -/
def cname (name : ℕ → UInt8) : Name := upTo name dirSiz

/-! ### The functions -/

/-- The panics of the functions. -/
inductive Panic
  | fs (e : FsPanic)
  | dirlookupNotDir
  | dirlookupRead
  | dirlinkRead
  | dirlink
  | unlinkWritei
  deriving DecidableEq, Repr

/-- The inode of the directory, locked, and the disk. -/
structure State where
  inode : Dinode
  disk : Disk

/-- `sizeof(struct dirent)`. -/
def direntSize : ℕ := 16

/-- `de.inum`, of the bytes of an entry. -/
def deInum (de : List UInt8) : ℕ := leValue (de.take 2)

/-- `de.name`, of the bytes of an entry. -/
def deName (de : List UInt8) : ℕ → UInt8 := fun i ↦ de.getD (2 + i) 0

section Functions

variable (devsw : Devsw) (sb : SuperBlock) (dp : ℕ)

/-- `readi` of one entry into `de`. -/
def readEntry (panic : Panic) (s : State) (off : UInt32) : Except Panic (List UInt8 × State) :=
  match readi devsw sb s.disk s.inode off (UInt32.ofNat direntSize) with
  | .ok (n, de, ip, d) => if n ≠ direntSize then .error panic else .ok (de, ⟨ip, d⟩)
  | .error e => .error (.fs e)

/-- `writei` of one entry from `de`. -/
def writeEntry (panic : Panic) (s : State) (off : UInt32) (de : List UInt8) : Except Panic State :=
  match writei devsw sb s.disk dp s.inode (fun i ↦ de.getD i 0) off (UInt32.ofNat direntSize) with
  | .ok (n, ip, d) => if n ≠ direntSize then .error panic else .ok ⟨ip, d⟩
  | .error e => .error (.fs e)

/-- The loop of `dirlookup`. -/
def dirlookupLoop (name : ℕ → UInt8) :
    ℕ → UInt32 → State → Except Panic (Option (ℕ × UInt32) × State)
  | 0, _, s => .ok (none, s)
  | fuel + 1, off, s =>
    if off < s.inode.size then do
      let (de, s) ← readEntry devsw sb .dirlookupRead s off
      if deInum de = 0 then dirlookupLoop name fuel (off + UInt32.ofNat direntSize) s
      else if namecmp name (deName de) = 0 then .ok (some (deInum de, off), s)
      else dirlookupLoop name fuel (off + UInt32.ofNat direntSize) s
    else .ok (none, s)

/-- `dirlookup`: the inode number and `*poff`. The loop has a turn for each entry. -/
def dirlookup (s : State) (name : ℕ → UInt8) : Except Panic (Option (ℕ × UInt32) × State) :=
  if s.inode.type ≠ tDir then .error .dirlookupNotDir
  else dirlookupLoop devsw sb name (s.inode.size.toNat / direntSize + 1) 0 s

/-- The loop of `dirlink` that looks for an empty entry. -/
def emptyLoop : ℕ → UInt32 → State → Except Panic (UInt32 × State)
  | 0, off, s => .ok (off, s)
  | fuel + 1, off, s =>
    if off < s.inode.size then do
      let (de, s) ← readEntry devsw sb .dirlinkRead s off
      if deInum de = 0 then .ok (off, s)
      else emptyLoop fuel (off + UInt32.ofNat direntSize) s
    else .ok (off, s)

/-- The entry that `dirlink` writes; `de.inum` has 16 bits. -/
def newEntry (name : ℕ → UInt8) (inum : UInt32) : List UInt8 :=
  leBytes 2 inum.toNat ++ strncpy name dirSiz

def dirlink (s : State) (name : ℕ → UInt8) (inum : UInt32) : Except Panic (ℤ × State) := do
  let (found, s) ← dirlookup devsw sb s name
  match found with
  | some _ => pure (-1, s)
  | none =>
    let (off, s) ← emptyLoop devsw sb (s.inode.size.toNat / direntSize + 1) 0 s
    let s ← writeEntry devsw sb dp .dirlink s off (newEntry name inum)
    pure (0, s)

/-- `sys_unlink` on its directory: `dirlookup`, and the entry set to zeros. -/
def clearEntry (s : State) (name : ℕ → UInt8) : Except Panic (ℤ × State) := do
  let (found, s) ← dirlookup devsw sb s name
  match found with
  | none => pure (-1, s)
  | some (_, off) =>
    let s ← writeEntry devsw sb dp .unlinkWritei s off (List.replicate direntSize 0)
    pure (0, s)

end Functions

/-! ### Names -/

/-- `strncmp` compares the bytes up to a NUL. -/
theorem strncmp_eq_zero_iff (p q : ℕ → UInt8) (n : ℕ) :
    strncmp p q n = 0 ↔ upTo p n = upTo q n := by
  induction n generalizing p q with
  | zero => simp [strncmp, upTo]
  | succ n ih =>
    rw [strncmp]
    by_cases hsame : p 0 = q 0
    · by_cases hzero : p 0 = 0
      · have hq : q 0 = 0 := hsame ▸ hzero
        simp [upTo, hzero, hq]
      · have hq : q 0 ≠ 0 := hsame ▸ hzero
        rw [if_pos ⟨hzero, hsame⟩, ih]
        simp [upTo, hq, hsame]
    · rw [if_neg fun h ↦ hsame h.2]
      have hne : ¬ ((p 0).toNat : ℤ) - (q 0).toNat = 0 := by
        intro h
        exact hsame (UInt8.toNat_inj.mp (by omega))
      refine iff_of_false hne fun h ↦ hsame ?_
      by_cases hp : p 0 = 0 <;> by_cases hq : q 0 = 0
      · rw [hp, hq]
      · simp [upTo, hp, hq] at h
      · simp [upTo, hp, hq] at h
      · simp only [upTo, hp, hq, if_false, cons.injEq] at h
        exact h.1

theorem length_strncpy (t : ℕ → UInt8) (n : ℕ) : (strncpy t n).length = n := by
  induction n generalizing t with
  | zero => rfl
  | succ n ih =>
    rw [strncpy]
    split_ifs
    · exact length_replicate
    · rw [length_cons, ih]

/-- What `strncpy` stores has the bytes up to a NUL. -/
theorem upTo_strncpy (t : ℕ → UInt8) (n : ℕ) :
    upTo (fun i ↦ (strncpy t n).getD i 0) n = upTo t n := by
  induction n generalizing t with
  | zero => rfl
  | succ n ih =>
    rw [strncpy, upTo, upTo]
    by_cases hzero : t 0 = 0
    · simp [hzero]
    · simp only [hzero, if_false, getD_cons_zero, getD_cons_succ]
      rw [ih]

/-! ### The list of entries -/

/-- The entry that 16 bytes stand for. -/
def direntOf (de : List UInt8) : Dirent where
  inum := deInum de
  name := cname (deName de)

variable (content : List UInt8)

/-- The 16 bytes of entry `k` of a directory file. -/
def chunk (k : ℕ) : List UInt8 :=
  (content.drop (direntSize * k)).take direntSize

/-- The entries of a directory file. -/
def dirents : List Dirent :=
  (List.range (content.length / direntSize)).map fun k ↦ direntOf (chunk content k)

/-- The entries of the directory. -/
def State.entries (s : State) : List Dirent := dirents (s.inode.content s.disk)

theorem direntOf_newEntry (name : ℕ → UInt8) (inum : UInt32) :
    direntOf (newEntry name inum) = ⟨inum.toNat % 2 ^ 16, cname name⟩ := by
  have hinum : deInum (newEntry name inum) = inum.toNat % 2 ^ 16 := by
    rw [deInum, newEntry, take_left' (length_leBytes 2 _), leValue_leBytes]
    rfl
  have hname : deName (newEntry name inum) = fun i ↦ (strncpy name dirSiz).getD i 0 := by
    funext i
    rw [deName, newEntry, getD_append_right _ _ _ _ (by simp), length_leBytes,
      Nat.add_sub_cancel_left]
  rw [direntOf, hinum, hname, cname, upTo_strncpy, ← cname]

theorem inum_zeros : (direntOf (replicate direntSize 0)).inum = 0 := by decide

theorem length_newEntry (name : ℕ → UInt8) (inum : UInt32) :
    (newEntry name inum).length = direntSize := by
  rw [newEntry, length_append, length_leBytes, length_strncpy]
  rfl

@[simp] theorem length_dirents : (dirents content).length = content.length / direntSize := by
  simp [dirents]

theorem inum_lt_of_mem {content : List UInt8} {de : Dirent} (h : de ∈ dirents content) :
    de.inum < 2 ^ 16 := by
  obtain ⟨k, -, rfl⟩ := mem_map.mp h
  have hlt := leValue_lt ((chunk content k).take 2)
  have hlen : ((chunk content k).take 2).length ≤ 2 := length_take_le 2 _
  have hpow := Nat.pow_le_pow_right (show 0 < 256 by decide) hlen
  exact lt_of_lt_of_le hlt hpow

/-! ### An entry is written -/

theorem getElem?_chunk (k i : ℕ) :
    (chunk content k)[i]? = if i < direntSize then content[direntSize * k + i]? else none := by
  rw [chunk, getElem?_take]
  split_ifs
  · rw [getElem?_drop]
  · rfl

theorem getElem?_overlay {old new : List UInt8} {off : ℕ} (hoff : off ≤ old.length) (i : ℕ) :
    (overlay old off new)[i]? =
      if off ≤ i ∧ i < off + new.length then new[i - off]? else old[i]? := by
  unfold overlay
  by_cases hlow : i < off
  · rw [if_neg (by omega), append_assoc, getElem?_append_left (by simp; omega),
      getElem?_take_of_lt hlow]
  · by_cases hmid : i < off + new.length
    · rw [if_pos ⟨by omega, hmid⟩, append_assoc, getElem?_append_right (by simp; omega),
        getElem?_append_left (by simp; omega), length_take, min_eq_left hoff]
    · rw [if_neg (by omega), getElem?_append_right (by simp; omega), getElem?_drop]
      simp only [length_append, length_take, min_eq_left hoff]
      congr 1
      omega

section Overlay

variable {content de : List UInt8} {k n : ℕ} (hlen : content.length = direntSize * n) (hk : k ≤ n)
  (hde : de.length = direntSize)

include hlen hk hde

theorem chunk_overlay_self : chunk (overlay content (direntSize * k) de) k = de := by
  refine ext_getElem? fun i ↦ ?_
  have hoff : direntSize * k ≤ content.length := hlen ▸ mul_le_mul_left _ hk
  rw [getElem?_chunk, getElem?_overlay hoff]
  split_ifs with hi
  · rw [Nat.add_sub_cancel_left]
  · omega
  · rw [getElem?_eq_none (by omega)]

theorem chunk_overlay_of_ne {j : ℕ} (hj : j ≠ k) :
    chunk (overlay content (direntSize * k) de) j = chunk content j := by
  refine ext_getElem? fun i ↦ ?_
  have hoff : direntSize * k ≤ content.length := hlen ▸ mul_le_mul_left _ hk
  rw [getElem?_chunk, getElem?_chunk, getElem?_overlay hoff]
  have hsize : direntSize = 16 := rfl
  split_ifs with hi hin
  · rw [hde, hsize] at hin
    omega
  · rfl
  · rfl

theorem length_overlay_dirents :
    (overlay content (direntSize * k) de).length = direntSize * max n (k + 1) := by
  have hsize : direntSize = 16 := rfl
  simp only [overlay, length_append, length_take, length_drop, hde, hlen, hsize]
  omega

/-- Writing the bytes of one entry sets that entry, or adds one. -/
theorem getElem?_dirents_overlay (j : ℕ) : (dirents (overlay content (direntSize * k) de))[j]? =
      if j = k then some (direntOf de) else (dirents content)[j]? := by
  have hpos : 0 < direntSize := by decide
  simp only [dirents, getElem?_map, length_overlay_dirents hlen hk hde, hlen,
    Nat.mul_div_cancel_left _ hpos]
  split_ifs with hj
  · rw [hj, getElem?_range (by omega), map_some, chunk_overlay_self hlen hk hde]
  · by_cases hlt : j < n
    · rw [getElem?_range hlt, getElem?_range (by omega), map_some,
        map_some, chunk_overlay_of_ne hlen hk hde hj]
    · rw [getElem?_eq_none (by simp; omega), getElem?_eq_none (by simp; omega),
        map_none, map_none]

end Overlay

/-! ### Directories on the disk -/

/-- The state of a directory file that is well formed: the disk is sound, the inode in core is the
one on the disk, and its size is that of whole entries. -/
structure IsDirectory (sb : SuperBlock) (dp : ℕ) (s : State) : Prop where
  sound : Sound sb s.disk (readDinode sb s.disk)
  lt : dp < sb.ninodes
  stored : readDinode sb s.disk dp = s.inode
  dir : s.inode.type = tDir
  full : s.inode.Full s.disk
  size_dvd : direntSize ∣ s.inode.size.toNat
  size_le : s.inode.size.toNat ≤ maxFile * bSize

section Directory

variable {devsw : Devsw} {sb : SuperBlock} {dp : ℕ} {s s' : State} (h : IsDirectory sb dp s)

theorem length_content (s : State) : (s.inode.content s.disk).length = s.inode.size.toNat := by
  simp [Dinode.content]

theorem length_entries (s : State) : s.entries.length = s.inode.size.toNat / direntSize := by
  rw [State.entries, length_dirents, length_content]

variable {k : ℕ} {name : ℕ → UInt8}

theorem entries_getElem (hk : k < s.entries.length) :
    s.entries[k] = direntOf (chunk (s.inode.content s.disk) k) := by
  simp [State.entries, dirents]

theorem off_succ (k : ℕ) : UInt32.ofNat (direntSize * k) + UInt32.ofNat direntSize =
    UInt32.ofNat (direntSize * (k + 1)) := by
  rw [mul_succ, UInt32.ofNat_add]

include h

theorem IsDirectory.size_eq : s.inode.size.toNat = direntSize * s.entries.length := by
  rw [length_entries, Nat.mul_div_cancel' h.size_dvd]

theorem IsDirectory.length_le : s.entries.length ≤ 4480 := by
  have heq := h.size_eq
  have hle := h.size_le
  have hmax : maxFile * bSize = 71680 := rfl
  rw [direntSize] at heq
  omega

theorem IsDirectory.notDev : s.inode.type ≠ tDev := by
  rw [h.dir]
  decide

/-- The offset of an entry fits. -/
theorem IsDirectory.toNat_off (hk : k ≤ s.entries.length) :
    (UInt32.ofNat (direntSize * k)).toNat = direntSize * k := by
  have hle := h.length_le
  rw [UInt32.toNat_ofNat', direntSize, mod_eq_of_lt (by omega)]

theorem IsDirectory.off_lt_iff (hk : k ≤ s.entries.length) :
    UInt32.ofNat (direntSize * k) < s.inode.size ↔ k < s.entries.length := by
  rw [UInt32.lt_iff_toNat_lt, h.toNat_off hk, h.size_eq]
  exact Nat.mul_lt_mul_left (by decide)

/-- An entry is read. -/
theorem readEntry_eq (hk : k < s.entries.length) (panic : Panic) :
    readEntry devsw sb panic s (UInt32.ofNat (direntSize * k)) =
      .ok (chunk (s.inode.content s.disk) k, s) := by
  have hoff := h.toNat_off hk.le
  have heq := h.size_eq
  have hle := h.length_le
  have hn : (UInt32.ofNat direntSize).toNat = direntSize := rfl
  have hok : ¬ ReadFails s.inode (UInt32.ofNat (direntSize * k)) (UInt32.ofNat direntSize) := by
    rw [ReadFails, UInt32.lt_iff_toNat_lt, hoff, hn, heq, direntSize]
    omega
  have hread : readi devsw sb s.disk s.inode _ _ = _ := (readi_spec h.notDev h.full _ _).2 hok
  rw [readEntry, hread]
  simp only [hoff, hn]
  rw [if_neg]
  · rfl
  · rw [not_not, Nat.cast_inj, heq, direntSize]
    omega

/-! ### The loops -/

/-- The loop of `dirlookup` from entry `k` on. -/
theorem dirlookupLoop_eq (name : ℕ → UInt8) {fuel : ℕ} (hk : k ≤ s.entries.length)
    (hfuel : s.entries.length < k + fuel) :
    dirlookupLoop devsw sb name fuel (UInt32.ofNat (direntSize * k)) s =
      .ok ((lookup (s.entries.drop k) (cname name)).map fun r ↦
        (r.1, UInt32.ofNat (direntSize * (k + r.2))), s) := by
  induction fuel generalizing k with
  | zero => omega
  | succ fuel ih =>
    rw [dirlookupLoop]
    by_cases hlt : k < s.entries.length
    · have hloop := ih (k := k + 1) hlt (by omega)
      rw [if_pos ((h.off_lt_iff hk).mpr hlt), readEntry_eq h hlt, drop_eq_getElem_cons hlt,
        lookup_cons, entries_getElem hlt]
      simp only [bind, Except.bind, off_succ, hloop]
      generalize chunk (s.inode.content s.disk) k = de
      have hcmp : namecmp name (deName de) = 0 ↔ (direntOf de).name = cname name :=
        (strncmp_eq_zero_iff _ _ _).trans eq_comm
      by_cases hfree : deInum de = 0
      · rw [if_pos hfree, if_neg fun hfound ↦ hfound.1 hfree, map_map]
        simp only [Function.comp_def, add_assoc, add_comm 1]
      · rw [if_neg hfree]
        by_cases hname : namecmp name (deName de) = 0
        · rw [if_pos hname, if_pos ⟨hfree, hcmp.mp hname⟩]
          rfl
        · rw [if_neg hname, if_neg fun hfound ↦ hname (hcmp.mpr hfound.2), map_map]
          simp only [Function.comp_def, add_assoc, add_comm 1]
    · rw [if_neg fun hoff ↦ hlt ((h.off_lt_iff hk).mp hoff), drop_eq_nil_of_le (by omega)]
      rfl

/-- `dirlookup` finds a name in the list of entries, and does nothing else. -/
theorem dirlookup_eq (name : ℕ → UInt8) :
    dirlookup devsw sb s name = .ok ((lookup s.entries (cname name)).map fun r ↦
      (r.1, UInt32.ofNat (direntSize * r.2)), s) := by
  rw [dirlookup, if_neg (not_not.mpr h.dir), ← length_entries]
  have hloop : dirlookupLoop devsw sb name (s.entries.length + 1) (UInt32.ofNat (direntSize * 0)) s
      = _ := dirlookupLoop_eq h name (zero_le _) (by omega)
  simp only [drop_zero, zero_add] at hloop
  exact hloop

/-- The loop of `dirlink` from entry `k` on. -/
theorem emptyLoop_eq {fuel : ℕ} (hk : k ≤ s.entries.length) (hfuel : s.entries.length < k + fuel) :
    emptyLoop devsw sb fuel (UInt32.ofNat (direntSize * k)) s =
      .ok (UInt32.ofNat (direntSize * (k + freeIndex (s.entries.drop k))), s) := by
  induction fuel generalizing k with
  | zero => omega
  | succ fuel ih =>
    rw [emptyLoop]
    by_cases hlt : k < s.entries.length
    · have hloop := ih (k := k + 1) hlt (by omega)
      rw [if_pos ((h.off_lt_iff hk).mpr hlt), readEntry_eq h hlt, drop_eq_getElem_cons hlt,
        freeIndex_cons, entries_getElem hlt]
      simp only [bind, Except.bind, off_succ, hloop]
      generalize chunk (s.inode.content s.disk) k = de
      by_cases hfree : deInum de = 0
      · rw [if_pos hfree, if_pos (show (direntOf de).inum = 0 from hfree), add_zero]
      · rw [if_neg hfree, if_neg (show (direntOf de).inum ≠ 0 from hfree), add_assoc,
          add_comm 1]
    · rw [if_neg fun hoff ↦ hlt ((h.off_lt_iff hk).mp hoff), drop_eq_nil_of_le (by omega)]
      rfl

theorem emptyLoop_start : emptyLoop devsw sb (s.inode.size.toNat / direntSize + 1) 0 s =
      .ok (UInt32.ofNat (direntSize * freeIndex s.entries), s) := by
  have hloop : emptyLoop devsw sb (s.entries.length + 1) (UInt32.ofNat (direntSize * 0)) s = _ :=
    emptyLoop_eq h (zero_le _) (by omega)
  simp only [drop_zero, zero_add] at hloop
  rw [← length_entries]
  exact hloop

/-! ### An entry is stored -/

/-- What writing one entry leaves. -/
structure Stored (sb : SuperBlock) (dp : ℕ) (s : State) (k : ℕ) (de : Dirent) (s' : State) :
    Prop where
  isDirectory : IsDirectory sb dp s'
  getElem?_eq : ∀ j, s'.entries[j]? = if j = k then some de else s.entries[j]?

variable {k : ℕ} {de : List UInt8}

/-- A directory of the greatest size takes no more entries. -/
theorem writeEntry_of_full (panic : Panic) (hfull : s.inode.size.toNat = maxFile * bSize) :
    writeEntry devsw sb dp panic s (UInt32.ofNat (direntSize * s.entries.length)) de =
      .error panic := by
  have hfails : WriteFails s.inode (UInt32.ofNat (direntSize * s.entries.length))
      (UInt32.ofNat direntSize) := by
    refine .inr (.inr ?_)
    rw [h.toNat_off le_rfl, ← h.size_eq, hfull]
    decide
  rw [writeEntry, writei_of_fails h.notDev hfails]
  rfl

variable (devsw) in
/-- An entry is written, unless it is a new one and `balloc` finds no free block. -/
theorem writeEntry_spec (panic : Panic) (hk : k ≤ s.entries.length) (hde : de.length = direntSize)
    (hroom : direntSize * (k + 1) ≤ maxFile * bSize) :
    (∃ s', writeEntry devsw sb dp panic s (UInt32.ofNat (direntSize * k)) de = .ok s' ∧
        Stored sb dp s k (direntOf de) s') ∨
      writeEntry devsw sb dp panic s (UInt32.ofNat (direntSize * k)) de =
          .error (.fs .outOfBlocks) ∧
        k = s.entries.length ∧
        freeBlocks sb s.disk < blocksNeeded s.inode s.disk (direntSize * k) direntSize := by
  have hoff := h.toNat_off hk
  have heq := h.size_eq
  have hle := h.length_le
  have hn : (UInt32.ofNat direntSize).toNat = direntSize := rfl
  have htype : s.inode.type ≠ 0 := by
    rw [h.dir]
    decide
  have hok : ¬ WriteFails s.inode (UInt32.ofNat (direntSize * k)) (UInt32.ofNat direntSize) := by
    rw [WriteFails, UInt32.lt_iff_toNat_lt, hoff, hn, heq]
    rw [direntSize] at hroom ⊢
    omega
  have hsrc : (range direntSize).map (fun i ↦ de.getD i 0) = de := by rw [← hde, map_getD_range]
  rcases writei_spec h.sound h.lt h.stored htype h.notDev h.full hok with
    ⟨ip, d, hwrite, hcontent, hfull, htype', hstored, hstep, -⟩ | ⟨herror, hfew⟩
  · rw [hoff, hn, hsrc] at hcontent
    have hlen : (s.inode.content s.disk).length = direntSize * s.entries.length := by
      rw [length_content, heq]
    have hsize : ip.size.toNat = direntSize * max s.entries.length (k + 1) := by
      rw [← length_overlay_dirents hlen hk hde, ← hcontent]
      simp [Dinode.content]
    refine .inl ⟨⟨ip, d⟩, ?_, ?_, fun j ↦ ?_⟩
    · rw [writeEntry, hwrite]
      rfl
    · refine ⟨hstep.sound_of_stored hstored, h.lt, hstored, htype'.trans h.dir, hfull,
        ⟨_, hsize⟩, ?_⟩
      show ip.size.toNat ≤ _
      have hmax := h.size_le
      rw [heq] at hmax
      rw [hsize]
      rcases max_choice s.entries.length (k + 1) with hmax' | hmax' <;> rw [hmax']
      · exact hmax
      · exact hroom
    · show (dirents (ip.content d))[j]? = _
      rw [hcontent]
      exact getElem?_dirents_overlay hlen hk hde j
  · rw [hoff, hn] at hfew
    refine .inr ⟨?_, ?_, hfew⟩
    · rw [writeEntry, herror]
    · by_contra hne
      have hempty : s.inode.emptySlots s.disk (writeSlots (direntSize * k) direntSize) = ∅ :=
        h.full.emptySlots_writeSlots (.inr (by rw [heq, direntSize]; omega))
      rw [blocksNeeded, hempty, Finset.card_empty] at hfew
      omega

/-! ### `dirlink` and the clearing of an entry -/

omit h in
theorem Stored.entries_eq_insertEntry {de : Dirent}
    (hstored : Stored sb dp s (freeIndex s.entries) de s') :
    s'.entries = insertEntry s.entries de :=
  ext_getElem? fun j ↦ by rw [hstored.getElem?_eq, getElem?_insertEntry]

omit h in
theorem Stored.entries_eq_set {de : Dirent} (hstored : Stored sb dp s k de s')
    (hk : k < s.entries.length) : s'.entries = s.entries.set k de := by
  refine ext_getElem? fun j ↦ ?_
  rw [hstored.getElem?_eq, getElem?_set]
  split_ifs with hj hj' hj'
  · rfl
  · exact absurd hj.symm hj'
  · exact absurd hj'.symm hj
  · rfl

theorem dirlink_of_found (inum : UInt32) (hfound : lookup s.entries (cname name) ≠ none) :
    dirlink devsw sb dp s name inum = .ok (-1, s) := by
  obtain ⟨r, hr⟩ := ne_none_iff_exists'.mp hfound
  rw [dirlink, dirlookup_eq h, hr]
  rfl

/-- `dirlink` of a new name writes the entry that was free. -/
theorem dirlink_of_absent (inum : UInt32) (habsent : lookup s.entries (cname name) = none) :
    dirlink devsw sb dp s name inum =
      (writeEntry devsw sb dp .dirlink s (UInt32.ofNat (direntSize * freeIndex s.entries))
        (newEntry name inum)).map fun s' ↦ (0, s') := by
  rw [dirlink, dirlookup_eq h, habsent]
  simp only [map_none, bind, Except.bind, emptyLoop_start h]
  cases writeEntry devsw sb dp .dirlink s _ (newEntry name inum) <;> rfl

/-- There is an entry that is not in use, or the file can grow by one. -/
def HasRoom (s : State) : Prop :=
  freeIndex s.entries < s.entries.length ∨ s.inode.size.toNat + direntSize ≤ maxFile * bSize

instance (s : State) : Decidable (HasRoom s) := inferInstanceAs (Decidable (_ ∨ _))

variable (devsw) in
/-- `dirlink` of a new name, with room: the entry is made, or `balloc` finds no free block. -/
theorem dirlink_spec (inum : UInt32) (habsent : lookup s.entries (cname name) = none)
    (hroom : HasRoom s) :
    (∃ s', dirlink devsw sb dp s name inum = .ok (0, s') ∧ IsDirectory sb dp s' ∧
        s'.entries =
          insertEntry s.entries ⟨inum.toNat % 2 ^ 16, cname name⟩) ∨
      dirlink devsw sb dp s name inum = .error (.fs .outOfBlocks) ∧
        freeIndex s.entries = s.entries.length ∧
        freeBlocks sb s.disk < blocksNeeded s.inode s.disk s.inode.size.toNat direntSize := by
  have hfits : direntSize * (freeIndex s.entries + 1) ≤ maxFile * bSize := by
    have heq := h.size_eq
    have hle := h.size_le
    have hindex := freeIndex_le s.entries
    rw [HasRoom, heq] at hroom
    rw [heq] at hle
    rw [direntSize] at hroom hle ⊢
    omega
  rw [dirlink_of_absent h inum habsent]
  rcases writeEntry_spec devsw h .dirlink (freeIndex_le _) (length_newEntry name inum) hfits with
    ⟨s', hwrite, hstored⟩ | ⟨hfail, hend, hfew⟩
  · refine .inl ⟨s', by rw [hwrite]; rfl, hstored.isDirectory, ?_⟩
    rw [direntOf_newEntry] at hstored
    exact hstored.entries_eq_insertEntry
  · refine .inr ⟨by rw [hfail]; rfl, hend, ?_⟩
    rwa [hend, ← h.size_eq] at hfew

/-- `dirlink` of a new name, without room. -/
theorem dirlink_of_full (inum : UInt32) (habsent : lookup s.entries (cname name) = none)
    (hroom : ¬ HasRoom s) : dirlink devsw sb dp s name inum = .error .dirlink := by
  have heq := h.size_eq
  have hle := h.size_le
  have hindex := freeIndex_le s.entries
  have hmax : maxFile * bSize = 71680 := rfl
  simp only [HasRoom, not_or, not_lt, not_le] at hroom
  have hfull : s.inode.size.toNat = maxFile * bSize := by
    rw [heq] at hroom hle ⊢
    rw [direntSize] at hroom hle ⊢
    omega
  rw [dirlink_of_absent h inum habsent, le_antisymm hindex hroom.1, writeEntry_of_full h _ hfull]
  rfl

theorem clearEntry_of_absent (habsent : lookup s.entries (cname name) = none) :
    clearEntry devsw sb dp s name = .ok (-1, s) := by
  rw [clearEntry, dirlookup_eq h, habsent]
  rfl

/-- An entry that is found is cleared. -/
theorem clearEntry_spec {i : ℕ} (hfound : lookup s.entries (cname name) = some (i, k)) :
    ∃ s', clearEntry devsw sb dp s name = .ok (0, s') ∧ IsDirectory sb dp s' ∧
      s'.entries = s.entries.set k (direntOf (replicate direntSize 0)) := by
  obtain ⟨hlt, -⟩ := List.getElem?_eq_some_iff.mp (lookup_eq_some hfound).2
  have hfits : direntSize * (k + 1) ≤ maxFile * bSize := by
    have heq := h.size_eq
    have hle := h.size_le
    rw [heq] at hle
    exact (mul_le_mul_left _ hlt).trans hle
  rcases writeEntry_spec devsw h .unlinkWritei hlt.le (length_replicate (a := 0)) hfits with
    ⟨s', hwrite, hstored⟩ | ⟨-, hend, -⟩
  · refine ⟨s', ?_, hstored.isDirectory, hstored.entries_eq_set hlt⟩
    rw [clearEntry, dirlookup_eq h, hfound]
    simp only [map_some, bind, Except.bind, hwrite]
    rfl
  · omega

end Directory

end EasyKernels.Xv6.DirectoryFiles
