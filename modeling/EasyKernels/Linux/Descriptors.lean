import EasyKernels.Lib.Holders
import EasyKernels.Linux.Param

/-!
# The calls for descriptors of Linux

`dupfd`, `sys_dup2`, `sys_dup` and `F_DUPFD` of `fs/fcntl.c`, `sys_open` and `sys_close` of
`fs/open.c`, `sys_pipe` of `fs/pipe.c`, and the loops of `copy_process` and `do_exit` over the
descriptors. A call works on a `Kernel`, the file table and the descriptors of the running task.

`Balanced` says that the counts are the descriptors of the running task and `rest`, what the other
tasks have. Each call keeps it for every `rest`, and a call that fails changes neither descriptors
nor counts (`dupfd_sound`, `sysOpen_sound`, `sysPipe_sound`); `sysClose_ok` and `closeAll_ok` say
that closing does not panic.

Scope. What `open_namei`, `check_char_dev` and `get_pipe_inode` return is an argument of the call.
Inodes are numbers, and `iput` is left out.
-/

set_option autoImplicit false

namespace EasyKernels.Linux.Descriptors

open List Function Lib.Holders

/-! ### Files and tasks -/

/-- `NR_OPEN`. -/
def nrOpen : ℕ := 20

/-- `NR_FILE`. -/
def nrFile : ℕ := 64

/-- `struct file`. -/
structure File where
  fMode : ℕ
  fFlags : ℕ
  fCount : ℕ
  fInode : ℕ
  fPos : ℕ
  deriving DecidableEq, Repr

/-- The descriptors of a task. -/
structure Task where
  filp : Fin nrOpen → Option (Fin nrFile)
  closeOnExec : Fin nrOpen → Bool

/-- The file table and the task that runs. -/
structure Kernel where
  fileTable : Fin nrFile → File
  current : Task

/-- "Close: file count is 0". -/
inductive Panic
  | fileCountIsZero
  deriving DecidableEq, Repr

def eBadF : ℤ := 9

def eAgain : ℤ := 11

def eInval : ℤ := 22

def eMFile : ℤ := 24

/-! ### The calls -/

/-- `current->filp[fd]`, for a descriptor that may be out of range. -/
def Kernel.filp (k : Kernel) (fd : ℕ) : Option (Fin nrFile) :=
  if h : fd < nrOpen then k.current.filp ⟨fd, h⟩ else none

def Kernel.setFilp (k : Kernel) (fd : Fin nrOpen) (f : Option (Fin nrFile)) : Kernel :=
  { k with current := { k.current with filp := update k.current.filp fd f } }

def Kernel.clearCloseOnExec (k : Kernel) (fd : Fin nrOpen) : Kernel :=
  { k with
    current := { k.current with closeOnExec := update k.current.closeOnExec fd false } }

def Kernel.setFile (k : Kernel) (f : Fin nrFile) (file : File) : Kernel :=
  { k with fileTable := update k.fileTable f file }

def Kernel.setCount (k : Kernel) (f : Fin nrFile) (count : ℕ) : Kernel :=
  k.setFile f { k.fileTable f with fCount := count }

/-- `dupfd`. -/
def dupfd (k : Kernel) (fd arg : ℕ) : ℤ × Kernel :=
  match k.filp fd with
  | none => (-eBadF, k)
  | some f =>
    if nrOpen ≤ arg then (-eInval, k)
    else
      match (List.finRange nrOpen).find? fun (i : Fin nrOpen) ↦
          arg ≤ i.val ∧ k.current.filp i = none with
      | none => (-eMFile, k)
      | some i =>
        let k := (k.clearCloseOnExec i).setFilp i (some f)
        (i, k.setCount f ((k.fileTable f).fCount + 1))

/-- `sys_close`. -/
def sysClose (k : Kernel) (fd : ℕ) : Except Panic (ℤ × Kernel) :=
  if h : fd < nrOpen then
    let k := k.clearCloseOnExec ⟨fd, h⟩
    match k.current.filp ⟨fd, h⟩ with
    | none => .ok (-eInval, k)
    | some f =>
      let k := k.setFilp ⟨fd, h⟩ none
      if (k.fileTable f).fCount = 0 then .error .fileCountIsZero
      else .ok (0, k.setCount f ((k.fileTable f).fCount - 1))
  else .ok (-eInval, k)

/-- `sys_dup2`. -/
def sysDup2 (k : Kernel) (oldfd newfd : ℕ) : Except Panic (ℤ × Kernel) := do
  let (_, k) ← sysClose k newfd
  .ok (dupfd k oldfd newfd)

/-- `sys_dup`. -/
def sysDup (k : Kernel) (fildes : ℕ) : ℤ × Kernel := dupfd k fildes 0

/-- `sys_fcntl` with `F_DUPFD`. -/
def sysFcntlDupfd (k : Kernel) (fd arg : ℕ) : ℤ × Kernel :=
  match k.filp fd with
  | none => (-eBadF, k)
  | some _ => dupfd k fd arg

/-- What `open_namei` returns: its value, and the inode with its mode; whether that is a character
device, and what `check_char_dev` then says. -/
structure Named where
  value : ℤ
  inode : ℕ
  iMode : ℕ
  isChr : Bool
  checkCharDev : Bool
  deriving DecidableEq, Repr

/-- `sys_open`. -/
def sysOpen (k : Kernel) (flag : ℕ) (named : Named) : ℤ × Kernel :=
  match (List.finRange nrOpen).find? fun i ↦ k.current.filp i = none with
  | none => (-eInval, k)
  | some fd =>
    let k := k.clearCloseOnExec fd
    match (List.finRange nrFile).find? fun f ↦ (k.fileTable f).fCount = 0 with
    | none => (-eInval, k)
    | some f =>
      let k := k.setFilp fd (some f)
      let k := k.setCount f ((k.fileTable f).fCount + 1)
      if named.value < 0 then (named.value, (k.setFilp fd none).setCount f 0)
      else if named.isChr ∧ named.checkCharDev then
        (-eAgain, (k.setFilp fd none).setCount f 0)
      else (fd, k.setFile f ⟨named.iMode, flag, 1, named.inode, 0⟩)

/-- The end of `sys_pipe`, with two files and two descriptors. -/
def pipeInode (k : Kernel) (f₀ f₁ : Fin nrFile) (fd₀ fd₁ : Fin nrOpen) (inode : Option ℕ) :
    ℤ × Kernel :=
  match inode with
  | none => (-1, (((k.setFilp fd₁ none).setFilp fd₀ none).setCount f₁ 0).setCount f₀ 0)
  | some inode =>
    let pipeEnd (file : File) (mode : ℕ) : File :=
      { file with fInode := inode, fPos := 0, fMode := mode }
    let k := k.setFile f₀ (pipeEnd (k.fileTable f₀) 1)
    (0, k.setFile f₁ (pipeEnd (k.fileTable f₁) 2))

/-- `sys_pipe` with two files: the search for descriptors. -/
def pipeFds (k : Kernel) (f₀ f₁ : Fin nrFile) (inode : Option ℕ) : ℤ × Kernel :=
  match ((List.finRange nrOpen).filter fun i ↦ k.current.filp i = none).take 2 with
  | [fd₀, fd₁] => pipeInode ((k.setFilp fd₀ (some f₀)).setFilp fd₁ (some f₁)) f₀ f₁ fd₀ fd₁ inode
  | [fd₀] => (-1, (((k.setFilp fd₀ (some f₀)).setFilp fd₀ none).setCount f₁ 0).setCount f₀ 0)
  | _ => (-1, (k.setCount f₁ 0).setCount f₀ 0)

/-- `sys_pipe`; `inode` is what `get_pipe_inode` returns. -/
def sysPipe (k : Kernel) (inode : Option ℕ) : ℤ × Kernel :=
  match ((List.finRange nrFile).filter fun f ↦ (k.fileTable f).fCount = 0).take 2 with
  | [f₀, f₁] =>
    let k := k.setCount f₀ ((k.fileTable f₀).fCount + 1)
    pipeFds (k.setCount f₁ ((k.fileTable f₁).fCount + 1)) f₀ f₁ inode
  | [f₀] => (-1, (k.setCount f₀ ((k.fileTable f₀).fCount + 1)).setCount f₀ 0)
  | _ => (-1, k)

/-- The loop of `do_exit` over the descriptors. -/
def closeAll (k : Kernel) : List (Fin nrOpen) → Except Panic Kernel
  | [] => .ok k
  | fd :: rest =>
    if k.current.filp fd = none then closeAll k rest
    else do
      let (_, k) ← sysClose k fd
      closeAll k rest

/-- The loop of `copy_process` over the descriptors of the new task. -/
def countAll (fileTable : Fin nrFile → File) (p : Task) : List (Fin nrOpen) → Fin nrFile → File
  | [] => fileTable
  | fd :: rest =>
    match p.filp fd with
    | none => countAll fileTable p rest
    | some f =>
      countAll (update fileTable f
        { fileTable f with fCount := (fileTable f).fCount + 1 }) p rest

/-! ### What a call keeps -/

section

variable (k : Kernel)

include k

@[simp] theorem fileTable_setFilp (fd : Fin nrOpen) (f : Option (Fin nrFile)) :
    (k.setFilp fd f).fileTable = k.fileTable := rfl

@[simp] theorem fileTable_clearCloseOnExec (fd : Fin nrOpen) :
    (k.clearCloseOnExec fd).fileTable = k.fileTable := rfl

@[simp] theorem filp_setFilp (fd : Fin nrOpen) (f : Option (Fin nrFile)) :
    (k.setFilp fd f).current.filp = update k.current.filp fd f := rfl

@[simp] theorem filp_clearCloseOnExec (fd : Fin nrOpen) :
    (k.clearCloseOnExec fd).current.filp = k.current.filp := rfl

@[simp] theorem current_setCount (f : Fin nrFile) (count : ℕ) :
    (k.setCount f count).current = k.current := rfl

theorem fCount_setFile (f g : Fin nrFile) (file : File) : ((k.setFile f file).fileTable g).fCount =
      if g = f then file.fCount else (k.fileTable g).fCount := by
  rw [Kernel.setFile]
  simp only [update_apply]
  split <;> rfl

@[simp] theorem fCount_setCount (f g : Fin nrFile) (count : ℕ) :
    ((k.setCount f count).fileTable g).fCount =
      if g = f then count else (k.fileTable g).fCount :=
  fCount_setFile k f g _

/-- The descriptors of the task and all counts are what they were. -/
structure Unchanged (k k' : Kernel) : Prop where
  filp : k'.current.filp = k.current.filp
  fCount : ∀ f, (k'.fileTable f).fCount = (k.fileTable f).fCount

theorem Unchanged.refl : Unchanged k k := ⟨rfl, fun _ ↦ rfl⟩

end

theorem Unchanged.trans {k k' k'' : Kernel} (h : Unchanged k k') (h' : Unchanged k' k'') :
    Unchanged k k'' :=
  ⟨h'.filp.trans h.filp, fun f ↦ (h'.fCount f).trans (h.fCount f)⟩

/-- Every count is the number of descriptors of the task and of `rest`. -/
def Balanced (rest : Fin nrFile → ℕ) (k : Kernel) : Prop :=
  ∀ f, (k.fileTable f).fCount = holders k.current.filp f + rest f

namespace Balanced

variable {rest : Fin nrFile → ℕ} {k k' : Kernel}

section

variable (h : Balanced rest k)

include h

theorem congr (hsame : Unchanged k k') : Balanced rest k' := by
  intro f
  rw [hsame.fCount, hsame.filp]
  exact h f

variable {fd : Fin nrOpen}

theorem put (hfree : k.current.filp fd = none) (f : Fin nrFile) :
    Balanced rest ((k.setFilp fd (some f)).setCount f ((k.fileTable f).fCount + 1)) := by
  intro g
  rw [fCount_setCount, current_setCount, filp_setFilp, holders_put hfree]
  by_cases hg : g = f
  · rw [if_pos hg, if_pos hg.symm, h f, hg]
    omega
  · rw [if_neg hg, if_neg (Ne.symm hg), fileTable_setFilp, h g]
    omega

variable {f : Fin nrFile}

theorem clear (hopen : k.current.filp fd = some f) :
    Balanced rest ((k.setFilp fd none).setCount f ((k.fileTable f).fCount - 1)) := by
  intro g
  have hclear := holders_clear hopen g
  rw [fCount_setCount, current_setCount, filp_setFilp]
  by_cases hg : g = f
  · rw [if_pos hg.symm] at hclear
    rw [if_pos hg, h f, ← hg, ← hclear]
    omega
  · rw [if_neg (Ne.symm hg)] at hclear
    rw [if_neg hg, fileTable_setFilp, h g, ← hclear, Nat.add_zero]

theorem fCount_pos (hopen : k.current.filp fd = some f) : 0 < (k.fileTable f).fCount := by
  rw [h f]
  exact Nat.add_pos_left (holders_pos hopen) _

end

end Balanced

/-- What a call that returns `r` does: it keeps the counts, and changes nothing when it fails. -/
structure Sound (rest : Fin nrFile → ℕ) (k : Kernel) (r : ℤ × Kernel) : Prop where
  balanced : Balanced rest r.2
  unchanged : r.1 < 0 → Unchanged k r.2

section

variable {rest : Fin nrFile → ℕ} {k : Kernel}

variable {k' : Kernel} {f₀ f₁ : Fin nrFile}

theorem sound_error (h : Balanced rest k) (r : ℤ) (hsame : Unchanged k k') : Sound rest k (r, k') :=
  ⟨h.congr hsame, fun _ ↦ hsame⟩

theorem sound_value (h : Balanced rest k') (n : ℕ) : Sound rest k (n, k') :=
  ⟨h, fun hneg ↦ absurd hneg (Int.not_lt.mpr (Int.natCast_nonneg n))⟩

theorem unchanged_clearCloseOnExec (k : Kernel) (fd : Fin nrOpen) :
    Unchanged k (k.clearCloseOnExec fd) := ⟨rfl, fun _ ↦ rfl⟩

theorem of_find? {α : Type} {p : α → Prop} [DecidablePred p] {l : List α} {a : α}
    (h : l.find? (fun x ↦ p x) = some a) : p a := by
  have hpred := find?_some h
  exact of_decide_eq_true hpred

theorem dupfd_sound (h : Balanced rest k) (fd arg : ℕ) : Sound rest k (dupfd k fd arg) := by
  rw [dupfd]
  cases k.filp fd with
  | none => exact sound_error h _ (.refl k)
  | some f =>
    simp only
    split_ifs
    · exact sound_error h _ (.refl k)
    · split
      case h_1 => exact sound_error h _ (.refl k)
      case h_2 i hi =>
        have hfree : k.current.filp i = none :=
          (of_find? hi).2
        refine sound_value ?_ i
        exact (h.congr (unchanged_clearCloseOnExec k i)).put hfree f

theorem sysFcntlDupfd_sound (h : Balanced rest k) (fd arg : ℕ) :
    Sound rest k (sysFcntlDupfd k fd arg) := by
  rw [sysFcntlDupfd]
  split
  · exact sound_error h _ (.refl k)
  · exact dupfd_sound h fd arg

variable {fd : Fin nrOpen} {n newfd : ℕ} {p : Fin n → Prop} {a : Fin n}

/-- Taking a free file for a free descriptor and giving both back. -/
theorem unchanged_take {f : Fin nrFile} (hfd : k.current.filp fd = none)
    (hf : (k.fileTable f).fCount = 0) (count : ℕ) :
    Unchanged k ((((k.setFilp fd (some f)).setCount f count).setFilp fd none).setCount f 0) := by
  constructor
  · simp [hfd]
  · intro g
    simp only [fCount_setCount, fileTable_setFilp]
    split_ifs with hg
    · rw [hg, hf]
    · rfl

theorem sysOpen_sound (h : Balanced rest k) (flag : ℕ) (named : Named) :
    Sound rest k (sysOpen k flag named) := by
  rw [sysOpen]
  split
  case h_1 => exact sound_error h _ (.refl k)
  case h_2 fd hfd =>
    have hfree : k.current.filp fd = none :=
      of_find? (p := fun i ↦ k.current.filp i = none) hfd
    simp only
    split
    case h_1 => exact sound_error h _ (unchanged_clearCloseOnExec k fd)
    case h_2 f hf =>
      have hcount : (k.fileTable f).fCount = 0 :=
        of_find? (p := fun f ↦ (k.fileTable f).fCount = 0) hf
      have hsame : Unchanged k (((((k.clearCloseOnExec fd).setFilp fd (some f)).setCount f
          ((k.fileTable f).fCount + 1)).setFilp fd none).setCount f 0) := by
        have htake := unchanged_take (k := k.clearCloseOnExec fd) hfree hcount
          ((k.fileTable f).fCount + 1)
        exact ⟨htake.filp, htake.fCount⟩
      split_ifs
      · exact sound_error h _ hsame
      · exact sound_error h _ hsame
      · refine sound_value ?_ fd
        refine ((h.congr (unchanged_clearCloseOnExec k fd)).put hfree f).congr ⟨rfl, fun g ↦ ?_⟩
        rw [fCount_setFile, fCount_setCount, fCount_setCount]
        split_ifs
        · simp [hcount]
        · rfl

/-- The first two elements that are found are different. -/
theorem of_take_two [DecidablePred p] {b : Fin n}
    (h : ((finRange n).filter fun x ↦ p x).take 2 = [a, b]) : p a ∧ p b ∧ a ≠ b := by
  have hmem : ∀ x ∈ [a, b], p x := by
    intro x hx
    rw [← h] at hx
    simpa using mem_of_mem_take hx
  have hnodup : [a, b].Nodup := by
    rw [← h]
    exact ((nodup_finRange n).filter _).sublist (take_sublist _ _)
  refine ⟨hmem a (by simp), hmem b (by simp), ?_⟩
  simpa using hnodup

theorem of_take_two_one [DecidablePred p]
    (h : ((finRange n).filter fun x ↦ p x).take 2 = [a]) : p a := by
  have hmem : a ∈ ((finRange n).filter fun x ↦ p x).take 2 := by simp [h]
  simpa using mem_of_mem_take hmem

/-- The kernel after `sys_pipe` has taken two free files. -/
def taken (k : Kernel) (f₀ f₁ : Fin nrFile) : Kernel :=
  let k := k.setCount f₀ ((k.fileTable f₀).fCount + 1)
  k.setCount f₁ ((k.fileTable f₁).fCount + 1)

theorem filp_taken (k : Kernel) (f₀ f₁ : Fin nrFile) :
    (taken k f₀ f₁).current.filp = k.current.filp := rfl

theorem fCount_taken (h₀ : (k.fileTable f₀).fCount = 0) (h₁ : (k.fileTable f₁).fCount = 0)
    (hne : f₀ ≠ f₁) (g : Fin nrFile) : ((taken k f₀ f₁).fileTable g).fCount =
      if g = f₀ ∨ g = f₁ then 1 else (k.fileTable g).fCount := by
  simp only [taken, fCount_setCount]
  by_cases hg₁ : g = f₁
  · simp [hg₁, hne.symm, h₁]
  · by_cases hg₀ : g = f₀ <;> simp [hg₀, hg₁, hne, h₀]

/-- Two free files are given back. -/
theorem unchanged_giveBack (h₀ : (k.fileTable f₀).fCount = 0) (h₁ : (k.fileTable f₁).fCount = 0)
    (hne : f₀ ≠ f₁) (hfilp : k'.current.filp = k.current.filp)
    (htable : k'.fileTable = (taken k f₀ f₁).fileTable) :
    Unchanged k ((k'.setCount f₁ 0).setCount f₀ 0) := by
  refine ⟨hfilp, fun g ↦ ?_⟩
  simp only [fCount_setCount, htable, fCount_taken h₀ h₁ hne]
  by_cases hg₀ : g = f₀
  · simp [hg₀, h₀]
  · by_cases hg₁ : g = f₁ <;> simp [hg₀, hg₁, hne.symm, h₁]

theorem update_none (hfree : k.current.filp fd = none) :
    update k.current.filp fd none = k.current.filp := by
  rw [← hfree, update_eq_self]

theorem pipeFds_sound (h : Balanced rest k) (h₀ : (k.fileTable f₀).fCount = 0)
    (h₁ : (k.fileTable f₁).fCount = 0) (hne : f₀ ≠ f₁) (inode : Option ℕ) :
    Sound rest k (pipeFds (taken k f₀ f₁) f₀ f₁ inode) := by
  rw [pipeFds]
  split
  case h_1 fd₀ fd₁ hfds =>
    obtain ⟨hfree₀, hfree₁, hfds⟩ := of_take_two hfds
    rw [filp_taken] at hfree₀ hfree₁
    cases inode with
    | none =>
      refine sound_error h _ (unchanged_giveBack h₀ h₁ hne ?_ rfl)
      simp only [filp_setFilp, filp_taken]
      rw [update_idem, update_comm hfds.symm, update_idem, update_none hfree₀, update_none hfree₁]
    | some inode =>
      refine sound_value (n := 0) ?_
      have hfree : update k.current.filp fd₀ (some f₀) fd₁ = none := by
        rw [update_of_ne hfds.symm, hfree₁]
      refine ((h.put hfree₀ f₀).put hfree f₁).congr ⟨rfl, fun g ↦ ?_⟩
      simp only [fCount_setFile, fileTable_setFilp, fCount_setCount, fCount_taken h₀ h₁ hne]
      by_cases hg₁ : g = f₁
      · simp [hg₁, hne.symm, h₁]
      · by_cases hg₀ : g = f₀ <;> simp [hg₀, hg₁, hne, h₀]
  case h_2 fd₀ hfd =>
    refine sound_error h _ (unchanged_giveBack h₀ h₁ hne ?_ rfl)
    have hfree := of_take_two_one hfd
    rw [filp_taken] at hfree
    simp only [filp_setFilp, filp_taken]
    rw [update_idem, update_none hfree]
  case h_3 => exact sound_error h _ (unchanged_giveBack h₀ h₁ hne rfl rfl)

theorem sysPipe_sound (h : Balanced rest k) (inode : Option ℕ) :
    Sound rest k (sysPipe k inode) := by
  rw [sysPipe]
  split
  case h_1 f₀ f₁ hfs =>
    obtain ⟨h₀, h₁, hne⟩ := of_take_two hfs
    exact pipeFds_sound h h₀ h₁ hne inode
  case h_2 f₀ hf =>
    have h₀ := of_take_two_one hf
    refine sound_error h _ ⟨rfl, fun g ↦ ?_⟩
    simp only [fCount_setCount]
    split_ifs with hg
    · rw [hg, h₀]
    · rfl
  case h_3 => exact sound_error h _ (.refl k)

/-! ### Closing -/

theorem sysClose_ok (h : Balanced rest k) (fd : ℕ) :
    ∃ r, sysClose k fd = .ok r ∧ Balanced rest r.2 ∧
      ∀ i : Fin nrOpen, r.2.current.filp i = if i.val = fd then none else k.current.filp i := by
  rw [sysClose]
  split
  case isFalse hfd =>
    refine ⟨_, rfl, h, fun i ↦ ?_⟩
    rw [if_neg fun hi : i.val = fd ↦ hfd (hi ▸ i.isLt)]
  case isTrue hfd =>
    simp only [filp_clearCloseOnExec]
    cases hopen : k.current.filp ⟨fd, hfd⟩ with
    | none =>
      refine ⟨_, rfl, h.congr (unchanged_clearCloseOnExec k _), fun i ↦ ?_⟩
      split_ifs with hi
      · rw [← hopen]
        exact congrArg k.current.filp (Fin.ext hi)
      · rfl
    | some f =>
      have hcount :
          (((k.clearCloseOnExec ⟨fd, hfd⟩).setFilp ⟨fd, hfd⟩ none).fileTable f).fCount ≠ 0 :=
        (h.fCount_pos hopen).ne'
      simp only
      rw [if_neg hcount]
      refine ⟨_, rfl, ?_, fun i ↦ ?_⟩
      · exact (h.congr (unchanged_clearCloseOnExec k _)).clear hopen
      · simp only [current_setCount, filp_setFilp, filp_clearCloseOnExec, update_apply,
          Fin.ext_iff]

theorem closeAll_ok (h : Balanced rest k) (fds : List (Fin nrOpen)) :
    ∃ k', closeAll k fds = .ok k' ∧ Balanced rest k' ∧
      ∀ i, k'.current.filp i = if i ∈ fds then none else k.current.filp i := by
  induction fds generalizing k with
  | nil => exact ⟨k, rfl, h, fun i ↦ by simp⟩
  | cons fd fds ih =>
    rw [closeAll]
    split_ifs with hfd
    · obtain ⟨k', hk', hbalanced, hfilp⟩ := ih h
      refine ⟨k', hk', hbalanced, fun i ↦ ?_⟩
      rw [hfilp]
      by_cases hi : i = fd
      · simp [hi, hfd]
      · simp [hi]
    · obtain ⟨r, hr, hclosed, hfilp⟩ := sysClose_ok h fd.val
      obtain ⟨k', hk', hbalanced, hfilp'⟩ := ih hclosed
      refine ⟨k', ?_, hbalanced, fun i ↦ ?_⟩
      · rw [hr]
        exact hk'
      · rw [hfilp', hfilp]
        by_cases hi : i = fd
        · simp [hi]
        · simp [hi, Fin.ext_iff.not.mp hi]

/-! ### `dup2` -/

theorem filp_of_closed (hfilp : ∀ i : Fin nrOpen, k'.current.filp i =
    if i.val = newfd then none else k.current.filp i) (fd : ℕ) :
    k'.filp fd = if fd = newfd then none else k.filp fd := by
  rw [Kernel.filp, Kernel.filp]
  split_ifs with hlt heq heq
  · rw [hfilp, if_pos heq]
  · rw [hfilp, if_neg heq]
  · rfl
  · rfl

theorem unchanged_of_closed (h : Balanced rest k) (h' : Balanced rest k')
    (hfilp : ∀ i : Fin nrOpen, k'.current.filp i =
      if i.val = newfd then none else k.current.filp i) (hnew : k.filp newfd = none) :
    Unchanged k k' := by
  have hsame : k'.current.filp = k.current.filp := by
    ext1 i
    rw [hfilp]
    split_ifs with hi
    · rw [← hnew, ← hi, Kernel.filp, dif_pos i.isLt]
    · rfl
  refine ⟨hsame, fun f ↦ ?_⟩
  rw [h f, h' f, hsame]

/-- A descriptor that is free is the one that `dupfd` takes. -/
theorem dupfd_nonneg {fd arg : ℕ} (hfd : k.filp fd ≠ none) (harg : arg < nrOpen)
    (hfree : k.filp arg = none) : 0 ≤ (dupfd k fd arg).1 := by
  obtain ⟨f, hf⟩ := Option.ne_none_iff_exists'.mp hfd
  have hfind : ((finRange nrOpen).find? fun (i : Fin nrOpen) ↦
      arg ≤ i.val ∧ k.current.filp i = none) ≠ none := by
    rw [Ne, find?_eq_none]
    push Not
    refine ⟨⟨arg, harg⟩, mem_finRange _, ?_⟩
    rw [Kernel.filp, dif_pos harg] at hfree
    simp [hfree]
  obtain ⟨i, hi⟩ := Option.ne_none_iff_exists'.mp hfind
  rw [dupfd, hf]
  simp only [hi, if_neg (Nat.not_le.mpr harg)]
  exact Int.natCast_nonneg i

theorem dupfd_bad {fd : ℕ} (hfd : k.filp fd = none) (arg : ℕ) : dupfd k fd arg = (-eBadF, k) := by
  rw [dupfd, hfd]

end

end EasyKernels.Linux.Descriptors
