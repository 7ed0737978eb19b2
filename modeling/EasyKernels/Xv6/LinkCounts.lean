import EasyKernels.Xv6.DirectoryCalls

/-!
# Link counts along a run

`linkCounts` is about every run of the calls in `Directories` from a fresh image, by any number of
processes, in which no call adds an entry to a directory that has been unlinked: between calls, the
link count of every inode but the root is the number of directory entries for it, not counting its
own `.` nor the `..` of a directory that has been unlinked, and an inode that nothing refers to has
links (`Consistent`).

The `..` of a directory that has been unlinked and is still in use is not counted for files either:
`sys_unlink` has taken its link back, so that the parent can be removed in turn and its number given
to a file. `counts_not_entries` has such a run, and one with a call that the theorem leaves out, in
which a file made in a directory without links outlives it.

The invariant of `DirectoryCalls` holds on a fresh image (`inv_initial`) and gives the counts
(`Inv.consistent`): a directory without links is one that nothing names.
-/

set_option autoImplicit false

namespace EasyKernels.Xv6.Directories

open Nat Function Finset Lib.Runs Lib.LinkTree
open List hiding range mem_range sum_range_succ'

/-! ### What holds between calls -/

variable (inode : ℕ → Inode)

/-- No entry but `.` and `..` is for the directory. -/
def Unlinked (d : ℕ) : Prop :=
  d ≠ rootIno ∧ ∀ e < nInodes, ∀ de ∈ (inode e).entries, de.inum = d →
    de.name = dot ∨ de.name = dotdot

instance (d : ℕ) : Decidable (Unlinked inode d) := by
  unfold Unlinked
  infer_instance

/-- The number of directory entries for an inode. -/
def entriesFor (i : ℕ) : ℕ :=
  ∑ d ∈ range nInodes, if (inode d).type = tDir then
    (inode d).entries.countP fun de ↦ de.inum = i else 0

/-- The number of directory entries for an inode, without its own `.` and without the `..` of a
directory that has been unlinked. -/
def linksTo (i : ℕ) : ℕ :=
  ∑ d ∈ range nInodes, if (inode d).type = tDir then
    (inode d).entries.countP fun de ↦ de.inum = i ∧ ¬ (d = i ∧ de.name = dot) ∧
      ¬ (de.name = dotdot ∧ Unlinked inode d) else 0

/-- The link counts are right. -/
structure Consistent {P : Type*} (s : State P) : Prop where
  counted : ∀ i, (s.inode i).type ≠ 0 → i ≠ rootIno → (s.inode i).nlink = linksTo s.inode i
  kept : ∀ i, (s.inode i).type ≠ 0 → s.ref i = 0 → 0 < (s.inode i).nlink

variable {P : Type*}

/-! ### The counts -/

section Counts

variable [Fintype P] {s : State P} {i : ℕ}

/-- A directory is named by no other exactly when it has no links. -/
theorem unlinked_iff (h : Inv [] [] s) {d : ℕ} (hd : (s.inode d).type = tDir) :
    Unlinked s.inode d ↔ (s.inode d).nlink = 0 := by
  refine .trans ?_ (h.tree.unnamed_iff hd)
  exact and_congr_right fun _ ↦ forall₂_congr fun e _ ↦ (named_eq_zero (s.inode e) d).symm

theorem linksTo_eq (h : Inv [] [] s) (hi : (s.inode i).type ≠ 0) :
    linksTo s.inode i = links nInodes s.inode i := by
  refine sum_congr rfl fun d _ ↦ ?_
  have hi0 := (h.tree.range i hi).1.ne'
  split_ifs with hd
  · refine ((h.tree.shape d hd).countP_eq hi0 _ (fun de hq ↦ ?_)
      fun de hinum hdot hdotdot ↦ ?_).trans ?_
    · simp only [decide_eq_true_eq] at hq
      exact hq.1
    · simp [hinum, hdot, hdotdot]
    · have hnlink : Node.nlink (s.inode d) = (s.inode d).nlink := rfl
      simp only [unlinked_iff h hd, weight, hnlink]
      by_cases hself : d = i <;> simp [hself, dot_ne_dotdot.symm, and_comm]
  · rw [weight_of_entries (h.tree.plain d hd) hi0]

/-- The invariant between calls gives the counts. -/
theorem Inv.consistent (h : Inv [] [] s) : Consistent s := by
  have hnlink : ∀ i, (s.inode i).type ≠ 0 → (s.inode i).nlink = links nInodes s.inode i := by
    intro i hi
    rw [h.links_eq hi, count_nil]
    omega
  refine ⟨fun i hi _ ↦ ?_, fun i hi href ↦ ?_⟩
  · rw [hnlink i hi, linksTo_eq h hi]
  · have hne : (s.inode i).nlink ≠ 0 := fun hzero ↦ by
      have := (h.refs.kept i hi hzero).1
      omega
    have := hnlink i hi
    omega

end Counts

/-! ### A fresh image -/

section Fresh

variable {files : List (Name × ℕ)} {i : ℕ}

theorem mkfsInode_root (files : List (Name × ℕ)) : mkfsInode files rootIno =
    { Inode.zero with
      type := tDir
      nlink := 1
      entries := rootEntries files
      blocks := (rootEntries files).length / direntsPerBlock } :=
  if_pos rfl

/-- An inode other than the root is that of a file, or free. -/
theorem mkfsInode_of_ne (files : List (Name × ℕ)) (hi : i ≠ rootIno) :
    (∃ k file, i = k + 2 ∧ files[k]? = some file ∧
      mkfsInode files i = { Inode.zero with type := tFile, nlink := 1, blocks := file.2 }) ∨
    ((∀ k, i = k + 2 → files[k]? = none) ∧ mkfsInode files i = .zero) := by
  unfold mkfsInode
  rw [if_neg hi]
  split_ifs with htwo
  · cases hfile : files[i - 2]? with
    | some file => exact .inl ⟨i - 2, file, by omega, hfile, rfl⟩
    | none =>
      refine .inr ⟨fun k hk ↦ ?_, rfl⟩
      obtain rfl : k = i - 2 := by omega
      exact hfile
  · exact .inr ⟨fun k hk ↦ by omega, rfl⟩

theorem mkfsInode_entries (hi : i ≠ rootIno) : (mkfsInode files i).entries = [] := by
  rcases mkfsInode_of_ne files hi with ⟨k, file, -, -, heq⟩ | ⟨-, heq⟩ <;> rw [heq] <;> rfl

theorem mkfsInode_dir (hi : (mkfsInode files i).type = tDir) : i = rootIno := by
  by_contra hne
  have hfile : tFile ≠ tDir := by decide
  rcases mkfsInode_of_ne files hne with ⟨k, file, -, -, heq⟩ | ⟨-, heq⟩
  · rw [heq] at hi
    exact hfile hi
  · rw [heq] at hi
    exact tDir_ne_zero hi.symm

/-- The entries of the root directory other than `.` and `..`: one for each file, and zeros. -/
theorem rootEntries_count (files : List (Name × ℕ)) : ∃ rest : List Dirent,
    Node.entries (mkfsInode files rootIno) = ⟨rootIno, dot⟩ :: ⟨rootIno, dotdot⟩ :: rest ∧
      (∀ de ∈ rest, de.inum ≠ 0 →
        ∃ k, ∃ hk : k < files.length, de = ⟨k + 2, (files[k]).1⟩) ∧
      ∀ k < files.length, (rest.map Dirent.inum).count (k + 2) = 1 := by
  have hinums : (files.mapIdx fun k file ↦ (⟨k + 2, file.1⟩ : Dirent)).map
      Dirent.inum = range' 2 files.length := by
    refine ext_getElem (by simp) fun k _ _ ↦ ?_
    simp [add_comm]
  refine ⟨_, rfl, fun de hde hinum ↦ ?_, fun k hk ↦ ?_⟩
  · rcases mem_append.mp hde with hfile | hpad
    · obtain ⟨k, hk, rfl⟩ := mem_mapIdx.mp hfile
      exact ⟨k, hk, rfl⟩
    · rw [eq_of_mem_replicate hpad] at hinum
      exact absurd rfl hinum
  · rw [append_eq, map_append, hinums, count_append, map_replicate,
      count_eq_one_of_mem nodup_range' (by simp; omega), count_eq_zero.mpr (by simp [Dirent.zero])]

/-- The inodes of a fresh image have a link each, or are free. -/
theorem mkfsInode_nlink (hi : (mkfsInode files i).type ≠ 0) : (mkfsInode files i).nlink = 1 := by
  by_cases hroot : i = rootIno
  · rw [hroot, mkfsInode_root]
  · rcases mkfsInode_of_ne files hroot with ⟨k, file, -, -, heq⟩ | ⟨-, heq⟩
    · rw [heq]
    · rw [heq] at hi
      exact absurd rfl hi

theorem tree_initial (h : Fresh files) : Tree nInodes rootIno [] (mkfsInode files) := by
  obtain ⟨rest, hentries, hrest, hcount⟩ := rootEntries_count files
  have hinodes := h.inodes
  refine .of_root (by decide) (congrArg Inode.type (mkfsInode_root files)) rfl hentries
    (fun de hde hinum ↦ ?_) (fun i hi ↦ ⟨mt mkfsInode_dir hi, mkfsInode_entries hi⟩)
    fun i hi hused ↦ ?_
  · obtain ⟨k, hk, rfl⟩ := hrest de hde hinum
    have hne : k + 2 ≠ rootIno := by simp [rootIno]
    refine ⟨hne, ?_, h.names _ (getElem_mem hk)⟩
    rcases mkfsInode_of_ne files hne with ⟨j, file, -, -, heq⟩ | ⟨hnone, -⟩
    · rw [heq]
      exact (by decide : tFile ≠ 0)
    · exact absurd (getElem?_eq_none_iff.mp (hnone k rfl)) (not_le.mpr hk)
  · rcases mkfsInode_of_ne files hi with ⟨k, file, rfl, hk, heq⟩ | ⟨-, heq⟩
    · obtain ⟨hlt, -⟩ := List.getElem?_eq_some_iff.mp hk
      rw [heq, hcount k hlt]
      exact ⟨by omega, rfl⟩
    · rw [heq] at hused
      exact absurd rfl hused

/-- The blocks of the files, summed over the inodes. -/
theorem sum_files (files : List (Name × ℕ)) {n : ℕ} (hn : files.length ≤ n) :
    ∑ k ∈ range n, (files[k]?.map Prod.snd).getD 0 = (files.map Prod.snd).sum := by
  induction files generalizing n with
  | nil => simp
  | cons file files ih =>
    obtain ⟨m, rfl⟩ : ∃ m, n = m + 1 := ⟨n - 1, by rw [List.length_cons] at hn; omega⟩
    rw [sum_range_succ']
    simp only [List.length_cons] at hn
    simp only [List.getElem?_cons_succ, List.getElem?_cons_zero, Option.map_some,
      Option.getD_some, List.map_cons, List.sum_cons]
    rw [ih (by omega), add_comm]

theorem mkfsInode_blocks (h : Fresh files) :
    ∑ i ∈ range nInodes, (mkfsInode files i).blocks = mkfsBlocks files := by
  have hsplit : nInodes = (nInodes - 2) + 1 + 1 := rfl
  have hfile : ∀ k, (mkfsInode files (k + 1 + 1)).blocks = (files[k]?.map Prod.snd).getD 0 := by
    intro k
    rcases mkfsInode_of_ne files (i := k + 1 + 1) (by simp [rootIno]) with
      ⟨j, file, hj, hfile, heq⟩ | ⟨hnone, heq⟩
    · obtain rfl : k = j := by omega
      rw [heq, hfile]
      rfl
    · rw [heq, hnone k rfl]
      rfl
  have hone : (mkfsInode files (0 + 1)).blocks = (rootEntries files).length / direntsPerBlock := by
    exact congrArg Inode.blocks (mkfsInode_root files)
  have hzero : (mkfsInode files 0).blocks = 0 := rfl
  have hinodes := h.inodes
  rw [hsplit, sum_range_succ', sum_range_succ', hone, hzero]
  simp only [hfile]
  rw [sum_files files (by omega), mkfsBlocks]
  omega

theorem space_initial {P : Type*} [DecidableEq P] (h : Fresh files) (init : P) :
    Space (initial init files) := by
  refine ⟨?_, fun i ↦ ?_, fun i hi ↦ ?_⟩
  · have hblocks := h.blocks
    have hsum := mkfsInode_blocks h
    simp only [initial]
    omega
  · change (mkfsInode files i).entries.length ≤ direntsPerBlock * (mkfsInode files i).blocks
    by_cases hi1 : i = rootIno
    · rw [hi1, mkfsInode_root]
      have hper : direntsPerBlock = 32 := rfl
      simp only [rootEntries, length_append, length_replicate, hper]
      omega
    · rw [mkfsInode_entries hi1]
      exact zero_le _
  · change (mkfsInode files i).type = 0 at hi
    change (mkfsInode files i).blocks = 0
    have hi1 : i ≠ rootIno := by
      rintro rfl
      exact tDir_ne_zero hi
    have hfile : tFile ≠ 0 := by decide
    rcases mkfsInode_of_ne files hi1 with ⟨k, file, -, -, heq⟩ | ⟨-, heq⟩
    · rw [heq] at hi
      exact absurd hi hfile
    · rw [heq]
      rfl

theorem inv_initial {P : Type*} [DecidableEq P] [Fintype P] (h : Fresh files) (init : P) :
    Inv [] [] (initial init files) := by
  refine ⟨tree_initial h, ⟨fun i ↦ ?_, fun i hi hdead ↦ ?_, fun i _ hvalid ↦ ?_, fun _ _ ↦ rfl⟩,
    space_initial h init⟩
  · have hprocs : ∑ p, ((initial init files).proc p).uses i = if rootIno = i then 1 else 0 := by
      rw [sum_eq_single_of_mem init (mem_univ init) fun p _ hp ↦ ?_]
      · simp [initial, Proc.uses]
      · simp [initial, Proc.uses, update_of_ne hp]
    have hfiles : ∑ f, ((initial init files).file f).uses i = 0 :=
      sum_eq_zero fun f _ ↦ rfl
    rw [State.holders, hprocs, hfiles, count_nil]
    change update (fun _ ↦ 0) rootIno 1 i = _
    by_cases hi : i = rootIno
    · rw [hi, update_self, if_pos rfl]
    · rw [update_of_ne hi, if_neg (Ne.symm hi)]
  · have hnlink := mkfsInode_nlink hi
    change (mkfsInode files i).nlink = 0 at hdead
    omega
  · simp [initial] at hvalid

end Fresh

/-! ### Runs -/

section Runs

variable [Fintype P] [DecidableEq P]

theorem step_inv {init : P} {s t : State P} {c : Call P} (h : Inv [] [] s)
    (hstep : step init s c = .next t) (htidy : Tidy s t) : Inv [] [] t := by
  obtain ⟨hlive, hstep⟩ := guard_eq_next.mp hstep
  exact call_inv h hlive t (Outcome.ofExcept_eq_next.mp hstep) htidy

/-- In every run from a fresh image whose calls leave the directories alone that have been unlinked,
the link counts are right after every call. -/
theorem linkCounts (init : P) {files : List (Name × ℕ)} (hfresh : Fresh files)
    {es : List (Call P)} {s : State P}
    (htidy : Meets (step init) (fun u c ↦ ∀ t, step init u c = .next t → Tidy u t)
      (initial init files) es)
    (hrun : run (step init) (initial init files) es = some s) : Consistent s := by
  refine Inv.consistent ?_
  refine run_induction_of_meets (I := fun _ s ↦ Inv [] [] s) (inv_initial hfresh init) ?_ htidy hrun
  intro _ u c t _ hinv htidy hstep
  exact step_inv hinv hstep (htidy t hstep)

/-- A run that never leaves a directory without links is tidy. -/
theorem tidy_of_linked {init : P} {files : List (Name × ℕ)} (hfresh : Fresh files)
    {es : List (Call P)} (h : Meets (step init) (fun u _ ↦ ∀ d < nInodes,
      (u.inode d).type = tDir → (u.inode d).nlink ≠ 0) (initial init files) es) :
    Meets (step init) (fun u c ↦ ∀ t, step init u c = .next t → Tidy u t)
      (initial init files) es := by
  have htidy {u t : State P} (hinv : Inv [] [] u) (hlinked : ∀ d < nInodes,
      (u.inode d).type = tDir → (u.inode d).nlink ≠ 0) : Tidy u t := by
    intro d hd hdead
    have hused : (u.inode d).type ≠ 0 := hd ▸ tDir_ne_zero
    exact absurd hdead (hlinked d (hinv.tree.range d hused).2 hd)
  intro before c after u heq hu t _
  have hbefore := (heq ▸ h).of_append
  refine htidy ?_ (h before c after u heq hu)
  exact run_induction_of_meets (I := fun _ s ↦ Inv [] [] s) (inv_initial hfresh init)
    (fun _ _ _ _ _ hinv hl hstep ↦ step_inv hinv hstep (htidy hinv hl)) hbefore hu

end Runs

/-- A process makes a directory and another makes a file in it; the first links the file from the
root, and the second removes its first name, closes it and exits. -/
def twoProcesses : List (Call Bool) :=
  [.mkdir false [97], .fork false true, .openPath true [97, 47, 102] oCreate,
    .link false [97, 47, 102] [103], .unlink true [97, 47, 102], .chdir false [97],
    .close true (some ⟨0, by decide⟩), .exit true]

theorem linkCounts_twoProcesses : ∃ s, run (step false) (initial false []) twoProcesses = some s ∧
    (s.inode 3).nlink = 1 ∧ Consistent s := by
  have hfresh : Fresh [] := ⟨by simp, by decide, by decide, by decide⟩
  exact ⟨_, run_get (by decide +kernel), by decide +kernel,
    linkCounts false hfresh (tidy_of_linked hfresh (by decide +kernel)) (run_get _)⟩

/-- A number that the `..` of a directory in use still has is given to a file; and a file is made
in a directory that has been unlinked, which is freed before it. -/
theorem counts_not_entries :
    (∃ s, run (step (0 : Fin 1)) (initial 0 [])
      [.mkdir 0 [97], .mkdir 0 [97, 47, 98], .chdir 0 [97, 47, 98], .unlink 0 [47, 97, 47, 98],
        .unlink 0 [47, 97], .openPath 0 [47, 102] oCreate] = some s ∧
      (s.inode 2).type = tFile ∧ (s.inode 2).nlink = 1 ∧ entriesFor s.inode 2 = 2) ∧
    ∃ s, run (step (0 : Fin 1)) (initial 0 [])
      [.mkdir 0 [97], .chdir 0 [97], .unlink 0 [47, 97], .openPath 0 [98] oCreate,
        .close 0 (some ⟨0, by decide⟩), .chdir 0 [47]] = some s ∧
      (s.inode 3).type = tFile ∧ (s.inode 3).nlink = 1 ∧ entriesFor s.inode 3 = 0 := by
  decide +kernel

end EasyKernels.Xv6.Directories
