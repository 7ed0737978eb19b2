import EasyKernels.Linux.NameiCalls

/-!
# Link counts along a run

`i_nlinks` is a byte that `sys_link` and `sys_mkdir` add 1 to without a check. `byteLinkCounts` is
about every run of the calls in `Namei` that starts with a sound file system and in which no link is
made to an inode, and no directory in one, with 255 links already: after every call, `i_nlinks` of
every inode in use is the number of directory entries for it, with `.` and `..` and without the
entries of directories that have been removed, and `iput` has freed no inode that an entry named
(`Counted`).

`lastLink_lost` is the call that the theorem leaves out: one more link to a file that has 255 of
them brings the byte to 0, and the `iput` at the end of `sys_link` frees the inode under 256 names.
-/

set_option autoImplicit false

namespace EasyKernels.Linux.Namei

open Nat Function Finset Lib.Runs Lib.LinkTree
open List hiding range mem_range

variable {T : Type*}

/-- The number of directory entries for an inode, without those of directories that have been
removed. -/
def entriesFor (ninodes : ℕ) (inode : ℕ → Inode) (i : ℕ) : ℕ :=
  ∑ d ∈ range (ninodes + 1), if Removed ninodes inode d then 0 else
    (inode d).entries.countP fun de ↦ de.inum = i

/-- The link counts are right, and no inode that was named has been freed. -/
structure Counted (s : State T) : Prop where
  nlinks_eq : ∀ i, (s.inode i).used = true →
    (s.inode i).nlinks.toNat = entriesFor s.ninodes s.inode i
  kept : s.lost = false

/-! ### The counts -/

section Counts

variable [Fintype T] {s : State T} {i : ℕ}

/-- The entries of a directory that has links are its weight in the tree and its own `.`. -/
theorem Inv.entries_eq (h : Inv [] [] s) (hi : i ≠ 0) (d : ℕ) :
    (if Removed s.ninodes s.inode d then 0 else
      (s.inode d).entries.countP fun de ↦ de.inum = i) = weight (s.inode d) i +
      if d = i then (if Node.IsDir (s.inode i) ∧ (s.inode i).nlinks ≠ 0 then 1 else 0) else 0 := by
  by_cases hd : Node.IsDir (s.inode d)
  · have hremoved : Removed s.ninodes s.inode d ↔ (s.inode d).nlinks = 0 := by
      rw [Removed.iff, h.tree.unnamed_iff hd, nlink_dir_eq_zero hd (h.two_links d hd)]
    by_cases hzero : (s.inode d).nlinks = 0
    · have hdead := nlink_eq_zero hzero
      rw [if_pos (hremoved.mpr hzero), weight, h.tree.bare d hd hdead i hi]
      rcases eq_or_ne d i with rfl | hdi
      · simp [hdead, hzero]
      · simp [hdead, hdi]
    · have hlive := mt (nlink_dir_eq_zero hd (h.two_links d hd)).mp hzero
      have hcount : (s.inode d).entries.countP (fun de ↦ decide (de.inum = i)) =
          named (s.inode d) i + (if d = i then 1 else 0) +
            if parent (s.inode d) = i then 1 else 0 := by
        refine ((h.tree.shape d hd).countP_eq hi _ (fun de hq ↦ ?_) fun de hinum _ _ ↦ ?_).trans ?_
        · exact of_decide_eq_true hq
        · exact decide_eq_true hinum
        · simp only [decide_eq_true_eq]
      rw [if_neg (mt hremoved.mp hzero), hcount, weight]
      rcases eq_or_ne d i with rfl | hdi
      · simp only [hd, hlive, hzero, ne_eq, not_false_eq_true, true_and, and_self, if_true]
        omega
      · simp only [hlive, hdi, ne_eq, not_false_eq_true, true_and, if_false, add_zero]
  · have hnil : (s.inode d).entries = [] := h.tree.plain d hd
    rw [weight_of_entries (h.tree.plain d hd) hi, hnil, countP_nil, ite_self]
    rcases eq_or_ne d i with rfl | hdi
    · simp [hd]
    · simp [hdi]

/-- The invariant between calls gives the counts. -/
theorem Inv.counted (h : Inv [] [] s) : Counted s := by
  refine ⟨fun i hused ↦ ?_, h.kept⟩
  have hfree := not_free_of_used hused
  obtain ⟨hpos, hlt⟩ := h.tree.range i hfree
  have hlinks := h.tree.links_eq i hfree
  rw [count_nil] at hlinks
  have hsum : entriesFor s.ninodes s.inode i = links (s.ninodes + 1) s.inode i +
      if Node.IsDir (s.inode i) ∧ (s.inode i).nlinks ≠ 0 then 1 else 0 := by
    rw [entriesFor, sum_congr rfl fun d _ ↦ h.entries_eq hpos.ne' d,
      sum_add_distrib, sum_ite_eq', if_pos (mem_range.mpr hlt), links]
  rw [hsum]
  by_cases hdir : Node.IsDir (s.inode i)
  · by_cases hzero : (s.inode i).nlinks = 0
    · rw [nlink_eq_zero hzero] at hlinks
      rw [if_neg fun hcond ↦ hcond.2 hzero, hzero]
      have : (0 : UInt8).toNat = 0 := rfl
      omega
    · have hpos := toNat_ne_zero hzero
      rw [nlink_dir hdir] at hlinks
      rw [if_pos ⟨hdir, hzero⟩]
      omega
  · rw [nlink_plain hused hdir] at hlinks
    rw [if_neg fun hcond ↦ hdir hcond.1]
    omega

end Counts

/-! ### Runs -/

/-- In every run from a sound file system whose calls leave room in the byte, the link counts are
right after every call. -/
theorem byteLinkCounts [Fintype T] [DecidableEq T] {s t : State T} {es : List (Event T)}
    (hsound : Inv [] [] s) (hroom : Meets step Room s es) (hrun : run step s es = some t) :
    Counted t := by
  refine Inv.counted ?_
  refine run_induction_of_meets (I := fun _ t ↦ Inv [] [] t) hsound ?_ hroom hrun
  intro _ u e v _ hinv hroom hstep
  exact step_inv hinv hroom hstep

/-! ### A file with many names -/

/-- A name for each link of the file. -/
def linkName (k : ℕ) : Name := [UInt8.ofNat (97 + k / 16), UInt8.ofNat (97 + k % 16)]

/-- The root directory with a number of links to the file with inode 2. -/
def imageRoot (n : ℕ) : Inode where
  used := true
  mode := 0x41ED
  uid := 0
  gid := 0
  nlinks := 2
  entries := { inum := rootIno, name := dot } :: { inum := rootIno, name := dotdot } ::
    (List.range n).map fun k ↦ { inum := 2, name := linkName k }
  target := []
  blocks := blocksFor (n + 2)

/-- The file. -/
def imageFile (n : ℕ) : Inode where
  used := true
  mode := 0x81A4
  uid := 0
  gid := 0
  nlinks := UInt8.ofNat n
  entries := []
  target := []
  blocks := 0

/-- The file system with one file that has a number of links, and one task. -/
def image (n : ℕ) : State Unit where
  ninodes := 3
  inode := update (update (fun _ ↦ Inode.zero) 2 (imageFile n)) rootIno
    (imageRoot n)
  count := update (fun _ ↦ 0) rootIno 2
  free := 100
  opened _ := 0
  task _ := { euid := 0, egid := 0, groups := [], umask := 0, pwd := rootIno, root := rootIno }
  lost := false

section Image

variable {n i j : ℕ}

theorem image_root (n : ℕ) : (image n).inode rootIno = imageRoot n := rfl

theorem image_file (n : ℕ) : (image n).inode 2 = imageFile n := rfl

theorem image_zero (hroot : i ≠ rootIno) (hfile : i ≠ 2) : (image n).inode i = Inode.zero := by
  change update (update (fun _ ↦ Inode.zero) 2 (imageFile n)) rootIno (imageRoot n) i = _
  rw [update_of_ne hroot, update_of_ne hfile]

theorem linkName_ne : ∀ k < 256, linkName k ≠ dot ∧ linkName k ≠ dotdot := by decide +kernel

theorem imageRoot_dir : ∀ n < 256, Node.IsDir (imageRoot n) := by decide +kernel

theorem image_dir {d : ℕ} (hd : Node.IsDir ((image n).inode d)) : d = rootIno := by
  by_contra hroot
  by_cases hfile : d = 2
  · rw [hfile, image_file] at hd
    exact hd.2.2 rfl
  · rw [image_zero hroot hfile] at hd
    exact Bool.noConfusion hd.1

theorem image_tree (hmax : n < 256) : Tree 4 rootIno [] (image n).inode := by
  have hdir := imageRoot_dir n hmax
  refine .of_root (by decide) hdir (nlink_dir hdir) rfl
    (fun de hde _ ↦ ?_) (fun i hi ↦ ⟨mt image_dir hi, ?_⟩) fun i hi hused ↦ ?_
  · obtain ⟨k, hk, rfl⟩ := mem_map.mp hde
    have hk := List.mem_range.mp hk
    exact ⟨(by decide : 2 ≠ rootIno), not_free_of_used rfl, linkName_ne k (by omega)⟩
  · by_cases hfile : i = 2
    · rw [hfile]
      rfl
    · rw [image_zero hi hfile]
      rfl
  · obtain rfl : i = 2 := by
      by_contra hfile
      rw [image_zero hi hfile] at hused
      exact hused rfl
    refine ⟨by decide, ?_⟩
    rw [image_file, nlink_plain rfl fun hdir ↦ hdir.2.2 rfl]
    change ((UInt8.ofNat n).toNat : ℤ) = _
    rw [UInt8.toNat_ofNat', mod_eq_of_lt (by omega), List.map_map]
    simp [Function.comp_def]

/-- The image is sound. -/
theorem image_inv (hmax : n < 256) : Inv [] [] (image n) := by
  refine ⟨image_tree hmax, fun d hd ↦ ?_, ⟨fun i ↦ ?_, fun i hi ↦ ?_⟩, rfl⟩
  · obtain rfl := image_dir hd
    exact (by decide : (2 : UInt8) ≠ 1)
  · change update (fun _ ↦ 0) rootIno 2 i = 0 + ∑ _p : Unit, _ + 0
    change _ = 0 + ((if rootIno = i then 1 else 0) + if rootIno = i then 1 else 0) + 0
    by_cases hi : i = rootIno
    · rw [hi, update_self, if_pos rfl]
    · rw [update_of_ne hi, if_neg (Ne.symm hi)]
  · by_cases hroot : i = rootIno
    · rw [hroot]
      rfl
    · change update (fun _ ↦ 0) rootIno 2 i ≠ 0 at hi
      rw [update_of_ne hroot] at hi
      exact absurd rfl hi

end Image

/-- A file gets its second link. -/
theorem byteLinkCounts_second : ∃ t, run step (image 1)
    [.link () (linkName 0) [98]] = some t ∧ (t.inode 2).nlinks = 2 ∧ Counted t := by
  refine ⟨_, run_get (by decide +kernel), by decide +kernel, byteLinkCounts (image_inv (by decide))
    (meets_cons.mpr ⟨?_, fun _ _ ↦ meets_nil _ _⟩) (run_get _)⟩
  intro i v _
  by_cases hroot : i = rootIno
  · rw [hroot, image_root]
    exact (by decide : (2 : UInt8) ≠ 255)
  · by_cases hfile : i = 2
    · rw [hfile]
      exact (by decide : (1 : UInt8) ≠ 255)
    · rw [image_zero hroot hfile]
      exact (by decide : (0 : UInt8) ≠ 255)

/-- The 256th link of a file: the byte wraps to 0 and the inode is freed under all its names. -/
theorem lastLink_lost : Inv [] [] (image 255) ∧ ∃ t, run step (image 255)
    [.link () (linkName 0) [98]] = some t ∧ t.lost = true ∧ (t.inode 2).used = false ∧
      entriesFor t.ninodes t.inode 2 = 256 ∧ ¬ Counted t := by
  refine ⟨image_inv (by decide), _, run_get (by decide +kernel), by decide +kernel,
    by decide +kernel, by decide +kernel, fun h ↦ ?_⟩
  have hlost := h.kept
  revert hlost
  decide +kernel

end EasyKernels.Linux.Namei
