import EasyKernels.Linux.Namei

/-!
# Three permission checks

`sys_access` of `fs/open.c`, `permission` of `fs/namei.c` and the test of the mode in `do_execve`
of `fs/exec.c` select the bits of the owner, of the group or of the others. For the group,
`sys_access` takes the bits of the owner. `accessChecks` says when the checks agree all the same,
and `groupHasOwnerBits` has a task in the group of a file that is only for its owner.
-/

set_option autoImplicit false

namespace EasyKernels.Linux.Namei

/-- Whether `sys_access` grants the access, where `namei` has found the inode. -/
def sysAccess (uid gid : ℕ) (ip : Inode) (mode : UInt16) : Bool :=
  let mode := mode &&& 7
  let iMode := ip.mode &&& 0o777
  let res :=
    if uid = ip.uid then iMode >>> 6
    else if gid = ip.gid then iMode >>> 6
    else iMode
  res &&& 7 &&& mode = mode ∨ uid = 0 ∧ (mode &&& 1 = 0 ∨ iMode &&& 0o111 ≠ 0)

/-- Whether `do_execve` goes on with a file. -/
def modeExecutable (task : Task) (ip : Inode) : Bool :=
  let i :=
    if task.euid = ip.uid then ip.mode >>> 6
    else if task.inGroup ip.gid then ip.mode >>> 3
    else ip.mode
  sIsreg ip.mode ∧ (i &&& 1 ≠ 0 ∨ ip.mode &&& 0o111 ≠ 0 ∧ task.euid = 0)

/-- The owner and the group of a file both have the access, or neither has. -/
def SameForGroup (ip : Inode) (m : UInt16) : Prop :=
  (ip.mode >>> 6) &&& m = m ↔ (ip.mode >>> 3) &&& m = m

/-- The bits that `permission` looks at, in a task without further groups. -/
def selected (task : Task) (ip : Inode) : UInt16 :=
  if task.euid = ip.uid then ip.mode >>> 6 else
    if task.egid = ip.gid then ip.mode >>> 3 else ip.mode

theorem and_seven {m : UInt16} (hm : m ≤ 7) : m &&& 7 = m := by
  rw [← UInt16.toNat_inj, UInt16.toNat_and]
  exact Nat.and_two_pow_sub_one_of_lt_two_pow (n := 3) (Nat.lt_succ_of_le hm)

theorem and_seven_and {m : UInt16} (hm : m ≤ 7) (x : UInt16) : x &&& 7 &&& m = x &&& m := by
  rw [UInt16.and_assoc, UInt16.and_comm 7, and_seven hm]

theorem and_one_ne_zero (x : UInt16) : x &&& 1 ≠ 0 ↔ x &&& 1 = 1 := by
  rw [Ne, ← UInt16.toNat_inj, ← UInt16.toNat_inj, UInt16.toNat_and]
  change ¬ x.toNat &&& 1 = 0 ↔ x.toNat &&& 1 = 1
  rw [Nat.and_one_is_mod]
  omega

section

variable {task : Task} {ip : Inode} {m : UInt16} (hroot : task.euid ≠ 0)

include hroot

theorem sysAccess_iff (hm : m ≤ 7) : sysAccess task.euid task.egid ip m = true ↔
    (if task.euid = ip.uid ∨ task.egid = ip.gid then ip.mode >>> 6 else ip.mode) &&& m = m := by
  have howner : (ip.mode &&& 0o777) >>> 6 = (ip.mode >>> 6) &&& 7 := UInt16.shiftRight_and
  have hothers : ip.mode &&& 0o777 &&& 7 = ip.mode &&& 7 := UInt16.and_assoc _ _ _
  simp only [sysAccess, and_seven hm, hroot, false_and, or_false, decide_eq_true_eq, howner, ite_or]
  split_ifs
  · rw [and_seven_and hm, and_seven_and hm]
  · rw [and_seven_and hm, and_seven_and hm]
  · rw [hothers, and_seven_and hm]

variable (hgroups : task.groups = [])

include hgroups

omit hroot in
theorem inGroup_iff : task.inGroup ip.gid = true ↔ task.egid = ip.gid := by
  simp [Task.inGroup, hgroups, eq_comm]

theorem permission_iff (hm : m ≤ 7) (hlinks : ip.nlinks ≠ 0) :
    permission task ip m = true ↔ selected task ip &&& m = m := by
  have hseven := and_seven hm
  simp only [permission, hlinks, if_false, inGroup_iff hgroups, hroot, or_false,
    decide_eq_true_eq, UInt16.and_assoc, hseven]
  rfl

theorem modeExecutable_iff (hreg : sIsreg ip.mode = true) :
    modeExecutable task ip = true ↔ selected task ip &&& 1 = 1 := by
  simp only [modeExecutable, hreg, inGroup_iff hgroups, hroot, and_false, or_false, true_and,
    decide_eq_true_eq, and_one_ne_zero]
  rfl

/-- For a task that is not root and has no further groups, `sys_access` agrees with `permission`,
and with `do_execve` about the execution of a regular file, exactly when the task is the owner or
not in the group of the file, or the group has the access just when the owner has it. -/
theorem accessChecks (hlinks : ip.nlinks ≠ 0) :
    (∀ m ≤ 7, sysAccess task.euid task.egid ip m = permission task ip m ↔
      task.euid = ip.uid ∨ task.egid ≠ ip.gid ∨ SameForGroup ip m) ∧
    (sIsreg ip.mode = true → (sysAccess task.euid task.egid ip 1 = modeExecutable task ip ↔
      task.euid = ip.uid ∨ task.egid ≠ ip.gid ∨ SameForGroup ip 1)) := by
  have hagree : ∀ m, ((if task.euid = ip.uid ∨ task.egid = ip.gid then ip.mode >>> 6
      else ip.mode) &&& m = m ↔ selected task ip &&& m = m) ↔
      task.euid = ip.uid ∨ task.egid ≠ ip.gid ∨ SameForGroup ip m := by
    intro m
    by_cases howner : task.euid = ip.uid
    · simp [selected, howner]
    · by_cases hgroup : task.egid = ip.gid
      · simp [selected, SameForGroup, howner, hgroup]
      · simp [selected, howner, hgroup]
  refine ⟨fun m hm ↦ ?_, fun hreg ↦ ?_⟩
  · rw [Bool.eq_iff_iff, sysAccess_iff hroot hm, permission_iff hroot hgroups hm hlinks, hagree]
  · rw [Bool.eq_iff_iff, sysAccess_iff hroot (by decide), modeExecutable_iff hroot hgroups hreg,
      hagree]

end

/-- User 5 of group 7. -/
def member : Task where
  euid := 5
  egid := 7
  groups := []
  umask := 0
  pwd := rootIno
  root := rootIno

/-- A file of group 7 with a mode, which belongs to user 1. -/
def fileOfGroup (mode : UInt16) : Inode :=
  { Inode.zero with used := true, mode := mode, uid := 1, gid := 7, nlinks := 1 }

theorem accessChecks_shared : sysAccess 5 7 (fileOfGroup 0o100770) 4 =
    permission member (fileOfGroup 0o100770) 4 :=
  ((@accessChecks member (fileOfGroup 0o100770) (by decide) rfl (by decide)).1 4 (by decide)).mpr
    (.inr (.inr (iff_of_true rfl rfl)))

/-- A file that only its owner may read, write and execute. -/
theorem groupHasOwnerBits :
    sysAccess 5 7 (fileOfGroup 0o100700) 7 = true ∧
      permission member (fileOfGroup 0o100700) 7 = false ∧
      sysAccess 5 7 (fileOfGroup 0o100700) 1 = true ∧
      modeExecutable member (fileOfGroup 0o100700) = false := by
  decide +kernel

end EasyKernels.Linux.Namei
