import Mathlib.Data.Set.Insert

/-!
# User and group numbers

`sys_setuid`, `sys_setreuid`, `sys_setgid` and `sys_setregid` of `kernel/sys.c`. The numbers of a
task are 16 bits wide and the arguments are integers, so an assignment takes the lower 16 bits. A
task whose user numbers are all different from 0 gets no user or group number but those it has, in
any sequence of calls, and a call that is refused changes nothing (`idsStay`).
-/

set_option autoImplicit false

namespace EasyKernels.Linux.SetIds

/-- The numbers of `current`. -/
structure Ids where
  uid : UInt16
  euid : UInt16
  suid : UInt16
  gid : UInt16
  egid : UInt16
  sgid : UInt16
  deriving DecidableEq, Repr

/-- What an assignment to an `unsigned short` keeps. -/
def short (n : ℤ) : UInt16 := UInt16.ofNat (n % 65536).toNat

/-- A number of a task compared with an argument. -/
def same (a : UInt16) (n : ℤ) : Bool := decide ((a.toNat : ℤ) = n)

/-- The result of a call: `EPERM` or 0. -/
inductive Result
  | eperm
  | ok
  deriving DecidableEq, Repr

variable (s : Ids)

def suser : Bool := s.euid = 0

def sysSetregid (rgid egid : ℤ) : Result × Ids :=
  if 0 < rgid ∧ ¬ (same s.gid rgid || suser s) then (.eperm, s)
  else
    let s := if 0 < rgid then { s with gid := short rgid } else s
    if 0 < egid then
      if same s.gid egid || same s.egid egid || suser s then
        (.ok, { s with egid := short egid, sgid := short egid })
      else (.eperm, s)
    else (.ok, s)

def sysSetgid (gid : ℤ) : Result × Ids :=
  if suser s then (.ok, { s with gid := short gid, egid := short gid, sgid := short gid })
  else if same s.gid gid || same s.sgid gid then (.ok, { s with egid := short gid })
  else (.eperm, s)

def sysSetreuid (ruid euid : ℤ) : Result × Ids :=
  let oldRuid := s.uid
  if 0 < ruid ∧ ¬ (same s.euid ruid || same oldRuid ruid || suser s) then (.eperm, s)
  else
    let s := if 0 < ruid then { s with uid := short ruid } else s
    if 0 < euid then
      if same oldRuid euid || same s.euid euid || suser s then
        (.ok, { s with euid := short euid, suid := short euid })
      else (.eperm, { s with uid := oldRuid })
    else (.ok, s)

def sysSetuid (uid : ℤ) : Result × Ids :=
  if suser s then (.ok, { s with uid := short uid, euid := short uid, suid := short uid })
  else if same s.uid uid || same s.suid uid then (.ok, { s with euid := short uid })
  else (.eperm, s)

inductive Call
  | setregid (rgid egid : ℤ)
  | setgid (gid : ℤ)
  | setreuid (ruid euid : ℤ)
  | setuid (uid : ℤ)

def Call.apply : Call → Result × Ids
  | .setregid rgid egid => sysSetregid s rgid egid
  | .setgid gid => sysSetgid s gid
  | .setreuid ruid euid => sysSetreuid s ruid euid
  | .setuid uid => sysSetuid s uid

/-- The numbers after a sequence of calls. -/
def runCalls (calls : List Call) : Ids := calls.foldl (fun s c ↦ (c.apply s).2) s

/-- A number that is equal to the argument is what the assignment stores. -/
theorem short_of_same {a : UInt16} {n : ℤ} (h : same a n = true) : short n = a := by
  obtain rfl : (a.toNat : ℤ) = n := of_decide_eq_true h
  have hlt := a.toNat_lt
  rw [short, Int.emod_eq_of_lt (by omega) (by omega), Int.toNat_natCast, UInt16.ofNat_toNat]

/-- The numbers are among those of the sets `U` and `G`. -/
structure Within (U G : Set UInt16) (s : Ids) : Prop where
  user : s.uid ∈ U ∧ s.euid ∈ U ∧ s.suid ∈ U
  group : s.gid ∈ G ∧ s.egid ∈ G ∧ s.sgid ∈ G

/-- A call of a task that is not privileged keeps the numbers within the sets, and changes nothing
if it is refused. -/
theorem apply_within {U G : Set UInt16} (hU : 0 ∉ U) {s : Ids} (h : Within U G s) (c : Call) :
    Within U G (c.apply s).2 ∧ ((c.apply s).1 = .eperm → (c.apply s).2 = s) := by
  obtain ⟨⟨huid, heuid, hsuid⟩, hgid, hegid, hsgid⟩ := h
  have hsuser : s.euid ≠ 0 := fun hzero ↦ hU (hzero ▸ heuid)
  obtain ⟨uid, euid, suid, gid, egid, sgid⟩ := s
  -- an argument that is accepted is one of the numbers, and so is what is stored
  cases c
  all_goals
    simp only [Call.apply, sysSetregid, sysSetgid, sysSetreuid, sysSetuid, suser, hsuser,
      decide_false, Bool.or_false]
    split_ifs
    all_goals refine ⟨⟨⟨?_, ?_, ?_⟩, ?_, ?_, ?_⟩, ?_⟩ <;> grind [short_of_same]

theorem runCalls_within {U G : Set UInt16} (hU : 0 ∉ U) {s : Ids} (h : Within U G s)
    (calls : List Call) : Within U G (runCalls s calls) := by
  induction calls generalizing s with
  | nil => exact h
  | cons c calls ih => exact ih (apply_within hU h c).1

/-- The calls never give a task a number that it has not. -/
theorem idsStay (s : Ids) (huid : s.uid ≠ 0) (heuid : s.euid ≠ 0) (hsuid : s.suid ≠ 0)
    (calls : List Call) (c : Call) :
    Within {s.uid, s.euid, s.suid} {s.gid, s.egid, s.sgid} (runCalls s calls) ∧
      ((c.apply (runCalls s calls)).1 = .eperm →
        (c.apply (runCalls s calls)).2 = runCalls s calls) := by
  have hU : (0 : UInt16) ∉ ({s.uid, s.euid, s.suid} : Set UInt16) := by
    rintro (hzero | hzero | hzero)
    · exact huid hzero.symm
    · exact heuid hzero.symm
    · exact hsuid hzero.symm
  have hstart : Within {s.uid, s.euid, s.suid} {s.gid, s.egid, s.sgid} s := by
    refine ⟨?_, ?_⟩ <;> simp
  have hrun := runCalls_within hU hstart calls
  exact ⟨hrun, (apply_within hU hrun c).2⟩

theorem idsStay_setuidProgram :
    Within {100, 200, 200} {10, 20, 20}
      (runCalls ⟨100, 200, 200, 10, 20, 20⟩ [.setreuid 200 100, .setregid (-1) 10, .setuid 0]) :=
  (idsStay ⟨100, 200, 200, 10, 20, 20⟩ (by decide) (by decide) (by decide) _ (.setuid 0)).1

end EasyKernels.Linux.SetIds
