import Mathlib.Algebra.BigOperators.Fin
import EasyKernels.Lib.Calls
import EasyKernels.Linux.Descriptors

/-!
# The descriptor tables of Linux

The state has the file table and the descriptors of all tasks, and an event is a whole call of one
of them, or `fork`, `exit`, or the release of a task that has ended.

`descriptorTables` says, for every sequence of calls, that the count of every file is the number of
descriptors of all tasks that point to it, and that a call which fails leaves descriptors and counts
as they were exactly when it is `Careful`: all calls are but a `dup2` onto an open descriptor from
one that is not open or from the same one. `dup2ClosesFirst` has both.

Scope. What `get_free_page` and `copy_mem` return is part of the event `fork`.
-/

set_option autoImplicit false

namespace EasyKernels.Linux.Descriptors

open List Function Lib.Runs Lib.Holders

/-! ### Runs of calls -/

inductive Call
  | open (flag : ℕ) (named : Named)
  | close (fd : ℕ)
  | dup (fildes : ℕ)
  | dup2 (oldfd newfd : ℕ)
  | dupfd (fd arg : ℕ)
  | pipe (inode : Option ℕ)
  deriving DecidableEq, Repr

variable (k : Kernel)

def Call.exec : Call → Except Panic (ℤ × Kernel)
  | .open flag named => .ok (sysOpen k flag named)
  | .close fd => sysClose k fd
  | .dup fildes => .ok (sysDup k fildes)
  | .dup2 oldfd newfd => sysDup2 k oldfd newfd
  | .dupfd fd arg => .ok (sysFcntlDupfd k fd arg)
  | .pipe inode => .ok (sysPipe k inode)

/-- The slots of `task[]`; a task that has ended stays until `release`. -/
inductive Slot
  | free
  | task (p : Task)
  | ended (p : Task)

structure State where
  fileTable : Fin nrFile → File
  slot : Fin nrTasks → Slot

/-- What a task does: a call; `fork` into a slot, with what `get_free_page` and `copy_mem` return;
`exit`; and `release`, by its parent. -/
inductive Event
  | call (t : Fin nrTasks) (c : Call)
  | fork (t nr : Fin nrTasks) (page : Bool) (copyMem : ℤ)
  | exit (t : Fin nrTasks)
  | release (t : Fin nrTasks)
  deriving DecidableEq, Repr

variable (s : State)

/-- The running task's view of the kernel. -/
def State.kernel (p : Task) : Kernel := ⟨s.fileTable, p⟩

/-- The state after the running task has called the kernel. -/
def State.resume (t : Fin nrTasks) (k : Kernel) : State where
  fileTable := k.fileTable
  slot := update s.slot t (.task k.current)

/-- `copy_process`, as far as it is about files. -/
def copyProcess (nr : Fin nrTasks) (p : Task) (page : Bool) (copyMem : ℤ) : ℤ × State :=
  if page = false then (-eAgain, s)
  else if copyMem ≠ 0 then (-eAgain, s)
  else
    (1, { fileTable := countAll s.fileTable p (List.finRange nrOpen)
          slot := update s.slot nr (.task p) })

def step : Event → Outcome Panic State
  | .call t c =>
    match s.slot t with
    | .task p => Outcome.ofExcept ((c.exec (s.kernel p)).map fun r ↦ s.resume t r.2)
    | _ => .blocked
  | .fork t nr page copyMem =>
    match s.slot t, s.slot nr with
    | .task p, .free => .next (copyProcess s nr p page copyMem).2
    | _, _ => .blocked
  | .exit t =>
    match s.slot t with
    | .task p =>
      Outcome.ofExcept ((closeAll (s.kernel p) (List.finRange nrOpen)).map fun k ↦
        { fileTable := k.fileTable, slot := update s.slot t (.ended k.current) })
    | _ => .blocked
  | .release t =>
    match s.slot t with
    | .ended _ => .next { s with slot := update s.slot t .free }
    | _ => .blocked

/-! ### Failing calls -/

/-- The call returns; if it fails, the descriptors and the counts stay, also for `dup2` of an open
descriptor to itself, which returns the descriptor. -/
def Atomic (c : Call) : Prop :=
  ∃ r k', c.exec k = .ok (r, k') ∧ ((∀ fd, c ≠ .close fd) → r < 0 → Unchanged k k') ∧
    ∀ fd : ℕ, c = .dup2 fd fd → k.filp fd ≠ none → r = fd ∧ Unchanged k k'

/-- `dup2` is called with an open descriptor and another one, or the new descriptor is not open. -/
def Careful : Call → Prop
  | .dup2 oldfd newfd => k.filp newfd ≠ none → k.filp oldfd ≠ none ∧ oldfd ≠ newfd
  | _ => True

section

variable {rest : Fin nrFile → ℕ} {k : Kernel}

theorem atomic_of_sound {c : Call} {r : ℤ × Kernel} (hexec : c.exec k = .ok r)
    (hsound : Sound rest k r) (hdup2 : ∀ fd, c ≠ .dup2 fd fd) : Atomic k c :=
  ⟨r.1, r.2, hexec, fun _ ↦ hsound.unchanged, fun fd hc ↦ absurd hc (hdup2 fd)⟩

theorem atomic_dup2 (h : Balanced rest k) (oldfd newfd : ℕ) :
    Atomic k (.dup2 oldfd newfd) ↔ Careful k (.dup2 oldfd newfd) := by
  obtain ⟨⟨r, k'⟩, hclose, hbalanced, hfilp⟩ := sysClose_ok h newfd
  have hexec : Call.exec k (.dup2 oldfd newfd) = .ok (dupfd k' oldfd newfd) := by
    show sysDup2 k oldfd newfd = _
    rw [sysDup2, hclose]
    rfl
  have hfilp' := filp_of_closed hfilp
  have hsound := dupfd_sound hbalanced oldfd newfd
  by_cases hnew : k.filp newfd = none
  · have hsame : Unchanged k k' := unchanged_of_closed h hbalanced hfilp hnew
    refine iff_of_true ⟨_, _, hexec, fun _ hneg ↦ ?_, ?_⟩ fun h ↦ absurd hnew h
    · exact hsame.trans (hsound.unchanged hneg)
    · intro fd hfd hopen
      cases hfd
      exact absurd hnew hopen
  · by_cases hold : k.filp oldfd = none ∨ oldfd = newfd
    · have hbad : k'.filp oldfd = none := by
        rw [hfilp']
        split_ifs with heq
        · rfl
        · exact hold.resolve_right heq
      rw [dupfd_bad hbad] at hexec
      refine iff_of_false ?_ fun hcareful ↦ ?_
      · rintro ⟨r', k'', hexec', hunchanged, -⟩
        obtain ⟨rfl, rfl⟩ := Prod.mk.inj (Except.ok.inj (hexec.symm.trans hexec'))
        have hsame := hunchanged (by simp) (by decide)
        have hclosed : k'.filp newfd = none := by rw [hfilp', if_pos rfl]
        rw [Kernel.filp, hsame.filp] at hclosed
        exact hnew hclosed
      · exact hold.elim (hcareful hnew).1 (hcareful hnew).2
    · push Not at hold
      have hlt : newfd < nrOpen := by
        by_contra hge
        rw [Kernel.filp, dif_neg hge] at hnew
        exact hnew rfl
      have hnonneg : 0 ≤ (dupfd k' oldfd newfd).1 := by
        refine dupfd_nonneg ?_ hlt ?_
        · rw [hfilp', if_neg hold.2]
          exact hold.1
        · rw [hfilp', if_pos rfl]
      refine iff_of_true ⟨_, _, hexec, fun _ hneg ↦ ?_, ?_⟩ fun _ ↦ hold
      · exact absurd hneg (Int.not_lt.mpr hnonneg)
      · intro fd hfd
        cases hfd
        exact absurd rfl hold.2

/-- A call fails without a trace exactly when it is `Careful`. -/
theorem atomic_iff (h : Balanced rest k) (c : Call) : Atomic k c ↔ Careful k c := by
  cases c with
  | «open» flag named =>
    exact iff_of_true (atomic_of_sound rfl (sysOpen_sound h flag named) (by simp)) trivial
  | close fd =>
    obtain ⟨r, hr, -⟩ := sysClose_ok h fd
    refine iff_of_true ⟨r.1, r.2, hr, fun hclose ↦ absurd rfl (hclose fd), by simp⟩ trivial
  | dup fildes => exact iff_of_true (atomic_of_sound rfl (dupfd_sound h fildes 0) (by simp)) trivial
  | dup2 oldfd newfd => exact atomic_dup2 h oldfd newfd
  | dupfd fd arg =>
    exact iff_of_true (atomic_of_sound rfl (sysFcntlDupfd_sound h fd arg) (by simp)) trivial
  | pipe inode => exact iff_of_true (atomic_of_sound rfl (sysPipe_sound h inode) (by simp)) trivial

theorem exec_ok (h : Balanced rest k) (c : Call) : ∃ r, c.exec k = .ok r ∧ Balanced rest r.2 := by
  cases c with
  | «open» flag named => exact ⟨_, rfl, (sysOpen_sound h flag named).balanced⟩
  | close fd =>
    obtain ⟨r, hr, hbalanced, -⟩ := sysClose_ok h fd
    exact ⟨r, hr, hbalanced⟩
  | dup fildes => exact ⟨_, rfl, (dupfd_sound h fildes 0).balanced⟩
  | dup2 oldfd newfd =>
    obtain ⟨r, hr, hbalanced, -⟩ := sysClose_ok h newfd
    refine ⟨dupfd r.2 oldfd newfd, ?_, (dupfd_sound hbalanced oldfd newfd).balanced⟩
    show sysDup2 k oldfd newfd = _
    rw [sysDup2, hr]
    rfl
  | dupfd fd arg => exact ⟨_, rfl, (sysFcntlDupfd_sound h fd arg).balanced⟩
  | pipe inode => exact ⟨_, rfl, (sysPipe_sound h inode).balanced⟩

end

/-! ### Every run -/

/-- The descriptors of a slot of `task[]`. -/
def Slot.filp : Slot → Fin nrOpen → Option (Fin nrFile)
  | .free => fun _ ↦ none
  | .task p | .ended p => p.filp

variable (s : State)

/-- The number of descriptors of all tasks that point to a file. -/
def pointers (f : Fin nrFile) : ℕ := ∑ t, holders (s.slot t).filp f

/-- The same without one task. -/
def others (t : Fin nrTasks) (f : Fin nrFile) : ℕ :=
  ∑ u ∈ Finset.univ.erase t, holders (s.slot u).filp f

theorem pointers_eq (t : Fin nrTasks) (f : Fin nrFile) :
    pointers s f = holders (s.slot t).filp f + others s t f :=
  (Finset.add_sum_erase _ _ (Finset.mem_univ t)).symm

theorem others_update (t : Fin nrTasks) (slot : Slot) (fileTable : Fin nrFile → File) :
    others ⟨fileTable, update s.slot t slot⟩ t = others s t := by
  ext f
  refine Finset.sum_congr rfl fun u hu ↦ ?_
  simp only
  rw [update_of_ne (Finset.ne_of_mem_erase hu)]

/-- The counts are right, and a task that has ended has closed its files. -/
structure Inv (s : State) : Prop where
  fCount : ∀ f, (s.fileTable f).fCount = pointers s f
  ended : ∀ t p, s.slot t = .ended p → ∀ fd, p.filp fd = none

theorem Inv.balanced {s : State} (h : Inv s) {t : Fin nrTasks} {p : Task}
    (ht : s.slot t = .task p) : Balanced (others s t) (s.kernel p) := by
  intro f
  show (s.fileTable f).fCount = holders p.filp f + others s t f
  rw [h.fCount f, pointers_eq s t f, ht]
  rfl

/-- One slot changes, with the counts of its files. -/
theorem Inv.update {s : State} (h : Inv s) {t : Fin nrTasks} {slot : Slot}
    {fileTable : Fin nrFile → File}
    (hcount : ∀ f, (fileTable f).fCount = holders slot.filp f + others s t f)
    (hended : ∀ p, slot = .ended p → ∀ fd, p.filp fd = none) :
    Inv ⟨fileTable, update s.slot t slot⟩ := by
  constructor
  · intro f
    rw [pointers_eq _ t, others_update]
    simp only [update_self]
    exact hcount f
  · intro u p hu
    rcases eq_or_ne u t with rfl | hut
    · simp only [update_self] at hu
      exact hended p hu
    · simp only at hu
      rw [update_of_ne hut] at hu
      exact h.ended u p hu

theorem fCount_countAll (p : Task) (f : Fin nrFile) (fds : List (Fin nrOpen))
    (fileTable : Fin nrFile → File) : (countAll fileTable p fds f).fCount =
      (fileTable f).fCount + (fds.map fun fd ↦ if p.filp fd = some f then 1 else 0).sum := by
  induction fds generalizing fileTable with
  | nil => rfl
  | cons fd fds ih =>
    rw [countAll]
    cases hfd : p.filp fd with
    | none => simp [ih, hfd]
    | some g =>
      simp only [ih, map_cons, sum_cons, hfd, Option.some.injEq, update_apply]
      by_cases hg : f = g
      · simp [hg]
        omega
      · simp [hg, Ne.symm hg]

theorem step_inv {s t : State} {e : Event} (h : Inv s) (hstep : step s e = .next t) : Inv t := by
  cases e with rw [step] at hstep
  | call u c =>
    split at hstep
    case h_1 p hp =>
      obtain ⟨r, hr, hbalanced⟩ := exec_ok (h.balanced hp) c
      rw [hr] at hstep
      cases hstep
      exact h.update hbalanced (by simp)
    case h_2 => cases hstep
  | fork u nr =>
    split at hstep
    case h_1 p hp hnr =>
      cases hstep
      rw [copyProcess]
      split_ifs
      · exact h
      · exact h
      · refine h.update (fun f ↦ ?_) (by simp)
        rw [fCount_countAll, ← Fin.sum_univ_def, h.fCount f, pointers_eq s nr f, hnr]
        show holders (fun _ ↦ none) f + others s nr f + holders p.filp f = _
        rw [holders_none, Nat.zero_add, Nat.add_comm]
        rfl
    case h_2 => cases hstep
  | exit u =>
    split at hstep
    case h_1 p hp =>
      obtain ⟨k', hk', hbalanced, hfilp⟩ := closeAll_ok (h.balanced hp) (finRange nrOpen)
      rw [hk'] at hstep
      cases hstep
      refine h.update hbalanced fun q hq fd ↦ ?_
      cases hq
      rw [hfilp, if_pos (mem_finRange fd)]
    case h_2 => cases hstep
  | release u =>
    split at hstep
    case h_1 p hp =>
      cases hstep
      refine h.update (fun f ↦ ?_) (by simp)
      have hnone : (s.slot u).filp = fun _ ↦ none := by
        rw [hp]
        exact funext (h.ended u p hp)
      rw [h.fCount f, pointers_eq s u f, hnone]
      rfl
    case h_2 => cases hstep

/-- The first task, without files. -/
def boot : State where
  fileTable := fun _ ↦ ⟨0, 0, 0, 0, 0⟩
  slot := fun t ↦ if t.val = 0 then .task ⟨fun _ ↦ none, fun _ ↦ false⟩ else .free

theorem inv_boot : Inv boot := by
  have hfilp : ∀ t, (boot.slot t).filp = fun _ ↦ none := by
    intro t
    simp only [boot]
    split_ifs <;> rfl
  constructor
  · intro f
    show 0 = pointers boot f
    simp [pointers, hfilp, holders_none]
  · intro t p ht
    simp only [boot] at ht
    split_ifs at ht

/-- After every sequence of calls the count of every file is the number of descriptors that point to
it, and a call that fails leaves the descriptors and the counts as they were exactly when it is not
a `dup2` to an open descriptor from one that is not open or from the same one. -/
theorem descriptorTables {es : List Event} {s : State} (hrun : run step boot es = some s) :
    (∀ f, (s.fileTable f).fCount = pointers s f) ∧
    ∀ t p, s.slot t = .task p → ∀ c, Atomic (s.kernel p) c ↔ Careful (s.kernel p) c := by
  have hinv : Inv s := run_invariant inv_boot (fun _ _ _ h hstep ↦ step_inv h hstep) hrun
  exact ⟨hinv.fCount, fun t p hp c ↦ atomic_iff (hinv.balanced hp) c⟩

theorem nrFile_pos : 0 < nrFile := by decide

/-- The slot of the first task. -/
def first : Fin nrTasks := ⟨0, nrTasks_pos⟩

/-- The slot of its child. -/
def child : Fin nrTasks := ⟨1, one_lt_nrTasks⟩

/-- `open_namei` finds a file. -/
def found : Named where
  value := 0
  inode := 1
  iMode := 0
  isChr := false
  checkCharDev := false

/-- A file is opened, shared with a child and closed by the parent; the parent may then duplicate a
descriptor onto a free one. -/
theorem descriptorTables_shared : ∃ es s p, run step boot es = some s ∧
    (s.fileTable ⟨0, nrFile_pos⟩).fCount = 2 ∧ pointers s ⟨0, nrFile_pos⟩ = 2 ∧
    s.slot first = .task p ∧ Atomic (s.kernel p) (.dup2 1 5) := by
  refine ⟨[.call first (.open 0 found), .call first (.pipe (some 7)), .fork first child true 0,
    .call child (.dup 0), .call first (.close 0)], _, _, run_get (by decide +kernel),
    by decide +kernel, by decide +kernel, rfl, ?_⟩
  refine ((descriptorTables (run_get _)).2 first _ rfl (.dup2 1 5)).mpr fun hopen ↦ ?_
  revert hopen
  decide +kernel

/-- `dup2` onto an open descriptor, from one that is not open or from itself, closes it and
fails. -/
theorem dup2ClosesFirst : ∃ s p, run step boot [.call first (.open 0 found)] = some s ∧
    s.slot first = .task p ∧ (s.kernel p).filp 0 = some ⟨0, nrFile_pos⟩ ∧
    (∃ k, Call.exec (s.kernel p) (.dup2 5 0) = .ok (-eBadF, k) ∧ k.filp 0 = none) ∧
    ∃ k, Call.exec (s.kernel p) (.dup2 0 0) = .ok (-eBadF, k) ∧ k.filp 0 = none := by
  refine ⟨boot.resume first (sysOpen (boot.kernel ⟨fun _ ↦ none, fun _ ↦ false⟩) 0 found).2, _, rfl,
    rfl, by decide +kernel, ⟨_, rfl, by decide +kernel⟩, ⟨_, rfl, by decide +kernel⟩⟩

end EasyKernels.Linux.Descriptors
