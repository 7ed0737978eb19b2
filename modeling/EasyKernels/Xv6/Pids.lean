import EasyKernels.Xv6.ProcessTree

/-!
# Process identifiers

`nextpid` is an `int` of 32 bits, and every `allocproc` that finds a slot takes the next pid.
`pids` says how far that goes: the processes of the table have positive pids that tell them apart,
for `kill` and for `holdingsleep`, in all runs with at most `n` allocations exactly when `n` is less
than `2 ^ 31`. `pids_wrap` has runs with more, of forks that fail: one with a negative pid, and one
with a process that has the pid of init.
-/

set_option autoImplicit false

namespace EasyKernels.Xv6.Processes

open List Lib.Runs

/-- `holdingsleep`, called by `curproc`, for a lock with these `locked` and `pid`. -/
def holdingsleep (s : State) (curproc : Slot) (locked : Bool) (pid : Int32) : Bool :=
  locked && pid = (s.proc curproc).pid

/-- Pids are positive and tell the processes apart. -/
structure Identified (s : State) : Prop where
  pos : ∀ p, (s.proc p).state ≠ .unused → 0 < (s.proc p).pid
  unique : ∀ p q, (s.proc p).state ≠ .unused → (s.proc q).state ≠ .unused →
    (s.proc p).pid = (s.proc q).pid → p = q
  kill : ∀ p, (s.proc p).state ≠ .unused → findPid s (s.proc p).pid = some p
  holding : ∀ p q, (s.proc p).state ≠ .unused → (s.proc q).state ≠ .unused →
    (holdingsleep s q true (s.proc p).pid = true ↔ p = q)

/-- Before the pids wrap they are those of the allocations so far, and also a slot that `fork` gave
up keeps its own. -/
structure Numbered (s : State) : Prop where
  nextpid : s.nextpid = .ofNat (s.allocs + 1)
  le : s.allocs < 2 ^ 31 → ∀ p, (s.proc p).pid.toInt ≤ s.allocs
  pos : s.allocs < 2 ^ 31 → ∀ p, (s.proc p).state ≠ .unused → 0 < (s.proc p).pid.toInt
  inj : s.allocs < 2 ^ 31 → ∀ p q, 0 < (s.proc p).pid.toInt →
    (s.proc p).pid.toInt = (s.proc q).pid.toInt → p = q

/-- A slot keeps its pid, or is emptied by `wait`. -/
def Stays (before after : Proc) : Prop :=
  (after.pid.toInt = before.pid.toInt ∧ (after.state ≠ .unused → before.state ≠ .unused)) ∨
    (after.pid.toInt = 0 ∧ after.state = .unused)

variable {s t : State} {p np : Slot}

section

variable (h : Numbered s)

include h

theorem Numbered.keep (hnext : t.nextpid = s.nextpid) (hallocs : t.allocs = s.allocs)
    (hstays : ∀ p, Stays (s.proc p) (t.proc p)) : Numbered t := by
  obtain ⟨hnextpid, hle, hpos, hinj⟩ := h
  constructor
  · rw [hnext, hallocs, hnextpid]
  all_goals
    rw [hallocs]
    intro hlt p
    grind [Stays]

theorem Numbered.setProc {proc : Proc} (hstays : Stays (s.proc p) proc) :
    Numbered (s.setProc p proc) := by
  refine h.keep rfl rfl fun q ↦ ?_
  rw [proc_setProc]
  split_ifs with hq
  · rwa [hq]
  · exact .inl ⟨rfl, id⟩

theorem Numbered.setState {state : ProcState}
    (hused : state ≠ .unused → (s.proc p).state ≠ .unused) : Numbered (s.setState p state) :=
  h.setProc (.inl ⟨rfl, hused⟩)

theorem Numbered.setPos (p : Slot) (pos : Pos) : Numbered (s.setPos p pos) :=
  h.keep rfl rfl fun _ ↦ .inl ⟨rfl, id⟩

theorem Numbered.wakeup1 (chan : Option Chan) : Numbered (wakeup1 s chan) := by
  refine h.keep rfl rfl fun q ↦ ?_
  simp only [Processes.wakeup1]
  split_ifs with hwake
  · exact .inl ⟨rfl, fun _ ↦ by simp [hwake.1]⟩
  · exact .inl ⟨rfl, id⟩

theorem Numbered.exit (hat : At s p .elsewhere) : Numbered (exit s p) := by
  have hreparent : ∀ {u : State}, Numbered u → Numbered (reparent u p) := fun hu ↦ by
    refine hu.keep rfl rfl fun q ↦ ?_
    simp only [reparent]
    split_ifs <;> exact .inl ⟨rfl, id⟩
  have hpass : ∀ {u : State}, Numbered u → Numbered (passChildren u p) := fun hu ↦ by
    unfold passChildren
    split_ifs
    · exact (hreparent hu).wakeup1 _
    · exact hreparent hu
  refine (hpass (h.wakeup1 _)).setState fun _ ↦ ?_
  rw [(passChildren_proc _ p p).2.2 (by simp [Processes.wakeup1, hat.1])]
  simp

theorem Numbered.turn (hrunning : (s.proc p).state = .running) (hturn : Turn s p t) :
    Numbered t := by
  cases hturn with
  | reap =>
    apply Numbered.setPos
    exact h.setProc (.inr ⟨rfl, rfl⟩)
  | failed => exact h.setPos p _
  | sleep =>
    apply Numbered.setPos
    exact h.setProc (.inl ⟨rfl, fun _ ↦ by simp [hrunning]⟩)

theorem Numbered.fill (np : Slot) : Numbered (fill s np) := by
  have hnextpid : s.allocs + 1 < 2 ^ 31 → s.nextpid.toInt = s.allocs + 1 := fun hlt ↦ by
    rw [h.nextpid, Int32.toInt_ofNat_of_lt hlt]
    rfl
  have hproc : ∀ q, (Processes.fill s np).proc q =
      if q = np then { s.proc np with state := .embryo, pid := s.nextpid } else s.proc q :=
    fun q ↦ proc_setProc s np q _
  constructor
  · change s.nextpid + 1 = .ofNat (s.allocs + 1 + 1)
    rw [h.nextpid, Int32.ofNat_add (s.allocs + 1)]
    rfl
  all_goals
    intro hlt p
    have hle := h.le (Nat.lt_of_succ_lt hlt)
    have hpos := h.pos (Nat.lt_of_succ_lt hlt)
    have hinj := h.inj (Nat.lt_of_succ_lt hlt)
    grind [Processes.fill]

theorem Numbered.move {e : Event} (htree : Tree s) (hmove : Move s e t) : Numbered t := by
  cases hmove with
  | forkNone => exact h
  | fork p np => exact (h.fill np).setPos p _
  | forkFail p => exact (h.setState fun hne ↦ (hne rfl).elim).setPos p _
  | forkCopy =>
    apply Numbered.setPos
    exact h.setProc (.inl ⟨rfl, id⟩)
  | forkDone p np hat =>
    have hembryo := (htree.forking p np true hat.2).1
    exact (h.setState fun _ ↦ by simp [hembryo]).setPos p _
  | exit p hat => exact h.exit hat
  | wait p t hat hturn => exact h.turn hat.1 hturn
  | killNone => exact h
  | kill =>
    refine h.setProc (.inl ⟨rfl, fun hused hunused ↦ hused ?_⟩)
    rw [Proc.kill, hunused]
    rfl
  | schedule p hrunnable => exact h.setProc (.inl ⟨rfl, fun _ ↦ by simp [hrunnable]⟩)
  | goOn p t hrunnable hpos hturn =>
    have hresume : Numbered (resume s p) := h.setProc (.inl ⟨rfl, fun _ ↦ by simp [hrunnable]⟩)
    exact hresume.turn (by simp [resume, proc_setProc]) hturn
  | yield p hrunning => exact h.setState fun _ ↦ by simp [hrunning]
  | sleep p addr hat => exact h.setProc (.inl ⟨rfl, fun _ ↦ by simp [hat.1]⟩)
  | wakeup => exact h.wakeup1 _

theorem Numbered.identified (hallocs : s.allocs < 2 ^ 31) : Identified s := by
  have hinj : ∀ p q, (s.proc p).state ≠ .unused → (s.proc p).pid = (s.proc q).pid → p = q :=
    fun p q hp heq ↦ h.inj hallocs p q (h.pos hallocs p hp) (congrArg _ heq)
  refine ⟨fun p hp ↦ Int32.lt_iff_toInt_lt.mpr (h.pos hallocs p hp), fun p q hp _ ↦ hinj p q hp,
    fun p hp ↦ ?_, fun p q hp _ ↦ ?_⟩
  · cases hfind : findPid s (s.proc p).pid with
    | none => simpa using find?_eq_none.mp hfind p (mem_finRange p)
    | some q => rw [hinj p q hp (findPid_eq_some hfind).symm]
  · simp only [holdingsleep, Bool.true_and, decide_eq_true_eq]
    exact ⟨hinj p q hp, fun heq ↦ by rw [heq]⟩

end

theorem numbered_of_run {es : List Event} (hrun : run step booted es = some s) : Numbered s := by
  refine run_induction (I := fun _ ↦ Numbered) ?_ (fun es u e t hu hnum hstep ↦ ?_) hrun
  · refine ⟨rfl, fun _ p ↦ ?_, fun _ p ↦ ?_, fun _ p q ↦ ?_⟩
    all_goals
      simp only [booted_proc]
      split_ifs <;> simp [*] <;> decide
  · exact hnum.move (tree_of_run hu) (step_move hstep)

/-- `fork` finds a slot when there is one. -/
theorem step_fork (hat : At s p .elsewhere) {q : Slot} (hq : (s.proc q).state = .unused) :
    ∃ np, p ≠ np ∧ step s (.fork p) = .next ((fill s np).setPos p (.forking np false)) := by
  cases halloc : allocproc s with
  | none =>
    unfold allocproc at halloc
    split at halloc
    · rename_i hnone
      simpa [hq] using find?_eq_none.mp hnone q (mem_finRange q)
    · cases halloc
  | some r =>
    obtain ⟨np, t⟩ := r
    obtain ⟨hunused, rfl⟩ := allocproc_eq_some halloc
    refine ⟨np, fun heq ↦ ?_, by simp only [step, if_pos hat, halloc]⟩
    rw [← heq, hat.1] at hunused
    cases hunused

open State

/-- Init forks again and again, and all forks but the last fail. -/
theorem forked (n : ℕ) : ∃ es s np, run step booted es = some s ∧ first ≠ np ∧
    (s.proc first).state = .running ∧ (s.proc first).pid = 1 ∧ (s.proc np).state = .embryo ∧
      (s.proc np).pid = .ofNat (n + 2) ∧ s.allocs = n + 2 := by
  obtain ⟨es, s, q, hrun, hat, hpid, hq, hallocs⟩ : ∃ es s q, run step booted es = some s ∧
      At s first .elsewhere ∧ (s.proc first).pid = 1 ∧ (s.proc q).state = .unused ∧
        s.allocs = n + 1 := by
    induction n with
    | zero => exact ⟨[.schedule first], _, ⟨1, by decide⟩, rfl, ⟨rfl, rfl⟩, rfl, rfl, rfl⟩
    | succ n ih =>
      obtain ⟨es, s, q, hrun, hat, hpid, hq, hallocs⟩ := ih
      obtain ⟨np, hne, hfork⟩ := step_fork hat hq
      have hfirst : (fill s np).proc first = s.proc first := by simp [fill, setProc, hne]
      refine ⟨es ++ [.fork first, .forkFail first],
        (((fill s np).setPos first (.forking np false)).setState np .unused).setPos first
          .elsewhere, np,
        run_append_eq_some.mpr ⟨s, hrun, run_cons_eq_some.mpr ⟨_, hfork, ?_⟩⟩, ?_⟩
      · simp only [run, step, pos_setPos, proc_setPos, if_pos, hfirst, hat.1]
      · simp [At, hne, hat.1, hpid, setPos, setState, setProc, fill, hallocs]
  obtain ⟨np, hne, hfork⟩ := step_fork hat hq
  have hnext : s.nextpid = .ofNat (n + 2) := by rw [(numbered_of_run hrun).nextpid, hallocs]
  refine ⟨es ++ [.fork first], _, np, run_concat_eq_some.mpr ⟨s, hrun, hfork⟩, hne, ?_⟩
  simp [fill, setProc, setPos, hne, hat.1, hpid, hallocs, hnext]

theorem pids (n : ℕ) :
    (∀ es s, run step booted es = some s → s.allocs ≤ n → Identified s) ↔ n < 2 ^ 31 := by
  constructor
  · intro hall
    by_contra hn
    obtain ⟨es, s, np, hrun, -, -, -, hembryo, hpid, hallocs⟩ := forked (2 ^ 31 - 2)
    have hpos := (hall es s hrun (by omega)).pos np (by simp [hembryo])
    rw [hpid] at hpos
    exact absurd hpos (by decide)
  · exact fun hn es s hrun hallocs ↦ (numbered_of_run hrun).identified (hallocs.trans_lt hn)

/-- With more allocations a pid is negative, and later that of init. -/
theorem pids_wrap :
    (∃ es s p, run step booted es = some s ∧ (s.proc p).state ≠ .unused ∧ (s.proc p).pid < 0) ∧
    ∃ es s p q, run step booted es = some s ∧ p ≠ q ∧ (s.proc p).state ≠ .unused ∧
      (s.proc q).state ≠ .unused ∧ (s.proc p).pid = (s.proc q).pid := by
  constructor
  · obtain ⟨es, s, np, hrun, -, -, -, hembryo, hpid, -⟩ := forked (2 ^ 31 - 2)
    exact ⟨es, s, np, hrun, by simp [hembryo], by rw [hpid]; decide⟩
  · obtain ⟨es, s, np, hrun, hne, hrunning, hone, hembryo, hpid, -⟩ := forked (2 ^ 32 - 1)
    refine ⟨es, s, first, np, hrun, hne, by simp [hrunning], by simp [hembryo], ?_⟩
    rw [hone, hpid]
    rfl

end EasyKernels.Xv6.Processes
