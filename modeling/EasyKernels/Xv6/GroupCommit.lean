import EasyKernels.Lib.Runs
import EasyKernels.Lib.Counting
import EasyKernels.Xv6.Param

/-!
# Group commit in `log.c`

`begin_op`, `log_write` and `end_op` as a machine whose steps are the sections that `log.lock`
makes atomic. A process is a `Phase`: outside a transaction, at the top of the loop of `begin_op`,
asleep in it, between `begin_op` and `end_op`, between the unlocked tests of `log_write` and its
locked section, or running `commit()` for the group. The tests of `log_write` read `log.lh.n`
without the lock, so a call is two events: `logWrite`, which may reach a panic, and `logAppend`,
the locked section. `commit()` runs without the lock between the two locked sections of `end_op`;
`commit` is the assignment `log.lh.n = 0` in it.

`groupCommit` collects what holds along every run of any number of processes. `logged` reads the
blocks written since the last commit off the list of events, and the header lists exactly these,
each once. A transaction never contains a commit, because `commit()` runs only while no process is
in a transaction (`Inv.quiet`), and its blocks stay in the header until the commit that follows it.

Scope. The contents of the blocks are not modelled here, and neither is the `B_DIRTY` flag that
`log_write` sets. The sizes of the transactions are the subject of `LogCapacity`.
-/

set_option autoImplicit false

namespace EasyKernels.Xv6.GroupCommit

open List Function Finset Lib.Runs Lib.Counting

/-! ### The machine -/

/-- Where a process is with respect to the log. -/
inductive Phase
  /-- Outside `begin_op .. end_op`. -/
  | idle
  /-- At the top of the loop of `begin_op`, about to hold `log.lock`. -/
  | entering
  /-- In `sleep(&log, &log.lock)`. -/
  | asleep
  /-- Between `begin_op` and `end_op`. -/
  | inOp
  /-- In `log_write` of a block, past the tests, about to hold `log.lock`. -/
  | writing (block : ℕ)
  /-- In `end_op`, with `do_commit` set, running `commit()`. -/
  | committing
  /-- In `commit()`, after `log.lh.n = 0`. -/
  | cleared
  deriving DecidableEq, Repr

/-- The process is between `begin_op` and `end_op`. -/
def Phase.inTxn : Phase → Bool
  | .inOp | .writing _ => true
  | _ => false

/-- The process is running `commit()`. -/
def Phase.inCommit : Phase → Bool
  | .committing | .cleared => true
  | _ => false

/-- `wakeup(&log)` seen from one process. -/
def Phase.wake : Phase → Phase
  | .asleep => .entering
  | phase => phase

@[simp] theorem Phase.inTxn_wake (phase : Phase) : phase.wake.inTxn = phase.inTxn := by
  cases phase <;> rfl

@[simp] theorem Phase.inCommit_wake (phase : Phase) : phase.wake.inCommit = phase.inCommit := by
  cases phase <;> rfl

/-- The ways the code of `log.c` stops the kernel. `overrun` is none of its panics: it is the store
to `log.lh.block[LOGSIZE]`, past the array, to which C gives no meaning. -/
inductive Panic
  | committing
  | tooBig
  | outsideTrans
  | overrun
  deriving DecidableEq, Repr

variable {P : Type*}

/-- `struct log`, with `block[0 .. n-1]` of the header as a list, and the phases of the
processes. -/
structure State (P : Type*) where
  size : ℤ
  outstanding : ℤ
  committing : Bool
  lh : List ℕ
  proc : P → Phase

/-- The log after `initlog`, whose recovery leaves `log.lh.n = 0`. -/
def initial (size : ℤ) : State P where
  size := size
  outstanding := 0
  committing := false
  lh := []
  proc := fun _ ↦ .idle

inductive Event (P : Type*)
  | callBegin (p : P)
  | beginSleep (p : P)
  | beginOp (p : P)
  | logWrite (p : P) (block : ℕ)
  | logAppend (p : P) (block : ℕ)
  | endOp (p : P)
  | commit (p : P)
  | endCommit (p : P)
  deriving DecidableEq, Repr

/-- The loop of `log_write` over the header: the first entry equal to the block absorbs it, and
past the last entry it is appended. -/
def absorb : List ℕ → ℕ → List ℕ
  | [], block => [block]
  | first :: rest, block => if first = block then block :: rest else first :: absorb rest block

variable (s : State P)

/-- The test of `begin_op` that finds the log close to running out. -/
def State.full : Prop :=
  (s.lh.length : ℤ) + (s.outstanding + 1) * maxOpBlocks > logSize

instance : Decidable s.full := by unfold State.full; infer_instance

/-- The test of `log_write` for a transaction that is too big. -/
def State.tooBig : Prop :=
  (s.lh.length : ℤ) ≥ logSize ∨ (s.lh.length : ℤ) ≥ s.size - 1

instance : Decidable s.tooBig := by unfold State.tooBig; infer_instance

/-- `wakeup(&log)`. -/
def State.wakeup : State P := { s with proc := fun p ↦ (s.proc p).wake }

section Step

variable [DecidableEq P] (s : State P)

def State.setProc (p : P) (phase : Phase) : State P :=
  { s with proc := update s.proc p phase }

theorem proc_setProc (p q : P) (phase : Phase) :
    (s.setProc p phase).proc q = if q = p then phase else s.proc q :=
  update_apply s.proc p phase q

/-- One atomic section. -/
def step : Event P → Outcome Panic (State P)
  | .callBegin p =>
    if s.proc p = .idle then .next (s.setProc p .entering) else .blocked
  | .beginSleep p =>
    if s.proc p = .entering ∧ (s.committing = true ∨ s.full) then .next (s.setProc p .asleep)
    else .blocked
  | .beginOp p =>
    if s.proc p = .entering ∧ s.committing = false ∧ ¬ s.full then
      .next { s.setProc p .inOp with outstanding := s.outstanding + 1 }
    else .blocked
  | .logWrite p block =>
    if s.proc p = .inOp then
      if s.tooBig then .fault .tooBig
      else if s.outstanding < 1 then .fault .outsideTrans
      else .next (s.setProc p (.writing block))
    else .blocked
  | .logAppend p block =>
    if s.proc p = .writing block then
      if (absorb s.lh block).length ≤ logSize then
        .next { s.setProc p .inOp with lh := absorb s.lh block }
      else .fault .overrun
    else .blocked
  | .endOp p =>
    if s.proc p = .inOp then
      if s.committing = true then .fault .committing
      else if s.outstanding - 1 = 0 then
        .next { s.setProc p .committing with outstanding := s.outstanding - 1, committing := true }
      else .next { (s.setProc p .idle).wakeup with outstanding := s.outstanding - 1 }
    else .blocked
  | .commit p =>
    if s.proc p = .committing then .next { s.setProc p .cleared with lh := [] } else .blocked
  | .endCommit p =>
    if s.proc p = .cleared then .next { (s.setProc p .idle).wakeup with committing := false }
    else .blocked

end Step

/-! ### The header as a set -/

variable {lh : List ℕ} {block : ℕ}

theorem mem_absorb {other : ℕ} : other ∈ absorb lh block ↔ other ∈ lh ∨ other = block := by
  induction lh with
  | nil => simp [absorb]
  | cons first rest ih =>
    simp only [absorb]
    split_ifs with hfirst
    · subst hfirst
      simp only [List.mem_cons]
      tauto
    · simp only [List.mem_cons, ih]
      tauto

theorem absorb_of_mem (h : block ∈ lh) : absorb lh block = lh := by
  induction lh with
  | nil => simp at h
  | cons first rest ih =>
    simp only [absorb]
    split_ifs with hfirst
    · rw [hfirst]
    · rw [ih ((mem_cons.mp h).resolve_left fun heq ↦ hfirst heq.symm)]

theorem absorb_of_notMem (h : block ∉ lh) : absorb lh block = lh ++ [block] := by
  induction lh with
  | nil => rfl
  | cons first rest ih =>
    simp only [List.mem_cons, not_or] at h
    simp only [absorb, if_neg (Ne.symm h.1), ih h.2, cons_append]

theorem nodup_absorb (block : ℕ) (h : lh.Nodup) : (absorb lh block).Nodup := by
  by_cases hmem : block ∈ lh
  · rwa [absorb_of_mem hmem]
  · rw [absorb_of_notMem hmem]
    simpa using h.concat hmem

/-! ### The invariant -/

section Invariant

variable [Fintype P]

/-- The number of processes between `begin_op` and `end_op`. -/
def State.txnCount (s : State P) : ℕ := #{p | (s.proc p).inTxn}

open State

theorem State.txnCount_eq_sum (s : State P) :
    s.txnCount = ∑ p, if (s.proc p).inTxn then 1 else 0 := by
  rw [txnCount, Finset.card_filter]

variable {s : State P} {p : P}

theorem txnCount_pos (h : (s.proc p).inTxn = true) : 0 < s.txnCount :=
  Finset.card_pos.mpr ⟨p, by simpa using h⟩

theorem not_inTxn_of_txnCount (h : s.txnCount = 0) (p : P) : (s.proc p).inTxn = false := by
  by_contra hp
  have hpos := txnCount_pos (s := s) (p := p) (by simpa using hp)
  omega

/-- What the lock protects. -/
structure Inv (s : State P) : Prop where
  /-- `outstanding` counts the processes between `begin_op` and `end_op`. -/
  outstanding_eq : s.outstanding = s.txnCount
  /-- A process in `commit()` has set `committing`. -/
  committing_of_inCommit : ∀ p, (s.proc p).inCommit = true → s.committing = true
  /-- At most one process is in `commit()`. -/
  inCommit_unique : ∀ p q, (s.proc p).inCommit = true → (s.proc q).inCommit = true → p = q
  /-- While `committing` is set, no process is between `begin_op` and `end_op`. -/
  quiet : s.committing = true → ∀ p, (s.proc p).inTxn = false
  /-- The header lists no block twice. -/
  nodup : s.lh.Nodup

theorem inv_initial (size : ℤ) : Inv (initial size : State P) where
  outstanding_eq := by simp [initial, txnCount, Phase.inTxn]
  committing_of_inCommit := by simp [initial, Phase.inCommit]
  inCommit_unique := by simp [initial, Phase.inCommit]
  quiet := by simp [initial]
  nodup := nodup_nil

theorem Inv.committing_eq_false (h : Inv s) (hp : (s.proc p).inTxn = true) :
    s.committing = false := by
  by_contra hc
  rw [h.quiet (by simpa using hc) p] at hp
  simp at hp

/-- Waking the sleepers keeps the invariant: no sleeper is in a transaction or in `commit()`. -/
theorem Inv.wakeup (h : Inv s) : Inv s.wakeup where
  outstanding_eq := by simpa [State.wakeup, State.txnCount] using h.outstanding_eq
  committing_of_inCommit := by simpa [State.wakeup] using h.committing_of_inCommit
  inCommit_unique := by simpa [State.wakeup] using h.inCommit_unique
  quiet := by simpa [State.wakeup] using h.quiet
  nodup := h.nodup

/-- The header is all that the locked section of `log_write` and the clearing in `commit()` change
besides a phase. -/
theorem Inv.setHeader (h : Inv s) {lh : List ℕ} (hlh : lh.Nodup) : Inv { s with lh := lh } :=
  ⟨h.outstanding_eq, h.committing_of_inCommit, h.inCommit_unique, h.quiet, hlh⟩

variable [DecidableEq P]

/-- Changing the phase of one process changes the count by that process. -/
theorem txnCount_setProc (s : State P) (p : P) (phase : Phase) :
    (s.setProc p phase).txnCount + (s.proc p).inTxn.toNat = s.txnCount + phase.inTxn.toNat := by
  have hweight : ∀ b : Bool, (if b then 1 else 0) = b.toNat := by decide
  simp only [txnCount_eq_sum, hweight]
  exact sum_update_add univ (Finset.mem_univ p) s.proc phase fun _ q ↦ q.inTxn.toNat

/-- A process changes phase, and `outstanding` follows it in and out of a transaction. Assumes: the
process is not in `commit()` afterwards unless it was before, and enters a transaction only while
`committing` is clear. -/
theorem Inv.setProc (h : Inv s) {phase : Phase} {outstanding : ℤ}
    (hcommit : phase.inCommit = true → (s.proc p).inCommit = true)
    (hquiet : s.committing = true → phase.inTxn = false)
    (houtstanding : outstanding + (s.proc p).inTxn.toNat = s.outstanding + phase.inTxn.toNat) :
    Inv { s.setProc p phase with outstanding := outstanding } := by
  have hold : ∀ q, (update s.proc p phase q).inCommit = true → (s.proc q).inCommit = true := by
    intro q hq
    rcases eq_or_ne q p with rfl | hqp
    · rw [update_self] at hq
      exact hcommit hq
    · rwa [update_of_ne hqp] at hq
  constructor
  · have hcount := txnCount_setProc s p phase
    have heq := h.outstanding_eq
    change outstanding = ((s.setProc p phase).txnCount : ℤ)
    omega
  · exact fun q hq ↦ h.committing_of_inCommit q (hold q hq)
  · exact fun q r hq hr ↦ h.inCommit_unique q r (hold q hq) (hold r hr)
  · intro hc q
    change (update s.proc p phase q).inTxn = false
    rcases eq_or_ne q p with rfl | hqp
    · rw [update_self]
      exact hquiet hc
    · rw [update_of_ne hqp]
      exact h.quiet hc q
  · exact h.nodup

/-- `end_op` of the last process of the group, which goes on to commit. -/
theorem Inv.endOp_last (h : Inv s) (hp : s.proc p = .inOp) (hc : ¬ s.committing = true)
    (hlast : s.outstanding - 1 = 0) :
    Inv { s.setProc p .committing with outstanding := s.outstanding - 1, committing := true } := by
  have hself : ∀ q, (update s.proc p .committing q).inCommit = true → q = p := by
    intro q hq
    by_contra hqp
    rw [update_of_ne hqp] at hq
    exact hc (h.committing_of_inCommit q hq)
  have hcount : (s.setProc p .committing).txnCount = 0 := by
    have hcount := txnCount_setProc s p .committing
    simp only [hp, Phase.inTxn, Bool.toNat_true, Bool.toNat_false] at hcount
    have heq := h.outstanding_eq
    omega
  constructor
  · change s.outstanding - 1 = ((s.setProc p .committing).txnCount : ℤ)
    omega
  · exact fun _ _ ↦ rfl
  · exact fun q r hq hr ↦ (hself q hq).trans (hself r hr).symm
  · exact fun _ q ↦ not_inTxn_of_txnCount hcount q
  · exact h.nodup

/-- The second locked section of `end_op`, after `commit()`. -/
theorem Inv.endCommit (h : Inv s) (hp : s.proc p = .cleared) :
    Inv { s.setProc p .idle with committing := false } := by
  have hnone : ∀ q, ¬ (update s.proc p .idle q).inCommit = true := by
    intro q hq
    rcases eq_or_ne q p with rfl | hqp
    · simp [Phase.inCommit] at hq
    · rw [update_of_ne hqp] at hq
      exact hqp (h.inCommit_unique q p hq (by simp [hp, Phase.inCommit]))
  constructor
  · have hcount := txnCount_setProc s p .idle
    simp only [hp, Phase.inTxn, Bool.toNat_false, add_zero] at hcount
    have heq := h.outstanding_eq
    change s.outstanding = ((s.setProc p .idle).txnCount : ℤ)
    omega
  · exact fun q hq ↦ absurd hq (hnone q)
  · exact fun q _ hq ↦ absurd hq (hnone q)
  · exact fun hc ↦ absurd hc (by simp)
  · exact h.nodup

/-- Every atomic section keeps the invariant. -/
theorem Inv.step {t : State P} {e : Event P} (h : Inv s) (hstep : step s e = .next t) : Inv t := by
  cases e with simp only [GroupCommit.step] at hstep
  | callBegin p =>
    obtain ⟨hp, ⟨⟩⟩ := guard_eq_next.mp hstep
    exact h.setProc (by simp [Phase.inCommit]) (by simp [Phase.inTxn]) (by simp [hp, Phase.inTxn])
  | beginSleep p =>
    obtain ⟨hp, ⟨⟩⟩ := guard_eq_next.mp hstep
    exact h.setProc (by simp [Phase.inCommit]) (by simp [Phase.inTxn]) (by simp [hp.1, Phase.inTxn])
  | beginOp p =>
    obtain ⟨hp, ⟨⟩⟩ := guard_eq_next.mp hstep
    exact h.setProc (by simp [Phase.inCommit]) (by simp [hp.2.1]) (by simp [hp.1, Phase.inTxn])
  | logWrite p =>
    split_ifs at hstep with hp hbig hout
    cases hstep
    exact h.setProc (by simp [Phase.inCommit])
      (by simp [h.committing_eq_false (p := p) (by simp [hp, Phase.inTxn])])
      (by simp [hp, Phase.inTxn])
  | logAppend p block =>
    split_ifs at hstep with hp hfits
    cases hstep
    have hinv : Inv (s.setProc p .inOp) :=
      h.setProc (by simp [Phase.inCommit])
        (by simp [h.committing_eq_false (p := p) (by simp [hp, Phase.inTxn])])
        (by simp [hp, Phase.inTxn])
    exact hinv.setHeader (nodup_absorb block h.nodup)
  | endOp p =>
    split_ifs at hstep with hp hc hlast
    · cases hstep
      exact h.endOp_last hp hc hlast
    · cases hstep
      exact .wakeup (s := { s.setProc p .idle with outstanding := s.outstanding - 1 })
        (h.setProc (by simp [Phase.inCommit]) (by simp [Phase.inTxn]) (by simp [hp, Phase.inTxn]))
  | commit p =>
    obtain ⟨hp, ⟨⟩⟩ := guard_eq_next.mp hstep
    have hinv : Inv (s.setProc p .cleared) :=
      h.setProc (by simp [hp, Phase.inCommit]) (by simp [Phase.inTxn]) (by simp [hp, Phase.inTxn])
    exact hinv.setHeader nodup_nil
  | endCommit p =>
    obtain ⟨hp, ⟨⟩⟩ := guard_eq_next.mp hstep
    exact (h.endCommit hp).wakeup

theorem inv_of_run {size : ℤ} {es : List (Event P)} (hrun : run step (initial size) es = some s) :
    Inv s :=
  run_invariant (inv_initial size) (fun _ _ _ h hstep ↦ h.step hstep) hrun

end Invariant

/-! ### The events of a run -/

/-- One event in the list of blocks written since the last commit. -/
def loggedStep (blocks : List ℕ) : Event P → List ℕ
  | .logAppend _ block => blocks ++ [block]
  | .commit _ => []
  | _ => blocks

/-- The blocks written by `log_write` since the last commit. -/
def logged (es : List (Event P)) : List ℕ := es.foldl loggedStep []

theorem logged_concat (es : List (Event P)) (e : Event P) :
    logged (es ++ [e]) = loggedStep (logged es) e := by
  simp [logged, foldl_append]

/-- A block written in a stretch of events without a commit is among those written since the last
commit at its end. -/
theorem mem_logged_of_append {a m : List (Event P)} (hm : ∀ q, .commit q ∉ m) {p : P}
    (hblock : .logAppend p block ∈ m ∨ block ∈ logged a) : block ∈ logged (a ++ m) := by
  induction m using List.reverseRecOn with
  | nil => simpa using hblock
  | append_singleton m e ih =>
    simp only [List.mem_append, List.mem_singleton, not_or] at hm hblock
    rw [← List.append_assoc, logged_concat]
    have hrest := ih fun q ↦ (hm q).1
    cases e with
    | logAppend =>
      simp only [loggedStep, List.mem_append, List.mem_singleton]
      rcases hblock with (hblock | hblock) | hblock
      · exact .inl (hrest (.inl hblock))
      · exact Or.inr (Event.logAppend.inj hblock).2
      · exact .inl (hrest (.inr hblock))
    | commit q => exact absurd rfl (hm q).2
    | _ => exact hrest (by simpa using hblock)

section Runs

variable [DecidableEq P]

variable {size : ℤ} {s : State P} {p : P}

/-- The header lists the blocks written since the last commit. -/
theorem mem_lh_iff_mem_logged {es : List (Event P)} (hrun : run step (initial size) es = some s) :
    ∀ block, block ∈ s.lh ↔ block ∈ logged es := by
  refine run_induction (I := fun es s ↦ ∀ block, block ∈ s.lh ↔ block ∈ logged es)
    (by simp [initial, logged]) ?_ hrun
  intro es u e t _ ih hnext block
  rw [logged_concat]
  cases e <;> simp only [step] at hnext <;> split_ifs at hnext <;> cases hnext <;>
    first
    | exact ih block
    | simp [loggedStep, mem_absorb, ih block]

/-- Only its own `end_op` takes a process out of its transaction. -/
theorem inTxn_step {t : State P} {e : Event P} (hstep : step s e = .next t) (he : e ≠ .endOp p)
    (hp : (s.proc p).inTxn = true) : (t.proc p).inTxn = true := by
  cases e with
  | endOp q =>
    have hqp : p ≠ q := fun heq ↦ he (by rw [heq])
    simp only [step] at hstep
    split_ifs at hstep <;> cases hstep
    · simpa [proc_setProc, hqp] using hp
    · simpa [State.wakeup, proc_setProc, hqp] using hp
  | _ q =>
    simp only [step] at hstep
    split_ifs at hstep with hq
    cases hstep
    all_goals
      simp only [State.wakeup, proc_setProc, Phase.inTxn_wake]
      by_cases hpq : p = q
      · simp_all [Phase.inTxn]
      · simpa [hpq] using hp

/-- A process is in its transaction from its `begin_op` until its `end_op`. -/
theorem inTxn_of_run {a m : List (Event P)}
    (hrun : run step (initial size) (a ++ .beginOp p :: m) = some s) (hm : .endOp p ∉ m) :
    (s.proc p).inTxn = true := by
  obtain ⟨u, hu, hrest⟩ := run_append_eq_some.mp hrun
  obtain ⟨v, hv, hrest⟩ := run_cons_eq_some.mp hrest
  refine run_induction (I := fun m t ↦ .endOp p ∉ m → (t.proc p).inTxn = true) ?_ ?_ hrest hm
  · simp only [step] at hv
    split_ifs at hv
    cases hv
    simp [proc_setProc, Phase.inTxn]
  · intro m x e t _ ih hnext hnot
    simp only [List.mem_append, List.mem_singleton, not_or] at hnot
    exact inTxn_step hnext (.symm hnot.2) (ih hnot.1)

variable [Fintype P]

/-- A transaction contains no commit. -/
theorem commit_notMem_of_run {a m : List (Event P)}
    (hrun : run step (initial size) (a ++ .beginOp p :: m) = some s) (hm : .endOp p ∉ m) (q : P) :
    .commit q ∉ m := by
  intro hq
  obtain ⟨m₁, m₂, rfl⟩ := append_of_mem hq
  rw [← cons_append, ← append_assoc] at hrun
  obtain ⟨u, hu, hrest⟩ := run_append_eq_some.mp hrun
  obtain ⟨v, hv, -⟩ := run_cons_eq_some.mp hrest
  have hin := inTxn_of_run hu fun hmem ↦ hm (mem_append_left _ hmem)
  obtain ⟨hcommit, hv⟩ := guard_eq_next.mp hv
  have hinv := inv_of_run hu
  have hc := hinv.committing_of_inCommit q (by simp [hcommit, Phase.inCommit])
  rw [hinv.quiet hc p] at hin
  simp at hin

/-- The group commit of `log.c`, for any number of processes and any interleaving of the sections
that `log.lock` makes atomic. `outstanding` is the number of processes between `begin_op` and
`end_op`; while one is in `commit()`, none is between `begin_op` and `end_op`; `end_op` does not
reach its panic; the header lists the blocks written since the last commit, each once; and a
transaction, from its `begin_op` until its `end_op`, contains no commit, its blocks staying in the
header until the next commit. -/
theorem groupCommit {size : ℤ} {es : List (Event P)} {s : State P}
    (hrun : run step (initial size) es = some s) :
    s.outstanding = #{p | (s.proc p).inTxn} ∧
      (∀ p, (s.proc p).inCommit = true → ∀ q, (s.proc q).inTxn = false) ∧
      (∀ p, step s (.endOp p) ≠ .fault .committing) ∧
      (s.lh.Nodup ∧ ∀ block, block ∈ s.lh ↔ block ∈ logged es) ∧
      ∀ p a m r, es = a ++ .beginOp p :: m ++ r → .endOp p ∉ m →
        (∀ q, .commit q ∉ m) ∧
          ((∀ q, .commit q ∉ r) → ∀ block, .logAppend p block ∈ m → block ∈ s.lh) := by
  have hinv := inv_of_run hrun
  refine ⟨hinv.outstanding_eq, ?_, ?_, ⟨hinv.nodup, mem_lh_iff_mem_logged hrun⟩, ?_⟩
  · exact fun p hp ↦ hinv.quiet (hinv.committing_of_inCommit p hp)
  · intro p hfault
    simp only [step] at hfault
    split_ifs at hfault with hp hc
    rw [hinv.committing_eq_false (p := p) (by simp [hp, Phase.inTxn])] at hc
    simp at hc
  · rintro p a m r rfl hm
    obtain ⟨u, hu, -⟩ := run_append_eq_some.mp hrun
    refine ⟨commit_notMem_of_run hu hm, fun hr block hblock ↦ ?_⟩
    rw [mem_lh_iff_mem_logged hrun block]
    have hm' := commit_notMem_of_run hu hm
    rw [append_cons, append_assoc]
    refine mem_logged_of_append (p := p) (fun q hq ↦ ?_) (.inl (mem_append_left _ hblock))
    rcases mem_append.mp hq with hq | hq
    · exact hm' q hq
    · exact hr q hq

/-- Two processes that share a commit, the second of which commits for both while a third waits. -/
def sharedCommit : List (Event (Fin 3)) :=
  [.callBegin 0, .beginOp 0, .callBegin 1, .beginOp 1, .logWrite 0 7, .logWrite 1 7, .logAppend 1 7,
    .logAppend 0 7, .logWrite 1 9, .endOp 0, .logAppend 1 9, .endOp 1, .callBegin 2, .beginSleep 2]

theorem groupCommit_sharedCommit :
    ∃ s, run step (initial logSize) sharedCommit = some s ∧ s.lh = [7, 9] ∧ s.outstanding = 0 ∧
      s.lh.Nodup ∧ ∀ q, (s.proc q).inTxn = false := by
  obtain ⟨-, hquiet, -, ⟨hnodup, -⟩, -⟩ := groupCommit (run_get
    (show (run step (initial logSize) sharedCommit).isSome by decide +kernel))
  exact ⟨_, run_get _, by decide +kernel, by decide +kernel, hnodup, hquiet 1 (by decide +kernel)⟩

end Runs

end EasyKernels.Xv6.GroupCommit
