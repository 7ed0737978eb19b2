import Mathlib.Algebra.BigOperators.Ring.Finset
import Mathlib.Algebra.Order.BigOperators.Group.Finset
import EasyKernels.Xv6.GroupCommit

/-!
# The capacity of the log

`begin_op` admits a transaction only while the header and `MAXOPBLOCKS` blocks for every
transaction in progress fit in `LOGSIZE`. `txnBlocks` are the blocks a process has written in its
transaction and `Bounded` is the promise of the callers: no transaction writes more than
`MAXOPBLOCKS` distinct blocks. `Reserved` is the invariant behind the admission test, the header
plus what every transaction may still write fits, and `overrun_unreached` follows: no store of
`log_write` goes past `block[LOGSIZE]`, whatever is absorbed and however the transactions
interleave.

The panic `too big a transaction` has a stricter test. `log_write` asks for `n < log.size - 1`, and
`mkfs` sets `sb.nlog = LOGSIZE`, header included, so the last of `LOGSIZE` reserved blocks is
refused. `threeTxns` is such a run: three transactions of ten blocks each, admitted together.
`tooBig_unreached_iff` says exactly which calls of a run on such a file system panic, by the number
of distinct blocks written since the last commit. With one block more in the log, a bounded
transaction panics only by writing a block again into a full header
(`logWrite_ne_tooBig_of_notMem`).
-/

set_option autoImplicit false

namespace EasyKernels.Xv6.GroupCommit

open Nat List Function Finset Lib.Runs Lib.Counting

variable {P : Type*} [DecidableEq P]

/-! ### Bounded transactions -/

/-- One event in the list of blocks that `p` has written in its transaction. -/
def txnStep (p : P) (blocks : List ℕ) : Event P → List ℕ
  | .beginOp q => if q = p then [] else blocks
  | .logAppend q block => if q = p then blocks ++ [block] else blocks
  | _ => blocks

/-- The blocks `p` has written since its last `begin_op`. -/
def txnBlocks (p : P) (es : List (Event P)) : List ℕ := es.foldl (txnStep p) []

theorem txnBlocks_concat (p : P) (es : List (Event P)) (e : Event P) :
    txnBlocks p (es ++ [e]) = txnStep p (txnBlocks p es) e := by
  simp [txnBlocks, foldl_append]

variable {block : ℕ} {es : List (Event P)} {s t : State P} {p : P} {size : ℤ}

theorem card_toFinset_concat {blocks : List ℕ} (h : block ∉ blocks) :
    #(blocks ++ [block]).toFinset = #(blocks.toFinset) + 1 := by
  simp [h]

/-- Every transaction writes at most `MAXOPBLOCKS` distinct blocks. -/
def Bounded (es : List (Event P)) : Prop :=
  ∀ p a, a <+: es → #(txnBlocks p a).toFinset ≤ maxOpBlocks

theorem Bounded.of_append {fs : List (Event P)} (h : Bounded (es ++ fs)) : Bounded es :=
  fun p a ha ↦ h p a (ha.trans (prefix_append es fs))

theorem Bounded.last (h : Bounded es) (p : P) : #(txnBlocks p es).toFinset ≤ maxOpBlocks :=
  h p es (prefix_refl es)

/-! ### The reservation -/

/-- How many more distinct blocks a process may write: `MAXOPBLOCKS` less those it has written,
while it is in a transaction. -/
def room (s : State P) (es : List (Event P)) (p : P) : ℕ :=
  if (s.proc p).inTxn then maxOpBlocks - #(txnBlocks p es).toFinset else 0

variable [Fintype P]

/-- The header and what every transaction may still write fit in `LOGSIZE`, and the header has the
blocks of every transaction in progress. -/
structure Reserved (es : List (Event P)) (s : State P) : Prop where
  fits : s.lh.length + ∑ p, room s es p ≤ logSize
  subset : ∀ p, (s.proc p).inTxn = true → ∀ block ∈ txnBlocks p es, block ∈ s.lh

open State

theorem room_le (s : State P) (es : List (Event P)) :
    ∑ p, room s es p ≤ s.txnCount * maxOpBlocks := by
  rw [txnCount_eq_sum, sum_mul]
  refine sum_le_sum fun p _ ↦ ?_
  unfold room
  split_ifs <;> omega

/-- An event that leaves the header alone and takes no process into a transaction. -/
theorem Reserved.mono {fs : List (Event P)} (h : Reserved es s) (hlh : t.lh = s.lh)
    (hin : ∀ p, (t.proc p).inTxn = true → (s.proc p).inTxn = true)
    (hblocks : ∀ p, txnBlocks p fs = txnBlocks p es) : Reserved fs t where
  fits := by
    rw [hlh]
    refine (Nat.add_le_add_left (Finset.sum_le_sum fun p _ ↦ ?_) _).trans h.fits
    unfold room
    rw [hblocks]
    by_cases hp : (t.proc p).inTxn = true
    · rw [if_pos hp, if_pos (hin p hp)]
    · rw [if_neg hp]
      exact zero_le _
  subset := fun p hp block hblock ↦ by
    rw [hlh]
    exact h.subset p (hin p hp) block (hblocks p ▸ hblock)

/-- `begin_op` reserves `MAXOPBLOCKS` blocks for the process it admits. -/
theorem Reserved.beginOp (hinv : Inv s) (h : Reserved es s)
    (hstep : step s (.beginOp p) = .next t) : Reserved (es ++ [.beginOp p]) t := by
  have hcount := (hinv.step hstep).outstanding_eq
  obtain ⟨hp, ⟨⟩⟩ := guard_eq_next.mp hstep
  constructor
  · refine (Nat.add_le_add_left (room_le _ _) _).trans ?_
    have hroom := hp.2.2
    simp only [full, not_lt] at hroom
    change s.outstanding + 1 = _ at hcount
    rw [hcount] at hroom
    exact_mod_cast hroom
  · intro q hq block hblock
    rw [txnBlocks_concat] at hblock
    by_cases hqp : p = q
    · simp [txnStep, hqp] at hblock
    · refine h.subset q ?_ block (by simpa [txnStep, hqp] using hblock)
      simpa [proc_setProc, Ne.symm hqp] using hq

/-- The locked section of `log_write`: a block that is new to the header is new to the transaction
and is paid for out of its reservation. -/
theorem Reserved.logAppend (h : Reserved es s) (hbounded : Bounded (es ++ [.logAppend p block]))
    (hstep : step s (.logAppend p block) = .next t) : Reserved (es ++ [.logAppend p block]) t := by
  have hcard := hbounded.last p
  simp only [step] at hstep
  split_ifs at hstep with hp hfits
  obtain ⟨hlh, hproc⟩ : t.lh = absorb s.lh block ∧ t.proc = update s.proc p .inOp := by
    cases hstep
    exact ⟨rfl, rfl⟩
  have hin : (s.proc p).inTxn = true := by simp [hp, Phase.inTxn]
  have hself : txnBlocks p (es ++ [.logAppend p block]) = txnBlocks p es ++ [block] := by
    simp [txnBlocks_concat, txnStep]
  have hother : ∀ q, q ≠ p → txnBlocks q (es ++ [.logAppend p block]) = txnBlocks q es :=
    fun q hq ↦ by simp [txnBlocks_concat, txnStep, Ne.symm hq]
  have hphase : ∀ q, (t.proc q).inTxn = (s.proc q).inTxn := by
    intro q
    by_cases hq : q = p
    · rw [hq, hin, hproc, update_self]
      rfl
    · rw [hproc, update_of_ne hq]
  have hle : ∀ q, room t (es ++ [.logAppend p block]) q ≤ room s es q := by
    intro q
    simp only [room, hphase]
    by_cases hq : q = p
    · have hsub : #(txnBlocks p es).toFinset ≤ #(txnBlocks p es ++ [block]).toFinset :=
        card_le_card (by simp)
      rw [hq, hself]
      split_ifs
      omega
    · rw [hother q hq]
  constructor
  · by_cases hmem : block ∈ s.lh
    · rw [hlh, absorb_of_mem hmem]
      exact (Nat.add_le_add_left (Finset.sum_le_sum fun q _ ↦ hle q) _).trans h.fits
    · have hnew : block ∉ txnBlocks p es := fun hblock ↦ hmem (h.subset p hin block hblock)
      have hgrow := card_toFinset_concat hnew
      rw [hself, hgrow] at hcard
      have hlt := sum_lt_sum (fun q _ ↦ hle q) ⟨p, mem_univ p, by
        simp only [room, hphase, hin, if_true, hself, hgrow]
        omega⟩
      have hold := h.fits
      rw [hlh, absorb_of_notMem hmem, length_append, length_singleton]
      omega
  · intro q hq other hblock
    rw [hlh, mem_absorb]
    rw [hphase] at hq
    by_cases hqp : q = p
    · rw [hqp, hself] at hblock
      rcases mem_append.mp hblock with hblock | hblock
      · exact .inl (h.subset p hin other hblock)
      · exact .inr (List.mem_singleton.mp hblock)
    · exact .inl (h.subset q hq other (hother q hqp ▸ hblock))

omit [Fintype P] in
/-- Only `begin_op` takes a process into a transaction. -/
theorem inTxn_of_inTxn_step {e : Event P} (hstep : step s e = .next t) (he : ∀ q, e ≠ .beginOp q)
    (hp : (t.proc p).inTxn = true) : (s.proc p).inTxn = true := by
  cases e with
  | beginOp q => exact absurd rfl (he q)
  | _ q =>
    simp only [step] at hstep
    split_ifs at hstep with hq <;> cases hstep
    all_goals
      simp only [wakeup, proc_setProc, Phase.inTxn_wake] at hp
      rcases eq_or_ne p q with rfl | hpq
      · simp_all [Phase.inTxn]
      · simpa [hpq] using hp

section

variable (hrun : run step (initial size) es = some s)

include hrun

/-- The reservation holds along every run of bounded transactions. -/
theorem reserved_of_run (hbounded : Bounded es) : Reserved es s := by
  refine run_induction (I := fun es s ↦ Bounded es → Reserved es s) ?_ ?_ hrun hbounded
  · intro _
    exact ⟨by simp [initial, room, Phase.inTxn], by simp [initial, Phase.inTxn]⟩
  · intro es u e t hu ih hnext hbounded
    have hinv := inv_of_run hu
    have hold := ih hbounded.of_append
    have hin := fun he p ↦ inTxn_of_inTxn_step (p := p) hnext he
    cases e with
    | beginOp p => exact hold.beginOp hinv hnext
    | logAppend => exact hold.logAppend hbounded hnext
    | commit p =>
      obtain ⟨hp, hnext⟩ := guard_eq_next.mp hnext
      have hc := hinv.committing_of_inCommit p (by simp [hp, Phase.inCommit])
      have hnone : ∀ q, ¬ (t.proc q).inTxn = true := fun q hq ↦ by
        have := hin (by simp) q hq
        simp [hinv.quiet hc q] at this
      cases hnext
      exact ⟨by simp [room, hnone], fun q hq ↦ absurd hq (hnone q)⟩
    | _ p =>
      refine hold.mono ?_ (hin (by simp)) fun q ↦ by simp [txnBlocks_concat, txnStep]
      simp only [step] at hnext
      split_ifs at hnext <;> cases hnext <;> rfl

omit hrun in
/-- A new block of a bounded transaction still has an entry in the header. -/
theorem Reserved.lt_logSize (h : Reserved es s) (hbounded : Bounded (es ++ [.logAppend p block]))
    (hin : (s.proc p).inTxn = true) (hnew : block ∉ s.lh) : s.lh.length < logSize := by
  have hcard : #(txnBlocks p es ++ [block]).toFinset ≤ maxOpBlocks := by
    simpa [txnBlocks_concat, txnStep] using hbounded.last p
  have hgrow := card_toFinset_concat fun hblock ↦ hnew (h.subset p hin block hblock)
  have hroom : 0 < room s es p := by
    simp only [room, hin, if_true]
    omega
  have hsum := single_le_sum (f := room s es) (fun _ _ ↦ zero_le _) (mem_univ p)
  have hfits := h.fits
  omega

/-- No run of bounded transactions stores past the end of the header: what `begin_op` reserves is
enough for each of them. Assumes: no transaction writes more than `MAXOPBLOCKS` distinct blocks,
the one of the event included. -/
theorem overrun_unreached {e : Event P} (hbounded : Bounded (es ++ [e])) :
    step s e ≠ .fault .overrun := by
  have hreserved := reserved_of_run hrun hbounded.of_append
  intro hfault
  cases e with simp only [step] at hfault
  | logAppend p block =>
    split_ifs at hfault with hp hfits
    refine hfits ?_
    by_cases hmem : block ∈ s.lh
    · rw [absorb_of_mem hmem]
      exact (le_add_right _ _).trans hreserved.fits
    · rw [absorb_of_notMem hmem, length_append, length_singleton]
      exact hreserved.lt_logSize hbounded (by simp [hp, Phase.inTxn]) hmem
  | _ p =>
    split_ifs at hfault <;> cases hfault

/-! ### The panic of `log_write` -/

/-- The header has as many entries as distinct blocks were written since the last commit. -/
theorem lh_length_eq : s.lh.length = #(logged es).toFinset := by
  rw [← toFinset_card_of_nodup (inv_of_run hrun).nodup]
  congr 1
  ext block
  simp [mem_lh_iff_mem_logged hrun block]

end

omit [Fintype P] in
theorem logWrite_eq_tooBig_iff :
    step s (.logWrite p block) = .fault .tooBig ↔ s.proc p = .inOp ∧ s.tooBig := by
  simp only [step]
  split_ifs <;> simp_all

omit [Fintype P] in
/-- `log.size` is set by `initlog` alone. -/
theorem size_of_run (hrun : run step (initial size) es = some s) : s.size = size := by
  refine run_invariant (I := fun s ↦ s.size = size) rfl ?_ hrun
  intro u e t hu hnext
  cases e <;> simp only [step] at hnext <;> split_ifs at hnext <;> cases hnext <;> exact hu

/-- On a file system whose log has `LOGSIZE` blocks, a call of `log_write` panics exactly when
`LOGSIZE - 1` distinct blocks have been written since the last commit. -/
theorem tooBig_iff (hrun : run step (initial logSize) es = some s) :
    s.tooBig ↔ logSize - 1 ≤ #(logged es).toFinset := by
  unfold tooBig
  rw [size_of_run hrun, lh_length_eq hrun]
  omega

/-- A run on a file system whose log has `LOGSIZE` blocks reaches the panic
`too big a transaction` in none of its calls of `log_write` exactly when at every call fewer than
`LOGSIZE - 1` distinct blocks have been written since the last commit. -/
theorem tooBig_unreached_iff (es : List (Event P)) :
    (∀ a p block r s, es = a ++ .logWrite p block :: r →
        run step (initial logSize) a = some s → step s (.logWrite p block) ≠ .fault .tooBig) ↔
      ∀ a p block r s, es = a ++ .logWrite p block :: r →
        run step (initial logSize) a = some s → s.proc p = .inOp →
          #(logged a).toFinset < logSize - 1 := by
  constructor
  · intro h a p block r s hes hrun hp
    by_contra hfull
    refine h a p block r s hes hrun (logWrite_eq_tooBig_iff.mpr ⟨hp, ?_⟩)
    exact (tooBig_iff hrun).mpr (not_lt.mp hfull)
  · intro h a p block r s hes hrun hfault
    obtain ⟨hp, hbig⟩ := logWrite_eq_tooBig_iff.mp hfault
    have hfew := h a p block r s hes hrun hp
    exact absurd ((tooBig_iff hrun).mp hbig) (not_le.mpr hfew)

/-- With a log of more than `LOGSIZE` blocks, a bounded transaction panics in `log_write` only by
writing again a block of a full header. Assumes: no transaction writes more than `MAXOPBLOCKS`
distinct blocks, the one of the call included. -/
theorem logWrite_ne_tooBig_of_notMem (hsize : logSize < size)
    (hrun : run step (initial size) es = some s) (hbounded : Bounded (es ++ [.logAppend p block]))
    (hnew : block ∉ s.lh) : step s (.logWrite p block) ≠ .fault .tooBig := by
  intro hfault
  obtain ⟨hp, hbig⟩ := logWrite_eq_tooBig_iff.mp hfault
  have hroom := (reserved_of_run hrun hbounded.of_append).lt_logSize hbounded
    (by simp [hp, Phase.inTxn]) hnew
  unfold tooBig at hbig
  rw [size_of_run hrun] at hbig
  omega

/-- The events by which a process in a transaction writes blocks. -/
def writes (p : P) (blocks : List ℕ) : List (Event P) :=
  blocks.flatMap fun block ↦ [.logWrite p block, .logAppend p block]

/-- Three transactions that `begin_op` admits together, writing ten, ten and nine blocks. -/
def threeTxns (p q r : P) : List (Event P) :=
  [.callBegin p, .beginOp p, .callBegin q, .beginOp q, .callBegin r, .beginOp r] ++
    writes p (List.range' 100 10) ++ writes q (List.range' 200 10) ++ writes r (List.range' 300 9)

omit [Fintype P] in
theorem bounded_of_length_le (h : ∀ a ∈ es.inits, ∀ p, (txnBlocks p a).length ≤ maxOpBlocks) :
    Bounded es :=
  fun p a ha ↦ (toFinset_card_le _).trans (h a ((mem_inits a es).mpr ha) p)

theorem overrun_unreached_threeTxns :
    ∃ s,
      run step (initial (logSize + 2)) (threeTxns (0 : Fin 3) 1 2 ++ [.logWrite 2 309]) = some s ∧
        s.lh.length + 1 = logSize ∧ step s (.logAppend 2 309) ≠ .fault .overrun :=
  ⟨_, run_get (by decide +kernel), by decide +kernel,
    overrun_unreached (run_get _) (bounded_of_length_le (by decide +kernel))⟩

/-- The thirtieth block of three transactions of ten blocks each reaches the panic
`too big a transaction` on a file system made by `mkfs`. -/
theorem threeTxns_tooBig :
    ∃ s, run step (initial logSize) (threeTxns (0 : Fin 3) 1 2) = some s ∧
      Bounded (threeTxns (0 : Fin 3) 1 2 ++ [.logAppend 2 309]) ∧
        step s (.logWrite 2 309) = .fault .tooBig :=
  ⟨_, run_get (by decide +kernel), bounded_of_length_le (by decide +kernel), by decide +kernel⟩

end EasyKernels.Xv6.GroupCommit
