import EasyKernels.Xv6.SleepWakeup

/-!
# What code that sleeps must keep to

Each address to sleep on has a condition and the spin lock that protects it. `Discipline` says what
the code must keep to: a thread goes to sleep only on a condition that holds, and a thread that
makes a condition false holds its lock and calls `wakeup` before it releases it. `Safe.move` says
that a program with this discipline loses no wakeup, because the lock is held until the sleeper has
`ptable.lock`: whenever a process sleeps on an address, its condition holds, or the thread that
holds its lock still owes a `wakeup`.

`Unkilled.move` is the same for `killed`. A process that is asleep in one of the given functions is
not killed, as long as no process is killed between its test of `killed` and `sleep`.
-/

set_option autoImplicit false

namespace EasyKernels.Xv6.SleepWakeup

open Option Function Lib.Runs
open Processes (ProcState)

variable {L C D PC π Call : Type}

/-! ### The discipline of sleepers and wakers -/

/-- What is noted at each position of the code: the spin locks that the thread holds, the addresses
on which it owes a `wakeup`, and the address on which it is about to sleep, having found that the
condition holds. -/
structure Notes (L C PC : Type) where
  holds : PC → L → Prop
  owes : PC → C → Prop
  waits : PC → C → Prop

namespace Notes

variable (N : Notes L C PC)

/-- The spin locks that a thread holds. -/
def modeHolds : Mode L C PC → L → Prop
  | .run pc, lk => N.holds pc lk
  | .table _ _ next, lk => N.holds next lk
  | .sleep .locked _ _ next, lk => N.holds next lk
  | .sleep _ _ released next, lk => lk ≠ released ∧ N.holds next lk

/-- The addresses on which a thread owes a `wakeup`. -/
def modeOwes : Mode L C PC → C → Prop
  | .run pc, chan => N.owes pc chan
  | .table (.wakeup woken) false next, chan => chan = woken ∨ N.owes next chan
  | .table _ _ next, chan => N.owes next chan
  | .sleep _ _ _ _, _ => False

/-- The address on which a thread is about to sleep. -/
def modeWaits : Mode L C PC → C → Prop
  | .run pc, chan => N.waits pc chan
  | .table _ _ next, chan => N.waits next chan
  | .sleep .locked onChan _ _, chan => chan = onChan
  | .sleep _ _ _ _, _ => False

end Notes

/-- The thread holds `ptable.lock`. -/
def Mode.inTable : Mode L C PC → Prop
  | .table _ _ _ => True
  | .sleep .locked _ _ _ | .sleep .released _ _ _ | .sleep .resumed _ _ _ => True
  | _ => False

/-- The process is asleep at the address, or in `sleep` on its way there, past the release of the
lock. -/
def SleepsOn (s : State L C D PC) (p : Slot) (chan : C) : Prop :=
  ((s.proc p).state = .sleeping ∧ (s.proc p).chan = some chan) ∨
    ∃ lk next, s.mode p = .sleep .released chan lk next

/-- The address on the way to which a thread is in `sleep`, past the release of the lock. -/
def Mode.released : Mode L C PC → Option C
  | .sleep .released chan _ _ => some chan
  | _ => none

theorem Mode.released_eq_some {mode : Mode L C PC} {chan : C} :
    mode.released = some chan ↔ ∃ lk next, mode = .sleep .released chan lk next := by
  constructor
  · intro h
    match mode, h with
    | .sleep .released _ lk next, rfl => exact ⟨lk, next, rfl⟩
  · rintro ⟨lk, next, rfl⟩
    rfl

instance [DecidableEq C] (s : State L C D PC) (p : Slot) (chan : C) :
    Decidable (SleepsOn s p chan) :=
  decidable_of_iff (((s.proc p).state = .sleeping ∧ (s.proc p).chan = some chan) ∨
    (s.mode p).released = some chan) (by rw [SleepsOn, Mode.released_eq_some])

/-- What the code must keep to. `owner` is the lock of a condition `cond`. `Known` is what is known
of the state before a thread accesses the data. -/
structure Discipline (prog : Program L C D PC π Call) (N : Notes L C PC) (owner : C → L)
    (cond : C → D → Prop) (Known : State L C D PC → Slot → Prop) : Prop where
  waits_holds : ∀ pc chan, N.waits pc chan → N.holds pc (owner chan)
  call : ∀ pc call next, prog.start pc call = some next →
    (∀ lk, N.holds next lk ↔ N.holds pc lk) ∧ (∀ chan, ¬ N.owes pc chan) ∧
      ∀ chan, ¬ N.waits next chan
  acquire : ∀ pc lk next, prog.code pc = .acquire lk next →
    (∀ lk', N.holds next lk' ↔ lk' = lk ∨ N.holds pc lk') ∧ (∀ chan, ¬ N.owes pc chan) ∧
      ∀ chan, ¬ N.waits next chan
  release : ∀ pc lk next, prog.code pc = .release lk next →
    (∀ lk', N.holds next lk' ↔ lk' ≠ lk ∧ N.holds pc lk') ∧ (∀ chan, ¬ N.owes pc chan) ∧
      ∀ chan, ¬ N.waits next chan
  wakeup : ∀ pc woken next, prog.code pc = .table (.wakeup woken) next →
    (∀ lk, N.holds next lk ↔ N.holds pc lk) ∧
      (∀ chan, N.owes pc chan → chan = woken ∨ N.owes next chan) ∧
      ∀ chan, N.waits next chan → N.waits pc chan
  kill : ∀ pc pid next, prog.code pc = .table (.kill pid) next →
    (∀ lk, N.holds next lk ↔ N.holds pc lk) ∧ (∀ chan, N.owes pc chan → N.owes next chan) ∧
      ∀ chan, N.waits next chan → N.waits pc chan
  sleep : ∀ pc chan lk next, prog.code pc = .sleep chan lk next →
    lk = owner chan ∧ N.waits pc chan ∧ (∀ lk', N.holds next lk' ↔ N.holds pc lk') ∧
      (∀ chan, ¬ N.owes pc chan) ∧ ∀ chan, ¬ N.waits next chan
  /-- An access that makes a condition false is by the holder of its lock, who then owes a `wakeup`.
  A `wakeup` that is owed stays owed, unless nobody sleeps. -/
  access : ∀ s p pc f data next, Known s p → s.mode p = .run pc → prog.code pc = .access f →
    f (s.proc p).pid (s.proc p).killed s.data = .ok (data, next) →
    (∀ lk, N.holds next lk ↔ N.holds pc lk) ∧
      (∀ chan, cond chan s.data → cond chan data ∨ N.holds pc (owner chan) ∧ N.owes next chan) ∧
      (∀ chan, N.owes pc chan → N.owes next chan ∨ ∀ q, ¬ SleepsOn s q chan) ∧
      ∀ chan, N.waits next chan → cond chan data

/-- No wakeup is lost. -/
structure Safe (prog : Program L C D PC π Call) (N : Notes L C PC) (owner : C → L)
    (cond : C → D → Prop) (s : State L C D PC) : Prop where
  spin : ∀ lk p, s.spin lk = some p ↔ N.modeHolds (s.mode p) lk
  ptable : ∀ p, s.ptable = some p ↔ (s.mode p).inTable
  /-- A call of `sleep` is one of the code. -/
  site : ∀ p stage chan lk next, s.mode p = .sleep stage chan lk next →
    ∃ pc, prog.code pc = .sleep chan lk next
  sleeping : ∀ p, (s.proc p).state = .sleeping →
    ∃ chan lk next, s.mode p = .sleep .asleep chan lk next ∧ (s.proc p).chan = some chan
  waits : ∀ p chan, N.modeWaits (s.mode p) chan → cond chan s.data
  /-- Where a process sleeps, the condition holds, or the holder of its lock owes a `wakeup`. -/
  owed : ∀ p chan, SleepsOn s p chan →
    cond chan s.data ∨ ∃ q, s.spin (owner chan) = some q ∧ N.modeOwes (s.mode q) chan

section Safe

variable {prog : Program L C D PC π Call} {N : Notes L C PC} {owner : C → L} {cond : C → D → Prop}
  {Known : State L C D PC → Slot → Prop} {s t : State L C D PC}

variable {p q : Slot} {chan : C} {lk : L} {pc next : PC} {op : Op C} {mode : Mode L C PC}

/-- The sleepers after a step of one thread: that thread, or others that slept before. -/
theorem SleepsOn.of_update {proc : Proc C} (hsleep : SleepsOn t q chan)
    (hmode : t.mode = update s.mode p mode) (hproc : t.proc = update s.proc p proc) :
    SleepsOn s q chan ∨ q = p ∧ ((proc.state = .sleeping ∧ proc.chan = some chan) ∨
      ∃ lk next, mode = .sleep .released chan lk next) := by
  rw [SleepsOn, hmode, hproc] at hsleep
  rw [update_apply, update_apply] at hsleep
  split_ifs at hsleep with hqp
  · exact .inr ⟨hqp, hsleep⟩
  · exact .inl hsleep

/-- The sleepers when the process table is as it was. -/
theorem SleepsOn.of_mode (hsleep : SleepsOn t q chan) (hmode : t.mode = update s.mode p mode)
    (hproc : t.proc = s.proc) :
    SleepsOn s q chan ∨ ∃ lk next, mode = .sleep .released chan lk next := by
  rcases hsleep.of_update hmode (hproc.trans (update_eq_self p s.proc).symm) with
    hold | ⟨rfl, hasleep | hnew⟩
  · exact .inl hold
  · exact .inl (.inl hasleep)
  · exact .inr hnew

/-- Taking `ptable.lock` when it is free changes nothing for the other threads. -/
theorem takesTable (hfree : s.ptable = none) (hq : q ≠ p) :
    some p = some q ↔ s.ptable = some q := by
  rw [hfree]
  simp [hq.symm]

/-- Taking a free spin lock, or giving back one's own, changes nothing for the other threads. -/
theorem spin_of_ne [DecidableEq L] {holder holder' : Option Slot} (hlk : s.spin lk = holder)
    (hholder : holder ≠ some q) (hholder' : holder' ≠ some q) (lk' : L) :
    update s.spin lk holder' lk' = some q ↔ s.spin lk' = some q := by
  rw [update_apply]
  split_ifs with heq
  · rw [heq, hlk]
    exact iff_of_false hholder' hholder
  · exact .rfl

/-- A pass over the table puts nobody to sleep. -/
theorem apply_sleeping [DecidableEq C] {proc : Slot → Proc C}
    (hsleep : (op.apply proc q).state = .sleeping) :
    op.apply proc q = proc q ∧ ∀ chan, op = .wakeup chan → (proc q).chan ≠ some chan := by
  cases op with
  | wakeup =>
    simp only [Op.apply, wakeup1] at hsleep ⊢
    split_ifs at hsleep ⊢ with hwoken
    refine ⟨rfl, fun chan' heq hchan ↦ ?_⟩
    cases heq
    exact hwoken ⟨hsleep, hchan⟩
  | kill pid =>
    refine ⟨?_, nofun⟩
    cases hfind : findPid proc pid with
    | none => simp only [Op.apply, kill, hfind]
    | some p =>
      simp only [Op.apply, kill, hfind, update_apply] at hsleep ⊢
      split_ifs at hsleep ⊢ with hqp hstate
      · exact (hstate hsleep).elim
      · rfl

section

variable (h : Safe prog N owner cond s)

include h

/-- One thread takes a step. Assumes: it holds and owes what its new mode says, the other threads
hold what they held, a condition that it makes false is one on which it owes a `wakeup`, and whoever
sleeps afterwards slept before, or on a condition that holds. -/
theorem Safe.keep (p : Slot) (mode : Mode L C PC) (hmode : t.mode = update s.mode p mode)
    (hcond : ∀ chan, cond chan s.data →
      cond chan t.data ∨ t.spin (owner chan) = some p ∧ N.modeOwes mode chan)
    (hothers : ∀ q chan, q ≠ p → N.modeWaits (s.mode q) chan → cond chan s.data →
      cond chan t.data) (hspin : ∀ lk, t.spin lk = some p ↔ N.modeHolds mode lk)
    (hspins : ∀ lk q, q ≠ p → (t.spin lk = some q ↔ s.spin lk = some q))
    (hptable : t.ptable = some p ↔ mode.inTable)
    (hptables : ∀ q, q ≠ p → (t.ptable = some q ↔ s.ptable = some q))
    (hsite : ∀ stage chan lk next, mode = .sleep stage chan lk next →
      ∃ pc, prog.code pc = .sleep chan lk next) (hself : (t.proc p).state = .sleeping →
      ∃ chan lk next, mode = .sleep .asleep chan lk next ∧ (t.proc p).chan = some chan)
    (hproc : ∀ q, q ≠ p → (t.proc q).state = .sleeping → t.proc q = s.proc q)
    (hwaits : ∀ chan, N.modeWaits mode chan → cond chan t.data)
    (hsleeps : ∀ q chan, SleepsOn t q chan → SleepsOn s q chan ∨ cond chan t.data)
    (howes : ∀ chan, N.modeOwes (s.mode p) chan → s.spin (owner chan) = some p →
      (N.modeOwes mode chan ∧ t.spin (owner chan) = some p) ∨ ∀ q, ¬ SleepsOn t q chan) :
    Safe prog N owner cond t := by
  have hp : t.mode p = mode := by rw [hmode, update_self]
  have hq : ∀ {q}, q ≠ p → t.mode q = s.mode q := fun hne ↦ by
    rw [hmode, update_of_ne hne]
  constructor
  · intro lk q
    by_cases hqp : q = p
    · rw [hqp, hp]
      exact hspin lk
    · rw [hq hqp, hspins lk q hqp]
      exact h.spin lk q
  · intro q
    by_cases hqp : q = p
    · rw [hqp, hp]
      exact hptable
    · rw [hq hqp, hptables q hqp]
      exact h.ptable q
  · intro q stage chan lk next hqm
    by_cases hqp : q = p
    · rw [hqp, hp] at hqm
      exact hsite stage chan lk next hqm
    · rw [hq hqp] at hqm
      exact h.site q stage chan lk next hqm
  · intro q hsleep
    by_cases hqp : q = p
    · rw [hqp] at hsleep ⊢
      rw [hp]
      exact hself hsleep
    · have heq := hproc q hqp hsleep
      rw [heq] at hsleep ⊢
      rw [hq hqp]
      exact h.sleeping q hsleep
  · intro q chan hwait
    by_cases hqp : q = p
    · rw [hqp, hp] at hwait
      exact hwaits chan hwait
    · rw [hq hqp] at hwait
      exact hothers q chan hqp hwait (h.waits q chan hwait)
  · intro q chan hsleep
    rcases hsleeps q chan hsleep with hold | hnow
    · rcases h.owed q chan hold with hbefore | ⟨r, hr, howe⟩
      · exact (hcond chan hbefore).imp_right fun hnew ↦ ⟨p, hnew.1, hp.symm ▸ hnew.2⟩
      · by_cases hrp : r = p
        · rw [hrp] at hr howe
          rcases howes chan howe hr with ⟨hnew, hspin'⟩ | hnone
          · exact .inr ⟨p, hspin', by rwa [hp]⟩
          · exact (hnone q hsleep).elim
        · exact .inr ⟨r, (hspins _ r hrp).mpr hr, by rwa [hq hrp]⟩
    · exact .inl hnow

section

variable (hmode : s.mode p = mode)

include hmode

theorem Safe.spin_of {holds : Prop}
    (hholds : N.modeHolds mode lk ↔ holds) : s.spin lk = some p ↔ holds :=
  (h.spin lk p).trans (hmode ▸ hholds)

theorem Safe.ptable_of {inTable : Prop}
    (htable : mode.inTable ↔ inTable) : s.ptable = some p ↔ inTable :=
  (h.ptable p).trans (hmode ▸ htable)

theorem Safe.waits_of (hw : N.modeWaits mode chan) : cond chan s.data :=
  h.waits p chan (hmode ▸ hw)

/-- A thread that is not in `sched` is not asleep. -/
theorem Safe.awake
    (hne : ∀ chan lk next, mode ≠ .sleep .asleep chan lk next) : (s.proc p).state ≠ .sleeping := by
  intro hsleep
  obtain ⟨chan, lk, next, heq, -⟩ := h.sleeping p hsleep
  exact hne chan lk next (hmode.symm.trans heq)

/-- Only its holder gives `ptable.lock` back. -/
theorem Safe.leavesTable (hp : mode.inTable) (hq : q ≠ p) : none = some q ↔ s.ptable = some q := by
  rw [(h.ptable_of hmode Iff.rfl).mpr hp]
  simp [hq.symm]

end

/-- A call starts, and changes neither a lock nor the table. -/
theorem Safe.call (hmode : s.mode p = .run pc) (hholds : ∀ lk, N.holds next lk ↔ N.holds pc lk)
    (howes : ∀ chan, ¬ N.owes pc chan) (hwaits : ∀ chan, ¬ N.waits next chan) :
    Safe prog N owner cond (s.setMode p (.run next)) := by
  refine h.keep p (.run next) rfl (fun _ ↦ .inl) (fun _ _ _ _ ↦ id)
    (fun lk ↦ h.spin_of hmode (hholds lk).symm) (fun _ _ _ ↦ .rfl) (h.ptable_of hmode .rfl)
    (fun _ _ ↦ .rfl) nofun (fun hsleep ↦ (h.awake hmode nofun hsleep).elim) (fun _ _ _ ↦ rfl)
    (fun chan hw ↦ (hwaits chan hw).elim)
    (fun q chan hsleep ↦ .inl ((hsleep.of_mode rfl rfl).resolve_right nofun)) fun chan howe ↦ ?_
  rw [hmode] at howe
  exact (howes chan howe).elim

section Locks

variable [DecidableEq L]

/-- A thread takes a free spin lock, in `acquire` or at the end of `sleep`. -/
theorem Safe.takes (hmode : s.mode p = mode) (hfree : s.spin lk = none) (htable : ¬ mode.inTable)
    (hasleep : ∀ chan lk next, mode ≠ .sleep .asleep chan lk next)
    (hholds : ∀ lk', N.holds next lk' ↔ lk' = lk ∨ N.modeHolds mode lk')
    (howes : ∀ chan, ¬ N.modeOwes mode chan) (hwaits : ∀ chan, ¬ N.waits next chan) :
    Safe prog N owner cond
      { s.setMode p (.run next) with spin := update s.spin lk (some p) } := by
  refine h.keep p (.run next) rfl (fun _ ↦ .inl) (fun _ _ _ _ ↦ id) (fun lk' ↦ ?_)
    (fun lk' q hq ↦ spin_of_ne hfree (some_ne_none q).symm (fun heq ↦ hq (some.inj heq).symm) lk')
    (iff_of_false (fun heq ↦ htable ((h.ptable_of hmode .rfl).mp heq)) id) (fun _ _ ↦ .rfl)
    nofun (fun hsleep ↦ (h.awake hmode hasleep hsleep).elim) (fun _ _ _ ↦ rfl)
    (fun chan hw ↦ (hwaits chan hw).elim)
    (fun q chan hsleep ↦ .inl ((hsleep.of_mode rfl rfl).resolve_right nofun))
    (fun chan howe ↦ (howes chan (hmode ▸ howe)).elim)
  rw [show N.modeHolds (.run next) lk' ↔ N.holds next lk' from Iff.rfl, hholds,
    ← h.spin_of hmode Iff.rfl]
  simp only [update_apply]
  split_ifs with heq <;> simp [heq]

/-- A thread that releases a spin lock holds the others as before. -/
theorem Safe.spin_release (hmode : s.mode p = mode) (lk lk' : L) :
    update s.spin lk none lk' = some p ↔ lk' ≠ lk ∧ N.modeHolds mode lk' := by
  rw [← h.spin_of hmode Iff.rfl]
  simp only [update_apply]
  split_ifs with heq <;> simp [heq]

/-- A thread releases a spin lock. -/
theorem Safe.release (hmode : s.mode p = .run pc) (hheld : s.spin lk = some p)
    (hholds : ∀ lk', N.holds next lk' ↔ lk' ≠ lk ∧ N.holds pc lk')
    (howes : ∀ chan, ¬ N.owes pc chan) (hwaits : ∀ chan, ¬ N.waits next chan) :
    Safe prog N owner cond
      { s.setMode p (.run next) with spin := update s.spin lk none } := by
  refine h.keep p (.run next) rfl (fun _ ↦ .inl) (fun _ _ _ _ ↦ id)
    (fun lk' ↦ (h.spin_release hmode lk lk').trans (hholds lk').symm)
    (fun lk' q hq ↦ spin_of_ne hheld (fun heq ↦ hq (some.inj heq).symm) (some_ne_none q).symm lk')
    (h.ptable_of hmode .rfl) (fun _ _ ↦ .rfl) nofun
    (fun hsleep ↦ (h.awake hmode nofun hsleep).elim) (fun _ _ _ ↦ rfl)
    (fun chan hw ↦ (hwaits chan hw).elim)
    (fun q chan hsleep ↦ .inl ((hsleep.of_mode rfl rfl).resolve_right nofun)) fun chan howe ↦ ?_
  rw [hmode] at howe
  exact (howes chan howe).elim

/-- A thread in `sleep` releases the lock of the condition, which holds. -/
theorem Safe.unlock (hmode : s.mode p = .sleep .locked chan lk next) (hheld : s.spin lk = some p) :
    Safe prog N owner cond { s.setMode p (.sleep .released chan lk next) with
      spin := update s.spin lk none } := by
  refine h.keep p (.sleep .released chan lk next) rfl (fun _ ↦ .inl) (fun _ _ _ _ ↦ id)
    (fun lk' ↦ h.spin_release hmode lk lk')
    (fun lk' q hq ↦ spin_of_ne hheld (fun heq ↦ hq (some.inj heq).symm) (some_ne_none q).symm lk')
    (h.ptable_of hmode .rfl) (fun _ _ ↦ .rfl) ?_
    (fun hsleep ↦ (h.awake hmode nofun hsleep).elim) (fun _ _ _ ↦ rfl) (fun _ hw ↦ hw.elim)
    (fun q chan' hsleep ↦ (hsleep.of_mode rfl rfl).imp_right ?_) fun chan' howe ↦ ?_
  · intro stage chan' lk' next' heq
    cases heq
    exact h.site p .locked chan lk next hmode
  · rintro ⟨lk', next', heq⟩
    cases heq
    exact h.waits_of hmode rfl
  · rw [hmode] at howe
    exact howe.elim

end Locks

/-- A thread takes `ptable.lock`, for a pass over the table or in `sleep`. -/
theorem Safe.enters (hmode : s.mode p = .run pc) (hfree : s.ptable = none) (htable : mode.inTable)
    (hholds : ∀ lk, N.modeHolds mode lk ↔ N.holds pc lk)
    (hsite : ∀ stage chan lk next, mode = .sleep stage chan lk next →
      ∃ pc, prog.code pc = .sleep chan lk next)
    (hnew : ∀ chan lk next, mode ≠ .sleep .released chan lk next)
    (hwaits : ∀ chan, N.modeWaits mode chan → N.waits pc chan)
    (howes : ∀ chan, N.owes pc chan → N.modeOwes mode chan) :
    Safe prog N owner cond { s.setMode p mode with ptable := some p } := by
  refine h.keep p mode rfl (fun _ ↦ .inl) (fun _ _ _ _ ↦ id)
    (fun lk ↦ h.spin_of hmode (hholds lk).symm) (fun _ _ _ ↦ .rfl)
    (iff_of_true rfl htable) (fun q hq ↦ takesTable hfree hq) hsite
    (fun hsleep ↦ (h.awake hmode nofun hsleep).elim) (fun _ _ _ ↦ rfl)
    (fun chan hw ↦ h.waits_of hmode (hwaits chan hw)) (fun q chan hsleep ↦ .inl ?_)
    fun chan howe hspin ↦ .inl ⟨howes chan ?_, hspin⟩
  · exact (hsleep.of_mode rfl rfl).resolve_right fun ⟨lk, next, heq⟩ ↦ hnew chan lk next heq
  · rwa [hmode] at howe

/-- A thread ends its pass over the table. -/
theorem Safe.leave (hmode : s.mode p = .table op true next) :
    Safe prog N owner cond { s.setMode p (.run next) with ptable := none } := by
  refine h.keep p (.run next) rfl (fun _ ↦ .inl) (fun _ _ _ _ ↦ id)
    (fun lk ↦ h.spin_of hmode .rfl) (fun _ _ _ ↦ .rfl) (iff_of_false nofun id)
    (fun q hq ↦ h.leavesTable hmode trivial hq) nofun
    (fun hsleep ↦ (h.awake hmode nofun hsleep).elim) (fun _ _ _ ↦ rfl)
    (fun chan hw ↦ h.waits_of hmode hw)
    (fun q chan hsleep ↦ .inl ((hsleep.of_mode rfl rfl).resolve_right nofun))
    fun chan howe hspin ↦ .inl ⟨?_, hspin⟩
  rw [hmode] at howe
  cases op <;> exact howe

/-- `wakeup` or `kill` passes over the table. -/
theorem Safe.pass [DecidableEq C] (hmode : s.mode p = .table op false next) : Safe prog N owner cond
      { s.setMode p (.table op true next) with proc := op.apply s.proc } := by
  have hheld : s.ptable = some p := (h.ptable_of hmode .rfl).mpr trivial
  -- while this thread holds `ptable.lock`, nobody is on the way to sleep
  have hasleep : ∀ q chan, SleepsOn
      { s.setMode p (.table op true next) with proc := op.apply s.proc } q chan →
      ((s.proc q).state = .sleeping ∧ (s.proc q).chan = some chan) ∧
        ∀ woken, op = .wakeup woken → chan ≠ woken := by
    rintro q chan (⟨hsleep, hchan⟩ | ⟨lk, next', hq⟩)
    · change (op.apply s.proc q).state = .sleeping at hsleep
      change (op.apply s.proc q).chan = some chan at hchan
      obtain ⟨heq, hne⟩ := apply_sleeping hsleep
      rw [heq] at hsleep hchan
      refine ⟨⟨hsleep, hchan⟩, fun woken hop hcw ↦ hne woken hop ?_⟩
      rw [hchan, hcw]
    · by_cases hqp : q = p
      · simp only [State.setMode, hqp, update_self] at hq
        cases hq
      · simp only [State.setMode, update_of_ne hqp] at hq
        have hother := (h.ptable_of hq .rfl).mpr trivial
        rw [hheld] at hother
        exact (hqp (some.inj hother).symm).elim
  refine h.keep p (.table op true next) rfl (fun _ ↦ .inl) (fun _ _ _ _ ↦ id)
    (fun lk ↦ h.spin_of hmode .rfl) (fun _ _ _ ↦ .rfl) (iff_of_true hheld trivial)
    (fun _ _ ↦ .rfl) nofun (fun hsleep ↦ ?_) (fun q _ hsleep ↦ (apply_sleeping hsleep).1)
    (fun chan hw ↦ h.waits_of hmode hw) (fun q chan hsleep ↦ .inl (.inl (hasleep q chan hsleep).1))
    fun chan howe hspin ↦ ?_
  · change (op.apply s.proc p).state = .sleeping at hsleep
    rw [(apply_sleeping hsleep).1] at hsleep
    exact (h.awake hmode nofun hsleep).elim
  · rw [hmode] at howe
    cases op with
    | wakeup =>
      rcases howe with rfl | howe
      · exact .inr fun q hsleep ↦ (hasleep q chan hsleep).2 chan rfl rfl
      · exact .inl ⟨howe, hspin⟩
    | kill => exact .inl ⟨howe, hspin⟩

/-- A process becomes `SLEEPING`, and the scheduler gives `ptable.lock` back. -/
theorem Safe.sched (hmode : s.mode p = .sleep .released chan lk next) :
    Safe prog N owner cond { s.setMode p (.sleep .asleep chan lk next) with
      proc := update s.proc p { s.proc p with chan := some chan, state := .sleeping }
      ptable := none } := by
  refine h.keep p (.sleep .asleep chan lk next) rfl (fun _ ↦ .inl) (fun _ _ _ _ ↦ id)
    (fun lk ↦ h.spin_of hmode .rfl) (fun _ _ _ ↦ .rfl) (iff_of_false nofun id)
    (fun q hq ↦ h.leavesTable hmode trivial hq) ?_ (fun _ ↦ ⟨chan, lk, next, rfl, by simp⟩)
    (fun q hq _ ↦ update_of_ne hq _ _) (fun _ hw ↦ hw.elim) (fun q chan' hsleep ↦ .inl ?_)
    fun chan' howe ↦ ?_
  · intro stage chan' lk' next' heq
    cases heq
    exact h.site p .released chan lk next hmode
  · rcases hsleep.of_update rfl rfl with hold | ⟨rfl, ⟨-, hchan⟩ | ⟨lk', next', heq⟩⟩
    · exact hold
    · cases hchan
      exact .inr ⟨lk, next, hmode⟩
    · cases heq
  · rw [hmode] at howe
    exact howe.elim

/-- A process that is not `SLEEPING` goes from one stage of `sleep` to the next, without a spin lock
in either. -/
theorem Safe.wakes {before after : Stage} {proc : Proc C} {ptable : Option Slot}
    (hmode : s.mode p = .sleep before chan lk next) (hbefore : before ≠ .locked)
    (hafter : after = .resumed ∨ after = .relock) (hproc : proc.state ≠ .sleeping)
    (hptable : ptable = some p ↔ after = .resumed)
    (hptables : ∀ q, q ≠ p → (ptable = some q ↔ s.ptable = some q)) :
    Safe prog N owner cond { s.setMode p (.sleep after chan lk next) with
      proc := update s.proc p proc, ptable := ptable } := by
  have hholds : ∀ lk', N.modeHolds (.sleep before chan lk next) lk' ↔
      N.modeHolds (.sleep after chan lk next) lk' := by
    intro lk'
    cases before with
    | locked => exact (hbefore rfl).elim
    | _ => rcases hafter with rfl | rfl <;> exact .rfl
  refine h.keep p (.sleep after chan lk next) rfl (fun _ ↦ .inl) (fun _ _ _ _ ↦ id)
    (fun lk' ↦ h.spin_of hmode (hholds lk')) (fun _ _ _ ↦ .rfl) (hptable.trans ?_)
    hptables ?_ (fun hsleep ↦ ?_) (fun q hq _ ↦ update_of_ne hq _ _) (fun chan' hw ↦ ?_)
    (fun q chan' hsleep ↦ .inl ((hsleep.of_update rfl rfl).resolve_right ?_)) fun chan' howe ↦ ?_
  · rcases hafter with rfl | rfl <;> simp [Mode.inTable]
  · intro stage chan' lk' next' heq
    cases heq
    exact h.site p before chan lk next hmode
  · simp only [update_self] at hsleep
    exact (hproc hsleep).elim
  · rcases hafter with rfl | rfl <;> exact hw.elim
  · rintro ⟨-, hasleep | ⟨lk', next', heq⟩⟩
    · exact hproc hasleep.1
    · rcases hafter with rfl | rfl <;> cases heq
  · rw [hmode] at howe
    exact howe.elim

/-- A thread that is about to sleep holds the lock of the condition. -/
theorem Safe.holds_of_waits (hdisc : Discipline prog N owner cond Known)
    (hw : N.modeWaits (s.mode q) chan) : s.spin (owner chan) = some q := by
  rw [h.spin]
  cases hmode : s.mode q with rw [hmode] at hw
  | run pc =>
    exact hdisc.waits_holds pc chan hw
  | table op done next =>
    exact hdisc.waits_holds next chan hw
  | sleep stage onChan lk next =>
    cases stage with
    | locked =>
      cases hw
      obtain ⟨pc, hcode⟩ := h.site q .locked chan lk next hmode
      obtain ⟨-, hwait, hholds, -⟩ := hdisc.sleep pc chan lk next hcode
      exact (hholds _).mpr (hdisc.waits_holds pc chan hwait)
    | _ => exact hw.elim

/-- A thread accesses the data. -/
theorem Safe.access (hdisc : Discipline prog N owner cond Known)
    {f : Int32 → Bool → D → Except π (D × PC)} {data : D} (hknown : Known s p)
    (hmode : s.mode p = .run pc) (hcode : prog.code pc = .access f)
    (hf : f (s.proc p).pid (s.proc p).killed s.data = .ok (data, next)) :
    Safe prog N owner cond { s.setMode p (.run next) with data := data } := by
  obtain ⟨hholds, hcond, howes, hwaits⟩ := hdisc.access s p pc f data next hknown hmode hcode hf
  have hold : ∀ {q chan}, SleepsOn { s.setMode p (.run next) with data := data } q chan →
      SleepsOn s q chan := fun hsleep ↦ (hsleep.of_mode rfl rfl).resolve_right nofun
  refine h.keep p (.run next) rfl
    (fun chan hc ↦ (hcond chan hc).imp_right (.imp_left (h.spin_of hmode .rfl).mpr))
    (fun q chan hqp hw hc ↦ (hcond chan hc).resolve_right fun hown ↦ hqp ?_)
    (fun lk ↦ h.spin_of hmode (hholds lk).symm) (fun _ _ _ ↦ .rfl) (h.ptable_of hmode .rfl)
    (fun _ _ ↦ .rfl) nofun (fun hsleep ↦ (h.awake hmode nofun hsleep).elim) (fun _ _ _ ↦ rfl)
    hwaits (fun q chan hsleep ↦ .inl (hold hsleep)) fun chan howe hspin ↦ ?_
  · have hholder := (h.holds_of_waits hdisc hw).symm.trans ((h.spin_of hmode .rfl).mpr hown.1)
    exact some.inj hholder
  · rw [hmode] at howe
    exact (howes chan howe).imp (fun hnew ↦ ⟨hnew, hspin⟩) fun hnone q hsleep ↦
      hnone q (hold hsleep)

end

/-- Every step of a program with the discipline loses no wakeup. -/
theorem Safe.move [DecidableEq L] [DecidableEq C] {e : Event Call}
    (hdisc : Discipline prog N owner cond Known) (h : Safe prog N owner cond s)
    (hknown : ∀ p, e = .step p → Known s p) (hmove : Move prog s e t) :
    Safe prog N owner cond t := by
  cases hmove with
  | call p call pc next hmode hstart =>
    obtain ⟨hholds, howes, hwaits⟩ := hdisc.call pc call next hstart
    exact h.call hmode hholds howes hwaits
  | acquire p pc lk next hmode hcode hfree =>
    obtain ⟨hholds, howes, hwaits⟩ := hdisc.acquire pc lk next hcode
    exact h.takes hmode hfree id nofun hholds howes hwaits
  | release p pc lk next hmode hcode hheld =>
    obtain ⟨hholds, howes, hwaits⟩ := hdisc.release pc lk next hcode
    exact h.release hmode hheld hholds howes hwaits
  | access p pc f data next hmode hcode hf => exact h.access hdisc (hknown p rfl) hmode hcode hf
  | enter p pc op next hmode hcode hfree =>
    cases op with
    | wakeup chan =>
      obtain ⟨hholds, howes, hwaits⟩ := hdisc.wakeup pc chan next hcode
      exact h.enters hmode hfree trivial hholds nofun nofun hwaits howes
    | kill pid =>
      obtain ⟨hholds, howes, hwaits⟩ := hdisc.kill pc pid next hcode
      exact h.enters hmode hfree trivial hholds nofun nofun hwaits howes
  | pass p op next hmode => exact h.pass hmode
  | leave p op next hmode => exact h.leave hmode
  | sleep p pc chan lk next hmode hcode hfree =>
    obtain ⟨-, hwait, hholds, howes, -⟩ := hdisc.sleep pc chan lk next hcode
    refine h.enters hmode hfree trivial hholds ?_ nofun ?_ fun chan howe ↦ (howes chan howe).elim
    · intro stage chan' lk' next' heq
      cases heq
      exact ⟨pc, hcode⟩
    · rintro chan' rfl
      exact hwait
  | unlock p chan lk next hmode hheld => exact h.unlock hmode hheld
  | sched p chan lk next hmode => exact h.sched hmode
  | schedule p chan lk next hmode hrunnable hfree =>
    exact h.wakes hmode nofun (.inl rfl) nofun (by simp) fun q hq ↦ takesTable hfree hq
  | resume p chan lk next hmode =>
    exact h.wakes hmode nofun (.inr rfl) (h.awake hmode nofun) (by simp) fun q hq ↦
      h.leavesTable hmode trivial hq
  | relock p chan lk next hmode hfree =>
    obtain ⟨pc, hcode⟩ := h.site p .relock chan lk next hmode
    obtain ⟨rfl, hwait, hholds, -, hwaits⟩ := hdisc.sleep pc chan lk next hcode
    refine h.takes hmode hfree id nofun (fun lk' ↦ ?_) (fun _ ↦ id) hwaits
    by_cases heq : lk' = owner chan
    · rw [heq, hholds]
      exact iff_of_true (hdisc.waits_holds pc chan hwait) (.inl rfl)
    · simp [Notes.modeHolds, heq]

end Safe

/-! ### Sleepers are not killed -/

/-- What the code must keep to where it tests `killed`. It calls `sleep` in one of the functions in
question only at a position that it reaches with `killed` found clear. -/
structure Tests (prog : Program L C D PC π Call) (inside tested : PC → Prop) : Prop where
  call : ∀ pc call next, prog.start pc call = some next → ¬ tested next
  flows : ∀ pc next, Flows prog pc next → tested next → tested pc
  sleep : ∀ pc chan lk next, prog.code pc = .sleep chan lk next → inside next → tested pc
  woken : ∀ pc chan lk next, prog.code pc = .sleep chan lk next → ¬ tested next

/-- The thread has found `killed` clear and has not yet become `SLEEPING`. -/
def Mode.tested (inside tested : PC → Prop) : Mode L C PC → Prop
  | .run pc => tested pc
  | .table _ _ next => tested next
  | .sleep .locked _ _ next | .sleep .released _ _ next => inside next
  | .sleep _ _ _ _ => False

instance (inside tested : PC → Prop) [DecidablePred inside] [DecidablePred tested] :
    (mode : Mode L C PC) → Decidable (mode.tested inside tested)
  | .run pc => inferInstanceAs (Decidable (tested pc))
  | .table _ _ next => inferInstanceAs (Decidable (tested next))
  | .sleep .locked _ _ next => inferInstanceAs (Decidable (inside next))
  | .sleep .released _ _ next => inferInstanceAs (Decidable (inside next))
  | .sleep .asleep _ _ _ | .sleep .resumed _ _ _ | .sleep .relock _ _ _ => .isFalse id

/-- Who has found `killed` clear or sleeps in one of the functions is not killed. -/
structure Unkilled (inside tested : PC → Prop) (s : State L C D PC) : Prop where
  clear : ∀ p, (s.mode p).tested inside tested → (s.proc p).killed = false
  asleep : ∀ p, (s.proc p).state = .sleeping → inside (s.mode p).pc → (s.proc p).killed = false
  /-- Only a call of `sleep` makes a process `SLEEPING`. -/
  sleeping : ∀ p, (s.proc p).state = .sleeping →
    ∃ chan lk next, s.mode p = .sleep .asleep chan lk next
  /-- A call of `sleep` returns to the test. -/
  woken : ∀ p stage chan lk next, s.mode p = .sleep stage chan lk next → ¬ tested next

/-- Nobody is killed who has found `killed` clear and has not yet become `SLEEPING`. -/
def NotBetween (inside tested : PC → Prop) (s : State L C D PC) (p : Slot) : Prop :=
  ∀ pid next q, s.mode p = .table (.kill pid) false next → findPid s.proc pid = some q →
    ¬ (s.mode q).tested inside tested

/-- An access after which `killed` counts as found clear is made by a process that is not killed. -/
def FindsClear (prog : Program L C D PC π Call) (tested : PC → Prop) (s : State L C D PC)
    (p : Slot) : Prop :=
  ∀ pc f data next, s.mode p = .run pc → prog.code pc = .access f →
    f (s.proc p).pid (s.proc p).killed s.data = .ok (data, next) → tested next →
      (s.proc p).killed = false

section Unkilled

variable {prog : Program L C D PC π Call} {inside tested : PC → Prop} {s t : State L C D PC}

section

variable (h : Unkilled inside tested s)

include h

/-- A process that is not in `sched` is not `SLEEPING`. -/
theorem Unkilled.awake {p : Slot} (hmode : ∀ chan lk next, s.mode p ≠ .sleep .asleep chan lk next) :
    (s.proc p).state ≠ .sleeping := by
  intro hsleep
  obtain ⟨chan, lk, next, heq⟩ := h.sleeping p hsleep
  exact hmode chan lk next heq

theorem Unkilled.clear_of {p : Slot} {mode : Mode L C PC} (hmode : s.mode p = mode)
    (htest : mode.tested inside tested) : (s.proc p).killed = false :=
  h.clear p (hmode ▸ htest)

/-- One thread takes a step that sets no `killed` flag of a process that has found it clear or
sleeps, and puts no other process to sleep. -/
theorem Unkilled.keep (p : Slot) (mode : Mode L C PC) (hmode : t.mode = update s.mode p mode)
    (hkilled : ∀ q, (t.proc q).killed = (s.proc q).killed ∨
      ¬ (t.mode q).tested inside tested ∧ (t.proc q).state ≠ .sleeping)
    (hself : mode.tested inside tested → (s.proc p).killed = false)
    (hwoken : ∀ stage chan lk next, mode = .sleep stage chan lk next → ¬ tested next)
    (hothers : ∀ q, q ≠ p → (t.proc q).state = .sleeping → (s.proc q).state = .sleeping)
    (hasleep : (t.proc p).state = .sleeping → (∃ chan lk next, mode = .sleep .asleep chan lk next) ∧
      (inside mode.pc → (s.proc p).killed = false)) : Unkilled inside tested t := by
  have hp : t.mode p = mode := by rw [hmode, update_self]
  have hne : ∀ {q}, q ≠ p → t.mode q = s.mode q := fun hq ↦ by
    rw [hmode, update_of_ne hq]
  constructor
  · intro q hq
    rw [(hkilled q).resolve_right fun hnot ↦ hnot.1 hq]
    by_cases hqp : q = p
    · rw [hqp, hp] at hq
      rw [hqp]
      exact hself hq
    · rw [hne hqp] at hq
      exact h.clear q hq
  · intro q hsleep hinside
    rw [(hkilled q).resolve_right fun hnot ↦ hnot.2 hsleep]
    by_cases hqp : q = p
    · rw [hqp] at hsleep hinside ⊢
      rw [hp] at hinside
      exact (hasleep hsleep).2 hinside
    · rw [hne hqp] at hinside
      exact h.asleep q (hothers q hqp hsleep) hinside
  · intro q hsleep
    by_cases hqp : q = p
    · rw [hqp] at hsleep ⊢
      rw [hp]
      exact (hasleep hsleep).1
    · rw [hne hqp]
      exact h.sleeping q (hothers q hqp hsleep)
  · intro q stage chan lk next hq
    by_cases hqp : q = p
    · rw [hqp, hp] at hq
      exact hwoken stage chan lk next hq
    · rw [hne hqp] at hq
      exact h.woken q stage chan lk next hq

/-- One thread takes a step that leaves the process table alone. -/
theorem Unkilled.run (p : Slot) (mode : Mode L C PC)
    (hmode : t.mode = update s.mode p mode) (hproc : t.proc = s.proc)
    (hbefore : ∀ chan lk next, s.mode p ≠ .sleep .asleep chan lk next)
    (hself : mode.tested inside tested → (s.proc p).killed = false)
    (hwoken : ∀ stage chan lk next, mode = .sleep stage chan lk next → ¬ tested next) :
    Unkilled inside tested t := by
  refine h.keep p mode hmode (fun q ↦ .inl (by rw [hproc])) hself hwoken (fun q _ hq ↦ ?_)
    fun hp ↦ ?_
  · rwa [hproc] at hq
  · rw [hproc] at hp
    exact (h.awake hbefore hp).elim

/-- `wakeup` or `kill` passes over the table, and marks no process that has found `killed` clear. -/
theorem Unkilled.pass [DecidableEq C] {p : Slot} {op : Op C} {next : PC}
    (hmode : s.mode p = .table op false next)
    (hbetween : ∀ pid q, op = .kill pid → findPid s.proc pid = some q →
      ¬ (s.mode q).tested inside tested) : Unkilled inside tested
      { s.setMode p (.table op true next) with proc := op.apply s.proc } := by
  have hsame : ∀ {q}, (op.apply s.proc q).state = .sleeping → (s.proc q).state = .sleeping :=
    fun hsleep ↦ (apply_sleeping hsleep).1 ▸ hsleep
  refine h.keep p (.table op true next) rfl (fun q ↦ ?_) (fun htest ↦ h.clear_of hmode htest) nofun
    (fun q _ ↦ hsame) fun hsleep ↦ (h.awake (by simp [hmode]) (hsame hsleep)).elim
  cases op with
  | wakeup =>
    simp only [Op.apply, wakeup1]
    split_ifs <;> exact .inl rfl
  | kill pid =>
    simp only [Op.apply, kill]
    cases hfind : findPid s.proc pid with
    | none => exact .inl rfl
    | some target =>
      by_cases hq : q = target
      · refine .inr ⟨fun htest ↦ hbetween pid target rfl hfind ?_, ?_⟩
        · rw [← hq]
          by_cases hqp : q = p
          · rw [hqp, hmode]
            simp only [State.setMode, hqp, update_self] at htest
            exact htest
          · simpa [State.setMode, hqp] using htest
        · simp only [hq, update_self]
          split_ifs with hsleep
          · exact nofun
          · exact hsleep
      · simp only [update_of_ne hq, true_or]

end

/-- Every step keeps the sleepers unkilled, unless it kills a process between its test and `sleep`,
or finds `killed` clear where it is not. -/
theorem Unkilled.move [DecidableEq L] [DecidableEq C] {e : Event Call}
    (htests : Tests prog inside tested) (h : Unkilled inside tested s)
    (hbetween : ∀ p, e = .step p → NotBetween inside tested s p)
    (hclear : ∀ p, e = .step p → FindsClear prog tested s p) (hmove : Move prog s e t) :
    Unkilled inside tested t := by
  have hwoken : ∀ {p stage after chan lk next}, s.mode p = .sleep stage chan lk next →
      ∀ stage' chan' lk' next', Mode.sleep after chan lk next = .sleep stage' chan' lk' next' →
        ¬ tested next' := by
    intro p stage after chan lk next hmode stage' chan' lk' next' heq
    cases heq
    exact h.woken p stage chan lk next hmode
  have hupdate : ∀ {p q : Slot} {proc : Proc C}, q ≠ p →
      (update s.proc p proc q).state = .sleeping → (s.proc q).state = .sleeping := by
    intro p q proc hq hsleep
    rwa [update_of_ne hq] at hsleep
  have hkilled : ∀ {p : Slot} {proc : Proc C} {unset : Slot → Prop},
      proc.killed = (s.proc p).killed → ∀ q,
      (update s.proc p proc q).killed = (s.proc q).killed ∨ unset q := by
    intro p proc unset heq q
    rw [update_apply]
    split_ifs with hqp
    · exact .inl (by rw [hqp, heq])
    · exact .inl rfl
  cases hmove with
  | call p call pc next hmode hstart =>
    exact h.run p (.run next) rfl rfl (by simp [hmode])
      (fun htest ↦ (htests.call pc call next hstart htest).elim) nofun
  | acquire p pc lk next hmode hcode =>
    exact h.run p (.run next) rfl rfl (by simp [hmode])
      (fun htest ↦ h.clear_of hmode (htests.flows pc next (.acquire hcode) htest)) nofun
  | release p pc lk next hmode hcode =>
    exact h.run p (.run next) rfl rfl (by simp [hmode])
      (fun htest ↦ h.clear_of hmode (htests.flows pc next (.release hcode) htest)) nofun
  | access p pc f data next hmode hcode hf =>
    exact h.run p (.run next) rfl rfl (by simp [hmode])
      (hclear p rfl pc f data next hmode hcode hf) nofun
  | enter p pc op next hmode hcode =>
    exact h.run p (.table op false next) rfl rfl (by simp [hmode])
      (fun htest ↦ h.clear_of hmode (htests.flows pc next (.table hcode) htest)) nofun
  | pass p op next hmode =>
    refine h.pass hmode fun pid q hop hq ↦ ?_
    cases hop
    exact hbetween p rfl pid next q hmode hq
  | leave p op next hmode =>
    exact h.run p (.run next) rfl rfl (by simp [hmode]) (fun htest ↦ h.clear_of hmode htest) nofun
  | sleep p pc chan lk next hmode hcode =>
    refine h.run p (.sleep .locked chan lk next) rfl rfl (by simp [hmode])
      (fun hinside ↦ h.clear_of hmode (htests.sleep pc chan lk next hcode hinside)) ?_
    intro stage chan' lk' next' heq
    cases heq
    exact htests.woken pc chan lk next hcode
  | unlock p chan lk next hmode =>
    exact h.run p (.sleep .released chan lk next) rfl rfl (by simp [hmode])
      (fun hinside ↦ h.clear_of hmode hinside) (hwoken hmode)
  | sched p chan lk next hmode =>
    exact h.keep p (.sleep .asleep chan lk next) rfl (hkilled rfl) nofun (hwoken hmode)
      (fun q ↦ hupdate) fun _ ↦ ⟨⟨chan, lk, next, rfl⟩, h.clear_of hmode⟩
  | schedule p chan lk next hmode =>
    refine h.keep p (.sleep .resumed chan lk next) rfl (hkilled rfl) nofun (hwoken hmode)
      (fun q ↦ hupdate) fun hsleep ↦ ?_
    simp only [update_self, reduceCtorEq] at hsleep
  | resume p chan lk next hmode =>
    refine h.keep p (.sleep .relock chan lk next) rfl (hkilled rfl) nofun (hwoken hmode)
      (fun q ↦ hupdate) fun hsleep ↦ ?_
    simp only [update_self] at hsleep
    exact (h.awake (by simp [hmode]) hsleep).elim
  | relock p chan lk next hmode =>
    exact h.run p (.run next) rfl rfl (by simp [hmode])
      (fun htest ↦ (h.woken p .relock chan lk next hmode htest).elim) nofun

end Unkilled

end EasyKernels.Xv6.SleepWakeup
