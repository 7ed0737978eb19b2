import Mathlib.Data.Finset.Card
import EasyKernels.Xv6.ProcessTree

/-!
# `exit` and `wait`

`exitWait` collects what holds along every run of `fork`, `exit`, `wait` and `kill` by any
processes. The first two parts are read off the `Tree`. For the third, `Heard` relates the history
to the table: a process exits at most once, and the number of reports of a process together with
the number of zombies that it is equals the number of its exits. So a process that exited is a
zombie until one `wait` reports it. That `wait` is called by the parent it had when it exited, or
by init after that parent exited as well.

`waited` is the result of the turn of the loop of `wait` that a step runs, if it runs one.
-/

set_option autoImplicit false

namespace EasyKernels.Xv6.Processes

open Nat List Option Finset Lib.Runs

/-! ### Exits, zombies and reports -/

/-- The record of an exit of the process. -/
def Record.exits (k : ℕ) : Record → Bool
  | .exited child _ _ => child = k
  | _ => false

/-- The record of a report of the process. -/
def Record.reports (k : ℕ) : Record → Bool
  | .reported child _ _ => child = k
  | _ => false

/-- How often the process is seen to exit. -/
def exitCount (h : List Record) (k : ℕ) : ℕ := h.countP (Record.exits k)

/-- How often a `wait` is seen to report the process. -/
def reportCount (h : List Record) (k : ℕ) : ℕ := h.countP (Record.reports k)

/-- The slots in which the process is a zombie. -/
def zombies (s : State) (k : ℕ) : Finset Slot := {p | (s.proc p).state = .zombie ∧ s.serial p = k}

/-- The parent that a process had when it exited is the given one, or has exited and the given one
is init. -/
def Inherits (h : List Record) (s : State) (parent : Option ℕ) (q : ℕ) : Prop :=
  parent = some q ∨
    (∃ i, s.initproc = some i ∧ s.serial i = q) ∧ ∃ k, parent = some k ∧ 0 < exitCount h k

/-- What a history says about exits. -/
structure Heard (h : List Record) (s : State) : Prop where
  serial_lt : ∀ p, (s.proc p).state ≠ .unused → s.serial p < s.allocs
  serial_inj : ∀ p q, (s.proc p).state ≠ .unused → (s.proc q).state ≠ .unused →
    s.serial p = s.serial q → p = q
  /-- No process has exited that `allocproc` has not made. -/
  fresh : ∀ k, s.allocs ≤ k → exitCount h k = 0
  /-- No process has exited that is in the table and is not a zombie. -/
  unexited : ∀ p, (s.proc p).state ≠ .unused → (s.proc p).state ≠ .zombie →
    exitCount h (s.serial p) = 0
  once : ∀ k, exitCount h k ≤ 1
  balance : ∀ k, reportCount h k + #(zombies s k) = exitCount h k
  zombie : ∀ c q, (s.proc c).state = .zombie → (s.proc c).parent = some q →
    ∃ parent, .exited (s.serial c) (s.proc c).pid parent ∈ h ∧ Inherits h s parent (s.serial q)
  reported : ∀ k pid caller, .reported k pid caller ∈ h →
    ∃ parent, .exited k pid parent ∈ h ∧ Inherits h s parent caller

theorem exitCount_append (h more : List Record) (k : ℕ) :
    exitCount (h ++ more) k = exitCount h k + exitCount more k :=
  countP_append

theorem reportCount_append (h more : List Record) (k : ℕ) :
    reportCount (h ++ more) k = reportCount h k + reportCount more k :=
  countP_append

variable {h more : List Record} {s t : State} {p : Slot}

/-- What is inherited once is inherited when more is seen. -/
theorem Inherits.mono {parent : Option ℕ} {q : ℕ} (hinherits : Inherits h s parent q)
    (hinit : t.initproc = s.initproc)
    (hserial : ∀ i, s.initproc = some i → t.serial i = s.serial i) :
    Inherits (h ++ more) t parent q := by
  rcases hinherits with hparent | ⟨⟨i, hi, hq⟩, k, hk, hexited⟩
  · exact .inl hparent
  · refine .inr ⟨⟨i, hinit.trans hi, (hserial i hi).trans hq⟩, k, hk, ?_⟩
    rw [exitCount_append]
    exact Nat.add_pos_left hexited _

/-- The record is neither of an exit nor of a report. -/
def Record.silent : Record → Bool
  | .allocated _ _ | .kill _ => true
  | _ => false

section

variable (hmore : ∀ r ∈ more, r.silent = true)

include hmore

theorem counts_of_silent (k : ℕ) : exitCount more k = 0 ∧ reportCount more k = 0 := by
  constructor
  all_goals
    refine countP_eq_zero.mpr fun r hr ↦ ?_
    have hsilent := hmore r hr
    cases r with
    | allocated | kill => exact nofun
    | exited | reported => cases hsilent

theorem counts_append_silent (k : ℕ) :
    exitCount (h ++ more) k = exitCount h k ∧ reportCount (h ++ more) k = reportCount h k := by
  obtain ⟨hexit, hreport⟩ := counts_of_silent hmore k
  rw [exitCount_append, reportCount_append, hexit, hreport]
  exact ⟨rfl, rfl⟩

theorem not_reported_of_silent (k : ℕ) (pid : Int32) (caller : ℕ) : .reported k pid caller ∉ more :=
  fun hmem ↦ nomatch hmore _ hmem

end

/-- A step makes no zombie and removes none, and fills no slot. -/
structure Quiet (s t : State) : Prop where
  initproc : t.initproc = s.initproc
  serial : t.serial = s.serial
  allocs : t.allocs = s.allocs
  used : ∀ p, (t.proc p).state ≠ .unused → (s.proc p).state ≠ .unused
  zombie : ∀ p, (t.proc p).state = .zombie ↔ (s.proc p).state = .zombie
  kept : ∀ p, (s.proc p).state = .zombie →
    (t.proc p).pid = (s.proc p).pid ∧ (t.proc p).parent = (s.proc p).parent

theorem Quiet.refl (s : State) : Quiet s s :=
  ⟨rfl, rfl, rfl, fun _ ↦ id, fun _ ↦ .rfl, fun _ _ ↦ ⟨rfl, rfl⟩⟩

theorem Quiet.trans {u : State} (h : Quiet s t) (h' : Quiet t u) : Quiet s u where
  initproc := h'.initproc.trans h.initproc
  serial := h'.serial.trans h.serial
  allocs := h'.allocs.trans h.allocs
  used p := h.used p ∘ h'.used p
  zombie p := (h'.zombie p).trans (h.zombie p)
  kept p hp := by
    obtain ⟨hpid, hparent⟩ := h.kept p hp
    obtain ⟨hpid', hparent'⟩ := h'.kept p ((h.zombie p).mpr hp)
    exact ⟨hpid'.trans hpid, hparent'.trans hparent⟩

theorem Quiet.setPos (h : Quiet s t) (p : Slot) (pos : Pos) : Quiet s (t.setPos p pos) :=
  ⟨h.initproc, h.serial, h.allocs, h.used, h.zombie, h.kept⟩

/-- One slot in use changes, and neither was nor is a zombie. -/
theorem quiet_setProc {q : Slot} {proc : Proc}
    (hbefore : (s.proc q).state ≠ .unused ∧ (s.proc q).state ≠ .zombie)
    (hafter : proc.state ≠ .zombie) : Quiet s (s.setProc q proc) := by
  refine ⟨rfl, rfl, rfl, fun p ↦ ?_, fun p ↦ ?_, fun p hp ↦ ?_⟩
  · rw [proc_setProc]
    split_ifs with hpq
    · exact fun _ ↦ hpq ▸ hbefore.1
    · exact id
  · rw [proc_setProc]
    split_ifs with hpq
    · exact iff_of_false hafter (hpq ▸ hbefore.2)
    · exact .rfl
  · rw [proc_setProc, if_neg fun hpq : p = q ↦ hbefore.2 (hpq ▸ hp)]
    exact ⟨rfl, rfl⟩

theorem quiet_wakeup1 (s : State) (chan : Option Chan) : Quiet s (wakeup1 s chan) := by
  refine ⟨rfl, rfl, rfl, fun p ↦ ?_, fun p ↦ ?_, fun p hp ↦ ?_⟩
  all_goals
    simp only [wakeup1]
    split_ifs with hwake
    · simp_all
    · simp

theorem quiet_kill (s : State) (p : Slot) : Quiet s (s.setProc p (s.proc p).kill) := by
  refine ⟨rfl, rfl, rfl, fun q ↦ ?_, fun q ↦ ?_, fun q hq ↦ ?_⟩
  all_goals
    rw [proc_setProc]
    split_ifs with hqp
    · subst hqp
      by_cases hsleep : (s.proc q).state = .sleeping <;> simp_all [Proc.kill]
    · simp

/-- One more slot holds a zombie. -/
theorem card_zombies {c : Slot} (hserial : t.serial = s.serial)
    (hothers : ∀ q, q ≠ c → (t.proc q).state = (s.proc q).state)
    (hbefore : (s.proc c).state ≠ .zombie) (hafter : (t.proc c).state = .zombie) (k : ℕ) :
    #(zombies t k) = #(zombies s k) + if s.serial c = k then 1 else 0 := by
  have hmem : ∀ q, q ≠ c → (q ∈ zombies t k ↔ q ∈ zombies s k) := fun q hq ↦ by
    simp [zombies, hothers q hq, hserial]
  have hnot : c ∉ zombies s k := by simp [zombies, hbefore]
  split_ifs with hk
  · rw [← card_insert_of_notMem hnot]
    congr 1
    ext q
    by_cases hq : q = c
    · simp [zombies, hq, hafter, hserial, hk]
    · simp [hq, hmem q hq]
  · rw [add_zero]
    congr 1
    ext q
    by_cases hq : q = c
    · simp [zombies, hq, hserial, hk]
    · exact hmem q hq

section

variable (hs : Heard h s)

include hs

/-- A step that fills no slot, in which the process `d` exits, if there is one. -/
theorem Heard.keeps (d : Option Slot) (hinit : t.initproc = s.initproc)
    (hserial : t.serial = s.serial) (hallocs : t.allocs = s.allocs)
    (hused : ∀ p, (t.proc p).state ≠ .unused → (s.proc p).state ≠ .unused)
    (hd : ∀ p ∈ d, (s.proc p).state = .running ∧ (t.proc p).state = .zombie)
    (hold : ∀ p, (s.proc p).state = .zombie → (t.proc p).state ≠ .unused →
      (t.proc p).state = .zombie)
    (hexit : ∀ k, exitCount more k = if d.map s.serial = some k then 1 else 0)
    (hbalance : ∀ k, reportCount more k + #(zombies t k) = #(zombies s k) + exitCount more k)
    (hzombie : ∀ c q, (t.proc c).state = .zombie → (t.proc c).parent = some q →
      ((s.proc c).state = .zombie ∧ (t.proc c).pid = (s.proc c).pid ∧
        (s.proc c).parent = some q) ∨
      ∃ parent, .exited (s.serial c) (t.proc c).pid parent ∈ h ++ more ∧
        Inherits (h ++ more) t parent (s.serial q))
    (hreported : ∀ k pid caller, .reported k pid caller ∈ more →
      ∃ parent, .exited k pid parent ∈ h ∧ Inherits h s parent caller) : Heard (h ++ more) t := by
  have hrunning : ∀ {p}, p ∈ d → (s.proc p).state ≠ .unused ∧ (s.proc p).state ≠ .zombie :=
    fun hp ↦ by simp [(hd _ hp).1]
  have hinherits : ∀ {parent q}, Inherits h s parent q → Inherits (h ++ more) t parent q :=
    fun hi ↦ hi.mono hinit fun i _ ↦ by rw [hserial]
  constructor
  · intro p hp
    rw [hserial, hallocs]
    exact hs.serial_lt p (hused p hp)
  · intro p q hp hq heq
    rw [hserial] at heq
    exact hs.serial_inj p q (hused p hp) (hused q hq) heq
  · intro k hk
    rw [exitCount_append, hs.fresh k (hallocs ▸ hk), hexit, if_neg]
    intro heq
    obtain ⟨p, hp, rfl⟩ := map_eq_some_iff.mp heq
    have hlt := hs.serial_lt p (hrunning hp).1
    omega
  · intro p hp hnot
    rw [exitCount_append, hserial, hs.unexited p (hused p hp) fun hz ↦ hnot (hold p hz hp), hexit,
      if_neg]
    intro heq
    obtain ⟨q, hq, hqp⟩ := map_eq_some_iff.mp heq
    rw [← hs.serial_inj q p (hrunning hq).1 (hused p hp) hqp] at hnot
    exact hnot (hd q hq).2
  · intro k
    rw [exitCount_append, hexit]
    split_ifs with hk
    · obtain ⟨p, hp, rfl⟩ := map_eq_some_iff.mp hk
      rw [hs.unexited p (hrunning hp).1 (hrunning hp).2]
    · exact hs.once k
  · intro k
    rw [reportCount_append, exitCount_append, ← hs.balance k, add_assoc, hbalance, add_assoc]
  · intro c q hc hq
    rw [hserial]
    rcases hzombie c q hc hq with ⟨hc', hpid, hq'⟩ | hnew
    · obtain ⟨parent, hmem, hi⟩ := hs.zombie c q hc' hq'
      exact ⟨parent, hpid ▸ mem_append_left _ hmem, hinherits hi⟩
    · exact hnew
  · intro k pid caller hmem
    obtain ⟨parent, hexited, hi⟩ := (mem_append.mp hmem).elim (hs.reported k pid caller)
      (hreported k pid caller)
    exact ⟨parent, mem_append_left _ hexited, hinherits hi⟩

theorem Heard.quiet (hquiet : Quiet s t) (hmore : ∀ r ∈ more, r.silent = true) :
    Heard (h ++ more) t := by
  have hcounts := counts_of_silent hmore
  refine hs.keeps none hquiet.initproc hquiet.serial hquiet.allocs hquiet.used nofun
    (fun p hp _ ↦ (hquiet.zombie p).mpr hp) (fun k ↦ (hcounts k).1) (fun k ↦ ?_)
    (fun c q hc hq ↦ ?_) fun k pid caller hmem ↦ (not_reported_of_silent hmore _ _ _ hmem).elim
  · rw [(hcounts k).1, (hcounts k).2, zero_add, add_zero]
    congr 1
    ext p
    simp only [zombies, mem_filter_univ, hquiet.zombie p, hquiet.serial]
  · have hc' := (hquiet.zombie c).mp hc
    exact .inl ⟨hc', (hquiet.kept c hc').1, (hquiet.kept c hc').2 ▸ hq⟩

/-- `allocproc` fills a slot with a process of a new number. -/
theorem Heard.fill {np : Slot} (hunused : (s.proc np).state = .unused)
    (hinit : s.initproc ≠ some np) (hparent : ∀ c, (s.proc c).parent ≠ some np)
    (hmore : ∀ r ∈ more, r.silent = true) : Heard (h ++ more) (fill s np) := by
  have hexit := fun k ↦ (counts_append_silent (h := h) hmore k).1
  have hreport := fun k ↦ (counts_append_silent (h := h) hmore k).2
  have hother : ∀ {p}, p ≠ np → (Processes.fill s np).proc p = s.proc p ∧
      (Processes.fill s np).serial p = s.serial p := fun hp ↦ by
    simp [Processes.fill, State.setProc, hp]
  have hself : ((Processes.fill s np).proc np).state = .embryo ∧
      (Processes.fill s np).serial np = s.allocs := by
    simp [Processes.fill, State.setProc]
  have hinherits : ∀ {parent q}, Inherits h s parent q →
      Inherits (h ++ more) (Processes.fill s np) parent q :=
    fun hi ↦ hi.mono rfl fun i hi ↦ (hother fun heq ↦ hinit (heq ▸ hi)).2
  have hlt : ∀ {p}, p ≠ np → ((Processes.fill s np).proc p).state ≠ .unused →
      (Processes.fill s np).serial p < s.allocs := by
    intro p hp hused
    rw [(hother hp).1] at hused
    rw [(hother hp).2]
    exact hs.serial_lt p hused
  constructor
  · intro p hp
    by_cases hpnp : p = np
    · rw [hpnp, hself.2]
      exact lt_succ_self _
    · exact (hlt hpnp hp).trans (lt_succ_self _)
  · intro p q hp hq heq
    by_cases hpnp : p = np <;> by_cases hqnp : q = np
    · rw [hpnp, hqnp]
    · rw [hpnp, hself.2] at heq
      exact absurd heq.symm (hlt hqnp hq).ne
    · rw [hqnp, hself.2] at heq
      exact absurd heq (hlt hpnp hp).ne
    · rw [(hother hpnp).2, (hother hqnp).2] at heq
      rw [(hother hpnp).1] at hp
      rw [(hother hqnp).1] at hq
      exact hs.serial_inj p q hp hq heq
  · intro k hk
    rw [hexit]
    exact hs.fresh k ((le_succ _).trans hk)
  · intro p hp hzombie
    rw [hexit]
    by_cases hpnp : p = np
    · rw [hpnp, hself.2]
      exact hs.fresh _ le_rfl
    · rw [(hother hpnp).1] at hp hzombie
      rw [(hother hpnp).2]
      exact hs.unexited p hp hzombie
  · intro k
    rw [hexit]
    exact hs.once k
  · intro k
    rw [hexit, hreport, ← hs.balance k]
    congr 2
    ext p
    simp only [zombies, mem_filter_univ]
    by_cases hpnp : p = np
    · rw [hpnp, hself.1, hunused]
      simp
    · rw [(hother hpnp).1, (hother hpnp).2]
  · intro c q hc hq
    have hcnp : c ≠ np := by
      intro heq
      rw [heq, hself.1] at hc
      cases hc
    rw [(hother hcnp).1] at hc hq ⊢
    obtain ⟨parent, hmem, hi⟩ := hs.zombie c q hc hq
    rw [(hother hcnp).2, (hother fun heq ↦ hparent c (heq ▸ hq)).2]
    exact ⟨parent, mem_append_left _ hmem, hinherits hi⟩
  · intro k pid caller hmem
    obtain ⟨parent, hexited, hi⟩ := hs.reported k pid caller ((mem_append.mp hmem).resolve_right
      (not_reported_of_silent hmore k pid caller))
    exact ⟨parent, mem_append_left _ hexited, hinherits hi⟩

/-- `wait` reports a zombie and empties its slot. -/
theorem Heard.reap {c : Slot} (hzombie : (s.proc c).state = .zombie)
    (hparent : (s.proc c).parent = some p) :
    Heard (h ++ [.reported (s.serial c) (s.proc c).pid (s.serial p)])
      (s.setProc c (s.proc c).reap) := by
  have hused : ∀ {q}, ((s.setProc c (s.proc c).reap).proc q).state ≠ .unused →
      (s.setProc c (s.proc c).reap).proc q = s.proc q := by
    intro q hq
    rw [proc_setProc] at hq ⊢
    split_ifs at hq ⊢ with hqc
    · exact (hq rfl).elim
    · rfl
  refine hs.keeps none rfl rfl rfl (fun q hq ↦ hused hq ▸ hq) nofun
    (fun q hq hq' ↦ by rw [hused hq', hq]) (fun k ↦ by simp [exitCount, Record.exits])
    (fun k ↦ ?_) (fun d q hd hq ↦ .inl ?_) fun k pid caller hmem ↦ ?_
  · have hcard := card_zombies (s := s.setProc c (s.proc c).reap) (t := s) (c := c) rfl
      (fun q hq ↦ by simp [proc_setProc, hq]) (by simp [proc_setProc, Proc.reap]) hzombie k
    rw [hcard, add_comm]
    simp [reportCount, exitCount, Record.reports, Record.exits, countP_singleton]
    rfl
  · have heq := hused (q := d) (by simp [hd])
    rw [heq] at hd hq ⊢
    exact ⟨hd, rfl, hq⟩
  · obtain ⟨rfl, rfl, rfl⟩ : k = s.serial c ∧ pid = (s.proc c).pid ∧ caller = s.serial p := by
      simpa using hmem
    exact hs.zombie c p hzombie hparent

omit hs in
/-- The slots after the process has exited. -/
theorem die_proc (q : Slot) : ((reparent s p).setState p .zombie).proc q =
    { s.proc q with
      state := if q = p then .zombie else (s.proc q).state
      parent := if (s.proc q).parent = some p then s.initproc else (s.proc q).parent } := by
  rw [proc_setState]
  simp only [reparent]
  split_ifs <;> simp_all

/-- A process passes its children to init and becomes a zombie. -/
theorem Heard.die (hrunning : (s.proc p).state = .running) (hne : (s.proc p).parent ≠ some p) :
    Heard (h ++ [.exited (s.serial p) (s.proc p).pid ((s.proc p).parent.map s.serial)])
      ((reparent s p).setState p .zombie) := by
  have hproc := die_proc (s := s) (p := p)
  have hcount : ∀ k, exitCount [.exited (s.serial p) (s.proc p).pid
      ((s.proc p).parent.map s.serial)] k = if s.serial p = k then 1 else 0 := fun k ↦ by
    simp [exitCount, Record.exits, countP_singleton]
  refine hs.keeps (some p) rfl rfl rfl (fun q hq ↦ ?_) (fun q hq ↦ ?_) (fun q hq _ ↦ ?_)
    (fun k ↦ by simp [hcount]) (fun k ↦ ?_) (fun c q hc hq ↦ ?_) (by simp)
  · rw [hproc] at hq
    by_cases hqp : q = p
    · simp [hqp, hrunning]
    · simpa [hqp] using hq
  · cases hq
    simp [hrunning, hproc]
  · simp [hproc, hq]
  · have hcard := card_zombies (s := s) (t := (reparent s p).setState p .zombie) (c := p) rfl
      (fun q hq ↦ by rw [hproc]; exact if_neg hq) (by simp [hrunning]) (by simp [hproc]) k
    rw [hcount, hcard]
    simp [reportCount, Record.reports]
  · rw [hproc] at hc hq ⊢
    by_cases hcp : c = p
    · rw [hcp] at hq ⊢
      replace hq : (s.proc p).parent = some q := (if_neg hne).symm.trans hq
      refine .inr ⟨_, mem_append_right _ mem_cons_self, .inl ?_⟩
      rw [hq]
      rfl
    · replace hc : (s.proc c).state = .zombie := (if_neg hcp).symm.trans hc
      dsimp only at hq
      split_ifs at hq with hchild
      · -- the parent exits now, and init takes its place
        obtain ⟨parent, hmem, hi⟩ := hs.zombie c p hc hchild
        refine .inr ⟨parent, mem_append_left _ hmem, .inr ⟨⟨q, hq, rfl⟩, ?_⟩⟩
        rcases hi with hdirect | ⟨-, k, hk, hpos⟩
        · exact ⟨s.serial p, hdirect, by rw [exitCount_append, hcount, if_pos rfl]; omega⟩
        · exact ⟨k, hk, by rw [exitCount_append]; omega⟩
      · exact .inl ⟨hc, rfl, hq⟩

theorem Heard.exit (htree : Tree s) (hat : At s p .elsewhere) :
    Heard (h ++ (record s (.exit p)).toList) (exit s p) := by
  have hdie : ∀ u, Quiet s u → u.proc p = s.proc p →
      Heard (h ++ (record s (.exit p)).toList) ((reparent u p).setState p .zombie) := by
    intro u hquiet hself
    have hu : Heard h u := by simpa using hs.quiet hquiet fun r (hr : r ∈ []) ↦ nomatch hr
    have hdead := hu.die (by rw [hself]; exact hat.1) (by rw [hself]; exact htree.parent_ne p)
    rw [hself, hquiet.serial] at hdead
    exact hdead
  have hwake : ∀ (u : State) (chan : Option Chan), u.proc p = s.proc p →
      (wakeup1 u chan).proc p = s.proc p := by
    intro u chan hself
    simp [wakeup1, hself, hat.1]
  unfold Processes.exit Processes.passChildren
  split_ifs
  · rw [wakeup1_reparent]
    exact hdie _ ((quiet_wakeup1 s _).trans (quiet_wakeup1 _ _)) (hwake _ _ (hwake s _ rfl))
  · exact hdie _ (quiet_wakeup1 s _) (hwake s _ rfl)

theorem Heard.setPos (p : Slot) (pos : Pos) : Heard h (s.setPos p pos) :=
  ⟨hs.serial_lt, hs.serial_inj, hs.fresh, hs.unexited, hs.once, hs.balance, hs.zombie, hs.reported⟩

theorem Heard.turn (hrunning : (s.proc p).state = .running) (hturn : Turn s p t) :
    Heard (h ++ (report s p).toList) t := by
  cases hturn with
  | reap c hfound hparent hstate =>
    simp only [report, hfound]
    exact (hs.reap hstate hparent).setPos p _
  | failed hfound =>
    simp only [report, hfound, map_none, toList_none, append_nil]
    exact hs.setPos p _
  | sleep hfound =>
    simp only [report, hfound, map_none]
    refine (hs.quiet ?_ (by simp)).setPos p _
    exact quiet_setProc (by simp [hrunning]) (by simp)

end

theorem quiet_resume (hrunnable : (s.proc p).state = .runnable) : Quiet s (resume s p) :=
  quiet_setProc (by simp [hrunnable]) (by simp)

/-- Every step keeps what the history says about exits. -/
theorem Heard.move {e : Event} (hs : Heard h s) (htree : Tree s) (hmove : Move s e t) :
    Heard (h ++ (record s e).toList) t := by
  cases hmove with
  | forkNone p hnone => exact hs.quiet (.refl s) (by simp [record, hnone])
  | fork p np hat halloc hunused =>
    refine (hs.fill hunused ?_ ?_ (by simp [record, halloc, Record.silent])).setPos p _
    · intro hinit
      obtain ⟨i, hi, hlive, -⟩ := htree.init
      obtain rfl : i = np := some.inj (hi.symm.trans hinit)
      rw [hunused] at hlive
      cases hlive
    · intro c hc
      have hlive := htree.parent_live c np hc
      rw [hunused] at hlive
      cases hlive
  | forkFail p np hat =>
    have hembryo := (htree.forking p np false hat.2).1
    refine hs.quiet (.setPos ?_ p _) (by simp [record])
    exact quiet_setProc (by simp [hembryo]) (by simp)
  | forkCopy p np hat =>
    have hembryo := (htree.forking p np false hat.2).1
    refine hs.quiet (.setPos ?_ p _) (by simp [record])
    exact quiet_setProc (by simp [hembryo]) (by simp [hembryo])
  | forkDone p np hat =>
    have hembryo := (htree.forking p np true hat.2).1
    refine hs.quiet (.setPos ?_ p _) (by simp [record])
    exact quiet_setProc (by simp [hembryo]) (by simp)
  | exit p hat => exact hs.exit htree hat
  | wait p t hat hturn => exact hs.turn hat.1 hturn
  | killNone => exact hs.quiet (.refl s) (by simp [record, Record.silent])
  | kill pid p => exact hs.quiet (quiet_kill s p) (by simp [record, Record.silent])
  | schedule p hrunnable hpos =>
    exact hs.quiet (quiet_resume hrunnable) (by simp [record, hpos])
  | goOn p t hrunnable hpos hturn =>
    have hresumed : Heard h (resume s p) := by
      simpa using hs.quiet (quiet_resume hrunnable) fun r (hr : r ∈ []) ↦ nomatch hr
    simp only [record, if_pos hpos]
    exact hresumed.turn (by rw [resume, proc_setProc, if_pos rfl]) hturn
  | yield p hrunning =>
    refine hs.quiet ?_ (by simp [record])
    exact quiet_setProc (by simp [hrunning]) (by simp)
  | sleep p addr hat =>
    refine hs.quiet ?_ (by simp [record])
    exact quiet_setProc (by simp [hat.1]) (by simp)
  | wakeup => exact hs.quiet (quiet_wakeup1 s _) (by simp [record])

theorem heard_booted : Heard (history []) booted := by
  have hcount : ∀ k, exitCount (history []) k = 0 ∧ reportCount (history []) k = 0 :=
    counts_of_silent (by simp [history, trace, Record.silent])
  have hused : ∀ {p}, (booted.proc p).state ≠ .unused → p = first := by
    intro p hp
    by_contra hne
    rw [booted_proc, if_neg hne] at hp
    exact hp rfl
  have hzombie : ∀ p, (booted.proc p).state ≠ .zombie := by
    intro p
    rw [booted_proc]
    split_ifs <;> simp
  constructor
  · intro p hp
    rw [hused hp, booted_eq]
    simp [State.setState, State.setProc, fill, zeroed]
  · exact fun p q hp hq _ ↦ (hused hp).trans (hused hq).symm
  · exact fun k _ ↦ (hcount k).1
  · exact fun p _ _ ↦ (hcount _).1
  · exact fun k ↦ (hcount k).1.le.trans (zero_le 1)
  · intro k
    rw [(hcount k).1, (hcount k).2]
    simp [zombies, hzombie]
  · exact fun c _ hc ↦ (hzombie c hc).elim
  · intro k pid caller hmem
    simp [history, trace] at hmem

theorem heard_of_run {es : List Event} (hrun : run step booted es = some s) :
    Heard (history es) s := by
  refine run_induction (I := fun es s ↦ Heard (history es) s) heard_booted ?_ hrun
  intro es s e t hrun hs hstep
  rw [history_concat hrun hstep]
  exact hs.move (tree_of_run hrun) (step_move hstep)

/-! ### The result -/

/-- The turn of the loop of `wait` that a step runs, with the process that runs it. -/
def waited (s : State) : Event → Option (Slot × Waited)
  | .wait p => if At s p .elsewhere then some (p, (wait s p).1) else none
  | .schedule p =>
    if (s.proc p).state = .runnable ∧ s.pos p = .waiting then some (p, (wait (resume s p) p).1)
    else none
  | _ => none

theorem wait_found {c : Slot} (hparent : (s.proc c).parent = some p)
    (hzombie : (s.proc c).state = .zombie) : ∃ pid, (wait s p).1 = .pid pid := by
  unfold wait
  split
  · exact ⟨_, rfl⟩
  · rename_i hnone
    exact (exitedChild_eq_none hnone c hparent hzombie).elim

/-- A pid that `wait` returns is that of the child that it reports. -/
theorem wait_pid {pid : Int32} (hpid : .pid pid = (wait s p).1) :
    ∃ c, (s.proc c).parent = some p ∧ (s.proc c).state = .zombie ∧ (s.proc c).pid = pid ∧
      report s p = some (.reported (s.serial c) pid (s.serial p)) := by
  unfold wait at hpid
  split at hpid
  · rename_i c hfound
    cases hpid
    obtain ⟨hparent, hzombie⟩ := exitedChild_eq_some hfound
    exact ⟨c, hparent, hzombie, rfl, by rw [report, hfound, map_some]⟩
  · split_ifs at hpid

/-- The pid that is reported is returned. -/
theorem wait_of_report {k caller : ℕ} {pid : Int32}
    (hreport : report s p = some (.reported k pid caller)) :
    (wait s p).1 = .pid pid ∧ s.serial p = caller := by
  obtain ⟨c, hfound, hrecord⟩ := map_eq_some_iff.mp hreport
  cases hrecord
  simp only [wait, hfound, and_self]

theorem wait_failed (hfailed : (wait s p).1 = .failed) (hkilled : (s.proc p).killed = false)
    (c : Slot) : (s.proc c).parent ≠ some p := by
  unfold wait at hfailed
  split at hfailed
  · cases hfailed
  · split_ifs at hfailed with hnone
    refine haveKids_eq_false (hnone.resolve_right ?_) c
    simp [hkilled]

/-- A turn of `wait` runs in a state with the same processes, but for the caller's being resumed. -/
theorem waited_eq {e : Event} {r : Waited} (hwaited : waited s e = some (p, r)) :
    ∃ u, r = (wait u p).1 ∧ record s e = report u p ∧ u.serial = s.serial ∧
      ∀ q, (u.proc q).parent = (s.proc q).parent ∧ (u.proc q).killed = (s.proc q).killed ∧
        (u.proc q).pid = (s.proc q).pid ∧
        ((u.proc q).state = .zombie ↔ (s.proc q).state = .zombie) := by
  cases e with
  | wait p' =>
    simp only [waited, ite_none_right_eq_some, some.injEq, Prod.mk.injEq] at hwaited
    obtain ⟨-, rfl, rfl⟩ := hwaited
    exact ⟨s, rfl, rfl, rfl, fun q ↦ ⟨rfl, rfl, rfl, .rfl⟩⟩
  | schedule p' =>
    simp only [waited, ite_none_right_eq_some, some.injEq, Prod.mk.injEq] at hwaited
    obtain ⟨⟨hrunnable, hpos⟩, rfl, rfl⟩ := hwaited
    refine ⟨resume s p', rfl, if_pos hpos, rfl, fun q ↦ ?_⟩
    rw [resume, proc_setProc]
    split_ifs with hq
    · simp [hq, hrunnable]
    · exact ⟨rfl, rfl, rfl, .rfl⟩
  | _ => cases hwaited

/-- A step that reports a process is a turn of the loop of `wait` that returns its pid. -/
theorem waited_of_report {e : Event} {k caller : ℕ} {pid : Int32} (hstep : step s e = .next t)
    (hrecord : record s e = some (.reported k pid caller)) :
    ∃ p, waited s e = some (p, .pid pid) ∧ s.serial p = caller := by
  cases e with
  | wait p =>
    obtain ⟨hat, -⟩ := guard_eq_next.mp hstep
    obtain ⟨hpid, hcaller⟩ := wait_of_report hrecord
    exact ⟨p, by rw [waited, if_pos hat, hpid], hcaller⟩
  | schedule p =>
    obtain ⟨hrunnable, -⟩ := guard_eq_next.mp hstep
    obtain ⟨hpos, hreport⟩ := ite_none_right_eq_some.mp hrecord
    obtain ⟨hpid, hcaller⟩ := wait_of_report hreport
    exact ⟨p, by rw [waited, if_pos ⟨hrunnable, hpos⟩, hpid], hcaller⟩
  | fork p =>
    obtain ⟨np, -, heq⟩ := map_eq_some_iff.mp hrecord
    cases heq
  | _ => cases hrecord

/-- What holds of `exit` and `wait` after a run with the history `h`. -/
structure ExitWait (h : List Record) (s : State) : Prop where
  /-- A process that has started, other than init, has a parent that has not exited. -/
  parent : ∀ p, s.initproc ≠ some p → (s.proc p).state ≠ .unused → (s.proc p).state ≠ .embryo →
    ∃ q, (s.proc p).parent = some q ∧ (s.proc q).state ≠ .unused ∧ (s.proc q).state ≠ .zombie
  /-- Nobody sleeps in `wait` while a child is a zombie. -/
  asleep : ∀ p c, s.pos p = .waiting → (s.proc p).state = .sleeping →
    (s.proc c).parent = some p → (s.proc c).state ≠ .zombie
  /-- A process exits at most once, and is then a zombie or reported, once. -/
  once : ∀ k, exitCount h k ≤ 1 ∧ reportCount h k + #(zombies s k) = exitCount h k
  /-- Who reports it is its parent, or init after its parent exited. -/
  caller : ∀ k pid caller, .reported k pid caller ∈ h →
    ∃ parent, .exited k pid parent ∈ h ∧ Inherits h s parent caller
  /-- A `wait` by a process with a child that exited returns a pid. -/
  found : ∀ e p r c, waited s e = some (p, r) → (s.proc c).parent = some p →
    (s.proc c).state = .zombie → ∃ pid, r = .pid pid
  /-- The pid that a `wait` returns is that of a child that exited, and it is this child that is
  reported to the caller. -/
  returned : ∀ e p pid, waited s e = some (p, .pid pid) → ∃ c, (s.proc c).parent = some p ∧
    (s.proc c).state = .zombie ∧ (s.proc c).pid = pid ∧
      record s e = some (.reported (s.serial c) pid (s.serial p))
  /-- No child is reported but by a `wait` of the caller that returns its pid. -/
  reported : ∀ e t k pid caller, step s e = .next t →
    record s e = some (.reported k pid caller) →
      ∃ p, waited s e = some (p, .pid pid) ∧ s.serial p = caller
  /-- A `wait` that fails, of a process that is not killed, is by a process without children. -/
  failed : ∀ e p, waited s e = some (p, .failed) → (s.proc p).killed = false →
    ∀ c, (s.proc c).parent ≠ some p

/-- `exit` and `wait` along every run of any processes. -/
theorem exitWait {es : List Event} {s : State} (hrun : run step booted es = some s) :
    ExitWait (history es) s := by
  have htree := tree_of_run hrun
  have hheard := heard_of_run hrun
  constructor
  · intro p hinit hunused hembryo
    obtain ⟨q, hq⟩ := htree.parent_some p hinit hunused hembryo
    have hlive := htree.parent_live p q hq
    refine ⟨q, hq, ?_, ?_⟩
    all_goals
      intro heq
      rw [heq] at hlive
      cases hlive
  · exact fun p c hpos hsleep hc ↦ (htree.asleep p hpos hsleep).2 c hc
  · exact fun k ↦ ⟨hheard.once k, hheard.balance k⟩
  · exact hheard.reported
  · intro e p r c hwaited hparent hzombie
    obtain ⟨u, rfl, -, -, hu⟩ := waited_eq hwaited
    exact wait_found ((hu c).1.trans hparent) ((hu c).2.2.2.mpr hzombie)
  · intro e p pid hwaited
    obtain ⟨u, hpid, hrecord, hserial, hu⟩ := waited_eq hwaited
    obtain ⟨c, hparent, hzombie, hc, hreport⟩ := wait_pid hpid
    obtain ⟨hp, -, hsame, hstate⟩ := hu c
    exact ⟨c, hp.symm.trans hparent, hstate.mp hzombie, hsame.symm.trans hc,
      hserial ▸ hrecord.trans hreport⟩
  · exact fun e t k pid caller ↦ waited_of_report
  · intro e p hwaited hkilled c
    obtain ⟨u, hfailed, -, -, hu⟩ := waited_eq hwaited
    rw [← (hu c).1]
    exact wait_failed hfailed.symm ((hu p).2.1.trans hkilled) c

/-- A grandchild of init that exits after its parent is reported to init, once. -/
theorem exitWait_orphan : ∃ es s, run step booted es = some s ∧
    .reported 2 3 0 ∈ history es ∧ reportCount (history es) 2 = 1 ∧ ExitWait (history es) s := by
  refine ⟨[.schedule first, .fork first, .forkCopy first, .forkDone first, .wait first,
    .schedule ⟨1, by decide⟩, .fork ⟨1, by decide⟩, .forkCopy ⟨1, by decide⟩,
    .forkDone ⟨1, by decide⟩, .exit ⟨1, by decide⟩, .schedule first, .schedule ⟨2, by decide⟩,
    .exit ⟨2, by decide⟩, .wait first], ?_⟩
  exact ⟨_, run_get (by decide +kernel), by decide +kernel, by decide +kernel, exitWait (run_get _)⟩

end EasyKernels.Xv6.Processes
