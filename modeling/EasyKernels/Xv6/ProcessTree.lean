import EasyKernels.Xv6.Processes

/-!
# The tree of processes

`Tree` is what the process table keeps between two sections of `ptable.lock`. A parent has not
exited, because `exit` passes the children to init before it makes the process a zombie. A slot that
`fork` fills belongs to one `fork`. A process asleep in `wait` sleeps on its own slot and has no
child that exited: `exit` wakes the parent, and init if it inherits a zombie. `tree_of_run` is the
invariant along every run.
-/

set_option autoImplicit false

namespace EasyKernels.Xv6.Processes

open Lib.Runs

/-! ### The tree of processes -/

/-- What the table keeps between two steps. -/
structure Tree (s : State) : Prop where
  /-- Init has not exited, and is nobody's child. -/
  init : ∃ i, s.initproc = some i ∧ (s.proc i).state.live = true ∧ (s.proc i).parent = none
  /-- No process is its own parent. -/
  parent_ne : ∀ c, (s.proc c).parent ≠ some c
  /-- A parent has not exited. -/
  parent_live : ∀ c q, (s.proc c).parent = some q → (s.proc q).state.live = true
  /-- A process that has started has a parent, unless it is init. -/
  parent_some : ∀ c, s.initproc ≠ some c → (s.proc c).state ≠ .unused →
    (s.proc c).state ≠ .embryo → ∃ q, (s.proc c).parent = some q
  /-- An empty slot has no parent. -/
  unused_parent : ∀ c, (s.proc c).state = .unused → (s.proc c).parent = none
  /-- The slot that a `fork` fills is an embryo, and no child yet of another process. -/
  forking : ∀ p np copied, s.pos p = .forking np copied →
    (s.proc np).state = .embryo ∧ (s.proc np).parent = if copied then some p else none
  /-- Two forks do not fill one slot. -/
  forking_unique : ∀ p q np copied copied', s.pos p = .forking np copied →
    s.pos q = .forking np copied' → p = q
  /-- Only a process that has not exited is in a system call. -/
  pos_live : ∀ p, s.pos p ≠ .elsewhere → (s.proc p).state.live = true
  /-- A process asleep in `wait` sleeps on itself, and none of its children has exited. -/
  asleep : ∀ p, s.pos p = .waiting → (s.proc p).state = .sleeping →
    (s.proc p).chan = some (.proc p) ∧
      ∀ c, (s.proc c).parent = some p → (s.proc c).state ≠ .zombie

/-- A process changes between `SLEEPING`, `RUNNABLE` and `RUNNING` at most. -/
structure Stirred (before after : Proc) : Prop where
  parent : after.parent = before.parent
  state : after.state = before.state ∨ (before.state.live = true ∧ after.state.live = true)

theorem Stirred.refl (proc : Proc) : Stirred proc proc := ⟨rfl, .inl rfl⟩

theorem Stirred.live {before after : Proc} (h : Stirred before after) :
    after.state.live = before.state.live := by
  rcases h.state with heq | ⟨hbefore, hafter⟩
  · rw [heq]
  · rw [hbefore, hafter]

theorem Stirred.eq_iff {before after : Proc} (h : Stirred before after) {state : ProcState}
    (hstate : state.live = false) : after.state = state ↔ before.state = state := by
  rcases h.state with heq | ⟨hbefore, hafter⟩
  · rw [heq]
  · constructor
    · intro heq
      rw [heq, hstate] at hafter
      cases hafter
    · intro heq
      rw [heq, hstate] at hbefore
      cases hbefore

variable {s t : State} {p np : Slot}

/-- A step that only stirs processes keeps the tree. Assumes: whoever is asleep in `wait` after it
was asleep there before. -/
theorem Tree.stir (h : Tree s) (hinit : t.initproc = s.initproc) (hpos : t.pos = s.pos)
    (hstir : ∀ p, Stirred (s.proc p) (t.proc p))
    (hasleep : ∀ p, s.pos p = .waiting → (t.proc p).state = .sleeping →
      (s.proc p).state = .sleeping ∧ (t.proc p).chan = (s.proc p).chan) : Tree t where
  init := by
    obtain ⟨i, hi, hlive, hnone⟩ := h.init
    exact ⟨i, hinit.trans hi, (hstir i).live.trans hlive, (hstir i).parent.trans hnone⟩
  parent_ne c := by
    rw [(hstir c).parent]
    exact h.parent_ne c
  parent_live c q hc := by
    rw [(hstir q).live]
    exact h.parent_live c q ((hstir c).parent ▸ hc)
  parent_some c hc hunused hembryo := by
    rw [(hstir c).parent]
    exact h.parent_some c (hinit ▸ hc) (fun heq ↦ hunused (((hstir c).eq_iff rfl).mpr heq))
      fun heq ↦ hembryo (((hstir c).eq_iff rfl).mpr heq)
  unused_parent c hc := by
    rw [(hstir c).parent]
    exact h.unused_parent c (((hstir c).eq_iff rfl).mp hc)
  forking p np copied hp := by
    rw [(hstir np).parent, (hstir np).eq_iff rfl]
    exact h.forking p np copied (hpos ▸ hp)
  forking_unique p q np copied copied' hp hq :=
    h.forking_unique p q np copied copied' (hpos ▸ hp) (hpos ▸ hq)
  pos_live p hp := by
    rw [(hstir p).live]
    exact h.pos_live p (hpos ▸ hp)
  asleep p hp hsleep := by
    obtain ⟨hbefore, hchan⟩ := hasleep p (hpos ▸ hp) hsleep
    obtain ⟨hself, hzombie⟩ := h.asleep p (hpos ▸ hp) hbefore
    refine ⟨hchan.trans hself, fun c hc ↦ ?_⟩
    rw [ne_eq, (hstir c).eq_iff rfl]
    exact hzombie c ((hstir c).parent ▸ hc)

/-- One process is stirred, and goes not to sleep in `wait`. -/
theorem Tree.stirOne (h : Tree s) {proc : Proc} (hstir : Stirred (s.proc p) proc)
    (hawake : s.pos p = .waiting → proc.state ≠ .sleeping) : Tree (s.setProc p proc) := by
  refine h.stir rfl rfl (fun q ↦ ?_) fun q hq hsleep ↦ ?_
  · rw [proc_setProc]
    split_ifs with hqp
    · rw [hqp]
      exact hstir
    · exact .refl _
  · rw [proc_setProc] at hsleep ⊢
    split_ifs at hsleep ⊢ with hqp
    · exact (hawake (hqp ▸ hq) hsleep).elim
    · exact ⟨hsleep, rfl⟩

theorem stirred_wakeup1 (s : State) (chan : Option Chan) (p : Slot) :
    Stirred (s.proc p) ((wakeup1 s chan).proc p) := by
  simp only [wakeup1]
  split_ifs with hwake
  · exact ⟨rfl, .inr ⟨by rw [hwake.1]; rfl, rfl⟩⟩
  · exact .refl _

/-- A process asleep after `wakeup1` was asleep before, on another address. -/
theorem asleep_of_wakeup1 {chan : Option Chan} (h : ((wakeup1 s chan).proc p).state = .sleeping) :
    (s.proc p).chan ≠ chan ∧ (wakeup1 s chan).proc p = s.proc p := by
  simp only [wakeup1] at h ⊢
  split_ifs at h ⊢ with hwake
  · exact ⟨fun heq ↦ hwake ⟨h, heq⟩, rfl⟩

section

variable (h : Tree s)

include h

theorem Tree.wakeup1 (chan : Option Chan) : Tree (wakeup1 s chan) := by
  refine h.stir rfl rfl (stirred_wakeup1 s chan) fun p _ hsleep ↦ ?_
  have heq := (asleep_of_wakeup1 hsleep).2
  rw [heq] at hsleep ⊢
  exact ⟨hsleep, rfl⟩

/-! ### Filling and emptying a slot -/

/-- Nobody fills the slot. -/
def Idle (s : State) (np : Slot) : Prop := ∀ p copied, s.pos p ≠ .forking np copied

/-- A process goes on. -/
theorem Tree.setPos (pos : Pos) (hlive : pos ≠ .elsewhere → (s.proc p).state.live = true)
    (hforking : ∀ np copied, pos = .forking np copied → Idle s np ∧
      (s.proc np).state = .embryo ∧ (s.proc np).parent = if copied then some p else none)
    (hwaiting : pos = .waiting → (s.proc p).state = .sleeping → (s.proc p).chan = some (.proc p) ∧
      ∀ c, (s.proc c).parent = some p → (s.proc c).state ≠ .zombie) : Tree (s.setPos p pos) := by
  refine ⟨h.init, h.parent_ne, h.parent_live, h.parent_some, h.unused_parent, ?_, ?_, ?_, ?_⟩
  · intro q m copied hq
    rw [pos_setPos] at hq
    split_ifs at hq with hqp
    · rw [hqp]
      exact (hforking m copied hq).2
    · exact h.forking q m copied hq
  · intro q r m copied₁ copied₂ hq hr
    rw [pos_setPos] at hq hr
    split_ifs at hq hr with hqp hrp hrp
    · rw [hqp, hrp]
    · exact ((hforking m copied₁ hq).1 r copied₂ hr).elim
    · exact ((hforking m copied₂ hr).1 q copied₁ hq).elim
    · exact h.forking_unique q r m copied₁ copied₂ hq hr
  · intro q hq
    rw [pos_setPos] at hq
    split_ifs at hq with hqp
    · rw [hqp]
      exact hlive hq
    · exact h.pos_live q hq
  · intro q hq hsleep
    rw [pos_setPos] at hq
    split_ifs at hq with hqp
    · rw [hqp] at hsleep ⊢
      exact hwaiting hq hsleep
    · exact h.asleep q hq hsleep

theorem Tree.leave (p : Slot) : Tree (s.setPos p .elsewhere) :=
  h.setPos .elsewhere (fun hne ↦ (hne rfl).elim) nofun nofun

theorem Tree.idle_of_ne (hnp : (s.proc np).state ≠ .embryo) : Idle s np :=
  fun p copied hp ↦ hnp (h.forking p np copied hp).1

/-- The slot of a `fork` that leaves it is filled by nobody. -/
theorem Tree.idle_leave {copied : Bool} (hp : s.pos p = .forking np copied) :
    Idle (s.setPos p .elsewhere) np := by
  intro q copied' hq
  rw [pos_setPos] at hq
  split_ifs at hq with hqp
  exact hqp (h.forking_unique q p np copied' copied hq hp)

/-- A slot of a process that has not started or has exited takes new contents. -/
theorem Tree.refill {proc : Proc} (hdead : (s.proc np).state.live = false) (hidle : Idle s np)
    (hparent : ∀ q, proc.parent = some q → (s.proc q).state.live = true)
    (hsome : proc.state ≠ .unused → proc.state ≠ .embryo → ∃ q, proc.parent = some q)
    (hnone : proc.state = .unused → proc.parent = none) (hzombie : proc.state ≠ .zombie) :
    Tree (s.setProc np proc) := by
  have hlive : ∀ {q}, (s.proc q).state.live = true → q ≠ np := by
    intro q hq heq
    rw [heq, hdead] at hq
    cases hq
  have hother : ∀ {q}, q ≠ np → (s.setProc np proc).proc q = s.proc q := fun hq ↦ by
    rw [proc_setProc, if_neg hq]
  constructor
  · obtain ⟨i, hi, hli, hnone⟩ := h.init
    refine ⟨i, hi, ?_⟩
    rw [hother (hlive hli)]
    exact ⟨hli, hnone⟩
  · intro c hc
    rw [proc_setProc] at hc
    split_ifs at hc with hcnp
    · exact hlive (hparent c hc) hcnp
    · exact h.parent_ne c hc
  · intro c q hc
    have hq : (s.proc q).state.live = true := by
      rw [proc_setProc] at hc
      split_ifs at hc
      · exact hparent q hc
      · exact h.parent_live c q hc
    rwa [hother (hlive hq)]
  · intro c hc hunused hembryo
    rw [proc_setProc] at hunused hembryo ⊢
    split_ifs at hunused hembryo ⊢
    · exact hsome hunused hembryo
    · exact h.parent_some c hc hunused hembryo
  · intro c hc
    rw [proc_setProc] at hc ⊢
    split_ifs at hc ⊢
    · exact hnone hc
    · exact h.unused_parent c hc
  · intro p m copied hp
    rw [hother fun hm ↦ hidle p copied (hm ▸ hp)]
    exact h.forking p m copied hp
  · exact h.forking_unique
  · intro p hp
    have hpl := h.pos_live p hp
    rwa [hother (hlive hpl)]
  · intro p hp hsleep
    have hpl := h.pos_live p (by rw [show s.pos p = .waiting from hp]; exact nofun)
    rw [hother (hlive hpl)] at hsleep ⊢
    obtain ⟨hchan, hchildren⟩ := h.asleep p hp hsleep
    refine ⟨hchan, fun c hc ↦ ?_⟩
    rw [proc_setProc] at hc ⊢
    split_ifs at hc ⊢
    · exact hzombie
    · exact hchildren c hc

/-- A process goes on in `fork` with a slot that nobody else fills. -/
theorem Tree.enter {copied : Bool} (hlive : (s.proc p).state.live = true) (hidle : Idle s np)
    (hembryo : (s.proc np).state = .embryo)
    (hparent : (s.proc np).parent = if copied then some p else none) :
    Tree (s.setPos p (.forking np copied)) := by
  refine h.setPos _ (fun _ ↦ hlive) (fun m copied' hpos ↦ ?_) nofun
  cases hpos
  exact ⟨hidle, hembryo, hparent⟩

/-! ### `exit` and `wait` -/

/-- Init can take over the children of a process that is not in `fork`. Assumes: init is not asleep
in `wait` if one of them has exited. -/
theorem Tree.reparent (hpos : s.pos p = .elsewhere)
    (hquiet : ∀ i, s.initproc = some i → s.pos i = .waiting → (s.proc i).state = .sleeping →
      ∀ c, (s.proc c).parent = some p → (s.proc c).state ≠ .zombie) : Tree (reparent s p) := by
  have hstate : ∀ c, ((Processes.reparent s p).proc c).state = (s.proc c).state := by
    intro c
    simp only [Processes.reparent]
    split_ifs <;> rfl
  have hchan : ∀ c, ((Processes.reparent s p).proc c).chan = (s.proc c).chan := by
    intro c
    simp only [Processes.reparent]
    split_ifs <;> rfl
  have hkept : ∀ {c}, (s.proc c).parent ≠ some p →
      ((Processes.reparent s p).proc c).parent = (s.proc c).parent := by
    intro c hc
    simp only [Processes.reparent, if_neg hc]
  have hpassed : ∀ {c}, (s.proc c).parent = some p →
      ((Processes.reparent s p).proc c).parent = s.initproc := by
    intro c hc
    simp only [Processes.reparent, if_pos hc]
  constructor
  · obtain ⟨i, hi, hlive, hnone⟩ := h.init
    refine ⟨i, hi, (congrArg _ (hstate i)).trans hlive, ?_⟩
    rw [hkept (by rw [hnone]; exact nofun), hnone]
  · intro c hc
    by_cases hcp : (s.proc c).parent = some p
    · rw [hpassed hcp] at hc
      obtain ⟨i, hi, -, hnone⟩ := h.init
      obtain rfl : i = c := Option.some.inj (hi.symm.trans hc)
      rw [hnone] at hcp
      cases hcp
    · rw [hkept hcp] at hc
      exact h.parent_ne c hc
  · intro c q hc
    rw [hstate q]
    by_cases hcp : (s.proc c).parent = some p
    · rw [hpassed hcp] at hc
      obtain ⟨i, hi, hlive, -⟩ := h.init
      obtain rfl : i = q := Option.some.inj (hi.symm.trans hc)
      exact hlive
    · rw [hkept hcp] at hc
      exact h.parent_live c q hc
  · intro c hc hunused hembryo
    rw [hstate c] at hunused hembryo
    by_cases hcp : (s.proc c).parent = some p
    · obtain ⟨i, hi, -⟩ := h.init
      exact ⟨i, (hpassed hcp).trans hi⟩
    · rw [hkept hcp]
      exact h.parent_some c hc hunused hembryo
  · intro c hc
    rw [hstate c] at hc
    have hnone := h.unused_parent c hc
    rw [hkept (by rw [hnone]; exact nofun), hnone]
  · intro q np copied hq
    obtain ⟨hembryo, hparent⟩ := h.forking q np copied hq
    rw [hstate np, hkept, hparent]
    · exact ⟨hembryo, rfl⟩
    · rw [hparent]
      intro heq
      cases copied with
      | false => cases heq
      | true =>
        cases heq
        rw [show s.pos p = _ from hq] at hpos
        cases hpos
  · exact h.forking_unique
  · intro q hq
    rw [hstate q]
    exact h.pos_live q hq
  · intro q hq hsleep
    rw [hstate q] at hsleep
    obtain ⟨hself, hchildren⟩ := h.asleep q hq hsleep
    refine ⟨(hchan q).trans hself, fun c hc ↦ ?_⟩
    rw [hstate c]
    by_cases hcp : (s.proc c).parent = some p
    · rw [hpassed hcp] at hc
      exact hquiet q hc hq hsleep c hcp
    · rw [hkept hcp] at hc
      exact hchildren c hc

end

open State

theorem wakeup1_reparent (s : State) (chan : Option Chan) (p : Slot) :
    wakeup1 (reparent s p) chan = reparent (wakeup1 s chan) p := by
  simp only [wakeup1, reparent, mk.injEq, and_self, and_true]
  funext c
  split_ifs <;> simp_all

theorem Tree.passChildren (h : Tree s) (hpos : s.pos p = .elsewhere) : Tree (passChildren s p) := by
  unfold Processes.passChildren
  split_ifs with hzombie
  · rw [wakeup1_reparent]
    refine (h.wakeup1 _).reparent hpos fun i hi hwaiting hsleep c _ ↦ ?_
    -- init sleeps on itself in `wait`, so `wakeup1(initproc)` woke it
    obtain ⟨hne, heq⟩ := asleep_of_wakeup1 hsleep
    rw [heq] at hsleep
    have hself := (h.asleep i hwaiting hsleep).1
    rw [show s.initproc = some i from hi] at hne
    exact (hne hself).elim
  · exact h.reparent hpos fun i _ _ _ c hc hstate ↦ hzombie ⟨c, hc, hstate⟩

/-- A process without children exits. Assumes: its parent is not asleep in `wait`. -/
theorem Tree.die (h : Tree s) (hpos : s.pos p = .elsewhere) (hinit : s.initproc ≠ some p)
    (hlive : (s.proc p).state.live = true) (hchildless : ∀ c, (s.proc c).parent ≠ some p)
    (hawake : ∀ q, (s.proc p).parent = some q → s.pos q = .waiting →
      (s.proc q).state ≠ .sleeping) : Tree (s.setState p .zombie) := by
  have hparent : ∀ c, ((s.setState p .zombie).proc c).parent = (s.proc c).parent := by
    intro c
    rw [proc_setState]
    split_ifs with hcp
    · rw [hcp]
    · rfl
  have hother : ∀ {q}, q ≠ p → (s.setState p .zombie).proc q = s.proc q := fun hq ↦ by
    rw [proc_setState, if_neg hq]
  constructor
  · obtain ⟨i, hi, hli⟩ := h.init
    refine ⟨i, hi, ?_⟩
    rwa [hother fun hip ↦ hinit (hip ▸ hi)]
  · intro c
    rw [hparent c]
    exact h.parent_ne c
  · intro c q hc
    rw [hparent c] at hc
    rw [hother fun hqp ↦ hchildless c (hqp ▸ hc)]
    exact h.parent_live c q hc
  · intro c hc hunused hembryo
    rw [hparent c]
    rw [proc_setState] at hunused hembryo
    split_ifs at hunused hembryo with hcp
    · rw [hcp]
      refine h.parent_some p hinit ?_ ?_
      all_goals
        intro heq
        rw [heq] at hlive
        cases hlive
    · exact h.parent_some c hc hunused hembryo
  · intro c hc
    rw [hparent c]
    rw [proc_setState] at hc
    split_ifs at hc
    exact h.unused_parent c hc
  · intro q np copied hq
    obtain ⟨hembryo, hnp⟩ := h.forking q np copied hq
    rw [hparent np]
    refine ⟨?_, hnp⟩
    rwa [hother]
    intro heq
    rw [← heq, hembryo] at hlive
    cases hlive
  · exact h.forking_unique
  · intro q hq
    rw [hother fun hqp ↦ hq (hqp ▸ hpos)]
    exact h.pos_live q hq
  · intro q hq hsleep
    rw [proc_setState] at hsleep ⊢
    split_ifs at hsleep ⊢
    obtain ⟨hchan, hchildren⟩ := h.asleep q hq hsleep
    refine ⟨hchan, fun c hc ↦ ?_⟩
    rw [hparent c] at hc
    by_cases hcp : c = p
    · exact (hawake q (hcp ▸ hc) hq hsleep).elim
    · rw [hother hcp]
      exact hchildren c hc

@[simp] theorem passChildren_pos (s : State) (p : Slot) : (passChildren s p).pos = s.pos := by
  unfold passChildren
  split_ifs <;> rfl

@[simp] theorem passChildren_initproc (s : State) (p : Slot) :
    (passChildren s p).initproc = s.initproc := by
  unfold passChildren
  split_ifs <;> rfl

theorem passChildren_childless (hinit : s.initproc ≠ some p) (c : Slot) :
    ((passChildren s p).proc c).parent ≠ some p := by
  have hne : ((reparent s p).proc c).parent ≠ some p := by
    simp only [reparent]
    split_ifs with hc
    · exact hinit
    · exact hc
  unfold passChildren
  split_ifs
  · rw [(stirred_wakeup1 _ _ c).parent]
    exact hne
  · exact hne

/-- Passing the children on leaves a slot with its parent, unless that is the process that exits,
and puts nobody to sleep. -/
theorem passChildren_proc (s : State) (p q : Slot) : ((s.proc q).parent ≠ some p →
      ((passChildren s p).proc q).parent = (s.proc q).parent) ∧
    (((passChildren s p).proc q).state = .sleeping → (s.proc q).state = .sleeping) ∧
    ((s.proc q).state = .running → ((passChildren s p).proc q).state = .running) := by
  unfold passChildren
  split_ifs
  · simp only [wakeup1, reparent]
    split_ifs <;> simp_all
  · simp only [reparent]
    split_ifs <;> simp_all

theorem Tree.exit (h : Tree s) (hat : At s p .elsewhere) (hinit : s.initproc ≠ some p) :
    Tree (exit s p) := by
  have hwoken := h.wakeup1 ((s.proc p).parent.map .proc)
  obtain ⟨u, hu⟩ : ∃ u, u = Processes.wakeup1 s ((s.proc p).parent.map .proc) := ⟨_, rfl⟩
  have hself : u.proc p = s.proc p := by simp [hu, Processes.wakeup1, hat.1]
  have hpos : u.pos = s.pos := by rw [hu]; rfl
  have hinit' : u.initproc ≠ some p := by rw [hu]; exact hinit
  obtain ⟨hkept, -, hrunning⟩ := passChildren_proc u p p
  rw [hself] at hkept hrunning
  rw [Processes.exit, ← hu]
  rw [← hu] at hwoken
  refine (hwoken.passChildren (hpos ▸ hat.2)).die ?_ ?_ ?_ (passChildren_childless hinit') ?_
  · rw [passChildren_pos, hpos]
    exact hat.2
  · rwa [passChildren_initproc]
  · rw [hrunning hat.1]
    rfl
  · intro q hq hwaiting hsleep
    rw [hkept (h.parent_ne p)] at hq
    rw [passChildren_pos, hpos] at hwaiting
    -- the parent sleeps on itself in `wait`, so `wakeup1(curproc->parent)` woke it
    have hsleep' := (passChildren_proc u p q).2.1 hsleep
    rw [hu] at hsleep'
    obtain ⟨hne, heq⟩ := asleep_of_wakeup1 hsleep'
    rw [heq] at hsleep'
    rw [hq] at hne
    exact hne (h.asleep q hwaiting hsleep').1

theorem setPos_leave (s : State) (p q : Slot) (proc : Proc) (pos : Pos) :
    ((s.setPos p .elsewhere).setProc q proc).setPos p pos = (s.setProc q proc).setPos p pos := by
  simp [State.setPos, State.setProc]

/-- A process that finds no child that exited sleeps in `wait`. -/
theorem Tree.sleepInWait (h : Tree s) (hlive : (s.proc p).state.live = true)
    (hnone : exitedChild s p = none) :
    Tree ((s.setProc p { s.proc p with chan := some (.proc p), state := .sleeping }).setPos
      p .waiting) := by
  obtain ⟨t, ht⟩ : ∃ t, t = (s.setPos p .elsewhere).setProc p
      { s.proc p with chan := some (.proc p), state := .sleeping } := ⟨_, rfl⟩
  have htree : Tree t := by
    rw [ht]
    refine (h.leave p).stirOne ⟨rfl, .inr ⟨hlive, rfl⟩⟩ fun hpos ↦ ?_
    rw [pos_setPos, if_pos rfl] at hpos
    cases hpos
  rw [← setPos_leave, ← ht]
  refine htree.setPos .waiting (fun _ ↦ ?_) nofun fun _ _ ↦ ⟨?_, fun c hc ↦ ?_⟩
  · rw [ht, proc_setProc, if_pos rfl]
    rfl
  · rw [ht, proc_setProc, if_pos rfl]
  · rw [ht, proc_setProc] at hc ⊢
    split_ifs at hc ⊢ with hcp
    · exact nofun
    · exact exitedChild_eq_none hnone c hc

theorem Tree.turn (h : Tree s) (hturn : Turn s p t) (hlive : (s.proc p).state.live = true) :
    Tree t := by
  cases hturn with
  | reap c hfound hparent hstate =>
    refine .leave (h.refill ?_ (h.idle_of_ne ?_) ?_ ?_ ?_ ?_) p
    · rw [hstate]
      rfl
    · rw [hstate]
      exact nofun
    · exact nofun
    · exact fun hne ↦ (hne rfl).elim
    · exact fun _ ↦ rfl
    · exact nofun
  | failed => exact h.leave p
  | sleep hfound => exact h.sleepInWait hlive hfound

theorem At.live {pos : Pos} (h : At s p pos) : (s.proc p).state.live = true := by
  rw [h.1]
  rfl

section

variable (h : Tree s)

include h

theorem Tree.fork (hat : At s p .elsewhere) (hunused : (s.proc np).state = .unused) :
    Tree ((fill s np).setPos p (.forking np false)) := by
  have hnone := h.unused_parent np hunused
  have hidle : Idle s np := h.idle_of_ne (by rw [hunused]; exact nofun)
  have hfilled : Tree (s.setProc np { s.proc np with state := .embryo, pid := s.nextpid }) := by
    refine h.refill ?_ hidle ?_ ?_ nofun nofun
    · rw [hunused]
      rfl
    · exact fun q hq ↦ h.parent_live np q hq
    · exact fun _ hne ↦ (hne rfl).elim
  have hp : p ≠ np := by
    intro heq
    rw [← heq, hat.1] at hunused
    cases hunused
  -- the numbers that `fill` deals out are not part of the tree
  have hfill : Tree (fill s np) := ⟨hfilled.init, hfilled.parent_ne, hfilled.parent_live,
    hfilled.parent_some, hfilled.unused_parent, hfilled.forking, hfilled.forking_unique,
    hfilled.pos_live, hfilled.asleep⟩
  refine hfill.enter ?_ hidle ?_ ?_
  · simp only [fill, setProc, Function.update_of_ne hp]
    exact hat.live
  · simp [fill, setProc]
  · simpa [fill, setProc] using hnone

theorem Tree.forkFail (hat : At s p (.forking np false)) :
    Tree ((s.setState np .unused).setPos p .elsewhere) := by
  obtain ⟨hembryo, hparent⟩ := h.forking p np false hat.2
  refine (h.leave p).refill ?_ (h.idle_leave hat.2) ?_ ?_ ?_ nofun
  · rw [proc_setPos, hembryo]
    rfl
  · exact fun q hq ↦ h.parent_live np q hq
  · exact fun hne ↦ (hne rfl).elim
  · exact fun _ ↦ hparent

theorem Tree.forkCopy (hat : At s p (.forking np false)) :
    Tree ((s.setProc np { s.proc np with parent := some p }).setPos p (.forking np true)) := by
  obtain ⟨hembryo, hparent⟩ := h.forking p np false hat.2
  have hp : p ≠ np := by
    intro heq
    rw [← heq, hat.1] at hembryo
    cases hembryo
  have hidle := h.idle_leave hat.2
  have htree : Tree ((s.setPos p .elsewhere).setProc np { s.proc np with parent := some p }) := by
    refine (h.leave p).refill ?_ hidle ?_ ?_ ?_ ?_
    · rw [proc_setPos, hembryo]
      rfl
    · intro q hq
      cases hq
      exact hat.live
    · exact fun _ _ ↦ ⟨p, rfl⟩
    · intro hunused
      rw [show (s.proc np).state = _ from hunused] at hembryo
      cases hembryo
    · rw [show ({ s.proc np with parent := some p } : Proc).state = _ from hembryo]
      exact nofun
  rw [← setPos_leave]
  refine htree.enter ?_ hidle ?_ ?_
  · rw [proc_setProc, if_neg hp]
    exact hat.live
  · rw [proc_setProc, if_pos rfl]
    exact hembryo
  · rw [proc_setProc, if_pos rfl]
    rfl

theorem Tree.forkDone (hat : At s p (.forking np true)) :
    Tree ((s.setState np .runnable).setPos p .elsewhere) := by
  obtain ⟨hembryo, hparent⟩ := h.forking p np true hat.2
  refine (h.leave p).refill ?_ (h.idle_leave hat.2) ?_ ?_ nofun nofun
  · rw [proc_setPos, hembryo]
    rfl
  · exact fun q hq ↦ h.parent_live np q hq
  · exact fun _ _ ↦ ⟨p, hparent⟩

theorem Tree.resume (hrunnable : (s.proc p).state = .runnable) : Tree (resume s p) :=
  h.stirOne ⟨rfl, .inr ⟨by rw [hrunnable]; rfl, rfl⟩⟩ nofun

/-- Every step keeps the tree. -/
theorem Tree.move {e : Event} (hmove : Move s e t) : Tree t := by
  cases hmove with
  | forkNone => exact h
  | fork p np hat halloc hunused => exact h.fork hat hunused
  | forkFail p np hat => exact h.forkFail hat
  | forkCopy p np hat => exact h.forkCopy hat
  | forkDone p np hat => exact h.forkDone hat
  | exit p hat hinit => exact h.exit hat hinit
  | wait p t hat hturn => exact h.turn hturn hat.live
  | killNone => exact h
  | kill =>
    refine h.stirOne ⟨rfl, ?_⟩ fun _ ↦ ?_
    · simp only [Proc.kill]
      split_ifs with hsleep
      · exact .inr ⟨by rw [hsleep]; rfl, rfl⟩
      · exact .inl rfl
    · simp only [Proc.kill]
      split_ifs with hsleep
      · exact nofun
      · exact hsleep
  | schedule p hrunnable => exact h.resume hrunnable
  | goOn p t hrunnable hpos hturn =>
    refine (h.resume hrunnable).turn hturn ?_
    rw [Processes.resume, proc_setProc, if_pos rfl]
    rfl
  | yield p hrunning =>
    exact h.stirOne ⟨rfl, .inr ⟨by rw [hrunning]; rfl, rfl⟩⟩ nofun
  | sleep p addr hat =>
    refine h.stirOne ⟨rfl, .inr ⟨hat.live, rfl⟩⟩ fun hwaiting ↦ ?_
    rw [hat.2] at hwaiting
    cases hwaiting
  | wakeup => exact h.wakeup1 _

end

/-- `userinit` makes one process, in the first slot. -/
theorem booted_eq : booted = { (fill zeroed first).setState first .runnable with
    initproc := some first } := by
  have halloc : allocproc zeroed = some (first, fill zeroed first) := by
    rfl
  simp only [booted, userinit, halloc]

theorem booted_proc (p : Slot) : booted.proc p = if p = first then ⟨.runnable, 1, none, none, false⟩
      else ⟨.unused, 0, none, none, false⟩ := by
  simp only [booted_eq, proc_setState]
  split_ifs with hp <;> simp [hp, fill, setProc, zeroed]

theorem booted_pos (p : Slot) : booted.pos p = .elsewhere := by
  rfl

theorem booted_parent (p : Slot) : (booted.proc p).parent = none := by
  rw [booted_proc]
  split_ifs <;> rfl

theorem tree_booted : Tree booted where
  init := by
    refine ⟨first, by rw [booted_eq], ?_, booted_parent first⟩
    rfl
  parent_ne c := by rw [booted_parent]; exact nofun
  parent_live c q hc := by rw [booted_parent] at hc; cases hc
  parent_some c hc hunused hembryo := by
    rw [booted_proc, if_neg fun heq ↦ hc (by rw [heq, booted_eq])] at hunused
    exact (hunused rfl).elim
  unused_parent c _ := booted_parent c
  forking p np copied hp := by cases hp
  forking_unique p q np copied copied' hp := by cases hp
  pos_live p hp := (hp (booted_pos p)).elim
  asleep p hp := by cases hp

/-- The tree holds along every run. -/
theorem tree_of_run {es : List Event} (hrun : run step booted es = some s) : Tree s :=
  run_invariant tree_booted (fun _ _ _ h hstep ↦ h.move (step_move hstep)) hrun

end EasyKernels.Xv6.Processes
