import EasyKernels.Xv6.ProcessTree

/-!
# Children start with `killed` clear

`kill` looks for a pid and not for a process. A slot that was never filled or that `wait` emptied
has pid 0, and a slot that a failed `fork` gave up keeps its last pid; `allocproc` leaves `killed`
as it finds it. `startUnkilled` says that a child starts with `killed` clear, or was killed by its
own pid, in every run in which `kill` does not find an empty slot and `fork` does not give up a slot
with `killed` set; `killedBeforeBirth` is a run of the other kind.
-/

set_option autoImplicit false

namespace EasyKernels.Xv6.Processes

open List Lib.Runs

/-- What `killed` means for a slot is the same after a step as before. -/
structure Kept (s t : State) (p : Slot) : Prop where
  killed : (t.proc p).killed = (s.proc p).killed
  pid : (t.proc p).pid = (s.proc p).pid
  serial : t.serial p = s.serial p
  unused : (t.proc p).state = .unused ↔ (s.proc p).state = .unused

theorem Kept.refl (s : State) (p : Slot) : Kept s s p := ⟨rfl, rfl, rfl, .rfl⟩

variable {s t : State} {p q : Slot} {h : List Record}

theorem Kept.trans {u : State} (h : Kept s t p) (h' : Kept t u p) : Kept s u p :=
  ⟨h'.killed.trans h.killed, h'.pid.trans h.pid, h'.serial.trans h.serial, h'.unused.trans h.unused⟩

theorem Kept.setPos (h : Kept s t p) (q : Slot) (pos : Pos) : Kept s (t.setPos q pos) p :=
  ⟨h.killed, h.pid, h.serial, h.unused⟩

open State

/-- A slot is kept when another one changes. -/
theorem kept_setProc_of_ne (s : State) (proc : Proc) (hpq : p ≠ q) :
    Kept s (s.setProc q proc) p := by
  constructor <;> simp [setProc, Function.update_of_ne hpq]

theorem kept_setProc {proc : Proc} (hkilled : proc.killed = (s.proc q).killed)
    (hpid : proc.pid = (s.proc q).pid) (hstate : proc.state = .unused ↔ (s.proc q).state = .unused)
    (p : Slot) : Kept s (s.setProc q proc) p := by
  rcases eq_or_ne p q with rfl | hpq
  · constructor
    · rw [proc_setProc, if_pos rfl, hkilled]
    · rw [proc_setProc, if_pos rfl, hpid]
    · rfl
    · rw [proc_setProc, if_pos rfl, hstate]
  · exact kept_setProc_of_ne s proc hpq

/-- A process that has started and has not exited goes on, or to its end. -/
theorem kept_of_used (hused : (s.proc q).state ≠ .unused) {proc : Proc}
    (hkilled : proc.killed = (s.proc q).killed) (hpid : proc.pid = (s.proc q).pid)
    (hstate : proc.state ≠ .unused) (p : Slot) : Kept s (s.setProc q proc) p :=
  kept_setProc hkilled hpid (iff_of_false hstate hused) p

theorem kept_wakeup1 (s : State) (chan : Option Chan) (p : Slot) : Kept s (wakeup1 s chan) p := by
  constructor <;> simp only [wakeup1] <;> split_ifs with hwake <;> simp [hwake]

theorem kept_reparent (s : State) (curproc p : Slot) : Kept s (reparent s curproc) p := by
  constructor <;> simp only [reparent] <;> split_ifs <;> simp

theorem kept_passChildren (s : State) (curproc p : Slot) : Kept s (passChildren s curproc) p := by
  unfold passChildren
  split_ifs
  · exact (kept_reparent s curproc p).trans (kept_wakeup1 _ _ p)
  · exact kept_reparent s curproc p

theorem kept_exit {curproc : Slot} (hat : At s curproc .elsewhere) (p : Slot) :
    Kept s (exit s curproc) p := by
  have hpassed := fun q ↦ (kept_wakeup1 s ((s.proc curproc).parent.map .proc) q).trans
    (kept_passChildren _ curproc q)
  refine (hpassed p).trans (kept_of_used ?_ (by rfl) (by rfl) (by simp) p)
  simp [ne_eq, (hpassed curproc).unused, hat.1]

theorem kept_resume (hrunnable : (s.proc q).state = .runnable) (p : Slot) : Kept s (resume s q) p :=
  kept_of_used (by simp [hrunnable]) (by rfl) (by rfl) (by simp) p

/-- A slot that a step changes is left with `killed` clear, and listed if it is in use. -/
structure Cleared (h : List Record) (t : State) (p : Slot) : Prop where
  killed : (t.proc p).killed = false
  listed : (t.proc p).state ≠ .unused → .allocated (t.serial p) (t.proc p).pid ∈ h

/-- `wait` clears `killed` in the slot that it empties, and changes no other. -/
theorem Turn.kept {curproc : Slot} (hturn : Turn s curproc t)
    (hused : (s.proc curproc).state ≠ .unused) (p : Slot) : Kept s t p ∨ Cleared h t p := by
  cases hturn with
  | reap child =>
    by_cases hp : p = child
    · right
      constructor <;> simp [hp, proc_setProc, Proc.reap]
    · exact .inl ((kept_setProc_of_ne s _ hp).setPos curproc _)
  | failed => exact .inl ((Kept.refl s p).setPos curproc _)
  | sleep =>
    exact .inl ((kept_of_used hused (by rfl) (by rfl) (by simp) p).setPos curproc _)

/-- What a history says about the table. -/
structure Told (h : List Record) (s : State) : Prop where
  /-- A slot in use was filled by `allocproc`. -/
  listed : ∀ p, (s.proc p).state ≠ .unused → .allocated (s.serial p) (s.proc p).pid ∈ h
  /-- A slot with `killed` set is in use. -/
  used : ∀ p, (s.proc p).killed = true → (s.proc p).state ≠ .unused
  /-- After `allocproc` gave it its pid, a kill was called with that pid. -/
  answered : ∀ p, (s.proc p).killed = true →
    [.allocated (s.serial p) (s.proc p).pid, .kill (s.proc p).pid].Sublist h

theorem Told.of_kept {more : List Record} (hs : Told h s)
    (hkept : ∀ p, Kept s t p ∨ Cleared (h ++ more) t p) : Told (h ++ more) t := by
  constructor
  · intro p hp
    rcases hkept p with hkept | hclear
    · rw [ne_eq, hkept.unused] at hp
      rw [hkept.serial, hkept.pid]
      exact mem_append_left more (hs.listed p hp)
    · exact hclear.listed hp
  · intro p hp
    rcases hkept p with hkept | hclear
    · rw [ne_eq, hkept.unused]
      exact hs.used p (hkept.killed ▸ hp)
    · rw [hclear.killed] at hp
      cases hp
  · intro p hp
    rcases hkept p with hkept | hclear
    · rw [hkept.serial, hkept.pid]
      exact (hs.answered p (hkept.killed ▸ hp)).trans (sublist_append_left h more)
    · rw [hclear.killed] at hp
      cases hp

/-- What the code does not check: `kill` does not find an empty slot, and `fork` does not give up a
slot with `killed` set. -/
def Careful (s : State) : Event → Prop
  | .kill pid => ∀ p, findPid s pid = some p → (s.proc p).state ≠ .unused
  | .forkFail p => ∀ np copied, s.pos p = .forking np copied → (s.proc np).killed = false
  | _ => True

instance (s : State) : (e : Event) → Decidable (Careful s e)
  | .kill pid => inferInstanceAs (Decidable (∀ p, findPid s pid = some p → _ ≠ _))
  | .forkFail p =>
    inferInstanceAs (Decidable (∀ np copied, s.pos p = .forking np copied → _ = _))
  | .fork _ | .forkCopy _ | .forkDone _ | .exit _ | .wait _ | .schedule _ | .yield _
  | .sleep _ _ | .wakeup _ => inferInstanceAs (Decidable True)

/-- A step that is no kill sets no `killed` flag and gives up no slot with one. -/
theorem Move.kept {e : Event} (hmove : Move s e t) (htree : Tree s) (hs : Told h s)
    (hcareful : Careful s e) (hkill : ∀ pid, e ≠ .kill pid) (p : Slot) :
    Kept s t p ∨ Cleared (h ++ (record s e).toList) t p := by
  cases hmove with
  | forkNone => exact .inl (.refl s p)
  | fork q np hat halloc hunused =>
    by_cases hp : p = np
    · right
      subst hp
      have hclear : (s.proc p).killed = false := by
        by_contra hkilled
        exact hs.used p (by simpa using hkilled) hunused
      constructor
      · simp [fill, setProc, hclear]
      · simp [record, halloc, setPos]
    · left
      constructor <;> simp [hp, fill, setPos, setProc]
  | forkFail q np hat =>
    by_cases hp : p = np
    · right
      constructor <;> simp [hp, proc_setState, hcareful np false hat.2]
    · exact .inl ((kept_setProc_of_ne s _ hp).setPos q _)
  | forkCopy q => exact .inl ((kept_setProc (by rfl) (by rfl) (by rfl) p).setPos q _)
  | forkDone q np hat =>
    have hused : (s.proc np).state ≠ .unused := by
      simp [(htree.forking q np true hat.2).1]
    exact .inl ((kept_of_used hused (by rfl) (by rfl) (by simp) p).setPos q _)
  | exit q hat => exact .inl (kept_exit hat p)
  | wait q t hat hturn => exact hturn.kept (by simp [hat.1]) p
  | killNone pid | kill pid => exact (hkill pid rfl).elim
  | schedule q hrunnable => exact .inl (kept_resume hrunnable p)
  | goOn q t hrunnable hpos hturn =>
    have hresumed : ((resume s q).proc q).state ≠ .unused := by
      simp [ne_eq, (kept_resume hrunnable q).unused, hrunnable]
    exact (hturn.kept hresumed p).imp_left (kept_resume hrunnable p).trans
  | yield q hrunning =>
    exact .inl (kept_of_used (by simp [hrunning]) (by rfl) (by rfl) (by simp) p)
  | sleep q addr hat =>
    exact .inl (kept_of_used (by simp [hat.1]) (by rfl) (by rfl) (by simp) p)
  | wakeup => exact .inl (kept_wakeup1 s _ p)

/-- A kill marks a slot that is in use, and is seen. -/
theorem Told.kill {pid : Int32} (hs : Told h s) (hfind : findPid s pid = some p)
    (hused : (s.proc p).state ≠ .unused) :
    Told (h ++ [.kill pid]) (s.setProc p (s.proc p).kill) := by
  have hstate : (s.proc p).kill.state ≠ .unused := by
    simp only [Proc.kill]
    split_ifs
    · simp
    · exact hused
  have hother : ∀ q, q ≠ p → Kept s (s.setProc p (s.proc p).kill) q :=
    fun q hq ↦ kept_setProc_of_ne s _ hq
  have hself : (s.setProc p (s.proc p).kill).proc p = (s.proc p).kill := by
    rw [proc_setProc, if_pos rfl]
  constructor
  · intro q hq
    by_cases hqp : q = p
    · rw [hqp, hself]
      exact mem_append_left _ (hs.listed p hused)
    · rw [ne_eq, (hother q hqp).unused] at hq
      rw [(hother q hqp).pid]
      exact mem_append_left _ (hs.listed q hq)
  · intro q hq
    by_cases hqp : q = p
    · rwa [hqp, hself]
    · rw [ne_eq, (hother q hqp).unused]
      exact hs.used q ((hother q hqp).killed ▸ hq)
  · intro q hq
    by_cases hqp : q = p
    · rw [hqp, hself]
      have hlisted := singleton_sublist.mpr (hs.listed p hused)
      rw [← findPid_eq_some hfind]
      exact hlisted.append (List.Sublist.refl _)
    · rw [(hother q hqp).pid]
      exact (hs.answered q ((hother q hqp).killed ▸ hq)).trans (sublist_append_left h _)

theorem told_booted : Told (history []) booted where
  listed p hp := by
    rw [booted_proc] at hp ⊢
    split_ifs at hp ⊢ with hfirst
    · rw [booted_eq]
      simp [history, trace, hfirst, setState, setProc, fill, zeroed]
    · exact (hp rfl).elim
  used p hp := by
    rw [booted_proc] at hp
    split_ifs at hp
  answered p hp := by
    rw [booted_proc] at hp
    split_ifs at hp

/-- What a history says holds along every run whose steps are careful. -/
theorem told_of_run {es : List Event} (hmeets : Meets step Careful booted es)
    (hrun : run step booted es = some s) : Told (history es) s := by
  refine run_induction_of_meets (I := fun es s ↦ Told (history es) s) told_booted
    (fun es s e t hrun hs hcareful hstep ↦ ?_) hmeets hrun
  have htree := tree_of_run hrun
  rw [history_concat hrun hstep]
  by_cases hkill : ∃ pid, e = .kill pid
  · obtain ⟨pid, rfl⟩ := hkill
    cases step_move hstep with
    | killNone _ => exact hs.of_kept fun p ↦ .inl (.refl s p)
    | kill _ p hfind => exact hs.kill hfind (hcareful p hfind)
  · exact hs.of_kept ((step_move hstep).kept htree hs hcareful fun pid heq ↦ hkill ⟨pid, heq⟩)

/-- In a step, `kill` sets `killed` only in a slot that is in use, and a child that `fork` makes
`RUNNABLE` has `killed` clear, unless a kill was called with its pid after `allocproc` assigned
it. -/
structure StartsUnkilled (h : List Record) (s : State) (e : Event) (t : State) : Prop where
  used : ∀ pid p, e = .kill pid → (s.proc p).killed = false → (t.proc p).killed = true →
    (s.proc p).state ≠ .unused
  clear : ∀ p np copied, e = .forkDone p → s.pos p = .forking np copied →
    (t.proc np).killed = true →
      [.allocated (t.serial np) (t.proc np).pid, .kill (t.proc np).pid].Sublist h

/-- Every step of a run whose steps are careful leaves no child killed before its birth. -/
theorem startUnkilled {es : List Event} {s t : State} {e : Event}
    (hmeets : Meets step Careful booted (es ++ [e])) (hrun : run step booted es = some s)
    (hstep : step s e = .next t) : StartsUnkilled (history es) s e t := by
  have hs := told_of_run hmeets.of_append hrun
  have hcareful := hmeets.last hrun
  constructor
  · rintro pid p rfl hbefore hafter
    cases step_move hstep with
    | killNone _ =>
      rw [hbefore] at hafter
      cases hafter
    | kill _ q hfind =>
      rw [proc_setProc] at hafter
      split_ifs at hafter with hpq
      · rw [hpq]
        exact hcareful q hfind
      · rw [hbefore] at hafter
        cases hafter
  · rintro p np copied rfl hpos hkilled
    cases step_move hstep with
    | forkDone _ child hat =>
      obtain ⟨rfl, -⟩ : child = np ∧ _ := by simpa using hat.2.symm.trans hpos
      simp only [proc_setPos, proc_setState, if_true] at hkilled ⊢
      exact hs.answered child hkilled

/-- The child of a `fork` is killed by its pid, which is 2, before it starts. -/
theorem startUnkilled_killedEmbryo : ∃ s t,
    run step booted [.schedule first, .fork first, .kill 2, .forkCopy first] = some s ∧
      step s (.forkDone first) = .next t ∧ (t.proc ⟨1, by decide⟩).killed = true ∧
      StartsUnkilled (history [.schedule first, .fork first, .kill 2, .forkCopy first]) s
        (.forkDone first) t :=
  ⟨_, _, run_get (by decide +kernel), step_get (by decide +kernel), by decide +kernel,
    startUnkilled (by decide +kernel) (run_get _) (step_get _)⟩

/-- A kill of pid 0 marks the first empty slot, and the next child is born killed. -/
theorem killedBeforeBirth :
    (∃ t, step booted (.kill 0) = .next t ∧ ¬ StartsUnkilled (history []) booted (.kill 0) t) ∧
    ∃ s t, run step booted [.kill 0, .schedule first, .fork first, .forkCopy first] = some s ∧
      step s (.forkDone first) = .next t ∧
      ¬ StartsUnkilled (history [.kill 0, .schedule first, .fork first, .forkCopy first]) s
        (.forkDone first) t := by
  constructor
  · refine ⟨kill booted 0, rfl, fun h ↦ ?_⟩
    exact h.used 0 ⟨1, by decide⟩ rfl (by decide +kernel) (by decide +kernel) (by decide +kernel)
  · refine ⟨_, _, run_get (by decide +kernel), step_get (by decide +kernel), fun h ↦ ?_⟩
    have hkill := h.clear first ⟨1, by decide⟩ true rfl (by decide +kernel) (by decide +kernel)
    revert hkill
    decide +kernel

end EasyKernels.Xv6.Processes
