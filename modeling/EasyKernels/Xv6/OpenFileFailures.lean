import EasyKernels.Xv6.OpenFileGiving

/-!
# Calls that fail

A call that may still return -1 (`Proc.undone`) has not changed `ofile[]` or `cwd`, and of the files
it has changed only those that it has itself or that were free (`Undone`). `go_mayFail` says so of
every step, and `begin_mayFail` of the first one.
-/

set_option autoImplicit false

namespace EasyKernels.Xv6.OpenFiles

open Function Lib.Runs

/-! ### Calls that fail -/

/-- The call of the process may still fail, or it has failed. -/
def Proc.undone (proc : Proc) : Prop :=
  match proc.pc with
  | .user => proc.value = -1
  | .ops _ (.ret value) => value = -1
  | .ops _ (.exit _) | .files .. => False
  | _ => True

attribute [simp] Proc.undone

/-- What a step of a process does whose call may still fail after it. -/
structure Undone (s : State) (p : Slot) (t : State) : Prop where
  undone : (s.proc p).undone
  ofile : (t.proc p).ofile = (s.proc p).ofile
  cwd : (t.proc p).cwd = (s.proc p).cwd
  state : (t.proc p).state = (s.proc p).state
  file : ∀ f, t.file f = s.file f ∨ Ref.file f ∈ (s.proc p).pc.held ∨ (s.file f).ref = 0
  held : ∀ f, Ref.file f ∈ (t.proc p).pc.held → Ref.file f ∈ (s.proc p).pc.held ∨
    (s.file f).ref = 0
  others : ∀ q, q ≠ p → ∀ r, (t.proc q).holds r = (s.proc q).holds r

section

variable {s s' : State} {p : Slot}

@[simp] theorem proc_setPc_self (s : State) (p : Slot) (pc : Pc) :
    (s.setPc p pc).proc p = { s.proc p with pc := pc } := update_self ..

variable {pc : Pc} {np : Slot} {t : State} {goal : Goal} {ip : ℕ} {todo : List Op} {next : Next}

/-- A step after which the call may still fail. -/
def MayFail (s : State) (p : Slot) (o : Outcome Fault State) : Prop :=
  ∀ t, o = .next t → (t.proc p).undone → Undone s p t

theorem MayFail.of_next (h : Undone s p t) : MayFail s p (.next t) := by
  intro u hu _
  cases hu
  exact h

theorem MayFail.of_not (h : ¬ (t.proc p).undone) : MayFail s p (.next t) := by
  intro u hu hundone
  cases hu
  exact absurd hundone h

theorem MayFail.blocked : MayFail s p .blocked := by
  intro t ht
  cases ht

theorem MayFail.fault {r : Fault} : MayFail s p (.fault r) := by
  intro t ht
  cases ht

theorem MayFail.alone {choice : Choice} {o : Outcome Fault State} (h : MayFail s p o) :
    MayFail s p (choice.alone o) := by
  rw [Choice.alone]
  split_ifs
  · exact h
  · exact .blocked

theorem not_undone_ret {proc : Proc} (value : ℤ) (hpc : proc.pc = .ret value) (hvalue : 0 ≤ value) :
    ¬ proc.undone := by
  rw [Proc.undone, hpc]
  show ¬ value = -1
  omega

section

variable (hundone : (s.proc p).undone)

include hundone

open State

/-- A step that changes where the process is, and files that it has or that are free. -/
theorem undone_setPc (hproc : s'.proc = s.proc)
    (hfile : ∀ f, s'.file f = s.file f ∨ Ref.file f ∈ (s.proc p).pc.held ∨ (s.file f).ref = 0)
    (hheld : ∀ f, Ref.file f ∈ pc.held → Ref.file f ∈ (s.proc p).pc.held ∨ (s.file f).ref = 0) :
    Undone s p (s'.setPc p pc) := by
  refine ⟨hundone, ?_, ?_, ?_, hfile, fun f hf ↦ ?_, fun q hq r ↦ ?_⟩
  iterate 3 rw [proc_setPc_self, hproc]
  · rw [proc_setPc_self] at hf
    exact hheld f hf
  · rw [setPc, proc_setProc_of_ne hq, hproc]

/-- `filealloc`, or the change of a file that the process has. -/
theorem MayFail.setFile {f : FilePtr} {file : File}
    (hf : Ref.file f ∈ (s.proc p).pc.held ∨ (s.file f).ref = 0)
    (hheld : ∀ g, Ref.file g ∈ pc.held → g = f ∨ Ref.file g ∈ (s.proc p).pc.held) :
    MayFail s p (.next ((s.setFile f file).setPc p pc)) := by
  refine .of_next (undone_setPc hundone rfl (fun g ↦ ?_) fun g hg ↦ ?_)
  · by_cases hgf : g = f
    · rw [hgf]
      exact .inr hf
    · exact .inl (update_of_ne hgf ..)
  · rcases hheld g hg with rfl | hold
    · exact hf
    · exact .inl hold

/-- The slot of a child is taken or given back. -/
theorem MayFail.fork {state : ProcState} (hne : p ≠ np) (hheld : pc.held = []) :
    MayFail s p (.next ((s.setProc np { s.proc np with state := state }).setPc p pc)) := by
  have hself : (s.setProc np { s.proc np with state := state }).proc p = s.proc p :=
    proc_setProc_of_ne hne
  refine .of_next ⟨hundone, ?_, ?_, ?_, fun f ↦ .inl rfl, fun f hf ↦ ?_, fun q hq r ↦ ?_⟩
  iterate 3 rw [proc_setPc_self, hself]
  · simp only [proc_setPc_self, hheld] at hf
    cases hf
  · rw [setPc, proc_setProc_of_ne hq]
    by_cases hqnp : q = np
    · rw [hqnp, setProc]
      simp only [update_self]
      rfl
    · rw [proc_setProc_of_ne hqnp]

/-- No file changes, and the process has no new one. -/
theorem MayFail.goOn (hproc : s'.proc = s.proc) (hfile : s'.file = s.file)
    (hheld : ∀ f, Ref.file f ∈ pc.held → Ref.file f ∈ (s.proc p).pc.held) :
    MayFail s p (.next (s'.setPc p pc)) :=
  .of_next (undone_setPc hundone hproc (fun _ ↦ .inl (by rw [hfile])) fun f hf ↦ .inl (hheld f hf))

theorem MayFail.fail (ip : ℕ) : MayFail s p (.next (s.fail p ip)) :=
  .goOn hundone rfl rfl fun f hf ↦ by simp [Op.ref] at hf

theorem startPath_mayFail {absolute : Bool} {elems : ℕ} :
    MayFail s p (startPath s p goal absolute elems) := by
  rw [startPath]
  split_ifs
  · exact .goOn hundone rfl rfl (by simp)
  · cases (s.proc p).cwd with
    | none => exact .fault
    | some ip => exact .goOn hundone rfl rfl (by simp)

theorem namex_mayFail {elems : ℕ} (choice : Choice) :
    MayFail s p (namex s p goal elems ip choice) := by
  have hfound : MayFail s p (.next (s.setPc p (.found goal ip))) :=
    .goOn hundone rfl rfl (by simp)
  unfold namex
  split
  · split_ifs
    · exact .fail hundone ip
    · exact hfound
  · exact .fail hundone ip
  · split_ifs
    · exact hfound
    · exact .blocked
  · split_ifs
    · exact .blocked
    · exact .goOn hundone rfl rfl (by simp)
  · exact .blocked

theorem found_mayFail (choice : Choice) : MayFail s p (found s p ip goal choice) := by
  unfold found
  split
  case h_1 => exact .goOn hundone rfl rfl (by simp)
  case h_2 =>
    split_ifs
    · exact .blocked
    · exact .fail hundone ip
  case h_3 =>
    cases (s.proc p).cwd with
    | none => exact .fault
    | some => exact .of_not (by simp [State.setProc])
  case h_4 => exact .fail hundone ip
  case h_5 => exact .goOn hundone rfl rfl (by simp)
  case h_6 => exact .goOn hundone rfl rfl (by simp)
  case h_7 => exact .fault
  case h_8 => exact .blocked

theorem alloc_mayFail : MayFail s p (.next (alloc s p ip)) := by
  rw [alloc]
  cases hfile : s.freeFile with
  | none => exact .fail hundone ip
  | some f =>
    cases (s.proc p).freeFd with
    | none =>
      refine .setFile hundone (.inr (freeFile_eq_some hfile)) fun g hg ↦ .inl ?_
      simpa [Op.ref] using hg
    | some fd =>
      refine .of_not (not_undone_ret fd ?_ (Int.natCast_nonneg fd))
      simp [State.setProc]

theorem pipeFile_mayFail : MayFail s p (.next (pipeFile s p)) := by
  rw [pipeFile]
  cases hfile : s.freeFile with
  | none => exact .goOn hundone rfl rfl (by simp)
  | some f =>
    refine .setFile hundone (.inr (freeFile_eq_some hfile)) fun g hg ↦ .inl ?_
    simpa [Pc.held] using hg

theorem pipeFiles_mayFail {f₀ : FilePtr} (hpc : (s.proc p).pc = .pipeOne f₀) :
    MayFail s p (.next (pipeFiles s p f₀)) := by
  rw [pipeFiles]
  cases hfile : s.freeFile with
  | none =>
    refine .goOn hundone rfl rfl fun g hg ↦ ?_
    simpa [hpc, Pc.held, Op.ref] using hg
  | some f =>
    refine .setFile hundone (.inr (freeFile_eq_some hfile)) fun g hg ↦ ?_
    simpa [hpc, Pc.held, or_comm] using hg

theorem pipeAlloc_mayFail {f₀ f₁ : FilePtr} (hpc : (s.proc p).pc = .pipeTwo f₀ f₁)
    (choice : Choice) : MayFail s p (pipeAlloc s p f₀ f₁ choice) := by
  have hheld : ∀ g, .file g ∈ (Pc.ops [.fileclose f₀, .fileclose f₁] (.ret (-1))).held →
      .file g ∈ (s.proc p).pc.held := by
    intro g hg
    simpa [hpc, Pc.held, Op.ref] using hg
  unfold pipeAlloc
  split
  case h_1 => exact .goOn hundone rfl rfl hheld
  case h_2 page =>
    split_ifs
    · have hfile : ∀ g, (pipeEnds s f₀ f₁ page).file g = s.file g ∨
          .file g ∈ (s.proc p).pc.held ∨ (s.file g).ref = 0 := by
        intro g
        by_cases hg : g = f₀ ∨ g = f₁
        · refine .inr (.inl ?_)
          simpa [hpc, Pc.held] using hg
        · rw [not_or] at hg
          simp [pipeEnds, State.setFile, State.setPipe, hg.1, hg.2]
      have hfailed : MayFail s p (.next ((pipeEnds s f₀ f₁ page).setPc p
          (.ops [.fileclose f₀, .fileclose f₁] (.ret (-1))))) :=
        .of_next (undone_setPc hundone rfl hfile fun g hg ↦ .inl (hheld g hg))
      rw [pipeFds]
      simp only
      split
      · exact hfailed
      · split
        · exact hfailed
        · refine .of_not (not_undone_ret 0 ?_ le_rfl)
          simp [State.setProc]
    · exact .blocked
  case h_3 => exact .blocked

theorem fileclose_mayFail {f : FilePtr} (hpc : (s.proc p).pc = .ops (.fileclose f :: todo) next) :
    MayFail s p (fileclose s p f todo next) := by
  have hheld : .file f ∈ (s.proc p).pc.held := by simp [hpc, Op.ref]
  rw [fileclose]
  split_ifs
  · exact .fault
  · refine .setFile hundone (.inl hheld) fun g hg ↦ .inr ?_
    rw [hpc]
    exact List.mem_cons_of_mem _ hg
  · refine .setFile hundone (.inl hheld) fun g hg ↦ .inr ?_
    rw [hpc]
    refine List.mem_cons_of_mem _ ?_
    cases htype : (s.file f).type <;> simp [htype, Op.ref] at hg ⊢ <;> exact hg

theorem runOp_mayFail {op : Op} (hpc : (s.proc p).pc = .ops (op :: todo) next) :
    MayFail s p (runOp s p todo next op) := by
  have hheld : ∀ f, .file f ∈ (Pc.ops todo next).held → .file f ∈ (s.proc p).pc.held := by
    intro f hf
    rw [hpc]
    exact List.mem_cons_of_mem _ hf
  have hkfree : ∀ page f, .file f ∈ (Pc.ops (.kfree page :: todo) next).held →
      .file f ∈ (s.proc p).pc.held := by
    intro page f hf
    refine hheld f ?_
    simpa [Op.ref] using hf
  cases op with
  | fileclose f => exact fileclose_mayFail hundone hpc
  | pipeclose page =>
    rw [runOp, pipeclose]
    split
    · exact .fault
    · simp only
      split_ifs
      · exact .goOn hundone rfl rfl (hkfree page)
      · exact .goOn hundone rfl rfl hheld
  | kfree =>
    rw [runOp]
    split_ifs
    · exact .fault
    · exact .goOn hundone rfl rfl hheld
  | iput ip => exact .goOn hundone rfl rfl hheld

theorem allocproc_mayFail (hrunning : (s.proc p).state = .running) (choice : Choice) :
    MayFail s p (allocproc s p choice) := by
  unfold allocproc
  split
  case h_1 => exact .goOn hundone rfl rfl (by simp)
  case h_2 np =>
    split_ifs with hunused
    · exact .fork hundone (ne_of_state hrunning (by simp [hunused])) rfl
    · exact .blocked
  case h_3 => exact .blocked

theorem copy_mayFail (h : Inv s) (hrunning : (s.proc p).state = .running)
    (hpc : (s.proc p).pc = .copy np) (choice : Choice) : MayFail s p (copy s p np choice) := by
  have hembryo := (h.child p np (by rw [hpc, Pc.child])).embryo
  unfold copy
  split
  case h_1 => exact .fork hundone (ne_of_state hrunning (by simp [hembryo])) rfl
  case h_2 => exact .of_not (by simp)
  case h_3 => exact .blocked

end

theorem runOp_pc {op : Op} (h : runOp s p todo next op = .next t) :
    ∃ todo', (t.proc p).pc = .ops todo' next := by
  cases op with
  | fileclose f =>
    rw [runOp, fileclose] at h
    split_ifs at h <;> cases h <;> exact ⟨_, by rw [proc_setPc_self]⟩
  | pipeclose =>
    rw [runOp, pipeclose] at h
    split at h
    · cases h
    · simp only at h
      split_ifs at h <;> cases h <;> exact ⟨_, by rw [proc_setPc_self]⟩
  | kfree =>
    rw [runOp] at h
    split_ifs at h
    cases h
    exact ⟨_, by rw [proc_setPc_self]⟩
  | iput ip =>
    cases h
    exact ⟨_, by rw [proc_setPc_self]⟩

theorem resume_mayFail (hpc : (s.proc p).pc = .ops [] next) : MayFail s p (resume s p next) := by
  unfold resume
  split
  case h_1 value =>
    intro t ht hundone
    cases ht
    have hself : (s.setProc p { s.proc p with pc := .user, value := value }).proc p =
        { s.proc p with pc := .user, value := value } := update_self ..
    rw [hself] at hundone
    refine ⟨?_, ?_, ?_, ?_, fun f ↦ .inl rfl, fun f hf ↦ ?_, fun q hq r ↦ ?_⟩
    · rw [Proc.undone, hpc]
      exact hundone
    · rw [hself]
    · rw [hself]
    · rw [hself]
    · rw [hself] at hf
      simp at hf
    · rw [proc_setProc_of_ne hq]
  case h_2 fd fds =>
    split
    · exact .of_not (by simp)
    · exact .of_not (by simp [State.setProc])
  case h_3 =>
    split
    · exact .fault
    · exact .of_not (by simp [State.setProc])

theorem forkFiles_mayFail {fds : List (Fin nOFile)} : MayFail s p (forkFiles s p np fds) := by
  unfold forkFiles
  split
  · split
    · exact .of_not (by simp)
    · split_ifs
      · exact .fault
      · exact .of_not (by simp)
  · split
    · exact .fault
    · refine .of_not (not_undone_ret (np.val + 1) ?_ (by omega))
      simp

theorem go_mayFail (h : Inv s) (hrunning : (s.proc p).state = .running) (choice : Choice) :
    MayFail s p (go s p choice) := by
  rw [go]
  split
  case h_1 => exact .blocked
  case h_2 hpc => exact (startPath_mayFail (by simp [hpc])).alone
  case h_3 hpc => exact namex_mayFail (by simp [hpc]) choice
  case h_4 hpc => exact .alone (.goOn (by simp [hpc]) rfl rfl (by simp))
  case h_5 hpc => exact found_mayFail (by simp [hpc]) choice
  case h_6 hpc => exact .alone (.goOn (by simp [hpc]) rfl rfl (by simp))
  case h_7 hpc =>
    have hundone : (s.proc p).undone := by simp [hpc]
    unfold checked
    split
    · exact .goOn hundone rfl rfl (by simp)
    · exact .fail hundone _
    · exact .blocked
  case h_8 hpc => exact .alone (.goOn (by simp [hpc]) rfl rfl (by simp))
  case h_9 hpc => exact (alloc_mayFail (by simp [hpc])).alone
  case h_10 hpc => exact (pipeFile_mayFail (by simp [hpc])).alone
  case h_11 hpc => exact (pipeFiles_mayFail (by simp [hpc]) hpc).alone
  case h_12 hpc => exact pipeAlloc_mayFail (by simp [hpc]) hpc choice
  case h_13 hpc => exact allocproc_mayFail (by simp [hpc]) hrunning choice
  case h_14 hpc => exact copy_mayFail (by simp [hpc]) h hrunning hpc choice
  case h_15 hpc => exact forkFiles_mayFail.alone
  case h_16 op todo next hpc =>
    -- A step that gives back a reference does not decide what the call returns.
    refine .alone fun t ht hundone ↦ ?_
    obtain ⟨todo', hpc'⟩ := runOp_pc ht
    refine runOp_mayFail ?_ hpc t ht hundone
    rw [Proc.undone, hpc'] at hundone
    rw [Proc.undone, hpc]
    cases next with
    | ret => exact hundone
    | exit => exact hundone
  case h_17 hpc => exact (resume_mayFail hpc).alone

theorem begin_mayFail {c : Call} (hbegin : begin s p c = .next t) (hundone : (t.proc p).undone) :
    (t.proc p).ofile = (s.proc p).ofile ∧ (t.proc p).cwd = (s.proc p).cwd ∧
      (t.proc p).state = (s.proc p).state ∧ t.file = s.file ∧ (t.proc p).pc.held = [] ∧
      ∀ q, q ≠ p → t.proc q = s.proc q := by
  have hset : ∃ pc : Pc, pc.held = [] ∧ t = s.setPc p pc := by
    cases c with
    | bad | «open» absolute elems create rdonly | pipe | fork | chdir absolute elems =>
      exact ⟨_, rfl, (Outcome.next.inj hbegin).symm⟩
    | close fd =>
      have ht := (Outcome.next.inj hbegin).symm
      rw [sysClose] at ht
      split at ht
      · exact ⟨_, rfl, ht⟩
      · rw [ht] at hundone
        simp [State.setProc] at hundone
    | dup fd =>
      rw [begin, sysDup] at hbegin
      split at hbegin
      · exact ⟨_, rfl, (Outcome.next.inj hbegin).symm⟩
      · split at hbegin
        · exact ⟨_, rfl, (Outcome.next.inj hbegin).symm⟩
        case h_2 fd' _ =>
          split_ifs at hbegin
          have ht := (Outcome.next.inj hbegin).symm
          refine absurd hundone (not_undone_ret fd' ?_ (Int.natCast_nonneg fd'))
          simp [ht, State.setProc]
    | exit =>
      rw [begin] at hbegin
      split_ifs at hbegin
      rw [(Outcome.next.inj hbegin).symm] at hundone
      simp at hundone
  obtain ⟨pc, hheld, rfl⟩ := hset
  rw [proc_setPc_self]
  exact ⟨rfl, rfl, rfl, rfl, hheld, fun q hq ↦ proc_setProc_of_ne hq⟩

end

end EasyKernels.Xv6.OpenFiles
