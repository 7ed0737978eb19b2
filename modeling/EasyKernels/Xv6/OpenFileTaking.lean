import EasyKernels.Xv6.OpenFileCounts

/-!
# The steps that take references

Each step of `open`, `chdir` and `pipe` keeps the invariant (`Good`), and panics only when `ialloc`
finds no inode.
-/

set_option autoImplicit false

namespace EasyKernels.Xv6.OpenFiles

open List Function Lib.Runs Lib.Counting Lib.Holders

/-! ### The steps -/

/-- A step keeps the invariant, and panics only for want of inodes or when the first process
exits. -/
structure Good (s : State) (p : Slot) (o : Outcome Fault State) : Prop where
  next : ∀ t, o = .next t → Inv t ∧ Moves s p t
  fault : ∀ r, o = .fault r → r = .noInodes ∨ r = .initExiting

variable {s : State} {p : Slot}

theorem Good.of_next {t : State} (h : Inv t ∧ Moves s p t) : Good s p (.next t) := by
  constructor
  · intro u hu
    cases hu
    exact h
  · simp

theorem Good.blocked : Good s p .blocked := by constructor <;> simp

theorem Good.noInodes : Good s p (.fault .noInodes) := by
  constructor <;> simp

theorem Good.initExiting : Good s p (.fault .initExiting) := by
  constructor <;> simp

section

variable {s : State} {p : Slot}

variable {pc : Pc} {ip : ℕ} {goal : Goal} {file : File} {f f₀ f₁ : FilePtr}

section

variable (h : Inv s) (hrunning : (s.proc p).state = .running)

include h hrunning

/-- A process goes on to a place that is not in `pipealloc`, `fork` or `exit`. -/
theorem Inv.setPc (hheld : pc.held = (s.proc p).pc.held) (hplain : pc.plain) :
    Good s p (.next (s.setPc p pc)) :=
  .of_next (h.goOn hrunning rfl rfl (h.settled.setPc hheld) hplain)

theorem Inv.iget (hheld : pc.held.Perm (.inode ip :: (s.proc p).pc.held)) (hplain : pc.plain) :
    Good s p (.next ((s.iget ip).setPc p pc)) :=
  .of_next (h.goOn hrunning rfl rfl (h.settled.iget hheld) hplain)

theorem Inv.iput (hheld : (s.proc p).pc.held = .inode ip :: pc.held) (hplain : pc.plain) :
    Good s p (.next ((s.iput ip).setPc p pc)) :=
  .of_next (h.goOn hrunning rfl rfl (h.settled.iput hheld) hplain)

theorem Inv.fail (hheld : (s.proc p).pc.held = [.inode ip]) : Good s p (.next (s.fail p ip)) :=
  h.setPc hrunning hheld.symm rfl

theorem startPath_good {absolute : Bool} {elems : ℕ}
    (hpc : (s.proc p).pc = .start goal absolute elems) :
    Good s p (startPath s p goal absolute elems) := by
  have hget : ∀ ip, Good s p (.next ((s.iget ip).setPc p (.namex goal elems ip))) := by
    intro ip
    refine h.iget hrunning ?_ rfl
    rw [hpc]
    exact .refl _
  rw [startPath]
  split_ifs
  · exact hget rootIno
  · cases hcwd : (s.proc p).cwd with
    | none => exact absurd hcwd ((h.ok p).cwd.mp hrunning)
    | some ip => exact hget ip

theorem namex_good {elems : ℕ} (hpc : (s.proc p).pc = .namex goal elems ip) (choice : Choice) :
    Good s p (namex s p goal elems ip choice) := by
  have hheld : (s.proc p).pc.held = [.inode ip] := by simp [hpc]
  have hfound : Good s p (.next (s.setPc p (.found goal ip))) := h.setPc hrunning hheld.symm rfl
  have hstep : ∀ n next, Good s p (.next ((s.iget next).setPc p (.step goal n ip next))) := by
    intro n next
    refine h.iget hrunning ?_ rfl
    rw [hheld]
    exact .swap ..
  unfold namex
  split
  · split_ifs
    · exact h.fail hrunning hheld
    · exact hfound
  · exact h.fail hrunning hheld
  · split_ifs
    · exact hfound
    · exact .blocked
  · split_ifs
    · exact .blocked
    · exact hstep _ _
  · exact .blocked

end

/-- A new current directory. -/
theorem chdir_settled (h : Settled s) {old : ℕ} (hcwd : (s.proc p).cwd = some old)
    (hheld : (s.proc p).pc.held = [.inode ip]) :
    Settled ((s.iput old).setProc p { s.proc p with cwd := some ip, pc := .ret 0 }) := by
  refine h.trade_proc rfl rfl fun r ↦ ?_
  have hcount := count_iput (h.iref_pos hcwd) r
  simp only [count_setProc, Proc.holds, Proc.keeps, hheld, hcwd, held_ret, count_nil,
    count_cons, Option.elim_some]
  omega

theorem found_good (h : Inv s) (hrunning : (s.proc p).state = .running)
    (hpc : (s.proc p).pc = .found goal ip) (choice : Choice) :
    Good s p (found s p ip goal choice) := by
  have hheld : (s.proc p).pc.held = [.inode ip] := by simp [hpc]
  have hget : ∀ next pc, pc.held = [.inode ip, .inode next] → pc.plain →
      Good s p (.next ((s.iget next).setPc p pc)) := by
    intro next pc hpc' hplain
    refine h.iget hrunning ?_ hplain
    rw [hheld, hpc']
    exact .swap ..
  unfold found
  split
  case h_1 => exact h.setPc hrunning hheld.symm rfl
  case h_2 =>
    split_ifs
    · exact .blocked
    · exact h.fail hrunning hheld
  case h_3 =>
    cases hcwd : (s.proc p).cwd with
    | none => exact absurd hcwd ((h.ok p).cwd.mp hrunning)
    | some old =>
      refine .of_next (h.keep (.inl hrunning) rfl rfl (chdir_settled h.settled hcwd hheld) ?_ rfl
        rfl)
      exact ⟨fun _ ↦ hrunning, by simp [hrunning], (h.ok p).closed, by simp⟩
  case h_4 => exact h.fail hrunning hheld
  case h_5 next => exact hget next _ rfl rfl
  case h_6 next => exact hget next _ rfl rfl
  case h_7 => exact .noInodes
  case h_8 => exact .blocked

/-! ### Files -/

theorem holds_of_ref_zero (h : file.ref = 0) (r : Ref) : file.holds r = 0 := by
  rw [File.holds, if_pos h]

theorem holds_none (ref : ℕ) (r : Ref) : File.holds ⟨ref, .none⟩ r = 0 := by
  simp [File.holds, FileType.ref]

theorem count_take (hf : (s.file f).ref = 0) (type : FileType) (r : Ref) :
    (s.setFile f ⟨1, type⟩).count r = s.count r + one (.file f) r := by
  have hcount := count_setFile s f ⟨1, type⟩ r
  simpa [hf] using hcount

/-- `filealloc`, with the file in the hands of the process. -/
theorem filealloc_settled (h : Inv s) (hf : (s.file f).ref = 0)
    (hheld : pc.held.Perm (.file f :: (s.proc p).pc.held)) :
    Settled ((s.setFile f { s.file f with ref := 1 }).setPc p pc) := by
  refine h.settled.trade (p := p) (f := f) rfl rfl fun r ↦ ?_
  have hnone : File.holds ⟨1, (s.file f).type⟩ r = 0 := by
    rw [h.typed f hf]
    exact holds_none 1 r
  have hr := hheld.count_eq r
  rw [count_cons] at hr
  rw [holds_of_ref_zero hf, hnone, count_setPc, count_take hf]
  simp only [Proc.holds]
  show _ = s.count r + (pc.held.count r + (s.proc p).keeps r + 0)
  omega

open State

theorem typed_setFile (h : Inv s) (hfile : file.ref = 0 → file.type = .none) (g : FilePtr)
    (hg : ((s.setFile f file).file g).ref = 0) : ((s.setFile f file).file g).type = .none := by
  rw [setFile] at hg ⊢
  simp only [update_apply] at hg ⊢
  split_ifs at hg ⊢
  · exact hfile hg
  · exact h.typed g hg

/-- The files after a change of one that the process has, or that is free. -/
theorem file_setFile (hf : 0 < (s.proc p).holds (.file f) ∨ (s.file f).ref = 0) (g : FilePtr) :
    (s.setFile f file).file g = s.file g ∨ 0 < (s.proc p).holds (.file g) ∨ (s.file g).ref = 0 := by
  by_cases hg : g = f
  · rw [hg]
    exact .inr hf
  · exact .inl (update_of_ne hg ..)

/-- `filealloc`, in a step to a place that is not in `fork` or `exit`. -/
theorem filealloc_good (h : Inv s) (hrunning : (s.proc p).state = .running)
    (hf : (s.file f).ref = 0) (hheld : pc.held.Perm (.file f :: (s.proc p).pc.held))
    (hexit : ∀ todo fds, pc ≠ .ops todo (.exit fds)) (hchild : pc.child = none)
    (hfresh : ∀ g ∈ pc.fresh, g = f ∨ g ≠ f ∧ g ∈ (s.proc p).pc.fresh)
    (hdistinct : pc.fresh.Nodup) :
    Good s p (.next ((s.setFile f { s.file f with ref := 1 }).setPc p pc)) := by
  refine .of_next (h.own (.inl hrunning) rfl (file_setFile (.inr hf)) ?_
    (filealloc_settled h hf hheld)
    ((h.ok p).setPc hrunning fun todo fds hpc ↦ absurd hpc (hexit todo fds)) ?_ hdistinct hchild)
  · exact fun g ↦ typed_setFile h (fun hone ↦ absurd hone Nat.one_ne_zero) g
  · intro g hg
    rcases hfresh g hg with rfl | ⟨hne, hold⟩
    · simp [setFile, h.typed g hf]
    · rw [setFile]
      simp only [update_of_ne hne]
      exact h.fresh p g hold

theorem alloc_settled (h : Inv s) (hf : (s.file f).ref = 0) {fd : Fin nOFile}
    (hfd : (s.proc p).ofile fd = none) (hheld : (s.proc p).pc.held = [.inode ip]) (value : ℤ) :
    Settled ((s.setFile f { ref := 1, type := .inode ip }).setProc p
      { (s.proc p).setFd fd (some f) with pc := .ret value }) := by
  refine h.settled.trade (p := p) (f := f) rfl rfl fun r ↦ ?_
  have hput := slots_put hfd f r
  rw [holds_of_ref_zero hf, count_setProc, count_take hf]
  simp only [Proc.holds, Proc.keeps, Proc.setFd, hheld, held_ret, count_nil, count_cons,
    File.holds, FileType.ref, Option.elim_some, Nat.one_ne_zero, if_false, hput]
  omega

section

variable (h : Inv s) (hrunning : (s.proc p).state = .running)

include h hrunning

theorem alloc_good (hpc : (s.proc p).pc = .alloc ip) : Good s p (.next (alloc s p ip)) := by
  have hheld : (s.proc p).pc.held = [.inode ip] := by simp [hpc]
  rw [alloc]
  cases hfile : s.freeFile with
  | none => exact h.fail hrunning hheld
  | some f =>
    have hf := freeFile_eq_some hfile
    cases hfree : (s.proc p).freeFd with
    | none =>
      refine filealloc_good h hrunning hf ?_ (by simp) rfl (by simp [Pc.fresh]) (by simp [Pc.fresh])
      rw [hheld]
      exact .refl _
    | some fd =>
      have hfd := freeFd_eq_some hfree
      refine .of_next (h.own (.inl hrunning) rfl (file_setFile (.inr hf)) ?_
        (alloc_settled h hf hfd hheld fd) ((h.ok p).setFd hrunning fd _ (by simp))
        (by simp [Pc.fresh]) (by simp [Pc.fresh]) rfl)
      exact fun g ↦ typed_setFile h (fun hone ↦ absurd hone Nat.one_ne_zero) g

/-! ### Pipes -/

theorem pipeFile_good (hpc : (s.proc p).pc = .pipe) : Good s p (.next (pipeFile s p)) := by
  have hheld : (s.proc p).pc.held = [] := by rw [hpc, Pc.held]
  rw [pipeFile]
  cases hfile : s.freeFile with
  | none => exact h.setPc hrunning hheld.symm rfl
  | some f =>
    refine filealloc_good h hrunning (freeFile_eq_some hfile) ?_ (by simp) rfl
      (by simp [Pc.fresh]) (by simp [Pc.fresh])
    rw [hheld]
    exact .refl _

theorem pipeFiles_good (hpc : (s.proc p).pc = .pipeOne f₀) :
    Good s p (.next (pipeFiles s p f₀)) := by
  have hheld : (s.proc p).pc.held = [.file f₀] := by rw [hpc, Pc.held]
  have hfresh : f₀ ∈ (s.proc p).pc.fresh := by simp [hpc, Pc.fresh]
  rw [pipeFiles]
  cases hfile : s.freeFile with
  | none => exact h.setPc hrunning hheld.symm rfl
  | some f =>
    have hf := freeFile_eq_some hfile
    have hne : f₀ ≠ f := by
      rintro rfl
      rw [h.fresh p f₀ hfresh] at hf
      cases hf
    refine filealloc_good h hrunning hf ?_ (by simp) rfl ?_ (by simp [Pc.fresh, hne])
    · rw [hheld]
      exact .swap ..
    · intro g hg
      rcases mem_pair.mp hg with rfl | rfl
      · exact .inr ⟨hne, hfresh⟩
      · exact .inl rfl

end

theorem count_newPipe {page : ℕ} (hpage : s.pipe page = none) (r : Ref) :
    (s.setPipe page (some ⟨true, true⟩)).count r =
      s.count r + (one (.pipeEnd page false) r + one (.pipeEnd page true) r) := by
  cases r with
  | file f => rfl
  | inode ip => rfl
  | pipeEnd a w =>
    rcases eq_or_ne a page with rfl | ha
    · cases w <;> simp [State.count, State.setPipe, hpage, one, Pipe.isOpen]
    · simp [State.count, State.setPipe, one, update_of_ne ha, Ne.symm ha]
  | page a =>
    rcases eq_or_ne a page with rfl | ha
    · simp [State.count, State.setPipe, hpage, one]
    · simp [State.count, State.setPipe, one, update_of_ne ha]

/-- A file becomes the end of a pipe. -/
theorem count_setType (hf : s.file f = ⟨1, .none⟩) (type : FileType) (r : Ref) :
    (s.setFile f ⟨1, type⟩).count r = s.count r := by
  have hcount := count_setFile s f ⟨1, type⟩ r
  rw [hf] at hcount
  simpa using hcount

theorem pipeEnds_eq (h₀ : s.file f₀ = ⟨1, .none⟩) (h₁ : s.file f₁ = ⟨1, .none⟩) (hne : f₀ ≠ f₁)
    (page : ℕ) : pipeEnds s f₀ f₁ page = ((s.setPipe page (some ⟨true, true⟩)).setFile f₀
      ⟨1, .pipe page false⟩).setFile f₁ ⟨1, .pipe page true⟩ := by
  simp [pipeEnds, setPipe, setFile, h₀, h₁, hne.symm]

/-- `pipealloc` with its page. -/
theorem pipeEnds_settled (h : Settled s) {page : ℕ} {proc : Proc} (hpage : s.pipe page = none)
    (h₀ : s.file f₀ = ⟨1, .none⟩) (h₁ : s.file f₁ = ⟨1, .none⟩) (hne : f₀ ≠ f₁)
    (hholds : ∀ r, proc.holds r = (s.proc p).holds r) :
    Settled ((pipeEnds s f₀ f₁ page).setProc p proc) := by
  intro r
  have hprocs := sum_update_add Finset.univ (Finset.mem_univ p) s.proc proc fun _ P ↦ Proc.holds P r
  have hfile₀ := sum_update_add Finset.univ (Finset.mem_univ f₀) s.file ⟨1, .pipe page false⟩
    fun _ F ↦ File.holds F r
  have hfile₁ := sum_update_add Finset.univ (Finset.mem_univ f₁)
    (update s.file f₀ ⟨1, .pipe page false⟩) ⟨1, .pipe page true⟩
    fun _ F ↦ File.holds F r
  have hcount : (pipeEnds s f₀ f₁ page).count r =
      s.count r + (one (.pipeEnd page false) r + one (.pipeEnd page true) r) := by
    rw [pipeEnds_eq h₀ h₁ hne, count_setType, count_setType, count_newPipe hpage]
    · exact h₀
    · simp [setFile, setPipe, hne.symm, h₁]
  have hr := h r
  have hholds := hholds r
  rw [update_of_ne hne.symm, h₁, holds_none] at hfile₁
  rw [h₀, holds_none] at hfile₀
  have hend : ∀ w, File.holds ⟨1, .pipe page w⟩ r = one (.pipeEnd page w) r := fun w ↦ rfl
  rw [hend] at hfile₀ hfile₁
  rw [count_setProc, hcount]
  show _ = ∑ q, (update s.proc p proc q).holds r + ∑ f, ((pipeEnds s f₀ f₁ page).file f).holds r
  rw [pipeEnds_eq h₀ h₁ hne]
  simp only [setFile, setPipe]
  omega

theorem file_pipeEnds (page : ℕ) (h₀ : s.file f₀ = ⟨1, .none⟩) (h₁ : s.file f₁ = ⟨1, .none⟩)
    (hne : f₀ ≠ f₁) (f : FilePtr) :
    (pipeEnds s f₀ f₁ page).file f = if f = f₁ then ⟨1, .pipe page true⟩
      else if f = f₀ then ⟨1, .pipe page false⟩ else s.file f := by
  rw [pipeEnds_eq h₀ h₁ hne]
  simp only [setFile, setPipe, update_apply]

/-- The process after `sys_pipe` has the two files in its hands or in `ofile[]`. -/
theorem pipeFds_cases (s : State) (p : Slot) (f₀ f₁ : FilePtr) :
    ∃ proc, pipeFds s p f₀ f₁ = s.setProc p proc ∧ proc.pc.fresh = [] ∧ proc.pc.child = none ∧
      ((s.proc p).Ok → (s.proc p).state = .running → proc.Ok) ∧
      ∀ r, proc.holds r = one (.file f₀) r + one (.file f₁) r + (s.proc p).keeps r := by
  have hfailed : ∃ proc, s.setPc p (.ops [.fileclose f₀, .fileclose f₁] (.ret (-1))) =
      s.setProc p proc ∧ proc.pc.fresh = [] ∧ proc.pc.child = none ∧
      ((s.proc p).Ok → (s.proc p).state = .running → proc.Ok) ∧
      ∀ r, proc.holds r = one (.file f₀) r + one (.file f₁) r + (s.proc p).keeps r := by
    refine ⟨_, rfl, rfl, rfl, fun hok hrunning ↦ hok.setPc hrunning (by simp), fun r ↦ ?_⟩
    simp only [Proc.holds, Pc.held, map_cons, map_nil, Op.ref, count_cons, count_nil]
    show _ + (s.proc p).keeps r = _
    omega
  rw [pipeFds]
  cases hfd₀ : (s.proc p).freeFd with
  | none => exact hfailed
  | some fd₀ =>
    cases hfd₁ : ((s.proc p).setFd fd₀ (some f₀)).freeFd with
    | none =>
      simp only [hfd₁]
      exact hfailed
    | some fd₁ =>
      simp only [hfd₁]
      refine ⟨_, rfl, rfl, rfl, fun hok hrunning ↦ ?_, fun r ↦ ?_⟩
      · have hok' : Proc.Ok { (s.proc p).setFd fd₀ (some f₀) with pc := .ret 0 } :=
          hok.setFd hrunning fd₀ _ (by simp)
        exact hok'.setFd hrunning fd₁ _ (by simp)
      · have hput₀ := slots_put (freeFd_eq_some hfd₀) f₀ r
        have hput₁ := slots_put (freeFd_eq_some hfd₁) f₁ r
        simp only [Proc.holds, Proc.keeps, held_ret, count_nil, Proc.setFd] at hput₁ ⊢
        omega

theorem pipeAlloc_good (h : Inv s) (hrunning : (s.proc p).state = .running)
    (hpc : (s.proc p).pc = .pipeTwo f₀ f₁) (choice : Choice) :
    Good s p (pipeAlloc s p f₀ f₁ choice) := by
  have hheld : (s.proc p).pc.held = [.file f₀, .file f₁] := by rw [hpc, Pc.held]
  have h₀ : s.file f₀ = ⟨1, .none⟩ := h.fresh p f₀ (by simp [hpc, Pc.fresh])
  have h₁ : s.file f₁ = ⟨1, .none⟩ := h.fresh p f₁ (by simp [hpc, Pc.fresh])
  have hne : f₀ ≠ f₁ := by
    have hdistinct := h.distinct p
    rw [hpc] at hdistinct
    simpa [Pc.fresh] using hdistinct
  unfold pipeAlloc
  split
  case h_1 => exact h.setPc hrunning hheld.symm rfl
  case h_2 page =>
    split_ifs with hpage
    · have hproc : (pipeEnds s f₀ f₁ page).proc = s.proc := rfl
      obtain ⟨proc, heq, hfresh, hchild, hok, hholds⟩ :=
        pipeFds_cases (pipeEnds s f₀ f₁ page) p f₀ f₁
      rw [heq]
      rw [hproc] at hok hholds
      have hsame : ∀ r, proc.holds r = (s.proc p).holds r := by
        intro r
        rw [hholds, Proc.holds, hheld, count_cons, count_cons, count_nil]
        omega
      have hfile := file_pipeEnds page h₀ h₁ hne
      refine .of_next (h.own (.inl hrunning) rfl (fun f ↦ ?_) (fun f hf ↦ ?_)
        (pipeEnds_settled h.settled hpage h₀ h₁ hne hsame) (hok (h.ok p) hrunning)
        (by simp [hfresh]) (by simp [hfresh]) hchild)
      · by_cases hf : f ∈ (s.proc p).pc.fresh
        · exact .inr (.inl (holds_of_mem_fresh hf))
        · simp only [hpc, Pc.fresh, mem_pair, not_or] at hf
          rw [hfile, if_neg hf.2, if_neg hf.1]
          exact .inl rfl
      · rw [hfile] at hf ⊢
        split_ifs at hf ⊢
        exact h.typed f hf
    · exact .blocked
  case h_3 => exact .blocked

end

end EasyKernels.Xv6.OpenFiles
