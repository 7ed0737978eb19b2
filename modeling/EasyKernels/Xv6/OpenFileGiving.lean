import EasyKernels.Xv6.OpenFileTaking

/-!
# The steps that give back references

`fileclose`, `pipeclose`, `kfree` and `iput`, the end of a call, `exit` and `fork` keep the
invariant of open files, and with them every step (`go_good`, `begin_good`). A process that gives
back a reference has it, so the count is positive: `fileclose` does not panic, and no page is freed
twice.
-/

set_option autoImplicit false

namespace EasyKernels.Xv6.OpenFiles

open Nat List Option Function Lib.Runs Lib.Counting Lib.Holders

attribute [simp] State.setPipe

attribute [simp] State.count

section

variable {s : State} {p : Slot}

/-! ### Giving back -/

variable {op : Op} {todo : List Op} {next : Next} {f : FilePtr} {page : ℕ} {q np : Slot}

section

variable (hpc : (s.proc p).pc = .ops (op :: todo) next)

include hpc

/-- The process goes on with its call, or with `exit`. -/
theorem Proc.Ok.ops (h : (s.proc p).Ok) (hrunning : (s.proc p).state = .running)
    (todo' : List Op) : Proc.Ok { s.proc p with pc := .ops todo' next } := by
  refine h.setPc hrunning fun todo'' fds heq ↦ ?_
  obtain ⟨-, rfl⟩ := Pc.ops.inj heq
  exact h.exit _ fds hpc

theorem count_held_ops (r : Ref) :
    (s.proc p).pc.held.count r = (todo.map Op.ref).count r + one op.ref r := by
  rw [hpc, Pc.held, map_cons, count_cons]

theorem holds_of_ops : 0 < (s.proc p).holds op.ref := by
  rw [Proc.holds, count_held_ops hpc, one, if_pos rfl]
  omega

end

/-- A file of which there are more references. -/
theorem filedec_settled (h : Settled s) (hpc : (s.proc p).pc = .ops (.fileclose f :: todo) next)
    (hmore : 0 < (s.file f).ref - 1) :
    Settled ((s.setFile f { s.file f with ref := (s.file f).ref - 1 }).setPc p
      (.ops todo next)) := by
  refine h.trade (p := p) (f := f) rfl rfl fun r ↦ ?_
  have hcount := count_setFile s f ⟨(s.file f).ref - 1, (s.file f).type⟩ r
  have hheld := count_held_ops hpc r
  have hfile : File.holds ⟨(s.file f).ref - 1, (s.file f).type⟩ r = (s.file f).holds r := by
    rw [File.holds, File.holds, if_neg hmore.ne', if_neg (by omega)]
  have hmul : (s.file f).ref * one (.file f) r =
      ((s.file f).ref - 1) * one (.file f) r + one (.file f) r := by
    conv_lhs => rw [show (s.file f).ref = (s.file f).ref - 1 + 1 by omega]
    rw [succ_mul]
  rw [count_setPc, Proc.holds, hheld, hfile]
  show (s.setFile f ⟨(s.file f).ref - 1, (s.file f).type⟩).count r +
      ((todo.map Op.ref).count r + one (.file f) r + (s.proc p).keeps r + (s.file f).holds r) =
    s.count r + ((todo.map Op.ref).count r + (s.proc p).keeps r + (s.file f).holds r)
  simp only at hcount
  omega

/-- The reference that a file has when it is closed. -/
def closed (type : FileType) (todo : List Op) : List Op :=
  match type with
  | .none => todo
  | .inode ip => .iput ip :: todo
  | .pipe page writable => .pipeclose page writable :: todo

theorem count_closed (type : FileType) (todo : List Op) (r : Ref) :
    ((closed type todo).map Op.ref).count r =
      (todo.map Op.ref).count r + type.ref.elim 0 fun a ↦ one a r := by
  cases type with
  | none => rfl
  | inode | pipe => exact count_cons ..

/-- The last reference to a file. -/
theorem filefree_settled (h : Settled s) (hpc : (s.proc p).pc = .ops (.fileclose f :: todo) next)
    (hlast : (s.file f).ref = 1) : Settled ((s.setFile f { ref := 0, type := .none }).setPc p
      (.ops (closed (s.file f).type todo) next)) := by
  refine h.trade (p := p) (f := f) rfl rfl fun r ↦ ?_
  have hcount := count_setFile s f ⟨0, .none⟩ r
  have hheld := count_held_ops hpc r
  have hclosed := count_closed (s.file f).type todo r
  rw [hlast] at hcount
  rw [count_setPc, Proc.holds, hheld, holds_none, File.holds, if_neg (by omega)]
  show _ = s.count r + (((closed (s.file f).type todo).map Op.ref).count r + (s.proc p).keeps r + 0)
  have href : Op.ref (.fileclose f) = .file f := rfl
  rw [href]
  simp only [one_mul, zero_mul, add_zero] at hcount ⊢
  omega

theorem fileclose_good (h : Inv s) (hrunning : (s.proc p).state = .running)
    (hpc : (s.proc p).pc = .ops (.fileclose f :: todo) next) :
    Good s p (fileclose s p f todo next) := by
  have hholds : 0 < (s.proc p).holds (.file f) := holds_of_ops hpc
  have hpos : 0 < (s.file f).ref := h.settled.pos hholds
  have hok := (h.ok p).ops hpc hrunning
  rw [fileclose]
  split_ifs with hzero hmore
  · omega
  · refine .of_next (h.own (.inl hrunning) rfl (file_setFile (.inl hholds)) (typed_setFile h ?_)
      (filedec_settled h.settled hpc hmore) (hok todo) (by simp [Pc.fresh]) (by simp [Pc.fresh])
      rfl)
    intro hnone
    exact absurd hnone hmore.ne'
  · refine .of_next (h.own (.inl hrunning) rfl (file_setFile (.inl hholds))
      (typed_setFile h fun _ ↦ rfl)
      (filefree_settled h.settled hpc (by omega)) (hok _) (by simp [Pc.fresh]) (by simp [Pc.fresh])
      rfl)

variable {w : Bool} {s' : State} {fd : Fin nOFile} {ip : ℕ} {proc : Proc} {pc : Pc}

theorem count_close {pipe : Pipe} (hpage : s.pipe page = some pipe) (hopen : pipe.isOpen w = true)
    (r : Ref) : (s.setPipe page (some (pipe.close w))).count r + one (.pipeEnd page w) r =
      s.count r + if (pipe.close w).readopen = false ∧ (pipe.close w).writeopen = false
        then one (.page page) r else 0 := by
  obtain ⟨readopen, writeopen⟩ := pipe
  cases r with
  | file f => simp [one]
  | inode ip => simp [one]
  | pipeEnd a v =>
    by_cases ha : a = page
    · cases w <;> cases v <;> cases readopen <;> cases writeopen <;>
        simp_all [one, Pipe.isOpen, Pipe.close]
    · simp [one, update_of_ne ha, Ne.symm ha]
  | page a =>
    by_cases ha : a = page
    · cases w <;> cases readopen <;> cases writeopen <;>
        simp_all [one, Pipe.isOpen, Pipe.close]
    · simp [one, update_of_ne ha, Ne.symm ha]

theorem count_kfree (hpage : s.pipe page = some ⟨false, false⟩) (r : Ref) :
    (s.setPipe page none).count r + one (.page page) r = s.count r := by
  cases r with
  | file f => simp [one]
  | inode ip => simp [one]
  | pipeEnd a v =>
    rcases eq_or_ne a page with rfl | ha
    · cases v <;> simp [one, hpage, Pipe.isOpen]
    · simp [one, update_of_ne ha]
  | page a =>
    rcases eq_or_ne a page with rfl | ha
    · simp [one, hpage]
    · simp [one, update_of_ne ha, Ne.symm ha]

/-- A step that gives back a reference and leaves files alone. -/
theorem giveBack_good (h : Inv s) (hrunning : (s.proc p).state = .running) {todo' : List Op}
    (hpc : (s.proc p).pc = .ops (op :: todo) next) (hproc : s'.proc = s.proc)
    (hfile : s'.file = s.file)
    (hcount : ∀ r, s'.count r + ((todo.map Op.ref).count r + one op.ref r) =
      s.count r + (todo'.map Op.ref).count r) :
    Good s p (.next (s'.setPc p (.ops todo' next))) := by
  rw [State.setPc, hproc]
  refine .of_next (h.keep (.inl hrunning) hproc hfile ?_ ((h.ok p).ops hpc hrunning todo') rfl rfl)
  have hset := congrArg (update · p { s.proc p with pc := .ops todo' next }) hproc
  refine h.settled.trade_proc hset hfile fun r ↦ ?_
  have hr := hcount r
  rw [count_setProc, Proc.holds, count_held_ops hpc]
  show _ = s.count r + ((todo'.map Op.ref).count r + (s.proc p).keeps r)
  omega

theorem isOpen_of_count (hpos : 0 < s.count (.pipeEnd page w)) :
    ∃ pipe, s.pipe page = some pipe ∧ pipe.isOpen w = true := by
  rw [State.count] at hpos
  split_ifs at hpos with hany
  · cases hpipe : s.pipe page with
    | none => simp [hpipe] at hany
    | some pipe =>
      rw [hpipe] at hany
      exact ⟨pipe, rfl, hany⟩
  · exact absurd hpos (lt_irrefl 0)

theorem runOp_good (h : Inv s) (hrunning : (s.proc p).state = .running)
    (hpc : (s.proc p).pc = .ops (op :: todo) next) : Good s p (runOp s p todo next op) := by
  have hpos := h.settled.pos (holds_of_ops hpc)
  cases op with
  | fileclose f => exact fileclose_good h hrunning hpc
  | pipeclose =>
    obtain ⟨pipe, hpipe, hopen⟩ := isOpen_of_count hpos
    have hcount := count_close hpipe hopen
    rw [runOp, pipeclose, hpipe]
    simp only
    split_ifs with hclosed
    all_goals
      refine giveBack_good h hrunning hpc rfl rfl fun r ↦ ?_
      have hr := hcount r
      simp only [hclosed, and_self, if_true, if_false, map_cons, count_cons, Op.ref] at hr ⊢
      omega
  | kfree page =>
    have hpage : s.pipe page = some ⟨false, false⟩ := by
      by_contra hne
      simp [Op.ref, hne] at hpos
    rw [runOp, if_neg (by simp [hpage])]
    refine giveBack_good h hrunning hpc rfl rfl fun r ↦ ?_
    have hr := count_kfree hpage r
    simp only [Op.ref]
    omega
  | iput ip =>
    refine giveBack_good h hrunning hpc rfl rfl fun r ↦ ?_
    have hr := count_iput hpos r
    simp only [Op.ref]
    omega

/-! ### Returning and `exit` -/

theorem close_settled (h : Settled s) (hheld : (s.proc p).pc.held = [])
    (hfd : (s.proc p).ofile fd = some f) :
    Settled (s.setProc p { (s.proc p).setFd fd none with pc := .ops [.fileclose f] next }) := by
  refine h.trade_proc rfl rfl fun r ↦ ?_
  have hclear := slots_clear hfd r
  rw [count_setProc, Proc.holds, hheld]
  simp only [Proc.holds, Proc.keeps, Proc.setFd, Pc.held, map_cons, map_nil, Op.ref,
    count_cons, count_nil]
  omega

/-- A change of a process that leaves its references alone. -/
theorem setProc_settled (h : Settled s) (hholds : ∀ r, proc.holds r = (s.proc q).holds r) :
    Settled (s.setProc q proc) := by
  refine h.trade_proc rfl rfl fun r ↦ ?_
  rw [count_setProc, hholds]

theorem zombie_settled (h : Settled s) (hheld : (s.proc p).pc.held = [])
    (hcwd : (s.proc p).cwd = some ip) : Settled ((s.iput ip).setProc p
      { s.proc p with cwd := none, state := .zombie, pc := .user, value := 0 }) := by
  refine h.trade_proc rfl rfl fun r ↦ ?_
  have hcount := count_iput (h.iref_pos hcwd) r
  rw [count_setProc, Proc.holds, hheld]
  simp only [Proc.holds, Proc.keeps, hcwd, Pc.held, count_nil, elim_some, elim_none]
  omega

theorem resume_good (h : Inv s) (hrunning : (s.proc p).state = .running)
    (hpc : (s.proc p).pc = .ops [] next) : Good s p (resume s p next) := by
  have hheld : (s.proc p).pc.held = [] := by simp [hpc]
  have hok := h.ok p
  unfold resume
  split
  case h_1 value =>
    refine .of_next (h.keep (.inl hrunning) rfl rfl (setProc_settled h.settled fun r ↦ ?_)
      ⟨by simp, hok.cwd, hok.closed, by simp⟩ rfl rfl)
    rw [Proc.holds, Proc.holds, hheld]
    rfl
  case h_2 fd fds =>
    cases hfd : (s.proc p).ofile fd with
    | none =>
      have hexit : ∀ fd', fd' ∉ fds → (s.proc p).ofile fd' = none := by
        intro fd' hfd'
        by_cases heq : fd' = fd
        · rw [heq, hfd]
        · exact hok.exit [] (fd :: fds) hpc fd' (by simp [heq, hfd'])
      refine .of_next (h.keep (.inl hrunning) rfl rfl (h.settled.setPc hheld.symm)
        (hok.setPc hrunning ?_) rfl rfl)
      rintro _ _ ⟨⟩
      exact hexit
    | some f =>
      refine .of_next (h.keep (.inl hrunning) rfl rfl (close_settled h.settled hheld hfd)
        (hok.setFd hrunning fd none ?_) rfl rfl)
      rintro _ _ ⟨⟩ fd' hfd'
      simp only [Proc.setFd, update_apply]
      split_ifs with hsame
      · rfl
      · exact hok.exit [] (fd :: fds) hpc fd' (by simp [hsame, hfd'])
  case h_3 =>
    cases hcwd : (s.proc p).cwd with
    | none => exact absurd hcwd (hok.cwd.mp hrunning)
    | some ip =>
      refine .of_next (h.keep (.inl hrunning) rfl rfl (zombie_settled h.settled hheld hcwd) ?_ rfl
        rfl)
      exact ⟨by simp, by simp, fun _ fd ↦ hok.exit [] [] hpc fd (by simp), by simp⟩

/-! ### `fork` -/

/-- The first process of a step keeps its place in the table when another one is changed. -/
theorem proc_setProc_of_ne (hne : p ≠ q) :
    (s.setProc q proc).proc p = s.proc p := update_of_ne hne ..

theorem ne_of_state (hrunning : (s.proc p).state = .running) (hnp : (s.proc np).state ≠ .running) :
    p ≠ np := by
  rintro rfl
  exact hnp hrunning

theorem pc_of_state (h : Inv s) (hq : (s.proc q).state ≠ .running) : (s.proc q).pc = .user := by
  by_contra hne
  exact hq ((h.ok q).busy hne)

theorem cwd_of_state (h : Inv s) (hq : (s.proc q).state ≠ .running) : (s.proc q).cwd = none := by
  by_contra hne
  exact hq ((h.ok q).cwd.mpr hne)

/-- `filedup`, with the reference in a descriptor of another process. -/
theorem filedup_settled (h : Settled s) (hpos : 0 < (s.file f).ref)
    (hfd : (s.proc np).ofile fd = none) (hheld : pc.held = (s.proc np).pc.held) :
    Settled ((s.setFile f { s.file f with ref := (s.file f).ref + 1 }).setProc np
      { (s.proc np).setFd fd (some f) with pc := pc }) := by
  refine h.trade (p := np) (f := f) rfl rfl fun r ↦ ?_
  have hcount := count_setFile s f ⟨(s.file f).ref + 1, (s.file f).type⟩ r
  have hput := slots_put hfd f r
  have hfile : File.holds ⟨(s.file f).ref + 1, (s.file f).type⟩ r = (s.file f).holds r := by
    rw [File.holds, File.holds, if_neg (succ_ne_zero _), if_neg hpos.ne']
  rw [count_setProc, hfile]
  simp only [Proc.holds, Proc.keeps, Proc.setFd, hput, hheld]
  simp only [succ_mul] at hcount
  omega

theorem Good.alone {choice : Choice} {o : Outcome Fault State} (h : Good s p o) :
    Good s p (choice.alone o) := by
  rw [Choice.alone]
  split_ifs
  · exact h
  · exact .blocked

section

variable (h : Inv s) (hrunning : (s.proc p).state = .running)

include h hrunning

/-- Two processes change. -/
theorem forkStep_good (child : Proc) (hproc : s'.proc = update s.proc np child) (hne : p ≠ np)
    (hmine : (s.proc np).state = .unused ∨ (s.proc p).pc.child = some np)
    (hpc' : child.pc = (s.proc np).pc) (hvalue : child.value = (s.proc np).value)
    (hfile : ∀ f, s'.file f = s.file f ∨ 0 < (s.proc p).holds (.file f) ∨ (s.file f).ref = 0)
    (htyped : ∀ f, (s'.file f).ref = 0 → (s'.file f).type = .none) (hsettled : Settled s')
    (hheld : pc.held = (s.proc p).pc.held)
    (hexit : ∀ todo fds, pc ≠ .ops todo (.exit fds)) (hfresh : pc.fresh = []) (hok : child.Ok)
    (hchild : ∀ np', pc.child = some np' → np' = np ∧ child.state = .embryo ∧ pc.uncopied.Nodup ∧
      (∀ fd ∈ pc.uncopied, child.ofile fd = none)) : Good s p (.next (s'.setPc p pc)) := by
  have hself : s'.proc p = s.proc p := by rw [hproc, update_of_ne hne]
  have hset : ∀ q, (s'.setPc p pc).proc q =
      if q = p then { s.proc p with pc := pc } else if q = np then child else s.proc q := by
    intro q
    rw [State.setPc, State.setProc, hself, hproc]
    simp only [update_apply]
  have hmoves : Moves s p (s'.setPc p pc) := by
    refine ⟨hfile, fun q hq ↦ ?_⟩
    rw [hset, if_neg hq]
    split_ifs with hqnp
    · subst hqnp
      exact .inr ⟨⟨hpc', hvalue⟩, hmine⟩
    · exact .inl rfl
  have hsettled' : Settled (s'.setPc p pc) := hsettled.setPc (by rw [hself, hheld])
  refine .of_next ⟨h.next (.inl hrunning) hmoves hsettled' htyped ?_ ?_ (fun q ↦ ?_)
    fun np' hnp' ↦ ?_,
    hmoves⟩
  · rw [hset, if_pos rfl]
    simp [hfresh]
  · rw [hset, if_pos rfl]
    simp [hfresh]
  · rw [hset]
    split_ifs
    · exact (h.ok p).setPc hrunning fun todo fds heq ↦ absurd heq (hexit todo fds)
    · exact hok
    · exact h.ok q
  · rw [hset, if_pos rfl] at hnp'
    obtain ⟨rfl, hembryo, hnodup, huncopied⟩ := hchild np' hnp'
    refine ⟨?_, ?_, ?_, fun q hq ↦ ?_⟩
    · rw [hset, if_neg hne.symm, if_pos rfl]
      exact hembryo
    · rw [hset, if_pos rfl]
      exact hnodup
    · rw [hset, hset, if_pos rfl, if_neg hne.symm, if_pos rfl]
      exact huncopied
    · by_contra hqp
      rw [hset, if_neg hqp] at hq
      have hold : (s.proc q).pc.child = some np' := by
        split_ifs at hq with hqnp
        · rw [hqnp, ← hpc']
          exact hq
        · exact hq
      have hc := h.child q np' hold
      rcases hmine with hunused | hmine
      · rw [hc.embryo] at hunused
        cases hunused
      · exact hqp (hc.owner p hmine).symm

theorem allocproc_good (hpc : (s.proc p).pc = .fork) (choice : Choice) :
    Good s p (allocproc s p choice) := by
  have hheld : (s.proc p).pc.held = [] := by rw [hpc, Pc.held]
  unfold allocproc
  split
  case h_1 => exact h.setPc hrunning hheld.symm rfl
  case h_2 np =>
    split_ifs with hunused
    · have hne : p ≠ np := ne_of_state hrunning (by simp [hunused])
      have hclosed := (h.ok np).closed (.inl hunused)
      refine forkStep_good h hrunning { s.proc np with state := .embryo } rfl hne
        (.inl hunused) rfl rfl (fun f ↦ .inl rfl) h.typed (setProc_settled h.settled fun r ↦ rfl)
        hheld.symm (by simp) rfl ?_ ?_
      · have hcwd := cwd_of_state h (q := np) (by simp [hunused])
        have huser := pc_of_state h (q := np) (by simp [hunused])
        exact ⟨fun hbusy ↦ absurd huser hbusy, by simp [hcwd], by simp, by simp [huser]⟩
      · intro np' hnp'
        exact ⟨(some.inj hnp').symm, rfl, nodup_finRange _, fun fd _ ↦ hclosed fd⟩
    · exact .blocked
  case h_3 => exact .blocked

theorem copy_good (hpc : (s.proc p).pc = .copy np) (choice : Choice) :
    Good s p (copy s p np choice) := by
  have hheld : (s.proc p).pc.held = [] := by rw [hpc, Pc.held]
  have hmine : (s.proc p).pc.child = some np := by rw [hpc, Pc.child]
  have hc := h.child p np hmine
  have hne : p ≠ np := ne_of_state hrunning (by simp [hc.embryo])
  have hempty : ∀ fd, (s.proc np).ofile fd = none := by
    intro fd
    exact hc.uncopied fd (by simp [hpc, Pc.uncopied])
  have huser := pc_of_state h (q := np) (by simp [hc.embryo])
  have hold : s.proc = update s.proc np (s.proc np) := (update_eq_self ..).symm
  unfold copy
  split
  case h_1 =>
    refine forkStep_good h hrunning { s.proc np with state := .unused } rfl hne
      (.inr hmine) rfl rfl (fun f ↦ .inl rfl) h.typed (setProc_settled h.settled fun r ↦ rfl)
      hheld.symm (by simp) rfl ?_ (by simp [Pc.child])
    have hcwd := cwd_of_state h (q := np) (by simp [hc.embryo])
    exact ⟨fun hbusy ↦ absurd huser hbusy, by simp [hcwd], fun _ ↦ hempty, by simp [huser]⟩
  case h_2 =>
    refine forkStep_good h hrunning (s.proc np) hold hne (.inr hmine) rfl rfl
      (fun f ↦ .inl rfl) h.typed h.settled hheld.symm (by simp) rfl (h.ok np) ?_
    intro np' hnp'
    exact ⟨(some.inj hnp').symm, hc.embryo, nodup_finRange _, fun fd _ ↦ hempty fd⟩
  case h_3 => exact .blocked

theorem forkFiles_good {fds : List (Fin nOFile)} (hpc : (s.proc p).pc = .files np fds) :
    Good s p (forkFiles s p np fds) := by
  have hheld : (s.proc p).pc.held = [] := by rw [hpc, Pc.held]
  have hmine : (s.proc p).pc.child = some np := by rw [hpc, Pc.child]
  have hc := h.child p np hmine
  have hne : p ≠ np := ne_of_state hrunning (by simp [hc.embryo])
  have huser := pc_of_state h (q := np) (by simp [hc.embryo])
  have huncopied := hc.uncopied
  have hnodup := hc.nodup
  rw [hpc] at huncopied hnodup
  cases fds with
  | cons fd fds =>
    obtain ⟨hfd, hrest⟩ := nodup_cons.mp hnodup
    have hchild : ∀ child : Proc, child.state = .embryo →
        (∀ fd' ∈ fds, child.ofile fd' = none) → ∀ np', (Pc.files np fds).child = some np' →
          np' = np ∧ child.state = .embryo ∧ (Pc.files np fds).uncopied.Nodup ∧
            ∀ fd' ∈ (Pc.files np fds).uncopied, child.ofile fd' = none := by
      intro child hstate hofile np' hnp'
      exact ⟨(some.inj hnp').symm, hstate, hrest, hofile⟩
    have hold : ∀ fd' ∈ fds, (s.proc np).ofile fd' = none := fun fd' hfd' ↦
      huncopied fd' (mem_cons_of_mem _ hfd')
    have hsame : s.proc = update s.proc np (s.proc np) := (update_eq_self ..).symm
    rw [forkFiles]
    cases hofile : (s.proc p).ofile fd with
    | none =>
      exact forkStep_good h hrunning (s.proc np) hsame hne (.inr hmine) rfl rfl
        (fun f ↦ .inl rfl) h.typed h.settled hheld.symm (by simp) rfl (h.ok np)
        (hchild _ hc.embryo hold)
    | some f =>
      have hholds := holds_of_ofile hofile
      have hpos : 0 < (s.file f).ref := h.settled.pos hholds
      simp only
      rw [if_neg (by omega)]
      refine forkStep_good h hrunning ((s.proc np).setFd fd (some f)) rfl hne
        (.inr hmine) rfl rfl (file_setFile (.inl hholds)) (typed_setFile h (by simp))
        (filedup_settled h.settled hpos (huncopied fd mem_cons_self) rfl)
        hheld.symm (by simp) rfl ?_ (hchild _ hc.embryo ?_)
      · refine ⟨fun hbusy ↦ absurd huser hbusy, (h.ok np).cwd, ?_, ?_⟩
        · simp [Proc.setFd, hc.embryo]
        · simp [Proc.setFd, huser]
      · intro fd' hfd'
        rw [Proc.setFd]
        simp only
        rw [update_of_ne (ne_of_mem_of_not_mem hfd' hfd)]
        exact hold fd' hfd'
  | nil =>
    rw [forkFiles]
    cases hcwd : (s.proc p).cwd with
    | none => exact absurd hcwd ((h.ok p).cwd.mp hrunning)
    | some ip =>
      have hnone := cwd_of_state h (q := np) (by simp [hc.embryo])
      refine forkStep_good h hrunning { s.proc np with cwd := some ip, state := .running } rfl hne
        (.inr hmine) rfl rfl
        (fun f ↦ .inl rfl) h.typed ?_ hheld.symm (by simp) rfl ?_
        (by simp [Pc.child])
      · refine h.settled.trade_proc rfl rfl fun r ↦ ?_
        simp only [count_setProc, count_iget, Proc.holds, Proc.keeps, hnone, elim_none, elim_some]
        omega
      · exact ⟨fun hbusy ↦ absurd huser hbusy, by simp, by simp, by simp [huser]⟩

/-! ### Every step -/

theorem checked_good (hpc : (s.proc p).pc = .checked ip) (choice : Choice) :
    Good s p (checked s p ip choice) := by
  unfold checked
  split
  · exact h.setPc hrunning (by simp [hpc]) rfl
  · exact h.fail hrunning (by simp [hpc])
  · exact .blocked

theorem go_good (choice : Choice) : Good s p (go s p choice) := by
  rw [go]
  split
  case h_1 => exact .blocked
  case h_2 hpc => exact (startPath_good h hrunning hpc).alone
  case h_3 hpc => exact namex_good h hrunning hpc choice
  case h_4 hpc =>
    exact (h.iput hrunning (by rw [hpc]; rfl) rfl).alone
  case h_5 hpc => exact found_good h hrunning hpc choice
  case h_6 hpc =>
    exact (h.iput hrunning (by rw [hpc]; rfl) rfl).alone
  case h_7 hpc => exact checked_good h hrunning hpc choice
  case h_8 hpc =>
    exact (h.iput hrunning (by rw [hpc]; rfl) rfl).alone
  case h_9 hpc => exact (alloc_good h hrunning hpc).alone
  case h_10 hpc => exact (pipeFile_good h hrunning hpc).alone
  case h_11 hpc => exact (pipeFiles_good h hrunning hpc).alone
  case h_12 hpc => exact pipeAlloc_good h hrunning hpc choice
  case h_13 hpc => exact allocproc_good h hrunning hpc choice
  case h_14 hpc => exact copy_good h hrunning hpc choice
  case h_15 hpc => exact (forkFiles_good h hrunning hpc).alone
  case h_16 hpc => exact (runOp_good h hrunning hpc).alone
  case h_17 hpc => exact (resume_good h hrunning hpc).alone

theorem sysClose_good (hpc : (s.proc p).pc = .user) (n : ℕ) :
    Good s p (.next (sysClose s p n)) := by
  have hheld : (s.proc p).pc.held = [] := by simp [hpc]
  rw [sysClose]
  split
  case h_1 => exact h.setPc hrunning hheld.symm rfl
  case h_2 fd f hfd =>
    exact .of_next (h.keep (.inl hrunning) rfl rfl (close_settled h.settled hheld
      (argfd_eq_some hfd))
      ((h.ok p).setFd hrunning fd none (by simp)) rfl rfl)

theorem sysDup_good (hpc : (s.proc p).pc = .user) (n : ℕ) : Good s p (sysDup s p n) := by
  have hheld : (s.proc p).pc.held = [] := by simp [hpc]
  have hfail : Good s p (.next (s.setPc p (.ret (-1)))) := h.setPc hrunning hheld.symm rfl
  rw [sysDup]
  split
  case h_1 => exact hfail
  case h_2 fd f hfd =>
    have hholds := holds_of_ofile (argfd_eq_some hfd)
    have hpos : 0 < (s.file f).ref := h.settled.pos hholds
    cases hfree : (s.proc p).freeFd with
    | none => exact hfail
    | some fd' =>
      simp only
      rw [if_neg (by omega)]
      refine .of_next (h.own (.inl hrunning) rfl (file_setFile (.inl hholds))
        (typed_setFile h (by simp))
        (filedup_settled h.settled hpos (freeFd_eq_some hfree) hheld.symm)
        ((h.ok p).setFd hrunning fd' _ (by simp)) (by simp [Pc.fresh])
        (by simp [Pc.fresh]) rfl)

theorem begin_good (hpc : (s.proc p).pc = .user) (c : Call) : Good s p (begin s p c) := by
  have hset : ∀ pc : Pc, pc.held = [] → pc.plain → Good s p (.next (s.setPc p pc)) := by
    intro pc hheld hplain
    refine h.setPc hrunning ?_ hplain
    rw [hheld, hpc, Pc.held]
  cases c with
  | bad | «open» absolute elems create rdonly | pipe | fork | chdir absolute elems =>
    exact hset _ rfl rfl
  | close fd => exact sysClose_good h hrunning hpc fd
  | dup fd => exact sysDup_good h hrunning hpc fd
  | exit =>
    rw [begin]
    split_ifs
    · exact .initExiting
    · refine .of_next (h.keep (.inl hrunning) rfl rfl (h.settled.setPc (by simp [hpc]))
        ((h.ok p).setPc hrunning ?_) rfl rfl)
      rintro _ _ ⟨⟩ fd hfd
      exact absurd (mem_finRange fd) hfd

end

end

end EasyKernels.Xv6.OpenFiles
