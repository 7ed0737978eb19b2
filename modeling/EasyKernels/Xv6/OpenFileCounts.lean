import EasyKernels.Lib.Holders
import EasyKernels.Xv6.OpenFiles

/-!
# Counting references to open files

`Settled` says that every count of the kernel is the number of references that there are: those that
processes have in `ofile[]`, in `cwd` and inside a call, and those that live files have to inodes
and pipes. That an end of a pipe is open, and that a page without open ends is still to be freed,
are counts of this kind. `Settled.trade` is the rule for a step: what the counts gain or lose is
what one process and one file gain or lose.

`Inv` has next to it what the steps rely on: the type of a free file, the files that `pipealloc` has
taken, and the slot that `fork` has taken. `Inv.next` says that a step which keeps what is about its
own process keeps the invariant, because `Moves` tells what it leaves alone.
-/

set_option autoImplicit false

namespace EasyKernels.Xv6.OpenFiles

open Finset List Function Lib.Runs Lib.Counting Lib.Holders

/-! ### References -/

/-- What is counted: references to a file and to an inode; the open end of a pipe; and a page that
is about to be freed. -/
inductive Ref
  | file (f : FilePtr)
  | inode (ip : ℕ)
  | pipeEnd (page : ℕ) (writable : Bool)
  | page (page : ℕ)
  deriving DecidableEq, Repr

def Pipe.isOpen (pipe : Pipe) (writable : Bool) : Bool :=
  if writable then pipe.writeopen else pipe.readopen

/-- One reference. -/
def one (a r : Ref) : ℕ := if a = r then 1 else 0

theorem count_cons (a : Ref) (l : List Ref) (r : Ref) : (a :: l).count r = l.count r + one a r := by
  rw [List.count_cons, one]
  simp only [beq_iff_eq]

variable (s : State)

/-- How many references the kernel counts. -/
def State.count : Ref → ℕ
  | .file f => (s.file f).ref
  | .inode ip => s.iref ip
  | .pipeEnd page writable => if (s.pipe page).any (·.isOpen writable) then 1 else 0
  | .page page => if s.pipe page = some ⟨false, false⟩ then 1 else 0

/-- The reference that is given back. -/
def Op.ref : Op → Ref
  | .fileclose f => .file f
  | .pipeclose page writable => .pipeEnd page writable
  | .kfree page => .page page
  | .iput ip => .inode ip

/-- The references that a process has inside a call. -/
def Pc.held : Pc → List Ref
  | .user | .start .. | .pipe | .fork | .copy _ | .files .. => []
  | .namex _ _ ip | .found _ ip | .checked ip | .alloc ip => [.inode ip]
  | .step _ _ ip next => [.inode ip, .inode next]
  | .exists dp ip | .new dp ip => [.inode dp, .inode ip]
  | .pipeOne f₀ => [.file f₀]
  | .pipeTwo f₀ f₁ => [.file f₀, .file f₁]
  | .ops todo _ => todo.map Op.ref

attribute [simp] Pc.held Pc.ret

theorem held_ret (value : ℤ) : (Pc.ret value).held = [] := rfl

/-- The references in `ofile[]`. -/
def slots (ofile : Fin nOFile → Option FilePtr) : Ref → ℕ
  | .file f => holders ofile f
  | .inode _ | .pipeEnd .. | .page _ => 0

/-- The references in `ofile[]` and `cwd`. -/
def Proc.keeps (proc : Proc) (r : Ref) : ℕ :=
  slots proc.ofile r + proc.cwd.elim 0 fun ip ↦ one (.inode ip) r

/-- All references of a process. -/
def Proc.holds (proc : Proc) (r : Ref) : ℕ := proc.pc.held.count r + proc.keeps r

def FileType.ref : FileType → Option Ref
  | .none => Option.none
  | .inode ip => some (.inode ip)
  | .pipe page writable => some (.pipeEnd page writable)

/-- The reference of a live file. -/
def File.holds (file : File) (r : Ref) : ℕ :=
  if file.ref = 0 then 0 else file.type.ref.elim 0 fun a ↦ one a r

/-- Every count is the number of references of the processes and of the live files. -/
def Settled : Prop :=
  ∀ r, s.count r = ∑ p, (s.proc p).holds r + ∑ f, (s.file f).holds r

/-! ### Counts after a change -/

@[simp] theorem count_setProc (p : Slot) (proc : Proc) (r : Ref) :
    (s.setProc p proc).count r = s.count r := by
  cases r <;> rfl

@[simp] theorem count_setPc (p : Slot) (pc : Pc) (r : Ref) : (s.setPc p pc).count r = s.count r :=
  count_setProc ..

theorem count_iget (ip : ℕ) (r : Ref) : (s.iget ip).count r = s.count r + one (.inode ip) r := by
  cases r with
  | inode i =>
    simp only [State.count, State.iget, update_apply, one, Ref.inode.injEq, eq_comm]
    split_ifs with hi
    · rw [hi]
    · rfl
  | _ => rfl

variable {s t : State} {proc : Proc} {f : FilePtr} {p : Slot} {pc : Pc} {fd : Fin nOFile}

theorem count_iput {ip : ℕ} (hpos : 0 < s.iref ip) (r : Ref) :
    (s.iput ip).count r + one (.inode ip) r = s.count r := by
  cases r with
  | inode i =>
    simp only [State.count, State.iput, update_apply, one, Ref.inode.injEq, eq_comm]
    split_ifs with hi
    · rw [← hi]
      exact (Nat.sub_add_cancel hpos).symm
    · rfl
  | _ => rfl

theorem count_setFile (s : State) (f : FilePtr) (file : File) (r : Ref) :
    (s.setFile f file).count r + (s.file f).ref * one (.file f) r =
      s.count r + file.ref * one (.file f) r := by
  cases r with
  | file g =>
    simp only [State.count, State.setFile, update_apply, one, Ref.file.injEq, eq_comm]
    split_ifs with hg
    · rw [hg]
      omega
    · rfl
  | _ => rfl

/-! ### One process and one file change -/

namespace Settled

variable {s t : State}

variable {p : Slot} {pc : Pc}

section

variable (h : Settled s)

include h

variable {r : Ref} {ip : ℕ}

theorem pos (hholds : 0 < (s.proc p).holds r) : 0 < s.count r := by
  rw [h r]
  refine Nat.add_pos_left ?_ _
  exact sum_pos' (fun _ _ ↦ Nat.zero_le _) ⟨p, mem_univ p, hholds⟩

theorem iref_pos (hcwd : (s.proc p).cwd = some ip) : 0 < s.iref ip := by
  refine h.pos (p := p) (r := .inode ip) ?_
  simp only [Proc.holds, Proc.keeps, hcwd, Option.elim_some, one, if_true]
  omega

/-- Two processes that have the same reference are counted twice. -/
theorem two_le {q : Slot} (hne : p ≠ q) (hp : 0 < (s.proc p).holds r)
    (hq : 0 < (s.proc q).holds r) : 2 ≤ s.count r := by
  have hsub := sum_le_sum_of_subset (f := fun u ↦ (s.proc u).holds r) (subset_univ {p, q})
  rw [sum_pair hne] at hsub
  rw [h r]
  omega

/-- What the counts gain or lose is what a process and a file gain or lose. -/
theorem trade {proc : Proc} {f : FilePtr} {file : File} (hproc : t.proc = update s.proc p proc)
    (hfile : t.file = update s.file f file)
    (hcount : ∀ r, t.count r + ((s.proc p).holds r + (s.file f).holds r) =
      s.count r + (proc.holds r + file.holds r)) : Settled t := by
  intro r
  have hprocs := sum_update_add univ (mem_univ p) s.proc proc fun _ P ↦ Proc.holds P r
  have hfiles := sum_update_add univ (mem_univ f) s.file file fun _ F ↦ File.holds F r
  have hs := h r
  have hr := hcount r
  rw [hproc, hfile]
  omega

/-- The same when no file changes. -/
theorem trade_proc {proc : Proc} (hproc : t.proc = update s.proc p proc) (hfile : t.file = s.file)
    (hcount : ∀ r, t.count r + (s.proc p).holds r = s.count r + proc.holds r) : Settled t := by
  refine h.trade (f := ⟨0, by decide⟩) hproc (hfile.trans (update_eq_self _ _).symm) ?_
  intro r
  have hr := hcount r
  omega

/-- A process goes on with the references that it has. -/
theorem setPc (hheld : pc.held = (s.proc p).pc.held) : Settled (s.setPc p pc) := by
  refine h.trade_proc rfl rfl fun r ↦ ?_
  rw [count_setPc, Proc.holds, Proc.holds, hheld]
  rfl

/-- A process gets an inode. -/
theorem iget (hheld : pc.held.Perm (.inode ip :: (s.proc p).pc.held)) :
    Settled ((s.iget ip).setPc p pc) := by
  refine h.trade_proc rfl rfl fun r ↦ ?_
  rw [count_setPc, count_iget, Proc.holds, Proc.holds, hheld.count_eq, count_cons]
  show _ = s.count r + (_ + (s.proc p).keeps r)
  omega

/-- A process gives back an inode. -/
theorem iput (hheld : (s.proc p).pc.held = .inode ip :: pc.held) :
    Settled ((s.iput ip).setPc p pc) := by
  have hpos : 0 < s.iref ip := by
    refine h.pos (p := p) (r := .inode ip) ?_
    rw [Proc.holds, hheld, count_cons, one, if_pos rfl]
    omega
  refine h.trade_proc rfl rfl fun r ↦ ?_
  have hcount := count_iput hpos r
  rw [count_setPc, Proc.holds, hheld, count_cons]
  show _ = s.count r + (pc.held.count r + (s.proc p).keeps r)
  omega

end

end Settled

/-! ### The invariant -/

/-- The files that `pipealloc` has taken. -/
def Pc.fresh : Pc → List FilePtr
  | .pipeOne f₀ => [f₀]
  | .pipeTwo f₀ f₁ => [f₀, f₁]
  | _ => []

/-- The process that `fork` is making. -/
def Pc.child : Pc → Option Slot
  | .copy np | .files np _ => some np
  | _ => none

/-- The descriptors that `fork` has still to copy. -/
def Pc.uncopied : Pc → List (Fin nOFile)
  | .copy _ => List.finRange nOFile
  | .files _ fds => fds
  | _ => []

/-- A place outside of `pipealloc`, `fork` and `exit`. -/
def Pc.plain : Pc → Bool
  | .pipeOne _ | .pipeTwo .. | .copy _ | .files .. | .ops _ (.exit _) => false
  | _ => true

/-- What holds of a process by itself. -/
structure Proc.Ok (proc : Proc) : Prop where
  busy : proc.pc ≠ .user → proc.state = .running
  cwd : proc.state = .running ↔ proc.cwd ≠ none
  closed : proc.state = .unused ∨ proc.state = .zombie → ∀ fd, proc.ofile fd = none
  exit : ∀ todo fds, proc.pc = .ops todo (.exit fds) → ∀ fd, fd ∉ fds → proc.ofile fd = none

/-- The slot that `fork` has taken is its own, and not yet filled. -/
structure Child (s : State) (p np : Slot) : Prop where
  embryo : (s.proc np).state = .embryo
  nodup : (s.proc p).pc.uncopied.Nodup
  uncopied : ∀ fd ∈ (s.proc p).pc.uncopied, (s.proc np).ofile fd = none
  owner : ∀ q, (s.proc q).pc.child = some np → q = p

structure Inv (s : State) : Prop where
  settled : Settled s
  typed : ∀ f, (s.file f).ref = 0 → (s.file f).type = .none
  fresh : ∀ p, ∀ f ∈ (s.proc p).pc.fresh, s.file f = ⟨1, .none⟩
  distinct : ∀ p, (s.proc p).pc.fresh.Nodup
  ok : ∀ p, (s.proc p).Ok
  child : ∀ p np, (s.proc p).pc.child = some np → Child s p np

/-- What a step of a process does, next to keeping the counts. -/
structure Moves (s : State) (p : Slot) (t : State) : Prop where
  file : ∀ f, t.file f = s.file f ∨ 0 < (s.proc p).holds (.file f) ∨ (s.file f).ref = 0
  proc : ∀ q, q ≠ p → t.proc q = s.proc q ∨
    ((t.proc q).pc = (s.proc q).pc ∧ (t.proc q).value = (s.proc q).value) ∧
      ((s.proc q).state = .unused ∨ (s.proc p).pc.child = some q)

theorem holds_of_mem_fresh (hf : f ∈ proc.pc.fresh) : 0 < proc.holds (.file f) := by
  have hheld : .file f ∈ proc.pc.held := by
    cases hpc : proc.pc <;> simp_all [Pc.fresh, Pc.held]
  exact Nat.add_pos_left (count_pos_iff.mpr hheld) _

variable {q : Slot} {s' : State} {ofile : Fin nOFile → Option FilePtr}

/-- Another process leaves alone the files that `pipealloc` has taken. -/
theorem Inv.file_of_fresh (h : Inv s) (hmoves : Moves s p t) (hne : q ≠ p)
    (hf : f ∈ (s.proc q).pc.fresh) : t.file f = s.file f := by
  have hfile := h.fresh q f hf
  have hholds := holds_of_mem_fresh hf
  rcases hmoves.file f with hsame | hheld | hfree
  · exact hsame
  · have htwo : 2 ≤ (s.file f).ref := h.settled.two_le hne hholds hheld
    rw [hfile] at htwo
    exact absurd htwo (by decide)
  · rw [hfile] at hfree
    exact absurd hfree (by decide)

section

variable (hlive : (s.proc p).state = .running ∨ (s.proc p).state = .zombie)

include hlive

/-- Another process leaves alone the slot that `fork` has taken. -/
theorem Inv.proc_of_child {np : Slot} (h : Inv s) (hmoves : Moves s p t) (hne : q ≠ p)
    (hchild : (s.proc q).pc.child = some np) : t.proc np = s.proc np := by
  have hc := h.child q np hchild
  have hnp : np ≠ p := by
    rintro rfl
    simp [hc.embryo] at hlive
  rcases hmoves.proc np hnp with hsame | ⟨-, hunused | hmine⟩
  · exact hsame
  · rw [hc.embryo] at hunused
    cases hunused
  · exact absurd (hc.owner p hmine).symm hne

/-- A step of a process keeps the invariant when it keeps what is about the process. -/
theorem Inv.next (h : Inv s) (hmoves : Moves s p t) (hsettled : Settled t)
    (htyped : ∀ f, (t.file f).ref = 0 → (t.file f).type = .none)
    (hfresh : ∀ f ∈ (t.proc p).pc.fresh, t.file f = ⟨1, .none⟩)
    (hdistinct : (t.proc p).pc.fresh.Nodup) (hok : ∀ q, (t.proc q).Ok)
    (hchild : ∀ np, (t.proc p).pc.child = some np → Child t p np) : Inv t := by
  have hpc : ∀ q, q ≠ p → (t.proc q).pc = (s.proc q).pc := by
    intro q hq
    rcases hmoves.proc q hq with hsame | hsame
    · rw [hsame]
    · exact hsame.1.1
  refine ⟨hsettled, htyped, fun q f hf ↦ ?_, fun q ↦ ?_, hok, fun q np hnp ↦ ?_⟩
  · rcases eq_or_ne q p with rfl | hq
    · exact hfresh f hf
    · rw [hpc q hq] at hf
      rw [h.file_of_fresh hmoves hq hf]
      exact h.fresh q f hf
  · rcases eq_or_ne q p with rfl | hq
    · exact hdistinct
    · rw [hpc q hq]
      exact h.distinct q
  · rcases eq_or_ne q p with rfl | hq
    · exact hchild np hnp
    · rw [hpc q hq] at hnp
      have hc := h.child q np hnp
      have hsame := h.proc_of_child hlive hmoves hq hnp
      refine ⟨?_, ?_, ?_, fun u hu ↦ ?_⟩
      · rw [hsame]
        exact hc.embryo
      · rw [hpc q hq]
        exact hc.nodup
      · rw [hpc q hq, hsame]
        exact hc.uncopied
      · rcases eq_or_ne u p with rfl | hup
        · have hnp' : (t.proc q).pc.child = some np := by rw [hpc q hq, hnp]
          exact absurd ((hchild np hu).owner q hnp') hq
        · rw [hpc u hup] at hu
          exact hc.owner u hu

/-- A step that changes one process only. -/
theorem Inv.own (h : Inv s) (hproc : s'.proc = s.proc)
    (hfile : ∀ f, s'.file f = s.file f ∨ 0 < (s.proc p).holds (.file f) ∨ (s.file f).ref = 0)
    (htyped : ∀ f, (s'.file f).ref = 0 → (s'.file f).type = .none)
    (hsettled : Settled (s'.setProc p proc)) (hok : proc.Ok)
    (hfresh : ∀ f ∈ proc.pc.fresh, s'.file f = ⟨1, .none⟩) (hdistinct : proc.pc.fresh.Nodup)
    (hchild : proc.pc.child = none) : Inv (s'.setProc p proc) ∧ Moves s p (s'.setProc p proc) := by
  have hself : (s'.setProc p proc).proc p = proc := update_self ..
  have hother : ∀ q, q ≠ p → (s'.setProc p proc).proc q = s.proc q := by
    intro q hq
    rw [← hproc]
    exact update_of_ne hq ..
  have hmoves : Moves s p (s'.setProc p proc) := ⟨hfile, fun q hq ↦ .inl (hother q hq)⟩
  refine ⟨h.next hlive hmoves hsettled htyped ?_ ?_ (fun q ↦ ?_) fun np hnp ↦ ?_, hmoves⟩
  · rw [hself]
    exact hfresh
  · rw [hself]
    exact hdistinct
  · by_cases hq : q = p
    · rw [hq, hself]
      exact hok
    · rw [hother q hq]
      exact h.ok q
  · rw [hself, hchild] at hnp
    cases hnp

/-- A step that leaves files alone. -/
theorem Inv.keep (h : Inv s) (hproc : s'.proc = s.proc) (hfile : s'.file = s.file)
    (hsettled : Settled (s'.setProc p proc)) (hok : proc.Ok)
    (hfresh : proc.pc.fresh = []) (hchild : proc.pc.child = none) :
    Inv (s'.setProc p proc) ∧ Moves s p (s'.setProc p proc) := by
  refine h.own hlive hproc (fun f ↦ .inl (by rw [hfile])) ?_ hsettled hok ?_ ?_ hchild
  · rw [hfile]
    exact h.typed
  · simp [hfresh]
  · simp [hfresh]

end

theorem Proc.Ok.setPc (h : proc.Ok) (hrunning : proc.state = .running)
    (hexit : ∀ todo fds, pc = .ops todo (.exit fds) → ∀ fd, fd ∉ fds → proc.ofile fd = none) :
    Proc.Ok { proc with pc := pc } :=
  ⟨fun _ ↦ hrunning, h.cwd, h.closed, hexit⟩

theorem Pc.fresh_of_plain (hplain : pc.plain) : pc.fresh = [] := by
  cases pc <;> first | rfl | cases hplain

theorem Pc.child_of_plain (hplain : pc.plain) : pc.child = none := by
  cases pc <;> first | rfl | cases hplain

theorem Proc.Ok.goOn (h : proc.Ok) (hrunning : proc.state = .running) (hplain : pc.plain) :
    Proc.Ok { proc with pc := pc } := by
  refine h.setPc hrunning fun todo fds hpc ↦ ?_
  rw [hpc] at hplain
  cases hplain

/-- The same when the process only goes on. -/
theorem Inv.goOn (h : Inv s) (hrunning : (s.proc p).state = .running) (hproc : s'.proc = s.proc)
    (hfile : s'.file = s.file) (hsettled : Settled (s'.setPc p pc)) (hplain : pc.plain) :
    Inv (s'.setPc p pc) ∧ Moves s p (s'.setPc p pc) := by
  rw [State.setPc, hproc] at hsettled ⊢
  exact h.keep (.inl hrunning) hproc hfile hsettled ((h.ok p).goOn hrunning hplain)
    (Pc.fresh_of_plain hplain) (Pc.child_of_plain hplain)

/-! ### Descriptors and files -/

theorem slots_clear (hfd : ofile fd = some f) (r : Ref) :
    slots (update ofile fd none) r + one (.file f) r = slots ofile r := by
  cases r with
  | file g =>
    have hclear := holders_clear hfd g
    simpa [slots, one] using hclear
  | _ => rfl

theorem slots_put (hfd : ofile fd = none) (f : FilePtr) (r : Ref) :
    slots (update ofile fd (some f)) r = slots ofile r + one (.file f) r := by
  cases r with
  | file g =>
    have hput := holders_put hfd f g
    simpa [slots, one] using hput
  | _ => rfl

theorem freeFd_eq_some (h : proc.freeFd = some fd) : proc.ofile fd = none := by
  have hpred := find?_some h
  exact of_decide_eq_true hpred

theorem freeFile_eq_some (h : s.freeFile = some f) : (s.file f).ref = 0 := by
  have hpred := find?_some h
  exact of_decide_eq_true hpred

theorem argfd_eq_some {n : ℕ} (h : proc.argfd n = some (fd, f)) : proc.ofile fd = some f := by
  rw [Proc.argfd] at h
  split_ifs at h with hn
  obtain ⟨g, hg, heq⟩ := Option.map_eq_some_iff.mp h
  cases heq
  exact hg

theorem holds_of_ofile (h : proc.ofile fd = some f) : 0 < proc.holds (.file f) := by
  have hpos := holders_pos h
  simp only [Proc.holds, Proc.keeps, slots]
  omega

/-- The process of a step, with a descriptor changed. -/
theorem Proc.Ok.setFd (h : proc.Ok) (hrunning : proc.state = .running) (fd : Fin nOFile)
    (f : Option FilePtr) (hexit : ∀ todo fds, pc = .ops todo (.exit fds) → ∀ fd', fd' ∉ fds →
      (proc.setFd fd f).ofile fd' = none) : Proc.Ok { proc.setFd fd f with pc := pc } := by
  refine ⟨fun _ ↦ hrunning, h.cwd, fun hclosed ↦ ?_, hexit⟩
  have hstate : (proc.setFd fd f).state = .running := hrunning
  simp [hstate] at hclosed

end EasyKernels.Xv6.OpenFiles
