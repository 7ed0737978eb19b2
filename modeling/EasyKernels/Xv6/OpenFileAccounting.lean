import EasyKernels.Xv6.OpenFileFailures

/-!
# Accounting for open files

`openFilesAccounted` says, for every run of `open`, `close`, `dup`, `pipe`, `fork`, `exit` and
`chdir` by any processes, with every allocation allowed to fail: when no call is in progress `ref`
of a file is the number of descriptors that point to it, `ref` of an inode the number of live files
on it and of processes in it, and an end of a pipe is open when it has a live file (`Accounted`);
references are never given back that are not there, so that no page is freed twice; and a call that
returns -1 leaves `ofile[]` and `cwd` as they were, and all counts, unless other processes change
them meanwhile.

For the last part `Since` is what a call keeps from its first step on, and `Alone` what it keeps of
the rest of the kernel while no other process takes a step.
-/

set_option autoImplicit false

namespace EasyKernels.Xv6.OpenFiles

open Nat Finset List Function Lib.Runs Lib.Holders

/-! ### Every run -/

variable {s : State}

theorem reap_good {p : Slot} (h : Inv s) (hzombie : (s.proc p).state = .zombie) :
    Inv (s.setProc p { s.proc p with state := .unused }) ∧
      Moves s p (s.setProc p { s.proc p with state := .unused }) := by
  have huser := pc_of_state h (q := p) (by simp [hzombie])
  have hcwd := cwd_of_state h (q := p) (by simp [hzombie])
  have hclosed := (h.ok p).closed (.inr hzombie)
  refine h.keep (.inr hzombie) rfl rfl (setProc_settled h.settled fun r ↦ rfl) ?_ ?_ ?_
  · exact ⟨fun hbusy ↦ absurd huser hbusy, by simp [hcwd], fun _ ↦ hclosed, by simp [huser]⟩
  · simp [huser, Pc.fresh]
  · simp [huser, Pc.child]

theorem step_inv {t : State} {e : Event} (h : Inv s) (hstep : step s e = .next t) : Inv t := by
  cases e with
  | call p c =>
    obtain ⟨hp, hstep⟩ := guard_eq_next.mp hstep
    exact ((begin_good h hp.1 hp.2 c).next t hstep).1
  | go p choice =>
    obtain ⟨hp, hstep⟩ := guard_eq_next.mp hstep
    exact ((go_good h hp choice).next t hstep).1
  | reap p =>
    obtain ⟨hp, ⟨⟩⟩ := guard_eq_next.mp hstep
    exact (reap_good h hp).1

theorem step_fault {e : Event} {r : Fault} (h : Inv s) (hstep : step s e = .fault r) :
    r = .noInodes ∨ r = .initExiting := by
  cases e with rw [step] at hstep
  | call p c =>
    split_ifs at hstep with hp
    exact (begin_good h hp.1 hp.2 c).fault r hstep
  | go p choice =>
    split_ifs at hstep with hp
    exact (go_good h hp choice).fault r hstep
  | reap p =>
    split_ifs at hstep

theorem nProc_ne_zero : 0 < nProc := by decide

theorem settled_boot : Settled boot := by
  intro r
  have hholds : ∀ p, (boot.proc p).holds r = if p = ⟨0, nProc_ne_zero⟩ then one (.inode rootIno) r
      else 0 := by
    intro p
    have hslots : slots (fun _ ↦ none) r = 0 := by
      cases r with
      | file f => exact holders_none f
      | inode ip => rfl
      | pipeEnd => rfl
      | page => rfl
    simp only [Proc.holds, Proc.keeps, boot, Pc.held, count_nil, hslots, Fin.ext_iff]
    split_ifs <;> simp
  have hfiles : ∀ f, (boot.file f).holds r = 0 := fun f ↦ holds_none 0 r
  have hcount : boot.count r = one (.inode rootIno) r := by
    cases r with
    | file f => rfl
    | inode ip => simp [State.count, boot, one, eq_comm]
    | pipeEnd => rfl
    | page => rfl
  simp only [hholds, hfiles, hcount]
  simp

theorem inv_boot : Inv boot := by
  refine ⟨settled_boot, fun f _ ↦ rfl, fun p f hf ↦ ?_, fun p ↦ nodup_nil, fun p ↦ ?_,
    fun p np hnp ↦ ?_⟩
  · simp [boot, Pc.fresh] at hf
  · refine ⟨by simp [boot], ?_, fun _ fd ↦ rfl, by simp [boot]⟩
    simp only [boot]
    split_ifs <;> simp
  · simp [boot, Pc.child] at hnp

/-! ### Between calls -/

/-- No call is in progress. -/
def Quiescent (s : State) : Prop := ∀ p, (s.proc p).pc = .user

/-- The counts are right: of a file, its descriptors; of an inode, the live files on it and the
processes in it; an end of a pipe is open when there is a live file for it, and a pipe is there
while an end of it is open. -/
structure Accounted (s : State) : Prop where
  file : ∀ f, (s.file f).ref = ∑ p, holders (s.proc p).ofile f
  inode : ∀ ip, s.iref ip =
    (Finset.univ.filter fun f ↦ (s.file f).ref ≠ 0 ∧ (s.file f).type = .inode ip).card +
      (Finset.univ.filter fun p ↦ (s.proc p).cwd = some ip).card
  pipeEnd : ∀ page writable, (s.pipe page).any (·.isOpen writable) = true ↔
    ∃ f, (s.file f).ref ≠ 0 ∧ (s.file f).type = .pipe page writable
  pipe : ∀ page, s.pipe page ≠ none → ∃ writable, (s.pipe page).any (·.isOpen writable) = true

variable (file : File)

theorem holds_file (f : FilePtr) : file.holds (.file f) = 0 := by
  rw [File.holds]
  split_ifs
  · rfl
  · cases file.type <;> simp [FileType.ref, one]

theorem holds_inode (ip : ℕ) :
    file.holds (.inode ip) = if file.ref ≠ 0 ∧ file.type = .inode ip then 1 else 0 := by
  rw [File.holds]
  cases file.type <;> by_cases href : file.ref = 0 <;> simp [FileType.ref, one, href]

theorem holds_pipeEnd (page : ℕ) (w : Bool) :
    file.holds (.pipeEnd page w) = if file.ref ≠ 0 ∧ file.type = .pipe page w then 1 else 0 := by
  rw [File.holds]
  cases file.type <;> by_cases href : file.ref = 0 <;> simp [FileType.ref, one, href]

theorem Settled.accounted (h : Settled s) (hquiet : Quiescent s) : Accounted s := by
  have hholds : ∀ p r, (s.proc p).holds r = (s.proc p).keeps r := by
    intro p r
    rw [Proc.holds, hquiet p, Pc.held, count_nil, zero_add]
  constructor
  · intro f
    have hf : (s.file f).ref = _ := h (.file f)
    have hcwd : ∀ p, (s.proc p).keeps (.file f) = holders (s.proc p).ofile f := fun p ↦ by
      rw [Proc.keeps]
      cases (s.proc p).cwd <;> simp [slots, one]
    simpa [hholds, hcwd, holds_file] using hf
  · intro ip
    have hip := h (.inode ip)
    have hcwd : ∀ p, (s.proc p).keeps (.inode ip) =
      if (s.proc p).cwd = some ip then 1 else 0 := fun p ↦ by
      rw [Proc.keeps]
      cases (s.proc p).cwd <;> simp [slots, one]
    simp only [hholds, hcwd, holds_inode, ← card_filter] at hip
    rw [add_comm]
    exact hip
  · intro page w
    have hend := h (.pipeEnd page w)
    have hcwd : ∀ p, (s.proc p).keeps (.pipeEnd page w) = 0 := fun p ↦ by
      rw [Proc.keeps]
      cases (s.proc p).cwd <;> simp [slots, one]
    simp only [hholds, hcwd, holds_pipeEnd, sum_const_zero, zero_add, ← card_filter] at hend
    constructor
    · intro hopen
      have hpos : 0 < (univ.filter fun f ↦
          (s.file f).ref ≠ 0 ∧ (s.file f).type = .pipe page w).card := by
        rw [← hend, State.count, if_pos hopen]
        exact one_pos
      obtain ⟨f, hf⟩ := card_pos.mp hpos
      exact ⟨f, (Finset.mem_filter.mp hf).2⟩
    · rintro ⟨f, hf⟩
      have hpos : 0 < s.count (.pipeEnd page w) := by
        rw [hend]
        exact card_pos.mpr ⟨f, mem_filter.mpr ⟨mem_univ f, hf⟩⟩
      obtain ⟨pipe, hpipe, hopen⟩ := isOpen_of_count hpos
      rw [hpipe]
      exact hopen
  · intro page hpage
    have hcwd : ∀ p, (s.proc p).keeps (.page page) = 0 := fun p ↦ by
      rw [Proc.keeps]
      cases (s.proc p).cwd <;> simp [slots, one]
    have hfile : ∀ f, (s.file f).holds (.page page) = 0 := by
      intro f
      rw [File.holds]
      cases (s.file f).type <;> simp [FileType.ref, one]
    have hzero := h (.page page)
    simp only [hholds, hcwd, hfile, sum_const_zero, add_zero] at hzero
    obtain ⟨⟨readopen, writeopen⟩, hpipe⟩ := Option.ne_none_iff_exists'.mp hpage
    cases readopen with
    | true => exact ⟨false, by simp [hpipe, Pipe.isOpen]⟩
    | false =>
      cases writeopen with
      | true => exact ⟨true, by simp [hpipe, Pipe.isOpen]⟩
      | false => simp [State.count, hpipe] at hzero

/-! ### Since a call began -/

/-- The process of an event. -/
def Event.proc : Event → Slot
  | .call p _ | .go p _ | .reap p => p

/-- What a call that may still fail has left as it was, since the state `u` in which it began. -/
structure Kept (u : State) (p : Slot) (s : State) : Prop where
  ofile : (s.proc p).ofile = (u.proc p).ofile
  cwd : (s.proc p).cwd = (u.proc p).cwd
  running : (s.proc p).state = .running

/-- The same of the rest of the kernel, when no other process has taken a step. -/
structure Alone (u : State) (p : Slot) (s : State) : Prop where
  type : ∀ f, (u.file f).ref ≠ 0 → (s.file f).type = (u.file f).type
  held : ∀ f, Ref.file f ∈ (s.proc p).pc.held → (u.file f).ref = 0
  others : ∀ q, q ≠ p → ∀ r, (s.proc q).holds r = (u.proc q).holds r

section

variable {u s t : State} {p : Slot}

/-- The references of the processes are what they were, and what the process has in its call. -/
theorem sum_holds (huser : (u.proc p).pc = .user) (hkept : Kept u p s) (halone : Alone u p s)
    (r : Ref) : ∑ q, (s.proc q).holds r =
      ∑ q, (u.proc q).holds r + (s.proc p).pc.held.count r := by
  have hothers : ∑ q ∈ univ.erase p, (s.proc q).holds r = ∑ q ∈ univ.erase p, (u.proc q).holds r :=
    sum_congr rfl fun q hq ↦ halone.others q (ne_of_mem_erase hq) r
  have hs := sum_erase_add univ (fun q ↦ (s.proc q).holds r) (mem_univ p)
  have hu := sum_erase_add univ (fun q ↦ (u.proc q).holds r) (mem_univ p)
  have hkeeps : (s.proc p).keeps r = (u.proc p).keeps r := by
    rw [Proc.keeps, Proc.keeps, hkept.ofile, hkept.cwd]
  have hp : (s.proc p).holds r = (u.proc p).holds r + (s.proc p).pc.held.count r := by
    rw [Proc.holds, Proc.holds, hkeeps, huser, Pc.held, count_nil]
    omega
  omega

theorem ref_eq (hu : Settled u) (hs : Settled s) (huser : (u.proc p).pc = .user)
    (hkept : Kept u p s) (halone : Alone u p s) (f : FilePtr) :
    (s.file f).ref = (u.file f).ref + (s.proc p).pc.held.count (.file f) := by
  have hrefs : (s.file f).ref = _ := hs (.file f)
  have hrefu : (u.file f).ref = _ := hu (.file f)
  have hsum := sum_holds huser hkept halone (.file f)
  simp only [holds_file, sum_const_zero, add_zero] at hrefs hrefu
  omega

/-- A step of the process, when no other process has taken one. -/
theorem Alone.next (hu : Settled u) (hs : Settled s) (huser : (u.proc p).pc = .user)
    (hkept : Kept u p s) (halone : Alone u p s) (hstep : Undone s p t) : Alone u p t := by
  have hlive : ∀ f, (u.file f).ref ≠ 0 → .file f ∉ (s.proc p).pc.held ∧ (s.file f).ref ≠ 0 := by
    intro f hf
    have href := ref_eq hu hs huser hkept halone f
    exact ⟨fun hheld ↦ hf (halone.held f hheld), by omega⟩
  refine ⟨fun f hf ↦ ?_, fun f hheld ↦ ?_, fun q hq r ↦ ?_⟩
  · obtain ⟨hheld, href⟩ := hlive f hf
    rcases hstep.file f with hsame | hmine | hfree
    · rw [hsame]
      exact halone.type f hf
    · exact absurd hmine hheld
    · exact absurd hfree href
  · by_contra hf
    obtain ⟨hnot, href⟩ := hlive f hf
    rcases hstep.held f hheld with hmine | hfree
    · exact hnot hmine
    · exact href hfree
  · rw [hstep.others q hq, halone.others q hq]

/-- When the call has returned, everything is as it was. -/
theorem counts_eq (hu : Settled u) (hs : Settled s) (huser : (u.proc p).pc = .user)
    (huser' : (s.proc p).pc = .user) (hkept : Kept u p s) (halone : Alone u p s) (r : Ref) :
    s.count r = u.count r := by
  have href : ∀ f, (s.file f).ref = (u.file f).ref := by
    intro f
    rw [ref_eq hu hs huser hkept halone f, huser', Pc.held, count_nil, add_zero]
  have hfiles : ∀ f, (s.file f).holds r = (u.file f).holds r := by
    intro f
    rw [File.holds, File.holds, href f]
    split_ifs with hf
    · rfl
    · rw [halone.type f hf]
  rw [hs r, hu r, sum_holds huser hkept halone r, huser', Pc.held, count_nil]
  simp only [hfiles, add_zero]

/-- The two flags and the page tell the pipe. -/
theorem pipe_eq (h : ∀ r, s.count r = u.count r) (page : ℕ) : s.pipe page = u.pipe page := by
  have hread : s.count (.pipeEnd page false) = u.count (.pipeEnd page false) := h _
  have hwrite : s.count (.pipeEnd page true) = u.count (.pipeEnd page true) := h _
  have hpage : s.count (.page page) = u.count (.page page) := h _
  rcases hs : s.pipe page with _ | ⟨_ | _, _ | _⟩ <;>
    rcases hu : u.pipe page with _ | ⟨_ | _, _ | _⟩ <;>
    simp [hs, hu, Pipe.isOpen] at hread hwrite hpage ⊢

/-- What has been kept since a call began, as long as it may still fail. -/
structure Since (u : State) (p : Slot) (es : List Event) (s : State) : Prop where
  inv : Inv s
  kept : (s.proc p).undone → Kept u p s
  alone : (s.proc p).undone → (∀ e ∈ es, e.proc = p) → Alone u p s

variable {es : List Event}

/-- A step of another process. -/
theorem Since.other {q : Slot} {e : Event} (h : Since u p es s) (hne : p ≠ q) (he : e.proc = q)
    (hinv : Inv t) (hmoves : Moves s q t) : Since u p (es ++ [e]) t := by
  have hsame : (t.proc p).undone → (s.proc p).undone ∧ t.proc p = s.proc p := by
    intro hundone
    rcases hmoves.proc p hne with hsame | ⟨⟨hpc, hvalue⟩, hstate⟩
    · rw [hsame] at hundone
      exact ⟨hundone, hsame⟩
    · rw [Proc.undone, hpc, hvalue] at hundone
      have hrunning := (h.kept hundone).running
      rcases hstate with hunused | hchild
      · rw [hunused] at hrunning
        cases hrunning
      · rw [(h.inv.child q p hchild).embryo] at hrunning
        cases hrunning
  refine ⟨hinv, fun hundone ↦ ?_, fun _ hall ↦ ?_⟩
  · obtain ⟨hundone', hproc⟩ := hsame hundone
    obtain ⟨hofile, hcwd, hrunning⟩ := h.kept hundone'
    rw [← hproc] at hofile hcwd hrunning
    exact ⟨hofile, hcwd, hrunning⟩
  · refine absurd ?_ hne
    rw [← he]
    exact (hall e (by simp)).symm

/-- A step of the process itself. -/
theorem Since.mine {choice : Choice} (h : Since u p es s) (hu : Settled u)
    (huser : (u.proc p).pc = .user) (hinv : Inv t) (hrunning : (s.proc p).state = .running)
    (hgo : go s p choice = .next t) : Since u p (es ++ [.go p choice]) t := by
  have hstep := go_mayFail h.inv hrunning choice t hgo
  refine ⟨hinv, fun hundone ↦ ?_, fun hundone hall ↦ ?_⟩
  · have hundone' := hstep hundone
    have hkept := h.kept hundone'.undone
    exact ⟨hundone'.ofile.trans hkept.ofile, hundone'.cwd.trans hkept.cwd,
      hundone'.state.trans hkept.running⟩
  · have hundone' := hstep hundone
    have halone := h.alone hundone'.undone fun e he ↦ hall e (mem_append_left _ he)
    exact halone.next hu h.inv.settled huser (h.kept hundone'.undone) hundone'

theorem Since.step {e : Event} (h : Since u p es s) (hu : Settled u) (huser : (u.proc p).pc = .user)
    (hcall : ∀ c, e ≠ .call p c) (hstep : step s e = .next t) : Since u p (es ++ [e]) t := by
  have hinv := step_inv h.inv hstep
  cases e with
  | call q c =>
    have hne : p ≠ q := fun hpq ↦ hcall c (by rw [hpq])
    obtain ⟨hq, hstep⟩ := guard_eq_next.mp hstep
    exact h.other hne rfl hinv ((begin_good h.inv hq.1 hq.2 c).next t hstep).2
  | go q choice =>
    obtain ⟨hq, hstep⟩ := guard_eq_next.mp hstep
    rcases eq_or_ne p q with rfl | hpq
    · exact h.mine hu huser hinv hq hstep
    · exact h.other hpq rfl hinv ((go_good h.inv hq choice).next t hstep).2
  | reap q =>
    obtain ⟨hq, ⟨⟩⟩ := guard_eq_next.mp hstep
    rcases eq_or_ne p q with rfl | hpq
    · -- A process that is reaped has not failed in its last call.
      have hnot : ¬ (s.proc p).undone := by
        intro hundone
        have hrunning := (h.kept hundone).running
        rw [hq] at hrunning
        cases hrunning
      have hself : ((s.setProc p { s.proc p with state := .unused }).proc p).undone →
          (s.proc p).undone := by
        rw [State.setProc]
        simp only [update_self]
        exact id
      exact ⟨hinv, fun hundone ↦ absurd (hself hundone) hnot,
        fun hundone ↦ absurd (hself hundone) hnot⟩
    · exact h.other hpq rfl hinv (reap_good h.inv hq).2

theorem since_begin {c : Call} (hu : Inv u) (hrunning : (u.proc p).state = .running)
    (huser : (u.proc p).pc = .user) (hbegin : begin u p c = .next s) : Since u p [] s := by
  have hinv := ((begin_good hu hrunning huser c).next s hbegin).1
  refine ⟨hinv, fun hundone ↦ ?_, fun hundone _ ↦ ?_⟩
  · obtain ⟨hofile, hcwd, hstate, -⟩ := begin_mayFail hbegin hundone
    exact ⟨hofile, hcwd, hstate.trans hrunning⟩
  · obtain ⟨-, -, -, hfile, hheld, hothers⟩ := begin_mayFail hbegin hundone
    refine ⟨fun f _ ↦ by rw [hfile], fun f hf ↦ ?_, fun q hq r ↦ by rw [hothers q hq]⟩
    rw [hheld] at hf
    cases hf

end

/-- In every run, when no call is in progress the counts are right (`Accounted`); no count is ever
below what is given back, so that `filedup`, `fileclose` and the freeing of a page do not panic; and
a call that returns -1 leaves the descriptors and the directory of the process as they were, and all
counts and pipes when no other process has taken a step during the call. -/
theorem openFilesAccounted {es : List Event} {s : State} (hrun : run step boot es = some s) :
    (Quiescent s → Accounted s) ∧
    (∀ e r, step s e = .fault r → r = .noInodes ∨ r = .initExiting) ∧
    ∀ before mid u p c, es = before ++ .call p c :: mid → run step boot before = some u →
      (∀ c', Event.call p c' ∉ mid) → (s.proc p).pc = .user → (s.proc p).value = -1 →
        (s.proc p).ofile = (u.proc p).ofile ∧ (s.proc p).cwd = (u.proc p).cwd ∧
          ((∀ e ∈ mid, e.proc = p) →
            (∀ f, (s.file f).ref = (u.file f).ref) ∧ s.iref = u.iref ∧ s.pipe = u.pipe) := by
  have hinv : ∀ {es s}, run step boot es = some s → Inv s := fun hrun ↦
    run_invariant inv_boot (fun _ _ _ h hstep ↦ step_inv h hstep) hrun
  refine ⟨(hinv hrun).settled.accounted, fun e r ↦ step_fault (hinv hrun), ?_⟩
  intro before mid u p c hes hu hcall huser hvalue
  rw [hes] at hrun
  obtain ⟨u', hu', hrun⟩ := run_append_eq_some.mp hrun
  obtain rfl : u' = u := Option.some.inj (hu'.symm.trans hu)
  obtain ⟨t, hbegin, hmid⟩ := run_cons_eq_some.mp hrun
  have hinvu := hinv hu
  obtain ⟨hp, hbegin⟩ := guard_eq_next.mp hbegin
  have hsince : (∀ c', .call p c' ∉ mid) → Since u' p mid s := by
    refine run_induction (I := fun mid s ↦ (∀ c', .call p c' ∉ mid) → Since u' p mid s)
      (fun _ ↦ since_begin hinvu hp.1 hp.2 hbegin) ?_ hmid
    intro es v e w _ ih hstep hnot
    refine (ih fun c' hc' ↦ hnot c' (mem_append_left _ hc')).step hinvu.settled hp.2 ?_ hstep
    rintro c' rfl
    exact hnot c' (by simp)
  have hundone : (s.proc p).undone := by
    rw [Proc.undone, huser]
    exact hvalue
  obtain ⟨hinvs, hkept, halone⟩ := hsince hcall
  refine ⟨(hkept hundone).ofile, (hkept hundone).cwd, fun hall ↦ ?_⟩
  have hcounts := counts_eq hinvu.settled hinvs.settled hp.2 huser (hkept hundone)
    (halone hundone hall)
  exact ⟨fun f ↦ hcounts (.file f), funext fun ip ↦ hcounts (.inode ip), funext (pipe_eq hcounts)⟩

theorem nFile_pos : 0 < nFile := by decide

/-- The first process opens the root directory and duplicates its descriptor; then it fails to close
a descriptor that is not open. -/
theorem openFilesAccounted_afterDup : ∃ es s u, run step boot es = some u ∧
    run step u [.call ⟨0, nProc_ne_zero⟩ (.close 9), .go ⟨0, nProc_ne_zero⟩ .plain] = some s ∧
    Accounted s ∧ (s.file ⟨0, nFile_pos⟩).ref = 2 ∧ s.iref rootIno = 2 ∧ s.iref = u.iref := by
  obtain ⟨es, s, hrun, hquiet, hvalue, href, hiref⟩ : ∃ es s, run step boot
      (es ++ [.call ⟨0, nProc_ne_zero⟩ (.close 9), .go ⟨0, nProc_ne_zero⟩ .plain]) = some s ∧
      (∀ p, (s.proc p).pc = .user) ∧ (s.proc ⟨0, nProc_ne_zero⟩).value = -1 ∧
      (s.file ⟨0, nFile_pos⟩).ref = 2 ∧ s.iref rootIno = 2 :=
    ⟨.call ⟨0, nProc_ne_zero⟩ (.open true 0 false true) ::
      replicate 5 (.go ⟨0, nProc_ne_zero⟩ .plain) ++
        [.call ⟨0, nProc_ne_zero⟩ (.dup 0), .go ⟨0, nProc_ne_zero⟩ .plain], by decide +kernel⟩
  obtain ⟨u, hu, hlast⟩ := run_append_eq_some.mp hrun
  obtain ⟨haccounted, -, hfailed⟩ := openFilesAccounted hrun
  have hsame := hfailed es [.go ⟨0, nProc_ne_zero⟩ .plain] u ⟨0, nProc_ne_zero⟩ (.close 9) rfl hu
    (by simp) (hquiet _) hvalue
  have hcounts := hsame.2.2 (by simp [Event.proc])
  exact ⟨es, s, u, hu, hlast, haccounted hquiet, href, hiref, hcounts.2.1⟩

end EasyKernels.Xv6.OpenFiles
