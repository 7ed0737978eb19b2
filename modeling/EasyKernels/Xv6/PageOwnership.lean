import EasyKernels.Lib.Runs
import EasyKernels.Xv6.VmOwnership

/-!
# Every page of xv6 has one owner

Processes call `fork`, `exec`, `growproc`, `wait`, `pipealloc` and `pipeclose`, and their calls are
interleaved at each `kalloc` and `kfree`. A process in a call is at a program, and what it owns is
such that the program is `Safe`; so a step moves a page between the free list and a process, and no
other process is concerned (`Sound.advance`). A call that makes a process or a pipe takes an entry
for it first, which nobody else uses until it returns (`Sound.callProc`, `Sound.finish`).

`pageOwnership`: when no call is in progress, every page is on the free list once or has one
`Owner`. At no time is a page freed that is on the free list.

Scope. A process may wait for any zombie, and the child of `fork` may be given any unused entry. The
first process and `kpgdir` are made by one call at boot, during which `kalloc` does not fail;
`userinit` does not survive it.
-/

set_option autoImplicit false

namespace EasyKernels.Xv6.Vm

open List Function Lib.Runs Lib.Allocation
open Finset hiding range map

/-! ### The machine -/

/-- A call of a process. -/
inductive Call (τ ρ : Type)
  | boot
  /-- `growproc`, `exec` or `pipeclose`. -/
  | self
  | fork (np : τ)
  | wait (child : τ)
  | pipealloc (r : ρ)

variable {τ ρ : Type}

/-- What a call leaves: the process, and what else it has made. -/
abbrev Call.Res : Call τ ρ → Type
  | .boot => Pgdir × Image
  | .self | .wait _ => Image
  | .fork _ => Image × Option Image
  | .pipealloc _ => Image × Option ℕ

/-- An entry of `ptable`. It is taken by a process that is in `fork` and has allocated it, or in
`wait` and has found it. -/
inductive Slot (τ ρ : Type)
  | unused
  | taken (p : τ)
  | idle (im : Image)
  | busy (c : Call τ ρ) (prog : Kernel c.Res)
  | zombie (im : Image)

/-- A place for something that is allocated, or taken by the process that allocates it. -/
inductive Cell (τ α : Type)
  | empty
  | taken (p : τ)
  | full (a : α)

structure Pipe where
  page : ℕ
  readopen : Bool
  writeopen : Bool

/-- `kmem.freelist`, `ptable`, the pipes, and `kpgdir`. -/
structure State (τ ρ : Type) where
  free : List ℕ
  slot : τ → Slot τ ρ
  pipe : ρ → Cell τ Pipe
  kpgdir : Cell τ Pgdir

inductive Event (τ ρ : Type)
  | boot (p : τ)
  | fork (p np : τ)
  | exec (p : τ) (prog : Program)
  | growproc (p : τ) (n : ℤ)
  | exit (p : τ)
  | wait (p child : τ)
  /-- `pipealloc`, and whether the calls of `filealloc` succeed. -/
  | pipealloc (p : τ) (r : ρ) (files : Bool)
  | pipeclose (p : τ) (r : ρ) (writable : Bool)
  /-- A process goes on to the next `kalloc` or `kfree`, or returns; `kalloc` may fail. -/
  | step (p : τ) (refuse : Bool)

namespace State

variable (s : State τ ρ) [DecidableEq τ] [DecidableEq ρ]

def setSlot (p : τ) (x : Slot τ ρ) : State τ ρ := { s with slot := update s.slot p x }

def setPipe (r : ρ) (x : Cell τ Pipe) : State τ ρ := { s with pipe := update s.pipe r x }

/-- A call returns. -/
def finish (p : τ) : (c : Call τ ρ) → c.Res → State τ ρ
  | .boot, (kpgdir, im) => { s.setSlot p (.idle im) with kpgdir := .full kpgdir }
  | .self, im => s.setSlot p (.idle im)
  | .fork np, (im, child) =>
    (s.setSlot p (.idle im)).setSlot np (match child with
      | none => .unused
      | some child => .idle child)
  | .wait child, im => (s.setSlot p (.idle im)).setSlot child .unused
  | .pipealloc r, (im, page) =>
    (s.setSlot p (.idle im)).setPipe r (match page with
      | none => .empty
      | some page => .full ⟨page, true, true⟩)

end State

section Machine

variable [DecidableEq τ] [DecidableEq ρ] (lay : Layout)

/-- `pipeclose`. The page of the pipe is freed when both ends are closed. -/
def pipeclose (s : State τ ρ) (p : τ) (im : Image) (r : ρ) (pipe : Pipe) (writable : Bool) :
    State τ ρ :=
  let pipe := if writable then { pipe with writeopen := false } else { pipe with readopen := false }
  if pipe.readopen = false ∧ pipe.writeopen = false then
    (s.setPipe r .empty).setSlot p (.busy .self do
      kfree lay pipe.page
      pure im)
  else s.setPipe r (.full pipe)

def step (s : State τ ρ) : Event τ ρ → Outcome Panic (State τ ρ)
  | .boot p =>
    match s.slot p, s.kpgdir with
    | .unused, .empty => .next { s.setSlot p (.busy .boot (boot lay)) with kpgdir := .taken p }
    | _, _ => .blocked
  | .fork p np =>
    match s.slot p, s.slot np with
    | .idle im, .unused =>
      .next ((s.setSlot np (.taken p)).setSlot p (.busy (.fork np) do
        let child ← fork lay im
        pure (im, child)))
    | _, _ => .blocked
  | .exec p prog =>
    match s.slot p with
    | .idle im => .next (s.setSlot p (.busy .self (exec lay prog im)))
    | _ => .blocked
  | .growproc p n =>
    match s.slot p with
    | .idle im => .next (s.setSlot p (.busy .self (growproc lay im n)))
    | _ => .blocked
  | .exit p =>
    match s.slot p with
    | .idle im => .next (s.setSlot p (.zombie im))
    | _ => .blocked
  | .wait p child =>
    match s.slot p, s.slot child with
    | .idle im, .zombie dead =>
      .next ((s.setSlot child (.taken p)).setSlot p (.busy (.wait child) do
        wait lay dead
        pure im))
    | _, _ => .blocked
  | .pipealloc p r files =>
    match s.slot p, s.pipe r with
    | .idle im, .empty =>
      .next ((s.setPipe r (.taken p)).setSlot p (.busy (.pipealloc r) do
        let page ← pipealloc files
        pure (im, page)))
    | _, _ => .blocked
  | .pipeclose p r writable =>
    match s.slot p, s.pipe r with
    | .idle im, .full pipe =>
      if (if writable then pipe.writeopen else pipe.readopen) then
        .next (pipeclose lay s p im r pipe writable)
      else .blocked
    | _, _ => .blocked
  | .step p refuse =>
    match s.slot p with
    | .busy c (.ret a) => .next (s.finish p c a)
    | .busy _ (.fault e) => .fault e
    | .busy c prog =>
      match prog.step refuse s.free with
      | some (prog, free) => .next { s.setSlot p (.busy c prog) with free := free }
      | none => .blocked
    | _ => .blocked

end Machine

/-- All pages are free, and there are no processes. -/
def initial (pages : List ℕ) : State τ ρ where
  free := pages
  slot := fun _ ↦ .unused
  pipe := fun _ ↦ .empty
  kpgdir := .empty

/-! ### The invariant -/

def Call.own : (c : Call τ ρ) → c.Res → Multiset ℕ
  | .boot, (kpgdir, im) => kpgdir.own + im.own
  | .self, im | .wait _, im => im.own
  | .fork _, (im, child) => im.own + child.elim 0 Image.own
  | .pipealloc _, (im, page) => im.own + page.elim 0 singleton

/-- What belongs to an entry of `ptable`. What a process in a call owns is such that its call is
safe. -/
def Slot.Owns : Slot τ ρ → Multiset ℕ → Prop
  | .unused, M | .taken _, M => M = 0
  | .idle im, M | .zombie im, M => M = im.own
  | .busy c prog, M => Safe (fun a N ↦ N = c.own a) prog M

def Cell.own {α : Type} (own : α → Multiset ℕ) : Cell τ α → Multiset ℕ
  | .full a => own a
  | .empty | .taken _ => 0

/-- What a call fills when it returns. -/
inductive Place (τ ρ : Type)
  | proc (np : τ)
  | pipe (r : ρ)
  | kpgdir

def Call.place : Call τ ρ → Option (Place τ ρ)
  | .boot => some .kpgdir
  | .self => none
  | .fork np => some (.proc np)
  | .wait child => some (.proc child)
  | .pipealloc r => some (.pipe r)

def Slot.place : Slot τ ρ → Option (Place τ ρ)
  | .busy c _ => c.place
  | _ => none

/-- A place is taken by a process. -/
def Taken (s : State τ ρ) (p : τ) : Place τ ρ → Prop
  | .proc np => s.slot np = .taken p
  | .pipe r => s.pipe r = .taken p
  | .kpgdir => s.kpgdir = .taken p

/-- What belongs to a pipe. -/
def Cell.pages (x : Cell τ Pipe) : Multiset ℕ := x.own fun pipe ↦ {pipe.page}

/-- How often a page belongs to pipes and to `kpgdir`. -/
def shared [Fintype ρ] (pipe : ρ → Cell τ Pipe) (kpgdir : Cell τ Pgdir) (v : ℕ) : ℕ :=
  ∑ r, (pipe r).pages.count v + (kpgdir.own Pgdir.own).count v

/-- The pages are on the free list, belong to the processes, to pipes or to `kpgdir`, or are in
`rest`; and a process in a call has taken the place that the call fills. -/
structure Sound [Fintype τ] [Fintype ρ] (pages : List ℕ) (s : State τ ρ) (own : τ → Multiset ℕ)
    (rest : Multiset ℕ) : Prop where
  owns : ∀ p, (s.slot p).Owns (own p)
  total : ∀ v, s.free.count v + ∑ p, (own p).count v + shared s.pipe s.kpgdir v + rest.count v =
    pages.count v
  taken : ∀ p pl, (s.slot p).place = some pl → Taken s p pl

/-- A sum in which one term changes. -/
theorem sum_count_update {ι : Type} [Fintype ι] [DecidableEq ι] (f : ι → Multiset ℕ) (i : ι)
    (M : Multiset ℕ) (v : ℕ) :
    ∑ j, (update f i M j).count v + (f i).count v = ∑ j, (f j).count v + M.count v := by
  have hrest : ∑ j ∈ univ.erase i, (update f i M j).count v = ∑ j ∈ univ.erase i, (f j).count v :=
    sum_congr rfl fun j hj ↦ by rw [update_of_ne (ne_of_mem_erase hj)]
  rw [← add_sum_erase _ _ (mem_univ i), ← add_sum_erase _ _ (mem_univ i), hrest, update_self]
  omega

section Sound

variable [Fintype τ] [Fintype ρ] {pages : List ℕ} {s : State τ ρ} {own : τ → Multiset ℕ}
  {rest : Multiset ℕ} {p : τ} {x : Slot τ ρ} {R : Multiset ℕ} {c : Call τ ρ} {prog : Kernel c.Res}

open Multiset

/-- No call fills an entry that is not taken. -/
theorem Sound.place_ne (h : Sound pages s own rest) (hp : s.slot p = x) (hx : ∀ q, x ≠ .taken q)
    (q : τ) : (s.slot q).place ≠ some (.proc p) :=
  fun hq ↦ hx q (hp.symm.trans (h.taken q _ hq))

/-- What belongs to the entry of a process. -/
theorem Sound.owns_at (h : Sound pages s own rest) (hp : s.slot p = x) :
    x.Owns (own p) := hp ▸ h.owns p

omit [Fintype τ] [Fintype ρ] in
theorem Taken.unique {q : τ} {pl : Place τ ρ} (hp : Taken s p pl) (hq : Taken s q pl) : q = p := by
  cases pl with
  | proc | pipe | kpgdir =>
    cases hp.symm.trans hq
    rfl

/-- The entry that the call of a process fills is another one, and nothing belongs to it. -/
theorem Sound.target (h : Sound pages s own rest) (hp : s.slot p = .busy c prog) {np : τ}
    (hplace : c.place = some (.proc np)) : np ≠ p ∧ own np = 0 := by
  have htaken : s.slot np = .taken p := h.taken p (.proc np) (by rw [hp]; exact hplace)
  have hne : np ≠ p := by
    rintro rfl
    cases hp.symm.trans htaken
  exact ⟨hne, h.owns_at htaken⟩

theorem Sound.setKpgdir (h : Sound pages s own rest) {x : Cell τ Pgdir}
    (hcount : x.own Pgdir.own + R = s.kpgdir.own Pgdir.own + rest)
    (hothers : ∀ q, (s.slot q).place ≠ some .kpgdir) :
    Sound pages { s with kpgdir := x } own R := by
  refine ⟨h.owns, fun v ↦ ?_, fun q pl hplace ↦ ?_⟩
  · have htotal := h.total v
    have hstep := congrArg (Multiset.count v) hcount
    rw [count_add, count_add] at hstep
    rw [shared] at htotal
    change s.free.count v + _ + (∑ r, (s.pipe r).pages.count v + (x.own Pgdir.own).count v) + _ = _
    omega
  · have htaken := h.taken q pl hplace
    cases pl with
    | proc np => exact htaken
    | pipe r' => exact htaken
    | kpgdir => exact absurd hplace (hothers q)

section Pipes

variable [DecidableEq ρ]

theorem Sound.setPipe (h : Sound pages s own rest) {r : ρ} {x : Cell τ Pipe}
    (hcount : x.pages + R = (s.pipe r).pages + rest)
    (hothers : ∀ q, (s.slot q).place ≠ some (.pipe r)) : Sound pages (s.setPipe r x) own R := by
  refine ⟨h.owns, fun v ↦ ?_, fun q pl hplace ↦ ?_⟩
  · have htotal := h.total v
    have hsum := sum_count_update (fun r ↦ (s.pipe r).pages) r x.pages v
    have hstep := congrArg (Multiset.count v) hcount
    have hupdate : update (fun r ↦ (s.pipe r).pages) r x.pages =
        fun r' ↦ (update s.pipe r x r').pages := by
      funext r'
      exact (apply_update (fun _ x ↦ Cell.pages x) s.pipe r x r').symm
    rw [count_add, count_add] at hstep
    simp only [hupdate] at hsum
    rw [shared] at htotal
    change s.free.count v + _ + (∑ r', (update s.pipe r x r').pages.count v +
      (s.kpgdir.own Pgdir.own).count v) + _ = _
    omega
  · have htaken := h.taken q pl hplace
    cases pl with
    | proc np => exact htaken
    | pipe r' =>
      have hne : r' ≠ r := by
        rintro rfl
        exact hothers q hplace
      exact (update_of_ne hne _ _).trans htaken
    | kpgdir => exact htaken

end Pipes

variable [DecidableEq τ]

/-- The entry of a process changes, and perhaps the free list. -/
theorem Sound.setSlot (h : Sound pages s own rest) {M : Multiset ℕ} {l : List ℕ} (howns : x.Owns M)
    (hcount : ∀ v, l.count v + M.count v + R.count v =
      s.free.count v + (own p).count v + rest.count v)
    (hothers : ∀ q, q ≠ p → (s.slot q).place ≠ some (.proc p))
    (hself : ∀ pl, x.place = some pl → Taken (s.setSlot p x) p pl) :
    Sound pages { s.setSlot p x with free := l } (update own p M) R := by
  have hp : (s.setSlot p x).slot p = x := update_self _ _ _
  have hq : ∀ q, q ≠ p → (s.setSlot p x).slot q = s.slot q := fun q hne ↦
    update_of_ne hne _ _
  refine ⟨fun q ↦ ?_, fun v ↦ ?_, fun q pl hplace ↦ ?_⟩
  · rw [update_apply]
    split_ifs with hne
    · rw [hne]
      change ((s.setSlot p x).slot p).Owns M
      rwa [hp]
    · change ((s.setSlot p x).slot q).Owns (own q)
      rw [hq q hne]
      exact h.owns q
  · have htotal := h.total v
    have hsum := sum_count_update own p M v
    have hstep := hcount v
    change l.count v + _ + shared s.pipe s.kpgdir v + _ = _
    omega
  · by_cases hne : q = p
    · rw [hne] at hplace ⊢
      have htaken := hself pl (hp ▸ hplace)
      cases pl <;> exact htaken
    · replace hplace : ((s.setSlot p x).slot q).place = some pl := hplace
      rw [hq q hne] at hplace
      have htaken := h.taken q pl hplace
      cases pl with
      | proc np =>
        have hnp : np ≠ p := by
          rintro rfl
          exact hothers q hne hplace
        exact (hq np hnp).trans htaken
      | pipe r => exact htaken
      | kpgdir => exact htaken

/-- Only the entry of a process changes. -/
theorem Sound.replace (h : Sound pages s own rest) {M : Multiset ℕ} (howns : x.Owns M)
    (hcount : M + R = own p + rest) (hothers : ∀ q, q ≠ p → (s.slot q).place ≠ some (.proc p))
    (hself : ∀ pl, x.place = some pl → Taken (s.setSlot p x) p pl) :
    Sound pages (s.setSlot p x) (update own p M) R := by
  refine h.setSlot (l := s.free) howns (fun v ↦ ?_) hothers hself
  have hv := congrArg (Multiset.count v) hcount
  rw [count_add, count_add] at hv
  omega

/-! ### The calls -/

variable {im : Image}

/-- A process returns from a call with what is its own. No call fills the place of its call then. -/
theorem Sound.returns (h : Sound pages s own 0) (hp : s.slot p = .busy c prog) {extra : Multiset ℕ}
    (hown : own p = im.own + extra) :
    Sound pages (s.setSlot p (.idle im)) (update own p im.own) extra ∧
      ∀ pl, c.place = some pl → ∀ q, ((s.setSlot p (.idle im)).slot q).place ≠ some pl := by
  constructor
  · exact h.replace rfl (by rw [hown, add_zero]) (fun q _ ↦ h.place_ne hp nofun q) nofun
  · intro pl hpl q hq
    have htaken := h.taken p pl (by rw [hp]; exact hpl)
    by_cases hqp : q = p
    · rw [hqp] at hq
      simp only [State.setSlot, update_self, Slot.place] at hq
      cases hq
    · simp only [State.setSlot, update_of_ne hqp] at hq
      exact hqp (htaken.unique (h.taken q pl hq))

section

variable (lay : Layout) (h : Sound pages s own 0)

include h

/-- A process that is in no call starts one that fills no place. -/
theorem Sound.call (hp : s.slot p = .idle im) (howns : x.Owns im.own) (hplace : x.place = none) :
    ∃ own, Sound pages (s.setSlot p x) own 0 := by
  refine ⟨_, h.replace (R := 0) howns (by rw [show own p = _ from h.owns_at hp])
    (fun q _ ↦ h.place_ne hp nofun q) ?_⟩
  rw [hplace]
  exact nofun

/-- A process starts a call that fills an entry, which it takes. -/
theorem Sound.callProc (hp : s.slot p = .idle im) {np : τ} (hnp : np ≠ p)
    (hfree : ∀ q, s.slot np ≠ .taken q) (hplace : c.place = some (.proc np))
    (hsafe : Safe (fun a N ↦ N = c.own a) prog (im.own + own np)) :
    ∃ own, Sound pages ((s.setSlot np (.taken p)).setSlot p (.busy c prog)) own 0 := by
  have htaken : Sound pages (s.setSlot np (.taken p)) (update own np 0) (own np) :=
    h.replace rfl (by rw [zero_add, add_zero]) (fun q _ ↦ h.place_ne rfl hfree q) nofun
  have hslot : (s.setSlot np (.taken p)).slot p = .idle im :=
    (update_of_ne hnp.symm _ _).trans hp
  refine ⟨_, htaken.replace (R := 0) (x := .busy c prog) hsafe ?_
    (fun q _ ↦ htaken.place_ne hslot nofun q) fun pl hpl ↦ ?_⟩
  · rw [show update own np 0 p = _ from htaken.owns_at hslot, add_zero]
  · cases hplace.symm.trans hpl
    exact (update_of_ne hnp _ _).trans (update_self _ _ _)

theorem Sound.boot (hp : s.slot p = .unused) (hk : s.kpgdir = .empty) :
    ∃ own, Sound pages { s.setSlot p (.busy .boot (boot lay)) with kpgdir := .taken p } own 0 := by
  have htaken : Sound pages { s with kpgdir := .taken p } own 0 := by
    refine h.setKpgdir (by rw [hk]; rfl) fun q hq ↦ ?_
    cases hk.symm.trans (h.taken q _ hq)
  have hbusy := htaken.replace (p := p) (R := 0) (x := .busy .boot (Vm.boot lay)) (boot_safe lay)
    (by rw [show own p = 0 from h.owns_at hp]) (fun q _ ↦ htaken.place_ne (x := .unused) hp nofun q)
    fun pl hpl ↦ by
      cases hpl
      rfl
  exact ⟨_, hbusy⟩

/-- A process in a call goes on. -/
theorem Sound.advance {c : Call τ ρ} {prog prog' : Kernel c.Res} (hp : s.slot p = .busy c prog)
    {refuse : Bool} {free : List ℕ} (hstep : prog.step refuse s.free = some (prog', free)) :
    ∃ own, Sound pages { s.setSlot p (.busy c prog') with free := free } own 0 := by
  obtain ⟨N, hN, hcount⟩ := Safe.step (h.owns_at hp) hstep
  refine ⟨_, h.setSlot (M := N) hN (fun v ↦ ?_) (fun q _ ↦ h.place_ne hp nofun q)
    fun pl hpl ↦ ?_⟩
  · have hv := congrArg (Multiset.count v) hcount
    rw [count_add, count_add, coe_count, coe_count] at hv
    rw [hv]
  · have htaken := h.taken p pl (by rw [hp]; exact hpl)
    cases pl with
    | proc np => exact (update_of_ne (h.target hp hpl).1 _ _).trans htaken
    | pipe r => exact htaken
    | kpgdir => exact htaken

variable [DecidableEq ρ]

theorem Sound.callPipe (hp : s.slot p = .idle im) {r : ρ} (hr : s.pipe r = .empty)
    {prog : Kernel (Call.pipealloc r : Call τ ρ).Res}
    (hsafe : Safe (fun a N ↦ N = (Call.pipealloc r : Call τ ρ).own a) prog im.own) :
    ∃ own, Sound pages ((s.setPipe r (.taken p)).setSlot p (.busy (.pipealloc r) prog)) own 0 := by
  have htaken : Sound pages (s.setPipe r (.taken p)) own 0 := by
    refine h.setPipe (by rw [hr]; rfl) fun q hq ↦ ?_
    cases hr.symm.trans (h.taken q _ hq)
  have hslot : (s.setPipe r (.taken p)).slot p = .idle im := hp
  refine ⟨_, htaken.replace (R := 0) (x := .busy (.pipealloc r) prog) hsafe ?_
    (fun q _ ↦ htaken.place_ne hslot nofun q) fun pl hpl ↦ ?_⟩
  · rw [show own p = _ from h.owns_at hp]
  · cases hpl
    exact update_self _ _ _

theorem Sound.finish {c : Call τ ρ} {a : c.Res} (hp : s.slot p = .busy c (.ret a)) :
    ∃ own, Sound pages (s.finish p c a) own 0 := by
  have hown : own p = c.own a := h.owns_at hp
  cases c with
  | boot =>
    obtain ⟨kpgdir, im⟩ := a
    obtain ⟨hidle, hplace⟩ := h.returns hp (hown.trans (add_comm _ _))
    have htaken : s.kpgdir = .taken p := h.taken p .kpgdir (by rw [hp]; rfl)
    refine ⟨_, hidle.setKpgdir (R := 0) (x := .full kpgdir) ?_ (hplace _ rfl)⟩
    change kpgdir.own + 0 = s.kpgdir.own Pgdir.own + kpgdir.own
    rw [htaken, add_comm]
    rfl
  | self => exact ⟨_, (h.returns hp (hown.trans (add_zero _).symm)).1⟩
  | fork np =>
    obtain ⟨im, child⟩ := a
    obtain ⟨hidle, hplace⟩ := h.returns hp hown
    obtain ⟨hne, hzero⟩ := h.target hp rfl
    refine ⟨_, hidle.replace (p := np) (R := 0) (M := child.elim 0 Image.own) ?_ ?_
      (fun q _ ↦ hplace _ rfl q) fun pl hpl ↦ ?_⟩
    · cases child <;> exact rfl
    · rw [update_of_ne hne, hzero, add_comm]
    · cases child <;> cases hpl
  | wait child =>
    obtain ⟨hidle, hplace⟩ := h.returns hp
      (show own p = a.own + 0 from hown.trans (add_zero _).symm)
    obtain ⟨hne, hzero⟩ := h.target hp rfl
    exact ⟨_, hidle.replace (p := child) (R := 0) (M := 0) (x := .unused) rfl
      (by rw [update_of_ne hne, hzero]) (fun q _ ↦ hplace _ rfl q) nofun⟩
  | pipealloc r =>
    obtain ⟨im, page⟩ := a
    obtain ⟨hidle, hplace⟩ := h.returns hp hown
    have htaken : s.pipe r = .taken p := h.taken p (.pipe r) (by rw [hp]; rfl)
    refine ⟨_, hidle.setPipe (R := 0) ?_ (hplace _ rfl)⟩
    change _ = (s.pipe r).pages + _
    rw [htaken]
    cases page <;> rfl

/-- The last end of a pipe is closed. -/
theorem Sound.close (hp : s.slot p = .idle im) {r : ρ} {pipe : Pipe} (hr : s.pipe r = .full pipe) :
    ∃ own, Sound pages ((s.setPipe r .empty).setSlot p (.busy .self do
      kfree lay pipe.page
      pure im)) own 0 := by
  have hnone : Sound pages (s.setPipe r .empty) own {pipe.page} := by
    refine h.setPipe (by rw [hr]; exact add_comm _ _) fun q hq ↦ ?_
    cases hr.symm.trans (h.taken q _ hq)
  have hslot : (s.setPipe r .empty).slot p = .idle im := hp
  refine ⟨_, hnone.replace (R := 0) (M := pipe.page ::ₘ im.own) (x := .busy .self _)
    (Safe.kfree lay rfl) ?_ (fun q _ ↦ hnone.place_ne hslot nofun q) nofun⟩
  rw [show own p = _ from h.owns_at hp, add_zero, add_comm, singleton_add]

theorem Sound.pipeclose (hp : s.slot p = .idle im) {r : ρ} {pipe : Pipe}
    (hr : s.pipe r = .full pipe) (writable : Bool) :
    ∃ own, Sound pages (pipeclose lay s p im r pipe writable) own 0 := by
  rw [Vm.pipeclose]
  obtain ⟨pipe', hpipe⟩ : ∃ pipe', pipe' =
    if writable then { pipe with writeopen := false } else
      { pipe with readopen := false } := ⟨_, rfl⟩
  have hpage : pipe'.page = pipe.page := by
    rw [hpipe]
    cases writable <;> rfl
  rw [← hpipe]
  split_ifs
  · rw [hpage]
    exact h.close lay hp hr
  · refine ⟨own, h.setPipe ?_ fun q hq ↦ ?_⟩
    · rw [hr]
      exact congrArg (fun v : ℕ ↦ ({v} : Multiset ℕ) + 0) hpage
    · cases hr.symm.trans (h.taken q _ hq)

theorem Sound.step {t : State τ ρ} {e : Event τ ρ} (hnext : step lay s e = .next t) :
    ∃ own, Sound pages t own 0 := by
  cases e with simp only [Vm.step] at hnext
  | boot =>
    split at hnext <;> cases hnext
    rename_i hp hk
    exact h.boot lay hp hk
  | fork p np =>
    split at hnext <;> cases hnext
    rename_i im hp hnp
    have hne : np ≠ p := by
      rintro rfl
      cases hp.symm.trans hnp
    refine h.callProc hp hne (by rw [hnp]; exact nofun) rfl ?_
    rw [show own np = 0 from h.owns_at hnp, add_comm]
    exact (fork_safe lay im).bindOwn _ fun _ ↦ add_comm _ _
  | exec _ prog =>
    split at hnext <;> cases hnext
    rename_i im hp
    exact h.call hp (exec_safe lay prog im) rfl
  | growproc _ n =>
    split at hnext <;> cases hnext
    rename_i im hp
    exact h.call hp (growproc_safe lay im n) rfl
  | exit =>
    split at hnext <;> cases hnext
    rename_i hp
    exact h.call hp rfl rfl
  | wait p child =>
    split at hnext <;> cases hnext
    rename_i im dead hp hchild
    have hne : child ≠ p := by
      rintro rfl
      cases hp.symm.trans hchild
    refine h.callProc hp hne (by rw [hchild]; exact nofun) rfl ?_
    rw [show own child = dead.own from h.owns_at hchild, add_comm]
    exact (wait_safe lay dead).bindOwn _ fun _ ↦ zero_add _
  | pipealloc _ r files =>
    split at hnext <;> cases hnext
    rename_i im hp hr
    refine h.callPipe hp hr ?_
    rw [← zero_add im.own]
    exact (pipealloc_safe files).bindOwn _ fun _ ↦ add_comm _ _
  | pipeclose _ r writable =>
    split at hnext
    · rename_i hp hr
      split_ifs at hnext
      all_goals
        cases hnext
        exact h.pipeclose lay hp hr writable
    · cases hnext
  | step =>
    split at hnext
    · rename_i hp
      cases hnext
      exact h.finish hp
    · cases hnext
    · rename_i hp
      split at hnext <;> cases hnext
      rename_i hstep
      exact h.advance hp hstep
    · cases hnext

end

end Sound

/-! ### The owners of the pages -/

/-- What may own a page: the kernel stack of a process, its page directory, a page table or a
mapping of it, the kernel's page directory and page tables, or a pipe. -/
inductive Owner (τ ρ : Type)
  | kstack (p : τ)
  | vm (p : τ) (u : Use)
  | kernel (u : Use)
  | pipe (r : ρ)

def ownerEquiv : Owner τ ρ ≃ (τ × Option Use) ⊕ (Use ⊕ ρ) where
  toFun
    | .kstack p => .inl (p, none)
    | .vm p u => .inl (p, some u)
    | .kernel u => .inr (.inl u)
    | .pipe r => .inr (.inr r)
  invFun
    | .inl (p, none) => .kstack p
    | .inl (p, some u) => .vm p u
    | .inr (.inl u) => .kernel u
    | .inr (.inr r) => .pipe r
  left_inv o := by cases o <;> rfl
  right_inv
    | .inl (_, none) | .inl (_, some _) | .inr (.inl _) | .inr (.inr _) => rfl

instance [Fintype τ] [Fintype ρ] : Fintype (Owner τ ρ) := .ofEquiv _ ownerEquiv.symm

/-- The process of an entry that is in no call. -/
def Slot.image : Slot τ ρ → Option Image
  | .idle im | .zombie im => some im
  | .unused | .taken _ | .busy _ _ => none

def Cell.get {α : Type} : Cell τ α → Option α
  | .full a => some a
  | .empty | .taken _ => none

/-- The page that an owner has. -/
def State.holds (s : State τ ρ) : Owner τ ρ → Option ℕ
  | .kstack p => (s.slot p).image.map Image.kstack
  | .vm p u => (s.slot p).image.bind fun im ↦ im.pgdir.holds u
  | .kernel u => s.kpgdir.get.bind fun pd ↦ pd.holds u
  | .pipe r => (s.pipe r).get.map Pipe.page

def Slot.isBusy : Slot τ ρ → Bool
  | .busy _ _ => true
  | _ => false

/-- No call is in progress. -/
def State.Quiet (s : State τ ρ) : Prop := ∀ p c prog, s.slot p ≠ .busy c prog

section Owners

variable [Fintype τ] [Fintype ρ] {pages : List ℕ} {s : State τ ρ} {own : τ → Multiset ℕ}

omit [Fintype τ] [Fintype ρ] in
/-- What a process has is what belongs to its entry. -/
theorem pool_image {x : Slot τ ρ} {M : Multiset ℕ} (howns : x.Owns M)
    (hquiet : ∀ c prog, x ≠ .busy c prog) : (x.image.map Image.kstack).elim 0 singleton +
      pool (fun u ↦ x.image.bind fun im ↦ im.pgdir.holds u) = M := by
  cases x with
  | unused | taken p =>
    rw [show M = 0 from howns]
    exact (zero_add _).trans pool_none
  | idle im | zombie im =>
    rw [show M = im.own from howns, Image.own, Pgdir.own, ← Multiset.singleton_add]
    rfl
  | busy c prog => exact absurd rfl (hquiet c prog)

theorem pool_holds (h : Sound pages s own 0) (hquiet : s.Quiet) :
    pool s.holds = ∑ p, own p + (s.kpgdir.own Pgdir.own + ∑ r, (s.pipe r).pages) := by
  have hkernel : pool (fun u ↦ s.kpgdir.get.bind fun pd ↦ pd.holds u) = s.kpgdir.own Pgdir.own := by
    cases s.kpgdir with
    | empty | taken p => exact pool_none
    | full pd =>
      rw [Cell.own, Pgdir.own]
      rfl
  have hpipes : pool (fun r ↦ (s.pipe r).get.map Pipe.page) = ∑ r, (s.pipe r).pages := by
    rw [pool]
    refine sum_congr rfl fun r _ ↦ ?_
    cases s.pipe r <;> rfl
  rw [← pool_equiv ownerEquiv.symm, pool_sum, pool_sum, pool_prod]
  refine congrArg₂ _ (sum_congr rfl fun p _ ↦ ?_) (congrArg₂ _ hkernel hpipes)
  rw [pool_option]
  exact pool_image (h.owns p) (hquiet p)

/-- Between the free list and the owners, each page is there as often as in the beginning. -/
theorem Sound.count_holds (h : Sound pages s own 0) (hquiet : s.Quiet) (v : ℕ) :
    s.free.count v + (pool s.holds).count v = pages.count v := by
  have htotal := h.total v
  rw [shared] at htotal
  rw [pool_holds h hquiet, Multiset.count_add, Multiset.count_add, Multiset.count_sum',
    Multiset.count_sum']
  rw [Multiset.count_zero] at htotal
  omega

theorem sound_initial (pages : List ℕ) : Sound pages (initial pages : State τ ρ) (fun _ ↦ 0) 0 where
  owns _ := rfl
  total v := by
    have hpipes : ∑ _r : ρ, (.empty : Cell τ Pipe).pages.count v = 0 :=
      sum_eq_zero fun _ _ ↦ Multiset.count_zero v
    rw [sum_eq_zero fun _ _ ↦ Multiset.count_zero v, shared, Multiset.count_zero]
    exact congrArg (fun n ↦ pages.count v + 0 + (n + 0) + 0) hpipes
  taken _ _ hplace := by cases hplace

/-- What belongs to an entry is not on the free list. -/
theorem Sound.not_mem_free (h : Sound pages s own 0) (hnodup : pages.Nodup) {p : τ} {v : ℕ}
    (hv : v ∈ own p) : v ∉ s.free := by
  have htotal := h.total v
  have hone := nodup_iff_count_le_one.mp hnodup v
  have hmine : (own p).count v ≤ ∑ q, (own q).count v :=
    single_le_sum (f := fun q ↦ (own q).count v) (fun _ _ ↦ Nat.zero_le _) (mem_univ p)
  have hpos := Multiset.count_pos.mpr hv
  refine count_eq_zero.mp ?_
  omega

end Owners

/-- In every run, with `kalloc` failing at any call, no page is given to `kfree` that is on the free
list. When no call is in progress, a page is on the free list once and has no owner, or it is not on
the free list and has one owner. -/
theorem pageOwnership [DecidableEq τ] [DecidableEq ρ] (lay : Layout) [Fintype τ] [Fintype ρ]
    {pages : List ℕ} {s : State τ ρ} {es : List (Event τ ρ)} (hnodup : pages.Nodup)
    (hrun : run (step lay) (initial pages) es = some s) :
    (∀ p c v next, s.slot p = .busy c (.free v next) → v ∉ s.free) ∧
    (s.Quiet → ∀ v ∈ pages, s.free.count v = 1 ∧ (∀ o, s.holds o ≠ some v) ∨
      v ∉ s.free ∧ ∃! o, s.holds o = some v) := by
  obtain ⟨own, hsound⟩ : ∃ own, Sound pages s own 0 :=
    run_invariant (I := fun s ↦ ∃ own, Sound pages s own 0) ⟨_, sound_initial pages⟩
      (fun _ _ _ h hnext ↦ h.elim fun _ h ↦ h.step lay hnext) hrun
  constructor
  · intro p c v next hp hfree
    have howns := hsound.owns p
    rw [hp] at howns
    obtain ⟨N, hN, -⟩ := howns
    exact hsound.not_mem_free hnodup (hN ▸ Multiset.mem_cons_self v N) hfree
  · intro hquiet v hv
    have hcount := hsound.count_holds hquiet v
    rw [count_eq_one_of_mem hnodup hv] at hcount
    rcases Nat.eq_zero_or_pos (s.free.count v) with hzero | hpos
    · right
      refine ⟨count_eq_zero.mp hzero, existsUnique_of_count_pool ?_⟩
      omega
    · left
      refine ⟨by omega, eq_none_of_count_pool ?_⟩
      omega

/-- A small kernel: one page of its part of the address space is mapped. -/
def small : Layout :=
  ⟨extMem, [⟨kernBase, 0, pgSize, true, Nat.succ_pos 4095, le_rfl,
    kernBase_add_le (Nat.zero_le pgSize) pgSize_le_physTop⟩]⟩

/-- `fork` fails after three pages, then succeeds; the child exits and is waited for. -/
theorem pageOwnership_fork : ∃ (es : List (Event (Fin 2) (Fin 1))) (s : State (Fin 2) (Fin 1)),
    run (step small) (initial ((List.range 16).map fun i ↦ 0x400000 + i * pgSize)) es = some s ∧
      s.free.length = 9 ∧ ∀ v ∈ (List.range 16).map fun i ↦ 0x400000 + i * pgSize,
        s.free.count v = 1 ∧ (∀ o, s.holds o ≠ some v) ∨ v ∉ s.free ∧ ∃! o, s.holds o = some v := by
  refine ⟨.boot 0 :: replicate 8 (.step 0 false) ++
      (.fork 0 1 :: [.step 0 false, .step 0 false, .step 0 false, .step 0 true, .step 0 false,
        .step 0 false, .step 0 false, .step 0 false]) ++
      (.fork 0 1 :: replicate 6 (.step 0 false)) ++
      (.exit 1 :: .wait 0 1 :: replicate 6 (.step 0 false)), _, run_get (by decide +kernel),
    by decide +kernel, (pageOwnership small (by decide) (run_get _)).2 fun p c prog hp ↦ ?_⟩
  have hbusy : Slot.isBusy _ = true := congrArg Slot.isBusy hp
  clear hp
  revert p
  decide +kernel

end EasyKernels.Xv6.Vm
