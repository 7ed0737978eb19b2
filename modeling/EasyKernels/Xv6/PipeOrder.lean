import EasyKernels.Lib.Ring
import EasyKernels.Xv6.SleepingCalls

/-!
# Pipes are queues

`pipewrite` and `piperead` of `pipe.c` in the machine of `SleepingCalls`, by any number of
processes and interleaved with all its other calls. `stored` is the byte that a step puts into a
pipe, and `delivered` the bytes with which `piperead` comes out of its copying loop.

`Queue p q` says that the ring of `p` holds the bytes `q`, where the counters wrap at 2³² and the
ring has 512 cells, which divides 2³². `Queue.put` and `Queue.copy` are the specifications of the
stores of `pipewrite` and of the copying loop of `piperead`. `pipeOrder` is the result for whole
runs from any equal values of the two counters: the difference of the counters is at most the size
of the ring, what is delivered is a prefix of what is stored, and a call of `piperead` that returns
0 was for no bytes or found the pipe empty and closed for writing.

Scope. A call of `piperead` for a negative number of bytes is one for none.
-/

set_option autoImplicit false

namespace EasyKernels.Xv6.SleepWakeup

open List Function Lib Lib.Runs Lib.Ring

/-! ### The ring -/

theorem pipeSize_toNat : pipeSize.toNat = 512 := rfl

open UInt32

theorem toNat_mod_pipeSize (n : UInt32) : (n % pipeSize).toNat = n.toNat % 512 := by
  rw [UInt32.toNat_mod, pipeSize_toNat]

/-- The ring of a pipe holds the bytes of a list. -/
structure Queue (p : Pipe) (q : List UInt8) : Prop where
  length_le : q.length ≤ 512
  count : p.nwrite = p.nread + UInt32.ofNat q.length
  holds : Holds 512 p.data p.nread.toNat q

theorem ofNat_toNat_of_le {n : ℕ} (hn : n ≤ 512) : (ofNat n).toNat = n :=
  toNat_ofNat_of_lt (lt_of_le_of_lt hn (by decide))

variable {p : Pipe} {q : List UInt8}

theorem queue_nil (h : p.nread = p.nwrite) : Queue p [] where
  length_le := Nat.zero_le _
  count := by simp [h]
  holds := trivial

theorem Queue.sub (h : Queue p q) : p.nwrite - p.nread = ofNat q.length := by
  rw [h.count, UInt32.add_comm, UInt32.add_sub_cancel]

theorem Queue.empty_iff (h : Queue p q) : p.empty ↔ q = [] := by
  rw [Pipe.empty, h.count, UInt32.left_eq_add, ← length_eq_zero_iff, ← UInt32.toNat_inj,
    ofNat_toNat_of_le h.length_le]
  rfl

theorem Queue.full_iff (h : Queue p q) : p.full ↔ q.length = 512 := by
  rw [Pipe.full, h.count, UInt32.add_right_inj, ← UInt32.toNat_inj, ofNat_toNat_of_le h.length_le]
  rfl

theorem toNat_add_mod (n : UInt32) (k : ℕ) :
    (n + ofNat k).toNat % 512 = (n.toNat + k) % 512 :=
  Ring.toNat_add_mod (by decide) n k

/-- A byte is stored behind the others. -/
theorem Queue.put (h : Queue p q) (hroom : ¬ p.full) (b : UInt8) : Queue (p.put b) (q ++ [b]) := by
  have hlt : q.length < 512 := lt_of_le_of_ne h.length_le fun heq ↦ hroom (h.full_iff.mpr heq)
  constructor
  · rw [length_append, length_singleton]
    exact hlt
  · show p.nwrite + 1 = p.nread + ofNat (q ++ [b]).length
    rw [h.count, length_append, length_singleton, UInt32.ofNat_add, UInt32.add_assoc]
    rfl
  · show Holds 512 (update p.data (p.nwrite % pipeSize).toNat b) p.nread.toNat (q ++ [b])
    rw [toNat_mod_pipeSize, h.count, toNat_add_mod]
    exact h.holds.put hlt b

/-- The copying loop takes the first bytes, as many as are there and are asked for. -/
theorem Queue.copy (h : Queue p q) (n : ℕ) :
    (p.copy n).1 = q.take n ∧ Queue (p.copy n).2 (q.drop n) := by
  induction n generalizing p q with
  | zero => exact ⟨rfl, h⟩
  | succ n ih =>
    rw [Pipe.copy]
    split_ifs with hempty
    · obtain rfl := h.empty_iff.mp hempty
      exact ⟨rfl, h⟩
    · cases q with
      | nil => exact absurd (h.empty_iff.mpr rfl) hempty
      | cons b q =>
        obtain ⟨hb, hrest⟩ := h.holds
        have hnext : Queue { p with nread := p.nread + 1 } q := by
          refine ⟨Nat.le_of_succ_le h.length_le, ?_, hrest.start (toNat_add_mod p.nread 1)⟩
          rw [h.count, length_cons, UInt32.ofNat_add, UInt32.add_assoc,
            UInt32.add_comm (UInt32.ofNat _)]
          rfl
        obtain ⟨hbytes, hqueue⟩ := ih hnext
        refine ⟨?_, hqueue⟩
        show p.data (p.nread % pipeSize).toNat :: _ = _
        rw [toNat_mod_pipeSize, hb, hbytes, take_succ_cons]

/-! ### What a step stores and delivers -/

/-- The byte that a step of a process at a position stores in pipe `i`. -/
def Fn.stores (i : ℕ) (d : Data) : Fn → Option UInt8
  | .writeLoop j _ (b :: _) => if j = i ∧ ¬ (d.pipe i).full then some b else none
  | _ => none

/-- The bytes that `piperead` has copied out of pipe `i` when it goes from its test to the
wakeup. -/
def Fn.delivers (i : ℕ) : Fn → Fn → Option (List UInt8)
  | .readTest _ _, .readDone j bytes => if j = i then some bytes else none
  | _, _ => none

/-- The position at which a process takes a step. -/
def stepsAt (s : KState) : Event Call → Option Fn
  | .step p =>
    match s.mode p with
    | .run pc => some pc.fn
    | _ => none
  | _ => none

def stored (i : ℕ) (s : KState) (e : Event Call) : Option UInt8 :=
  (stepsAt s e).bind (Fn.stores i s.data)

def delivered (i : ℕ) (s : KState) (e : Event Call) : Option (List UInt8) :=
  match step kernel s e with
  | .next t => (stepsAt s e).bind fun fn ↦ (stepsAt t e).bind (fn.delivers i)
  | _ => none

/-- What a step does to a pipe, with the byte it stores and the bytes it delivers. -/
inductive PipeStep (p : Pipe) : Option UInt8 → Option (List UInt8) → Pipe → Prop
  | keep {p' : Pipe} (hdata : p'.data = p.data) (hread : p'.nread = p.nread)
      (hwrite : p'.nwrite = p.nwrite) : PipeStep p none none p'
  | put (b : UInt8) (hroom : ¬ p.full) : PipeStep p (some b) none (p.put b)
  | copy (n : ℕ) : PipeStep p none (some (p.copy n).1) (p.copy n).2

theorem PipeStep.refl (p : Pipe) : PipeStep p none none p := .keep rfl rfl rfl

variable {pc next : Pc} {d data : Data} {pid : Int32} {killed : Bool}
  {f : Int32 → Bool → Data → Except Panic (Data × Pc)}

theorem fn_of_flows (h : Flows kernel pc next) (i : ℕ) (d : Data) :
    pc.fn.stores i d = none ∧ ∀ fn, pc.fn.delivers i fn = none := by
  cases hfn : pc.fn with
  | writeLoop | readTest =>
    cases h with
    | acquire hcode | release hcode | table hcode | sleep hcode =>
      simp [kernel, code, hfn] at hcode
  | _ => exact ⟨rfl, fun _ ↦ rfl⟩

theorem setPipe_pipe (d : Data) (i j : ℕ) (p : Pipe) :
    (d.setPipe j p).pipe i = if i = j then p else d.pipe i := update_apply _ _ _ _

theorem writeLoop_pipe (pc : Pc) (i j n : ℕ) (rest : List UInt8) (killed : Bool) (d : Data) :
    PipeStep (d.pipe i) (Fn.stores i d (.writeLoop j n rest)) none
      ((writeLoop pc j n rest killed d).1.pipe i) := by
  cases rest with
  | nil => exact .refl _
  | cons b =>
    simp only [writeLoop, Fn.stores]
    by_cases hfull : (d.pipe j).full
    · have hnot : ¬ (j = i ∧ ¬ (d.pipe i).full) := fun h ↦ h.2 (h.1 ▸ hfull)
      split_ifs <;> exact .refl _
    · rw [if_neg hfull, setPipe_pipe]
      rcases eq_or_ne i j with rfl | hij
      · rw [if_pos rfl, if_pos ⟨rfl, hfull⟩]
        exact .put b hfull
      · rw [if_neg hij, if_neg fun h ↦ hij h.1.symm]
        exact .refl _

theorem readTest_pipe (pc : Pc) (i j n : ℕ) (killed : Bool) (d : Data) :
    PipeStep (d.pipe i) none (Fn.delivers i (.readTest j n) (readTest pc j n killed d).2.fn)
      ((readTest pc j n killed d).1.pipe i) := by
  simp only [readTest]
  split_ifs with hwait hkilled
  · exact .refl _
  · exact .refl _
  · rw [setPipe_pipe, Pc.go, Fn.delivers]
    rcases eq_or_ne i j with rfl | hij
    · rw [if_pos rfl, if_pos rfl]
      exact .copy n
    · rw [if_neg hij, if_neg hij.symm]
      exact .refl _

theorem closeSet_pipe (pc : Pc) (i j : ℕ) (writable : Bool) (d : Data) :
    PipeStep (d.pipe i) none none ((closeSet pc j writable d).1.pipe i) := by
  rw [closeSet, setPipe_pipe]
  split_ifs with hij hwritable
  · subst hij
    exact .keep rfl rfl rfl
  · subst hij
    exact .keep rfl rfl rfl
  · exact .refl _

/-- The other accesses leave the pipes alone. -/
theorem access_keeps_pipe (hcode : code pc = .access f) (hf : f pid killed d = .ok (data, next))
    (hwrite : ∀ i n rest, pc.fn ≠ .writeLoop i n rest) (hread : ∀ i n, pc.fn ≠ .readTest i n)
    (hclose : ∀ i writable, pc.fn ≠ .closeSet i writable) : data.pipe = d.pipe := by
  cases hfn : pc.fn
  all_goals
    simp only [code, hfn, reduceCtorEq, Instr.access.injEq] at hcode
  case writeLoop i n rest => exact absurd hfn (hwrite i n rest)
  case readTest i n => exact absurd hfn (hread i n)
  case closeSet i writable => exact absurd hfn (hclose i writable)
  case consLoop i target n =>
    subst hcode
    have heq := Except.ok.inj hf
    cases n with
    | zero =>
      cases heq
      rfl
    | succ n =>
      simp only [consLoop] at heq
      split_ifs at heq <;> (cases heq; rfl)
  case intrLoop chars =>
    subst hcode
    have heq := Except.ok.inj hf
    cases chars <;> (cases heq; rfl)
  case lockTest | beginTest | endTest | logWrite | ticksTest =>
    subst hcode
    simp only [lockTest, beginTest, endTest, logWrite, ticksTest] at hf
    split_ifs at hf <;> (cases hf; rfl)
  all_goals
    subst hcode
    cases hf
    rfl

theorem access_pipe (hcode : code pc = .access f) (hf : f pid killed d = .ok (data, next)) (i : ℕ) :
    PipeStep (d.pipe i) (pc.fn.stores i d) (pc.fn.delivers i next.fn) (data.pipe i) := by
  cases hfn : pc.fn with
  | writeLoop j n rest =>
    simp only [code, hfn, Instr.access.injEq] at hcode
    subst hcode
    have heq : (writeLoop pc j n rest killed d).1 = data := congrArg Prod.fst (Except.ok.inj hf)
    rw [← heq]
    exact writeLoop_pipe pc i j n rest killed d
  | readTest j n =>
    simp only [code, hfn, Instr.access.injEq] at hcode
    subst hcode
    have heq : readTest pc j n killed d = (data, next) := Except.ok.inj hf
    have hread := readTest_pipe pc i j n killed d
    rwa [heq] at hread
  | closeSet j writable =>
    simp only [code, hfn, Instr.access.injEq] at hcode
    subst hcode
    have heq : (closeSet pc j writable d).1 = data := congrArg Prod.fst (Except.ok.inj hf)
    rw [← heq]
    exact closeSet_pipe pc i j writable d
  | _ =>
    have hsame := access_keeps_pipe hcode hf (by simp [hfn]) (by simp [hfn]) (by simp [hfn])
    rw [hsame]
    exact .refl _

theorem pipe_step {s t : KState} {e : Event Call} (hstep : step kernel s e = .next t) (i : ℕ) :
    PipeStep (s.data.pipe i) (stored i s e) (delivered i s e) (t.data.pipe i) := by
  have hdelivered : delivered i s e =
      (stepsAt s e).bind fun fn ↦ (stepsAt t e).bind (fn.delivers i) := by
    rw [delivered, hstep]
  -- A step that is not an access leaves the pipes alone.
  have hkeep (hnone : ∀ fn ∈ stepsAt s e,
      fn.stores i s.data = none ∧ ∀ fn', fn.delivers i fn' = none) (hdata : t.data = s.data) :
      PipeStep (s.data.pipe i) (stored i s e) (delivered i s e) (t.data.pipe i) := by
    rw [hdelivered, stored, hdata]
    cases hfn : stepsAt s e with
    | none => exact .refl _
    | some fn =>
      obtain ⟨hstores, hdelivers⟩ := hnone fn hfn
      simp only [Option.bind_some, hstores, funext hdelivers, Option.bind_fun_none]
      exact .refl _
  cases step_move hstep with
  | call | schedule =>
    exact hkeep (by simp [stepsAt]) rfl
  | access p pc f data next hmode hcode hf =>
    rw [hdelivered]
    simp only [stored, stepsAt, hmode, State.setMode, update_self, Option.bind_some]
    exact access_pipe hcode hf i
  | acquire p pc lk next hmode hcode =>
    exact hkeep (by simpa [stepsAt, hmode] using fn_of_flows (.acquire hcode) i s.data) rfl
  | release p pc lk next hmode hcode =>
    exact hkeep (by simpa [stepsAt, hmode] using fn_of_flows (.release hcode) i s.data) rfl
  | enter p pc op next hmode hcode =>
    exact hkeep (by simpa [stepsAt, hmode] using fn_of_flows (.table hcode) i s.data) rfl
  | sleep p pc chan lk next hmode hcode =>
    exact hkeep (by simpa [stepsAt, hmode] using fn_of_flows (.sleep hcode) i s.data) rfl
  | pass p op next hmode | leave p op next hmode | unlock p chan lk next hmode
  | sched p chan lk next hmode | resume p chan lk next hmode | relock p chan lk next hmode =>
    exact hkeep (by simp [stepsAt, hmode]) rfl

/-! ### What `piperead` returns -/

/-- The process that an event is about. -/
def Event.proc {Call : Type} : Event Call → Slot
  | .call p _ | .step p | .schedule p => p

theorem Move.mode_of_ne {L C D PC π Call : Type} [DecidableEq L] [DecidableEq C]
    {prog : Program L C D PC π Call} {s t : State L C D PC} {e : Event Call}
    (h : Move prog s e t) {p : Slot} (hp : p ≠ e.proc) : t.mode p = s.mode p := by
  cases h <;> exact update_of_ne hp _ _

/-- A process is in `piperead(i, addr, n)`, and what it is about to return or has returned is one of
the values that `Q` allows. -/
inductive Reading (i n : ℕ) (Q : ℤ → Prop) : Mode Lock Chan Pc → Prop
  | acquire {pc : Pc} (hfn : pc.fn = .readAcquire i n) : Reading i n Q (.run pc)
  | test {pc : Pc} (hfn : pc.fn = .readTest i n) : Reading i n Q (.run pc)
  | wait {pc : Pc} (hfn : pc.fn = .readSleep i n) : Reading i n Q (.run pc)
  | sleep {stage : Stage} {chan : Chan} {lk : Lock} {next : Pc} (hfn : next.fn = .readTest i n) :
      Reading i n Q (.sleep stage chan lk next)
  | done {pc : Pc} {bytes : List UInt8} (hfn : pc.fn = .readDone i bytes) (hQ : Q bytes.length) :
      Reading i n Q (.run pc)
  | wake {op : Op Chan} {done : Bool} {next : Pc} {ret : ℤ} (hfn : next.fn = .pipeRelease i ret)
      (hQ : Q ret) : Reading i n Q (.table op done next)
  | release {pc : Pc} {ret : ℤ} (hfn : pc.fn = .pipeRelease i ret) (hQ : Q ret) :
      Reading i n Q (.run pc)
  | returned {pc : Pc} {ret : ℤ} (hfn : pc.fn = .user ret) (hQ : Q ret) : Reading i n Q (.run pc)

variable {i n : ℕ} {Q Q' : ℤ → Prop}

theorem Reading.mono {mode : Mode Lock Chan Pc} (h : Reading i n Q mode)
    (hQ : ∀ ret, Q ret → Q' ret) : Reading i n Q' mode := by
  cases h with
  | acquire hfn => exact .acquire hfn
  | test hfn => exact .test hfn
  | wait hfn => exact .wait hfn
  | sleep hfn => exact .sleep hfn
  | done hfn h => exact .done hfn (hQ _ h)
  | wake hfn h => exact .wake hfn (hQ _ h)
  | release hfn h => exact .release hfn (hQ _ h)
  | returned hfn h => exact .returned hfn (hQ _ h)

/-- What a reader goes on to from a position where it does not access the pipe. -/
theorem Reading.flows (h : Reading i n Q (.run pc)) :
    (∀ lk next, code pc = .acquire lk next → Reading i n Q (.run next)) ∧
    (∀ lk next, code pc = .release lk next → Reading i n Q (.run next)) ∧
    (∀ op next, code pc = .table op next → Reading i n Q (.table op false next)) ∧
    (∀ chan lk next, code pc = .sleep chan lk next →
      Reading i n Q (.sleep .locked chan lk next)) := by
  cases h with
  | acquire hfn =>
    simp only [code, hfn, Instr.acquire.injEq, reduceCtorEq, false_implies, implies_true, and_true]
    rintro _ _ ⟨-, rfl⟩
    exact .test rfl
  | wait hfn =>
    simp only [code, hfn, Instr.sleep.injEq, reduceCtorEq, false_implies, implies_true, true_and]
    rintro _ _ _ ⟨-, -, rfl⟩
    exact .sleep rfl
  | done hfn hQ =>
    simp only [code, hfn, Instr.table.injEq, reduceCtorEq, false_implies, implies_true, true_and,
      and_true]
    rintro _ _ ⟨-, rfl⟩
    exact .wake rfl hQ
  | release hfn hQ =>
    simp only [code, hfn, Instr.release.injEq, reduceCtorEq, false_implies, implies_true, true_and,
      and_true]
    rintro _ _ ⟨-, rfl⟩
    exact .returned rfl hQ
  | test hfn | returned hfn => simp [code, hfn]

/-- A reader accesses the pipe in its test: it waits, is killed, or copies. -/
theorem Reading.access (h : Reading i n Q (.run pc)) (hcode : code pc = .access f)
    (hf : f pid killed d = .ok (data, next)) (hkilled : Q (-1))
    (hcopy : pc.fn = .readTest i n → ¬ ((d.pipe i).empty ∧ (d.pipe i).writeopen = true) →
      Q ((d.pipe i).copy n).1.length) : Reading i n Q (.run next) := by
  cases h with
  | test hfn =>
    simp only [code, hfn, Instr.access.injEq] at hcode
    subst hcode
    have heq : (readTest pc i n killed d).2 = next := congrArg Prod.snd (Except.ok.inj hf)
    simp only [readTest] at heq
    split_ifs at heq with hwait hk
    · exact heq ▸ .release rfl hkilled
    · exact heq ▸ .wait rfl
    · exact heq ▸ .done rfl (hcopy hfn hwait)
  | acquire hfn | wait hfn | done hfn | release hfn | returned hfn => simp [code, hfn] at hcode

theorem Reading.move {s t : KState} {e : Event Call} {p : Slot} (hmove : Move kernel s e t)
    (hcall : ∀ call, e ≠ .call p call) (h : Reading i n Q (s.mode p)) (hkilled : Q (-1))
    (hcopy : ∀ pc, s.mode p = .run pc → pc.fn = .readTest i n →
      ¬ ((s.data.pipe i).empty ∧ (s.data.pipe i).writeopen = true) →
      Q ((s.data.pipe i).copy n).1.length) : Reading i n Q (t.mode p) := by
  by_cases hp : p = e.proc
  · subst hp
    -- What is shown of the new mode of the process is shown of the value it is updated to.
    have hself : ∀ {mode : Mode Lock Chan Pc}, Reading i n Q mode →
        Reading i n Q (update s.mode e.proc mode e.proc) := by
      intro mode hmode
      rwa [update_self]
    cases hmove with dsimp only [Event.proc] at h hcopy
    | call q call => exact absurd rfl (hcall call)
    | access q pc f data next hmode hcode hf =>
      exact hself ((hmode ▸ h).access hcode hf hkilled (hcopy pc hmode))
    | acquire q pc lk next hmode hcode => exact hself ((hmode ▸ h).flows.1 lk next hcode)
    | release q pc lk next hmode hcode => exact hself ((hmode ▸ h).flows.2.1 lk next hcode)
    | enter q pc op next hmode hcode => exact hself ((hmode ▸ h).flows.2.2.1 op next hcode)
    | sleep q pc chan lk next hmode hcode =>
      exact hself ((hmode ▸ h).flows.2.2.2 chan lk next hcode)
    | pass q op next hmode =>
      cases hmode ▸ h with
      | wake hfn hQ => exact hself (.wake hfn hQ)
    | leave q op next hmode =>
      cases hmode ▸ h with
      | wake hfn hQ => exact hself (.release hfn hQ)
    | unlock q chan lk next hmode | sched q chan lk next hmode | schedule q chan lk next hmode
    | resume q chan lk next hmode =>
      cases hmode ▸ h with
      | sleep hfn => exact hself (.sleep hfn)
    | relock q chan lk next hmode =>
      cases hmode ▸ h with
      | sleep hfn => exact hself (.test hfn)
  · rwa [hmove.mode_of_ne hp]

/-! ### Every run -/

section Runs

variable {pid : Slot → Int32} {pipe : ℕ → Pipe} {size : ℤ} {es : List (Event Call)} {s : KState}

/-- What has been stored is what has been delivered, followed by what is in the ring. -/
theorem queue_of_run {i : ℕ} (hequal : (pipe i).nread = (pipe i).nwrite)
    (hrun : run (step kernel) (booted pid pipe size) es = some s) :
    ∃ q, Queue (s.data.pipe i) q ∧ trace (step kernel) (stored i) (booted pid pipe size) es =
      (trace (step kernel) (delivered i) (booted pid pipe size) es).flatten ++ q := by
  refine run_induction (I := fun es s ↦ ∃ q, Queue (s.data.pipe i) q ∧
    trace (step kernel) (stored i) (booted pid pipe size) es =
      (trace (step kernel) (delivered i) (booted pid pipe size) es).flatten ++ q)
    ⟨[], queue_nil hequal, rfl⟩ ?_ hrun
  intro es s e t hrun ⟨q, hqueue, htrace⟩ hstep
  rw [trace_concat _ hrun hstep, trace_concat _ hrun hstep, htrace]
  have hmove := pipe_step hstep i
  generalize stored i s e = b at hmove
  generalize delivered i s e = bytes at hmove
  generalize t.data.pipe i = p' at hmove
  cases hmove with
  | keep hdata hread hwrite =>
    refine ⟨q, ⟨hqueue.length_le, ?_, ?_⟩, by simp⟩
    · rw [hread, hwrite, hqueue.count]
    · rw [hdata, hread]
      exact hqueue.holds
  | put b hroom => exact ⟨q ++ [b], hqueue.put hroom b, by simp⟩
  | copy n =>
    obtain ⟨hbytes, hrest⟩ := hqueue.copy n
    refine ⟨q.drop n, hrest, ?_⟩
    simp [hbytes]

/-- The reader has been at its test, in a state of the run, with the pipe empty and closed for
writing. -/
def FoundClosed (start : KState) (es : List (Event Call)) (p : Slot) (i n : ℕ) : Prop :=
  ∃ before after u pc, es = before ++ after ∧ run (step kernel) start before = some u ∧
    u.mode p = .run pc ∧ pc.fn = .readTest i n ∧ (u.data.pipe i).empty ∧
    (u.data.pipe i).writeopen = false

theorem FoundClosed.concat {start : KState} {es : List (Event Call)} {p : Slot} {i n : ℕ}
    (h : FoundClosed start es p i n) (e : Event Call) : FoundClosed start (es ++ [e]) p i n := by
  obtain ⟨before, after, u, pc, rfl, hfound⟩ := h
  exact ⟨before, after ++ [e], u, pc, append_assoc _ _ _, hfound⟩

theorem copy_eq_nil {p : Pipe} {n : ℕ} (hn : n ≠ 0) (h : (p.copy n).1 = []) : p.empty := by
  obtain ⟨m, rfl⟩ := Nat.exists_eq_succ_of_ne_zero hn
  rw [Pipe.copy] at h
  split_ifs at h with hempty
  exact hempty

/-- From its call on, a reader returns 0 only if it asked for no bytes or found the pipe empty and
closed. -/
theorem reading_of_run {start u : KState} {p : Slot} {i n : ℕ} {es : List (Event Call)} {s : KState}
    (hcalls : ∀ call, .call p call ∉ es)
    (hstart : step kernel start (.call p (.piperead i n)) = .next u)
    (hrun : run (step kernel) u es = some s) :
    Reading i n (fun ret ↦ ret = 0 → n = 0 ∨ FoundClosed u es p i n) (s.mode p) := by
  refine run_induction (I := fun es s ↦ (∀ call, .call p call ∉ es) →
    Reading i n (fun ret ↦ ret = 0 → n = 0 ∨ FoundClosed u es p i n) (s.mode p)) ?_ ?_ hrun hcalls
  · intro _
    cases step_move hstart with
    | call _ _ pc next hmode hnext =>
      show Reading i n _ (update start.mode p (.run next) p)
      rw [update_self]
      refine .acquire ?_
      simp only [kernel, SleepWakeup.start] at hnext
      split at hnext
      · cases hnext
        rfl
      · cases hnext
  · intro es s e t hs ih hstep hcalls
    have hread := ih fun call hmem ↦ hcalls call (mem_append_left _ hmem)
    have hcall : ∀ call, e ≠ .call p call := by
      rintro call rfl
      exact hcalls call (by simp)
    refine .move (step_move hstep) hcall (hread.mono ?_) (by simp) ?_
    · exact fun ret hret hzero ↦ (hret hzero).imp_right fun h ↦ h.concat e
    · intro pc hmode hfn hwait hzero
      by_cases hn : n = 0
      · exact .inl hn
      · have hempty := copy_eq_nil hn (length_eq_zero_iff.mp (Int.natCast_eq_zero.mp hzero))
        refine .inr ⟨es, [e], s, pc, rfl, hs, hmode, hfn, hempty, ?_⟩
        simpa [hempty] using hwait

/-- Pipes are queues, from any equal values of the counters: the counters differ by at most the
size of the ring, what readers have copied out is a prefix of what writers have stored, and a
reader that has returned 0 since its call asked for no bytes or has found the pipe empty and closed
for writing. -/
theorem pipeOrder {i : ℕ} (hequal : (pipe i).nread = (pipe i).nwrite)
    (hrun : run (step kernel) (booted pid pipe size) es = some s) :
    (s.data.pipe i).nwrite - (s.data.pipe i).nread ≤ pipeSize ∧
    (trace (step kernel) (delivered i) (booted pid pipe size) es).flatten <+:
      trace (step kernel) (stored i) (booted pid pipe size) es ∧
    ∀ (before after : List (Event Call)) (p : Slot) (n : ℤ) (pc : Pc) (u : KState),
      es = before ++ .call p (.piperead i n.toNat) :: after → (∀ call, .call p call ∉ after) →
      run (step kernel) (booted pid pipe size) (before ++ [.call p (.piperead i n.toNat)]) =
      some u →
      s.mode p = .run pc → pc.fn = .user 0 → n ≤ 0 ∨ FoundClosed u after p i n.toNat := by
  obtain ⟨q, hqueue, htrace⟩ := queue_of_run hequal hrun
  refine ⟨?_, ⟨q, htrace.symm⟩, ?_⟩
  · rw [hqueue.sub, le_iff_toNat_le, ofNat_toNat_of_le hqueue.length_le]
    exact hqueue.length_le
  · rintro before after p n pc u rfl hcalls hu hmode hfn
    obtain ⟨w, hw, hrest⟩ := run_append_eq_some.mp hrun
    obtain ⟨u', hstep, hafter⟩ := run_cons_eq_some.mp hrest
    obtain ⟨w', hw', hstep'⟩ := run_concat_eq_some.mp hu
    obtain rfl : w = w' := Option.some.inj (hw.symm.trans hw')
    obtain rfl : u' = u := Outcome.next.inj (hstep.symm.trans hstep')
    have hread := reading_of_run hcalls hstep hafter
    rw [hmode] at hread
    cases hread with
    | returned hret hQ =>
      rw [hfn] at hret
      refine (hQ (Fn.user.inj hret).symm).imp_left fun hn ↦ ?_
      exact Int.toNat_eq_zero.mp hn
    | acquire h | test h | wait h | done h | release h => simp [hfn] at h

end Runs

/-- A pipe whose counters are about to wrap. -/
def wrappingPipe : Pipe := { newPipe with nread := -1, nwrite := -1 }

/-- Two bytes pass through a pipe whose counters wrap between them. -/
theorem pipeOrder_wrapping : ∃ es s,
    run (step kernel) (booted (fun p ↦ .ofNat p) (fun _ ↦ wrappingPipe) 30) es = some s ∧
      (s.data.pipe 0).nread = 1 ∧
      (trace (step kernel) (delivered 0) (booted (fun p ↦ .ofNat p) (fun _ ↦ wrappingPipe) 30)
        es).flatten <+: [7, 8] := by
  refine ⟨(.call Processes.first (.pipewrite 0 [7, 8]) :: replicate 8 (.step Processes.first)) ++
      (.call Processes.first (.piperead 0 2) :: replicate 2 (.step Processes.first)), _,
    run_get (by decide +kernel), by decide +kernel,
    .trans (pipeOrder ?_ (run_get (by decide +kernel))).2.1 ?_⟩
  · rfl
  · decide +kernel

end EasyKernels.Xv6.SleepWakeup
