import Mathlib.Data.Finset.Card
import EasyKernels.Lib.Chains
import EasyKernels.Lib.Runs
import EasyKernels.Xv6.Param

/-!
# The IDE driver

`iderw`, `idestart`, `ideintr` and `idewait` of `ide.c`, with the device. The queue is the linked
list through `qnext`; its first buffer is the one that the device works on. An interrupt comes when
the device has finished its command. The event carries the values of the status register from then
on, and what a write that failed left in the block.

`ideRequests` is the result for whole runs, with any number of processes. The requests are served
in the order in which they were queued, each once, and a call of `iderw` returns with `B_VALID` set
and `B_DIRTY` clear, whatever the device reports. The data of the buffer are those of the block as
long as the device reports no error (`Agrees`), and `ideintr_agrees_iff` says that this is needed:
`ideintr` skips the transfer of a read that failed, never looks at the status of a write, and sets
the flags in either case. `readsNothing` is a read that fails.

Scope. A process holds the sleep lock of its buffer during the call, and the buffer cache has one
buffer for a block (`BufferCache`), so that the calls in progress are for different blocks. A
process that sleeps in `iderw` looks at the flags again at any time.
-/

set_option autoImplicit false

namespace EasyKernels.Xv6.Ide

open Option List Function Lib.Runs Lib.Chains

variable {β : Type}

/-! ### The driver and the device -/

/-- The part of `struct buf` that the driver uses; `valid` and `dirty` are the flags. -/
structure Buf (β : Type) where
  dev : ℕ
  blockno : ℕ
  valid : Bool
  dirty : Bool
  data : β
  qnext : Option ℕ

inductive Panic
  | nothingToDo
  | noDisk
  | blockno
  deriving DecidableEq, Repr

/-- The command that the device works on: the disk and the sector, and the data of a write. -/
inductive Command (β : Type)
  | read (sector : ℕ × ℕ)
  | write (sector : ℕ × ℕ) (data : β)

/-- `caller` is the process in a call of `iderw` with a buffer. -/
structure State (β : Type) where
  bufs : ℕ → Buf β
  idequeue : Option ℕ
  caller : ℕ → Option ℕ
  command : Option (Command β)
  disk : ℕ × ℕ → β
  havedisk1 : Bool

variable (b : Buf β)

/-- The flags that `iderw` waits for. -/
def Buf.done : Bool := b.valid && !b.dirty

/-- `BSY` is clear and `DRDY` is set. -/
def ready (r : UInt8) : Bool := r &&& (0x80 ||| 0x40) == 0x40

/-- `DF` or `ERR` is set. -/
def failed (r : UInt8) : Bool := r &&& (0x20 ||| 0x01) != 0

/-- `idewait` on the values of the status register: whether it returns 0, and the values after it.
It does not return if the device does not get ready. -/
def idewait (checkerr : Bool) : List UInt8 → Option (Bool × List UInt8)
  | [] => none
  | r :: rest =>
    if ready r then some (!(checkerr && failed r), rest) else idewait checkerr rest

/-- The sector number in the registers `0x1f3` to `0x1f6`. -/
def lba (sector : ℕ) : ℕ :=
  sector % 256 + sector / 256 % 256 * 256 + sector / 65536 % 256 * 65536 +
    sector / 16777216 % 16 * 16777216

/-- The sector that `idestart` asks for. A block is one sector. -/
def Buf.sector : ℕ × ℕ := (b.dev % 2, lba b.blockno)

def Buf.command : Command β :=
  if b.dirty then .write b.sector b.data else .read b.sector

variable (s : State β)

def idestart (b : ℕ) (status : List UInt8) : Outcome Panic (State β) :=
  if fsSize.toNat ≤ (s.bufs b).blockno then .fault .blockno
  else
    match idewait false status with
    | none => .blocked
    | some _ => .next { s with command := some (s.bufs b).command }

/-- The device has finished a command without an error. -/
def succeeds (status : List UInt8) : Bool := (idewait true status).any Prod.fst

variable (disk : ℕ × ℕ → β)

/-- What the device does to the disk. -/
def Command.execute (ok : Bool) (left : β) : Command β → ℕ × ℕ → β
  | .read _ => disk
  | .write sector data => update disk sector (if ok then data else left)

/-- The data that `insl` gets. -/
def Command.supply (old : β) : Command β → β
  | .read sector => disk sector
  | .write _ _ => old

/-- The request of buffer `b` is finished: `b` leaves the queue with `data` and the new flags. -/
def finish (b : ℕ) (data : β) (disk : ℕ × ℕ → β) : State β :=
  { s with
    bufs := update s.bufs b { s.bufs b with data := data, valid := true, dirty := false }
    idequeue := (s.bufs b).qnext
    command := none
    disk := disk }

/-- The next request is started. -/
def startNext (status : List UInt8) : Outcome Panic (State β) :=
  match s.idequeue with
  | none => .next s
  | some b => idestart s b status

def ideintr (status : List UInt8) (left : β) : Outcome Panic (State β) :=
  match s.idequeue with
  | none => .next s
  | some b =>
    let data := (s.bufs b).data
    let disk := (s.command.map (Command.execute s.disk (succeeds status) left)).getD s.disk
    if (s.bufs b).dirty then startNext (finish s b data disk) status
    else
      match idewait true status with
      | none => .blocked
      | some (true, rest) =>
        startNext (finish s b ((s.command.map (Command.supply s.disk data)).getD data) disk) rest
      | some (false, rest) => startNext (finish s b data disk) rest

/-- A pointer that `pp` can point to: `idequeue`, or the `qnext` of a buffer. -/
def State.link : Option ℕ → Option ℕ
  | none => s.idequeue
  | some b => (s.bufs b).qnext

/-- The loop that finds the last pointer of the queue. -/
def findEnd (s : State β) : ℕ → Option ℕ → Option (Option ℕ)
  | 0, _ => none
  | fuel + 1, pp =>
    match s.link pp with
    | none => some pp
    | some b => findEnd s fuel (some b)

def State.setQnext (b : ℕ) (q : Option ℕ) : State β :=
  { s with bufs := update s.bufs b { s.bufs b with qnext := q } }

/-- `*pp = b`. -/
def State.setLink (b : ℕ) : Option ℕ → State β
  | none => { s with idequeue := some b }
  | some c => s.setQnext c (some b)

/-- Process `p` may call `iderw` with buffer `b`: it holds the lock, and no other call is for the
same block. -/
def Free (p b : ℕ) : Prop :=
  b < nBuf ∧ ∀ c < nBuf, s.caller c ≠ none →
    s.caller c ≠ some p ∧ c ≠ b ∧ (s.bufs c).sector ≠ (s.bufs b).sector

instance (p b : ℕ) : Decidable (Free s p b) :=
  inferInstanceAs (Decidable (_ ∧ ∀ c < nBuf, _ → _ ∧ _ ∧ _))

/-- `iderw`, up to the point where the process waits. -/
def iderw (p b : ℕ) (status : List UInt8) : Outcome Panic (State β) :=
  if (s.bufs b).done then .fault .nothingToDo
  else if (s.bufs b).dev ≠ 0 ∧ s.havedisk1 = false then .fault .noDisk
  else
    let s := s.setQnext b none
    match findEnd s (nBuf + 1) none with
    | none => .blocked
    | some pp =>
      let s := { s.setLink b pp with caller := update s.caller b (some p) }
      if s.idequeue = some b then idestart s b status else .next s

inductive Event (β : Type)
  | call (p b : ℕ) (status : List UInt8)
  | intr (status : List UInt8) (left : β)
  /-- The process in a call with buffer `b` returns, if the flags let it. -/
  | resume (b : ℕ)
  /-- The holder of a buffer that is in no call changes it, or it is given to another block. -/
  | own (b : ℕ) (buf : Buf β)

def step : Event β → Outcome Panic (State β)
  | .call p b status => if Free s p b then iderw s p b status else .blocked
  | .intr status left => ideintr s status left
  | .resume b =>
    if s.caller b ≠ none ∧ (s.bufs b).done then
      .next { s with caller := update s.caller b none }
    else .blocked
  | .own b buf =>
    if s.caller b = none then
      .next { s with bufs := update s.bufs b { buf with qnext := (s.bufs b).qnext } }
    else .blocked

/-- The buffer that an event puts in the queue. -/
def queued (_ : State β) : Event β → Option ℕ
  | .call _ b _ => some b
  | _ => none

/-- The buffer whose request an event finishes. -/
def served : Event β → Option ℕ
  | .intr _ _ => s.idequeue
  | _ => none

/-- No call is in progress. -/
structure Idle (s : State β) : Prop where
  idequeue : s.idequeue = none
  caller : ∀ b, s.caller b = none
  command : s.command = none

/-! ### The queue -/

/-- The queue lists the buffers of the calls that are not finished, and the device works on the
first. -/
structure Inv (s : State β) (l : List ℕ) : Prop where
  chain : Chain (fun b ↦ (s.bufs b).qnext) s.idequeue l
  lt : ∀ b, s.caller b ≠ none → b < nBuf
  mem_iff : ∀ b, b ∈ l ↔ s.caller b ≠ none ∧ (s.bufs b).done = false
  distinct : ∀ b c, s.caller b ≠ none → s.caller c ≠ none →
    (s.bufs b).sector = (s.bufs c).sector → b = c
  command : s.command = s.idequeue.map fun b ↦ (s.bufs b).command

variable {s s' : State β} {l : List ℕ} {b p : ℕ} {status : List UInt8} {left : β}

theorem Idle.inv (h : Idle s) : Inv s [] where
  chain := h.idequeue
  lt := fun b hb ↦ absurd (h.caller b) hb
  mem_iff := fun b ↦ by simp [h.caller b]
  distinct := fun b _ hb ↦ absurd (h.caller b) hb
  command := by
    rw [h.command, h.idequeue]
    rfl

theorem Inv.length_le (h : Inv s l) : l.length ≤ nBuf := by
  have hsub : l.toFinset ⊆ Finset.range nBuf := fun b hb ↦ by
    rw [List.mem_toFinset, h.mem_iff] at hb
    exact Finset.mem_range.mpr (h.lt b hb.1)
  have hcard := Finset.card_le_card hsub
  rwa [Finset.card_range, toFinset_card_of_nodup h.chain.nodup] at hcard

/-- The loop over the queue finds its last pointer. -/
theorem findEnd_eq {fuel : ℕ} {pp : Option ℕ}
    (hchain : Chain (fun b ↦ (s.bufs b).qnext) (s.link pp) l) (hfuel : l.length < fuel) :
    findEnd s fuel pp = some (l.getLast?.or pp) := by
  induction fuel generalizing pp l with
  | zero => exact absurd hfuel (Nat.not_lt_zero _)
  | succ fuel ih =>
    cases l with
    | nil => simp only [findEnd, chain_nil.mp hchain, getLast?_nil, none_or]
    | cons b rest =>
      obtain ⟨hlink, hrest⟩ := hchain
      have hloop : findEnd s fuel (some b) = some (rest.getLast?.or (some b)) :=
        ih hrest (Nat.lt_of_succ_lt_succ hfuel)
      simp only [findEnd, hlink, hloop]
      cases rest with
      | nil => rfl
      | cons =>
        rw [getLast?_cons_cons, getLast?_cons]
        rfl

open State

theorem qnext_setQnext (s : State β) (b : ℕ) (q : Option ℕ) :
    (fun c ↦ ((s.setQnext b q).bufs c).qnext) =
      update (fun c ↦ (s.bufs c).qnext) b q :=
  comp_update Buf.qnext s.bufs b _

theorem chain_setQnext (hchain : Chain (fun c ↦ (s.bufs c).qnext) s.idequeue l) (hb : b ∉ l) :
    Chain (fun c ↦ ((s.setQnext b none).bufs c).qnext) s.idequeue l := by
  rw [qnext_setQnext]
  refine hchain.congr fun c hc ↦ update_of_ne ?_ _ _
  rintro rfl
  exact hb hc

/-- `b` is put at the end of the queue. -/
theorem chain_setLink (hchain : Chain (fun c ↦ (s.bufs c).qnext) s.idequeue l) (hb : b ∉ l) :
    Chain (fun c ↦ (((s.setQnext b none).setLink b l.getLast?).bufs c).qnext)
      ((s.setQnext b none).setLink b l.getLast?).idequeue (l ++ [b]) := by
  have hclear := chain_setQnext hchain hb
  have hnone : ((s.setQnext b none).bufs b).qnext = none := by simp [setQnext]
  rcases eq_nil_or_concat l with rfl | ⟨rest, last, rfl⟩
  · exact ⟨rfl, hnone⟩
  · rw [concat_eq_append] at hclear hb ⊢
    rw [getLast?_concat]
    show Chain (fun c ↦ (((s.setQnext b none).setQnext last (some b)).bufs c).qnext) s.idequeue _
    rw [qnext_setQnext]
    exact hclear.concat hb hnone

theorem setQnext_bufs (s : State β) (b : ℕ) (q : Option ℕ) (c : ℕ) :
    ∃ r, (s.setQnext b q).bufs c = { s.bufs c with qnext := r } := by
  rcases eq_or_ne c b with rfl | hc
  · exact ⟨q, update_self _ _ _⟩
  · exact ⟨_, update_of_ne hc _ _⟩

/-- Putting a buffer in the queue changes the links only. -/
theorem setLink_bufs (s : State β) (b : ℕ) (pp : Option ℕ) (c : ℕ) :
    ∃ r, ((s.setQnext b none).setLink b pp).bufs c = { s.bufs c with qnext := r } := by
  obtain ⟨q, hq⟩ := setQnext_bufs s b none c
  cases pp with
  | none => exact ⟨q, hq⟩
  | some d =>
    obtain ⟨r, hr⟩ := setQnext_bufs (s.setQnext b none) d (some b) c
    exact ⟨r, by rw [setLink, hr, hq]⟩

/-- The command that a started device works on. -/
theorem idestart_eq (hstep : idestart s b status = .next s') :
    s' = { s with command := some (s.bufs b).command } := by
  unfold idestart at hstep
  split_ifs at hstep
  split at hstep <;> cases hstep
  rfl

/-! ### The steps -/

/-- The state in which a call waits or starts the device. -/
def State.enqueue (s : State β) (p b : ℕ) (l : List ℕ) : State β :=
  { (s.setQnext b none).setLink b l.getLast? with
    caller := update s.caller b (some p) }

/-- The state with the device at work on the first request. -/
def State.started (s : State β) : State β :=
  { s with command := s.idequeue.map fun b ↦ (s.bufs b).command }

theorem started_of_some (hqueue : s.idequeue = some b) :
    s.started = { s with command := some (s.bufs b).command } :=
  congrArg (fun q ↦ { s with command := q.map fun b ↦ (s.bufs b).command }) hqueue

theorem started_of_command (hcommand : s.command = s.idequeue.map fun b ↦ (s.bufs b).command) :
    s.started = s := by
  rw [started, ← hcommand]

/-- A buffer that does not come first leaves the device at its command. -/
theorem Inv.started_enqueue (h : Inv s l) (hne : (s.enqueue p b l).idequeue ≠ some b) :
    (s.enqueue p b l).started = s.enqueue p b l := by
  rcases eq_nil_or_concat l with rfl | ⟨rest, last, rfl⟩
  · exact absurd rfl hne
  · refine started_of_command ?_
    have hbufs := setLink_bufs s b (rest.concat last).getLast?
    rw [enqueue, concat_eq_append, getLast?_concat] at *
    show s.command = s.idequeue.map _
    rw [h.command]
    refine map_congr fun c _ ↦ ?_
    obtain ⟨r, hr⟩ := hbufs c
    rw [hr]
    rfl

theorem iderw_eq (h : Inv s l) (hb : b ∉ l) (hstep : iderw s p b status = .next s') :
    (s.bufs b).done = false ∧ s' = (s.enqueue p b l).started := by
  have hend : findEnd (s.setQnext b none) (nBuf + 1) none = some l.getLast? := by
    rw [findEnd_eq (chain_setQnext h.chain hb) (Nat.lt_succ_of_le h.length_le), or_none]
  unfold iderw at hstep
  split_ifs at hstep with hdone hdisk
  simp only [hend] at hstep
  refine ⟨Bool.eq_false_iff.mpr hdone, ?_⟩
  split_ifs at hstep with hfirst
  · exact (idestart_eq hstep).trans (started_of_some (s := s.enqueue p b l) hfirst).symm
  · exact (Outcome.next.inj hstep).symm.trans (h.started_enqueue hfirst).symm

/-- A call puts its buffer at the end of the queue. -/
theorem Inv.enqueue (h : Inv s l) (hfree : Free s p b) (hstep : iderw s p b status = .next s') :
    Inv s' (l ++ [b]) ∧ s'.disk = s.disk ∧ s'.caller = update s.caller b (some p) ∧
      ∀ c, ∃ r, s'.bufs c = { s.bufs c with qnext := r } := by
  obtain ⟨hlt, hothers⟩ := hfree
  have hidle : s.caller b = none := by
    by_contra hcall
    exact (hothers b hlt hcall).2.1 rfl
  have hb : b ∉ l := fun hmem ↦ ((h.mem_iff b).mp hmem).1 hidle
  obtain ⟨hdone, rfl⟩ := iderw_eq h hb hstep
  have hbufs : ∀ c, ∃ r, (s.enqueue p b l).started.bufs c = { s.bufs c with qnext := r } :=
    setLink_bufs s b l.getLast?
  have hcaller : ∀ c, c ≠ b → (s.enqueue p b l).started.caller c = s.caller c := fun c hcb ↦
    update_of_ne hcb ..
  have hdisk : (s.enqueue p b l).started.disk = s.disk := by
    show ((s.setQnext b none).setLink b l.getLast?).disk = _
    cases l.getLast? <;> rfl
  refine ⟨⟨chain_setLink h.chain hb, fun c hc ↦ ?_, fun c ↦ ?_, ?_, rfl⟩, hdisk, rfl, hbufs⟩
  · by_cases hcb : c = b
    · exact hcb ▸ hlt
    · rw [hcaller c hcb] at hc
      exact h.lt c hc
  · obtain ⟨r, hr⟩ := hbufs c
    rw [hr, mem_append, mem_singleton, h.mem_iff]
    rcases eq_or_ne c b with rfl | hcb
    · simp only [or_true, true_iff]
      exact ⟨ne_of_eq_of_ne (update_self ..) (some_ne_none _), hdone⟩
    · rw [hcaller c hcb]
      simp only [hcb, or_false]
      exact .rfl
  · have hsector : ∀ c, ((s.enqueue p b l).started.bufs c).sector = (s.bufs c).sector := by
      intro c
      obtain ⟨r, hr⟩ := hbufs c
      rw [hr]
      rfl
    have hnew : ∀ c, c ≠ b → (s.enqueue p b l).started.caller c ≠ none →
        (s.bufs c).sector ≠ (s.bufs b).sector := by
      intro c hcb hc
      rw [hcaller c hcb] at hc
      exact (hothers c (h.lt c hc) hc).2.2
    intro c d hc hd heq
    rw [hsector, hsector] at heq
    by_cases hcb : c = b
    · by_contra hcd
      subst hcb
      exact hnew d (.symm hcd) hd heq.symm
    · rcases eq_or_ne d b with rfl | hdb
      · exact absurd heq (hnew c hcb hc)
      · rw [hcaller c hcb] at hc
        rw [hcaller d hdb] at hd
        exact h.distinct c d hc hd heq

theorem startNext_eq (hcommand : s.command = none) (hstep : startNext s status = .next s') :
    s' = s.started := by
  unfold startNext at hstep
  obtain hqueue | ⟨b, hqueue⟩ := eq_none_or_eq_some s.idequeue
  · simp only [hqueue, Outcome.next.injEq] at hstep
    rw [started_of_command (by rw [hqueue, hcommand, map_none]), hstep]
  · simp only [hqueue] at hstep
    rw [idestart_eq hstep, started_of_some hqueue]

/-- The state after the first request is finished and the next one started. -/
def State.finished (s : State β) (b : ℕ) (data : β) (disk : ℕ × ℕ → β) : State β :=
  { finish s b data disk with
    command := (finish s b data disk).idequeue.map fun c ↦ ((finish s b data disk).bufs c).command }

/-- What an interrupt does to the first request: a write is on the disk if the device reports no
error, and a read has its data in that case; the flags do not show which it is. -/
theorem ideintr_eq (hcommand : s.command = s.idequeue.map fun b ↦ (s.bufs b).command)
    (hqueue : s.idequeue = some b) (hstep : ideintr s status left = .next s') :
    ∃ data disk, s' = s.finished b data disk ∧
      ((s.bufs b).dirty = true → data = (s.bufs b).data ∧ disk = update s.disk
        (s.bufs b).sector (if succeeds status then (s.bufs b).data else left)) ∧
      ((s.bufs b).dirty = false → disk = s.disk ∧
        data = if succeeds status then s.disk (s.bufs b).sector else (s.bufs b).data) := by
  rw [hqueue, map_some] at hcommand
  unfold ideintr at hstep
  simp only [hqueue, hcommand, map_some, getD_some] at hstep
  cases hdirty : (s.bufs b).dirty with
  | true =>
    simp only [hdirty, if_true] at hstep
    refine ⟨_, _, startNext_eq rfl hstep, fun _ ↦ ⟨rfl, ?_⟩, nofun⟩
    rw [Buf.command, if_pos hdirty]
    rfl
  | false =>
    have hread : (s.bufs b).command = .read (s.bufs b).sector := by
      rw [Buf.command, hdirty]
      rfl
    simp only [hdirty, hread, Bool.false_eq_true, if_false] at hstep
    cases hwait : idewait true status with
    | none => simp [hwait] at hstep
    | some r =>
      obtain ⟨ok, rest⟩ := r
      have hok : succeeds status = ok := by rw [succeeds, hwait, any_some]
      rw [hok]
      cases ok with
      | true | false =>
        simp only [hwait] at hstep
        exact ⟨_, _, startNext_eq rfl hstep, nofun, fun _ ↦ ⟨rfl, rfl⟩⟩

theorem finished_bufs (s : State β) (b : ℕ) (data : β) (disk : ℕ × ℕ → β) (c : ℕ) :
    ((s.finished b data disk).bufs c).qnext = (s.bufs c).qnext ∧
      ((s.finished b data disk).bufs c).sector = (s.bufs c).sector := by
  rcases eq_or_ne c b with rfl | hc
  · simp [finished, finish, Buf.sector]
  · simp [finished, finish, hc]

/-- The first request leaves the queue. -/
theorem Inv.finished {l : List ℕ} (h : Inv s (b :: l)) (data : β) (disk : ℕ × ℕ → β) :
    Inv (s.finished b data disk) l := by
  obtain ⟨hqueue, hrest⟩ := h.chain
  have hnot : b ∉ l := (nodup_cons.mp h.chain.nodup).1
  refine ⟨?_, h.lt, fun c ↦ ?_, fun c d hc hd heq ↦ ?_, rfl⟩
  · rw [funext fun c ↦ (finished_bufs s b data disk c).1]
    exact hrest
  · rcases eq_or_ne c b with rfl | hc
    · simp [hnot, State.finished, finish, Buf.done]
    · have hmem := h.mem_iff c
      rw [mem_cons, or_iff_right hc] at hmem
      rw [hmem]
      simp [State.finished, finish, hc]
  · rw [(finished_bufs s b data disk c).2, (finished_bufs s b data disk d).2] at heq
    exact h.distinct c d hc hd heq

theorem Inv.resume (h : Inv s l) (hdone : (s.bufs b).done = true) :
    Inv { s with caller := update s.caller b none } l := by
  have hold : ∀ c, update s.caller b none c ≠ none → s.caller c ≠ none := by
    intro c hc
    rcases eq_or_ne c b with rfl | hcb
    · simp at hc
    · rwa [update_of_ne hcb] at hc
  refine ⟨h.chain, fun c hc ↦ h.lt c (hold c hc), fun c ↦ ?_,
    fun c d hc hd ↦ h.distinct c d (hold c hc) (hold d hd), h.command⟩
  rw [h.mem_iff]
  rcases eq_or_ne c b with rfl | hcb
  · simp [hdone]
  · show _ ↔ update s.caller b none c ≠ none ∧ _
    rw [update_of_ne hcb]

theorem Inv.own (h : Inv s l) (hidle : s.caller b = none) (buf : Buf β) :
    Inv { s with bufs := update s.bufs b { buf with qnext := (s.bufs b).qnext } } l := by
  have hother : ∀ c, s.caller c ≠ none →
      update s.bufs b { buf with qnext := (s.bufs b).qnext } c = s.bufs c := by
    intro c hc
    refine update_of_ne ?_ _ _
    rintro rfl
    exact hc hidle
  refine ⟨?_, h.lt, fun c ↦ ?_, fun c d hc hd heq ↦ ?_, ?_⟩
  · refine h.chain.congr fun c hc ↦ ?_
    show (update s.bufs b _ c).qnext = _
    rw [hother c ((h.mem_iff c).mp hc).1]
  · rw [h.mem_iff]
    refine and_congr_right fun hc ↦ ?_
    show _ ↔ (update s.bufs b _ c).done = false
    rw [hother c hc]
  · refine h.distinct c d hc hd ?_
    have heq' : (update s.bufs b { buf with qnext := (s.bufs b).qnext } c).sector =
      (update s.bufs b { buf with qnext := (s.bufs b).qnext } d).sector := heq
    rwa [hother c hc, hother d hd] at heq'
  · show s.command = s.idequeue.map fun c ↦ (update s.bufs b _ c).command
    rw [h.command]
    cases hqueue : s.idequeue with
    | none => rfl
    | some c =>
      have hmem : c ∈ l := by
        have hchain := h.chain
        rw [hqueue] at hchain
        obtain ⟨rest, rfl, -⟩ := hchain.eq_cons
        exact mem_cons_self
      rw [map_some, map_some, hother c ((h.mem_iff c).mp hmem).1]

/-- One step of the queue: a call adds its buffer at the end, and an interrupt takes the first. -/
theorem Inv.step {e : Event β} (h : Inv s l) (hstep : step s e = .next s') :
    ∃ l', Inv s' l' ∧ l ++ (queued s e).toList = (served s e).toList ++ l' := by
  cases e with
  | call p b =>
    obtain ⟨hfree, hstep⟩ := guard_eq_next.mp hstep
    exact ⟨l ++ [b], (h.enqueue hfree hstep).1, rfl⟩
  | intr =>
    cases l with
    | nil =>
      have hnone : s.idequeue = none := h.chain
      simp only [Ide.step, ideintr, hnone] at hstep
      cases hstep
      exact ⟨[], h, by rw [served, hnone]; rfl⟩
    | cons b l =>
      obtain ⟨data, disk, rfl, -⟩ := ideintr_eq h.command h.chain.1 hstep
      refine ⟨l, h.finished data disk, ?_⟩
      rw [served, h.chain.1]
      exact append_nil _
  | resume b =>
    obtain ⟨hready, ⟨⟩⟩ := guard_eq_next.mp hstep
    exact ⟨l, h.resume hready.2, append_nil _⟩
  | own b buf =>
    obtain ⟨hidle, ⟨⟩⟩ := guard_eq_next.mp hstep
    exact ⟨l, h.own hidle buf, append_nil _⟩

/-! ### The data -/

/-- The device reports no error for the request that it finishes, or the request would have changed
nothing. -/
def Agrees (s : State β) : Event β → Prop
  | .intr status left => ∀ b, s.idequeue = some b → succeeds status = true ∨
      ((s.bufs b).dirty = true ∧ left = (s.bufs b).data) ∨
      ((s.bufs b).dirty = false ∧ s.disk (s.bufs b).sector = (s.bufs b).data)
  | _ => True

/-- The finished calls have the data of their blocks. -/
def Synced (s : State β) : Prop :=
  ∀ b, s.caller b ≠ none → (s.bufs b).done = true → s.disk (s.bufs b).sector = (s.bufs b).data

/-- The buffer of the request that an interrupt finishes has the data of its block exactly when the
device reports no error, or when the request would have changed nothing. -/
theorem ideintr_agrees_iff (h : Inv s (b :: l)) (hstep : ideintr s status left = .next s') :
    s'.disk (s'.bufs b).sector = (s'.bufs b).data ↔ Agrees s (.intr status left) := by
  have hqueue := h.chain.1
  obtain ⟨data, disk, rfl, hwrite, hread⟩ := ideintr_eq h.command hqueue hstep
  have hdata : ((s.finished b data disk).bufs b).data = data := by
    simp [finished, finish]
  have hagrees : Agrees s (.intr status left) ↔ succeeds status = true ∨
      ((s.bufs b).dirty = true ∧ left = (s.bufs b).data) ∨
      ((s.bufs b).dirty = false ∧ s.disk (s.bufs b).sector = (s.bufs b).data) := by
    constructor
    · exact fun hall ↦ hall b hqueue
    · intro hb c hc
      obtain rfl := some.inj (hqueue.symm.trans hc)
      exact hb
  rw [(finished_bufs s b data disk b).2, hdata, hagrees]
  show disk (s.bufs b).sector = data ↔ _
  cases hdirty : (s.bufs b).dirty with
  | true =>
    obtain ⟨rfl, rfl⟩ := hwrite hdirty
    rw [update_self]
    cases succeeds status <;> simp
  | false =>
    obtain ⟨rfl, rfl⟩ := hread hdirty
    cases succeeds status <;> simp

theorem Synced.step {e : Event β} (h : Inv s l) (hsynced : Synced s) (hagrees : Agrees s e)
    (hstep : step s e = .next s') : Synced s' := by
  cases e with
  | call p b =>
    obtain ⟨hfree, hstep⟩ := guard_eq_next.mp hstep
    obtain ⟨hinv, hdisk, hcaller, hbufs⟩ := h.enqueue hfree hstep
    intro c hc hdone
    obtain ⟨r, hr⟩ := hbufs c
    have hcb : c ≠ b := by
      rintro rfl
      have hmem := (hinv.mem_iff c).mp (mem_append_right _ (mem_singleton_self _))
      rw [hmem.2] at hdone
      cases hdone
    rw [hcaller, update_of_ne hcb] at hc
    rw [hr] at hdone ⊢
    rw [hdisk]
    exact hsynced c hc hdone
  | intr =>
    cases l with
    | nil =>
      have hnone : s.idequeue = none := h.chain
      simp only [Ide.step, ideintr, hnone] at hstep
      cases hstep
      exact hsynced
    | cons b l =>
      have hsame := (ideintr_agrees_iff h hstep).mpr hagrees
      obtain ⟨data, disk, rfl, hwrite, hread⟩ := ideintr_eq h.command h.chain.1 hstep
      intro c hc hdone
      by_cases hcb : c = b
      · exact hcb ▸ hsame
      · have hbuf : (s.finished b data disk).bufs c = s.bufs c := update_of_ne hcb _ _
        have hcall : s.caller b ≠ none := ((h.mem_iff b).mp mem_cons_self).1
        have hsector : (s.bufs c).sector ≠ (s.bufs b).sector :=
          fun heq ↦ hcb (h.distinct c b hc hcall heq)
        have hdisk : disk (s.bufs c).sector = s.disk (s.bufs c).sector := by
          cases hdirty : (s.bufs b).dirty with
          | true => rw [(hwrite hdirty).2, update_of_ne hsector]
          | false => rw [(hread hdirty).1]
        rw [hbuf] at hdone ⊢
        exact hdisk.trans (hsynced c hc hdone)
  | resume b =>
    obtain ⟨hready, ⟨⟩⟩ := guard_eq_next.mp hstep
    intro c hc hdone
    refine hsynced c ?_ hdone
    intro hnone
    apply hc
    by_cases hcb : c = b
    · exact hcb ▸ update_self _ _ _
    · exact (update_of_ne hcb _ _).trans hnone
  | own b buf =>
    obtain ⟨hidle, ⟨⟩⟩ := guard_eq_next.mp hstep
    intro c hc hdone
    have hcb : c ≠ b := by
      rintro rfl
      exact hc hidle
    have hbuf : update s.bufs b { buf with qnext := (s.bufs b).qnext } c = s.bufs c :=
      update_of_ne hcb _ _
    simp only [hbuf] at hdone ⊢
    exact hsynced c hc hdone

/-- In every run the requests are served in the order in which they were queued, each once, and a
call returns with `B_VALID` set and `B_DIRTY` clear. If all interrupts agree, it returns with the
data of the block; in any case, the request that an interrupt finishes has them exactly if it
agrees. -/
theorem ideRequests {s₀ : State β} (hidle : Idle s₀) {es : List (Event β)}
    (hrun : run step s₀ es = some s) :
    (∃ l, Inv s l ∧ trace step queued s₀ es = trace step served s₀ es ++ l) ∧
    (∀ b t, step s (.resume b) = .next t →
      (s.bufs b).valid = true ∧ (s.bufs b).dirty = false ∧
        (Meets step Agrees s₀ es → (s.bufs b).data = s.disk (s.bufs b).sector)) ∧
    ∀ b status left t, s.idequeue = some b → step s (.intr status left) = .next t →
      (t.disk (t.bufs b).sector = (t.bufs b).data ↔ Agrees s (.intr status left)) := by
  have hqueue : ∃ l, Inv s l ∧ trace step queued s₀ es = trace step served s₀ es ++ l := by
    refine run_induction (I := fun es s ↦ ∃ l, Inv s l ∧
      trace step queued s₀ es = trace step served s₀ es ++ l) ⟨[], hidle.inv, rfl⟩ ?_ hrun
    rintro es u e t hu ⟨l, hinv, htrace⟩ hstep
    obtain ⟨l', hinv', horder⟩ := hinv.step hstep
    refine ⟨l', hinv', ?_⟩
    rw [trace_concat queued hu hstep, trace_concat served hu hstep, htrace, append_assoc,
      horder, append_assoc]
  obtain ⟨l, hinv, htrace⟩ := hqueue
  refine ⟨⟨l, hinv, htrace⟩, fun b t hresume ↦ ?_, fun b status left t hhead hintr ↦ ?_⟩
  · obtain ⟨hready, hresume⟩ := guard_eq_next.mp hresume
    obtain ⟨hcall, hdone⟩ := hready
    have hflags := hdone
    rw [Buf.done, Bool.and_eq_true, Bool.not_eq_true'] at hflags
    refine ⟨hflags.1, hflags.2, fun hmeets ↦ ?_⟩
    have hsynced : (∃ l, Inv s l) ∧ Synced s := by
      refine run_induction_of_meets (I := fun _ s ↦ (∃ l, Inv s l) ∧ Synced s)
        ⟨⟨[], hidle.inv⟩, fun b hb ↦ absurd (hidle.caller b) hb⟩ ?_ hmeets hrun
      rintro es u e t hu ⟨⟨l, hl⟩, hsync⟩ hagrees hstep
      obtain ⟨l', hl', -⟩ := hl.step hstep
      exact ⟨⟨l', hl'⟩, hsync.step hl hagrees hstep⟩
    exact (hsynced.2 b hcall hdone).symm
  · have hchain := hinv.chain
    rw [hhead] at hchain
    obtain ⟨rest, rfl, -⟩ := hchain.eq_cons
    exact ideintr_agrees_iff hinv hintr

/-! ### A disk that fails -/

/-- Two blocks of one number each; buffers 0 and 1 are for blocks 3 and 4 and hold 0. -/
def twoBlocks : State ℕ where
  bufs := fun b ↦ ⟨1, b + 3, false, false, 0, none⟩
  idequeue := none
  caller := fun _ ↦ none
  command := none
  disk := fun sector ↦ sector.2 + 10
  havedisk1 := true

theorem twoBlocks_idle : Idle twoBlocks := ⟨rfl, fun _ ↦ rfl, rfl⟩

/-- Two processes read, and the device reports no error. -/
def twoReads : List (Event ℕ) :=
  [.call 7 0 [0xc0, 0x40], .call 8 1 [], .intr [0x40, 0x40] 0, .intr [0x40] 0, .resume 0]

theorem ideRequests_twoReads :
    ∃ s, run step twoBlocks twoReads = some s ∧ trace step served twoBlocks twoReads = [0, 1] ∧
      (s.bufs 1).data = 14 ∧ (s.bufs 1).data = s.disk (s.bufs 1).sector := by
  have hrun : run step twoBlocks twoReads = some _ := rfl
  have hmeets : Meets step Agrees twoBlocks twoReads := by
    refine meets_cons.mpr ⟨trivial, fun s₁ h₁ ↦ meets_cons.mpr ⟨trivial, fun s₂ h₂ ↦ ?_⟩⟩
    refine meets_cons.mpr ⟨fun _ _ ↦ .inl rfl, fun s₃ h₃ ↦ ?_⟩
    refine meets_cons.mpr ⟨fun _ _ ↦ .inl rfl, fun s₄ h₄ ↦ ?_⟩
    exact meets_cons.mpr ⟨trivial, fun s₅ h₅ ↦ meets_nil _ _⟩
  obtain ⟨-, hreturn, -⟩ := ideRequests twoBlocks_idle hrun
  exact ⟨_, hrun, rfl, rfl, (hreturn 1 _ rfl).2.2 hmeets⟩

/-- A read that fails: `iderw` returns, and the buffer holds what it held before. -/
theorem readsNothing :
    ∃ s t, run step twoBlocks [.call 7 0 [0x40], .intr [0x41] 0] = some s ∧
      step s (.resume 0) = .next t ∧ (s.bufs 0).valid = true ∧ (s.bufs 0).dirty = false ∧
      (s.bufs 0).data = 0 ∧ s.disk (s.bufs 0).sector = 13 :=
  ⟨_, _, rfl, rfl, rfl, rfl, rfl, rfl⟩

end EasyKernels.Xv6.Ide
