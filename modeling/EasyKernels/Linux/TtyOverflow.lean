import EasyKernels.Linux.Param
import EasyKernels.Linux.TtyLines

/-!
# The producers of the queues of a tty

Only the interrupt handlers, `tty_write` and the head of the loop of `copy_to_cooked` test if a
queue is full before they put a byte in it, and the last two of them may be interrupted, or sleep,
between the test and the `PUTCH`. The echo, `respond` and `TCXONC` do not test at all, and a
`con_write` that is interrupted by another takes more bytes than there are. `echoOverflow` is a run
in which the output is stopped, and the echo of what is typed fills the write queue until it appears
empty.

`Paced` is a condition under which this does not happen. Bytes come in while no code of the tty is
interrupted, and either the console takes all that is echoed, or the write queue has room for all
that the bytes of the other queues may be echoed and erased by, 4 for each byte that is to be cooked
and 2 for each that is. The invariant `Held` carries these bounds from the interrupt to the end of
`copy_to_cooked`, over the calls of `con_write` in between. `ttyOverflow` says that in a run that
meets the condition no `PUTCH` meets a full queue, and no byte of the read queue or of the write
queue is lost.
-/

set_option autoImplicit false

namespace EasyKernels.Linux.Tty

open Nat List Lib.Runs

variable {κ : Type} {con : κ → UInt8 → κ × Reaction} {s t : State κ}

/-! ### The condition -/

namespace State

variable (s : State κ)

/-- Whatever is echoed, `con_write` takes all of the write queue. -/
def drains : Prop := s.serial = false ∧ s.stopped = false ∧ s.termios.ixon = false

instance : Decidable s.drains := inferInstanceAs (Decidable (_ ∧ _ ∧ _))

/-- The bytes of the write queue, and those by which the bytes of the read queue, and some more,
may be echoed and erased, and the bytes of the secondary queue erased. -/
def needed (more : ℕ) : ℕ :=
  s.writeQ.chars + 4 * (s.readQ.chars + more) + 2 * s.secondary.chars

/-- A call of `tty_write` is at the given place. -/
def writerAt (i : ℕ) (pc : WriterPc) : Bool := (s.writer i).any fun w ↦ w.pc = pc

/-- The call of `con_write` that answers in the next step: what it has to go after the request, and
the frames below it. -/
def answering (con : κ → UInt8 → κ × Reaction) : Option (ℕ × List Frame) :=
  match s.stack with
  | .write (nr + 1) :: rest =>
    if s.stopped = false ∧ (s.shown con).2 = .respond then some (nr, rest) else none
  | _ => none

end State

/-- An interrupt comes when no code of the tty runs, and there is room for the echo or the console
takes it. `con_write` answers only a request at the end of what `tty_write` has put, and when there
is room for the answer and for its echo. Only one of the tasks is in `get_fs_byte` of `tty_write`,
and `TCXONC` leaves room for its byte. -/
def Paced (con : κ → UInt8 → κ × Reaction) (s : State κ) : Event → Prop
  | .input cs =>
    s.stack = [] ∧ (s.drains ∧ s.writeQ.chars ≤ 1020 ∨ s.needed cs.length ≤ 1022)
  | .advance =>
    ∀ call ∈ s.answering con, call = (0, []) ∧ response.length ≤ s.readQ.left ∧
      (s.termios.ixon = false ∨ s.needed response.length ≤ 1022)
  | .write i _ => i < nrTasks
  | .writer i => s.writerAt i .inner → ∀ j < nrTasks, s.writerAt j .fetched = false
  | .tcxonc .tcioff | .tcxonc .tcion => s.writeQ.chars ≤ 1021
  | _ => True

instance decidablePaced (con : κ → UInt8 → κ × Reaction) (s : State κ) :
    (e : Event) → Decidable (Paced con s e)
  | .input _ => inferInstanceAs (Decidable (_ ∧ _))
  | .advance => inferInstanceAs (Decidable (∀ _ ∈ _, _))
  | .write _ _ => inferInstanceAs (Decidable (_ < _))
  | .writer _ => inferInstanceAs (Decidable (_ → _))
  | .tcxonc .tcioff | .tcxonc .tcion => inferInstanceAs (Decidable (_ ≤ _))
  | .tcxonc .tcooff | .tcxonc .tcoon | .transmit | .read _ _ | .reader _ | .stopReading _
  | .stopWriting _ | .setTermios _ | .crFlag _ => .isTrue trivial

/-! ### Queues that lose nothing -/

variable {q : Queue} {cs : List UInt8} {i : ℕ}

theorem Queue.chars_pos : ¬ q.empty ↔ 0 < q.chars := by
  rw [empty_iff, ← length_items, length_pos_iff]

theorem Queue.not_full : ¬ q.full ↔ q.chars < 1023 := by
  rw [full, left_eq]
  omega

theorem Queue.chars_getch (hsome : 0 < q.chars) : q.getch.2.chars + 1 = q.chars := by
  show (q.head - (q.tail + 1)).toNat + 1 = (q.head - q.tail).toNat
  have hpos : 0 < (q.head - q.tail).toNat := hsome
  bv_omega

theorem Queue.chars_dec (hsome : 0 < q.chars) : q.dec.chars + 1 = q.chars := by
  show (q.head - 1 - q.tail).toNat + 1 = (q.head - q.tail).toNat
  have hpos : 0 < (q.head - q.tail).toNat := hsome
  bv_omega

/-- Bytes that fit are put behind the others. -/
theorem puts_spec (hfits : q.chars + cs.length ≤ 1023) :
    (puts q cs).1.items = q.items ++ cs ∧ (puts q cs).2 = 0 := by
  induction cs generalizing q with
  | nil => exact ⟨(append_nil _).symm, rfl⟩
  | cons c cs ih =>
    rw [length_cons] at hfits
    have hroom : ¬ q.full := Queue.not_full.mpr (by omega)
    obtain ⟨hitems, hnone⟩ := ih (q := q.putch c) (by rw [Queue.chars_putch hroom]; omega)
    constructor
    · show (puts (q.putch c) cs).1.items = _
      rw [hitems, Queue.items_putch hroom, append_assoc, singleton_append]
    · show (puts (q.putch c) cs).2 + (if q.full then 1 else 0) = 0
      rw [hnone, if_neg hroom]

theorem chars_puts (hfits : q.chars + cs.length ≤ 1023) :
    (puts q cs).1.chars = q.chars + cs.length := by
  rw [← Queue.length_items, (puts_spec hfits).1, length_append, Queue.length_items]

/-- All of the bytes of a queue are still there, in front, except that the first may be taken. -/
def Queue.Kept (q q' : Queue) : Prop := q.items <+: q'.items ∨ q.items.tail <+: q'.items

namespace Queue.Kept

protected theorem refl (q : Queue) : Kept q q := .inl (prefix_refl _)

theorem puts (hfits : q.chars + cs.length ≤ 1023) : Kept q (puts q cs).1 := by
  left
  rw [(puts_spec hfits).1]
  exact prefix_append _ _

theorem putQueue (q : Queue) (cs : List UInt8) : Kept q (q.putQueue cs) := by
  rw [Queue.putQueue]
  split_ifs with hfits
  · rw [left_eq] at hfits
    have hlt := q.chars_lt
    exact .puts (by omega)
  · exact .refl q

theorem getch (q : Queue) : Kept q q.getch.2 := by
  right
  cases hitems : q.items with
  | nil => exact nil_prefix
  | cons =>
    rw [(items_getch hitems).2]
    exact prefix_refl _

/-- Such a queue does not go from full to empty. -/
theorem not_empty {q' : Queue} (h : Kept q q') (hfull : q.full) : ¬ q'.empty := by
  rw [full_iff] at hfull
  rw [empty_iff]
  intro hempty
  have hlength : q.items.length - 1 ≤ q'.items.length := by
    rcases h with h | h
    · exact Nat.le_trans (Nat.sub_le _ _) h.length_le
    · exact length_tail ▸ h.length_le
  rw [hempty, length_nil] at hlength
  omega

end Queue.Kept

/-! ### The invariant -/

/-- The frames below the loop of `copy_to_cooked`, which an interrupt or the end of `con_write` has
called. -/
def Bottom (frames : List Frame) : Prop := frames = [] ∨ frames = [.write 0]

/-- `copy_to_cooked` is between two bytes. -/
def Between : List Frame → Prop
  | .loop :: below => Bottom below
  | .kill :: .loop :: below => Bottom below
  | _ => False

namespace State

variable (s : State κ)

/-- The console takes the echo and there are at most `most` bytes of it, or there is room for all
that is needed, and `more` bytes. -/
def Room (most : ℕ) (more : ℤ) : Prop :=
  s.drains ∧ s.writeQ.chars ≤ most ∨ s.needed 0 + more ≤ 1022

/-- `copy_to_cooked` is between two bytes, or is about to take one back, which is there, or to put
one, for which there is room. -/
def Cooks (most : ℕ) : List Frame → Prop
  | .dec :: below => Between below ∧ 0 < s.secondary.chars ∧ s.Room most (-2)
  | .put _ :: below => Between below ∧ s.secondary.chars < 1023 ∧ s.Room most 2
  | frames => Between frames ∧ s.Room most 0

/-- The stack: nothing, a `con_write` that a task has called, `copy_to_cooked`, or a `con_write`
that it has called. A `con_write` with bytes to go takes all of the write queue. -/
def Calls : List Frame → Prop
  | [] => True
  | .write n :: below =>
    below = [] ∧ n = 0 ∨ (n = s.writeQ.chars ∧ s.serial = false) ∧ (below = [] ∨ s.Cooks 1022 below)
  | frames => s.Cooks 1020 frames

end State

open State

/-- The frames are as they should be, and if a call of `tty_write` has a byte to put there is room
for it, and it is the only one. -/
structure Held (s : State κ) : Prop where
  calls : s.Calls s.stack
  tasks : ∀ i, s.writer i ≠ none → i < nrTasks
  fetched : ∀ i j, s.writerAt i .fetched → s.writerAt j .fetched →
    i = j ∧ s.writeQ.chars ≤ 1022

/-- A step meets no full queue, loses no byte of the read queue or of the write queue, and keeps
the invariant. -/
structure Safe (s t : State κ) : Prop where
  overflows : t.overflows = s.overflows
  readQ : s.readQ.Kept t.readQ
  writeQ : s.writeQ.Kept t.writeQ
  held : Held t

variable {below frames : List Frame} {most : ℕ}

theorem State.Cooks.mono {most' : ℕ} (h : s.Cooks most frames)
    (hsecondary : t.secondary.chars = s.secondary.chars)
    (hroom : ∀ more, s.Room most more → t.Room most' more) : t.Cooks most' frames := by
  unfold State.Cooks at h ⊢
  split at h
  · exact ⟨h.1, hsecondary ▸ h.2.1, hroom _ h.2.2⟩
  · exact ⟨h.1, hsecondary ▸ h.2.1, hroom _ h.2.2⟩
  · exact ⟨h.1, hroom _ h.2⟩

theorem Between.cooks (h : Between frames) (hroom : s.Room most 0) : s.Cooks most frames := by
  unfold State.Cooks
  split
  · exact h.elim
  · exact h.elim
  · exact ⟨h, hroom⟩

theorem State.Cooks.calls (h : s.Cooks 1020 frames) : s.Calls frames := by
  unfold State.Calls
  split
  · trivial
  · exact h.1.elim
  · exact h

theorem Held.of_stack (h : Held s) (hstack : s.stack = frames) : s.Calls frames := hstack ▸ h.calls

/-- A step that leaves the calls of `tty_write` alone. -/
theorem Held.keeps (h : Held s) (hwriter : t.writer = s.writer)
    (hchars : s.writeQ.chars ≤ 1022 → t.writeQ.chars ≤ 1022) (hcalls : t.Calls t.stack) :
    Held t := by
  refine ⟨hcalls, hwriter ▸ h.tasks, fun i j hi hj ↦ ?_⟩
  rw [writerAt, hwriter] at hi hj
  exact (h.fetched i j hi hj).imp_right hchars

/-! ### `copy_to_cooked` and `con_write` -/

theorem State.Room.less {more more' : ℤ} (h : s.Room most more) (hless : more' ≤ more) :
    s.Room most more' :=
  h.imp_right (Int.le_trans (Int.add_le_add_left hless _))

/-- There is room for the echo of a byte. -/
theorem State.Room.chars_le {more : ℤ} {n : ℕ} (h : s.Room 1020 more) (hn : n ≤ 2)
    (hmore : 2 ≤ 2 * s.secondary.chars + more) : s.writeQ.chars + n ≤ 1022 := by
  rcases h with ⟨-, hmost⟩ | hneeded
  · exact Nat.add_le_add hmost hn
  · simp only [needed] at hneeded
    omega

theorem State.Room.putWrite {more more' : ℤ} (h : s.Room 1020 more)
    (hless : more' + cs.length ≤ more) (hchars : s.writeQ.chars + cs.length ≤ 1022) :
    (s.putWrite cs).Room (1020 + cs.length) more' := by
  have hputs := chars_puts (Nat.le_succ_of_le hchars)
  refine h.imp (fun hdrains ↦ ⟨hdrains.1, ?_⟩) fun hneeded ↦ ?_
  · exact Nat.le_trans (Nat.le_of_eq hputs) (Nat.add_le_add_right hdrains.2 _)
  · simp only [needed, State.putWrite] at hneeded ⊢
    omega

/-- `copy_to_cooked` echoes and calls the driver, in a state that it has reached from `r`. -/
theorem Safe.proceed {r : State κ} (h : Held r) {echo : List UInt8} {write : Bool}
    (hoverflows : s.overflows = r.overflows) (hread : r.readQ.Kept s.readQ)
    (hwrite : s.writeQ = r.writeQ) (hwriter : s.writer = r.writer)
    (hchars : s.writeQ.chars + echo.length ≤ 1022) (hlength : echo.length ≤ 2)
    (hecho : write = false → echo = [])
    (hcooks : (s.putWrite echo).Cooks (1020 + echo.length) frames) :
    Safe r (s.proceed echo write frames) := by
  have hfits := Nat.le_succ_of_le hchars
  have hnone : s.overflows + (puts s.writeQ echo).2 = r.overflows := by
    rw [(puts_spec hfits).2, Nat.add_zero, hoverflows]
  have hkept : r.writeQ.Kept (puts s.writeQ echo).1 := hwrite ▸ .puts hfits
  have hlow : r.writeQ.chars ≤ 1022 → (puts s.writeQ echo).1.chars ≤ 1022 :=
    fun _ ↦ chars_puts hfits ▸ hchars
  rw [State.proceed]
  split_ifs with hw
  · refine ⟨hnone, hread, hkept, h.keeps hwriter hlow ?_⟩
    rw [callWrite]
    split_ifs with hserial
    · refine (hcooks.mono rfl fun more hroom ↦ ?_).calls
      exact .inr (hroom.resolve_left fun hdrains ↦ by simp [hdrains.1.1] at hserial)
    · refine .inr ⟨⟨rfl, by simpa using hserial⟩, .inr (hcooks.mono rfl fun more hroom ↦ ?_)⟩
      exact hroom.imp_left fun hdrains ↦ ⟨hdrains.1, Nat.le_trans hdrains.2 (by omega)⟩
  · obtain rfl := hecho (by simpa using hw)
    exact ⟨hnone, hread, hkept, h.keeps hwriter hlow (hcooks.mono rfl fun _ ↦ id).calls⟩

variable (u : Termios)

theorem erasure_spec (c : UInt8) :
    (u.erasure c).length ≤ 2 ∧ (u.echo = false → u.erasure c = []) := by
  unfold Termios.erasure
  split_ifs <;> simp_all

theorem echoed_spec (c : UInt8) : (u.echoed c).length ≤ 2 ∧ (u.echo = false → u.echoed c = []) := by
  unfold Termios.echoed
  split_ifs <;> simp_all

/-- What a pass echoes, and what it has to do then. -/
theorem pass_spec (q : Queue) (c : UInt8) :
    (u.pass q c).echo.length ≤ 2 ∧ ((u.pass q c).write = false → (u.pass q c).echo = []) ∧
      (u.ixon = false → (u.pass q c).stopped = none) ∧
      ((u.pass q c).frames = [] ∨ (u.pass q c).frames = [.kill] ∨
        (u.pass q c).frames = [.dec] ∧ 0 < q.chars ∨ (u.pass q c).frames = [.put c]) := by
  unfold Termios.pass
  split_ifs with hkill herase hnone hstop hstart hsig
  · simp
  · simp
  · exact ⟨(erasure_spec u _).1, (erasure_spec u _).2, fun _ ↦ rfl,
      .inr (.inr (.inl ⟨rfl, Queue.chars_pos.mp (not_or.mp hnone).1⟩))⟩
  · simp_all
  · simp_all
  · simp
  · exact ⟨(echoed_spec u c).1, (echoed_spec u c).2, fun _ ↦ rfl, .inr (.inr (.inr rfl))⟩

theorem Safe.cook (h : Held s) (hstack : s.stack = .loop :: below) : Safe s (s.cook below) := by
  obtain ⟨hbelow, hroom⟩ : Bottom below ∧ s.Room 1020 0 := h.of_stack hstack
  unfold State.cook
  split_ifs with hstop
  · refine ⟨rfl, .refl _, .refl _, h.keeps rfl id ?_⟩
    rcases hbelow with rfl | rfl
    · trivial
    · exact .inl ⟨rfl, rfl⟩
  · obtain ⟨hsome, hfull⟩ := not_or.mp hstop
    have hget := Queue.chars_getch (Queue.chars_pos.mp hsome)
    -- one byte less in the read queue: 4 bytes less are needed
    have hroom' : ({ s with readQ := s.readQ.getch.2 } : State κ).Room 1020 4 :=
      hroom.imp_right fun hneeded ↦ by
        simp only [needed] at hneeded ⊢
        omega
    cases s.termios.translate s.readQ.getch.1 with
    | none =>
      refine ⟨rfl, .getch _, .refl _, h.keeps rfl id ?_⟩
      rw [hstack]
      exact ⟨hbelow, hroom'.less (by decide)⟩
    | some c =>
      obtain ⟨hlength, hecho, hstopped, hframes⟩ := pass_spec s.termios s.secondary c
      have hchars := hroom'.chars_le hlength (by omega)
      refine .proceed h rfl (.getch _) rfl rfl hchars hlength hecho ?_
      generalize s.termios.pass s.secondary c = p at *
      have hroom : ∀ more, more ≤ 2 → State.Room (State.putWrite { s with
          readQ := s.readQ.getch.2
          stopped := p.stopped.getD s.stopped
          secondary := { s.secondary with
            data := if p.counts then s.secondary.data + 1 else s.secondary.data } } p.echo)
          (1020 + p.echo.length) more := by
        intro more hmore
        refine Room.putWrite (hroom'.imp_left fun hdrains ↦ ?_) (by omega) hchars
        refine ⟨⟨hdrains.1.1, ?_, hdrains.1.2.2⟩, hdrains.2⟩
        show p.stopped.getD s.stopped = false
        rw [hstopped hdrains.1.2.2]
        exact hdrains.1.2.1
      rcases hframes with hframes | hframes | ⟨hframes, hpos⟩ | hframes
      all_goals rw [hframes]
      · exact ⟨hbelow, hroom 0 (by decide)⟩
      · exact ⟨hbelow, hroom 0 (by decide)⟩
      · exact ⟨hbelow, hpos, hroom (-2) (by decide)⟩
      · exact ⟨hbelow, Queue.not_full.mp hfull, hroom 2 (by decide)⟩

theorem Safe.killLine (h : Held s) (hstack : s.stack = .kill :: below) :
    Safe s (s.killLine below) := by
  obtain ⟨hkill, hroom⟩ : Between (.kill :: below) ∧ s.Room 1020 0 := h.of_stack hstack
  have hbelow : Between below := by
    unfold Between at hkill
    split at hkill <;> simp_all [Between]
  unfold State.killLine
  split_ifs with hstop
  · exact ⟨rfl, .refl _, .refl _, h.keeps rfl id (hbelow.cooks hroom).calls⟩
  · have hpos := Queue.chars_pos.mp (not_or.mp hstop).1
    obtain ⟨hlength, hecho⟩ := erasure_spec s.termios s.secondary.last
    have hchars := hroom.chars_le hlength (by omega)
    exact .proceed h rfl (.refl _) rfl rfl hchars hlength hecho
      ⟨hkill, hpos, hroom.putWrite (by omega) hchars⟩

theorem Safe.dec (h : Held s) (hstack : s.stack = .dec :: below) :
    Safe s { s with secondary := s.secondary.dec, stack := below } := by
  obtain ⟨hbelow, hpos, hroom⟩ : Between below ∧ 0 < s.secondary.chars ∧ s.Room 1020 (-2) :=
    h.of_stack hstack
  have hchars := Queue.chars_dec hpos
  refine ⟨rfl, .refl _, .refl _, h.keeps rfl id (hbelow.cooks ?_).calls⟩
  refine hroom.imp_right fun hneeded ↦ ?_
  simp only [needed] at hneeded ⊢
  omega

theorem Safe.put (h : Held s) {c : UInt8} (hstack : s.stack = .put c :: below) :
    Safe s { s.putSecondary [c] with stack := below } := by
  obtain ⟨hbelow, hspace, hroom⟩ : Between below ∧ s.secondary.chars < 1023 ∧ s.Room 1020 2 :=
    h.of_stack hstack
  have hfits : s.secondary.chars + [c].length ≤ 1023 := hspace
  have hchars := chars_puts hfits
  refine ⟨?_, .refl _, .refl _, h.keeps rfl id (hbelow.cooks ?_).calls⟩
  · exact congrArg (s.overflows + ·) (puts_spec hfits).2
  · refine hroom.imp_right fun hneeded ↦ ?_
    simp only [needed, putSecondary, length_singleton] at hneeded hchars ⊢
    omega

variable {nr : ℕ} (h : Held s) (hstack : s.stack = .write (nr + 1) :: below)

include h hstack

/-- `con_write` with bytes to go has as many as there are in the write queue. -/
theorem Held.write : s.writeQ.getch.2.chars = nr ∧ s.writeQ.chars = nr + 1 ∧ s.serial = false ∧
    (below = [] ∨ s.Cooks 1022 below) := by
  obtain ⟨⟨hchars, hserial⟩, hbelow⟩ :=
    Or.resolve_left (h.of_stack hstack) fun hzero ↦ succ_ne_zero nr hzero.2
  have hget := Queue.chars_getch (q := s.writeQ) (by omega)
  exact ⟨by omega, hchars.symm, hserial, hbelow⟩

/-- `con_write` takes a byte. -/
theorem Safe.taken {u : Termios} {k : κ} (hu : s.termios.ixon = false → u.ixon = false) :
    Safe s { s with
      termios := u, writeQ := s.writeQ.getch.2, console := k, stack := .write nr :: below } := by
  obtain ⟨hget, hchars, hserial, hbelow⟩ := h.write hstack
  have hlow : ∀ {most}, s.writeQ.chars ≤ most → s.writeQ.getch.2.chars ≤ most := fun _ ↦ by omega
  refine ⟨rfl, .refl _, .getch _, h.keeps rfl hlow (.inr ⟨⟨hget.symm, hserial⟩, ?_⟩)⟩
  refine hbelow.imp_right fun hcooks ↦ hcooks.mono rfl fun more hroom ↦ ?_
  refine hroom.imp (fun hd ↦ ⟨⟨hd.1.1, hd.1.2.1, hu hd.1.2.2⟩, hlow hd.2⟩) fun hneeded ↦ ?_
  simp only [needed] at hneeded ⊢
  omega

/-- `con_write` answers a request at the end of the write queue. -/
theorem Safe.respond (hpaced : Paced con s .advance) (hstopped : s.stopped = false)
    (hreaction : (s.shown con).2 = .respond) (hcs : response = cs) {k : κ} :
    Safe s { State.putRead { s with writeQ := s.writeQ.getch.2, console := k } cs with
      stack := .loop :: .write nr :: below } := by
  obtain ⟨hcall, hleft, hecho⟩ := hpaced (nr, below)
    (by simp [answering, hstack, hstopped, hreaction])
  obtain ⟨rfl, rfl⟩ := Prod.mk.inj hcall
  obtain ⟨hget, -, hserial, -⟩ := h.write hstack
  rw [hcs] at hleft hecho
  have hfits : s.readQ.chars + cs.length ≤ 1023 := by
    have hlt := s.readQ.chars_lt
    rw [Queue.left_eq] at hleft
    omega
  refine ⟨?_, .puts hfits, .getch _, h.keeps rfl (fun _ ↦ ?_) ⟨.inr rfl, ?_⟩⟩
  · exact congrArg (s.overflows + ·) (puts_spec hfits).2
  · exact Nat.le_trans (Nat.le_of_eq hget) (zero_le _)
  · refine hecho.imp (fun hixon ↦ ⟨⟨hserial, hstopped, hixon⟩, ?_⟩) fun hneeded ↦ ?_
    · exact Nat.le_trans (Nat.le_of_eq hget) (zero_le _)
    · simp only [needed, putRead, chars_puts hfits] at hneeded ⊢
      omega

theorem Safe.conWrite (hpaced : Paced con s .advance) : Safe s (s.conWrite con nr below) := by
  rw [State.conWrite]
  split_ifs with hstopped
  · obtain ⟨-, -, -, hbelow⟩ := h.write hstack
    refine ⟨rfl, .refl _, .refl _, h.keeps rfl id ?_⟩
    rcases hbelow with rfl | hcooks
    · trivial
    · refine (hcooks.mono rfl fun more hroom ↦ ?_).calls
      exact .inr (hroom.resolve_left fun hdrains ↦ by simp [hdrains.1.2.1] at hstopped)
  · cases hreaction : (s.shown con).2 with
    | none => exact .taken h hstack id
    | respond =>
      have hgoing : s.stopped = false := by simpa using hstopped
      generalize hcs : response = cs
      exact .respond h hstack hpaced hgoing hreaction hcs
    | reset => exact .taken h hstack fun _ ↦ by decide

omit hstack in
theorem Safe.advance (hpaced : Paced con s .advance) (hstep : advance con s = .next t) :
    Safe s t := by
  unfold Tty.advance at hstep
  split at hstep
  all_goals cases hstep
  · next hstack => exact .cook h hstack
  · next hstack => exact .killLine h hstack
  · next hstack => exact .dec h hstack
  · next hstack => exact .put h hstack
  · next below hstack =>
    refine ⟨rfl, .refl _, .refl _, h.keeps rfl id ?_⟩
    rcases h.of_stack hstack with ⟨rfl, -⟩ | ⟨⟨hchars, -⟩, rfl | hcooks⟩
    · trivial
    · trivial
    · refine (hcooks.mono rfl fun more hroom ↦ hroom.imp_left fun hdrains ↦ ?_).calls
      exact ⟨hdrains.1, Nat.le_trans (Nat.le_of_eq hchars.symm) (zero_le _)⟩
  · next hstack => exact .conWrite h hstack hpaced

omit h hstack

/-! ### The calls of tasks -/

/-- A call of `tty_write` goes on. Assumes: if it has a byte that is not in the queue, no other call
has one, and there is room for it. -/
theorem Held.writes (h : Held s) {w : Option Writer} (hi : s.writer i ≠ none ∨ i < nrTasks)
    (hwriter : t.writer = Function.update s.writer i w)
    (hw : (w.any fun w ↦ w.pc = .fetched) → (∀ j, s.writerAt j .fetched = false) ∧
      t.writeQ.chars ≤ 1022)
    (hchars : s.writeQ.chars ≤ 1022 → s.writerAt i .fetched = false → t.writeQ.chars ≤ 1022)
    (hcalls : t.Calls t.stack) : Held t := by
  refine ⟨hcalls, fun j hj ↦ ?_, fun j k hj hk ↦ ?_⟩
  · rw [hwriter, Function.update_apply] at hj
    split_ifs at hj with hji
    · exact hji ▸ hi.elim (h.tasks i) id
    · exact h.tasks j hj
  · rw [writerAt, hwriter, Function.update_apply] at hj hk
    split_ifs at hj hk with hji hki hki
    · exact ⟨hji.trans hki.symm, (hw hj).2⟩
    · exact nomatch hk.symm.trans ((hw hj).1 k)
    · exact nomatch hj.symm.trans ((hw hk).1 j)
    · obtain ⟨hjk, hle⟩ := h.fetched j k hj hk
      exact ⟨hjk, hchars hle (Bool.eq_false_iff.mpr fun hi ↦ hji (h.fetched j i hj hi).1)⟩

theorem calls_of_nil (hstack : s.stack = []) : s.Calls s.stack := by
  rw [hstack]
  trivial

theorem calls_callWrite (s : State κ) : (s.callWrite []).Calls (s.callWrite []).stack := by
  rw [callWrite]
  split_ifs with hserial
  · trivial
  · exact .inr ⟨⟨rfl, by simpa using hserial⟩, .inl rfl⟩

theorem Safe.writeStep (h : Held s) {w : Writer} (hstack : s.stack = []) (hw : s.writer i = some w)
    (hpaced : Paced con s (.writer i)) (hstep : s.writeStep i w = .next t) : Safe s t := by
  have hi : s.writer i ≠ none := by simp [hw]
  cases hpc : w.pc with
  | outer | asleep =>
    simp only [State.writeStep, hpc] at hstep
    split_ifs at hstep
    all_goals
      cases hstep
      exact ⟨rfl, .refl _, .refl _, h.writes (.inl hi) rfl nofun (fun hchars _ ↦ hchars)
        (calls_of_nil hstack)⟩
  | inner =>
    simp only [State.writeStep, hpc] at hstep
    by_cases hdone : w.left = [] ∨ s.writeQ.full
    · rw [if_pos hdone] at hstep
      cases hstep
      refine ⟨rfl, .refl _, .refl _, h.writes (.inl hi) rfl ?_ (fun hchars _ ↦ hchars)
        (calls_callWrite _)⟩
      split_ifs <;> nofun
    · rw [if_neg hdone] at hstep
      cases hstep
      have hidle : ∀ j, s.writerAt j .fetched = false := fun j ↦ by
        by_cases hj : s.writer j = none
        · rw [writerAt, hj]
          rfl
        · exact hpaced (by simp [writerAt, hw, hpc]) j (h.tasks j hj)
      have hroom := Queue.not_full.mp (not_or.mp hdone).2
      exact ⟨rfl, .refl _, .refl _, h.writes (.inl hi) rfl (fun _ ↦ ⟨hidle, le_of_lt_succ hroom⟩)
        (fun hchars _ ↦ hchars) (calls_of_nil hstack)⟩
  | fetched =>
    have hat : s.writerAt i .fetched = true := by simp [writerAt, hw, hpc]
    have hfits : ∀ c : UInt8, s.writeQ.chars + [c].length ≤ 1023 :=
      fun _ ↦ succ_le_succ (h.fetched i i hat hat).2
    simp only [State.writeStep, hpc] at hstep
    split at hstep <;> cases hstep
    refine ⟨?_, .refl _, .puts (hfits _), h.writes (.inl hi) rfl nofun ?_ (calls_of_nil hstack)⟩
    · exact congrArg (s.overflows + ·) (puts_spec (hfits _)).2
    · exact fun _ hno ↦ nomatch hat.symm.trans hno

theorem Safe.putCharacter (h : Held s) (hstack : s.stack = []) (hroom : s.writeQ.chars ≤ 1021)
    (v : ℕ) : Safe s (s.putCharacter v) := by
  rw [State.putCharacter]
  split_ifs with hdisabled
  · exact ⟨rfl, .refl _, .refl _, h⟩
  · have hfits : s.writeQ.chars + [s.termios.cc v].length ≤ 1022 := succ_le_succ hroom
    have hchars := chars_puts (Nat.le_succ_of_le hfits)
    refine ⟨?_, .refl _, .puts (Nat.le_succ_of_le hfits), h.keeps rfl (fun _ ↦ ?_) ?_⟩
    · exact congrArg (s.overflows + ·) (puts_spec (Nat.le_succ_of_le hfits)).2
    · exact Nat.le_trans (Nat.le_of_eq hchars) hfits
    · exact calls_of_nil hstack

/-- A step that neither puts a byte in the read queue or the write queue nor takes one off. -/
theorem Safe.still (h : Held s) (hstack : s.stack = []) (hoverflows : t.overflows = s.overflows)
    (hread : t.readQ = s.readQ) (hwrite : t.writeQ = s.writeQ) (hwriter : t.writer = s.writer)
    (hstack' : t.stack = s.stack) : Safe s t :=
  ⟨hoverflows, hread ▸ .refl _, hwrite ▸ .refl _,
    h.keeps hwriter (hwrite ▸ id) (calls_of_nil (hstack'.trans hstack))⟩

theorem Safe.readStep (h : Held s) (hstack : s.stack = []) {r : Reader}
    (hstep : s.readStep i r = .next t) : Safe s t := by
  simp only [State.readStep, State.readPass, State.leave] at hstep
  split at hstep
  all_goals
    split_ifs at hstep <;> cases hstep
    all_goals exact .still h hstack rfl rfl rfl rfl rfl

/-- The interrupts of a serial line take a byte off the write queue. -/
theorem Safe.transmit (h : Held s) (hserial : s.serial = true) (hsome : ¬ s.writeQ.empty) :
    Safe s { s with writeQ := s.writeQ.getch.2 } := by
  have hget := Queue.chars_getch (Queue.chars_pos.mp hsome)
  have hlow : s.writeQ.chars ≤ 1022 → s.writeQ.getch.2.chars ≤ 1022 := by omega
  have hcalls := h.calls
  refine ⟨rfl, .refl _, .getch _, h.keeps rfl hlow ?_⟩
  show State.Calls _ s.stack
  unfold State.Calls at hcalls ⊢
  split at hcalls
  · trivial
  · exact .inl (hcalls.resolve_right fun hwrite ↦ nomatch hserial.symm.trans hwrite.1.2)
  · refine hcalls.mono rfl fun more hroom ↦ .inr ?_
    have hneeded := hroom.resolve_left fun hdrains ↦ nomatch hserial.symm.trans hdrains.1.1
    simp only [needed] at hneeded ⊢
    omega

theorem Queue.chars_putQueue (q : Queue) (cs : List UInt8) :
    (q.putQueue cs).chars ≤ q.chars + cs.length := by
  rw [putQueue]
  split_ifs with hfits
  · rw [left_eq] at hfits
    have hlt := q.chars_lt
    exact Nat.le_of_eq (chars_puts (by omega))
  · exact Nat.le_add_right _ _

/-- Every paced step is safe. -/
theorem Safe.step {e : Event} (h : Held s) (hpaced : Paced con s e)
    (hstep : step con s e = .next t) : Safe s t := by
  cases e with
  | input cs =>
    cases hstep
    obtain ⟨hstack, hroom⟩ := hpaced
    have hchars := s.readQ.chars_putQueue cs
    refine ⟨rfl, .putQueue _ _, .refl _, h.keeps rfl id ?_⟩
    rw [hstack]
    refine ⟨.inl rfl, hroom.imp_right fun hneeded ↦ ?_⟩
    simp only [needed] at hneeded ⊢
    omega
  | transmit =>
    obtain ⟨hsends, ⟨⟩⟩ := guard_eq_next.mp hstep
    exact .transmit h hsends.1 hsends.2
  | advance => exact .advance h hpaced hstep
  | read =>
    obtain ⟨hstack, hstep⟩ := task_eq_next hstep
    split at hstep <;> cases hstep
    exact .still h hstack rfl rfl rfl rfl rfl
  | reader i =>
    obtain ⟨hstack, hstep⟩ := task_eq_next hstep
    split at hstep
    · cases hstep
    · exact .readStep h hstack hstep
  | stopReading i =>
    obtain ⟨hstack, hstep⟩ := task_eq_next hstep
    split at hstep
    · cases hstep
    · obtain ⟨-, ⟨⟩⟩ := guard_eq_next.mp hstep
      exact .still h hstack rfl rfl rfl rfl rfl
  | write =>
    obtain ⟨hstack, hstep⟩ := task_eq_next hstep
    split at hstep <;> cases hstep
    exact ⟨rfl, .refl _, .refl _, h.writes (.inr hpaced) rfl nofun (fun hchars _ ↦ hchars)
      (calls_of_nil hstack)⟩
  | writer i =>
    obtain ⟨hstack, hstep⟩ := task_eq_next hstep
    split at hstep
    · cases hstep
    · next w hw => exact .writeStep h hstack hw hpaced hstep
  | stopWriting i =>
    obtain ⟨hstack, hstep⟩ := task_eq_next hstep
    split at hstep
    · cases hstep
    · next w hw =>
      obtain ⟨-, ⟨⟩⟩ := guard_eq_next.mp hstep
      exact ⟨rfl, .refl _, .refl _, h.writes (.inl (by simp [hw])) rfl nofun (fun hchars _ ↦ hchars)
        (calls_of_nil hstack)⟩
  | setTermios u =>
    obtain ⟨hstack, ⟨⟩⟩ := task_eq_next hstep
    exact .still h hstack rfl rfl rfl rfl rfl
  | tcxonc arg =>
    obtain ⟨hstack, ⟨⟩⟩ := task_eq_next hstep
    cases arg with
    | tcooff | tcoon => exact ⟨rfl, .refl _, .refl _, h.keeps rfl id (calls_callWrite _)⟩
    | tcioff | tcion => exact .putCharacter h hstack hpaced _
  | crFlag =>
    cases hstep
    exact ⟨rfl, .refl _, .refl _, h.keeps rfl id h.calls⟩

/-! ### Runs -/

theorem held_start (u : Termios) (serial : Bool) (k : κ) : Held (State.start u serial k) :=
  ⟨trivial, fun _ h ↦ (h rfl).elim, nofun⟩

/-- In a paced run no `PUTCH` meets a full queue. A paced step meets none either, it loses no byte
of the read queue or of the write queue, and neither of them goes from full to empty. -/
theorem ttyOverflow {u : Termios} {serial : Bool} {k : κ} {es : List Event}
    (hpaced : Meets (step con) (Paced con) (State.start u serial k) es)
    (hrun : run (step con) (State.start u serial k) es = some s) :
    s.overflows = 0 ∧ ∀ e t, step con s e = .next t → Paced con s e →
      t.overflows = 0 ∧ s.readQ.Kept t.readQ ∧ s.writeQ.Kept t.writeQ ∧
        (s.readQ.full → ¬ t.readQ.empty) ∧ (s.writeQ.full → ¬ t.writeQ.empty) := by
  have hheld : s.overflows = 0 ∧ Held s :=
    run_induction_of_meets (I := fun _ s ↦ s.overflows = 0 ∧ Held s)
      ⟨rfl, held_start u serial k⟩ (fun _ _ _ _ _ ⟨hzero, h⟩ hpaced hstep ↦
        have hsafe := Safe.step h hpaced hstep
        ⟨hsafe.overflows.trans hzero, hsafe.held⟩) hpaced hrun
  refine ⟨hheld.1, fun e t hstep hpaced ↦ ?_⟩
  have hsafe := Safe.step hheld.2 hpaced hstep
  exact ⟨hsafe.overflows.trans hheld.1, hsafe.readQ, hsafe.writeQ, hsafe.readQ.not_empty,
    hsafe.writeQ.not_empty⟩

/-- A console that answers to the byte 5. -/
def enquiry : Unit → UInt8 → Unit × Reaction := fun _ c ↦ ((), if c = 5 then .respond else .none)

/-- While a task writes `A` and a request, `x` is typed; the console answers when the task has
written both, and the answer is echoed. Then the output is stopped: a control character is typed and
erased, the line is killed, and `a` is typed; another task writes a byte, and `TCIOFF` comes before
it is in the queue. Then the output goes on. -/
def session : List Event :=
  [.write 0 [65, 5], .writer 0, .writer 0, .input [120]] ++ List.replicate 5 .advance ++
    [.writer 0, .write 1 [66], .writer 1, .writer 0, .writer 0, .writer 0] ++
    List.replicate 33 .advance ++
    [.tcxonc .tcooff, .advance, .input [1, 127, 21, 97]] ++ List.replicate 36 .advance ++
    [.writer 1, .tcxonc .tcioff, .writer 1, .writer 1, .advance, .tcxonc .tcoon]

theorem ttyOverflow_session :
    ∃ s, run (step enquiry) (State.start defTermios false ()) session = some s ∧
      s.secondary.items = [97] ∧ s.writeQ.chars = 16 ∧ s.overflows = 0 :=
  ⟨_, run_get (by decide +kernel), by decide +kernel, by decide +kernel,
    (ttyOverflow (by decide +kernel) (run_get _)).1⟩

/-- A control character is typed while the output is stopped. -/
def typedControl : List Event := .input [1] :: List.replicate 4 .advance

/-- After `TCOOFF` each control character is echoed by two bytes, and nothing takes them off the
write queue. The 512th finds room for the first byte only, and then the queue is empty: 1024 bytes
are lost. -/
theorem echoOverflow :
    ((run (step plain) (State.start defTermios false ())
      ([.tcxonc .tcooff, .advance] ++ (List.replicate 512 typedControl).flatten)).map fun s ↦
      (s.overflows, s.writeQ.chars)) = some (1, 0) := by
  decide +kernel

end EasyKernels.Linux.Tty
