import Mathlib.Algebra.GroupWithZero.Nat
import Mathlib.Data.Prod.Lex
import Mathlib.Order.WellFounded
import EasyKernels.Linux.HardDisk

/-!
# Runs of the hard-disk driver of Linux

`requestsInOrder` says, for every run of the driver from any queue, that the requests that have been
ended and those in the queue are the ones that were there and that were added, in the order of the
queue; that every endless run without new requests ends them all; and that the next event follows a
null pointer exactly when it is one of three (`Careful`): a last error of the last request in
`bad_rw_intr`, or the failure of a paging request, in `bad_rw_intr`, in `hd_times_out`, or for its
place on the disk. `nullDereferences` has runs to such events.

That every request is ended rests on `remaining`, which every step makes less (`step_falls`): the
sectors that are left, then the errors that the current request may still have, then the steps and
ticks to the answer to a command.
-/

set_option autoImplicit false

namespace EasyKernels.Linux.HardDisk

open List Lib.Runs

/-! ### Every request is ended -/

/-- The sectors that are left of a request; none is as many as there can be. -/
def Request.left (r : Request) : ℕ := (r.nrSectors - 1).toNat + 1

/-- The sectors that are left of all requests. -/
def sectors (s : State) : ℕ := (s.queue.map Request.left).sum

/-- The errors that the current request may still have. -/
def chances (s : State) : ℕ :=
  match s.queue with
  | [] => 0
  | r :: _ => maxErrors - r.errors

variable (disk : Disk)

/-- The steps that `reset_hd` takes at most, when it starts with the first drive. -/
def resetRank : ℕ := 300 * (disk.nrHd + 1) + 602

variable (s : State)

/-- The steps and ticks from the label of `do_hd_request` to the answer to a command, at most. -/
def requestRank : ℕ :=
  if s.reset then resetRank disk + 1 else if s.recalibrate then 600 else 300

/-- The same from the choice of the next drive in `reset_hd`. -/
def nextRank : ℕ :=
  300 * (disk.nrHd - s.drive).toNat + requestRank disk s + 1

/-- The same from an interrupt. -/
def handlerRank : Intr → ℕ
  | .readIntr | .writeIntr => 1
  | .recalIntr => requestRank disk s + 1
  | .resetHd => if s.reset then resetRank disk else nextRank disk s + 1

def rank : ℕ :=
  match s.pc with
  | .idle => s.hdTimeout + (s.doHd.elim 0 (handlerRank disk s))
  | .handler intr => handlerRank disk s intr
  | .badRwIntr _ | .timesOut => 0
  | .resetTest => if s.reset then resetRank disk + 1 else nextRank disk s + 1
  | .resetNext => nextRank disk s
  | .request => requestRank disk s

/-- What is left to do; every step makes it less while there is a request. -/
def remaining : ℕ ×ₗ ℕ ×ₗ ℕ :=
  toLex (sectors s, toLex (chances s, rank disk s))

/-- The step brings the end of the requests nearer. -/
def Nears (s t : State) : Prop := remaining disk t < remaining disk s

/-- A sector was transferred, or a request was ended, or an error was counted. -/
def Falls (s t : State) : Prop :=
  sectors t < sectors s ∨ sectors t = sectors s ∧ chances t < chances s

variable {s t : State} {disk : Disk} {r : Request} {rest : List Request} {e : Event}

theorem Falls.nears (h : Falls s t) (disk : Disk) : Nears disk s t := by
  rw [Nears, remaining, remaining, Prod.Lex.toLex_lt_toLex]
  refine h.imp_right fun ⟨hsectors, hchances⟩ ↦ ⟨hsectors, ?_⟩
  rw [Prod.Lex.toLex_lt_toLex]
  exact .inl hchances

theorem nears_of_rank (hqueue : t.queue = s.queue) (hrank : rank disk t < rank disk s) :
    Nears disk s t := by
  have hsectors : sectors t = sectors s := by rw [sectors, hqueue, sectors]
  have hchances : chances t = chances s := by rw [chances, hqueue, chances]
  rw [Nears, remaining, remaining, Prod.Lex.toLex_lt_toLex, hsectors, hchances]
  refine .inr ⟨rfl, ?_⟩
  rw [Prod.Lex.toLex_lt_toLex]
  exact .inr ⟨rfl, hrank⟩

theorem Falls.congr {u : State} (h : Falls s t) (hqueue : u.queue = t.queue) : Falls s u := by
  rw [Falls, sectors, chances, hqueue]
  exact h

theorem sectors_tail (hne : s.queue ≠ []) (hqueue : t.queue = s.queue.tail) :
    sectors t < sectors s := by
  obtain ⟨r, rest, hs⟩ := exists_cons_of_ne_nil hne
  rw [sectors, sectors, hqueue, hs]
  simp [Request.left]

theorem toNat_sub_one_lt {n : UInt32} (hne : n ≠ 0) : (n - 1).toNat < n.toNat := by
  have hpos : n.toNat ≠ 0 := fun h ↦ hne (UInt32.toNat_inj.mp h)
  have hone : (1 : UInt32).toNat = 1 := rfl
  rw [UInt32.toNat_sub, hone]
  omega

/-- A sector of the current request was transferred. -/
theorem sectors_transfer {r' : Request} (hs : s.queue = r :: rest) (ht : t.queue = r' :: rest)
    (hleft : r'.nrSectors = r.nrSectors - 1) (hne : r.nrSectors - 1 ≠ 0) :
    sectors t < sectors s := by
  have hlt : (r.nrSectors - 1 - 1).toNat < (r.nrSectors - 1).toNat := toNat_sub_one_lt hne
  rw [sectors, sectors, hs, ht]
  simp [Request.left, hleft, hlt]

theorem endRequest_falls (hne : s.queue ≠ []) (uptodate : Bool) :
    Post (endRequest s uptodate) fun t ↦ sectors t < sectors s :=
  (endRequest_keeps s uptodate).mono fun _ h ↦ sectors_tail hne h.2.1

theorem countError_falls (s : State) : Post (countError s) (Falls s) := by
  rw [countError]
  cases hs : s.queue with
  | nil => exact .error
  | cons r rest =>
    have hsectors : sectors { s with queue := { r with errors := r.errors + 1 } :: rest } =
        sectors s := by
      simp [sectors, hs, Request.left]
    simp only
    split_ifs with hmax
    · refine (endRequest_falls (by simp) false).mono fun t ht ↦ .inl ?_
      exact lt_of_lt_of_eq ht hsectors
    · refine .ok (.inr ⟨hsectors, ?_⟩)
      simp only [chances, hs]
      omega

theorem badRwIntr_falls (s : State) : Post (badRwIntr s) (Falls s) := by
  refine .bind (countError_falls s) fun u hu ↦ ?_
  rw [resetOnErrors]
  cases hs : u.queue with
  | nil => exact .error
  | cons =>
    refine .ok (hu.congr ?_)
    split <;> simp [hs]

section

variable (disk : Disk)

theorem transfer_falls (status : Status) : (s.pc = .handler .readIntr →
      Post (readIntr s status) (Nears disk s)) ∧
    (s.pc = .handler .writeIntr →
      Post (writeIntr s status) (Nears disk s)) := by
  constructor
  all_goals
    intro hpc
    first | rw [readIntr] | rw [writeIntr]
    split
    · refine Post.ok (nears_of_rank rfl ?_)
      simp [rank, hpc, handlerRank]
    · cases hs : s.queue with
      | nil => exact Post.error
      | cons =>
        simp only
        split_ifs with hleft
        · exact Post.ok (Falls.nears (Or.inl (sectors_transfer hs rfl rfl hleft)) disk)
        · refine Post.bind (endRequest_keeps _ true) fun u hu ↦ Post.ok ?_
          refine Falls.nears (Or.inl (sectors_tail (by simp [hs]) ?_)) disk
          rw [hs]
          exact hu.2.1

theorem recalIntr_falls (hpc : s.pc = .handler .recalIntr) (status : Status) :
    Post (recalIntr s status) (Nears disk s) := by
  refine .ok (nears_of_rank rfl ?_)
  cases status.error <;> simp [rank, hpc, handlerRank, requestRank]

theorem requestRank_le (hreset : s.reset = false) : requestRank disk s ≤ 600 := by
  rw [requestRank, if_neg (by simp [hreset])]
  split <;> omega

theorem resetHd_falls (hpc : s.pc = .handler .resetHd) (status : Status) :
    Post (resetHd s status) (Nears disk s) := by
  rw [resetHd]
  split
  case isTrue hreset =>
    refine .ok (nears_of_rank rfl ?_)
    have hle : requestRank disk { s with reset := false, drive := -1, pc := .resetNext } ≤ 600 :=
      requestRank_le disk rfl
    simp only [rank, hpc, handlerRank, hreset, nextRank, resetRank, if_true]
    omega
  case isFalse hreset =>
    refine .ok (nears_of_rank rfl ?_)
    cases status.error <;> simp [rank, hpc, handlerRank, requestRank, hreset, nextRank]

/-- `hd_out` leaves the driver waiting for its handler. -/
theorem hdOut_falls {u : State} {drive head : UInt32} {status : Status} {intr : Intr}
    (hqueue : u.queue = s.queue) (hrank : 200 + handlerRank disk u intr < rank disk s) :
    Post (hdOut u drive head status intr) (Nears disk s) := by
  refine hdOut_keeps.mono fun t ht ↦ ?_
  subst ht
  refine nears_of_rank hqueue (lt_of_eq_of_lt ?_ hrank)
  cases intr <;> rfl

theorem resetNext_falls (hpc : s.pc = .resetNext) (status : Status) :
    Post (resetNext disk s status) (Nears disk s) := by
  rw [resetNext]
  split_ifs with hdrive
  · refine hdOut_falls disk rfl ?_
    cases hreset : s.reset <;>
      simp [rank, hpc, handlerRank, nextRank, resetRank, requestRank, hreset] <;> omega
  · refine .ok (nears_of_rank rfl ?_)
    have hrank : rank disk s = nextRank disk s := by simp only [rank, hpc]
    rw [hrank]
    show requestRank disk s < 300 * (disk.nrHd - s.drive).toNat + requestRank disk s + 1
    omega

theorem command_falls (hpc : s.pc = .request) (r : Request) (status : Status) :
    Post (command disk s r status) (Nears disk s) := by
  rw [command]
  split
  · exact .error
  split
  case isTrue hreset =>
    refine .ok (nears_of_rank rfl ?_)
    simp [rank, hpc, handlerRank, requestRank, hreset]
  case isFalse hreset =>
    split
    case isTrue hrecalibrate =>
      refine hdOut_falls disk rfl ?_
      simp [rank, hpc, handlerRank, requestRank, hreset, hrecalibrate]
    case isFalse hrecalibrate =>
      have hrank : rank disk s = 300 := by simp [rank, hpc, requestRank, hreset, hrecalibrate]
      cases r.cmd with
      | write =>
        refine .bind hdOut_keeps fun u hu ↦ .ok ?_
        subst hu
        refine nears_of_rank rfl ?_
        rw [hrank]
        cases status.drq <;> simp [rank, setIntr, handlerRank]
      | read =>
        refine hdOut_falls disk rfl ?_
        rw [hrank]
        simp [handlerRank]
      | other => exact .error

theorem doHdRequest_falls (hpc : s.pc = .request) (hne : s.queue ≠ []) (status : Status) :
    Post (doHdRequest disk s status) (Nears disk s) := by
  rw [doHdRequest]
  cases hs : s.queue with
  | nil => exact absurd hs hne
  | cons r =>
    simp only
    split_ifs
    · exact .error
    · exact .error
    · exact (endRequest_falls hne false).mono fun t ht ↦ Falls.nears (Or.inl ht) disk
    · exact command_falls disk hpc r status

theorem hdTimesOut_falls (hne : s.queue ≠ []) :
    Post (hdTimesOut s) (Nears disk s) := by
  rw [hdTimesOut]
  cases hs : s.queue with
  | nil => exact absurd hs hne
  | cons =>
    exact .bind (countError_falls s) fun u hu ↦
      .ok ((hu.congr (by rfl)).nears disk)

theorem go_falls (hpc : s.pc ≠ .idle) (hne : s.queue ≠ []) (status : Status) :
    Post (go disk s status) (Nears disk s) := by
  rw [go]
  split
  case h_1 hidle => exact absurd hidle hpc
  case h_2 hpc => exact (transfer_falls disk status).1 hpc
  case h_3 hpc => exact (transfer_falls disk status).2 hpc
  case h_4 hpc => exact recalIntr_falls disk hpc status
  case h_5 hpc => exact resetHd_falls disk hpc status
  case h_6 | h_7 =>
    exact .bind (badRwIntr_falls s) fun u hu ↦ .ok ((hu.congr (by rfl)).nears disk)
  case h_8 hpc =>
    refine .ok (nears_of_rank rfl ?_)
    cases hreset : s.reset <;>
      simp [rank, hpc, handlerRank, nextRank, requestRank, hreset]
  case h_9 hpc => exact resetNext_falls disk hpc status
  case h_10 hpc => exact doHdRequest_falls disk hpc hne status
  case h_11 => exact hdTimesOut_falls disk hne

end

/-- While there is a request, every event but a new request brings its end nearer. -/
theorem step_falls (hsound : Sound s) (hne : s.queue ≠ []) (hadd : ∀ place r, e ≠ .add place r)
    (hstep : step disk s e = .next t) : Nears disk s t := by
  cases e with
  | go status =>
    rw [step] at hstep
    split_ifs at hstep with hpc
    exact go_falls disk hpc hne status t (Outcome.ofExcept_eq_next.mp hstep)
  | interrupt =>
    obtain ⟨hpc, hstep⟩ := guard_eq_next.mp hstep
    obtain ⟨htimeout, hdoHd⟩ := hsound.armed hpc hne
    obtain ⟨intr, hintr⟩ := Option.ne_none_iff_exists'.mp hdoHd
    cases hstep
    rw [hdInterrupt, hintr]
    refine nears_of_rank rfl ?_
    have hrank : rank disk s = s.hdTimeout + handlerRank disk s intr := by simp [rank, hpc, hintr]
    rw [hrank]
    exact Nat.lt_add_of_pos_left htimeout
  | tick =>
    obtain ⟨hpc, hstep⟩ := guard_eq_next.mp hstep
    obtain ⟨htimeout, -⟩ := hsound.armed hpc hne
    cases hstep
    refine nears_of_rank rfl ?_
    by_cases hlast : s.hdTimeout = 1
    · simp only [rank, tick, hpc, hlast, if_true]
      omega
    · have hhandler : handlerRank disk (tick s) = handlerRank disk s := by
        ext intr
        cases intr <;> rfl
      have hpc' : (tick s).pc = .idle := by simp [tick, hlast, hpc]
      simp only [rank, hpc, hpc', hhandler]
      exact Nat.add_lt_add_right (Nat.sub_one_lt_of_lt htimeout) _
  | add place r => exact absurd rfl (hadd place r)

/-! ### The null pointers -/

/-- A null pointer is followed. -/
def Null {α : Type} (r : Except Fault α) : Prop := r = .error .nullCurrent ∨ r = .error .nullBh

theorem not_null_ok {α : Type} (a : α) : ¬ Null (.ok a) := by simp [Null]

theorem null_bind {r : Except Fault State} {f : State → State} :
    Null (do let s ← r; .ok (f s)) ↔ Null r := by
  cases r with
  | ok | error => simp [Null, bind, Except.bind]

theorem null_endRequest (hs : s.queue = r :: rest) (uptodate : Bool) :
    Null (endRequest s uptodate) ↔ r.bh = none ∧ uptodate = false := by
  rw [endRequest, hs]
  cases hbh : r.bh <;> cases uptodate <;> simp [Null, hbh]

theorem null_countError (hs : s.queue = r :: rest) :
    Null (countError s) ↔ maxErrors ≤ r.errors + 1 ∧ r.bh = none := by
  rw [countError, hs]
  simp only
  split_ifs with hmax
  · rw [null_endRequest rfl]
    simp [hmax]
  · simp [hmax, Null]

theorem null_badRwIntr (hs : s.queue = r :: rest) :
    Null (badRwIntr s) ↔ maxErrors ≤ r.errors + 1 ∧ (r.bh = none ∨ rest = []) := by
  by_cases hmax : maxErrors ≤ r.errors + 1
  · cases hbh : r.bh with
    | none =>
      simp [badRwIntr, countError, endRequest, hs, hmax, hbh, Null, bind, Except.bind]
    | some b =>
      cases rest <;>
        simp [badRwIntr, countError, endRequest, resetOnErrors, hs, hmax, hbh, Null, bind,
          Except.bind]
  · simp [badRwIntr, countError, resetOnErrors, hs, hmax, Null, bind, Except.bind]

theorem not_null_hdOut (s : State) (drive head : UInt32) (status : Status) (intr : Intr) :
    ¬ Null (hdOut s drive head status intr) := by
  rw [hdOut]
  split_ifs <;> simp [Null]

theorem not_null_transfer (hne : s.queue ≠ []) (status : Status) :
    ¬ Null (readIntr s status) ∧ ¬ Null (writeIntr s status) := by
  obtain ⟨r, rest, hs⟩ := exists_cons_of_ne_nil hne
  rw [readIntr, writeIntr, hs]
  simp only
  constructor
  all_goals
    split_ifs
    · exact not_null_ok _
    · exact not_null_ok _
    · rw [null_bind, null_endRequest rfl]
      simp

theorem not_null_command (disk : Disk) (s : State) (r : Request) (status : Status) :
    ¬ Null (command disk s r status) := by
  rw [command]
  split
  · simp [Null]
  split
  · exact not_null_ok _
  split
  · exact not_null_hdOut _ _ _ _ _
  · cases r.cmd with
    | write =>
      rw [null_bind]
      exact not_null_hdOut _ _ _ _ _
    | read => exact not_null_hdOut _ _ _ _ _
    | other => simp [Null]

theorem null_doHdRequest (hs : s.queue = r :: rest) (status : Status) :
    Null (doHdRequest disk s status) ↔ r.dev / 256 = 3 ∧ outside disk r ∧ r.bh = none := by
  rw [doHdRequest, hs]
  simp only
  split_ifs with hdev hlocked houtside
  · simp [Null, hdev]
  · obtain ⟨b, hb, -⟩ := hlocked
    have hbh : r.bh ≠ none := Option.ne_none_iff_exists'.mpr ⟨b, hb⟩
    simp [Null, hbh]
  · rw [null_endRequest hs]
    simp [houtside]
    omega
  · simp [not_null_command, houtside]

theorem null_hdTimesOut (hs : s.queue = r :: rest) :
    Null (hdTimesOut s) ↔ maxErrors ≤ r.errors + 1 ∧ r.bh = none := by
  rw [hdTimesOut, hs]
  rw [null_bind, null_countError hs]

theorem null_go (hsound : Sound s) (status : Status) :
    Null (go disk s status) ↔ ¬ Careful disk s (.go status) := by
  have hne : s.pc.busy = true → ∃ r rest, s.queue = r :: rest := fun h ↦
    exists_cons_of_ne_nil (hsound.busy h)
  rw [go]
  split
  case h_1 hpc => simp [Careful, hpc, not_null_ok]
  case h_2 hpc | h_3 hpc =>
    simp [Careful, hpc, not_null_transfer (hsound.busy (by simp [hpc, Pc.busy]))]
  case h_4 hpc => simp [Careful, hpc, recalIntr, not_null_ok]
  case h_5 hpc =>
    rw [resetHd]
    split <;> simp [Careful, hpc, not_null_ok]
  case h_6 hpc | h_7 hpc =>
    obtain ⟨r, rest, hs⟩ := hne (by simp [hpc, Pc.busy])
    rw [null_bind, null_badRwIntr hs]
    simp [Careful, hpc, hs]
    tauto
  case h_8 hpc => simp [Careful, hpc, not_null_ok]
  case h_9 hpc =>
    rw [resetNext]
    split <;> simp [Careful, hpc, not_null_ok, not_null_hdOut]
  case h_10 hpc =>
    cases hs : s.queue with
    | nil => simp [Careful, hpc, hs, doHdRequest, not_null_ok]
    | cons =>
      rw [null_doHdRequest hs]
      simp [Careful, hpc, hs]
  case h_11 hpc =>
    cases hs : s.queue with
    | nil => simp [Careful, hpc, hs, hdTimesOut, not_null_ok]
    | cons =>
      rw [null_hdTimesOut hs]
      simp [Careful, hpc, hs]

theorem null_step (hsound : Sound s) (e : Event) :
    (step disk s e = .fault .nullCurrent ∨ step disk s e = .fault .nullBh) ↔
      ¬ Careful disk s e := by
  cases e with
  | go status =>
    rw [← null_go hsound status, step]
    split_ifs with hpc
    · simp [go, hpc, Null]
    · rw [Outcome.ofExcept_eq_fault, Outcome.ofExcept_eq_fault, Null]
  | interrupt | tick | add =>
    rw [step]
    split_ifs <;> simp [Careful]

/-! ### Every run -/

/-- What a run does to the line of requests: it ends the first ones, and puts in new ones. -/
structure Moves (s t : State) : Prop where
  line : (line s).Sublist (line t)
  ended : s.ended <+: t.ended
  added : ∃ new, t.added = s.added ++ new ∧ (HardDisk.line t).Perm (HardDisk.line s ++ new)

theorem Moves.refl (s : State) : Moves s s :=
  ⟨List.Sublist.refl _, prefix_rfl, [], by simp, by simp⟩

theorem Moves.trans {u : State} (h : Moves s t) (h' : Moves t u) : Moves s u := by
  refine ⟨h.line.trans h'.line, h.ended.trans h'.ended, ?_⟩
  obtain ⟨new, hnew, hperm⟩ := h.added
  obtain ⟨new', hnew', hperm'⟩ := h'.added
  refine ⟨new ++ new', by rw [hnew', hnew, append_assoc], ?_⟩
  rw [← append_assoc]
  exact hperm'.trans (hperm.append_right new')

theorem Keeps.moves (h : Keeps s t) : Moves s t := by
  refine ⟨h.line ▸ List.Sublist.refl _, h.ended, [], by simp [h.added], ?_⟩
  rw [h.line, append_nil]

theorem addRequest_moves (s : State) (place : ℕ) (r : Request) :
    Moves s (addRequest s place r) := by
  rw [addRequest]
  cases hs : s.queue with
  | nil =>
    refine ⟨?_, prefix_rfl, [r.tag], rfl, ?_⟩
    · simp [line, hs]
    · simp [line, hs]
  | cons current rest =>
    have hsublist : rest.Sublist (rest.take place ++ r :: rest.drop place) := by
      have happend : (rest.take place ++ rest.drop place).Sublist
          (rest.take place ++ r :: rest.drop place) :=
        (List.Sublist.refl _).append (sublist_cons_self r _)
      rwa [take_append_drop] at happend
    have hperm : (rest.take place ++ r :: rest.drop place).Perm (rest ++ [r]) := by
      refine perm_middle.trans ?_
      rw [take_append_drop]
      exact (perm_append_singleton r rest).symm
    refine ⟨?_, prefix_rfl, [r.tag], rfl, ?_⟩
    · rw [line, line, hs]
      exact (List.Sublist.refl _).append ((hsublist.cons_cons current).map Request.tag)
    · rw [line, line, hs, append_assoc]
      refine List.Perm.append_left _ ?_
      exact ((hperm.cons current).map Request.tag).trans (List.Perm.of_eq (by simp))

theorem addRequest_sound (hsound : Sound s) (hpc : s.pc = .idle) (place : ℕ) (r : Request) :
    Sound (addRequest s place r) := by
  rw [addRequest]
  cases hs : s.queue with
  | nil => exact sound_request rfl
  | cons =>
    obtain ⟨htimeout, hdoHd⟩ := hsound.armed hpc (by simp [hs])
    exact sound_armed (by simp) htimeout hdoHd

theorem hdInterrupt_sound (hsound : Sound s) (hpc : s.pc = .idle) : Sound (hdInterrupt s) := by
  rw [hdInterrupt]
  cases hdoHd : s.doHd with
  | none => exact sound_request rfl
  | some => exact sound_running (hsound.doHd (.inl hpc) (by simp [hdoHd])) (by simp)

theorem hdInterrupt_keeps (s : State) : Keeps s (hdInterrupt s) := by
  rw [hdInterrupt]
  split <;> exact ⟨rfl, rfl, prefix_rfl⟩

theorem tick_sound (hsound : Sound s) (hpc : s.pc = .idle) : Sound (tick s) := by
  by_cases hlast : s.hdTimeout = 1
  · refine ⟨?_, fun _ ↦ hsound.doHd (.inl hpc), ?_⟩
    · simp [tick, hlast, Pc.busy]
    · simp [tick, hlast]
  · refine ⟨?_, fun _ ↦ hsound.doHd (.inl hpc), fun _ hne ↦ ?_⟩
    · simp [tick, hlast, Pc.busy, hpc]
    · obtain ⟨htimeout, hdoHd⟩ := hsound.armed hpc hne
      exact ⟨Nat.sub_pos_of_lt (lt_of_le_of_ne htimeout (.symm hlast)), hdoHd⟩

theorem step_keeps (hsound : Sound s) (hadd : ∀ place r, e ≠ .add place r)
    (hstep : step disk s e = .next t) : Keeps s t ∧ Sound t := by
  cases e with
  | go status =>
    rw [step] at hstep
    split_ifs at hstep
    exact go_keeps hsound disk status t (Outcome.ofExcept_eq_next.mp hstep)
  | interrupt =>
    obtain ⟨hpc, ⟨⟩⟩ := guard_eq_next.mp hstep
    exact ⟨hdInterrupt_keeps s, hdInterrupt_sound hsound hpc⟩
  | tick =>
    obtain ⟨hpc, ⟨⟩⟩ := guard_eq_next.mp hstep
    exact ⟨⟨rfl, rfl, prefix_rfl⟩, tick_sound hsound hpc⟩
  | add place r => exact absurd rfl (hadd place r)

theorem step_moves (hsound : Sound s) (hstep : step disk s e = .next t) : Moves s t ∧ Sound t := by
  by_cases hadd : ∀ place r, e ≠ .add place r
  · exact (step_keeps hsound hadd hstep).imp_left Keeps.moves
  · push Not at hadd
    obtain ⟨place, r, rfl⟩ := hadd
    obtain ⟨hpc, ⟨⟩⟩ := guard_eq_next.mp hstep
    exact ⟨addRequest_moves s place r, addRequest_sound hsound hpc place r⟩

theorem run_moves {es : List Event} (hsound : Sound s) (hrun : run (step disk) s es = some t) :
    Moves s t ∧ Sound t := by
  refine run_invariant (I := fun t ↦ Moves s t ∧ Sound t) ⟨.refl s, hsound⟩ ?_ hrun
  intro u e t hu hstep
  obtain ⟨hmoves, hsound'⟩ := step_moves hu.2 hstep
  exact ⟨hu.1.trans hmoves, hsound'⟩

theorem sound_start (queue : List Request) (locked : ℕ → Bool) : Sound (start queue locked) :=
  sound_request rfl

/-- In every run the requests that have been ended and those in the queue are those that were there
and those that were added, each once; their order does not change, and what was ended stays ended;
every endless run without new requests ends all requests; and the next event follows a null pointer
exactly when it is not `Careful`. -/
theorem requestsInOrder (disk : Disk) (queue : List Request) (locked : ℕ → Bool) {es : List Event}
    {s : State} (hrun : run (step disk) (start queue locked) es = some s) :
    (line s).Perm (queue.map Request.tag ++ s.added) ∧
    (∀ before after u, es = before ++ after →
      run (step disk) (start queue locked) before = some u →
        (line u).Sublist (line s) ∧ u.ended <+: s.ended) ∧
    (∀ (events : ℕ → Event) (states : ℕ → State), states 0 = s →
      (∀ n, step disk (states n) (events n) = .next (states (n + 1))) →
      (∀ n place r, events n ≠ .add place r) →
        ∃ n, (states n).queue = [] ∧ line s <+: (states n).ended) ∧
    ∀ e, (step disk s e = .fault .nullCurrent ∨ step disk s e = .fault .nullBh) ↔
      ¬ Careful disk s e := by
  obtain ⟨hmoves, hsound⟩ := run_moves (sound_start queue locked) hrun
  refine ⟨?_, ?_, ?_, null_step hsound⟩
  · obtain ⟨new, hnew, hperm⟩ := hmoves.added
    have hadded : s.added = new := by simpa [start] using hnew
    rw [hadded]
    exact hperm
  · intro before after u hes hu
    rw [hes] at hrun
    obtain ⟨v, hv, hafter⟩ := run_append_eq_some.mp hrun
    obtain rfl : v = u := Option.some.inj (hv.symm.trans hu)
    obtain ⟨hline, hended, -⟩ := (run_moves (run_moves (sound_start queue locked) hv).2 hafter).1
    exact ⟨hline, hended⟩
  · intro events states hfirst hnext hadd
    have hall : ∀ n, line (states n) = line s ∧ Sound (states n) := by
      intro n
      induction n with
      | zero => exact ⟨by rw [hfirst], hfirst ▸ hsound⟩
      | succ n ih =>
        obtain ⟨hkeeps, hsound'⟩ := step_keeps ih.2 (hadd n) (hnext n)
        exact ⟨hkeeps.line.trans ih.1, hsound'⟩
    obtain ⟨n, hn⟩ := WellFounded.not_rel_apply_succ (r := (· < ·)) fun n ↦
      remaining disk (states n)
    have hempty : (states n).queue = [] := by
      by_contra hne
      exact hn (step_falls (hall n).2 hne (hadd n) (hnext n))
    refine ⟨n, hempty, ?_⟩
    rw [← (hall n).1, line, hempty]
    simp

/-! ### Runs to a null pointer -/

/-- One drive, with one partition of 100 sectors. -/
def oneDrive : Disk where
  nrHd := 1
  head := fun _ ↦ 4
  sect := fun _ ↦ 17
  startSect := fun _ ↦ 0
  nrSects := fun _ ↦ 100

/-- A request to read a block into a buffer. -/
def readBlock (tag : ℕ) : Request where
  tag := tag
  dev := 3 * 256
  cmd := .read
  errors := 0
  sector := 10
  nrSectors := 2
  bh := some tag

/-- A request to write a page, without a buffer. -/
def writePage (tag : ℕ) : Request where
  tag := tag
  dev := 3 * 256
  cmd := .write
  errors := 0
  sector := 20
  nrSectors := 8
  bh := none

def good : Status := ⟨false, true, true⟩

def bad : Status := ⟨true, true, true⟩

/-- A block is read while a page is put behind it. -/
theorem requestsInOrder_behind : ∃ s, (∃ es, run (step oneDrive)
      (start [readBlock 0] fun _ ↦ true) es = some s) ∧ s.ended = [0] ∧ s.added = [1] ∧
    (line s).Perm ([0] ++ [1]) :=
  ⟨_, ⟨[.go good, .add 0 (writePage 1), .interrupt, .go good, .interrupt, .go good, .go good],
    run_get (by decide +kernel)⟩, by decide +kernel, by decide +kernel,
    (requestsInOrder oneDrive _ _ (run_get _)).1⟩

/-- An interrupt with an error, and the command that follows it. -/
def failing : List Event := [.interrupt, .go bad, .go good, .go good]

/-- The same with a reset of the controller and a recalibration in between. -/
def failingWithReset : List Event :=
  [.interrupt, .go bad, .go good, .go good, .go good, .go good, .interrupt, .go good, .go good,
    .go good, .interrupt, .go good, .go good]

/-- A command that fails, up to the seventh error. -/
def sevenErrors : List Event :=
  [.go good] ++ failing ++ failing ++ failing ++ failingWithReset ++ failingWithReset ++
    failingWithReset ++ [.interrupt, .go bad]

/-- `bad_rw_intr` ends the last request at its seventh error and then looks at its errors; and it
ends a page with an error, for which a request needs a buffer. -/
theorem nullDereferences :
    (∃ u, run (step oneDrive) (start [readBlock 0] fun _ ↦ true) sevenErrors = some u ∧
      step oneDrive u (.go good) = .fault .nullCurrent) ∧
    (∃ u, run (step oneDrive) (start [writePage 0] fun _ ↦ true) sevenErrors = some u ∧
      step oneDrive u (.go good) = .fault .nullBh) := by
  decide +kernel

end EasyKernels.Linux.HardDisk
