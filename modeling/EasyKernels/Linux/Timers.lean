import Mathlib.Algebra.Order.BigOperators.Group.List
import Mathlib.Data.Fintype.Card
import EasyKernels.Lib.Chains
import EasyKernels.Lib.Delays
import EasyKernels.Lib.Runs

/-!
# The kernel timers of Linux

`add_timer` and the part of `do_timer` that runs timers, over the table `timer_list` of
`TIME_REQUESTS` entries that are linked by `next` from `next_timer`. An entry holds the number of
ticks from the entry before it. A call of `do_timer` is the event `tick`, one event `fire` for each
turn of its loop and the event `done`; a call of `add_timer` may come between any two of them, so
that a function that `do_timer` calls may add timers.

`sift_spec` says what the loop of `add_timer` does to the list: it walks over entries with fewer
ticks, takes their ticks off the new entry, and stops in front of the others without taking the new
entry's ticks off the one that follows. So a timer that does not go to the end of the list puts off
all timers behind it. `timersOnTime` is what holds: when each timer is due later than all pending
ones (`Latest`), every function is called once for each call of `add_timer`, on the tick it was
asked for, and on no other. `delayedTimer` is a run in which a timer for two ticks is not called on
the second tick, because a timer for one tick was added after it.

Scope. `ticks` is not in the source: it counts the calls of `do_timer`. The rest of `do_timer` (the
screen, the disk timeout, the beep, the floppy and the time slices) is left out, as is what the
called functions do besides adding timers.
-/

set_option autoImplicit false

namespace EasyKernels.Linux.Timers

open Nat List Function Lib.Runs Lib.Chains Lib.Delays

/-! ### The table -/

/-- `TIME_REQUESTS`. -/
def timeRequests : ℕ := 64

/-- A pointer into `timer_list`. -/
abbrev Slot := Fin timeRequests

variable {F : Type*}

/-- `struct timer_list`. A null `fn` marks a free entry. -/
structure Timer (F : Type*) where
  jiffies : ℤ
  fn : Option F
  next : Option Slot

structure State (F : Type*) where
  timerList : Slot → Timer F
  nextTimer : Option Slot
  firing : Bool
  ticks : ℤ

def initial : State F where
  timerList := fun _ ↦ { jiffies := 0, fn := none, next := none }
  nextTimer := none
  firing := false
  ticks := 0

/-! ### The functions -/

variable (s : State F)

/-- The first free entry of `timer_list`. -/
def freeEntry : Option Slot :=
  (List.finRange timeRequests).find? fun p ↦ (s.timerList p).fn.isNone

variable (timers : Slot → Timer F)

/-- One turn of the loop of `add_timer`: the entries `p` and `q` change places, and the ticks of the
one that goes to the front are taken off the other. -/
def swap (p q : Slot) : Slot → Timer F :=
  update
    (update timers p
      { timers p with jiffies := (timers q).jiffies, fn := (timers q).fn })
    q { timers q with jiffies := (timers p).jiffies - (timers q).jiffies, fn := (timers p).fn }

/-- The loop of `add_timer`, for at most a number of turns. -/
def sift (timers : Slot → Timer F) : ℕ → Slot → Option (Slot → Timer F)
  | 0, _ => none
  | turns + 1, p =>
    match (timers p).next with
    | none => some timers
    | some q =>
      if (timers q).jiffies < (timers p).jiffies then sift (swap timers p q) turns q
      else some timers

/-- How a call stops the kernel: `add_timer` finds no free entry, its loop does not end, or
`do_timer` calls a null pointer. -/
inductive Stop
  | noMoreTimeRequests
  | endless
  | nullCall
  deriving DecidableEq, Repr

/-- The new entry at the front of the list. -/
def link (p : Slot) (jiffies : ℤ) (f : F) : Slot → Timer F :=
  update s.timerList p { jiffies := jiffies, fn := some f, next := s.nextTimer }

/-- `add_timer`. With no ticks to wait it calls the function at once. -/
def addTimer (jiffies : ℤ) (fn : Option F) : Outcome Stop (State F) :=
  match fn with
  | none => .next s
  | some f =>
    if jiffies ≤ 0 then .next s
    else
      match freeEntry s with
      | none => .fault .noMoreTimeRequests
      | some p =>
        match sift (link s p jiffies f) timeRequests p with
        | none => .fault .endless
        | some timers => .next { s with timerList := timers, nextTimer := some p }

/-- `next_timer->jiffies--`. -/
def countDown : Slot → Timer F :=
  match s.nextTimer with
  | none => s.timerList
  | some p =>
    update s.timerList p
      { s.timerList p with jiffies := (s.timerList p).jiffies - 1 }

/-- The condition of the loop of `do_timer`, with the entry it holds for. -/
def ready : Option Slot :=
  s.nextTimer.filter fun p ↦ (s.timerList p).jiffies ≤ 0

inductive Event (F : Type*)
  | add (jiffies : ℤ) (fn : Option F)
  | tick
  | fire
  | done

/-- A turn of the loop of `do_timer`. -/
def fire (p : Slot) : Outcome Stop (State F) :=
  match (s.timerList p).fn with
  | none => .fault .nullCall
  | some _ =>
    .next { s with
      timerList := update s.timerList p { s.timerList p with fn := none }
      nextTimer := (s.timerList p).next }

def step : Event F → Outcome Stop (State F)
  | .add jiffies fn => addTimer s jiffies fn
  | .tick =>
    if s.firing then .blocked
    else .next { s with timerList := countDown s, firing := true, ticks := s.ticks + 1 }
  | .fire =>
    if s.firing then
      match ready s with
      | none => .blocked
      | some p => fire s p
    else .blocked
  | .done => if s.firing ∧ ready s = none then .next { s with firing := false } else .blocked

/-! ### What is asked for and what is called -/

/-- The tick that a call of `add_timer` asks for, with the function. -/
def asked : Event F → Option (ℤ × Option F)
  | .add jiffies (some f) => some (s.ticks + max jiffies 0, some f)
  | _ => none

/-- The function that an event calls, with the tick. -/
def called : Event F → Option (ℤ × Option F)
  | .add jiffies (some f) => if jiffies ≤ 0 then some (s.ticks, some f) else none
  | .fire => (ready s).map fun p ↦ (s.ticks, (s.timerList p).fn)
  | _ => none

/-- The number of ticks up to the last pending timer. -/
def lastPending : ℤ :=
  (((List.finRange timeRequests).filter fun p ↦ (s.timerList p).fn.isSome).map
    fun p ↦ (s.timerList p).jiffies).sum

/-- A timer that is added is due later than all pending ones. -/
def Latest : Event F → Prop
  | .add jiffies (some _) => 0 < jiffies → lastPending s < jiffies
  | _ => True

instance (e : Event F) : Decidable (Latest s e) :=
  match e with
  | .add _ (some _) => inferInstanceAs (Decidable (_ → _))
  | .add _ none | .tick | .fire | .done => inferInstanceAs (Decidable True)

/-! ### The list of pending timers -/

/-- The entries of the table that a list of pointers names. -/
def entries (l : List Slot) : List (ℤ × Option F) :=
  l.map fun p ↦ ((timers p).jiffies, (timers p).fn)

@[simp] theorem entries_nil : entries timers [] = [] := rfl

@[simp] theorem entries_cons (p : Slot) (l : List Slot) :
    entries timers (p :: l) = ((timers p).jiffies, (timers p).fn) :: entries timers l := rfl

variable {timers : Slot → Timer F} {l : List Slot} {s t : State F} {p : Slot} {es : List (Event F)}

theorem entries_congr {timers' : Slot → Timer F} (hsame : ∀ p ∈ l, timers' p = timers p) :
    entries timers' l = entries timers l :=
  map_congr_left fun p hp ↦ by rw [hsame p hp]

/-- `l` is the list of the pending timers: what is linked from `next_timer`, and all that is in
use. -/
structure Queue (s : State F) (l : List Slot) : Prop where
  chain : Chain (fun p ↦ (s.timerList p).next) s.nextTimer l
  used : ∀ p, (s.timerList p).fn ≠ none ↔ p ∈ l

theorem queue_initial : Queue (initial : State F) [] where
  chain := rfl
  used p := by simp [initial]

theorem Queue.lastPending_eq (h : Queue s l) : lastPending s = total (entries s.timerList l) := by
  have hperm : ((finRange timeRequests).filter fun p ↦ (s.timerList p).fn.isSome).Perm l := by
    rw [perm_ext_iff_of_nodup ((nodup_finRange _).filter _) h.chain.nodup]
    intro p
    simp [← h.used p, Option.isSome_iff_ne_none]
  rw [lastPending, total, entries, map_map]
  exact (hperm.map _).sum_eq

/-- Where the loop of `add_timer` puts a new entry in a list of entries. -/
def place (x : ℤ × Option F) : List (ℤ × Option F) → List (ℤ × Option F)
  | [] => [x]
  | y :: l => if y.1 < x.1 then y :: place (x.1 - y.1, x.2) l else x :: y :: l

theorem swap_next (timers : Slot → Timer F) (p q r : Slot) :
    (swap timers p q r).next = (timers r).next := by
  simp only [swap, update_apply]
  split_ifs with hq hp
  · rw [hq]
  · rw [hp]
  · rfl

theorem swap_of_ne {q r : Slot} (hp : r ≠ p) (hq : r ≠ q) : swap timers p q r = timers r := by
  rw [swap, update_of_ne hq, update_of_ne hp]

/-- The loop of `add_timer` ends, changes no pointer and nothing outside the list, and puts the
first entry where `place` does. -/
theorem sift_spec (hchain : Chain (fun r ↦ (timers r).next) (timers p).next l)
    (hnodup : (p :: l).Nodup) {turns : ℕ} (hturns : l.length < turns) :
    ∃ timers', sift timers turns p = some timers' ∧ (∀ r, (timers' r).next = (timers r).next) ∧
      (∀ r, r ∉ p :: l → timers' r = timers r) ∧
      entries timers' (p :: l) = place ((timers p).jiffies, (timers p).fn) (entries timers l) := by
  -- One turn of the loop for each entry of the list that the new one goes behind.
  induction l generalizing timers p turns with
  | nil =>
    obtain ⟨turns, rfl⟩ := exists_eq_add_one.mpr (zero_lt_of_lt hturns)
    exact ⟨timers, by rw [sift, hchain], fun _ ↦ rfl, fun _ _ ↦ rfl, rfl⟩
  | cons q l ih =>
    obtain ⟨turns, rfl⟩ := exists_eq_add_one.mpr (zero_lt_of_lt hturns)
    obtain ⟨hnext, hchain⟩ := hchain
    obtain ⟨hp, hnodup⟩ := nodup_cons.mp hnodup
    have hpq : p ≠ q := fun heq ↦ hp (heq ▸ mem_cons_self)
    have hpl : p ∉ l := fun hmem ↦ hp (mem_cons_of_mem q hmem)
    have hql : q ∉ l := (nodup_cons.mp hnodup).1
    by_cases hless : (timers q).jiffies < (timers p).jiffies
    · have hself : swap timers p q q = { timers q with
          jiffies := (timers p).jiffies - (timers q).jiffies, fn := (timers p).fn } := by
        rw [swap, update_self]
      have hfront : swap timers p q p = { timers p with
          jiffies := (timers q).jiffies, fn := (timers q).fn } := by
        rw [swap, update_of_ne hpq, update_self]
      have hrest : ∀ r ∈ l, swap timers p q r = timers r := fun r hr ↦
        swap_of_ne (ne_of_mem_of_not_mem hr hpl) (ne_of_mem_of_not_mem hr hql)
      have hchain' : Chain (fun r ↦ (swap timers p q r).next) (swap timers p q q).next l := by
        rw [swap_next]
        exact hchain.congr fun r _ ↦ swap_next timers p q r
      obtain ⟨timers', hsift, hsame, hother, hplaced⟩ :=
        ih hchain' hnodup (lt_of_succ_lt_succ hturns)
      refine ⟨timers', ?_, fun r ↦ (hsame r).trans (swap_next timers p q r), ?_, ?_⟩
      · simp only [sift, hnext, if_pos hless, hsift]
      · intro r hr
        simp only [mem_cons, not_or] at hr
        rw [hother r (by simp [hr]), swap_of_ne hr.1 hr.2.1]
      · rw [entries_cons, hplaced, hother p hp, hself, hfront, entries_congr hrest]
        simp [place, hless]
    · refine ⟨timers, ?_, fun _ ↦ rfl, fun _ _ ↦ rfl, ?_⟩
      · simp only [sift, hnext, if_neg hless]
      · simp [place, hless]

theorem snd_mem_place {x y : ℤ × Option F} {l : List (ℤ × Option F)} (hy : y ∈ place x l) :
    y.2 = x.2 ∨ ∃ z ∈ l, y.2 = z.2 := by
  induction l generalizing x with
  | nil =>
    rw [place, mem_singleton] at hy
    exact .inl (congrArg Prod.snd hy)
  | cons z l ih =>
    rw [place] at hy
    split_ifs at hy
    · rcases mem_cons.mp hy with rfl | hy
      · exact .inr ⟨y, mem_cons_self, rfl⟩
      · exact (ih hy).imp_right fun ⟨w, hw, heq⟩ ↦ ⟨w, mem_cons_of_mem z hw, heq⟩
    · rcases mem_cons.mp hy with rfl | hy
      · exact .inl rfl
      · exact .inr ⟨y, hy, rfl⟩

theorem place_of_total_lt {x : ℤ × Option F} {l : List (ℤ × Option F)}
    (hpos : ∀ y ∈ l.tail, 0 < y.1)
    (hlt : total l < x.1) : place x l = l ++ [(x.1 - total l, x.2)] := by
  induction l generalizing x with
  | nil => simp [place]
  | cons y l ih =>
    have hrest : 0 ≤ total l := by
      apply sum_nonneg
      intro d hd
      obtain ⟨z, hz, rfl⟩ := mem_map.mp hd
      exact (hpos z hz).le
    have hless : y.1 < x.1 := lt_of_le_of_lt (le_add_of_nonneg_right hrest) hlt
    have htail : ∀ z ∈ l.tail, 0 < z.1 := fun z hz ↦ hpos z (mem_of_mem_tail hz)
    rw [place, if_pos hless, ih htail (show total l < x.1 - y.1 from lt_sub_iff_add_lt'.mpr hlt)]
    rw [total_cons, sub_sub, cons_append]

/-! ### What each event does to the list -/

theorem freeEntry_none (hp : freeEntry s = some p) : (s.timerList p).fn = none := by
  simpa using find?_some hp

/-- `add_timer` returns when an entry is free, with the new timer in its place. -/
theorem Queue.add (h : Queue s l) (hp : freeEntry s = some p) (jiffies : ℤ) (f : F) :
    ∃ timers, sift (link s p jiffies f) timeRequests p = some timers ∧
      Queue { s with timerList := timers, nextTimer := some p } (p :: l) ∧
      entries timers (p :: l) = place (jiffies, some f) (entries s.timerList l) := by
  have hpl : p ∉ l := fun hmem ↦ (h.used p).mpr hmem (freeEntry_none hp)
  have hrest : ∀ r, r ≠ p → link s p jiffies f r = s.timerList r := fun r hr ↦
    update_of_ne hr _ _
  have hself : link s p jiffies f p =
      { jiffies := jiffies, fn := some f, next := s.nextTimer } := update_self _ _ _
  have hne : ∀ r ∈ l, r ≠ p := fun r hr ↦ ne_of_mem_of_not_mem hr hpl
  have hchain : Chain (fun r ↦ (link s p jiffies f r).next) (link s p jiffies f p).next l := by
    rw [hself]
    exact h.chain.congr fun r hr ↦ by rw [hrest r (hne r hr)]
  have hnodup : (p :: l).Nodup := nodup_cons.mpr ⟨hpl, h.chain.nodup⟩
  have hlength : l.length < timeRequests := by
    have hcard := List.Nodup.length_le_card hnodup
    rwa [length_cons, Fintype.card_fin] at hcard
  obtain ⟨timers, hsift, hsame, hother, hplaced⟩ := sift_spec hchain hnodup hlength
  rw [hself, entries_congr fun r hr ↦ hrest r (hne r hr)] at hplaced
  refine ⟨timers, hsift, ⟨⟨rfl, ?_⟩, ?_⟩, hplaced⟩
  · show Chain (fun r ↦ (timers r).next) (timers p).next l
    rw [hsame p]
    exact hchain.congr fun r _ ↦ hsame r
  · intro r
    show (timers r).fn ≠ none ↔ r ∈ p :: l
    by_cases hr : r ∈ p :: l
    · have hmem : ((timers r).jiffies, (timers r).fn) ∈ entries timers (p :: l) :=
        mem_map_of_mem hr
      rw [hplaced] at hmem
      refine iff_of_true ?_ hr
      rcases snd_mem_place hmem with hnew | ⟨z, hz, hold⟩
      · rw [show (timers r).fn = some f from hnew]
        exact Option.some_ne_none f
      · obtain ⟨q, hq, rfl⟩ := mem_map.mp hz
        rw [show (timers r).fn = (s.timerList q).fn from hold]
        exact (h.used q).mpr hq
    · refine iff_of_false ?_ hr
      rw [mem_cons, not_or] at hr
      rw [hother r (by simp [hr]), hrest r hr.1, h.used r]
      exact hr.2

theorem Queue.nextTimer_eq_none (h : Queue s []) : s.nextTimer = none := h.chain

theorem Queue.nextTimer_eq_some (h : Queue s (p :: l)) : s.nextTimer = some p := h.chain.1

/-- A tick takes one off the first entry. -/
theorem Queue.tick (h : Queue s (p :: l)) :
    Queue { s with timerList := countDown s, firing := true, ticks := s.ticks + 1 } (p :: l) ∧
      entries (countDown s) (p :: l) =
        ((s.timerList p).jiffies - 1, (s.timerList p).fn) :: entries s.timerList l := by
  have hself : countDown s p = { s.timerList p with jiffies := (s.timerList p).jiffies - 1 } := by
    simp [countDown, h.nextTimer_eq_some]
  have hother : ∀ r, r ≠ p → countDown s r = s.timerList r := by
    intro r hr
    simp [countDown, h.nextTimer_eq_some, hr]
  have hfields : ∀ r, (countDown s r).next = (s.timerList r).next ∧
      (countDown s r).fn = (s.timerList r).fn := by
    intro r
    by_cases hr : r = p
    · rw [hr, hself]
      exact ⟨rfl, rfl⟩
    · rw [hother r hr]
      exact ⟨rfl, rfl⟩
  refine ⟨⟨h.chain.congr fun r _ ↦ (hfields r).1, fun r ↦ ?_⟩, ?_⟩
  · rw [(hfields r).2]
    exact h.used r
  · have hp := (nodup_cons.mp h.chain.nodup).1
    rw [entries_cons, hself, entries_congr fun r hr ↦ hother r (ne_of_mem_of_not_mem hr hp)]

/-- A turn of the loop of `do_timer` takes the first entry off the list. -/
theorem Queue.fire (h : Queue s (p :: l)) : Queue { s with
      timerList := update s.timerList p { s.timerList p with fn := none }
      nextTimer := (s.timerList p).next } l ∧
      entries (update s.timerList p { s.timerList p with fn := none }) l =
        entries s.timerList l := by
  have hp := (nodup_cons.mp h.chain.nodup).1
  have hother : ∀ r ∈ l, update s.timerList p { s.timerList p with fn := none } r =
      s.timerList r := by
    intro r hr
    exact update_of_ne (ne_of_mem_of_not_mem hr hp) _ _
  refine ⟨⟨h.chain.2.congr fun r hr ↦ ?_, fun r ↦ ?_⟩, entries_congr hother⟩
  · show (update s.timerList p { s.timerList p with fn := none } r).next = _
    rw [hother r hr]
  · show (update s.timerList p { s.timerList p with fn := none } r).fn ≠ none ↔ r ∈ l
    rw [update_apply]
    split_ifs with hr
    · rw [hr]
      simp [hp]
    · rw [h.used r]
      simp [hr]

/-! ### Every run -/

/-- What holds of the timers along a run: every call that is asked for has been made or is pending
for its tick, none has been made later than now, and the pending ones are to come. -/
structure Kept (asks calls : List (ℤ × Option F)) (s : State F) (l : List Slot) : Prop where
  queue : Queue s l
  rest_pos : ∀ x ∈ (entries s.timerList l).tail, 0 < x.1
  head_nonneg : ∀ x ∈ entries s.timerList l, 0 ≤ x.1
  idle_pos : s.firing = false → ∀ x ∈ entries s.timerList l, 0 < x.1
  perm : asks.Perm (calls ++ due s.ticks (entries s.timerList l))
  called_le : ∀ x ∈ calls, x.1 ≤ s.ticks

theorem kept_initial : Kept [] [] (initial : State F) [] where
  queue := queue_initial
  rest_pos := by simp
  head_nonneg := by simp
  idle_pos := by simp
  perm := by simp
  called_le := nofun

theorem perm_concat {α : Type*} {l l₁ l₂ : List α} (h : l.Perm (l₁ ++ l₂)) (x : α) :
    (l ++ [x]).Perm (l₁ ++ [x] ++ l₂) := by
  have hend := h.append_right [x]
  rw [append_assoc] at hend ⊢
  exact hend.trans (perm_append_comm.append_left l₁)

variable {asks calls : List (ℤ × Option F)}

theorem Kept.add (h : Kept asks calls s l) {jiffies : ℤ} {fn : Option F}
    (hlatest : Latest s (.add jiffies fn)) (hstep : step s (.add jiffies fn) = .next t) :
    ∃ l', Kept (asks ++ (asked s (.add jiffies fn)).toList)
      (calls ++ (called s (.add jiffies fn)).toList) t l' := by
  cases fn with
  | none =>
    cases hstep
    exact ⟨l, by simpa [asked, called] using h⟩
  | some f =>
    simp only [step, addTimer] at hstep
    split_ifs at hstep with hnow
    · cases hstep
      simp only [asked, called, max_eq_right hnow, if_pos hnow, add_zero, Option.toList_some]
      exact ⟨l, h.queue, h.rest_pos, h.head_nonneg, h.idle_pos, perm_concat h.perm _,
        forall_mem_append.mpr ⟨h.called_le, forall_mem_singleton.mpr le_rfl⟩⟩
    · have hpos : 0 < jiffies := lt_of_not_ge hnow
      have hlt : total (entries s.timerList l) < jiffies := by
        rw [← h.queue.lastPending_eq]
        exact hlatest hpos
      cases hfree : freeEntry s with
      | none => simp [hfree] at hstep
      | some p =>
        obtain ⟨timers, hsift, hqueue, hplaced⟩ := h.queue.add hfree jiffies f
        simp only [hfree, hsift] at hstep
        cases hstep
        rw [place_of_total_lt h.rest_pos hlt] at hplaced
        have hnew : 0 < jiffies - total (entries s.timerList l) := sub_pos.mpr hlt
        simp only [asked, called, max_eq_left hpos.le, if_neg hnow, Option.toList_some,
          Option.toList_none, append_nil]
        refine ⟨p :: l, hqueue, ?_, ?_, ?_, ?_, h.called_le⟩ <;> simp only [hplaced]
        · have hrest := h.rest_pos
          cases hold : entries s.timerList l with
          | nil => simp
          | cons =>
            rw [hold] at hrest hnew
            exact forall_mem_append.mpr ⟨hrest, forall_mem_singleton.mpr hnew⟩
        · exact forall_mem_append.mpr ⟨h.head_nonneg, forall_mem_singleton.mpr hnew.le⟩
        · exact fun hidle ↦
            forall_mem_append.mpr ⟨h.idle_pos hidle, forall_mem_singleton.mpr hnew⟩
        · rw [due_concat, add_assoc, add_sub_cancel, ← append_assoc]
          exact h.perm.append_right _

theorem Kept.tick (h : Kept asks calls s l) (hstep : step s .tick = .next t) :
    Kept asks calls t l := by
  simp only [step] at hstep
  split_ifs at hstep with hfiring
  cases hstep
  have hidle : s.firing = false := Bool.eq_false_of_not_eq_true hfiring
  have hlater : ∀ x ∈ calls, x.1 ≤ s.ticks + 1 :=
    fun x hx ↦ (h.called_le x hx).trans (Int.le_add_one le_rfl)
  cases l with
  | nil =>
    have hsame : countDown s = s.timerList := by simp [countDown, h.queue.nextTimer_eq_none]
    exact ⟨⟨h.queue.chain, by simpa [hsame] using h.queue.used⟩, by simp, by simp, by simp,
      h.perm, hlater⟩
  | cons p l =>
    obtain ⟨hqueue, hentries⟩ := h.queue.tick
    have hhead := h.idle_pos hidle _ mem_cons_self
    refine ⟨hqueue, ?_, ?_, by simp, ?_, hlater⟩ <;> rw [hentries]
    · exact h.rest_pos
    · exact forall_mem_cons.mpr ⟨Int.le_sub_one_of_lt hhead, (forall_mem_cons.mp h.head_nonneg).2⟩
    · rw [due_tick s.ticks ((s.timerList p).jiffies, (s.timerList p).fn)]
      exact h.perm

theorem ready_eq_some (hp : ready s = some p) :
    s.nextTimer = some p ∧ (s.timerList p).jiffies ≤ 0 := by
  simpa [ready, Option.filter_eq_some_iff] using hp

theorem Kept.fire (h : Kept asks calls s l) (hstep : step s .fire = .next t) :
    ∃ l', Kept asks (calls ++ (called s .fire).toList) t l' := by
  obtain ⟨hfiring, hstep⟩ := guard_eq_next.mp hstep
  cases hready : ready s with
  | none => simp [hready] at hstep
  | some p =>
    obtain ⟨hnext, hdue⟩ := ready_eq_some hready
    obtain ⟨l, rfl, -⟩ := (hnext ▸ h.queue.chain).eq_cons
    obtain ⟨hqueue, hentries⟩ := h.queue.fire
    obtain ⟨f, hf⟩ := Option.ne_none_iff_exists'.mp ((h.queue.used p).mpr mem_cons_self)
    simp only [hready, Timers.fire, hf] at hstep
    cases hstep
    -- An entry that is due has been counted down to zero, so now is the tick it was asked for.
    have hzero : (s.timerList p).jiffies = 0 := hdue.antisymm (h.head_nonneg _ mem_cons_self)
    have hperm := h.perm
    simp only [entries_cons, due, hzero, hf, add_zero] at hperm
    simp only [called, hready, hf, Option.map_some, Option.toList_some]
    have hrest := h.rest_pos
    refine ⟨l, hqueue, ?_, ?_, ?_, ?_,
      forall_mem_append.mpr ⟨h.called_le, forall_mem_singleton.mpr le_rfl⟩⟩ <;>
      simp only [hentries]
    · exact fun x hx ↦ hrest x (mem_of_mem_tail hx)
    · exact fun x hx ↦ (hrest x hx).le
    · exact fun _ ↦ hrest
    · rwa [append_assoc, singleton_append]

theorem Kept.done (h : Kept asks calls s l) (hstep : step s .done = .next t) :
    Kept asks calls t l := by
  obtain ⟨hdone, ⟨⟩⟩ := guard_eq_next.mp hstep
  refine ⟨⟨h.queue.chain, h.queue.used⟩, h.rest_pos, h.head_nonneg, fun _ ↦ ?_, h.perm,
    h.called_le⟩
  cases l with
  | nil => simp
  | cons p l =>
    have hhead : 0 < (s.timerList p).jiffies := by
      have hready := hdone.2
      simpa [ready, h.queue.nextTimer_eq_some] using hready
    exact forall_mem_cons.mpr ⟨hhead, h.rest_pos⟩

theorem kept_of_run (hlatest : Meets step Latest initial es) (hrun : run step initial es = some s) :
    ∃ l, Kept (trace step asked initial es) (trace step called initial es) s l := by
  refine run_induction_of_meets
    (I := fun es s ↦ ∃ l, Kept (trace step asked initial es) (trace step called initial es) s l)
    ⟨[], kept_initial⟩ ?_ hlatest hrun
  intro es s e t hrun ⟨l, h⟩ hlatest hstep
  rw [trace_concat asked hrun hstep, trace_concat called hrun hstep]
  cases e with
  | add => exact h.add hlatest hstep
  | tick => exact ⟨l, by simpa [asked, called] using h.tick hstep⟩
  | fire => simpa [asked] using h.fire hstep
  | done => exact ⟨l, by simpa [asked, called] using h.done hstep⟩

/-! ### The result -/

/-- With a free entry in the table, `add_timer` returns. -/
theorem Queue.add_returns (h : Queue s l) (hp : (s.timerList p).fn = none) (jiffies : ℤ)
    (fn : Option F) : ∃ t, step s (.add jiffies fn) = .next t := by
  cases fn with
  | none => exact ⟨s, rfl⟩
  | some f =>
    by_cases hnow : jiffies ≤ 0
    · exact ⟨s, by simp [step, addTimer, hnow]⟩
    · have hfree : freeEntry s ≠ none := by
        intro hnone
        have hall := find?_eq_none.mp hnone p (mem_finRange p)
        simp [hp] at hall
      obtain ⟨q, hq⟩ := Option.ne_none_iff_exists'.mp hfree
      obtain ⟨timers, hsift, -, -⟩ := h.add hq jiffies f
      refine ⟨{ s with timerList := timers, nextTimer := some q }, ?_⟩
      simp only [step, addTimer, if_neg hnow, hq, hsift]

/-- `do_timer` always goes on: it starts, runs a timer, or ends. -/
theorem Queue.timer_returns (h : Queue s l) :
    ∃ e ∈ [Event.tick, Event.fire, Event.done], ∃ t, step s e = .next t := by
  by_cases hfiring : s.firing = true
  · cases hready : ready s with
    | none => exact ⟨.done, by simp, _, if_pos ⟨hfiring, hready⟩⟩
    | some p =>
      obtain ⟨l, rfl, -⟩ := ((ready_eq_some hready).1 ▸ h.chain).eq_cons
      obtain ⟨f, hf⟩ := Option.ne_none_iff_exists'.mp ((h.used p).mpr mem_cons_self)
      exact ⟨.fire, by simp, _, by simp only [step, if_pos hfiring, hready, Timers.fire, hf]; rfl⟩
  · exact ⟨.tick, by simp, _, if_neg hfiring⟩

variable [DecidableEq F]

/-- When each timer is due later than all pending ones, a function has been called on a tick that
is over as often as `add_timer` was asked to call it on that tick, and has not been called for a
tick to come; `add_timer` returns as long as an entry is free, and `do_timer` goes on. -/
theorem timersOnTime {es : List (Event F)} {s : State F} (hlatest : Meets step Latest initial es)
    (hrun : run step initial es = some s) :
    (s.firing = false → ∀ f n, (trace step called initial es).count (n, some f) =
      if n ≤ s.ticks then (trace step asked initial es).count (n, some f) else 0) ∧
    (∀ p, (s.timerList p).fn = none → ∀ jiffies fn, ∃ t, step s (.add jiffies fn) = .next t) ∧
    ∃ e ∈ [Event.tick, Event.fire, Event.done], ∃ t, step s e = .next t := by
  obtain ⟨l, h⟩ := kept_of_run hlatest hrun
  refine ⟨fun hidle f n ↦ ?_, fun p hp ↦ h.queue.add_returns hp, h.queue.timer_returns⟩
  split_ifs with hn
  · have hpending : (due s.ticks (entries s.timerList l)).count (n, some f) = 0 := by
      rw [count_eq_zero]
      exact fun hmem ↦ absurd hn (not_le.mpr (lt_of_mem_due (h.idle_pos hidle) hmem))
    rw [h.perm.count_eq, count_append, hpending, add_zero]
  · rw [count_eq_zero]
    exact fun hmem ↦ hn (h.called_le _ hmem)

/-- A timer for one tick, one for three that is added next, and three ticks: both are called on
their ticks. -/
theorem timersOnTime_inOrder :
    (trace step called initial
      ([.add 1 (some true), .add 3 (some false), .tick, .fire, .done, .tick, .done, .tick, .fire,
        .done] : List (Event Bool))).count (3, some false) = 1 :=
  ((timersOnTime (by decide +kernel) (run_get (by decide +kernel))).1 (by decide +kernel) _ _).trans
    (by decide +kernel)

/-- A timer for two ticks, then one for one tick: the first is not called on the second tick. -/
theorem delayedTimer :
    ∃ s, run step initial
        ([.add 2 (some true), .add 1 (some false), .tick, .fire, .done, .tick, .done] :
          List (Event Bool)) = some s ∧ s.firing = false ∧ s.ticks = 2 ∧
      (trace step asked initial
        ([.add 2 (some true), .add 1 (some false), .tick, .fire, .done, .tick, .done] :
          List (Event Bool))).count (2, some true) = 1 ∧
      (trace step called initial
        ([.add 2 (some true), .add 1 (some false), .tick, .fire, .done, .tick, .done] :
          List (Event Bool))).count (2, some true) = 0 := by
  decide +kernel

end EasyKernels.Linux.Timers
