import Mathlib.Data.Int.Notation
import EasyKernels.Lib.Runs

/-!
# The request queue of a block device

`add_request` and `end_request` of the block drivers on one queue. The head of the queue is the
request that the driver works on; a new request goes behind it, at the place that `stops` finds, for
a paging request (`bh` is `none`) by one test and for a buffer request by the elevator's.

The comment on `add_request` has paging requests before all others and in the order in which they
come (`PagingFirst`). A paging request is always placed so (`pagingFirst_paging`). A buffer request
is not: the elevator compares it with the paging requests as with others. `swapOrder_iff` says when
the order holds along a run: exactly when every buffer request meets no paging request in the queue
that the elevator puts it before (`Behind`). `readOvertakesSwap` is a run with a read that goes
before a page on its way out, and a second page that then goes before the first.

Among buffer requests the elevator keeps at most two ordered runs (`elevator`).

Scope. `stamp` is not in the source: it numbers the requests in the order in which they are added.
The table of requests, and what a request does to its buffer and to the tasks that wait, are left
out.
-/

set_option autoImplicit false

namespace EasyKernels.Linux.RequestQueue

open Nat Option List Lib.Runs

/-! ### The queue -/

/-- `struct request`; `bh` is the buffer, and `none` for a paging request. -/
structure Request where
  dev : ℤ
  cmd : ℤ
  sector : ℕ
  bh : Option ℕ
  stamp : ℕ
  deriving DecidableEq, Repr

/-- `IN_ORDER`. -/
def inOrder (a b : Request) : Bool :=
  a.cmd < b.cmd ∨ a.cmd = b.cmd ∧ (a.dev < b.dev ∨ a.dev = b.dev ∧ a.sector < b.sector)

/-- The elevator puts a buffer request between two others. -/
def between (req tmp next : Request) : Bool :=
  (inOrder tmp req || !inOrder tmp next) && inOrder req next

/-- The loop of `add_request` stops at `tmp`, before `next`. -/
def stops (req tmp next : Request) : Bool :=
  if req.bh = none then next.bh.isSome else between req tmp next

/-- The loop of `add_request`: the requests after `tmp`, with the new one. -/
def place (req : Request) : Request → List Request → List Request
  | _, [] => [req]
  | tmp, next :: rest =>
    if stops req tmp next then req :: next :: rest else next :: place req next rest

/-- `add_request`. -/
def addRequest (queue : List Request) (req : Request) : List Request :=
  match queue with
  | [] => [req]
  | current :: rest => current :: place req current rest

/-- A queue, and the number of requests that have been added to it. -/
structure State where
  queue : List Request
  added : ℕ

def initial : State where
  queue := []
  added := 0

inductive Event
  | add (dev cmd : ℤ) (sector : ℕ) (bh : Option ℕ)
  | endRequest
  deriving DecidableEq, Repr

/-- The request that an event adds. -/
def request (s : State) (dev cmd : ℤ) (sector : ℕ) (bh : Option ℕ) : Request :=
  { dev := dev, cmd := cmd, sector := sector, bh := bh, stamp := s.added }

/-- `end_request` takes the current request, which the driver has. -/
def step (s : State) : Event → Outcome Empty State
  | .add dev cmd sector bh =>
    .next { queue := addRequest s.queue (request s dev cmd sector bh), added := s.added + 1 }
  | .endRequest =>
    match s.queue with
    | [] => .blocked
    | _ :: rest => .next { s with queue := rest }

/-! ### Where a request is placed -/

/-- What comes before a paging request is a paging request that was added earlier. -/
def Precedes (a b : Request) : Prop := b.bh = none → a.bh = none ∧ a.stamp < b.stamp

instance (a b : Request) : Decidable (Precedes a b) :=
  inferInstanceAs (Decidable (_ → _))

/-- Behind the current request, paging requests come before all others and in the order in which
they were added. -/
def PagingFirst (queue : List Request) : Prop := queue.tail.Pairwise Precedes

instance (queue : List Request) : Decidable (PagingFirst queue) :=
  inferInstanceAs (Decidable (queue.tail.Pairwise Precedes))

/-- No paging request in the queue is one that the elevator puts the buffer request before. -/
def Behind (queue : List Request) (req : Request) : Prop :=
  ∀ p ∈ queue.zip queue.tail, p.2.bh = none → between req p.1 p.2 = false

section Place

variable {req tmp : Request} {rest : List Request}

theorem place_perm : place req tmp rest ~ req :: rest := by
  induction rest generalizing tmp with
  | nil => rfl
  | cons next rest ih =>
    unfold place
    split_ifs
    · rfl
    · exact (ih.cons next).trans (.swap req next rest)

theorem mem_place {a : Request} : a ∈ place req tmp rest ↔ a = req ∨ a ∈ rest :=
  place_perm.mem_iff.trans mem_cons

/-- A paging request goes behind the paging requests that are in the queue. -/
theorem place_paging (hreq : req.bh = none) (hnew : ∀ a ∈ rest, a.stamp < req.stamp)
    (hfirst : rest.Pairwise Precedes) : (place req tmp rest).Pairwise Precedes := by
  induction rest generalizing tmp with
  | nil => exact pairwise_singleton _ _
  | cons next rest ih =>
    obtain ⟨hnext, hrest⟩ := pairwise_cons.mp hfirst
    unfold place
    split_ifs with hstop
    · -- The next request is for a buffer, and so are those after it.
      rw [stops, if_pos hreq] at hstop
      have hbuffer : next.bh ≠ none := isSome_iff_ne_none.mp hstop
      refine pairwise_cons.mpr ⟨fun a ha hpaging ↦ ?_, hfirst⟩
      rcases mem_cons.mp ha with rfl | ha
      · exact absurd hpaging hbuffer
      · exact absurd (hnext a ha hpaging).1 hbuffer
    · rw [stops, if_pos hreq, Bool.not_eq_true, isSome_eq_false_iff,
        isNone_iff_eq_none] at hstop
      refine pairwise_cons.mpr
        ⟨fun a ha hpaging ↦ ?_, ih (fun a ha ↦ hnew a (mem_cons_of_mem _ ha)) hrest⟩
      rcases mem_place.mp ha with rfl | ha
      · exact ⟨hstop, hnew next mem_cons_self⟩
      · exact hnext a ha hpaging

/-- A buffer request stays behind the paging requests exactly when the elevator puts it before none
of them. -/
theorem place_buffer (hreq : req.bh ≠ none) (hfirst : rest.Pairwise Precedes) :
    (place req tmp rest).Pairwise Precedes ↔
      ∀ p ∈ (tmp :: rest).zip rest, p.2.bh = none → between req p.1 p.2 = false := by
  induction rest generalizing tmp with
  | nil => simp [place]
  | cons next rest ih =>
    obtain ⟨hnext, hrest⟩ := pairwise_cons.mp hfirst
    have hstops : stops req tmp next = between req tmp next := if_neg hreq
    rw [zip_cons_cons, forall_mem_cons]
    unfold place
    rw [hstops]
    split_ifs with hstop
    · rw [pairwise_cons]
      constructor
      · rintro ⟨hbefore, -⟩
        -- No request behind the new one is a paging request.
        have hbuffer : ∀ a ∈ next :: rest, a.bh ≠ none := fun a ha hpaging ↦
          hreq (hbefore a ha hpaging).1
        refine ⟨fun hpaging ↦ absurd hpaging (hbuffer next mem_cons_self), fun p hp hpaging ↦ ?_⟩
        exact absurd hpaging (hbuffer p.2 (mem_cons_of_mem _ (of_mem_zip hp).2))
      · rintro ⟨hhead, -⟩
        have hbuffer : next.bh ≠ none := fun hpaging ↦ by
          rw [hhead hpaging] at hstop
          exact Bool.noConfusion hstop
        refine ⟨fun a ha hpaging ↦ ?_, hfirst⟩
        rcases mem_cons.mp ha with rfl | ha
        · exact absurd hpaging hbuffer
        · exact absurd (hnext a ha hpaging).1 hbuffer
    · rw [Bool.not_eq_true] at hstop
      rw [pairwise_cons, ih hrest]
      constructor
      · rintro ⟨-, hbehind⟩
        exact ⟨fun _ ↦ hstop, hbehind⟩
      · rintro ⟨-, hbehind⟩
        refine ⟨fun a ha hpaging ↦ ?_, hbehind⟩
        rcases mem_place.mp ha with rfl | ha
        · exact absurd hpaging hreq
        · exact hnext a ha hpaging

end Place

/-! ### Runs -/

/-- The condition on the queue before an event. -/
def Clear (s : State) : Event → Prop
  | .add dev cmd sector (some b) => Behind s.queue (request s dev cmd sector (some b))
  | _ => True

/-- The requests in the queue were added before the next one. -/
def Numbered (s : State) : Prop := ∀ a ∈ s.queue, a.stamp < s.added

section Runs

variable {s t : State} {e : Event}

theorem addRequest_perm {req : Request} {queue : List Request} :
    addRequest queue req ~ req :: queue := by
  cases queue with
  | nil => rfl
  | cons current rest => exact (place_perm.cons current).trans (.swap req current rest)

/-- `end_request` takes the first request. -/
theorem step_endRequest (hstep : step s .endRequest = .next t) :
    ∃ current, s.queue = current :: t.queue ∧ t.added = s.added := by
  unfold step at hstep
  cases hqueue : s.queue with
  | nil =>
    rw [hqueue] at hstep
    exact nomatch hstep
  | cons current =>
    rw [hqueue] at hstep
    cases hstep
    exact ⟨current, rfl, rfl⟩

theorem step_numbered (h : Numbered s) (hstep : step s e = .next t) : Numbered t := by
  cases e with
  | add =>
    cases hstep
    intro a ha
    rcases mem_cons.mp (addRequest_perm.mem_iff.mp ha) with rfl | ha
    · exact lt_succ_self _
    · exact lt_succ_of_lt (h a ha)
  | endRequest =>
    obtain ⟨current, hqueue, hadded⟩ := step_endRequest hstep
    intro a ha
    rw [hadded]
    exact h a (hqueue ▸ mem_cons_of_mem _ ha)

/-- A paging request keeps the order. -/
theorem pagingFirst_paging (h : Numbered s) (hfirst : PagingFirst s.queue) (dev cmd : ℤ)
    (sector : ℕ) : PagingFirst (addRequest s.queue (request s dev cmd sector none)) := by
  cases hqueue : s.queue with
  | nil => exact List.Pairwise.nil
  | cons =>
    rw [PagingFirst, hqueue] at hfirst
    exact place_paging rfl (fun a ha ↦ h a (hqueue ▸ mem_cons_of_mem _ ha)) hfirst

/-- A buffer request keeps the order exactly when it stays behind the paging requests. -/
theorem pagingFirst_buffer (hfirst : PagingFirst s.queue) {req : Request} (hreq : req.bh ≠ none) :
    PagingFirst (addRequest s.queue req) ↔ Behind s.queue req := by
  unfold PagingFirst addRequest Behind
  cases hqueue : s.queue with
  | nil => simp
  | cons =>
    rw [PagingFirst, hqueue] at hfirst
    exact place_buffer hreq hfirst

/-- One step keeps the order exactly when it meets the condition. -/
theorem step_pagingFirst_iff (h : Numbered s) (hfirst : PagingFirst s.queue)
    (hstep : step s e = .next t) : PagingFirst t.queue ↔ Clear s e := by
  cases e with
  | add dev cmd sector bh =>
    cases hstep
    cases bh with
    | none => exact iff_of_true (pagingFirst_paging h hfirst dev cmd sector) trivial
    | some b => exact pagingFirst_buffer hfirst (some_ne_none b)
  | endRequest =>
    refine iff_of_true ?_ trivial
    obtain ⟨current, hqueue, -⟩ := step_endRequest hstep
    rw [PagingFirst, hqueue] at hfirst
    exact hfirst.sublist (tail_sublist t.queue)

end Runs

/-- The order holds after every event of a run exactly when no buffer request is put before a paging
request. -/
theorem swapOrder_iff (es : List Event) :
    (∀ before after t, es = before ++ after → run step initial before = some t →
      PagingFirst t.queue) ↔ Meets step Clear initial es := by
  have hnumbered : ∀ {es : List Event} {t : State}, run step initial es = some t → Numbered t :=
    fun hrun ↦ run_invariant (I := Numbered) (fun a ha ↦ absurd ha not_mem_nil)
      (fun u e t hu hstep ↦ step_numbered hu hstep) hrun
  constructor
  · intro hfirst before e after u hsplit hu
    cases e with
    | endRequest => trivial
    | add dev cmd sector bh =>
      have hnow := hfirst before _ u hsplit hu
      have hnext := hfirst (before ++ [.add dev cmd sector bh]) after _
        (by rw [hsplit, append_assoc, singleton_append])
        (run_concat_eq_some.mpr ⟨u, hu, rfl⟩)
      exact (step_pagingFirst_iff (hnumbered hu) hnow rfl).mp hnext
  · intro hclear before after t hsplit ht
    rw [hsplit] at hclear
    have hstart : PagingFirst initial.queue := List.Pairwise.nil
    refine run_induction_of_meets (I := fun _ s ↦ PagingFirst s.queue) hstart ?_ hclear.of_append ht
    intro es u e v hu hfirst hclear hstep
    exact (step_pagingFirst_iff (hnumbered hu) hfirst hstep).mpr hclear

/-- A read goes before a page that is written out, and the next page then goes before that one. -/
theorem readOvertakesSwap :
    (∃ t, run step initial [.add 3 0 2 (some 0), .add 3 1 800 none, .add 3 0 6 (some 1)] = some t ∧
      t.queue.map Request.bh = [some 0, some 1, none] ∧ ¬ PagingFirst t.queue) ∧
    ∃ t, run step initial [.add 3 0 2 (some 0), .add 3 1 800 none, .add 3 0 6 (some 1),
        .add 3 1 808 none] = some t ∧
      t.queue.map (fun a ↦ (a.bh, a.sector)) =
        [(some 0, 2), (none, 808), (some 1, 6), (none, 800)] ∧ ¬ PagingFirst t.queue := by
  exact ⟨⟨_, rfl, by decide, by decide⟩, ⟨_, rfl, by decide, by decide⟩⟩

/-! ### The elevator -/

/-- What `IN_ORDER` compares. -/
def Request.key (a : Request) : ℤ × ℤ × ℕ := (a.cmd, a.dev, a.sector)

/-- The number of neighbours in a queue that are out of order. -/
def descents (queue : List Request) : ℕ :=
  (queue.zip queue.tail).countP fun p ↦ !inOrder p.1 p.2

/-- The event adds no request, or one for a buffer that differs from those in the queue. -/
def Fresh (s : State) : Event → Prop
  | .add dev cmd sector bh => bh.isSome ∧ (cmd, dev, sector) ∉ s.queue.map Request.key
  | .endRequest => True

instance (s : State) (e : Event) : Decidable (Fresh s e) :=
  match e with
  | .add _ _ _ _ => inferInstanceAs (Decidable (_ ∧ _))
  | .endRequest => .isTrue trivial

section Elevator

variable {req tmp : Request} {rest : List Request}

theorem descents_cons_cons (a b : Request) (rest : List Request) :
    descents (a :: b :: rest) = descents (b :: rest) + if inOrder a b then 0 else 1 := by
  cases h : inOrder a b <;> simp [descents, h]

theorem inOrder_of_not {a b : Request} (hne : a.key ≠ b.key) (h : inOrder a b = false) :
    inOrder b a = true := by
  simp only [Request.key, ne_eq, Prod.mk.injEq] at hne
  simp only [inOrder, decide_eq_false_iff_not, decide_eq_true_eq] at h ⊢
  omega

/-- A request that follows the first of an ordered queue is put in its place. -/
theorem descents_place_eq_zero (hreq : req.bh ≠ none) (hne : ∀ a ∈ rest, req.key ≠ a.key)
    (htmp : inOrder tmp req = true) (h : descents (tmp :: rest) = 0) :
    descents (tmp :: place req tmp rest) = 0 := by
  induction rest generalizing tmp with
  | nil => simp [place, descents, htmp]
  | cons next rest ih =>
    rw [descents_cons_cons] at h
    unfold place
    rw [stops, if_neg hreq, between, htmp]
    cases hnext : inOrder req next with
    | true =>
      simp only [Bool.true_or, Bool.true_and, if_true]
      rw [descents_cons_cons, descents_cons_cons, htmp, hnext]
      simp only [if_true]
      omega
    | false =>
      have hlast := ih (fun a ha ↦ hne a (mem_cons_of_mem _ ha))
        (inOrder_of_not (hne next mem_cons_self) hnext) (by omega)
      simp only [Bool.and_false, Bool.false_eq_true, if_false]
      rw [descents_cons_cons, hlast]
      omega

/-- A queue of two ordered runs stays one. -/
theorem descents_place (hreq : req.bh ≠ none) (hne : ∀ a ∈ rest, req.key ≠ a.key)
    (h : descents (tmp :: rest) ≤ 1) : descents (tmp :: place req tmp rest) ≤ 1 := by
  induction rest generalizing tmp with
  | nil =>
    rw [place, descents_cons_cons, show descents [req] = 0 from rfl]
    split_ifs <;> omega
  | cons next rest ih =>
    have hrest : ∀ a ∈ rest, req.key ≠ a.key := fun a ha ↦ hne a (mem_cons_of_mem _ ha)
    rw [descents_cons_cons] at h
    unfold place
    rw [stops, if_neg hreq]
    split_ifs with hstop
    · rw [between, Bool.and_eq_true, Bool.or_eq_true, Bool.not_eq_true'] at hstop
      rw [descents_cons_cons, descents_cons_cons, hstop.2]
      rcases hstop.1 with hbefore | hdescent
      · rw [hbefore]
        simp only [if_true]
        omega
      · rw [hdescent] at h
        simp only [Bool.false_eq_true, if_false, if_true] at h ⊢
        split_ifs <;> omega
    · rw [descents_cons_cons]
      cases horder : inOrder tmp next with
      | true => exact ih hrest (by omega)
      | false =>
        -- The new request belongs behind `next`, where the second run begins.
        have hnext : inOrder req next = false := by simpa [between, horder] using hstop
        rw [horder] at h
        simp only [Bool.false_eq_true, if_false] at h ⊢
        have hlast := descents_place_eq_zero hreq hrest
          (inOrder_of_not (hne next mem_cons_self) hnext) (by omega)
        omega

end Elevator

/-- In a queue of buffer requests that differ, at most one is followed by one that belongs before
it. A new request leaves the first one where it is, and is added to those that are there. -/
theorem elevator {es : List Event} {t : State} (hrun : run step initial es = some t)
    (hfresh : Meets step Fresh initial es) :
    descents t.queue ≤ 1 ∧ t.queue.Nodup ∧ ∀ req, addRequest t.queue req ~ req :: t.queue ∧
      ∀ current ∈ t.queue.head?, current ∈ (addRequest t.queue req).head? := by
  have hkeep : descents t.queue ≤ 1 ∧ (t.queue.map Request.key).Nodup := by
    refine run_induction_of_meets
      (I := fun _ s ↦ descents s.queue ≤ 1 ∧ (s.queue.map Request.key).Nodup)
      ⟨zero_le _, nodup_nil⟩ ?_ hfresh hrun
    rintro es s e t - ⟨hruns, hnodup⟩ hfresh hstep
    cases e with
    | add =>
      cases hstep
      obtain ⟨hbh, hnew⟩ := hfresh
      refine ⟨?_, (addRequest_perm.map _).nodup_iff.mpr (nodup_cons.mpr ⟨hnew, hnodup⟩)⟩
      cases hqueue : s.queue with
      | nil => exact zero_le _
      | cons =>
        rw [hqueue] at hruns hnew
        refine descents_place (isSome_iff_ne_none.mp hbh) (fun a ha heq ↦ hnew ?_) hruns
        exact mem_map.mpr ⟨a, mem_cons_of_mem _ ha, heq.symm⟩
    | endRequest =>
      obtain ⟨current, hqueue, -⟩ := step_endRequest hstep
      rw [hqueue] at hruns hnodup
      refine ⟨?_, (nodup_cons.mp hnodup).2⟩
      cases hrest : t.queue with
      | nil => exact zero_le _
      | cons =>
        rw [hrest, descents_cons_cons] at hruns
        exact le_of_add_right_le hruns
  refine ⟨hkeep.1, Pairwise.of_map _ (fun a b hne heq ↦ hne (congrArg _ heq)) hkeep.2, fun req ↦ ?_⟩
  refine ⟨addRequest_perm, fun current hcurrent ↦ ?_⟩
  cases hqueue : t.queue with
  | nil => rw [hqueue] at hcurrent; exact nomatch hcurrent
  | cons => rwa [hqueue] at hcurrent

/-- A read, a write and two more reads. -/
def reads : List Event :=
  [.add 3 0 4 (some 0), .add 3 1 2 (some 1), .add 3 0 6 (some 2), .add 3 0 2 (some 3)]

/-- A second read that belongs before the current one begins the second run. -/
theorem elevator_reads : ∃ t, run step initial reads = some t ∧
    t.queue.map Request.sector = [4, 6, 2, 2] ∧ descents t.queue ≤ 1 :=
  ⟨_, rfl, by decide, (elevator (show run step initial reads = _ from rfl) (by decide)).1⟩

end EasyKernels.Linux.RequestQueue
