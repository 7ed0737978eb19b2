import EasyKernels.Lib.References
import EasyKernels.Linux.Buffers

/-!
# The buffer cache of Linux gives every block one buffer

`getblk` sleeps at four places and starts again whenever what it knew may have changed.
`bufferIdentity` says that this is enough, for any number of tasks: no two buffers have the same
block, a buffer that is in use, locked or dirty is not given to another block, and the buffer that
`getblk` returns carries the block that was asked for and is counted.

Two widths matter. `getblk` compares an `int dev` with the 16 bits of `b_dev`, so device numbers
have to fit (`ShortDev`); `twoBuffers` has a device number that does not, and two buffers with the
same block. `b_count` has 8 bits, and nothing keeps it from overflowing; `countOverflows` has 256
calls of `getblk` for one block, after which `b_count` is 0. The last part of the theorem is for
runs without an overflow (`Room`).

`Effect` says what a step does to the blocks, the counts and the uses of the buffers. `Chains` is
the invariant of the hash queues, which gives uniqueness; `Counted` says that `b_count` is the
number of uses.
-/

set_option autoImplicit false

namespace EasyKernels.Linux.Buffers

open List Function Lib.Runs Lib.References

variable {n : ℕ} {τ : Type}

/-! ### What a step does -/

/-- The buffer that a task uses in the middle of a call. -/
def Pos.claim : Pos n → Option (Held n)
  | .hashWait r b | .readLock r b | .readRequest r b | .readWait r b => some ⟨b, r.dev, r.block⟩
  | .release x => some x
  | _ => none

/-- The request that a task is in. -/
def Pos.request : Pos n → Option Request
  | .find r | .hashWait r _ | .asleep r | .freeWait r _ | .sync r _ _ _ _ | .syncWait r _ _ _ _
  | .syncRequest r _ _ _ _ | .readLock r _ | .readRequest r _ | .readWait r _ => some r
  | .user | .release _ => none

/-- The buffers that a task uses. -/
def State.claims (s : State n τ) (p : τ) : List (Held n) := s.held p ++ (s.pos p).claim.toList

/-- The same block and the same count. -/
structure Buf.Same (v w : Buf) : Prop where
  dev : v.dev = w.dev
  block : v.block = w.block
  count : v.count = w.count

theorem Buf.Same.refl (v : Buf) : v.Same v := ⟨rfl, rfl, rfl⟩

/-- What a step does to the blocks and counts of the buffers, and to what the tasks use. -/
inductive Effect (s : State n τ) (e : Event n τ) (t : State n τ) : Prop
  | quiet (hhash : t.hash = s.hash) (hbuf : ∀ b, (t.buf b).Same (s.buf b))
      (hclaims : ∀ p, (t.claims p).Perm (s.claims p))
  /-- `get_hash_table` counts the task. -/
  | take (p : τ) (r : Request) (x : Held n) (he : e = .step p) (hpos : s.pos p = .find r)
      (hfind : s.findBuffer r.dev r.block = some x.buf)
      (hcarries : (s.buf x.buf).carries x.dev x.block) (hhash : t.hash = s.hash)
      (hbuf : t.buf = update s.buf x.buf
        { s.buf x.buf with count := (s.buf x.buf).count + 1 })
      (hself : (t.claims p).Perm (x :: s.claims p))
      (hothers : ∀ q, q ≠ p → (t.claims q).Perm (s.claims q))
  /-- The task is no longer counted. -/
  | drop (p : τ) (x : Held n) (hhash : t.hash = s.hash)
      (hbuf : t.buf = update s.buf x.buf
        { s.buf x.buf with count := (s.buf x.buf).count - 1 })
      (hself : (s.claims p).Perm (x :: t.claims p))
      (hothers : ∀ q, q ≠ p → (s.claims q).Perm (t.claims q))
  /-- `getblk` gives a buffer to another block. -/
  | assign (p : τ) (r : Request) (b : Fin n) (hrequest : (s.pos p).request = some r)
      (hcount : (s.buf b).count = 0) (hlock : (s.buf b).lock = false)
      (hdirt : (s.buf b).dirt = false) (hfind : s.findBuffer r.dev r.block = none)
      (hhash : t.hash = (s.assign b r.dev r.block).hash)
      (hbuf : t.buf = (s.assign b r.dev r.block).buf)
      (hself : (t.claims p).Perm (⟨b, r.dev, r.block⟩ :: s.claims p))
      (hothers : ∀ q, q ≠ p → (t.claims q).Perm (s.claims q))

section Steps

variable {driver : UInt16 → Bool} {s : State n τ} {e : Event n τ}

variable {p : τ} {b : Fin n} {pos : Pos n} {r : Request} {t : State n τ}

open State

theorem claims_of_none (hclaim : (s.pos p).claim = none) : s.claims p = s.held p := by
  rw [claims, hclaim]
  exact append_nil _

theorem claims_perm_of_claim {x : Held n} (hclaim : (s.pos p).claim = some x) :
    (s.claims p).Perm (x :: s.held p) := by
  rw [claims, hclaim]
  exact perm_append_singleton _ _

theorem findBuffer_eq_some {dev block : UInt32} (h : s.findBuffer dev block = some b) :
    (s.buf b).carries dev block := by
  simpa using find?_some h

theorem same_setBuf {v : Buf} (hv : v.Same (s.buf b)) (c : Fin n) :
    ((s.setBuf b v).buf c).Same (s.buf c) := by
  simp only [setBuf, update_apply]
  split_ifs with hc
  · rw [hc]
    exact hv
  · exact .refl _

variable [DecidableEq τ]

theorem claims_setPos_self (p : τ) (pos : Pos n) :
    (s.setPos p pos).claims p = s.held p ++ pos.claim.toList := by
  simp only [claims, setPos, update_self]

theorem claims_setPos_of_ne {q : τ} (hq : q ≠ p) (pos : Pos n) :
    (s.setPos p pos).claims q = s.claims q := by
  simp only [claims, setPos, update_of_ne hq]

/-- A task goes to another place where it uses the same buffer. -/
theorem claims_setPos_perm (hclaim : pos.claim = (s.pos p).claim) (q : τ) :
    ((s.setPos p pos).claims q).Perm (s.claims q) := by
  by_cases hq : q = p
  · rw [hq, claims_setPos_self, hclaim]
    exact .refl _
  · rw [claims_setPos_of_ne hq]

/-- A task moves, and nothing else. -/
theorem Effect.moves {old : Pos n} (hpos : s.pos p = old) (hclaim : pos.claim = old.claim) :
    Effect s e (s.setPos p pos) :=
  .quiet rfl (fun _ ↦ .refl _) (claims_setPos_perm (hpos ▸ hclaim))

/-- A task moves, and the flags of a buffer change. -/
theorem Effect.flags {v : Buf} {old : Pos n} (hv : v.Same (s.buf b)) (hpos : s.pos p = old)
    (hclaim : pos.claim = old.claim) : Effect s e ((s.setBuf b v).setPos p pos) :=
  .quiet rfl (same_setBuf hv) (claims_setPos_perm (s := s.setBuf b v) (hpos ▸ hclaim))

/-- A task moves and is no longer counted. -/
theorem Effect.drops {x : Held n} (hclaim : (s.pos p).claim = some x)
    (hpos : pos.claim = none) : Effect s e ((s.setBuf x.buf
      { s.buf x.buf with count := (s.buf x.buf).count - 1 }).setPos p pos) := by
  refine .drop p x rfl rfl ?_ fun q hq ↦ .of_eq (claims_setPos_of_ne hq _).symm
  rw [claims_setPos_self, hpos, Option.toList_none, append_nil]
  exact claims_perm_of_claim hclaim

/-- A task goes on with its request, or has finished it. -/
def Continues (s t : State n τ) (p : τ) : Prop :=
  ∃ pos : Pos n, t.pos = update s.pos p pos ∧
    (pos.request = (s.pos p).request ∨ pos.request = none)

theorem Continues.on {old : Pos n} (hpos : s.pos p = old) (ht : t.pos = update s.pos p pos)
    (hrequest : pos.request = old.request) : Continues s t p :=
  ⟨pos, ht, .inl (by rw [hpos, hrequest])⟩

theorem claims_give_self (p : τ) (r : Request) (b : Fin n) :
    (s.give p r b).claims p = ⟨b, r.dev, r.block⟩ :: s.held p := by
  simp only [claims, give, setPos, update_self, Pos.claim,
    Option.toList_none, append_nil]

theorem claims_give_of_ne {q : τ} (hq : q ≠ p) (r : Request) (b : Fin n) :
    (s.give p r b).claims q = s.claims q := by
  simp only [claims, give, setPos, update_of_ne hq]

/-- What the task uses after `get_hash_table` or `getblk` has returned a buffer. -/
theorem arrive_spec (driver : UInt16 → Bool) (p : τ) (r : Request) (b : Fin n) :
    (s.arrive driver p r b).buf = s.buf ∧ (s.arrive driver p r b).hash = s.hash ∧
      ((s.arrive driver p r b).claims p).Perm (⟨b, r.dev, r.block⟩ :: s.held p) ∧
      (∀ q, q ≠ p → (s.arrive driver p r b).claims q = s.claims q) ∧
      ((s.pos p).request = some r → Continues s (s.arrive driver p r b) p) := by
  have hgive := claims_give_self (s := s) p r b
  have hmove : ∀ {pos : Pos n}, pos.claim = some ⟨b, r.dev, r.block⟩ →
      ((s.setPos p pos).claims p).Perm (⟨b, r.dev, r.block⟩ :: s.held p) := by
    intro pos hpos
    rw [claims_setPos_self, hpos]
    exact perm_append_singleton _ _
  rw [arrive]
  split
  iterate 2
    exact ⟨rfl, rfl, .of_eq hgive, fun q hq ↦ claims_give_of_ne hq r b, fun _ ↦ ⟨_, rfl, .inr rfl⟩⟩
  · split_ifs
    · exact ⟨rfl, rfl, .of_eq hgive, fun q hq ↦ claims_give_of_ne hq r b,
        fun _ ↦ ⟨_, rfl, .inr rfl⟩⟩
    all_goals exact ⟨rfl, rfl, hmove rfl, fun q hq ↦ claims_setPos_of_ne hq _,
      fun hr ↦ ⟨_, rfl, .inl hr.symm⟩⟩

theorem find_effect (hpos : s.pos p = .find r) :
    Effect s (.step p) (s.find p r) ∧ Continues s (s.find p r) p := by
  rw [find]
  split
  · rename_i b hb
    refine ⟨.take p r ⟨b, r.dev, r.block⟩ rfl hpos hb (findBuffer_eq_some hb) rfl rfl ?_ ?_,
      .on hpos rfl rfl⟩
    · rw [claims_setPos_self, claims_of_none (by rw [hpos]; rfl)]
      exact perm_append_singleton _ _
    · exact fun q hq ↦ .of_eq (claims_setPos_of_ne hq _)
  · split_ifs
    · exact ⟨.moves hpos rfl, _, rfl, .inr rfl⟩
    · split <;> exact ⟨.moves hpos rfl, .on hpos rfl rfl⟩

theorem found_effect (hpos : s.pos p = .hashWait r b) :
    Effect s e (s.found driver p r b) ∧ Continues s (s.found driver p r b) p := by
  have hclaim : (s.pos p).claim = some ⟨b, r.dev, r.block⟩ := by rw [hpos]; rfl
  rw [found]
  split_ifs
  · obtain ⟨hbuf, hhash, hself, hothers, hcontinues⟩ := arrive_spec (s := s) driver p r b
    refine ⟨.quiet hhash (fun c ↦ hbuf ▸ .refl _) fun q ↦ ?_, hcontinues (by rw [hpos]; rfl)⟩
    by_cases hq : q = p
    · rw [hq]
      exact hself.trans (claims_perm_of_claim hclaim).symm
    · rw [hothers q hq]
  · exact ⟨.drops hclaim rfl, .on hpos rfl rfl⟩

theorem reuse_effect (hpos : s.pos p = .freeWait r b) (hlock : (s.buf b).lock = false) :
    Effect s e (s.reuse driver p r b) ∧ Continues s (s.reuse driver p r b) p := by
  have hrequest : (s.pos p).request = some r := by rw [hpos]; rfl
  rw [reuse]
  split_ifs with hcount hdirt hfind
  iterate 3 exact ⟨.moves hpos rfl, .on hpos rfl rfl⟩
  · obtain ⟨hbuf, hhash, hself, hothers, hcontinues⟩ :=
      arrive_spec (s := s.assign b r.dev r.block) driver p r b
    refine ⟨.assign p r b hrequest (by simpa using hcount) hlock (by simpa using hdirt)
      (by simpa using hfind) hhash hbuf ?_ fun q hq ↦ .of_eq (hothers q hq), hcontinues hrequest⟩
    rw [claims_of_none (s := s) (by rw [hpos]; rfl)]
    exact hself

theorem stepTask_effect (h : stepTask driver s p = .next t) :
    Effect s (.step p) t ∧ Continues s t p := by
  simp only [stepTask] at h
  split at h
  · cases h
  · rename_i r hpos
    cases h
    exact find_effect hpos
  · rename_i r hpos
    cases h
    exact ⟨.moves hpos rfl, .on hpos rfl rfl⟩
  · rename_i r b hpos
    split_ifs at h
    cases h
    exact found_effect hpos
  · rename_i r b hpos
    split_ifs at h with hlock
    cases h
    exact reuse_effect hpos (by simpa using hlock)
  · rename_i r b dev second i hpos
    cases h
    rw [syncNext]
    split_ifs <;> exact ⟨.moves hpos rfl, .on hpos rfl rfl⟩
  · rename_i r b dev second i hpos
    split_ifs at h
    cases h
    rw [syncWrite]
    split_ifs
    · exact ⟨.flags ⟨rfl, rfl, rfl⟩ hpos rfl, .on hpos rfl rfl⟩
    · exact ⟨.moves hpos rfl, .on hpos rfl rfl⟩
  · rename_i r b dev second i hpos
    cases h
    exact ⟨.flags ⟨rfl, rfl, rfl⟩ hpos rfl, .on hpos rfl rfl⟩
  · rename_i r b hpos
    split_ifs at h <;> cases h
    · exact ⟨.moves hpos rfl, .on hpos rfl rfl⟩
    · exact ⟨.flags ⟨rfl, rfl, rfl⟩ hpos rfl, .on hpos rfl rfl⟩
  · rename_i r b hpos
    cases h
    exact ⟨.flags ⟨rfl, rfl, rfl⟩ hpos rfl, .on hpos rfl rfl⟩
  · rename_i r b hpos
    split_ifs at h <;> cases h
    · refine ⟨.quiet rfl (fun c ↦ .refl _) fun q ↦ ?_, _, rfl, .inr rfl⟩
      by_cases hq : q = p
      · rw [hq, claims_give_self]
        exact (claims_perm_of_claim (by rw [hpos]; rfl)).symm
      · rw [claims_give_of_ne hq]
    · exact ⟨.moves hpos rfl, _, rfl, .inr rfl⟩
  · rename_i x hpos
    split_ifs at h
    cases h
    exact ⟨.drops (by rw [hpos]; rfl) rfl, _, rfl, .inr rfl⟩

theorem step_effect (h : step driver s e = .next t) : Effect s e t := by
  cases e with simp only [step] at h
  | call =>
    split at h <;> cases h
    rename_i hpos
    exact .moves hpos rfl
  | brelse p x =>
    (repeat' split at h) <;> cases h
    rename_i hpos hx
    refine .quiet rfl (fun b ↦ .refl _) fun q ↦ ?_
    by_cases hq : q = p
    · simp only [hq, claims, setPos, update_self, hpos, Pos.claim,
        Option.toList_some, Option.toList_none, append_nil]
      exact (perm_append_singleton _ _).trans (perm_cons_erase hx).symm
    · simp only [claims, setPos, update_of_ne hq]
      exact .refl _
  | write =>
    (repeat' split at h) <;> cases h
    exact .quiet rfl (same_setBuf ⟨rfl, rfl, rfl⟩) fun q ↦ .refl _
  | done =>
    obtain ⟨hqueued, ⟨⟩⟩ := guard_eq_next.mp h
    exact .quiet rfl (same_setBuf ⟨rfl, rfl, rfl⟩) fun q ↦ .refl _
  | step p => exact (stepTask_effect h).1

/-- A task is in the request that it was in, or in the one that it has just called. -/
theorem step_request (h : step driver s e = .next t) (hr : (t.pos p).request = some r) :
    (s.pos p).request = some r ∨ e = .call p r := by
  have hcontinues : ∀ {q}, Continues s t q → (s.pos p).request = some r := by
    rintro q ⟨pos, hpos, hpos' | hpos'⟩
    all_goals
      rw [hpos, update_apply] at hr
      split_ifs at hr with hp
    · rw [hp, ← hpos', hr]
    · exact hr
    · rw [hpos'] at hr
      cases hr
    · exact hr
  cases e with simp only [step] at h
  | call =>
    split at h <;> cases h
    simp only [setPos, update_apply] at hr
    split_ifs at hr with hp
    · cases hr
      exact .inr (by rw [hp])
    · exact .inl hr
  | brelse =>
    (repeat' split at h) <;> cases h
    exact .inl (hcontinues ⟨_, rfl, .inr rfl⟩)
  | write | done =>
    (repeat' split at h) <;> cases h
    exact .inl hr
  | step q => exact .inl (hcontinues (stepTask_effect h).2)

end Steps

/-! ### The hash queues -/

/-- A hash queue has the buffers of its blocks, and no two buffers have the same block. -/
structure Chains (s : State n τ) : Prop where
  mem : ∀ h b, b ∈ s.hash h ↔
    (s.buf b).dev ≠ 0 ∧ hashfn (s.buf b).dev.toUInt32 (s.buf b).block = h
  nodup : ∀ h, (s.hash h).Nodup
  unique : ∀ b c, (s.buf b).dev ≠ 0 → (s.buf b).dev = (s.buf c).dev →
    (s.buf b).block = (s.buf c).block → b = c

/-- The device number fits into `b_dev`. -/
def Request.short (r : Request) : Prop := r.dev.toUInt16.toUInt32 = r.dev

instance (r : Request) : Decidable r.short := inferInstanceAs (Decidable (_ = _))

section Chains

variable {s t : State n τ}

theorem Chains.congr (h : Chains s) (hhash : t.hash = s.hash)
    (hdev : ∀ b, (t.buf b).dev = (s.buf b).dev) (hblock : ∀ b, (t.buf b).block = (s.buf b).block) :
    Chains t := by
  refine ⟨fun k b ↦ ?_, fun k ↦ ?_, fun b c ↦ ?_⟩
  · rw [hhash, hdev, hblock]
    exact h.mem k b
  · rw [hhash]
    exact h.nodup k
  · rw [hdev, hdev, hblock, hblock]
    exact h.unique b c

theorem Chains.same (h : Chains s) (hhash : t.hash = s.hash)
    (hbuf : ∀ b, (t.buf b).Same (s.buf b)) : Chains t :=
  h.congr hhash (fun b ↦ (hbuf b).dev) fun b ↦ (hbuf b).block

/-- Where `find_buffer` finds nothing, no buffer has the block. -/
theorem Chains.not_carries (h : Chains s) {dev block : UInt32}
    (hfind : s.findBuffer dev block = none) {b : Fin n} (hdev : (s.buf b).dev ≠ 0) :
    ¬ (s.buf b).carries dev block := by
  intro hcarries
  have hmem : b ∈ s.hash (hashfn dev block) := by
    rw [h.mem]
    refine ⟨hdev, ?_⟩
    rw [hcarries.1, hcarries.2]
  have hnone := find?_eq_none.mp hfind b hmem
  simp only [decide_eq_true_eq] at hnone
  exact hnone hcarries

theorem assign_buf (b : Fin n) (dev block : UInt32) : (s.assign b dev block).buf =
    update s.buf b { s.buf b with
      dev := dev.toUInt16, block := block, count := 1, dirt := false, uptodate := false } := by
  simp only [State.assign, State.insertIntoQueues, State.setBuf, State.removeFromQueues,
    update_self, update_idem]

/-- The hash queues without a buffer. -/
theorem Chains.mem_remove (h : Chains s) (b c : Fin n) (k : UInt32) :
    c ∈ (s.removeFromQueues b).hash k ↔ c ≠ b ∧ c ∈ s.hash k := by
  simp only [State.removeFromQueues, update_apply]
  split_ifs with hk
  · rw [(h.nodup _).mem_erase_iff, hk]
  · refine ⟨fun hc ↦ ⟨fun hcb ↦ hk ?_, hc⟩, fun hc ↦ hc.2⟩
    rw [hcb, h.mem] at hc
    exact hc.2.symm

theorem assign_hash (b : Fin n) (dev block : UInt32) : (s.assign b dev block).hash =
    let removed := (s.removeFromQueues b).hash
    if dev.toUInt16 = 0 then removed
    else update removed (hashfn dev.toUInt16.toUInt32 block)
      (b :: removed (hashfn dev.toUInt16.toUInt32 block)) := by
  simp only [State.assign, State.insertIntoQueues, State.setBuf, State.removeFromQueues,
    update_self]

/-- A buffer is given to a block that no buffer has. -/
theorem Chains.assign (h : Chains s) {b : Fin n} {r : Request} (hshort : r.short)
    (hfind : s.findBuffer r.dev r.block = none) (hhash : t.hash = (s.assign b r.dev r.block).hash)
    (hbuf : t.buf = (s.assign b r.dev r.block).buf) : Chains t := by
  have hself : (t.buf b).dev = r.dev.toUInt16 ∧ (t.buf b).block = r.block := by
    rw [hbuf, assign_buf, update_self]
    exact ⟨rfl, rfl⟩
  have hother : ∀ {c}, c ≠ b → t.buf c = s.buf c := fun hc ↦ by
    rw [hbuf, assign_buf, update_of_ne hc]
  have hmem := h.mem_remove b
  have hnodup : ∀ k, ((s.removeFromQueues b).hash k).Nodup := by
    intro k
    simp only [State.removeFromQueues, update_apply]
    split_ifs
    · exact (h.nodup _).erase b
    · exact h.nodup k
  rw [assign_hash] at hhash
  -- nobody else has the block
  have hnew : ∀ {c}, (t.buf c).dev ≠ 0 → (t.buf c).dev = r.dev.toUInt16 →
      (t.buf c).block = r.block → c = b := by
    intro c hdev heq hblock
    by_contra hc
    rw [hother hc] at hdev heq hblock
    refine h.not_carries hfind hdev ⟨?_, hblock⟩
    rw [heq]
    exact hshort
  refine ⟨fun k c ↦ ?_, fun k ↦ ?_, fun c d hdev heq hblock ↦ ?_⟩
  · by_cases hc : c = b
    · rw [hc, hself.1, hself.2, hhash]
      split_ifs with hzero
      · simp [hmem, hzero]
      · rw [update_apply]
        split_ifs with hk
        · simp [hzero, hk]
        · rw [hmem]
          exact iff_of_false (fun hb ↦ hb.1 rfl) fun hb ↦ hk hb.2.symm
    · rw [hother hc, ← h.mem, hhash]
      split_ifs with hzero
      · simp [hmem, hc]
      · rw [update_apply]
        split_ifs with hk
        · simp [hmem, hc, hk]
        · simp [hmem, hc]
  · rw [hhash]
    split_ifs with hzero
    · exact hnodup k
    · rw [update_apply]
      split_ifs
      · exact nodup_cons.mpr ⟨by simp [hmem], hnodup _⟩
      · exact hnodup k
  · by_cases hc : c = b
    · rw [hc] at hdev heq hblock ⊢
      exact (hnew (heq ▸ hdev) (heq ▸ hself.1) (hblock ▸ hself.2)).symm
    · by_cases hd : d = b
      · rw [hd] at heq hblock ⊢
        exact hnew hdev (heq.trans hself.1) (hblock.trans hself.2)
      · rw [hother hc] at hdev
        rw [hother hc, hother hd] at heq hblock
        exact h.unique c d hdev heq hblock

/-- A count changes, and no block. -/
theorem keeps_of_count {c : Fin n} {k : UInt8}
    (hbuf : t.buf = update s.buf c { s.buf c with count := k }) (b : Fin n) :
    (t.buf b).dev = (s.buf b).dev ∧ (t.buf b).block = (s.buf b).block := by
  rw [hbuf, update_apply]
  split_ifs with hb
  · rw [hb]
    exact ⟨rfl, rfl⟩
  · exact ⟨rfl, rfl⟩

theorem Chains.effect {e : Event n τ} (h : Chains s)
    (hshort : ∀ p r, (s.pos p).request = some r → r.short) (heffect : Effect s e t) : Chains t := by
  cases heffect with
  | quiet hhash hbuf _ => exact h.same hhash hbuf
  | take p r x he hpos hfind hcarries hhash hbuf | drop p x hhash hbuf =>
    exact h.congr hhash (fun b ↦ (keeps_of_count hbuf b).1) fun b ↦ (keeps_of_count hbuf b).2
  | assign p r b hrequest hz hlock hdirt hfind hhash hbuf =>
    exact h.assign (hshort p r hrequest) hfind hhash hbuf

end Chains

/-! ### The counts -/

/-- `b_count` is the number of uses, and who uses a buffer finds its block in it. -/
structure Counted [Fintype τ] (s : State n τ) : Prop where
  count : ∀ b, (s.buf b).count.toNat = refs Held.buf s.claims b
  carries : ∀ p, ∀ x ∈ s.claims p, (s.buf x.buf).carries x.dev x.block

section Counted

variable [Fintype τ] {s t : State n τ}

variable {p : τ} {x : Held n}

section

variable (h : Counted s)

include h

theorem Counted.pos (hx : x ∈ s.claims p) : 0 < (s.buf x.buf).count.toNat := by
  rw [h.count]
  exact refs_pos Held.buf hx

omit [Fintype τ] h in
theorem carries_of_count {c b : Fin n} {k : UInt8} {dev block : UInt32}
    (hbuf : t.buf = update s.buf c { s.buf c with count := k })
    (hold : (s.buf b).carries dev block) : (t.buf b).carries dev block :=
  ⟨(keeps_of_count hbuf b).1 ▸ hold.1, (keeps_of_count hbuf b).2 ▸ hold.2⟩

theorem Counted.quiet (hbuf : ∀ b, (t.buf b).Same (s.buf b))
    (hclaims : ∀ p, (t.claims p).Perm (s.claims p)) : Counted t := by
  constructor
  · intro b
    rw [(hbuf b).count, h.count, refs_congr Held.buf hclaims]
  · intro p x hx
    have hold := h.carries p x ((hclaims p).mem_iff.mp hx)
    exact ⟨(hbuf x.buf).dev ▸ hold.1, (hbuf x.buf).block ▸ hold.2⟩

variable [DecidableEq τ]

/-- A task uses one more buffer. -/
theorem Counted.add (hcount : ∀ b, (t.buf b).count.toNat =
      (s.buf b).count.toNat + if x.buf = b then 1 else 0)
    (hold : ∀ q, ∀ y ∈ s.claims q, (t.buf y.buf).carries y.dev y.block)
    (hnew : (t.buf x.buf).carries x.dev x.block) (hself : (t.claims p).Perm (x :: s.claims p))
    (hothers : ∀ q, q ≠ p → (t.claims q).Perm (s.claims q)) : Counted t := by
  constructor
  · intro b
    rw [refs_cons Held.buf hself hothers, ← h.count, hcount]
  · intro q y hy
    by_cases hq : q = p
    · rw [hq, hself.mem_iff] at hy
      rcases mem_cons.mp hy with rfl | hy
      · exact hnew
      · exact hold p y hy
    · exact hold q y ((hothers q hq).mem_iff.mp hy)

theorem Counted.take (hroom : (s.buf x.buf).count ≠ 255)
    (hcarries : (s.buf x.buf).carries x.dev x.block) (hbuf : t.buf = update s.buf x.buf
      { s.buf x.buf with count := (s.buf x.buf).count + 1 })
    (hself : (t.claims p).Perm (x :: s.claims p))
    (hothers : ∀ q, q ≠ p → (t.claims q).Perm (s.claims q)) : Counted t := by
  refine h.add (fun b ↦ ?_) (fun q y hy ↦ carries_of_count hbuf (h.carries q y hy))
    (carries_of_count hbuf hcarries) hself hothers
  rw [hbuf, update_apply]
  by_cases hb : b = x.buf
  · rw [if_pos hb, if_pos hb.symm, hb]
    exact byte_add_one hroom
  · rw [if_neg hb, if_neg (Ne.symm hb), Nat.add_zero]

theorem Counted.drop (hbuf : t.buf = update s.buf x.buf
      { s.buf x.buf with count := (s.buf x.buf).count - 1 })
    (hself : (s.claims p).Perm (x :: t.claims p))
    (hothers : ∀ q, q ≠ p → (s.claims q).Perm (t.claims q)) : Counted t := by
  have hpos := h.pos (hself.mem_iff.mpr mem_cons_self)
  constructor
  · intro b
    have hrefs := refs_cons Held.buf hself hothers b
    rw [← h.count] at hrefs
    rw [hbuf, update_apply]
    by_cases hb : b = x.buf
    · rw [if_pos hb.symm, hb] at hrefs
      rw [if_pos hb, hb]
      have hpred := byte_sub_one hpos
      simp only
      omega
    · rw [if_neg hb]
      rw [if_neg (Ne.symm hb)] at hrefs
      exact hrefs
  · intro q y hy
    have hold : y ∈ s.claims q := by
      by_cases hq : q = p
      · rw [hq] at hy ⊢
        exact hself.mem_iff.mpr (mem_cons_of_mem x hy)
      · exact (hothers q hq).mem_iff.mpr hy
    exact carries_of_count hbuf (h.carries q y hold)

theorem Counted.assign {r : Request} {b : Fin n} (hshort : r.short) (hzero : (s.buf b).count = 0)
    (hbuf : t.buf = (s.assign b r.dev r.block).buf)
    (hself : (t.claims p).Perm (⟨b, r.dev, r.block⟩ :: s.claims p))
    (hothers : ∀ q, q ≠ p → (t.claims q).Perm (s.claims q)) : Counted t := by
  have hother : ∀ {c}, c ≠ b → t.buf c = s.buf c := fun hc ↦ by
    rw [hbuf, assign_buf, update_of_ne hc]
  have hunused : ∀ {q x}, x ∈ s.claims q → x.buf ≠ b := by
    intro q x hx hb
    have hpos := h.pos hx
    rw [hb, hzero] at hpos
    exact absurd hpos (by decide)
  have hnew : (t.buf b).carries r.dev r.block := by
    rw [hbuf, assign_buf, update_self]
    exact ⟨hshort, rfl⟩
  refine h.add (fun c ↦ ?_) (fun q y hy ↦ ?_) hnew hself hothers
  · by_cases hc : c = b
    · rw [hc, if_pos rfl, hzero, hbuf, assign_buf, update_self]
      rfl
    · rw [if_neg (Ne.symm hc), hother hc, Nat.add_zero]
  · rw [hother (hunused hy)]
    exact h.carries q y hy

end

end Counted

/-! ### The result -/

/-- The device number of a call fits into `b_dev`. -/
def ShortDev (_ : State n τ) : Event n τ → Prop
  | .call _ r => r.short
  | _ => True

variable (s : State n τ)

instance : (e : Event n τ) → Decidable (ShortDev s e)
  | .call _ r => inferInstanceAs (Decidable r.short)
  | .brelse _ _ | .write _ _ | .step _ | .done _ _ => .isTrue trivial

/-- The buffer whose `b_count` the next step of a task increments. -/
def counts (p : τ) : Option (Fin n) :=
  match s.pos p with
  | .find r => s.findBuffer r.dev r.block
  | _ => none

/-- `b_count` does not overflow. -/
def Room : Event n τ → Prop
  | .step p => ∀ b ∈ counts s p, (s.buf b).count ≠ 255
  | _ => True

instance : (e : Event n τ) → Decidable (Room s e)
  | .step p => inferInstanceAs (Decidable (∀ b ∈ counts s p, (s.buf b).count ≠ 255))
  | .call _ _ | .brelse _ _ | .write _ _ | .done _ _ => .isTrue trivial

section Result

variable [Fintype τ] [DecidableEq τ] {driver : UInt16 → Bool} {s t : State n τ} {e : Event n τ}

theorem Counted.effect (h : Counted s) (hroom : Room s e)
    (hshort : ∀ p r, (s.pos p).request = some r → r.short) (heffect : Effect s e t) :
    Counted t := by
  cases heffect with
  | quiet hhash hbuf hclaims => exact h.quiet hbuf hclaims
  | take p r x he hpos hfind hcarries hhash hbuf hself hothers =>
    refine h.take ?_ hcarries hbuf hself hothers
    rw [he] at hroom
    refine hroom x.buf ?_
    simp only [counts, hpos]
    exact hfind
  | drop p x hhash hbuf hself hothers => exact h.drop hbuf hself hothers
  | assign p r b hrequest hzero hlock hdirt hfind hhash hbuf hself hothers =>
    exact h.assign (hshort p r hrequest) hzero hbuf hself hothers

omit [Fintype τ] [DecidableEq τ] in
/-- A buffer in use, locked or dirty keeps its block. -/
theorem Effect.keeps (heffect : Effect s e t) {b : Fin n}
    (hb : (s.buf b).count ≠ 0 ∨ (s.buf b).lock = true ∨ (s.buf b).dirt = true) :
    (t.buf b).dev = (s.buf b).dev ∧ (t.buf b).block = (s.buf b).block := by
  cases heffect with
  | quiet hhash hbuf => exact ⟨(hbuf b).dev, (hbuf b).block⟩
  | take p r x he hpos hfind hcarries hhash hbuf | drop p x hhash hbuf =>
    exact keeps_of_count hbuf b
  | assign p r c hrequest hzero hlock hdirt hfind hhash hbuf =>
    by_cases hbc : b = c
    · rw [hbc, hzero, hlock, hdirt] at hb
      simp at hb
    · rw [hbuf, assign_buf, update_of_ne hbc]
      exact ⟨rfl, rfl⟩

omit [Fintype τ] [DecidableEq τ] in
theorem chains_initial : Chains (initial n τ) := by
  refine ⟨fun h b ↦ iff_of_false (by simp [initial]) (by simp [initial]), fun h ↦ .nil, ?_⟩
  intro b c hdev
  exact (hdev rfl).elim

omit [DecidableEq τ] in
theorem counted_initial : Counted (initial n τ) where
  count b := by simp [initial, refs, State.claims, Pos.claim]
  carries p x hx := by simp [initial, State.claims, Pos.claim] at hx

theorem invariants_of_run {es : List (Event n τ)}
    (hshort : Meets (step driver) ShortDev (initial n τ) es)
    (hrun : run (step driver) (initial n τ) es = some s) :
    (Chains s ∧ ∀ p r, (s.pos p).request = some r → r.short) ∧
      (Meets (step driver) Room (initial n τ) es → Counted s) := by
  refine run_induction_of_meets (I := fun es s ↦
    (Chains s ∧ ∀ p r, (s.pos p).request = some r → r.short) ∧
      (Meets (step driver) Room (initial n τ) es → Counted s))
    ⟨⟨chains_initial, fun _ _ ↦ nofun⟩, fun _ ↦ counted_initial⟩ ?_ hshort hrun
  rintro es u e t hu ⟨⟨hchains, hrequests⟩, hcounted⟩ hdev hstep
  have heffect := step_effect hstep
  refine ⟨⟨hchains.effect hrequests heffect, fun p r hr ↦ ?_⟩, fun hroom ↦ ?_⟩
  · rcases step_request hstep hr with hold | rfl
    · exact hrequests p r hold
    · exact hdev
  · exact (hcounted hroom.of_append).effect (hroom.last hu) hrequests heffect

/-- What holds of the buffers: no two have the same block, and none is given to another block while
it is in use, locked or dirty. -/
structure Identity (driver : UInt16 → Bool) (s : State n τ) : Prop where
  unique : ∀ b c, (s.buf b).dev ≠ 0 → (s.buf b).dev = (s.buf c).dev →
    (s.buf b).block = (s.buf c).block → b = c
  keeps : ∀ e t b, step driver s e = .next t →
    (s.buf b).count ≠ 0 ∨ (s.buf b).lock = true ∨ (s.buf b).dirt = true →
    (t.buf b).dev = (s.buf b).dev ∧ (t.buf b).block = (s.buf b).block

/-- In every run with device numbers of 16 bits, a block has at most one buffer, and a buffer that
is in use, locked or dirty stays with its block. If no `b_count` overflows, a buffer that `getblk`,
`get_hash_table` or `bread` has returned carries the block that was asked for and has a positive
`b_count`, until it is released. -/
theorem bufferIdentity {es : List (Event n τ)}
    (hshort : Meets (step driver) ShortDev (initial n τ) es)
    (hrun : run (step driver) (initial n τ) es = some s) :
    Identity driver s ∧ (Meets (step driver) Room (initial n τ) es →
      ∀ p, ∀ x ∈ s.held p,
        (s.buf x.buf).carries x.dev x.block ∧ 1 ≤ (s.buf x.buf).count.toNat) := by
  obtain ⟨⟨hchains, -⟩, hcounted⟩ := invariants_of_run hshort hrun
  refine ⟨⟨hchains.unique, fun e t b hstep hb ↦ (step_effect hstep).keeps hb⟩,
    fun hroom p x hx ↦ ?_⟩
  have hclaim : x ∈ s.claims p := mem_append_left _ hx
  exact ⟨(hcounted hroom).carries p x hclaim, (hcounted hroom).pos hclaim⟩

end Result

/-- Two tasks ask for the same block. -/
theorem bufferIdentity_twoTasks : ∃ (es : List (Event 2 (Fin 2))) (s : State 2 (Fin 2)),
    run (step fun _ ↦ true) (initial 2 (Fin 2)) es = some s ∧
      s.held 0 = [⟨0, 769, 5⟩] ∧ s.held 1 = [⟨0, 769, 5⟩] ∧ Identity (fun _ ↦ true) s ∧
      1 ≤ (s.buf 0).count.toNat :=
  ⟨[.call 0 ⟨.getblk, 769, 5⟩, .call 1 ⟨.getblk, 769, 5⟩, .step 0, .step 1, .step 0, .step 1,
    .step 1, .step 1], _, run_get (by decide +kernel), by decide +kernel, by decide +kernel,
    (bufferIdentity (by decide +kernel) (run_get _)).1,
    ((bufferIdentity (by decide +kernel) (run_get _)).2 (by decide +kernel) 0 ⟨0, 769, 5⟩
      (by decide +kernel)).2⟩

/-- The buffer of a block is asked for 256 times. Its `b_count` is 0 again. -/
theorem countOverflows : ∃ (es : List (Event 1 Unit)) (s : State 1 Unit) (x : Held 1),
    run (step fun _ ↦ true) (initial 1 Unit) es = some s ∧ x ∈ s.held () ∧
      (s.buf x.buf).carries x.dev x.block ∧ (s.buf x.buf).count = 0 :=
  ⟨(replicate 256 [.call () ⟨.getblk, 769, 5⟩, .step (), .step ()]).flatten, _, ⟨0, 769, 5⟩,
    run_get (by decide +kernel), by decide +kernel⟩

/-- A block of device 65537 is asked for twice, one call after the other. `b_dev` is 1 and is never
equal to the number asked for, so the block gets two buffers. -/
theorem twoBuffers : ∃ (es : List (Event 2 Unit)) (s : State 2 Unit),
    run (step fun _ ↦ true) (initial 2 Unit) es = some s ∧ (s.buf 0).dev = 1 ∧
      (s.buf 0).dev = (s.buf 1).dev ∧ (s.buf 0).block = (s.buf 1).block :=
  ⟨(replicate 2 [.call () ⟨.getblk, 65537, 5⟩, .step (), .step ()]).flatten, by decide +kernel⟩

end EasyKernels.Linux.Buffers
