import EasyKernels.Lib.References
import EasyKernels.Linux.Inodes

/-!
# An inode is in the table of Linux once, unless a stale number is looked up

Between the reading of the number of a directory entry and the search of `iget` a task may sleep,
and the file may be unlinked and its inode freed. `iget` then reads a free inode into the table.
The next `new_inode` finds the number free and uses it in a second slot. Likewise a task may wait
in `iget` for an inode in the table whose last link is being removed; if it takes the inode while
the remover is in `truncate`, `free_inode` finds a count of 2 and panics (`staleNumber`).

`Fresh` is the condition that this does not happen: what `iget` reads into its slot has its bit
set, and what it takes from the table has links. In a run that meets it an inode is in the table
once, and `free_inode` does not panic because of a count (`inodeUnique`). The invariant `Good`
behind it says that `i_count` is the number of uses of a slot by the tasks; a task in `truncate` is
then the only one that uses its slot.

Scope. `Fresh` also says that `i_count`, an `unsigned short`, does not overflow.
-/

set_option autoImplicit false

namespace EasyKernels.Linux.Inodes

open List Function Lib.Runs Lib.References

variable {ν τ : Type}

/-! ### What the tasks use -/

/-- The slot that is used during `write_inode` or `read_inode`. -/
def After.claim (k : Slot) : After → List Slot
  | .iput | .iget => [k]
  | .empty _ | .sync => []

/-- The slots that a task uses in the middle of a call. -/
def Pos.claim : Pos → List Slot
  | .search k _ | .found k _ _ | .alloc k _ | .read k | .iput k | .iputSync k | .iputAgain k
  | .truncate k | .unlink k => [k]
  | .spare k j => [k, j]
  | .write k after | .unlock k after => after.claim k
  | .user | .empty _ | .emptyWait _ _ => []

theorem Pos.user_claim : Pos.user.claim = [] := rfl

/-- The slots that a task uses. -/
def State.claims (s : State ν τ) (p : τ) : List Slot := s.held p ++ (s.pos p).claim

/-- The slot is empty and used by one task. -/
def Inode.spare (v : Inode) : Prop := v.dev = 0 ∧ v.count = 1

/-- The slot has an inode without links and is used by one task. -/
def Inode.doomed (v : Inode) : Prop := v.dev ≠ 0 ∧ v.nlinks = 0 ∧ v.count = 1

/-- What a task knows of the slots that it uses. -/
def Pos.ok (inode : Slot → Inode) : Pos → Prop
  | .search k _ | .found k _ _ | .spare k _ | .alloc k _ => (inode k).spare
  | .truncate k => (inode k).doomed
  | .iputSync k | .iputAgain k | .write k .iput | .unlock k .iput => (inode k).dev ≠ 0
  | _ => True

/-- The same inode and the same counts. -/
structure Inode.Same (v w : Inode) : Prop where
  dev : v.dev = w.dev
  num : v.num = w.num
  count : v.count = w.count
  nlinks : v.nlinks = w.nlinks

theorem Inode.Same.refl (v : Inode) : v.Same v := ⟨rfl, rfl, rfl, rfl⟩

/-- A slot still is what a task knows of it. -/
structure Inode.Still (v w : Inode) : Prop where
  dev : v.dev = w.dev
  spare : w.spare → v.spare
  doomed : w.doomed → v.doomed

theorem Inode.Same.still {v w : Inode} (h : v.Same w) : v.Still w where
  dev := h.dev
  spare hw := ⟨h.dev.trans hw.1, h.count.trans hw.2⟩
  doomed hw := ⟨h.dev ▸ hw.1, h.nlinks.trans hw.2.1, h.count.trans hw.2.2⟩

theorem Pos.ok.still {inode inode' : Slot → Inode} {pos : Pos} (h : pos.ok inode)
    (hstill : ∀ k ∈ pos.claim, (inode' k).Still (inode k)) : pos.ok inode' := by
  cases pos with
  | search k | found k | alloc k | spare k =>
    exact (hstill k mem_cons_self).spare h
  | truncate k => exact (hstill k mem_cons_self).doomed h
  | iputSync k | iputAgain k =>
    intro hdev
    exact h ((hstill k mem_cons_self).dev ▸ hdev)
  | write k after | unlock k after =>
    cases after with
    | iput =>
      intro hdev
      exact h ((hstill k mem_cons_self).dev ▸ hdev)
    | _ => trivial
  | _ => trivial

/-- Only one task moves. -/
structure Local (s t : State ν τ) (p : τ) : Prop where
  pos : ∀ q, q ≠ p → t.pos q = s.pos q
  held : ∀ q, q ≠ p → t.held q = s.held q

open State

theorem Local.claims {s t : State ν τ} {p q : τ} (h : Local s t p) (hq : q ≠ p) :
    t.claims q = s.claims q := by
  rw [State.claims, State.claims, h.pos q hq, h.held q hq]

theorem mem_claims {s : State ν τ} {p : τ} {pos : Pos} {k : Slot} (hpos : s.pos p = pos)
    (hk : k ∈ pos.claim) : k ∈ s.claims p :=
  mem_append_right _ (hpos ▸ hk)

/-! ### The invariant -/

/-- An inode is in the table once, and its number is in use; `i_count` is the number of uses. -/
structure Good [Fintype τ] (s : State ν τ) : Prop where
  unique : ∀ j k, (s.inode j).dev ≠ 0 → (s.inode j).dev = (s.inode k).dev →
    (s.inode j).num = (s.inode k).num → j = k
  bit : ∀ k, (s.inode k).dev ≠ 0 → s.imap (s.inode k).dev (s.inode k).num = true
  count : ∀ k, (s.inode k).count.toNat = refs id s.claims k
  ok : ∀ p, (s.pos p).ok s.inode

section Good

variable [Fintype τ] [DecidableEq τ] {s t : State ν τ} {p : τ}

section

variable (h : Good s)

include h

omit [DecidableEq τ] in
theorem Good.pos {k : Slot} (hk : k ∈ s.claims p) : 0 < (s.inode k).count.toNat := by
  rw [h.count]
  exact refs_pos id hk

/-- A slot with `i_count` 1 is used by one task. -/
theorem Good.alone {q : τ} {k : Slot} (hcount : (s.inode k).count = 1) (hk : k ∈ s.claims p)
    (hq : k ∈ s.claims q) : q = p := by
  refine eq_of_refs_le_one id hq hk rfl ?_
  rw [id, ← h.count, hcount]
  exact le_refl 1

variable {m : Slot} {v : Inode} {pos before : Pos} {held : List Slot}

/-- A task moves, and one slot changes. Assumes: its inode is in no other slot, and in use; its
count follows the uses of the task; the task is right in what it knows; and the slot is one that
the others do not use or still is what they know of it. -/
theorem Good.moves (hpos : s.pos p = before) (hposs : t.pos = update s.pos p pos)
    (hhelds : t.held = update s.held p held) (hinode : t.inode = update s.inode m v)
    (hunique : v.dev ≠ 0 → ∀ k, k ≠ m → ¬ ((s.inode k).dev = v.dev ∧ (s.inode k).num = v.num))
    (hbit : v.dev ≠ 0 → t.imap v.dev v.num = true)
    (hbits : ∀ k, k ≠ m → (s.inode k).dev ≠ 0 → t.imap (s.inode k).dev (s.inode k).num = true)
    (hcount : v.count.toNat + (s.held p ++ before.claim).count m =
      (s.inode m).count.toNat + (held ++ pos.claim).count m)
    (hcounts : ∀ k, k ≠ m → (held ++ pos.claim).count k = (s.held p ++ before.claim).count k)
    (hok : pos.ok t.inode) (hstill : ∀ q, q ≠ p → m ∈ s.claims q → v.Still (s.inode m)) :
    Good t := by
  have hlocal : Local s t p :=
    ⟨fun q hq ↦ by rw [hposs, update_of_ne hq], fun q hq ↦ by rw [hhelds, update_of_ne hq]⟩
  have hself : t.claims p = held ++ pos.claim := by
    rw [claims, hposs, hhelds, update_self, update_self]
  have hm : t.inode m = v := by rw [hinode, update_self]
  have hother : ∀ k, k ≠ m → t.inode k = s.inode k := fun k hk ↦ by
    rw [hinode, update_of_ne hk]
  refine ⟨fun j k hj hdev hnum ↦ ?_, fun k hk ↦ ?_, fun k ↦ ?_, fun q ↦ ?_⟩
  · by_cases hjm : j = m <;> by_cases hkm : k = m
    · rw [hjm, hkm]
    · rw [hjm, hm] at hj hdev hnum
      rw [hother k hkm] at hdev hnum
      exact (hunique hj k hkm ⟨hdev.symm, hnum.symm⟩).elim
    · rw [hother j hjm] at hj hdev hnum
      rw [hkm, hm] at hdev hnum
      exact (hunique (hdev ▸ hj) j hjm ⟨hdev, hnum⟩).elim
    · rw [hother j hjm] at hj hdev hnum
      rw [hother k hkm] at hdev hnum
      exact h.unique j k hj hdev hnum
  · by_cases hkm : k = m
    · rw [hkm, hm] at hk ⊢
      exact hbit hk
    · rw [hother k hkm] at hk ⊢
      exact hbits k hkm hk
  · have hcp : ∀ l : List Slot, l.countP (fun x ↦ id x = k) = l.count k := fun l ↦
      countP_congr fun x _ ↦ by simp
    have hmove := refs_move id (t := p) (f := s.claims) (g := t.claims)
      (fun q hq ↦ .of_eq (hlocal.claims hq)) k
    rw [hcp, hcp, hself, ← h.count, claims, hpos] at hmove
    by_cases hkm : k = m
    · rw [hkm] at hmove ⊢
      rw [hm]
      omega
    · have hsame := hcounts k hkm
      rw [hother k hkm]
      omega
  · by_cases hq : q = p
    · rwa [hq, hposs, update_self]
    · rw [hlocal.pos q hq]
      refine (h.ok q).still fun k hk ↦ ?_
      by_cases hkm : k = m
      · rw [hkm, hm]
        exact hstill q hq (hkm ▸ mem_append_right _ hk)
      · rw [hother k hkm]
        exact (Inode.Same.refl _).still

/-- The slot keeps its inode and its count. -/
theorem Good.keeps (hpos : s.pos p = before) (hposs : t.pos = update s.pos p pos)
    (hhelds : t.held = update s.held p held) (hinode : t.inode = update s.inode m v)
    (hdev : v.dev = (s.inode m).dev) (hnum : v.num = (s.inode m).num)
    (hcount : v.count = (s.inode m).count) (himap : t.imap = s.imap)
    (hclaims : (held ++ pos.claim).Perm (s.held p ++ before.claim)) (hok : pos.ok t.inode)
    (hstill : ∀ q, q ≠ p → m ∈ s.claims q → v.Still (s.inode m)) : Good t :=
  h.moves hpos hposs hhelds hinode
    (fun hne k hk heq ↦ hk (h.unique k m (heq.1 ▸ hne) (heq.1.trans hdev) (heq.2.trans hnum)))
    (fun hne ↦ by rw [himap, hdev, hnum]; exact h.bit m (hdev ▸ hne))
    (fun k _ hk ↦ himap ▸ h.bit k hk) (by rw [hcount, hclaims.count_eq])
    (fun k _ ↦ hclaims.count_eq k) hok hstill

/-- A slot that a task uses is still what the others know of it. -/
theorem Good.still_of_mem (hm : m ∈ s.claims p) (hdev : v.dev = (s.inode m).dev) (q : τ)
    (hq : q ≠ p) (hmq : m ∈ s.claims q) : v.Still (s.inode m) where
  dev := hdev
  spare hspare := (hq (h.alone hspare.2 hm hmq)).elim
  doomed hdoomed := (hq (h.alone hdoomed.2.2 hm hmq)).elim

/-- A slot that only the task uses. -/
theorem Good.still_of_alone (hpos : s.pos p = before) (hm : m ∈ before.claim)
    (hcount : (s.inode m).count = 1) (q : τ) (hq : q ≠ p) (hmq : m ∈ s.claims q) :
    v.Still (s.inode m) :=
  (hq (h.alone hcount (mem_claims hpos hm) hmq)).elim

/-- The slot becomes or stays empty. -/
theorem Good.empties (hpos : s.pos p = before) (hposs : t.pos = update s.pos p pos)
    (hhelds : t.held = update s.held p held) (hinode : t.inode = update s.inode m v)
    (hdev : v.dev = 0)
    (hbits : ∀ k, k ≠ m → (s.inode k).dev ≠ 0 → t.imap (s.inode k).dev (s.inode k).num = true)
    (hcount : v.count.toNat + (s.held p ++ before.claim).count m =
      (s.inode m).count.toNat + (held ++ pos.claim).count m)
    (hcounts : ∀ k, k ≠ m → (held ++ pos.claim).count k = (s.held p ++ before.claim).count k)
    (hok : pos.ok t.inode) (hstill : ∀ q, q ≠ p → m ∈ s.claims q → v.Still (s.inode m)) : Good t :=
  h.moves hpos hposs hhelds hinode (fun hne ↦ (hne hdev).elim) (fun hne ↦ (hne hdev).elim) hbits
    hcount hcounts hok hstill

/-- A task goes to another place, and the flags of a slot may change. -/
theorem Good.goes (hposs : t.pos = update s.pos p pos) (hhelds : t.held = s.held)
    (hinode : t.inode = update s.inode m v) (hsame : v.Same (s.inode m)) (himap : t.imap = s.imap)
    (hpos : s.pos p = before) (hclaim : pos.claim = before.claim) (hok : pos.ok s.inode) :
    Good t := by
  refine h.keeps hpos hposs (hhelds.trans (update_eq_self p s.held).symm) hinode hsame.dev hsame.num
    hsame.count himap (.of_eq (by rw [hclaim])) (hok.still fun k _ ↦ ?_) fun _ _ _ ↦ hsame.still
  rw [hinode, update_apply]
  split_ifs with hk
  · exact hk ▸ hsame.still
  · exact (Inode.Same.refl _).still

theorem Good.setPos (hpos : s.pos p = before) (hclaim : pos.claim = before.claim)
    (hok : pos.ok s.inode) : Good (s.setPos p pos) :=
  h.goes rfl rfl (update_eq_self 0 s.inode).symm (.refl _) rfl hpos hclaim hok

end

end Good

/-! ### The steps -/

variable (s : State ν τ)

/-- The inode that the next step of a task reads into its empty slot. -/
def fills (p : τ) : Option Ino :=
  match s.pos p with
  | .search _ ino => if s.findSlot ino = none then some ino else none
  | _ => none

/-- The slot that the next step of a task takes, having found the inode in it. -/
def takes (p : τ) : Option Slot :=
  match s.pos p with
  | .found _ j ino => if (s.inode j).lock = false ∧ (s.inode j).carries ino then some j else none
  | _ => none

/-- No stale number is looked up: the inode that is read from the disk is in use, and the one that
is taken from the table has links. Nor does `i_count` overflow. -/
def Fresh : Event ν τ → Prop
  | .step p =>
    (∀ ino ∈ fills s p, s.imap ino.dev ino.num = true) ∧
      ∀ j ∈ takes s p, (s.inode j).nlinks ≠ 0 ∧ (s.inode j).count ≠ 65535
  | _ => True

instance : (e : Event ν τ) → Decidable (Fresh s e)
  | .step _ => inferInstanceAs (Decidable (_ ∧ _))
  | .lookup _ _ | .newInode _ _ | .iput _ _ | .enter _ _ _ | .unlink _ _ _ | .touch _ _
  | .sync _ _ => .isTrue trivial

section Steps

variable [Fintype τ] [DecidableEq τ] {s t : State ν τ} {p : τ}

variable {pos : Pos} {k : Slot}

theorem Good.emptyNext (h : Good s) {w : Want} (hpos : s.pos p = .emptyWait k w) :
    Good (s.emptyNext p k w) := by
  rw [State.emptyNext]
  split_ifs with hdirt hdev hcount
  · exact h.setPos hpos rfl trivial
  · exact h.goes rfl rfl rfl ⟨rfl, rfl, rfl, rfl⟩ rfl hpos rfl trivial
  · exact h.setPos hpos rfl trivial
  · have hself : ((s.takeEmpty p k w).inode k).spare := by
      simp only [State.takeEmpty, State.setPos, State.setInode, update_self]
      exact ⟨rfl, rfl⟩
    have hzero : (s.inode k).count = 0 := not_not.mp hcount
    cases w
    all_goals
      refine h.empties hpos rfl (update_eq_self p s.held).symm rfl rfl (fun k _ ↦ h.bit k) ?_
        (fun j hj ↦ ?_) hself fun q _ hmq ↦ ?_
      · simp [hzero, Pos.claim, Nat.add_comm]
      · simp [Pos.claim, hj.symm]
      · have hpositive := h.pos hmq
        rw [hzero] at hpositive
        exact absurd hpositive (by decide)

omit [DecidableEq τ] in
theorem Good.ok_at (h : Good s) (hpos : s.pos p = pos) : pos.ok s.inode := hpos ▸ h.ok p

theorem Good.searchNext (h : Good s) {ino : Ino} (hpos : s.pos p = .search k ino)
    (hfresh : Fresh s (.step p)) : Good (s.searchNext p k ino) := by
  have hspare : (s.inode k).spare := h.ok_at hpos
  rw [State.searchNext]
  split
  · exact h.setPos hpos rfl hspare
  · rename_i hfind
    have hbit : s.imap ino.dev ino.num = true := by
      refine hfresh.1 ino ?_
      simp only [fills, hpos, if_pos hfind]
      rfl
    refine h.moves hpos rfl (update_eq_self p s.held).symm rfl (fun _ j _ hsame ↦ ?_)
      (fun _ ↦ hbit) (fun k _ ↦ h.bit k) rfl (fun j _ ↦ rfl) trivial
      (h.still_of_alone hpos mem_cons_self hspare.2)
    have hnone := find?_eq_none.mp hfind j (mem_finRange j)
    simp only [decide_eq_true_eq] at hnone
    exact hnone hsame

theorem Good.foundNext (h : Good s) {j : Slot} {ino : Ino} (hpos : s.pos p = .found k j ino)
    (hlock : (s.inode j).lock = false) (hfresh : Fresh s (.step p)) :
    Good (s.foundNext p k j ino) := by
  have hspare : (s.inode k).spare := h.ok_at hpos
  rw [State.foundNext]
  split_ifs with hcarries
  · obtain ⟨hlinks, hroom⟩ : (s.inode j).nlinks ≠ 0 ∧ (s.inode j).count ≠ 65535 := by
      refine hfresh.2 j ?_
      simp only [takes, hpos, if_pos (And.intro hlock hcarries)]
      rfl
    have hdev : (s.inode j).dev ≠ 0 := hcarries.1 ▸ ino.dev_ne
    have hkj : k ≠ j := fun heq ↦ hdev (heq ▸ hspare.1)
    refine h.moves hpos rfl (update_eq_self p s.held).symm rfl
      (fun _ i hi heq ↦ hi (h.unique i j (heq.1 ▸ hdev) heq.1 heq.2)) (fun _ ↦ h.bit j hdev)
      (fun k _ ↦ h.bit k) ?_ (fun i hi ↦ ?_) ?_
      fun _ _ _ ↦ ⟨rfl, fun hspare ↦ (hdev hspare.1).elim, fun hdoomed ↦ (hlinks hdoomed.2.1).elim⟩
    · simp only [Pos.claim, count_append, word_add_one hroom, count_cons]
      simp
      omega
    · simp [Pos.claim, count_cons, hi.symm]
    · change (update s.inode j _ k).spare
      rw [update_of_ne hkj]
      exact hspare
  · exact h.setPos hpos rfl hspare

/-- `iget` has found the inode and gives its empty slot back. -/
theorem Good.spareNext (h : Good s) {j : Slot} (hpos : s.pos p = .spare k j) :
    Good ((s.setInode k { s.inode k with count := (s.inode k).count - 1 }).give p j) := by
  have hspare : (s.inode k).spare := h.ok_at hpos
  refine h.empties hpos rfl rfl rfl hspare.1 (fun k _ ↦ h.bit k) ?_ (fun i hi ↦ ?_) trivial
    (h.still_of_alone hpos mem_cons_self hspare.2)
  · simp only [Pos.claim, hspare.2, setInode, count_append, count_cons]
    simp
    omega
  · simp [Pos.claim, setInode, count_cons, hi.symm]

/-- A slot that a call returns. -/
theorem cons_perm (k : Slot) (held : List Slot) :
    (k :: held ++ Pos.user.claim).Perm (held ++ [k]) :=
  .trans (.of_eq (append_nil _)) (perm_append_singleton k held).symm

/-- The state is good if the step was fresh, and the panic is not the one of `free_inode`. -/
def Sane (fresh : Prop) : Outcome Panic (State ν τ) → Prop
  | .next t => fresh → Good t
  | .blocked => True
  | .fault e => e ≠ .freeInode

section

variable (h : Good s)

include h

theorem Good.allocNext {ninodes : ℕ → Option ℕ} {dev : ℕ}
    (hpos : s.pos p = .alloc k dev) {fresh : Prop} : Sane fresh (s.allocNext ninodes p k dev) := by
  have hspare : (s.inode k).spare := h.ok_at hpos
  rw [State.allocNext]
  split
  · exact nofun
  · split
    · exact fun _ ↦ h.setPos hpos rfl trivial
    · rename_i num hnum
      have hclear : s.imap dev num = false := by simpa using find?_some hnum
      have hset : ∀ d m, s.imap d m = true → update s.imap dev (update (s.imap dev) num true) d m =
          true := fun d m hbit ↦ by
        simp only [update_apply]
        split_ifs with hd <;> simp_all [update_apply]
      have hperm := cons_perm k (s.held p)
      refine fun _ ↦ h.moves hpos rfl rfl rfl (fun hne j _ heq ↦ ?_) (fun _ ↦ by simp)
        (fun j _ hj ↦ hset _ _ (h.bit j hj))
        (by rw [hspare.2]; exact congrArg _ (hperm.count_eq k).symm) (fun j _ ↦ hperm.count_eq j)
        trivial (h.still_of_alone hpos mem_cons_self hspare.2)
      have hbit := h.bit j (heq.1 ▸ hne)
      rw [heq.1, heq.2] at hbit
      exact absurd (hbit.symm.trans hclear) (by decide)

theorem Good.unlockNext {after : After} (hpos : s.pos p = .unlock k after) :
    Good (s.unlockNext p k after) := by
  have hok := h.ok p
  rw [hpos] at hok
  cases after with
  | empty w | sync => exact h.goes rfl rfl rfl ⟨rfl, rfl, rfl, rfl⟩ rfl hpos rfl trivial
  | iput => exact h.goes rfl rfl rfl ⟨rfl, rfl, rfl, rfl⟩ rfl hpos rfl hok
  | iget =>
    exact h.keeps hpos rfl rfl rfl rfl rfl rfl rfl (cons_perm k _) trivial
      (h.still_of_mem (mem_claims hpos mem_cons_self) rfl)

/-- `i_count--` at the end of `iput`. -/
theorem Good.dropNext (hpos : s.pos p = pos) (hclaim : pos.claim = [k]) : Good (s.drop p k) := by
  have hk : k ∈ s.claims p := mem_claims hpos (hclaim ▸ mem_cons_self)
  have hsub : ((s.inode k).count - 1).toNat = (s.inode k).count.toNat - 1 :=
    UInt16.toNat_sub_of_le _ 1 (UInt16.le_iff_toNat_le.mpr (h.pos hk))
  refine h.moves hpos rfl (update_eq_self p s.held).symm rfl
    (fun hne i hi heq ↦ hi (h.unique i k (heq.1 ▸ hne) heq.1 heq.2)) (h.bit k) (fun k _ ↦ h.bit k)
    ?_ (fun i hi ↦ ?_) trivial (h.still_of_mem hk rfl)
  · have hpositive := h.pos hk
    simp only [hclaim, hsub, count_append, count_cons_self, count_nil, Pos.user_claim]
    omega
  · simp [hclaim, Pos.user_claim, hi.symm]

theorem Good.iputNext (hpos : s.pos p = .iput k) {fresh : Prop} : Sane fresh (s.iputNext p k) := by
  rw [State.iputNext]
  split_ifs with hcount hdev hblk
  · exact nofun
  · exact fun _ ↦ h.dropNext hpos rfl
  · exact fun _ ↦ h.setPos hpos rfl hdev
  · exact fun _ ↦ h.setPos hpos rfl hdev

theorem Good.iputRepeat (hpos : s.pos p = .iputAgain k) : Good (s.iputRepeat p k) := by
  have hdev : (s.inode k).dev ≠ 0 := h.ok_at hpos
  rw [State.iputRepeat]
  split_ifs with hmany hlinks hdirt
  · exact h.dropNext hpos rfl
  · have hpositive := h.pos (mem_claims hpos mem_cons_self)
    have hone : (s.inode k).count = 1 := by
      rw [gt_iff_lt, UInt16.lt_iff_toNat_lt] at hmany
      have h1 : UInt16.toNat 1 = 1 := rfl
      exact UInt16.toNat_inj.mp (by omega)
    exact h.setPos hpos rfl ⟨hdev, hlinks, hone⟩
  · exact h.goes rfl rfl rfl ⟨rfl, rfl, rfl, rfl⟩ rfl hpos rfl hdev
  · exact h.dropNext hpos rfl

/-- `free_inode` finds no inode with a count above 1. -/
theorem Good.freeInode (hpos : s.pos p = .truncate k) {fresh : Prop} :
    Sane fresh (s.freeInode p k) := by
  have hdoomed : (s.inode k).doomed := h.ok_at hpos
  have hone : ¬ (s.inode k).count > 1 := by
    rw [hdoomed.2.2]
    decide
  rw [State.freeInode, if_neg hdoomed.1, if_neg hone, if_neg (not_not.mpr hdoomed.2.1)]
  refine fun _ ↦ h.empties hpos rfl (update_eq_self p s.held).symm rfl rfl (fun j hj hdev ↦ ?_) ?_
    (fun j hj ↦ ?_) trivial (h.still_of_alone hpos mem_cons_self hdoomed.2.2)
  · have hbit := h.bit j hdev
    simp only [update_apply]
    split_ifs with hsame
    · rw [update_of_ne fun hnum ↦ hj (h.unique j k hdev hsame hnum), ← hsame]
      exact hbit
    · exact hbit
  · simp only [Pos.claim, hdoomed.2.2, count_append, count_cons_self, count_nil]
    exact (Nat.zero_add _).trans (Nat.add_comm _ _)
  · simp [Pos.claim, hj.symm]

end

variable {ninodes : ℕ → Option ℕ}

theorem Good.stepTask (h : Good s) : Sane (Fresh s (.step p)) (stepTask ninodes s p) := by
  have hok := h.ok p
  simp only [Inodes.stepTask]
  split
  · trivial
  · rename_i w hpos
    split
    · exact nofun
    · exact fun _ ↦ h.goes rfl rfl (update_eq_self 0 s.inode).symm (.refl _) rfl hpos rfl trivial
  · rename_i k w hpos
    split_ifs
    · trivial
    · exact fun _ ↦ h.emptyNext hpos
  · rename_i k ino hpos
    exact fun hfresh ↦ h.searchNext hpos hfresh
  · rename_i k j ino hpos
    split_ifs with hlock
    · trivial
    · exact fun hfresh ↦ h.foundNext hpos (by simpa using hlock) hfresh
  · rename_i k j hpos
    exact fun _ ↦ h.spareNext hpos
  · rename_i k dev hpos
    exact h.allocNext hpos
  · rename_i k hpos
    exact fun _ ↦ h.keeps hpos rfl (update_eq_self p s.held).symm rfl rfl rfl rfl rfl
      (.refl _) trivial
      (h.still_of_mem (mem_claims hpos mem_cons_self) rfl)
  · rename_i k after hpos
    refine fun _ ↦ h.goes rfl rfl rfl ⟨rfl, rfl, rfl, rfl⟩ rfl hpos rfl ?_
    rw [hpos] at hok
    cases after <;> exact hok
  · rename_i k after hpos
    exact fun _ ↦ h.unlockNext hpos
  · rename_i k hpos
    split_ifs
    · trivial
    · exact h.iputNext hpos
  · rename_i k hpos
    rw [hpos] at hok
    exact fun _ ↦ h.setPos hpos rfl hok
  · rename_i k hpos
    split_ifs
    · trivial
    · exact fun _ ↦ h.iputRepeat hpos
  · rename_i k hpos
    exact h.freeInode hpos
  · rename_i k hpos
    exact fun _ ↦ h.keeps hpos rfl (update_eq_self p s.held).symm rfl rfl rfl rfl rfl
      (.refl _) trivial
      (h.still_of_mem (mem_claims hpos mem_cons_self) rfl)

/-- A slot that a task holds goes over to the call that it makes with it. -/
theorem erase_perm {held : List Slot} (hk : k ∈ held) :
    (held.erase k ++ [k]).Perm (held ++ Pos.user.claim) :=
  (perm_append_singleton _ _).trans
    ((perm_cons_erase hk).symm.trans (.of_eq (append_nil _).symm))

variable [DecidableEq ν]

theorem Good.step (h : Good s) (e : Event ν τ) : Sane (Fresh s e) (step ninodes s e) := by
  cases e with simp only [Inodes.step]
  | lookup =>
    split
    · rename_i hpos _
      exact fun _ ↦ h.setPos hpos rfl trivial
    · trivial
  | newInode =>
    split
    · rename_i hpos
      exact fun _ ↦ h.setPos hpos rfl trivial
    · trivial
  | iput =>
    (repeat' split) <;> try trivial
    rename_i hpos hk
    exact fun _ ↦ h.keeps hpos rfl rfl (update_eq_self 0 s.inode).symm rfl rfl rfl rfl
      (erase_perm hk) trivial fun _ _ _ ↦ (Inode.Same.refl _).still
  | enter =>
    (repeat' split) <;> try trivial
    exact fun _ ↦ ⟨h.unique, h.bit, h.count, h.ok⟩
  | unlink =>
    (repeat' split) <;> try trivial
    rename_i hpos hk
    exact fun _ ↦ h.keeps hpos rfl rfl rfl rfl rfl rfl rfl (erase_perm hk) trivial
      (h.still_of_mem (mem_append_left _ hk) rfl)
  | touch p k =>
    (repeat' split) <;> try trivial
    exact fun _ ↦ h.goes (update_eq_self p s.pos).symm rfl rfl ⟨rfl, rfl, rfl, rfl⟩ rfl rfl rfl
      (h.ok p)
  | sync =>
    (repeat' split) <;> try trivial
    rename_i hpos _
    exact fun _ ↦ h.goes rfl rfl rfl ⟨rfl, rfl, rfl, rfl⟩ rfl hpos rfl trivial
  | step p => exact h.stepTask

end Steps

/-! ### The result -/

section Result

variable [Fintype τ] [DecidableEq τ] [DecidableEq ν] {ninodes : ℕ → Option ℕ}
  {imap : ℕ → ℕ → Bool} {disk : ℕ → ℕ → Dinode} {entry : ν → Option Ino} {s : State ν τ}

omit [DecidableEq τ] [DecidableEq ν] in
theorem good_initial : Good (initial imap disk entry : State ν τ) where
  unique _ _ hj := (hj rfl).elim
  bit _ hk := (hk rfl).elim
  count k := by simp [initial, refs, claims, Pos.claim, Inode.zero]
  ok _ := trivial

theorem good_of_run {es : List (Event ν τ)}
    (hmeets : Meets (step ninodes) Fresh (initial imap disk entry) es)
    (hrun : run (step ninodes) (initial imap disk entry) es = some s) : Good s :=
  run_induction_of_meets (I := fun _ s ↦ Good s) good_initial
    (fun _ _ e _ _ hgood hfresh hstep ↦ (hstep ▸ hgood.step e : Sane _ (.next _)) hfresh)
    hmeets hrun

/-- In every run in which no stale number is looked up, an inode is in the table once, and
`free_inode` never finds an inode with a count above 1. -/
theorem inodeUnique {es : List (Event ν τ)}
    (hmeets : Meets (step ninodes) Fresh (initial imap disk entry) es)
    (hrun : run (step ninodes) (initial imap disk entry) es = some s) :
    (∀ j k, (s.inode j).count ≠ 0 → (s.inode k).count ≠ 0 → (s.inode j).dev ≠ 0 →
      (s.inode j).dev = (s.inode k).dev → (s.inode j).num = (s.inode k).num → j = k) ∧
      ∀ e, step ninodes s e ≠ .fault .freeInode := by
  have hgood := good_of_run hmeets hrun
  refine ⟨fun j k _ _ ↦ hgood.unique j k, fun e hfault ↦ ?_⟩
  exact (hfault ▸ hgood.step e : Sane _ (.fault .freeInode)) rfl

end Result

/-- A disk on which the inodes up to number 2 are in use, and inode 2 has as many links as there are
names for it. -/
def oneFile (names : ℕ) : State (Fin names) (Fin 3) :=
  initial (fun _ num ↦ decide (num ≤ 2)) (fun _ _ ↦ ⟨UInt8.ofNat names, false⟩)
    fun _ ↦ some ⟨1, 2, Nat.one_ne_zero⟩

/-- Two tasks look up the same name at once. -/
theorem inodeUnique_twoTasks : ∃ (es : List (Event (Fin 1) (Fin 3))) (s : State (Fin 1) (Fin 3)),
    run (step fun _ ↦ some 10) (oneFile 1) es = some s ∧ s.held 0 = [1] ∧ s.held 1 = [1] ∧
      (∀ j k, (s.inode j).count ≠ 0 → (s.inode k).count ≠ 0 → (s.inode j).dev ≠ 0 →
        (s.inode j).dev = (s.inode k).dev → (s.inode j).num = (s.inode k).num → j = k) ∧
      ∀ e, step (fun _ ↦ some 10) s e ≠ .fault .freeInode :=
  ⟨[.lookup 0 0, .lookup 1 0, .step 0, .step 0, .step 1, .step 1, .step 0, .step 1, .step 0,
    .step 0, .step 1, .step 1], _, run_get (by decide +kernel), by decide +kernel,
    by decide +kernel, inodeUnique (by decide +kernel) (run_get _)⟩

/-- A task has read the number of an entry when another one unlinks the file and frees the inode; a
third one then makes a new inode. And a file has two names, the second of which a task is to unlink
and another one is looking up. -/
theorem staleNumber :
    (∃ (es : List (Event (Fin 1) (Fin 3))) (s : State (Fin 1) (Fin 3)) (j k : Slot),
      run (step fun _ ↦ some 10) (oneFile 1) es = some s ∧ j ≠ k ∧ (s.inode j).count = 1 ∧
        (s.inode k).count = 1 ∧ ((s.inode j).dev, (s.inode j).num) = (1, 2) ∧
        ((s.inode k).dev, (s.inode k).num) = (1, 2)) ∧
    ∃ (es : List (Event (Fin 2) (Fin 3))) (s : State (Fin 2) (Fin 3)),
      run (step fun _ ↦ some 10) (oneFile 2) es = some s ∧
        step (fun _ ↦ some 10) s (.step 1) = .fault .freeInode := by
  constructor
  · exact ⟨.lookup 0 0 :: replicate 5 (.step 0) ++ .lookup 1 0 :: .unlink 0 0 1 ::
      replicate 4 (.step 0) ++ replicate 5 (.step 1) ++ .newInode 2 1 :: replicate 3 (.step 2),
      _, 2, 3, run_get (by decide +kernel), by decide +kernel⟩
  · exact ⟨.lookup 0 0 :: replicate 5 (.step 0) ++ .unlink 0 0 1 :: replicate 3 (.step 0) ++
      .lookup 1 1 :: replicate 3 (.step 1) ++ .lookup 2 1 :: replicate 3 (.step 2) ++
      replicate 3 (.step 0) ++ replicate 2 (.step 1) ++ .unlink 1 1 1 :: replicate 3 (.step 1) ++
      replicate 2 (.step 2), by decide +kernel⟩

end EasyKernels.Linux.Inodes
