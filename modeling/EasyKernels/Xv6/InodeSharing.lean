import EasyKernels.Lib.References
import EasyKernels.Xv6.InodeLocks

/-!
# The inode cache of xv6, unless an inode is looked up while it is freed

`iput` reads `ref` under `icache.lock`, and frees the inode after it has released that lock. A
process that calls `iget` in between gets a reference to an inode that is then truncated and freed:
its `ilock` panics (`freedInUse`). The number may come from the `..` of a directory that has been
removed while it was the current directory of the process.

`Calm` is the condition that `iget` is not called for such an inode, and recycles no entry for an
inode that another entry with `ref` 0 still has, valid: that one would be out of date when the inode
changes, the other part of `freedInUse`. In a run that meets it an inode is cached once, `ref` is
the number of outstanding references, a valid inode whose lock is free is the one on the disk, and
only the process with the last reference frees an inode, which has no links then (`inodesShared`).
In the invariant `Good` the processes are told apart by what they
are `Sure` of: most of it is about inodes that they have locked, and `Good.change` says that what a
process does to an inode that no other process has locked leaves the others alone.

Scope. `Calm` also says that `ref`, an `int`, does not overflow.
-/

set_option autoImplicit false

namespace EasyKernels.Xv6.InodeLocks

open Nat List Option Function Lib Lib.Runs Lib.References

variable {τ : Type}

theorem toInt_add_one {x : Int32} (hroom : x ≠ 2147483647) : (x + 1).toInt = x.toInt + 1 := by
  have hne : x.toInt ≠ 2147483647 := fun heq ↦ hroom (Int32.toInt_inj.mp heq)
  have hlt := x.toInt_lt
  have hle := x.le_toInt
  rw [Int32.toInt_add, show (1 : Int32).toInt = 1 from rfl, Int.bmod_def]
  omega

theorem toInt_sub_one {x : Int32} (hpos : 0 < x.toInt) : (x - 1).toInt = x.toInt - 1 := by
  have hlt := x.toInt_lt
  rw [Int32.toInt_sub, show (1 : Int32).toInt = 1 from rfl, Int.bmod_def]
  omega

open State

theorem setDisk_of_ne (s : State τ) {dev inum dev' inum' : ℕ} (d : Dinode)
    (hne : ¬ (dev' = dev ∧ inum' = inum)) :
    (s.setDisk dev inum d).disk dev' inum' = s.disk dev' inum' := by
  simp only [setDisk]
  by_cases hdev : dev' = dev
  · have hinum : inum' ≠ inum := fun hinum ↦ hne ⟨hdev, hinum⟩
    rw [hdev, update_self, update_of_ne hinum]
  · rw [update_of_ne hdev]

theorem setDisk_self (s : State τ) (dev inum : ℕ) (d : Dinode) :
    (s.setDisk dev inum d).disk dev inum = d := by
  simp only [setDisk, update_self]

/-! ### The invariant -/

/-- The references that have been returned by `iget`, `idup` and `ialloc`, and that `iput` has not
put. -/
def outstanding [Fintype τ] (s : State τ) (k : Slot) : ℕ :=
  s.handed k + References.refs id (fun p ↦ (s.pos p).puts) k

/-- The inode in the cache and the one on the disk may differ. -/
def Pos.edits : Pos → Option Slot
  | .iupdate k | .iputInvalid k => some k
  | _ => none

/-- What a process knows of the inode that it has called a function for. -/
def Pos.ok (s : State τ) (p : τ) : Pos → Prop
  | .ilock k => s.handed k ≠ 0
  | .iupdate k =>
    (s.inode k).holder = some p ∧ ((s.inode k).valid = true → (s.inode k).type ≠ 0)
  | .ilockHeld k | .iputHeld k | .iputInvalid k | .iputRelease k => (s.inode k).holder = some p
  | .itrunc k | .iputFree k =>
    (s.inode k).holder = some p ∧ (s.inode k).nlink = 0 ∧ (s.inode k).ref = 1
  | .iputDrop k => (s.inode k).holder ≠ some p
  | .user | .ialloc _ _ _ | .iallocGet _ _ | .iput _ => True

/-- What a process knows, and that there is a reference to each inode it has locked. -/
structure Sure (s : State τ) (p : τ) : Prop where
  ok : (s.pos p).ok s p
  lock : ∀ k, (s.inode k).holder = some p → k ∈ (s.pos p).puts ∨ s.handed k ≠ 0

/-- The entry is in use, or has an inode that `ilock` has read. -/
def Inode.kept (v : Inode τ) : Prop := 0 < v.ref ∨ v.valid = true

/-- An inode is kept once; `ref` counts the references; the processes are right in what they know;
and a valid inode that nobody edits is the one on the disk. -/
structure Good [Fintype τ] (s : State τ) : Prop where
  unique : ∀ j k, (s.inode j).kept → (s.inode k).kept → (s.inode j).dev = (s.inode k).dev →
    (s.inode j).inum = (s.inode k).inum → j = k
  count : ∀ k, (s.inode k).ref.toInt = outstanding s k
  sure : ∀ p, Sure s p
  clean : ∀ k, (s.inode k).valid = true →
    (∃ p, (s.pos p).edits = some k) ∨
      (s.inode k).toDinode = s.disk (s.inode k).dev (s.inode k).inum ∧ (s.inode k).type ≠ 0

/-- A step of another process has left alone what a process relies on. -/
structure Still (s t : State τ) (q : τ) : Prop where
  pos : t.pos q = s.pos q
  holder : ∀ k, (t.inode k).holder = some q ↔ (s.inode k).holder = some q
  handed : ∀ k, s.uses q k → s.handed k ≠ 0 → t.handed k ≠ 0
  same : ∀ k, (s.inode k).holder = some q →
    (t.inode k).toDinode = (s.inode k).toDinode ∧ (t.inode k).valid = (s.inode k).valid
  ref : ∀ k, (s.pos q).frees = some k → (t.inode k).ref = (s.inode k).ref

theorem Sure.still {s t : State τ} {q : τ} (h : Sure s q) (hstill : Still s t q) : Sure t q := by
  have hok := h.ok
  constructor
  · rw [hstill.pos]
    cases hpos : s.pos q with rw [hpos] at hok
    | ilock k =>
      exact hstill.handed k (.inl (by rw [hpos]; rfl)) hok
    | iupdate k =>
      obtain ⟨hdata, hvalid⟩ := hstill.same k hok.1
      refine ⟨(hstill.holder k).mpr hok.1, ?_⟩
      rw [hdata, hvalid]
      exact hok.2
    | ilockHeld k | iputHeld k | iputInvalid k | iputRelease k =>
      exact (hstill.holder k).mpr hok
    | itrunc k | iputFree k =>
      refine ⟨(hstill.holder k).mpr hok.1, ?_, ?_⟩
      · rw [(hstill.same k hok.1).1]
        exact hok.2.1
      · rw [hstill.ref k (by rw [hpos]; rfl)]
        exact hok.2.2
    | iputDrop k =>
      exact fun hheld ↦ hok ((hstill.holder k).mp hheld)
    | _ => trivial
  · intro k hheld
    have hbefore := (hstill.holder k).mp hheld
    rw [hstill.pos]
    by_cases hputs : k ∈ (s.pos q).puts
    · exact .inl hputs
    · exact .inr (hstill.handed k (.inr ⟨hbefore, hputs⟩) ((h.lock k hbefore).resolve_left hputs))

section Good

variable [Fintype τ] {s t : State τ} {p : τ} {k : Slot}

section

variable (h : Good s)

include h

theorem Good.ref_pos : 0 < (s.inode k).ref ↔ outstanding s k ≠ 0 := by
  rw [Int32.lt_iff_toInt_lt, h.count, show (0 : Int32).toInt = 0 from rfl]
  omega

theorem Good.ref_pos_of_handed (hk : s.handed k ≠ 0) : 0 < (s.inode k).ref :=
  h.ref_pos.mpr fun hzero ↦ hk (Nat.add_eq_zero_iff.mp hzero).1

theorem Good.ref_pos_of_puts (hk : k ∈ (s.pos p).puts) : 0 < (s.inode k).ref := by
  have hrefs : 0 < References.refs id (fun q ↦ (s.pos q).puts) k := refs_pos (t := p) id hk
  exact h.ref_pos.mpr fun hzero ↦ hrefs.ne' (Nat.add_eq_zero_iff.mp hzero).2

/-- There is a reference to an inode that is locked. -/
theorem Good.ref_pos_of_holder (hk : (s.inode k).holder = some p) : 0 < (s.inode k).ref := by
  rcases (h.sure p).lock k hk with hputs | hhanded
  · exact h.ref_pos_of_puts hputs
  · exact h.ref_pos_of_handed hhanded

section

variable (hfrees : (s.pos p).frees = some k)

include hfrees

/-- A process frees an inode without links to which there is one reference. -/
theorem Good.doomed : k ∈ (s.pos p).puts ∧ (s.inode k).nlink = 0 ∧ (s.inode k).ref = 1 := by
  have hok := (h.sure p).ok
  cases hpos : s.pos p with
  | itrunc | iputFree =>
    rw [hpos] at hok hfrees
    cases hfrees
    exact ⟨mem_singleton_self k, hok.2⟩
  | _ =>
    rw [hpos] at hfrees
    cases hfrees

theorem Good.outstanding_eq_one : outstanding s k = 1 := by
  have hcount := h.count k
  rw [(h.doomed hfrees).2.2, show (1 : Int32).toInt = 1 from rfl] at hcount
  exact_mod_cast hcount.symm

/-- The reference is the one of the process. -/
theorem Good.handed_eq_zero : s.handed k = 0 := by
  have hrefs : 0 < References.refs id (fun q ↦ (s.pos q).puts) k :=
    refs_pos (t := p) id (h.doomed hfrees).1
  have hone := h.outstanding_eq_one hfrees
  rw [outstanding] at hone
  omega

/-- No other process is in `iput` for it. -/
theorem Good.alone [DecidableEq τ] {q : τ} (hq : k ∈ (s.pos q).puts) : q = p := by
  obtain ⟨hp, -, -⟩ := h.doomed hfrees
  have hle : References.refs id (fun p ↦ (s.pos p).puts) k ≤ 1 :=
    (le_add_left _ _).trans (h.outstanding_eq_one hfrees).le
  exact eq_of_refs_le_one (t := q) (u := p) id hq hp rfl hle

end

end

variable [DecidableEq τ] {v : Inode τ} {pos before : Pos}

omit [DecidableEq τ] in
/-- No other entry has the inode of one that is kept. -/
theorem Good.distinct (h : Good s) (hk : (s.inode k).kept) (j : Slot) (hne : j ≠ k)
    (hj : (s.inode j).kept) :
    ¬ ((s.inode j).dev = (s.inode k).dev ∧ (s.inode j).inum = (s.inode k).inum) :=
  fun heq ↦ hne (h.unique j k hj hk heq.1 heq.2)

/-- A process moves, and one inode in the cache changes, perhaps with the one on the disk. Assumes:
the inode is cached once and counts its references; the process is right in what it knows and has
references to what it has locked; and the other processes see no change of the inodes that they have
locked or are about to free. -/
theorem Good.moves (h : Good s) (hposs : t.pos = update s.pos p pos)
    (hinode : t.inode = update s.inode k v)
    (hunique : v.kept → ∀ j, j ≠ k → (s.inode j).kept →
      ¬ ((s.inode j).dev = v.dev ∧ (s.inode j).inum = v.inum))
    (hcount : v.ref.toInt = outstanding t k)
    (hcounts : ∀ j, j ≠ k → outstanding t j = outstanding s j) (hok : pos.ok t p)
    (hlock : ∀ j, (t.inode j).holder = some p → j ∈ pos.puts ∨ t.handed j ≠ 0)
    (hothers : ∀ q, q ≠ p → (v.holder = some q ↔ (s.inode k).holder = some q) ∧
      ((s.inode k).holder = some q →
        v.toDinode = (s.inode k).toDinode ∧ v.valid = (s.inode k).valid) ∧
      ((s.pos q).frees = some k → v.ref = (s.inode k).ref))
    (hhanded : ∀ q j, q ≠ p → s.uses q j → s.handed j ≠ 0 → t.handed j ≠ 0)
    (hdisk : ∀ j, j ≠ k → (s.inode j).kept →
      t.disk (s.inode j).dev (s.inode j).inum = s.disk (s.inode j).dev (s.inode j).inum)
    (hedits : ∀ j, (s.pos p).edits = some j → j = k)
    (hclean : v.valid = true → (∃ q, (t.pos q).edits = some k) ∨
      v.toDinode = t.disk v.dev v.inum ∧ v.type ≠ 0) : Good t := by
  have hself : t.pos p = pos := by rw [hposs, update_self]
  have hrest : ∀ q, q ≠ p → t.pos q = s.pos q := fun q hq ↦ by rw [hposs, update_of_ne hq]
  have hk : t.inode k = v := by rw [hinode, update_self]
  have hother : ∀ j, j ≠ k → t.inode j = s.inode j := fun j hj ↦ by
    rw [hinode, update_of_ne hj]
  refine ⟨fun i j hi hj hdev hinum ↦ ?_, fun j ↦ ?_, fun q ↦ ?_, fun j hvalid ↦ ?_⟩
  · by_cases hik : i = k <;> by_cases hjk : j = k
    · rw [hik, hjk]
    · rw [hik, hk] at hi hdev hinum
      rw [hother j hjk] at hj hdev hinum
      exact (hunique hi j hjk hj ⟨hdev.symm, hinum.symm⟩).elim
    · rw [hjk, hk] at hj hdev hinum
      rw [hother i hik] at hi hdev hinum
      exact (hunique hj i hik hi ⟨hdev, hinum⟩).elim
    · rw [hother i hik] at hi hdev hinum
      rw [hother j hjk] at hj hdev hinum
      exact h.unique i j hi hj hdev hinum
  · by_cases hj : j = k
    · rw [hj, hk, hcount]
    · rw [hother j hj, hcounts j hj, h.count]
  · by_cases hq : q = p
    · rw [hq]
      exact ⟨hself.symm ▸ hok, hself.symm ▸ hlock⟩
    · refine (h.sure q).still
        ⟨hrest q hq, fun j ↦ ?_, fun j ↦ hhanded q j hq, fun j ↦ ?_, fun j ↦ ?_⟩
      all_goals by_cases hj : j = k
      · rw [hj, hk]
        exact (hothers q hq).1
      · rw [hother j hj]
      · rw [hj, hk]
        exact (hothers q hq).2.1
      · rw [hother j hj]
        exact fun _ ↦ ⟨rfl, rfl⟩
      · rw [hj, hk]
        exact (hothers q hq).2.2
      · rw [hother j hj]
        exact fun _ ↦ rfl
  · by_cases hjk : j = k
    · rw [hjk, hk] at hvalid ⊢
      exact hclean hvalid
    · rw [hother j hjk] at hvalid ⊢
      rw [hdisk j hjk (.inr hvalid)]
      refine (h.clean j hvalid).imp_left fun ⟨q, hq⟩ ↦ ⟨q, ?_⟩
      rwa [hrest q fun hqp ↦ hjk (hedits j (hqp ▸ hq))]

section

variable (hposs : t.pos = update s.pos p pos)

include hposs

/-- What one process takes and gives back. -/
theorem outstanding_update (j : Slot) :
    outstanding t j + s.handed j + (s.pos p).puts.countP (fun x ↦ x = j) =
      outstanding s j + t.handed j + pos.puts.countP fun x ↦ x = j := by
  have hmove := refs_move (t := p) (f := fun q ↦ (s.pos q).puts) (g := fun q ↦ (t.pos q).puts) id
    (fun q hq ↦ by rw [hposs, update_of_ne hq]) j
  simp only [hposs, update_self, id_eq] at hmove
  simp only [outstanding, hposs]
  omega

theorem outstanding_of_puts
    (hputs : pos.puts = (s.pos p).puts) (hhanded : t.handed = s.handed) (j : Slot) :
    outstanding t j = outstanding s j := by
  have hupdate := outstanding_update hposs j
  rw [hputs, hhanded] at hupdate
  omega

omit [Fintype τ] in
/-- A process in the middle of a call still edits the same inode after a step of another one. -/
theorem edits_of_ne (hedits : (s.pos p).edits = none)
    (hex : ∃ q, (s.pos q).edits = some k) : ∃ q, (t.pos q).edits = some k := by
  obtain ⟨q, hq⟩ := hex
  have hne : q ≠ p := by
    rintro rfl
    rw [hedits] at hq
    cases hq
  exact ⟨q, by rwa [hposs, update_of_ne hne]⟩

end

section

variable (h : Good s)

include h

/-- A process goes on. -/
theorem Good.setPos (hpos : s.pos p = before) (hputs : pos.puts = before.puts)
    (hedits : before.edits = none) (hok : pos.ok (s.setPos p pos) p) : Good (s.setPos p pos) := by
  subst hpos
  have hcount := outstanding_of_puts (t := s.setPos p pos) rfl hputs rfl
  refine h.moves (k := 0) (show _ = update s.pos p pos from rfl) (update_eq_self _ s.inode).symm
    h.distinct ?_ (fun j _ ↦ hcount j) hok
    (fun j hheld ↦ hputs ▸ (h.sure p).lock j hheld)
    (fun q _ ↦ ⟨.rfl, fun _ ↦ ⟨rfl, rfl⟩, fun _ ↦ rfl⟩) (fun _ _ _ _ ↦ id) (fun _ _ _ ↦ rfl)
    (by rw [hedits]; exact nofun)
    fun hvalid ↦ (h.clean 0 hvalid).imp_left (edits_of_ne rfl hedits)
  rw [hcount, h.count]

/-- A process changes an inode whose lock no other process holds, and perhaps the inode on the
disk. -/
theorem Good.change (hfree : ∀ q, q ≠ p → (s.inode k).holder ≠ some q)
    (hlock : k ∈ (s.pos p).puts ∨ s.handed k ≠ 0) (hinode : t.inode = update s.inode k v)
    (hposs : t.pos = update s.pos p pos) (hhanded : t.handed = s.handed)
    (hdisk : ∀ dev inum, ¬ (dev = v.dev ∧ inum = v.inum) → t.disk dev inum = s.disk dev inum)
    (href : v.ref = (s.inode k).ref) (hdev : v.dev = (s.inode k).dev)
    (hinum : v.inum = (s.inode k).inum) (hholder : v.holder = some p ∨ v.holder = none)
    (hpos : s.pos p = before) (hputs : pos.puts = before.puts)
    (hedits : ∀ j, before.edits = some j → j = k) (hok : pos.ok t p)
    (hclean : v.valid = true → pos.edits = some k ∨
      v.toDinode = t.disk v.dev v.inum ∧ v.type ≠ 0) : Good t := by
  subst hpos
  have hlive : 0 < (s.inode k).ref := hlock.elim h.ref_pos_of_puts h.ref_pos_of_handed
  have hcount := outstanding_of_puts hposs hputs hhanded
  have hdistinct := h.distinct (.inl hlive)
  rw [← hdev, ← hinum] at hdistinct
  refine h.moves hposs hinode (fun _ ↦ hdistinct) (by rw [href, hcount, h.count])
    (fun j _ ↦ hcount j) hok (fun j hheld ↦ ?_)
    (fun q hq ↦ ⟨iff_of_false ?_ (hfree q hq), fun heq ↦ (hfree q hq heq).elim, fun _ ↦ href⟩)
    (fun q j _ _ ↦ by rw [hhanded]; exact id)
    (fun j hne hj ↦ hdisk _ _ (hdistinct j hne hj))
    hedits fun hvalid ↦ (hclean hvalid).imp_left fun hp ↦ ⟨p, by rwa [hposs, update_self]⟩
  · rw [hputs, hhanded]
    by_cases hj : j = k
    · rwa [hj]
    · rw [hinode, update_of_ne hj] at hheld
      exact (h.sure p).lock j hheld
  · rcases hholder with hsome | hnone
    · exact fun heq ↦ hq (some.inj (hsome.symm.trans heq)).symm
    · exact fun heq ↦ nomatch hnone.symm.trans heq

/-- A reference to an inode is returned. -/
theorem Good.hand (href : v.ref.toInt = (s.inode k).ref.toInt + 1)
    (hholder : v.holder = (s.inode k).holder) (hsame : ∀ q, (s.inode k).holder = some q →
      v.toDinode = (s.inode k).toDinode ∧ v.valid = (s.inode k).valid)
    (hfrees : ∀ q, (s.pos q).frees ≠ some k) (hunique : ∀ j, j ≠ k → (s.inode j).kept →
      ¬ ((s.inode j).dev = v.dev ∧ (s.inode j).inum = v.inum))
    (hclean : v.valid = true → (∃ q, (s.pos q).edits = some k) ∨
      v.toDinode = s.disk v.dev v.inum ∧ v.type ≠ 0) (hpos : s.pos p = before)
    (hputs : before.puts = []) (hedits : before.edits = none) :
    Good ((s.setInode k v).hand p k) := by
  subst hpos
  have hhanded : ∀ j, ((s.setInode k v).hand p k).handed j =
      s.handed j + if j = k then 1 else 0 := by
    intro j
    simp only [State.hand, State.setInode, update_apply]
    split_ifs with hj
    · rw [hj]
    · rfl
  have hcount : ∀ j, outstanding ((s.setInode k v).hand p k) j =
      outstanding s j + if j = k then 1 else 0 := by
    intro j
    have hupdate := outstanding_update (s := s) (t := (s.setInode k v).hand p k) rfl j
    rw [hputs, hhanded] at hupdate
    simp only [Pos.puts] at hupdate
    omega
  refine h.moves (show _ = update s.pos p .user from rfl) rfl (fun _ ↦ hunique) ?_ (fun j hj ↦ ?_)
    trivial (fun j hheld ↦ .inr ?_)
    (fun q _ ↦ ⟨by rw [hholder], hsame q, fun heq ↦ (hfrees q heq).elim⟩) (fun _ j _ _ hne ↦ ?_)
    (fun _ _ _ ↦ rfl) (by rw [hedits]; exact nofun)
    fun hvalid ↦ (hclean hvalid).imp_left (edits_of_ne rfl hedits)
  · rw [href, h.count, hcount, if_pos rfl]
    rfl
  · rw [hcount, if_neg hj]
    rfl
  · have hold : (s.inode j).holder = some p := by
      simp only [State.hand, State.setPos, State.setInode, update_apply] at hheld
      split_ifs at hheld with hj
      · rw [hj, ← hholder, hheld]
      · exact hheld
    have hne := ((h.sure p).lock j hold).resolve_left (by rw [hputs]; exact not_mem_nil)
    rw [hhanded]
    omega
  · rw [hhanded]
    omega

/-- `ip->ref++`. -/
theorem Good.again (hlive : 0 < (s.inode k).ref)
    (hroom : (s.inode k).ref ≠ 2147483647) (hfrees : ∀ q, (s.pos q).frees ≠ some k)
    (hpos : s.pos p = before) (hputs : before.puts = []) (hedits : before.edits = none) :
    Good ((s.setInode k { s.inode k with ref := (s.inode k).ref + 1 }).hand p k) := by
  exact h.hand (toInt_add_one hroom) rfl (fun _ _ ↦ ⟨rfl, rfl⟩) hfrees (h.distinct (.inl hlive))
    (h.clean k) hpos hputs hedits

/-- An entry is recycled for an inode that no other entry has. -/
theorem Good.recycle {dev inum : ℕ} (hfree : (s.inode k).ref = 0)
    (hnone : ∀ j, j ≠ k → (s.inode j).kept → ¬ ((s.inode j).dev = dev ∧ (s.inode j).inum = inum))
    (hpos : s.pos p = before)
    (hputs : before.puts = []) (hedits : before.edits = none) : Good ((s.setInode k { s.inode k with
        dev := dev, inum := inum, ref := 1, valid := false }).hand p k) := by
  have hdead : ¬ 0 < (s.inode k).ref := by
    rw [hfree]
    decide
  refine h.hand (by rw [hfree]; rfl) rfl ?_ ?_ hnone nofun hpos hputs hedits
  · intro q hq
    exact (hdead (h.ref_pos_of_holder hq)).elim
  · intro q hq
    exact hdead (h.ref_pos_of_puts (h.doomed hq).1)

/-- A process gives a reference to `iput`. -/
theorem Good.iput (hspare : s.spare p k) (hpos : s.pos p = .user)
    (hposs : t.pos = update s.pos p (.iput k)) (hinode : t.inode = s.inode)
    (hdisk : t.disk = s.disk) (hhanded : t.handed = update s.handed k (s.handed k - 1)) :
    Good t := by
  have hsum : ∀ j, t.handed j + (if k = j then 1 else 0) = s.handed j := by
    intro j
    have hne := hspare.1
    rw [hhanded, update_apply]
    split_ifs with hj hk hk
    · rw [hj]
      omega
    · exact (hk hj.symm).elim
    · exact (hj hk.symm).elim
    · rfl
  have hcount : ∀ j, outstanding t j = outstanding s j := by
    intro j
    have hupdate := outstanding_update hposs j
    have hj := hsum j
    simp only [hpos, Pos.puts, countP_singleton, countP_nil, decide_eq_true_eq] at hupdate
    omega
  refine h.moves (k := k) hposs (hinode.trans (update_eq_self _ _).symm) h.distinct
    (by rw [hcount, h.count]) (fun j _ ↦ hcount j) trivial (fun j hheld ↦ ?_)
    (fun q _ ↦ ⟨.rfl, fun _ ↦ ⟨rfl, rfl⟩, fun _ ↦ rfl⟩) (fun q j hq huses hne ↦ ?_)
    (fun _ _ _ ↦ by rw [hdisk]) (by simp [hpos, Pos.edits]) fun hvalid ↦ ?_
  · have hj := hsum j
    split_ifs at hj with hkj
    · exact .inl (mem_singleton.mpr hkj.symm)
    · rw [hinode] at hheld
      rw [show t.handed j = s.handed j from hj]
      exact .inr (((h.sure p).lock j hheld).resolve_left (by rw [hpos]; exact not_mem_nil))
  · have hj := hsum j
    split_ifs at hj with hkj
    · subst hkj
      have hmany : s.handed k ≠ 1 := fun hone ↦ hspare.2 hone q hq huses
      omega
    · omega
  · rw [hdisk]
    exact (h.clean k hvalid).imp_left (edits_of_ne hposs (by rw [hpos]; rfl))

/-- `ip->ref--`. -/
theorem Good.drop (hpos : s.pos p = .iputDrop k) (hposs : t.pos = update s.pos p .user)
    (hinode : t.inode = update s.inode k { s.inode k with ref := (s.inode k).ref - 1 })
    (hdisk : t.disk = s.disk) (hhanded : t.handed = s.handed) : Good t := by
  have hputs : k ∈ (s.pos p).puts := by
    rw [hpos]
    exact mem_singleton_self k
  have hlive := h.ref_pos_of_puts hputs
  have hcount : ∀ j, outstanding s j = outstanding t j + if k = j then 1 else 0 := by
    intro j
    have hupdate := outstanding_update hposs j
    simp only [hpos, hhanded, Pos.puts, countP_singleton, countP_nil, decide_eq_true_eq] at hupdate
    omega
  refine h.moves hposs hinode (fun _ ↦ h.distinct (.inl hlive)) ?_
    (fun j hj ↦ by rw [hcount, if_neg (Ne.symm hj), add_zero]) trivial
    (fun j hheld ↦ .inr ?_)
    (fun q hq ↦ ⟨.rfl, fun _ ↦ ⟨rfl, rfl⟩, fun hfrees ↦ (hq (h.alone hfrees hputs).symm).elim⟩)
    (fun _ _ _ _ ↦ by rw [hhanded]; exact id) (fun _ _ _ ↦ by rw [hdisk])
    (by rw [hpos]; exact nofun) fun hvalid ↦ ?_
  · have hk := hcount k
    rw [if_pos rfl] at hk
    rw [toInt_sub_one (Int32.lt_iff_toInt_lt.mp hlive), h.count, hk]
    omega
  · have hholder : (s.inode j).holder = some p := by
      rw [hinode, update_apply] at hheld
      split_ifs at hheld with hj
      · rwa [hj]
      · exact hheld
    rw [hhanded]
    refine ((h.sure p).lock j hholder).resolve_left fun hmem ↦ ?_
    have hok := (h.sure p).ok
    rw [hpos] at hok hmem
    exact hok (mem_singleton.mp hmem ▸ hholder)
  · rw [hdisk]
    exact (h.clean k hvalid).imp_left (edits_of_ne hposs (by rw [hpos]; rfl))

/-- `ialloc` takes an inode that is free on the disk. -/
theorem Good.allocates {dev inum dev' inum' : ℕ} {type : UInt16} {d : Dinode}
    (hfree : (s.disk dev inum).type = 0) (hpos : s.pos p = .ialloc dev' type inum') :
    Good ((s.setDisk dev inum d).setPos p (.iallocGet dev inum)) := by
  -- the process goes on, and then the disk changes
  have hgood : Good (s.setPos p (.iallocGet dev inum)) := h.setPos hpos rfl rfl trivial
  refine ⟨hgood.unique, hgood.count, fun q ↦ ?_, fun j hvalid ↦ ?_⟩
  · exact (hgood.sure q).still ⟨rfl, fun _ ↦ .rfl, fun _ _ hne ↦ hne, fun _ _ ↦ ⟨rfl, rfl⟩,
      fun _ _ ↦ rfl⟩
  · refine (hgood.clean j hvalid).imp_right fun hclean ↦ ⟨?_, hclean.2⟩
    refine hclean.1.trans (setDisk_of_ne s d fun hsame ↦ hclean.2 ?_).symm
    rw [hclean.1, ← hfree, ← hsame.1, ← hsame.2]
    rfl

end

/-! ### The steps -/

omit [DecidableEq τ] in
theorem Good.holder_of_edits (h : Good s) (hedits : (s.pos p).edits = some k) :
    (s.inode k).holder = some p := by
  have hok := (h.sure p).ok
  cases hpos : s.pos p with
  | iupdate j =>
    rw [hpos] at hok hedits
    cases hedits
    exact hok.1
  | iputInvalid j =>
    rw [hpos] at hok hedits
    cases hedits
    exact hok
  | _ =>
    rw [hpos] at hedits
    cases hedits

/-- A valid inode that nobody edits is the one on the disk. -/
theorem Good.clean_of_edits (h : Good s)
    (hvalid : (s.inode k).valid = true) (hbefore : ∀ q, q ≠ p → (s.inode k).holder ≠ some q)
    (hedits : (s.pos p).edits = none) :
    (s.inode k).toDinode = s.disk (s.inode k).dev (s.inode k).inum ∧ (s.inode k).type ≠ 0 := by
  refine (h.clean k hvalid).resolve_left fun hex ↦ ?_
  obtain ⟨q, hq⟩ := hex
  by_cases hqp : q = p
  · rw [hqp, hedits] at hq
    cases hq
  · exact hbefore q hqp (h.holder_of_edits hq)

/-- A valid inode that its holder does not edit is the one on the disk. -/
theorem Good.clean_of_holder (h : Good s) (hheld : (s.inode k).holder = some p)
    (hedits : (s.pos p).edits = none) (hvalid : (s.inode k).valid = true) :
    (s.inode k).toDinode = s.disk (s.inode k).dev (s.inode k).inum ∧ (s.inode k).type ≠ 0 := by
  refine h.clean_of_edits hvalid (fun q hq heq ↦ ?_) hedits
  exact hq (some.inj (heq.symm.trans hheld))

omit [Fintype τ] in
theorem inode_setInode (s : State τ) (k : Slot) (v : Inode τ) (pos : Pos) :
    ((s.setInode k v).setPos p pos).inode k = v := update_self _ _ _

omit [Fintype τ] in
theorem inode_setDisk (s : State τ) (k : Slot) (v : Inode τ) (dev inum : ℕ) (d : Dinode)
    (pos : Pos) : (((s.setInode k v).setDisk dev inum d).setPos p pos).inode k = v :=
    update_self _ _ _

/-- A process takes a lock that is free. -/
theorem Good.takeLock (h : Good s) (hfree : (s.inode k).holder = none) (hpos : s.pos p = before)
    (hputs : pos.puts = before.puts) (hedits : before.edits = none)
    (hlock : k ∈ before.puts ∨ s.handed k ≠ 0)
    (hok : pos.ok ((s.setInode k { s.inode k with holder := some p }).setPos p pos) p) :
    Good ((s.setInode k { s.inode k with holder := some p }).setPos p pos) := by
  subst hpos
  have hnobody : ∀ q, q ≠ p → (s.inode k).holder ≠ some q := fun q _ ↦ by
    rw [hfree]
    exact nofun
  exact h.change hnobody hlock rfl rfl rfl (fun _ _ _ ↦ rfl) rfl rfl rfl (.inl rfl) rfl hputs
    (by rw [hedits]; exact nofun) hok
    fun hvalid ↦ .inr (h.clean_of_edits hvalid hnobody hedits)

omit [DecidableEq τ] in
/-- A process that has locked an inode has a reference to it, and no other has locked it. -/
theorem Good.locked (h : Good s) (hheld : (s.inode k).holder = some p) :
    (∀ q, q ≠ p → (s.inode k).holder ≠ some q) ∧ (k ∈ (s.pos p).puts ∨ s.handed k ≠ 0) :=
  ⟨fun _ hq heq ↦ hq (some.inj (heq.symm.trans hheld)), (h.sure p).lock k hheld⟩

/-- `ilock` reads an inode. -/
theorem Good.load (h : Good s) (hpos : s.pos p = .ilockHeld k)
    (htype : (s.disk (s.inode k).dev (s.inode k).inum).type ≠ 0) :
    Good ((s.setInode k { s.inode k with
      toDinode := s.disk (s.inode k).dev (s.inode k).inum, valid := true }).setPos p .user) := by
  have hheld : (s.inode k).holder = some p := by
    have hok := (h.sure p).ok
    rw [hpos] at hok
    exact hok
  obtain ⟨hfree, hlock⟩ := h.locked hheld
  exact h.change hfree hlock rfl rfl rfl (fun _ _ _ ↦ rfl) rfl rfl rfl (.inl hheld) hpos rfl nofun
    trivial fun _ ↦ .inr ⟨rfl, htype⟩

/-- An inode that its process has changed is written to the disk. -/
theorem Good.write (h : Good s) (hheld : (s.inode k).holder = some p)
    (href : v.ref = (s.inode k).ref) (hdev : v.dev = (s.inode k).dev)
    (hinum : v.inum = (s.inode k).inum) (hholder : v.holder = (s.inode k).holder)
    (hpos : s.pos p = before) (hputs : pos.puts = before.puts)
    (hedits : ∀ j, before.edits = some j → j = k)
    (hok : pos.ok (((s.setInode k v).setDisk v.dev v.inum v.toDinode).setPos p pos) p)
    (htype : v.valid = true → pos.edits = some k ∨ v.type ≠ 0) :
    Good (((s.setInode k v).setDisk v.dev v.inum v.toDinode).setPos p pos) := by
  obtain ⟨hfree, hlock⟩ := h.locked hheld
  refine h.change hfree hlock rfl rfl rfl (fun dev inum hne ↦ ?_) href hdev hinum
    (.inl (hholder.trans hheld)) hpos hputs hedits hok fun hvalid ↦
      (htype hvalid).imp_right fun hne ↦ ?_
  · exact setDisk_of_ne (s.setInode k v) _ hne
  · exact ⟨(setDisk_self (s.setInode k v) _ _ _).symm, hne⟩

omit [Fintype τ] in
theorem iupdate_setInode (s : State τ) (k : Slot) (v : Inode τ) (p : τ) (pos : Pos) :
    (s.setInode k v).iupdate p k pos =
      ((s.setInode k v).setDisk v.dev v.inum v.toDinode).setPos p pos := by
  have hk : (s.setInode k v).inode k = v := update_self _ _ _
  rw [iupdate, hk]

section

variable (h : Good s)

include h

theorem Good.iupdate (hpos : s.pos p = .iupdate k) : Good (s.iupdate p k .user) := by
  have hok := (h.sure p).ok
  rw [hpos] at hok
  have hsame : s.setInode k (s.inode k) = s := by rw [setInode, update_eq_self]
  have heq : s.iupdate p k .user = (s.setInode k (s.inode k)).iupdate p k .user := by rw [hsame]
  rw [heq, iupdate_setInode]
  exact h.write hok.1 rfl rfl rfl rfl hpos rfl (fun j hj ↦ (some.inj hj).symm) trivial
    fun hvalid ↦ .inr (hok.2 hvalid)

theorem Good.itrunc (hpos : s.pos p = .itrunc k) : Good (s.itrunc p k) := by
  have hok := (h.sure p).ok
  rw [hpos] at hok
  rw [State.itrunc, iupdate_setInode]
  refine h.write hok.1 rfl rfl rfl rfl hpos rfl nofun ?_
    fun hvalid ↦ .inr (h.clean_of_holder hok.1 (by rw [hpos]; rfl) hvalid).2
  simp only [Pos.ok, inode_setDisk]
  exact hok

theorem Good.free (hpos : s.pos p = .iputFree k) : Good (s.free p k) := by
  have hok := (h.sure p).ok
  rw [hpos] at hok
  rw [State.free, iupdate_setInode]
  refine h.write hok.1 rfl rfl rfl rfl hpos rfl nofun ?_ fun _ ↦ .inl rfl
  simp only [Pos.ok, inode_setDisk]
  exact hok.1

theorem Good.invalid (hpos : s.pos p = .iputInvalid k) :
    Good ((s.setInode k { s.inode k with valid := false }).setPos p (.iputRelease k)) := by
  have hheld := h.holder_of_edits (p := p) (k := k) (by rw [hpos]; rfl)
  obtain ⟨hfree, hlock⟩ := h.locked hheld
  refine h.change hfree hlock rfl rfl rfl (fun _ _ _ ↦ rfl) rfl rfl rfl (.inl hheld) hpos rfl
    (fun j hj ↦ (some.inj hj).symm) ?_ nofun
  simp only [Pos.ok, inode_setInode]
  exact hheld

theorem Good.release (hheld : (s.inode k).holder = some p) (hpos : s.pos p = before)
    (hputs : pos.puts = before.puts) (hedits : before.edits = none)
    (hok : pos.ok (s.release p k pos) p) : Good (s.release p k pos) := by
  obtain ⟨hfree, hlock⟩ := h.locked hheld
  exact h.change hfree hlock rfl rfl rfl (fun _ _ _ ↦ rfl) rfl rfl rfl (.inr rfl) hpos hputs
    (by rw [hedits]; exact nofun) hok fun hvalid ↦
      .inr (h.clean_of_holder hheld (hpos ▸ hedits) hvalid)

/-- The fields that a caller of `iupdate` changes. -/
theorem Good.edit {major minor nlink : UInt16} (hheld : (s.inode k).holder = some p)
    (hpos : s.pos p = .user) : Good ((s.setInode k { s.inode k with
      major := major, minor := minor, nlink := nlink }).setPos p (.iupdate k)) := by
  obtain ⟨hfree, hlock⟩ := h.locked hheld
  refine h.change hfree hlock rfl rfl rfl (fun _ _ _ ↦ rfl) rfl rfl rfl (.inl hheld) hpos rfl nofun
    ?_ fun _ ↦ .inl rfl
  simp only [Pos.ok, inode_setInode]
  exact ⟨hheld, fun hvalid ↦ (h.clean_of_holder hheld (by rw [hpos]; rfl) hvalid).2⟩

end

end Good

/-! ### The condition, and what every run keeps -/

/-- The entry that `iget` recycles. -/
def State.unused (s : State τ) : Option Slot :=
  (List.finRange nInode).find? fun k ↦ (s.inode k).ref = 0

/-- No process is about to free the inode of a number that `iget` is called for, and its `ref` does
not overflow; and if an unused entry still has the inode, valid, it is the one to be recycled. -/
def calm [Fintype τ] (s : State τ) (dev inum : ℕ) : Prop :=
  ∀ k, (s.inode k).dev = dev ∧ (s.inode k).inum = inum →
    (0 < (s.inode k).ref → (s.inode k).ref ≠ 2147483647 ∧ ∀ q, (s.pos q).frees ≠ some k) ∧
      ((s.inode k).valid = true → 0 < (s.inode k).ref ∨ s.unused = some k)

instance [Fintype τ] (s : State τ) (dev inum : ℕ) : Decidable (calm s dev inum) :=
  inferInstanceAs (Decidable (∀ _, _))

/-- The number that `iget` is called for, by itself or by `ialloc`. -/
def State.seeks (s : State τ) : Event τ → Option (ℕ × ℕ)
  | .iget _ dev inum => some (dev, inum)
  | .step p =>
    match s.pos p with
    | .iallocGet dev inum => some (dev, inum)
    | _ => none
  | _ => none

def Event.dups : Event τ → Option Slot
  | .idup _ k => some k
  | _ => none

/-- `iget` is called for no inode that a process is about to free or that another unused entry
still has, and no `ref` overflows. -/
def Calm [Fintype τ] (s : State τ) (e : Event τ) : Prop :=
  (∀ ino ∈ s.seeks e, calm s ino.1 ino.2) ∧ ∀ k ∈ e.dups, (s.inode k).ref ≠ 2147483647

instance [Fintype τ] (s : State τ) (e : Event τ) : Decidable (Calm s e) :=
  inferInstanceAs (Decidable (_ ∧ _))

section Steps

variable [Fintype τ] [DecidableEq τ] {s t : State τ} {p : τ} {k : Slot} {ninodes : ℕ}
  {before : Pos}

theorem Good.iget (h : Good s) {dev inum : ℕ} (hcalm : calm s dev inum)
    (hpos : s.pos p = before) (hputs : before.puts = []) (hedits : before.edits = none)
    (hnext : s.iget p dev inum = .next t) : Good t := by
  rw [State.iget] at hnext
  split at hnext
  · rename_i k hfind
    cases hnext
    have hcarries : (s.inode k).carries dev inum := by
      have hfound := find?_some hfind
      exact of_decide_eq_true hfound
    obtain ⟨hroom, hfrees⟩ := (hcalm k hcarries.2).1 hcarries.1
    exact h.again hcarries.1 hroom hfrees hpos hputs hedits
  · rename_i hfind
    split at hnext <;> cases hnext
    rename_i k hempty
    have hfree := find?_some hempty
    have hnone : ∀ j, ¬ (s.inode j).carries dev inum := fun j hj ↦
      find?_eq_none.mp hfind j (mem_finRange j) (decide_eq_true hj)
    refine h.recycle (of_decide_eq_true hfree) (fun j hne hkept hsame ↦ ?_) hpos hputs hedits
    have hlive : 0 < (s.inode j).ref := hkept.elim id fun hvalid ↦
      ((hcalm j hsame).2 hvalid).resolve_right fun hunused ↦
        hne (some.inj (hunused.symm.trans hempty))
    exact hnone j ⟨hlive, hsame⟩

theorem Good.stepProc (h : Good s) (hcalm : Calm s (.step p))
    (hnext : s.stepProc ninodes p = .next t) : Good t := by
  have hok := (h.sure p).ok
  rw [State.stepProc] at hnext
  cases hpos : s.pos p <;> rw [hpos] at hnext hok
  case user =>
    cases hnext
  case ialloc dev type inum =>
    simp only [State.iallocNext] at hnext
    split_ifs at hnext with hlt hfree
    · cases hnext
      exact h.allocates hfree hpos
    · cases hnext
      exact h.setPos hpos rfl rfl trivial
  case iallocGet dev inum =>
    have hseeks : s.seeks (.step p) = some (dev, inum) := by simp only [State.seeks, hpos]
    exact h.iget (hcalm.1 _ hseeks) hpos rfl rfl hnext
  case ilock k =>
    simp only [State.acquire] at hnext
    split at hnext <;> cases hnext
    rename_i hfree
    refine h.takeLock hfree hpos rfl rfl (.inr hok) ?_
    simp only [Pos.ok, inode_setInode]
  case ilockHeld k =>
    simp only [State.ilockNext] at hnext
    split_ifs at hnext with hvalid htype
    · cases hnext
      exact h.setPos hpos rfl rfl trivial
    · cases hnext
      exact h.load hpos htype
  case iupdate k =>
    cases hnext
    exact h.iupdate hpos
  case iput k =>
    simp only [State.acquire] at hnext
    split at hnext <;> cases hnext
    rename_i hfree
    refine h.takeLock hfree hpos rfl rfl (.inl (mem_singleton_self k)) ?_
    simp only [Pos.ok, inode_setInode]
  case iputHeld k =>
    cases hnext
    rw [State.iputNext]
    split_ifs with hfree
    · exact h.setPos hpos rfl rfl ⟨hok, hfree.2⟩
    · exact h.setPos hpos rfl rfl hok
  case itrunc k =>
    cases hnext
    exact h.itrunc hpos
  case iputFree k =>
    cases hnext
    exact h.free hpos
  case iputInvalid k =>
    cases hnext
    exact h.invalid hpos
  case iputRelease k =>
    cases hnext
    refine h.release hok hpos rfl rfl ?_
    simp only [Pos.ok, State.release, inode_setInode]
    exact nofun
  case iputDrop k =>
    cases hnext
    exact h.drop hpos rfl rfl rfl rfl

theorem Good.call (h : Good s) {e : Event τ} (hcalm : Calm s e) (hpos : s.pos e.proc = .user)
    (hnext : s.call e = .next t) : Good t := by
  cases e with simp only [State.call] at hnext
  | iget =>
    exact h.iget (hcalm.1 _ rfl) hpos rfl rfl hnext
  | idup p k =>
    split_ifs at hnext with hzero
    cases hnext
    exact h.again (h.ref_pos_of_handed hzero) (hcalm.2 k rfl)
      (fun q hq ↦ hzero (h.handed_eq_zero hq)) hpos rfl rfl
  | ilock =>
    split_ifs at hnext with hzero href
    cases hnext
    exact h.setPos hpos rfl rfl hzero
  | iunlock =>
    split_ifs at hnext with hbad
    cases hnext
    exact h.release (not_not.mp (not_or.mp hbad).1) hpos rfl rfl trivial
  | iput =>
    obtain ⟨hspare, ⟨⟩⟩ := guard_eq_next.mp hnext
    exact h.iput hspare hpos rfl rfl rfl rfl
  | ialloc =>
    cases hnext
    exact h.setPos hpos rfl rfl trivial
  | update =>
    obtain ⟨hheld, ⟨⟩⟩ := guard_eq_next.mp hnext
    exact h.edit hheld hpos
  | step p => cases hnext

theorem Good.step (h : Good s) {e : Event τ} (hcalm : Calm s e)
    (hnext : step ninodes s e = .next t) : Good t := by
  unfold InodeLocks.step at hnext
  split at hnext
  · exact h.stepProc hcalm hnext
  · rename_i hpos
    exact h.call hcalm hpos hnext
  · cases hnext

omit [DecidableEq τ] in
theorem good_initial (disk : ℕ → ℕ → Dinode) : Good (initial disk : State τ) where
  unique _ _ hj := (hj.elim Int32.lt_irrefl nofun).elim
  count k := by
    have hzero : outstanding (initial disk : State τ) k = 0 :=
      (zero_add _).trans (Finset.sum_eq_zero fun _ _ ↦ rfl)
    rw [hzero]
    rfl
  sure _ := ⟨trivial, nofun⟩
  clean _ := nofun

/-- In every run in which `iget` is not called for an inode that is being freed, and recycles no
entry for an inode that another unused entry still has: an inode is cached once; `ref` is the number
of outstanding references; a valid inode whose lock is free is the one on the disk; and a process
frees an inode only if it has no links and there is no other reference. -/
theorem inodesShared {disk : ℕ → ℕ → Dinode} {es : List (Event τ)}
    (hmeets : Meets (step ninodes) Calm (initial disk) es)
    (hrun : run (step ninodes) (initial disk) es = some s) :
    (∀ j k, 0 < (s.inode j).ref → 0 < (s.inode k).ref → (s.inode j).dev = (s.inode k).dev →
      (s.inode j).inum = (s.inode k).inum → j = k) ∧
    (∀ k, (s.inode k).ref.toInt = outstanding s k) ∧
    (∀ k, (s.inode k).valid = true → (s.inode k).holder = none →
      (s.inode k).toDinode = s.disk (s.inode k).dev (s.inode k).inum) ∧
    ∀ p k, (s.pos p).frees = some k → (s.inode k).nlink = 0 ∧ outstanding s k = 1 := by
  have hgood : Good s := run_induction_of_meets (I := fun _ ↦ Good) (good_initial disk)
    (fun _ _ _ _ _ h hcalm hnext ↦ h.step hcalm hnext) hmeets hrun
  refine ⟨fun j k hj hk ↦ hgood.unique j k (.inl hj) (.inl hk), hgood.count,
    fun k hvalid hfree ↦ ?_, fun p k hfrees ↦ ?_⟩
  · refine ((hgood.clean k hvalid).resolve_left fun hex ↦ ?_).1
    obtain ⟨q, hq⟩ := hex
    rw [hgood.holder_of_edits hq] at hfree
    cases hfree
  · exact ⟨(hgood.doomed hfrees).2.1, hgood.outstanding_eq_one hfrees⟩

end Steps

/-- A disk on which every inode is a file with one link. -/
def files : State (Fin 2) := initial fun _ _ ↦ { Dinode.zero with type := 2, nlink := 1 }

/-- The last link of an inode is removed while another process has a reference, which it then puts;
the first process puts the last one. -/
theorem inodesShared_lastLink : ∃ (es : List (Event (Fin 2))) (s : State (Fin 2)),
    run (step 10) files es = some s ∧ (s.pos 0).frees = some 0 ∧
      (s.inode 0).nlink = 0 ∧ outstanding s 0 = 1 :=
  ⟨[.iget 0 1 2, .iget 1 1 2, .ilock 0 0, .step 0, .step 0, .update 0 0 0 0 0, .step 0,
    .iunlock 0 0, .iput 1 0, .step 1, .step 1, .step 1, .step 1, .iput 0 0, .step 0, .step 0], _,
    run_get (by decide +kernel), by decide +kernel,
    (inodesShared (by decide +kernel) (run_get _)).2.2.2 0 0 (by decide +kernel)⟩

/-- An unused entry is valid and out of date. And a process looks up an inode between the time when
another one finds `ref` to be 1 and the time when it frees the inode; then its `ilock` panics. -/
theorem freedInUse :
    (∃ (es : List (Event (Fin 2))) (s : State (Fin 2)),
      run (step 10) files es = some s ∧ (s.inode 1).valid = true ∧ (s.inode 1).holder = none ∧
        (s.inode 1).nlink ≠ (s.disk (s.inode 1).dev (s.inode 1).inum).nlink) ∧
    ∃ (es fs : List (Event (Fin 2))) (s t : State (Fin 2)),
      run (step 10) files es = some s ∧ (s.pos 0).frees = some 0 ∧ outstanding s 0 = 2 ∧
        run (step 10) s fs = some t ∧ step 10 t (.step 1) = .fault .ilockNoType := by
  constructor
  · exact ⟨[.iget 0 1 2, .iget 0 1 3, .ilock 0 1, .step 0, .step 0, .iunlock 0 1,
      .iput 0 0, .step 0, .step 0, .step 0, .step 0, .iput 0 1, .step 0, .step 0, .step 0, .step 0,
      .iget 0 1 3, .ilock 0 0, .step 0, .step 0, .update 0 0 0 0 5, .step 0, .iunlock 0 0],
      by decide +kernel⟩
  · exact ⟨[.iget 0 1 2, .ilock 0 0, .step 0, .step 0, .update 0 0 0 0 0, .step 0, .iunlock 0 0,
      .iput 0 0, .step 0, .step 0, .iget 1 1 2],
      [.ilock 1 0, .step 0, .step 0, .step 0, .step 0, .step 1], _, _, run_get (by decide +kernel),
      by decide +kernel, by decide +kernel, run_get (by decide +kernel), by decide +kernel⟩

end EasyKernels.Xv6.InodeLocks
