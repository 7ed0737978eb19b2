import Mathlib.Algebra.BigOperators.Ring.Finset
import EasyKernels.Xv6.Directories

/-!
# References to inodes inside a call

`Inv held slack` is the invariant inside a call on directories. `held` are the references to inodes
that the call has, and `slack` the links it has still to turn into entries; each function takes from
these lists and adds to them, and a call begins and ends with both empty. Next to the tree of
directories it says that the cache counts the references and keeps an inode without links while
there are any (`Refs`), and that the blocks are accounted for (`Space`), which keeps the link counts
far from the limit of a `short` (`Inv.nlink_le`).

Each function of the inode and directory layers has its specification here. Those that only read
change the cache alone (`SameDisk`), the walk of `namex` and `iput` free no inode that a process
uses (`Frees`), and `dirlink` adds one entry (`Grown`).
-/

set_option autoImplicit false

namespace EasyKernels.Xv6.Directories

open Nat Option Function Finset Lib.Counting Lib.Runs Lib.LinkTree
open List hiding range mem_range sum_le_sum

theorem tDir_ne_zero : tDir ≠ 0 := by decide

/-- An inode as a node of the tree of directories. -/
instance : Node Inode where
  IsFree ip := ip.type = 0
  IsDir ip := ip.type = tDir
  nlink := Inode.nlink
  entries := Inode.entries
  not_free hdir hfree := tDir_ne_zero (hdir.symm.trans hfree)

/-! ### The invariant inside a call -/

variable {P : Type*}

/-- Whether a process is in a directory. -/
def Proc.uses (proc : Proc) (i : ℕ) : ℕ := if proc.live = true ∧ proc.cwd = i then 1 else 0

variable {proc : Proc}

theorem Proc.uses_of_live (h : proc.live = true) (i : ℕ) :
    proc.uses i = if proc.cwd = i then 1 else 0 := by
  simp [Proc.uses, h]

theorem Proc.uses_of_dead (h : proc.live = false) (i : ℕ) : proc.uses i = 0 := by
  simp [Proc.uses, h]

/-- Whether an open file is for an inode. -/
def File.uses (file : File) (i : ℕ) : ℕ := if file.ip = some i then 1 else 0

section Holders

variable [Fintype P]

/-- The number of references to an inode that processes and open files have. -/
def State.holders (s : State P) (i : ℕ) : ℕ := ∑ p, (s.proc p).uses i + ∑ f, (s.file f).uses i

/-- The cache counts the references, and keeps an inode without links while there are any. -/
structure Refs (held : List ℕ) (s : State P) : Prop where
  ref_eq : ∀ i, s.ref i = s.holders i + held.count i
  kept : ∀ i, (s.inode i).type ≠ 0 → (s.inode i).nlink = 0 → 0 < s.ref i ∧ s.valid i = true
  allocated : ∀ i, 0 < s.ref i → s.valid i = true → (s.inode i).type ≠ 0
  closed : ∀ f, (s.file f).ref = 0 → (s.file f).ip = none

/-- The blocks of the directories and files, and the free ones. -/
structure Space (s : State P) : Prop where
  total : s.free + ∑ i ∈ range nInodes, (s.inode i).blocks = nBlocks
  room : ∀ i, (s.inode i).entries.length ≤ direntsPerBlock * (s.inode i).blocks
  unused : ∀ i, (s.inode i).type = 0 → (s.inode i).blocks = 0

/-- The invariant inside a call that has the references `held` and the links `slack`. -/
structure Inv (held slack : List ℕ) (s : State P) : Prop where
  tree : Tree nInodes rootIno slack s.inode
  refs : Refs held s
  space : Space s

variable {held slack : List ℕ} {s t u v : State P} {i : ℕ}

theorem Inv.links_eq (h : Inv held slack s) (hi : (s.inode i).type ≠ 0) :
    (s.inode i).nlink = links nInodes s.inode i + slack.count i :=
  h.tree.links_eq i hi

/-- The link counts are far from the limit of a `short`. -/
theorem Inv.nlink_le (h : Inv held slack s) (hi : (s.inode i).type ≠ 0) :
    0 ≤ (s.inode i).nlink ∧ (s.inode i).nlink ≤ 31000 + slack.count i := by
  have hweight : ∀ d ∈ range nInodes,
      weight (s.inode d) i ≤ direntsPerBlock * (s.inode d).blocks + 1 := by
    intro d _
    have hroom := h.space.room d
    have hnamed : named (s.inode d) i ≤ (s.inode d).entries.length := countP_le_length
    rw [weight]
    split_ifs <;> omega
  have hlinks : links nInodes s.inode i ≤ direntsPerBlock * nBlocks + nInodes := by
    have hsum := sum_le_sum hweight
    rw [sum_add_distrib, ← mul_sum] at hsum
    have htotal := h.space.total
    have hmul : direntsPerBlock * ∑ d ∈ range nInodes, (s.inode d).blocks ≤
        direntsPerBlock * nBlocks := Nat.mul_le_mul_left _ (by omega)
    rw [sum_const, card_range, nsmul_one, cast_id] at hsum
    exact hsum.trans (Nat.add_le_add_right hmul _)
  have hbound : direntsPerBlock * nBlocks + nInodes ≤ 31000 := by decide
  have heq := h.links_eq hi
  omega

theorem short_eq {x : ℤ} (hlow : -1 ≤ x) (hhigh : x ≤ 32000) : short x = x :=
  Int.bmod_eq_of_le (by omega) (by omega)

/-- Inodes that nothing refers to may have been freed, and nothing else has happened to the inodes,
the processes and the open files. -/
structure Frees (s t : State P) : Prop where
  proc_eq : t.proc = s.proc
  file_eq : t.file = s.file
  inode_eq : ∀ j, t.inode j = s.inode j ∨
    (t.inode j).type = 0 ∧ (s.inode j).type ≠ 0 ∧ (s.inode j).nlink = 0 ∧ s.holders j = 0

theorem Frees.of_eq (hproc : t.proc = s.proc) (hfile : t.file = s.file)
    (hinode : t.inode = s.inode) : Frees s t :=
  ⟨hproc, hfile, fun j ↦ .inl (by rw [hinode])⟩

open State

theorem Frees.holders_eq (h : Frees s t) (i : ℕ) : t.holders i = s.holders i := by
  rw [holders, holders, h.proc_eq, h.file_eq]

theorem Frees.trans (h : Frees s t) (h' : Frees t u) : Frees s u := by
  refine ⟨h'.proc_eq.trans h.proc_eq, h'.file_eq.trans h.file_eq, fun j ↦ ?_⟩
  rcases h.inode_eq j with hsame | ⟨hfree, hold⟩
  · rcases h'.inode_eq j with hsame' | ⟨hfree', halloc, hnlink, hholders⟩
    · exact .inl (hsame'.trans hsame)
    · rw [hsame] at halloc hnlink
      rw [h.holders_eq] at hholders
      exact .inr ⟨hfree', halloc, hnlink, hholders⟩
  · rcases h'.inode_eq j with hsame' | ⟨-, halloc, -⟩
    · exact .inr ⟨by rw [hsame', hfree], hold⟩
    · exact absurd hfree halloc

variable {j dp n : ℕ} {name : Name} {parent : Bool} {r : Option (ℕ × Name)} {ip : Inode}

theorem Frees.inode_of_nlink (h : Frees s t) (hj : (s.inode j).nlink ≠ 0) : t.inode j = s.inode j :=
  (h.inode_eq j).resolve_right fun hfreed ↦ hj hfreed.2.2.1

/-- Where every inode without links is in use, no inode is freed. -/
theorem Frees.inode_eq_of_used (h : Frees s t) (hused : ∀ j, (s.inode j).type ≠ 0 →
    (s.inode j).nlink = 0 → s.holders j ≠ 0) : t.inode = s.inode := by
  funext j
  rcases h.inode_eq j with hsame | ⟨-, halloc, hnlink, hholders⟩
  · exact hsame
  · exact absurd hholders (hused j halloc hnlink)

theorem Inv.used (h : Inv [] slack s) (hj : (s.inode j).type ≠ 0) (hnlink : (s.inode j).nlink = 0) :
    s.holders j ≠ 0 := by
  have hpos := (h.refs.kept j hj hnlink).1
  rw [h.refs.ref_eq j, count_nil] at hpos
  omega

/-! ### The inode cache -/

variable {held' : List ℕ} {path : List UInt8} {p : P} {de : Dirent}

theorem Refs.congr_held (h : Refs held s) (hcount : ∀ i, held'.count i = held.count i) :
    Refs held' s :=
  ⟨fun i ↦ by rw [h.ref_eq, hcount], h.kept, h.allocated, h.closed⟩

theorem Inv.swap {a b : ℕ} (h : Inv (a :: b :: held) slack s) : Inv (b :: a :: held) slack s := by
  refine ⟨h.tree, h.refs.congr_held fun i ↦ ?_, h.space⟩
  simp only [count_cons]
  omega

/-- Only the cache has changed. -/
def SameDisk (s t : State P) : Prop := t = { s with ref := t.ref, valid := t.valid }

omit [Fintype P] in
theorem SameDisk.inode_eq (h : SameDisk s t) : t.inode = s.inode := by rw [h]

theorem SameDisk.frees (h : SameDisk s t) : Frees s t :=
  .of_eq (by rw [h]) (by rw [h]) h.inode_eq

omit [Fintype P] in
theorem SameDisk.space (h : SameDisk s t) (hspace : Space s) : Space t := by
  rw [h]
  exact ⟨hspace.total, hspace.room, hspace.unused⟩

theorem SameDisk.inv (h : SameDisk s t) (hinv : Inv held slack s) (hrefs : Refs held' t) :
    Inv held' slack t :=
  ⟨h.inode_eq ▸ hinv.tree, hrefs, h.space hinv.space⟩

omit [Fintype P] in
/-- An inode of a directory or file changes, and blocks become free or are taken. -/
theorem Space.set (h : Space s) (ip : Inode) (hi : i < nInodes)
    (hblocks : n + ip.blocks = s.free + (s.inode i).blocks)
    (hroom : ip.entries.length ≤ direntsPerBlock * ip.blocks)
    (hunused : ip.type = 0 → ip.blocks = 0) (hinode : t.inode = update s.inode i ip)
    (hfree : t.free = n) : Space t := by
  have hsum := sum_update_add (range nInodes) (mem_range.mpr hi) s.inode ip fun _ ip ↦ ip.blocks
  have htotal := h.total
  refine ⟨?_, fun j ↦ ?_, fun j hj ↦ ?_⟩
  · rw [hinode, hfree]
    omega
  · rw [hinode]
    rw [update_apply]
    split_ifs with hji
    · exact hroom
    · exact h.room j
  · rw [hinode] at hj ⊢
    rw [update_apply] at hj ⊢
    split_ifs at hj ⊢ with hji
    · exact hunused hj
    · exact h.unused j hj

/-- The entry of one inode in the cache changes, and perhaps the inode. -/
theorem Refs.change (h : Refs held s) (i : ℕ) (hproc : t.proc = s.proc) (hfile : t.file = s.file)
    (hothers : ∀ j, j ≠ i → t.inode j = s.inode j ∧ t.ref j = s.ref j ∧ t.valid j = s.valid j ∧
      held'.count j = held.count j) (href : t.ref i = s.holders i + held'.count i)
    (hkept : (t.inode i).type ≠ 0 → (t.inode i).nlink = 0 → 0 < t.ref i ∧ t.valid i = true)
    (halloc : 0 < t.ref i → t.valid i = true → (t.inode i).type ≠ 0) : Refs held' t := by
  have hholders : t.holders = s.holders := by
    funext j
    rw [holders, holders, hproc, hfile]
  refine ⟨fun j ↦ ?_, fun j ↦ ?_, fun j ↦ ?_, hfile ▸ h.closed⟩
  all_goals by_cases hji : j = i
  · rw [hji, hholders, href]
  · rw [(hothers j hji).2.1, hholders, (hothers j hji).2.2.2, h.ref_eq]
  · exact hji ▸ hkept
  · rw [(hothers j hji).1, (hothers j hji).2.1, (hothers j hji).2.2.1]
    exact h.kept j
  · exact hji ▸ halloc
  · rw [(hothers j hji).1, (hothers j hji).2.1, (hothers j hji).2.2.1]
    exact h.allocated j

theorem idup_refs (h : Refs held s) (hi : 0 < s.ref i) : Refs (i :: held) (idup s i) := by
  have href : (idup s i).ref i = s.ref i + 1 := update_self _ _ _
  refine h.change i rfl rfl (fun j hj ↦ ⟨rfl, update_of_ne hj _ _, rfl,
    count_cons_of_ne (.symm hj)⟩) ?_ (fun htype hnlink ↦ ⟨?_, (h.kept i htype hnlink).2⟩)
    fun _ ↦ h.allocated i hi
  · rw [href, h.ref_eq, count_cons_self, add_assoc]
  · omega

theorem idup_spec (h : Inv held slack s) (hi : 0 < s.ref i) : Inv (i :: held) slack (idup s i) :=
  SameDisk.inv rfl h (idup_refs h.refs hi)

theorem iget_refs (h : Refs held s) (i : ℕ) :
    Post (iget s i) fun t ↦ Refs (i :: held) t ∧ SameDisk s t := by
  unfold iget
  split_ifs with hpos hfull
  · exact .ok ⟨idup_refs h hpos, rfl⟩
  · exact .error
  · refine .ok ⟨h.change i rfl rfl (fun j hj ↦ ⟨rfl, update_of_ne hj _ _, update_of_ne hj _ _,
      count_cons_of_ne (.symm hj)⟩) ?_ (fun htype hnlink ↦ ?_) fun _ hvalid ↦ ?_, rfl⟩
    · have hold := h.ref_eq i
      rw [count_cons_self]
      refine (update_self _ _ _).trans ?_
      omega
    · exact absurd (h.kept i htype hnlink).1 hpos
    · exact absurd (hvalid.symm.trans (update_self _ _ _)) (by simp)

theorem iget_spec (h : Inv held slack s) (i : ℕ) :
    Post (iget s i) fun t ↦ Inv (i :: held) slack t ∧ SameDisk s t :=
  (iget_refs h.refs i).mono fun _ ht ↦ ⟨ht.2.inv h ht.1, ht.2⟩

theorem ilock_refs (h : Refs held s) (i : ℕ) : Post (ilock s i) fun t ↦
    Refs held t ∧ SameDisk s t ∧ (s.inode i).type ≠ 0 ∧ t.valid i = true := by
  unfold ilock
  split_ifs with href hvalid htype
  · exact .error
  · exact .ok ⟨h, rfl, h.allocated i (by omega) hvalid, hvalid⟩
  · exact .error
  · have hpos : 0 < s.ref i := by omega
    exact .ok ⟨h.change i rfl rfl (fun j hj ↦ ⟨rfl, rfl, update_of_ne hj _ _, rfl⟩) (h.ref_eq i)
      (fun _ _ ↦ ⟨hpos, update_self _ _ _⟩) fun _ _ ↦ htype, rfl, htype, update_self _ _ _⟩

theorem ilock_spec (h : Inv held slack s) (i : ℕ) : Post (ilock s i) fun t ↦
    Inv held slack t ∧ SameDisk s t ∧ (s.inode i).type ≠ 0 ∧ t.valid i = true :=
  (ilock_refs h.refs i).mono fun _ ht ↦ ⟨ht.2.1.inv h ht.1, ht.2⟩

omit [Fintype P] in
theorem iput_inode_of_ne (hj : j ≠ i) : (iput s i).inode j = s.inode j := by
  unfold iput
  simp only
  split_ifs with hlast
  · change update s.inode i _ j = s.inode j
    rw [update_of_ne hj]
  · rfl

omit [Fintype P] in
theorem iput_inode_of_ref (hi : s.ref i ≠ 1) : (iput s i).inode = s.inode := by
  unfold iput
  simp only
  rw [if_neg fun hlast ↦ hi hlast.2.2]
  rfl

omit [Fintype P] in
theorem iput_file (s : State P) (i : ℕ) : (iput s i).file = s.file := by
  unfold iput
  simp only
  split_ifs <;> rfl

omit [Fintype P] in
theorem iput_proc (s : State P) (i : ℕ) : (iput s i).proc = s.proc := by
  unfold iput
  simp only
  split_ifs <;> rfl

omit [Fintype P] in
theorem iput_of_nlink (hi : (s.inode i).nlink ≠ 0) : iput s i = s.setRef i (s.ref i - 1) := by
  unfold iput
  simp only
  rw [if_neg fun hlast ↦ hi hlast.2.1]

/-- An inode without links is freed with its last reference. -/
theorem inv_ifree (h : Inv (i :: held) slack s) (hvalid : s.valid i = true)
    (hnlink : (s.inode i).nlink = 0) (href : s.ref i = 1) :
    Inv held slack ((ifree s i).setRef i 0) ∧ Frees s ((ifree s i).setRef i 0) := by
  have halloc := h.refs.allocated i (by omega) hvalid
  have hrange := h.tree.range i halloc
  have hcount := h.refs.ref_eq i
  rw [count_cons_self, href] at hcount
  have hlinks := h.links_eq halloc
  have hzero : ((ifree s i).setRef i 0).ref i = 0 := update_self _ _ _
  have hfree : (((ifree s i).setRef i 0).inode i).type = 0 :=
    congrArg Inode.type (update_self i _ s.inode)
  have hspace : Space ((ifree s i).setRef i 0) :=
    h.space.set { s.inode i with type := 0, entries := [], blocks := 0 } hrange.2 rfl
      (zero_le _) (fun _ ↦ rfl) rfl rfl
  refine ⟨⟨?_, h.refs.change i rfl rfl (fun j hj ↦ ⟨update_of_ne hj _ _, update_of_ne hj _ _,
    update_of_ne hj _ _, (count_cons_of_ne (.symm hj)).symm⟩) (by omega)
    (absurd hfree) (fun hpos ↦ by omega), hspace⟩, rfl, rfl, fun j ↦ ?_⟩
  · by_cases hdir : (s.inode i).type = tDir
    · exact h.tree.freeDir hdir hnlink rfl rfl
    · refine h.tree.setPlain hdir tDir_ne_zero.symm rfl hrange (fun _ _ ↦ rfl) (fun hne ↦ ?_)
        fun _ ↦ by omega
      exact absurd rfl hne
  · by_cases hji : j = i
    · rw [hji]
      exact .inr ⟨hfree, halloc, hnlink, by omega⟩
    · exact .inl (update_of_ne hji _ _)

theorem iput_spec (h : Inv (i :: held) slack s) :
    Inv held slack (iput s i) ∧ Frees s (iput s i) := by
  unfold iput
  simp only
  split_ifs with hlast
  · have hzero : (ifree s i).ref i - 1 = 0 := by
      change s.ref i - 1 = 0
      omega
    rw [hzero]
    exact inv_ifree h hlast.1 hlast.2.1 hlast.2.2
  · have hcount := h.refs.ref_eq i
    rw [count_cons_self] at hcount
    have href : (s.setRef i (s.ref i - 1)).ref i = s.ref i - 1 := update_self _ _ _
    refine ⟨SameDisk.inv rfl h (h.refs.change i rfl rfl (fun j hj ↦ ⟨rfl, update_of_ne hj _ _, rfl,
      (count_cons_of_ne (Ne.symm hj)).symm⟩) (by omega) (fun htype hnlink ↦ ?_)
      fun _ ↦ h.refs.allocated i (by omega)), Frees.of_eq rfl rfl rfl⟩
    obtain ⟨hpos, hvalid⟩ := h.refs.kept i htype hnlink
    have hne : s.ref i ≠ 1 := fun hone ↦ hlast ⟨hvalid, hnlink, hone⟩
    exact ⟨by omega, hvalid⟩

/-! ### Directories -/

theorem dirlookup_spec (h : Inv held slack s) (dp : ℕ) (name : Name) :
    Post (dirlookup s dp name) fun a ↦
      (s.inode dp).type = tDir ∧ a.2.inode = s.inode ∧ Frees s a.2 ∧
      match a.1 with
      | none => a.2 = s
      | some (i, k) => Inv (i :: held) slack a.2 ∧
          ∃ de, (s.inode dp).entries[k]? = some de ∧ de.inum = i ∧ de.name = name := by
  unfold dirlookup
  split_ifs with hdir
  · exact .error
  rw [not_not] at hdir
  cases hfind : findName (s.inode dp).entries name with
  | none => exact .ok ⟨hdir, rfl, .of_eq rfl rfl rfl, rfl⟩
  | some k =>
    obtain ⟨de, hk, hinum, hname⟩ := findName_eq_some hfind
    have hget : ((s.inode dp).entries.getD k Dirent.zero).inum = de.inum := by
      rw [getD_eq_getElem?_getD, hk, getD_some]
    simp only [hget]
    refine .bind (iget_spec h de.inum) ?_
    rintro u ⟨hinv, hsame⟩
    exact .ok ⟨hdir, hsame.inode_eq, hsame.frees, hinv, de, hk, rfl, hname⟩

/-- One directory has a new entry, and the blocks it needed are no longer free. -/
structure Grown (s t : State P) (dp : ℕ) (de : Dirent) (ip : Inode) : Prop where
  state_eq : t = { s with inode := update s.inode dp ip, free := t.free }
  inode_eq : ip = { s.inode dp with entries := insertEntry (s.inode dp).entries de,
                                    blocks := ip.blocks }
  blocks_eq : t.free + ip.blocks = s.free + (s.inode dp).blocks
  room : ip.entries.length ≤ direntsPerBlock * ip.blocks

omit [Fintype P] in
theorem blocksFor_room (n : ℕ) : n ≤ direntsPerBlock * blocksFor n := by
  have hper : direntsPerBlock = 32 := rfl
  unfold blocksFor
  rw [hper]
  simp only
  split_ifs <;> omega

omit [Fintype P] in
theorem Grown.inode_self (h : Grown s t dp de ip) : t.inode dp = ip := by
  rw [h.state_eq]
  exact update_self _ _ _

omit [Fintype P] in
theorem Grown.inode_of_ne (h : Grown s t dp de ip) (hj : j ≠ dp) : t.inode j = s.inode j := by
  rw [h.state_eq]
  exact update_of_ne hj _ _

omit [Fintype P] in
theorem dirlink_made (hroom : (s.inode dp).entries.length ≤ direntsPerBlock * (s.inode dp).blocks)
    (name : Name) (n : ℕ) : Post (dirlink s dp name n) fun a ↦ a.1 = true →
    (s.inode dp).type = tDir ∧ findName (s.inode dp).entries name = none ∧
      ∃ ip, Grown s a.2 dp ⟨n, name⟩ ip := by
  unfold dirlink dirlookup
  split_ifs with hdir
  · exact .error
  rw [not_not] at hdir
  cases hfind : findName (s.inode dp).entries name with
  | some k =>
    refine .bind (P := fun a ↦ a.1.isSome) (.bind (fun _ _ ↦ trivial) fun _ _ ↦ .ok rfl) ?_
    rintro ⟨_ | _, u⟩ hsome
    · cases hsome
    · exact .ok fun hmade ↦ nomatch hmade
  | none =>
    refine .bind (P := fun t ↦ ∃ ip, Grown s t dp ⟨n, name⟩ ip) ?_ fun t ht ↦
      .ok fun _ ↦ ⟨hdir, rfl, ht⟩
    simp only [writeEntry]
    split_ifs with hlt hmax hspace
    · refine .ok ⟨_, rfl, ?_, rfl, ?_⟩
      · simp only [insertEntry, hlt, if_true]
      · simpa using hroom
    · exact .error
    · exact .error
    · refine .ok ⟨_, rfl, ?_, ?_, ?_⟩
      · simp only [insertEntry, hlt, if_false]
      · simp only
        omega
      · simp only [length_append, length_singleton]
        refine (blocksFor_room _).trans (mul_le_mul_left _ ?_)
        omega

theorem dirlink_failed (h : Inv held slack s) (dp : ℕ) (name : Name) (n : ℕ) :
    Post (dirlink s dp name n) fun a ↦ a.1 = false → Inv held slack a.2 ∧ Frees s a.2 := by
  refine .bind (dirlookup_spec h dp name) ?_
  rintro ⟨_ | ⟨i, k⟩, t⟩ ⟨-, -, hfrees, hfound⟩
  · exact .bind (fun _ _ ↦ trivial) fun _ _ ↦ .ok fun hmade ↦ nomatch hmade
  · obtain ⟨hinv, hfrees'⟩ := iput_spec hfound.1
    exact .ok fun _ ↦ ⟨hinv, hfrees.trans hfrees'⟩

/-! ### Paths -/

/-- A walk returns with one reference, to the inode it returns, or with none. -/
structure Walked (held slack : List ℕ) (parent : Bool) (s : State P) (r : Option (ℕ × Name))
    (t : State P) : Prop where
  frees : Frees s t
  lost : r = none → Inv held slack t
  found : ∀ ip' name', r = some (ip', name') →
    Inv (ip' :: held) slack t ∧ (parent = true → (t.inode ip').type = tDir)

theorem Walked.nothing (hfrees : Frees s t) (h : Inv held slack t) :
    Walked held slack parent s none t :=
  ⟨hfrees, fun _ ↦ h, fun _ _ hr ↦ nomatch hr⟩

theorem Walked.of_found (hfrees : Frees s t) (h : Inv (i :: held) slack t)
    (hdir : parent = true → (t.inode i).type = tDir) :
    Walked held slack parent s (some (i, name)) t := by
  refine ⟨hfrees, (nomatch ·), fun ip' name' hr ↦ ?_⟩
  cases hr
  exact ⟨h, hdir⟩

theorem Walked.of_frees (hfrees : Frees s t) (h : Walked held slack parent t r u) :
    Walked held slack parent s r u :=
  ⟨hfrees.trans h.frees, h.lost, h.found⟩

theorem namexEnd_spec (h : Inv (i :: held) slack s) : Walked held slack parent s
    (namexEnd s parent name i).1 (namexEnd s parent name i).2 := by
  unfold namexEnd
  split_ifs with hparent
  · exact .nothing (iput_spec h).2 (iput_spec h).1
  · exact .of_found (.of_eq rfl rfl rfl) h fun htrue ↦ absurd htrue hparent

theorem namexLoop_spec (fuel : ℕ) (h : Inv (i :: held) slack s) :
    Post (namexLoop parent fuel s name i path) fun a ↦ Walked held slack parent s a.1 a.2 := by
  induction fuel generalizing s name i path with
  | zero => exact .ok (namexEnd_spec h)
  | succ fuel ih =>
    rw [namexLoop]
    cases skipelem path with
    | none => exact .ok (namexEnd_spec h)
    | some elem =>
      refine .bind (ilock_spec h i) ?_
      rintro u ⟨hinv, hsame, -⟩
      have hfrees := hsame.frees
      dsimp only
      split_ifs with hdir hlast
      · obtain ⟨hinv', hfrees'⟩ := iput_spec hinv
        exact .ok (.nothing (hfrees.trans hfrees') hinv')
      · exact .ok (.of_found hfrees hinv fun _ ↦ not_not.mp hdir)
      · refine .bind (dirlookup_spec hinv i elem.1) ?_
        rintro ⟨_ | ⟨next, k⟩, v⟩ ⟨-, -, hfrees', hfound⟩
        · obtain rfl : v = u := hfound
          obtain ⟨hinv', hfrees''⟩ := iput_spec hinv
          exact .ok (.nothing (hfrees.trans hfrees'') hinv')
        · obtain ⟨hinv', hfrees''⟩ := iput_spec hfound.1.swap
          exact (ih hinv').mono fun _ ↦ .of_frees ((hfrees.trans hfrees').trans hfrees'')

/-- A process that is alive refers to its current directory. -/
theorem Inv.cwd_pos (h : Inv held slack s) (hp : (s.proc p).live = true) :
    0 < s.ref (s.proc p).cwd := by
  have huse : (s.proc p).uses (s.proc p).cwd = 1 := by simp [Proc.uses, hp]
  have hle : (s.proc p).uses (s.proc p).cwd ≤ ∑ q, (s.proc q).uses (s.proc p).cwd :=
    single_le_sum (f := fun q ↦ (s.proc q).uses (s.proc p).cwd) (fun _ _ ↦ zero_le _) (mem_univ p)
  rw [h.refs.ref_eq, holders]
  omega

theorem namex_spec (h : Inv held slack s) (hp : (s.proc p).live = true) (path : List UInt8)
    (parent : Bool) :
    Post (namex s p path parent) fun a ↦ Walked held slack parent s a.1 a.2 := by
  have hstart : Post (namexStart s p path) fun a ↦ Inv (a.1 :: held) slack a.2 ∧ Frees s a.2 := by
    unfold namexStart
    split_ifs
    · exact .map ((iget_spec h rootIno).mono fun _ ht ↦ ⟨ht.1, ht.2.frees⟩)
    · exact .ok ⟨idup_spec h (h.cwd_pos hp), .of_eq rfl rfl rfl⟩
  exact .bind hstart fun a ha ↦ (namexLoop_spec _ ha.1).mono fun _ ↦ .of_frees ha.2

/-! ### Changes of inodes -/

omit [Fintype P] in
theorem setInode_self (s : State P) (i : ℕ) (ip : Inode) : (s.setInode i ip).inode i = ip :=
  update_self _ _ _

omit [Fintype P] in
theorem setInode_setInode (i : ℕ) (ip ip' : Inode) :
    (s.setInode i ip).setInode i ip' = s.setInode i ip' := by
  simp only [setInode, update_idem]

/-- An inode changes and is not freed. -/
theorem Refs.setInode (h : Refs held s) (i : ℕ) (ip : Inode)
    (htype : ip.type = 0 → (s.inode i).type = 0)
    (hkeep : ip.nlink = 0 → ip.type ≠ 0 → 0 < s.ref i ∧ s.valid i = true) :
    Refs held (s.setInode i ip) := by
  refine h.change i rfl rfl (fun j hj ↦ ⟨update_of_ne hj _ _, rfl, rfl, rfl⟩) (h.ref_eq i)
    (fun hne hzero ↦ ?_) fun hpos hvalid hzero ↦ ?_
  · rw [setInode_self] at hne hzero
    exact hkeep hzero hne
  · rw [setInode_self] at hzero
    exact h.allocated i hpos hvalid (htype hzero)

omit [Fintype P] in
theorem Space.setInode (h : Space s) (ip : Inode) (hi : i < nInodes)
    (htype : ip.type = (s.inode i).type) (hblocks : ip.blocks = (s.inode i).blocks)
    (hlen : ip.entries.length = (s.inode i).entries.length) : Space (s.setInode i ip) := by
  refine h.set ip hi (congrArg (s.free + ·) hblocks) ?_ (fun hzero ↦ ?_) rfl rfl
  · rw [hlen, hblocks]
    exact h.room i
  · rw [hblocks]
    exact h.unused i (htype ▸ hzero)

/-- An inode changes in its links and its entries, and is not freed. -/
theorem Inv.setInode {slack' : List ℕ} (h : Inv held slack s) (hi : i < nInodes)
    (htree : Tree nInodes rootIno slack' (update s.inode i ip))
    (htype : ip.type = (s.inode i).type) (hblocks : ip.blocks = (s.inode i).blocks)
    (hlen : ip.entries.length = (s.inode i).entries.length)
    (hkeep : ip.nlink = 0 → 0 < s.ref i ∧ s.valid i = true) : Inv held slack' (s.setInode i ip) :=
  ⟨htree, h.refs.setInode i ip htype.symm.trans fun hzero _ ↦ hkeep hzero,
    h.space.setInode ip hi htype hblocks hlen⟩

/-- The link count of an inode that is no directory changes. -/
theorem Inv.setNlink (h : Inv held slack s) (slack' : List ℕ) (hi : (s.inode i).type ≠ 0)
    (hdir : (s.inode i).type ≠ tDir) {n : ℤ} (hn : n = links nInodes s.inode i + slack'.count i)
    (hslack : ∀ j, j ≠ i → slack'.count j = slack.count j)
    (hkeep : n = 0 → 0 < s.ref i ∧ s.valid i = true) :
    Inv held slack' (s.setInode i { s.inode i with nlink := n }) := by
  have hrange := h.tree.range i hi
  exact h.setInode hrange.2 (h.tree.setPlain hdir hdir (h.tree.plain i hdir) hrange hslack
    (fun _ ↦ hn) fun hzero ↦ absurd hzero hi) rfl rfl rfl hkeep

theorem Grown.refs (hgrown : Grown s t dp de ip) (h : Refs held s)
    (hlive : (s.inode dp).nlink ≠ 0) : Refs held t := by
  have hrefs := h.setInode dp ip (fun hzero ↦ by rw [hgrown.inode_eq] at hzero; exact hzero)
    fun hzero _ ↦ absurd (by rw [hgrown.inode_eq] at hzero; exact hzero) hlive
  rw [hgrown.state_eq]
  exact ⟨hrefs.ref_eq, hrefs.kept, hrefs.allocated, hrefs.closed⟩

omit [Fintype P] in
theorem Grown.space (hgrown : Grown s t dp de ip) (h : Space s) (hdp : (s.inode dp).type = tDir)
    (hlt : dp < nInodes) : Space t := by
  refine h.set ip hlt hgrown.blocks_eq hgrown.room (fun hzero ↦ ?_) (by rw [hgrown.state_eq]) rfl
  rw [hgrown.inode_eq] at hzero
  exact absurd (hdp.symm.trans hzero) tDir_ne_zero

/-- A directory with links gains an entry for an inode that is no directory. -/
theorem Grown.inv (hgrown : Grown s t dp ⟨n, name⟩ ip)
    (h : Inv held (n :: slack) s) (hdp : (s.inode dp).type = tDir) (hlive : (s.inode dp).nlink ≠ 0)
    (hname : findName (s.inode dp).entries name = none) (hn : (s.inode n).type ≠ 0)
    (hplain : (s.inode n).type ≠ tDir) : Inv held slack t := by
  have hrange := h.tree.range_dir hdp
  have htype : ip.type = tDir := by rw [hgrown.inode_eq, hdp]
  have hnlink : ip.nlink = (s.inode dp).nlink := by rw [hgrown.inode_eq]
  have hinode : t.inode = update s.inode dp ip := by rw [hgrown.state_eq]
  have htree : Tree nInodes rootIno slack t.inode := by
    rw [hinode]
    exact h.tree.addEntry _ hdp hlive htype hnlink rfl hn hplain hname
      (congrArg Inode.entries hgrown.inode_eq)
  exact ⟨htree, hgrown.refs h.refs hlive, hgrown.space h.space hdp hrange.2⟩

end Holders

end EasyKernels.Xv6.Directories
