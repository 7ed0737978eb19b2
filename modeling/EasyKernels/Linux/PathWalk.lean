import EasyKernels.Linux.Namei

/-!
# Paths keep the counts of references

`Inv held slack` is the invariant inside a call of `Namei` that holds the references `held` to
inodes and has made the links `slack` without their entries yet: the inodes form a `Tree`,
`i_count` is the number of references from tasks, open files and the call, and no inode was freed
while an entry named it. A directory has one more link than the tree gives it, for its own `.`, and
a device or a directory without a block, which `mknod` can make, has none of the entries.

Giving up a reference keeps the invariant (`iput_spec`). `walk_spec`, `dirNamei_spec`,
`nameiFrom_spec` and `namei_spec` say that following a path changes nothing but references: what a
path reaches has links or is in use (`Lasting`), because a directory without links gives no
permission and the entries of the others are for inodes with links.
-/

set_option autoImplicit false

namespace EasyKernels.Linux.Namei

open List Function Finset Lib.Runs Lib.LinkTree Node

/-! ### Inodes as nodes of a tree -/

instance : Node Inode where
  IsFree ip := ip.used = false
  IsDir ip := ip.used = true ∧ sIsdir ip.mode = true ∧ ip.blocks ≠ 0
  nlink ip :=
    if sIsdir ip.mode = true ∧ ip.blocks ≠ 0 then ((ip.nlinks.toNat - 1 : ℕ) : ℤ)
    else ip.nlinks.toNat
  entries := Inode.entries
  not_free h hfree := by
    rw [h.1] at hfree
    exact Bool.noConfusion hfree

instance (ip : Inode) : Decidable (IsDir ip) :=
  inferInstanceAs (Decidable (ip.used = true ∧ sIsdir ip.mode = true ∧ ip.blocks ≠ 0))

section Node

variable {ip : Inode}

theorem not_free_of_used (hused : ip.used = true) : ¬ IsFree ip := by
  intro hfree
  cases hused.symm.trans hfree

theorem nlink_dir (h : IsDir ip) : nlink ip = ((ip.nlinks.toNat - 1 : ℕ) : ℤ) :=
  if_pos h.2

theorem nlink_plain (hused : ip.used = true) (h : ¬ IsDir ip) :
    nlink ip = ip.nlinks.toNat :=
  if_neg fun hdir ↦ h ⟨hused, hdir⟩

theorem nlink_eq_zero (h : ip.nlinks = 0) : nlink ip = 0 := by
  change (if _ then ((ip.nlinks.toNat - 1 : ℕ) : ℤ) else (ip.nlinks.toNat : ℤ)) = 0
  rw [h]
  split_ifs <;> rfl

theorem toNat_ne_zero {n : UInt8} (h : n ≠ 0) : n.toNat ≠ 0 := fun hzero ↦
  h (UInt8.toNat_inj.mp hzero)

theorem nlink_dir_eq_zero (h : IsDir ip) (hone : ip.nlinks ≠ 1) :
    nlink ip = 0 ↔ ip.nlinks = 0 := by
  refine ⟨fun hzero ↦ ?_, nlink_eq_zero⟩
  rw [nlink_dir h] at hzero
  by_contra hne
  have hone' : ip.nlinks.toNat ≠ 1 := fun heq ↦ hone (UInt8.toNat_inj.mp heq)
  have hne' := toNat_ne_zero hne
  omega

end Node

/-! ### The invariant -/

variable {T : Type*}

/-- The references of a task. -/
def Task.uses (task : Task) (i : ℕ) : ℕ :=
  (if task.pwd = i then 1 else 0) + if task.root = i then 1 else 0

/-- Only the counts of references have changed. -/
def SameFiles (s t : State T) : Prop := t = { s with count := t.count }

theorem SameFiles.refl (s : State T) : SameFiles s s := rfl

variable {s t : State T} {task : Task}

theorem SameFiles.trans {u : State T} (h : SameFiles s t) (h' : SameFiles t u) : SameFiles s u := by
  unfold SameFiles at *
  rw [h', h]

theorem SameFiles.inode_eq (h : SameFiles s t) : t.inode = s.inode := by rw [h]

theorem SameFiles.setCount (s : State T) (i n : ℕ) : SameFiles s (s.setCount i n) := rfl

variable [Fintype T]

/-- The references to an inode from open files and tasks. -/
def State.holders (s : State T) (i : ℕ) : ℕ := s.opened i + ∑ p, (s.task p).uses i

/-- `i_count` counts the references, and an inode that something refers to is in use. -/
structure Refs (held : List ℕ) (s : State T) : Prop where
  count_eq : ∀ i, s.count i = s.holders i + held.count i
  used : ∀ i, s.count i ≠ 0 → (s.inode i).used = true

/-- The invariant inside a call that has the references `held` and the links `slack`. -/
structure Inv (held slack : List ℕ) (s : State T) : Prop where
  tree : Tree (s.ninodes + 1) rootIno slack s.inode
  two_links : ∀ d, IsDir (s.inode d) → (s.inode d).nlinks ≠ 1
  refs : Refs held s
  kept : s.lost = false

variable {held held' slack : List ℕ} {s t : State T} {i : ℕ}

theorem Inv.congr_held (h : Inv held slack s) (hcount : ∀ i, held'.count i = held.count i) :
    Inv held' slack s :=
  ⟨h.tree, h.two_links, ⟨fun i ↦ by rw [h.refs.count_eq, hcount], h.refs.used⟩, h.kept⟩

theorem Inv.perm (h : Inv held slack s) (hperm : held'.Perm held) : Inv held' slack s :=
  h.congr_held fun i ↦ hperm.count_eq i

theorem Inv.swap {a b : ℕ} (h : Inv (a :: b :: held) slack s) : Inv (b :: a :: held) slack s :=
  h.perm (List.Perm.swap a b held)

theorem Inv.count_ne_zero (h : Inv (i :: held) slack s) : s.count i ≠ 0 := by
  rw [h.refs.count_eq, count_cons_self]
  omega

theorem Inv.used_of_held (h : Inv (i :: held) slack s) : (s.inode i).used = true :=
  h.refs.used i h.count_ne_zero

theorem Inv.used_of_holders (h : Inv held slack s) (hi : s.holders i ≠ 0) :
    (s.inode i).used = true := by
  refine h.refs.used i ?_
  rw [h.refs.count_eq]
  omega

omit [Fintype T] in
theorem Removed.iff (ninodes : ℕ) (inode : ℕ → Inode) (d : ℕ) : Removed ninodes inode d ↔
    d ≠ rootIno ∧ ∀ e < ninodes + 1, named (inode e) d = 0 :=
  and_congr_right fun _ ↦ forall₂_congr fun e _ ↦ (named_eq_zero (inode e) d).symm

/-- An inode that has no links is not named. -/
theorem Inv.not_named (h : Inv held slack s) (hi : i ≠ 0)
    (hlive : (s.inode i).used = true → (s.inode i).nlinks = 0) : ¬ Named s.ninodes s.inode i := by
  rintro ⟨d, -, hkept, de, hde, rfl⟩
  have hd : IsDir (s.inode d) := by
    by_contra hplain
    have hnil : (s.inode d).entries = [] := h.tree.plain d hplain
    rw [hnil] at hde
    exact not_mem_nil hde
  rw [Removed.iff, h.tree.unnamed_iff hd] at hkept
  obtain ⟨hused, hne⟩ := h.tree.entry_live hd hkept hde hi
  exact hne (nlink_eq_zero (hlive (Bool.eq_true_of_not_eq_false hused)))

/-! ### References -/

/-- Another number of references to one inode. -/
theorem Refs.set (h : Refs held s) {n : ℕ} (hcount : t.count = update s.count i n)
    (hholders : ∀ j, t.holders j = s.holders j) (hinode : ∀ j, j ≠ i → t.inode j = s.inode j)
    (hn : n = s.holders i + held'.count i) (hheld : ∀ j, j ≠ i → held'.count j = held.count j)
    (hused : n ≠ 0 → (t.inode i).used = true) : Refs held' t := by
  refine ⟨fun j ↦ ?_, fun j hj ↦ ?_⟩
  · rw [hcount, hholders, update_apply]
    split_ifs with hji
    · rw [hji, hn]
    · rw [hheld j hji, h.count_eq]
  · rw [hcount, update_apply] at hj
    split_ifs at hj with hji
    · rw [hji, hused hj]
    · rw [hinode j hji, h.used j hj]

theorem Inv.hold_spec (h : Inv held slack s) (hused : (s.inode i).used = true) :
    Inv (i :: held) slack (hold s i) := by
  refine ⟨h.tree, h.two_links, h.refs.set rfl (fun _ ↦ rfl) (fun _ _ ↦ rfl) ?_
    (fun _ hj ↦ count_cons_of_ne hj.symm) fun _ ↦ hused, h.kept⟩
  rw [h.refs.count_eq, count_cons_self]
  omega

/-- A reference is given up. -/
theorem Inv.release (h : Inv (i :: held) slack s) :
    Inv held slack (s.setCount i (s.count i - 1)) := by
  refine ⟨h.tree, h.two_links, h.refs.set rfl (fun _ ↦ rfl) (fun _ _ ↦ rfl) ?_
    (fun _ hj ↦ (count_cons_of_ne hj.symm).symm) fun _ ↦ h.used_of_held, h.kept⟩
  rw [h.refs.count_eq, count_cons_self]
  omega

/-- The inode will not be freed when the call gives up its reference. -/
def Lasting (s : State T) (i : ℕ) : Prop := (s.inode i).nlinks ≠ 0 ∨ s.holders i ≠ 0

theorem Lasting.congr (h : Lasting s i) (hsame : SameFiles s t) : Lasting t i := by
  rw [hsame]
  exact h

omit [Fintype T] in
theorem iput_eq (hcount : s.count i ≠ 0) (hlast : (s.inode i).nlinks ≠ 0 ∨ 1 < s.count i) :
    iput s i = .ok (s.setCount i (s.count i - 1)) := by
  unfold iput
  rw [if_neg hcount]
  by_cases hmany : 1 < s.count i
  · rw [if_pos hmany]
  · rw [if_neg hmany, if_neg (hlast.resolve_right hmany)]

/-- `iput` of an inode that is not freed. -/
theorem iput_lasting (h : Inv (i :: held) slack s) (hlast : Lasting s i) :
    Post (iput s i) fun t ↦ SameFiles s t ∧ Inv held slack t := by
  have hcount := h.refs.count_eq i
  rw [count_cons_self] at hcount
  rw [iput_eq h.count_ne_zero (hlast.imp_right fun hholders ↦ by omega)]
  exact .ok ⟨.setCount s i _, h.release⟩

omit [Fintype T] in
theorem freeInode_truncate (s : State T) (i : ℕ) : freeInode (truncate s i) i =
    { s with
      inode := update s.inode i .zero
      count := update s.count i 0
      free := (truncate s i).free } := by
  unfold freeInode truncate State.setCount State.setInode
  simp only
  split_ifs
  · rw [update_idem]
  · rfl

/-- The inode of the last reference is freed when it has no links. -/
theorem Inv.free (h : Inv (i :: held) [] s) (hcount : s.count i = 1)
    (hzero : (s.inode i).nlinks = 0) : Inv held [] { freeInode (truncate s i) i with
      lost := s.lost || decide (Named s.ninodes s.inode i) } := by
  have hused := h.used_of_held
  have hfree := not_free_of_used hused
  have hrange := h.tree.range i hfree
  have hnlink := nlink_eq_zero hzero
  have hlinks := h.tree.links_eq i hfree
  rw [freeInode_truncate]
  refine ⟨?_, fun d hd ↦ ?_, h.refs.set rfl (fun _ ↦ rfl) (fun _ hj ↦ update_of_ne hj _ _) ?_
    (fun _ hj ↦ (count_cons_of_ne hj.symm).symm) fun hne ↦ absurd rfl hne, ?_⟩
  · by_cases hdir : IsDir (s.inode i)
    · exact h.tree.freeDir hdir hnlink rfl rfl
    · refine h.tree.setPlain hdir (fun hzero ↦ by cases hzero.1) rfl hrange
        (fun _ _ ↦ rfl) (fun hused ↦ absurd rfl hused) fun _ ↦ ?_
      omega
  · dsimp only at hd ⊢
    rw [update_apply] at hd ⊢
    split_ifs at hd ⊢
    · cases hd.1
    · exact h.two_links d hd
  · have hold := h.refs.count_eq i
    rw [hcount, count_cons_self] at hold
    omega
  · rw [h.kept, decide_eq_false (h.not_named hrange.1.ne' fun _ ↦ hzero)]
    rfl

theorem iput_spec (h : Inv (i :: held) [] s) : Post (iput s i) (Inv held []) := by
  by_cases hlast : Lasting s i
  · exact (iput_lasting h hlast).mono fun t ht ↦ ht.2
  · obtain ⟨hzero, hholders⟩ := not_or.mp hlast
    rw [not_not] at hzero
    unfold iput
    split_ifs with hnone hmany
    · exact .error
    · exact .ok h.release
    · exact .ok (h.free (by omega) hzero)

omit [Fintype T] in
theorem iget_spec (s : State T) (i : ℕ) : Post (iget s i) fun t ↦ t = hold s i := by
  unfold iget
  split_ifs
  · exact .error
  · exact .ok rfl

/-- Several references are given up. -/
theorem iputs_spec (is : List ℕ) (h : Inv (is ++ held) [] s) :
    Post (is.foldlM iput s) (Inv held []) := by
  induction is generalizing s with
  | nil => exact .ok h
  | cons i is ih =>
    exact .bind (iput_spec h) fun t ht ↦ ih ht

/-! ### Paths -/

/-- What following a path from `s` does: an inode with a property is reached, or nothing. -/
def Reaches (Q : State T → ℕ → Prop) (held : List ℕ) (s : State T) (p : Option ℕ × State T) :
    Prop :=
  SameFiles s p.2 ∧
    match p.1 with
    | none => Inv held [] p.2
    | some i => Inv (i :: held) [] p.2 ∧ Q p.2 i

/-- The directory gives the permission to look into it, so that it has links. -/
def Entered (s : State T) (d : ℕ) : Prop :=
  sIsdir (s.inode d).mode = true ∧ (s.inode d).nlinks ≠ 0

/-- The task is one of those that refer to inodes. -/
def Resident (s : State T) (task : Task) : Prop :=
  s.holders task.pwd ≠ 0 ∧ s.holders task.root ≠ 0

theorem SameFiles.resident (h : SameFiles s t) (hres : Resident s task) : Resident t task := by
  rw [h]
  exact hres

/-- What a function does that follows the link at `i` in the directory `dir`. -/
def Follows (task : Task) (follow : State T → ℕ → ℕ → Except Panic (Option ℕ × State T)) : Prop :=
  ∀ held s dir i, Resident s task → Inv (i :: dir :: held) [] s → Lasting s dir → Lasting s i →
    Post (follow s dir i) (Reaches Lasting held s)

omit [Fintype T] in
theorem permission_nlinks {ip : Inode} {mask : UInt16} (h : permission task ip mask = true) :
    ip.nlinks ≠ 0 := by
  intro hzero
  rw [permission, if_pos hzero] at h
  cases h

theorem findEntry_eq_some {dir k : ℕ} {ip : Inode} {name : Name}
    (h : findEntry task dir ip name = some k) :
    ip.blocks ≠ 0 ∧ ∃ de, ip.entries[k]? = some de ∧ de.inum ≠ 0 ∧
      ip.entries.getD k Dirent.zero = de := by
  unfold findEntry at h
  split_ifs at h with hblocks
  all_goals
    obtain ⟨de, hde, hinum, -⟩ := findName_eq_some h
    refine ⟨hblocks, de, hde, hinum, ?_⟩
    rw [getD_eq_getElem?_getD, hde, Option.getD_some]

/-- The entries of a directory that has been entered are for inodes with links. -/
theorem Inv.entry (h : Inv held slack s) {d k : ℕ} (hused : (s.inode d).used = true)
    (hd : Entered s d) {name : Name} (hfind : findEntry task d (s.inode d) name = some k) :
    (s.inode ((s.inode d).entries.getD k Dirent.zero).inum).used = true ∧
      (s.inode ((s.inode d).entries.getD k Dirent.zero).inum).nlinks ≠ 0 := by
  obtain ⟨hblocks, de, hde, hinum, hget⟩ := findEntry_eq_some hfind
  have hdir : IsDir (s.inode d) := ⟨hused, hd.1, hblocks⟩
  have hlive : nlink (s.inode d) ≠ 0 :=
    mt (nlink_dir_eq_zero hdir (h.two_links d hdir)).mp hd.2
  obtain ⟨hfree, hne⟩ := h.tree.entry_live hdir hlive (mem_of_getElem? hde) hinum
  rw [hget]
  exact ⟨Bool.eq_true_of_not_eq_false hfree, mt nlink_eq_zero hne⟩

section Walk

variable {Q : State T → ℕ → Prop} {task : Task}
  {follow : State T → ℕ → ℕ → Except Panic (Option ℕ × State T)}

theorem reaches_of_same {r : Except Panic (Option ℕ × State T)} (hsame : SameFiles s t)
    (h : Post r (Reaches Q held t)) : Post r (Reaches Q held s) :=
  h.mono fun _ hp ↦ ⟨hsame.trans hp.1, hp.2⟩

theorem nothing_spec (h : Inv (i :: held) [] s) (hlast : Lasting s i) :
    Post (do let t ← iput s i; pure (none, t)) (Reaches Q held s) :=
  .bind (iput_lasting h hlast) fun _ ht ↦ .ok ht

/-- A link that is not followed gives nothing. -/
theorem drop_spec {dir : ℕ} (h : Inv (i :: dir :: held) [] s) (hdir : Lasting s dir)
    (hi : Lasting s i) : Post (do let t ← iput s dir; let u ← iput t i; pure (none, u))
      (Reaches Q held s) := by
  refine .bind (iput_lasting h.swap hdir) ?_
  rintro t ⟨hsame, hinv⟩
  exact reaches_of_same hsame (nothing_spec hinv (hi.congr hsame))

/-- What is no link is reached itself. -/
theorem keep_spec {dir : ℕ} (h : Inv (i :: dir :: held) [] s) (hdir : Lasting s dir)
    (hi : Lasting s i) : Post (do let t ← iput s dir; pure (some i, t))
      (Reaches Lasting held s) := by
  refine .bind (iput_lasting h.swap hdir) ?_
  rintro t ⟨hsame, hinv⟩
  exact .ok ⟨hsame, hinv, hi.congr hsame⟩

/-- The entry of a name in a directory that has been entered, with a reference to its inode. -/
theorem Inv.get_entry (h : Inv (i :: held) [] s) (hd : Entered s i) {k : ℕ} {name : Name}
    (hfind : findEntry task i (s.inode i) name = some k) :
    Post (iget s ((s.inode i).entries.getD k Dirent.zero).inum) fun t ↦ SameFiles s t ∧
      Inv (((s.inode i).entries.getD k Dirent.zero).inum :: i :: held) [] t ∧
      Lasting t ((s.inode i).entries.getD k Dirent.zero).inum ∧ Lasting t i := by
  obtain ⟨hused, hlinks⟩ := h.entry h.used_of_held hd hfind
  refine (iget_spec s _).mono ?_
  rintro t rfl
  exact ⟨rfl, h.hold_spec hused, .inl hlinks, .inl hd.2⟩

omit [Fintype T] in
/-- The check of the directory comes first for every name and after the last. -/
theorem entered_of_not (h : ¬ (sIsdir (s.inode i).mode = false ∨
    permission task (s.inode i) mayExec = false)) : Entered s i := by
  rw [not_or, Bool.not_eq_false, Bool.not_eq_false] at h
  exact ⟨h.1, permission_nlinks h.2⟩

section

variable (hfollow : Follows task follow)

include hfollow

/-- The loop of `get_dir` ends in a directory that has been entered, or in none. -/
theorem walk_spec (names : List Name) (hres : Resident s task) (h : Inv (i :: held) [] s)
    (hlast : Lasting s i) : Post (walk follow task names s i) (Reaches Entered held s) := by
  induction names generalizing s i with
  | nil =>
    unfold walk
    split_ifs with hstop
    · exact nothing_spec h hlast
    · exact .ok ⟨.refl s, h, entered_of_not hstop⟩
  | cons name rest ih =>
    unfold walk
    split_ifs with hstop
    · exact nothing_spec h hlast
    · dsimp only
      cases hfind : findEntry task i (s.inode i) name with
      | none => exact nothing_spec h hlast
      | some k =>
        refine .bind (h.get_entry (entered_of_not hstop) hfind) ?_
        rintro t ⟨hsame, hinv, hlast', hlasti⟩
        refine .bind (reaches_of_same hsame
          (hfollow held t i _ (hsame.resident hres) hinv hlasti hlast')) ?_
        rintro ⟨_ | j, u⟩ ⟨hsame, hreach⟩
        · exact .ok ⟨hsame, hreach⟩
        · exact reaches_of_same hsame (ih (hsame.resident hres) hreach.1 hreach.2)

variable (path : List UInt8) (base : Option ℕ)

/-- Without a base a path starts at the working directory. -/
theorem getDir_spec (hres : Resident s task)
    (h : Inv (base.toList ++ held) [] s) (hlast : ∀ d, base = some d → Lasting s d) :
    Post (getDir follow task s path base) (Reaches Entered held s) := by
  obtain ⟨t, ht, hsame, hinv, hlast'⟩ : ∃ t, t = (if base = none then hold s (base.getD task.pwd)
      else s) ∧ SameFiles s t ∧ Inv (base.getD task.pwd :: held) [] t ∧
      Lasting t (base.getD task.pwd) := by
    cases base with
    | none =>
      exact ⟨_, (if_pos rfl).symm, rfl, h.hold_spec (h.used_of_holders hres.1), .inr hres.1⟩
    | some d => exact ⟨_, (if_neg (Option.some_ne_none d)).symm, .refl s, h, hlast d rfl⟩
  have hres' := hsame.resident hres
  unfold getDir
  simp only [← ht]
  split_ifs
  · refine .bind (iput_lasting hinv hlast') ?_
    rintro u ⟨hsame', hinv'⟩
    have hres'' := hsame'.resident hres'
    have hroot : Inv (task.root :: held) [] (hold u task.root) :=
      hinv'.hold_spec (hinv'.used_of_holders hres''.2)
    have hsame'' := SameFiles.setCount u task.root (u.count task.root + 1)
    exact reaches_of_same ((hsame.trans hsame').trans hsame'')
      (walk_spec hfollow _ (hsame''.resident hres'') hroot (.inr hres''.2))
  · exact reaches_of_same hsame (walk_spec hfollow _ hres' hinv hlast')

theorem dirNamei_spec (hres : Resident s task)
    (h : Inv (base.toList ++ held) [] s) (hlast : ∀ d, base = some d → Lasting s d) :
    Post (dirNamei follow task s path base) fun p ↦
      Reaches Entered held s (p.1.map Prod.fst, p.2) := by
  refine .bind (getDir_spec hfollow path base hres h hlast) ?_
  rintro ⟨_ | d, t⟩ ht
  · exact .ok ht
  · exact .ok ht

theorem nameiFrom_spec (followLinks : Bool)
    (hres : Resident s task) (h : Inv (base.toList ++ held) [] s)
    (hlast : ∀ d, base = some d → Lasting s d) :
    Post (nameiFrom follow task s path base followLinks) (Reaches Lasting held s) := by
  refine .bind (dirNamei_spec hfollow path base hres h hlast) ?_
  rintro ⟨_ | ⟨d, name⟩, t⟩ ⟨hsame, hreach⟩
  · exact .ok ⟨hsame, hreach⟩
  · obtain ⟨hinv, hentered⟩ := hreach
    have hlastd : Lasting t d := .inl hentered.2
    dsimp only
    by_cases hname : name = []
    · rw [if_pos hname]
      exact .ok ⟨hsame, hinv, hlastd⟩
    · rw [if_neg hname]
      cases hfind : findEntry task d (t.inode d) name with
      | none => exact reaches_of_same hsame (nothing_spec hinv hlastd)
      | some k =>
        refine .bind (hinv.get_entry hentered hfind) ?_
        rintro u ⟨hsame', hinv', hlast', hlastu⟩
        have hsame := hsame.trans hsame'
        cases followLinks with
        | true =>
          exact reaches_of_same hsame
            (hfollow held u d _ (hsame.resident hres) hinv' hlastu hlast')
        | false => exact reaches_of_same hsame (keep_spec hinv' hlastu hlast')

end

theorem followNone_spec (task : Task) : Follows (T := T) task followNone := by
  intro held s dir i _ h hdir hi
  unfold followNone
  split_ifs
  · exact keep_spec h hdir hi
  · exact drop_spec h hdir hi

theorem followLink_spec (task : Task) : Follows (T := T) task (followLink task) := by
  intro held s dir i hres h hdir hi
  unfold followLink
  split_ifs
  · exact keep_spec h hdir hi
  · exact drop_spec h hdir hi
  · refine .bind (iput_lasting h hi) ?_
    rintro t ⟨hsame, hinv⟩
    refine reaches_of_same hsame (nameiFrom_spec (followNone_spec task) _ (some dir) false
      (hsame.resident hres) hinv fun d hd ↦ ?_)
    cases hd
    exact hdir.congr hsame

/-- A path of a task changes nothing but references. -/
theorem namei_spec (path : List UInt8) (hres : Resident s task) (h : Inv held [] s) :
    Post (namei task s path) (Reaches Lasting held s) :=
  nameiFrom_spec (followLink_spec task) path none true hres h fun _ hd ↦ nomatch hd

end Walk

end EasyKernels.Linux.Namei
