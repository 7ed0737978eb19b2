import EasyKernels.Xv6.InodeRefs

/-!
# The calls keep the tree of directories

Each call of `Directories` that begins with `Inv [] []` ends with it (`call_inv`), `create` and
`sys_link` when the call is `Tidy`: it adds no entry to a directory that has been unlinked. They do
not look at the link count of the directory they add to, which is 0 for the current directory of a
process after another has unlinked it.
-/

set_option autoImplicit false

namespace EasyKernels.Xv6.Directories

open Option List Function Finset Lib.Counting Lib.Runs Lib.LinkTree

variable {P : Type*}

/-- A call changes no directory that has been unlinked, other than by freeing it. -/
def Tidy (s t : State P) : Prop :=
  ∀ d, (s.inode d).type = tDir → (s.inode d).nlink = 0 →
    t.inode d = s.inode d ∨ (t.inode d).type = 0

section Calls

variable [Fintype P] {held slack : List ℕ} {s t u v : State P} {i : ℕ}

/-! ### `sys_link` -/

variable {r : ℤ} {ip : Inode} {dp n : ℕ} {p : P} {de : Dirent} {path : List UInt8} {type : UInt16}
  {f : Fin nFile}

/-- The link count of a file goes down after its entry. -/
theorem linkDown_spec {ip : ℕ} (h : Inv [ip] [ip] s) (halloc : (s.inode ip).type ≠ 0)
    (hdir : (s.inode ip).type ≠ tDir) (hvalid : s.valid ip = true) :
    Inv [ip] [] (s.setInode ip { s.inode ip with nlink := short ((s.inode ip).nlink - 1) }) := by
  have heq := h.links_eq halloc
  have hle := h.nlink_le halloc
  rw [count_cons_self, count_nil] at heq hle
  rw [short_eq (by omega) (by omega)]
  refine h.setNlink [] halloc hdir ?_ (fun _ hj ↦ (count_cons_of_ne hj.symm).symm)
    fun _ ↦ ⟨?_, hvalid⟩
  · rw [count_nil]
    omega
  · rw [h.refs.ref_eq, count_cons_self]
    omega

theorem linkBad_spec {ip : ℕ} (h : Inv [ip] [ip] s) (hdir : (s.inode ip).type ≠ tDir) :
    Post (linkBad s ip) fun a ↦ Inv [] [] a.2 := by
  refine .bind (ilock_spec h ip) ?_
  rintro u ⟨hinv, hsame, halloc, hvalid⟩
  rw [← hsame.inode_eq] at hdir halloc
  exact .ok (iput_spec (linkDown_spec hinv halloc hdir hvalid)).1

variable {name : Name} {j : ℕ} {major minor : UInt16} {omode : UInt32}

/-- A directory that a call has found and that somebody else uses is not freed with the call's
reference. -/
theorem iput_inode_of_holders (h : Refs held s) (hdp : dp ∈ held) (hholders : s.holders dp ≠ 0)
    (href : t.ref dp = s.ref dp) : (iput t dp).inode = t.inode := by
  refine iput_inode_of_ref ?_
  have heq := h.ref_eq dp
  have hpos := count_pos_iff.mpr hdp
  omega

/-- A call that leaves unlinked directories alone adds no entry to one that stays in use. -/
theorem live_of_tidy (h : Inv [] [] s) (htidy : Tidy s t)
    (hgrown : Grown u v dp ⟨n, name⟩ ip) (hdp : (s.inode dp).type = tDir)
    (htype : (u.inode dp).type = tDir) (hentries : (u.inode dp).entries = (s.inode dp).entries)
    (hn : n ≠ 0) (hname : findName (u.inode dp).entries name = none) (hrefs : Refs held u)
    (hmem : dp ∈ held) (hholders : u.holders dp = s.holders dp)
    (hkeep : t.inode dp = (iput v dp).inode dp) : (s.inode dp).nlink ≠ 0 := by
  intro hdead
  have hinode : t.inode dp = ip := by
    have hused := h.used (hdp ▸ tDir_ne_zero) hdead
    rw [← hholders] at hused
    rw [hkeep, iput_inode_of_holders hrefs hmem hused (by rw [hgrown.state_eq]), hgrown.inode_self]
  have hinsert : ip.entries = insertEntry (s.inode dp).entries ⟨n, name⟩ := by
    rw [hgrown.inode_eq, hentries]
  rw [hentries] at hname
  rcases htidy dp hdp hdead with hkept | hfree
  · obtain ⟨-, -, hnamed⟩ := (h.tree.shape dp hdp).insert (h.tree.range_dir hdp).1.ne'
      ⟨n, name⟩ hname hinsert
    have hmore := hnamed n hn
    rw [if_pos rfl, ← hinode, hkept] at hmore
    omega
  · rw [hinode, hgrown.inode_eq] at hfree
    exact tDir_ne_zero (htype.symm.trans hfree)

/-- The link count of a file goes up before its entry is made. -/
theorem linkUp_spec {ip : ℕ} (h : Inv [ip] [] s) (halloc : (s.inode ip).type ≠ 0)
    (hdir : (s.inode ip).type ≠ tDir) : Inv [ip] [ip]
      (s.setInode ip { s.inode ip with nlink := short ((s.inode ip).nlink + 1) }) ∧
    ((s.setInode ip { s.inode ip with nlink := short ((s.inode ip).nlink + 1) }).inode ip).nlink
      ≠ 0 := by
  have heq := h.links_eq halloc
  have hle := h.nlink_le halloc
  rw [count_nil] at heq hle
  rw [short_eq (by omega) (by omega)]
  refine ⟨h.setNlink [ip] halloc hdir ?_ (fun _ hj ↦ count_cons_of_ne hj.symm)
    fun hzero ↦ by omega, ?_⟩
  · rw [heq, count_cons_self, count_nil]
    omega
  · rw [setInode_self]
    simp only
    omega

/-- The last part of `sys_link`, with the directory locked. -/
theorem linkInto_spec {ip : ℕ} (h : Inv [] [] s) (hinv : Inv [dp, ip] [ip] u)
    (hholders : u.holders dp = s.holders dp) (hip : (u.inode ip).type ≠ 0)
    (hplain : (u.inode ip).type ≠ tDir) (hnlink : (u.inode ip).nlink ≠ 0)
    (hdp : (u.inode dp).type = tDir) (hsame : u.inode dp = s.inode dp) :
    Post (dirlink u dp name ip >>= fun a ↦
      if a.1 then pure (0, iput (iput a.2 dp) ip) else linkBad (iput a.2 dp) ip)
      fun a ↦ Tidy s a.2 → Inv [] [] a.2 := by
  have hne : dp ≠ ip := by
    rintro rfl
    exact hplain hdp
  refine .bind (fun a ha ↦ And.intro (dirlink_made (hinv.space.room dp) name ip a ha)
    (dirlink_failed hinv dp name ip a ha)) ?_
  rintro ⟨_ | _, v⟩ ⟨hmade, hfailed⟩
  · obtain ⟨hinv', hfrees⟩ := hfailed rfl
    obtain ⟨hinv'', hfrees'⟩ := iput_spec hinv'
    refine (linkBad_spec hinv'' ?_).mono fun _ ht _ ↦ ht
    rwa [(hfrees.trans hfrees').inode_of_nlink hnlink]
  · obtain ⟨-, hname, ip', hgrown⟩ := hmade rfl
    refine .ok fun htidy ↦ ?_
    have hlive := live_of_tidy h htidy hgrown (hsame ▸ hdp) hdp (by rw [hsame])
      (hinv.tree.range ip hip).1.ne' hname hinv.refs mem_cons_self hholders (iput_inode_of_ne hne)
    have hinv' := hgrown.inv hinv hdp (hsame ▸ hlive) hname hip hplain
    exact (iput_spec (iput_spec hinv').1).1

/-! ### `sys_unlink` -/

omit [Fintype P] in
theorem isdirempty_named {d : ℕ} (h : Shape nInodes d ip) (hempty : isdirempty ip = true)
    (hj : j ≠ 0) : named ip j = 0 := by
  rw [named, countP_eq_zero]
  intro de hde hnames
  simp only [Dirent.names, decide_eq_true_eq] at hnames
  obtain ⟨k, hk⟩ : ∃ k, ip.entries[k]? = some de := mem_iff_getElem?.mp hde
  have hk2 := h.two_le hk hnames.2
  have hdrop : de ∈ ip.entries.drop 2 := by
    refine mem_iff_getElem?.mpr ⟨k - 2, ?_⟩
    rw [getElem?_drop, Nat.add_sub_cancel' hk2, hk]
  have hzero := all_eq_true.mp hempty de hdrop
  rw [decide_eq_true_eq] at hzero
  omega

theorem named_ne_zero {k : ℕ} (hk : ip.entries[k]? = some de) (hinum : de.inum = i)
    (hname : de.name ≠ dot ∧ de.name ≠ dotdot) : named ip i ≠ 0 :=
  (countP_pos_iff.mpr ⟨de, mem_of_getElem? hk, by simp [Dirent.names, hname, hinum]⟩).ne'

/-- A directory without the entry at an index. -/
def Inode.clear (ip : Inode) (k : ℕ) : Inode := { ip with entries := ip.entries.set k Dirent.zero }

/-- A directory without an entry for another, and without the link for `..` of that. -/
def Inode.lose (ip : Inode) (k : ℕ) : Inode := { ip.clear k with nlink := ip.nlink - 1 }

section Unlink

variable {dp ip k : ℕ} {de : Dirent} (h : Inv [ip, dp] [] s) (hdp : (s.inode dp).type = tDir)
  (hk : (s.inode dp).entries[k]? = some de) (hinum : de.inum = ip)
  (hname : de.name ≠ dot ∧ de.name ≠ dotdot) (hvalid : s.valid ip = true)
  (halloc : (s.inode ip).type ≠ 0)

include h hdp hk hinum hname hvalid halloc

theorem unlinkFile_spec (hdir : (s.inode ip).type ≠ tDir) :
    Inv [ip] [ip] (iput (s.setInode dp ((s.inode dp).clear k)) dp) ∧
      (iput (s.setInode dp ((s.inode dp).clear k)) dp).inode ip = s.inode ip ∧
      (iput (s.setInode dp ((s.inode dp).clear k)) dp).valid ip = true := by
  have hlive : (s.inode dp).nlink ≠ 0 := fun hdead ↦ named_ne_zero hk hinum hname
    (h.tree.bare dp hdp hdead ip (h.tree.range ip halloc).1.ne')
  have hne : ip ≠ dp := by
    rintro rfl
    exact hdir hdp
  have htree : Tree nInodes rootIno [ip] (update s.inode dp ((s.inode dp).clear k)) := by
    subst hinum
    exact h.tree.clearEntry hdp hlive hdp rfl hk hname halloc hdir rfl rfl
  have hinv : Inv [ip, dp] [ip] (s.setInode dp ((s.inode dp).clear k)) :=
    h.setInode (h.tree.range_dir hdp).2 htree rfl rfl length_set fun hzero ↦ absurd hzero hlive
  refine ⟨(iput_spec hinv.swap).1, ?_⟩
  rw [iput_of_nlink (by rw [setInode_self]; exact hlive)]
  exact ⟨update_of_ne hne _ _, hvalid⟩

omit halloc in
theorem unlinkDir_spec (hdir : (s.inode ip).type = tDir)
    (hbare : ∀ j, j ≠ 0 → named (s.inode ip) j = 0) :
    Inv [ip] [] ((iput (s.setInode dp ((s.inode dp).lose k)) dp).setInode ip
      { s.inode ip with nlink := 0 }) := by
  have hnamed := named_ne_zero hk hinum hname
  have hne := h.tree.removed_ne hdp hdir hnamed hbare
  have htwo : 2 ≤ (s.inode dp).nlink := h.tree.two_le_nlink hdp hdir hnamed hbare
  have hlive : ((s.inode dp).lose k).nlink ≠ 0 := by
    change (s.inode dp).nlink - 1 ≠ 0
    omega
  obtain ⟨hshape, hparent, hcleared⟩ := (h.tree.shape dp hdp).clear hk hname
    (rfl : Node.entries ((s.inode dp).lose k) = _) rfl
  rw [hinum] at hcleared
  have htypen : ({ s.inode ip with nlink := 0 } : Inode).type = tDir := hdir
  have htyped : ((s.inode dp).lose k).type = tDir := hdp
  have htree := h.tree.rmdir hdp hdir hnamed hbare htypen rfl rfl htyped rfl hshape hparent hcleared
  have hsame : (s.setInode dp ((s.inode dp).lose k)).inode ip = s.inode ip :=
    update_of_ne hne.symm _ _
  have hpos : 0 < s.ref ip := by
    rw [h.refs.ref_eq, count_cons_self]
    omega
  have hrefs := (h.refs.setInode dp ((s.inode dp).lose k) id fun hzero _ ↦ absurd hzero hlive)
    |>.setInode ip { s.inode ip with nlink := 0 } (by rw [hsame]; exact id)
    fun _ _ ↦ ⟨hpos, hvalid⟩
  have hspace := (h.space.setInode ((s.inode dp).lose k) (h.tree.range_dir hdp).2 rfl rfl
    length_set).setInode { s.inode ip with nlink := 0 } (h.tree.range_dir hdir).2 (by rw [hsame])
    (by rw [hsame]) (by rw [hsame])
  -- The entry of the parent is released before the link count changes; neither touches the other.
  have hinv := (iput_spec (.swap ⟨htree, hrefs, hspace⟩)).1
  have hinode : ∀ ipn, ((s.setInode dp ((s.inode dp).lose k)).setInode ip ipn).inode dp =
      (s.inode dp).lose k := fun ipn ↦ (update_of_ne hne _ _).trans (setInode_self _ _ _)
  rw [iput_of_nlink (by rw [hinode]; exact hlive)] at hinv
  rw [iput_of_nlink (by rw [setInode_self]; exact hlive)]
  exact hinv

theorem unlinkEntry_spec : Post (unlinkEntry s dp ip k) fun a ↦ Inv [] [] a.2 := by
  obtain ⟨hlt, -⟩ := List.getElem?_eq_some_iff.mp hk
  have hwrite : writeEntry s dp k Dirent.zero = .ok (s.setInode dp ((s.inode dp).clear k)) :=
    if_pos hlt
  unfold unlinkEntry
  rw [hwrite]
  split_ifs with hnlink hfull
  · exact .error
  · exact .ok (iput_spec (iput_spec h).1).1
  refine .ok (iput_spec ?_).1
  by_cases hdir : (s.inode ip).type = tDir
  · have hempty : isdirempty (s.inode ip) = true := by simpa [hdir] using hfull
    have hnamed := named_ne_zero hk hinum hname
    have hbare : ∀ j, j ≠ 0 → named (s.inode ip) j = 0 := fun _ hj ↦
      isdirempty_named (h.tree.shape ip hdir) hempty hj
    have hne := h.tree.removed_ne hdp hdir hnamed hbare
    have hone : (s.inode ip).nlink = 1 := h.tree.nlink_eq_one hdp hdir hnamed hbare
    have hle := h.nlink_le (hdp ▸ tDir_ne_zero)
    rw [count_nil] at hle
    have hshort : short (((s.inode dp).clear k).nlink - 1) = (s.inode dp).nlink - 1 :=
      short_eq (x := (s.inode dp).nlink - 1) (by omega) (by omega)
    have hsame : ∀ ip', (s.setInode dp ip').inode ip = s.inode ip := fun ip' ↦
      update_of_ne hne.symm _ _
    rw [hsame, if_pos hdir, setInode_self, setInode_setInode, iput_inode_of_ne hne.symm, hsame,
      hone, hshort]
    exact unlinkDir_spec h hdp hk hinum hname hvalid hdir hbare
  · have hne : ip ≠ dp := by
      rintro rfl
      exact hdir hdp
    have hsame : (s.setInode dp ((s.inode dp).clear k)).inode ip = s.inode ip :=
      update_of_ne hne _ _
    obtain ⟨hinv, hinode, hvalid'⟩ := unlinkFile_spec h hdp hk hinum hname hvalid halloc hdir
    rw [hsame, if_neg hdir]
    rw [← hinode] at hdir halloc
    exact linkDown_spec hinv halloc hdir hvalid'

end Unlink

/-! ### `create` -/

omit [Fintype P] in
theorem iget_setInode (j : ℕ) (ip : Inode) :
    iget (s.setInode j ip) i = (iget s i).map fun s ↦ s.setInode j ip := by
  unfold iget
  change (if 0 < s.ref i then _ else if nInode ≤ s.cached then _ else _) = _
  split_ifs <;> rfl

open State

omit [Fintype P] in
theorem ilock_setInode {ip' : Inode} (htype : ip'.type = ip.type)
    (hok : ilock (s.setInode i ip) i = .ok t) :
    ilock (s.setInode i ip') i = .ok (t.setInode i ip') := by
  have href : ∀ ip, (s.setInode i ip).ref = s.ref := fun _ ↦ rfl
  have hvalid : ∀ ip, (s.setInode i ip).valid = s.valid := fun _ ↦ rfl
  simp only [ilock, setInode_self, href, hvalid] at hok ⊢
  rw [htype]
  split_ifs at hok ⊢
  · rw [← Except.ok.inj hok, setInode_setInode]
  · cases hok
    simp [setInode]

omit [Fintype P] in
theorem ilock_sameDisk (hok : ilock s i = .ok t) : SameDisk s t := by
  unfold ilock at hok
  split_ifs at hok <;> cases hok <;> rfl

/-- The inode that `create` makes, before it has entries. -/
def newInode (type major minor : UInt16) : Inode :=
  { Inode.zero with type := type, major := major, minor := minor, nlink := 1 }

/-- A free inode has been allocated. -/
structure Allocated (s t : State P) (n : ℕ) (ip : Inode) : Prop where
  range : 0 < n ∧ n < nInodes
  free : (s.inode n).type = 0
  new_eq : t.inode n = ip
  others : ∀ j, j ≠ n → t.inode j = s.inode j
  holders_eq : t.holders = s.holders
  file_eq : t.file = s.file

theorem Allocated.ne (h : Allocated s t n ip) (hdp : (s.inode dp).type = tDir) : dp ≠ n := by
  rintro rfl
  exact tDir_ne_zero (hdp.symm.trans h.free)

/-- A free inode is allocated, locked and given a link. -/
theorem ialloc_spec (major minor : UInt16) (h : Refs held s) (hspace : Space s)
    (halloc : ialloc s type = .ok (n, u)) (hlock : ilock u n = .ok v) :
    ∃ t, v.setInode n { v.inode n with major := major, minor := minor, nlink := 1 } = t ∧
      type ≠ 0 ∧ Allocated s t n (newInode type major minor) ∧ Refs (n :: held) t ∧ Space t := by
  unfold ialloc at halloc
  cases hfind : (range' 1 (nInodes - 1)).find? fun i ↦ (s.inode i).type = 0 with
  | none =>
    rw [hfind] at halloc
    simp at halloc
  | some m =>
    rw [hfind] at halloc
    obtain ⟨w, hget, hret⟩ := bind_eq_ok.mp halloc
    obtain ⟨rfl, rfl⟩ := Prod.mk.inj (Except.ok.inj hret)
    have hfree : (s.inode m).type = 0 := by simpa using find?_some hfind
    have hrange : 0 < m ∧ m < nInodes := by
      have hmem := mem_range'_1.mp (mem_of_find?_eq_some hfind)
      omega
    rw [iget_setInode] at hget
    obtain ⟨u₀, hget₀, rfl⟩ := map_eq_ok.mp hget
    have hinode : v.inode m = { Inode.zero with type := type } := by
      rw [(ilock_sameDisk hlock).inode_eq, setInode_self]
    have hget' : iget (s.setInode m (newInode type major minor)) m =
        .ok (u₀.setInode m (newInode type major minor)) := by
      rw [iget_setInode, hget₀]
      rfl
    have hlock' : ilock (u₀.setInode m (newInode type major minor)) m =
        .ok (v.setInode m (newInode type major minor)) := by
      refine ilock_setInode ?_ hlock
      rfl
    have hrefs : Refs held (s.setInode m (newInode type major minor)) :=
      h.setInode m _ (fun _ ↦ hfree) fun hzero _ ↦ absurd hzero one_ne_zero
    obtain ⟨hrefs₁, hsame₁⟩ := iget_refs hrefs m _ hget'
    obtain ⟨hrefs₂, hsame₂, htype, -⟩ := ilock_refs hrefs₁ m _ hlock'
    have hsame : SameDisk (s.setInode m (newInode type major minor))
        (v.setInode m (newInode type major minor)) := by
      rw [SameDisk, hsame₂, hsame₁]
    have hspace' : Space (s.setInode m (newInode type major minor)) := by
      refine hspace.set (newInode type major minor) hrange.2 ?_ (Nat.zero_le _) (fun _ ↦ rfl)
        rfl rfl
      rw [hspace.unused m hfree]
      rfl
    rw [setInode_self] at htype
    refine ⟨v.setInode m (newInode type major minor), by rw [hinode]; rfl, htype,
      ⟨hrange, hfree, setInode_self _ _ _, fun j hj ↦ ?_, funext fun j ↦ ?_, ?_⟩, hrefs₂,
      hsame.space hspace'⟩
    · rw [hsame.inode_eq]
      exact update_of_ne hj _ _
    · rw [hsame.frees.holders_eq]
      rfl
    · rw [hsame.frees.file_eq]
      rfl

/-- What `createDots` has done to a state with a new directory: the two entries are there, and the
parent has one more link. -/
structure Dotted (s t : State P) (dp n : ℕ) : Prop where
  refs : ∀ held, Refs held s → Refs held t
  space : Space s → Space t
  holders_eq : t.holders = s.holders
  file_eq : t.file = s.file
  new_type : (t.inode n).type = tDir
  new_nlink : (t.inode n).nlink = (s.inode n).nlink
  new_entries : (t.inode n).entries = [{ inum := n, name := dot }, { inum := dp, name := dotdot }]
  parent_eq : t.inode dp = { s.inode dp with nlink := (s.inode dp).nlink + 1 }
  others : ∀ j, j ≠ dp → j ≠ n → t.inode j = s.inode j

theorem createDots_spec (hn : 0 < n ∧ n < nInodes) (hne : dp ≠ n) (hdp : dp < nInodes)
    (hnlink : (s.inode n).nlink ≠ 0) (hentries : (s.inode n).entries = [])
    (hle : 0 ≤ (s.inode dp).nlink ∧ (s.inode dp).nlink ≤ 31000) :
    Post (createDots s dp n) fun t ↦ Dotted s t dp n := by
  unfold createDots
  dsimp only
  rw [short_eq (by omega) (by omega)]
  generalize hs₁ : s.setInode dp _ = s₁
  have hself : s₁.inode dp = { s.inode dp with nlink := (s.inode dp).nlink + 1 } := by
    rw [← hs₁, setInode_self]
  have hother : ∀ j, j ≠ dp → s₁.inode j = s.inode j := by
    intro j hj
    rw [← hs₁]
    exact update_of_ne hj _ _
  have hnew := hother n hne.symm
  refine .bind (dirlink_made (by rw [hnew, hentries]; simp) dot n) ?_
  rintro ⟨_ | _, u⟩ hmade
  · exact .error
  obtain ⟨htype, -, ip₁, hgrown₁⟩ := hmade rfl
  have hentries₁ : ip₁.entries = [⟨n, dot⟩] := by
    rw [hgrown₁.inode_eq, hnew, hentries]
    rfl
  have hnlink₁ : (u.inode n).nlink ≠ 0 := by
    rw [hgrown₁.inode_self, hgrown₁.inode_eq, hnew]
    exact hnlink
  refine .bind (dirlink_made (by rw [hgrown₁.inode_self]; exact hgrown₁.room) dotdot dp) ?_
  rintro ⟨_ | _, v⟩ hmade
  · exact .error
  obtain ⟨htype₁, -, ip₂, hgrown₂⟩ := hmade rfl
  have hentries₂ : ip₂.entries = [⟨n, dot⟩, ⟨dp, dotdot⟩] := by
    rw [hgrown₂.inode_eq, hgrown₁.inode_self, hentries₁]
    simp [insertEntry, hn.1.ne']
  refine .ok ⟨fun held h ↦ ?_, fun h ↦ ?_, ?_, ?_, ?_, ?_, ?_, ?_, fun j hj hj' ↦ ?_⟩
  · have hrefs : Refs held s₁ := by
      rw [← hs₁]
      exact h.setInode dp _ id fun hzero _ ↦ absurd hzero (by simp only; omega)
    exact hgrown₂.refs (hgrown₁.refs hrefs (by rwa [hnew])) hnlink₁
  · have hspace : Space s₁ := by
      rw [← hs₁]
      exact h.setInode _ hdp rfl rfl rfl
    exact hgrown₂.space (hgrown₁.space hspace htype hn.2) htype₁ hn.2
  · rw [hgrown₂.state_eq, hgrown₁.state_eq, ← hs₁]
    rfl
  · rw [hgrown₂.state_eq, hgrown₁.state_eq, ← hs₁]
    rfl
  · rw [hgrown₂.inode_self, hgrown₂.inode_eq, htype₁]
  · rw [hgrown₂.inode_self, hgrown₂.inode_eq, hgrown₁.inode_self, hgrown₁.inode_eq, hnew]
  · rw [hgrown₂.inode_self, hentries₂]
  · rw [hgrown₂.inode_of_ne hne, hgrown₁.inode_of_ne hne, hself]
  · rw [hgrown₂.inode_of_ne hj', hgrown₁.inode_of_ne hj', hother j hj]

/-- A call returns with a reference to an inode, or with none. If that inode has links, the call
was a tidy one. -/
def Returns (s : State P) (a : Option ℕ × State P) : Prop :=
  a.2.file = s.file ∧
    (((∀ n, a.1 = some n → (a.2.inode n).nlink ≠ 0) → Tidy s a.2) → Inv a.1.toList [] a.2)

section Create

variable {w : State P} {dp n : ℕ} {name : Name} {type major minor : UInt16} {ip : Inode}
  (h : Inv [] [] s) (hdp : (s.inode dp).type = tDir)

include h hdp

/-- The end of `create`, for a file or a device. -/
theorem createFile_spec (htype : type ≠ 0) (hfile : type ≠ tDir)
    (halloc : Allocated s v n (newInode type major minor)) (hrefs : Refs [n, dp] v)
    (hspace : Space v) (hname : findName (v.inode dp).entries name = none)
    (hgrown : Grown v w dp ⟨n, name⟩ ip) (htidy : Tidy s (iput w dp)) : Inv [n] [] (iput w dp) := by
  have hne := halloc.ne hdp
  obtain ⟨hn, hfree, hvn, hothers, hholders, -⟩ := halloc
  have hvdp := hothers dp hne
  have hlive := live_of_tidy h htidy hgrown hdp (by rw [hvdp, hdp]) (by rw [hvdp]) hn.1.ne' hname
    hrefs (by simp) (by rw [hholders]) rfl
  have hlinks := h.tree.unnamed n hn.1.ne' hfree
  have hv : v.inode = update s.inode n (newInode type major minor) :=
    eq_update_iff.mpr ⟨hvn, hothers⟩
  have htree : Tree nInodes rootIno [n] v.inode := by
    rw [hv]
    have hplain : (s.inode n).type ≠ tDir := by
      rw [hfree]
      exact tDir_ne_zero.symm
    refine h.tree.setPlain hplain hfile rfl hn (fun _ hj ↦ count_cons_of_ne hj.symm)
      (fun _ ↦ ?_) fun _ ↦ hlinks
    rw [hlinks, count_cons_self]
    rfl
  have hinv' := hgrown.inv ⟨htree, hrefs, hspace⟩ (by rw [hvdp, hdp]) (by rwa [hvdp]) hname
    (by rwa [hvn]) (by rwa [hvn])
  exact (iput_spec hinv'.swap).1

/-- The end of `create`, for a directory. -/
theorem createDir_spec {v' : State P} (halloc : Allocated s v n (newInode tDir major minor))
    (hrefs : Refs [n, dp] v) (hspace : Space v)
    (hdots : Dotted v v' dp n) (hname : findName (v'.inode dp).entries name = none)
    (hgrown : Grown v' w dp ⟨n, name⟩ ip) (htidy : Tidy s (iput w dp)) :
    Inv [n] [] (iput w dp) := by
  have hne := halloc.ne hdp
  obtain ⟨hn, hfree, hvn, hv, hholders, -⟩ := halloc
  have hvdp : v'.inode dp = { s.inode dp with nlink := (s.inode dp).nlink + 1 } := by
    rw [hdots.parent_eq, hv dp hne]
  have hlive := live_of_tidy h htidy hgrown hdp (by rw [hvdp, hdp]) (by rw [hvdp]) hn.1.ne' hname
    (hdots.refs _ hrefs) (by simp) (by rw [hdots.holders_eq, hholders]) rfl
  have hle := h.nlink_le (hdp ▸ tDir_ne_zero)
  have hlive' : (v'.inode dp).nlink ≠ 0 := by
    rw [hvdp]
    simp only
    omega
  have hip : ip = { s.inode dp with
      nlink := (s.inode dp).nlink + 1
      entries := insertEntry (s.inode dp).entries ⟨n, name⟩
      blocks := ip.blocks } := by
    rw [hgrown.inode_eq, hvdp]
  rw [hvdp] at hname
  obtain ⟨hshape, hparent, hnamed⟩ := (h.tree.shape dp hdp).insert (h.tree.range_dir hdp).1.ne'
    ⟨n, name⟩ hname (congrArg Inode.entries hip)
  have hw : w.inode = update (update s.inode n (v'.inode n)) dp ip := by
    refine eq_update_iff.mpr ⟨hgrown.inode_self, fun j hj ↦ ?_⟩
    rw [hgrown.inode_of_ne hj, update_apply]
    split_ifs with hj'
    · rw [hj']
    · rw [hdots.others j hj hj', hv j hj']
  have hnlinkn : (v'.inode n).nlink = 1 := by
    rw [hdots.new_nlink, hvn]
    rfl
  have htyped : ip.type = tDir := by rw [hip, hdp]
  have hnlinkd : ip.nlink = (s.inode dp).nlink + 1 := by rw [hip]
  have htree : Tree nInodes rootIno [] w.inode := by
    rw [hw]
    exact h.tree.mkdir hdp hlive hn hfree rfl hdots.new_type hnlinkn hdots.new_entries htyped
      hnlinkd hshape hparent hnamed
  have hrefs' : Refs [n, dp] w := hgrown.refs (hdots.refs _ hrefs) hlive'
  have hspace' : Space w := hgrown.space (hdots.space hspace) (by rw [hvdp, hdp])
    (h.tree.range_dir hdp).2
  exact (iput_spec (.swap ⟨htree, hrefs', hspace'⟩)).1

theorem createNew_spec (hinv : Inv [dp] [] u) (hinode : u.inode = s.inode)
    (hholders : u.holders = s.holders) (hfile : u.file = s.file) :
    Post (createNew u dp name type major minor) fun a ↦ Returns s (some a.1, a.2) := by
  intro a hok
  obtain ⟨⟨n, u₁⟩, hialloc, hok⟩ := bind_eq_ok.mp hok
  obtain ⟨u₂, hlock, hok⟩ := bind_eq_ok.mp hok
  obtain ⟨v, hset, htype, halloc, hrefs, hspace⟩ :=
    ialloc_spec major minor hinv.refs hinv.space hialloc hlock
  have halloc' : Allocated s v n (newInode type major minor) := by
    refine ⟨halloc.range, hinode ▸ halloc.free, halloc.new_eq, fun j hj ↦ ?_, ?_, ?_⟩
    · rw [halloc.others j hj, hinode]
    · rw [halloc.holders_eq, hholders]
    · rw [halloc.file_eq, hfile]
  have hne := halloc'.ne hdp
  have hone : (v.inode n).nlink ≠ 0 := by
    rw [halloc'.new_eq]
    exact one_ne_zero
  -- What the new inode and its directory are like before the entry is made.
  have hbody : Post (if type = tDir then createDots v dp n else pure v) fun v' ↦
      Space v' ∧ v'.file = s.file ∧ (v'.inode n).nlink ≠ 0 ∧
      ∀ w ip, findName (v'.inode dp).entries name = none → Grown v' w dp ⟨n, name⟩ ip →
        Tidy s (iput w dp) → Inv [n] [] (iput w dp) := by
    split_ifs with hdir
    · subst hdir
      have hle := h.nlink_le (hdp ▸ tDir_ne_zero)
      rw [count_nil, ← halloc'.others dp hne] at hle
      refine (createDots_spec halloc'.range hne (h.tree.range_dir hdp).2 hone
        (by rw [halloc'.new_eq]; rfl) (by omega)).mono fun v' hdots ↦ ?_
      exact ⟨hdots.space hspace, hdots.file_eq.trans halloc'.file_eq, by rwa [hdots.new_nlink],
        fun w ip ↦ createDir_spec h hdp halloc' hrefs hspace hdots⟩
    · exact .ok ⟨hspace, halloc'.file_eq, hone,
        fun w ip ↦ createFile_spec h hdp htype hdir halloc' hrefs hspace⟩
  simp only [hset] at hok
  refine Post.bind (Q := fun a ↦ Returns s (some a.1, a.2)) hbody ?_ a
    (by split_ifs at hok ⊢ <;> exact hok)
  rintro v' ⟨hspace', hfile', hnlink, hend⟩
  refine .bind (dirlink_made (hspace'.room dp) name n) ?_
  rintro ⟨_ | _, w⟩ hmade
  · exact .error
  obtain ⟨-, hname, ip, hgrown⟩ := hmade rfl
  refine .ok ⟨?_, fun htidy ↦ hend w ip hname hgrown (htidy ?_)⟩
  · rw [iput_file, hgrown.state_eq]
    exact hfile'
  · rintro m ⟨⟩
    rwa [iput_inode_of_ne hne.symm, hgrown.inode_of_ne hne.symm]

end Create

/-! ### Names -/

omit [Fintype P] in
theorem Tidy.congr (h : Tidy s t) (hinode : u.inode = t.inode) : Tidy s u := by
  rw [Tidy, hinode]
  exact h

section

variable (h : Inv [] [] s) (hp : (s.proc p).live = true)

include h hp

theorem sysLink_spec (old new : List UInt8) :
    Post (sysLink s p old new) fun a ↦ Tidy s a.2 → Inv [] [] a.2 := by
  refine .bind (namex_spec h hp old false) ?_
  rintro ⟨_ | ⟨ip, nm⟩, s₁⟩ ⟨hfrees₁, hlost, hfound⟩
  · exact .ok fun _ ↦ hlost rfl
  refine .bind (ilock_spec (hfound ip nm rfl).1 ip) ?_
  rintro s₂ ⟨hinv₂, hsame₂, halloc, -⟩
  rw [← hsame₂.inode_eq] at halloc
  split_ifs with hdir
  · exact .ok fun _ ↦ (iput_spec hinv₂).1
  obtain ⟨hinv₃, hnlink₃⟩ := linkUp_spec hinv₂ halloc hdir
  generalize hs₃ : s₂.setInode ip _ = s₃ at hinv₃ hnlink₃ ⊢
  have hother : ∀ j, j ≠ ip → s₃.inode j = s.inode j := by
    intro j hj
    rw [← hs₃, ← hfrees₁.inode_eq_of_used fun _ ↦ h.used, ← hsame₂.inode_eq]
    exact update_of_ne hj _ _
  have htype : (s₃.inode ip).type = (s₂.inode ip).type := by rw [← hs₃, setInode_self]
  have hproc : s₃.proc = s.proc := by
    rw [← hs₃, ← hfrees₁.proc_eq, ← hsame₂.frees.proc_eq]
    rfl
  have hholders : ∀ j, s₃.holders j = s.holders j := by
    intro j
    rw [← hfrees₁.holders_eq, ← hsame₂.frees.holders_eq, ← hs₃]
    rfl
  refine .bind (namex_spec hinv₃ (hproc ▸ hp) new true) ?_
  rintro ⟨r, s₄⟩ ⟨hfrees₄, hlost₄, hfound₄⟩
  have hinode₄ : s₄.inode = s₃.inode := by
    refine hfrees₄.inode_eq_of_used fun j hj hzero ↦ ?_
    have hji : j ≠ ip := by
      rintro rfl
      exact hnlink₃ hzero
    rw [hother j hji] at hj hzero
    rw [hholders]
    exact h.used hj hzero
  rcases r with _ | ⟨dp, name⟩
  · refine (linkBad_spec (hlost₄ rfl) ?_).mono fun _ ht _ ↦ ht
    rwa [hinode₄, htype]
  obtain ⟨hinv₄, hdp⟩ := hfound₄ dp name rfl
  refine .bind (ilock_spec hinv₄ dp) ?_
  rintro s₅ ⟨hinv₅, hsame₅, -⟩
  have hinode : s₅.inode = s₃.inode := hsame₅.inode_eq.trans hinode₄
  have hne : dp ≠ ip := by
    rintro rfl
    exact hdir (by rw [← htype, ← hinode₄, hdp rfl])
  refine linkInto_spec h hinv₅ ?_ ?_ ?_ ?_ ?_ ?_
  · rw [hsame₅.frees.holders_eq, hfrees₄.holders_eq, hholders]
  · rwa [hinode, htype]
  · rwa [hinode, htype]
  · rwa [hinode]
  · rw [hsame₅.inode_eq, hdp rfl]
  · rw [hinode, hother dp hne]

section

variable (path : List UInt8)

theorem sysUnlink_spec : Post (sysUnlink s p path) fun a ↦ Inv [] [] a.2 := by
  refine .bind (namex_spec h hp path true) ?_
  rintro ⟨_ | ⟨dp, name⟩, s₁⟩ ⟨-, hlost, hfound⟩
  · exact .ok (hlost rfl)
  refine .bind (ilock_spec (hfound dp name rfl).1 dp) ?_
  rintro s₂ ⟨hinv₂, -⟩
  split_ifs with hdots
  · exact .ok (iput_spec hinv₂).1
  refine .bind (dirlookup_spec hinv₂ dp name) ?_
  rintro ⟨_ | ⟨ip, k⟩, s₃⟩ ⟨hdp, hinode₃, -, hlooked⟩
  · obtain rfl : s₃ = s₂ := hlooked
    exact .ok (iput_spec hinv₂).1
  obtain ⟨hinv₃, de, hk, hinum, hname⟩ := hlooked
  refine .bind (ilock_spec hinv₃ ip) ?_
  rintro s₄ ⟨hinv₄, hsame₄, halloc, hvalid⟩
  rw [← hinode₃, ← hsame₄.inode_eq] at hdp hk
  rw [← hsame₄.inode_eq] at halloc
  refine unlinkEntry_spec hinv₄ hdp hk hinum ?_ hvalid halloc
  rw [hname]
  exact not_or.mp hdots

theorem create_spec (type major minor : UInt16) :
    Post (create s p path type major minor) (Returns s) := by
  refine .bind (namex_spec h hp path true) ?_
  rintro ⟨_ | ⟨dp, name⟩, s₁⟩ ⟨hfrees₁, hlost, hfound⟩
  · exact .ok ⟨hfrees₁.file_eq, fun _ ↦ hlost rfl⟩
  refine .bind (ilock_spec (hfound dp name rfl).1 dp) ?_
  rintro s₂ ⟨hinv₂, hsame₂, -⟩
  have hfrees₂ := hfrees₁.trans hsame₂.frees
  refine .bind (dirlookup_spec hinv₂ dp name) ?_
  rintro ⟨_ | ⟨ip, k⟩, s₃⟩ ⟨hdp, -, hfrees₃, hlooked⟩
  · obtain rfl : s₃ = s₂ := hlooked
    have hinode := hfrees₂.inode_eq_of_used fun _ ↦ h.used
    exact .bind (createNew_spec h (hinode ▸ hdp) hinv₂ hinode (funext hfrees₂.holders_eq)
      hfrees₂.file_eq) fun _ ↦ .ok
  · obtain ⟨hinv₄, hfrees₄⟩ := iput_spec hlooked.1.swap
    refine .bind (ilock_spec hinv₄ ip) ?_
    rintro s₅ ⟨hinv₅, hsame₅, -⟩
    have hfrees := ((hfrees₂.trans hfrees₃).trans hfrees₄).trans hsame₅.frees
    split_ifs with hfile
    · exact .ok ⟨hfrees.file_eq, fun _ ↦ hinv₅⟩
    · exact .ok ⟨(iput_file _ _).trans hfrees.file_eq, fun _ ↦ (iput_spec hinv₅).1⟩

theorem sysCreate_spec (type major minor : UInt16) :
    Post (sysCreate s p path type major minor) fun a ↦ Tidy s a.2 → Inv [] [] a.2 := by
  refine .bind (create_spec h hp path type major minor) ?_
  rintro ⟨_ | n, s₁⟩ ⟨-, hspec⟩
  · exact .ok fun htidy ↦ hspec fun _ ↦ htidy
  · refine .ok fun htidy ↦ (iput_spec (hspec fun hnlink ↦ htidy.congr ?_)).1
    rw [iput_of_nlink (hnlink n rfl)]
    rfl

theorem openInode_spec (omode : UInt32) : Post (openInode s p path omode) (Returns s) := by
  unfold openInode
  split_ifs with hcreate
  · exact create_spec h hp path tFile 0 0
  · refine .bind (namex_spec h hp path false) ?_
    rintro ⟨_ | ⟨ip, name⟩, s₁⟩ ⟨hfrees₁, hlost, hfound⟩
    · exact .ok ⟨hfrees₁.file_eq, fun _ ↦ hlost rfl⟩
    refine .bind (ilock_spec (hfound ip name rfl).1 ip) ?_
    rintro s₂ ⟨hinv₂, hsame₂, -⟩
    have hfrees₂ := hfrees₁.trans hsame₂.frees
    split_ifs with hdir
    · exact .ok ⟨(iput_file _ _).trans hfrees₂.file_eq, fun _ ↦ (iput_spec hinv₂).1⟩
    · exact .ok ⟨hfrees₂.file_eq, fun _ ↦ hinv₂⟩

end

end

/-! ### Open files and processes -/

theorem holders_setFile (f : Fin nFile) (file : File) (i : ℕ) :
    (s.setFile f file).holders i + (s.file f).uses i = s.holders i + file.uses i := by
  have hsum := sum_update_add univ (mem_univ f) s.file file fun _ file ↦ file.uses i
  simp only [holders, setFile]
  omega

/-- References move between the call and the processes and open files. -/
theorem Inv.move {held' : List ℕ} (h : Inv held slack s)
    (heq : t = { s with file := t.file, proc := t.proc })
    (hcount : ∀ i, t.holders i + held'.count i = s.holders i + held.count i)
    (hclosed : ∀ f, (t.file f).ref = 0 → (t.file f).ip = none) : Inv held' slack t := by
  rw [heq]
  exact ⟨h.tree, ⟨fun i ↦ (h.refs.ref_eq i).trans (hcount i).symm, h.refs.kept, h.refs.allocated,
    hclosed⟩, h.space.total, h.space.room, h.space.unused⟩

theorem closed_setFile (h : Refs held s) {file : File} (hfile : file.ref = 0 → file.ip = none)
    (g : Fin nFile) (hg : ((s.setFile f file).file g).ref = 0) :
    ((s.setFile f file).file g).ip = none := by
  change (update s.file f file g).ref = 0 at hg
  change (update s.file f file g).ip = none
  rw [update_apply] at hg ⊢
  split_ifs at hg ⊢ with hgf
  · exact hfile hg
  · exact h.closed g hg

/-- The reference that the call has becomes that of an open file. -/
theorem Inv.openFile {ip : ℕ} (h : Inv (ip :: held) slack s) (hip : (s.file f).ip = none)
    (href : (s.file f).ref ≠ 0) : Inv held slack (s.setFile f { s.file f with ip := some ip }) := by
  refine h.move rfl (fun i ↦ ?_) (closed_setFile h.refs fun hnew ↦ absurd hnew href)
  have hholders := holders_setFile (s := s) f { s.file f with ip := some ip } i
  simp only [File.uses, hip, some.injEq, reduceCtorEq, if_false] at hholders
  rw [count_cons]
  simp only [beq_iff_eq]
  omega

theorem fileclose_spec (h : Inv held slack s) (f : Fin nFile) :
    Post (fileclose s f) fun t ↦ Inv held slack t ∧ t.proc = s.proc := by
  unfold fileclose
  split_ifs with hzero hshared
  · exact .error
  · refine .ok ⟨h.move rfl (fun i ↦ ?_) (closed_setFile h.refs fun hnew ↦ by
      simp only at hnew; omega), rfl⟩
    have hholders := holders_setFile (s := s) f { s.file f with ref := (s.file f).ref - 1 } i
    simp only [File.uses] at hholders ⊢
    omega
  · cases hip : (s.file f).ip with
    | none =>
      refine .ok ⟨h.move rfl (fun i ↦ ?_) (closed_setFile h.refs fun _ ↦ rfl), rfl⟩
      have hholders := holders_setFile (s := s) f { ref := 0, ip := none } i
      simp only [File.uses, hip] at hholders ⊢
      omega
    | some ip =>
      refine .ok ⟨(iput_spec (h.move rfl (fun i ↦ ?_) (closed_setFile h.refs fun _ ↦ rfl))).1,
        iput_proc _ _⟩
      have hholders := holders_setFile (s := s) f { ref := 0, ip := none } i
      simp only [File.uses, hip, some.injEq, reduceCtorEq, if_false] at hholders
      rw [count_cons]
      simp only [beq_iff_eq]
      omega

omit [Fintype P] in
theorem filealloc_eq_some (h : filealloc s = some (f, t)) :
    (s.file f).ref = 0 ∧ t = s.setFile f { s.file f with ref := 1 } := by
  obtain ⟨g, hfind, hret⟩ := map_eq_some_iff.mp h
  cases hret
  exact ⟨by simpa using find?_some hfind, rfl⟩

section Processes

variable [DecidableEq P]

variable {p : P} {path : List UInt8} {r : ℤ}

variable {fd : Fin nOFile}

omit [Fintype P] in
theorem fdalloc_eq_some {f : Fin nFile} (h : fdalloc s p f = some (fd, t)) :
    t = s.setProc p { s.proc p with ofile := update (s.proc p).ofile fd (some f) } := by
  obtain ⟨g, -, hret⟩ := map_eq_some_iff.mp h
  cases hret
  rfl

theorem holders_setProc (p : P) (proc : Proc) (i : ℕ) :
    (s.setProc p proc).holders i + (s.proc p).uses i = s.holders i + proc.uses i := by
  have hsum := sum_update_add univ (mem_univ p) s.proc proc fun _ proc ↦ proc.uses i
  simp only [holders, setProc]
  omega

theorem Inv.setProc {held' : List ℕ} (h : Inv held slack s) (p : P) (proc : Proc)
    (hcount : ∀ i, proc.uses i + held'.count i = (s.proc p).uses i + held.count i) :
    Inv held' slack (s.setProc p proc) := by
  refine h.move rfl (fun i ↦ ?_) h.refs.closed
  have hholders := holders_setProc (s := s) p proc i
  have huses := hcount i
  omega

variable {init : P}

omit [Fintype P] in
theorem iput_setProc (p : P) (proc : Proc) :
    iput (s.setProc p proc) i = (iput s i).setProc p proc := by
  unfold iput
  change (if s.valid i ∧ (s.inode i).nlink = 0 ∧ s.ref i = 1 then _ else _ : State P).setRef i _ = _
  split_ifs <;> rfl

theorem closeFd_spec (h : Inv held slack s) (p : P) (fd : Fin nOFile) : Post (closeFd s p fd)
    fun t ↦ Inv held slack t ∧ (t.proc p).live = (s.proc p).live := by
  unfold closeFd
  split
  · exact .ok ⟨h, rfl⟩
  · refine (fileclose_spec (h.setProc p _ fun _ ↦ ?_) _).mono fun t ht ↦ ⟨ht.1, ?_⟩
    · rfl
    · rw [ht.2]
      change (update s.proc p _ p).live = _
      rw [update_self]

theorem sysClose_spec (h : Inv held slack s) (p : P) (fd : Option (Fin nOFile)) :
    Post (sysClose s p fd) fun a ↦ Inv held slack a.2 := by
  unfold sysClose
  split
  · exact .ok h
  · split_ifs
    · exact .ok h
    · exact .bind (closeFd_spec h p _) fun _ ht ↦ .ok ht.1

theorem closeAll_spec (fds : List (Fin nOFile)) (h : Inv held slack s) : Post (closeAll p fds s)
    fun t ↦ Inv held slack t ∧ (t.proc p).live = (s.proc p).live := by
  induction fds generalizing s with
  | nil => exact .ok ⟨h, rfl⟩
  | cons fd rest ih =>
    exact .bind (closeFd_spec h p fd) fun u hu ↦ (ih hu.1).mono fun t ht ↦ ⟨ht.1, ht.2.trans hu.2⟩

omit [Fintype P] [DecidableEq P] in
/-- The open files of a process get one more reference each, and keep their inodes. -/
theorem dupFiles_eq (ofile : Fin nOFile → Option (Fin nFile)) (s : State P) :
    dupFiles ofile s = { s with file := (dupFiles ofile s).file } ∧
      ∀ f, ((dupFiles ofile s).file f).ip = (s.file f).ip ∧
        (s.file f).ref ≤ ((dupFiles ofile s).file f).ref := by
  unfold dupFiles
  generalize finRange nOFile = fds
  induction fds generalizing s with
  | nil => exact ⟨rfl, fun _ ↦ ⟨rfl, le_rfl⟩⟩
  | cons fd rest ih =>
    rw [foldl_cons]
    cases ofile fd with
    | none => exact ih s
    | some f =>
      obtain ⟨heq, hfile⟩ := ih (s.setFile f { s.file f with ref := (s.file f).ref + 1 })
      refine ⟨heq, fun g ↦ ?_⟩
      obtain ⟨hip, href⟩ := hfile g
      change _ = (update s.file f _ g).ip at hip
      change (update s.file f _ g).ref ≤ _ at href
      rw [update_apply] at hip href
      split_ifs at hip href with hg
      · rw [hg] at hip href
        rw [hg]
        exact ⟨hip, Nat.le_of_succ_le href⟩
      · exact ⟨hip, href⟩

section

variable (h : Inv [] [] s) (hp : (s.proc p).live = true)

include h hp

theorem sysOpen_spec (path : List UInt8) (omode : UInt32) :
    Post (sysOpen s p path omode) fun a ↦ Tidy s a.2 → Inv [] [] a.2 := by
  refine .bind (openInode_spec h hp path omode) ?_
  rintro ⟨_ | ip, s₁⟩ ⟨hfile, hspec⟩
  · exact .ok fun htidy ↦ hspec fun _ ↦ htidy
  dsimp only at hfile hspec ⊢
  cases hfa : filealloc s₁ with
  | none =>
    refine .ok fun htidy ↦ (iput_spec (hspec fun hnlink ↦ htidy.congr ?_)).1
    rw [iput_of_nlink (hnlink ip rfl)]
    rfl
  | some alloc =>
    obtain ⟨f, s₂⟩ := alloc
    obtain ⟨hzero, rfl⟩ := filealloc_eq_some hfa
    have hip : (s₁.file f).ip = none := by
      rw [hfile] at hzero ⊢
      exact h.refs.closed f hzero
    have hself : ∀ file, (s₁.setFile f file).file f = file := fun _ ↦ update_self _ _ _
    have hinv₂ : Inv [ip] [] s₁ → Inv [ip] [] (s₁.setFile f { s₁.file f with ref := 1 }) := by
      intro hinv
      refine hinv.move rfl (fun i ↦ ?_) (closed_setFile hinv.refs fun hnew ↦ by simp at hnew)
      have hholders := holders_setFile (s := s₁) f { s₁.file f with ref := 1 } i
      simp only [File.uses] at hholders ⊢
      omega
    dsimp only
    cases hfd : fdalloc (s₁.setFile f { s₁.file f with ref := 1 }) p f with
    | none =>
      refine .bind (fun _ hclose ↦ hclose) fun s₃ hclose ↦ .ok fun htidy ↦ ?_
      have hinode : s₃.inode = s₁.inode := by
        simp only [fileclose, hself, hip] at hclose
        cases hclose
        rfl
      refine (iput_spec
        (fileclose_spec (hinv₂ (hspec fun hnlink ↦ htidy.congr ?_)) f s₃ hclose).1).1
      rw [iput_of_nlink (by rw [hinode]; exact hnlink ip rfl)]
      exact hinode.symm
    | some slot =>
      obtain ⟨fd, s₃⟩ := slot
      obtain rfl := fdalloc_eq_some hfd
      refine .ok fun htidy ↦
        .openFile ((hinv₂ (hspec fun _ ↦ htidy.congr rfl)).setProc p _ fun _ ↦ ?_) ?_ ?_
      · rfl
      · exact (congrArg File.ip (hself _)).trans hip
      · exact fun hnew ↦ one_ne_zero ((congrArg File.ref (hself _)).symm.trans hnew)

theorem sysChdir_spec (path : List UInt8) : Post (sysChdir s p path) fun a ↦ Inv [] [] a.2 := by
  refine .bind (namex_spec h hp path false) ?_
  rintro ⟨_ | ⟨ip, name⟩, s₁⟩ ⟨hfrees₁, hlost, hfound⟩
  · exact .ok (hlost rfl)
  refine .bind (ilock_spec (hfound ip name rfl).1 ip) ?_
  rintro s₂ ⟨hinv₂, hsame₂, -⟩
  dsimp only
  split_ifs with hdir
  · exact .ok (iput_spec hinv₂).1
  · have hp₂ : (s₂.proc p).live = true := by
      rwa [hsame₂.frees.proc_eq, hfrees₁.proc_eq]
    rw [iput_proc, ← iput_setProc]
    refine .ok (iput_spec (hinv₂.setProc p _ fun i ↦ ?_)).1
    rw [Proc.uses_of_live hp₂, Proc.uses_of_live, count_cons, count_cons]
    · simp only [beq_iff_eq]
      omega
    · exact hp₂

theorem exit_spec (init : P) : Post (exit init s p) (Inv [] []) := by
  unfold exit
  split_ifs
  · exact .error
  refine .bind (closeAll_spec _ h) ?_
  rintro u ⟨hinv, hlive⟩
  dsimp only
  rw [← iput_setProc]
  refine .ok (iput_spec (hinv.setProc p _ fun i ↦ ?_)).1
  rw [Proc.uses_of_dead rfl, Proc.uses_of_live (hlive.trans hp), count_cons]
  simp only [beq_iff_eq]
  omega

theorem fork_spec {q : P} (hq : (s.proc q).live = false) : Inv [] [] (fork s p q) := by
  obtain ⟨heq, hfile⟩ := dupFiles_eq (s.proc p).ofile s
  have hproc : (dupFiles (s.proc p).ofile s).proc = s.proc := by rw [heq]
  have hinv : Inv [] [] (dupFiles (s.proc p).ofile s) := by
    refine h.move (by rw [heq]) (fun i ↦ ?_) fun f hf ↦ ?_
    · have huses : ∀ f, ((dupFiles (s.proc p).ofile s).file f).uses i = (s.file f).uses i :=
        fun f ↦ by rw [File.uses, (hfile f).1, File.uses]
      simp only [holders, hproc, huses]
    · rw [(hfile f).1]
      exact h.refs.closed f (by have := (hfile f).2; omega)
  have hpos := hinv.cwd_pos (by rwa [hproc])
  rw [hproc] at hpos
  have hdup := idup_spec hinv hpos
  refine hdup.setProc q _ fun i ↦ ?_
  have hproc' : (idup (dupFiles (s.proc p).ofile s) (s.proc p).cwd).proc = s.proc := hproc
  rw [hproc', Proc.uses_of_dead hq, Proc.uses_of_live hp, count_cons]
  simp only [beq_iff_eq]
  omega

end

/-- Every call of a process that is alive keeps the invariant. -/
theorem call_inv {c : Call P} (h : Inv [] [] s) (hp : (s.proc c.caller).live = true) :
    Post (call init s c) fun t ↦ Tidy s t → Inv [] [] t := by
  cases c with
  | openPath p path omode => exact .map (sysOpen_spec h hp path omode)
  | mknod p path major minor => exact .map (sysCreate_spec h hp path tDev major minor)
  | mkdir p path => exact .map (sysCreate_spec h hp path tDir 0 0)
  | link p old new => exact .map (sysLink_spec h hp old new)
  | unlink p path => exact .map ((sysUnlink_spec h hp path).mono fun _ ht _ ↦ ht)
  | chdir p path => exact .map ((sysChdir_spec h hp path).mono fun _ ht _ ↦ ht)
  | close p fd => exact .map ((sysClose_spec h p fd).mono fun _ ht _ ↦ ht)
  | exit p => exact (exit_spec h hp init).mono fun _ ht _ ↦ ht
  | fork p q =>
    refine .ok fun _ ↦ ?_
    split_ifs with hq
    · exact h
    · exact fork_spec h hp (by simpa using hq)

end Processes

end Calls

end EasyKernels.Xv6.Directories
