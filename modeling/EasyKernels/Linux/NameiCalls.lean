import EasyKernels.Lib.References
import EasyKernels.Linux.PathWalk

/-!
# The calls that make and remove names

Every call of `Namei` keeps the invariant of `PathWalk` (`call_inv`), with one condition on two of
them: `i_nlinks` is a byte and nothing stops it at 255, so `sys_link` must not be called for an
inode with 255 links, nor `sys_mkdir` in such a directory (`Room`).

The changes that the calls make to the inodes come first: a new inode (`Inv.put_spec`), another
number of links or other contents of an inode that is no directory (`Inv.setPlain`), an entry added
(`Inv.addEntry_spec`) or cleared with the link (`Inv.clear`), and a directory made and removed
(`Inv.mkdir`, `Inv.rmdir`).
-/

set_option autoImplicit false

namespace EasyKernels.Linux.Namei

open List Function Finset Lib.Runs Lib.LinkTree Node
open Lib.References (byte_add_one byte_sub_one)

variable {T : Type*}

variable {i inum b k : ℕ} {de : Dirent}

/-! ### Modes and flags as bits -/

/-- The kind of an inode does not depend on its permissions. -/
theorem sIsdir_or (kind x y : UInt16) : sIsdir (kind ||| (x &&& 0x1FF &&& y)) = sIsdir kind := by
  have hperm : x &&& 0x1FF &&& y &&& sIfmt = 0 := by
    rw [UInt16.and_assoc x, UInt16.and_comm 0x1FF, UInt16.and_assoc, UInt16.and_assoc]
    change x &&& (y &&& 0) = 0
    rw [UInt16.and_zero, UInt16.and_zero]
  have hmask : (kind ||| (x &&& 0x1FF &&& y)) &&& sIfmt = kind &&& sIfmt := by
    have hdistrib : (kind ||| (x &&& 0x1FF &&& y)) &&& sIfmt =
        (kind &&& sIfmt) ||| (x &&& 0x1FF &&& y &&& sIfmt) :=
      UInt16.toBitVec_inj.mp BitVec.and_or_distrib_right
    rw [hdistrib, hperm, UInt16.or_zero]
  rw [sIsdir, sIsdir, hmask]

/-- A flag that is set stays set when the others are looked at. -/
theorem or_wronly_ne_zero (flag : UInt32) : (flag ||| oWronly) &&& oAccmode ≠ 0 := by
  have hdistrib : (flag ||| oWronly) &&& oAccmode = (flag &&& oAccmode) |||
    (oWronly &&& oAccmode) :=
    UInt32.toBitVec_inj.mp BitVec.and_or_distrib_right
  rw [hdistrib]
  intro hzero
  exact absurd (UInt32.or_eq_zero_iff.mp hzero).2 (by decide)

/-! ### Changes to the inodes -/

variable (s : State T)

@[simp] theorem setInode_self (i : ℕ) (ip : Inode) : (s.setInode i ip).inode i = ip :=
  update_self _ _ _

theorem setInode_of_ne {j : ℕ} (ip : Inode) (h : j ≠ i) : (s.setInode i ip).inode j = s.inode j :=
  update_of_ne h _ _

/-- A new inode, with the reference that `new_inode` returns. -/
def State.put (i : ℕ) (ip : Inode) : State T := (s.setInode i ip).setCount i 1

theorem put_inode (i : ℕ) (ip : Inode) : (s.put i ip).inode i = ip :=
  update_self _ _ _

open State

theorem put_setInode (i : ℕ) (ip ip' : Inode) : (s.put i ip).setInode i ip' = s.put i ip' := by
  unfold put setCount setInode
  simp only [update_idem]

/-- A block for a new inode. -/
theorem newBlock_put {s t : State T} {ip : Inode} (h : newBlock (s.put i ip) = some t) :
    ∃ n, t = put { s with free := n } i ip := by
  unfold newBlock at h
  split_ifs at h
  exact ⟨s.free - 1, (Option.some.inj h).symm⟩

/-- Other entries and another number of blocks in a directory. -/
def State.setDir (dir : ℕ) (entries : List Dirent) (blocks free : ℕ) : State T :=
  { s.setInode dir { s.inode dir with entries := entries, blocks := blocks } with free := free }

theorem setDir_self (dir : ℕ) (entries : List Dirent) (b f : ℕ) :
    (s.setDir dir entries b f).inode dir = { s.inode dir with entries := entries, blocks := b } :=
  update_self _ _ _

theorem setDir_of_ne {dir : ℕ} (h : i ≠ dir) (s : State T) (entries : List Dirent) (b f : ℕ) :
    (s.setDir dir entries b f).inode i = s.inode i :=
  update_of_ne h _ _

/-- What `new_inode` returns. -/
def Inode.fresh (task : Task) : Inode :=
  { Inode.zero with used := true, nlinks := 1, uid := task.euid, gid := task.egid % 256 }

/-- The inode is free. -/
structure New (s : State T) (i : ℕ) : Prop where
  range : 0 < i ∧ i < s.ninodes + 1
  free : (s.inode i).used = false

variable [Fintype T] {held held' slack slack' : List ℕ} {s t : State T} {i dir : ℕ} {ip : Inode}

section

variable (h : Inv held slack s)

include h

theorem Inv.setFree (n : ℕ) : Inv held slack { s with free := n } :=
  ⟨h.tree, h.two_links, ⟨h.refs.count_eq, h.refs.used⟩, h.kept⟩

/-- References move between the call and what else holds them. -/
theorem Inv.move (hinode : t.inode = s.inode) (hcount : t.count = s.count)
    (hninodes : t.ninodes = s.ninodes) (hlost : t.lost = s.lost)
    (hholders : ∀ j, t.holders j + held'.count j = s.holders j + held.count j) :
    Inv held' slack t := by
  refine ⟨?_, ?_, ⟨fun j ↦ ?_, fun j hj ↦ ?_⟩, ?_⟩
  · rw [hinode, hninodes]
    exact h.tree
  · rw [hinode]
    exact h.two_links
  · rw [hcount, h.refs.count_eq, hholders]
  · rw [hcount] at hj
    rw [hinode]
    exact h.refs.used j hj
  · rw [hlost, h.kept]

/-- The inodes change, and those that something refers to stay in use. -/
theorem Inv.setInodes {inode : ℕ → Inode} (htree : Tree (s.ninodes + 1) rootIno slack' inode)
    (hlinks : ∀ d, IsDir (inode d) → (inode d).nlinks ≠ 1)
    (hused : ∀ j, (s.inode j).used = true → (inode j).used = true) :
    Inv held slack' { s with inode := inode } :=
  ⟨htree, hlinks, ⟨h.refs.count_eq, fun j hj ↦ hused j (h.refs.used j hj)⟩, h.kept⟩

/-- One inode changes. -/
theorem Inv.setInode (htree : Tree (s.ninodes + 1) rootIno slack' (update s.inode i ip))
    (hused : ip.used = true) (htwo : IsDir ip → ip.nlinks ≠ 1) :
    Inv held slack' (s.setInode i ip) := by
  refine h.setInodes htree (fun d hd ↦ ?_) fun j hj ↦ ?_
  · rw [update_apply] at hd ⊢
    split_ifs at hd ⊢ with hdi
    · exact htwo hd
    · exact h.two_links d hd
  · rw [update_apply]
    split_ifs with hji
    · rw [hused]
    · rw [hj]

/-- A directory changes, and then another one in it. -/
theorem Inv.setDirs {ipn ipd : Inode}
    (htree : Tree (s.ninodes + 1) rootIno slack' (update (update s.inode i ipn) dir ipd))
    (husedn : ipn.used = true) (htwon : ipn.nlinks ≠ 1) (husedd : ipd.used = true)
    (htwod : ipd.nlinks ≠ 1) :
    Inv held slack' { s with inode := update (update s.inode i ipn) dir ipd } := by
  refine h.setInodes htree (fun d hd ↦ ?_) fun j hj ↦ ?_
  · simp only [update_apply] at hd ⊢
    split_ifs at hd ⊢
    · exact htwod
    · exact htwon
    · exact h.two_links d hd
  · simp only [update_apply]
    split_ifs
    · exact husedd
    · exact husedn
    · exact hj

end

/-- An inode that is no directory changes, with the number of its links and of those without an
entry. -/
theorem Inv.setPlain (h : Inv held slack s) (hused : (s.inode i).used = true)
    (hplain : ¬ IsDir (s.inode i)) (hused' : ip.used = true) (hplain' : ¬ IsDir ip)
    (hentries : ip.entries = []) (hslack : ∀ j, j ≠ i → slack'.count j = slack.count j)
    (hlinks : ip.nlinks.toNat + slack.count i = (s.inode i).nlinks.toNat + slack'.count i) :
    Inv held slack' (s.setInode i ip) := by
  have hfree := not_free_of_used hused
  have hold := h.tree.links_eq i hfree
  rw [nlink_plain hused hplain] at hold
  refine h.setInode ?_ hused' fun hdir ↦ absurd hdir hplain'
  refine h.tree.setPlain hplain hplain' hentries (h.tree.range i hfree) hslack (fun _ ↦ ?_)
    fun hfree' ↦ absurd hfree' (not_free_of_used hused')
  rw [nlink_plain hused' hplain']
  omega

/-- A link without an entry is taken back. -/
theorem Inv.unlinked (h : Inv held [i] s) (hused : (s.inode i).used = true)
    (hplain : ¬ IsDir (s.inode i)) {n : UInt8} (hn : n.toNat + 1 = (s.inode i).nlinks.toNat) :
    Inv held [] (s.setInode i { s.inode i with nlinks := n }) := by
  refine h.setPlain hused hplain hused hplain (h.tree.plain i hplain)
    (fun _ hj ↦ (count_cons_of_ne hj.symm).symm) ?_
  rw [count_cons_self]
  exact hn

theorem Inv.put_eq (h : Inv held slack s) (hnew : New s i) (ip : Inode) :
    s.put i ip = hold (s.setInode i ip) i := by
  have hzero : s.count i = 0 := by
    by_contra hne
    cases hnew.free.symm.trans (h.refs.used i hne)
  change _ = (s.setInode i ip).setCount i (s.count i + 1)
  rw [hzero]
  rfl

/-- A new inode has one link, whose entry is still to be made. -/
theorem Inv.put_spec (h : Inv held [] s) (hnew : New s i) (hused : ip.used = true)
    (hplain : ¬ IsDir ip) (hentries : ip.entries = []) (hone : ip.nlinks = 1) :
    Inv (i :: held) [i] (s.put i ip) := by
  have hfree : IsFree (s.inode i) := hnew.free
  have htree : Tree (s.ninodes + 1) rootIno [i] (update s.inode i ip) := by
    have hunnamed := h.tree.unnamed i hnew.range.1.ne' hfree
    refine h.tree.setPlain (fun hdir ↦ not_free hdir hfree) hplain hentries hnew.range
      (fun _ hj ↦ count_cons_of_ne hj.symm) (fun _ ↦ ?_) fun _ ↦ hunnamed
    rw [nlink_plain hused hplain, hone, hunnamed, count_cons_self]
    rfl
  rw [h.put_eq hnew]
  refine (h.setInode htree hused fun hdir ↦ absurd hdir hplain).hold_spec ?_
  change (update s.inode i ip i).used = true
  rw [update_self, hused]

/-! ### Entries -/

/-- A directory with a block that has been entered has links. -/
theorem Inv.dir_live (h : Inv held slack s) (hused : (s.inode dir).used = true)
    (hd : Entered s dir) (hblocks : (s.inode dir).blocks ≠ 0) :
    IsDir (s.inode dir) ∧ nlink (s.inode dir) ≠ 0 := by
  have hdir : IsDir (s.inode dir) := ⟨hused, hd.1, hblocks⟩
  exact ⟨hdir, mt (nlink_dir_eq_zero hdir (h.two_links dir hdir)).mp hd.2⟩

variable {name : Name}

omit [Fintype T] in
/-- What `add_entry` does to the directory when it finds no block. -/
theorem addEntry_eq_false (h : addEntry s dir name inum = (false, t)) :
    ∃ b f, (b = 0 ↔ (s.inode dir).blocks = 0) ∧ t = s.setDir dir (s.inode dir).entries b f := by
  unfold addEntry at h
  simp only at h
  split_ifs at h with hname hslot hspace
  · obtain rfl : s = t := (Prod.mk.inj h).2
    refine ⟨(s.inode dir).blocks, s.free, .rfl, ?_⟩
    unfold setDir setInode
    rw [update_eq_self]
  · cases h
  · refine ⟨(s.inode dir).blocks + s.free, 0, ?_, (Prod.mk.inj h).2.symm⟩
    omega
  · cases h

omit [Fintype T] in
/-- What `add_entry` does to the directory when it finds a place. -/
theorem addEntry_eq_true (h : addEntry s dir name inum = (true, t)) :
    (s.inode dir).blocks ≠ 0 ∧ ∃ b f, b ≠ 0 ∧ t = s.setDir dir
      (insertEntry (s.inode dir).entries ⟨inum, name.take nameLen⟩) b f := by
  unfold addEntry at h
  simp only at h
  split_ifs at h with hname hslot hspace
  · cases h
  · have hblocks := (not_or.mp hname).2
    refine ⟨hblocks, (s.inode dir).blocks, s.free, hblocks, ?_⟩
    rw [← (Prod.mk.inj h).2, insertEntry, if_pos hslot]
    rfl
  · cases h
  · have hblocks := (not_or.mp hname).2
    refine ⟨hblocks, (s.inode dir).blocks +
      (blocksFor ((s.inode dir).entries.length + 1) - (s.inode dir).blocks),
      s.free - (blocksFor ((s.inode dir).entries.length + 1) - (s.inode dir).blocks), ?_, ?_⟩
    · omega
    · rw [← (Prod.mk.inj h).2, insertEntry, if_neg hslot]
      rfl

variable {task : Task}

theorem findEntry_eq_none {size : ℕ} (h : Shape size dir ip) (hdir : dir ≠ 0)
    (hblocks : ip.blocks ≠ 0) (hname : name ≠ []) (hfind : findEntry task dir ip name = none) :
    findName ip.entries (name.take nameLen) = none := by
  have htake : name.take nameLen ≠ [] := fun hnil ↦ by
    rcases take_eq_nil_iff.mp hnil with hzero | hnil'
    · exact absurd hzero (by decide)
    · exact hname hnil'
  unfold findEntry at hfind
  simp only [if_neg hblocks] at hfind
  by_cases hroot : name.take nameLen = dotdot ∧ dir = task.root
  · rw [if_pos hroot] at hfind
    exact absurd rfl (findName_eq_none hfind h.self hdir)
  · rw [if_neg hroot, if_neg htake] at hfind
    exact hfind

/-- The directory keeps its links and the rest when `add_entry` fails. -/
theorem Inv.setBlocks (h : Inv held slack s) (hused : (s.inode dir).used = true) (f : ℕ)
    (hb : b = 0 ↔ (s.inode dir).blocks = 0) :
    Inv held slack (s.setDir dir (s.inode dir).entries b f) := by
  have hdir : IsDir { s.inode dir with blocks := b } ↔ IsDir (s.inode dir) :=
    and_congr_right fun _ ↦ and_congr_right fun _ ↦ not_congr hb
  have hnlink : nlink { s.inode dir with blocks := b } = nlink (s.inode dir) := by
    have hblocks : b ≠ 0 ↔ (s.inode dir).blocks ≠ 0 := not_congr hb
    simp only [nlink, hblocks]
  have htree : Tree (s.ninodes + 1) rootIno slack
      (update s.inode dir { s.inode dir with blocks := b }) := by
    refine h.tree.congr (fun j ↦ ?_) (fun j ↦ ?_) fun j ↦ ?_
    all_goals
      rw [update_apply]
      split_ifs with hj
    · rw [hj]
      exact ⟨Iff.rfl, hdir⟩
    · exact SameKind.refl _
    · rw [hj, hnlink]
    · rfl
    · rw [hj]
      rfl
    · rfl
  exact Inv.setFree (h.setInode htree hused fun hd ↦ h.two_links dir (hdir.mp hd)) f

/-- An entry is added for an inode that is no directory and has a link more than entries. -/
theorem Inv.addEntry_spec (h : Inv held [i] s) (hip : s.inode dir = ip) (hused : ip.used = true)
    (hd : sIsdir ip.mode = true ∧ ip.nlinks ≠ 0) (hblocks : ip.blocks ≠ 0)
    (hi : (s.inode i).used = true) (hplain : ¬ IsDir (s.inode i)) (hname : name ≠ [])
    (hfind : findEntry task dir ip name = none) (f : ℕ) (hb : b ≠ 0) :
    Inv held [] (s.setDir dir (insertEntry ip.entries ⟨i, name.take nameLen⟩) b f) := by
  subst hip
  obtain ⟨hdir, hlive⟩ := h.dir_live hused hd hblocks
  have hdird : IsDir { s.inode dir with
      entries := insertEntry (s.inode dir).entries ⟨i, name.take nameLen⟩
      blocks := b } := ⟨hused, hd.1, hb⟩
  have htree := h.tree.addEntry ⟨i, name.take nameLen⟩ hdir hlive hdird
    ((nlink_dir hdird).trans (nlink_dir hdir).symm) rfl (not_free_of_used hi) hplain
    (findEntry_eq_none (h.tree.shape dir hdir) (h.tree.range_dir hdir).1.ne' hblocks hname hfind)
    rfl
  exact .setFree (h.setInode htree hused fun _ ↦ h.two_links dir hdir) f

/-- An entry is cleared and its inode, which is no directory, loses the link. -/
theorem Inv.clear (h : Inv held [] s) (hdir : IsDir (s.inode dir))
    (hlive : nlink (s.inode dir) ≠ 0) (hk : (s.inode dir).entries[k]? = some de)
    (hinum : de.inum ≠ 0) (hused : (s.inode de.inum).used = true)
    (hlinks : (s.inode de.inum).nlinks ≠ 0) (hplain : ¬ IsDir (s.inode de.inum)) :
    Inv held [] ((s.setInode dir ((s.inode dir).clear k)).setInode de.inum
      { s.inode de.inum with nlinks := (s.inode de.inum).nlinks - 1 }) := by
  have hname := h.tree.name_of_plain hdir hlive hk hinum hplain
  have hne : de.inum ≠ dir := by
    intro heq
    exact hplain (heq ▸ hdir)
  have hcleared : Inv held [de.inum] (s.setInode dir ((s.inode dir).clear k)) :=
    h.setInode (h.tree.clearEntry hdir hlive hdir rfl hk hname (not_free_of_used hused) hplain rfl
      rfl) hdir.1 fun _ ↦ h.two_links dir hdir
  have hsame : (s.setInode dir ((s.inode dir).clear k)).inode de.inum = s.inode de.inum :=
    update_of_ne hne _ _
  have hpos := toNat_ne_zero hlinks
  have hunlinked := hcleared.unlinked (by rw [hsame, hused]) (by rw [hsame]; exact hplain)
    (by rw [hsame, byte_sub_one (pos_of_ne_zero hpos)]; omega)
  rwa [hsame] at hunlinked

/-! ### Directories -/

/-- A directory without an entry for another, and without the link for `..` of that. -/
def Inode.lose (ip : Inode) (k : ℕ) : Inode := { ip.clear k with nlinks := ip.nlinks - 1 }

/-- A directory that is empty is removed from another. -/
theorem Inv.rmdir (h : Inv held [] s) (hdir : IsDir (s.inode dir))
    (hlive : nlink (s.inode dir) ≠ 0) (hk : (s.inode dir).entries[k]? = some de)
    (hinum : de.inum ≠ 0) (hne : de.inum ≠ dir) (hdirn : IsDir (s.inode de.inum))
    (hempty : ∀ j, j ≠ 0 → named (s.inode de.inum) j = 0) :
    Inv held [] (((s.setInode dir ((s.inode dir).clear k)).setInode de.inum
      { s.inode de.inum with nlinks := 0 }).setInode dir ((s.inode dir).lose k)) := by
  have hshape := h.tree.shape dir hdir
  -- The entry is not `.`, and not `..` either, because an empty directory is no parent.
  have hname : de.name ≠ dot ∧ de.name ≠ dotdot := by
    rcases hshape.entry_cases hk with rfl | rfl | hk2
    · exact absurd rfl hne
    · have hroot : dir ≠ rootIno := by
        rintro rfl
        exact hne h.tree.root_parent
      have hnamed := h.tree.tree dir hdir _ hshape.parent_lt
      rw [if_pos ⟨hroot, hlive, rfl⟩, hempty dir (h.tree.range_dir hdir).1.ne'] at hnamed
      omega
    · exact hshape.rest k de hk2 hk hinum
  have hnamed : named (s.inode dir) de.inum ≠ 0 := by
    refine (countP_pos_iff.mpr ⟨de, mem_of_getElem? hk, ?_⟩).ne'
    simp [Dirent.names, hname]
  have hdird : IsDir ((s.inode dir).lose k) := hdir
  have hdirn' : IsDir { s.inode de.inum with nlinks := 0 } := hdirn
  obtain ⟨hshape', hparent, hcleared⟩ := hshape.clear hk hname
    (rfl : entries ((s.inode dir).lose k) = _) rfl
  have htwo := Tree.two_le_nlink h.tree hdir hdirn hnamed hempty
  have hnlinks : ((s.inode dir).lose k).nlinks.toNat = (s.inode dir).nlinks.toNat - 1 :=
    byte_sub_one (pos_of_ne_zero (toNat_ne_zero (mt nlink_eq_zero hlive)))
  rw [nlink_dir hdir] at htwo
  have htree := Tree.rmdir h.tree hdir hdirn hnamed hempty hdirn' (nlink_eq_zero rfl) rfl hdird
    (by rw [nlink_dir hdird, nlink_dir hdir]; omega) hshape' hparent hcleared
  unfold State.setInode
  rw [update_comm hne, update_idem]
  refine h.setDirs htree hdird.1 (fun hone ↦ ?_) hdirn'.1 (show (0 : UInt8) ≠ 1 by decide)
  rw [hone, UInt8.toNat_one] at hnlinks
  omega

/-! ### The calls -/

theorem fail_spec {α : Type} {e : ℤ} {ok : α → State T → Prop} (is : List ℕ)
    (h : Inv (is ++ held) [] s) : Ends (fail e s is) ok (Inv held []) :=
  .bind (iputs_spec is h) fun _ ht ↦ .error ht

theorem done_spec {err : State T → Prop} (is : List ℕ) (h : Inv (is ++ held) [] s) :
    Ends (done s is) (fun _ ↦ Inv held []) err :=
  .bind (iputs_spec is h) fun _ ht ↦ .ok ht

/-- A call that returns keeps the invariant. -/
def Keeps (r : Except Panic (Except ℤ Unit × State T)) : Prop :=
  Ends r (fun _ ↦ Inv [] []) (Inv [] [])

section Calls

variable {task : Task}

/-- The directory in which a path ends has less than 255 links. -/
def RoomFor (s : State T) (task : Task) (path : List UInt8) : Prop :=
  ∀ dir name t, dirNamei (followLink task) task s path none = .ok (some (dir, name), t) →
    (s.inode dir).nlinks ≠ 255

theorem dirNamei_path (path : List UInt8) (hres : Resident s task) (h : Inv held [] s) :
    Post (dirNamei (followLink task) task s path none) fun p ↦
      Reaches Entered held s (p.1.map Prod.fst, p.2) :=
  dirNamei_spec (followLink_spec task) path none hres h fun _ hd ↦ nomatch hd

omit [Fintype T] in
theorem newInode_spec (s : State T) (task : Task) : Post (newInode s task) fun p ↦
    match p.1 with
    | none => p.2 = s
    | some i => New s i ∧ p.2 = s.put i (.fresh task) := by
  unfold newInode
  split_ifs
  · exact .error
  · cases hfind : (range' 1 s.ninodes).find? fun i ↦ (s.inode i).used = false with
    | none => exact .ok rfl
    | some i =>
      have hmem := mem_range'_1.mp (mem_of_find?_eq_some hfind)
      have hfree := find?_some hfind
      rw [decide_eq_true_eq] at hfree
      exact .ok ⟨⟨by omega, hfree⟩, rfl⟩

/-! ### New inodes -/

/-- A call has made an inode whose link has no entry yet. -/
structure Pending (dir i : ℕ) (s : State T) : Prop where
  inv : Inv [i, dir] [i] s
  ne : i ≠ dir
  plain : ¬ IsDir (s.inode i)
  one : (s.inode i).nlinks = 1
  entered : Entered s dir

variable {u : State T}

theorem ne_of_new (h : Inv [dir] [] u) (hnew : New u i) : i ≠ dir := by
  rintro rfl
  cases hnew.free.symm.trans h.used_of_held

omit [Fintype T] in
theorem put_inode_of_ne (s : State T) {i j : ℕ} (ip : Inode) (h : j ≠ i) :
    (s.put i ip).inode j = s.inode j :=
  update_of_ne h _ _

theorem pending_put (h : Inv [dir] [] u) (hd : Entered u dir) (hnew : New u i)
    (hused : ip.used = true) (hplain : ¬ IsDir ip) (hentries : ip.entries = [])
    (hone : ip.nlinks = 1) : Pending dir i (u.put i ip) := by
  have hne := ne_of_new h hnew
  refine ⟨h.put_spec hnew hused hplain hentries hone, hne, ?_, ?_, ?_⟩
  · rw [put_inode]
    exact hplain
  · rw [put_inode]
    exact hone
  · rw [Entered, put_inode_of_ne u ip hne.symm]
    exact hd

section

variable (h : Pending dir i s)

include h

variable {α : Type} {ok : α → State T → Prop} {e : ℤ}

/-- The call fails and frees the inode, and then gives up the directory. -/
theorem Pending.fail_both :
    Ends (fail e (s.setInode i { s.inode i with nlinks := (s.inode i).nlinks - 1 }) [i, dir]) ok
      (Inv [] []) := by
  exact fail_spec [i, dir] (h.inv.unlinked h.inv.used_of_held h.plain (by rw [h.one]; rfl))

/-- The call gives up the directory and frees the inode. -/
theorem Pending.fail_after {f : UInt8 → UInt8} (hf : f 1 = 0) : Ends (do
      let t ← iput s dir
      fail e (t.setInode i { t.inode i with nlinks := f (t.inode i).nlinks }) [i]) ok
      (Inv [] []) := by
  refine .bind (iput_lasting h.inv.swap (.inl h.entered.2)).self ?_
  rintro t ⟨-, hsame, hinv⟩
  have hpending : t.inode i = s.inode i := by rw [hsame.inode_eq]
  exact fail_spec [i] (hinv.unlinked hinv.used_of_held (by rw [hpending]; exact h.plain)
    (by rw [hpending, h.one, hf]; rfl))

variable {name : Name}

/-- The entry for a new inode is made, or the inode stays as it was. -/
theorem Pending.addEntry_spec {f g : State T → Except Panic (Except ℤ α × State T)}
    (hname : name ≠ []) (hfind : findEntry task dir (s.inode dir) name = none)
    (hf : ∀ t, Pending dir i t → Ends (f t) ok (Inv [] []))
    (hg : ∀ t, Inv [dir, i] [] t → Ends (g t) ok (Inv [] [])) :
    Ends (match addEntry s dir name i with
      | (false, t) => f t
      | (true, t) => g t) ok (Inv [] []) := by
  have hused : (s.inode dir).used = true := h.inv.swap.used_of_held
  rcases hadd : addEntry s dir name i with ⟨_ | _, t⟩
  · obtain ⟨b, f, hb, rfl⟩ := addEntry_eq_false hadd
    have hsame := setDir_of_ne h.ne s (s.inode dir).entries b f
    refine hf _ ⟨h.inv.setBlocks hused f hb, h.ne, by rw [hsame]; exact h.plain,
      by rw [hsame, h.one], ?_⟩
    rw [Entered, setDir_self]
    exact h.entered
  · obtain ⟨hblocks, b, f, hb, rfl⟩ := addEntry_eq_true hadd
    exact hg _ (h.inv.addEntry_spec rfl hused h.entered hblocks h.inv.used_of_held h.plain hname
      hfind f hb).swap

end

theorem plain_of_mode (h : sIsdir ip.mode = false) : ¬ IsDir ip := by
  intro hdir
  cases hdir.2.1.symm.trans h

theorem plain_of_blocks (h : ip.blocks = 0) : ¬ IsDir ip := fun hdir ↦ hdir.2.2 h

/-- A file loses its contents. -/
theorem Inv.truncate_spec (h : Inv (i :: held) [] s) (hmode : sIsdir (s.inode i).mode = false) :
    Inv (i :: held) [] (truncate s i) := by
  have hused := h.used_of_held
  unfold truncate
  dsimp only
  split_ifs
  · refine .setFree ?_ _
    exact h.setPlain hused (plain_of_mode hmode) hused (plain_of_blocks rfl) rfl (fun _ _ ↦ rfl) rfl
  · exact h

theorem emptyDir_spec (h : emptyDir i ip = true) : ip.blocks ≠ 0 ∧ ∀ j, j ≠ 0 → named ip j = 0 := by
  unfold emptyDir at h
  simp only [decide_eq_true_eq, all_eq_true] at h
  obtain ⟨hlen, hblocks, -, -, hdot, hdotdot, hrest⟩ := h
  refine ⟨hblocks, fun j hj ↦ (named_eq_zero ip j).mpr fun de hde hinum ↦ ?_⟩
  change de ∈ ip.entries at hde
  match hentries : ip.entries with
  | [] => simp [hentries] at hlen
  | [_] => simp [hentries] at hlen
  | first :: second :: rest =>
    rw [hentries] at hde hdot hdotdot hrest
    rcases mem_cons.mp hde with rfl | hde
    · exact .inl hdot
    · rcases mem_cons.mp hde with rfl | hde
      · exact .inr hdotdot
      · exact absurd ((hrest de hde).symm.trans hinum).symm hj

omit [Fintype T] in
theorem setDir_setInode (hne : i ≠ dir) (ip : Inode) (entries : List Dirent) (b f : ℕ) :
    (s.setDir dir entries b f).setInode i ip = (s.setInode i ip).setDir dir entries b f := by
  unfold setDir
  rw [setInode_of_ne s ip hne.symm]
  unfold setInode
  simp only [update_comm hne]

omit [Fintype T] in
theorem setDir_setInode_self (ip : Inode) (entries : List Dirent) (b f : ℕ) :
    (s.setDir dir entries b f).setInode dir ip = { s.setInode dir ip with free := f } := by
  unfold setDir setInode
  simp only [update_idem]

/-- A directory with an entry for a new one, and the link for `..` of that. -/
def Inode.gain (ip : Inode) (i : ℕ) (name : Name) (b : ℕ) : Inode :=
  { ip with
    entries := insertEntry ip.entries ⟨i, name.take nameLen⟩
    blocks := b
    nlinks := ip.nlinks + 1 }

variable {b : ℕ}

/-- The end of `sys_link`: the entry is made, and then the link is counted. -/
theorem Inv.link_spec (h : Inv [dir, i] [] u) (hne : i ≠ dir) (hentered : Entered u dir)
    (hblocks : (u.inode dir).blocks ≠ 0) (hplain : ¬ IsDir (u.inode i))
    (hmax : (u.inode i).nlinks ≠ 255) (hname : name ≠ [])
    (hfind : findEntry task dir (u.inode dir) name = none) (f : ℕ) (hb : b ≠ 0) : Ends (do
      let v ← iput (u.setDir dir
        (insertEntry (u.inode dir).entries ⟨i, name.take nameLen⟩) b f) dir
      done (v.setInode i { v.inode i with nlinks := (v.inode i).nlinks + 1 }) [i])
      (fun _ ↦ Inv [] []) (Inv [] []) := by
  have hused : (u.inode i).used = true := h.swap.used_of_held
  obtain ⟨entries, hentries⟩ : ∃ entries, entries = insertEntry (u.inode dir).entries
      ⟨i, name.take nameLen⟩ := ⟨_, rfl⟩
  -- The invariant holds when the link is counted first.
  have hmore : Inv [dir, i] [i]
      (u.setInode i { u.inode i with nlinks := (u.inode i).nlinks + 1 }) := by
    refine h.setPlain hused hplain hused hplain (h.tree.plain i hplain)
      (fun _ hj ↦ count_cons_of_ne hj.symm) ?_
    rw [count_cons_self, count_nil]
    exact byte_add_one hmax
  have hboth := hmore.addEntry_spec (setInode_of_ne u _ hne.symm) h.used_of_held hentered hblocks
    (by rw [setInode_self]; exact hused) (by rw [setInode_self]; exact hplain) hname hfind f hb
  have hlinks : ((u.setDir dir entries b f).inode dir).nlinks ≠ 0 := by
    rw [setDir_self]
    exact hentered.2
  rw [← hentries] at hboth ⊢
  rw [iput_eq (s := u.setDir dir entries b f) h.count_ne_zero (.inl hlinks)]
  change Ends (done (((u.setDir dir entries b f).setInode i
    { (u.setDir dir entries b f).inode i with
      nlinks := ((u.setDir dir entries b f).inode i).nlinks + 1 }).setCount dir _) [i]) _ _
  rw [setDir_of_ne hne, setDir_setInode hne]
  exact done_spec [i] hboth.release

section

variable (h : Inv [dir] [] u) (hnew : New u i) (hentered : Entered u dir)
  (hblocks : (u.inode dir).blocks ≠ 0) (hmax : (u.inode dir).nlinks ≠ 255) (hname : name ≠ [])
  (hfind : findEntry task dir (u.inode dir) name = none) (hdirn : IsDir ip) (htwo : ip.nlinks = 2)
  (hentries : ip.entries = [⟨i, dot⟩, ⟨dir, dotdot⟩]) (hb : b ≠ 0)

include h hnew hentered hblocks hmax hname hfind hdirn htwo hentries hb

/-- A directory is made in another. -/
theorem Inv.mkdir_tree : Tree (u.ninodes + 1) rootIno []
    (update (update u.inode i ip) dir ((u.inode dir).gain i name b)) := by
  obtain ⟨hdir, hlive⟩ := h.dir_live h.used_of_held hentered hblocks
  have hrange := h.tree.range_dir hdir
  have hshape := h.tree.shape dir hdir
  have hdird : IsDir ((u.inode dir).gain i name b) := ⟨h.used_of_held, hentered.1, hb⟩
  have hmore : ((u.inode dir).gain i name b).nlinks.toNat = _ := byte_add_one hmax
  obtain ⟨hshape', hparent, hnamed⟩ := hshape.insert hrange.1.ne' ⟨i, name.take nameLen⟩
    (findEntry_eq_none hshape hrange.1.ne' hblocks hname hfind)
    (rfl : entries ((u.inode dir).gain i name b) = _)
  refine h.tree.mkdir hdir hlive hnew.range hnew.free count_nil hdirn ?_ hentries hdird ?_
    hshape' hparent hnamed
  · rw [nlink_dir hdirn, htwo]
    rfl
  · rw [nlink_dir hdir] at hlive
    rw [nlink_dir hdird, nlink_dir hdir]
    omega

/-- The end of `sys_mkdir`. -/
theorem Inv.mkdir_spec (f : ℕ) : Inv [i, dir] []
    { (u.put i ip).setInode dir ((u.inode dir).gain i name b) with free := f } := by
  have htree := h.mkdir_tree hnew hentered hblocks hmax hname hfind hdirn htwo hentries hb
  refine .setFree ?_ f
  rw [h.put_eq hnew]
  refine (h.setDirs htree hdirn.1 (by rw [htwo]; decide) h.used_of_held fun hone ↦ ?_).hold_spec ?_
  · have hpos := toNat_ne_zero hentered.2
    have hnat := byte_add_one hmax
    rw [show _ + 1 = (1 : UInt8) from hone, UInt8.toNat_one] at hnat
    omega
  · change (update (update u.inode i ip) dir _ i).used = true
    rw [update_of_ne (ne_of_new h hnew), update_self]
    exact hdirn.1

end

/-- A new directory for which no entry was made. -/
theorem Inv.put_dead (h : Inv held [] s) (hnew : New s i) (hdir : (s.inode dir).used = true)
    (hdirn : IsDir ip) (hzero : ip.nlinks = 0)
    (hentries : ip.entries = [⟨i, dot⟩, ⟨dir, dotdot⟩]) : Inv (i :: held) [] (s.put i ip) := by
  obtain ⟨hpos, hlt⟩ := h.tree.range dir (not_free_of_used hdir)
  have htree := h.tree.allocDir hnew.range hnew.free count_nil ⟨hpos.ne', hlt⟩ hdirn
    (nlink_eq_zero hzero) hentries
  rw [h.put_eq hnew]
  refine (h.setInode htree hdirn.1 fun _ ↦ ?_).hold_spec ?_
  · rw [hzero]
    decide
  · rw [setInode_self]
    exact hdirn.1

/-- The end of `sys_mkdir` when there is no room for the entry. -/
theorem Inv.mkdir_fail_spec {ok : Unit → State T → Prop} (h : Inv [dir] [] u) (hnew : New u i)
    (hentered : Entered u dir) (hdirn : IsDir ip)
    (hentries : ip.entries = [⟨i, dot⟩, ⟨dir, dotdot⟩]) (f : ℕ)
    (hb : b = 0 ↔ (u.inode dir).blocks = 0) : Ends (do
      let v ← iput ((u.put i ip).setDir dir (u.inode dir).entries b f) dir
      fail enospc (v.setInode i { v.inode i with nlinks := 0 }) [i]) ok (Inv [] []) := by
  have hne := ne_of_new h hnew
  have hinv := h.setBlocks h.used_of_held f hb
  have hlinks : ((u.setDir dir (u.inode dir).entries b f).inode dir).nlinks ≠ 0 := by
    rw [setDir_self]
    exact hentered.2
  have hnew' : New (u.setDir dir (u.inode dir).entries b f) i :=
    ⟨hnew.range, by rw [setDir_of_ne hne, hnew.free]⟩
  have hstate : (u.put i ip).setDir dir (u.inode dir).entries b f =
      (u.setDir dir (u.inode dir).entries b f).put i ip := by
    unfold State.put State.setDir State.setCount State.setInode
    simp only [update_of_ne hne.symm, update_comm hne]
  rw [hstate]
  generalize u.setDir dir (u.inode dir).entries b f = w at hinv hlinks hnew' ⊢
  have hcount : (w.put i ip).count dir = w.count dir := update_of_ne hne.symm _ _
  rw [iput_eq (by rw [hcount]; exact hinv.count_ne_zero)
    (.inl (by rw [put_inode_of_ne w ip hne.symm]; exact hlinks)), hcount]
  have hfinal : ((w.put i ip).setCount dir (w.count dir - 1)).setInode i
      { ip with nlinks := 0 } =
      (w.setCount dir (w.count dir - 1)).put i { ip with nlinks := 0 } := by
    unfold State.put State.setCount State.setInode
    simp only [update_idem, update_comm hne]
  change Ends (fail enospc (((w.put i ip).setCount dir (w.count dir - 1)).setInode i
    { (w.put i ip).inode i with nlinks := 0 }) [i]) _ _
  rw [put_inode, hfinal]
  refine fail_spec [i] (hinv.release.put_dead ⟨hnew'.range, hnew'.free⟩ hinv.used_of_held ?_ rfl
    hentries)
  exact hdirn

section

variable (hres : Resident s task) (h : Inv [] [] s)

include hres h

variable (path : List UInt8)

/-- The directory of a path may be written and the name is not empty. -/
theorem dirFor_spec (absent empty denied : ℤ) : Ends (dirFor task s path absent empty denied)
      (fun a t ↦ SameFiles s t ∧ Inv [a.1] [] t ∧ Entered t a.1 ∧ a.2 ≠ [] ∧
        dirNamei (followLink task) task s path none = .ok (some a, t)) (Inv [] []) := by
  refine .bind (dirNamei_path path hres h).self ?_
  rintro ⟨_ | ⟨dir, name⟩, t⟩ ⟨heq, hsame, hreach⟩
  · exact fail_spec [] hreach
  · dsimp only
    split_ifs with hname hperm
    · exact fail_spec [dir] hreach.1
    · exact fail_spec [dir] hreach.1
    · exact .ok ⟨hsame, hreach.1, hreach.2, hname, heq⟩

/-- How `sys_mknod` and `sys_mkdir` begin. -/
theorem newFor_spec :
    Ends (newFor task s path) (fun a t ↦ ∃ u, SameFiles s u ∧ Inv [a.1] [] u ∧ Entered u a.1 ∧
      a.2.1 ≠ [] ∧ findEntry task a.1 (u.inode a.1) a.2.1 = none ∧ New u a.2.2 ∧
      dirNamei (followLink task) task s path none = .ok (some (a.1, a.2.1), u) ∧
      t = u.put a.2.2 (.fresh task)) (Inv [] []) := by
  refine .andThen (dirFor_spec hres h path _ _ _) ?_
  rintro ⟨dir, name⟩ u ⟨hsame, hinv, hentered, hname, heq⟩
  dsimp only
  split_ifs with hfind
  · exact fail_spec [dir] hinv
  · rw [Option.not_isSome_iff_eq_none] at hfind
    refine .bind (newInode_spec u task) ?_
    rintro ⟨_ | i, t⟩ hnew
    · obtain rfl : t = u := hnew
      exact fail_spec [dir] hinv
    · exact .ok ⟨u, hsame, hinv, hentered, hname, hfind, hnew.1, heq, hnew.2⟩

/-- How `sys_rmdir` and `sys_unlink` begin. -/
theorem entryFor_spec :
    Ends (entryFor task s path) (fun a t ↦ Inv [a.2.2, a.1] [] t ∧ Entered t a.1 ∧
      (t.inode a.1).blocks ≠ 0 ∧ (t.inode a.2.2).nlinks ≠ 0 ∧
      ∃ de, (t.inode a.1).entries[a.2.1]? = some de ∧ de.inum = a.2.2 ∧ de.inum ≠ 0)
      (Inv [] []) := by
  refine .andThen (dirFor_spec hres h path _ _ _) ?_
  rintro ⟨dir, name⟩ u ⟨-, hinv, hentered, hname, -⟩
  dsimp only
  cases hfind : findEntry task dir (u.inode dir) name with
  | none => exact fail_spec [dir] hinv
  | some k =>
    obtain ⟨hblocks, de, hde, hinum, hget⟩ := findEntry_eq_some hfind
    have hlinks := (hinv.entry hinv.used_of_held hentered hfind).2
    refine .bind (hinv.get_entry hentered hfind) ?_
    rintro t ⟨hsame, hinv', -, -⟩
    refine .ok ⟨hinv', ?_⟩
    rw [Entered, hsame.inode_eq]
    exact ⟨hentered, hblocks, hlinks, de, hde, congrArg Dirent.inum hget.symm, hinum⟩

theorem sysMknod_spec (mode : UInt16) : Keeps (sysMknod task s path mode) := by
  unfold sysMknod
  split_ifs
  · exact fail_spec [] h
  · refine .andThen (newFor_spec hres h path) ?_
    rintro ⟨dir, name, i⟩ t ⟨u, -, hinv, hentered, hname, hfind, hnew, -, rfl⟩
    dsimp only at hinv hentered hname hfind hnew ⊢
    rw [put_setInode, put_inode]
    have hpending : Pending dir i (u.put i { Inode.fresh task with mode := mode }) :=
      pending_put hinv hentered hnew rfl (plain_of_blocks rfl) rfl rfl
    exact hpending.addEntry_spec hname
      (by rw [put_inode_of_ne u _ hpending.ne.symm]; exact hfind)
      (fun t ht ↦ ht.fail_after (f := fun _ ↦ 0) rfl) fun t ↦ done_spec [dir, i]

/-- The reference counts of an inode that is reached and of the directory of a name. -/
theorem openNamei_spec (flag : UInt32) (mode : UInt16) :
    Ends (openNamei task s path flag mode) (fun i t ↦ Inv [i] [] t) (Inv [] []) := by
  unfold openNamei
  extract_lets flag' mode'
  -- A directory is never opened for writing, and to truncate is to write.
  have hwrite : flag' &&& oTrunc ≠ 0 → flag' &&& oAccmode ≠ 0 := by
    intro htrunc
    by_cases hset : flag &&& oTrunc ≠ 0 ∧ flag &&& oAccmode = 0
    · have hflag : flag' = flag ||| oWronly := if_pos hset
      rw [hflag]
      exact or_wronly_ne_zero flag
    · have hflag : flag' = flag := if_neg hset
      rw [hflag] at htrunc ⊢
      exact fun hzero ↦ hset ⟨htrunc, hzero⟩
  refine .bind (dirNamei_path path hres h) ?_
  rintro ⟨_ | ⟨dir, name⟩, t⟩ ⟨hsame, hreach⟩
  · exact fail_spec [] hreach
  · obtain ⟨hinv, hentered⟩ := hreach
    dsimp only at hinv hentered ⊢
    have hres' := hsame.resident hres
    by_cases hname : name = []
    · split_ifs
      · exact .ok hinv
      · exact fail_spec [dir] hinv
    · rw [if_neg hname]
      cases hfind : findEntry task dir (t.inode dir) name with
      | none =>
        dsimp only
        split_ifs
        · exact fail_spec [dir] hinv
        · exact fail_spec [dir] hinv
        · refine .bind (newInode_spec t task) ?_
          rintro ⟨_ | i, u⟩ hnew
          · obtain rfl : u = t := hnew
            exact fail_spec [dir] hinv
          · obtain ⟨hnew, rfl⟩ := hnew
            dsimp only
            rw [put_setInode, put_inode]
            have hpending : Pending dir i (t.put i { Inode.fresh task with mode := mode' }) :=
              pending_put hinv hentered hnew rfl (plain_of_blocks rfl) rfl rfl
            exact hpending.addEntry_spec hname
              (by rw [put_inode_of_ne t _ hpending.ne.symm]; exact hfind)
              (fun u hu ↦ hu.fail_both) fun u hu ↦ .bind (iput_spec hu) fun w hw ↦ .ok hw
      | some k =>
        dsimp only
        by_cases hexcl : flag' &&& oExcl ≠ 0
        · rw [if_pos hexcl]
          exact fail_spec [dir] hinv
        · rw [if_neg hexcl]
          refine .bind (hinv.get_entry hentered hfind) ?_
          rintro u ⟨hsame', hinv', hlast, hlastd⟩
          refine .bind (followLink_spec task [] u dir _ (hsame'.resident hres') hinv' hlastd
            hlast) ?_
          rintro ⟨_ | i, v⟩ ⟨-, hreach⟩
          · exact fail_spec [] hreach
          · obtain ⟨hinvi, -⟩ := hreach
            dsimp only at hinvi ⊢
            by_cases hrefused : (sIsdir (v.inode i).mode = true ∧ flag' &&& oAccmode ≠ 0) ∨
                permission task (v.inode i) (accMode flag') = false
            · rw [if_pos hrefused]
              exact fail_spec [i] hinvi
            · rw [if_neg hrefused]
              refine .ok ?_
              split_ifs with htrunc
              · exact hinvi.truncate_spec (Bool.eq_false_of_not_eq_true fun hdir ↦
                  hrefused (.inl ⟨hdir, hwrite htrunc⟩))
              · exact hinvi

theorem sysSymlink_spec (old new : List UInt8) : Keeps (sysSymlink task s old new) := by
  refine .andThen (dirFor_spec hres h new _ _ _) ?_
  rintro ⟨dir, name⟩ t ⟨-, hinv, hentered, hname, -⟩
  refine .bind (newInode_spec t task) ?_
  rintro ⟨_ | i, u⟩ hnew
  · obtain rfl : u = t := hnew
    exact fail_spec [dir] hinv
  · obtain ⟨hnew, rfl⟩ := hnew
    dsimp only at hinv hentered hname ⊢
    rw [put_setInode, put_inode]
    have hmode : sIsdir (sIflnk ||| (0x1FF &&& ~~~task.umask)) = false := by
      have hor := sIsdir_or sIflnk 0x1FF (~~~task.umask)
      rw [UInt16.and_self] at hor
      rw [hor]
      rfl
    generalize hblock : newBlock (t.put i _) = r
    cases r with
    | none =>
      exact (pending_put hinv hentered hnew rfl (plain_of_blocks rfl) rfl rfl).fail_after
        (f := fun n ↦ n - 1) rfl
    | some w =>
      obtain ⟨n, rfl⟩ := newBlock_put hblock
      dsimp only
      rw [put_setInode, put_inode]
      have hpending : Pending dir i (put { t with free := n } i { Inode.fresh task with
          mode := sIflnk ||| (0x1FF &&& ~~~task.umask), blocks := 1,
          target := (cString old).take 1023 }) :=
        pending_put (hinv.setFree n) hentered ⟨hnew.range, hnew.free⟩ rfl (plain_of_mode hmode)
          rfl rfl
      split_ifs with hfind
      · exact hpending.fail_both
      · rw [Option.not_isSome_iff_eq_none] at hfind
        exact hpending.addEntry_spec hname hfind (fun u hu ↦ hu.fail_both)
          fun u ↦ done_spec [dir, i]

theorem sysUnlink_spec : Keeps (sysUnlink task s path) := by
  refine .andThen (entryFor_spec hres h path) ?_
  rintro ⟨dir, k, i⟩ t ⟨hinv, hentered, hblocks, hlinks, de, hde, hinum, hne⟩
  dsimp only at hinv hentered hblocks hlinks hde hinum ⊢
  subst hinum
  split_ifs with hsticky hmode
  · exact fail_spec [dir, de.inum] hinv.swap
  · exact fail_spec [de.inum, dir] hinv
  · obtain ⟨hdir, hlive⟩ := hinv.dir_live hinv.swap.used_of_held hentered hblocks
    have hplain := plain_of_mode (Bool.eq_false_of_not_eq_true hmode)
    have hsame : (t.setInode dir ((t.inode dir).clear k)).inode de.inum = t.inode de.inum := by
      refine setInode_of_ne t _ fun heq ↦ ?_
      rw [heq] at hplain
      exact hplain hdir
    rw [hsame]
    exact done_spec [de.inum, dir] (hinv.clear hdir hlive hde hne hinv.used_of_held hlinks hplain)

theorem sysRmdir_spec : Keeps (sysRmdir task s path) := by
  refine .andThen (entryFor_spec hres h path) ?_
  rintro ⟨dir, k, i⟩ t ⟨hinv, hentered, hblocks, hlinks, de, hde, hinum, hne⟩
  dsimp only at hinv hentered hblocks hlinks hde hinum ⊢
  subst hinum
  split_ifs with hsticky hcount hself hmode hempty
  · exact fail_spec [dir, de.inum] hinv.swap
  · exact fail_spec [dir, de.inum] hinv.swap
  iterate 3 exact fail_spec [de.inum, dir] hinv
  · obtain ⟨hdir, hlive⟩ := hinv.dir_live hinv.swap.used_of_held hentered hblocks
    obtain ⟨hblocksn, hnone⟩ := emptyDir_spec (Bool.eq_true_of_not_eq_false hempty)
    have hdirn : IsDir (t.inode de.inum) :=
      ⟨hinv.used_of_held, Bool.eq_true_of_not_eq_false hmode, hblocksn⟩
    have hsame : (t.setInode dir ((t.inode dir).clear k)).inode de.inum = t.inode de.inum :=
      setInode_of_ne t _ hself
    have hsame' : ∀ ip, ((t.setInode dir ((t.inode dir).clear k)).setInode de.inum ip).inode dir =
        (t.inode dir).clear k := fun ip ↦ by
      rw [setInode_of_ne _ ip (Ne.symm hself), setInode_self]
    rw [hsame, hsame']
    exact done_spec [dir, de.inum] (hinv.rmdir hdir hlive hde hne hself hdirn hnone).swap

/-- A file of fewer than 255 links gets one more. -/
theorem sysLink_spec (old new : List UInt8)
    (hroom : ∀ i t, namei task s old = .ok (some i, t) → (s.inode i).nlinks ≠ 255) :
    Keeps (sysLink task s old new) := by
  refine .bind (namei_spec old hres h).self ?_
  rintro ⟨_ | i, t⟩ ⟨heq, hsame, hreach⟩
  · exact fail_spec [] hreach
  · have hmax := hroom i t heq
    obtain ⟨hinv, -⟩ := hreach
    dsimp only at hinv ⊢
    split_ifs with hmode
    · exact fail_spec [i] hinv
    · refine .bind (dirNamei_path new (hsame.resident hres) hinv) ?_
      rintro ⟨_ | ⟨dir, name⟩, u⟩ ⟨hsame', hreach⟩
      · exact fail_spec [i] hreach
      · obtain ⟨hinv', hentered⟩ := hreach
        dsimp only at hsame' hinv' hentered ⊢
        have hinode : u.inode i = t.inode i := by rw [hsame'.inode_eq]
        have hmax' : (u.inode i).nlinks ≠ 255 := by
          rw [(hsame.trans hsame').inode_eq]
          exact hmax
        have hplain : ¬ IsDir (u.inode i) := by
          rw [hinode]
          exact plain_of_mode (Bool.eq_false_of_not_eq_true hmode)
        have hused : (u.inode i).used = true := hinv'.swap.used_of_held
        split_ifs with hname hperm hfind
        · exact fail_spec [i, dir] hinv'.swap
        · exact fail_spec [dir, i] hinv'
        · exact fail_spec [dir, i] hinv'
        · rw [Option.not_isSome_iff_eq_none] at hfind
          have husedd := hinv'.used_of_held
          generalize hadd : addEntry u dir name i = r
          obtain ⟨b, v⟩ := r
          cases b with
          | false =>
            obtain ⟨b, f, hb, rfl⟩ := addEntry_eq_false hadd
            exact fail_spec [dir, i] (hinv'.setBlocks husedd f hb)
          | true =>
            obtain ⟨hblocks, b, f, hb, rfl⟩ := addEntry_eq_true hadd
            have hne : i ≠ dir := by
              rintro rfl
              exact hplain ⟨hused, hentered.1, hblocks⟩
            exact hinv'.link_spec hne hentered hblocks hplain hmax' hname hfind f hb

theorem sysMkdir_spec (mode : UInt16) (hroom : RoomFor s task path) :
    Keeps (sysMkdir task s path mode) := by
  refine Ends.andThen (newFor_spec hres h path) ?_
  rintro ⟨dir, name, i⟩ t ⟨u, hsame, hinv, hentered, hname, hfind, hnew, heq, rfl⟩
  have hmax : (u.inode dir).nlinks ≠ 255 := by
    rw [hsame.inode_eq]
    exact hroom dir name u heq
  have hne := ne_of_new hinv hnew
  generalize hblock : newBlock (u.put i _) = r
  cases r with
  | none =>
    exact (pending_put hinv hentered hnew rfl (plain_of_blocks rfl) rfl rfl).fail_after
      (f := fun n ↦ n - 1) rfl
  | some w =>
    obtain ⟨n, rfl⟩ := newBlock_put hblock
    dsimp only
    rw [put_setInode, put_inode]
    generalize hw : put { u with free := n } i _ = w
    obtain ⟨ip, rfl, hdirn, htwo, hentries⟩ : ∃ ip : Inode, w = put { u with free := n } i ip ∧
        IsDir ip ∧ ip.nlinks = 2 ∧ ip.entries = [⟨i, dot⟩, ⟨dir, dotdot⟩] := by
      refine ⟨_, hw.symm, ⟨rfl, ?_, Nat.one_ne_zero⟩, rfl, rfl⟩
      rw [sIsdir_or]
      rfl
    have hinv' : Inv [dir] [] { u with free := n } := hinv.setFree n
    have hnew' : New { u with free := n } i := ⟨hnew.range, hnew.free⟩
    have hwdir := put_inode_of_ne { u with free := n } ip hne.symm
    generalize hadd : addEntry (put _ i ip) dir name i = r
    obtain ⟨b, v⟩ := r
    cases b with
    | true =>
      obtain ⟨hblocks, b, f, hb, rfl⟩ := addEntry_eq_true hadd
      rw [hwdir] at hblocks
      refine done_spec [dir, i] (Inv.swap ?_)
      rw [setDir_self, setDir_setInode_self, hwdir]
      exact hinv'.mkdir_spec hnew' hentered hblocks hmax hname hfind hdirn htwo hentries hb f
    | false =>
      obtain ⟨b, f, hb, rfl⟩ := addEntry_eq_false hadd
      rw [hwdir] at hb ⊢
      exact hinv'.mkdir_fail_spec hnew' hentered hdirn hentries f hb

theorem directory_spec :
    Ends (directory task s path) (fun i t ↦ SameFiles s t ∧ Inv [i] [] t) (Inv [] []) := by
  refine .bind (namei_spec path hres h) ?_
  rintro ⟨_ | i, t⟩ ⟨hsame, hreach⟩
  · exact fail_spec [] hreach
  · dsimp only
    split_ifs
    · exact fail_spec [i] hreach.1
    · exact .ok ⟨hsame, hreach.1⟩

end

end Calls

/-! ### Tasks and open files -/

section Steps

theorem resident (s : State T) (p : T) : Resident s (s.task p) := by
  have huses : ∀ i, (s.task p).uses i ≤ s.holders i := fun i ↦
    (single_le_sum (f := fun p ↦ (s.task p).uses i) (fun _ _ ↦ Nat.zero_le _)
      (mem_univ p)).trans (Nat.le_add_left _ _)
  have hpwd := huses (s.task p).pwd
  have hroot := huses (s.task p).root
  simp only [Task.uses, if_true] at hpwd hroot
  exact ⟨by omega, by omega⟩

variable [DecidableEq T] {p : T}

omit [Fintype T] in
theorem truncate_setTask (s : State T) (p : T) (task : Task) (i : ℕ) :
    truncate (s.setTask p task) i = (truncate s i).setTask p task := by
  have hinode : (s.setTask p task).inode = s.inode := rfl
  unfold truncate
  rw [hinode]
  dsimp only
  split_ifs <;> rfl

omit [Fintype T] in
theorem iput_setTask (s : State T) (p : T) (task : Task) (i : ℕ) :
    iput (s.setTask p task) i = (iput s i).map fun t ↦ t.setTask p task := by
  have hinode : (s.setTask p task).inode = s.inode := rfl
  have hcount : (s.setTask p task).count = s.count := rfl
  unfold iput
  rw [hinode, hcount, truncate_setTask]
  split_ifs <;> rfl

omit [Fintype T] [DecidableEq T] in
theorem iput_task (s : State T) (i : ℕ) : Post (iput s i) fun t ↦ t.task = s.task := by
  unfold iput
  rw [freeInode_truncate]
  split_ifs
  · exact .error
  · exact .ok rfl
  · exact .ok rfl
  · exact .ok rfl

variable {old new : ℕ} {e : Event T}

/-- A task refers to another inode in the place of one. -/
theorem Inv.setTask {task : Task} (h : Inv (new :: held) slack s)
    (huses : ∀ j, task.uses j + (if old = j then 1 else 0) =
      (s.task p).uses j + if new = j then 1 else 0) :
    Inv (old :: held) slack (s.setTask p task) := by
  refine h.move rfl rfl rfl rfl fun j ↦ ?_
  have hsum := Lib.Counting.sum_update_add univ (mem_univ p) s.task task fun _ task ↦ task.uses j
  have hnew : (s.setTask p task).holders j =
      s.opened j + ∑ q, (update s.task p task q).uses j := rfl
  have hold : s.holders j = s.opened j + ∑ q, (s.task q).uses j := rfl
  have huses := huses j
  rw [count_cons, count_cons]
  simp only [beq_iff_eq]
  omega

/-- The directory of a task is given up for another. -/
theorem setDirectory_spec (set : Task → Task) (h : Inv [new] [] s)
    (huses : ∀ j, (set (s.task p)).uses j + (if old = j then 1 else 0) =
      (s.task p).uses j + if new = j then 1 else 0) : Ends (ε := ℤ) (do
      let t ← iput s old
      pure (.ok (), t.setTask p (set (t.task p)))) (fun _ ↦ Inv [] []) (Inv [] []) := by
  have htask := h.setTask huses
  have hspec := iput_spec htask
  rw [iput_setTask] at hspec
  refine .bind (P := fun t ↦ t.task = s.task ∧ Inv [] [] (t.setTask p (set (s.task p))))
    (fun t ht ↦ ⟨?_, ?_⟩) fun t ht ↦ ?_
  · exact iput_task s old t ht
  · exact hspec _ (by rw [ht]; rfl)
  · refine .ok ?_
    rw [ht.1]
    exact ht.2

variable (path : List UInt8)

theorem sysChdir_spec (h : Inv [] [] s) : Keeps (sysChdir p s path) := by
  refine .andThen (directory_spec (resident s p) h path) ?_
  rintro i t ⟨-, hinv⟩
  refine setDirectory_spec (fun task ↦ { task with pwd := i }) hinv fun j ↦ ?_
  simp only [Task.uses]
  omega

theorem sysChroot_spec (h : Inv [] [] s) : Keeps (sysChroot p s path) := by
  refine .andThen (directory_spec (resident s p) h path) ?_
  rintro i t ⟨-, hinv⟩
  refine setDirectory_spec (fun task ↦ { task with root := i }) hinv fun j ↦ ?_
  simp only [Task.uses]
  omega

omit [DecidableEq T] in
theorem holders_setOpened (s : State T) (i n j : ℕ) :
    holders { s with opened := update s.opened i n } j + s.opened j =
      s.holders j + update s.opened i n j := by
  unfold holders
  dsimp only
  omega

omit [DecidableEq T] in
theorem sysOpen_spec (flag : UInt32) (mode : UInt16) (h : Inv [] [] s) :
    Keeps (sysOpen p s path flag mode) := by
  refine .andThen (openNamei_spec (resident s p) h path flag mode) ?_
  intro i t hinv
  refine .ok (hinv.move rfl rfl rfl rfl fun j ↦ ?_)
  have hholders := holders_setOpened t i (t.opened i + 1) j
  rw [update_apply] at hholders
  split_ifs at hholders with hji
  · rw [hji] at hholders
    rw [hji, count_cons_self]
    omega
  · rw [count_cons_of_ne (Ne.symm hji)]
    omega

omit [DecidableEq T] in
/-- The reference of an open file is given up. -/
theorem close_spec {err : State T → Prop} (h : Inv [] [] s) (hopen : s.opened i ≠ 0) :
    Ends (done { s with opened := update s.opened i (s.opened i - 1) } [i])
      (fun _ ↦ Inv [] []) err := by
  refine done_spec [i] (h.move rfl rfl rfl rfl fun j ↦ ?_)
  have hholders := holders_setOpened s i (s.opened i - 1) j
  rw [update_apply] at hholders
  split_ifs at hholders with hji
  · rw [hji] at hholders
    rw [hji, append_nil, count_cons_self, count_nil]
    omega
  · rw [append_nil, count_cons_of_ne (Ne.symm hji), count_nil]
    omega

/-- The condition on the state before a call: a link is not made to an inode, and a directory not in
one, that has 255 links. -/
def Room (s : State T) : Event T → Prop
  | .link p old _ => ∀ i t, namei (s.task p) s old = .ok (some i, t) → (s.inode i).nlinks ≠ 255
  | .mkdir p path _ => RoomFor s (s.task p) path
  | _ => True

/-- Every call that returns keeps the invariant. -/
theorem call_inv (h : Inv [] [] s) (hroom : Room s e) (hopen : ∀ i, e = .close i → s.opened i ≠ 0) :
    Keeps (call s e) := by
  cases e with
  | «open» p path flag mode => exact sysOpen_spec path flag mode h
  | mknod p path mode => exact sysMknod_spec (resident s p) h path mode
  | mkdir p path mode => exact sysMkdir_spec (resident s p) h path mode hroom
  | rmdir p path => exact sysRmdir_spec (resident s p) h path
  | unlink p path => exact sysUnlink_spec (resident s p) h path
  | symlink p old new => exact sysSymlink_spec (resident s p) h old new
  | link p old new => exact sysLink_spec (resident s p) h old new hroom
  | chdir p path => exact sysChdir_spec path h
  | chroot p path => exact sysChroot_spec path h
  | close i => exact close_spec h (hopen i rfl)

theorem step_inv (h : Inv [] [] s) (hroom : Room s e) (hstep : step s e = .next t) :
    Inv [] [] t := by
  have hcall : (∀ i, e = .close i → s.opened i ≠ 0) ∧
      Outcome.ofExcept ((call s e).map Prod.snd) = .next t := by
    unfold step at hstep
    split at hstep
    · split_ifs at hstep with hopen
      refine ⟨fun i hi ↦ ?_, hstep⟩
      cases hi
      exact hopen
    · next hother => exact ⟨fun i hi ↦ absurd hi (hother i), hstep⟩
  obtain ⟨⟨r, u⟩, hok, rfl⟩ := map_eq_ok.mp (Outcome.ofExcept_eq_next.mp hcall.2)
  have hends := call_inv h hroom hcall.1 _ hok
  cases r with
  | error e => exact hends
  | ok a => exact hends

end Steps

end EasyKernels.Linux.Namei
