import Mathlib.Algebra.Order.BigOperators.Group.Finset
import EasyKernels.Lib.Counting

/-!
# Trees of directories with link counts

A file system as a family of inodes of any type, of which `Node` says what is read here: whether the
inode is free or a directory, its link count and its entries. `weight` is what a directory adds to
the link count of an inode: its entries for it other than `.` and `..`, and its `..` while the
directory has links itself. `Tree slack` says that the link count of every inode in use is the sum
of these weights and of its count in `slack`, the links that are still to be made entries; that a
directory with links is named once, by its parent; and that a directory without links has no entries
left but the first two.

A root directory with files is such a tree (`Tree.of_root`). The ways to change the inodes keep it:
a directory gains or loses entries for inodes that are no directories (`Tree.addEntry`,
`Tree.clearEntry`), an inode that is no directory changes, is allocated or is freed
(`Tree.setPlain`), a directory is made (`Tree.mkdir`), removed (`Tree.rmdir`) and freed
(`Tree.freeDir`), or is made without links (`Tree.allocDir`).
-/

set_option autoImplicit false

namespace EasyKernels.Lib.LinkTree

open Nat Option Function Finset Lib.Counting

/-! ### Entries -/

/-- The name of a directory entry. -/
abbrev Name := List UInt8

/-- The name `"."`. -/
def dot : Name := [46]

/-- The name `".."`. -/
def dotdot : Name := [46, 46]

/-- A directory entry; the inode number 0 marks one that is not in use. -/
structure Dirent where
  inum : ℕ
  name : Name
  deriving DecidableEq

/-- An entry that is not in use. -/
def Dirent.zero : Dirent := { inum := 0, name := [] }

/-- The index of the entry with a name. -/
def findName (entries : List Dirent) (name : Name) : Option ℕ :=
  entries.findIdx? fun de ↦ de.inum ≠ 0 ∧ de.name = name

/-- What is read of an inode. -/
class Node (α : Type*) where
  IsFree : α → Prop
  IsDir : α → Prop
  nlink : α → ℤ
  entries : α → List Dirent
  not_free : ∀ {ip : α}, IsDir ip → ¬ IsFree ip

open Node

variable {α : Type*} [Node α] {size root : ℕ}

/-- Two inodes are both free, both directories, or neither. -/
def SameKind (a b : α) : Prop := (IsFree a ↔ IsFree b) ∧ (IsDir a ↔ IsDir b)

theorem SameKind.of_dir {a b : α} (ha : IsDir a) (hb : IsDir b) : SameKind a b :=
  ⟨iff_of_false (not_free ha) (not_free hb), iff_of_true ha hb⟩

theorem SameKind.refl (a : α) : SameKind a a := ⟨.rfl, .rfl⟩

/-- The entry is one for an inode, other than `.` and `..`. -/
def Dirent.names (i : ℕ) (de : Dirent) : Bool :=
  de.inum = i ∧ de.name ≠ dot ∧ de.name ≠ dotdot

variable (ip : α)

/-- The number of entries for an inode, other than `.` and `..`. -/
def named (i : ℕ) : ℕ := (entries ip).countP (Dirent.names i)

/-- The inode number in the entry `..`. -/
def parent : ℕ := ((entries ip).getD 1 Dirent.zero).inum

/-- What a directory adds to the link count of an inode. -/
def weight (i : ℕ) : ℕ :=
  named ip i + if nlink ip ≠ 0 ∧ parent ip = i then 1 else 0

/-- The link count that the directories give to an inode. -/
def links (size : ℕ) (inode : ℕ → α) (i : ℕ) : ℕ := ∑ d ∈ range size, weight (inode d) i

/-- The first two entries of a directory are `.` and `..`, and no others have these names. -/
structure Shape (size d : ℕ) (ip : α) : Prop where
  self : (entries ip)[0]? = some { inum := d, name := dot }
  up : (entries ip)[1]? = some { inum := parent ip, name := dotdot }
  parent_ne : parent ip ≠ 0
  parent_lt : parent ip < size
  rest : ∀ k de, 2 ≤ k → (entries ip)[k]? = some de → de.inum ≠ 0 →
    de.name ≠ dot ∧ de.name ≠ dotdot

theorem dot_ne_dotdot : dot ≠ dotdot := by decide

theorem findName_eq_some {entries : List Dirent} {name : Name} {k : ℕ}
    (h : findName entries name = some k) :
    ∃ de, entries[k]? = some de ∧ de.inum ≠ 0 ∧ de.name = name := by
  obtain ⟨hk, hfound, -⟩ := List.findIdx?_eq_some_iff_getElem.mp h
  simp only [decide_eq_true_eq] at hfound
  exact ⟨entries[k], List.getElem?_eq_getElem hk, hfound.1, hfound.2⟩

theorem findName_eq_none {entries : List Dirent} {name : Name} (h : findName entries name = none)
    {k : ℕ} {de : Dirent} (hk : entries[k]? = some de) (hinum : de.inum ≠ 0) : de.name ≠ name := by
  have hfound := List.findIdx?_eq_none_iff.mp h de (List.mem_of_getElem? hk)
  simp only [decide_eq_false_iff_not, not_and] at hfound
  exact hfound hinum

/-- No entry is for an inode but `.` and `..`. -/
theorem named_eq_zero (i : ℕ) : named ip i = 0 ↔
    ∀ de ∈ entries ip, de.inum = i → de.name = dot ∨ de.name = dotdot := by
  rw [named, List.countP_eq_zero]
  refine forall₂_congr fun de _ ↦ ?_
  simp only [Dirent.names, decide_eq_true_eq]
  tauto

theorem names_eq_false {de : Dirent} {j : ℕ} (hzero : de.inum = 0) (hj : j ≠ 0) :
    Dirent.names j de = false := by
  simp [Dirent.names, hzero, hj.symm]

/-- An entry is put in the place of an unused one, or after the last. -/
def insertEntry (entries : List Dirent) (de : Dirent) : List Dirent :=
  let k := entries.findIdx fun de ↦ de.inum = 0
  if k < entries.length then entries.set k de else entries ++ [de]

section Entries

open List

variable {d : ℕ} {ip ip' : α} {de : Dirent}

section

variable (h : Shape size d ip)

include h

theorem Shape.length : 2 ≤ (entries ip).length := by
  have hup := h.up
  by_contra hlt
  rw [getElem?_eq_none (by omega)] at hup
  simp at hup

theorem Shape.entry_cases {k : ℕ} (hk : (entries ip)[k]? = some de) :
    de = ⟨d, dot⟩ ∨ de = ⟨parent ip, dotdot⟩ ∨ 2 ≤ k :=
  match k with
  | 0 => .inl (some.inj (hk.symm.trans h.self))
  | 1 => .inr (.inl (some.inj (hk.symm.trans h.up)))
  | k + 2 => .inr (.inr (le_add_left 2 k))

/-- The entry of a name other than `.` and `..` comes after these. -/
theorem Shape.two_le {k : ℕ} (hk : (entries ip)[k]? = some de)
    (hname : de.name ≠ dot ∧ de.name ≠ dotdot) : 2 ≤ k := by
  rcases h.entry_cases hk with rfl | rfl | hk
  · exact absurd rfl hname.1
  · exact absurd rfl hname.2
  · exact hk

/-- The entries from the third on change. -/
theorem Shape.congr (hfirst : ∀ k < 2, (entries ip')[k]? = (entries ip)[k]?)
    (hrest : ∀ k de, 2 ≤ k → (entries ip')[k]? = some de → de.inum ≠ 0 →
      (entries ip)[k]? = some de ∨ de.name ≠ dot ∧ de.name ≠ dotdot) :
    Shape size d ip' ∧ parent ip' = parent ip := by
  have hsecond := hfirst 1 Nat.one_lt_two
  have hparent : parent ip' = parent ip := by
    rw [parent, parent, getD_eq_getElem?_getD, getD_eq_getElem?_getD, hsecond]
  refine ⟨⟨by rw [hfirst 0 Nat.two_pos, h.self], by rw [hsecond, h.up, hparent],
    hparent ▸ h.parent_ne, hparent ▸ h.parent_lt, fun k de hk hde hinum ↦ ?_⟩, hparent⟩
  exact (hrest k de hk hde hinum).elim (fun hold ↦ h.rest k de hk hold hinum) id

theorem Shape.of_entries (hentries : entries ip' = entries ip) : Shape size d ip' :=
  (h.congr (fun k _ ↦ by rw [hentries]) fun k de _ hde _ ↦ .inl (hentries ▸ hde)).1

theorem two_le_findIdx (hd : d ≠ 0) : 2 ≤ (entries ip).findIdx fun de ↦ de.inum = 0 := by
  by_contra hlt
  have hlen := h.length
  have hfound : ((entries ip).findIdx fun de ↦ de.inum = 0) < (entries ip).length := by omega
  have hzero := findIdx_getElem (w := hfound)
  simp only [decide_eq_true_eq] at hzero
  rcases h.entry_cases (getElem?_eq_getElem hfound) with heq | heq | hge
  · rw [heq] at hzero
    exact hd hzero
  · rw [heq] at hzero
    exact h.parent_ne hzero
  · exact hlt hge

/-- A new entry in a directory: the first two entries stay, and one inode is named once more. -/
theorem Shape.insert (hd : d ≠ 0) (de : Dirent) (hnew : findName (entries ip) de.name = none)
    (hinsert : entries ip' = insertEntry (entries ip) de) :
    Shape size d ip' ∧ parent ip' = parent ip ∧
      ∀ j, j ≠ 0 → named ip' j = named ip j + if de.inum = j then 1 else 0 := by
  have hk := two_le_findIdx h hd
  have hlen := h.length
  have hname : de.name ≠ dot ∧ de.name ≠ dotdot :=
    ⟨(findName_eq_none hnew h.self hd).symm, (findName_eq_none hnew h.up h.parent_ne).symm⟩
  have hcount : ∀ j, (Dirent.names j de = true) ↔ de.inum = j := by
    simp [Dirent.names, hname]
  unfold insertEntry at hinsert
  simp only at hinsert
  split_ifs at hinsert with hlt
  · refine and_assoc.mp ⟨h.congr (fun k hk2 ↦ ?_) fun k e _ he _ ↦ ?_, fun j hj ↦ ?_⟩
    · rw [hinsert, getElem?_set_ne (by omega)]
    · rw [hinsert, getElem?_set] at he
      split_ifs at he with hk0
      · rw [some.injEq] at he
        exact .inr (he ▸ hname)
      · exact .inl he
    · have hzero := findIdx_getElem (w := hlt)
      simp only [decide_eq_true_eq] at hzero
      rw [named, hinsert, countP_set hlt, named]
      simp [names_eq_false hzero hj, hcount]
  · refine and_assoc.mp ⟨h.congr (fun k hk2 ↦ ?_) fun k e _ he _ ↦ ?_, fun j hj ↦ ?_⟩
    · rw [hinsert, getElem?_append_left (by omega)]
    · rw [hinsert, getElem?_append] at he
      split_ifs at he with hk0
      · exact .inl he
      · rw [List.mem_singleton.mp (mem_of_getElem? he)]
        exact .inr hname
    · rw [named, hinsert, named]
      simp [hcount]

/-- An entry is cleared: one inode is named once less. -/
theorem Shape.clear {k : ℕ} (hk : (entries ip)[k]? = some de)
    (hname : de.name ≠ dot ∧ de.name ≠ dotdot) {cleared : Dirent}
    (hclear : entries ip' = (entries ip).set k cleared) (hzero : cleared.inum = 0) :
    Shape size d ip' ∧ parent ip' = parent ip ∧
      ∀ j, j ≠ 0 → named ip' j + (if de.inum = j then 1 else 0) = named ip j := by
  have hk2 := h.two_le hk hname
  obtain ⟨hlt, hget⟩ := List.getElem?_eq_some_iff.mp hk
  refine and_assoc.mp ⟨h.congr (fun l hl ↦ ?_) fun l e _ he hinum ↦ ?_, fun j hj ↦ ?_⟩
  · rw [hclear, getElem?_set_ne (by omega)]
  · rw [hclear, getElem?_set] at he
    split_ifs at he with hkl
    · rw [some.injEq] at he
      exact absurd (he ▸ hzero) hinum
    · exact .inl he
  · have hcount : Dirent.names j de = true ↔ de.inum = j := by simp [Dirent.names, hname]
    rw [named, hclear, countP_set hlt, hget, names_eq_false hzero hj, named]
    by_cases hj' : de.inum = j
    · have hpos : 0 < (entries ip).countP (Dirent.names j) :=
        countP_pos_iff.mpr ⟨de, mem_of_getElem? hk, hcount.mpr hj'⟩
      simp only [hcount, hj', if_true, Bool.false_eq_true, if_false]
      omega
    · simp [hcount, hj']

theorem Shape.entries_eq : entries ip = ⟨d, dot⟩ :: ⟨parent ip, dotdot⟩ :: (entries ip).drop 2 := by
  have hself := h.self
  have hup := h.up
  match hentries : entries ip with
  | [] => simp [hentries] at hself
  | [_] => simp [hentries] at hup
  | de :: de' :: rest =>
    simp only [hentries, getElem?_cons_zero, some.injEq] at hself
    simp only [hentries, getElem?_cons_succ, getElem?_cons_zero, some.injEq] at hup
    rw [hself, hup]
    rfl

/-- How many entries of a directory have a property that entries for one inode have, all of them
but perhaps `.` and `..`. -/
theorem Shape.countP_eq {i : ℕ} (hi : i ≠ 0) (q : Dirent → Bool)
    (hsound : ∀ de, q de = true → de.inum = i)
    (hcomplete : ∀ de : Dirent, de.inum = i → de.name ≠ dot → de.name ≠ dotdot → q de = true) :
    (entries ip).countP q = named ip i + (if q ⟨d, dot⟩ then 1 else 0) +
      if q ⟨parent ip, dotdot⟩ then 1 else 0 := by
  have hrest : ((entries ip).drop 2).countP q = ((entries ip).drop 2).countP (Dirent.names i) := by
    refine countP_congr fun de hde ↦ ?_
    obtain ⟨k, hk⟩ := mem_iff_getElem?.mp hde
    rw [getElem?_drop] at hk
    constructor
    · intro hq
      have hinum := hsound de hq
      simp [Dirent.names, hinum, h.rest (2 + k) de (by omega) hk (hinum ▸ hi)]
    · intro hnames
      simp only [Dirent.names, decide_eq_true_eq] at hnames
      exact hcomplete de hnames.1 hnames.2.1 hnames.2.2
  rw [named, h.entries_eq]
  simp only [countP_cons, Dirent.names]
  simp [dot_ne_dotdot]
  omega

end

/-- A directory with the first two entries and no others. -/
theorem Shape.of_two {n : ℕ} (hd : d ≠ 0 ∧ d < size)
    (hentries : entries ip = [⟨n, dot⟩, ⟨d, dotdot⟩]) :
    Shape size n ip ∧ parent ip = d ∧ ∀ j, named ip j = 0 := by
  have hparent : parent ip = d := by simp [parent, hentries]
  refine ⟨⟨by rw [hentries]; rfl, by rw [hentries, hparent]; rfl, hparent ▸ hd.1, hparent ▸ hd.2,
    fun k de hk hde ↦ ?_⟩, hparent, fun j ↦ by simp [named, hentries, Dirent.names]⟩
  rw [hentries, getElem?_eq_none (by simpa using hk)] at hde
  exact nomatch hde

end Entries

/-! ### The tree -/

/-- What the calls keep of the inodes, with the links in `slack` still to be made entries. -/
structure Tree (size root : ℕ) (slack : List ℕ) (inode : ℕ → α) : Prop where
  range : ∀ i, ¬ IsFree (inode i) → 0 < i ∧ i < size
  root_dir : IsDir (inode root)
  root_live : nlink (inode root) ≠ 0
  root_parent : parent (inode root) = root
  shape : ∀ d, IsDir (inode d) → Shape size d (inode d)
  plain : ∀ d, ¬ IsDir (inode d) → entries (inode d) = []
  links_eq : ∀ i, ¬ IsFree (inode i) → nlink (inode i) = links size inode i + slack.count i
  unnamed : ∀ i, i ≠ 0 → IsFree (inode i) → links size inode i = 0
  /-- A directory with links is named once, by its parent. -/
  tree : ∀ d, IsDir (inode d) → ∀ e < size, named (inode e) d =
    if d ≠ root ∧ nlink (inode d) ≠ 0 ∧ e = parent (inode d) then 1 else 0
  /-- A directory without links names nothing. -/
  bare : ∀ d, IsDir (inode d) → nlink (inode d) = 0 → ∀ j, j ≠ 0 → named (inode d) j = 0

section Tree

variable {slack slack' : List ℕ} {inode : ℕ → α} {ip : α} {i : ℕ}

theorem links_update {d : ℕ} (hd : d < size) (inode : ℕ → α) (ip : α) (i : ℕ) :
    links size (update inode d ip) i + weight (inode d) i = links size inode i + weight ip i :=
  sum_update_add (range size) (mem_range.mpr hd) inode ip fun _ ip ↦ weight ip i

theorem weight_le_links {d : ℕ} (hd : d < size) (inode : ℕ → α) (i : ℕ) :
    weight (inode d) i ≤ links size inode i :=
  single_le_sum (f := fun d ↦ weight (inode d) i) (fun _ _ ↦ zero_le _) (mem_range.mpr hd)

theorem weight_of_entries (h : entries ip = []) (hi : i ≠ 0) : weight ip i = 0 := by
  simp [weight, named, parent, h, Dirent.zero, hi.symm]

theorem dead_spec (hdir : IsDir ip → nlink ip = 0 ∧ named ip i = 0)
    (hplain : ¬ IsDir ip → entries ip = []) (hi : i ≠ 0) : named ip i = 0 ∧ weight ip i = 0 := by
  by_cases hd : IsDir ip
  · obtain ⟨hdead, hnamed⟩ := hdir hd
    exact ⟨hnamed, by simp [weight, hnamed, hdead]⟩
  · exact ⟨by rw [named, hplain hd]; rfl, weight_of_entries (hplain hd) hi⟩

namespace Tree

variable {d n : ℕ} {ipn : α}

/-- A file system with no directory but the root, whose entries are for files. -/
theorem of_root {rest : List Dirent} (hroot : 0 < root ∧ root < size)
    (hdir : IsDir (inode root)) (hone : nlink (inode root) = 1)
    (hentries : entries (inode root) = ⟨root, dot⟩ :: ⟨root, dotdot⟩ :: rest)
    (hrest : ∀ de ∈ rest, de.inum ≠ 0 → de.inum ≠ root ∧ ¬ IsFree (inode de.inum) ∧
      de.name ≠ dot ∧ de.name ≠ dotdot)
    (hplain : ∀ i, i ≠ root → ¬ IsDir (inode i) ∧ entries (inode i) = [])
    (hfiles : ∀ i, i ≠ root → ¬ IsFree (inode i) → (0 < i ∧ i < size) ∧
      nlink (inode i) = (rest.map Dirent.inum).count i) : Tree size root [] inode := by
  have hparent : parent (inode root) = root := by simp [parent, hentries]
  have heq : ∀ d, IsDir (inode d) → d = root := fun d hd ↦ by
    by_contra hne
    exact (hplain d hne).1 hd
  have hnamed : ∀ j, j ≠ 0 → named (inode root) j = (rest.map Dirent.inum).count j := by
    intro j hj
    rw [named, hentries, List.countP_cons, List.countP_cons, List.count_eq_countP, List.countP_map]
    simp only [Dirent.names, ne_eq, not_true_eq_false, false_and, and_false]
    refine List.countP_congr fun de hde ↦ ?_
    have hname := fun hinum : de.inum = j ↦ (hrest de hde (hinum ▸ hj)).2.2
    simpa [Dirent.names] using hname
  have hnone : ∀ j, j ≠ 0 → IsFree (inode j) ∨ j = root → (rest.map Dirent.inum).count j = 0 := by
    intro j hj hj'
    refine List.count_eq_zero.mpr fun hmem ↦ ?_
    obtain ⟨de, hde, rfl⟩ := List.mem_map.mp hmem
    obtain ⟨hne, hused, -⟩ := hrest de hde hj
    exact hj'.elim hused hne
  have hlinks : ∀ j, j ≠ 0 → links size inode j =
      (rest.map Dirent.inum).count j + if root = j then 1 else 0 := by
    intro j hj
    have hother : ∀ d ∈ Finset.range size, d ≠ root → weight (inode d) j = 0 :=
      fun d _ hd ↦ weight_of_entries (hplain d hd).2 hj
    rw [links, sum_eq_single_of_mem root (mem_range.mpr hroot.2) hother, weight, hnamed j hj, hone,
      hparent]
    simp
  refine ⟨fun j hj ↦ ?_, hdir, by rw [hone]; exact one_ne_zero, hparent, fun d hd ↦ ?_,
    fun d hd ↦ (hplain d fun hdr ↦ hd (hdr ▸ hdir)).2, fun j hj ↦ ?_, fun j hj hfree ↦ ?_,
    fun d hd e _ ↦ ?_, fun d hd hdead ↦ ?_⟩
  · by_cases hjr : j = root
    · exact hjr ▸ hroot
    · exact (hfiles j hjr hj).1
  · obtain rfl := heq d hd
    refine ⟨by rw [hentries]; rfl, by rw [hentries, hparent]; rfl, hparent.trans_ne hroot.1.ne',
      hparent.trans_lt hroot.2, fun k de hk hde hinum ↦ ?_⟩
    obtain ⟨k, rfl⟩ : ∃ l, k = l + 2 := ⟨k - 2, by omega⟩
    rw [hentries] at hde
    exact (hrest de (List.mem_of_getElem? hde) hinum).2.2
  · by_cases hjr : j = root
    · rw [hjr, hone, hlinks root hroot.1.ne', hnone root hroot.1.ne' (.inr rfl), if_pos rfl]
      rfl
    · obtain ⟨hrange, hcount⟩ := hfiles j hjr hj
      rw [hcount, hlinks j hrange.1.ne', if_neg (Ne.symm hjr)]
      rfl
  · rw [hlinks j hj, hnone j hj (.inl hfree), if_neg]
    rintro rfl
    exact not_free hdir hfree
  · rw [heq d hd, if_neg fun hcond ↦ hcond.1 rfl]
    by_cases her : e = root
    · rw [her, hnamed root hroot.1.ne', hnone root hroot.1.ne' (.inr rfl)]
    · rw [named, (hplain e her).2]
      rfl
  · rw [heq d hd, hone] at hdead
    exact absurd hdead one_ne_zero

section

variable (h : Tree size root slack inode)

include h

theorem range_dir (hd : IsDir (inode d)) : 0 < d ∧ d < size :=
  h.range d (not_free hd)

/-- A directory that names something is one. -/
theorem dir_of_named {j : ℕ} (hnamed : named (inode d) j ≠ 0) : IsDir (inode d) := by
  by_contra hdir
  exact hnamed (by rw [named, h.plain d hdir]; rfl)

section

variable (hd : IsDir (inode d))

include hd

/-- The parent of a directory with links is a directory with links. -/
theorem parent_dir (hlive : nlink (inode d) ≠ 0) :
    IsDir (inode (parent (inode d))) ∧ nlink (inode (parent (inode d))) ≠ 0 := by
  by_cases hroot : d = root
  · rw [hroot, h.root_parent]
    exact ⟨h.root_dir, h.root_live⟩
  · have hnamed := h.tree d hd _ (h.shape d hd).parent_lt
    rw [if_pos ⟨hroot, hlive, rfl⟩] at hnamed
    have hdir := h.dir_of_named (d := parent (inode d)) (j := d) (by omega)
    refine ⟨hdir, fun hdead ↦ ?_⟩
    have hzero := h.bare _ hdir hdead d (h.range_dir hd).1.ne'
    omega

/-- A directory is named by no other exactly when it has no links. -/
theorem unnamed_iff : (d ≠ root ∧ ∀ e < size, named (inode e) d = 0) ↔ nlink (inode d) = 0 := by
  constructor
  · rintro ⟨hroot, hnone⟩
    by_contra hlive
    have hlt := (h.shape d hd).parent_lt
    have hnamed := h.tree d hd _ hlt
    rw [if_pos ⟨hroot, hlive, rfl⟩, hnone _ hlt] at hnamed
    omega
  · intro hdead
    refine ⟨?_, fun e he ↦ ?_⟩
    · rintro rfl
      exact h.root_live hdead
    · rw [h.tree d hd e he, if_neg fun hcond ↦ hcond.2.1 hdead]

/-- The entries of a directory with links are for inodes with links. -/
theorem entry_live (hlive : nlink (inode d) ≠ 0) {de : Dirent} (hde : de ∈ entries (inode d))
    (hinum : de.inum ≠ 0) : ¬ IsFree (inode de.inum) ∧ nlink (inode de.inum) ≠ 0 := by
  have hshape := h.shape d hd
  obtain ⟨k, hk⟩ := List.mem_iff_getElem?.mp hde
  rcases hshape.entry_cases hk with rfl | rfl | hk2
  · exact ⟨not_free hd, hlive⟩
  · obtain ⟨hdir, hlive'⟩ := h.parent_dir hd hlive
    exact ⟨not_free hdir, hlive'⟩
  · have hpos : 0 < named (inode d) de.inum := by
      refine List.countP_pos_iff.mpr ⟨de, hde, ?_⟩
      simp [Dirent.names, hshape.rest k de hk2 hk hinum]
    have hlinks := weight_le_links (h.range_dir hd).2 inode de.inum
    rw [weight] at hlinks
    have hused : ¬ IsFree (inode de.inum) := fun hfree ↦ by
      have := h.unnamed de.inum hinum hfree
      omega
    have heq := h.links_eq de.inum hused
    exact ⟨hused, by omega⟩

/-- The entry for an inode that is no directory is neither `.` nor `..`. -/
theorem name_of_plain {k : ℕ} (hlive : nlink (inode d) ≠ 0) {de : Dirent}
    (hk : (entries (inode d))[k]? = some de) (hinum : de.inum ≠ 0)
    (hplain : ¬ IsDir (inode de.inum)) : de.name ≠ dot ∧ de.name ≠ dotdot := by
  have hshape := h.shape d hd
  rcases hshape.entry_cases hk with rfl | rfl | hk2
  · exact absurd hd hplain
  · exact absurd (h.parent_dir hd hlive).1 hplain
  · exact hshape.rest k de hk2 hk hinum

end

/-- The inodes change in nothing that is read here. -/
theorem congr {inode' : ℕ → α} (hkind : ∀ i, SameKind (inode' i) (inode i))
    (hnlink : ∀ i, nlink (inode' i) = nlink (inode i))
    (hentries : ∀ i, entries (inode' i) = entries (inode i)) : Tree size root slack inode' := by
  have hnamed : ∀ e j, named (inode' e) j = named (inode e) j := fun e j ↦ by
    rw [named, named, hentries]
  have hparent : ∀ e, parent (inode' e) = parent (inode e) := fun e ↦ by
    rw [parent, parent, hentries]
  have hlinks : ∀ j, links size inode' j = links size inode j := fun j ↦
    sum_congr rfl fun d _ ↦ by rw [weight, weight, hnamed, hparent, hnlink]
  refine ⟨fun i hi ↦ h.range i (mt (hkind i).1.mpr hi), (hkind _).2.mpr h.root_dir,
    by rw [hnlink]; exact h.root_live, by rw [hparent, h.root_parent], fun d hd ↦ ?_,
    fun d hd ↦ ?_, fun i hi ↦ ?_, fun i hi hfree ↦ ?_, fun d hd e he ↦ ?_, fun d hd hdead j hj ↦ ?_⟩
  · exact (h.shape d ((hkind d).2.mp hd)).of_entries (hentries d)
  · rw [hentries, h.plain d (mt (hkind d).2.mpr hd)]
  · rw [hnlink, hlinks, h.links_eq i (mt (hkind i).1.mpr hi)]
  · rw [hlinks, h.unnamed i hi ((hkind i).1.mp hfree)]
  · rw [hnamed, hnlink, hparent, h.tree d ((hkind d).2.mp hd) e he]
  · rw [hnlink] at hdead
    rw [hnamed, h.bare d ((hkind d).2.mp hd) hdead j hj]

/-- An inode that is no directory with links changes, and is none after. -/
theorem setDead (hold : IsDir (inode i) → nlink (inode i) = 0)
    (hnew : IsDir ip → nlink ip = 0 ∧ Shape size i ip ∧ ∀ j, named ip j = 0)
    (hentries : ¬ IsDir ip → entries ip = []) (hi : 0 < i ∧ i < size)
    (hslack : ∀ j, j ≠ i → slack'.count j = slack.count j)
    (hlinks : ¬ IsFree ip → nlink ip = links size inode i + slack'.count i)
    (hunnamed : IsFree ip → links size inode i = 0) :
    Tree size root slack' (update inode i ip) := by
  have hroot : root ≠ i := fun heq ↦ h.root_live (heq ▸ hold (heq ▸ h.root_dir))
  have hother : ∀ {j}, j ≠ i → update inode i ip j = inode j := fun hj ↦ update_of_ne hj _ _
  have hbefore : ∀ j, j ≠ 0 → named (inode i) j = 0 ∧ weight (inode i) j = 0 := fun j hj ↦
    dead_spec (fun hd ↦ ⟨hold hd, h.bare i hd (hold hd) j hj⟩) (h.plain i) hj
  have hafter : ∀ j, j ≠ 0 → named ip j = 0 ∧ weight ip j = 0 := fun j hj ↦
    dead_spec (fun hd ↦ ⟨(hnew hd).1, (hnew hd).2.2 j⟩) hentries hj
  have hsame : ∀ j, j ≠ 0 → links size (update inode i ip) j = links size inode j := by
    intro j hj
    have hupdate := links_update hi.2 inode ip j
    rw [(hbefore j hj).2, (hafter j hj).2] at hupdate
    exact hupdate
  have hnamed : ∀ e j, j ≠ 0 → named (update inode i ip e) j = named (inode e) j := by
    intro e j hj
    by_cases hei : e = i
    · rw [hei, update_self, (hafter j hj).1, (hbefore j hj).1]
    · rw [hother hei]
  refine ⟨fun j ↦ ?_, ?_, ?_, ?_, fun d ↦ ?_, fun d ↦ ?_, fun j ↦ ?_, fun j hj ↦ ?_, fun d ↦ ?_,
    fun d ↦ ?_⟩
  · rw [update_apply]
    split_ifs with hji
    · exact fun _ ↦ hji ▸ hi
    · exact h.range j
  · rw [hother hroot]
    exact h.root_dir
  · rw [hother hroot]
    exact h.root_live
  · rw [hother hroot, h.root_parent]
  · rw [update_apply]
    split_ifs with hdi
    · exact fun hd ↦ hdi ▸ (hnew hd).2.1
    · exact h.shape d
  · rw [update_apply]
    split_ifs
    · exact hentries
    · exact h.plain d
  · rw [update_apply]
    split_ifs with hji <;> intro hj
    · rw [hji, hsame i hi.1.ne', hlinks hj]
    · rw [hsame j (h.range j hj).1.ne', hslack j hji, h.links_eq j hj]
  · rw [hsame j hj, update_apply]
    split_ifs with hji
    · rwa [hji]
    · exact h.unnamed j hj
  · rw [update_apply]
    split_ifs with hdi <;> intro hd e he
    · have hnone := hlinks (not_free hd)
      have hle := weight_le_links he inode i
      rw [weight] at hle
      rw [hdi, hnamed e i hi.1.ne', if_neg fun hcond ↦ hcond.2.1 (hnew hd).1]
      rw [(hnew hd).1] at hnone
      omega
    · rw [hnamed e d (h.range_dir hd).1.ne', h.tree d hd e he]
  · rw [update_apply]
    split_ifs
    · exact fun _ _ j hj ↦ (hafter j hj).1
    · exact h.bare d

/-- An inode that is no directory changes, and is none after. -/
theorem setPlain (hold : ¬ IsDir (inode i)) (hnew : ¬ IsDir ip) (hentries : entries ip = [])
    (hi : 0 < i ∧ i < size) (hslack : ∀ j, j ≠ i → slack'.count j = slack.count j)
    (hlinks : ¬ IsFree ip → nlink ip = links size inode i + slack'.count i)
    (hunnamed : IsFree ip → links size inode i = 0) : Tree size root slack' (update inode i ip) :=
  h.setDead (fun hd ↦ absurd hd hold) (fun hd ↦ absurd hd hnew) (fun _ ↦ hentries) hi hslack hlinks
    hunnamed

/-- A directory gains or loses entries for an inode that is no directory. -/
theorem setEntries (hd : IsDir (inode d)) (htype : IsDir ip) (hnlink : nlink ip = nlink (inode d))
    (hshape : Shape size d ip) (hparent : parent ip = parent (inode d))
    (hlive : nlink (inode d) ≠ 0) (hused : ¬ IsFree (inode i)) (hplain : ¬ IsDir (inode i))
    (hnamed : ∀ j, j ≠ 0 → named ip j + slack'.count j = named (inode d) j + slack.count j)
    (hothers : ∀ j, j ≠ 0 → i ≠ j → named ip j = named (inode d) j) :
    Tree size root slack' (update inode d ip) := by
  have hfield : ∀ j, SameKind (update inode d ip j) (inode j) ∧
      nlink (update inode d ip j) = nlink (inode j) ∧
      parent (update inode d ip j) = parent (inode j) := by
    intro j
    rw [update_apply]
    split_ifs with hjd
    · rw [hjd]
      exact ⟨.of_dir htype hd, hnlink, hparent⟩
    · exact ⟨.refl _, rfl, rfl⟩
  have hlinks : ∀ j, links size (update inode d ip) j + named (inode d) j =
      links size inode j + named ip j := by
    intro j
    have hupdate := links_update (h.range_dir hd).2 inode ip j
    rw [weight, weight, hnlink, hparent] at hupdate
    omega
  refine ⟨fun j hj ↦ ?_, ?_, ?_, ?_, fun e ↦ ?_, fun e ↦ ?_, fun j hj ↦ ?_, fun j hj hfree ↦ ?_,
    fun e he f hf ↦ ?_, fun e ↦ ?_⟩
  · rw [(hfield j).1.1] at hj
    exact h.range j hj
  · exact (hfield _).1.2.mpr h.root_dir
  · rw [(hfield _).2.1]
    exact h.root_live
  · rw [(hfield _).2.2, h.root_parent]
  · rw [update_apply]
    split_ifs with hed
    · exact fun _ ↦ hed ▸ hshape
    · exact h.shape e
  · rw [update_apply]
    split_ifs
    · exact fun hnot ↦ absurd htype hnot
    · exact h.plain e
  · rw [(hfield j).1.1] at hj
    have hj0 := (h.range j hj).1.ne'
    have hold := hlinks j
    have hnew := hnamed j hj0
    rw [(hfield j).2.1, h.links_eq j hj]
    omega
  · rw [(hfield j).1.1] at hfree
    have hold := hlinks j
    rw [hothers j hj fun heq ↦ hused (heq ▸ hfree), h.unnamed j hj hfree] at hold
    omega
  · rw [(hfield e).1.2] at he
    rw [(hfield e).2.1, (hfield e).2.2, ← h.tree e he f hf, update_apply]
    split_ifs with hfd
    · rw [hfd]
      exact hothers e (h.range_dir he).1.ne' fun heq ↦ hplain (heq ▸ he)
    · rfl
  · rw [update_apply]
    split_ifs
    · exact fun _ hdead ↦ absurd (hnlink ▸ hdead) hlive
    · exact h.bare e

/-- An entry is made for an inode that is no directory and has a link more than entries. -/
theorem addEntry (de : Dirent) (hd : IsDir (inode d)) (hlive : nlink (inode d) ≠ 0)
    (htype : IsDir ip) (hnlink : nlink ip = nlink (inode d)) (hslack : slack = de.inum :: slack')
    (hused : ¬ IsFree (inode de.inum)) (hplain : ¬ IsDir (inode de.inum))
    (hnew : findName (entries (inode d)) de.name = none)
    (hinsert : entries ip = insertEntry (entries (inode d)) de) :
    Tree size root slack' (update inode d ip) := by
  obtain ⟨hshape, hparent, hnamed⟩ := (h.shape d hd).insert (h.range_dir hd).1.ne' de hnew hinsert
  refine h.setEntries hd htype hnlink hshape hparent hlive hused hplain (fun j hj ↦ ?_)
    fun j hj hij ↦ ?_
  · rw [hnamed j hj, hslack, List.count_cons]
    simp only [beq_iff_eq]
    omega
  · rw [hnamed j hj, if_neg hij, add_zero]

/-- The entry of an inode that is no directory is cleared, and not yet its link. -/
theorem clearEntry {de cleared : Dirent} {k : ℕ} (hd : IsDir (inode d))
    (hlive : nlink (inode d) ≠ 0) (htype : IsDir ip) (hnlink : nlink ip = nlink (inode d))
    (hk : (entries (inode d))[k]? = some de) (hname : de.name ≠ dot ∧ de.name ≠ dotdot)
    (hused : ¬ IsFree (inode de.inum)) (hplain : ¬ IsDir (inode de.inum))
    (hzero : cleared.inum = 0) (hclear : entries ip = (entries (inode d)).set k cleared) :
    Tree size root (de.inum :: slack) (update inode d ip) := by
  obtain ⟨hshape, hparent, hcleared⟩ := (h.shape d hd).clear hk hname hclear hzero
  refine h.setEntries hd htype hnlink hshape hparent hlive hused hplain (fun j hj ↦ ?_)
    fun j hj hij ↦ ?_
  · rw [← hcleared j hj, List.count_cons]
    simp only [beq_iff_eq]
    omega
  · rw [← hcleared j hj, if_neg hij, add_zero]

/-- The number of links of `n`, which is empty and named by its parent `d` alone, changes from `b`
to `b'`, and with it the entry in `d` and the link for `..`. -/
theorem attach {inode' : ℕ → α} {ipd : α} (b b' : ℕ) (hb : b' ≤ 1) (hd : IsDir (inode d))
    (hlive : nlink (inode d) ≠ 0) (hn : 0 < n ∧ n < size) (hdn : d ≠ n) (hroot : root ≠ n)
    (hslack : slack.count n = 0) (hlinks : links size inode n = b)
    (hby : ∀ e < size, named (inode e) n = if e = d then b else 0)
    (hempty : ∀ j, j ≠ 0 → named (inode n) j = 0)
    (hup : ∀ j, j ≠ 0 → weight (inode n) j = if d = j then b else 0)
    (hother : ∀ j, j ≠ d → j ≠ n → inode' j = inode j) (hnoden : inode' n = ipn)
    (hnoded : inode' d = ipd) (htypen : IsDir ipn)
    (hnlinkn : nlink ipn = b') (hshapen : Shape size n ipn)
    (hparentn : parent ipn = d) (hemptyn : ∀ j, j ≠ 0 → named ipn j = 0)
    (htyped : IsDir ipd) (hlived : nlink ipd ≠ 0)
    (hnlinkd : nlink ipd + b = nlink (inode d) + b') (hshaped : Shape size d ipd)
    (hparentd : parent ipd = parent (inode d))
    (hnamedd : ∀ j, j ≠ 0 → named ipd j + (if n = j then b else 0) =
      named (inode d) j + if n = j then b' else 0) : Tree size root slack inode' := by
  subst hnoden hnoded
  have hnew : ∀ j, j ≠ 0 → links size inode' j + (if d = j then b else 0) +
      (if n = j then b else 0) =
      links size inode j + (if d = j then b' else 0) + if n = j then b' else 0 := by
    intro j hj
    have heq : inode' = update (update inode n (inode' n)) d (inode' d) := by
      grind
    have hfirst := links_update hn.2 inode (inode' n) j
    have hsecond := links_update (h.range_dir hd).2 (update inode n (inode' n)) (inode' d) j
    rw [update_of_ne hdn, ← heq] at hsecond
    have hweightn : weight (inode' n) j = if d = j then b' else 0 := by
      rw [weight, hemptyn j hj, hnlinkn, hparentn]
      obtain rfl | rfl : b' = 0 ∨ b' = 1 := by omega
      · simp
      · simp
    have hweightd : weight (inode' d) j + (if n = j then b else 0) =
        weight (inode d) j + if n = j then b' else 0 := by
      have hnamed := hnamedd j hj
      simp only [weight, hparentd, hlived, hlive, ne_eq]
      omega
    have hold := hup j hj
    omega
  have hfield : ∀ {e}, e ≠ n → (nlink (inode' e) = 0 ↔ nlink (inode e) = 0) ∧
      parent (inode' e) = parent (inode e) ∧ SameKind (inode' e) (inode e) := by
    intro e hen
    by_cases hed : e = d
    · rw [hed]
      exact ⟨iff_of_false hlived hlive, hparentd, .of_dir htyped hd⟩
    · rw [hother e hed hen]
      exact ⟨.rfl, rfl, .refl _⟩
  have hnamed : ∀ {e j}, j ≠ 0 → named (inode' e) j + (if e = d ∧ n = j then b else 0) =
      named (inode e) j + if e = d ∧ n = j then b' else 0 := by
    intro e j hj
    by_cases hed : e = d
    · simpa [hed] using hnamedd j hj
    · by_cases hen : e = n
      · simp [hen, hdn.symm, hemptyn j hj, hempty j hj]
      · simp [hother e hed hen, hed]
  refine ⟨fun j hj ↦ ?_, (hfield hroot).2.2.2.mpr h.root_dir, mt (hfield hroot).1.mp h.root_live,
    by rw [(hfield hroot).2.1, h.root_parent], fun e he ↦ ?_, fun e he ↦ ?_, fun j hj ↦ ?_,
    fun j hj hj' ↦ ?_, fun e he f hf ↦ ?_, fun e he hdead j hj ↦ ?_⟩
  · by_cases hjn : j = n
    · exact hjn ▸ hn
    · rw [(hfield hjn).2.2.1] at hj
      exact h.range j hj
  · by_cases hen : e = n
    · exact hen ▸ hshapen
    · by_cases hed : e = d
      · exact hed ▸ hshaped
      · rw [hother e hed hen] at he ⊢
        exact h.shape e he
  · have hen : e ≠ n := fun heq ↦ he (heq ▸ htypen)
    rw [hother e (fun heq ↦ he (heq ▸ htyped)) hen]
    exact h.plain e (mt (hfield hen).2.2.2.mpr he)
  · by_cases hjn : j = n
    · have hnew := hnew n hn.1.ne'
      rw [if_neg hdn, if_neg hdn, if_pos rfl, if_pos rfl] at hnew
      rw [hjn]
      omega
    · rw [(hfield hjn).2.2.1] at hj
      have hold := h.links_eq j hj
      have hnew := hnew j (h.range j hj).1.ne'
      rw [if_neg (Ne.symm hjn), if_neg (Ne.symm hjn)] at hnew
      by_cases hjd : j = d
      · rw [hjd] at hold hnew ⊢
        rw [if_pos rfl, if_pos rfl] at hnew
        omega
      · rw [if_neg (Ne.symm hjd), if_neg (Ne.symm hjd)] at hnew
        rw [hother j hjd hjn]
        omega
  · have hjn : n ≠ j := fun heq ↦ not_free htypen (heq ▸ hj')
    have hjd : d ≠ j := fun heq ↦ not_free htyped (heq ▸ hj')
    have hnew := hnew j hj
    rw [h.unnamed j hj ((hfield hjn.symm).2.2.1.mp hj'), if_neg hjn, if_neg hjn, if_neg hjd,
      if_neg hjd] at hnew
    exact hnew
  · by_cases hen : e = n
    · have hnamed := hnamed (e := f) hn.1.ne'
      have hone : named (inode' f) n = if f = d then b' else 0 := by
        rw [hby f hf] at hnamed
        by_cases hfd : f = d
        · simp only [hfd, true_and] at hnamed ⊢
          omega
        · simpa [hfd] using hnamed
      rw [hen, hparentn, hnlinkn, hone]
      obtain rfl | rfl : b' = 0 ∨ b' = 1 := by omega
      · simp
      · simp [hroot.symm]
    · have he' := (hfield hen).2.2.2.mp he
      have hnamed := hnamed (e := f) (h.range_dir he').1.ne'
      rw [if_neg fun heq ↦ hen heq.2.symm, if_neg fun heq ↦ hen heq.2.symm, h.tree e he' f hf,
        add_zero, add_zero] at hnamed
      simpa only [ne_eq, (hfield hen).1, (hfield hen).2.1] using hnamed
  · by_cases hen : e = n
    · exact hen ▸ hemptyn j hj
    · rw [(hfield hen).1] at hdead
      have hed : e ≠ d := fun heq ↦ hlive (heq ▸ hdead)
      rw [hother e hed hen] at he ⊢
      exact h.bare e he hdead j hj

/-- A directory is made: the new one has the first two entries and one link, the entry for it in
its parent, and the parent has one more, for `..`. -/
theorem mkdir {ipd : α} (hd : IsDir (inode d)) (hlive : nlink (inode d) ≠ 0) (hn : 0 < n ∧ n < size)
    (hfree : IsFree (inode n)) (hslack : slack.count n = 0) (htypen : IsDir ipn)
    (hnlinkn : nlink ipn = 1) (hentries : entries ipn = [⟨n, dot⟩, ⟨d, dotdot⟩])
    (htyped : IsDir ipd) (hnlinkd : nlink ipd = nlink (inode d) + 1) (hshape : Shape size d ipd)
    (hparent : parent ipd = parent (inode d))
    (hnamed : ∀ j, j ≠ 0 → named ipd j = named (inode d) j + if n = j then 1 else 0) :
    Tree size root slack (update (update inode n ipn) d ipd) := by
  have hlinks := h.unnamed n hn.1.ne' hfree
  have hplain := h.plain n fun hdir ↦ not_free hdir hfree
  have hdn : d ≠ n := fun heq ↦ not_free hd (heq ▸ hfree)
  obtain ⟨hpos, hlt⟩ := h.range_dir hd
  obtain ⟨hshapen, hparentn, hemptyn⟩ := Shape.of_two ⟨hpos.ne', hlt⟩ hentries
  refine h.attach 0 1 le_rfl hd hlive hn hdn (fun heq ↦ not_free h.root_dir (heq ▸ hfree)) hslack
    hlinks (fun e he ↦ ?_) (fun j _ ↦ by rw [named, hplain]; rfl) (fun j hj ↦ ?_)
    (fun j hjd hjn ↦ by rw [update_of_ne hjd, update_of_ne hjn])
    (by rw [update_of_ne hdn.symm, update_self]) (update_self _ _ _) htypen hnlinkn hshapen hparentn
    (fun j _ ↦ hemptyn j) htyped ?_ (by rw [hnlinkd]; omega) hshape hparent
    fun j hj ↦ by rw [hnamed j hj, ite_self, add_zero]
  · have hle := weight_le_links he inode n
    rw [hlinks, weight] at hle
    rw [ite_self]
    omega
  · rw [weight_of_entries hplain hj, ite_self]
  · have hold := h.links_eq d (not_free hd)
    omega

end

section Remove

variable {d n : ℕ} (h : Tree size root [] inode) (hd : IsDir (inode d)) (hn : IsDir (inode n))
  (hnamed : named (inode d) n ≠ 0) (hempty : ∀ j, j ≠ 0 → named (inode n) j = 0)

include h hd hn hnamed hempty

omit hempty in
/-- A directory that is named is named by its parent alone. -/
theorem named_eq : n ≠ root ∧ nlink (inode n) ≠ 0 ∧ parent (inode n) = d ∧
    ∀ e < size, named (inode e) n = if e = d then 1 else 0 := by
  have htree := h.tree n hn
  have hd' := htree d (h.range_dir hd).2
  rw [hd'] at hnamed
  have hcase : n ≠ root ∧ nlink (inode n) ≠ 0 ∧ d = parent (inode n) := by
    by_contra hnot
    rw [if_neg hnot] at hnamed
    exact hnamed rfl
  refine ⟨hcase.1, hcase.2.1, hcase.2.2.symm, fun e he ↦ ?_⟩
  rw [htree e he, hcase.2.2]
  simp [hcase.1, hcase.2.1]

/-- An empty directory is no parent of a directory with links. -/
theorem parent_ne_of_empty {e : ℕ} (hlive : nlink (inode e) ≠ 0) : parent (inode e) ≠ n := by
  have hn0 := (h.range_dir hn).1.ne'
  intro hparent
  by_cases he : IsDir (inode e)
  · by_cases hroot : e = root
    · rw [hroot, h.root_parent] at hparent
      exact (named_eq h hd hn hnamed).1 hparent.symm
    · have htree := h.tree e he n (h.range_dir hn).2
      rw [hempty e (h.range_dir he).1.ne', if_pos ⟨hroot, hlive, hparent.symm⟩] at htree
      omega
  · rw [parent, h.plain e he] at hparent
    exact hn0 hparent.symm

theorem nlink_eq_one : nlink (inode n) = 1 := by
  obtain ⟨-, -, -, hone⟩ := named_eq h hd hn hnamed
  have hweight : ∀ e ∈ Finset.range size, weight (inode e) n = if e = d then 1 else 0 := by
    intro e he
    have hup : ¬ (nlink (inode e) ≠ 0 ∧ parent (inode e) = n) := by
      rintro ⟨hlive, hparent⟩
      exact parent_ne_of_empty h hd hn hnamed hempty hlive hparent
    rw [weight, hone e (Finset.mem_range.mp he), if_neg hup, add_zero]
  rw [h.links_eq n (not_free hn), links, Finset.sum_congr rfl hweight,
    Finset.sum_ite_eq' (Finset.range size) d, if_pos (Finset.mem_range.mpr (h.range_dir hd).2)]
  simp

theorem removed_ne : d ≠ n := by
  rintro rfl
  exact hnamed (hempty d (h.range_dir hd).1.ne')

omit hempty in
theorem parent_live : nlink (inode d) ≠ 0 := fun hdead ↦
  hnamed (h.bare d hd hdead n (h.range_dir hn).1.ne')

/-- The parent of a directory has a link for its own name and one for each directory in it. -/
theorem two_le_nlink : 2 ≤ nlink (inode d) := by
  obtain ⟨-, hlive, hparent, -⟩ := named_eq h hd hn hnamed
  have hdlive := parent_live h hd hn hnamed
  have hdrange := h.range_dir hd
  have hup : 1 ≤ weight (inode n) d := by
    rw [weight, if_pos ⟨hlive, hparent⟩]
    omega
  -- What names the directory itself.
  have hname : ∃ e < size, e ≠ n ∧ 1 ≤ weight (inode e) d := by
    by_cases hroot : d = root
    · refine ⟨d, hdrange.2, removed_ne h hd hn hnamed hempty, ?_⟩
      rw [weight, if_pos ⟨hdlive, by rw [hroot, h.root_parent]⟩]
      omega
    · have htree := h.tree d hd _ (h.shape d hd).parent_lt
      rw [if_pos ⟨hroot, hdlive, rfl⟩] at htree
      refine ⟨parent (inode d), (h.shape d hd).parent_lt, fun heq ↦ ?_, ?_⟩
      · rw [heq, hempty d hdrange.1.ne'] at htree
        omega
      · rw [weight, htree]
        omega
  obtain ⟨e, he, hen, hone⟩ := hname
  have hpair : weight (inode e) d + weight (inode n) d ≤ links size inode d := by
    rw [links, ← sum_pair (f := fun e ↦ weight (inode e) d) hen]
    refine sum_le_sum_of_subset fun x hx ↦ ?_
    rw [mem_insert, mem_singleton] at hx
    rcases hx with rfl | rfl
    · exact mem_range.mpr he
    · exact mem_range.mpr (h.range_dir hn).2
  have hlinks := h.links_eq d (not_free hd)
  omega

/-- A directory is removed: its entry goes, and the parent loses the link for `..`. -/
theorem rmdir {ipn ipd : α} (htypen : IsDir ipn) (hnlinkn : nlink ipn = 0)
    (hentries : entries ipn = entries (inode n)) (htyped : IsDir ipd)
    (hnlinkd : nlink ipd = nlink (inode d) - 1) (hshape : Shape size d ipd)
    (hparentd : parent ipd = parent (inode d))
    (hcleared : ∀ j, j ≠ 0 → named ipd j + (if n = j then 1 else 0) = named (inode d) j) :
    Tree size root [] (update (update inode d ipd) n ipn) := by
  obtain ⟨hroot, hlive, hparent, hone⟩ := named_eq h hd hn hnamed
  have hdn := removed_ne h hd hn hnamed hempty
  have htwo := two_le_nlink h hd hn hnamed hempty
  have hlinks := h.links_eq n (not_free hn)
  rw [nlink_eq_one h hd hn hnamed hempty, List.count_nil] at hlinks
  refine h.attach 1 0 zero_le_one hd (by omega) (h.range_dir hn) hdn hroot.symm List.count_nil
    (by omega) hone hempty (fun j hj ↦ by simp [weight, hempty j hj, hlive, hparent])
    (fun j hjd hjn ↦ by rw [update_of_ne hjn, update_of_ne hjd]) (update_self _ _ _)
    (by rw [update_of_ne hdn, update_self]) htypen hnlinkn ((h.shape n hn).of_entries hentries)
    (by rw [parent, hentries, ← parent, hparent])
    (fun j hj ↦ by rw [named, hentries, ← named, hempty j hj]) htyped (by omega)
    (by rw [hnlinkd]; omega) hshape hparentd
    fun j hj ↦ by rw [hcleared j hj, ite_self, add_zero]

end Remove

/-- A free inode becomes a directory without links. -/
theorem allocDir (h : Tree size root slack inode) (hn : 0 < n ∧ n < size) (hfree : IsFree (inode n))
    (hslack : slack.count n = 0) (hd : d ≠ 0 ∧ d < size) (htype : IsDir ipn) (hdead : nlink ipn = 0)
    (hentries : entries ipn = [⟨n, dot⟩, ⟨d, dotdot⟩]) :
    Tree size root slack (update inode n ipn) := by
  obtain ⟨hshape, -, hnamed⟩ := Shape.of_two hd hentries
  have hunnamed := h.unnamed n hn.1.ne' hfree
  refine h.setDead (fun hdir ↦ absurd hfree (not_free hdir)) (fun _ ↦ ⟨hdead, hshape, hnamed⟩)
    (fun hplain ↦ absurd htype hplain) hn (fun _ _ ↦ rfl) (fun _ ↦ ?_) fun _ ↦ hunnamed
  rw [hdead, hunnamed, hslack]
  rfl

/-- A directory without links is freed. -/
theorem freeDir (h : Tree size root slack inode) (hn : IsDir (inode n))
    (hdead : nlink (inode n) = 0) (htype : IsFree ipn) (hentries : entries ipn = []) :
    Tree size root slack (update inode n ipn) := by
  have hplain : ¬ IsDir ipn := fun hdir ↦ not_free hdir htype
  refine h.setDead (fun _ ↦ hdead) (fun hdir ↦ absurd hdir hplain) (fun _ ↦ hentries)
    (h.range_dir hn)
    (fun _ _ ↦ rfl) (fun hused ↦ absurd htype hused) fun _ ↦ ?_
  have hzero := h.links_eq n (not_free hn)
  omega

end Tree

end Tree

end EasyKernels.Lib.LinkTree
