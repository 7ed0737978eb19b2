import EasyKernels.Lib.LinkTree

/-!
# Lists of directory entries as finite maps

A list of entries of which no two in use have the same name (`DistinctNames`) is a finite map from
names to inode numbers. `lookup` gives the inode number of a name and the index of its entry;
`lookup_insertEntry` and `lookup_clear` are what a new entry and a cleared one do to it, and
`DistinctNames.insertEntry` and `DistinctNames.clear` say that both keep the names apart.
-/

set_option autoImplicit false

namespace EasyKernels.Lib.LinkTree

open Option
open List hiding map_map

variable {entries : List Dirent} {de : Dirent} {name : Name} {i k : ℕ}

section

variable (entries : List Dirent)

/-- No two entries in use have the same name. -/
def DistinctNames : Prop :=
  ∀ (j k : ℕ) (de de' : Dirent), entries[j]? = some de → entries[k]? = some de' →
  de.inum ≠ 0 → de'.inum ≠ 0 →
    de.name = de'.name → j = k

/-- The inode number that a list of entries gives a name, and the index of the entry. -/
def lookup (name : Name) : Option (ℕ × ℕ) :=
  (findName entries name).map fun k ↦ ((entries.getD k Dirent.zero).inum, k)

/-- The index of the first entry that is not in use, or the number of entries. -/
def freeIndex : ℕ := entries.findIdx fun de ↦ de.inum = 0

end

/-! ### One entry after another -/

theorem lookup_cons (de : Dirent) (entries : List Dirent) (name : Name) :
    lookup (de :: entries) name =
      if de.inum ≠ 0 ∧ de.name = name then some (de.inum, 0)
      else (lookup entries name).map fun r ↦ (r.1, r.2 + 1) := by
  unfold lookup findName
  rw [findIdx?_cons]
  by_cases hfound : de.inum ≠ 0 ∧ de.name = name
  · simp [hfound]
  · simp [hfound, map_map, Function.comp_def]

theorem freeIndex_cons (de : Dirent) (entries : List Dirent) :
    freeIndex (de :: entries) = if de.inum = 0 then 0 else freeIndex entries + 1 := by
  unfold freeIndex
  rw [findIdx_cons]
  by_cases hfree : de.inum = 0
  · simp [hfree]
  · simp [hfree]

/-! ### Finding a name -/

theorem lookup_eq_none_iff : lookup entries name = none ↔
    ∀ k i : ℕ, entries[k]? = some ⟨i, name⟩ → i = 0 := by
  rw [lookup, map_eq_none_iff]
  constructor
  · intro hnone k i hk
    by_contra hi
    exact findName_eq_none hnone hk hi rfl
  · intro h
    by_contra hsome
    obtain ⟨k, hk⟩ := ne_none_iff_exists'.mp hsome
    obtain ⟨⟨i, name'⟩, hde, hinum, rfl⟩ := findName_eq_some hk
    exact hinum (h k i hde)

theorem lookup_eq_some (h : lookup entries name = some (i, k)) :
    i ≠ 0 ∧ entries[k]? = some ⟨i, name⟩ := by
  obtain ⟨k', hk, heq⟩ := map_eq_some_iff.mp h
  obtain ⟨hinum, rfl⟩ := Prod.mk.inj heq
  obtain ⟨⟨i', name'⟩, hde, hne, rfl⟩ := findName_eq_some hk
  rw [getD_eq_getElem?_getD, hde, getD_some] at hinum
  obtain rfl : i' = i := hinum
  exact ⟨hne, hde⟩

/-- Where no name is there twice, any entry in use with the name is the one that is found. -/
theorem DistinctNames.lookup_eq_some_iff (h : DistinctNames entries) :
    lookup entries name = some (i, k) ↔ i ≠ 0 ∧ entries[k]? = some ⟨i, name⟩ := by
  refine ⟨lookup_eq_some, ?_⟩
  rintro ⟨hi, hk⟩
  cases hfound : lookup entries name with
  | none => exact absurd (lookup_eq_none_iff.mp hfound k i hk) hi
  | some r =>
    obtain ⟨hr, hrk⟩ := lookup_eq_some hfound
    have hindex := h _ _ _ _ hrk hk hr hi rfl
    rw [hindex, hk, some.injEq, Dirent.mk.injEq] at hrk
    rw [← hindex, hrk.1]

/-! ### A new entry -/

theorem freeIndex_le (entries : List Dirent) : freeIndex entries ≤ entries.length :=
    findIdx_le_length

theorem inum_freeIndex (hfree : entries[freeIndex entries]? = some de) : de.inum = 0 := by
  obtain ⟨hlt, hde⟩ := List.getElem?_eq_some_iff.mp hfree
  have hzero := findIdx_getElem (w := hlt)
  simp only [decide_eq_true_eq] at hzero
  exact hde ▸ hzero

theorem getElem?_insertEntry (entries : List Dirent) (de : Dirent) (k : ℕ) :
    (insertEntry entries de)[k]? = if k = freeIndex entries then some de else entries[k]? := by
  have hle := freeIndex_le entries
  change (if freeIndex entries < _ then entries.set (freeIndex entries) de else _)[k]? = _
  split_ifs with hlt hk hk
  · rw [hk, getElem?_set_self hlt]
  · rw [getElem?_set_ne (Ne.symm hk)]
  · rw [hk, show freeIndex entries = entries.length by omega, getElem?_concat_length]
  · rcases Nat.lt_or_ge k entries.length with hin | hout
    · rw [getElem?_append_left hin]
    · rw [getElem?_eq_none hout, getElem?_eq_none]
      rw [length_append, length_singleton]
      omega

/-- An entry in use is kept by a new one. -/
theorem getElem?_insertEntry_of_used {used : Dirent} (hk : entries[k]? = some used)
    (hused : used.inum ≠ 0) : (insertEntry entries de)[k]? = some used := by
  rw [getElem?_insertEntry, if_neg, hk]
  rintro rfl
  exact hused (inum_freeIndex hk)

section

variable (h : DistinctNames entries)

include h

theorem DistinctNames.insertEntry (hnew : lookup entries de.name = none) :
    DistinctNames (insertEntry entries de) := by
  intro j k e e' hj hk he he' hname
  rw [getElem?_insertEntry] at hj hk
  have habsent : ∀ {l : ℕ} {f : Dirent}, entries[l]? = some f → f.inum ≠ 0 → f.name ≠ de.name := by
    intro l f hl hf hsame
    exact hf (lookup_eq_none_iff.mp hnew l f.inum (by rw [hl, ← hsame]))
  split_ifs at hj hk with hj' hk' hk'
  · rw [hj', hk']
  · cases hj
    exact absurd hname.symm (habsent hk he')
  · cases hk
    exact absurd hname (habsent hj he)
  · exact h j k e e' hj hk he he' hname

/-- The new name is found at the entry that was free, and the other names where they were. -/
theorem DistinctNames.lookup_insertEntry (hde : de.inum ≠ 0) (hnew : lookup entries de.name = none)
    (name : Name) : lookup (LinkTree.insertEntry entries de) name =
      if name = de.name then some (de.inum, freeIndex entries) else lookup entries name := by
  have h' := h.insertEntry hnew
  split_ifs with hname
  · refine h'.lookup_eq_some_iff.mpr ⟨hde, ?_⟩
    rw [getElem?_insertEntry, if_pos rfl, hname]
  · refine ext fun ⟨i, k⟩ ↦ ?_
    rw [h'.lookup_eq_some_iff, h.lookup_eq_some_iff]
    refine and_congr_right fun hi ↦ ⟨fun hk ↦ ?_, fun hk ↦ getElem?_insertEntry_of_used hk hi⟩
    rw [getElem?_insertEntry] at hk
    split_ifs at hk with hfree
    · cases hk
      exact absurd rfl hname
    · exact hk

/-! ### A cleared entry -/

theorem DistinctNames.clear {cleared : Dirent} (hzero : cleared.inum = 0) (k : ℕ) :
    DistinctNames (entries.set k cleared) := by
  have hkept : ∀ {l : ℕ} {f : Dirent}, (entries.set k cleared)[l]? = some f → f.inum ≠ 0 →
      entries[l]? = some f := by
    intro l f hl hf
    rw [getElem?_set] at hl
    split_ifs at hl
    · cases hl
      exact absurd hzero hf
    · exact hl
  intro i j e e' hi hj he he' hname
  exact h i j e e' (hkept hi he) (hkept hj he') he he' hname

/-- The name of the cleared entry is gone, and the other names are found where they were. -/
theorem DistinctNames.lookup_clear {cleared : Dirent} (hzero : cleared.inum = 0)
    (hfound : lookup entries name = some (i, k)) (other : Name) :
    lookup (entries.set k cleared) other =
      if other = name then none else lookup entries other := by
  have h' := h.clear hzero k
  obtain ⟨hi, hk⟩ := lookup_eq_some hfound
  refine ext fun ⟨j, l⟩ ↦ ?_
  rw [h'.lookup_eq_some_iff, getElem?_set]
  rcases eq_or_ne k l with rfl | hl
  · rw [if_pos rfl, if_pos (List.getElem?_eq_some_iff.mp hk).1]
    constructor
    · rintro ⟨hj, hcleared⟩
      rw [some.inj hcleared] at hzero
      exact absurd hzero hj
    · intro hother
      split_ifs at hother with hname
      obtain ⟨-, hentry⟩ := lookup_eq_some hother
      rw [hk, some.injEq, Dirent.mk.injEq] at hentry
      exact absurd hentry.2.symm hname
  · rw [if_neg hl, ← h.lookup_eq_some_iff]
    split_ifs with hname
    · rw [hname, hfound]
      simp only [some.injEq, Prod.mk.injEq, iff_false, not_and]
      exact fun _ heq ↦ hl heq
    · exact .rfl

end

end EasyKernels.Lib.LinkTree
