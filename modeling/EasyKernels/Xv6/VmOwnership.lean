import Mathlib.Tactic.DeriveFintype
import EasyKernels.Xv6.Vm

/-!
# What the functions of `vm.c` own

The pages of a page directory are its own page, those of its page tables, and those that are mapped
in the user part (`Pgdir.holds`, collected in `Pgdir.own`). For each function there is a theorem
with `Safe` that says what it owns when it is called and when it returns, whichever calls of
`kalloc` fail.

`deallocuvm` does what a visit to every page does, and frees and unmaps just what is mapped
(`deallocuvm_visits`), although its loop skips what has no page table; so `freevm` frees all that a
page directory holds (`freevm_safe`), and the error paths of `setupkvm`, `allocuvm`, `copyuvm` and
`exec` free what has been built so far (`setupkvm_safe`, `allocuvm_safe`, `copyuvm_safe`,
`exec_safe`).
-/

set_option autoImplicit false

namespace EasyKernels.Xv6.Vm

open Nat List Function Lib.Allocation

/-! ### The pages of a page directory -/

/-- What a page of an address space is used for: the page directory, a page table, or the mapping
with the given indices. -/
inductive Use
  | dir
  | tab (i : Fin 1024)
  | map (i j : Fin 1024)
  deriving DecidableEq, Fintype

/-- The page directory entries of the user part. -/
def User (i : Fin 1024) : Prop := i.val < 512

instance (i : Fin 1024) : Decidable (User i) := inferInstanceAs (Decidable (_ < _))

/-- The pages that a page directory holds. The mappings of the kernel's part hold none. -/
def Pgdir.holds (pd : Pgdir) : Use → Option ℕ
  | .dir => some pd.page
  | .tab i => (pd.pde i).map Pgtab.page
  | .map i j => if User i then (pd.pde i).bind fun t ↦ (t.pte j).map Pte.pa else none

@[irreducible]
def Pgdir.own (pd : Pgdir) : Multiset ℕ := pool pd.holds

theorem user_pdx {va : ℕ} (hva : va < kernBase) : User (pdx va) := by
  simp only [User, pdx, kernBase] at *
  omega

theorem not_user_pdx {va : ℕ} (hlow : kernBase ≤ va) (hhigh : va < 2 ^ 32) : ¬ User (pdx va) := by
  simp only [User, pdx, kernBase] at *
  omega

variable {pd : Pgdir} {va : ℕ}

open Pgdir

theorem holds_newTable {i : Fin 1024} {v : ℕ} (hnone : pd.pde i = none) :
    (pd.setPde i ⟨v, fun _ ↦ none⟩).holds = update pd.holds (.tab i) (some v) := by
  funext u
  cases u with
  | dir => rfl
  | tab j =>
    simp only [holds, setPde, update_apply, Use.tab.injEq]
    split_ifs <;> rfl
  | map j k =>
    rw [update_of_ne (by simp)]
    by_cases hj : j = i
    · simp [hj, holds, setPde, hnone]
    · simp only [holds, setPde, update_of_ne hj]

theorem own_newTable {i : Fin 1024} {v : ℕ} (hnone : pd.pde i = none) :
    (pd.setPde i ⟨v, fun _ ↦ none⟩).own = v ::ₘ pd.own := by
  rw [own, own, holds_newTable hnone]
  refine pool_take ?_
  rw [holds, hnone]
  rfl

variable {e : Option Pte} {w u : Bool} {pa : ℕ}

theorem holds_tab_setPde {t : Pgtab} {i j : Fin 1024} {pte : Fin 1024 → Option Pte}
    (ht : pd.pde j = some t) :
    (pd.setPde j { t with pte := pte }).holds (.tab i) = pd.holds (.tab i) := by
  by_cases hi : i = j
  · simp only [hi, holds, setPde, update_self, ht, Option.map_some]
  · simp only [holds, setPde, update_of_ne hi]

/-- A store to an entry of the user part changes what it holds. -/
theorem holds_setPte {e' : Option Pte} (hpte : findPte pd va = some e) (huser : User (pdx va)) :
    (pd.setPte va e').holds =
      update pd.holds (.map (pdx va) (ptx va)) (e'.map Pte.pa) := by
  obtain ⟨t, ht, -⟩ := Option.map_eq_some_iff.mp hpte
  simp only [setPte, ht]
  funext u
  cases u with
  | dir => rfl
  | tab i =>
    rw [update_of_ne (by simp), holds_tab_setPde ht]
  | map i j =>
    by_cases hi : i = pdx va
    · by_cases hj : j = ptx va
      · simp [hi, hj, holds, setPde, huser]
      · simp [hi, hj, holds, setPde, ht]
    · simp [holds, setPde, hi]

/-- A store to an entry of the kernel's part changes nothing of it. -/
theorem holds_setPte_kernel (huser : ¬ User (pdx va)) : (pd.setPte va e).holds = pd.holds := by
  rw [setPte]
  split
  · rename_i t ht
    funext u
    cases u with
    | dir => rfl
    | tab i => exact holds_tab_setPde ht
    | map i j =>
      by_cases hi : i = pdx va
      · simp only [hi, holds, if_neg huser]
      · simp only [holds, setPde, update_of_ne hi]
  · rfl

theorem holds_map (huser : User (pdx va)) :
    pd.holds (.map (pdx va) (ptx va)) = (findPte pd va).join.map Pte.pa := by
  rw [holds, if_pos huser, findPte]
  cases pd.pde (pdx va) <;> rfl

/-- A page is mapped. -/
theorem own_setPte {e : Pte} (hpte : findPte pd va = some none) (huser : User (pdx va)) :
    (pd.setPte va (some e)).own = e.pa ::ₘ pd.own := by
  rw [own, own, holds_setPte hpte huser]
  exact pool_take (by rw [holds_map huser, hpte]; rfl)

/-- A page is unmapped. -/
theorem own_setPte_none {e : Pte} (hpte : findPte pd va = some (some e)) (huser : User (pdx va)) :
    pd.own = e.pa ::ₘ (pd.setPte va none).own := by
  rw [own, own, holds_setPte hpte huser]
  exact pool_release (by rw [holds_map huser, hpte]; rfl)

theorem pgRoundDown_add {a b : ℕ} (ha : a % pgSize = 0) (hb : b < pgSize) :
    pgRoundDown (a + b) = a := by
  rw [pgRoundDown]
  simp only [pgSize] at ha hb ⊢
  omega

theorem pgRoundUp_mod (sz : ℕ) : pgRoundUp sz % pgSize = 0 := by rw [pgRoundUp, mul_mod_left]

/-! ### `mappages` -/

theorem walkpgdir_safe (pd : Pgdir) (va : ℕ) :
    Safe (fun r N ↦ N = r.1.own ∧ ∀ e, r.2 = some e → findPte r.1 va = some e) (walkpgdir pd va)
      pd.own := by
  rw [walkpgdir]
  split
  · rename_i e hfind
    exact ⟨rfl, fun _ heq ↦ hfind.trans heq⟩
  · rename_i hfind
    have hnone : pd.pde (pdx va) = none := Option.map_eq_none_iff.mp hfind
    refine .take ⟨rfl, nofun⟩ fun v ↦ ⟨(own_newTable hnone).symm, fun e heq ↦ ?_⟩
    rw [← heq]
    simp only [findPte, setPde, update_self, Option.map_some]

/-- A page that is mapped in the user part belongs to the page directory. -/
theorem mapPage_safe (hva : va < kernBase) :
    Safe (fun r N ↦ r.1.own = (if r.2 then {pa} else 0) + N) (mapPage w u va pa pd) pd.own := by
  refine (walkpgdir_safe pd va).bind fun r N h ↦ ?_
  obtain ⟨pd', e⟩ := r
  obtain ⟨rfl, hfind⟩ := h
  match e with
  | none => exact (zero_add _).symm
  | some (some _) => trivial
  | some none => exact own_setPte (hfind none rfl) (user_pdx hva)

theorem mapPage_safe_kernel (hlow : kernBase ≤ va) (hhigh : va < 2 ^ 32) :
    Safe (fun r N ↦ N = r.1.own) (mapPage w u va pa pd) pd.own := by
  refine (walkpgdir_safe pd va).bind fun r N h ↦ ?_
  obtain ⟨pd', e⟩ := r
  obtain ⟨rfl, hfind⟩ := h
  match e with
  | none => rfl
  | some (some _) => trivial
  | some none =>
    change pd'.own = (pd'.setPte va (some ⟨pa, w, u⟩)).own
    rw [own, own, holds_setPte_kernel (not_user_pdx hlow hhigh)]

theorem mapLoop_safe_kernel (n : ℕ) (hlow : kernBase ≤ va) (hhigh : va + n * pgSize < 2 ^ 32) :
    Safe (fun r N ↦ N = r.1.own) (mapLoop w u n va pa pd) pd.own := by
  induction n generalizing va pa pd with
  | zero => exact mapPage_safe_kernel hlow (by omega)
  | succ n ih =>
    refine (mapPage_safe_kernel hlow (by omega)).bind fun r N h ↦ ?_
    subst h
    match r with
    | (pd', true) =>
      refine ih (hlow.trans (le_add_right _ _)) ?_
      rw [succ_mul] at hhigh
      omega
    | (pd', false) => rfl

/-- `mappages` of one page of the user part. -/
theorem mappages_safe (hva : va < kernBase) (halign : va % pgSize = 0) :
    Safe (fun r N ↦ r.1.own = (if r.2 then {pa} else 0) + N) (mappages pd va pgSize pa w u)
      pd.own := by
  have hfirst : pgRoundDown va = va := pgRoundDown_add halign (b := 0) (by decide)
  have hlast : pgRoundDown (va + pgSize - 1) = va := pgRoundDown_add halign (by decide)
  rw [mappages, hfirst, hlast, Nat.sub_self, Nat.zero_div]
  exact mapPage_safe hva

theorem mappages_safe_kernel (k : Kmap) :
    Safe (fun r N ↦ N = r.1.own) (mappages pd k.virt k.size k.phys k.w false) pd.own := by
  have hlow := k.kernBase_le
  have hhigh := k.end_le
  have hpos := k.size_pos
  refine mapLoop_safe_kernel _ ?_ ?_
  · simp only [pgRoundDown, pgSize, kernBase] at *
    omega
  · simp only [pgRoundDown, pgSize] at *
    omega

/-! ### `deallocuvm` and `freevm` -/

section Free

variable (lay : Layout)

theorem Safe.kfree {α : Type} {post : α → Multiset ℕ → Prop} {f : Unit → Kernel α} {v : ℕ}
    {M : Multiset ℕ} (h : Safe post (f ()) M) : Safe post (kfree lay v >>= f) (v ::ₘ M) := by
  rw [Vm.kfree]
  split_ifs
  · trivial
  · exact .give h

theorem Safe.kfree_last {post : Unit → Multiset ℕ → Prop} {v : ℕ} {M : Multiset ℕ}
    (h : post () M) : Safe post (Vm.kfree lay v) (v ::ₘ M) := by
  rw [Vm.kfree]
  split_ifs
  · trivial
  · exact ⟨M, rfl, h⟩

/-- The address of an entry. -/
def addr (i j : Fin 1024) : ℕ := i.val * 2 ^ 22 + j.val * 2 ^ 12

/-- Nothing is mapped from `a` to `b`. -/
def Clear (pd : Pgdir) (a b : ℕ) : Prop :=
  ∀ i j, a ≤ addr i j → addr i j < b → pd.holds (.map i j) = none

variable {oldsz : ℕ}

theorem holds_map_of_pde {i : Fin 1024} (hnone : pd.pde i = none) (j : Fin 1024) :
    pd.holds (.map i j) = none := by
  simp only [holds, hnone, Option.bind_none, ite_self]

variable {start a : ℕ}

theorem mem_pageAddrs {b x : ℕ} (ha : a % pgSize = 0) :
    x ∈ pageAddrs a b ↔ x % pgSize = 0 ∧ a ≤ x ∧ x < b := by
  simp only [pageAddrs, mem_map, mem_range, pgSize] at *
  constructor
  · omega
  · rintro ⟨halign, hle, hlt⟩
    exact ⟨(x - a) / 4096, by omega, by omega⟩

theorem pageAddrs_of_le {b : ℕ} (h : b ≤ a) : pageAddrs a b = [] := by
  rw [pageAddrs, div_eq_of_lt (by simp only [pgSize]; omega)]
  rfl

theorem pageAddrs_of_lt {b : ℕ} (h : a < b) : pageAddrs a b = a :: pageAddrs (a + pgSize) b := by
  have hcount : (b + pgSize - 1 - a) / pgSize = (b + pgSize - 1 - (a + pgSize)) / pgSize + 1 := by
    simp only [pgSize]
    omega
  have haddr : ∀ i, a + (i + 1) * pgSize = a + pgSize + i * pgSize := fun i ↦ by
    rw [succ_mul]
    omega
  rw [pageAddrs, hcount, range_succ_eq_map]
  simp [pageAddrs, haddr]

/-- The pages of a list are visited one by one, and those that are mapped are freed and unmapped. -/
def visitPages : List ℕ → Pgdir → Kernel Pgdir
  | [], pd => pure pd
  | a :: rest, pd =>
    match findPte pd a with
    | some (some e) =>
      if e.pa = 0 then .fault .kfree
      else do
        kfree lay e.pa
        visitPages rest (pd.setPte a none)
    | _ => visitPages rest pd

theorem join_findPte (hnone : ∀ e, findPte pd a ≠ some (some e)) : (findPte pd a).join = none :=
  Option.eq_none_iff_forall_ne_some.mpr fun e he ↦ hnone e (Option.join_eq_some_iff.mp he)

/-- Where there is no page table, the pages up to the next one need no visit. -/
theorem visitPages_nextTable {b : ℕ} (halign : a % pgSize = 0) (hnone : findPte pd a = none) :
    visitPages lay (pageAddrs a b) pd =
      visitPages lay (pageAddrs ((a / 2 ^ 22 + 1) * 2 ^ 22) b) pd := by
  have hpages : ∀ k, a + k * pgSize ≤ (a / 2 ^ 22 + 1) * 2 ^ 22 →
      visitPages lay (pageAddrs a b) pd = visitPages lay (pageAddrs (a + k * pgSize) b) pd := by
    intro k hk
    induction k with
    | zero => rw [Nat.zero_mul, Nat.add_zero]
    | succ k ih =>
      rw [succ_mul, ← add_assoc] at hk ⊢
      rw [ih (by omega)]
      by_cases hlt : a + k * pgSize < b
      · have hpdx : pdx (a + k * pgSize) = pdx a := by
          ext
          simp only [pdx, pgSize] at *
          omega
        have hsame : findPte pd (a + k * pgSize) = none := by
          rw [findPte, hpdx, Option.map_eq_none_iff.mp hnone]
          rfl
        rw [pageAddrs_of_lt hlt, visitPages, hsame]
      · rw [pageAddrs_of_le (by omega), pageAddrs_of_le (by omega)]
  obtain ⟨k, hk⟩ : ∃ k, a + k * pgSize = (a / 2 ^ 22 + 1) * 2 ^ 22 := by
    refine ⟨((a / 2 ^ 22 + 1) * 2 ^ 22 - a) / pgSize, ?_⟩
    simp only [pgSize] at *
    omega
  rw [← hk]
  exact hpages k hk.le

/-- The loop of `deallocuvm` comes to its end, and does what a visit to every page does. -/
theorem deallocLoop_eq (fuel : ℕ) (halign : a % pgSize = 0) (hfuel : oldsz ≤ a + fuel * pgSize) :
    deallocLoop lay oldsz fuel a pd = visitPages lay (pageAddrs a oldsz) pd := by
  induction fuel generalizing a pd with
  | zero =>
    rw [pageAddrs_of_le (by omega)]
    rfl
  | succ fuel ih =>
    rw [succ_mul] at hfuel
    have hnext : ∀ pd, deallocLoop lay oldsz fuel (a + pgSize) pd =
        visitPages lay (pageAddrs (a + pgSize) oldsz) pd := fun pd ↦
      ih (by rw [add_mod_right, halign]) (by omega)
    by_cases ha : a < oldsz
    · cases hfind : findPte pd a with
      | none =>
        rw [visitPages_nextTable lay halign hfind, deallocLoop, if_pos ha, hfind]
        refine ih ?_ ?_
        · simp only [pgSize]
          omega
        · simp only [pgSize] at *
          omega
      | some e =>
        cases e <;>
          simp only [deallocLoop, if_pos ha, pageAddrs_of_lt ha, visitPages, hfind, hnext]
    · rw [pageAddrs_of_le (by omega), deallocLoop, if_neg ha]
      rfl

theorem deallocuvm_eq (oldsz newsz : ℕ) :
    deallocuvm lay pd oldsz newsz = visitPages lay (pageAddrs (pgRoundUp newsz) oldsz) pd := by
  rw [deallocuvm]
  split_ifs with hle
  · rw [pageAddrs_of_le]
    · rfl
    · simp only [pgRoundUp, pgSize]
      omega
  · refine deallocLoop_eq lay _ (pgRoundUp_mod newsz) ?_
    simp only [pgSize]
    omega

/-- The pages that are mapped at some addresses. -/
def Pgdir.mapped (pd : Pgdir) (l : List ℕ) : List ℕ :=
  l.filterMap fun a ↦ (findPte pd a).join.map Pte.pa

/-- The addresses have the same entry. -/
def Same (a b : ℕ) : Prop := pdx b = pdx a ∧ ptx b = ptx a

instance (a b : ℕ) : Decidable (Same a b) := inferInstanceAs (Decidable (_ ∧ _))

theorem findPte_setPte (a b : ℕ) (e : Option Pte) : findPte (pd.setPte a e) b =
    if Same a b then (findPte pd b).map fun _ ↦ e else findPte pd b := by
  rw [findPte, findPte, Pgdir.setPte]
  cases ht : pd.pde (pdx a) with
  | none => by_cases hpdx : pdx b = pdx a <;> simp [Same, hpdx, ht]
  | some t =>
    by_cases hpdx : pdx b = pdx a
    · by_cases hptx : ptx b = ptx a <;> simp [Same, Pgdir.setPde, hpdx, hptx, ht]
    · simp [Same, Pgdir.setPde, hpdx]

/-- A visit to pages frees those that are mapped, if `kfree` accepts them, and removes their
mappings and no other. -/
theorem visitPages_gives (l : List ℕ) (hl : l.Pairwise fun a b ↦ ¬ Same a b)
    (hfree : ∀ v ∈ pd.mapped l, v ≠ 0 ∧ v % pgSize = 0 ∧ lay.kend ≤ v ∧ v < physTop) :
    ∃ pd', (visitPages lay l pd).gives = some (pd.mapped l, pd') ∧ ∀ va, findPte pd' va =
      if ∃ a ∈ l, Same a va then (findPte pd va).map fun _ ↦ none else findPte pd va := by
  induction l generalizing pd with
  | nil => exact ⟨pd, rfl, fun va ↦ by simp⟩
  | cons a l ih =>
    obtain ⟨ha, hl⟩ := pairwise_cons.mp hl
    rw [visitPages]
    split
    · rename_i e hfind
      have hsame : (pd.setPte a none).mapped l = pd.mapped l :=
        filterMap_congr fun b hb ↦ by rw [findPte_setPte, if_neg (ha b hb)]
      have hcons : pd.mapped (a :: l) = e.pa :: pd.mapped l := by simp [Pgdir.mapped, hfind]
      obtain ⟨⟨hpos, halign, hlow, hhigh⟩, hrest⟩ := forall_mem_cons.mp (hcons ▸ hfree)
      obtain ⟨pd', hgives, hpte⟩ := ih hl (hsame.symm ▸ hrest)
      rw [if_neg hpos, kfree, if_neg (by omega), hcons, ← hsame]
      refine ⟨pd', congrArg (Option.map _) hgives, fun va ↦ ?_⟩
      rw [hpte, findPte_setPte]
      by_cases hva : Same a va <;> simp [hva, Function.comp_def]
    · rename_i hnone
      have hjoin := join_findPte hnone
      have hcons : pd.mapped (a :: l) = pd.mapped l := by simp [Pgdir.mapped, hjoin]
      obtain ⟨pd', hgives, hpte⟩ := ih hl (hcons ▸ hfree)
      refine ⟨pd', hcons ▸ hgives, fun va ↦ ?_⟩
      rw [hpte]
      by_cases hva : Same a va
      · have hgone : findPte pd va = findPte pd a := by rw [findPte, findPte, hva.1, hva.2]
        rcases Option.join_eq_none_iff.mp hjoin with hno | hno <;> simp [hgone, hno]
      · simp [hva]

/-- A page directory with two page tables, and one missing between them. -/
def sparse : Pgdir where
  page := 0x400000
  pde := fun i ↦
    if i.val = 0 then
      some ⟨0x401000, fun j ↦
        if j.val = 3 ∨ j.val = 5 then some ⟨0x500000 + j.val * pgSize, true, true⟩ else none⟩
    else if i.val = 2 then
      some ⟨0x402000, fun j ↦ if j.val = 0 then some ⟨0x508000, true, true⟩ else none⟩
    else none

/-- What is visited is not mapped any more, and belongs to nobody. -/
theorem visitPages_safe (l : List ℕ) (hl : ∀ a ∈ l, a < kernBase) : Safe (fun pd' N ↦ N = pd'.own ∧
      ∀ i j, (∃ a ∈ l, i = pdx a ∧ j = ptx a) ∨ pd.holds (.map i j) = none →
        pd'.holds (.map i j) = none) (visitPages lay l pd) pd.own := by
  induction l generalizing pd with
  | nil => exact ⟨rfl, fun i j h ↦ h.resolve_left nofun⟩
  | cons a l ih =>
    obtain ⟨ha, hl⟩ := forall_mem_cons.mp hl
    have huser := user_pdx ha
    unfold visitPages
    split
    · rename_i e hsome
      split_ifs
      · trivial
      · rw [own_setPte_none hsome huser]
        refine Safe.kfree lay ((ih hl).mono fun pd' N h ↦ ⟨h.1, fun i j hij ↦ h.2 i j ?_⟩)
        rw [holds_setPte hsome huser, update_apply]
        split_ifs with heq
        · exact .inr rfl
        · refine hij.imp_left fun hmem ↦ ?_
          obtain ⟨b, hb, rfl, rfl⟩ := hmem
          refine ⟨b, (mem_cons.mp hb).resolve_left ?_, rfl, rfl⟩
          rintro rfl
          exact heq rfl
    · rename_i hnone
      have hholds : pd.holds (.map (pdx a) (ptx a)) = none := by
        rw [holds_map huser, join_findPte hnone]
        rfl
      refine (ih hl).mono fun pd' N h ↦ ⟨h.1, fun i j hij ↦ h.2 i j ?_⟩
      rcases hij with ⟨b, hb, rfl, rfl⟩ | hij
      · rcases mem_cons.mp hb with rfl | hb
        · exact .inr hholds
        · exact .inl ⟨b, hb, rfl, rfl⟩
      · exact .inr hij

theorem deallocuvm_safe (hold : oldsz ≤ kernBase) (newsz : ℕ) :
    Safe (fun pd' N ↦ N = pd'.own ∧ Clear pd' (pgRoundUp newsz) oldsz)
      (deallocuvm lay pd oldsz newsz) pd.own := by
  rw [deallocuvm_eq]
  have hmem {x} := mem_pageAddrs (b := oldsz) (x := x) (pgRoundUp_mod newsz)
  refine (visitPages_safe lay _ fun a ha ↦ (hmem.mp ha).2.2.trans_le hold).mono fun pd' N h ↦
    ⟨h.1, fun i j hlow hhigh ↦ h.2 i j (.inl ⟨addr i j, hmem.mpr ⟨?_, hlow, hhigh⟩, ?_, ?_⟩)⟩
  · simp only [addr, pgSize]
    omega
  · ext
    simp only [addr, pdx]
    omega
  · ext
    simp only [addr, ptx]
    omega

variable (g : Use → Option ℕ)

/-- The page tables that have been freed hold nothing. -/
def without (l : List (Fin 1024)) : Use → Option ℕ
  | .tab i => if i ∈ l then none else g (.tab i)
  | u => g u

theorem without_cons (i : Fin 1024) (l : List (Fin 1024)) :
    without (update g (.tab i) none) l = without g (i :: l) := by
  funext u
  cases u with
  | dir => rfl
  | map i j => rfl
  | tab j =>
    simp only [without, update_apply, Use.tab.injEq, mem_cons]
    by_cases hj : j = i
    · simp [hj]
    · simp [hj]

theorem freeTables_safe (pd : Pgdir) (l : List (Fin 1024)) (hnodup : l.Nodup) {g : Use → Option ℕ}
    (hg : ∀ i ∈ l, g (.tab i) = pd.holds (.tab i)) :
    Safe (fun _ N ↦ N = pool (without g l)) (freeTables lay pd l) (pool g) := by
  induction l generalizing g with
  | nil =>
    have hsame : without g [] = g := by
      funext u
      cases u <;> rfl
    rw [hsame]
    exact rfl
  | cons i l ih =>
    obtain ⟨hi, hl⟩ := nodup_cons.mp hnodup
    have hrest : ∀ j ∈ l, update g (.tab i) none (.tab j) = pd.holds (.tab j) := by
      intro j hj
      have hne : Use.tab j ≠ .tab i := fun heq ↦ hi (Use.tab.inj heq ▸ hj)
      rw [update_of_ne hne]
      exact hg j (mem_cons_of_mem i hj)
    have hhead := hg i mem_cons_self
    rw [← without_cons]
    unfold freeTables
    split
    · rename_i t ht
      rw [holds, ht] at hhead
      rw [pool_release hhead]
      exact Safe.kfree lay (ih hl hrest)
    · rename_i hnone
      rw [holds, hnone] at hhead
      have hsame : update g (.tab i) none = g := by
        rw [← Option.map_none, ← hhead, update_eq_self]
      rw [hsame] at hrest ⊢
      exact ih hl hrest

/-- `freevm` frees all that a page directory holds. -/
theorem freevm_safe (pd : Pgdir) : Safe (fun _ N ↦ N = 0) (freevm lay pd) pd.own := by
  unfold freevm
  generalize hl : finRange 1024 = l
  refine (deallocuvm_safe lay le_rfl 0).bind fun pd N h ↦ ?_
  obtain ⟨rfl, hclear⟩ := h
  have hnodup : l.Nodup := hl ▸ nodup_finRange 1024
  have htables := freeTables_safe lay pd l hnodup fun _ _ ↦ rfl
  rw [own]
  refine htables.bind fun _ N h ↦ ?_
  -- only the page directory itself is left
  have hrest : without pd.holds l = update (fun _ ↦ none) .dir (some pd.page) := by
    funext u
    cases u with
    | dir => rfl
    | tab i => exact if_pos (hl ▸ mem_finRange i)
    | map i j =>
      by_cases hi : User i
      · refine hclear i j (zero_le _) ?_
        simp only [User, addr, kernBase] at *
        omega
      · exact if_neg hi
  rw [h, hrest, pool_take rfl, pool_none]
  exact Safe.kfree_last lay rfl

end Free

/-! ### `allocuvm`, `setupkvm` and `copyuvm` -/

section Alloc

variable (lay : Layout)

open Multiset

/-- A page in the hands of the caller is mapped, or else still in its hands. -/
theorem mappages_given (pd : Pgdir) (pa : ℕ) {w u : Bool} (hva : va % pgSize = 0 ∧ va < kernBase) :
    Safe (fun r N ↦ N = (if r.2 then 0 else {pa}) + r.1.own) (mappages pd va pgSize pa w u)
      (pa ::ₘ pd.own) := by
  rw [← singleton_add, add_comm]
  refine ((mappages_safe hva.2 hva.1).frame {pa}).mono fun r N h ↦ ?_
  obtain ⟨K, rfl, hown⟩ := h
  rw [hown]
  cases r.2 with
  | true => exact (add_comm _ _).trans (zero_add _).symm
  | false => exact (add_comm _ _).trans (congrArg _ (zero_add K).symm)

theorem allocLoop_safe {oldsz : ℕ} {newsz : Size} (l : List ℕ)
    (hl : ∀ a ∈ l, a % pgSize = 0 ∧ a < kernBase) :
    Safe (fun r N ↦ N = r.1.own) (allocLoop lay oldsz newsz l pd) pd.own := by
  have hdealloc : ∀ pd, Safe (fun r N ↦ N = r.own) (deallocuvm lay pd newsz oldsz) pd.own :=
    fun pd ↦ (deallocuvm_safe lay newsz.2.le oldsz).mono fun _ _ h ↦ h.1
  induction l generalizing pd with
  | nil => exact rfl
  | cons a l ih =>
    refine .take ((hdealloc pd).bind fun pd N h ↦ h) fun mem ↦ ?_
    refine (mappages_given pd mem (hl a mem_cons_self)).bind fun r N h ↦ ?_
    match r with
    | (pd, true) =>
      replace h : N = 0 + pd.own := h
      rw [h, zero_add]
      exact ih fun a ha ↦ hl a (mem_cons_of_mem _ ha)
    | (pd, false) =>
      rw [h, add_comm]
      refine (hdealloc pd).bindOwn {mem} fun pd ↦ ?_
      rw [add_comm, singleton_add]
      exact Safe.kfree lay rfl

theorem allocuvm_safe (oldsz newsz : ℕ) (hold : newsz < oldsz → oldsz < kernBase) :
    Safe (fun r N ↦ N = r.1.own) (allocuvm lay pd oldsz newsz hold) pd.own := by
  rw [allocuvm]
  split_ifs with hbig hless
  · exact rfl
  · exact rfl
  · refine allocLoop_safe lay _ fun a ha ↦ ?_
    obtain ⟨halign, -, hlt⟩ := (mem_pageAddrs (pgRoundUp_mod oldsz)).mp ha
    exact ⟨halign, hlt.trans (not_le.mp hbig)⟩

/-- The pages of what a function returns, if it returns something. -/
def ownOpt : Option Pgdir → Multiset ℕ
  | none => 0
  | some pd => pd.own

theorem kvmLoop_safe (l : List Kmap) : Safe (fun r N ↦ N = ownOpt r) (kvmLoop lay l pd) pd.own := by
  induction l generalizing pd with
  | nil => exact rfl
  | cons k l ih =>
    refine (mappages_safe_kernel k).bind fun r N h ↦ ?_
    rw [h]
    match r with
    | (pd, true) => exact ih
    | (pd, false) => exact (freevm_safe lay pd).bind fun _ N h ↦ h

theorem own_empty (v : ℕ) : (⟨v, fun _ ↦ none⟩ : Pgdir).own = {v} := by
  have hholds : (⟨v, fun _ ↦ none⟩ : Pgdir).holds = update (fun _ ↦ none) .dir (some v) := by
    funext u
    cases u with
    | dir => rfl
    | tab i => rfl
    | map i j => exact holds_map_of_pde rfl j
  rw [own, hholds, pool_take rfl, pool_none]
  rfl

theorem setupkvm_safe : Safe (fun r N ↦ N = ownOpt r) (setupkvm lay) 0 := by
  refine .take rfl fun v ↦ ?_
  have hown : v ::ₘ 0 = (⟨v, fun _ ↦ none⟩ : Pgdir).own := (own_empty v).symm
  rw [hown]
  exact kvmLoop_safe lay lay.kmap

theorem copyLoop_safe {d : Pgdir} (l : List ℕ) (hl : ∀ a ∈ l, a % pgSize = 0 ∧ a < kernBase) :
    Safe (fun r N ↦ N = ownOpt r) (copyLoop lay pd l d) d.own := by
  induction l generalizing d with
  | nil => exact rfl
  | cons i l ih =>
    unfold copyLoop
    split
    · trivial
    · trivial
    · refine .take ((freevm_safe lay d).bind fun _ N h ↦ h) fun mem ↦ ?_
      refine (mappages_given d mem (hl i mem_cons_self)).bind fun r N h ↦ ?_
      match r with
      | (d, true) =>
        replace h : N = 0 + d.own := h
        rw [h, zero_add]
        exact ih fun a ha ↦ hl a (mem_cons_of_mem _ ha)
      | (d, false) =>
        replace h : N = {mem} + d.own := h
        rw [h, singleton_add]
        exact Safe.kfree lay ((freevm_safe lay d).bind fun _ N h ↦ h)

theorem copyuvm_safe (pd : Pgdir) {sz : ℕ} (hsz : sz < kernBase) :
    Safe (fun r N ↦ N = ownOpt r) (copyuvm lay pd sz) 0 := by
  refine (setupkvm_safe lay).bind fun r N h ↦ ?_
  rw [h]
  match r with
  | none => exact rfl
  | some d =>
    refine copyLoop_safe lay _ fun a ha ↦ ?_
    obtain ⟨halign, -, hlt⟩ := (mem_pageAddrs (zero_mod pgSize)).mp ha
    exact ⟨halign, hlt.trans hsz⟩

end Alloc

/-! ### The callers -/

section Callers

variable (lay : Layout) (im : Image)

def Image.own : Multiset ℕ := im.kstack ::ₘ im.pgdir.own

theorem fork_safe : Safe (fun r N ↦ N = r.elim 0 Image.own) (fork lay im) 0 := by
  refine .take rfl fun kstack ↦ ?_
  refine (copyuvm_safe lay im.pgdir im.sz.2).bindOwn {kstack} fun r ↦ ?_
  rw [add_comm, Multiset.singleton_add]
  match r with
  | none => exact Safe.kfree lay rfl
  | some pgdir => exact rfl

theorem wait_safe : Safe (fun _ N ↦ N = 0) (wait lay im) im.own :=
  Safe.kfree lay (freevm_safe lay im.pgdir)

theorem own_resize (pd : Pgdir) (sz : Size) : (im.resize pd sz).own = im.kstack ::ₘ pd.own := by
  rw [Image.resize]
  split_ifs <;> rfl

/-- What is done to the page directory of a process leaves its stack alone. -/
theorem Safe.withStack {α : Type} {p : Kernel α} {im : Image} {own : α → Multiset ℕ}
    (h : Safe (fun r N ↦ N = own r) p im.pgdir.own) :
    Safe (fun r N ↦ N = im.kstack ::ₘ own r) p im.own := by
  have hframe := h.frame {im.kstack}
  rw [add_comm, Multiset.singleton_add] at hframe
  refine hframe.mono fun r N h ↦ ?_
  obtain ⟨K, rfl, rfl⟩ := h
  rw [add_comm, Multiset.singleton_add]

theorem growproc_safe (n : ℤ) : Safe (fun r N ↦ N = r.own) (growproc lay im n) im.own := by
  unfold growproc
  dsimp only
  split_ifs
  · refine (Safe.withStack (allocuvm_safe lay _ _ _)).bind fun r N h ↦ ?_
    exact h.trans (own_resize im r.1 r.2).symm
  · refine (Safe.withStack ((deallocuvm_safe lay im.sz.2.le _).mono fun r N h ↦ h.1)).bind
      fun pd N h ↦ ?_
    exact h.trans (own_resize im pd _).symm
  · exact rfl

theorem loadLoop_safe (l : List Segment) (sz : Size) :
    Safe (fun r N ↦ N = r.1.own) (loadLoop lay l pd sz) pd.own := by
  induction l generalizing pd sz with
  | nil => exact rfl
  | cons ph l ih =>
    unfold loadLoop
    split_ifs
    · exact rfl
    · exact ih sz
    · exact rfl
    · refine (allocuvm_safe lay _ _ _).bind fun r N h ↦ ?_
      obtain ⟨pd, sz⟩ := r
      rw [h]
      dsimp only
      split_ifs
      · exact rfl
      · unfold loaduvm
        split_ifs
        · cases ph.loads with
          | true => exact ih sz
          | false => exact rfl
        · trivial

theorem clearpteu_safe (hva : va < kernBase) :
    Safe (fun r N ↦ N = r.own) (clearpteu pd va) pd.own := by
  rw [clearpteu]
  split
  · trivial
  · rename_i e hfind
    have hpa : (e.map fun e ↦ { e with u := false }).map Pte.pa =
        pd.holds (.map (pdx va) (ptx va)) := by
      rw [holds_map (user_pdx hva), hfind, Option.map_map]
      rfl
    change pd.own = (pd.setPte va _).own
    rw [own, own, holds_setPte hfind (user_pdx hva), hpa, update_eq_self]

theorem load_safe (prog : Program) : Safe (fun r N ↦ N = r.1.own) (load lay prog pd) pd.own := by
  refine (loadLoop_safe lay prog.segments .zero).bind fun r N h ↦ ?_
  rw [h]
  match r with
  | (pd, none) => exact rfl
  | (pd, some sz) =>
    refine (allocuvm_safe lay _ _ _).bind fun r N h ↦ ?_
    obtain ⟨pd, sz⟩ := r
    have hlt : sz.val - 2 * pgSize < kernBase := (sub_le _ _).trans_lt sz.2
    rw [h]
    dsimp only
    split_ifs
    · exact rfl
    all_goals exact (clearpteu_safe hlt).bind fun _ _ h ↦ h

theorem exec_safe (prog : Program) (im : Image) :
    Safe (fun r N ↦ N = r.own) (exec lay prog im) im.own := by
  unfold exec
  split_ifs
  · exact rfl
  · rw [← zero_add im.own]
    refine (setupkvm_safe lay).bindOwn _ fun r ↦ ?_
    match r with
    | none => exact zero_add _
    | some pd =>
      refine (load_safe lay prog).bindOwn _ fun r ↦ ?_
      match r with
      | (pd, some sz) =>
        have hsame : pd.own + im.own = im.pgdir.own + im.kstack ::ₘ pd.own := by
          rw [Image.own, Multiset.add_cons, Multiset.add_cons, add_comm]
        rw [hsame]
        exact (freevm_safe lay im.pgdir).bindOwn _ fun _ ↦ zero_add _
      | (pd, none) => exact (freevm_safe lay pd).bindOwn _ fun _ ↦ zero_add _

theorem pipealloc_safe (files : Bool) :
    Safe (fun r N ↦ N = r.elim 0 singleton) (pipealloc files) 0 := by
  rw [pipealloc]
  split_ifs
  · exact ⟨rfl, fun _ ↦ rfl⟩
  · exact rfl

theorem boot_safe : Safe (fun r N ↦ N = r.1.own + r.2.own) (boot lay) 0 := by
  refine (setupkvm_safe lay).bind fun r N h ↦ ?_
  rw [h]
  match r with
  | none => trivial
  | some kpgdir =>
    refine .take trivial fun kstack ↦ ?_
    rw [← zero_add (kstack ::ₘ _)]
    refine (setupkvm_safe lay).bindOwn _ fun r ↦ ?_
    match r with
    | none => trivial
    | some pgdir =>
      refine .take trivial fun mem ↦ ?_
      rw [← Multiset.cons_add]
      refine (mappages_given pgdir mem ⟨zero_mod pgSize, kernBase_pos⟩).bindOwn _ fun r ↦ ?_
      match r with
      | (pgdir, false) => trivial
      | (pgdir, true) =>
        change 0 + pgdir.own + kstack ::ₘ kpgdir.own = kpgdir.own + kstack ::ₘ pgdir.own
        rw [zero_add, Multiset.add_cons, Multiset.add_cons, add_comm]

end Callers

end EasyKernels.Xv6.Vm
