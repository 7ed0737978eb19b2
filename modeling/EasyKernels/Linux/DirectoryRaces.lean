import EasyKernels.Lib.Runs
import Mathlib.Data.List.TakeWhile

/-!
# Names made at the same time

The calls that make a name in a directory (`open_namei` with `O_CREAT`, `sys_mknod`, `sys_mkdir`,
`sys_symlink`, `sys_link`) search it with `find_entry`, allocate what they need, and then take a
place with `add_entry`, which copies the name byte by byte; `de->inode` is stored after the last
byte. They sleep in between and hold no lock. Two calls with the same name both find no entry, and
both make one (`madeTwice`), and two calls can take the same place (`placeTakenTwice`). If no two
calls in progress have the same name, and none takes a place that another is filling, no two entries
have the same name, and an entry that was made stays (`namesDistinct`).

Scope. One directory; no entry is removed, and `bread` never fails. A call is its name without
leading directories, and the number of the inode that it makes or links; whether `new_inode`,
`new_block` or `create_block` fails is part of the step. `made` records the calls that have
succeeded.
-/

set_option autoImplicit false

namespace EasyKernels.Linux.DirectoryRaces

open Nat List Function Lib.Runs

/-- `NAME_LEN`. -/
def nameLen : ℕ := 14

/-- `struct dir_entry`; of `name` there are the bytes below `NAME_LEN`. -/
structure Entry where
  inode : ℕ
  name : ℕ → UInt8

/-- The name up to the first NUL, which is what `match` compares. -/
def Entry.cname (de : Entry) : List UInt8 :=
  ((List.range nameLen).map de.name).takeWhile (· ≠ 0)

/-- Where a call is: in `find_entry` at entry `i` of the `n` there were when it began; before
`add_entry`; in `add_entry` at entry `i`, or there before it copies byte `k` of the name. -/
inductive Pc
  | search (i n : ℕ)
  | make
  | place (i : ℕ)
  | copy (i k : ℕ)
  deriving DecidableEq, Repr

structure Call where
  name : List UInt8
  inum : ℕ
  pc : Pc
  deriving DecidableEq, Repr

/-- The directory has `size` entries; `P` are the tasks. -/
structure State (P : Type) where
  entry : ℕ → Entry
  size : ℕ
  call : P → Option Call
  made : List (ℕ × List UInt8 × ℕ)

variable {P : Type}

section Machine

variable [DecidableEq P] (s : State P)

def State.setCall (p : P) (c : Option Call) : State P :=
  { s with call := update s.call p c }

def State.setEntry (i : ℕ) (de : Entry) : State P :=
  { s with entry := update s.entry i de }

/-- A byte of the name is stored, with the inode number after the last one. -/
def copyByte (p : P) (c : Call) (i k : ℕ) : State P :=
  let name := update (s.entry i).name k (c.name.getD k 0)
  if k + 1 < nameLen then
    (s.setEntry i { s.entry i with name := name }).setCall p (some { c with pc := .copy i (k + 1) })
  else
    { (s.setEntry i ⟨c.inum, name⟩).setCall p none with made := (i, c.name, c.inum) :: s.made }

/-- A call goes on; `ok` says that an allocation in the step succeeds. -/
def go (p : P) (c : Call) (ok : Bool) : State P :=
  let next (pc : Pc) : Option Call := some { c with pc := pc }
  match c.pc with
  | .search i n =>
    if n ≤ i then s.setCall p (next .make)
    else if (s.entry i).inode ≠ 0 ∧ (s.entry i).cname = c.name then s.setCall p none
    else s.setCall p (next (.search (i + 1) n))
  | .make => if ok then s.setCall p (next (.place 0)) else s.setCall p none
  | .place i =>
    if s.size ≤ i then
      if ok then
        { s.setEntry i { s.entry i with inode := 0 } with size := i + 1 }.setCall p
        (next (.copy i 0))
      else s.setCall p none
    else if (s.entry i).inode = 0 then s.setCall p (next (.copy i 0))
    else s.setCall p (next (.place (i + 1)))
  | .copy i k => copyByte s p c i k

inductive Event (P : Type)
  | begin (p : P) (name : List UInt8) (inum : ℕ)
  | go (p : P) (ok : Bool)

/-- The last component of a path is not empty and has no NUL, and it is cut at `NAME_LEN`. -/
def step : Event P → Outcome Empty (State P)
  | .begin p name inum =>
    if s.call p = none ∧ name ≠ [] ∧ 0 ∉ name ∧ inum ≠ 0 then
      .next (s.setCall p (some ⟨name.take nameLen, inum, .search 0 s.size⟩))
    else .blocked
  | .go p ok =>
    match s.call p with
    | none => .blocked
    | some c => .next (DirectoryRaces.go s p c ok)

end Machine

/-! ### The directory -/

variable (s : State P)

/-- Entry `i` is in use, with this name. -/
def State.Live (i : ℕ) (name : List UInt8) : Prop :=
  i < s.size ∧ (s.entry i).inode ≠ 0 ∧ (s.entry i).cname = name

/-- Different live entries have different names. -/
def Distinct : Prop := ∀ i j name, s.Live i name → s.Live j name → i = j

/-- What the calls have made is there. -/
def Intact : Prop :=
  ∀ i name inum, (i, name, inum) ∈ s.made → s.Live i name ∧ (s.entry i).inode = inum

/-- The place that a call is filling. -/
def Pc.filling : Pc → Option ℕ
  | .copy i _ => some i
  | _ => none

/-- No call is filling place `i`, but for one of `p`. -/
def State.Spared (p : P) (i : ℕ) : Prop :=
  ∀ q, ∀ d ∈ s.call q, q ≠ p → d.pc.filling ≠ some i

/-- A call begins only when none with its name is in progress, and does not take a place that
another is filling. -/
def Apart : Event P → Prop
  | .begin _ name _ => ∀ q, ∀ c ∈ s.call q, c.name ≠ name.take nameLen
  | .go p _ => ∀ c ∈ s.call p, match c.pc with
    | .place i => s.Spared p i
    | _ => True

/-- What a call has found out about the directory. -/
def Call.Ok (c : Call) (s : State P) : Prop :=
  c.inum ≠ 0 ∧ c.name.length ≤ nameLen ∧ 0 ∉ c.name ∧
    match c.pc with
    | .search i n => ∀ j, j < i ∨ n ≤ j → ¬ s.Live j c.name
    | .copy i k => (∀ j, ¬ s.Live j c.name) ∧ i < s.size ∧ (s.entry i).inode = 0 ∧ k < nameLen ∧
        ∀ j < k, (s.entry i).name j = c.name.getD j 0
    | .make => ∀ j, ¬ s.Live j c.name
    | .place i => (∀ j, ¬ s.Live j c.name) ∧ i ≤ s.size

structure Inv (s : State P) : Prop where
  distinct : Distinct s
  intact : Intact s
  names : ∀ p q c d, s.call p = some c → s.call q = some d → c.name = d.name → p = q
  spared : ∀ p c i, s.call p = some c → c.pc.filling = some i → s.Spared p i
  ok : ∀ p c, s.call p = some c → c.Ok s

section Step

variable {s t : State P} {p : P} {i k : ℕ} {c : Call}

variable {de : Entry} {c' : Option Call} {name : List UInt8}

/-- A name that is copied with NULs after it reads back. -/
theorem cname_eq {name : List UInt8} (hlen : name.length ≤ nameLen) (hzero : 0 ∉ name)
    (hname : ∀ j < nameLen, de.name j = name.getD j 0) : de.cname = name := by
  have hbytes : (range nameLen).map de.name = name ++ replicate (nameLen - name.length) 0 := by
    refine ext_getElem (by simp; omega) fun j hj _ ↦ ?_
    rw [getElem_map, getElem_range, hname j hj, getElem_append]
    split_ifs with hlt
    · simp [hlt]
    · simp [getElem?_eq_none (not_lt.mp hlt)]
  rw [Entry.cname, hbytes, takeWhile_append_of_pos]
  · cases nameLen - name.length <;> simp [replicate_succ]
  · intro a ha
    simp only [ne_eq, decide_not, Bool.not_eq_true', decide_eq_false_iff_not]
    rintro rfl
    exact hzero ha

/-- What a call knows stays true while others make other names and fill other places. -/
theorem Call.Ok.mono (h : c.Ok s) (hsize : s.size ≤ t.size)
    (hlive : ∀ j, t.Live j c.name → s.Live j c.name)
    (hentry : ∀ i, c.pc.filling = some i → t.entry i = s.entry i) : c.Ok t := by
  obtain ⟨hinum, hlen, hzero, hpcok⟩ := h
  refine ⟨hinum, hlen, hzero, ?_⟩
  cases hpc : c.pc with rw [hpc] at hpcok
  | search =>
    exact fun j hj hl ↦ hpcok j hj (hlive j hl)
  | make =>
    exact fun j hl ↦ hpcok j (hlive j hl)
  | place i =>
    exact ⟨fun j hl ↦ hpcok.1 j (hlive j hl), hpcok.2.trans hsize⟩
  | copy i k =>
    obtain ⟨habsent, hi, hrest⟩ := hpcok
    exact ⟨fun j hl ↦ habsent j (hlive j hl), hi.trans_le hsize, by
      rwa [hentry i (by rw [hpc]; rfl)]⟩

/-- The calls of others have other names. -/
theorem Inv.others (h : Inv s) (hp : s.call p = some c) (q : P) (d : Call) (hq : q ≠ p)
    (hd : s.call q = some d) : d.name ≠ c.name :=
  fun heq ↦ hq (h.names q p d c hd hp heq)

theorem spared_of_setEntry {i j : ℕ} (h : s.Spared p i)
    (hne : update s.entry i de j ≠ s.entry j) : s.Spared p j := by
  by_cases hj : j = i
  · exact hj ▸ h
  · exact absurd (update_of_ne hj _ _) hne

/-- A free entry that stays free. -/
theorem live_setEntry (de : Entry) {n : ℕ} (hfree : s.size ≤ i ∨ (s.entry i).inode = 0)
    (hde : de.inode = 0) (hn : n = s.size ∨ n = s.size + 1 ∧ i = s.size) (j : ℕ)
    (name : List UInt8) : ({ s.setEntry i de with size := n }.Live j name ↔ s.Live j name) ∧
      (s.Live j name → update s.entry i de j = s.entry j) := by
  rcases eq_or_ne j i with rfl | hj
  · have hnot : ¬ s.Live j name := fun h ↦ hfree.elim (fun hle ↦ absurd h.1 (by omega)) h.2.1
    exact ⟨iff_of_false (by simp [State.Live, State.setEntry, hde]) hnot, fun h ↦ (hnot h).elim⟩
  · simp only [State.Live, State.setEntry, update_of_ne hj]
    refine ⟨and_congr_left fun _ ↦ ?_, fun _ ↦ trivial⟩
    omega

variable [DecidableEq P]

section

variable (h : Inv s)

include h

/-- A step of a call of `p` for a name that the calls of others do not have. -/
theorem Inv.of_call (hne : ∀ q d, q ≠ p → s.call q = some d → d.name ≠ name)
    (hcall : t.call = update s.call p c')
    (hdistinct : Distinct t) (hintact : Intact t) (hsize : s.size ≤ t.size)
    (hlive : ∀ j other, other ≠ name → t.Live j other → s.Live j other)
    (hentry : ∀ j, t.entry j ≠ s.entry j → s.Spared p j)
    (hok : ∀ d, c' = some d → d.Ok t ∧ d.name = name ∧ ∀ i, d.pc.filling = some i → s.Spared p i) :
    Inv t := by
  have hmine : ∀ d, t.call p = some d → c' = some d := by simp [hcall]
  have hother : ∀ q, q ≠ p → t.call q = s.call q := fun q hq ↦ by rw [hcall, update_of_ne hq]
  refine ⟨hdistinct, hintact, fun q r d e hd he heq ↦ ?_, fun q d i hd hpc r e he hr hpc' ↦ ?_,
    fun q d hd ↦ ?_⟩
  · by_cases hq : q = p
    · by_cases hr : r = p
      · rw [hq, hr]
      · rw [hother r hr] at he
        exact absurd (heq.symm.trans (hok d (hmine d (hq ▸ hd))).2.1) (hne r e hr he)
    · rw [hother q hq] at hd
      by_cases hr : r = p
      · exact absurd (heq.trans (hok e (hmine e (hr ▸ he))).2.1) (hne q d hq hd)
      · rw [hother r hr] at he
        exact h.names q r d e hd he heq
  · by_cases hq : q = p
    · subst hq
      exact (hok d (hmine d hd)).2.2 i hpc r e (hother r hr ▸ he) hr hpc'
    · rw [hother q hq] at hd
      by_cases hrp : r = p
      · subst hrp
        exact (hok e (hmine e he)).2.2 i hpc' q d hd hq hpc
      · exact h.spared q d i hd hpc r e (hother r hrp ▸ he) hr hpc'
  · by_cases hq : q = p
    · exact (hok d (hmine d (hq ▸ hd))).1
    · rw [hother q hq] at hd
      refine (h.ok q d hd).mono hsize (fun j ↦ hlive j _ (hne q d hq hd)) fun i hpc ↦ ?_
      by_contra hchanged
      exact hentry i hchanged q d hd hq hpc

/-- A step that leaves the live entries as they are. -/
theorem Inv.of_live (hne : ∀ q d, q ≠ p → s.call q = some d → d.name ≠ name)
    (hcall : t.call = update s.call p c') (hmade : t.made = s.made) (hsize : s.size ≤ t.size)
    (hlive : ∀ j name, t.Live j name ↔ s.Live j name)
    (hlast : ∀ j name, s.Live j name → t.entry j = s.entry j)
    (hentry : ∀ j, t.entry j ≠ s.entry j → s.Spared p j)
    (hok : ∀ d, c' = some d → d.Ok t ∧ d.name = name ∧ ∀ i, d.pc.filling = some i → s.Spared p i) :
    Inv t := by
  refine h.of_call hne hcall (fun i j name hi hj ↦ ?_) (fun j name inum hj ↦ ?_) hsize
    (fun j name _ hl ↦ (hlive j name).mp hl) hentry hok
  · exact h.distinct i j name ((hlive i name).mp hi) ((hlive j name).mp hj)
  · obtain ⟨hl, hinum⟩ := h.intact j name inum (hmade ▸ hj)
    exact ⟨(hlive j name).mpr hl, by rw [hlast j name hl, hinum]⟩

theorem Inv.setCall (hne : ∀ q d, q ≠ p → s.call q = some d → d.name ≠ name)
    (hok : ∀ d, c' = some d → d.Ok s ∧ d.name = name ∧ ∀ i, d.pc.filling = some i → s.Spared p i) :
    Inv (s.setCall p c') :=
  h.of_live hne rfl rfl le_rfl (fun _ _ ↦ .rfl) (fun _ _ _ ↦ rfl) (fun _ hne ↦ absurd rfl hne) hok

/-- A free entry becomes live, with a name that no other has. -/
theorem Inv.enter (hp : s.call p = some c) (hi : i < s.size) (hspared : s.Spared p i)
    (hfree : (s.entry i).inode = 0) (habsent : ∀ j, ¬ s.Live j c.name) (hinum : c.inum ≠ 0)
    (hinode : de.inode = c.inum) (hname : de.cname = c.name) :
    Inv { (s.setEntry i de).setCall p none with made := (i, c.name, c.inum) :: s.made } := by
  have hlive : ∀ j name, (s.setEntry i de).Live j name ↔ s.Live j name ∨ j = i ∧ name = c.name := by
    intro j name
    rcases eq_or_ne j i with rfl | hj
    · simp [State.Live, State.setEntry, hinode, hname, hinum, hi, hfree, eq_comm]
    · simp [State.Live, State.setEntry, hj]
  refine h.of_call (h.others hp) rfl (fun j l name hj hl ↦ ?_) (fun j name inum hj ↦ ?_) le_rfl
    (fun j name hne hl ↦ ((hlive j name).mp hl).resolve_right fun heq ↦ hne heq.2)
    (fun j ↦ spared_of_setEntry hspared) (by simp)
  · rcases (hlive j name).mp hj with hj | ⟨hji, rfl⟩
    · rcases (hlive l name).mp hl with hl | ⟨-, rfl⟩
      · exact h.distinct j l name hj hl
      · exact absurd hj (habsent j)
    · rcases (hlive l c.name).mp hl with hl | ⟨hli, -⟩
      · exact absurd hl (habsent l)
      · rw [hji, hli]
  · rcases mem_cons.mp hj with heq | hj
    · cases heq
      refine ⟨(hlive i c.name).mpr (.inr ⟨rfl, rfl⟩), ?_⟩
      simp [State.setCall, State.setEntry, hinode]
    · obtain ⟨hl, hinum⟩ := h.intact j name inum hj
      refine ⟨(hlive j name).mpr (.inl hl), ?_⟩
      have hne : j ≠ i := fun heq ↦ hl.2.1 (heq ▸ hfree)
      simp [State.setCall, State.setEntry, update_of_ne hne, hinum]

theorem Inv.copyByte (hp : s.call p = some c) (hpc : c.pc = .copy i k) :
    Inv (copyByte s p c i k) := by
  obtain ⟨hinum, hlen, hzero, hpcok⟩ := h.ok p c hp
  rw [hpc] at hpcok
  obtain ⟨habsent, hi, hfree, hk, hcopied⟩ := hpcok
  have hspared := h.spared p c i hp (by rw [hpc]; rfl)
  have hbytes : ∀ j < k + 1, update (s.entry i).name k (c.name.getD k 0) j = c.name.getD j 0 := by
    intro j hj
    rw [update_apply]
    split_ifs with hjk
    · rw [hjk]
    · exact hcopied j (by omega)
  rw [DirectoryRaces.copyByte]
  generalize update (s.entry i).name k (c.name.getD k 0) = name at hbytes
  split_ifs with hmore
  · have hlive := live_setEntry (s := s) ⟨(s.entry i).inode, name⟩ (.inr hfree) hfree
      (.inl rfl)
    refine h.of_live (h.others hp) rfl rfl le_rfl (fun j name ↦ (hlive j name).1)
      (fun j name ↦ (hlive j name).2) (fun j ↦ spared_of_setEntry hspared) ?_
    intro d hd
    cases hd
    refine ⟨⟨hinum, hlen, hzero, fun j hj ↦ habsent j ((hlive j _).1.mp hj), hi, ?_, hmore, ?_⟩,
      rfl,
      fun j hpc' ↦ ?_⟩
    · simp [State.setCall, State.setEntry, hfree]
    · simpa [State.setCall, State.setEntry] using hbytes
    · cases hpc'
      exact hspared
  · refine h.enter hp hi hspared hfree habsent hinum rfl
      (cname_eq hlen hzero fun j hj ↦ hbytes j ?_)
    omega

theorem Inv.go (hp : s.call p = some c) {ok : Bool} (hapart : Apart s (.go p ok)) :
    Inv (go s p c ok) := by
  obtain ⟨hinum, hlen, hzero, hpcok⟩ := h.ok p c hp
  have hset {pc : Pc} (hpc : Call.Ok { c with pc := pc } s)
      (hspared : ∀ i, pc.filling = some i → s.Spared p i) :
      Inv (s.setCall p (some { c with pc := pc })) :=
    h.setCall (h.others hp) fun d hd ↦ by cases hd; exact ⟨hpc, rfl, hspared⟩
  have hend : Inv (s.setCall p none) := h.setCall (h.others hp) (by simp)
  rw [DirectoryRaces.go]
  cases hpc : c.pc with rw [hpc] at hpcok
  | search i n =>
    dsimp only
    split_ifs with hsize hfound
    · exact hset ⟨hinum, hlen, hzero, fun j ↦ hpcok j (by omega)⟩ nofun
    · exact hend
    · refine hset ⟨hinum, hlen, hzero, fun j hj hlive ↦ ?_⟩ nofun
      by_cases hji : j = i
      · exact hfound (hji ▸ hlive.2)
      · exact hpcok j (by omega) hlive
  | make =>
    split_ifs
    · exact hset ⟨hinum, hlen, hzero, hpcok, zero_le _⟩ nofun
    · exact hend
  | place i =>
    obtain ⟨habsent, hi⟩ := hpcok
    have hspared := hapart c hp
    rw [hpc] at hspared
    dsimp only
    split_ifs with hsize hok hfree
    · obtain rfl : i = s.size := by omega
      have hlive := live_setEntry (s := s) ⟨0, (s.entry s.size).name⟩ (.inl le_rfl)
        rfl (.inr ⟨rfl, rfl⟩)
      refine h.of_live (h.others hp) rfl rfl (le_succ _) (fun j name ↦ (hlive j name).1)
        (fun j name ↦ (hlive j name).2) (fun j ↦ spared_of_setEntry hspared) fun d hd ↦ ?_
      cases hd
      refine ⟨⟨hinum, hlen, hzero, fun j hj ↦ habsent j ((hlive j _).1.mp hj), lt_succ_self _,
        ?_, by decide, by simp⟩, rfl, fun j hpc' ↦ ?_⟩
      · simp [State.setCall, State.setEntry]
      · cases hpc'
        exact hspared
    · exact hend
    · refine hset ⟨hinum, hlen, hzero, habsent, by omega, hfree, by decide, by simp⟩ fun j hpc' ↦ ?_
      cases hpc'
      exact hspared
    · exact hset ⟨hinum, hlen, hzero, habsent, by omega⟩ nofun
  | copy => exact h.copyByte hp hpc

theorem Inv.step {e : Event P} (hapart : Apart s e) (hstep : step s e = .next t) : Inv t := by
  cases e with
  | «begin» p name inum =>
    obtain ⟨⟨-, -, hnul, hinum⟩, ⟨⟩⟩ := guard_eq_next.mp hstep
    have hzero : 0 ∉ name.take nameLen := fun hmem ↦ hnul (mem_of_mem_take hmem)
    refine h.setCall (fun q d _ ↦ hapart q d) fun d hd ↦ ?_
    cases hd
    refine ⟨⟨hinum, length_take_le _ _, hzero, fun j hj hlive ↦ ?_⟩, rfl, nofun⟩
    have hlt := hlive.1
    omega
  | go p ok =>
    rw [DirectoryRaces.step] at hstep
    split at hstep <;> cases hstep
    rename_i hp
    exact h.go hp hapart

end

end Step

/-- If no two calls in progress have the same name, and none takes a place that another is filling,
the directory never has two entries with one name, and an entry that was made stays as it is. -/
theorem namesDistinct [DecidableEq P] (s t : State P) (es : List (Event P))
    (hidle : ∀ p, s.call p = none) (hmade : s.made = []) (hdistinct : Distinct s)
    (hapart : Meets step Apart s es)
    (hrun : run step s es = some t) : Distinct t ∧ Intact t := by
  have hstart : Inv s := by
    refine ⟨hdistinct, fun i name inum hmem ↦ ?_, fun p _ _ _ hp ↦ ?_, fun p _ _ hp ↦ ?_,
      fun p _ hp ↦ ?_⟩
    · simp [hmade] at hmem
    all_goals simp [hidle p] at hp
  have hinv : Inv t := run_induction_of_meets (I := fun _ u ↦ Inv u) hstart
    (fun _ _ _ _ _ h ha hstep ↦ h.step ha hstep) hapart hrun
  exact ⟨hinv.distinct, hinv.intact⟩

/-- A directory without entries. -/
def emptyDir : State Bool := ⟨fun _ ↦ ⟨0, fun _ ↦ 0⟩, 0, fun _ ↦ none, []⟩

/-- A call goes on for `n` steps. -/
def goes (p : Bool) (n : ℕ) : List (Event Bool) := List.replicate n (.go p true)

instance decidableApart (s : State Bool) : (e : Event Bool) → Decidable (Apart s e)
  | .begin _ name _ =>
    inferInstanceAs (Decidable (∀ q, ∀ c ∈ s.call q, c.name ≠ name.take nameLen))
  | .go p _ => @Option.decidableForallMem _ _ (fun c ↦ match c.pc with
      | .place i => inferInstanceAs (Decidable (∀ q, ∀ d ∈ s.call q, q ≠ p → d.pc.filling ≠ some i))
      | .search _ _ => .isTrue trivial
      | .make => .isTrue trivial
      | .copy _ _ => .isTrue trivial) (s.call p)

/-- Two tasks search the directory before either looks for a place. -/
def searched (name name' : List UInt8) : List (Event Bool) :=
  [.begin false name 5, .begin true name' 6, .go false true, .go true true, .go false true,
    .go true true]

def twoCalls : List (Event Bool) := searched [97] [98] ++ goes false 15 ++ goes true 16

theorem namesDistinct_twoCalls : ∃ t, run step emptyDir twoCalls = some t ∧
    (t.entry 0).inode = 5 ∧ (t.entry 1).inode = 6 ∧ Distinct t :=
  ⟨_, run_get (by decide +kernel), by decide +kernel, by decide +kernel,
    (namesDistinct emptyDir _ _ (fun _ ↦ rfl) rfl (fun i _ _ hi ↦ absurd hi.1 (not_lt_zero i))
      (by decide +kernel) (run_get _)).1⟩

/-- Two tasks make a file of the same name. -/
theorem madeTwice : ∃ t,
    run step emptyDir (searched [97] [97] ++ goes false 15 ++ goes true 16) = some t ∧
      t.Live 0 [97] ∧ t.Live 1 [97] :=
  ⟨_, rfl, ⟨by decide, by decide, rfl⟩, ⟨by decide, by decide, rfl⟩⟩

/-- Two tasks make files of different names in the same place. -/
theorem placeTakenTwice : ∃ t,
    run step emptyDir (searched [97] [98] ++ goes false 1 ++ goes true 1 ++ goes false 14 ++
      goes true 14) = some t ∧ (0, [97], 5) ∈ t.made ∧ (0, [98], 6) ∈ t.made :=
  ⟨_, rfl, by decide, by decide⟩

end EasyKernels.Linux.DirectoryRaces
