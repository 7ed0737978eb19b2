import Mathlib.Data.List.Nodup
import Mathlib.Data.List.Range

/-!
# Redo logs under crashes

A store maps addresses to blocks and changes by a list of single-block writes, each atomic and done
in order (`applyWrites`). A crash keeps a prefix of the writes.

A `RedoLog` is a header block that decodes to a list of home addresses, and a slot for the new
content of each of them. Recovery copies the slots home and clears the header (`recovery`), and may
itself be cut short and started again any number of times (`recover`). A store is `Idle` when its
header lists nothing and `Committed` to new contents when the header lists their homes and the slots
hold them. Recovery brings an idle store to itself (`recover_idle`) and a committed one to the
store with the new contents (`recover_committed`), however often it is interrupted.

`commitWrites` is the sequence slots, header, homes, cleared header. `recover_commitWrites` is crash
atomicity: after any prefix of it, recovery gives the old contents if the prefix ends before the
header and the new ones if it does not.
-/

set_option autoImplicit false

namespace EasyKernels.Lib

open List Function

variable {α : Type*}

/-! ### Sequences of writes -/

variable (d : ℕ → α)

/-- The store after writes done in order. -/
def applyWrites (ws : List (ℕ × α)) : ℕ → α :=
  ws.foldl (fun d w ↦ update d w.1 w.2) d

@[simp] theorem applyWrites_nil : applyWrites d [] = d := rfl

theorem applyWrites_append (ws vs : List (ℕ × α)) :
    applyWrites d (ws ++ vs) = applyWrites (applyWrites d ws) vs := by
  simp [applyWrites, foldl_append]

theorem applyWrites_cons (w : ℕ × α) (ws : List (ℕ × α)) :
    applyWrites d (w :: ws) = applyWrites (update d w.1 w.2) ws := rfl

variable {d : ℕ → α} {ws : List (ℕ × α)} {b : ℕ}

/-- An address that is not written keeps its content. -/
theorem applyWrites_of_notMem (h : ∀ w ∈ ws, w.1 ≠ b) : applyWrites d ws b = d b := by
  induction ws generalizing d with
  | nil => rfl
  | cons w ws ih =>
    rw [applyWrites_cons, ih fun v hv ↦ h v (mem_cons_of_mem w hv),
      update_of_ne (Ne.symm (h w mem_cons_self))]

/-- Among writes to distinct addresses, each one determines the content of its address. -/
theorem applyWrites_of_mem {v : α} (hnodup : (ws.map Prod.fst).Nodup) (h : (b, v) ∈ ws) :
    applyWrites d ws b = v := by
  induction ws generalizing d with
  | nil => simp at h
  | cons w ws ih =>
    simp only [map_cons, nodup_cons] at hnodup
    rw [applyWrites_cons]
    rcases mem_cons.mp h with rfl | hmem
    · rw [applyWrites_of_notMem, update_self]
      intro w hw heq
      exact hnodup.1 (mem_map.mpr ⟨w, hw, heq⟩)
    · exact ih hnodup.2 hmem

/-- After writes, an address has its old content or that of one of the writes to it. -/
theorem applyWrites_cases (d : ℕ → α) (ws : List (ℕ × α)) (b : ℕ) :
    applyWrites d ws b = d b ∨ (b, applyWrites d ws b) ∈ ws := by
  induction ws generalizing d with
  | nil => exact .inl rfl
  | cons w ws ih =>
    rw [applyWrites_cons]
    rcases ih (update d w.1 w.2) with hold | hmem
    · by_cases hb : b = w.1
      · rw [hold, hb, update_self]
        exact .inr mem_cons_self
      · rw [hold, update_of_ne hb]
        exact .inl rfl
    · exact .inr (mem_cons_of_mem w hmem)

/-! ### The log -/

/-- A header block and the slots of a redo log. -/
structure RedoLog (α : Type*) where
  head : ℕ
  slot : ℕ → ℕ
  /-- The home addresses a header lists. -/
  decode : α → List ℕ
  /-- The header that lists nothing. -/
  clear : α → α
  decode_clear : ∀ a, decode (clear a) = []
  slot_injective : Function.Injective slot
  slot_ne_head : ∀ i, slot i ≠ head

namespace RedoLog

variable (L : RedoLog α)

section

variable (d : ℕ → α)

/-- Writing the content of each slot to its home. -/
def installs (homes : List ℕ) : List (ℕ × α) :=
  homes.mapIdx fun i b ↦ (b, d (L.slot i))

/-- The writes of a recovery from a store. -/
def recovery : List (ℕ × α) :=
  L.installs d (L.decode (d L.head)) ++ [(L.head, L.clear (d L.head))]

/-- The store after recoveries cut short after the given numbers of writes and one that
completes. -/
def recover (d : ℕ → α) : List ℕ → ℕ → α
  | [] => applyWrites d (L.recovery d)
  | k :: ks => recover (applyWrites d ((L.recovery d).take k)) ks

/-- An address that is neither the header nor one of the first `n` slots. -/
def Outside (n b : ℕ) : Prop := b ≠ L.head ∧ ∀ i < n, b ≠ L.slot i

/-- The header lists nothing. -/
def Idle : Prop := L.decode (d L.head) = []

end

/-- The header lists homes and the slots hold their new contents. -/
structure Committed (d : ℕ → α) (homes : List ℕ) (new : ℕ → α) : Prop where
  decode_eq : L.decode (d L.head) = homes
  slot_eq : ∀ i (hi : i < homes.length), d (L.slot i) = new homes[i]

/-- The homes have their new contents, and the blocks outside the header their old ones if they are
no homes. -/
structure Recovered (homes : List ℕ) (new old d : ℕ → α) : Prop where
  idle : L.Idle d
  home : ∀ b ∈ homes, d b = new b
  other : ∀ b, b ∉ homes → b ≠ L.head → d b = old b

variable {L} {d : ℕ → α} {homes : List ℕ} {new : ℕ → α}

theorem Idle.committed (h : L.Idle d) (new : ℕ → α) : L.Committed d [] new :=
  ⟨h, fun i hi ↦ (Nat.not_lt_zero i hi).elim⟩

theorem installs_of_committed (h : L.Committed d homes new) :
    L.installs d homes = homes.map fun b ↦ (b, new b) := by
  refine ext_getElem (by simp [installs]) fun i hi _ ↦ ?_
  simp only [installs, length_mapIdx] at hi
  simp [installs, h.slot_eq i hi]

theorem recovery_of_committed (h : L.Committed d homes new) :
    L.recovery d = (homes.map fun b ↦ (b, new b)) ++ [(L.head, L.clear (d L.head))] := by
  rw [recovery, h.decode_eq, installs_of_committed h]

/-- A recovery that completes leaves a cleared header. -/
theorem recover_head (d : ℕ → α) (ks : List ℕ) : ∃ a, L.recover d ks L.head = L.clear a := by
  induction ks generalizing d with
  | nil =>
    rw [recover, recovery, applyWrites_append]
    simp [Lib.applyWrites]
  | cons k ks ih => exact ih _

/-- A write to a home keeps a store committed. -/
theorem Committed.applyWrites (h : L.Committed d homes new) {ws : List (ℕ × α)}
    (hws : ∀ w ∈ ws, L.Outside homes.length w.1) : L.Committed (applyWrites d ws) homes new where
  decode_eq := by
    rw [applyWrites_of_notMem fun w hw ↦ (hws w hw).1]
    exact h.decode_eq
  slot_eq := fun i hi ↦ by
    rw [applyWrites_of_notMem fun w hw ↦ (hws w hw).2 i hi]
    exact h.slot_eq i hi

variable {b : ℕ} {w : ℕ × α} {cleared : α}

/-- Writing new contents to distinct homes. -/
theorem applyWrites_homes (hnodup : homes.Nodup) (hb : b ∈ homes) :
    Lib.applyWrites d (homes.map fun b ↦ (b, new b)) b = new b :=
  applyWrites_of_mem (by simpa [comp_def] using hnodup) (mem_map_of_mem hb)

theorem home_of_mem_homes (hw : w ∈ homes.map fun b ↦ (b, new b)) : w.1 ∈ homes := by
  obtain ⟨b, hb, rfl⟩ := mem_map.mp hw
  exact hb

theorem applyWrites_homes_other (hb : b ∉ homes) :
    Lib.applyWrites d (homes.map fun b ↦ (b, new b)) b = d b := by
  refine applyWrites_of_notMem fun w hw heq ↦ hb ?_
  rw [← heq]
  exact home_of_mem_homes hw

section

variable (hnodup : homes.Nodup) (hout : ∀ b ∈ homes, L.Outside homes.length b)

include hnodup hout

/-- All new contents are written home, and the header is cleared. -/
theorem recovered_homes (d : ℕ → α) (hcleared : L.decode cleared = []) : L.Recovered homes new d
      (Lib.applyWrites d ((homes.map fun b ↦ (b, new b)) ++ [(L.head, cleared)])) := by
  rw [applyWrites_append]
  refine ⟨by simp [Idle, Lib.applyWrites, hcleared], fun b hb ↦ ?_, fun b hb hhead ↦ ?_⟩
  · rw [applyWrites_of_notMem (by simpa using Ne.symm (hout b hb).1), applyWrites_homes hnodup hb]
  · rw [applyWrites_of_notMem (by simpa using Ne.symm hhead), applyWrites_homes_other hb]

/-- A recovery is cut short, and the recoveries `ks` follow. -/
theorem recover_take {ks : List ℕ} (hrec : ∀ {d homes}, L.Committed d homes new → homes.Nodup →
      (∀ b ∈ homes, L.Outside homes.length b) → L.Recovered homes new d (L.recover d ks))
    (h : L.Committed d homes new) (hcleared : L.decode cleared = []) (k : ℕ) :
    L.Recovered homes new d (L.recover (Lib.applyWrites d
      (((homes.map fun b ↦ (b, new b)) ++ [(L.head, cleared)]).take k)) ks) := by
  by_cases hk : k ≤ homes.length
  · -- The header and the slots are untouched: the store is committed as before.
    rw [take_append_of_le_length (by simpa using hk)]
    have hhome : ∀ w ∈ (homes.map fun b ↦ (b, new b)).take k, w.1 ∈ homes :=
      fun w hw ↦ home_of_mem_homes (mem_of_mem_take hw)
    obtain ⟨hidle, hnew, hrest⟩ := hrec (h.applyWrites fun w hw ↦ hout w.1 (hhome w hw)) hnodup hout
    refine ⟨hidle, hnew, fun b hb hhead ↦ (hrest b hb hhead).trans ?_⟩
    exact applyWrites_of_notMem fun w hw heq ↦ hb (heq ▸ hhome w hw)
  · rw [take_of_length_le (by simp; omega)]
    obtain ⟨hidle, hnew, hother⟩ := recovered_homes hnodup hout d hcleared
    obtain ⟨hclear, -, hrest⟩ := hrec (hidle.committed new) nodup_nil (by simp)
    refine ⟨hclear, fun b hb ↦ ?_, fun b hb hhead ↦ ?_⟩
    · rw [hrest b not_mem_nil (hout b hb).1, hnew b hb]
    · rw [hrest b not_mem_nil hhead, hother b hb hhead]

/-- Recovery of a committed store brings the new contents home, leaves every other block outside
the header alone and clears the header. Assumes: the homes are distinct and outside the log. -/
theorem recover_committed (h : L.Committed d homes new) (ks : List ℕ) :
    L.Recovered homes new d (L.recover d ks) := by
  induction ks generalizing d homes with
  | nil =>
    rw [recover, recovery_of_committed h]
    exact recovered_homes hnodup hout d (L.decode_clear _)
  | cons k ks ih =>
    rw [recover, recovery_of_committed h]
    exact recover_take hnodup hout (fun h hnodup hout ↦ ih hnodup hout h) h (L.decode_clear _) k

end

/-- Recovery of an idle store changes at most its header, which goes on listing nothing. -/
theorem recover_idle (h : L.Idle d) (ks : List ℕ) :
    L.Idle (L.recover d ks) ∧ ∀ b, b ≠ L.head → L.recover d ks b = d b := by
  obtain ⟨hidle, -, hrest⟩ := recover_committed nodup_nil (by simp) (h.committed d) ks
  exact ⟨hidle, fun b ↦ hrest b not_mem_nil⟩

variable (L) in
/-- The writes of a commit: the new contents to the slots, the header that lists their homes, the
new contents to their homes, and the header that lists nothing. -/
def commitWrites (homes : List ℕ) (new : ℕ → α) (header cleared : α) : List (ℕ × α) :=
  (homes.mapIdx fun i b ↦ (L.slot i, new b)) ++
    (L.head, header) :: ((homes.map fun b ↦ (b, new b)) ++ [(L.head, cleared)])

/-- The slot writes leave alone what is outside the log. -/
theorem slot_of_mem_slots (hw : w ∈ homes.mapIdx fun i b ↦ (L.slot i, new b)) :
    ∃ i < homes.length, w.1 = L.slot i := by
  obtain ⟨i, hi, rfl⟩ := mem_mapIdx.mp hw
  exact ⟨i, hi, rfl⟩

variable {header : α}

/-- Writing all slots and then the header commits. -/
theorem committed_of_slots (d new : ℕ → α) (hheader : L.decode header = homes) : L.Committed (update
      (applyWrites d (homes.mapIdx fun i b ↦ (L.slot i, new b))) L.head header) homes new where
  decode_eq := by rw [update_self, hheader]
  slot_eq := fun i hi ↦ by
    have hkeys : (homes.mapIdx fun i b ↦ (L.slot i, new b)).map Prod.fst =
        (range homes.length).map L.slot :=
      ext_getElem (by simp) fun j _ _ ↦ by simp
    rw [update_of_ne (L.slot_ne_head i)]
    refine applyWrites_of_mem ?_ (mem_mapIdx.mpr ⟨i, hi, rfl⟩)
    rw [hkeys]
    exact nodup_range.map L.slot_injective

/-- The header is written in a prefix of a commit exactly when the prefix is longer than the slot
writes. -/
theorem head_mem_take_iff {k : ℕ} :
    (∃ a, (L.head, a) ∈ (L.commitWrites homes new header cleared).take k) ↔ homes.length < k := by
  constructor
  · rintro ⟨a, ha⟩
    by_contra hk
    rw [commitWrites, take_append_of_le_length (by simp; omega)] at ha
    obtain ⟨i, -, hslot⟩ := slot_of_mem_slots (mem_of_mem_take ha)
    exact L.slot_ne_head i hslot.symm
  · intro hk
    refine ⟨header, ?_⟩
    rw [commitWrites, take_append]
    obtain ⟨j, hj⟩ : ∃ j, k - homes.length = j + 1 := ⟨k - homes.length - 1, by omega⟩
    simp [hj]

/-- After any prefix of a commit the header lists the homes or nothing. Assumes: the log was idle,
and the homes are outside the log. -/
theorem decode_commitWrites (new : ℕ → α) (hidle : L.Idle d)
    (hout : ∀ b ∈ homes, L.Outside homes.length b) (hheader : L.decode header = homes)
    (hcleared : L.decode cleared = []) (k : ℕ) :
    L.decode (applyWrites d ((L.commitWrites homes new header cleared).take k) L.head) = [] ∨
      L.decode (applyWrites d ((L.commitWrites homes new header cleared).take k) L.head) =
        homes := by
  rcases applyWrites_cases d ((L.commitWrites homes new header cleared).take k) L.head with
    hold | hmem
  · exact .inl (by rw [hold]; exact hidle)
  · have hwrite := mem_of_mem_take hmem
    generalize applyWrites d ((L.commitWrites homes new header cleared).take k) L.head = a at hwrite
    simp only [commitWrites, mem_append, mem_cons, not_mem_nil, or_false,
      Prod.mk.injEq, true_and] at hwrite
    rcases hwrite with hslot | rfl | hhome | rfl
    · obtain ⟨i, -, heq⟩ := slot_of_mem_slots hslot
      exact absurd heq.symm (L.slot_ne_head i)
    · exact .inr hheader
    · exact absurd rfl (hout _ (home_of_mem_homes hhome)).1
    · exact .inl hcleared

/-- Crash atomicity of a commit: after any prefix of its writes and any interrupted recoveries, the
recovery that completes leaves the homes with their new contents when the prefix has the header
that lists them and with their old contents when it has not, leaves every other block outside the
log alone, and leaves a header that lists nothing. Assumes: the log was idle, and the homes are
distinct and outside the log. -/
theorem recover_commitWrites (new : ℕ → α) (hidle : L.Idle d) (hnodup : homes.Nodup)
    (hout : ∀ b ∈ homes, L.Outside homes.length b) (hheader : L.decode header = homes)
    (hcleared : L.decode cleared = []) (k : ℕ) (ks : List ℕ) :
    L.Idle (L.recover (applyWrites d ((L.commitWrites homes new header cleared).take k)) ks) ∧
      (∀ b ∈ homes,
        L.recover (applyWrites d ((L.commitWrites homes new header cleared).take k)) ks b =
          if homes.length < k then new b else d b) ∧
      ∀ b, b ∉ homes → L.Outside homes.length b →
        L.recover (applyWrites d ((L.commitWrites homes new header cleared).take k)) ks b =
          d b := by
  have hslots : ∀ j b, L.Outside homes.length b →
      applyWrites d ((homes.mapIdx fun i b ↦ (L.slot i, new b)).take j) b = d b := by
    intro j b hb
    refine applyWrites_of_notMem fun w hw heq ↦ ?_
    obtain ⟨i, hi, hslot⟩ := slot_of_mem_slots (mem_of_mem_take hw)
    exact hb.2 i hi (heq ▸ hslot)
  by_cases hk : k ≤ homes.length
  · -- Only slots are written: the header still lists nothing.
    rw [commitWrites, take_append_of_le_length (by simpa using hk)]
    have hhead : applyWrites d ((homes.mapIdx fun i b ↦ (L.slot i, new b)).take k) L.head =
        d L.head := by
      refine applyWrites_of_notMem fun w hw heq ↦ ?_
      obtain ⟨i, -, hslot⟩ := slot_of_mem_slots (mem_of_mem_take hw)
      exact L.slot_ne_head i (hslot ▸ heq)
    have hidle' : L.Idle (applyWrites d ((homes.mapIdx fun i b ↦ (L.slot i, new b)).take k)) := by
      rw [Idle, hhead]
      exact hidle
    obtain ⟨hclear, hrest⟩ := recover_idle hidle' ks
    refine ⟨hclear, fun b hb ↦ ?_, fun b _ hb ↦ (hrest b hb.1).trans (hslots k b hb)⟩
    rw [if_neg (not_lt.mpr hk), hrest b (hout b hb).1, hslots k b (hout b hb)]
  · -- The header is written: the log is committed from here on.
    obtain ⟨j, rfl⟩ : ∃ j, k = homes.length + (j + 1) := ⟨k - homes.length - 1, by omega⟩
    have hcommitted := committed_of_slots d new hheader
    have hbefore : ∀ b, L.Outside homes.length b → update
        (applyWrites d (homes.mapIdx fun i b ↦ (L.slot i, new b))) L.head header b = d b := by
      intro b hb
      have hall := hslots homes.length b hb
      rw [take_of_length_le (by simp)] at hall
      rw [update_of_ne hb.1, hall]
    have htake : (L.commitWrites homes new header cleared).take (homes.length + (j + 1)) =
        (homes.mapIdx fun i b ↦ (L.slot i, new b)) ++ (L.head, header) ::
          ((homes.map fun b ↦ (b, new b)) ++ [(L.head, cleared)]).take j := by
      rw [commitWrites, take_append, take_of_length_le (by simp)]
      simp
    rw [htake, applyWrites_append, applyWrites_cons]
    obtain ⟨hclear, hnew, hrest⟩ := recover_take hnodup hout
      (fun h hnodup hout ↦ recover_committed hnodup hout h ks) hcommitted hcleared j
    refine ⟨hclear, fun b hb ↦ ?_, fun b hb houtside ↦ ?_⟩
    · rw [if_pos (by omega), hnew b hb]
    · rw [hrest b hb houtside.1, hbefore b houtside]

end RedoLog

end EasyKernels.Lib
