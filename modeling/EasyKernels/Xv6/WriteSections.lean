import EasyKernels.Xv6.SharedFile

/-!
# The blocks that a section of `filewrite` logs

`filewrite` calls `writei` between `begin_op` and `end_op` for at most `chunkMax` bytes, so that the
section stays within the `MAXOPBLOCKS` blocks that `begin_op` reserves. The functions that end in
`Log` list the blocks that `writei` and what it calls give to `log_write`, in order. There are at
most `MAXOPBLOCKS` of them (`writeiLog_card_le`): the indirect block and its block of the free map,
two for each round of the loop, one for a first round that does not begin a block, and the block of
the inode.

Scope. The free map is right (`Sound`); where it is not, `balloc` may return block 0, which `bmap`
takes for a missing one. A section that panics is counted up to the panic. The `write` of a device
logs nothing.
-/

set_option autoImplicit false

namespace EasyKernels.Xv6

open Nat List Function Finset

variable (sb : SuperBlock) (d : Disk)

/-- The bitmap block, then the block that `bzero` clears. -/
def ballocLog : List ℕ :=
  match balloc sb d with
  | .ok (b, _) => [sb.bblock b, b]
  | .error _ => []

def loadAddrLog (ip : Dinode) (k : Fin (nDirect + 1)) : List ℕ :=
  if ip.addrs k = 0 then ballocLog sb d else []

def bmapLog (ip : Dinode) (bn : ℕ) : List ℕ :=
  if h : bn < nDirect then loadAddrLog sb d ip (Fin.castSucc ⟨bn, h⟩)
  else if bn - nDirect < nIndirect then
    loadAddrLog sb d ip (Fin.last nDirect) ++
      match loadAddr sb d ip (Fin.last nDirect) with
      | .ok (a, _, d) =>
        if indirectEntry d a (bn - nDirect) = 0 then
          match balloc sb d with
          | .ok (b, _) => [sb.bblock b, b, a]
          | .error _ => []
        else []
      | .error _ => []
  else []

def writeLoopLog (sb : SuperBlock) (src : ℕ → UInt8) : ℕ → ℕ → ℕ → ℕ → Dinode → Disk → List ℕ
  | 0, _, _, _, _, _ => []
  | fuel + 1, tot, off, rest, ip, d =>
    if rest = 0 then []
    else
      bmapLog sb d ip (off / bSize) ++
        match bmap sb d ip (off / bSize) with
        | .ok (a, ip, d) =>
          let m := min rest (bSize - off % bSize)
          a :: writeLoopLog sb src fuel (tot + m) (off + m) (rest - m) ip
            (update d a
              ((d a).put (off % bSize) ((List.range m).map fun i ↦ src (tot + i))))
        | .error _ => []

def writeiLog (inum : ℕ) (ip : Dinode) (src : ℕ → UInt8) (off n : UInt32) : List ℕ :=
  if ip.type = tDev then []
  else if off > ip.size ∨ off + n < off then []
  else if off + n > UInt32.ofNat (maxFile * bSize) then []
  else
    writeLoopLog sb src n.toNat 0 off.toNat n.toNat ip d ++
      match writeLoop sb src n.toNat 0 off.toNat n.toNat ip d with
      | .ok (ip, _) => if n > 0 ∧ off + n > ip.size then [sb.iblock inum] else []
      | .error _ => []

variable {sb : SuperBlock} {d d' : Disk} {table : ℕ → Dinode} {ip ip' : Dinode} {a bn inum : ℕ}
  {k : Fin (nDirect + 1)} {D : Finset ℕ} {log : List ℕ}

/-! ### What each function logs -/

open UInt32

theorem loadAddr_cases (h : loadAddr sb d ip k = .ok (a, ip', d')) :
    ip.addrs k = 0 ∧ loadAddrLog sb d ip k = [sb.bblock a, a] ∧
        ip' = { ip with addrs := update ip.addrs k (ofNat a) } ∨
      loadAddrLog sb d ip k = [] ∧ a = (ip.addrs k).toNat ∧ ip' = ip := by
  unfold loadAddr at h
  unfold loadAddrLog ballocLog
  split_ifs at h ⊢ with hzero
  · cases halloc : balloc sb d with rw [halloc] at h
    | ok r =>
      cases h
      exact .inl ⟨hzero, rfl, rfl⟩
    | error e =>
      cases h
  · cases h
    exact .inr ⟨rfl, rfl, rfl⟩

theorem loadAddrLog_of_error {e : FsPanic} (h : loadAddr sb d ip k = .error e) :
    loadAddrLog sb d ip k = [] := by
  unfold loadAddr at h
  unfold loadAddrLog ballocLog
  split_ifs at h ⊢
  cases halloc : balloc sb d with
  | ok r =>
    rw [halloc] at h
    cases h
  | error e => rfl

/-! ### Counting -/

/-- Every block of the log is the indirect block, its block of the free map, or in `D`. -/
def Covers (sb : SuperBlock) (ip : Dinode) (D : Finset ℕ) (log : List ℕ) : Prop :=
  ∃ i, (ip.indirect ≠ 0 → i = ip.indirect) ∧ log.toFinset ⊆ {i, sb.bblock i} ∪ D

/-- The blocks that `loadAddr` logs for the indirect block. -/
theorem loadAddr_covers (h : loadAddr sb d ip (Fin.last nDirect) = .ok (a, ip', d')) :
    (ip.indirect ≠ 0 → a = ip.indirect) ∧
      (loadAddrLog sb d ip (Fin.last nDirect)).toFinset ⊆ {a, sb.bblock a} := by
  rcases loadAddr_cases h with ⟨hzero, hlog, -⟩ | ⟨hlog, rfl, -⟩
  · refine ⟨fun hne ↦ absurd (congrArg toNat hzero) hne, ?_⟩
    rw [hlog]
    intro x
    simp [or_comm]
  · exact ⟨fun _ ↦ rfl, by simp [hlog]⟩

theorem bmapLog_of_block (hblock : ip.block d bn = some a) : bmapLog sb d ip bn = [] := by
  have hload : ∀ {k : Fin (nDirect + 1)}, (ip.addrs k).toNat ≠ 0 →
      loadAddrLog sb d ip k = [] ∧ loadAddr sb d ip k = .ok ((ip.addrs k).toNat, ip, d) := by
    intro k hk
    have hne : ip.addrs k ≠ 0 := fun hzero ↦ hk (by rw [hzero]; rfl)
    exact ⟨if_neg hne, if_neg hne⟩
  obtain ⟨s, hslot, href⟩ := Option.bind_eq_some_iff.mp hblock
  unfold bmapLog
  unfold slotOf at hslot
  split_ifs at hslot with hdirect hentry
  · cases hslot
    obtain ⟨rfl, hne⟩ := blockNumber_eq_some.mp href
    rw [dif_pos hdirect]
    exact (hload hne).1
  · cases hslot
    simp only [Dinode.ref] at href
    split_ifs at href with hindirect
    obtain ⟨rfl, hne⟩ := blockNumber_eq_some.mp href
    rw [dif_neg hdirect, if_pos hentry, (hload hindirect).1, (hload hindirect).2]
    rw [Dinode.indirect] at hne
    simp only [if_neg hne, append_nil]

/-- The log of a call of `bmap` that panics. -/
theorem bmapLog_of_error {e : FsPanic} (herror : bmap sb d ip bn = .error e) :
    Covers sb ip ∅ (bmapLog sb d ip bn) := by
  unfold bmap at herror
  unfold bmapLog
  by_cases hdirect : bn < nDirect
  · rw [dif_pos hdirect] at herror ⊢
    exact ⟨ip.indirect, fun _ ↦ rfl, by simp [loadAddrLog_of_error herror]⟩
  · rw [dif_neg hdirect] at herror ⊢
    split_ifs at herror ⊢
    · cases hload : loadAddr sb d ip (Fin.last nDirect) with
      | error e => exact ⟨ip.indirect, fun _ ↦ rfl, by simp [loadAddrLog_of_error hload]⟩
      | ok r =>
        obtain ⟨j, ip₁, d₁⟩ := r
        obtain ⟨hkeep, hlog⟩ := loadAddr_covers hload
        simp only [hload] at herror ⊢
        split_ifs at herror ⊢
        cases halloc : balloc sb d₁ with
        | ok r => simp [halloc] at herror
        | error e =>
          simp only [append_nil]
          exact ⟨j, hkeep, by rwa [union_empty]⟩
    · exact ⟨ip.indirect, fun _ ↦ rfl, by simp⟩

/-- One more block of the file is found or made before the rest is logged. -/
theorem bmapLog_covers (h : Sound sb d (update table inum ip)) (hlt : inum < sb.ninodes)
    (htype : ip.type ≠ 0) (hok : bmap sb d ip bn = .ok (a, ip', d')) (hrest : Covers sb ip' D log) :
    Covers sb ip ({sb.bblock a, a} ∪ D) (bmapLog sb d ip bn ++ a :: log) := by
  obtain ⟨i, hi, hsub⟩ := hrest
  unfold bmap at hok
  unfold bmapLog
  by_cases hdirect : bn < nDirect
  · rw [dif_pos hdirect] at hok ⊢
    have hsame : ip'.indirect = ip.indirect := by
      rcases loadAddr_cases hok with ⟨-, -, rfl⟩ | ⟨-, -, rfl⟩
      · have hne : Fin.last nDirect ≠ ⟨bn, hdirect.trans (lt_succ_self _)⟩ :=
          fun heq ↦ hdirect.ne' (congrArg Fin.val heq)
        exact congrArg toNat (update_of_ne hne _ _)
      · rfl
    have hlog : (loadAddrLog sb d ip (Fin.castSucc ⟨bn, hdirect⟩)).toFinset ⊆ {sb.bblock a, a} := by
      rcases loadAddr_cases hok with ⟨-, hlog, -⟩ | ⟨hlog, -⟩ <;> simp [hlog]
    refine ⟨i, by rwa [← hsame], ?_⟩
    rw [toFinset_append, toFinset_cons]
    grind
  · rw [dif_neg hdirect] at hok ⊢
    split_ifs at hok with hentry
    rw [if_pos hentry]
    rcases loadAddr_spec h hlt htype (mem_singleton_self (Slot.addr (Fin.last nDirect))) with
      ⟨j, ip₁, d₁, hload, -, href⟩ | ⟨hload, -⟩
    · obtain ⟨hkeep, hlog⟩ := loadAddr_covers hload
      obtain ⟨rfl, hne⟩ := Dinode.ref_indirect.mp href
      simp only [hload] at hok ⊢
      -- An indirect block that is there now, old or new, is the one of every later round.
      have hcovers : ∀ l : List ℕ, ip₁ = ip' → l.toFinset ⊆ {sb.bblock a, a, ip₁.indirect} →
          Covers sb ip ({sb.bblock a, a} ∪ D)
            (loadAddrLog sb d ip (Fin.last nDirect) ++ l ++ a :: log) := by
        rintro l rfl hl
        obtain rfl := hi hne
        refine ⟨ip₁.indirect, hkeep, ?_⟩
        rw [toFinset_append, toFinset_append, toFinset_cons]
        grind
      split_ifs at hok ⊢
      · cases halloc : balloc sb d₁ with
        | error e => simp [halloc] at hok
        | ok r =>
          simp only [halloc, Except.ok.injEq, Prod.mk.injEq] at hok ⊢
          exact hcovers _ hok.2.1 (by simp [hok.1])
      · cases hok
        exact hcovers [] rfl (by simp)
    · simp [hload] at hok

theorem Covers.cons (h : Covers sb ip D log) : Covers sb ip (insert a D) (a :: log) := by
  obtain ⟨i, hi, hsub⟩ := h
  refine ⟨i, hi, ?_⟩
  rw [toFinset_cons, union_insert]
  exact insert_subset_insert a hsub

theorem covers_nil : Covers sb ip ∅ [] := ⟨ip.indirect, fun _ ↦ rfl, by simp⟩

/-- The number of rounds of the loop of `writei`. -/
def rounds (off rest : ℕ) : ℕ := if rest = 0 then 0 else (off % bSize + rest + (bSize - 1)) / bSize

theorem rounds_step {off rest m : ℕ} (hrest : rest ≠ 0)
    (hm : min rest (bSize - off % bSize) = m) :
    rounds (off + m) (rest - m) + 1 ≤ rounds off rest := by
  have hsize : bSize = 512 := rfl
  unfold rounds
  rw [if_neg hrest]
  rw [hsize] at hm ⊢
  split_ifs <;> omega

/-- The loop of `writei` logs at most two blocks a round next to the indirect block and its bitmap
block, and one in the first round if that block of the file is there. -/
theorem writeLoopLog_covers (src : ℕ → UInt8) (fuel tot off rest : ℕ)
    (h : Sound sb d (update table inum ip)) (hlt : inum < sb.ninodes) (htype : ip.type ≠ 0)
    (hmax : off + rest ≤ maxFile * bSize) :
    ∃ D, Covers sb ip D (writeLoopLog sb src fuel tot off rest ip d) ∧ #D ≤ 2 * rounds off rest ∧
      (rest ≠ 0 → (ip.block d (off / bSize)).isSome → #D + 1 ≤ 2 * rounds off rest) := by
  induction fuel generalizing tot off rest ip d with
  | zero =>
    refine ⟨∅, covers_nil, zero_le _, fun hrest _ ↦ ?_⟩
    have hstep : _ + 1 ≤ rounds off rest := rounds_step hrest rfl
    rw [card_empty]
    omega
  | succ fuel ih =>
    rw [writeLoopLog]
    by_cases hrest : rest = 0
    · rw [if_pos hrest]
      exact ⟨∅, covers_nil, zero_le _, fun hne ↦ absurd hrest hne⟩
    · rw [if_neg hrest]
      have hmod : off % bSize < bSize := mod_lt off (by decide)
      have hbn : off / bSize < maxFile := by
        rw [div_lt_iff_lt_mul (by decide)]
        omega
      obtain ⟨s, hslot⟩ := slotOf_isSome hbn
      generalize hm : min rest (bSize - off % bSize) = m
      have hstep := rounds_step hrest hm
      rcases bmap_spec h hlt htype hslot subset_rfl with
        ⟨a, ip₁, d₁, hok, hgrows, href⟩ | ⟨herror, -⟩
      · simp only [hok]
        have htype₁ : ip₁.type ≠ 0 := by rwa [hgrows.same]
        have hstore := hgrows.sound.store (S := ∅) hlt htype₁ hslot href
          ((d₁ a).put (off % bSize) ((List.range m).map fun i ↦ src (tot + i)))
        obtain ⟨D, hD, hcard, -⟩ := ih (tot + m) (off + m) (rest - m) hstore.sound htype₁ (by omega)
        cases hblock : ip.block d (off / bSize) with
        | some b =>
          obtain ⟨rfl, rfl, rfl⟩ : b = a ∧ ip = ip₁ ∧ d = d₁ := by
            simpa [bmap_of_block hblock] using hok
          have hinsert := card_insert_le b D
          rw [bmapLog_of_block hblock]
          exact ⟨insert b D, hD.cons, by omega, fun _ _ ↦ by omega⟩
        | none =>
          have hunion := card_union_le {sb.bblock a, a} D
          have hpair : #{sb.bblock a, a} ≤ 2 := card_le_two
          exact ⟨_, bmapLog_covers h hlt htype hok hD, by omega, by simp⟩
      · simp only [herror, List.append_nil]
        refine ⟨∅, bmapLog_of_error herror, zero_le _, fun _ _ ↦ ?_⟩
        rw [card_empty]
        omega

/-- On a disk whose free map is right, one section of `filewrite` logs at most `MAXOPBLOCKS`
blocks. -/
theorem writeiLog_card_le (hsound : Sound sb d (readDinode sb d)) (hlt : inum < sb.ninodes)
    (hread : readDinode sb d inum = ip) (htype : ip.type ≠ 0) (hfull : ip.Full d)
    (src : ℕ → UInt8) (off n : UInt32) (hn : n.toNat ≤ SharedFile.chunkMax) :
    #(writeiLog sb d inum ip src off n).toFinset ≤ maxOpBlocks := by
  have hsound' : Sound sb d (update (readDinode sb d) inum ip) := by
    rwa [← hread, update_eq_self]
  rw [writeiLog]
  split_ifs with hdev hoff hmax
  · exact zero_le _
  · exact zero_le _
  · exact zero_le _
  simp only [not_or, lt_iff_toNat_lt, gt_iff_lt, not_lt] at hoff hmax
  have hfits : off.toNat + n.toNat ≤ maxFile * bSize := by
    rw [toNat_maxFile] at hmax
    rw [UInt32.toNat_add] at hoff hmax
    have hn' := n.toNat_lt
    omega
  obtain ⟨D, ⟨i, -, hsub⟩, hcard, hfirst⟩ :=
    writeLoopLog_covers src n.toNat 0 off.toNat n.toNat hsound' hlt htype hfits
  -- A first block that is written in part is there, since it begins below the size of the file.
  have hD : #D ≤ 7 := by
    have hsize : bSize = 512 := rfl
    have hmax' : SharedFile.chunkMax = 1536 := rfl
    by_cases haligned : off.toNat % bSize = 0
    · rw [rounds, haligned, hsize] at hcard
      split_ifs at hcard <;> omega
    · obtain ⟨a, ha⟩ := hfull (off.toNat / bSize) (by rw [hsize] at haligned ⊢; omega)
      by_cases hzero : n.toNat = 0
      · rw [rounds, if_pos hzero] at hcard
        omega
      · have hfirst := hfirst hzero (by rw [ha]; rfl)
        rw [rounds, if_neg hzero, hsize] at hfirst
        omega
  generalize hlast : (match writeLoop sb src n.toNat 0 off.toNat n.toNat ip d with
    | .ok (ip, _) => if n > 0 ∧ off + n > ip.size then [sb.iblock inum] else []
    | .error _ => []) = last
  have hlen : last.toFinset.card ≤ 1 := by
    rw [← hlast]
    split
    · split_ifs <;> simp
    · simp
  have hpair : #{i, sb.bblock i} ≤ 2 := card_le_two
  rw [toFinset_append]
  calc #((writeLoopLog sb src n.toNat 0 off.toNat n.toNat ip d).toFinset ∪ last.toFinset)
      ≤ #({i, sb.bblock i} ∪ D) + last.toFinset.card :=
        (card_union_le _ _).trans (Nat.add_le_add_right (card_le_card hsub) _)
    _ ≤ 2 + 7 + 1 := Nat.add_le_add ((card_union_le _ _).trans (Nat.add_le_add hpair hD)) hlen

theorem writeiLog_card_le_smallDisk :
    #(writeiLog smallSb (smallDisk 4 31) 2 (oneByteFile 4) (fun _ ↦ 9) 1 1536).toFinset ≤
      maxOpBlocks :=
  writeiLog_card_le smallDisk_sound (by decide) (smallDisk_inodes 4 31).2.1 (by decide)
    oneByteFile_full _ 1 1536 (by decide)

end EasyKernels.Xv6
