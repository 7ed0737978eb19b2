import EasyKernels.Lib.RedoLog
import EasyKernels.Xv6.Param

/-!
# Commit and recovery in `log.c`

The sequence of disk writes that `commit()` and `recover_from_log()` issue. A `Dev` is the disk,
the buffers whose data the disk does not have yet, and the writes issued so far; `bread` reads the
buffer if there is one and the disk if not, and `bwrite` writes one block to the disk. `write_log`,
`write_head`, `install_trans` and `read_head` are the loops of the source over these two, with the
header encoded in the bytes of its block as `struct logheader` lays it out.

`Dev.Effect` says what such a function did: the list of its writes, which changed both the disk and
what `bread` returns. With it `commit_effect` and `recoverFromLog_effect` identify the writes as
those of the redo log of `Lib.RedoLog`, with the header at `log.start` and the slots after it.

`commit_crash_atomic` is crash atomicity. It assumes that the header on the disk is clear when the
commit starts, as recovery at boot and every commit leave it (`recoverRuns_clears`,
`commit_complete`). An image with an uncleared header is replayed by recovery whether or not the
commit wrote anything: `staleImage` is one, and `staleImage_not_crashAtomic` has a block that is not
in the transaction overwritten.
-/

set_option autoImplicit false

namespace EasyKernels.Xv6.LogRecovery

open List Function Lib Lib.Bytes

/-! ### The device -/

/-- The disk, the buffers that hold data the disk does not have yet, and the writes issued. -/
structure Dev where
  disk : ℕ → Block
  pinned : ℕ → Option Block
  issued : List (ℕ × Block)

/-- The machine after a crash: the buffer cache is lost. -/
def boot (disk : ℕ → Block) : Dev := ⟨disk, fun _ ↦ none, []⟩

variable (d : Dev)

/-- The data of the buffer that `bread` returns. -/
def Dev.bread (b : ℕ) : Block := (d.pinned b).getD (d.disk b)

/-- `bwrite` of the buffer of a block after its data was set. -/
def Dev.bwrite (b : ℕ) (data : Block) : Dev where
  disk := update d.disk b data
  pinned := update d.pinned b none
  issued := d.issued ++ [(b, data)]

theorem Dev.bread_bwrite (b : ℕ) (data : Block) :
    (d.bwrite b data).bread = update d.bread b data := by
  funext c
  rcases eq_or_ne c b with rfl | hc
  · simp [bread, bwrite]
  · simp [bread, bwrite, update_of_ne hc]

/-- A function that issued the writes `ws`: they changed the disk, and they changed what `bread`
returns. -/
structure Dev.Effect (d : Dev) (ws : List (ℕ × Block)) (d' : Dev) : Prop where
  issued_eq : d'.issued = d.issued ++ ws
  disk_eq : d'.disk = applyWrites d.disk ws
  bread_eq : d'.bread = applyWrites d.bread ws

theorem Dev.Effect.refl : d.Effect [] d := ⟨by simp, rfl, rfl⟩

variable {d : Dev} {lh : List UInt32} {start : ℕ} {disk : ℕ → Block}

theorem Dev.Effect.trans {d' d'' : Dev} {ws vs : List (ℕ × Block)} (h : d.Effect ws d')
    (h' : d'.Effect vs d'') : d.Effect (ws ++ vs) d'' where
  issued_eq := by rw [h'.issued_eq, h.issued_eq, append_assoc]
  disk_eq := by rw [h'.disk_eq, h.disk_eq, applyWrites_append]
  bread_eq := by rw [h'.bread_eq, h.bread_eq, applyWrites_append]

theorem Dev.effect_bwrite (d : Dev) (b : ℕ) (data : Block) :
    d.Effect [(b, data)] (d.bwrite b data) :=
  ⟨rfl, rfl, d.bread_bwrite b data⟩

/-! ### The header block -/

/-- The stores `hb->block[i] = log.lh.block[i]` from an index on. -/
def putBlocks (hb : Block) : ℕ → List UInt32 → Block
  | _, [] => hb
  | i, b :: rest => putBlocks (hb.putField (4 + 4 * i) 4 b.toNat) (i + 1) rest

/-- The header block that `write_head` writes over `hb`: `n` and the first `n` entries are set, the
other bytes stay. -/
def encodeHead (hb : Block) (lh : List UInt32) : Block :=
  putBlocks (hb.putField 0 4 lh.length) 0 lh

/-- The number of rounds of a loop `for (i = 0; i < n; i++)` whose bound is the `int` with this
unsigned value. -/
def rounds (n : ℕ) : ℕ := if n < 2 ^ 31 then n else 0

/-- `read_head`: the block numbers that a header block lists. -/
def readHead (hb : Block) : List ℕ :=
  (List.range (rounds (hb.field 0 4))).map fun i ↦ hb.field (4 + 4 * i) 4

variable {i tail size : ℕ} {homes : List ℕ}

theorem field_putBlocks_of_disjoint {hb : Block} {off : ℕ}
    (h : off + 4 ≤ 4 + 4 * i ∨ 4 + 4 * (i + lh.length) ≤ off) :
    (putBlocks hb i lh).field off 4 = hb.field off 4 := by
  induction lh generalizing hb i with
  | nil => rfl
  | cons b rest ih =>
    rw [length_cons] at h
    rw [putBlocks, ih (by omega), field_putField_of_disjoint (by omega)]

theorem field_putBlocks (hb : Block) {j : ℕ} (hj : j < lh.length)
    (hfits : 4 + 4 * (i + lh.length) ≤ bSize) :
    (putBlocks hb i lh).field (4 + 4 * (i + j)) 4 = lh[j].toNat := by
  induction lh generalizing hb i j with
  | nil => simp at hj
  | cons b rest ih =>
    rw [length_cons] at hfits hj
    rw [putBlocks]
    cases j with
    | zero =>
      rw [add_zero, field_putBlocks_of_disjoint (by omega)]
      exact field_putField_self (by omega) b.toNat_lt
    | succ j =>
      have hj' : j < rest.length := by omega
      rw [show i + (j + 1) = i + 1 + j by omega, ih _ hj' (by omega)]
      rfl

open UInt32

/-- Reading back the header that was written. Assumes: the header fits in `block[LOGSIZE]`. -/
theorem readHead_encodeHead (hb : Block) (lh : List UInt32) (hlh : lh.length ≤ logSize) :
    readHead (encodeHead hb lh) = lh.map toNat := by
  have hsize : logSize = 30 := rfl
  have hblock : bSize = 512 := rfl
  have hn : (encodeHead hb lh).field 0 4 = lh.length := by
    rw [encodeHead, field_putBlocks_of_disjoint (by omega)]
    exact field_putField_self (by omega) (by omega)
  rw [readHead, hn, rounds, if_pos (by omega)]
  refine ext_getElem (by simp) fun j hj _ ↦ ?_
  have hj' : j < lh.length := by simpa using hj
  have hentry := field_putBlocks (i := 0) (hb.putField 0 4 lh.length) hj' (by omega)
  simpa [encodeHead] using hentry

theorem field_encodeHead_nil (hb : Block) : (encodeHead hb []).field 0 4 = 0 :=
  field_putField_self (by decide) (by decide)

attribute [irreducible] readHead encodeHead

/-- The redo log whose header is at `log.start` and whose slots follow it. -/
def redoLog (start : ℕ) : RedoLog Block where
  head := start
  slot := fun i ↦ start + i + 1
  decode := readHead
  clear := fun hb ↦ encodeHead hb []
  decode_clear := fun hb ↦ by simpa using readHead_encodeHead hb [] (by simp)
  slot_injective := fun i j h ↦ by simpa using h
  slot_ne_head := fun i ↦ by omega

/-! ### The functions of `log.c` -/

/-- `write_log` from a tail on: each modified block goes from the cache to its log block. -/
def writeLog (start : ℕ) : ℕ → List ℕ → Dev → Dev
  | _, [], d => d
  | tail, b :: rest, d => writeLog start (tail + 1) rest (d.bwrite (start + tail + 1) (d.bread b))

/-- `write_head`. -/
def writeHead (start : ℕ) (lh : List UInt32) (d : Dev) : Dev :=
  d.bwrite start (encodeHead (d.bread start) lh)

/-- `install_trans` from a tail on: each log block goes to its home. -/
def installTrans (start : ℕ) : ℕ → List ℕ → Dev → Dev
  | _, [], d => d
  | tail, b :: rest, d =>
    installTrans start (tail + 1) rest (d.bwrite b (d.bread (start + tail + 1)))

/-- `commit`. -/
def commit (start : ℕ) (lh : List UInt32) (d : Dev) : Dev :=
  if lh.length > 0 then
    let d := writeLog start 0 (lh.map UInt32.toNat) d
    let d := writeHead start lh d
    let d := installTrans start 0 (lh.map UInt32.toNat) d
    writeHead start [] d
  else d

/-- `recover_from_log`. -/
def recoverFromLog (start : ℕ) (d : Dev) : Dev :=
  let lh := readHead (d.bread start)
  let d := installTrans start 0 lh d
  writeHead start [] d

/-- The disk after recoveries that stop after the given numbers of writes, each followed by a new
start of the machine, and one that completes. -/
def recoverRuns (start : ℕ) (disk : ℕ → Block) : List ℕ → ℕ → Block
  | [] => (recoverFromLog start (boot disk)).disk
  | k :: ks =>
    recoverRuns start (applyWrites disk ((recoverFromLog start (boot disk)).issued.take k)) ks

/-! ### Their writes -/

theorem effect_writeHead (start : ℕ) (lh : List UInt32) (d : Dev) :
    d.Effect [(start, encodeHead (d.bread start) lh)] (writeHead start lh d) :=
  d.effect_bwrite _ _

/-- Blocks are copied one after the other, each from the second place to the first. Assumes: no
block still to be copied has been written. -/
theorem effect_copies (d : Dev) {l : List (ℕ × ℕ)} (hl : l.Pairwise fun x y ↦ y.2 ≠ x.1) :
    d.Effect (l.map fun x ↦ (x.1, d.bread x.2))
      (l.foldl (fun d x ↦ d.bwrite x.1 (d.bread x.2)) d) := by
  induction l generalizing d with
  | nil => exact .refl d
  | cons x rest ih =>
    obtain ⟨hx, hrest⟩ := pairwise_cons.mp hl
    have heq : rest.map (fun y ↦ (y.1, (d.bwrite x.1 (d.bread x.2)).bread y.2)) =
        rest.map fun y ↦ (y.1, d.bread y.2) :=
      map_congr_left fun y hy ↦ by rw [Dev.bread_bwrite, update_of_ne (hx y hy)]
    exact (d.effect_bwrite x.1 (d.bread x.2)).trans (heq ▸ ih _ hrest)

theorem writeLog_eq (d : Dev) : writeLog start tail homes d =
    (homes.mapIdx fun i b ↦ (start + (tail + i) + 1, b)).foldl
      (fun d x ↦ d.bwrite x.1 (d.bread x.2)) d := by
  induction homes generalizing tail d with
  | nil => rfl
  | cons b rest ih => simp [writeLog, ih, mapIdx_cons, add_assoc, add_comm 1]

theorem installTrans_eq (d : Dev) : installTrans start tail homes d =
    (homes.mapIdx fun i b ↦ (b, start + (tail + i) + 1)).foldl
      (fun d x ↦ d.bwrite x.1 (d.bread x.2)) d := by
  induction homes generalizing tail d with
  | nil => rfl
  | cons b rest ih => simp [installTrans, ih, mapIdx_cons, add_assoc, add_comm 1]

section Loops

variable (d : Dev) (hout : ∀ b ∈ homes, ∀ i < homes.length, b ≠ start + i + 1)
include hout

theorem effect_writeLog : d.Effect (homes.mapIdx fun i b ↦ (start + i + 1, d.bread b))
    (writeLog start 0 homes d) := by
  have hcopies := effect_copies d (l := homes.mapIdx fun i b ↦ (start + (0 + i) + 1, b))
    (pairwise_iff_getElem.mpr fun i j hi hj _ ↦ by
      rw [length_mapIdx] at hi hj
      simpa using hout _ (getElem_mem hj) i hi)
  rw [writeLog_eq]
  convert hcopies using 1
  exact ext_getElem (by simp) (by simp)

theorem effect_installTrans : d.Effect (homes.mapIdx fun i b ↦ (b, d.bread (start + i + 1)))
    (installTrans start 0 homes d) := by
  have hcopies := effect_copies d (l := homes.mapIdx fun i b ↦ (b, start + (0 + i) + 1))
    (pairwise_iff_getElem.mpr fun i j hi hj _ ↦ by
      rw [length_mapIdx] at hi hj
      simpa using (hout _ (getElem_mem hi) j hj).symm)
  rw [installTrans_eq]
  convert hcopies using 1
  exact ext_getElem (by simp) (by simp)

end Loops

/-- `commit` issues the writes of a commit of the redo log. Assumes: the header is not empty, fits
in `block[LOGSIZE]` and lists blocks outside the log. -/
theorem commit_effect (hne : lh ≠ []) (hlh : lh.length ≤ logSize)
    (hout : ∀ b ∈ lh.map toNat, (redoLog start).Outside lh.length b) :
    ∃ header cleared, readHead header = lh.map toNat ∧ readHead cleared = [] ∧
      d.Effect ((redoLog start).commitWrites (lh.map toNat) d.bread header cleared)
        (commit start lh d) := by
  have hslots : ∀ b ∈ lh.map toNat, ∀ i < (lh.map toNat).length, b ≠ start + i + 1 :=
    fun b hb i hi ↦ (hout b hb).2 i (by simpa using hi)
  have hlog := effect_writeLog d hslots
  generalize hd₁ : writeLog start 0 (lh.map toNat) d = d₁ at hlog
  have hhead := hlog.trans (effect_writeHead start lh d₁)
  have hheader := readHead_encodeHead (d₁.bread start) lh hlh
  generalize encodeHead (d₁.bread start) lh = header at hhead hheader
  generalize hd₂ : writeHead start lh d₁ = d₂ at hhead
  have hcommitted : (redoLog start).Committed d₂.bread (lh.map toNat) d.bread := by
    rw [hhead.bread_eq, applyWrites_append]
    exact RedoLog.committed_of_slots (L := redoLog start) d.bread d.bread hheader
  have hinstall := effect_installTrans d₂ hslots
  rw [show ((lh.map toNat).mapIdx fun i b ↦ (b, d₂.bread (start + i + 1))) =
    (redoLog start).installs d₂.bread (lh.map toNat) from rfl,
    RedoLog.installs_of_committed hcommitted] at hinstall
  generalize hd₃ : installTrans start 0 (lh.map toNat) d₂ = d₃ at hinstall
  refine ⟨header, encodeHead (d₃.bread start) [], hheader, ?_, ?_⟩
  · simpa using readHead_encodeHead (d₃.bread start) [] (by simp)
  · have hall := (hhead.trans hinstall).trans (effect_writeHead start [] d₃)
    have hcommit : commit start lh d = writeHead start [] d₃ := by
      simp only [commit, if_pos (length_pos_iff.mpr hne), hd₁, hd₂, hd₃]
    rw [hcommit]
    simpa [RedoLog.commitWrites, redoLog] using hall

/-- The header of a disk lists only blocks outside the log it heads. -/
def SafeHead (start : ℕ) (disk : ℕ → Block) : Prop :=
  ∀ b ∈ readHead (disk start), (redoLog start).Outside (readHead (disk start)).length b

/-- `recover_from_log` issues the writes of a recovery of the redo log. -/
theorem recoverFromLog_effect (hsafe : SafeHead start disk) :
    (boot disk).Effect ((redoLog start).recovery disk) (recoverFromLog start (boot disk)) := by
  have hbread : (boot disk).bread = disk := rfl
  have hinstall := effect_installTrans (boot disk) fun b hb i hi ↦ (hsafe b hb).2 i hi
  simp only [hbread] at hinstall
  generalize hd : installTrans start 0 (readHead (disk start)) (boot disk) = d at hinstall
  have hstart : d.bread start = disk start := by
    rw [hinstall.bread_eq, hbread]
    refine applyWrites_of_notMem fun w hw heq ↦ ?_
    obtain ⟨i, hi, rfl⟩ := mem_mapIdx.mp hw
    exact (hsafe _ (getElem_mem hi)).1 heq
  have hall := hinstall.trans (effect_writeHead start [] d)
  rw [hstart] at hall
  rw [recoverFromLog, hbread, hd]
  exact hall

theorem SafeHead.recovery (hsafe : SafeHead start disk) (k : ℕ) :
    SafeHead start (applyWrites disk (((redoLog start).recovery disk).take k)) := by
  by_cases hk : k ≤ (readHead (disk start)).length
  · have hstart : applyWrites disk (((redoLog start).recovery disk).take k) start =
        disk start := by
      refine applyWrites_of_notMem fun w hw heq ↦ ?_
      rw [RedoLog.recovery,
        take_append_of_le_length (by simpa [RedoLog.installs, redoLog] using hk)] at hw
      obtain ⟨i, hi, rfl⟩ := mem_mapIdx.mp (mem_of_mem_take hw)
      exact (hsafe _ (getElem_mem hi)).1 heq
    intro b hb
    rw [hstart] at hb ⊢
    exact hsafe b hb
  · have hclear : readHead (applyWrites disk (((redoLog start).recovery disk).take k) start) =
        [] := by
      rw [take_of_length_le (by simp [RedoLog.recovery, RedoLog.installs, redoLog]; omega),
        RedoLog.recovery, applyWrites_append]
      simpa [applyWrites, redoLog] using (redoLog start).decode_clear (disk start)
    intro b hb
    rw [hclear] at hb
    simp at hb

/-- The interrupted recoveries of `log.c` are those of the redo log. -/
theorem recoverRuns_eq (hsafe : SafeHead start disk) (ks : List ℕ) :
    recoverRuns start disk ks = (redoLog start).recover disk ks := by
  induction ks generalizing disk with
  | nil =>
    exact (recoverFromLog_effect hsafe).disk_eq
  | cons k ks ih =>
    have hissued := (recoverFromLog_effect hsafe).issued_eq
    rw [show (boot disk).issued = [] from rfl, nil_append] at hissued
    rw [recoverRuns, RedoLog.recover, hissued, ih (hsafe.recovery k)]

/-! ### Crash atomicity -/

/-- The blocks of a log of `size` blocks. -/
def InLog (start size b : ℕ) : Prop := start ≤ b ∧ b < start + size

theorem outside_of_not_inLog {n b : ℕ} (hroom : n < size) (hb : ¬ InLog start size b) :
    (redoLog start).Outside n b := by
  constructor
  · intro heq
    change b = start at heq
    exact hb ⟨by omega, by omega⟩
  · intro i hi heq
    change b = start + i + 1 at heq
    exact hb ⟨by omega, by omega⟩

/-- Recovery leaves the header with `n = 0`. -/
theorem recoverRuns_clears (hsafe : SafeHead start disk) (ks : List ℕ) :
    (recoverRuns start disk ks start).field 0 4 = 0 := by
  obtain ⟨hb, heq⟩ := RedoLog.recover_head (L := redoLog start) disk ks
  rw [recoverRuns_eq hsafe]
  change ((redoLog start).recover disk ks (redoLog start).head).field 0 4 = 0
  rw [heq]
  exact field_encodeHead_nil hb

/-- What a crash after `k` writes of `commit` leaves, once recoveries cut short after `ks` writes
and one that completes have run: the blocks of the transaction are all new if the `k` writes have
one of the header block and all old if they have not, every other block outside the log is as it
was, and the header has `n = 0`. -/
def CrashAtomic (start size : ℕ) (lh : List UInt32) (d : Dev) (k : ℕ) (ks : List ℕ) : Prop :=
  let crashed := applyWrites d.disk ((commit start lh d).issued.take k)
  let final := recoverRuns start crashed ks
  ((∃ header, (start, header) ∈ (commit start lh d).issued.take k) →
      ∀ b ∈ lh, final b.toNat = d.bread b.toNat) ∧
    ((¬ ∃ header, (start, header) ∈ (commit start lh d).issued.take k) →
      ∀ b ∈ lh, final b.toNat = d.disk b.toNat) ∧
    (∀ b, ¬ InLog start size b → (∀ c ∈ lh, b ≠ c.toNat) → final b = d.disk b) ∧
    (final start).field 0 4 = 0

theorem homes_outside (hroom : lh.length < size) (hout : ∀ b ∈ lh, ¬ InLog start size b.toNat) :
    ∀ b ∈ lh.map toNat, (redoLog start).Outside lh.length b := by
  intro b hb
  obtain ⟨c, hc, rfl⟩ := mem_map.mp hb
  exact outside_of_not_inLog hroom (hout c hc)

/-- Crash atomicity of `commit`, for every disk whose header is clear, every header of at most
`LOGSIZE` distinct blocks outside a log with room for them, every content of the buffer cache, every
prefix of the writes and every sequence of interrupted recoveries. -/
theorem commit_crash_atomic {start size : ℕ} {lh : List UInt32} {d : Dev}
    (hfresh : d.issued = []) (hclear : readHead (d.disk start) = []) (hlh : lh.length ≤ logSize)
    (hroom : lh.length < size) (hnodup : lh.Nodup)
    (hout : ∀ b ∈ lh, ¬ InLog start size b.toNat) (k : ℕ) (ks : List ℕ) :
    CrashAtomic start size lh d k ks := by
  unfold CrashAtomic
  intro crashed final
  have hhomes := homes_outside hroom hout
  by_cases hne : lh = []
  · -- A transaction without blocks: `commit` issues no write.
    have hissued : (commit start lh d).issued = [] := by simp [commit, hne, hfresh]
    have hcrashed : crashed = d.disk := by
      change applyWrites d.disk ((commit start lh d).issued.take k) = d.disk
      simp [hissued]
    have hsafe : SafeHead start crashed := by
      intro b hb
      rw [hcrashed, hclear] at hb
      simp at hb
    obtain ⟨-, hrest⟩ := RedoLog.recover_idle (L := redoLog start) (d := d.disk) hclear ks
    refine ⟨by simp [hne], by simp [hne], fun b hb _ ↦ ?_, recoverRuns_clears hsafe ks⟩
    change recoverRuns start crashed ks b = d.disk b
    rw [recoverRuns_eq hsafe, hcrashed, hrest b (outside_of_not_inLog hroom hb).1]
  · obtain ⟨header, cleared, hheader, hcleared, heffect⟩ := commit_effect (d := d) hne hlh hhomes
    have hissued := heffect.issued_eq
    rw [hfresh, nil_append] at hissued
    have hlength : (lh.map toNat).length = lh.length := by simp
    rw [← hlength] at hhomes
    have hsafe : SafeHead start crashed := by
      have hdecode := RedoLog.decode_commitWrites (L := redoLog start) d.bread hclear
        hhomes hheader hcleared k
      rw [← hissued] at hdecode
      intro b hb
      rcases hdecode with hnil | hlist
      · rw [show readHead (crashed start) = [] from hnil] at hb
        simp at hb
      · rw [show readHead (crashed start) = lh.map toNat from hlist] at hb ⊢
        exact hhomes b hb
    obtain ⟨-, hnew, hrest⟩ := RedoLog.recover_commitWrites (L := redoLog start) d.bread
      hclear (hnodup.map fun _ _ ↦ UInt32.toNat_inj.mp) hhomes hheader hcleared k ks
    have hfinal : final = (redoLog start).recover (applyWrites d.disk (((redoLog start).commitWrites
        (lh.map toNat) d.bread header cleared).take k)) ks := by
      change recoverRuns start crashed ks = _
      rw [recoverRuns_eq hsafe, ← hissued]
    have hwritten : (∃ header, (start, header) ∈ (commit start lh d).issued.take k) ↔
        (lh.map toNat).length < k := by
      rw [hissued]
      exact RedoLog.head_mem_take_iff (L := redoLog start)
    refine ⟨fun hw b hb ↦ ?_, fun hw b hb ↦ ?_, fun b hb hother ↦ ?_, recoverRuns_clears hsafe ks⟩
    · rw [hfinal, hnew _ (mem_map_of_mem hb), if_pos (hwritten.mp hw)]
    · rw [hfinal, hnew _ (mem_map_of_mem hb), if_neg fun hk ↦ hw (hwritten.mpr hk)]
    · rw [hfinal]
      refine hrest b (fun hmem ↦ ?_) (by rw [hlength]; exact outside_of_not_inLog hroom hb)
      obtain ⟨c, hc, heq⟩ := mem_map.mp hmem
      exact hother c hc heq.symm

/-- A device with a clear log whose cache holds new data for the blocks 50 and 70. -/
def twoBlocksDev : Dev where
  disk := fun _ ↦ Bytes.zero bSize
  pinned := fun b ↦
    if b = 50 then some ((Bytes.zero bSize).put 0 [1, 2, 3])
    else if b = 70 then some ((Bytes.zero bSize).put 9 [4, 5]) else none
  issued := []

theorem readHead_zero : readHead (Bytes.zero bSize) = [] := by
  unfold readHead
  simp [field_zero, rounds]

/-- A crash after the first of two blocks is installed, and a recovery cut short twice. -/
theorem commit_crash_atomic_twoBlocks : CrashAtomic 2 30 [70, 50] twoBlocksDev 4 [1, 2] :=
  commit_crash_atomic rfl readHead_zero (by decide) (by decide) (by decide)
    (by simp [InLog]) 4 [1, 2]

/-- A commit that completes leaves the new contents and a clear header, on which the next one can
start. -/
theorem commit_complete (hclear : readHead (d.disk start) = []) (hlh : lh.length ≤ logSize)
    (hroom : lh.length < size) (hnodup : lh.Nodup) (hout : ∀ b ∈ lh, ¬ InLog start size b.toNat) :
    readHead ((commit start lh d).disk start) = [] ∧
      ∀ b ∈ lh, (commit start lh d).disk b.toNat = d.bread b.toNat := by
  have hhomes := homes_outside hroom hout
  by_cases hne : lh = []
  · simp [commit, hne, hclear]
  · obtain ⟨header, cleared, -, hcleared, heffect⟩ := commit_effect (d := d) hne hlh hhomes
    rw [heffect.disk_eq, RedoLog.commitWrites, applyWrites_append, applyWrites_cons,
      applyWrites_append]
    constructor
    · simpa [applyWrites, redoLog] using hcleared
    · intro b hb
      have hmem := mem_map_of_mem (f := toNat) hb
      rw [applyWrites_of_notMem (by simpa using Ne.symm (hhomes _ hmem).1),
        RedoLog.applyWrites_homes (hnodup.map fun _ _ ↦ UInt32.toNat_inj.mp) hmem]

theorem commit_complete_twoBlocks : readHead ((commit 2 [70, 50] twoBlocksDev).disk 2) = [] ∧
    ((commit 2 [70, 50] twoBlocksDev).disk 50).get 1 = 2 := by
  obtain ⟨hclear, hnew⟩ := @commit_complete twoBlocksDev [70, 50] 2 30 readHead_zero (by decide)
    (by decide) (by decide) (by simp [InLog])
  exact ⟨hclear, (congrArg (·.get 1) (hnew 50 (by simp))).trans (by decide +kernel)⟩

/-- An image whose header was not cleared: it lists block 40, and the log block for it differs from
block 40 in its first byte. -/
def staleImage (b : ℕ) : Block :=
  if b = 2 then encodeHead (Bytes.zero bSize) [40]
  else if b = 3 then (Bytes.zero bSize).put 0 [1]
  else Bytes.zero bSize

/-- On an image whose header is not clear a commit is not atomic: stopped before its first write, a
transaction of block 50 alone has block 40 overwritten by the recovery. -/
theorem staleImage_not_crashAtomic :
    ([50] : List UInt32).length ≤ logSize ∧ ¬ InLog 2 30 50 ∧
      ¬ CrashAtomic 2 30 [50] { twoBlocksDev with disk := staleImage } 0 [] := by
  refine ⟨by decide, by simp [InLog], fun hatomic ↦ ?_⟩
  have hsame := hatomic.2.2.1 40 (by simp [InLog]) (by simp)
  have hbyte : ((recoverFromLog 2 (boot staleImage)).disk 40).get 0 = 1 := by decide +kernel
  have hzero : (staleImage 40).get 0 = 0 := by decide +kernel
  change (recoverFromLog 2 (boot staleImage)).disk 40 = staleImage 40 at hsame
  rw [hsame, hzero] at hbyte
  exact absurd hbyte (by decide)

end EasyKernels.Xv6.LogRecovery
