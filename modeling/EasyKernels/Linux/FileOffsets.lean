import EasyKernels.Lib.Calls
import EasyKernels.Linux.Param

/-!
# File offsets and the panics of `_bmap`

`sys_lseek`, `sys_read` and `sys_write` on regular files, as far as they are about `f_pos` and
`i_size`. `_bmap` panics on a negative block number and on one above the largest file. No call gets
to the first panic, and `sys_read` to none, since it stops at `i_size`. But `sys_lseek` accepts
every offset that is not negative, and `sys_write` goes where it leads. `bmapPanics_iff`: a run has
no panic exactly when no write passes the end of the largest file (`Below`).

Scope. A call is one step. `ok` says of which blocks `_bmap` and `bread` find the data, in each call
as the disk has it. The integers of the code are integers here, with `long` and `unsigned` where the
code converts or may overflow.
-/

set_option autoImplicit false

namespace EasyKernels.Linux.FileOffsets

open Function Lib.Runs

inductive Panic
  | blockNegative
  | blockBig
  deriving DecidableEq, Repr

def unsigned (x : ℤ) : ℕ := (x % 2 ^ 32).toNat

/-- The blocks that `_bmap` accepts. -/
def maxBlocks : ℕ := 7 + 512 + 512 * 512

/-- The loop of `file_read` or, with `write`, of `file_write`, with what it leaves as the offset and
the size. The fuel is the number of bytes left. -/
def transfer (ok : ℕ → Bool) (write : Bool) : ℕ → ℤ → ℤ → ℕ → Except Panic (ℤ × ℕ)
  | 0, pos, _, size => .ok (pos, size)
  | fuel + 1, pos, left, size =>
    if left ≤ 0 then .ok (pos, size)
    else if pos.tdiv 1024 < 0 then .error .blockNegative
    else if maxBlocks ≤ pos.tdiv 1024 then .error .blockBig
    else if ok (pos.tdiv 1024).toNat = false then .ok (pos, size)
    else
      let chars := min (1024 - pos.tmod 1024) left
      transfer ok write fuel (long (pos + chars)) (left - chars)
        (if write ∧ size < unsigned (long (pos + chars)) then unsigned (long (pos + chars))
        else size)

structure File (I : Type) where
  inode : I
  pos : ℤ
  append : Bool

structure State (F I : Type) where
  file : F → File I
  size : I → ℕ

/-- The offset that `sys_lseek` sets, unless it fails. -/
def sysLseek (pos : ℤ) (size : ℕ) (offset origin : ℤ) : Option ℤ :=
  if origin = 0 then if offset < 0 then none else some offset
  else if origin = 1 then if long (pos + offset) < 0 then none else some (long (pos + offset))
  else if origin = 2 then if long (size + offset) < 0 then none else some (long (size + offset))
  else none

inductive Event (F : Type)
  | lseek (f : F) (offset origin : Int32)
  | read (f : F) (count : Int32) (ok : ℕ → Bool)
  | write (f : F) (count : Int32) (ok : ℕ → Bool)

section

variable {F I : Type} (s : State F I) (f : F)

/-- The size of the file. -/
def State.iSize : ℕ := s.size (s.file f).inode

/-- `pos` at the start of `file_write`. -/
def State.start : ℤ := if (s.file f).append then long (s.iSize f) else (s.file f).pos

/-- The bytes for which `sys_read` asks `file_read`. -/
def State.want (count : ℤ) : ℤ :=
  if s.iSize f < unsigned (count + (s.file f).pos) then long (s.iSize f - (s.file f).pos) else count

variable [DecidableEq F] [DecidableEq I]

def State.setPos (pos : ℤ) : State F I :=
  { s with file := update s.file f { s.file f with pos := pos } }

def State.sysRead (count : ℤ) (ok : ℕ → Bool) : Outcome Panic (State F I) :=
  if count ≤ 0 ∨ s.want f count ≤ 0 then .next s
  else
    .ofExcept ((transfer ok false (s.want f count).toNat (s.file f).pos (s.want f count)
      (s.iSize f)).map fun r ↦ s.setPos f r.1)

def State.sysWrite (count : ℤ) (ok : ℕ → Bool) : Outcome Panic (State F I) :=
  if count ≤ 0 then .next s
  else
    .ofExcept ((transfer ok true count.toNat (s.start f) count (s.iSize f)).map fun r ↦
      { (if (s.file f).append then s else s.setPos f r.1) with
        size := update s.size (s.file f).inode r.2 })

def step (s : State F I) : Event F → Outcome Panic (State F I)
  | .lseek f offset origin =>
    match sysLseek (s.file f).pos (s.iSize f) offset.toInt origin.toInt with
    | some pos => .next (s.setPos f pos)
    | none => .next s
  | .read f count ok => s.sysRead f count.toInt ok
  | .write f count ok => s.sysWrite f count.toInt ok

end

/-! ### The loop -/

/-- The loop finds all blocks up to the end of the largest file and has bytes left. -/
def Over (ok : ℕ → Bool) (pos left : ℤ) : Prop :=
  0 < left ∧ 1024 * maxBlocks < pos + left ∧ ∀ b < maxBlocks, pos / 1024 ≤ b → ok b = true

theorem maxBlocks_eq : maxBlocks = 262663 := rfl

theorem long_lt (x : ℤ) : long x < 2 ^ 31 := Int.bmod_lt (by decide)

theorem unsigned_eq {x : ℤ} (hlow : 0 ≤ x) (hhigh : x < 2 ^ 32) : unsigned x = x := by
  rw [unsigned, Int.emod_eq_of_lt hlow hhigh, Int.toNat_of_nonneg hlow]

/-- The loop panics exactly when it passes the end of the largest file, and otherwise leaves an
offset and a size that are as before or within that file. -/
theorem transfer_ends (ok : ℕ → Bool) (write : Bool) (fuel : ℕ) (pos left : ℤ) (size : ℕ)
    (hlow : 0 ≤ pos) (hfuel : left ≤ fuel) :
    (Over ok pos left ∧ transfer ok write fuel pos left size = .error .blockBig) ∨
      ¬ Over ok pos left ∧ ∃ r, transfer ok write fuel pos left size = .ok r ∧ 0 ≤ r.1 ∧
        (r.1 = pos ∨ r.1 ≤ 1024 * maxBlocks) ∧ (r.2 = size ∨ r.2 ≤ 1024 * maxBlocks) := by
  induction fuel generalizing pos left size with
  | zero => exact .inr ⟨fun hover ↦ absurd hover.1 (by omega), _, rfl, hlow, .inl rfl, .inl rfl⟩
  | succ fuel ih =>
    have hmax := maxBlocks_eq
    rw [transfer, Int.tdiv_eq_ediv_of_nonneg hlow, Int.tmod_eq_emod_of_nonneg hlow]
    by_cases hleft : left ≤ 0
    · rw [if_pos hleft]
      exact .inr ⟨fun hover ↦ absurd hover.1 (by omega), _, rfl, hlow, .inl rfl, .inl rfl⟩
    rw [if_neg hleft, if_neg (by omega)]
    by_cases hbig : maxBlocks ≤ pos / 1024
    · rw [if_pos hbig]
      exact .inl ⟨⟨by omega, by omega, fun b hlt hb ↦ by omega⟩, rfl⟩
    rw [if_neg hbig]
    by_cases hok : ok (pos / 1024).toNat = false
    · rw [if_pos hok]
      refine .inr ⟨fun hover ↦ ?_, _, rfl, hlow, .inl rfl, .inl rfl⟩
      rw [hover.2.2 (pos / 1024).toNat (by omega) (by omega)] at hok
      cases hok
    rw [if_neg hok]
    generalize hchars : min (1024 - pos % 1024) left = chars
    have hpos : long (pos + chars) = pos + chars := long_eq (by omega) (by omega)
    have hend : unsigned (pos + chars) = pos + chars := unsigned_eq (by omega) (by omega)
    have hover : Over ok (pos + chars) (left - chars) ↔ Over ok pos left := by
      refine ⟨fun ⟨h, h', hall⟩ ↦ ⟨by omega, by omega, fun b hlt hb ↦ ?_⟩,
        fun ⟨h, h', hall⟩ ↦ ⟨by omega, by omega, fun b hlt hb ↦ hall b hlt (by omega)⟩⟩
      by_cases hfirst : (b : ℤ) = pos / 1024
      · simpa [← hfirst] using hok
      · exact hall b hlt (by omega)
    simp only [hpos]
    rw [← hover]
    refine (ih _ _ _ (by omega) (by omega)).imp_right
      fun ⟨hnot, r, hr, hnonneg, hlast, hsize⟩ ↦ ⟨hnot, r, hr, hnonneg, by omega, ?_⟩
    split_ifs at hsize <;> omega

/-! ### Runs -/

section

variable {F I : Type} {s : State F I} {f : F}

/-- The offsets are those of a `long`, and no file is larger than the largest. -/
structure Sane (s : State F I) : Prop where
  pos : ∀ f, 0 ≤ (s.file f).pos ∧ (s.file f).pos < 2 ^ 31
  size : ∀ i, s.size i ≤ 1024 * maxBlocks

/-- A write does not pass the end of the largest file. -/
def Below (s : State F I) : Event F → Prop
  | .write f count ok => ¬ Over ok (s.start f) count.toInt
  | _ => True

open State

theorem Sane.start (h : Sane s) (f : F) : 0 ≤ s.start f ∧ s.start f < 2 ^ 31 := by
  have hsize : s.iSize f ≤ _ := h.size _
  have hmax := maxBlocks_eq
  rw [State.start]
  split_ifs
  · rw [long_eq (by omega) (by omega)]
    omega
  · exact h.pos f

/-- `sys_read` stops at the end of the file. -/
theorem Sane.want_le (h : Sane s) {count : ℤ} (hcount : 0 < count) (hhigh : count < 2 ^ 31) :
    (s.file f).pos + s.want f count ≤ s.iSize f ∨ s.want f count ≤ 0 := by
  obtain ⟨hlow, hlt⟩ := h.pos f
  have hsum := unsigned_eq (x := count + (s.file f).pos) (by omega) (by omega)
  rw [want]
  split_ifs
  · rw [long_eq (by omega) (by omega)]
    omega
  · omega

theorem sysLseek_range {pos offset origin r : ℤ} {size : ℕ} (hoffset : offset < 2 ^ 31)
    (h : sysLseek pos size offset origin = some r) : 0 ≤ r ∧ r < 2 ^ 31 := by
  have hlong := long_lt
  unfold sysLseek at h
  split_ifs at h with hzero hneg hone hneg htwo hneg
  all_goals
    cases h
    exact ⟨Int.not_lt.mp hneg, by first | exact hoffset | exact hlong _⟩

variable [DecidableEq F]

theorem Sane.setPos (h : Sane s) {pos : ℤ} (hlow : 0 ≤ pos) (hhigh : pos < 2 ^ 31) :
    Sane (s.setPos f pos) := by
  refine ⟨fun g ↦ ?_, h.size⟩
  by_cases hg : g = f
  · simp only [State.setPos, hg, update_self]
    exact ⟨hlow, hhigh⟩
  · simp only [State.setPos, update_of_ne hg]
    exact h.pos g

variable [DecidableEq I]

/-- A call panics exactly when it is a write that passes the end of the largest file, and leaves
sane offsets and sizes otherwise. -/
theorem Sane.step (h : Sane s) (e : Event F) :
    (¬ Below s e ∧ FileOffsets.step s e = .fault .blockBig) ∨
      Below s e ∧ ∃ t, FileOffsets.step s e = .next t ∧ Sane t := by
  have hmax := maxBlocks_eq
  cases e with
  | lseek f offset =>
    refine .inr ⟨trivial, ?_⟩
    rw [FileOffsets.step]
    split
    · rename_i r hr
      obtain ⟨hlow, hhigh⟩ := sysLseek_range offset.toInt_lt hr
      exact ⟨_, rfl, h.setPos hlow hhigh⟩
    · exact ⟨s, rfl, h⟩
  | read f count ok =>
    refine .inr ⟨trivial, ?_⟩
    rw [FileOffsets.step, sysRead]
    split_ifs with hnone
    · exact ⟨s, rfl, h⟩
    · rw [not_or] at hnone
      have hsize : s.iSize f ≤ _ := h.size _
      have hwant := h.want_le (f := f) (Int.not_le.mp hnone.1) count.toInt_lt
      rcases transfer_ends ok false (s.want f count.toInt).toNat (s.file f).pos
        (s.want f count.toInt) (s.iSize f) (h.pos f).1 (by omega) with
        ⟨hover, -⟩ | ⟨-, r, hr, hlow, hpos, -⟩
      · exact absurd hover.2.1 (by omega)
      · rw [hr]
        exact ⟨_, rfl, h.setPos hlow (by omega)⟩
  | write f count ok =>
    rw [FileOffsets.step, sysWrite, Below]
    by_cases hnone : count.toInt ≤ 0
    · rw [if_pos hnone]
      exact .inr ⟨fun hover ↦ absurd hover.1 (by omega), s, rfl, h⟩
    · rw [if_neg hnone]
      obtain ⟨hlow, hhigh⟩ := h.start f
      rcases transfer_ends ok true count.toInt.toNat (s.start f) count.toInt (s.iSize f) hlow
        (by omega) with ⟨hover, hr⟩ | ⟨hnot, r, hr, hlow', hpos, hsize⟩
      · rw [hr]
        exact .inl ⟨not_not_intro hover, rfl⟩
      · rw [hr]
        refine .inr ⟨hnot, _, rfl, fun g ↦ ?_, fun i ↦ ?_⟩
        · split_ifs
          · exact h.pos g
          · exact (h.setPos hlow' (by omega)).pos g
        · simp only [update_apply]
          split_ifs
          · exact hsize.elim (fun heq ↦ heq ▸ h.size _) id
          · exact h.size i

/-- A run has no panic exactly when no write passes the end of the largest file, and the panic for a
negative block is not reached in any run. -/
theorem bmapPanics_iff (h : Sane s) (es : List (Event F)) :
    (Meets step (fun s e ↦ ∀ p, step s e ≠ .fault p) s es ↔ Meets step Below s es) ∧
      Meets step (fun s e ↦ step s e ≠ .fault .blockNegative) s es := by
  have hstep : ∀ {es t}, run step s es = some t → ∀ e, (¬ Below t e ∧ step t e = .fault .blockBig) ∨
      Below t e ∧ ∃ u, step t e = .next u ∧ Sane u := by
    intro es t hrun
    refine Sane.step (run_invariant h (fun u e v hu hv ↦ ?_) hrun)
    rcases hu.step e with ⟨-, hfault⟩ | ⟨-, w, hnext, hw⟩
    · cases hfault.symm.trans hv
    · cases hnext.symm.trans hv
      exact hw
  refine ⟨forall₄_congr fun before e after u ↦ forall₂_congr fun _ hu ↦ ?_, fun _ e _ u _ hu ↦ ?_⟩
  · rcases hstep hu e with ⟨hnot, hfault⟩ | ⟨hbelow, w, hnext, -⟩
    · exact iff_of_false (fun hall ↦ hall _ hfault) hnot
    · exact iff_of_true (fun p hp ↦ by cases hnext.symm.trans hp) hbelow
  · rcases hstep hu e with ⟨-, hfault⟩ | ⟨-, w, hnext, -⟩
    · simp [hfault]
    · simp [hnext]

end

/-- One empty file. -/
def emptyFile : State Unit Unit where
  file _ := ⟨(), 0, false⟩
  size _ := 0

/-- The same file, open twice, once to append. -/
def openedTwice : State Bool Unit where
  file f := ⟨(), 0, f⟩
  size _ := 0

/-- Both are used: bytes are written, also beyond the end and with a block that is not there; the
last write appends up to the end of the largest file. -/
def seeks : List (Event Bool) :=
  [.write false 5000 fun _ ↦ true, .lseek true 4000 0, .read true 2000 fun _ ↦ true,
    .lseek false 268960000 0, .write false 3000 (· ≠ 262657), .write true 100 fun _ ↦ true,
    .lseek false (-10) 2, .read false 20 fun _ ↦ true, .write true 6044 fun _ ↦ true]

/-- The bytes of a write end within the largest file. -/
def fits (s : State Bool Unit) : Event Bool → Bool
  | .write f count _ => s.start f + count.toInt ≤ 1024 * maxBlocks
  | _ => true

theorem below_of_fits {s : State Bool Unit} {e : Event Bool} (h : fits s e) : Below s e := by
  cases e with
  | write => exact fun hover ↦ absurd hover.2.1 (Int.not_lt.mpr (of_decide_eq_true h))
  | _ => trivial

theorem bmapPanics_iff_seeks :
    Meets step (fun s e ↦ ∀ p, step s e ≠ .fault p) openedTwice seeks := by
  have hfits : Meets step (fun s e ↦ fits s e = true) openedTwice seeks := by decide +kernel
  exact (bmapPanics_iff ⟨by decide, fun () ↦ by decide⟩ seeks).1.mpr
    fun before e after u heq hu ↦ below_of_fits (hfits before e after u heq hu)

/-- A seek to the end of the largest file, and one byte. -/
theorem seekThenWrite : ∃ s, run step emptyFile [.lseek () 268966912 0] = some s ∧
    step s (.write () 1 fun _ ↦ true) = .fault .blockBig := by
  decide +kernel

end EasyKernels.Linux.FileOffsets
