import Mathlib.Algebra.Group.Nat.Defs
import Mathlib.Tactic.SplitIfs

/-!
# Effective addresses in the emulation of the coprocessor

`ea` reads the bytes after a ModRM byte from the segment of the process, adds up the address of the
operand and notes it in `I387.foo`. `Form` is an encoding as the i386 defines it: an optional base
register, an optional index register with a scale, and a displacement of zero, one or four bytes.
`ea_form` says that the address and the new `EIP` are the ones of the form, for all bytes and
registers. What is noted is the address in the forms with a SIB byte or without a register; in the
others it is the displacement only.

Scope. The registers are numbered as in the encoding, which is the order of `__regoffset`.
-/

set_option autoImplicit false

namespace EasyKernels.Linux.Math

/-- The registers of the process, and the operand that `I387` notes. -/
structure Info where
  reg : ℕ → UInt32
  eip : UInt32
  foo : UInt32
  fos : UInt32

variable (fs : UInt32 → UInt8) (info : Info)

/-- A `signed char` read from the process. -/
def getSignedByte (a : UInt32) : UInt32 := (fs a).toInt8.toInt32.toUInt32

def getFsLong (a : UInt32) : UInt32 :=
  (fs a).toUInt32 ||| (fs (a + 1)).toUInt32 <<< 8 ||| (fs (a + 2)).toUInt32 <<< 16 |||
    (fs (a + 3)).toUInt32 <<< 24

/-- The operand is noted, with the user's data segment. -/
def Info.note (offset eip : UInt32) : Info := { info with eip := eip, foo := offset, fos := 0x17 }

def sib (mod : ℕ) : UInt32 × Info :=
  let byte := (fs info.eip).toNat
  let ss := byte / 2 ^ 6
  let index := byte / 2 ^ 3 % 2 ^ 3
  let base := byte % 2 ^ 3
  let eip := info.eip + 1
  let offset := (if index = 4 then 0 else info.reg index) <<< UInt32.ofNat ss
  let offset := if mod ≠ 0 ∨ base ≠ 5 then offset + info.reg base else offset
  if mod = 1 then
    (offset + getSignedByte fs eip, info.note (offset + getSignedByte fs eip) (eip + 1))
  else if mod = 2 ∨ base = 5 then
    (offset + getFsLong fs eip, info.note (offset + getFsLong fs eip) (eip + 4))
  else (offset, info.note offset eip)

/-- `ea`, which aborts for `mod == 3`. -/
def ea (code : ℕ) : Option (UInt32 × Info) :=
  let mod := code / 2 ^ 6 % 2 ^ 2
  let rm := code % 2 ^ 3
  if rm = 4 ∧ mod ≠ 3 then some (sib fs info mod)
  else if rm = 5 ∧ mod = 0 then
    some (getFsLong fs info.eip, info.note (getFsLong fs info.eip) (info.eip + 4))
  else
    match mod with
    | 0 => some (0 + info.reg rm, info.note 0 info.eip)
    | 1 => some (getSignedByte fs info.eip + info.reg rm,
        info.note (getSignedByte fs info.eip) (info.eip + 1))
    | 2 => some (getFsLong fs info.eip + info.reg rm,
        info.note (getFsLong fs info.eip) (info.eip + 4))
    | _ => none

/-! ### The encodings of the i386 -/

/-- An encoding of an operand in memory. -/
structure Form where
  /-- The number of bytes before the displacement. -/
  sib : ℕ
  base : Option ℕ
  /-- The index register and the logarithm of its scale. -/
  index : Option (ℕ × ℕ)
  /-- The number of bytes of the displacement. -/
  disp : ℕ

/-- Register 5 as the base, with `mod` 0, stands for no base and four bytes of displacement. -/
def Form.of (sib mod base : ℕ) (index : Option (ℕ × ℕ)) : Form where
  sib := sib
  base := if base = 5 ∧ mod = 0 then none else some base
  index := index
  disp := if mod = 1 then 1 else if mod = 2 ∨ base = 5 ∧ mod = 0 then 4 else 0

/-- The form of a ModRM byte, with the byte that follows it. -/
def Form.decode (modrm byte : ℕ) : Form :=
  let mod := modrm / 2 ^ 6 % 2 ^ 2
  if modrm % 2 ^ 3 = 4 then
    .of 1 mod (byte % 2 ^ 3)
      (if byte / 2 ^ 3 % 2 ^ 3 = 4 then none else some (byte / 2 ^ 3 % 2 ^ 3, byte / 2 ^ 6))
  else .of 0 mod (modrm % 2 ^ 3) none

def Form.displacement (form : Form) (a : UInt32) : UInt32 :=
  match form.disp with
  | 0 => 0
  | 1 => getSignedByte fs a
  | _ => getFsLong fs a

variable (form : Form)

def Form.address : UInt32 :=
  (form.index.elim 0 fun x ↦ info.reg x.1 <<< UInt32.ofNat x.2) + form.base.elim 0 info.reg +
    form.displacement fs (info.eip + UInt32.ofNat form.sib)

/-- `EIP` after the bytes of the form. -/
def Form.next : UInt32 := info.eip + UInt32.ofNat form.sib + UInt32.ofNat form.disp

variable {fs info form} {mod : ℕ}

theorem sib_form (hmod : mod = 0 ∨ mod = 1 ∨ mod = 2)
    (hform : form = .of 1 mod ((fs info.eip).toNat % 2 ^ 3)
      (if (fs info.eip).toNat / 2 ^ 3 % 2 ^ 3 = 4 then none
        else some ((fs info.eip).toNat / 2 ^ 3 % 2 ^ 3, (fs info.eip).toNat / 2 ^ 6))) :
    sib fs info mod =
      (form.address fs info, info.note (form.address fs info) (form.next info)) := by
  rw [hform]
  unfold sib Form.address Form.next Form.of Form.displacement
  dsimp only
  generalize (fs info.eip).toNat / 2 ^ 6 = ss
  generalize (fs info.eip).toNat / 2 ^ 3 % 2 ^ 3 = index
  generalize (fs info.eip).toNat % 2 ^ 3 = base
  rcases hmod with rfl | rfl | rfl <;> by_cases hbase : base = 5 <;> by_cases hindex : index = 4 <;>
    simp [hbase, hindex]

/-- The address and the length of every operand in memory are the ones of its form. The address is
noted exactly if the form has a SIB byte or no register, or the register is 0. -/
theorem ea_form (code : ℕ) (hmod : code / 2 ^ 6 % 2 ^ 2 ≠ 3)
    (hform : form = .decode code (fs info.eip).toNat) :
    ∃ noted, ea fs info code = some (form.address fs info, info.note noted (form.next info)) ∧
      (noted = form.address fs info ↔ code % 2 ^ 3 = 4 ∨
        code % 2 ^ 3 = 5 ∧ code / 2 ^ 6 % 2 ^ 2 = 0 ∨ info.reg (code % 2 ^ 3) = 0) := by
  have hmods : code / 2 ^ 6 % 2 ^ 2 = 0 ∨ code / 2 ^ 6 % 2 ^ 2 = 1 ∨ code / 2 ^ 6 % 2 ^ 2 = 2 := by
    omega
  unfold ea
  unfold Form.decode at hform
  dsimp only at hform ⊢
  generalize code / 2 ^ 6 % 2 ^ 2 = mod at *
  generalize code % 2 ^ 3 = rm at *
  by_cases hrm : rm = 4
  · rw [if_pos hrm] at hform
    rw [if_pos ⟨hrm, hmod⟩, sib_form hmods hform]
    exact ⟨_, rfl, iff_of_true rfl (.inl hrm)⟩
  · rw [if_neg hrm] at hform
    rw [if_neg fun h ↦ hrm h.1, hform]
    simp only [Form.address, Form.next, Form.of, Form.displacement, hrm, false_or]
    by_cases hbase : rm = 5 ∧ mod = 0
    · exact ⟨getFsLong fs info.eip, by simp [hbase], by simp [hbase]⟩
    · simp only [hbase, if_false, or_false, false_or, Option.elim]
      rcases hmods with rfl | rfl | rfl
      · exact ⟨0, by simp, by simp [eq_comm]⟩
      · refine ⟨getSignedByte fs info.eip, by simp [UInt32.add_comm], ?_⟩
        simp [eq_comm, UInt32.add_comm]
      · refine ⟨getFsLong fs info.eip, by simp [UInt32.add_comm], ?_⟩
        simp [eq_comm, UInt32.add_comm]

/-- Register `n` is `0x1000 * n`; at `EIP` are a SIB byte, for `EBX + 4 * ECX`, and bytes of -4. -/
def indexed : Info := ⟨fun n ↦ .ofNat (0x1000 * n), 0x10, 0, 0⟩

def indexedBytes (a : UInt32) : UInt8 := if a = 0x10 then 0x8B else 0xFC

/-- The address of `-4(EBX, ECX, 4)`, which is noted. -/
theorem ea_form_indexed : ea indexedBytes indexed 0x44 =
    some (0x6FFC, indexed.note 0x6FFC 0x12) := by
  obtain ⟨noted, hea, hnoted⟩ := @ea_form indexedBytes indexed _ 0x44 (by decide) rfl
  rw [hea, hnoted.mpr (.inl rfl)]
  rfl

/-- An operand 8 bytes after `EBX`: 8 is noted for the address `0x1008`. -/
theorem ea_notes_displacement : ((ea (fun _ ↦ 8) ⟨fun _ ↦ 0x1000, 0, 0, 0⟩ 0x43).map fun r ↦
    (r.1, r.2.foo)) = some (0x1008, 8) := by
  decide

end EasyKernels.Linux.Math
