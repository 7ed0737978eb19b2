import Mathlib.Data.List.Range
import Mathlib.Tactic.Ring

/-!
# Blocks of bytes and little-endian fields

`Bytes size` is an array of `size` bytes. `get` reads one byte at a natural offset, `slice` a run of
bytes, and `put` overlays a list of bytes at an offset; offsets outside the array read as zero and
are not written. `field` reads a little-endian number of a given width and `putField` writes one.
The lemmas say what a read gives after a write: the written bytes where the two meet
(`slice_put_self`, `field_putField_self`), and the old ones where they do not
(`slice_put_of_disjoint`, `field_putField_of_disjoint`). A record is a list of fields that do not
overlap, stored by `putFields`.
-/

set_option autoImplicit false

namespace EasyKernels.Lib

open Nat List

/-- An array of `size` bytes. -/
def Bytes (size : ℕ) := Fin size → UInt8

namespace Bytes

variable {size : ℕ}

/-- The array of zero bytes. -/
def zero (size : ℕ) : Bytes size := fun _ ↦ 0

variable (b : Bytes size)

/-- The byte at an offset. -/
def get (i : ℕ) : UInt8 := if h : i < size then b ⟨i, h⟩ else 0

/-- The array with the bytes of a list from an offset on. -/
def put (off : ℕ) (bytes : List UInt8) : Bytes size :=
  fun i ↦ if off ≤ i.val then (bytes[i.val - off]?).getD (b i) else b i

/-- The `len` bytes from an offset on. -/
def slice (off len : ℕ) : List UInt8 :=
  (List.range len).map fun i ↦ b.get (off + i)

@[simp] theorem get_zero (i : ℕ) : (zero size).get i = 0 := by
  simp [get, zero]

variable {b : Bytes size} {off i start width value : ℕ} {bytes : List UInt8}

theorem get_put (hi : i < size) : (b.put off bytes).get i =
      if off ≤ i then (bytes[i - off]?).getD (b.get i) else b.get i := by
  simp [get, put, hi]

/-- A byte outside the overlaid run is kept. -/
theorem get_put_of_disjoint (h : i < off ∨ off + bytes.length ≤ i) :
    (b.put off bytes).get i = b.get i := by
  by_cases hi : i < size
  · rw [get_put hi]
    split_ifs with hle
    · rw [getElem?_eq_none (by omega), Option.getD_none]
    · rfl
  · simp [get, hi]

/-- A byte of the overlaid run is the list's. -/
theorem get_put_of_lt (hi : i < bytes.length) (hfits : off + bytes.length ≤ size) :
    (b.put off bytes).get (off + i) = bytes[i] := by
  rw [get_put (by omega), if_pos (by omega), Nat.add_sub_cancel_left, getElem?_eq_getElem hi,
    Option.getD_some]

@[simp] theorem length_slice (b : Bytes size) (off len : ℕ) : (b.slice off len).length = len := by
  simp [slice]

theorem getElem_slice (b : Bytes size) (off len i : ℕ) (h : i < (b.slice off len).length) :
    (b.slice off len)[i] = b.get (off + i) := by
  simp [slice]

theorem slice_put_self (b : Bytes size) (hfits : off + bytes.length ≤ size) :
    (b.put off bytes).slice off bytes.length = bytes := by
  refine ext_getElem (by simp) fun i hi _ ↦ ?_
  rw [getElem_slice]
  exact get_put_of_lt (by simpa using hi) hfits

theorem slice_put_of_disjoint {len : ℕ} (h : start + len ≤ off ∨ off + bytes.length ≤ start) :
    (b.put off bytes).slice start len = b.slice start len := by
  refine ext_getElem (by simp) fun i hi _ ↦ ?_
  rw [getElem_slice, getElem_slice]
  rw [length_slice] at hi
  exact get_put_of_disjoint (by omega)

/-! ### Little-endian fields -/

/-- The `width` low bytes of a number, least significant first. -/
def leBytes : ℕ → ℕ → List UInt8
  | 0, _ => []
  | width + 1, value => UInt8.ofNat value :: leBytes width (value / 256)

/-- The number a list of bytes stands for, least significant first. -/
def leValue : List UInt8 → ℕ
  | [] => 0
  | first :: rest => first.toNat + 256 * leValue rest

@[simp] theorem length_leBytes (width value : ℕ) : (leBytes width value).length = width := by
  induction width generalizing value with
  | zero => rfl
  | succ width ih => simp [leBytes, ih]

theorem leValue_leBytes (width value : ℕ) :
    leValue (leBytes width value) = value % 256 ^ width := by
  induction width generalizing value with
  | zero => simp [leBytes, leValue, mod_one]
  | succ width ih =>
    have hbyte : value % 2 ^ 8 = value % 256 := rfl
    rw [leBytes, leValue, ih, UInt8.toNat_ofNat', hbyte, pow_succ', mod_mul]

theorem leValue_lt (bytes : List UInt8) : leValue bytes < 256 ^ bytes.length := by
  induction bytes with
  | nil => simp [leValue]
  | cons first =>
    have hfirst := first.toNat_lt
    simp only [leValue, length_cons, pow_succ']
    omega

/-- The little-endian number of a width at an offset. -/
def field (b : Bytes size) (off width : ℕ) : ℕ := leValue (b.slice off width)

/-- The array with a little-endian number of a width at an offset. -/
def putField (b : Bytes size) (off width value : ℕ) : Bytes size :=
  b.put off (leBytes width value)

theorem field_zero (off width : ℕ) : (zero size).field off width = 0 := by
  have hzero : ∀ n, leValue (replicate n 0) = 0 := by
    intro n
    induction n with
    | zero => rfl
    | succ n ih => simp [replicate_succ, leValue, ih]
  simpa [field, slice, map_const'] using hzero width

theorem field_putField_self (hfits : off + width ≤ size) (hvalue : value < 256 ^ width) :
    (b.putField off width value).field off width = value := by
  have hfits' : off + (leBytes width value).length ≤ size := by simpa using hfits
  have hslice := slice_put_self b hfits'
  rw [length_leBytes] at hslice
  rw [field, putField, hslice, leValue_leBytes, mod_eq_of_lt hvalue]

theorem field_put_of_disjoint (h : start + width ≤ off ∨ off + bytes.length ≤ start) :
    (b.put off bytes).field start width = b.field start width := by
  rw [field, field, slice_put_of_disjoint h]

theorem field_putField_of_disjoint {width' : ℕ} (h : start + width ≤ off ∨ off + width' ≤ start) :
    (b.putField off width' value).field start width = b.field start width :=
  field_put_of_disjoint (by simpa using h)

/-! ### Several fields -/

/-- Stores a list of fields, each given by its offset, width and value. -/
def putFields (b : Bytes size) : List (ℕ × ℕ × ℕ) → Bytes size
  | [] => b
  | (off, width, value) :: rest => putFields (b.putField off width value) rest

variable {fields : List (ℕ × ℕ × ℕ)}

theorem field_putFields_of_disjoint (h : ∀ f ∈ fields, start + width ≤ f.1 ∨ f.1 + f.2.1 ≤ start) :
    (b.putFields fields).field start width = b.field start width := by
  induction fields generalizing b with
  | nil => rfl
  | cons f rest ih =>
    rw [putFields, ih fun g hg ↦ h g (mem_cons_of_mem f hg)]
    exact field_putField_of_disjoint (h f mem_cons_self)

/-- Reading back one of several fields. Assumes: they do not overlap. -/
theorem field_putFields_of_mem (hdisjoint : fields.Pairwise fun f g ↦ f.1 + f.2.1 ≤ g.1)
    (hmem : (off, width, value) ∈ fields) (hfits : off + width ≤ size)
    (hvalue : value < 256 ^ width) : (b.putFields fields).field off width = value := by
  induction fields generalizing b with
  | nil => simp at hmem
  | cons f rest ih =>
    obtain ⟨hfirst, hrest⟩ := pairwise_cons.mp hdisjoint
    rw [putFields]
    rcases mem_cons.mp hmem with rfl | hmem
    · rw [field_putFields_of_disjoint fun g hg ↦ Or.inl (hfirst g hg)]
      exact field_putField_self hfits hvalue
    · exact ih hrest hmem

end Bytes

end EasyKernels.Lib
