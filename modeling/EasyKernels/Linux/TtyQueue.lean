import Mathlib.Data.List.Basic

/-!
# The queues of a tty

`struct tty_queue` and the macros of `tty.h`. The indices are kept below `TTY_BUF_SIZE`, which is
2¹⁰, so they are words of ten bits. One of the 1024 cells stays unused: a queue with equal indices
is empty.

`items` lists the bytes of a queue. `PUTCH` adds a byte at the end (`items_putch`) unless the queue
is full, in which case it leaves an empty queue; `GETCH` takes the first byte, and `DEC` of the head
takes the last one back.
-/

set_option autoImplicit false

namespace EasyKernels.Linux.Tty

open List

/-- `struct tty_queue`. -/
structure Queue where
  data : UInt32
  head : BitVec 10
  tail : BitVec 10
  buf : BitVec 10 → UInt8

namespace Queue

variable (q : Queue)

/-- `EMPTY`. -/
def empty : Prop := q.head = q.tail

/-- `LEFT`. -/
def left : ℕ := (q.tail - q.head - 1).toNat

/-- `FULL`. -/
def full : Prop := q.left = 0

/-- `CHARS`. -/
def chars : ℕ := (q.head - q.tail).toNat

/-- `LAST`. -/
def last : UInt8 := q.buf (q.head - 1)

instance : Decidable q.empty := inferInstanceAs (Decidable (_ = _))

instance : Decidable q.full := inferInstanceAs (Decidable (_ = _))

/-- `GETCH`. -/
def getch : UInt8 × Queue := (q.buf q.tail, { q with tail := q.tail + 1 })

/-- `PUTCH`. -/
def putch (c : UInt8) : Queue :=
  { q with buf := Function.update q.buf q.head c, head := q.head + 1 }

/-- `DEC` of the head. -/
def dec : Queue := { q with head := q.head - 1 }

/-- The bytes of the queue, the first one first. -/
def items : List UInt8 := (List.range q.chars).map fun i ↦ q.buf (q.tail + BitVec.ofNat 10 i)

/-! ### The number of bytes -/

theorem length_items : q.items.length = q.chars := by
  rw [items, length_map, length_range]

theorem chars_lt : q.chars < 1024 := (q.head - q.tail).isLt

theorem empty_iff : q.empty ↔ q.items = [] := by
  rw [← length_eq_zero_iff, length_items, empty, chars]
  bv_omega

theorem left_eq : q.left = 1023 - q.chars := by
  rw [left, chars]
  bv_omega

theorem full_iff : q.full ↔ q.items.length = 1023 := by
  have hlt := q.chars_lt
  rw [full, left_eq, length_items]
  omega

/-! ### The macros -/

variable {q}

theorem chars_putch (hroom : ¬ q.full) (c : UInt8) : (q.putch c).chars = q.chars + 1 := by
  rw [full, left_eq] at hroom
  have hchars : q.chars = (q.head - q.tail).toNat := rfl
  show (q.head + 1 - q.tail).toNat = _
  bv_omega

open Function

/-- A byte is put behind the others. -/
theorem items_putch (hroom : ¬ q.full) (c : UInt8) : (q.putch c).items = q.items ++ [c] := by
  have hhead : q.tail + BitVec.ofNat 10 q.chars = q.head := by
    rw [chars]
    bv_omega
  rw [items, chars_putch hroom, range_succ, map_append, items]
  congr 1
  · refine map_congr_left fun i hi ↦ update_of_ne ?_ _ _
    rw [mem_range] at hi
    have hlt := q.chars_lt
    show q.tail + BitVec.ofNat 10 i ≠ _
    bv_omega
  · show [update q.buf q.head c (q.tail + BitVec.ofNat 10 q.chars)] = [c]
    rw [hhead, update_self]

theorem items_getch {c : UInt8} {rest : List UInt8} (h : q.items = c :: rest) :
    q.getch.1 = c ∧ q.getch.2.items = rest := by
  have hlen := q.length_items
  rw [h, length_cons] at hlen
  have hchars : q.getch.2.chars = rest.length := by
    have hq : q.chars = (q.head - q.tail).toNat := rfl
    show (q.head - (q.tail + 1)).toNat = _
    bv_omega
  rw [items, ← hlen, range_succ_eq_map, map_cons, map_map, cons.injEq] at h
  obtain ⟨hfirst, hrest⟩ := h
  constructor
  · rw [← hfirst]
    show q.buf q.tail = _
    rw [BitVec.add_zero]
  · rw [← hrest, items, hchars]
    refine map_congr_left fun i _ ↦ ?_
    show q.buf (q.tail + 1 + BitVec.ofNat 10 i) = q.buf (q.tail + BitVec.ofNat 10 (i + 1))
    congr 1
    bv_omega

theorem items_dec {c : UInt8} {rest : List UInt8} (h : q.items = rest ++ [c]) :
    q.last = c ∧ q.dec.items = rest := by
  have hlen := q.length_items
  rw [h, length_append, length_singleton] at hlen
  have hq : q.chars = (q.head - q.tail).toNat := rfl
  have hchars : q.dec.chars = rest.length := by
    show (q.head - 1 - q.tail).toNat = _
    bv_omega
  rw [items, ← hlen, range_succ, map_append] at h
  obtain ⟨hrest, hlast⟩ := append_inj' h rfl
  constructor
  · rw [map_singleton, singleton_inj] at hlast
    rw [← hlast, last]
    congr 1
    bv_omega
  · rw [items, hchars]
    exact hrest

end Queue

end EasyKernels.Linux.Tty
