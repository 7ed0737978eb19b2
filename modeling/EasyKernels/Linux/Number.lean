import Mathlib.Data.Nat.Digits.Defs

/-!
# The numbers that `vsprintf` writes

`number` converts a 32-bit number by repeated division, takes the sign, the prefix and the digits
off the size of the field, and writes padding, sign, prefix and digits in loops that count the rest
of the size down. `layout` says what the flags demand: padding on the right for `LEFT`, zeros behind
the sign and the prefix for `ZEROPAD`, and padding on the left otherwise. `number_layout` says that
this is what is written, for all numbers, flags, sizes and precisions. It has the width that the
size demands, and the digits stand for the number, or for its absolute value behind a sign.

Scope. `size` and `precision` are integers, and so is what is left of the size; the code computes
the same as long as that fits into an `int`.
-/

set_option autoImplicit false

namespace EasyKernels.Linux.Vsprintf

/-- The bits of the argument `type`. -/
structure Flags where
  zeropad : Bool := false
  sign : Bool := false
  plus : Bool := false
  space : Bool := false
  left : Bool := false
  special : Bool := false
  small : Bool := false

def digits (small : Bool) : List Char :=
  if small then "0123456789abcdefghijklmnopqrstuvwxyz".toList
  else "0123456789ABCDEFGHIJKLMNOPQRSTUVWXYZ".toList

/-- `while (num != 0) tmp[i++] = digits[do_div(num,base)]`, with room for 36 characters. -/
def convert (base : ℕ) : ℕ → ℕ → List ℕ
  | 0, _ => []
  | room + 1, num => if num = 0 then [] else num % base :: convert base room (num / base)

/-- `tmp`, from the least significant digit on. -/
def converted (base : ℕ) (small : Bool) (n : ℕ) : List Char :=
  (if n = 0 then [0] else convert base 36 n).map fun d ↦ (digits small).getD d ' '

/-- `while (size-- > 0) *str++ = c`, and `size` after it. -/
def pad (c : Char) (size : ℤ) : List Char × ℤ := (List.replicate size.toNat c, min size 0 - 1)

/-- The sign that is written. -/
def signOf (num : UInt32) (type : Flags) : List Char :=
  if type.sign ∧ 2 ^ 31 ≤ num.toNat then ['-']
  else if type.plus then ['+'] else if type.space then [' '] else []

/-- `num` after `num = -num`. -/
def magnitude (num : UInt32) (type : Flags) : UInt32 :=
  if type.sign ∧ 2 ^ 31 ≤ num.toNat then -num else num

def tagOf (base : ℕ) (type : Flags) : List Char :=
  if type.special then
    if base = 8 then ['0'] else if base = 16 then ['0', (digits type.small).getD 33 ' '] else []
  else []

/-- The second half of `number`: the head is the sign and the prefix, and `size` what is left. -/
def write (type : Flags) (size : ℤ) (head body : List Char) : List Char :=
  let zeropad := type.zeropad && !type.left
  let front := if !(zeropad || type.left) then pad ' ' size else ([], size)
  let middle := if !type.left then pad (if zeropad then '0' else ' ') front.2 else ([], front.2)
  front.1 ++ head ++ middle.1 ++ body ++ (pad ' ' middle.2).1

/-- The characters that `number` writes. -/
def number (num : UInt32) (base : ℕ) (size precision : ℤ) (type : Flags) : Option (List Char) :=
  if base < 2 ∨ 36 < base then none
  else
    let sign := signOf num type
    let tag := tagOf base type
    let tmp := converted base type.small (magnitude num type).toNat
    some (write type (size - sign.length - tag.length - max (tmp.length : ℤ) precision)
      (sign ++ tag) (List.replicate (precision - tmp.length).toNat '0' ++ tmp.reverse))

/-! ### What is written -/

/-- The value of the argument, which is signed for `SIGN`. -/
def value (num : UInt32) (type : Flags) : ℤ :=
  if type.sign then num.toInt32.toInt else num.toNat

/-- What the flags demand in front of a value. -/
def signFor (value : ℤ) (type : Flags) : List Char :=
  match decide (value < 0), type.plus, type.space with
  | true, _, _ => ['-']
  | false, true, _ => ['+']
  | false, false, true => [' ']
  | false, false, false => []

/-- What the flags demand in front of the digits of a base. -/
def tagFor (base : ℕ) (type : Flags) : List Char :=
  match type.special, base, type.small with
  | true, 8, _ => ['0']
  | true, 16, true => ['0', 'x']
  | true, 16, false => ['0', 'X']
  | _, _, _ => []

/-- The number that a row of digits stands for. -/
def parse (base : ℕ) (small : Bool) (ds : List Char) : ℕ :=
  ds.foldl (fun n c ↦ n * base + (digits small).idxOf c) 0

/-- A head and a body, padded to a width as the flags demand. -/
def layout (type : Flags) (width : ℤ) (head body : List Char) : List Char :=
  let room := (width - (head.length + body.length)).toNat
  if type.left then head ++ body ++ List.replicate room ' '
  else if type.zeropad then head ++ List.replicate room '0' ++ body
  else List.replicate room ' ' ++ head ++ body

theorem convert_eq {base room num : ℕ} (hbase : 1 < base) (hnum : num < base ^ room) :
    convert base room num = Nat.digits base num := by
  induction room generalizing num with
  | zero =>
    rw [Nat.pow_zero, Nat.lt_one_iff] at hnum
    rw [hnum, Nat.digits_zero, convert]
  | succ room ih =>
    rw [convert]
    split_ifs with hzero
    · rw [hzero, Nat.digits_zero]
    · rw [Nat.digits_def' hbase (Nat.pos_of_ne_zero hzero), ih]
      exact Nat.div_lt_of_lt_mul (by rwa [← Nat.pow_succ'])

theorem converted_eq {base n : ℕ} (small : Bool) (hbase : base = 8 ∨ base = 10 ∨ base = 16)
    (hn : n < 2 ^ 32) : converted base small n =
      (if n = 0 then [0] else Nat.digits base n).map fun d ↦ (digits small).getD d ' ' := by
  have hlt : 2 ^ 32 ≤ base ^ 36 := by rcases hbase with rfl | rfl | rfl <;> decide
  rw [converted, convert_eq (by omega) (by omega)]

theorem parse_reverse {base : ℕ} {small : Bool} {l : List ℕ} (hl : ∀ d ∈ l, d < 36) :
    parse base small (l.map fun d ↦ (digits small).getD d ' ').reverse = Nat.ofDigits base l := by
  have hindex : ∀ small, ∀ d < 36, (digits small).idxOf ((digits small).getD d ' ') = d := by
    decide
  rw [parse, List.foldl_reverse, List.foldr_map]
  induction l with
  | nil => rfl
  | cons d l ih =>
    rw [List.forall_mem_cons] at hl
    rw [List.foldr_cons, ih hl.2, hindex small d hl.1, Nat.ofDigits_cons, Nat.mul_comm,
      Nat.add_comm]

theorem value_eq (num : UInt32) (type : Flags) : value num type =
    if type.sign ∧ 2 ^ 31 ≤ num.toNat then (num.toNat - 2 ^ 32 : ℤ) else (num.toNat : ℤ) := by
  have hint : num.toInt32.toInt =
      if 2 * num.toNat < 2 ^ 32 then (num.toNat : ℤ) else num.toNat - 2 ^ 32 :=
    BitVec.toInt_eq_toNat_cond num.toBitVec
  rw [value, hint]
  split_ifs <;> grind

theorem toNat_magnitude (num : UInt32) (type : Flags) :
    (magnitude num type).toNat = (value num type).natAbs := by
  have hlt := num.toNat_lt
  rw [magnitude, value_eq]
  split_ifs
  · rw [UInt32.toNat_neg, UInt32.size]
    omega
  · rfl

theorem signOf_eq (num : UInt32) (type : Flags) :
    signOf num type = signFor (value num type) type := by
  have hlt := num.toNat_lt
  have hneg : value num type < 0 ↔ type.sign ∧ 2 ^ 31 ≤ num.toNat := by
    rw [value_eq]
    split_ifs with h
    · exact iff_of_true (by omega) h
    · exact iff_of_false (by omega) h
  simp only [signOf, signFor, ← hneg]
  cases type.plus <;> cases type.space <;> by_cases h : value num type < 0 <;> simp [h]

theorem tagOf_eq {base : ℕ} (type : Flags) (hbase : base = 8 ∨ base = 10 ∨ base = 16) :
    tagOf base type = tagFor base type := by
  rcases hbase with rfl | rfl | rfl <;> cases hs : type.special <;> cases hm : type.small <;>
    simp [tagOf, tagFor, hs, hm, digits]

theorem write_eq (type : Flags) {size width : ℤ} {head body : List Char}
    (hsize : size = width - (head.length + body.length)) :
    write type size head body = layout type width head body := by
  rw [write, layout, ← hsize]
  have hdone : (min size 0 - 1).toNat = 0 := by omega
  cases type.left <;> cases type.zeropad <;> simp [pad, hdone]

theorem length_layout (type : Flags) (width : ℤ) (head body : List Char) :
    ((layout type width head body).length : ℤ) = max width (head.length + body.length) := by
  unfold layout
  split_ifs <;> simp <;> omega

/-- For every number, base 8, 10 or 16, flags, size and precision, `number` writes the sign, the
prefix and the digits, padded as the flags demand to the width that the size demands. The digits
stand for the number, or for its absolute value where it is negative and `SIGN` is set. -/
theorem number_layout (num : UInt32) (base : ℕ) (size precision : ℤ) (type : Flags)
    (hbase : base = 8 ∨ base = 10 ∨ base = 16) :
    ∃ n sign tag ds out, number num base size precision type = some out ∧
      out = layout type size (sign ++ tag)
        (List.replicate (precision - ds.length).toNat '0' ++ ds) ∧
      (out.length : ℤ) = max size (sign.length + tag.length + max (ds.length : ℤ) precision) ∧
      n = value num type ∧ sign = signFor n type ∧ tag = tagFor base type ∧
      ds.length = max 1 (Nat.digits base n.natAbs).length ∧
      parse base type.small ds = n.natAbs := by
  obtain ⟨n, hn⟩ : ∃ n, n = (value num type).natAbs := ⟨_, rfl⟩
  rw [← toNat_magnitude] at hn
  have hds := converted_eq type.small hbase (hn ▸ (magnitude num type).toNat_lt)
  refine ⟨value num type, signOf num type, tagOf base type,
    (converted base type.small n).reverse, _,
    ?_, rfl, ?_, rfl, signOf_eq num type, tagOf_eq type hbase, ?_, ?_⟩
  · rw [number, if_neg (by omega), ← hn, List.length_reverse]
    refine congrArg some (write_eq type ?_)
    simp
    omega
  · rw [length_layout]
    simp
    omega
  · rw [← toNat_magnitude, ← hn, hds, List.length_reverse, List.length_map]
    split_ifs with hzero
    · simp [hzero]
    · exact (max_eq_right (List.length_pos_iff.mpr (Nat.digits_ne_nil_iff_ne_zero.mpr hzero))).symm
  · rw [← toNat_magnitude, ← hn, hds, parse_reverse]
    · split_ifs with hzero
      · rw [hzero]
        rfl
      · exact Nat.ofDigits_digits base n
    · intro d hd
      split_ifs at hd
      · rw [List.mem_singleton.mp hd]
        decide
      · have hlt := Nat.digits_lt_base (by omega) hd
        omega

/-- The most negative number, in a field of 12 characters. -/
theorem number_layout_mostNegative : ∃ n sign ds out, n = -2 ^ 31 ∧ sign = ['-'] ∧
    number 0x80000000 10 12 (-1) { sign := true } = some out ∧
    out = " -2147483648".toList ∧ parse 10 false ds = n.natAbs := by
  obtain ⟨n, sign, tag, ds, out, hout, -, -, hn, hsign, -, -, hds⟩ :=
    number_layout 0x80000000 10 12 (-1) { sign := true } (.inr (.inl rfl))
  have hnumber : number 0x80000000 10 12 (-1) { sign := true } = some " -2147483648".toList := by
    decide
  exact ⟨n, sign, ds, out, hn, hsign.trans (hn ▸ rfl), hout,
    Option.some.inj (hout.symm.trans hnumber), hds⟩

end EasyKernels.Linux.Vsprintf
