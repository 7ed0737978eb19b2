import EasyKernels.Lib.Ring
import EasyKernels.Lib.Runs

/-!
# Console input

`consoleintr` and `consoleread` of `console.c` over the ring `input`, whose three indices wrap at
2³². A call of `consoleread` takes bytes until it has to sleep or returns; between its pieces
`consoleintr` may run, on any characters.

`Terminal` says what the ring is for. It has no ring: there is the input that has been committed, of
which a part has been taken by readers, and the line that is edited. `takeLine` is what a call takes
from the input: bytes up to its size, a newline, or a `^D`, and the `^D` itself only if it is the
first. `Shows` relates the two, and `key_shows` and `proceed_simulates` say that a character and a
piece of a call keep it.

`consoleInput` is the result for whole runs, from any equal values of the indices: the distances
between the indices, what the erasing characters leave alone, and that the calls return what
`takeLine` takes from the committed input, one after another (`serve`).

Scope. One call of `consoleread` is in progress at a time, and its process is not killed. What
`consputc` shows on the screen and the listing of processes are left out.
-/

set_option autoImplicit false

namespace EasyKernels.Xv6.Console

open Nat Option List Lib.Runs Lib.Ring

/-! ### The ring and its two users -/

/-- `C(x)`. -/
def control (x : Char) : UInt8 := x.toUInt8 - '@'.toUInt8

def newline : UInt8 := '\n'.toUInt8

/-- `INPUT_BUF`. -/
def inputBuf : UInt32 := 128

/-- `input`. -/
structure Input where
  buf : ℕ → UInt8
  r : UInt32
  w : UInt32
  e : UInt32

variable (i : Input)

def Input.cell (k : UInt32) : UInt8 := i.buf (k % inputBuf).toNat

/-- The loop for `^U`, which makes `e - w` turns at most. -/
def killLoop : ℕ → Input → Input
  | 0, i => i
  | k + 1, i =>
    if i.e ≠ i.w ∧ i.cell (i.e - 1) ≠ newline then killLoop k { i with e := i.e - 1 } else i

/-- A character is put at the end of the line, and the line is committed if it ends here. -/
def Input.store (c : UInt8) : Input :=
  let i := { i with buf := Function.update i.buf (i.e % inputBuf).toNat c, e := i.e + 1 }
  if c = newline ∨ c = control 'D' ∨ i.e = i.r + inputBuf then { i with w := i.e } else i

/-- One character in `consoleintr`. -/
def Input.key (c : UInt8) : Input :=
  if c = control 'P' then i
  else if c = control 'U' then killLoop (i.e - i.w).toNat i
  else if c = control 'H' ∨ c = 0x7f then
    if i.e ≠ i.w then { i with e := i.e - 1 } else i
  else if c ≠ 0 ∧ i.e - i.r < inputBuf then
    i.store (if c = '\r'.toUInt8 then newline else c)
  else i

/-- `consoleintr` on the characters that `getc` returns. -/
def consoleintr (cs : List UInt8) : Input := cs.foldl Input.key i

/-- The loop of `consoleread` with `n` bytes to go: the bytes it copies, and how many are left to
read if it goes to sleep. -/
def readLoop (target : ℕ) : ℕ → Input → List UInt8 × Input × Option ℕ
  | 0, i => ([], i, none)
  | n + 1, i =>
    if i.r = i.w then ([], i, some (n + 1))
    else
      let c := i.cell i.r
      let i := { i with r := i.r + 1 }
      if c = control 'D' then
        if n + 1 < target then ([], { i with r := i.r - 1 }, none) else ([], i, none)
      else if c = newline then ([c], i, none)
      else
        let (bytes, i, left) := readLoop target n i
        (c :: bytes, i, left)

/-- A call of `consoleread`: its size, the bytes to go, and those that it has copied. -/
structure Call where
  target : ℕ
  n : ℕ
  got : List UInt8

structure State where
  input : Input
  call : Option Call

inductive Event
  | intr (cs : List UInt8)
  | read (n : ℤ)
  | resume

/-- A piece of a call of `consoleread`, with the bytes of the call if it returns. -/
def proceed (call : Call) : State × Option (List UInt8) :=
  match readLoop call.target call.n i with
  | (bytes, i, none) => ({ input := i, call := none }, some (call.got ++ bytes))
  | (bytes, i, some n) =>
    ({ input := i, call := some { call with n := n, got := call.got ++ bytes } }, none)

/-- A new call. For a negative `n` the loop is not entered. -/
def Call.start (n : ℤ) : Call := { target := n.toNat, n := n.toNat, got := [] }

/-- The call that an event starts or goes on with. -/
def callOf (s : State) : Event → Option Call
  | .intr _ => none
  | .read n => if s.call.isNone then some (Call.start n) else none
  | .resume => s.call

def step (s : State) : Event → Outcome Empty State
  | .intr cs => .next { s with input := consoleintr s.input cs }
  | .read n =>
    match s.call with
    | none => .next (proceed s.input (Call.start n)).1
    | some _ => .blocked
  | .resume =>
    match s.call with
    | none => .blocked
    | some call => .next (proceed s.input call).1

/-- The bytes of a call that returns. -/
def returned (s : State) (e : Event) : Option (List UInt8) :=
  (callOf s e).bind fun call ↦ (proceed s.input call).2

/-- The indices are equal, and there is no call. -/
def State.start (buf : ℕ → UInt8) (index : UInt32) : State :=
  { input := { buf := buf, r := index, w := index, e := index }, call := none }

/-! ### What a terminal is -/

/-- The committed input, of which readers have taken a part, the line that is edited, the call in
progress with the bytes it has, and the calls that have returned with their sizes. -/
structure Terminal where
  taken : List UInt8
  unread : List UInt8
  line : List UInt8
  call : Option (ℕ × List UInt8)
  results : List (ℕ × List UInt8)

variable (t : Terminal)

/-- The input that has been committed so far. -/
def Terminal.committed : List UInt8 := t.taken ++ t.unread

def Terminal.store (c : UInt8) : Terminal :=
  if c = newline ∨ c = control 'D' ∨ t.unread.length + t.line.length + 1 = 128 then
    { t with unread := t.unread ++ (t.line ++ [c]), line := [] }
  else { t with line := t.line ++ [c] }

/-- A character adds to the line, erases from it, or commits it. It is dropped when there is no
room for it. -/
def Terminal.key (c : UInt8) : Terminal :=
  if c = control 'P' then t
  else if c = control 'U' then { t with line := [] }
  else if c = control 'H' ∨ c = 0x7f then { t with line := t.line.dropLast }
  else if c ≠ 0 ∧ t.unread.length + t.line.length < 128 then
    t.store (if c = '\r'.toUInt8 then newline else c)
  else t

/-- What a call for `n` bytes takes from the input: the bytes that it returns, and the number of
bytes that are gone from the input; none if the input ends before. A `^D` ends the call, and it goes
from the input if it is the first byte. -/
def takeLine (first : Bool) : ℕ → List UInt8 → Option (List UInt8 × ℕ)
  | 0, _ => some ([], 0)
  | _ + 1, [] => none
  | n + 1, c :: rest =>
    if c = control 'D' then some ([], if first then 1 else 0)
    else if c = newline then some ([c], 1)
    else (takeLine false n rest).map fun p ↦ (c :: p.1, p.2 + 1)

/-- A call goes on: it takes what there is, and returns if that is enough. -/
def Terminal.proceed (n : ℕ) (got : List UInt8) : Terminal :=
  match takeLine got.isEmpty (n - got.length) t.unread with
  | some (bytes, k) =>
    { t with
      taken := t.taken ++ t.unread.take k
      unread := t.unread.drop k
      call := none
      results := t.results ++ [(n, got ++ bytes)] }
  | none =>
    { t with
      taken := t.taken ++ t.unread
      unread := []
      call := some (n, got ++ t.unread) }

def Terminal.step : Event → Outcome Empty Terminal
  | .intr cs => .next (cs.foldl Terminal.key t)
  | .read n =>
    match t.call with
    | none => .next (t.proceed n.toNat [])
    | some _ => .blocked
  | .resume =>
    match t.call with
    | none => .blocked
    | some (n, got) => .next (t.proceed n got)

def Terminal.start : Terminal := ⟨[], [], [], none, []⟩

/-- What calls of given sizes return, one after another, and what is left of the input. -/
def serve : List ℕ → List UInt8 → Option (List (List UInt8) × List UInt8)
  | [], input => some ([], input)
  | n :: sizes, input =>
    (takeLine true n input).bind fun p ↦
      (serve sizes (input.drop p.2)).map fun q ↦ (p.1 :: q.1, q.2)

/-! ### The ring holds the input -/

/-- The ring holds the bytes that have not been read and the line, in this order. -/
structure Shows (i : Input) (unread line : List UInt8) : Prop where
  length_le : unread.length + line.length ≤ 128
  count_w : i.w = i.r + UInt32.ofNat unread.length
  count_e : i.e = i.r + UInt32.ofNat (unread.length + line.length)
  holds : Holds 128 i.buf i.r.toNat (unread ++ line)
  plain : newline ∉ line
  committed : unread.length + line.length = 128 → line = []

variable {i : Input} {unread line : List UInt8}

open UInt32

theorem toNat_mod_inputBuf (k : UInt32) : (k % inputBuf).toNat = k.toNat % 128 := by
  rw [UInt32.toNat_mod]
  rfl

theorem dvd_two_pow : 128 ∣ 2 ^ 32 := by decide

variable {m : ℕ} {e : Event} {p : List UInt8 × ℕ}

theorem toNat_ofNat_of_le (hm : m ≤ 128) : (ofNat m).toNat = m :=
  toNat_ofNat_of_lt (lt_of_le_of_lt hm (by decide))

theorem ofNat_inj {k : ℕ} (hm : m ≤ 128) (hk : k ≤ 128) :
    UInt32.ofNat m = UInt32.ofNat k ↔ m = k := by
  rw [← UInt32.toNat_inj, toNat_ofNat_of_le hm, toNat_ofNat_of_le hk]

theorem inputBuf_eq : inputBuf = ofNat 128 := rfl

namespace Shows

section

variable (h : Shows i unread line)

include h

theorem sub_r : i.e - i.r = ofNat (unread.length + line.length) := by
  rw [h.count_e, UInt32.add_comm, UInt32.add_sub_cancel]

theorem w_sub_r : i.w - i.r = ofNat unread.length := by
  rw [h.count_w, UInt32.add_comm, UInt32.add_sub_cancel]

theorem room_iff : i.e - i.r < inputBuf ↔ unread.length + line.length < 128 := by
  rw [h.sub_r, lt_iff_toNat_lt, toNat_ofNat_of_le h.length_le]
  rfl

theorem empty_iff : i.r = i.w ↔ unread = [] := by
  have hle := h.length_le
  have hzero : i.r = i.r + UInt32.ofNat 0 := (UInt32.add_zero _).symm
  rw [h.count_w, ← length_eq_zero_iff]
  nth_rewrite 1 [hzero]
  rw [UInt32.add_right_inj, ofNat_inj (zero_le _) (by omega), eq_comm]

theorem e_eq_w_iff : i.e = i.w ↔ line = [] := by
  have hle := h.length_le
  rw [h.count_e, h.count_w, UInt32.add_right_inj, ofNat_inj hle (by omega), ← length_eq_zero_iff]
  omega

theorem e_sub_w : (i.e - i.w).toNat = line.length := by
  have hle := h.length_le
  have hsub : i.e - i.w = ofNat line.length := by
    rw [h.count_e, h.count_w, UInt32.ofNat_add, ← UInt32.add_assoc, UInt32.add_comm,
      UInt32.add_sub_cancel]
  rw [hsub, toNat_ofNat_of_le (by omega)]

end

variable {c : UInt8}

/-- The first byte that has not been read. -/
theorem first (h : Shows i (c :: unread) line) :
    i.cell i.r = c ∧ Shows { i with r := i.r + 1 } unread line := by
  obtain ⟨hc, hrest⟩ := h.holds
  have hle := h.length_le
  rw [length_cons] at hle
  refine ⟨?_, by omega, ?_, ?_, hrest.start (toNat_add_mod dvd_two_pow i.r 1), h.plain, by omega⟩
  · rw [Input.cell, toNat_mod_inputBuf]
    exact hc
  · have hw := h.count_w
    rw [length_cons, Nat.add_comm, UInt32.ofNat_add, ← UInt32.add_assoc] at hw
    exact hw
  · have he := h.count_e
    rw [length_cons, Nat.add_right_comm, Nat.add_comm, UInt32.ofNat_add, ← UInt32.add_assoc] at he
    exact he

/-- The last byte of the line. -/
theorem last (h : Shows i unread (line ++ [c])) :
    i.cell (i.e - 1) = c ∧ Shows { i with e := i.e - 1 } unread line := by
  have hle := h.length_le
  have hfull := h.committed
  have hlen : (line ++ [c]).length = line.length + 1 := by simp
  have he : i.e - 1 = i.r + ofNat (unread.length + line.length) := by
    rw [h.count_e, hlen, ← add_assoc, UInt32.ofNat_add, ← UInt32.add_assoc]
    exact UInt32.add_sub_cancel _ _
  have hholds := h.holds
  rw [← append_assoc, holds_append] at hholds
  refine ⟨?_, by omega, h.count_w, he, hholds.1, ?_, by omega⟩
  · rw [Input.cell, he, toNat_mod_inputBuf, toNat_add_mod dvd_two_pow, ← length_append]
    exact hholds.2.1
  · intro hmem
    exact h.plain (mem_append_left _ hmem)

/-- The ring with one byte more. -/
theorem put (h : Shows i unread line) (hroom : unread.length + line.length < 128) (c : UInt8) :
    Holds 128 (Function.update i.buf (i.e % inputBuf).toNat c) i.r.toNat (unread ++ (line ++ [c])) ∧
      i.e + 1 = i.r + ofNat (unread.length + (line.length + 1)) := by
  constructor
  · rw [toNat_mod_inputBuf, h.count_e, toNat_add_mod dvd_two_pow, ← length_append, ← append_assoc]
    exact h.holds.put (by rwa [length_append]) c
  · rw [h.count_e, ← add_assoc, UInt32.ofNat_add (_ + _), ← UInt32.add_assoc]
    rfl

end Shows

/-! ### A character -/

theorem killLoop_frame (k : ℕ) (i : Input) :
    (killLoop k i).buf = i.buf ∧ (killLoop k i).r = i.r ∧ (killLoop k i).w = i.w := by
  induction k generalizing i with
  | zero => exact ⟨rfl, rfl, rfl⟩
  | succ k ih =>
    rw [killLoop]
    split_ifs
    · exact ih { i with e := i.e - 1 }
    · exact ⟨rfl, rfl, rfl⟩

/-- `^U` erases the line. -/
theorem killLoop_shows (h : Shows i unread line) : Shows (killLoop line.length i) unread [] := by
  induction line using reverseRecOn generalizing i with
  | nil => exact h
  | append_singleton line c ih =>
    obtain ⟨hcell, hrest⟩ := h.last
    have hne : i.e ≠ i.w := fun heq ↦ by simpa using h.e_eq_w_iff.mp heq
    have hplain : c ≠ newline := by
      rintro rfl
      exact h.plain (mem_append_right _ (mem_singleton_self _))
    rw [length_append, length_singleton, killLoop, if_pos ⟨hne, hcell ▸ hplain⟩]
    exact ih hrest

theorem backspace_shows (h : Shows i unread line) :
    Shows (if i.e ≠ i.w then { i with e := i.e - 1 } else i) unread line.dropLast := by
  rcases eq_nil_or_concat line with rfl | ⟨rest, c, rfl⟩
  · rw [if_neg (not_not.mpr (h.e_eq_w_iff.mpr rfl))]
    exact h
  · rw [concat_eq_append] at h ⊢
    have hne : i.e ≠ i.w := fun heq ↦ by simpa using h.e_eq_w_iff.mp heq
    rw [if_pos hne, dropLast_concat]
    exact h.last.2

variable {t : Terminal}

open Terminal

section

variable (h : Shows i t.unread t.line)

include h

/-- A byte that there is room for is added to the line, and the line may be committed. -/
theorem store_shows (hroom : t.unread.length + t.line.length < 128)
    (c : UInt8) : Shows (i.store c) (t.store c).unread (t.store c).line := by
  obtain ⟨hholds, hcount⟩ := h.put hroom c
  have hfull : i.e + 1 = i.r + inputBuf ↔ t.unread.length + t.line.length + 1 = 128 := by
    rw [hcount, inputBuf_eq, UInt32.add_right_inj, ofNat_inj (by omega) le_rfl]
    omega
  have hlength : (t.line ++ [c]).length = t.line.length + 1 := length_append
  have hlength' : (t.unread ++ (t.line ++ [c])).length = t.unread.length + (t.line.length + 1) := by
    rw [length_append, hlength]
  unfold Input.store store
  simp only [hfull]
  split_ifs with hcommit
  · refine ⟨?_, ?_, ?_, ?_, not_mem_nil, fun _ ↦ rfl⟩
    · rw [hlength', length_nil]
      omega
    · rw [hlength']
      exact hcount
    · rw [hlength', length_nil, add_zero]
      exact hcount
    · rw [append_nil]
      exact hholds
  · rw [not_or, not_or] at hcommit
    refine ⟨?_, h.count_w, ?_, hholds, ?_, ?_⟩
    · show t.unread.length + (t.line ++ [c]).length ≤ 128
      omega
    · rw [hlength]
      exact hcount
    · rw [mem_append, mem_singleton, not_or]
      exact ⟨h.plain, Ne.symm hcommit.1⟩
    · show t.unread.length + (t.line ++ [c]).length = 128 → _
      omega

/-- A character does to the ring what it does to the terminal. -/
theorem key_shows (c : UInt8) : Shows (i.key c) (t.key c).unread (t.key c).line := by
  have hiff : c ≠ 0 ∧ i.e - i.r < inputBuf ↔ c ≠ 0 ∧ t.unread.length + t.line.length < 128 := by
    rw [h.room_iff]
  unfold Input.key key
  simp only [hiff]
  generalize (if c = '\r'.toUInt8 then newline else c) = stored
  split_ifs with hlist hkill herase hne hroom
  · exact h
  · rw [h.e_sub_w]
    exact killLoop_shows h
  · have hline := backspace_shows h
    rwa [if_pos hne] at hline
  · have hline := backspace_shows h
    rwa [if_neg hne] at hline
  · exact store_shows h hroom.2 _
  · exact h

theorem consoleintr_shows (cs : List UInt8) :
    Shows (consoleintr i cs) (cs.foldl key t).unread (cs.foldl key t).line := by
  induction cs generalizing i t with
  | nil => exact h
  | cons c cs ih => exact ih (key_shows h c)

end

/-- Characters add to the committed input, and they do nothing to the readers. -/
theorem key_frame (t : Terminal) (c : UInt8) :
    (∃ new, (t.key c).unread = t.unread ++ new) ∧ (t.key c).taken = t.taken ∧
      (t.key c).call = t.call ∧ (t.key c).results = t.results := by
  unfold key store
  split_ifs
  all_goals first
    | exact ⟨⟨[], (append_nil _).symm⟩, rfl, rfl, rfl⟩
    | exact ⟨⟨_, rfl⟩, rfl, rfl, rfl⟩

theorem keys_frame (t : Terminal) (cs : List UInt8) :
    (∃ new, (cs.foldl key t).unread = t.unread ++ new) ∧
      (cs.foldl key t).taken = t.taken ∧ (cs.foldl key t).call = t.call ∧
      (cs.foldl key t).results = t.results := by
  induction cs generalizing t with
  | nil => exact ⟨⟨[], (append_nil _).symm⟩, rfl, rfl, rfl⟩
  | cons c cs ih =>
    obtain ⟨⟨new, hnew⟩, htaken, hcall, hresults⟩ := key_frame t c
    obtain ⟨⟨more, hmore⟩, htaken', hcall', hresults'⟩ := ih (t.key c)
    refine ⟨⟨new ++ more, ?_⟩, htaken'.trans htaken, hcall'.trans hcall, hresults'.trans hresults⟩
    rw [foldl_cons, hmore, hnew, append_assoc]

/-! ### A piece of a call -/

variable {n : ℕ} {first : Bool} {input : List UInt8}

/-- The loop of `consoleread` takes what `takeLine` takes, or everything if that is not enough. -/
theorem readLoop_shows (h : Shows i unread line) {target : ℕ} (hn : n ≤ target) :
    (∀ bytes k, takeLine (decide (n = target)) n unread = some (bytes, k) →
      ∃ i', readLoop target n i = (bytes, i', none) ∧ Shows i' (unread.drop k) line) ∧
    (takeLine (decide (n = target)) n unread = none →
      ∃ i', readLoop target n i = (unread, i', some (n - unread.length)) ∧ Shows i' [] line ∧
        unread.length < n) := by
  induction n generalizing i unread with
  | zero =>
    refine ⟨fun bytes k hk ↦ ?_, nofun⟩
    cases hk
    exact ⟨i, rfl, h⟩
  | succ n ih =>
    cases unread with
    | nil =>
      refine ⟨nofun, fun _ ↦ ⟨i, ?_, h, succ_pos _⟩⟩
      rw [readLoop, if_pos (h.empty_iff.mpr rfl)]
      rfl
    | cons c =>
      have hne : i.r ≠ i.w := fun heq ↦ by simpa using h.empty_iff.mp heq
      obtain ⟨hcell, hrest⟩ := h.first
      obtain ⟨ihsome, ihnone⟩ := ih hrest (by omega)
      rw [takeLine, readLoop, if_neg hne]
      simp only [hcell]
      by_cases heof : c = control 'D'
      · -- A `^D` after some bytes is put back.
        rw [if_pos heof, if_pos heof]
        refine ⟨fun bytes k hk ↦ ?_, nofun⟩
        cases hk
        by_cases hfirst : n + 1 = target
        · rw [if_neg (by omega), if_pos (decide_eq_true hfirst)]
          exact ⟨_, rfl, hrest⟩
        · rw [if_pos (by omega), if_neg (by simpa using hfirst)]
          refine ⟨_, rfl, ?_⟩
          rw [UInt32.add_sub_cancel]
          exact h
      · rw [if_neg heof, if_neg heof]
        split_ifs with hnewline
        · refine ⟨fun bytes k hk ↦ ?_, nofun⟩
          cases hk
          exact ⟨_, rfl, hrest⟩
        · have hlater : decide (n = target) = false := decide_eq_false (by omega)
          rw [hlater] at ihsome ihnone
          constructor
          · intro bytes k hk
            obtain ⟨p, hp, hpk⟩ := map_eq_some_iff.mp hk
            cases hpk
            obtain ⟨i', hloop, hshows⟩ := ihsome p.1 p.2 hp
            exact ⟨i', by rw [hloop], hshows⟩
          · intro hnone
            obtain ⟨i', hloop, hshows, hlt⟩ := ihnone (map_eq_none_iff.mp hnone)
            refine ⟨i', ?_, hshows, succ_lt_succ hlt⟩
            rw [hloop, length_cons, succ_sub_succ]

/-- The ring and the call in progress are those of the terminal. -/
structure Simulates (s : State) (t : Terminal) : Prop where
  input : Shows s.input t.unread t.line
  call : s.call.map (fun call ↦ (call.target, call.got)) = t.call
  size : ∀ call, s.call = some call → call.n + call.got.length = call.target

theorem proceed_simulates (h : Shows i t.unread t.line) (call : Call)
    (hsize : call.n + call.got.length = call.target) :
    Simulates (proceed i call).1 (t.proceed call.target call.got) ∧
      (t.proceed call.target call.got).results =
        t.results ++ ((proceed i call).2.map fun bytes ↦ (call.target, bytes)).toList := by
  have hfirst : decide (call.n = call.target) = call.got.isEmpty := by
    rw [Bool.eq_iff_iff, decide_eq_true_iff, isEmpty_iff_length_eq_zero]
    omega
  have hn : call.target - call.got.length = call.n := by omega
  obtain ⟨hsome, hnone⟩ := readLoop_shows h (show call.n ≤ call.target by omega)
  rw [hfirst] at hsome hnone
  unfold proceed Terminal.proceed
  rw [hn]
  cases htake : takeLine call.got.isEmpty call.n t.unread with
  | some p =>
    obtain ⟨i', hloop, hshows⟩ := hsome p.1 p.2 htake
    rw [hloop]
    exact ⟨⟨hshows, rfl, nofun⟩, rfl⟩
  | none =>
    obtain ⟨i', hloop, hshows, hlt⟩ := hnone htake
    rw [hloop]
    refine ⟨⟨hshows, rfl, fun call' hcall ↦ ?_⟩, (append_nil _).symm⟩
    cases hcall
    rw [length_append]
    show call.n - t.unread.length + _ = call.target
    omega

/-- Every step is a step of the terminal, and a call returns the same bytes in both. -/
theorem step_simulates {s s' : State} (h : Simulates s t) (hstep : step s e = .next s') :
    ∃ t', t.step e = .next t' ∧ Simulates s' t' ∧
      t'.results.map Prod.snd = t.results.map Prod.snd ++ (returned s e).toList := by
  have hcall := h.call
  cases e with simp only [step] at hstep
  | intr cs =>
    cases hstep
    obtain ⟨-, -, hcall', hresults⟩ := keys_frame t cs
    refine ⟨_, rfl, ⟨consoleintr_shows h.input cs, ?_, h.size⟩, ?_⟩
    · rw [hcall']
      exact hcall
    · rw [hresults]
      exact (append_nil _).symm
  | read n =>
    split at hstep <;> cases hstep
    rename_i hnone
    rw [hnone] at hcall
    obtain ⟨hsim, hresults⟩ := proceed_simulates h.input (.start n) rfl
    refine ⟨_, by rw [Terminal.step, ← hcall]; rfl, hsim, ?_⟩
    rw [hresults, map_append, returned, callOf, hnone]
    cases hbytes : (proceed s.input (.start n)).2 <;> simp [hbytes]
  | resume =>
    split at hstep <;> cases hstep
    rename_i call hsome
    rw [hsome] at hcall
    obtain ⟨hsim, hresults⟩ := proceed_simulates h.input call (h.size call hsome)
    refine ⟨_, by rw [Terminal.step, ← hcall]; rfl, hsim, ?_⟩
    rw [hresults, map_append, returned, callOf, hsome]
    cases hbytes : (proceed s.input call).2 <;> simp [hbytes]

/-! ### What the calls return -/

/-- A byte that does not end a call. -/
def Plain (bytes : List UInt8) : Prop := control 'D' ∉ bytes ∧ newline ∉ bytes

theorem takeLine_append {got : List UInt8} (hplain : Plain got) (first : Bool) (hn : got.length ≤ n)
    (input : List UInt8) : takeLine first n (got ++ input) =
      (takeLine (first && got.isEmpty) (n - got.length) input).map fun p ↦
        (got ++ p.1, got.length + p.2) := by
  induction got generalizing first n with
  | nil => simp
  | cons c got ih =>
    obtain ⟨heof, hnewline⟩ := hplain
    rw [mem_cons, not_or] at heof hnewline
    obtain ⟨n, rfl⟩ : ∃ m, n = m + 1 := ⟨n - 1, by rw [length_cons] at hn; omega⟩
    rw [cons_append, takeLine, if_neg (Ne.symm heof.1), if_neg (Ne.symm hnewline.1),
      ih ⟨heof.2, hnewline.2⟩ false (le_of_succ_le_succ hn), Option.map_map, length_cons,
      succ_sub_succ, isEmpty_cons, Bool.and_false, Bool.false_and]
    congr 1
    funext p
    simp only [Function.comp_apply, cons_append, Prod.mk.injEq, true_and]
    omega

/-- A call that can be served is served the same when more input comes. -/
theorem takeLine_mono (h : takeLine first n input = some p) (more : List UInt8) :
    takeLine first n (input ++ more) = some p ∧ p.2 ≤ input.length := by
  induction n generalizing first input p with
  | zero =>
    cases h
    exact ⟨rfl, zero_le _⟩
  | succ n ih =>
    cases input with
    | nil => cases h
    | cons =>
      rw [takeLine] at h
      rw [cons_append, takeLine]
      split_ifs at h ⊢ with heof hfirst hnewline
      · cases h
        exact ⟨rfl, succ_le_succ (zero_le _)⟩
      · cases h
        exact ⟨rfl, zero_le _⟩
      · cases h
        exact ⟨rfl, succ_le_succ (zero_le _)⟩
      · obtain ⟨q, hq, rfl⟩ := map_eq_some_iff.mp h
        obtain ⟨hmore, hle⟩ := ih hq
        exact ⟨by rw [hmore]; rfl, succ_le_succ hle⟩

/-- The bytes that a call returns: the input without a `^D`, and not more than a line. -/
theorem takeLine_bytes (h : takeLine first n input = some p) :
    p.1 = (input.take p.2).filter (· ≠ control 'D') ∧ p.1.length ≤ n ∧ control 'D' ∉ p.1 ∧
      newline ∉ p.1.dropLast := by
  induction n generalizing first input p with
  | zero =>
    cases h
    simp
  | succ n ih =>
    cases input with
    | nil => cases h
    | cons =>
      rw [takeLine] at h
      split_ifs at h with heof hfirst hnewline
      · cases h
        simp [heof]
      · cases h
        simp
      · cases h
        simp [Ne.symm heof, heof]
      · obtain ⟨q, hq, rfl⟩ := map_eq_some_iff.mp h
        obtain ⟨hbytes, hlen, hnot, hline⟩ := ih hq
        refine ⟨?_, succ_le_succ hlen, not_mem_cons_of_ne_of_not_mem (Ne.symm heof) hnot, ?_⟩
        · rw [take_succ_cons, filter_cons_of_pos (by simpa using heof), ← hbytes]
        · cases hq₁ : q.1 with
          | nil => simp
          | cons =>
            rw [hq₁] at hline
            exact not_mem_cons_of_ne_of_not_mem (Ne.symm hnewline) hline

/-- A call that waits has found nothing that ends it. -/
theorem plain_of_takeLine (h : takeLine first n input = none) : Plain input ∧ input.length < n := by
  induction n generalizing first input with
  | zero => cases h
  | succ n ih =>
    cases input with
    | nil => exact ⟨⟨not_mem_nil, not_mem_nil⟩, succ_pos _⟩
    | cons =>
      rw [takeLine] at h
      split_ifs at h with heof hnewline
      obtain ⟨⟨hnot, hline⟩, hlen⟩ := ih (map_eq_none_iff.mp h)
      exact ⟨⟨not_mem_cons_of_ne_of_not_mem (Ne.symm heof) hnot,
        not_mem_cons_of_ne_of_not_mem (Ne.symm hnewline) hline⟩, succ_lt_succ hlen⟩

theorem serve_concat (sizes : List ℕ) (n : ℕ) (input : List UInt8) :
    serve (sizes ++ [n]) input = (serve sizes input).bind fun q ↦
      (takeLine true n q.2).map fun p ↦ (q.1 ++ [p.1], q.2.drop p.2) := by
  induction sizes generalizing input with
  | nil =>
    simp only [nil_append, serve, bind_some]
    cases takeLine true n input <;> rfl
  | cons m sizes ih =>
    simp only [cons_append, serve, ih]
    cases takeLine true m input with
    | none => rfl
    | some p =>
      cases hserve : serve sizes (input.drop p.2) with
      | none => simp [hserve]
      | some q =>
        simp only [hserve, bind_some, map_some]
        cases takeLine true n q.2 <;> rfl

theorem serve_mono {sizes : List ℕ} {q : List (List UInt8) × List UInt8}
    (h : serve sizes input = some q) (more : List UInt8) :
    serve sizes (input ++ more) = some (q.1, q.2 ++ more) := by
  induction sizes generalizing input q with
  | nil =>
    cases h
    rfl
  | cons n sizes ih =>
    obtain ⟨p, hp, hrest⟩ := bind_eq_some_iff.mp h
    obtain ⟨q', hq', rfl⟩ := map_eq_some_iff.mp hrest
    obtain ⟨hmore, hle⟩ := takeLine_mono hp more
    rw [serve, hmore, bind_some, drop_append_of_le_length hle, ih hq']
    rfl

/-- The bytes that the call in progress has. -/
def Terminal.got (t : Terminal) : List UInt8 := (t.call.map Prod.snd).getD []

/-- The calls are served from the committed input, in its order. -/
structure Served (t : Terminal) : Prop where
  serve : serve (t.results.map Prod.fst) t.committed =
    some (t.results.map Prod.snd, t.got ++ t.unread)
  bytes : (t.results.map Prod.snd).flatten ++ t.got = t.taken.filter (· ≠ control 'D')
  lines : ∀ p ∈ t.results, p.2.length ≤ p.1 ∧ control 'D' ∉ p.2 ∧ newline ∉ p.2.dropLast
  plain : Plain t.got
  call_le : ∀ n got, t.call = some (n, got) → got.length ≤ n

theorem Served.keys (h : Served t) (cs : List UInt8) : Served (cs.foldl key t) := by
  obtain ⟨⟨new, hnew⟩, htaken, hcall, hresults⟩ := keys_frame t cs
  have hgot : (cs.foldl key t).got = t.got := by rw [got, hcall, got]
  refine ⟨?_, ?_, by rw [hresults]; exact h.lines, hgot ▸ h.plain, by rw [hcall]; exact h.call_le⟩
  · rw [committed, htaken, hnew, hresults, hgot, ← append_assoc, ← append_assoc]
    exact serve_mono h.serve new
  · rw [hresults, hgot, htaken]
    exact h.bytes

theorem Served.proceed (h : Served t) {got : List UInt8} (hgot : t.got = got)
    (hn : got.length ≤ n) : Served (t.proceed n got) := by
  obtain ⟨hserve, hbytes, hlines, hplain, -⟩ := h
  rw [hgot] at hserve hbytes hplain
  have htake := takeLine_append hplain true hn t.unread
  rw [Bool.true_and] at htake
  unfold Terminal.proceed
  cases hline : takeLine got.isEmpty (n - got.length) t.unread with
  | some p =>
    obtain ⟨hfilter, hlen, hnot, hend⟩ := takeLine_bytes hline
    have hcall : takeLine true n (got ++ t.unread) = some (got ++ p.1, got.length + p.2) := by
      rw [htake, hline]
      rfl
    refine ⟨?_, ?_, ?_, ⟨not_mem_nil, not_mem_nil⟩, nofun⟩
    · rw [map_append, map_append, Terminal.committed, append_assoc,
        take_append_drop, map_singleton, map_singleton, serve_concat]
      rw [Terminal.committed] at hserve
      rw [hserve, bind_some, hcall, map_some, drop_append,
        drop_eq_nil_of_le (Nat.le_add_right _ _), Nat.add_sub_cancel_left]
      rfl
    · rw [map_append, flatten_append, filter_append, ← hbytes, ← hfilter]
      simp [Terminal.got]
    · intro q hq
      rcases mem_append.mp hq with hold | hnew
      · exact hlines q hold
      · obtain rfl := mem_singleton.mp hnew
        exact (takeLine_bytes hcall).2
  | none =>
    obtain ⟨hrest, hlt⟩ := plain_of_takeLine hline
    refine ⟨?_, ?_, hlines, ⟨not_mem_append hplain.1 hrest.1, not_mem_append hplain.2 hrest.2⟩,
      fun m got' hcall ↦ ?_⟩
    · rw [Terminal.committed, append_nil]
      exact hserve.trans (by simp [Terminal.got])
    · have hall : t.unread.filter (· ≠ control 'D') = t.unread := by
        rw [filter_eq_self]
        intro c hc
        rw [decide_eq_true_iff]
        rintro rfl
        exact hrest.1 hc
      rw [filter_append, ← hbytes, hall, append_assoc]
      rfl
    · cases hcall
      rw [length_append]
      omega

theorem Served.step (h : Served t) {t' : Terminal} (hstep : t.step e = .next t') : Served t' := by
  cases e with simp only [Terminal.step] at hstep
  | intr cs =>
    cases hstep
    exact h.keys cs
  | read n =>
    split at hstep <;> cases hstep
    rename_i hcall
    exact h.proceed (by rw [got, hcall]; rfl) (zero_le _)
  | resume =>
    split at hstep <;> cases hstep
    rename_i hcall
    exact h.proceed (by rw [got, hcall]; rfl) (h.call_le _ _ hcall)

theorem start_served : Served start :=
  ⟨rfl, rfl, nofun, ⟨not_mem_nil, not_mem_nil⟩, nofun⟩

theorem start_simulates (buf : ℕ → UInt8) (index : UInt32) :
    Simulates (State.start buf index) start :=
  ⟨⟨zero_le _, (UInt32.add_zero _).symm, (UInt32.add_zero _).symm, trivial, not_mem_nil,
    fun _ ↦ rfl⟩, rfl, nofun⟩

/-- The characters that erase leave the ring, `r` and `w` alone. -/
theorem erase_frame (i : Input) {c : UInt8} (hc : c = control 'U' ∨ c = control 'H' ∨ c = 0x7f) :
    (i.key c).buf = i.buf ∧ (i.key c).r = i.r ∧ (i.key c).w = i.w := by
  have hlist : c ≠ control 'P' := by
    rintro rfl
    exact absurd hc (by decide)
  unfold Input.key
  rw [if_neg hlist]
  by_cases hkill : c = control 'U'
  · rw [if_pos hkill]
    exact killLoop_frame _ i
  · rw [if_neg hkill, if_pos (hc.resolve_left hkill)]
    split_ifs <;> exact ⟨rfl, rfl, rfl⟩

/-- In every run the console is a terminal. The distances of the indices are those of the bytes that
have not been read and of the line. The calls return, one after another, what `takeLine` takes from
the committed input: in its order, without `^D`, and at most a line each. -/
theorem consoleInput (buf : ℕ → UInt8) (index : UInt32) {es : List Event} {s : State}
    (hrun : run step (State.start buf index) es = some s) :
    (s.input.w - s.input.r ≤ s.input.e - s.input.r ∧ s.input.e - s.input.r ≤ inputBuf ∧
      (s.input.e - s.input.r = inputBuf → s.input.w = s.input.e)) ∧
    (∀ c, c = control 'U' ∨ c = control 'H' ∨ c = 0x7f →
      (s.input.key c).buf = s.input.buf ∧ (s.input.key c).r = s.input.r ∧
        (s.input.key c).w = s.input.w) ∧
    ∃ t, run Terminal.step Terminal.start es = some t ∧ Shows s.input t.unread t.line ∧
      trace step returned (State.start buf index) es = t.results.map Prod.snd ∧ Served t := by
  obtain ⟨t, ht, hsim, htrace, hserved⟩ := run_induction
    (I := fun es s ↦ ∃ t, run Terminal.step Terminal.start es = some t ∧ Simulates s t ∧
      trace step returned (State.start buf index) es = t.results.map Prod.snd ∧ Served t)
    ⟨_, rfl, start_simulates buf index, rfl, start_served⟩
    (by
      rintro es s e s' hrun ⟨t, ht, hsim, htrace, hserved⟩ hstep
      obtain ⟨t', hstep', hsim', hresults⟩ := step_simulates hsim hstep
      refine ⟨t', run_concat_eq_some.mpr ⟨t, ht, hstep'⟩, hsim', ?_, hserved.step hstep'⟩
      rw [trace_concat returned hrun hstep, htrace, hresults]) hrun
  have hshows := hsim.input
  have hle := hshows.length_le
  refine ⟨?_, fun c hc ↦ erase_frame s.input hc, t, ht, hshows, htrace, hserved⟩
  rw [hshows.sub_r, hshows.w_sub_r, inputBuf_eq]
  refine ⟨?_, ?_, fun hfull ↦ ?_⟩
  · rw [le_iff_toNat_le, toNat_ofNat_of_le hle, toNat_ofNat_of_le (by omega)]
    exact le_add_right _ _
  · rw [le_iff_toNat_le, toNat_ofNat_of_le hle, toNat_ofNat_of_le le_rfl]
    exact hle
  · rw [ofNat_inj hle le_rfl] at hfull
    exact (hshows.e_eq_w_iff.mpr (hshows.committed hfull)).symm

/-- A user types `a`, `x`, backspace, `b` and return, then `c`, `d` and `^D`. -/
def session : List Event :=
  [.intr [97, 120, 8, 98, 13, 99, 100, 4], .read 10, .read 10, .read 10]

/-- The three calls return the line, the bytes before the `^D`, and nothing. -/
theorem consoleInput_session :
    ∃ t, run Terminal.step Terminal.start session = some t ∧
      trace step returned (State.start (fun _ ↦ 0) 0xfffffffe) session =
        [[97, 98, 10], [99, 100], []] ∧ Served t := by
  have hrun : run step (State.start (fun _ ↦ 0) 0xfffffffe) session = some _ := rfl
  obtain ⟨-, -, t, ht, -, -, hserved⟩ := consoleInput (fun _ ↦ 0) 0xfffffffe hrun
  exact ⟨t, ht, by decide, hserved⟩

end EasyKernels.Xv6.Console
