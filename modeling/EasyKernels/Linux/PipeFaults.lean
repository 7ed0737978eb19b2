import EasyKernels.Lib.Ring
import EasyKernels.Lib.Runs

/-!
# Pipes of Linux under page faults

`read_pipe` and `write_pipe` of `fs/pipe.c`, by one reader and one writer of a pipe. Both move
`PIPE_TAIL` or `PIPE_HEAD` first and copy the bytes after it, and each access to user memory in the
copying loops may fault and let the other task run. A step of the reader in its loop puts the byte
it has loaded and loads the next; a step of the writer in its loop gets a byte and stores it.

`pipeInOrder` says what holds: as long as the reader loads no byte that the writer, in its loop, has
still to store, and the writer stores none in the place of a byte that the reader, in its loop, has
still to load (`Clear`), what the reader has put in its buffer is a prefix of what the writer has
stored. `readBeforeStored` is a run without that: the writer faults before its first byte, and the
reader takes the byte that is not there yet.

Scope. The wait queues are whether the one reader and the one writer sleep; a signal wakes the
reader. The number of tasks that have the pipe open changes at any time.
-/

set_option autoImplicit false

namespace EasyKernels.Linux.PipeFaults

open Option List Lib.Runs Lib.Ring

/-! ### The pipe -/

/-- `PAGE_SIZE`. -/
def pageSize : ℕ := 4096

/-- Where the reader is: outside, at the test of the pipe's size, asleep, or in the copying loop
with a byte that it has loaded, the place of the next and the number that are left to load. -/
inductive Reader
  | idle (ret : ℤ)
  | test (count read : ℕ)
  | asleep (count read : ℕ)
  | copy (byte : UInt8) (size chars count read : ℕ)
  deriving DecidableEq, Repr

/-- Where the writer is, with the bytes of its buffer that are left. In the copying loop `chars + 1`
of them are to be stored from `size` on. -/
inductive Writer
  | idle (ret : ℤ)
  | test (rest : List UInt8) (written : ℕ)
  | asleep (rest : List UInt8) (written : ℕ)
  | copy (size chars : ℕ) (rest : List UInt8) (written : ℕ)
  deriving DecidableEq, Repr

structure State where
  page : ℕ → UInt8
  head : ℕ
  tail : ℕ
  iCount : ℕ
  signal : Bool
  reader : Reader
  writer : Writer

/-- A new pipe with its two ends open. -/
def initial : State where
  page := fun _ ↦ 0
  head := 0
  tail := 0
  iCount := 2
  signal := false
  reader := .idle 0
  writer := .idle 0

variable (s : State)

/-- `PIPE_SIZE`. -/
def State.pipeSize : ℕ := (s.head + pageSize - s.tail) % pageSize

/-- `wake_up(&PIPE_WRITE_WAIT)`. -/
def State.wakeWriter : State :=
  match s.writer with
  | .asleep rest written => { s with writer := .test rest written }
  | _ => s

/-- `wake_up(&PIPE_READ_WAIT)`. -/
def State.wakeReader : State :=
  match s.reader with
  | .asleep count read => { s with reader := .test count read }
  | _ => s

/-- The number of bytes that one turn of `read_pipe` takes. -/
def State.readChars (count : ℕ) : ℕ := min (min (pageSize - s.tail) count) s.pipeSize

/-- The number of bytes that one turn of `write_pipe` makes room for. -/
def State.writeChars (count : ℕ) : ℕ :=
  min (min (pageSize - s.head) count) (pageSize - 1 - s.pipeSize)

/-- `ERESTARTSYS`. -/
def erestartsys : ℤ := 512

/-- A turn of `read_pipe` from the test of the pipe's size to the first access to user memory. -/
def readTest (count read : ℕ) : State :=
  if count = 0 then { s.wakeWriter with reader := .idle read }
  else if s.pipeSize = 0 then
    if s.iCount ≠ 2 then { s.wakeWriter with reader := .idle read }
    else if s.signal then
      { s.wakeWriter with reader := .idle (if read ≠ 0 then read else -erestartsys) }
    else { s.wakeWriter with reader := .asleep count read }
  else
    { s with
      tail := (s.tail + s.readChars count) % pageSize
      reader := .copy (s.page s.tail) (s.tail + 1) (s.readChars count - 1)
        (count - s.readChars count) (read + s.readChars count) }

/-- The reader puts the byte it has, and loads the next or ends its loop. -/
def readCopy (size chars count read : ℕ) : State :=
  match chars with
  | 0 => { s with reader := .test count read }
  | chars + 1 => { s with reader := .copy (s.page size) (size + 1) chars count read }

/-- A turn of `write_pipe` from the test of the pipe's size to the first access to user memory. -/
def writeTest (rest : List UInt8) (written : ℕ) : State :=
  if rest.length = 0 then { s.wakeReader with writer := .idle written }
  else if pageSize - 1 - s.pipeSize = 0 then
    if s.iCount ≠ 2 then
      { s.wakeReader with writer := .idle (if written ≠ 0 then written else -1) }
    else { s.wakeReader with writer := .asleep rest written }
  else
    { s with
      head := (s.head + s.writeChars rest.length) % pageSize
      writer := .copy s.head (s.writeChars rest.length - 1) rest
        (written + s.writeChars rest.length) }

/-- The writer gets a byte and stores it. -/
def writeCopy (size chars : ℕ) (rest : List UInt8) (written : ℕ) : State :=
  match rest with
  | [] => s
  | b :: rest =>
    { s with
      page := Function.update s.page size b
      writer :=
        match chars with
        | 0 => .test rest written
        | chars + 1 => .copy (size + 1) chars rest written }

inductive Event
  | readPipe (count : ℕ)
  | writePipe (bytes : List UInt8)
  | reader
  | writer
  | signal (pending : Bool)
  | opened (iCount : ℕ)
  deriving DecidableEq, Repr

def step : Event → Outcome Empty State
  | .readPipe count =>
    match s.reader with
    | .idle _ => .next { s with reader := .test count 0 }
    | _ => .blocked
  | .writePipe bytes =>
    match s.writer with
    | .idle _ => .next { s with writer := .test bytes 0 }
    | _ => .blocked
  | .reader =>
    match s.reader with
    | .test count read => .next (readTest s count read)
    | .copy _ size chars count read => .next (readCopy s size chars count read)
    | .idle _ | .asleep _ _ => .blocked
  | .writer =>
    match s.writer with
    | .test rest written => .next (writeTest s rest written)
    | .copy size chars rest written => .next (writeCopy s size chars rest written)
    | .idle _ | .asleep _ _ => .blocked
  | .signal pending => .next { if pending then s.wakeReader else s with signal := pending }
  | .opened iCount => .next { s with iCount := iCount }

/-! ### What is stored and delivered -/

/-- The byte that the reader puts in its buffer. -/
def delivered : Event → Option UInt8
  | .reader =>
    match s.reader with
    | .copy byte _ _ _ _ => some byte
    | _ => none
  | _ => none

/-- The byte that the writer gets from its buffer and stores in the page. -/
def stored : Event → Option UInt8
  | .writer =>
    match s.writer with
    | .copy _ _ rest _ => rest.head?
    | _ => none
  | _ => none

/-- The cell that the next step of the reader loads. -/
def loads : Option ℕ :=
  match s.reader with
  | .test count _ => if count ≠ 0 ∧ s.pipeSize ≠ 0 then some s.tail else none
  | .copy _ size (_ + 1) _ _ => some size
  | _ => none

/-- The cell that the next step of the writer stores. -/
def stores : Option ℕ :=
  match s.writer with
  | .copy size _ _ _ => some size
  | _ => none

/-- The writer, in its loop, has still to store the cell. -/
def unstored (cell : ℕ) : Prop :=
  match s.writer with
  | .copy size chars _ _ => size ≤ cell ∧ cell ≤ size + chars
  | _ => False

/-- The reader, in its loop, has still to load the cell. -/
def unloaded (cell : ℕ) : Prop :=
  match s.reader with
  | .copy _ size chars _ _ => size ≤ cell ∧ cell < size + chars
  | _ => False

instance (cell : ℕ) : Decidable (unstored s cell) :=
  match h : s.writer with
  | .copy size chars _ _ =>
    decidable_of_iff (size ≤ cell ∧ cell ≤ size + chars) (by simp [unstored, h])
  | .idle _ | .test _ _ | .asleep _ _ => .isFalse (by simp [unstored, h])

instance (cell : ℕ) : Decidable (unloaded s cell) :=
  match h : s.reader with
  | .copy _ size chars _ _ =>
    decidable_of_iff (size ≤ cell ∧ cell < size + chars) (by simp [unloaded, h])
  | .idle _ | .test _ _ | .asleep _ _ => .isFalse (by simp [unloaded, h])

/-- The reader loads no byte that the writer has still to store, and the writer stores none in the
place of one that the reader has still to load. -/
def Clear : Event → Prop
  | .reader => ∀ cell, loads s = some cell → ¬ unstored s cell
  | .writer => ∀ cell, stores s = some cell → ¬ unloaded s cell
  | _ => True

instance (e : Event) : Decidable (Clear s e) :=
  match e with
  | .reader => inferInstanceAs (Decidable (∀ cell ∈ loads s, ¬ unstored s cell))
  | .writer => inferInstanceAs (Decidable (∀ cell ∈ stores s, ¬ unloaded s cell))
  | .readPipe _ | .writePipe _ | .signal _ | .opened _ => .isTrue trivial

/-! ### What is in the page -/

/-- The byte that the reader has loaded and not yet put. -/
def Reader.loaded : Reader → List UInt8
  | .copy byte _ _ _ _ => [byte]
  | _ => []

/-- The number of bytes that the reader has taken and not yet loaded. -/
def Reader.left : Reader → ℕ
  | .copy _ _ chars _ _ => chars
  | _ => 0

/-- The number of bytes that the writer has made room for and not yet stored. -/
def Writer.left : Writer → ℕ
  | .copy _ chars _ _ => chars + 1
  | _ => 0

/-- The loop of the reader goes on at the byte with the given number, and does not pass the end of
the page. -/
def Reader.Fits (number : ℕ) : Reader → Prop
  | .copy _ size chars _ _ => size % pageSize = number % pageSize ∧ size + chars ≤ pageSize
  | _ => True

/-- The loop of the writer goes on at the byte with the given number, does not pass the end of the
page, and has the bytes it is to store. -/
def Writer.Fits (number : ℕ) : Writer → Prop
  | .copy size chars rest _ =>
    size % pageSize = number % pageSize ∧ size + chars < pageSize ∧ chars < rest.length
  | _ => True

/-- How the pipe relates to the bytes that have been stored and put, of which `n` have been loaded:
the page holds those that have not been loaded, and the head and the tail are ahead of what is
stored and loaded by what the two loops have still to do. -/
structure Kept (put all : List UInt8) (n : ℕ) (s : State) : Prop where
  taken : put ++ s.reader.loaded = all.take n
  loaded_le : n ≤ all.length
  holds : Holds pageSize s.page n (all.drop n)
  tail : s.tail = (n + s.reader.left) % pageSize
  head : s.head = (all.length + s.writer.left) % pageSize
  le : n + s.reader.left ≤ all.length + s.writer.left
  room : all.length + s.writer.left < n + s.reader.left + pageSize
  reader : s.reader.Fits n
  writer : s.writer.Fits all.length

theorem kept_initial : Kept [] [] 0 initial where
  taken := rfl
  loaded_le := le_rfl
  holds := trivial
  tail := rfl
  head := rfl
  le := le_rfl
  room := by decide
  reader := trivial
  writer := trivial

section Kept

variable {put all : List UInt8} {n : ℕ} {s : State}

section

variable (h : Kept put all n s)

include h

theorem Kept.pipeSize_eq : s.pipeSize = all.length + s.writer.left - (n + s.reader.left) := by
  have hle := h.le
  have hroom := h.room
  rw [State.pipeSize, h.head, h.tail]
  simp only [pageSize] at hroom ⊢
  omega

/-- A step that changes no more than what the tasks wait for. -/
theorem Kept.wait {t : State} (hpage : t.page = s.page) (hhead : t.head = s.head)
    (htail : t.tail = s.tail) (hloaded : t.reader.loaded = s.reader.loaded)
    (hread : t.reader.left = s.reader.left) (hwrite : t.writer.left = s.writer.left)
    (hreader : t.reader.Fits n) (hwriter : t.writer.Fits all.length) : Kept put all n t where
  taken := by rw [hloaded, h.taken]
  loaded_le := h.loaded_le
  holds := by
    rw [hpage]
    exact h.holds
  tail := by rw [htail, hread, h.tail]
  head := by rw [hhead, hwrite, h.head]
  le := by
    rw [hread, hwrite]
    exact h.le
  room := by
    rw [hread, hwrite]
    exact h.room
  reader := hreader
  writer := hwriter

theorem Kept.wakeWriter : Kept put all n s.wakeWriter := by
  rw [State.wakeWriter]
  split
  · rename_i rest written hwriter
    exact h.wait rfl rfl rfl rfl rfl (by rw [hwriter]; rfl) h.reader trivial
  · exact h

theorem Kept.wakeReader : Kept put all n s.wakeReader := by
  rw [State.wakeReader]
  split
  · rename_i count read hreader
    exact h.wait rfl rfl rfl (by rw [hreader]; rfl) (by rw [hreader]; rfl) rfl trivial h.writer
  · exact h

end

/-- A cell that a loop comes to before it passes the end of the page. -/
theorem add_mod_eq {size number j : ℕ} (hsize : size % pageSize = number % pageSize)
    (hlt : size + j < pageSize) : (number + j) % pageSize = size + j := by
  rw [Nat.add_mod, ← hsize, ← Nat.add_mod, Nat.mod_eq_of_lt hlt]

section

variable (h : Kept put all n s)

include h

/-- A byte that the reader takes has been stored, unless the writer has still to store it. -/
theorem Kept.lt_of_not_unstored (htaken : n < all.length + s.writer.left)
    (hclear : ¬ unstored s (n % pageSize)) : n < all.length := by
  by_contra hge
  have hfits := h.writer
  cases hwriter : s.writer with
  | idle | test | asleep =>
    rw [hwriter] at htaken
    exact hge htaken
  | copy size chars =>
    rw [hwriter] at htaken hfits
    obtain ⟨hsize, hend, -⟩ := hfits
    obtain ⟨j, rfl⟩ := Nat.exists_eq_add_of_le (not_lt.mp hge)
    have hj : j ≤ chars := Nat.le_of_lt_succ (Nat.lt_of_add_lt_add_left htaken)
    have hcell := add_mod_eq hsize (lt_of_le_of_lt (Nat.add_le_add_left hj size) hend)
    refine hclear ?_
    simp only [unstored, hwriter, hcell]
    exact ⟨Nat.le_add_right size j, Nat.add_le_add_left hj size⟩

/-- A cell that the writer stores is free, unless the reader has still to load it. -/
theorem Kept.lt_of_not_unloaded (hpos : 0 < s.writer.left)
    (hclear : ¬ unloaded s (all.length % pageSize)) : all.length < n + pageSize := by
  by_contra hge
  have hfits := h.reader
  have hroom := h.room
  cases hreader : s.reader with
  | idle | test | asleep =>
    rw [hreader] at hroom
    exact hge (lt_of_le_of_lt (Nat.le_add_right _ _) hroom)
  | copy byte size chars =>
    rw [hreader] at hroom hfits
    obtain ⟨hsize, hend⟩ := hfits
    simp only [Reader.left] at hroom
    obtain ⟨j, hj⟩ := Nat.exists_eq_add_of_le (not_lt.mp hge)
    have hlt : j < chars := by omega
    have hcell := add_mod_eq hsize (lt_of_lt_of_le (Nat.add_lt_add_left hlt size) hend)
    refine hclear ?_
    rw [hj, Nat.add_right_comm, Nat.add_mod_right]
    simp only [unloaded, hreader, hcell]
    exact ⟨Nat.le_add_right size j, Nat.add_lt_add_left hlt size⟩

/-- The first byte that has not been loaded is in its cell. -/
theorem Kept.load (hn : n < all.length) : all.take (n + 1) = all.take n ++ [s.page (n % pageSize)] ∧
      Holds pageSize s.page (n + 1) (all.drop (n + 1)) := by
  have hholds := h.holds
  rw [drop_eq_getElem_cons hn, holds_cons] at hholds
  obtain ⟨hbyte, hrest⟩ := hholds
  rw [take_succ_eq_append_getElem hn, hbyte]
  exact ⟨rfl, hrest⟩

/-! ### What each step does -/

variable {count read size chars written : ℕ} {rest : List UInt8}

theorem Kept.readTest (hreader : s.reader = .test count read) (hclear : Clear s .reader) :
    ∃ n', Kept put all n' (readTest s count read) := by
  have hidle : ∀ r : Reader, r.loaded = [] → r.left = 0 → r.Fits n →
      Kept put all n { s.wakeWriter with reader := r } := by
    intro r hloaded hleft hfits
    have hwake : s.wakeWriter.reader = s.reader := by
      rw [State.wakeWriter]
      split <;> rfl
    refine h.wakeWriter.wait rfl rfl rfl ?_ ?_ rfl hfits h.wakeWriter.writer
    · rw [hwake, hreader, hloaded]
      rfl
    · rw [hwake, hreader, hleft]
      rfl
  rw [PipeFaults.readTest]
  split_ifs with hcount hempty hopen hsignal hread
  iterate 5 exact ⟨n, hidle _ rfl rfl trivial⟩
  · have hsize := h.pipeSize_eq
    have htail := h.tail
    have hle := h.le
    have hroom := h.room
    have htaken := h.taken
    simp only [hreader, Reader.left, Reader.loaded, add_zero, append_nil]
      at hsize htail hle hroom htaken
    have hlt : n < all.length := by
      refine h.lt_of_not_unstored (by omega) ?_
      rw [← htail]
      exact hclear s.tail (by simp [loads, hreader, hcount, hempty])
    obtain ⟨htake, hholds⟩ := h.load hlt
    obtain ⟨chars, hchars⟩ : ∃ chars, chars = s.readChars count := ⟨_, rfl⟩
    have htaillt : s.tail < pageSize := htail ▸ Nat.mod_lt n (Nat.succ_pos 4095)
    have hbounds : 1 ≤ chars ∧ chars ≤ pageSize - s.tail ∧ chars ≤ s.pipeSize := by
      rw [hchars, State.readChars]
      omega
    rw [← hchars]
    refine ⟨n + 1, ?_, hlt, hholds, ?_, h.head, ?_, ?_, ?_, h.writer⟩
    · show put ++ [s.page s.tail] = _
      rw [htake, ← htaken, ← htail]
    · show (s.tail + chars) % pageSize = (n + 1 + (chars - 1)) % pageSize
      rw [htail, Nat.mod_add_mod, Nat.add_assoc, Nat.add_sub_cancel' hbounds.1]
    · show n + 1 + (chars - 1) ≤ all.length + s.writer.left
      omega
    · show all.length + s.writer.left < n + 1 + (chars - 1) + pageSize
      omega
    · refine ⟨?_, ?_⟩
      · rw [htail, Nat.mod_add_mod]
      · omega

theorem Kept.readCopy {byte : UInt8} (hreader : s.reader = .copy byte size chars count read)
    (hclear : Clear s .reader) :
    ∃ n', Kept (put ++ [byte]) all n' (readCopy s size chars count read) := by
  have htaken := h.taken
  have htail := h.tail
  have hle := h.le
  have hroom := h.room
  have hfits := h.reader
  rw [hreader] at htaken htail hle hroom hfits
  obtain ⟨hsize, hend⟩ := hfits
  cases chars with
  | zero =>
    refine ⟨n, ?_, h.loaded_le, h.holds, htail, h.head, hle, hroom, trivial, h.writer⟩
    show put ++ [byte] ++ [] = _
    rw [append_nil]
    exact htaken
  | succ chars =>
    simp only [Reader.left] at htail hle hroom
    have hcell : n % pageSize = size := add_mod_eq (j := 0) hsize (by omega)
    have hlt : n < all.length := by
      refine h.lt_of_not_unstored (by omega) ?_
      rw [hcell]
      exact hclear size (by simp [loads, hreader])
    obtain ⟨htake, hholds⟩ := h.load hlt
    refine ⟨n + 1, ?_, hlt, hholds, ?_, h.head, ?_, ?_, ?_, h.writer⟩
    · rw [htake, ← hcell]
      exact congrArg (· ++ [s.page (n % pageSize)]) htaken
    · show s.tail = (n + 1 + chars) % pageSize
      rw [htail, Nat.add_right_comm, Nat.add_assoc]
    · show n + 1 + chars ≤ all.length + s.writer.left
      omega
    · show all.length + s.writer.left < n + 1 + chars + pageSize
      omega
    · refine ⟨?_, ?_⟩
      · rw [Nat.add_mod, hsize, ← Nat.add_mod]
      · omega

theorem Kept.writeTest (hwriter : s.writer = .test rest written) :
    Kept put all n (writeTest s rest written) := by
  have hidle : ∀ w : Writer, w.left = 0 → w.Fits all.length →
      Kept put all n { s.wakeReader with writer := w } := by
    intro w hleft hfits
    have hwake : s.wakeReader.writer = s.writer := by
      rw [State.wakeReader]
      split <;> rfl
    refine h.wakeReader.wait rfl rfl rfl rfl rfl ?_ h.wakeReader.reader hfits
    rw [hwake, hwriter, hleft]
    rfl
  rw [PipeFaults.writeTest]
  split_ifs with hlength hfull hopen hwritten
  iterate 4 exact hidle _ rfl trivial
  · have hsize := h.pipeSize_eq
    have hhead := h.head
    have hle := h.le
    have hroom := h.room
    simp only [hwriter, Writer.left, add_zero] at hsize hhead hle hroom
    obtain ⟨chars, hchars⟩ : ∃ chars, chars = s.writeChars rest.length := ⟨_, rfl⟩
    have hheadlt : s.head < pageSize := hhead ▸ Nat.mod_lt _ (Nat.succ_pos 4095)
    have hbounds : 1 ≤ chars ∧ chars ≤ pageSize - s.head ∧ chars ≤ rest.length ∧
        chars ≤ pageSize - 1 - s.pipeSize := by
      rw [hchars, State.writeChars]
      omega
    rw [← hchars]
    refine ⟨h.taken, h.loaded_le, h.holds, h.tail, ?_, ?_, ?_, h.reader, ?_, ?_, ?_⟩
    · show (s.head + chars) % pageSize = (all.length + (chars - 1 + 1)) % pageSize
      rw [hhead, Nat.mod_add_mod, Nat.sub_add_cancel hbounds.1]
    · show n + s.reader.left ≤ all.length + (chars - 1 + 1)
      omega
    · show all.length + (chars - 1 + 1) < n + s.reader.left + pageSize
      omega
    · rw [hhead, Nat.mod_mod]
    · omega
    · omega

theorem Kept.writeCopy (hwriter : s.writer = .copy size chars rest written)
    (hclear : Clear s .writer) :
    Kept put (all ++ rest.head?.toList) n (writeCopy s size chars rest written) := by
  have hhead := h.head
  have hle := h.le
  have hroom := h.room
  have hfits := h.writer
  have hloaded := h.loaded_le
  rw [hwriter] at hhead hle hroom hfits
  simp only [Writer.left] at hhead hle hroom
  obtain ⟨hsize, hend, hrest⟩ := hfits
  have hcell : all.length % pageSize = size := add_mod_eq (j := 0) hsize (by omega)
  have hlt : all.length < n + pageSize := by
    refine h.lt_of_not_unloaded (by rw [hwriter]; exact Nat.succ_pos chars) ?_
    rw [hcell]
    exact hclear size (by simp [stores, hwriter])
  cases rest with
  | nil => exact absurd hrest (Nat.not_lt_zero chars)
  | cons b rest =>
    have hlength : (all ++ [b]).length = all.length + 1 := length_append
    have hholds : Holds pageSize (Function.update s.page size b) n ((all ++ [b]).drop n) := by
      rw [drop_append_of_le_length hloaded, ← hcell,
        show all.length = n + (all.drop n).length by rw [length_drop]; omega]
      refine h.holds.put ?_ b
      rw [length_drop]
      omega
    have htaken : put ++ s.reader.loaded = (all ++ [b]).take n := by
      rw [take_append_of_le_length hloaded, h.taken]
    have hn : n ≤ (all ++ [b]).length := by omega
    show Kept put (all ++ [b]) n (PipeFaults.writeCopy s size chars (b :: rest) written)
    cases chars with
    | zero =>
      refine ⟨htaken, hn, hholds, h.tail, ?_, ?_, ?_, h.reader, trivial⟩
      · show s.head = ((all ++ [b]).length + 0) % pageSize
        rw [hlength, hhead]
      · show n + s.reader.left ≤ (all ++ [b]).length + 0
        omega
      · show (all ++ [b]).length + 0 < n + s.reader.left + pageSize
        omega
    | succ chars =>
      refine ⟨htaken, hn, hholds, h.tail, ?_, ?_, ?_, h.reader, ?_, ?_, ?_⟩
      · show s.head = ((all ++ [b]).length + (chars + 1)) % pageSize
        rw [hlength, hhead, Nat.add_comm (chars + 1) 1, Nat.add_assoc]
      · show n + s.reader.left ≤ (all ++ [b]).length + (chars + 1)
        omega
      · show (all ++ [b]).length + (chars + 1) < n + s.reader.left + pageSize
        omega
      · rw [hlength, Nat.add_mod, hsize, ← Nat.add_mod]
      · omega
      · simpa using hrest

end

end Kept

/-! ### Every run -/

theorem Kept.step {put all : List UInt8} {n : ℕ} {s t : State} {e : Event} (h : Kept put all n s)
    (hclear : Clear s e) (hstep : step s e = .next t) :
    ∃ n', Kept (put ++ (delivered s e).toList) (all ++ (stored s e).toList) n' t := by
  cases e with
  | readPipe =>
    simp only [delivered, stored, toList_none, append_nil]
    rw [PipeFaults.step] at hstep
    split at hstep <;> cases hstep
    rename_i hreader
    refine ⟨n, h.wait rfl rfl rfl ?_ ?_ rfl trivial h.writer⟩ <;> (rw [hreader]; rfl)
  | writePipe =>
    simp only [delivered, stored, toList_none, append_nil]
    rw [PipeFaults.step] at hstep
    split at hstep <;> cases hstep
    rename_i hwriter
    exact ⟨n, h.wait rfl rfl rfl rfl rfl (by rw [hwriter]; rfl) h.reader trivial⟩
  | reader =>
    rw [PipeFaults.step] at hstep
    split at hstep <;> cases hstep <;> rename_i hreader <;>
      simp only [delivered, stored, hreader, toList_none, toList_some, append_nil]
    · exact h.readTest hreader hclear
    · exact h.readCopy hreader hclear
  | writer =>
    rw [PipeFaults.step] at hstep
    split at hstep <;> cases hstep <;> rename_i hwriter <;>
      simp only [delivered, stored, hwriter, toList_none, append_nil]
    · exact ⟨n, h.writeTest hwriter⟩
    · exact ⟨n, h.writeCopy hwriter hclear⟩
  | signal pending =>
    simp only [delivered, stored, toList_none, append_nil]
    cases hstep
    cases pending with
    | false => exact ⟨n, h.wait rfl rfl rfl rfl rfl rfl h.reader h.writer⟩
    | true =>
      exact ⟨n, h.wakeReader.wait rfl rfl rfl rfl rfl rfl h.wakeReader.reader h.wakeReader.writer⟩
  | opened =>
    simp only [delivered, stored, toList_none, append_nil]
    cases hstep
    exact ⟨n, h.wait rfl rfl rfl rfl rfl rfl h.reader h.writer⟩

end EasyKernels.Linux.PipeFaults
