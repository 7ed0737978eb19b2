import EasyKernels.Lib.Runs
import EasyKernels.Xv6.FileContent

/-!
# Processes that share an open file

`fileread` and `filewrite` of processes that share one `struct file`. Each takes the lock of the
inode, moves bytes at `f->off`, advances `f->off` and releases the lock; `filewrite` does so chunk
by chunk. In every interleaving the chunks lie one behind the other in the order in which the lock
was taken, and the file holds the bytes of every chunk at its place (`sharedOffsets`).

Scope. The file is a regular one, and only these calls change it (`Quiet`); other calls may change
the rest of the disk between any two steps. `readi` and `writei` are one step each, under the lock.
`order`, `log` and `given` record who took the lock, what was moved, and the bytes of the calls of
`filewrite` that returned `n`.
-/

set_option autoImplicit false

namespace EasyKernels.Xv6.SharedFile

open Nat List Function Lib.Runs

/-- `max` in `filewrite`. -/
def chunkMax : ℕ := (maxOpBlocks - 1 - 1 - 2) / 2 * 512

/-- `n1` in `filewrite`. -/
def chunkSize (n : ℤ) (i : ℕ) : ℕ := min (n - i).toNat chunkMax

/-- `filewrite` has written `i` bytes. -/
inductive Call
  | fileread (n : UInt32)
  | filewrite (addr : ℕ → UInt8) (n : ℤ) (i : ℕ)

/-- Outside a call; before `ilock`; after it; or after `readi` or `writei`, which returned `r`. -/
inductive Pc
  | user
  | waiting (c : Call)
  | locked (c : Call)
  | moved (c : Call) (r : ℤ)

/-- The bytes that one call of `readi` or `writei` has moved. -/
structure Chunk (P : Type) where
  who : P
  writes : Bool
  off : ℕ
  bytes : List UInt8
  deriving DecidableEq

inductive Panic
  | fs (e : FsPanic)
  | shortFilewrite

structure State (P : Type) where
  disk : Disk
  ip : Dinode
  lock : Option P
  off : UInt32
  readable : Bool
  writable : Bool
  pc : P → Pc
  order : List P
  log : List (Chunk P)
  given : P → List UInt8

inductive Event (P : Type)
  | begin (p : P) (c : Call)
  | lock (p : P)
  | move (p : P)
  | unlock (p : P)
  | other (disk : Disk)

/-- The bytes at `addr + i`. -/
def data (addr : ℕ → UInt8) (i n : ℕ) : List UInt8 := (List.range n).map fun k ↦ addr (i + k)

/-- The test of the loop of `filewrite`, and its return: where the process is, and the bytes of the
call if it returns `n`. -/
def loop (addr : ℕ → UInt8) (n : ℤ) (i : ℕ) : Pc × List UInt8 :=
  if i < n then (.waiting (.filewrite addr n i), [])
  else (.user, if i = n then data addr 0 i else [])

section Machine

variable {P : Type} [DecidableEq P] (s : State P)

def State.resume (p : P) (x : Pc × List UInt8) : State P :=
  { s with
    pc := update s.pc p x.1
    given := update s.given p (s.given p ++ x.2) }

/-- A chunk is moved. -/
def State.record (p : P) (c : Call) (r : ℤ) (writes : Bool) (bytes : List UInt8)
    (ip : Dinode) (disk : Disk) : State P :=
  { s with
    disk := disk
    ip := ip
    pc := update s.pc p (.moved c r)
    log := s.log ++ [⟨p, writes, s.off.toNat, bytes⟩] }

/-- `f->off` is advanced and the lock released. -/
def State.release (r : ℤ) : State P :=
  { s with off := if r > 0 then s.off + .ofNat r.toNat else s.off, lock := none }

def step (devsw : Devsw) (sb : SuperBlock) (inum : ℕ) (s : State P) :
    Event P → Outcome Panic (State P)
  | .begin p c =>
    match s.pc p, c with
    | .user, .fileread n =>
      .next (if s.readable then s.resume p (.waiting (.fileread n), []) else s)
    | .user, .filewrite addr n _ => .next (if s.writable then s.resume p (loop addr n 0) else s)
    | _, _ => .blocked
  | .lock p =>
    match s.pc p, s.lock with
    | .waiting c, none => .next
      { s with lock := some p, pc := update s.pc p (.locked c), order := s.order ++ [p] }
    | _, _ => .blocked
  | .move p =>
    match s.pc p with
    | .locked (.fileread n) =>
      match readi devsw sb s.disk s.ip s.off n with
      | .ok (r, bytes, ip, disk) => .next (s.record p (.fileread n) r false bytes ip disk)
      | .error e => .fault (.fs e)
    | .locked (.filewrite addr n i) =>
      let n1 := chunkSize n i
      match writei devsw sb s.disk inum s.ip (fun k ↦ addr (i + k)) s.off (.ofNat n1) with
      | .ok (r, ip, disk) =>
        .next (s.record p (.filewrite addr n i) r true (data addr i r.toNat) ip disk)
      | .error e => .fault (.fs e)
    | _ => .blocked
  | .unlock p =>
    match s.pc p with
    | .moved (.fileread _) r => .next ((s.release r).resume p (.user, []))
    | .moved (.filewrite addr n i) r =>
      if r < 0 then .next ((s.release r).resume p (.user, []))
      else if r ≠ chunkSize n i then .fault .shortFilewrite
      else .next ((s.release r).resume p (loop addr n (i + r.toNat)))
    | _ => .blocked
  | .other disk => .next { s with disk := disk }

end Machine

/-! ### Chunks one behind the other -/

section Chunks

variable {P : Type}

/-- Each chunk begins where the one before it ends. -/
def Consecutive : ℕ → List (Chunk P) → Prop
  | _, [] => True
  | a, c :: cs => c.off = a ∧ Consecutive (a + c.bytes.length) cs

/-- Where chunks that begin at `a` end. -/
def ends (a : ℕ) : List (Chunk P) → ℕ
  | [] => a
  | c :: cs => ends (a + c.bytes.length) cs

theorem ends_concat (a : ℕ) (cs : List (Chunk P)) (c : Chunk P) :
    ends a (cs ++ [c]) = ends a cs + c.bytes.length := by
  induction cs generalizing a with
  | nil => rfl
  | cons b cs ih => exact ih _

variable {a : ℕ} {cs : List (Chunk P)}

theorem consecutive_concat {c : Chunk P} (h : Consecutive a cs) (hc : c.off = ends a cs) :
    Consecutive a (cs ++ [c]) := by
  induction cs generalizing a with
  | nil => exact ⟨hc, trivial⟩
  | cons b cs ih => exact ⟨h.1, ih h.2 hc⟩

theorem le_ends (a : ℕ) (cs : List (Chunk P)) : a ≤ ends a cs := by
  induction cs generalizing a with
  | nil => exact le_refl a
  | cons c cs ih => exact le_trans (le_add_right _ _) (ih _)

theorem Consecutive.within (h : Consecutive a cs) {c : Chunk P} (hc : c ∈ cs) :
    a ≤ c.off ∧ c.off + c.bytes.length ≤ ends a cs := by
  induction cs generalizing a with
  | nil => simp at hc
  | cons b cs ih =>
    rcases mem_cons.mp hc with rfl | hc
    · exact ⟨h.1.ge, h.1 ▸ le_ends _ cs⟩
    · obtain ⟨hlow, hhigh⟩ := ih h.2 hc
      exact ⟨by omega, hhigh⟩

theorem Consecutive.disjoint (h : Consecutive a cs) :
    cs.Pairwise fun b c ↦ b.off + b.bytes.length ≤ c.off := by
  induction cs generalizing a with
  | nil => exact .nil
  | cons b cs ih =>
    exact pairwise_cons.mpr ⟨fun c hc ↦ h.1 ▸ (h.2.within hc).1, ih h.2⟩

theorem Consecutive.covers {x : ℕ} (h : Consecutive a cs) :
    a ≤ x ∧ x < ends a cs ↔ ∃ c ∈ cs, c.off ≤ x ∧ x < c.off + c.bytes.length := by
  induction cs generalizing a with
  | nil => simp [ends]
  | cons b cs ih =>
    have hle := le_ends (a + b.bytes.length) cs
    rw [exists_mem_cons_iff, ← ih h.2, h.1, ends]
    omega

variable [DecidableEq P]

/-- What a process has written, in order. -/
def written (p : P) (cs : List (Chunk P)) : List UInt8 :=
  (cs.filter fun c ↦ c.who = p ∧ c.writes).flatMap Chunk.bytes

theorem written_concat (p : P) (cs : List (Chunk P)) (c : Chunk P) :
    written p (cs ++ [c]) = written p cs ++ if c.who = p ∧ c.writes then c.bytes else [] := by
  by_cases h : c.who = p ∧ c.writes <;> simp [written, h]

end Chunks

theorem data_add (addr : ℕ → UInt8) (i n : ℕ) :
    data addr 0 (i + n) = data addr 0 i ++ data addr i n := by
  simp [data, range_add, comp_def]

theorem overlay_getElem? {old : List UInt8} (new : List UInt8) {off : ℕ}
    (hoff : off ≤ old.length) (x : ℕ) :
    (overlay old off new)[x]? =
      if off ≤ x ∧ x < off + new.length then new[x - off]? else old[x]? := by
  simp only [overlay, append_assoc, getElem?_append, length_take, min_eq_left hoff, getElem?_drop]
  by_cases hlow : x < off
  · rw [if_pos hlow, if_neg (by omega), getElem?_take_of_lt hlow]
  · by_cases hmid : x < off + new.length
    · rw [if_neg hlow, if_pos (by omega), if_pos ⟨by omega, hmid⟩]
    · rw [if_neg hlow, if_neg (by omega), if_neg (by omega)]
      congr 1
      omega

/-! ### The invariant -/

variable {P : Type}

/-- A regular file whose blocks are all there. -/
structure File (sb : SuperBlock) (inum : ℕ) (d : Disk) (ip : Dinode) : Prop where
  sound : Sound sb d (readDinode sb d)
  lt : inum < sb.ninodes
  stored : readDinode sb d inum = ip
  used : ip.type ≠ 0
  notDev : ip.type ≠ tDev
  full : ip.Full d

/-- What `writei` leaves of the file, unless it runs out of blocks. -/
theorem File.writei {sb : SuperBlock} {inum : ℕ} {d : Disk} {ip : Dinode} (h : File sb inum d ip)
    (devsw : Devsw) (src : ℕ → UInt8) {off n : UInt32} (hok : ¬ WriteFails ip off n) :
    (∃ ip' d', writei devsw sb d inum ip src off n = .ok (n.toNat, ip', d') ∧
        ip'.content d' = overlay (ip.content d) off.toNat ((range n.toNat).map src) ∧
        File sb inum d' ip') ∨
      writei devsw sb d inum ip src off n = .error .outOfBlocks ∧
        freeBlocks sb d < blocksNeeded ip d off.toNat n.toNat := by
  refine (writei_spec h.sound h.lt h.stored h.used h.notDev h.full hok).imp_left ?_
  rintro ⟨ip', d', hwrite, hcontent, hfull, htype, hstored, hkept, -⟩
  exact ⟨ip', d', hwrite, hcontent, hkept.sound_of_stored hstored, h.lt, hstored, htype ▸ h.used,
    htype ▸ h.notDev, hfull⟩

/-- Other calls leave the file alone, and no call of `writei` fails. -/
def Quiet (sb : SuperBlock) (inum : ℕ) (s : State P) : Event P → Prop
  | .other d => File sb inum d s.ip ∧ s.ip.content d = s.ip.content s.disk
  | .move p => ∀ addr n i, s.pc p = .locked (.filewrite addr n i) →
      ¬ WriteFails s.ip s.off (.ofNat (chunkSize n i))
  | _ => True

def Pc.Holds : Pc → Prop
  | .locked _ => True
  | .moved _ _ => True
  | _ => False

/-- The bytes of the call that are in the file. -/
def Pc.done : Pc → List UInt8
  | .waiting (.filewrite addr _ i) => data addr 0 i
  | .locked (.filewrite addr _ i) => data addr 0 i
  | .moved (.filewrite addr _ i) r => data addr 0 (i + r.toNat)
  | _ => []

def Pc.Ok : Pc → Prop
  | .waiting (.filewrite _ n i) => i < n
  | .locked (.filewrite _ n i) => i < n
  | .moved (.filewrite _ n i) r => i < n ∧ r = chunkSize n i
  | _ => True

/-- The bytes moved by which `f->off` is not yet advanced. -/
def Pc.ahead : Pc → ℕ
  | .moved _ r => r.toNat
  | _ => 0

/-- Who has taken the lock and not yet moved a chunk. -/
def Pc.entered (p : P) : Pc → List P
  | .locked _ => [p]
  | _ => []

def State.ahead (s : State P) : ℕ := s.lock.elim 0 fun p ↦ (s.pc p).ahead

def State.entered (s : State P) : List P := s.lock.elim [] fun p ↦ (s.pc p).entered p

/-- What the run from `s` has done to the file and the offset. -/
structure Shared [DecidableEq P] (s t : State P) : Prop where
  consecutive : Consecutive s.off.toNat t.log
  order : t.order = t.log.map Chunk.who ++ t.entered
  small : ∀ c ∈ t.log, c.writes → c.bytes.length ≤ chunkMax
  inPlace : ∀ c ∈ t.log, ∀ j < c.bytes.length, (t.ip.content t.disk)[c.off + j]? = c.bytes[j]?
  outside : ∀ x, x < s.off.toNat ∨ ends s.off.toNat t.log ≤ x →
    (t.ip.content t.disk)[x]? = (s.ip.content s.disk)[x]?

/-- What is known of one process. -/
structure Each [DecidableEq P] (t : State P) (p : P) : Prop where
  whole : written p t.log = t.given p ++ (t.pc p).done
  lock : (t.pc p).Holds ↔ t.lock = some p
  ok : (t.pc p).Ok

structure Inv [DecidableEq P] (sb : SuperBlock) (inum : ℕ) (s t : State P) : Prop
    extends Shared s t where
  file : File sb inum t.disk t.ip
  each : ∀ p, Each t p
  mark : t.off.toNat + t.ahead = ends s.off.toNat t.log
  fits : ends s.off.toNat t.log < 2 ^ 32

theorem loop_spec (addr : ℕ → UInt8) {n : ℤ} {i : ℕ} (h : i ≤ n ∨ i = 0) :
    ¬ (loop addr n i).1.Holds ∧ (loop addr n i).1.Ok ∧
      (loop addr n i).2 ++ (loop addr n i).1.done = data addr 0 i := by
  rw [loop]
  split_ifs with hlt heq
  · exact ⟨id, hlt, rfl⟩
  · exact ⟨id, trivial, append_nil _⟩
  · obtain rfl : i = 0 := by omega
    exact ⟨id, trivial, rfl⟩

section Steps

variable [DecidableEq P] {sb : SuperBlock} {inum : ℕ} {s t : State P} {p : P}

variable {u : State P} {c : Call}

section

variable (h : Inv sb inum s t)

include h

/-- A step of `p` has to be looked at for `p` only. -/
theorem Inv.each_of (hp : Each u p) (hpc : ∀ q, q ≠ p → u.pc q = t.pc q ∧ u.given q = t.given q)
    (hlog : ∀ q, q ≠ p → written q u.log = written q t.log)
    (hlock : ∀ q, q ≠ p → (u.lock = some q ↔ t.lock = some q)) (q : P) : Each u q := by
  by_cases hq : q = p
  · exact hq ▸ hp
  · obtain ⟨hwhole, hholds, hok⟩ := h.each q
    obtain ⟨hsame, hgiven⟩ := hpc q hq
    exact ⟨by rw [hlog q hq, hgiven, hsame, hwhole], by rw [hsame, hlock q hq, hholds], hsame ▸ hok⟩

open State

/-- A process outside the lock goes on outside it. -/
theorem Inv.resume {x : Pc × List UInt8} (hp : ¬ (t.pc p).Holds) (hholds : ¬ x.1.Holds)
    (hok : x.1.Ok) (hdone : x.2 ++ x.1.done = (t.pc p).done) : Inv sb inum s (t.resume p x) := by
  have hlock : t.lock ≠ some p := fun heq ↦ hp ((h.each p).lock.mpr heq)
  have hsame : (t.resume p x).ahead = t.ahead ∧ (t.resume p x).entered = t.entered := by
    simp only [State.ahead, State.entered, State.resume]
    cases heq : t.lock with
    | none => exact ⟨rfl, rfl⟩
    | some q =>
      have hne : q ≠ p := fun hq ↦ hlock (hq ▸ heq)
      simp only [Option.elim_some, update_of_ne hne, and_self]
  refine { h with
    order := h.order.trans (by rw [hsame.2]; rfl)
    mark := by rw [hsame.1]; exact h.mark
    each := h.each_of (p := p) ⟨?_, ?_, ?_⟩ (fun q hq ↦ by simp [State.resume, hq])
      (fun _ _ ↦ rfl) (fun _ _ ↦ .rfl) }
  · simp [State.resume, hdone, (h.each p).whole]
  · simpa [State.resume] using iff_of_false hholds hlock
  · simpa [State.resume] using hok

theorem Inv.acquire (hp : t.pc p = .waiting c) (hlock : t.lock = none) : Inv sb inum s { t with
      lock := some p, pc := update t.pc p (.locked c), order := t.order ++ [p] } := by
  obtain ⟨hwhole, -, hok⟩ := h.each p
  have hmark := h.mark
  have horder := h.order
  rw [hp] at hwhole hok
  simp only [ahead, entered, hlock, Option.elim_none] at hmark horder
  refine { h with
    order := by simp [entered, Pc.entered, horder]
    mark := by simpa [ahead, Pc.ahead] using hmark
    each := h.each_of (p := p) ⟨?_, ?_, ?_⟩ (fun q hq ↦ by simp [hq]) (fun _ _ ↦ rfl)
      (fun q hq ↦ by simp [hlock, Ne.symm hq]) }
  · simp only [update_self]
    exact hwhole.trans (by cases c <;> rfl)
  · simp [Pc.Holds]
  · simp only [update_self]
    cases c <;> exact hok

/-- Of the process that holds the lock. -/
theorem Inv.holder (hp : (t.pc p).Holds) : t.lock = some p ∧
    t.off.toNat + (t.pc p).ahead = ends s.off.toNat t.log ∧
    t.order = t.log.map Chunk.who ++ (t.pc p).entered p := by
  have hlock := (h.each p).lock.mp hp
  have hmark := h.mark
  have horder := h.order
  rw [ahead, hlock] at hmark
  rw [entered, hlock] at horder
  exact ⟨hlock, hmark, horder⟩

/-- The process that holds the lock moves a chunk at `f->off`. -/
theorem Inv.record {r : ℤ} {writes : Bool} {bytes : List UInt8} {ip : Dinode} {disk : Disk}
    (hp : t.pc p = .locked c) (hfile : File sb inum disk ip) (hr : r.toNat = bytes.length)
    (hsmall : writes → bytes.length ≤ chunkMax) (hfits : t.off.toNat + bytes.length < 2 ^ 32)
    (hok : (Pc.moved c r).Ok)
    (hdone : (Pc.moved c r).done = (Pc.locked c).done ++ if writes then bytes else [])
    (hin : ∀ j < bytes.length, (ip.content disk)[t.off.toNat + j]? = bytes[j]?)
    (hout : ∀ x, x < t.off.toNat ∨ t.off.toNat + bytes.length ≤ x →
      (ip.content disk)[x]? = (t.ip.content t.disk)[x]?) :
    Inv sb inum s (t.record p c r writes bytes ip disk) := by
  have hwhole := (h.each p).whole
  have hge := le_ends s.off.toNat t.log
  obtain ⟨hlock, hmark, horder⟩ := h.holder (p := p) (by rw [hp]; trivial)
  rw [hp] at hwhole hmark horder
  simp only [Pc.ahead, add_zero] at hmark
  have hends : ends s.off.toNat (t.record p c r writes bytes ip disk).log =
      t.off.toNat + bytes.length := (ends_concat _ _ _).trans (by rw [← hmark])
  refine ⟨⟨consecutive_concat h.consecutive hmark, ?_, fun d hd ↦ ?_, fun d hd j hj ↦ ?_,
    fun x hx ↦ ?_⟩, hfile, h.each_of (p := p) ⟨?_, ?_, ?_⟩ (fun q hq ↦ by simp [State.record, hq])
      (fun q hq ↦ ?_) (fun _ _ ↦ .rfl), ?_, hends.trans_lt hfits⟩
  · simp [State.record, State.entered, hlock, Pc.entered, horder]
  · rcases mem_append.mp hd with hd | hd
    · exact h.small d hd
    · obtain rfl := mem_singleton.mp hd
      exact hsmall
  · rcases mem_append.mp hd with hd | hd
    · have hbelow := (h.consecutive.within hd).2
      exact (hout _ (.inl (by omega))).trans (h.inPlace d hd j hj)
    · obtain rfl := mem_singleton.mp hd
      exact hin j hj
  · exact (hout x (by omega)).trans (h.outside x (by omega))
  · refine (written_concat _ _ _).trans ?_
    simp [State.record, hdone, hwhole]
  · simp [State.record, Pc.Holds, hlock]
  · simpa [State.record] using hok
  · exact (written_concat _ _ _).trans (by simp [Ne.symm hq])
  · rw [hends, ← hr]
    simp [State.ahead, State.record, hlock, Pc.ahead]

open UInt32

/-- `f->off` is advanced by what was moved, the lock is released and the process goes on. -/
theorem Inv.unlock {r : ℤ} {x : Pc × List UInt8} (hp : t.pc p = .moved c r) (hholds : ¬ x.1.Holds)
    (hok : x.1.Ok) (hdone : x.2 ++ x.1.done = (Pc.moved c r).done) :
    Inv sb inum s ((t.release r).resume p x) := by
  have hwhole := (h.each p).whole
  have hfits := h.fits
  obtain ⟨hlock, hmark, horder⟩ := h.holder (p := p) (by rw [hp]; trivial)
  rw [hp] at hwhole hmark horder
  rw [Pc.ahead] at hmark
  have hoff : (t.release r).off.toNat = ends s.off.toNat t.log := by
    simp only [release]
    split_ifs with hr
    · have hsmall : (ofNat r.toNat).toNat = r.toNat :=
        UInt32.toNat_ofNat_of_lt' (by simp only [UInt32.size]; omega)
      rw [toNat_add_of_lt (by omega), hsmall, hmark]
    · omega
  refine { h with
    order := horder
    mark := hoff
    each := h.each_of (p := p) ⟨?_, ?_, ?_⟩ (fun q hq ↦ by simp [State.resume, State.release, hq])
      (fun _ _ ↦ rfl) (fun q hq ↦ by simp [State.resume, State.release, hlock, Ne.symm hq]) }
  · simp [State.resume, State.release, hdone, hwhole]
  · simpa [State.resume, State.release] using hholds
  · simpa [State.resume] using hok

variable {devsw : Devsw}

theorem Inv.read {n : UInt32} (hp : t.pc p = .locked (.fileread n))
    (hstep : step devsw sb inum t (.move p) = .next u) : Inv sb inum s u := by
  simp only [step, hp] at hstep
  by_cases hfails : ReadFails t.ip t.off n
  · rw [(readi_spec h.file.notDev h.file.full t.off n).1 hfails] at hstep
    cases hstep
    exact h.record hp h.file rfl (by simp) t.off.toNat_lt trivial rfl (by simp) fun _ _ ↦ rfl
  · rw [(readi_spec h.file.notDev h.file.full t.off n).2 hfails] at hstep
    cases hstep
    have hle : ¬ t.ip.size.toNat < t.off.toNat := fun hlt ↦ hfails (.inl hlt)
    have hlt := t.ip.size.toNat_lt
    refine h.record hp h.file ?_ (by simp) ?_ trivial rfl (fun j hj ↦ ?_) fun _ _ ↦ rfl
    · rw [Int.toNat_natCast]
      simp [Dinode.content]
    · simp only [Dinode.content, length_take, length_drop, length_map,
        length_range]
      omega
    · simp only [length_take] at hj
      rw [getElem?_take_of_lt (by omega), getElem?_drop]

theorem Inv.write {addr : ℕ → UInt8} {n : ℤ} {i : ℕ} (hp : t.pc p = .locked (.filewrite addr n i))
    (hquiet : ¬ WriteFails t.ip t.off (.ofNat (chunkSize n i)))
    (hstep : step devsw sb inum t (.move p) = .next u) : Inv sb inum s u := by
  have hmax : chunkSize n i ≤ chunkMax := min_le_right _ _
  have hchunk : (ofNat (chunkSize n i)).toNat = chunkSize n i :=
    toNat_ofNat_of_lt' (lt_of_le_of_lt hmax (by decide))
  have hok := (h.each p).ok
  rw [hp] at hok
  simp only [step, hp] at hstep
  rcases h.file.writei devsw (fun k ↦ addr (i + k)) hquiet with
    ⟨ip', d', hwrite, hcontent, hfile⟩ | ⟨herror, -⟩
  · rw [hwrite, hchunk] at hstep
    cases hstep
    rw [hchunk] at hcontent
    simp only [WriteFails, not_or, lt_iff_toNat_lt, hchunk] at hquiet
    have hlen : (data addr i (chunkSize n i)).length = chunkSize n i := by simp [data]
    have hoff : t.off.toNat ≤ (t.ip.content t.disk).length := by
      simp [Dinode.content]
      omega
    have hget := overlay_getElem? (data addr i (chunkSize n i)) hoff
    rw [← data] at hcontent
    refine h.record hp hfile ?_ ?_ ?_ ⟨hok, rfl⟩ ?_ (fun j hj ↦ ?_) fun x hx ↦ ?_
    all_goals simp only [Int.toNat_natCast] at *
    · exact hlen.symm
    · exact fun _ ↦ hlen.trans_le hmax
    · omega
    · exact data_add addr i _
    · rw [hcontent, hget, if_pos (by omega), Nat.add_sub_cancel_left]
    · rw [hcontent, hget, if_neg (by omega)]
  · rw [herror] at hstep
    cases hstep

theorem Inv.step {e : Event P} (hquiet : Quiet sb inum t e)
    (hstep : step devsw sb inum t e = .next u) : Inv sb inum s u := by
  cases e with
  | «begin» p c =>
    simp only [SharedFile.step] at hstep
    split at hstep
    · rename_i hp
      cases hstep
      split_ifs
      · exact h.resume (by simp [hp, Pc.Holds]) id trivial (by simp [hp, Pc.done])
      · exact h
    · rename_i addr n _ hp
      cases hstep
      split_ifs
      · obtain ⟨hholds, hok, hdone⟩ := loop_spec addr (n := n) (i := 0) (.inr rfl)
        exact h.resume (by simp [hp, Pc.Holds]) hholds hok
          (hdone.trans (by simp [hp, Pc.done, data]))
      · exact h
    · cases hstep
  | lock p =>
    simp only [SharedFile.step] at hstep
    split at hstep <;> cases hstep
    rename_i hp hlock
    exact h.acquire hp hlock
  | move p =>
    cases hp : t.pc p with
    | locked c =>
      cases c with
      | fileread n => exact h.read hp hstep
      | filewrite addr n i => exact h.write hp (hquiet addr n i hp) hstep
    | _ => simp [SharedFile.step, hp] at hstep
  | unlock p =>
    have hok := (h.each p).ok
    simp only [SharedFile.step] at hstep
    split at hstep
    · rename_i hp
      cases hstep
      exact h.unlock hp id trivial rfl
    · rename_i addr n i r hp
      rw [hp] at hok
      obtain ⟨hlt, hr⟩ := hok
      rw [if_neg (by omega), if_neg (not_not.mpr hr)] at hstep
      cases hstep
      obtain ⟨hholds, hok, hdone⟩ := loop_spec addr (n := n) (i := i + r.toNat)
        (.inl (by rw [hr, chunkSize]; omega))
      exact h.unlock hp hholds hok hdone
    · cases hstep
  | other d =>
    cases hstep
    obtain ⟨hfile, hcontent⟩ := hquiet
    exact { h with
      file := hfile
      each := fun p ↦ ⟨(h.each p).whole, (h.each p).lock, (h.each p).ok⟩
      inPlace := by simpa only [hcontent] using h.inPlace
      outside := by simpa only [hcontent] using h.outside }

end

end Steps

/-- No call is in progress, and nothing is recorded. -/
def Fresh (s : State P) : Prop :=
  (∀ p, s.pc p = .user ∧ s.given p = []) ∧ s.lock = none ∧ s.order = [] ∧ s.log = []

/-- In every interleaving the chunks lie one behind the other in the order in which the lock was
taken, the file holds each at its place and is otherwise as it was, every offset between the first
and the last belongs to one chunk, and what a process has written is what its calls were given. -/
theorem sharedOffsets [DecidableEq P] (devsw : Devsw) (sb : SuperBlock) (inum : ℕ)
    (s t : State P) (es : List (Event P)) (hfile : File sb inum s.disk s.ip) (hfresh : Fresh s)
    (hquiet : Meets (step devsw sb inum) (Quiet sb inum) s es)
    (hrun : run (step devsw sb inum) s es = some t) :
    Shared s t ∧ (t.log.Pairwise fun b c ↦ b.off + b.bytes.length ≤ c.off) ∧
      (∀ x, s.off.toNat ≤ x ∧ x < ends s.off.toNat t.log ↔
        ∃ c ∈ t.log, c.off ≤ x ∧ x < c.off + c.bytes.length) ∧
      ∀ p, written p t.log = t.given p ++ (t.pc p).done := by
  obtain ⟨hidle, hlock, horder, hlog⟩ := hfresh
  have hstart : Inv sb inum s s := by
    refine ⟨⟨?_, ?_, ?_, ?_, fun _ _ ↦ rfl⟩, hfile, fun p ↦ ?_, ?_, ?_⟩
    · rw [hlog]
      trivial
    · simp [horder, hlog, State.entered, hlock]
    · simp [hlog]
    · simp [hlog]
    · obtain ⟨hpc, hgiven⟩ := hidle p
      exact ⟨by simp [hlog, hpc, hgiven, written, Pc.done], by simp [hpc, hlock, Pc.Holds],
        hpc ▸ trivial⟩
    · simp [hlog, State.ahead, hlock, ends]
    · rw [hlog]
      exact s.off.toNat_lt
  have hinv : Inv sb inum s t := run_induction_of_meets (I := fun _ u ↦ Inv sb inum s u) hstart
    (fun _ _ _ _ _ h hq hstep ↦ h.step hq hstep) hquiet hrun
  exact ⟨hinv.toShared, hinv.consecutive.disjoint, fun x ↦ hinv.consecutive.covers,
    fun p ↦ (hinv.each p).whole⟩

/-- The file of the small disk, open at its beginning. -/
def opened : State ℕ :=
  ⟨smallDisk 4 31, oneByteFile 4, none, 0, true, true, fun _ ↦ .user, [], [], fun _ ↦ []⟩

/-- Process 0 writes 1537 bytes, in two chunks. Process 1 reads a byte before the first of them,
writes a byte between the two, and reads again after the second. -/
def turns : List (Event ℕ) :=
  [.begin 0 (.filewrite .ofNat 1537 0), .begin 1 (.fileread 1), .lock 1, .move 1, .unlock 1,
    .lock 0, .begin 1 (.filewrite (fun _ ↦ 5) 1 0), .move 0, .unlock 0, .lock 1, .move 1,
    .unlock 1, .begin 1 (.fileread 1), .lock 0, .move 0, .unlock 0, .lock 1, .move 1]

/-- `Quiet`, where no other call changes the disk. -/
def calm (s : State ℕ) : Event ℕ → Bool
  | .other _ => false
  | .move p =>
    match s.pc p with
    | .locked (.filewrite _ n i) => ¬ WriteFails s.ip s.off (.ofNat (chunkSize n i))
    | _ => true
  | _ => true

theorem quiet_of_calm {sb : SuperBlock} {inum : ℕ} {s : State ℕ} {e : Event ℕ} (h : calm s e) :
    Quiet sb inum s e := by
  cases e with
  | other d => cases h
  | move p =>
    intro addr n i hpc
    simpa [calm, hpc] using h
  | _ => trivial

theorem sharedOffsets_turns : ∃ t, run (step noDevices smallSb 2) opened turns = some t ∧
    t.order = [1, 0, 1, 0, 1] ∧ t.log.map Chunk.off = [0, 1, 1537, 1538, 1539] ∧
    t.log.map (fun c ↦ c.bytes.length) = [1, 1536, 1, 1, 0] ∧
    written 0 t.log = (List.range 1537).map .ofNat := by
  have hfile : File smallSb 2 opened.disk opened.ip := ⟨smallDisk_sound, by decide,
    (smallDisk_inodes 4 31).2.1, by decide, by decide, oneByteFile_full⟩
  have hcalm : Meets (step noDevices smallSb 2) (fun s e ↦ calm s e = true) opened turns := by
    decide +kernel
  obtain ⟨-, -, -, hwritten⟩ := sharedOffsets noDevices smallSb 2 opened _ turns hfile
    ⟨fun _ ↦ ⟨rfl, rfl⟩, rfl, rfl, rfl⟩
    (fun es e fs u heq hu ↦ quiet_of_calm (hcalm es e fs u heq hu)) (run_get (by decide +kernel))
  exact ⟨_, run_get _, by decide +kernel, by decide +kernel, by decide +kernel,
    (hwritten 0).trans (by decide +kernel)⟩

end EasyKernels.Xv6.SharedFile
