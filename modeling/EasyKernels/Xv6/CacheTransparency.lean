import EasyKernels.Lib.MapTrace
import EasyKernels.Xv6.BufferCache

/-!
# The buffer cache is transparent

Seen by the processes, the cache is a plain map from blocks to data. `label` is what a process sees
of a step: data it stores in a buffer, and the data `bread` returns to it. `Coherent` relates a
state to the plain map: a valid buffer holds the map's data for its block, and so does the disk,
unless a valid buffer of that block is dirty or has been changed since the last `bwrite` or
`log_write` of it (`pending`). `coherent_of_run` has this along every run, `cacheTransparent` is
what follows for the processes.

Assumes: a process calls `bwrite` or `log_write` between the last change of a buffer and `brelse`
(`Disciplined`). The driver knows two drives and selects one by the low bit of the device number, so
the map is the disk's only as far as no two device numbers in use select the same drive
(`NoAlias`); `sharedDrive` is a run of two that do.
-/

set_option autoImplicit false

namespace EasyKernels.Xv6.BufferCache

open Function Lib.Runs Lib.MapTrace

variable {P : Type*}

/-! ### What the processes do and see -/

section Client

variable [DecidableEq P]

/-- Whether `p` has changed buffer `i` since it last called `bwrite` or `log_write` for it. -/
def pendingStep (p : P) (i : Fin nBuf) (pending : Bool) : Event P → Bool
  | .store q j _ => if q = p ∧ j = i then true else pending
  | .bwrite q j | .logWrite q j => if q = p ∧ j = i then false else pending
  | _ => pending

variable (es : List (Event P))

def pending (p : P) (i : Fin nBuf) : Bool :=
  es.foldl (pendingStep p i) false

/-- No process calls `brelse` for a buffer it has changed without a `bwrite` or `log_write`
since. -/
def Disciplined : Prop :=
  ∀ before p i after, es = before ++ .brelse p i :: after → pending before p i = false

/-- No two devices whose blocks are read select the same drive. -/
def NoAlias : Prop :=
  ∀ p dev blockno q dev' blockno', .bget p dev blockno ∈ es → .bget q dev' blockno' ∈ es →
    dev &&& 1 = dev' &&& 1 → dev = dev'

omit [DecidableEq P] in
/-- What a process sees of a step: the data it stores in a buffer, the data that `bread` returns. -/
def label (s : State P) : Event P → Option (Access (UInt32 × UInt32) Block)
  | .store _ i data => some (.write (s.buf i).key data)
  | .breadReturn p =>
    match (s.pc p).request with
    | some (k, i) => some (.read k (s.buf i).data)
    | none => none
  | _ => none

theorem pending_concat (e : Event P) (p : P) (i : Fin nBuf) :
    pending (es ++ [e]) p i = pendingStep p i (pending es p i) e := by
  simp [pending]

variable {es : List (Event P)} {i : Fin nBuf}

theorem Disciplined.of_append {fs : List (Event P)} (h : Disciplined (es ++ fs)) : Disciplined es :=
  fun before p i after heq ↦ h before p i (after ++ fs) (by simp [heq])

/-- `Disciplined` at one event of a list, as a test. -/
def releaseOk (es : List (Event P)) (n : ℕ) : Bool :=
  match es[n]? with
  | some (.brelse p i) => !pending (es.take n) p i
  | _ => true

theorem disciplined_of_releaseOk (h : ∀ n < es.length, releaseOk es n = true) : Disciplined es := by
  rintro before p i after rfl
  have hn := h before.length (by simp)
  simpa [releaseOk] using hn

/-! ### Coherence -/

/-- The cache and the disk hold the blocks of a plain map. `devs` are the devices in use and
`pend` tells the buffers that have been changed since their last `bwrite` or `log_write`. -/
structure Coherent (devs : Set UInt32) (m : UInt32 × UInt32 → Block) (pend : P → Fin nBuf → Bool)
    (s : State P) : Prop where
  data_eq : ∀ i, (s.buf i).valid = true → (s.buf i).data = m (s.buf i).key
  disk_eq : ∀ k : UInt32 × UInt32, k.1 ∈ devs → s.disk (k.1 &&& 1) k.2 = m k ∨
    ∃ i, (s.buf i).valid = true ∧ (s.buf i).key = k ∧
      ((s.buf i).dirty = true ∨ ∃ p, pend p i = true)
  lock_of_pend : ∀ p i, pend p i = true → (s.buf i).lock = some p ∧ (s.buf i).valid = true
  dev_mem : ∀ i, (s.buf i).InUse → (s.buf i).dev ∈ devs

variable {devs : Set UInt32} {m : UInt32 × UInt32 → Block} {pend : P → Fin nBuf → Bool}
  {s t : State P}

/-- A buffer has data of a block that the disk need not have. -/
def Newer (pend : P → Fin nBuf → Bool) (i : Fin nBuf) (b : Buf P) (k : UInt32 × UInt32) : Prop :=
  b.valid = true ∧ b.key = k ∧ (b.dirty = true ∨ ∃ p, pend p i = true)

section

omit [DecidableEq P]

/-- One buffer changes, and with it the map, the disk and what is pending. -/
theorem Coherent.change (h : Coherent devs m pend s) {b : Buf P} {m' : UInt32 × UInt32 → Block}
    {pend' : P → Fin nBuf → Bool} (hbuf : t.buf = update s.buf i b)
    (hmap : ∀ j, j ≠ i → (s.buf j).valid = true → m' (s.buf j).key = m (s.buf j).key)
    (hpend : ∀ p j, j ≠ i → pend' p j = pend p j) (hdata : b.valid = true → b.data = m' b.key)
    (hdisk : ∀ k : UInt32 × UInt32, k.1 ∈ devs →
      s.disk (k.1 &&& 1) k.2 = m k ∨ Newer pend i (s.buf i) k →
        t.disk (k.1 &&& 1) k.2 = m' k ∨ Newer pend' i b k)
    (hlock : ∀ p, pend' p i = true → b.lock = some p ∧ b.valid = true)
    (huse : b.InUse → b.dev ∈ devs) : Coherent devs m' pend' t := by
  have hself : t.buf i = b := by rw [hbuf, update_self]
  have hother : ∀ {j}, j ≠ i → t.buf j = s.buf j := fun hj ↦ by rw [hbuf, update_of_ne hj]
  refine ⟨fun j hj ↦ ?_, fun k hk ↦ ?_, fun p j hp ↦ ?_, fun j hj ↦ ?_⟩
  · by_cases hji : j = i
    · rw [hji, hself] at hj ⊢
      exact hdata hj
    · rw [hother hji] at hj ⊢
      rw [hmap j hji hj, h.data_eq j hj]
  · rcases h.disk_eq k hk with heq | ⟨j, hj, hkey, hnewer⟩
    · exact (hdisk k hk (.inl heq)).imp_right fun hnew ↦ ⟨i, by rwa [hself]⟩
    · rcases eq_or_ne j i with rfl | hji
      · exact (hdisk k hk (.inr ⟨hj, hkey, hnewer⟩)).imp_right fun hnew ↦ ⟨j, by rwa [hself]⟩
      · refine .inr ⟨j, ?_⟩
        simp only [hother hji, hpend _ _ hji]
        exact ⟨hj, hkey, hnewer⟩
  · by_cases hji : j = i
    · rw [hji] at hp ⊢
      rw [hself]
      exact hlock p hp
    · rw [hpend p j hji] at hp
      rw [hother hji]
      exact h.lock_of_pend p j hp
  · by_cases hji : j = i
    · rw [hji, hself] at hj ⊢
      exact huse hj
    · rw [hother hji] at hj ⊢
      exact h.dev_mem j hj

/-- The holder and the reference count of a buffer change. Assumes: a process that has changed the
buffer keeps it, and a buffer that comes into use is of a device in use. -/
theorem Coherent.setHolder (h : Coherent devs m pend s) {lock : Option P} {refcnt : ℕ}
    (hdisk : t.disk = s.disk)
    (hbuf : t.buf = update s.buf i { s.buf i with lock := lock, refcnt := refcnt })
    (hlock : ∀ p, pend p i = true → lock = some p) (huse : 0 < refcnt → (s.buf i).dev ∈ devs) :
    Coherent devs m pend t :=
  h.change hbuf (fun _ _ _ ↦ rfl) (fun _ _ _ ↦ rfl) (h.data_eq i)
    (fun k _ hk ↦ by rw [hdisk]; exact hk)
    (fun p hp ↦ ⟨hlock p hp, (h.lock_of_pend p i hp).2⟩)
    fun hi ↦ hi.elim (fun hvalid ↦ h.dev_mem i (.inl hvalid)) huse

/-- A buffer that is neither dirty nor changed gives way to another block. -/
theorem Coherent.recycle (h : Coherent devs m pend s) {b : Buf P}
    (hclean : (s.buf i).dirty = false) (hlock : (s.buf i).lock = none) (hdisk : t.disk = s.disk)
    (hbuf : t.buf = update s.buf i b) (hvalid : b.valid = false) (hdev : b.dev ∈ devs) :
    Coherent devs m pend t := by
  have hpend : ∀ p, pend p i ≠ true := by
    intro p hp
    have hp' := (h.lock_of_pend p i hp).1
    simp [hlock] at hp'
  refine h.change hbuf (fun _ _ _ ↦ rfl) (fun _ _ _ ↦ rfl) (by simp [hvalid])
    (fun k _ hk ↦ .inl ?_) (fun p hp ↦ (hpend p hp).elim) fun _ ↦ hdev
  rw [hdisk]
  rcases hk with heq | ⟨-, -, hdirty | ⟨p, hp⟩⟩
  · exact heq
  · simp [hclean] at hdirty
  · exact (hpend p hp).elim

/-- Two buffers in use that carry the same block are one. -/
theorem Listed.eq_of_key (h : Listed s) {j : Fin nBuf} (hi : (s.buf i).InUse) (hj : (s.buf j).InUse)
    (hkey : (s.buf i).key = (s.buf j).key) : i = j := by
  have hfound := h.found i hi
  rw [show (s.buf i).dev = (s.buf j).dev from congrArg Prod.fst hkey,
    show (s.buf i).blockno = (s.buf j).blockno from congrArg Prod.snd hkey, h.found j hj] at hfound
  exact (Option.some.inj hfound).symm

/-- A process stores data in a buffer that it holds, and the plain map stores it too. -/
theorem Coherent.store (h : Coherent devs m pend s) (hlisted : Listed s) {p : P} {data : Block}
    (hlock : (s.buf i).lock = some p) (hvalid : (s.buf i).valid = true)
    {pend' : P → Fin nBuf → Bool} (hself : pend' p i = true)
    (hpend : ∀ q j, j ≠ i → pend' q j = pend q j)
    (hpend' : ∀ q, pend' q i = true → q = p ∨ pend q i = true) :
    Coherent devs (update m (s.buf i).key data) pend'
      (s.setBuf i { s.buf i with data := data }) := by
  refine h.change rfl (fun j hji hj ↦ update_of_ne (fun heq ↦ ?_) _ _) hpend
    (fun _ ↦ (update_self (s.buf i).key data m).symm) (fun k _ hk ↦ ?_)
    (fun q hq ↦ ⟨?_, hvalid⟩) (h.dev_mem i)
  · exact hji (hlisted.eq_of_key (.inl hj) (.inl hvalid) heq)
  · by_cases hki : k = (s.buf i).key
    · exact .inr ⟨hvalid, hki.symm, .inr ⟨p, hself⟩⟩
    · rw [update_of_ne hki]
      exact .inl (hk.resolve_right fun hnewer ↦ hki hnewer.2.1.symm)
  · rcases hpend' q hq with rfl | hq
    · exact hlock
    · exact (h.lock_of_pend q i hq).1

/-- The drive has written a buffer: its block on the disk is what the buffer holds. Assumes: no two
devices in use select the same drive. -/
theorem Coherent.written (h : Coherent devs m pend s)
    (halias : ∀ dev ∈ devs, ∀ dev' ∈ devs, dev &&& 1 = dev' &&& 1 → dev = dev')
    (hcommand : s.command = some (s.buf i).command) (hvalid : (s.buf i).valid = true)
    (hdirty : (s.buf i).dirty = true) (hdisk : t.disk = s.written)
    (hbuf : t.buf = update s.buf i { s.buf i with dirty := false }) :
    Coherent devs m pend t := by
  have hwritten : t.disk = update s.disk ((s.buf i).dev &&& 1)
      (update (s.disk ((s.buf i).dev &&& 1)) (s.buf i).blockno (s.buf i).data) := by
    rw [hdisk, State.written, hcommand, Buf.command, hdirty]
    rfl
  refine h.change hbuf (fun _ _ _ ↦ rfl) (fun _ _ _ ↦ rfl) (h.data_eq i) (fun k hk hold ↦ .inl ?_)
    (fun p ↦ h.lock_of_pend p i) (h.dev_mem i)
  by_cases hki : k = (s.buf i).key
  · rw [hwritten, hki, ← h.data_eq i hvalid]
    simp [Buf.key]
  · rw [← hold.resolve_right fun hnewer ↦ hki hnewer.2.1.symm, hwritten]
    by_cases hdrive : k.1 &&& 1 = (s.buf i).dev &&& 1
    · have hdev := halias k.1 hk _ (h.dev_mem i (.inl hvalid)) hdrive
      have hblock : k.2 ≠ (s.buf i).blockno := fun heq ↦ hki (Prod.ext hdev heq)
      rw [hdrive, update_self, update_of_ne hblock]
    · rw [update_of_ne hdrive]

/-- The drive has read a buffer: it holds the plain map's data. -/
theorem Coherent.read (h : Coherent devs m pend s) (hlisted : Listed s)
    (hcommand : s.command = some (s.buf i).command) (hvalid : (s.buf i).valid = false)
    (hdirty : (s.buf i).dirty = false) (huse : (s.buf i).InUse) (hdisk : t.disk = s.written)
    (hbuf : t.buf = update s.buf i
      { s.buf i with data := s.offered (s.buf i).data, valid := true }) :
    Coherent devs m pend t := by
  have hread : (s.buf i).command = .read ((s.buf i).dev &&& 1) (s.buf i).blockno := by
    rw [Buf.command, hdirty]
    rfl
  refine h.change hbuf (fun _ _ _ ↦ rfl) (fun _ _ _ ↦ rfl) (fun _ ↦ ?_) (fun k _ hk ↦ .inl ?_)
    (fun p hp ↦ ⟨(h.lock_of_pend p i hp).1, rfl⟩) fun _ ↦ h.dev_mem i huse
  · change s.offered (s.buf i).data = m (s.buf i).key
    rw [State.offered, hcommand, hread]
    rcases h.disk_eq (s.buf i).key (h.dev_mem i huse) with heq | ⟨j, hj, hkey, -⟩
    · exact heq
    · obtain rfl := hlisted.eq_of_key (.inl hj) huse hkey
      simp [hvalid] at hj
  · rw [hdisk, State.written, hcommand, hread]
    exact hk.resolve_right fun hnewer ↦ by simp [hvalid, Newer] at hnewer

end

/-- `bwrite` and `log_write` mark a buffer dirty, and its changes need not be remembered. -/
theorem Coherent.dirty (h : Coherent devs m pend s) (p : P)
    (hdisk : t.disk = s.disk) (hbuf : t.buf = update s.buf i { s.buf i with dirty := true }) :
    Coherent devs m (fun q j ↦ if p = q ∧ i = j then false else pend q j) t := by
  refine h.change hbuf (fun _ _ _ ↦ rfl) (fun q j hj ↦ by simp [Ne.symm hj]) (h.data_eq i)
    (fun k _ hk ↦ ?_) (fun q hq ↦ h.lock_of_pend q i (by split_ifs at hq; exact hq)) (h.dev_mem i)
  rw [hdisk]
  exact hk.imp_right fun ⟨hvalid, hkey, _⟩ ↦ ⟨hvalid, hkey, .inl rfl⟩

/-! ### One step -/

/-- The plain map after what a process sees of a step. -/
def observe (m : UInt32 × UInt32 → Block) (access : Option (Access (UInt32 × UInt32) Block)) :
    UInt32 × UInt32 → Block :=
  match access with
  | some access => access.apply m
  | none => m

variable [Fintype P]

/-- A step keeps the cache coherent. Assumes: the devices of `bget` are in use, no two of them
select the same drive, and `brelse` is called for no buffer that was changed. -/
theorem Coherent.step (h : Coherent devs m pend s) (hinv : Inv s) {e : Event P}
    (halias : ∀ dev ∈ devs, ∀ dev' ∈ devs, dev &&& 1 = dev' &&& 1 → dev = dev')
    (hdevs : ∀ p dev blockno, e = .bget p dev blockno → dev ∈ devs)
    (hclient : ∀ p i, e = .brelse p i → pend p i = false) (hnext : Next s e t) :
    Coherent devs (observe m (label s e)) (fun p i ↦ pendingStep p i (pend p i) e) t := by
  have hpos : ∀ {i p}, (s.buf i).lock = some p → 0 < (s.buf i).refcnt := by
    intro i p hlock
    rw [Nat.pos_iff_ne_zero]
    intro hzero
    simp [(hinv.counted.unlocked hzero).1] at hlock
  cases hnext with
  | @bgetHit p dev blockno i hp hfound =>
    have hkey := List.find?_some hfound
    simp only [decide_eq_true_eq] at hkey
    exact h.setHolder rfl rfl (fun q hq ↦ (h.lock_of_pend q i hq).1)
      fun _ ↦ hkey.1 ▸ hdevs p dev blockno rfl
  | @bgetRecycle p dev blockno i hp hnone hrefcnt hclean =>
    exact h.recycle hclean (hinv.counted.unlocked hrefcnt).1 rfl rfl rfl (hdevs p dev blockno rfl)
  | @acquiresleep p dev blockno i hp hlock =>
    refine h.setHolder rfl rfl (fun q hq ↦ ?_) fun hrefcnt ↦ h.dev_mem i (.inr hrefcnt)
    have hheld := (h.lock_of_pend q i hq).1
    simp [hlock] at hheld
  | iderw =>
    exact ⟨h.data_eq, h.disk_eq, h.lock_of_pend, h.dev_mem⟩
  | ideintrIdle => exact h
  | @ideintr i rest command hqueue =>
    obtain ⟨p, hlock, -, hflags⟩ := hinv.queued.waits i (by simp [hqueue])
    have hstarted := hinv.queued.command_eq i (by simp [hqueue])
    cases hdirty : (s.buf i).dirty with rw [hdirty] at hflags
    | true =>
      refine h.written halias hstarted hflags hdirty rfl ?_
      simp [State.setBuf, State.served, hdirty, hflags]
    | false =>
      refine h.read hinv.listed hstarted hflags hdirty (.inr (hpos hlock)) rfl ?_
      simp [State.setBuf, State.served, hdirty]
  | @breadReturn p =>
    have hsame : observe m (label s (.breadReturn p)) = m := by
      simp only [label]
      split <;> rfl
    rw [hsame]
    exact ⟨h.data_eq, h.disk_eq, h.lock_of_pend, h.dev_mem⟩
  | @store p i data hp hlock =>
    have hvalid := (hinv.locked.fits p i).valid_of_lock hlock (by simp [hp, Pc.unread])
    refine h.store hinv.listed hlock hvalid (by simp [pendingStep])
      (fun q j hj ↦ by simp [pendingStep, Ne.symm hj]) fun q hq ↦ ?_
    simp only [pendingStep] at hq
    split_ifs at hq with heq
    · exact .inl heq.1.symm
    · exact .inr hq
  | @bwrite p i command hp hlock | @logWrite p i hp hlock =>
    have hvalid := (hinv.locked.fits p i).valid_of_lock hlock (by simp [hp, Pc.unread])
    exact h.dirty p rfl rfl
  | bwriteReturn => exact ⟨h.data_eq, h.disk_eq, h.lock_of_pend, h.dev_mem⟩
  | @brelse p i hp hlock =>
    refine h.setHolder rfl rfl (fun q hq ↦ ?_) fun hrefcnt ↦ h.dev_mem i (.inr hrefcnt)
    have hheld := (h.lock_of_pend q i hq).1
    rw [hlock] at hheld
    cases hheld
    simp [hclient p i rfl] at hq
  | @brelseReturn p i order hp =>
    refine h.setHolder rfl rfl (fun q hq ↦ (h.lock_of_pend q i hq).1) fun _ ↦ ?_
    exact h.dev_mem i (.inl ((hinv.locked.fits p i).valid_of_releasing hp))

/-! ### Runs -/

variable (disk : UInt32 → UInt32 → Block)

/-- The plain map that the disks hold at the start. -/
def blocks (k : UInt32 × UInt32) : Block := disk (k.1 &&& 1) k.2

omit [DecidableEq P] [Fintype P] in
theorem coherent_initial (havedisk1 : Bool) :
    Coherent devs (blocks disk) (fun (_ : P) _ ↦ false) (initial disk havedisk1) where
  data_eq := by simp [initial, Buf.zero]
  disk_eq := fun _ _ ↦ .inl rfl
  lock_of_pend := by simp
  dev_mem := by simp [initial, Buf.zero, Buf.InUse]

omit [Fintype P] in
theorem replay_concat_toList (accesses : List (Access (UInt32 × UInt32) Block))
    (access : Option (Access (UInt32 × UInt32) Block)) :
    replay m (accesses ++ access.toList) = observe (replay m accesses) access := by
  cases access with
  | none => simp [observe]
  | some access => exact replay_concat m accesses access

/-- Along every run of disciplined processes the cache stays coherent with the plain map, and the
processes see nothing else. -/
theorem coherent_of_run {disk : UInt32 → UInt32 → Block} {havedisk1 : Bool}
    (hrun : run step (initial disk havedisk1) es = some s)
    (halias : ∀ dev ∈ devs, ∀ dev' ∈ devs, dev &&& 1 = dev' &&& 1 → dev = dev')
    (hdevs : ∀ p dev blockno, .bget p dev blockno ∈ es → dev ∈ devs) (hclient : Disciplined es) :
    Coherent devs (replay (blocks disk) (trace step label (initial disk havedisk1) es))
        (pending es) s ∧
      Faithful (blocks disk) (trace step label (initial disk havedisk1) es) := by
  refine run_induction (I := fun es s ↦ (∀ p dev blockno, .bget p dev blockno ∈ es → dev ∈ devs) →
    Disciplined es → Coherent devs (replay (blocks disk)
        (trace step label (initial disk havedisk1) es)) (pending es) s ∧
      Faithful (blocks disk) (trace step label (initial disk havedisk1) es))
    (fun _ _ ↦ ⟨coherent_initial disk havedisk1, trivial⟩) ?_ hrun hdevs hclient
  intro es u e t hu ih hstep hdevs hclient
  have hinv := inv_of_run hu
  have hnext := next_of_step hstep
  obtain ⟨hcoherent, hfaithful⟩ := ih (fun p dev blockno hmem ↦
    hdevs p dev blockno (List.mem_append_left _ hmem)) hclient.of_append
  rw [trace_concat _ hu hstep, replay_concat_toList]
  constructor
  · have hafter := hcoherent.step hinv halias (e := e)
      (fun p dev blockno heq ↦ hdevs p dev blockno (by simp [heq]))
      (fun p i heq ↦ hclient es p i [] (by rw [heq])) hnext
    rwa [show pending (es ++ [e]) = fun p i ↦ pendingStep p i (pending es p i) e from
      funext fun p ↦ funext fun i ↦ pending_concat es e p i]
  · cases hnext with
    | @breadReturn p dev blockno i hp hvalid =>
      have hrequest : (u.pc p).request = some ((dev, blockno), i) := by
        rcases hp with hp | ⟨hp, -⟩ <;> rw [hp] <;> rfl
      simp only [label, hrequest, Option.toList_some]
      refine faithful_concat_read.mpr ⟨hfaithful, ?_⟩
      rw [hcoherent.data_eq i hvalid, (hinv.locked.fits p i).key_eq _ hrequest]
    | store => exact faithful_concat_write.mpr hfaithful
    | _ => simpa [label] using hfaithful

omit [Fintype P] in
/-- A step leaves a buffer that is dirty or referenced at its block. -/
theorem Next.key_eq {e : Event P} (hnext : Next s e t)
    (hbusy : (s.buf i).dirty = true ∨ 0 < (s.buf i).refcnt) :
    (t.buf i).key = (s.buf i).key ∧ ((s.buf i).valid = true → (t.buf i).valid = true) := by
  have hupdate : ∀ {j : Fin nBuf} {b : Buf P}, b.key = (s.buf j).key →
      ((s.buf j).valid = true → b.valid = true) → (update s.buf j b i).key = (s.buf i).key ∧
        ((s.buf i).valid = true → (update s.buf j b i).valid = true) := by
    intro j b hkey hvalid
    rcases eq_or_ne i j with rfl | hij
    · rw [update_self]
      exact ⟨hkey, hvalid⟩
    · rw [update_of_ne hij]
      exact ⟨rfl, id⟩
  cases hnext with
  | @bgetRecycle p dev blockno j hp hnone hrefcnt hclean =>
    have hij : i ≠ j := by
      rintro rfl
      rw [hrefcnt, hclean] at hbusy
      simp at hbusy
    simp [State.setPc, State.setBuf, hij]
  | ideintr => exact hupdate rfl fun _ ↦ rfl
  | iderw | ideintrIdle | breadReturn | bwriteReturn => exact ⟨rfl, id⟩
  | _ => exact hupdate rfl id

/-- The buffer cache along every run of disciplined processes: at most one buffer carries a block of
a device other than 0; as long as no two devices in use select the same drive, every `bread` returns
the data last stored in a buffer for its block, or the first content of the disk; and no step
recycles a buffer that is dirty or referenced. -/
theorem cacheTransparent {disk : UInt32 → UInt32 → Block} {havedisk1 : Bool} {es : List (Event P)}
    (hrun : run step (initial disk havedisk1) es = some s) (hclient : Disciplined es) :
    (∀ i j, (s.buf i).key = (s.buf j).key → 0 < (s.buf i).dev → i = j) ∧
      (NoAlias es → Faithful (blocks disk) (trace step label (initial disk havedisk1) es)) ∧
      ∀ before e after u t, es = before ++ e :: after →
        run step (initial disk havedisk1) before = some u → step u e = .next t → ∀ i,
          (u.buf i).dirty = true ∨ 0 < (u.buf i).refcnt → (t.buf i).key = (u.buf i).key ∧
            ((u.buf i).valid = true → (t.buf i).valid = true) := by
  refine ⟨fun i j hkey hdev ↦ ?_, fun halias ↦ ?_, fun before e after u t _ _ hstep i hbusy ↦ ?_⟩
  · refine (inv_of_run hrun).listed.unique i j hkey fun hzero ↦ ?_
    rw [hzero] at hdev
    exact absurd hdev (by decide)
  · have hdrives : ∀ dev ∈ { dev | ∃ p blockno, .bget p dev blockno ∈ es },
        ∀ dev' ∈ { dev | ∃ p blockno, .bget p dev blockno ∈ es },
          dev &&& 1 = dev' &&& 1 → dev = dev' := by
      rintro dev ⟨p, blockno, hmem⟩ dev' ⟨q, blockno', hmem'⟩ hdrive
      exact halias p dev blockno q dev' blockno' hmem hmem' hdrive
    exact (coherent_of_run hrun hdrives (fun p dev blockno hmem ↦ ⟨p, blockno, hmem⟩) hclient).2
  · exact (next_of_step hstep).key_eq hbusy

end Client

/-! ### Two devices on one drive -/

/-- A process reads a block that is not cached. -/
def readBlock (p : P) (dev blockno : UInt32) : List (Event P) :=
  [.bget p dev blockno, .acquiresleep p, .iderw p, .ideintr, .breadReturn p]

/-- A process reads a block, which is not cached, into buffer `i`, changes it, writes it to the disk
and releases it. -/
def writeBlock (p : P) (dev blockno : UInt32) (i : Fin nBuf) (data : Block) : List (Event P) :=
  readBlock p dev blockno ++
    [.store p i data, .bwrite p i, .ideintr, .bwriteReturn p, .brelse p i, .brelseReturn p]

/-- A block of device 3 is written and the block of device 1 with the same number is read. -/
def sharedDrive (p : P) (i : Fin nBuf) (data : Block) : List (Event P) :=
  writeBlock p 3 5 i data ++ readBlock p 1 5

/-- A process writes a block of device 1; another reads the block of device 2 with the same number;
and the first reads its block again, from the cache. -/
def twoDrives (i : Fin nBuf) (data : Block) : List (Event Bool) :=
  writeBlock true 1 5 i data ++ readBlock false 2 5 ++
    [.bget true 1 5, .acquiresleep true, .breadReturn true]

theorem cacheTransparent_twoDrives :
    ∃ s, run step (initial (fun _ _ ↦ Lib.Bytes.zero bSize) true)
        (twoDrives ⟨0, by decide⟩ ((Lib.Bytes.zero bSize).put 0 [1])) = some s ∧
      (∀ i j, (s.buf i).key = (s.buf j).key → 0 < (s.buf i).dev → i = j) ∧
      Faithful (blocks fun _ _ ↦ Lib.Bytes.zero bSize)
        (trace step label (initial (fun _ _ ↦ Lib.Bytes.zero bSize) true)
          (twoDrives ⟨0, by decide⟩ ((Lib.Bytes.zero bSize).put 0 [1]))) := by
  have halias : NoAlias (twoDrives ⟨0, by decide⟩ ((Lib.Bytes.zero bSize).put 0 [1])) := by
    have hdev (p : Bool) (dev blockno : UInt32) (hmem : .bget p dev blockno ∈
        twoDrives ⟨0, by decide⟩ ((Lib.Bytes.zero bSize).put 0 [1])) : dev = 1 ∨ dev = 2 := by
      simp [twoDrives, writeBlock, readBlock] at hmem
      grind
    intro p dev blockno q dev' blockno' hmem hmem' hdrive
    rcases hdev p dev blockno hmem with rfl | rfl <;>
      rcases hdev q dev' blockno' hmem' with rfl | rfl
    · rfl
    · exact absurd hdrive (by decide)
    · exact absurd hdrive (by decide)
    · rfl
  have hrun := run_get (show (run step (initial (fun _ _ ↦ Lib.Bytes.zero bSize) true)
    (twoDrives ⟨0, by decide⟩ ((Lib.Bytes.zero bSize).put 0 [1]))).isSome by decide +kernel)
  obtain ⟨hone, hfaithful, -⟩ := cacheTransparent hrun
    (disciplined_of_releaseOk (by decide +kernel))
  exact ⟨_, hrun, hone, hfaithful halias⟩

/-- `bread` of a block of device 1 returns the data stored for the block of device 3 with the same
number. -/
theorem sharedDrive_not_faithful :
    Disciplined (sharedDrive () ⟨0, by decide⟩ ((Lib.Bytes.zero bSize).put 0 [1])) ∧
      (run step (initial (fun _ _ ↦ Lib.Bytes.zero bSize) true)
        (sharedDrive () ⟨0, by decide⟩ ((Lib.Bytes.zero bSize).put 0 [1]))).isSome = true ∧
      ¬ Faithful (blocks fun _ _ ↦ Lib.Bytes.zero bSize)
        (trace step label (initial (fun _ _ ↦ Lib.Bytes.zero bSize) true)
          (sharedDrive () ⟨0, by decide⟩ ((Lib.Bytes.zero bSize).put 0 [1]))) := by
  refine ⟨disciplined_of_releaseOk (by decide +kernel), by decide +kernel, fun hfaithful ↦ ?_⟩
  have hbytes : (trace step label (initial (fun _ _ ↦ Lib.Bytes.zero bSize) true)
      (sharedDrive () ⟨0, by decide⟩ ((Lib.Bytes.zero bSize).put 0 [1]))).map
        (Access.map fun data ↦ data.get 0) = [.read (3, 5) 0, .write (3, 5) 1, .read (1, 5) 1] := by
    decide +kernel
  have hseen := hfaithful.map fun data ↦ data.get 0
  rw [hbytes] at hseen
  simp [Faithful, blocks] at hseen

end EasyKernels.Xv6.BufferCache
