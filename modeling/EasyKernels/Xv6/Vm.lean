import EasyKernels.Lib.Allocation

/-!
# The virtual memory of xv6

`vm.c` and the callers of it that allocate pages: `fork`, `growproc`, `wait` and `exec`. The
functions are programs that call `kalloc` and `kfree`, where `kalloc` may fail. A page is given by
its physical address, a page directory by its page and its entries: the page tables that are
present, and in them the mappings that are present.

Scope. This is what is in the pages of a page directory for as long as nobody else writes to them;
the contents of the other pages are left out. Of `exec` there are the calls that allocate, the
values of the program headers, and whether the rest succeeds. The addresses that the linker defines
are parameters, and so is the table `kmap`, which `kmap` makes from `data`.
-/

set_option autoImplicit false

namespace EasyKernels.Xv6.Vm

open Lib.Allocation

/-! ### Memory layout -/

/-- `PGSIZE`. -/
def pgSize : ℕ := 4096

/-- `KERNBASE`. -/
def kernBase : ℕ := 0x80000000

/-- `EXTMEM`. -/
def extMem : ℕ := 0x100000

/-- `PHYSTOP`. -/
def physTop : ℕ := 0xE000000

/-- `DEVSPACE`. -/
def devSpace : ℕ := 0xFE000000

/-- An entry of `kmap`. It is in the kernel's part of the address space. -/
structure Kmap where
  virt : ℕ
  phys : ℕ
  size : ℕ
  w : Bool
  size_pos : 0 < size
  kernBase_le : kernBase ≤ virt
  end_le : virt + size ≤ 2 ^ 32

theorem kernBase_add_le {a b : ℕ} (hab : a ≤ b) (hb : b ≤ physTop) :
    kernBase + a + (b - a) ≤ 2 ^ 32 := by
  rw [Nat.add_assoc, Nat.add_sub_cancel' hab]
  exact (Nat.add_le_add_left hb kernBase).trans (by decide)

theorem extMem_le_physTop : extMem ≤ physTop := by decide

theorem extMem_pos : 0 < extMem := by decide

theorem kernBase_le_devSpace : kernBase ≤ devSpace := by decide

theorem devSpace_lt : devSpace < 2 ^ 32 := by decide

/-- `kmap`, for the physical address of the kernel's data. -/
def kmap (data : ℕ) (hlow : extMem < data) (hhigh : data < physTop) : List Kmap :=
  [⟨kernBase, 0, extMem, true, extMem_pos, le_rfl, kernBase_add_le (Nat.zero_le _)
  extMem_le_physTop⟩,
    ⟨kernBase + extMem, extMem, data - extMem, false, Nat.sub_pos_of_lt hlow, Nat.le_add_right _ _,
      kernBase_add_le hlow.le hhigh.le⟩,
    ⟨kernBase + data, data, physTop - data, true, Nat.sub_pos_of_lt hhigh, Nat.le_add_right _ _,
      kernBase_add_le hhigh.le le_rfl⟩,
    ⟨devSpace, devSpace, 2 ^ 32 - devSpace, true, Nat.sub_pos_of_lt devSpace_lt,
      kernBase_le_devSpace, (Nat.add_sub_cancel' devSpace_lt.le).le⟩]

/-- What the linker decides: the physical address of `end`, and `kmap`. -/
structure Layout where
  kend : ℕ
  kmap : List Kmap

def pgRoundUp (sz : ℕ) : ℕ := (sz + pgSize - 1) / pgSize * pgSize

def pgRoundDown (a : ℕ) : ℕ := a / pgSize * pgSize

/-- `PDX`. -/
def pdx (va : ℕ) : Fin 1024 := ⟨va / 2 ^ 22 % 1024, Nat.mod_lt _ (Nat.succ_pos 1023)⟩

/-- `PTX`. -/
def ptx (va : ℕ) : Fin 1024 := ⟨va / 2 ^ 12 % 1024, Nat.mod_lt _ (Nat.succ_pos 1023)⟩

/-- The addresses of a loop `for(; a < b; a += PGSIZE)`. -/
def pageAddrs (a b : ℕ) : List ℕ :=
  (List.range ((b + pgSize - 1 - a) / pgSize)).map fun i ↦ a + i * pgSize

/-! ### Page directories -/

/-- A mapping: `PTE_ADDR`, `PTE_W` and `PTE_U`. -/
structure Pte where
  pa : ℕ
  w : Bool
  u : Bool

/-- A page table; an entry is `none` if `PTE_P` is clear. -/
structure Pgtab where
  page : ℕ
  pte : Fin 1024 → Option Pte

structure Pgdir where
  page : ℕ
  pde : Fin 1024 → Option Pgtab

variable (pd : Pgdir)

def Pgdir.setPde (i : Fin 1024) (t : Pgtab) : Pgdir :=
  { pd with pde := Function.update pd.pde i (some t) }

/-- `walkpgdir` with `alloc` 0: the entry of an address, if there is a page table for it. -/
def findPte (va : ℕ) : Option (Option Pte) :=
  (pd.pde (pdx va)).map fun t ↦ t.pte (ptx va)

/-- A store to the entry of an address. -/
def Pgdir.setPte (va : ℕ) (e : Option Pte) : Pgdir :=
  match pd.pde (pdx va) with
  | some t => pd.setPde (pdx va) { t with pte := Function.update t.pte (ptx va) e }
  | none => pd

/-! ### `vm.c` -/

inductive Panic
  | kfree
  | remap
  | noPte
  | notPresent
  | loaduvm
  | clearpteu
  | userinit
  deriving DecidableEq

/-- A function that calls `kalloc` and `kfree`. -/
abbrev Kernel := Prog Panic ℕ

variable (lay : Layout)

def kalloc : Kernel (Option ℕ) := Prog.take

def kfree (v : ℕ) : Kernel Unit :=
  if v % pgSize ≠ 0 ∨ v < lay.kend ∨ physTop ≤ v then .fault .kfree else Prog.give v

variable (pd : Pgdir)

/-- `walkpgdir` with `alloc` 1. -/
def walkpgdir (va : ℕ) : Kernel (Pgdir × Option (Option Pte)) :=
  match findPte pd va with
  | some e => pure (pd, some e)
  | none => do
    match ← kalloc with
    | none => pure (pd, none)
    | some v => pure (pd.setPde (pdx va) ⟨v, fun _ ↦ none⟩, some none)

/-- The body of the loop of `mappages`. -/
def mapPage (w u : Bool) (a pa : ℕ) (pd : Pgdir) : Kernel (Pgdir × Bool) := do
  match ← walkpgdir pd a with
  | (pd, none) => pure (pd, false)
  | (_, some (some _)) => .fault .remap
  | (pd, some none) => pure (pd.setPte a (some ⟨pa, w, u⟩), true)

/-- The loop of `mappages`, with the number of pages after this one. -/
def mapLoop (w u : Bool) : ℕ → ℕ → ℕ → Pgdir → Kernel (Pgdir × Bool)
  | 0, a, pa, pd => mapPage w u a pa pd
  | n + 1, a, pa, pd => do
    match ← mapPage w u a pa pd with
    | (pd, true) => mapLoop w u n (a + pgSize) (pa + pgSize) pd
    | (pd, false) => pure (pd, false)

/-- `mappages`, and whether it has succeeded. -/
def mappages (va size pa : ℕ) (w u : Bool) : Kernel (Pgdir × Bool) :=
  mapLoop w u ((pgRoundDown (va + size - 1) - pgRoundDown va) / pgSize) (pgRoundDown va) pa pd

/-- The loop of `deallocuvm`. Where there is no page table, it goes on with the next one. -/
def deallocLoop (oldsz : ℕ) : ℕ → ℕ → Pgdir → Kernel Pgdir
  | 0, _, pd => pure pd
  | fuel + 1, a, pd =>
    if a < oldsz then
      match findPte pd a with
      | none => deallocLoop oldsz fuel ((a / 2 ^ 22 + 1) * 2 ^ 22) pd
      | some none => deallocLoop oldsz fuel (a + pgSize) pd
      | some (some e) =>
        if e.pa = 0 then .fault .kfree
        else do
          kfree lay e.pa
          deallocLoop oldsz fuel (a + pgSize) (pd.setPte a none)
    else pure pd

/-- `deallocuvm`. The size that it returns is the smaller one. -/
def deallocuvm (oldsz newsz : ℕ) : Kernel Pgdir :=
  if oldsz ≤ newsz then pure pd
  else deallocLoop lay oldsz (oldsz / pgSize + 1) (pgRoundUp newsz) pd

/-- The loop of `freevm` over the page tables. -/
def freeTables (pd : Pgdir) : List (Fin 1024) → Kernel Unit
  | [] => pure ()
  | i :: rest =>
    match pd.pde i with
    | some t => do
      kfree lay t.page
      freeTables pd rest
    | none => freeTables pd rest

def freevm : Kernel Unit := do
  let pd ← deallocuvm lay pd kernBase 0
  freeTables lay pd (List.finRange 1024)
  kfree lay pd.page

/-- The size of a user address space. -/
abbrev Size := { sz : ℕ // sz < kernBase }

theorem kernBase_pos : 0 < kernBase := by decide

/-- 0, which is also how `allocuvm` returns an error. -/
def Size.zero : Size := ⟨0, kernBase_pos⟩

/-- The loop of `allocuvm`. -/
def allocLoop (oldsz : ℕ) (newsz : Size) : List ℕ → Pgdir → Kernel (Pgdir × Size)
  | [], pd => pure (pd, newsz)
  | a :: rest, pd => do
    match ← kalloc with
    | none =>
      let pd ← deallocuvm lay pd newsz oldsz
      pure (pd, .zero)
    | some mem =>
      match ← mappages pd a pgSize mem true true with
      | (pd, true) => allocLoop oldsz newsz rest pd
      | (pd, false) =>
        let pd ← deallocuvm lay pd newsz oldsz
        kfree lay mem
        pure (pd, .zero)

/-- `allocuvm`, where a larger `oldsz` is the size of a user address space. -/
def allocuvm (oldsz newsz : ℕ) (hold : newsz < oldsz → oldsz < kernBase) : Kernel (Pgdir × Size) :=
  if hbig : kernBase ≤ newsz then pure (pd, .zero)
  else if hless : newsz < oldsz then pure (pd, ⟨oldsz, hold hless⟩)
  else
    allocLoop lay oldsz ⟨newsz, not_le.mp hbig⟩ (pageAddrs (pgRoundUp oldsz) newsz) pd

/-- The loop of `setupkvm`. -/
def kvmLoop : List Kmap → Pgdir → Kernel (Option Pgdir)
  | [], pd => pure (some pd)
  | k :: rest, pd => do
    match ← mappages pd k.virt k.size k.phys k.w false with
    | (pd, true) => kvmLoop rest pd
    | (pd, false) =>
      freevm lay pd
      pure none

def setupkvm : Kernel (Option Pgdir) := do
  match ← kalloc with
  | none => pure none
  | some v => kvmLoop lay lay.kmap ⟨v, fun _ ↦ none⟩

/-- The loop of `copyuvm`. -/
def copyLoop (pd : Pgdir) : List ℕ → Pgdir → Kernel (Option Pgdir)
  | [], d => pure (some d)
  | i :: rest, d =>
    match findPte pd i with
    | none => .fault .noPte
    | some none => .fault .notPresent
    | some (some e) => do
      match ← kalloc with
      | none =>
        freevm lay d
        pure none
      | some mem =>
        match ← mappages d i pgSize mem e.w e.u with
        | (d, true) => copyLoop pd rest d
        | (d, false) =>
          kfree lay mem
          freevm lay d
          pure none

def copyuvm (sz : ℕ) : Kernel (Option Pgdir) := do
  match ← setupkvm lay with
  | none => pure none
  | some d => copyLoop lay pd (pageAddrs 0 sz) d

/-- `loaduvm`, and whether the file can be read. -/
def loaduvm (addr sz : ℕ) (reads : Bool) : Kernel Bool :=
  if (pageAddrs addr (addr + sz)).all fun a ↦ (findPte pd a).isSome then pure reads
  else .fault .loaduvm

def clearpteu (uva : ℕ) : Kernel Pgdir :=
  match findPte pd uva with
  | none => .fault .clearpteu
  | some e => pure (pd.setPte uva (e.map fun e ↦ { e with u := false }))

/-! ### The callers -/

/-- What a process has: `kstack`, `pgdir` and `sz`. -/
structure Image where
  kstack : ℕ
  pgdir : Pgdir
  sz : Size

variable (im : Image)

/-- `fork`, with the stack that `allocproc` allocates. -/
def fork : Kernel (Option Image) := do
  match ← kalloc with
  | none => pure none
  | some kstack =>
    match ← copyuvm lay im.pgdir im.sz with
    | none =>
      kfree lay kstack
      pure none
    | some pgdir => pure (some ⟨kstack, pgdir, im.sz⟩)

/-- The part of `wait` that frees a child. -/
def wait : Kernel Unit := do
  kfree lay im.kstack
  freevm lay im.pgdir

/-- The end of `growproc`. It takes the size 0 for an error, and then leaves `sz` as it is. -/
def Image.resize (pd : Pgdir) (sz : Size) : Image :=
  if sz.val = 0 then { im with pgdir := pd } else { im with pgdir := pd, sz := sz }

def growproc (n : ℤ) : Kernel Image := do
  let newsz := ((im.sz.val + n) % 2 ^ 32).toNat
  if 0 < n then
    let (pd, sz) ← allocuvm lay im.pgdir im.sz newsz fun _ ↦ im.sz.2
    pure (im.resize pd sz)
  else if n < 0 then
    let pd ← deallocuvm lay im.pgdir im.sz newsz
    pure (im.resize pd ⟨min im.sz.val newsz, (min_le_left _ _).trans_lt im.sz.2⟩)
  else pure im

/-- A program header, and whether it and its segment can be read. -/
structure Segment where
  reads : Bool
  load : Bool
  vaddr : UInt32
  memsz : UInt32
  filesz : UInt32
  loads : Bool

/-- A program: whether it is found and has the right header, its segments, and whether the arguments
can be copied to the stack. -/
structure Program where
  opens : Bool
  segments : List Segment
  args : Bool

/-- The loop of `exec` over the program headers. It gives the size, or none for `goto bad`. -/
def loadLoop : List Segment → Pgdir → Size → Kernel (Pgdir × Option Size)
  | [], pd, sz => pure (pd, some sz)
  | ph :: rest, pd, sz =>
    if ph.reads = false then pure (pd, none)
    else if ph.load = false then loadLoop rest pd sz
    else if ph.memsz < ph.filesz ∨ ph.vaddr + ph.memsz < ph.vaddr then pure (pd, none)
    else do
      let (pd, sz) ← allocuvm lay pd sz (ph.vaddr + ph.memsz).toNat fun _ ↦ sz.2
      if sz.val = 0 ∨ ph.vaddr.toNat % pgSize ≠ 0 then pure (pd, none)
      else
        let ok ← loaduvm pd ph.vaddr.toNat ph.filesz.toNat ph.loads
        if ok then loadLoop rest pd sz else pure (pd, none)

/-- The end of the two pages that `exec` allocates for the stack. -/
@[irreducible]
def stackTop (sz : ℕ) : ℕ := pgRoundUp sz + 2 * pgSize

theorem pgRoundUp_le_stackTop (sz : ℕ) : pgRoundUp sz ≤ stackTop sz := by
  rw [stackTop]
  exact Nat.le_add_right _ _

/-- `exec` after `setupkvm`: the new page directory and its size, or none for `goto bad`. -/
def load (prog : Program) (pd : Pgdir) : Kernel (Pgdir × Option Size) := do
  match ← loadLoop lay prog.segments pd .zero with
  | (pd, none) => pure (pd, none)
  | (pd, some sz) =>
    let (pd, sz) ← allocuvm lay pd (pgRoundUp sz) (stackTop sz)
      fun hless ↦ absurd hless (Nat.not_lt.mpr (pgRoundUp_le_stackTop sz))
    if sz.val = 0 then pure (pd, none)
    else
      let pd ← clearpteu pd (sz - 2 * pgSize)
      if prog.args then pure (pd, some sz) else pure (pd, none)

def exec (prog : Program) (im : Image) : Kernel Image := do
  if prog.opens = false then pure im
  else
    match ← setupkvm lay with
    | none => pure im
    | some pd =>
      match ← load lay prog pd with
      | (pd, some sz) =>
        freevm lay im.pgdir
        pure { im with pgdir := pd, sz := sz }
      | (pd, none) =>
        freevm lay pd
        pure im

/-- `pipealloc`, after both calls of `filealloc`. -/
def pipealloc (files : Bool) : Kernel (Option ℕ) := if files then kalloc else pure none

theorem pgSize_lt_kernBase : pgSize < kernBase := by decide

theorem pgSize_le_physTop : pgSize ≤ physTop := by decide

/-- `kvmalloc` and `userinit` at boot, with `inituvm`: the kernel's page directory, and the first
process. The machine stops if there is no memory for them. -/
def boot : Kernel (Pgdir × Image) := do
  let some kpgdir ← setupkvm lay | .fault .userinit
  let some kstack ← kalloc | .fault .userinit
  let some pgdir ← setupkvm lay | .fault .userinit
  let some mem ← kalloc | .fault .userinit
  let (pgdir, true) ← mappages pgdir 0 pgSize mem true true | .fault .userinit
  pure (kpgdir, ⟨kstack, pgdir, ⟨pgSize, pgSize_lt_kernBase⟩⟩)

end EasyKernels.Xv6.Vm
