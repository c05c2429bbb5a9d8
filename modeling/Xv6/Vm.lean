import Xv6.Layout
import Xv6.Lib.StateWp

/-!
# Virtual memory

The page allocator (`kalloc`) and the functions that build, copy and free address spaces, on a
physical memory of pages with bytes. Pages are named by their numbers. A page directory and its
page tables lie in memory, and the functions find their way through the words in them; nothing
in the model says which page has which role.

The kernel reaches physical memory through its direct map. What it does outside of the
pages that `kalloc` hands out, be it a page fault or a store into the kernel itself, is outside of
the model: the code stops there (`Stop.wild`).

The list of free pages stands for the links in the free pages. `kalloc` may fail at any call,
as `deny` says: other CPUs take pages too.
-/

open Bytes

namespace Xv6

namespace Vm

/-! ### Constants -/

/-- Start of extended memory. -/
def EXTMEM : Nat := 0x100000

/-- Top of physical memory. -/
def PHYSTOP : Nat := 0xE000000

/-- Devices at high addresses. -/
def DEVSPACE : Nat := 0xFE000000

/-- Address where the kernel is linked. -/
def KERNLINK : Nat := KERNBASE + EXTMEM

/-- The number of pages of physical memory. -/
@[irreducible] def NFRAME : Nat := PHYSTOP / PGSIZE

/-- The number of entries of a page directory, and of a page table. -/
@[irreducible] def NENTRIES : Nat := 1024

def PTE_P : Nat := 1
def PTE_W : Nat := 2
def PTE_U : Nat := 4

/-- `PDX(va)` -/
def pdx (va : Nat) : Nat := va / 2 ^ 22 % NENTRIES

/-- `PTX(va)` -/
def ptx (va : Nat) : Nat := va / 2 ^ 12 % NENTRIES

/-- `PGROUNDUP(sz)` -/
def pgroundup (sz : Nat) : Nat := (sz + (PGSIZE - 1)) % 2 ^ 32 / PGSIZE * PGSIZE

/-- `PGROUNDDOWN(a)` -/
def pgrounddown (a : Nat) : Nat := a / PGSIZE * PGSIZE

/-- `PTE_ADDR(pte)`, as a page number. -/
def pteAddr (pte : Nat) : Nat := pte / PGSIZE

def present (pte : Nat) : Bool := pte &&& PTE_P != 0

def user (pte : Nat) : Bool := pte &&& PTE_U != 0

/-- What the linker decides: the pages at which the kernel's data begin and after which the kernel
ends. -/
structure Link where
  data : Nat
  kend : Nat
  text : EXTMEM / PGSIZE < data
  data_lt : data < kend
  kend_le : kend ≤ NFRAME

/-- Where the model ends: panics, and accesses outside of the pages of `kalloc`. -/
inductive Stop where
  | remap
  | kfree
  | freevm
  | loadAlign
  | loadExist
  | clearpteu
  | copyExist
  | copyPresent
  | trap
  | wild
  deriving DecidableEq, Repr

structure Phys where
  mem : Nat → Block
  /-- `kmem.freelist` -/
  free : List Nat
  /-- Which of the next calls of `kalloc` fail. -/
  deny : Nat → Bool
  /-- Some page was freed while it was free. -/
  twice : Bool
  /-- The stores of file data and arguments into an address space, by address and page. -/
  log : List (Nat × Nat)

abbrev M := StateT Phys (Except Stop)

/-! ### The allocator -/

variable (L : Link)

def kalloc : M (Option Nat) := fun s =>
  let s' := { s with deny := fun n => s.deny (n + 1) }
  match s.deny 0, s.free with
  | false, p :: free => .ok (some p, { s' with free := free })
  | _, _ => .ok (none, s')

/-- Junk, to catch dangling references. -/
def junk : Block := fun _ => 1

def kfree (p : Nat) : M Unit := do
  if p < L.kend ∨ NFRAME ≤ p then throw .kfree
  modify fun s => { s with
    mem := Function.update s.mem p junk
    free := p :: s.free
    twice := s.twice || decide (p ∈ s.free) }

/-! ### Access to memory -/

/-- The kernel is about to use page `p`. -/
def frame (p : Nat) : M Unit := if L.kend ≤ p ∧ p < NFRAME then pure () else throw .wild

/-- Word `i` of page `p`. -/
def word (mem : Nat → Block) (p i : Nat) : Nat := getLE (mem p) (4 * i) 4

def load (p i : Nat) : M Nat := do
  frame L p
  return word (← get).mem p i

def store (p i w : Nat) : M Unit := do
  frame L p
  modify fun s => { s with mem := Function.update s.mem p (putLE (s.mem p) (4 * i) 4 w) }

/-- `memset` or `memmove` of a whole page. -/
def fill (p : Nat) (b : Block) : M Unit := do
  frame L p
  modify fun s => { s with mem := Function.update s.mem p b }

/-- Store bytes that belong at address `va` at an offset in page `p`. -/
def poke (va p o : Nat) (bytes : List UInt8) : M Unit :=
  if bytes = [] then pure () else do
    frame L p
    modify fun s => { s with
      mem := Function.update s.mem p (overlay (s.mem p) o bytes.length fun i => bytes.getD i 0)
      log := (va, p) :: s.log }

/-! ### Page tables -/

/-- The place of the entry for `va`, by page and index. -/
def walkpgdir (pgdir va : Nat) (alloc : Bool) : M (Option (Nat × Nat)) := do
  let pde ← load L pgdir (pdx va)
  if present pde then return some (pteAddr pde, ptx va)
  else if !alloc then return none
  else match ← kalloc with
  | none => return none
  | some pgtab =>
    fill L pgtab zero
    store L pgdir (pdx va) (PGSIZE * pgtab ||| PTE_P ||| PTE_W ||| PTE_U)
    return some (pgtab, ptx va)

/-- The loop of `mappages`, with the number of rounds until `a` is `last`. -/
def mapLoop (pgdir perm : Nat) : Nat → Nat → Nat → M Bool
  | 0, _, _ => return true
  | n + 1, a, pa => do
    match ← walkpgdir L pgdir a true with
    | none => return false
    | some (t, i) =>
      if present (← load L t i) then throw .remap
      store L t i (pa ||| perm ||| PTE_P)
      mapLoop pgdir perm n ((a + PGSIZE) % 2 ^ 32) ((pa + PGSIZE) % 2 ^ 32)

def mappages (pgdir va size pa perm : Nat) : M Bool :=
  let a := pgrounddown va
  let last := pgrounddown ((va + size + (2 ^ 32 - 1)) % 2 ^ 32)
  mapLoop L pgdir perm ((last + 2 ^ 32 - a) % 2 ^ 32 / PGSIZE + 1) a pa

/-- `kmap`: virtual address, physical start and end, permissions. -/
def kmap : List (Nat × Nat × Nat × Nat) :=
  [(KERNBASE, 0, EXTMEM, PTE_W),
    (KERNLINK, EXTMEM, PGSIZE * L.data, 0),
    (KERNBASE + PGSIZE * L.data, PGSIZE * L.data, PHYSTOP, PTE_W),
    (DEVSPACE, DEVSPACE, 0, PTE_W)]

def mapKernel (pgdir : Nat) : List (Nat × Nat × Nat × Nat) → M Bool
  | [] => return true
  | (virt, start, stop, perm) :: ks => do
    if ← mappages L pgdir virt ((stop + 2 ^ 32 - start) % 2 ^ 32) start perm then mapKernel pgdir ks
    else return false

def setupkvm : M (Option Nat) := do
  match ← kalloc with
  | none => return none
  | some pgdir =>
    fill L pgdir zero
    if ← mapKernel L pgdir (kmap L) then return some pgdir else return none

/-! ### Address spaces -/

def deallocLoop (pgdir oldsz a : Nat) : M Unit :=
  if _h : a < oldsz then do
    match ← walkpgdir L pgdir a false with
    | none => deallocLoop pgdir oldsz (a + (NENTRIES - 1) * PGSIZE + PGSIZE)
    | some (t, i) =>
      let pte ← load L t i
      if present pte then
        kfree L (pteAddr pte)
        store L t i 0
      deallocLoop pgdir oldsz (a + PGSIZE)
  else pure ()
termination_by oldsz - a
decreasing_by all_goals simp only [NENTRIES, PGSIZE]; omega

def deallocuvm (pgdir oldsz newsz : Nat) : M Nat :=
  if oldsz ≤ newsz then return oldsz
  else do
    deallocLoop L pgdir oldsz (pgroundup newsz)
    return newsz

/-- The loop of `allocuvm`, with the number of its rounds. -/
def allocLoop (pgdir : Nat) : Nat → Nat → M Bool
  | 0, _ => return true
  | n + 1, a => do
    match ← kalloc with
    | none => return false
    | some mem =>
      fill L mem zero
      -- the result is ignored
      let _ ← mappages L pgdir a PGSIZE (PGSIZE * mem) (PTE_W ||| PTE_U)
      allocLoop pgdir n (a + PGSIZE)

def allocuvm (pgdir oldsz newsz : Nat) : M Nat :=
  if KERNBASE ≤ newsz then return 0
  else if newsz < oldsz then return oldsz
  else do
    let a := pgroundup oldsz
    if ← allocLoop L pgdir ((newsz - a + (PGSIZE - 1)) / PGSIZE) a then return newsz
    else
      let _ ← deallocuvm L pgdir newsz oldsz
      return 0

def freeTables (pgdir : Nat) : List Nat → M Unit
  | [] => return ()
  | i :: is => do
    let pde ← load L pgdir i
    if present pde then kfree L (pteAddr pde)
    freeTables pgdir is

def freevm (pgdir : Nat) : M Unit := do
  if pgdir = 0 then throw .freevm
  let _ ← deallocuvm L pgdir KERNBASE 0
  freeTables L pgdir (List.range NENTRIES)
  kfree L pgdir

def clearpteu (pgdir uva : Nat) : M Unit := do
  match ← walkpgdir L pgdir uva false with
  | none => throw .clearpteu
  | some (t, i) =>
    let pte ← load L t i
    store L t i (pte &&& (2 ^ 32 - 1 - PTE_U))

/-- The loop of `copyuvm`, with the number of its rounds. -/
def copyLoop (pgdir d : Nat) : Nat → Nat → M Bool
  | 0, _ => return true
  | n + 1, i => do
    match ← walkpgdir L pgdir i false with
    | none => throw .copyExist
    | some (t, j) =>
      let pte ← load L t j
      if !present pte then throw .copyPresent
      match ← kalloc with
      | none => return false
      | some mem =>
        frame L (pteAddr pte)
        fill L mem ((← get).mem (pteAddr pte))
        if ← mappages L d i PGSIZE (PGSIZE * mem) (PTE_W ||| PTE_U) then
          copyLoop pgdir d n (i + PGSIZE)
        else return false

def copyuvm (pgdir sz : Nat) : M (Option Nat) := do
  match ← setupkvm L with
  | none => return none
  | some d =>
    if ← copyLoop L pgdir d ((sz + (PGSIZE - 1)) / PGSIZE) 0 then return some d
    else
      freevm L d
      return none

/-- `growproc`, with the size of the process before; returns its result and the size after. -/
def growproc (pgdir sz : Nat) (n : Int) : M (Int × Nat) :=
  let newsz := ((sz + n) % 0x100000000).toNat
  if 0 < n then do
    let sz' ← allocuvm L pgdir sz newsz
    if sz' = 0 then return (-1, sz) else return (0, sz')
  else if n < 0 then do
    let sz' ← deallocuvm L pgdir sz newsz
    if sz' = 0 then return (-1, sz) else return (0, sz')
  else return (0, sz)

/-- The word at address 0 of the address space `cur` in which the kernel runs, which is what it
reads through a null pointer. -/
def nullWord (cur : Nat) : M Nat := do
  let mem := (← get).mem
  let pde := word mem cur 0
  if !present pde then throw .trap
  let pte := word mem (pteAddr pde) 0
  if !present pte then throw .trap
  return word mem (pteAddr pte) 0

/-- The page of a user address, if it is accessible to the user. The entry is read even where
`walkpgdir` returns the null pointer; `null` is what is read there, `nullWord cur` in the address
space `cur`. -/
def uva2ka (null : M Nat) (pgdir uva : Nat) : M (Option Nat) := do
  let pte ← match ← walkpgdir L pgdir uva false with
    | some (t, i) => load L t i
    | none => null
  if !present pte then return none
  else if !user pte then return none
  else return some (pteAddr pte)

def copyout (null : M Nat) (pgdir va : Nat) : List UInt8 → M Bool
  | [] => return true
  | b :: bs => do
    let va0 := pgrounddown va
    match ← uva2ka L null pgdir va0 with
    | none => return false
    | some p =>
      let n := PGSIZE - (va - va0)
      poke L va0 p (va - va0) ((b :: bs).take n)
      copyout null pgdir ((va0 + PGSIZE) % 2 ^ 32) ((b :: bs).drop n)
termination_by buf => buf.length
decreasing_by
  have : va - pgrounddown va < PGSIZE := by
    simp only [pgrounddown, PGSIZE]
    omega
  simp only [List.length_drop, List.length_cons]
  omega

end Vm

end Xv6
