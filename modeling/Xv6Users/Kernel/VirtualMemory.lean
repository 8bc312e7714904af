import Mathlib

/-!
# Page tables and the page allocator

The calls of `kernel/vm.c` that build, grow, copy and free page directories, with the
allocator of `kernel/kalloc.c`.  Addresses are counted in pages where the source keeps them
page aligned, sizes in bytes.  `none` stands for a machine that has stopped with a panic.
-/

namespace Xv6Users.VirtualMemory

/-- The index of an entry of a page directory or of a page table. -/
abbrev Index := Fin 1024

/-- An entry of a page directory or of a page table, as are all words of a page.  `rest`
are the nine flags that the source has no name for or does not use. -/
structure Word where
  page : ℕ
  present : Bool
  writable : Bool
  user : Bool
  rest : Fin 512
  deriving DecidableEq

instance neZero_rest : NeZero 512 := ⟨by decide⟩

def Word.zero : Word := ⟨0, false, false, false, 0⟩

/-- The word `0x01010101`, with which `kfree` fills a page. -/
def Word.junk : Word := ⟨0x1010, true, false, false, 32⟩

/-- `outages` says which of the next calls of `kalloc` fail although a page is free;
`refreed` counts the calls of `kfree` for a page that is free. -/
structure Memory where
  freelist : List ℕ
  outages : List Bool
  words : ℕ → Index → Word
  refreed : ℕ

def Memory.fill (memory : Memory) (page : ℕ) (content : Index → Word) : Memory :=
  { memory with words := Function.update memory.words page content }

def Memory.set (memory : Memory) (page : ℕ) (index : Index) (word : Word) : Memory :=
  memory.fill page (Function.update (memory.words page) index word)

/-- `KERNBASE`, and the pages of `KERNBASE`, `EXTMEM`, `PHYSTOP` and `DEVSPACE`. -/
abbrev kernbase : ℕ := 0x80000000

abbrev kernPage : ℕ := 0x80000

abbrev extPage : ℕ := 0x100

abbrev physPage : ℕ := 0xe000

abbrev devPage : ℕ := 0xfe000

/-- Where the linker puts the data of the kernel and its end. -/
structure Kernel where
  data : ℕ
  ends : ℕ
  data_gt : extPage < data
  ends_gt : data < ends
  ends_le : ends ≤ physPage

def pgroundup (size : ℕ) : ℕ :=
  (size + 4095) % 2 ^ 32 / 4096

def pdx (va : ℕ) : Index :=
  ⟨va / 1024 % 1024, Nat.mod_lt _ (by decide)⟩

def ptx (va : ℕ) : Index :=
  ⟨va % 1024, Nat.mod_lt _ (by decide)⟩

/-! ## The allocator -/

def kalloc (memory : Memory) : Option ℕ × Memory :=
  if memory.outages.head? = some true then
    (none, { memory with outages := memory.outages.tail })
  else
    match memory.freelist with
    | [] => (none, { memory with outages := memory.outages.tail })
    | page :: rest => (some page, { memory with freelist := rest, outages := memory.outages.tail })

variable (kernel : Kernel)

def kfree (memory : Memory) (page : ℕ) : Option Memory :=
  if page < kernel.ends ∨ physPage ≤ page then none
  else
    some { memory.fill page (fun _ => Word.junk) with
      freelist := page :: memory.freelist
      refreed := if page ∈ memory.freelist then memory.refreed + 1 else memory.refreed }

/-! ## Walking and mapping -/

/-- The table and the index in it. -/
def walkpgdir (memory : Memory) (pgdir va : ℕ) (alloc : Bool) : Option (ℕ × Index) × Memory :=
  let pde := memory.words pgdir (pdx va)
  if pde.present then (some (pde.page, ptx va), memory)
  else if !alloc then (none, memory)
  else
    match kalloc memory with
    | (none, memory) => (none, memory)
    | (some pgtab, memory) =>
      (some (pgtab, ptx va),
        (memory.fill pgtab fun _ => Word.zero).set pgdir (pdx va) ⟨pgtab, true, true, true, 0⟩)

/-- Maps `count` pages from `va` on; `false` is the error. -/
def mappages (pgdir : ℕ) (writable user : Bool) (rest : Fin 512) :
    ℕ → ℕ → ℕ → Memory → Option (Bool × Memory)
  | 0, _, _, memory => some (true, memory)
  | count + 1, va, pa, memory =>
    match walkpgdir memory pgdir va true with
    | (none, memory) => some (false, memory)
    | (some (pgtab, index), memory) =>
      if (memory.words pgtab index).present then none
      else
        mappages pgdir writable user rest count (va + 1) (pa + 1)
          (memory.set pgtab index ⟨pa, true, writable, user, rest⟩)

/-! ## Freeing -/

/-- The loop of `deallocuvm` from page `a` on. -/
def deallocLoop (pgdir oldsz a : ℕ) (memory : Memory) : Option Memory :=
  -- the address wraps around to 0, and the loop stops the machine at `KERNBASE`
  if 2 ^ 20 ≤ a then none
  else if a * 4096 < oldsz then
    match walkpgdir memory pgdir a false with
    | (none, memory) => deallocLoop pgdir oldsz ((a / 1024 + 1) * 1024) memory
    | (some (pgtab, index), memory) =>
      let pte := memory.words pgtab index
      if pte.present then
        if pte.page = 0 then none
        else
          match kfree kernel memory pte.page with
          | none => none
          | some memory => deallocLoop pgdir oldsz (a + 1) (memory.set pgtab index Word.zero)
      else deallocLoop pgdir oldsz (a + 1) memory
  else some memory
  termination_by 2 ^ 20 - a
  decreasing_by all_goals omega

def deallocuvm (memory : Memory) (pgdir oldsz newsz : ℕ) : Option (ℕ × Memory) :=
  if newsz ≥ oldsz then some (oldsz, memory)
  else (deallocLoop kernel pgdir oldsz (pgroundup newsz) memory).map fun memory =>
    (newsz, memory)

def freeTables (pgdir : ℕ) : List Index → Memory → Option Memory
  | [], memory => some memory
  | index :: rest, memory =>
    if (memory.words pgdir index).present then
      match kfree kernel memory (memory.words pgdir index).page with
      | none => none
      | some memory => freeTables pgdir rest memory
    else freeTables pgdir rest memory

def freevm (memory : Memory) (pgdir : ℕ) : Option Memory :=
  match deallocuvm kernel memory pgdir kernbase 0 with
  | none => none
  | some (_, memory) =>
    match freeTables kernel pgdir (List.finRange 1024) memory with
    | none => none
    | some memory => kfree kernel memory pgdir

/-! ## Making and growing -/

/-- A row of `kmap`: the first page, the first physical page and the page after the last. -/
structure Row where
  virt : ℕ
  start : ℕ
  stop : ℕ
  writable : Bool

def kmap : List Row :=
  [⟨kernPage, 0, extPage, true⟩, ⟨kernPage + extPage, extPage, kernel.data, false⟩,
    ⟨kernPage + kernel.data, kernel.data, physPage, true⟩,
    ⟨devPage, devPage, 2 ^ 20, true⟩]

def mapRows (pgdir : ℕ) : List Row → Memory → Option (Bool × Memory)
  | [], memory => some (true, memory)
  | row :: rows, memory =>
    match mappages pgdir row.writable false 0 (row.stop - row.start) row.virt row.start
      memory with
    | none => none
    | some (false, memory) => some (false, memory)
    | some (true, memory) => mapRows pgdir rows memory

def setupkvm (memory : Memory) : Option (Option ℕ × Memory) :=
  match kalloc memory with
  | (none, memory) => some (none, memory)
  | (some pgdir, memory) =>
    match mapRows pgdir (kmap kernel) (memory.fill pgdir fun _ => Word.zero) with
    | none => none
    | some (false, memory) => (freevm kernel memory pgdir).map fun memory => (none, memory)
    | some (true, memory) => some (some pgdir, memory)

/-- The loop of `allocuvm` over the pages that are left. -/
def allocLoop (pgdir oldsz newsz : ℕ) : List ℕ → Memory → Option (ℕ × Memory)
  | [], memory => some (newsz, memory)
  | a :: rest, memory =>
    match kalloc memory with
    | (none, memory) =>
      (deallocuvm kernel memory pgdir newsz oldsz).map fun (_, memory) => (0, memory)
    | (some mem, memory) =>
      match mappages pgdir true true 0 1 a mem (memory.fill mem fun _ => Word.zero) with
      | none => none
      | some (false, memory) =>
        match deallocuvm kernel memory pgdir newsz oldsz with
        | none => none
        | some (_, memory) => (kfree kernel memory mem).map fun memory => (0, memory)
      | some (true, memory) => allocLoop pgdir oldsz newsz rest memory

def allocuvm (memory : Memory) (pgdir oldsz newsz : ℕ) : Option (ℕ × Memory) :=
  if newsz ≥ kernbase then some (0, memory)
  else if newsz < oldsz then some (oldsz, memory)
  else
    allocLoop kernel pgdir oldsz newsz
      (List.range' (pgroundup oldsz) ((newsz + 4095) / 4096 - pgroundup oldsz)) memory

/-- The loop of `copyuvm` over the pages that are left. -/
def copyLoop (pgdir d : ℕ) : List ℕ → Memory → Option (Option ℕ × Memory)
  | [], memory => some (some d, memory)
  | i :: rest, memory =>
    match walkpgdir memory pgdir i false with
    | (none, _) => none
    | (some (pgtab, index), memory) =>
      let pte := memory.words pgtab index
      if !pte.present then none
      else
        match kalloc memory with
        | (none, memory) => (freevm kernel memory d).map fun memory => (none, memory)
        | (some mem, memory) =>
          match mappages d pte.writable pte.user pte.rest 1 i mem
            (memory.fill mem (memory.words pte.page)) with
          | none => none
          | some (false, memory) =>
            match kfree kernel memory mem with
            | none => none
            | some memory => (freevm kernel memory d).map fun memory => (none, memory)
          | some (true, memory) => copyLoop pgdir d rest memory

def copyuvm (memory : Memory) (pgdir sz : ℕ) : Option (Option ℕ × Memory) :=
  match setupkvm kernel memory with
  | none => none
  | some (none, memory) => some (none, memory)
  | some (some d, memory) => copyLoop kernel pgdir d (List.range ((sz + 4095) / 4096)) memory

def clearpteu (memory : Memory) (pgdir uva : ℕ) : Option Memory :=
  match walkpgdir memory pgdir uva false with
  | (none, _) => none
  | (some (pgtab, index), memory) =>
    some (memory.set pgtab index { memory.words pgtab index with user := false })

/-! ## Sequences of calls -/

/-- The memory and the page directories that callers have. -/
structure System where
  memory : Memory
  live : List ℕ

inductive Call where
  | setupkvm
  | allocuvm (pgdir oldsz newsz : ℕ)
  | deallocuvm (pgdir oldsz newsz : ℕ)
  | copyuvm (pgdir sz : ℕ)
  | clearpteu (pgdir uva : ℕ)
  | freevm (pgdir : ℕ)
  deriving DecidableEq

/-- A new directory, if there is one, belongs to the caller. -/
def System.adopt (system : System) : Option ℕ × Memory → System
  | (none, memory) => ⟨memory, system.live⟩
  | (some pgdir, memory) => ⟨memory, pgdir :: system.live⟩

def call (system : System) : Call → Option System
  | .setupkvm => (setupkvm kernel system.memory).map system.adopt
  | .allocuvm pgdir oldsz newsz =>
    if pgdir ∈ system.live then
      (allocuvm kernel system.memory pgdir oldsz newsz).map fun (_, memory) =>
        ⟨memory, system.live⟩
    else none
  | .deallocuvm pgdir oldsz newsz =>
    if pgdir ∈ system.live then
      (deallocuvm kernel system.memory pgdir oldsz newsz).map fun (_, memory) =>
        ⟨memory, system.live⟩
    else none
  | .copyuvm pgdir sz =>
    if pgdir ∈ system.live then
      (copyuvm kernel system.memory pgdir sz).map system.adopt
    else none
  | .clearpteu pgdir uva =>
    if pgdir ∈ system.live then
      (clearpteu system.memory pgdir uva).map fun memory => ⟨memory, system.live⟩
    else none
  | .freevm pgdir =>
    if pgdir ∈ system.live then
      (freevm kernel system.memory pgdir).map fun memory =>
        ⟨memory, system.live.filter (· ≠ pgdir)⟩
    else none

def start (pool : List ℕ) (outages : List Bool) (words : ℕ → Index → Word) : System :=
  ⟨⟨pool, outages, words, 0⟩, []⟩

end Xv6Users.VirtualMemory
