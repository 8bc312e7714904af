import Xv6Users.Userland.AddedUser

/-!
# What the freed record holds

`useradd` on the allocator of `umalloc.c`, in units of one header.  A record is
known by where its block starts; its name is the first field, so a name that is
read through a freed record is that of the last record that was put in the same
place, unless a later block only overlaps it.
-/

namespace Xv6Users.FreedRecord

open SortedInsert Ulib UserRecords GroupRecords GroupLines AddedUser Accounts UidRoundTrip
open UniqueKeys

/-- The free blocks by start and size in the order of their addresses, the
first being `base`; where the last search ended; and the end of the heap. -/
structure Heap where
  blocks : List (ℕ × ℕ)
  freep : ℕ
  brk : ℕ
  deriving DecidableEq

/-- The first block that is large enough and the one before it, on the way around
the circular list. -/
def search (units : ℕ) : ℕ → List (ℕ × ℕ) → Option (ℕ × ℕ × ℕ)
  | _, [] => none
  | prevp, (p, size) :: rest =>
    if size ≥ units then some (prevp, p, size) else search units p rest

/-- The search starts behind `freep` and ends with it. -/
def findBlock (heap : Heap) (units : ℕ) : Option (ℕ × ℕ × ℕ) :=
  search units heap.freep
    (heap.blocks.dropWhile (·.1 ≤ heap.freep) ++ heap.blocks.takeWhile (·.1 ≤ heap.freep))

/-- `free`: the block is merged with the free blocks it touches. -/
def free (heap : Heap) (start size : ℕ) : Heap :=
  let before := heap.blocks.takeWhile (·.1 < start)
  let after := heap.blocks.dropWhile (·.1 < start)
  let (size, after) := match after with
    | (next, nextSize) :: rest =>
      if start + size = next then (size + nextSize, rest) else (size, after)
    | [] => (size, [])
  match before.getLast? with
  | none => heap
  | some (p, pSize) =>
    if p + pSize = start then
      { heap with
        blocks := before.dropLast ++ (p, pSize + size) :: after
        freep := p }
    else
      { heap with blocks := before ++ (start, size) :: after, freep := p }

def morecore (heap : Heap) (units : ℕ) : Heap :=
  let units := max units 4096
  free { heap with brk := heap.brk + units } heap.brk units

/-- A block is cut off the end of a larger one. -/
def carve (heap : Heap) (units prevp p size : ℕ) : Heap × ℕ :=
  if size = units then
    ({ heap with blocks := heap.blocks.filter (·.1 ≠ p), freep := prevp }, p)
  else
    ({ heap with
        blocks := heap.blocks.map fun block =>
          if block.1 = p then (p, size - units) else block
        freep := prevp }, p + (size - units))

def malloc (heap : Heap) (units : ℕ) : Option (Heap × ℕ) :=
  match findBlock heap units with
  | some (prevp, p, size) => some (carve heap units prevp p size)
  | none =>
    let heap := morecore heap units
    (findBlock heap units).map fun (prevp, p, size) =>
      carve heap units prevp p size

/-- `struct user` and `struct group` with their headers. -/
def userUnits : ℕ := 19

def groupUnits : ℕ := 7

/-- The heap and the records that were put into it, the last one first: the start
and size of the block and the name. -/
structure Memory where
  heap : Heap
  placed : List (ℕ × ℕ × List Byte)

def Memory.empty : Memory :=
  ⟨⟨[(0, 0)], 0, 1⟩, []⟩

def place (memory : Memory) (units : ℕ) (name : List Byte) : Option (Memory × ℕ) := do
  let (heap, start) ← malloc memory.heap units
  some (⟨heap, (start, units, name) :: memory.placed⟩, start)

/-- The name in a record takes the four units behind its header.  It is known if
the last block that touches them starts where the record does. -/
def nameAt (memory : Memory) (start : ℕ) : Option (List Byte) := do
  let (other, _, name) ← memory.placed.find? fun (other, units, _) =>
    other < start + 5 ∧ start + 1 < other + units
  if other = start then some name else none

/-- The records of the password file, placed in the order of the file and listed
in uid order. -/
def loadUsers (users : List User) (memory : Memory) : Option (Memory × List (User × ℕ)) :=
  users.foldlM (fun (memory, list) user => do
      let (memory, start) ← place memory userUnits user.username
      some (memory, insertSorted (fun left right => compareUsers left.1 right.1) list
        (user, start)))
    (memory, [])

def freeUserList (list : List (User × ℕ)) (memory : Memory) : Memory :=
  { memory with
    heap := list.foldl (fun heap node => free heap node.2 userUnits) memory.heap }

/-- A user that is found keeps the whole list in memory. -/
def getUserFromUsername (users : List User) (memory : Memory) (name : List Byte) :
    Option Memory := do
  let (memory, list) ← loadUsers users memory
  some (if list.any (·.1.username = name) then memory else freeUserList list memory)

/-- `getNextAvailableGid`: the group list is loaded and freed, without its
members. -/
def getNextAvailableGid (users : List User) (lines : List GroupLine)
    (memory : Memory) : Option Memory := do
  let (memory, starts) ← lines.foldlM (fun (memory, list) line => do
      let (memory, start) ← place memory groupUnits line.groupname
      let memory ← line.userList.foldlM (getUserFromUsername users) memory
      some (memory, insertSorted (fun left right => compareGroups left.1 right.1) list
        (line, start)))
    (memory, [])
  some { memory with
    heap := starts.foldl (fun heap node => free heap node.2 groupUnits) memory.heap }

/-- The name that `useradd` finds in the freed record, for the records of the
password file in their order and the lines of the group file. -/
def freedName (users : List User) (lines : List GroupLine) (newUser : User) :
    Option (List Byte) := do
  -- createUser
  let (memory, start) ← place Memory.empty userUnits []
  let (memory, list) ← loadUsers users memory
  let memory ← getNextAvailableGid users lines (freeUserList list memory)
  let memory : Memory :=
    { memory with placed := (start, userUnits, newUser.username) :: memory.placed }
  -- addNewUser
  let (memory, list) ← loadUsers users memory
  let list := insertSorted (fun left right => compareUsers left.1 right.1) list
    (newUser, start)
  let users := list.map Prod.fst
  -- createGroup
  let (memory, _) ← place (freeUserList list memory) groupUnits newUser.username
  let memory ← getNextAvailableGid users lines memory
  let (memory, _) ← loadUsers users memory
  nameAt memory start

end Xv6Users.FreedRecord
