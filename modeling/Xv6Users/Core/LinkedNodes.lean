import Mathlib

/-!
# Singly linked nodes on a heap

Nodes carry a value and a `next` pointer.  `Linked heap cells last` says that
the listed cells are chained in order and that the final one points to `last`.
The end pointer is a parameter, so a chain that runs into a shared tail is
described by two `Linked` facts about the same heap.
-/

namespace Xv6Users.LinkedNodes

open List

variable {last : Option ℕ} {address : ℕ}

/-- A list node. -/
structure Node (α : Type*) where
  value : α
  next : Option ℕ

/-- Nodes by address.  Addresses from `size` on are unused. -/
structure Heap (α : Type*) where
  node : ℕ → Option (Node α)
  size : ℕ
  unused : ∀ address, size ≤ address → node address = none

variable {α : Type*}

def Heap.empty : Heap α where
  node _ := none
  size := 0
  unused _ _ := rfl

/-- Overwrite the `next` pointer of one node. -/
def Heap.setNext (heap : Heap α) (address : ℕ) (next : Option ℕ) : Heap α where
  node a :=
    if a = address then (heap.node a).map fun node => { node with next }
    else heap.node a
  size := heap.size
  unused a ha := by simp [heap.unused a ha]

def Heap.alloc (heap : Heap α) (node : Node α) : Heap α where
  node a := if a = heap.size then some node else heap.node a
  size := heap.size + 1
  unused a ha := by
    rw [if_neg (by omega), heap.unused a (by omega)]

/-- A fresh node for every value, chained in order and ending in null. -/
def Heap.allocList (heap : Heap α) : List α → Heap α × Option ℕ
  | [] => (heap, none)
  | value :: rest =>
    let tail := heap.allocList rest
    (tail.1.alloc ⟨value, tail.2⟩, some tail.1.size)

/-- The values from a pointer on, or `none` when the walk does not reach null
within `fuel` pointers. -/
def Heap.walk (heap : Heap α) : ℕ → Option ℕ → Option (List α)
  | 0, _ => none
  | _ + 1, none => some []
  | fuel + 1, some address => do
    let node ← heap.node address
    let rest ← heap.walk fuel node.next
    some (node.value :: rest)

def link (cells : List (ℕ × α)) (last : Option ℕ) : Option ℕ :=
  match cells with
  | [] => last
  | cell :: _ => some cell.1

/-- The cells are chained in order and the final one points to `last`. -/
def Linked (heap : Heap α) : List (ℕ × α) → Option ℕ → Prop
  | [], _ => True
  | cell :: rest, last => heap.node cell.1 = some ⟨cell.2, link rest last⟩ ∧ Linked heap rest last

def addresses (cells : List (ℕ × α)) : List ℕ :=
  cells.map Prod.fst

def values (cells : List (ℕ × α)) : List α :=
  cells.map Prod.snd

@[simp]
theorem link_nil (last : Option ℕ) : link ([] : List (ℕ × α)) last = last :=
  rfl

@[simp]
theorem link_cons (cell : ℕ × α) (rest : List (ℕ × α)) (last : Option ℕ) :
    link (cell :: rest) last = some cell.1 := rfl

theorem link_append (front back : List (ℕ × α)) (last : Option ℕ) :
    link (front ++ back) last = link front (link back last) := by
  cases front <;> rfl

theorem linked_append {heap : Heap α} {front back : List (ℕ × α)} :
    Linked heap (front ++ back) last ↔
      Linked heap front (link back last) ∧ Linked heap back last := by
  induction front with
  | nil => simp [Linked]
  | cons cell rest ih => simp only [cons_append, Linked, link_append, ih, and_assoc]

/-- A chain depends only on its own nodes. -/
theorem Linked.congr {heap other : Heap α} {cells : List (ℕ × α)}
    (hlinked : Linked heap cells last) (hsame : ∀ a ∈ addresses cells, other.node a = heap.node a) :
    Linked other cells last := by
  induction cells with
  | nil => trivial
  | cons cell rest ih =>
    refine ⟨?_, ih hlinked.2 fun a ha =>
      hsame a (.tail cell.1 ha)⟩
    rw [hsame cell.1 (by simp [addresses])]
    exact hlinked.1

theorem setNext_of_ne {heap : Heap α} {a : ℕ} (hne : a ≠ address) (next : Option ℕ) :
    (heap.setNext address next).node a = heap.node a := if_neg hne

theorem setNext_self {heap : Heap α} {node : Node α} (hnode : heap.node address = some node)
    (next : Option ℕ) : (heap.setNext address next).node address = some ⟨node.value, next⟩ := by
  simp [Heap.setNext, hnode]

/-- Overwriting the last pointer of a chain moves its end. -/
theorem Linked.setNext_last {heap : Heap α} {front : List (ℕ × α)} {cell : ℕ × α}
    (hlinked : Linked heap (front ++ [cell]) last) (hfresh : cell.1 ∉ addresses front)
    (next : Option ℕ) : Linked (heap.setNext cell.1 next) (front ++ [cell]) next := by
  rw [linked_append] at hlinked ⊢
  refine ⟨hlinked.1.congr fun a ha => setNext_of_ne ?_ next, ?_, trivial⟩
  · rintro rfl
    exact hfresh ha
  · exact setNext_self hlinked.2.1 next

/-- Two chains that end in null and start at one node are the same chain. -/
theorem Linked.unique {heap : Heap α} {cells others : List (ℕ × α)}
    (hcells : Linked heap cells none) (hothers : Linked heap others none)
    (hlink : link cells none = link others none) : cells = others := by
  induction cells generalizing others with
  | nil =>
    cases others with
    | nil => rfl
    | cons other rest => simp at hlink
  | cons cell rest ih =>
    cases others with
    | nil => simp at hlink
    | cons other others =>
      have haddress : cell.1 = other.1 := by simpa using hlink
      have hnode := hcells.1.symm.trans (haddress ▸ hothers.1)
      obtain ⟨hvalue, hnext⟩ := Node.mk.inj (Option.some.inj hnode)
      rw [ih hcells.2 hothers.2 hnext, Prod.ext haddress hvalue]

/-- A chain that ends in null never comes back to a node. -/
theorem Linked.nodup {heap : Heap α} {cells : List (ℕ × α)}
    (hlinked : Linked heap cells none) : (addresses cells).Nodup := by
  induction cells with
  | nil => exact nodup_nil
  | cons cell rest ih =>
    refine nodup_cons.2 ⟨fun hmem => ?_, ih hlinked.2⟩
    obtain ⟨again, hagain, haddress⟩ := mem_map.1 hmem
    obtain ⟨front, back, rfl⟩ := append_of_mem hagain
    have hback := (linked_append.1 hlinked.2).2
    have heq := hlinked.unique hback (by simp [haddress])
    have hlength := congrArg length heq
    simp at hlength
    omega

theorem Linked.lt_size {heap : Heap α} {cells : List (ℕ × α)} (hlinked : Linked heap cells last) :
    ∀ a ∈ addresses cells, a < heap.size := by
  induction cells with
  | nil => simp [addresses]
  | cons cell rest ih =>
    intro a ha
    rcases mem_cons.1 ha with rfl | ha
    · by_contra hle
      have hnone := heap.unused cell.1 (not_lt.1 hle)
      rw [hlinked.1] at hnone
      exact absurd hnone (by simp)
    · exact ih hlinked.2 a ha

/-- The cells of a chain to null are at most as many as the heap has nodes. -/
theorem Linked.length_le {heap : Heap α} {cells : List (ℕ × α)}
    (hlinked : Linked heap cells none) : cells.length ≤ heap.size := by
  have hsubset : addresses cells ⊆ range heap.size := fun a ha =>
    mem_range.2 (hlinked.lt_size a ha)
  simpa [addresses] using (hlinked.nodup.subperm hsubset).length_le

/-- Walking a chain to null returns its values. -/
theorem Linked.walk {heap : Heap α} {cells : List (ℕ × α)} (hlinked : Linked heap cells none) :
    heap.walk (heap.size + 1) (link cells none) = some (values cells) := by
  have hfuel : ∀ {cells : List (ℕ × α)} {fuel : ℕ}, Linked heap cells none → cells.length ≤ fuel →
      heap.walk (fuel + 1) (link cells none) = some (values cells) := by
    intro cells
    induction cells with
    | nil => intro fuel _ _; rfl
    | cons cell rest ih =>
      intro fuel hlinked hlength
      obtain ⟨fuel, rfl⟩ : ∃ k, fuel = k + 1 := ⟨fuel - 1, by simp at hlength; omega⟩
      have hrest := ih hlinked.2 (by simpa using hlength)
      simp [Heap.walk, hlinked.1, hrest, values]
  exact hfuel hlinked hlinked.length_le

/-- Linking a node behind `final`: the front now ends at the new node, which
points to the old rest. -/
theorem Linked.insert_after {heap : Heap α} {front back : List (ℕ × α)} {final : ℕ × α}
    {node : Node α} (hlinked : Linked heap (front ++ [final] ++ back) none)
    (hfresh : address ∉ addresses (front ++ [final] ++ back))
    (hnode : heap.node address = some node) {result : Heap α}
    (hresult : result = (heap.setNext address (link back none)).setNext final.1 (some address)) :
    Linked result (front ++ [final]) (some address) ∧ Linked result back none ∧
      result.node address = some ⟨node.value, link back none⟩ ∧
      ∀ a, a ≠ address → a ∉ addresses (front ++ [final] ++ back) →
        result.node a = heap.node a := by
  have hnodup := hlinked.nodup
  simp only [addresses, map_append, map_cons, map_nil,
    nodup_append, mem_append, mem_singleton, not_or] at hnodup hfresh
  obtain ⟨⟨_, _, hfront⟩, _, hback⟩ := hnodup
  obtain ⟨hhead, htail⟩ := linked_append.1 hlinked
  have hne : address ≠ final.1 := hfresh.1.2
  subst hresult
  refine ⟨?_, ?_, ?_, ?_⟩
  · have hmoved : Linked (heap.setNext address (link back none))
        (front ++ [final]) (link back none) := by
      refine hhead.congr fun a ha => setNext_of_ne ?_ _
      rintro rfl
      simp only [addresses, map_append, mem_append, map_cons, map_nil, mem_singleton] at ha
      exact ha.elim hfresh.1.1 hfresh.1.2
    exact hmoved.setNext_last (fun hmem => hfront _ hmem _ rfl rfl) _
  · refine htail.congr fun a ha => ?_
    have hfinal : a ≠ final.1 := fun h => hback final.1 (.inr rfl) a ha h.symm
    have haddress : a ≠ address := fun h => hfresh.2 (h ▸ ha)
    rw [setNext_of_ne hfinal, setNext_of_ne haddress]
  · rw [setNext_of_ne hne, setNext_self hnode]
  · intro a haddress ha
    have hfinal : a ≠ final.1 := by
      rintro rfl
      exact ha (by simp [addresses])
    rw [setNext_of_ne hfinal, setNext_of_ne haddress]

@[simp]
theorem size_setNext (heap : Heap α) (address : ℕ) (next : Option ℕ) :
    (heap.setNext address next).size = heap.size := rfl

theorem size_allocList (heap : Heap α) (list : List α) :
    (heap.allocList list).1.size = heap.size + list.length := by
  induction list with
  | nil => rfl
  | cons value rest ih => simp [Heap.allocList, Heap.alloc, ih]; omega

theorem node_allocList_of_lt {heap : Heap α} {a : ℕ} (ha : a < heap.size)
    (list : List α) : (heap.allocList list).1.node a = heap.node a := by
  induction list with
  | nil => rfl
  | cons value rest ih =>
    have hne : a ≠ (heap.allocList rest).1.size := by
      rw [size_allocList]
      omega
    simp [Heap.allocList, Heap.alloc, hne, ih]

/-- A fresh list is a chain of new cells that ends in null. -/
theorem allocList_linked (heap : Heap α) (list : List α) :
    ∃ cells, values cells = list ∧ (∀ a ∈ addresses cells, heap.size ≤ a) ∧
      (heap.allocList list).2 = link cells none ∧
      Linked (heap.allocList list).1 cells none := by
  induction list with
  | nil => exact ⟨[], rfl, by simp [addresses], rfl, trivial⟩
  | cons value rest ih =>
    obtain ⟨cells, hvalues, hnew, hlink, hlinked⟩ := ih
    refine ⟨((heap.allocList rest).1.size, value) :: cells, by
      simpa [values] using hvalues, ?_, rfl, ?_, ?_⟩
    · intro a ha
      rcases mem_cons.1 ha with rfl | ha
      · simp [size_allocList]
      · exact hnew a ha
    · simp [Heap.allocList, Heap.alloc, hlink]
    · refine hlinked.congr fun a ha => if_neg ?_
      exact (hlinked.lt_size a ha).ne

end Xv6Users.LinkedNodes
