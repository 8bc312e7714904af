import Xv6Users.Userland.FreedRecord

/-!
# The sizes of `malloc`

The 32-bit arithmetic of `umalloc.c`, on the free list in units of one header.
-/

namespace Xv6Users.HeapSizes

open Ulib FreedRecord List Option

variable {heap : Heap} {units u start size prevp p : ℕ}

/-- The units that `malloc` looks for. -/
def nunits (nbytes : ℕ) : ℕ :=
  (nbytes + 7) % 2 ^ 32 / 8 + 1

/-- The argument of `sbrk`, an `int`. -/
def request (nu : ℕ) : ℤ :=
  int32 (nu * 8)

/-- `morecore`, for an answer of `sbrk`. -/
def morecore (heap : Heap) (nu : ℕ) (granted : Bool) : Option Heap :=
  let nu := max nu 4096
  if granted then some (free { heap with brk := (heap.brk + request nu / 8).toNat } heap.brk nu)
  else none

def malloc (heap : Heap) (nbytes : ℕ) (granted : Bool) : Option (Heap × ℕ) :=
  let units := nunits nbytes
  match findBlock heap units with
  | some (prevp, p, size) => some (carve heap units prevp p size)
  | none => do
    let heap ← morecore heap units granted
    let (prevp, p, size) ← findBlock heap units
    some (carve heap units prevp p size)

/-- A unit of memory is in a free block. -/
def Covers (heap : Heap) (u : ℕ) : Prop :=
  ∃ block ∈ heap.blocks, block.1 ≤ u ∧ u < block.1 + block.2

/-- A block that `malloc` returns has the bytes asked for, in free blocks and what `sbrk`
gave; and `sbrk` is asked for the size that `morecore` records. -/
def Sound (heap : Heap) (nbytes : ℕ) (granted : Bool) : Prop :=
  (∀ after start, malloc heap nbytes granted = some (after, start) →
    nbytes ≤ (nunits nbytes - 1) * 8 ∧
    ∀ u, start ≤ u → u < start + nunits nbytes → Covers heap u ∨
      findBlock heap (nunits nbytes) = none ∧ heap.brk ≤ u ∧
        (u + 1 : ℤ) * 8 ≤ heap.brk * 8 + request (max (nunits nbytes) 4096)) ∧
  (findBlock heap (nunits nbytes) = none →
    (max (nunits nbytes) 4096 * 8 : ℕ) ≤ request (max (nunits nbytes) 4096))

theorem search_mem {blocks : List (ℕ × ℕ)} {q : ℕ}
    (hsearch : search units q blocks = some (prevp, p, size)) :
    (p, size) ∈ blocks ∧ units ≤ size := by
  induction blocks generalizing q with
  | nil => cases hsearch
  | cons block rest ih =>
    rw [search] at hsearch
    split_ifs at hsearch with hsize
    · cases hsearch
      exact ⟨.head _, hsize⟩
    · exact (ih hsearch).imp_left (.tail _)

theorem findBlock_covers (hfound : findBlock heap units = some (prevp, p, size))
    (hlow : (carve heap units prevp p size).2 ≤ u)
    (hhigh : u < (carve heap units prevp p size).2 + units) : Covers heap u := by
  obtain ⟨hmem, hle⟩ := search_mem hfound
  have hblock : (p, size) ∈ heap.blocks := by
    rcases mem_append.1 hmem with hmem | hmem
    · exact (dropWhile_sublist _).subset hmem
    · exact (takeWhile_sublist _).subset hmem
  have hcut : (carve heap units prevp p size).2 = p + (size - units) := by
    unfold carve
    split_ifs with hsame
    · simp [hsame]
    · rfl
  exact ⟨_, hblock, by dsimp only; omega, by dsimp only; omega⟩

theorem free_covers (hcovers : Covers (free heap start size) u) :
    Covers heap u ∨ start ≤ u ∧ u < start + size := by
  obtain ⟨block, hblock, hinside⟩ := hcovers
  have hbefore : heap.blocks.takeWhile (·.1 < start) ⊆ heap.blocks :=
    (takeWhile_sublist _).subset
  have hafter : heap.blocks.dropWhile (·.1 < start) ⊆ heap.blocks :=
    (dropWhile_sublist _).subset
  unfold free at hblock
  unfold Covers
  generalize heap.blocks.takeWhile (·.1 < start) = before at *
  generalize heap.blocks.dropWhile (·.1 < start) = behind at *
  have hinit : before.dropLast ⊆ before := dropLast_subset before
  cases hlast : before.getLast? with
  | none =>
    simp only [hlast] at hblock
    exact .inl ⟨block, by simpa using hblock, hinside⟩
  | some last =>
    have hmem := hbefore (mem_of_mem_getLast? hlast)
    cases behind with
    | nil => grind
    | cons next rest => grind

theorem malloc_covers {nbytes : ℕ} {granted : Bool} {result : Heap × ℕ}
    (hmalloc : malloc heap nbytes granted = some result) (hlow : result.2 ≤ u)
    (hhigh : u < result.2 + nunits nbytes) :
    Covers heap u ∨ findBlock heap (nunits nbytes) = none ∧ heap.brk ≤ u ∧
      u < heap.brk + max (nunits nbytes) 4096 := by
  unfold malloc at hmalloc
  dsimp only at hmalloc
  split at hmalloc
  · rename_i hfound
    rw [some_inj] at hmalloc
    subst hmalloc
    exact .inl (findBlock_covers hfound hlow hhigh)
  · rename_i hnone
    simp only [bind_eq_bind, bind_eq_some_iff, morecore,
      ite_none_right_eq_some, some_inj] at hmalloc
    obtain ⟨larger, ⟨-, hfree⟩, ⟨prevp, p, size⟩, hfound, rfl⟩ := hmalloc
    have hcovers : Covers larger u := findBlock_covers hfound hlow hhigh
    rw [← hfree] at hcovers
    rcases free_covers hcovers with ⟨block, hblock, hinside⟩ | hfresh
    · exact .inl ⟨block, hblock, hinside⟩
    · exact .inr ⟨hnone, hfresh⟩

theorem request_lt (nu : ℕ) : request nu < 2 ^ 31 := by
  rw [request, int32, Int.bmod_def]
  split_ifs <;> omega

end Xv6Users.HeapSizes
