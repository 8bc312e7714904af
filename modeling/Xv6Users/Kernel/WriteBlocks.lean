import Xv6Users.Core.Journal
import Xv6Users.Kernel.FileBytes

/-!
# The blocks that a write logs

`filewrite` cuts what it writes into chunks, each a transaction of its own, by a formula
that counts blocks of 512 bytes.  With blocks of 2048 bytes a chunk touches at most two of
them, and each costs at most the block, its block of the bitmap, an indirect block and the
block of the bitmap for that one.
-/

namespace Xv6Users.WriteBlocks

open Contracts Journal Processes Layout Blocks BlockSpecs FileBytes
open Inodes (maxOpBlocks)
open Syscalls (writeMax)

def withLog (state : State) (logged : List ℕ) : State :=
  { state with logged := logged }

variable {post : Unit → Finset ℕ → Prop} {change : Disk → Disk}

section Steps

variable {sb : Superblock} {state : State} {inum b : ℕ} {α : Type}

theorem logWrite_gives (hpost : post () {b}) : Gives withLog (logWrite sb b) state post := by
  refine Or.inr ⟨(), state, {b}, hpost, ?_⟩
  intro logged result final hdone
  simp only [logWrite, bind, Op.bind, Op.gets] at hdone
  split_ifs at hdone
  · cases hdone
  · cases hdone
  · cases hdone
    refine ⟨rfl, absorb logged b, rfl, fun entry => ?_⟩
    rw [Finset.mem_singleton, absorb]
    split_ifs with hmem
    · constructor
      · exact Or.inl
      · rintro (hentry | rfl)
        · exact hentry
        · exact hmem
    · rw [List.mem_append, List.mem_singleton]

theorem setDisk_gives (hpost : post () ∅) : Gives withLog (setDisk change) state post :=
  .modify (fun _ => rfl) hpost

/-- A disk write that is logged. -/
theorem write_gives {next : Unit → B α} {post : α → Finset ℕ → Prop}
    (hnext : ∀ state, Gives withLog (next ()) state fun result given => post result ({b} ∪ given)) :
    Gives withLog (setDisk change >>= fun _ => logWrite sb b >>= next) state post := by
  have hset : Gives withLog (setDisk change) state fun _ given => given = ∅ := setDisk_gives rfl
  refine hset.bind ?_
  rintro _ middle _ rfl
  have hlog : Gives withLog (logWrite sb b) middle fun _ given => given = {b} := logWrite_gives rfl
  refine hlog.bind ?_
  rintro _ middle _ rfl
  refine (hnext middle).mono fun result given hpost => ?_
  rwa [Finset.empty_union]

theorem getInode_gives {next : Dinode → B α} {post : α → Finset ℕ → Prop}
    (hnext : ∀ dinode, Gives withLog (next dinode) state post) :
    Gives withLog (getInode inum >>= next) state post := by
  rw [getInode, Op.bind_assoc]
  apply Gives.gets_bind (fun _ => rfl)
  cases state.inodes inum with
  | none =>
    have hhalt : Gives withLog (Op.halt .null : B Dinode) state fun _ _ => False := .halt _
    exact hhalt.bind fun _ _ _ => False.elim
  | some dinode => exact hnext dinode

theorem setInode_gives {change : Dinode → Dinode} {next : Unit → B α}
    {post : α → Finset ℕ → Prop} (hnext : ∀ state, Gives withLog (next ()) state post) :
    Gives withLog (setInode inum change >>= next) state post := by
  rw [setInode, Op.bind_assoc]
  apply getInode_gives
  intro dinode
  have hset : Gives withLog (setCopy inum (some (change dinode))) state fun _ given =>
      given = ∅ := .modify (fun _ => rfl) rfl
  refine hset.bind ?_
  rintro _ middle _ rfl
  refine (hnext middle).mono fun result given hpost => ?_
  rwa [Finset.empty_union]

theorem balloc_gives : Gives withLog (balloc sb) state fun b given => given ⊆ {sb.bblock b, b} := by
  apply Gives.gets_bind (fun _ => rfl)
  cases (List.range sb.size).find? fun b => !state.disk.bit sb b with
  | none => exact .halt _
  | some b =>
    apply write_gives
    intro state
    rw [bzero, Op.bind_assoc]
    apply write_gives
    intro state
    apply Gives.pure
    rfl

theorem mapAddr_gives (index : Fin 10) :
    Gives withLog (mapAddr sb inum index) state fun b given => given ⊆ {sb.bblock b, b} := by
  apply getInode_gives
  intro dinode
  split_ifs
  · refine balloc_gives.bind ?_
    intro b middle given hgiven
    apply setInode_gives
    intro state
    apply Gives.pure
    rwa [Finset.union_empty]
  · exact .pure (Finset.empty_subset _)

theorem mapEntry_gives (addr index : ℕ) :
    Gives withLog (mapEntry sb addr index) state fun b given =>
      given ⊆ {addr, sb.bblock b, b} := by
  apply Gives.gets_bind (fun _ => rfl)
  split_ifs
  · refine balloc_gives.bind ?_
    intro b middle given hgiven
    apply write_gives
    intro state
    apply Gives.pure
    rw [Finset.union_empty, Finset.union_subset_iff, Finset.singleton_subset_iff]
    exact ⟨hgiven.trans (Finset.subset_insert _ _), Finset.mem_insert_self _ _⟩
  · exact .pure (Finset.empty_subset _)

/-- A block, an indirect block and the bits of both. -/
theorem bmap_gives (bn : ℕ) :
    Gives withLog (bmap sb inum bn) state fun b given =>
      ∃ addr, given ⊆ {sb.bblock addr, addr, sb.bblock b, b} := by
  rw [bmap]
  split_ifs
  · refine (mapAddr_gives _).mono fun b given hgiven => ⟨b, hgiven.trans ?_⟩
    exact (Finset.subset_insert _ _).trans (Finset.subset_insert _ _)
  · refine (mapAddr_gives 9).bind ?_
    intro addr middle given hgiven
    refine (mapEntry_gives addr _).mono fun b given' hgiven' => ⟨addr, ?_⟩
    apply Finset.union_subset
    · apply hgiven.trans
      apply Finset.insert_subset_insert
      exact Finset.singleton_subset_iff.2 (Finset.mem_insert_self _ _)
    · exact hgiven'.trans (Finset.subset_insert _ _)
  · exact .halt _

/-- Each block that is touched costs at most four. -/
theorem writeLoop_gives (fuel off : ℕ) (src : List Byte) :
    Gives withLog (writeLoop sb inum fuel off src) state fun _ given =>
      given.card ≤ 4 * span off src.length := by
  induction fuel generalizing state off src with
  | zero => exact .pure (Nat.zero_le _)
  | succ fuel ih =>
    rw [writeLoop]
    split_ifs with hsrc
    · exact .pure (Nat.zero_le _)
    · refine (bmap_gives _).bind ?_
      rintro b middle given ⟨addr, hgiven⟩
      apply write_gives
      intro state
      refine (ih _ _).mono fun _ given' hgiven' => ?_
      have hlength : src.length ≠ 0 := fun hzero => hsrc (List.length_eq_zero_iff.1 hzero)
      have hround : (given ∪ {b}).card ≤ 4 := by
        have hsub : given ∪ {b} ⊆ {sb.bblock addr, addr, sb.bblock b, b} := by
          apply Finset.union_subset hgiven
          simp
        exact (Finset.card_le_card hsub).trans Finset.card_le_four
      rw [List.length_drop] at hgiven'
      calc (given ∪ ({b} ∪ given')).card
          = (given ∪ {b} ∪ given').card := by rw [Finset.union_assoc]
        _ ≤ (given ∪ {b}).card + given'.card := Finset.card_union_le _ _
        _ ≤ 4 + 4 * span (off + chunk off src.length) (src.length - chunk off src.length) :=
            Nat.add_le_add hround hgiven'
        _ = 4 * span off src.length := by
            rw [span_chunk hlength]
            ring

theorem growInode_gives (last : ℕ) (n : UInt32) :
    Gives withLog (growInode sb inum last n) state fun _ given => given.card ≤ 1 := by
  apply getInode_gives
  intro dinode
  split_ifs
  · apply setInode_gives
    intro state
    apply getInode_gives
    intro dinode
    have hset : Gives withLog (setDisk (·.putDinode sb inum dinode)) state fun _ given =>
        given = ∅ := setDisk_gives rfl
    refine hset.bind ?_
    rintro _ middle _ rfl
    exact logWrite_gives (by simp)
  · exact .pure (Nat.zero_le _)

theorem writei_gives (src : List Byte) (off n : UInt32) (answer : ℤ) :
    Gives withLog (writei sb inum src off n answer) state fun _ given =>
      given.card ≤ 4 * span off.toNat src.length + 1 := by
  apply getInode_gives
  intro dinode
  split_ifs
  · exact .pure (Nat.zero_le _)
  · exact .pure (Nat.zero_le _)
  · exact .pure (Nat.zero_le _)
  · refine (writeLoop_gives _ _ _).bind ?_
    intro _ middle given hgiven
    refine (growInode_gives _ _).bind ?_
    intro _ middle given' hgiven'
    apply Gives.pure
    rw [Finset.union_empty]
    exact (Finset.card_union_le _ _).trans (Nat.add_le_add hgiven hgiven')

end Steps

/-- A chunk is shorter than a block. -/
theorem span_chunk_le (off : ℕ) {count : ℕ} (hcount : count ≤ writeMax) : span off count ≤ 2 := by
  have hmax : writeMax = 1536 := rfl
  have hsize : bsize = 2048 := rfl
  rw [span, hsize]
  split_ifs
  · exact Nat.zero_le 2
  · omega

/-- Whatever the file and the bitmap look like, the blocks that one chunk of `filewrite`
gives to `log_write` are at most `MAXOPBLOCKS`. -/
theorem chunk_fits_transaction (sb : Superblock) (state : State) (inum : ℕ) (src : List Byte)
    (off : UInt32) (answer : ℤ) :
    ∃ given : Finset ℕ, given.card ≤ maxOpBlocks ∧ ∀ logged result final,
      writei sb inum (src.take writeMax) off (UInt32.ofNat (src.take writeMax).length) answer
          (withLog state logged) = .done result final →
        ∀ b, b ∈ final.logged ↔ b ∈ logged ∨ b ∈ given := by
  have hspan : span off.toNat (src.take writeMax).length ≤ 2 :=
    span_chunk_le _ (List.length_take_le _ _)
  have hgives : Gives withLog (writei sb inum (src.take writeMax) off
      (UInt32.ofNat (src.take writeMax).length) answer) state fun _ given =>
      given.card ≤ 4 * span off.toNat (src.take writeMax).length + 1 := writei_gives _ _ _ _
  apply hgives.exists_given ⟨0, ∅, Nat.zero_le _⟩
  · intro _ given hgiven
    have hmax : maxOpBlocks = 10 := rfl
    omega
  · intro state logged
    rfl

end Xv6Users.WriteBlocks
