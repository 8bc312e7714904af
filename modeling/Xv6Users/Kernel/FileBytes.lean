import Xv6Users.Kernel.BlockSpecs
import Xv6Users.Kernel.Directories

/-!
# Files are byte arrays

The contents of an inode are the bytes of its blocks up to its size.  `writei` replaces
or appends bytes of one inode and changes those of no other; `readi` returns a part of
them and changes nothing.
-/

namespace Xv6Users.FileBytes

open Function List Option Finset

open Contracts Buffers LittleEndian Ownership Processes Layout Blocks BlockOwners BlockSpecs
open Inodes (Stop splice)

section Patch

variable {sb : Superblock} {state : State} {inum bn b off : ℕ} {src : List Byte}
  {logged : List ℕ}

def patched (state : State) (b off : ℕ) (src : List Byte) (logged : List ℕ) : State :=
  { state with disk := state.disk.patch b off src, logged := logged }

theorem beside_patched (hdata : sb.dataStart ≤ b) :
    Beside sb {b} state.disk (patched state b off src logged).disk :=
  beside_data hdata fun _ hother => Disk.block_patch_of_ne hother _ _

/-- A block of data is no indirect block, so no reference changes. -/
theorem target_patched (hcons : Consistent sb state)
    (htarget : target sb state (inum, ref bn) = some b) (place : Place) :
    target sb (patched state b off src logged) place = target sb state place := by
  obtain ⟨other, found⟩ := place
  have hbeside : Beside sb {b} state.disk (patched state b off src logged).disk :=
    beside_patched (hcons.data htarget).1
  by_cases hother : other < sb.ninodes
  · apply target_beside hcons hbeside (current_beside hbeside rfl hother)
    rintro c hindirect rfl
    have hsame := congrArg Prod.snd (hcons.owned.unique htarget hindirect)
    exact ref_ne_indirect bn hsame
  · rw [target_of_le (not_lt.1 hother), target_of_le (not_lt.1 hother)]

theorem consistent_patched (hcons : Consistent sb state)
    (htarget : target sb state (inum, ref bn) = some b) :
    Consistent sb (patched state b off src logged) := by
  have hdata := (hcons.data htarget).1
  have hbeside : Beside sb {b} state.disk (patched state b off src logged).disk :=
    beside_patched hdata
  refine ⟨hcons.owned.congr ?_ (target_patched hcons htarget), ?_⟩
  · intro c
    apply and_congr_right
    intro hc
    have hbit : (patched state b off src logged).disk.bit sb c = state.disk.bit sb c :=
      bit_data hdata hc fun _ hother => Disk.block_patch_of_ne hother _ _
    rw [hbit]
  · intro _ _ hcopies
    exact hcons.copies_beside hbeside (fun {_ found} hfound => ⟨found, hfound, rfl⟩) hcopies

theorem free_patched (hdata : sb.dataStart ≤ b) :
    free sb (patched state b off src logged).disk = free sb state.disk := by
  rw [free, free]
  congr 1
  apply Finset.filter_congr
  intro c hc
  have hbit : (patched state b off src logged).disk.bit sb c = state.disk.bit sb c :=
    bit_data hdata (Finset.mem_range.1 hc) fun _ hother => Disk.block_patch_of_ne hother _ _
  rw [hbit]

theorem held_patched (hcons : Consistent sb state)
    (htarget : target sb state (inum, ref bn) = some b) (other bn' : ℕ) :
    held sb (patched state b off src logged) other bn' =
      if other = inum ∧ bn' = bn then some (overlay (state.disk.block b) off src)
      else held sb state other bn' := by
  rw [held, target_patched hcons htarget]
  split_ifs with hplace
  · obtain ⟨rfl, rfl⟩ := hplace
    rw [htarget, map_some]
    exact congrArg some (Disk.block_patch_self _ _ _)
  · rw [held]
    cases hfound : target sb state (other, ref bn') with
    | none => rfl
    | some c =>
      have hc : c ≠ b := by
        rintro rfl
        have hsame := hcons.owned.unique hfound htarget
        rw [Prod.mk.injEq, ref_injective.eq_iff] at hsame
        exact hplace hsame
      exact congrArg some (Disk.block_patch_of_ne hc _ _)

end Patch

/-- A byte of an inode; what is not there reads as zero. -/
def byteAt (sb : Superblock) (state : State) (inum position : ℕ) : Byte :=
  ((held sb state inum (position / bsize)).getD zeros).getD (position % bsize) 0

def content (sb : Superblock) (state : State) (inum : ℕ) : List Byte :=
  (List.range (current sb state inum).size.toNat).map (byteAt sb state inum)

/-- The number of blocks that a range of bytes touches. -/
def span (off n : ℕ) : ℕ :=
  if n = 0 then 0 else (off + n - 1) / bsize - off / bsize + 1

/-- The bytes that one round of a loop takes. -/
def chunk (off n : ℕ) : ℕ :=
  min n (bsize - off % bsize)

theorem chunk_pos {off n : ℕ} (hn : n ≠ 0) : 1 ≤ chunk off n := by
  rw [chunk, bsize]
  omega

theorem chunk_le (off n : ℕ) : chunk off n ≤ n :=
  min_le_left _ _

theorem span_chunk {off n : ℕ} (hn : n ≠ 0) :
    span off n = span (off + chunk off n) (n - chunk off n) + 1 := by
  rw [span, if_neg hn, span, chunk, bsize]
  split_ifs with hrest <;> omega

/-! ## The loop of `writei` -/

def Touches (off n bn : ℕ) : Prop :=
  ∃ position, off ≤ position ∧ position < off + n ∧ position / bsize = bn

/-- The state after bytes have been written into the blocks of an inode; its size is not
changed yet. -/
structure Writes (sb : Superblock) (state : State) (inum : ℕ) (dinode : Dinode) (off : ℕ)
    (src : List Byte) (dinode' : Dinode) (state' : State) : Prop where
  sound : Sound sb state'
  copy : state'.inodes inum = some dinode'
  fields : dinode' = { dinode with addrs := dinode'.addrs }
  others : ∀ other, other ≠ inum → state'.inodes other = state.inodes other
  dinodes : ∀ other < sb.ninodes, state'.disk.dinode sb other = state.disk.dinode sb other
  outstanding : state'.outstanding = state.outstanding
  files : ∀ other bn, other ≠ inum → held sb state' other bn = held sb state other bn
  bytes : ∀ position, byteAt sb state' inum position =
    if off ≤ position ∧ position < off + src.length then src.getD (position - off) 0
    else byteAt sb state inum position
  there : ∀ bn, held sb state inum bn ≠ none ∨ Touches off src.length bn →
    held sb state' inum bn ≠ none
  inside : (∀ bn, Touches off src.length bn → held sb state inum bn ≠ none) → dinode' = dinode
  weighs : weight sb dinode' state'.logged ≤ weight sb dinode state.logged + span off src.length
  leaves : room sb dinode state.disk ≤ room sb dinode' state'.disk + span off src.length

variable {dinode' : Dinode} {other position need inum : ℕ} {state' : State} {reason : Stop}
  {disk : Disk}

section Write

variable {sb : Superblock} {state : State} {inum off : ℕ} {dinode : Dinode}
  {src : List Byte}

theorem writes_nil (hsound : Sound sb state) (hcopy : state.inodes inum = some dinode) :
    Writes sb state inum dinode off [] dinode state where
  sound := hsound
  copy := hcopy
  fields := rfl
  others _ _ := rfl
  dinodes _ _ := rfl
  outstanding := rfl
  files _ _ _ := rfl
  bytes position := by
    rw [if_neg]
    rintro ⟨hlow, hhigh⟩
    rw [length_nil] at hhigh
    omega
  there bn hbn := by
    obtain hheld | ⟨position, hlow, hhigh, -⟩ := hbn
    · exact hheld
    · rw [length_nil] at hhigh
      omega
  inside _ := rfl
  weighs := Nat.le_add_right _ _
  leaves := Nat.le_add_right _ _

/-- One write after the other. -/
theorem Writes.append {state'' : State} {dinode'' : Dinode}
    {front back : List Byte} (hfront : Writes sb state inum dinode off front dinode' state')
    (hback : Writes sb state' inum dinode' (off + front.length) back dinode'' state'')
    (hspan : span off front.length + span (off + front.length) back.length =
      span off (front ++ back).length) :
    Writes sb state inum dinode off (front ++ back) dinode'' state'' where
  sound := hback.sound
  copy := hback.copy
  fields := by
    rw [hback.fields, hfront.fields]
  others other hother := (hback.others other hother).trans (hfront.others other hother)
  dinodes other hother := (hback.dinodes other hother).trans (hfront.dinodes other hother)
  outstanding := hback.outstanding.trans hfront.outstanding
  files other bn hother := (hback.files other bn hother).trans (hfront.files other bn hother)
  bytes position := by
    rw [hback.bytes, hfront.bytes, length_append]
    by_cases hlow : off ≤ position
    · by_cases hmiddle : position < off + front.length
      · have hleft : position - off < front.length := by omega
        rw [if_neg (by omega), if_pos ⟨hlow, hmiddle⟩, if_pos (by omega),
          getD_append _ _ _ _ hleft]
      · by_cases hhigh : position < off + front.length + back.length
        · have hright : front.length ≤ position - off := by omega
          rw [if_pos (by omega), if_pos (by omega), getD_append_right _ _ _ _ hright]
          congr 1
          omega
        · rw [if_neg (by omega), if_neg (by omega), if_neg (by omega)]
    · rw [if_neg (by omega), if_neg (by omega), if_neg (by omega)]
  there bn hbn := by
    apply hback.there
    obtain hheld | ⟨position, hlow, hhigh, hblock⟩ := hbn
    · exact .inl (hfront.there bn (.inl hheld))
    · rw [length_append] at hhigh
      by_cases hmiddle : position < off + front.length
      · exact .inl (hfront.there bn (.inr ⟨position, hlow, hmiddle, hblock⟩))
      · exact .inr ⟨position, by omega, by omega, hblock⟩
  inside hall := by
    have hsame : dinode' = dinode := by
      apply hfront.inside
      rintro bn ⟨position, hlow, hhigh, hblock⟩
      refine hall bn ⟨position, hlow, ?_, hblock⟩
      rw [length_append]
      omega
    rw [← hsame]
    apply hback.inside
    rintro bn ⟨position, hlow, hhigh, hblock⟩
    apply hfront.there bn
    refine .inl (hall bn ⟨position, by omega, ?_, hblock⟩)
    rw [length_append]
    omega
  weighs := by
    have hfirst := hfront.weighs
    have hlast := hback.weighs
    omega
  leaves := by
    have hfirst := hfront.leaves
    have hlast := hback.leaves
    omega

theorem span_of_fits {n : ℕ} (hn : n ≠ 0) (hfits : off % bsize + n ≤ bsize) : span off n = 1 := by
  rw [bsize] at hfits
  rw [span, if_neg hn, bsize]
  omega

/-- The block of a position within a chunk. -/
theorem div_of_chunk {n : ℕ} (hfits : off % bsize + n ≤ bsize)
    (hlow : off ≤ position) (hhigh : position < off + n) : position / bsize = off / bsize := by
  rw [bsize] at hfits ⊢
  omega

/-- Within the block of an offset, positions are compared by their rest. -/
theorem mod_of_same (hsame : position / bsize = off / bsize) :
    position + off % bsize = off + position % bsize := by
  rw [bsize] at hsame ⊢
  omega

section Round

variable {b : ℕ} {dinode' : Dinode} {state' : State}

theorem block_of_maps (hmaps : Maps sb state inum dinode (off / bsize) b dinode' state') :
    state'.disk.block b = (held sb state inum (off / bsize)).getD zeros := by
  have hheld := hmaps.keeps inum (off / bsize)
  rw [if_pos ⟨rfl, rfl⟩, held, hmaps.found, map_some] at hheld
  exact some.inj hheld

theorem byteAt_round (hmaps : Maps sb state inum dinode (off / bsize) b dinode' state')
    (hfits : off % bsize + src.length ≤ bsize) (logged : List ℕ) (position : ℕ) :
    byteAt sb (patched state' b (off % bsize) src logged) inum position =
      if off ≤ position ∧ position < off + src.length then src.getD (position - off) 0
      else byteAt sb state inum position := by
  rw [byteAt, held_patched hmaps.sound.toConsistent hmaps.found, hmaps.keeps]
  by_cases hsame : position / bsize = off / bsize
  · have hrest := mod_of_same hsame
    have hindex : position % bsize < (state'.disk.block b).length := by
      rw [state'.disk.whole]
      exact Nat.mod_lt _ (by decide)
    rw [if_pos ⟨rfl, hsame⟩, getD_some, getD_overlay hindex]
    by_cases hinside : off ≤ position ∧ position < off + src.length
    · rw [if_pos hinside, if_pos (by omega)]
      congr 1
      omega
    · rw [if_neg hinside, if_neg (by omega), block_of_maps hmaps, byteAt, hsame]
  · have houtside : ¬ (off ≤ position ∧ position < off + src.length) :=
      fun hinside => hsame (div_of_chunk hfits hinside.1 hinside.2)
    rw [if_neg houtside, if_neg fun h => hsame h.2, if_neg fun h => hsame h.2, byteAt]

/-- One round: the block is mapped, written into and logged. -/
theorem round_writes (hcopy : state.inodes inum = some dinode)
    (hmaps : Maps sb state inum dinode (off / bsize) b dinode' state') (hsrc : src ≠ [])
    (hfits : off % bsize + src.length ≤ bsize) :
    Writes sb state inum dinode off src dinode'
      (patched state' b (off % bsize) src (absorb state'.logged b)) := by
  have hcons := hmaps.sound.toConsistent
  have hdata : sb.dataStart ≤ b := (hcons.data hmaps.found).1
  have hspan : span off src.length = 1 := by
    apply span_of_fits _ hfits
    exact fun hzero => hsrc (length_eq_zero_iff.1 hzero)
  have hbeside : Beside sb {b} state'.disk
      (patched state' b (off % bsize) src (absorb state'.logged b)).disk := beside_patched hdata
  refine ⟨⟨consistent_patched hcons hmaps.found, nodup_absorb hmaps.sound.log _⟩, hmaps.copy,
    hmaps.fields, hmaps.others, ?_, hmaps.outstanding, ?_, byteAt_round hmaps hfits _, ?_, ?_,
    ?_, ?_⟩
  · intro other hother
    exact (hbeside.dinode other hother).trans (hmaps.dinodes other hother)
  · intro other bn hother
    rw [held_patched hcons hmaps.found, if_neg fun h => hother h.1, hmaps.keeps,
      if_neg fun h => hother h.1]
  · intro bn hbn
    rw [held_patched hcons hmaps.found, hmaps.keeps]
    by_cases hsame : bn = off / bsize
    · rw [if_pos ⟨rfl, hsame⟩]
      exact some_ne_none _
    · rw [if_neg fun h => hsame h.2, if_neg fun h => hsame h.2]
      cases hbn with
      | inl hheld => exact hheld
      | inr htouches =>
        obtain ⟨position, hlow, hhigh, hblock⟩ := htouches
        exact absurd (hblock.symm.trans (div_of_chunk hfits hlow hhigh)) hsame
  · intro hall
    have htouches : Touches off src.length (off / bsize) := by
      have hpos : 0 < src.length := length_pos_iff.2 hsrc
      exact ⟨off, le_rfl, by omega, rfl⟩
    have hstate := hmaps.same (hall _ htouches)
    have hcopy' := hmaps.copy
    rw [hstate, hcopy] at hcopy'
    exact (some.inj hcopy').symm
  · rw [hspan]
    exact hmaps.weighs
  · rw [hspan, room, room, free_patched hdata]
    exact hmaps.leaves

end Round

/-- What is short after a write was short before. -/
theorem Writes.short (hwrites : Writes sb state inum dinode off src dinode' state')
    (hshort : Short sb dinode' state' need reason) :
    Short sb dinode state (span off src.length + need) reason := by
  cases hshort with
  | inl hlog =>
    have hweighs := hwrites.weighs
    exact .inl ⟨hlog.1, by omega⟩
  | inr hrest =>
    cases hrest with
    | inl hopen => exact .inr (.inl ⟨hopen.1, hwrites.outstanding ▸ hopen.2⟩)
    | inr hblocks =>
      have hleaves := hwrites.leaves
      exact .inr (.inr ⟨hblocks.1, by omega⟩)

theorem short_mono {need' : ℕ} (hneed : need ≤ need')
    (hshort : Short sb dinode state need reason) : Short sb dinode state need' reason := by
  cases hshort with
  | inl hlog => exact .inl ⟨hlog.1, by omega⟩
  | inr hrest =>
    cases hrest with
    | inl hopen => exact .inr (.inl hopen)
    | inr hblocks => exact .inr (.inr ⟨hblocks.1, by omega⟩)

/-- The loop writes all bytes; it stops only if the log or the disk is short of the blocks
that they touch. -/
theorem writeLoop_spec {fuel : ℕ} (hsound : Sound sb state)
    (hcopy : state.inodes inum = some dinode) (hend : off + src.length ≤ maxFile * bsize)
    (hfuel : src.length ≤ fuel) :
    Yields (writeLoop sb inum fuel off src) state
      (Short sb dinode state (span off src.length)) fun _ state' =>
        ∃ dinode', Writes sb state inum dinode off src dinode' state' := by
  induction fuel generalizing off src state dinode with
  | zero =>
    have hnil : src = [] := length_eq_zero_iff.1 (Nat.le_zero.1 hfuel)
    subst hnil
    exact .pure ⟨dinode, writes_nil hsound hcopy⟩
  | succ fuel ih =>
    rw [writeLoop]
    split_ifs with hnil
    · subst hnil
      exact .pure ⟨dinode, writes_nil hsound hcopy⟩
    have hlength : src.length ≠ 0 := fun hzero => hnil (length_eq_zero_iff.1 hzero)
    have hpos : 1 ≤ chunk off src.length := chunk_pos hlength
    have hle := chunk_le off src.length
    have hspan : span off src.length = span (off + chunk off src.length)
        (src.length - chunk off src.length) + 1 := span_chunk hlength
    have hbn : off / bsize < maxFile := by
      rw [Nat.div_lt_iff_lt_mul (by decide)]
      omega
    -- One round takes a chunk of the bytes.
    have htake : (src.take (chunk off src.length)).length = chunk off src.length := by
      rw [length_take, min_eq_left hle]
    have hdrop : (src.drop (chunk off src.length)).length =
        src.length - chunk off src.length := length_drop
    have hfits : off % bsize + (src.take (chunk off src.length)).length ≤ bsize := by
      rw [htake, chunk, bsize]
      omega
    have hne : src.take (chunk off src.length) ≠ [] := by
      intro hempty
      rw [hempty, length_nil] at htake
      omega
    refine ((bmap_spec hsound hcopy hbn).mono (fun _ => short_mono (by omega))
      fun _ _ => id).bind ?_
    rintro b state' ⟨dinode', hmaps⟩
    have hround := round_writes hcopy hmaps hne hfits
    refine .modify_bind (logWrite_bind ?_ ?_ ?_)
    · intro hfull
      have hfull' : isFull sb (absorb state'.logged b) := isFull_absorb hfull
      have hcount : (absorb state'.logged b).length ≤
          weight sb dinode' (absorb state'.logged b) + nbitmap sb + 1 :=
        length_le_weight hround.sound.log
      have hweighs := hmaps.weighs
      rw [isFull_iff] at hfull'
      exact .inl ⟨rfl, by omega⟩
    · intro hopen
      exact short_outside (hmaps.outstanding ▸ hopen)
    · refine (ih hround.sound hround.copy ?_ ?_).mono ?_ ?_
      · change off + chunk off src.length + (src.drop (chunk off src.length)).length ≤ _
        omega
      · change (src.drop (chunk off src.length)).length ≤ fuel
        omega
      · intro reason hshort
        have hbefore := hround.short hshort
        rw [span_of_fits (htake.symm ▸ Nat.one_le_iff_ne_zero.1 hpos) hfits] at hbefore
        refine short_mono ?_ hbefore
        change 1 + span (off + chunk off src.length) (src.drop (chunk off src.length)).length ≤ _
        rw [hdrop]
        omega
      · rintro _ state'' ⟨dinode'', hrest⟩
        refine ⟨dinode'', ?_⟩
        have hall := take_append_drop (chunk off src.length) src
        rw [← hall]
        apply hround.append
        · rw [htake]
          exact hrest
        · rw [hall, htake, hdrop, hspan, add_comm]
          congr 1
          exact htake ▸ span_of_fits (htake.symm ▸ Nat.one_le_iff_ne_zero.1 hpos) hfits

end Write

/-- A sound file system in which every block below the size of an inode is there. -/
structure Whole (sb : Superblock) (state : State) : Prop extends Sound sb state where
  sizes : ∀ inum, Allocated sb state inum → (current sb state inum).size.toNat ≤ maxFile * bsize
  blocks : ∀ inum bn, Allocated sb state inum →
    bn * bsize < (current sb state inum).size.toNat → held sb state inum bn ≠ none

/-- The bytes are written into an inode from `off` on, which grows if they end behind its
end; all other inodes are as they were. -/
structure Written (sb : Superblock) (state : State) (inum off : ℕ) (src : List Byte)
    (state' : State) : Prop where
  size : (current sb state' inum).size.toNat =
    max (current sb state inum).size.toNat (off + src.length)
  bytes : ∀ position, byteAt sb state' inum position =
    if off ≤ position ∧ position < off + src.length then src.getD (position - off) 0
    else byteAt sb state inum position
  others : ∀ other < sb.ninodes, other ≠ inum → current sb state' other = current sb state other ∧
      ∀ bn, held sb state' other bn = held sb state other bn

section Contents

variable {sb : Superblock} {state state' : State} {inum off : ℕ} {dinode : Dinode}
  {src : List Byte}

theorem length_content : (content sb state inum).length = (current sb state inum).size.toNat := by
  rw [content, length_map, length_range]

theorem getElem?_content (hposition : position < (current sb state inum).size.toNat) :
    (content sb state inum)[position]? = some (byteAt sb state inum position) := by
  rw [content, getElem?_map, getElem?_range hposition, map_some]

theorem content_congr (hcurrent : current sb state' other = current sb state other)
    (hheld : ∀ bn, held sb state' other bn = held sb state other bn) :
    content sb state' other = content sb state other := by
  have hbytes : byteAt sb state' other = byteAt sb state other := by
    funext position
    rw [byteAt, byteAt, hheld]
  rw [content, content, hcurrent, hbytes]

/-- The contents are overwritten and extended. -/
theorem Written.content_eq (hwritten : Written sb state inum off src state')
    (hoff : off ≤ (current sb state inum).size.toNat) :
    content sb state' inum = splice (content sb state inum) src off := by
  have hlength : (content sb state' inum).length =
      (splice (content sb state inum) src off).length := by
    rw [length_content, hwritten.size,
      Directories.length_splice (by rw [length_content]; exact hoff), length_content]
  apply ext_getElem?
  intro position
  by_cases hposition : position < (current sb state' inum).size.toNat
  · have htake : ((content sb state inum).take off).length = off := by
      rw [length_take, length_content, min_eq_left hoff]
    rw [getElem?_content hposition, hwritten.bytes, splice, append_assoc]
    rw [hwritten.size] at hposition
    by_cases hlow : off ≤ position
    · rw [getElem?_append_right (by omega), htake]
      by_cases hhigh : position < off + src.length
      · have hindex : position - off < src.length := by omega
        rw [if_pos ⟨hlow, hhigh⟩, getElem?_append_left hindex,
          getD_eq_getElem?_getD, getElem?_eq_getElem hindex, getD_some]
      · rw [if_neg (fun h => hhigh h.2), getElem?_append_right (by omega),
          getElem?_drop, ← getElem?_content (by omega)]
        congr 1
        omega
    · have hbefore : position < off := not_le.1 hlow
      rw [if_neg (fun h => hlow h.1), getElem?_append_left (by omega),
        getElem?_take_of_lt hbefore, getElem?_content (by omega)]
  · rw [← length_content, not_lt] at hposition
    rw [getElem?_eq_none hposition, getElem?_eq_none (hlength ▸ hposition)]

/-- A write leaves no hole behind. -/
theorem Written.whole (hwritten : Written sb state inum off src state')
    (hwhole : Whole sb state) (hsound : Sound sb state')
    (hthere : ∀ bn, held sb state inum bn ≠ none ∨ Touches off src.length bn →
      held sb state' inum bn ≠ none) (halloc : Allocated sb state inum)
    (hoff : off ≤ (current sb state inum).size.toNat)
    (hend : off + src.length ≤ maxFile * bsize) : Whole sb state' := by
  have hother : ∀ other, other ≠ inum → Allocated sb state' other →
      current sb state' other = current sb state other ∧ Allocated sb state other ∧
        ∀ bn, held sb state' other bn = held sb state other bn := by
    intro other hne halloc'
    obtain ⟨hcurrent, hheld⟩ := hwritten.others other halloc'.1 hne
    refine ⟨hcurrent, ?_, hheld⟩
    rwa [Allocated, hcurrent] at halloc'
  refine ⟨hsound, ?_, ?_⟩
  · intro other halloc'
    by_cases hne : other = inum
    · rw [hne, hwritten.size]
      exact max_le (hwhole.sizes inum halloc) hend
    · obtain ⟨hcurrent, hbefore, -⟩ := hother other hne halloc'
      rw [hcurrent]
      exact hwhole.sizes other hbefore
  · intro other bn halloc' hbn
    by_cases hne : other = inum
    · subst hne
      apply hthere
      rw [hwritten.size] at hbn
      by_cases hsize : bn * bsize < (current sb state other).size.toNat
      · exact .inl (hwhole.blocks other bn halloc hsize)
      · refine .inr ⟨bn * bsize, by omega, by omega, ?_⟩
        exact Nat.mul_div_cancel _ (by decide)
    · obtain ⟨hcurrent, hbefore, hheld⟩ := hother other hne halloc'
      rw [hheld]
      rw [hcurrent] at hbn
      exact hwhole.blocks other bn hbefore hbn

theorem Writes.current_of_ne (hwrites : Writes sb state inum dinode off src dinode' state')
    (hlt : other < sb.ninodes) (hother : other ≠ inum) :
    current sb state' other = current sb state other := by
  rw [current, current, hwrites.others other hother, hwrites.dinodes other hlt]

/-- The bytes end within the file. -/
theorem Writes.written (hcopy : state.inodes inum = some dinode)
    (hwrites : Writes sb state inum dinode off src dinode' state')
    (hinside : off + src.length ≤ dinode.size.toNat) : Written sb state inum off src state' where
  size := by
    rw [current_of_copy hwrites.copy, current_of_copy hcopy, hwrites.fields, max_eq_left hinside]
  bytes := hwrites.bytes
  others other hlt hother :=
    ⟨hwrites.current_of_ne hlt hother, fun bn => hwrites.files other bn hother⟩

/-- The file grows. -/
theorem Writes.grown (hcopy : state.inodes inum = some dinode)
    (hwrites : Writes sb state inum dinode off src dinode' state')
    (hbeyond : dinode.size.toNat < off + src.length) (hlast : off + src.length < 2 ^ 32)
    (logged : List ℕ) :
    Written sb state inum off src (stored sb state' inum
      { dinode' with size := UInt32.ofNat (off + src.length) } logged) := by
  have hcons := hwrites.sound.toConsistent
  obtain ⟨hinum, -, -⟩ := hcons.copies hwrites.copy
  have hheld : ∀ other bn, held sb (stored sb state' inum
      { dinode' with size := UInt32.ofNat (off + src.length) } logged) other bn =
      held sb state' other bn :=
    held_fields hcons (sameAddrs_stored hwrites.copy (by rfl) (by rfl) logged)
      (block_stored hinum logged)
  refine ⟨?_, ?_, ?_⟩
  · rw [current_stored_self, current_of_copy hcopy, max_eq_right hbeyond.le, UInt32.toNat_ofNat']
    exact Nat.mod_eq_of_lt hlast
  · intro position
    rw [byteAt, hheld]
    exact hwrites.bytes position
  · intro other hlt hother
    rw [current_stored_of_ne hother]
    refine ⟨hwrites.current_of_ne hlt hother, fun bn => ?_⟩
    rw [hheld, hwrites.files other bn hother]

/-- The loaded copy of an inode, if there is one, agrees with the disk. -/
def Synced (sb : Superblock) (state : State) (inum : ℕ) : Prop :=
  ∀ dinode, state.inodes inum = some dinode → state.disk.dinode sb inum = dinode

theorem Writes.synced_of_ne (hwrites : Writes sb state inum dinode off src dinode' state')
    (hlt : other < sb.ninodes) (hother : other ≠ inum) (hsynced : Synced sb state other) :
    Synced sb state' other := by
  intro found hfound
  rw [hwrites.others other hother] at hfound
  rw [hwrites.dinodes other hlt]
  exact hsynced found hfound

theorem synced_stored (logged : List ℕ) (hother : other ≠ inum → Synced sb state other) :
    Synced sb (stored sb state inum dinode logged) other := by
  intro found hfound
  by_cases hne : other = inum
  · subst hne
    have hself : (stored sb state other dinode logged).inodes other = some dinode := update_self ..
    rw [hself] at hfound
    cases hfound
    exact Disk.dinode_putDinode_self _ _
  · have hsame : (stored sb state inum dinode logged).inodes other = state.inodes other :=
      update_of_ne hne ..
    rw [hsame] at hfound
    exact (Disk.dinode_putDinode_of_ne hne _).trans (hother hne found hfound)

end Contents

/-! ## Reading and writing -/

/-- The arguments for which `writei` returns -1. -/
def Refused (size off n : ℕ) : Prop :=
  size < off ∨ 2 ^ 32 ≤ off + n ∨ maxFile * bsize < off + n

section Calls

variable {sb : Superblock} {state : State} {inum : ℕ} {dinode : Dinode} {off n : UInt32}
  {src : List Byte}

theorem add_lt_iff : off + n < off ↔ 2 ^ 32 ≤ off.toNat + n.toNat := by
  rw [UInt32.lt_iff_toNat_lt, UInt32.toNat_add]
  have hn := n.toNat_lt
  omega

theorem writei_refused (hcopy : state.inodes inum = some dinode) (hdev : dinode.type ≠ tDev)
    (hrefused : Refused dinode.size.toNat off.toNat n.toNat) (answer : ℤ) :
    writei sb inum src off n answer state = .done (-1) state := by
  simp only [writei, bind, Op.bind, getInode_done hcopy, if_neg hdev]
  by_cases hfirst : off > dinode.size ∨ off + n < off
  · rw [if_pos hfirst]
    rfl
  · rw [not_or, add_lt_iff, gt_iff_lt, UInt32.lt_iff_toNat_lt] at hfirst
    have hsum : (off + n).toNat = off.toNat + n.toNat := by
      rw [UInt32.toNat_add, Nat.mod_eq_of_lt (not_le.1 hfirst.2)]
    have hlast : (off + n).toNat > maxFile * bsize := by
      rw [hsum]
      rcases hrefused with hsize | hwraps | hend
      · exact absurd hsize hfirst.1
      · exact absurd hwraps hfirst.2
      · exact hend
    rw [if_neg, if_pos hlast]
    · rfl
    · rw [not_or, add_lt_iff, gt_iff_lt, UInt32.lt_iff_toNat_lt]
      exact hfirst

theorem growInode_spec {last : ℕ} {halts : Stop → Prop} {post : Unit → State → Prop}
    (hcopy : state.inodes inum = some dinode)
    (hfull : isFull sb state.logged → halts (.panic "too big a transaction"))
    (houtside : state.outstanding < 1 → halts (.panic "log_write outside of trans"))
    (hsame : ¬ (0 < n ∧ last > dinode.size.toNat) → post () state)
    (hgrown : last > dinode.size.toNat → post () (stored sb state inum
      { dinode with size := UInt32.ofNat last } (absorb state.logged (sb.iblock inum)))) :
    Yields (growInode sb inum last n) state halts post := by
  refine getInode_bind hcopy ?_
  split_ifs with hgrow
  · exact update_spec hcopy hfull houtside (hgrown hgrow.2)
  · exact .pure (hsame hgrow)

/-- What a write that has ended leaves behind. -/
def Finished (sb : Superblock) (state : State) (inum off : ℕ) (src : List Byte)
    (state' : State) : Prop :=
  Whole sb state' ∧ Written sb state inum off src state' ∧
    ∀ other < sb.ninodes, Synced sb state other → Synced sb state' other

section Finish

variable {start : ℕ} {dinode' : Dinode} {state' : State}

/-- Where nothing is written behind the end, no block is allocated either. -/
theorem Writes.finished_inside (hwhole : Whole sb state) (hcopy : state.inodes inum = some dinode)
    (hwrites : Writes sb state inum dinode start src dinode' state')
    (hinside : start + src.length ≤ dinode.size.toNat) :
    Finished sb state inum start src state' := by
  have hcurrent : current sb state inum = dinode := current_of_copy hcopy
  have halloc := hwhole.toConsistent.allocated hcopy
  have hsize := hwhole.sizes inum halloc
  rw [hcurrent] at hsize
  have hwritten := hwrites.written hcopy hinside
  refine ⟨hwritten.whole hwhole hwrites.sound hwrites.there halloc (by rw [hcurrent]; omega)
    (by omega), hwritten, ?_⟩
  have hdinode : dinode' = dinode := by
    apply hwrites.inside
    rintro bn ⟨position, -, hhigh, rfl⟩
    apply hwhole.blocks inum _ halloc
    have hdiv := Nat.div_mul_le_self position bsize
    rw [hcurrent]
    omega
  intro other hother hsynced
  by_cases hne : other = inum
  · subst hne
    intro found hfound
    rw [hwrites.copy, hdinode, ← hcopy] at hfound
    rw [hwrites.dinodes other hother]
    exact hsynced found hfound
  · exact hwrites.synced_of_ne hother hne hsynced

theorem Writes.finished_grown (hwhole : Whole sb state) (hcopy : state.inodes inum = some dinode)
    (hwrites : Writes sb state inum dinode start src dinode' state')
    (hstart : start ≤ dinode.size.toNat) (hend : start + src.length ≤ maxFile * bsize)
    (hbeyond : dinode.size.toNat < start + src.length) {logged : List ℕ} (hlogged : logged.Nodup) :
    Finished sb state inum start src (stored sb state' inum
      { dinode' with size := UInt32.ofNat (start + src.length) } logged) := by
  have hcurrent : current sb state inum = dinode := current_of_copy hcopy
  have halloc := hwhole.toConsistent.allocated hcopy
  have hcons := hwrites.sound.toConsistent
  have hmax : maxFile * bsize < 2 ^ 32 := by decide
  have hwritten := hwrites.grown hcopy hbeyond (hend.trans_lt hmax) logged
  have hsound : Sound sb (stored sb state' inum
      { dinode' with size := UInt32.ofNat (start + src.length) } logged) :=
    ⟨hcons.stored hwrites.copy (by rfl) (by exact (hcons.copies hwrites.copy).2.1) _, hlogged⟩
  refine ⟨hwritten.whole hwhole hsound ?_ halloc (hcurrent ▸ hstart) hend, hwritten, ?_⟩
  · intro bn hbn
    rw [held_fields hcons (sameAddrs_stored hwrites.copy (by rfl) (by rfl) _)
      (block_stored halloc.1 _)]
    exact hwrites.there bn hbn
  · intro other hother hsynced
    exact synced_stored _ fun hne => hwrites.synced_of_ne hother hne hsynced

end Finish

/-- The inode stays in memory with its type, and no transaction is opened or closed. -/
def Stays (state : State) (inum : ℕ) (dinode : Dinode) (state' : State) : Prop :=
  state'.outstanding = state.outstanding ∧
    ∃ dinode', state'.inodes inum = some dinode' ∧ dinode'.type = dinode.type

/-- `writei` writes all bytes; it stops only if the log or the disk is short of the blocks
that they touch. -/
theorem writei_spec (hwhole : Whole sb state) (hcopy : state.inodes inum = some dinode)
    (hdev : dinode.type ≠ tDev) (hlength : src.length = n.toNat)
    (hok : ¬ Refused dinode.size.toNat off.toNat n.toNat) (answer : ℤ) :
    Yields (writei sb inum src off n answer) state
      (Short sb dinode state (span off.toNat n.toNat)) fun result state' =>
        result = n.toNat ∧ Finished sb state inum off.toNat src state' ∧
          Stays state inum dinode state' := by
  rw [Refused, not_or, not_or, not_lt, not_le, not_lt] at hok
  obtain ⟨hoff, hwraps, hend⟩ := hok
  have hsum : (off + n).toNat = off.toNat + n.toNat := by
    rw [UInt32.toNat_add, Nat.mod_eq_of_lt hwraps]
  have hloop : Yields (writeLoop sb inum src.length off.toNat src) state
      (Short sb dinode state (span off.toNat n.toNat)) fun _ state' =>
        ∃ dinode', Writes sb state inum dinode off.toNat src dinode' state' := by
    rw [← hlength]
    exact writeLoop_spec hwhole.toSound hcopy (hlength ▸ hend) le_rfl
  refine getInode_bind hcopy ?_
  rw [if_neg hdev, if_neg, if_neg]
  · refine hloop.bind ?_
    rintro _ state' ⟨dinode', hwrites⟩
    have hsize : dinode'.size = dinode.size := by
      rw [hwrites.fields]
    have htype : dinode'.type = dinode.type := by
      rw [hwrites.fields]
    refine (growInode_spec hwrites.copy ?_ ?_ ?_ ?_).bind fun _ _ hpost =>
      .pure ⟨rfl, hpost⟩
    · intro hfull
      have hcount : state'.logged.length ≤
          weight sb dinode' state'.logged + nbitmap sb + 1 := length_le_weight hwrites.sound.log
      have hweighs := hwrites.weighs
      rw [isFull_iff] at hfull
      rw [hlength] at hweighs
      exact .inl ⟨rfl, by omega⟩
    · intro hopen
      exact short_outside (hwrites.outstanding ▸ hopen)
    · intro hstays
      refine ⟨hwrites.finished_inside hwhole hcopy ?_, hwrites.outstanding, dinode',
        hwrites.copy, htype⟩
      rw [hsize, UInt32.lt_iff_toNat_lt, UInt32.toNat_zero] at hstays
      omega
    · intro hbeyond
      rw [hsize, ← hlength] at hbeyond
      rw [← hlength] at hend ⊢
      exact ⟨hwrites.finished_grown hwhole hcopy hoff hend hbeyond
        (nodup_absorb hwrites.sound.log _), hwrites.outstanding, _, update_self ..,
        htype⟩
  · rw [gt_iff_lt, not_lt, hsum]
    exact hend
  · rw [not_or, add_lt_iff, gt_iff_lt, UInt32.lt_iff_toNat_lt, not_lt, not_le]
    exact ⟨hoff, hwraps⟩

/-- Bytes in a row that are read through the addresses of an inode. -/
def mappedBytes (disk : Disk) (dinode : Dinode) (start count : ℕ) : List Byte :=
  (List.range count).map fun index =>
    (disk.block (mapped disk dinode (ref ((start + index) / bsize)))).getD
      ((start + index) % bsize) 0

theorem mappedBytes_add (disk : Disk) (start front back : ℕ) :
    mappedBytes disk dinode start (front + back) =
      mappedBytes disk dinode start front ++ mappedBytes disk dinode (start + front) back := by
  rw [mappedBytes, List.range_add, List.map_append, List.map_map, mappedBytes, mappedBytes]
  congr 2
  funext index
  rw [Function.comp_apply, add_assoc]

theorem getElem?_mappedBytes {start count index : ℕ} (hindex : index < count) :
    (mappedBytes disk dinode start count)[index]? =
      some ((disk.block (mapped disk dinode (ref ((start + index) / bsize)))).getD
        ((start + index) % bsize) 0) := by
  rw [mappedBytes, getElem?_map, getElem?_range hindex, map_some]

theorem length_mappedBytes (disk : Disk) (start count : ℕ) :
    (mappedBytes disk dinode start count).length = count := by
  rw [mappedBytes, length_map, length_range]

/-- A chunk is read from one block. -/
theorem field_mapped {start count : ℕ} (hfits : start % bsize + count ≤ bsize) :
    field count (start % bsize) (disk.block (mapped disk dinode (ref (start / bsize)))) =
      mappedBytes disk dinode start count := by
  apply ext_getElem?
  intro index
  rw [getElem?_field]
  split_ifs with hindex
  · have hblock : (start + index) / bsize = start / bsize :=
      div_of_chunk hfits (Nat.le_add_right _ _) (Nat.add_lt_add_left hindex _)
    have hrest : start + index + start % bsize = start + (start + index) % bsize :=
      mod_of_same hblock
    have hposition : (start + index) % bsize = start % bsize + index := by omega
    have hinside : start % bsize + index <
        (disk.block (mapped disk dinode (ref (start / bsize)))).length := by
      rw [disk.whole]
      omega
    rw [getElem?_mappedBytes hindex, hblock, hposition, getD_eq_getElem?_getD,
      getElem?_eq_getElem hinside, getD_some]
  · rw [getElem?_eq_none]
    rw [length_mappedBytes]
    exact not_lt.1 hindex

/-- The loop of `readi` returns the bytes and allocates nothing. -/
theorem readLoop_mapped {fuel start count : ℕ} (hcopy : state.inodes inum = some dinode)
    (hend : start + count ≤ maxFile * bsize)
    (hthere : ∀ bn, Touches start count bn → mapped state.disk dinode (ref bn) ≠ 0)
    (hfuel : count ≤ fuel) :
    readLoop sb inum fuel start count state =
      .done (mappedBytes state.disk dinode start count) state := by
  induction fuel generalizing start count with
  | zero =>
    rw [Nat.le_zero.1 hfuel]
    rfl
  | succ fuel ih =>
    rw [readLoop]
    split_ifs with hzero
    · rw [hzero]
      rfl
    have hpos : 1 ≤ chunk start count := chunk_pos hzero
    have hle := chunk_le start count
    have hfits : start % bsize + chunk start count ≤ bsize := by
      rw [chunk, bsize]
      omega
    have hbn : start / bsize < maxFile := by
      rw [Nat.div_lt_iff_lt_mul (by decide)]
      omega
    have hfirst := hthere _ ⟨start, le_rfl, by omega, rfl⟩
    have hrest : readLoop sb inum fuel (start + chunk start count)
        (count - chunk start count) state = .done (mappedBytes state.disk dinode
          (start + chunk start count) (count - chunk start count)) state := by
      apply ih
      · omega
      · rintro bn ⟨position, hlow, hhigh, hblock⟩
        exact hthere bn ⟨position, by omega, by omega, hblock⟩
      · omega
    have hall : mappedBytes state.disk dinode start count =
        field (chunk start count) (start % bsize)
            (state.disk.block (mapped state.disk dinode (ref (start / bsize)))) ++
          mappedBytes state.disk dinode (start + chunk start count)
            (count - chunk start count) := by
      rw [field_mapped hfits, ← mappedBytes_add, Nat.add_sub_cancel' hle]
    rw [chunk] at hrest hall
    simp only [bind, Op.bind, bmap_mapped hcopy hbn rfl hfirst, Op.gets, hrest, hall]
    rfl

/-- Where the blocks are there, these are the bytes of the file. -/
theorem mappedBytes_content {start count : ℕ} (hcons : Consistent sb state)
    (hcopy : state.inodes inum = some dinode)
    (hheld : ∀ bn, Touches start count bn → held sb state inum bn ≠ none)
    (hend : start + count ≤ (current sb state inum).size.toNat) :
    mappedBytes state.disk dinode start count = field count start (content sb state inum) := by
  apply ext_getElem?
  intro index
  rw [getElem?_field]
  split_ifs with hindex
  · have hthere := hheld _ ⟨start + index, by omega, by omega, rfl⟩
    rw [held, ne_eq, map_eq_none_iff, ← ne_eq, ne_none_iff_exists'] at hthere
    obtain ⟨b, htarget⟩ := hthere
    have hmapped := htarget
    rw [target_of_copy hcons hcopy, nonzero_eq_some] at hmapped
    rw [getElem?_mappedBytes hindex, getElem?_content (by omega), byteAt, held, htarget,
      hmapped.1]
    rfl
  · rw [getElem?_eq_none]
    rw [length_mappedBytes]
    exact not_lt.1 hindex

theorem readi_refused (hcopy : state.inodes inum = some dinode) (hdev : dinode.type ≠ tDev)
    (hrefused : dinode.size.toNat < off.toNat ∨ 2 ^ 32 ≤ off.toNat + n.toNat)
    (answer : Option (List Byte)) : readi sb inum off n answer state = .done none state := by
  have hcheck : off > dinode.size ∨ off + n < off := by
    rwa [add_lt_iff, gt_iff_lt, UInt32.lt_iff_toNat_lt]
  simp only [readi, bind, Op.bind, getInode_done hcopy, if_neg hdev, if_pos hcheck]
  rfl

/-- The number of bytes that `readi` takes. -/
theorem readi_count (hoff : off.toNat ≤ dinode.size.toNat) (hwraps : off.toNat + n.toNat < 2 ^ 32) :
    (if off + n > dinode.size then dinode.size - off else n).toNat =
      min n.toNat (dinode.size.toNat - off.toNat) := by
  have hsum : (off + n).toNat = off.toNat + n.toNat := by
    rw [UInt32.toNat_add, Nat.mod_eq_of_lt hwraps]
  split_ifs with hbeyond <;> rw [gt_iff_lt, UInt32.lt_iff_toNat_lt, hsum] at hbeyond
  · rw [UInt32.toNat_sub_of_le _ _ (UInt32.le_iff_toNat_le.2 hoff)]
    omega
  · omega

/-- `readi` returns what the addresses lead to. -/
theorem readi_mapped (hcopy : state.inodes inum = some dinode) (hdev : dinode.type ≠ tDev)
    (hsize : dinode.size.toNat ≤ maxFile * bsize)
    (hthere : ∀ bn, bn * bsize < dinode.size.toNat → mapped state.disk dinode (ref bn) ≠ 0)
    (hoff : off.toNat ≤ dinode.size.toNat) (hwraps : off.toNat + n.toNat < 2 ^ 32)
    (answer : Option (List Byte)) :
    readi sb inum off n answer state = .done (some (mappedBytes state.disk dinode off.toNat
      (min n.toNat (dinode.size.toNat - off.toNat)))) state := by
  have hcheck : ¬ (off > dinode.size ∨ off + n < off) := by
    rw [add_lt_iff, gt_iff_lt, UInt32.lt_iff_toNat_lt]
    omega
  have hcount := readi_count hoff hwraps
  have htouched : ∀ bn, Touches off.toNat (min n.toNat (dinode.size.toNat - off.toNat)) bn →
      mapped state.disk dinode (ref bn) ≠ 0 := by
    rintro bn ⟨position, -, hhigh, rfl⟩
    apply hthere
    have hdiv := Nat.div_mul_le_self position bsize
    omega
  have hloop := @readLoop_mapped sb state inum dinode _ _ _ hcopy (by omega) htouched le_rfl
  simp only [readi, bind, Op.bind, getInode_done hcopy, if_neg hdev, if_neg hcheck, hcount, hloop]
  rfl

theorem readi_eq (hwhole : Whole sb state) (hcopy : state.inodes inum = some dinode)
    (hdev : dinode.type ≠ tDev) (hoff : off.toNat ≤ dinode.size.toNat)
    (hwraps : off.toNat + n.toNat < 2 ^ 32) (answer : Option (List Byte)) :
    readi sb inum off n answer state =
      .done (some (field n.toNat off.toNat (content sb state inum))) state := by
  have hcurrent : current sb state inum = dinode := current_of_copy hcopy
  have halloc := hwhole.toConsistent.allocated hcopy
  have hsize := hwhole.sizes inum halloc
  have hblocks : ∀ bn, bn * bsize < dinode.size.toNat → held sb state inum bn ≠ none := by
    intro bn hbn
    apply hwhole.blocks inum _ halloc
    rwa [hcurrent]
  rw [hcurrent] at hsize
  have hthere : ∀ bn, bn * bsize < dinode.size.toNat → mapped state.disk dinode (ref bn) ≠ 0 := by
    intro bn hbn hzero
    apply hblocks bn hbn
    rw [held, target_of_copy hwhole.toConsistent hcopy, nonzero, if_pos hzero]
    rfl
  have hheld : ∀ bn, Touches off.toNat (min n.toNat (dinode.size.toNat - off.toNat)) bn →
      held sb state inum bn ≠ none := by
    rintro bn ⟨position, -, hhigh, rfl⟩
    apply hblocks
    have hdiv := Nat.div_mul_le_self position bsize
    omega
  rw [readi_mapped hcopy hdev hsize hthere hoff hwraps answer,
    mappedBytes_content hwhole.toConsistent hcopy hheld (by rw [hcurrent]; omega),
    ← field_min n.toNat, length_content, hcurrent]

end Calls

/-- The log and the disk have room for a write of `n` bytes from `off` on. -/
def Roomy (sb : Superblock) (state : State) (off n : ℕ) : Prop :=
  1 ≤ state.outstanding ∧ state.logged.length + span off n + nbitmap sb + 1 < limit sb ∧
    span off n < free sb state.disk

theorem not_short {sb : Superblock} {state : State} {off n : ℕ} (hroomy : Roomy sb state off n)
    (dinode : Dinode) (reason : Stop) : ¬ Short sb dinode state (span off n) reason := by
  obtain ⟨hopen, hlog, hfree⟩ := hroomy
  rintro (⟨-, hfull⟩ | ⟨-, hclosed⟩ | ⟨-, hblocks⟩)
  · have hweight : weight sb dinode state.logged ≤ state.logged.length := length_filter_le _ _
    omega
  · omega
  · rw [room] at hblocks
    omega

/-- The layout that `mkfs` writes. -/
def image : Superblock where
  size := 1000
  ninodes := 200
  nlog := 30
  inodestart := 32
  bmapstart := 39
  inodes_fit := by decide
  data_fits := by decide
  size_lt := by decide

def emptyDisk : Disk where
  block b := if b = 39 then replicate 5 255 ++ replicate 2043 0 else zeros
  whole b := by
    split_ifs
    · rw [length_append, length_replicate, length_replicate, bsize]
    · rw [zeros, length_replicate]

def emptyFile : Dinode :=
  { emptyDinode 2 with nlink := 1 }

def oneFile (logged : List ℕ) : State where
  disk := emptyDisk.putDinode image 1 emptyFile
  logged := logged
  outstanding := 1
  inodes := update (fun _ => none) 1 (some emptyFile)

theorem bit_emptyDisk : ∀ b < 1000, emptyDisk.bit image b = decide (b < 40) := by
  decide +kernel

theorem type_emptyDisk : ∀ inum < 200, (emptyDisk.dinode image inum).type = 0 := by
  decide +kernel

section OneFile

variable {logged : List ℕ}

theorem bit_oneFile {b : ℕ} (hb : b < 1000) :
    (oneFile logged).disk.bit image b = decide (b < 40) := by
  have hblock : (oneFile logged).disk.block (image.bblock b) =
      emptyDisk.block (image.bblock b) := by
    apply Disk.block_patch_of_ne
    exact ((Superblock.iblock_lt (by decide)).trans_le
      (Superblock.bmapstart_le_bblock b)).ne'
  rw [Disk.bit_congr hblock, bit_emptyDisk b hb]

theorem copy_oneFile : (oneFile logged).inodes 1 = some emptyFile := by
  simp only [oneFile, update_self]

theorem copy_oneFile_of_ne (hinum : inum ≠ 1) : (oneFile logged).inodes inum = none := by
  simp only [oneFile, update_of_ne hinum]

theorem allocated_oneFile (halloc : Allocated image (oneFile logged) inum) : inum = 1 := by
  by_contra hinum
  apply halloc.2
  have hdisk : (oneFile logged).disk.dinode image inum = emptyDisk.dinode image inum :=
    Disk.dinode_putDinode_of_ne hinum _
  rw [current, copy_oneFile_of_ne hinum, hdisk]
  exact type_emptyDisk inum halloc.1

theorem target_oneFile (place : Place) : target image (oneFile logged) place = none := by
  obtain ⟨inum, ref⟩ := place
  rw [target]
  split_ifs with halloc
  · have hinum : inum = 1 := allocated_oneFile halloc
    subst hinum
    cases ref with
    | addr index => rfl
    | entry index => rfl
  · rfl

theorem whole_oneFile (hlogged : logged.Nodup) : Whole image (oneFile logged) where
  owned := by
    refine ⟨?_, ?_, ?_⟩
    · intro b
      have hstart : image.dataStart = 40 := by decide
      have hsize : image.size = 1000 := rfl
      constructor
      · rintro ⟨hb, hbit⟩
        rw [bit_oneFile hb, decide_eq_true_eq] at hbit
        exact .inl hbit
      · rintro (hb | ⟨place, htarget⟩)
        · refine ⟨by omega, ?_⟩
          rw [bit_oneFile (by omega), decide_eq_true_eq]
          exact hb
        · rw [target_oneFile] at htarget
          cases htarget
    · intro left _ _ hleft _
      rw [target_oneFile] at hleft
      cases hleft
    · intro place _ htarget
      rw [target_oneFile] at htarget
      cases htarget
  copies := by
    intro inum found hfound
    by_cases hinum : inum = 1
    · subst hinum
      cases hfound
      have hdisk : (oneFile logged).disk.dinode image 1 = emptyFile :=
        Disk.dinode_putDinode_self _ _
      rw [hdisk]
      decide
    · rw [copy_oneFile_of_ne hinum] at hfound
      cases hfound
  log := hlogged
  sizes := by
    intro inum halloc
    rw [allocated_oneFile halloc, current_of_copy copy_oneFile]
    decide
  blocks := by
    intro inum bn halloc hbn
    rw [allocated_oneFile halloc, current_of_copy copy_oneFile] at hbn
    exact absurd hbn (Nat.not_lt_zero _)

theorem roomy_oneFile : Roomy image (oneFile []) 0 1 := by
  refine ⟨le_rfl, by decide, ?_⟩
  have hsub : {40, 41} ⊆ (Finset.range image.size).filter fun b =>
      (oneFile []).disk.bit image b = false := by
    intro b hb
    rw [Finset.mem_insert, Finset.mem_singleton] at hb
    have hlow : 40 ≤ b ∧ b < 1000 := by omega
    rw [Finset.mem_filter, Finset.mem_range, bit_oneFile hlow.2, decide_eq_false_iff_not, not_lt]
    exact ⟨hlow.2, hlow.1⟩
  exact lt_of_lt_of_le (by decide) (Finset.card_le_card hsub)

end OneFile

end Xv6Users.FileBytes
