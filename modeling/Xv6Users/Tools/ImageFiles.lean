import Xv6Users.Tools.ImageBlocks

/-!
# The kernel reads what `mkfs` has written

The steps of `iappend` keep the blocks of the inodes apart and put the bytes behind those
that are there, so the kernel reads them back, as long as the inodes fit into their blocks.
-/

namespace Xv6Users.Mkfs

open Buffers LittleEndian Processes Layout Function List
open Ownership
open Blocks hiding ialloc balloc
open BlockOwners hiding target
open BlockSpecs hiding held Sound
open FileBytes hiding image content

variable {fbn off sec : ℕ}

/-- The blocks are apart and hold the bytes of the files. -/
structure Good (image : Image) (dinodes : ℕ → Dinode) (files : ℕ → List Byte) : Prop where
  laid : Laid image.disk dinodes image.freeinode image.freeblock
  stored : Stored image.disk dinodes image.freeinode files

/-- What a step of `iappend` leaves alone. -/
structure Steps (image : Image) (dinode : Dinode) (image' : Image) (dinode' : Dinode) :
    Prop where
  freeinode : image'.freeinode = image.freeinode
  low : ∀ b < nmeta, image'.disk.block b = image.disk.block b
  fields : dinode' = { dinode with addrs := dinode'.addrs }

section Append

variable {image image' : Image} {dinodes : ℕ → Dinode} {files : ℕ → List Byte}
  {inum x : ℕ} {din dinode dinode' : Dinode}

theorem Steps.refl (image : Image) (dinode : Dinode) : Steps image dinode image dinode :=
  ⟨rfl, fun _ _ => rfl, rfl⟩

theorem Steps.trans {middle : Image} {between : Dinode} (hfirst : Steps image dinode middle between)
    (hlast : Steps middle between image' dinode') : Steps image dinode image' dinode' := by
  refine ⟨hlast.freeinode.trans hfirst.freeinode, ?_, ?_⟩
  · exact fun b hb => (hlast.low b hb).trans (hfirst.low b hb)
  · rw [hlast.fields, hfirst.fields]

theorem seek_of_lt (hsec : sec < 2 ^ 21) : seek sec = sec :=
  Nat.mod_eq_of_lt hsec

theorem rsect_some {buf : List Byte} (hsec : sec < 2 ^ 21) (hread : rsect image sec = some buf) :
    sec < fssize ∧ buf = image.disk.block sec := by
  rw [rsect, seek_of_lt hsec] at hread
  split_ifs at hread with hlt
  exact ⟨hlt, (Option.some.inj hread).symm⟩

theorem change_some {src : List Byte} (hsec : sec < 2 ^ 21)
    (hchange : change image sec off src = some image') :
    sec < fssize ∧ image' = { image with disk := image.disk.patch sec off src } := by
  rw [change, seek_of_lt hsec] at hchange
  split_ifs at hchange with hlt
  exact ⟨hlt, (Option.some.inj hchange).symm⟩

/-- An inode gets an address, if it has none. -/
structure Took (image : Image) (dinodes : ℕ → Dinode) (files : ℕ → List Byte) (inum : ℕ)
    (index : Fin 10) (image' : Image) (dinode' : Dinode) : Prop where
  good : Good image' (update dinodes inum dinode') files
  disk : image'.disk = image.disk
  steps : Steps image (dinodes inum) image' dinode'
  there : dinode'.addrs index ≠ 0
  count : image'.freeblock = image.freeblock ∨
    image'.freeblock = image.freeblock + 1 ∧ (dinode'.addrs index).toNat = image.freeblock

theorem Good.takeAddr (hgood : Good image dinodes files)
    (hinum : 1 ≤ inum ∧ inum < image.freeinode) (hfree : image.freeblock ≤ 2 * fssize)
    (index : Fin 10) (htake : takeAddr image (dinodes inum) index = (image', dinode')) :
    Took image dinodes files inum index image' dinode' := by
  rw [Mkfs.takeAddr] at htake
  split_ifs at htake with hempty
  · cases htake
    have hassigned := assigned_newAddr hgood.laid hinum hempty hfree
    have hnone : assigned image.disk dinodes image.freeinode (inum, .addr index) = none :=
      assigned_addr_none hempty
    have hnumber := toNat_ofNat_of_small hfree
    refine ⟨⟨?_, ?_⟩, rfl, ⟨rfl, fun _ _ => rfl, rfl⟩, ?_, .inr ⟨rfl, ?_⟩⟩
    · exact hgood.laid.acquire hnone hassigned fun _ _ => rfl
    · apply hgood.stored.frame _ (fun _ _ _ _ => rfl)
      intro place b hb
      rw [hassigned, update_of_ne]
      · exact hb
      · rintro rfl
        cases hnone.symm.trans hb
    · rw [addrs_setAddr_self]
      intro hzero
      rw [hzero] at hnumber
      exact hgood.laid.pos hnumber.symm
    · rw [addrs_setAddr_self, hnumber]
  · cases htake
    refine ⟨?_, rfl, .refl image _, hempty, .inl rfl⟩
    rw [update_eq_self]
    exact hgood

/-- The inode has the block. -/
structure Has (image : Image) (dinodes : ℕ → Dinode) (files : ℕ → List Byte)
    (inum fbn : ℕ) (image' : Image) (dinode' : Dinode) (x : ℕ) : Prop where
  good : Good image' (update dinodes inum dinode') files
  there : assigned image'.disk (update dinodes inum dinode') image'.freeinode
    (inum, ref fbn) = some x
  steps : Steps image (dinodes inum) image' dinode'
  small : image'.freeblock ≤ image.freeblock + 2
  last : image'.freeblock ≤ max fssize (x + 1)

theorem Took.assigned_addr {index : Fin 10}
    (htook : Took image dinodes files inum index image' dinode')
    (hinum : 1 ≤ inum ∧ inum < image.freeinode) :
    assigned image'.disk (update dinodes inum dinode') image'.freeinode
      (inum, .addr index) = some (dinode'.addrs index).toNat := by
  have hthere : mapped image'.disk (update dinodes inum dinode' inum) (.addr index) =
      (dinode'.addrs index).toNat := by
    rw [update_self]
    rfl
  rw [← hthere]
  apply assigned_of_mapped
  · rw [htook.steps.freeinode]
    exact hinum
  · rw [hthere]
    exact fun hzero => htook.there (UInt32.toNat_inj.1 hzero)

theorem Took.direct (hfbn : fbn < ndirect)
    (htook : Took image dinodes files inum ⟨fbn, hfbn.trans (by decide)⟩ image' dinode')
    (hinum : 1 ≤ inum ∧ inum < image.freeinode) (hfits : image.freeblock ≤ fssize) :
    Has image dinodes files inum fbn image' dinode'
      (dinode'.addrs ⟨fbn, hfbn.trans (by decide)⟩).toNat := by
  refine ⟨htook.good, ?_, htook.steps, ?_, ?_⟩
  · rw [ref, dif_pos hfbn]
    exact htook.assigned_addr hinum
  · have hcount := htook.count
    omega
  · have hcount := htook.count
    omega

/-- An entry that is there. -/
theorem Took.entry (hfbn : ¬ fbn < ndirect) (htook : Took image dinodes files inum 9 image' dinode')
    (hinum : 1 ≤ inum ∧ inum < image.freeinode) (hfits : image'.freeblock ≤ fssize)
    (hentry : image'.disk.entry (dinode'.addrs 9).toNat (fbn - ndirect) ≠ 0) :
    Has image dinodes files inum fbn image' dinode'
      (image'.disk.entry (dinode'.addrs 9).toNat (fbn - ndirect)).toNat := by
  have hmapped : mapped image'.disk (update dinodes inum dinode' inum) (.entry (fbn - ndirect)) =
        (image'.disk.entry (dinode'.addrs 9).toNat (fbn - ndirect)).toNat := by
    rw [update_self, mapped, if_neg htook.there]
  refine ⟨htook.good, ?_, htook.steps, ?_, hfits.trans (le_max_left _ _)⟩
  · rw [ref, dif_neg hfbn, ← hmapped]
    apply assigned_of_mapped
    · rw [htook.steps.freeinode]
      exact hinum
    · rw [hmapped]
      exact fun hzero => hentry (UInt32.toNat_inj.1 hzero)
  · have hcount := htook.count
    omega

/-- A new entry of the indirect block. -/
theorem Took.newEntry (hfbn : ¬ fbn < ndirect) (hmax : fbn < maxFile)
    (htook : Took image dinodes files inum 9 image' dinode')
    (hinum : 1 ≤ inum ∧ inum < image.freeinode) (hfits : image'.freeblock ≤ fssize)
    (hentry : image'.disk.entry (dinode'.addrs 9).toNat (fbn - ndirect) = 0) :
    Has image dinodes files inum fbn
      ⟨image'.disk.patch (dinode'.addrs 9).toNat (4 * (fbn - ndirect))
        (bytes32 (UInt32.ofNat image'.freeblock)), image'.freeinode, image'.freeblock + 1⟩
      dinode' image'.freeblock := by
  have hinum' : 1 ≤ inum ∧ inum < image'.freeinode := by
    rw [htook.steps.freeinode]
    exact hinum
  have hindex : fbn - ndirect < nindirect := by
    rw [maxFile] at hmax
    omega
  have hself : (update dinodes inum dinode') inum = dinode' := update_self ..
  have howner := htook.assigned_addr hinum
  have hassigned := assigned_newEntry htook.good.laid hinum' hindex
    (by rw [hself]; exact htook.there) (by omega)
  rw [hself] at hassigned
  have hnone : assigned image'.disk (update dinodes inum dinode') image'.freeinode
      (inum, .entry (fbn - ndirect)) = none := by
    rw [assigned, if_pos hinum', hself, mapped, if_neg htook.there, hentry]
    rfl
  have haddr := (htook.good.laid.bounds howner)
  refine ⟨⟨?_, ?_⟩, ?_, ?_, ?_, ?_⟩
  · apply htook.good.laid.acquire hnone hassigned
    intro b hb
    apply Disk.block_patch_of_ne
    omega
  · apply htook.good.stored.frame
    · intro place b hb
      rw [hassigned, update_of_ne]
      · exact hb
      · rintro rfl
        cases hnone.symm.trans hb
    · intro other bn b hb
      apply Disk.block_patch_of_ne
      rintro rfl
      exact ref_ne_indirect bn (congrArg Prod.snd (htook.good.laid.owned.unique hb howner))
  · rw [hassigned, ref, dif_neg hfbn, update_self]
  · apply htook.steps.trans
    refine ⟨rfl, ?_, rfl⟩
    intro b hb
    apply Disk.block_patch_of_ne
    omega
  · have hcount := htook.count
    dsimp only
    omega
  · exact le_max_right _ _

theorem Good.takeBlock (hgood : Good image dinodes files)
    (hinum : 1 ≤ inum ∧ inum < image.freeinode) (hfits : image.freeblock ≤ fssize)
    (hmax : fbn < maxFile)
    (htake : takeBlock image (dinodes inum) fbn = some (image', dinode', x)) :
    Has image dinodes files inum fbn image' dinode' x := by
  have hsize : fssize = 1000 := rfl
  rw [Mkfs.takeBlock] at htake
  split_ifs at htake with hfbn
  · cases htake
    exact (hgood.takeAddr hinum (by omega) _ rfl).direct hfbn hinum hfits
  · rcases htaken : Mkfs.takeAddr image (dinodes inum) 9 with ⟨taken, dinode9⟩
    rw [htaken] at htake
    have htook := hgood.takeAddr hinum (by omega) 9 htaken
    have hcount := htook.count
    have haddr := (htook.good.laid.bounds (htook.assigned_addr hinum)).2
    dsimp only at htake
    split at htake
    · cases htake
    · next indirect hread =>
      obtain ⟨hlt, rfl⟩ := rsect_some (by omega) hread
      have hfits' : taken.freeblock ≤ fssize := by omega
      split_ifs at htake with hentry
      · obtain ⟨changed, hchange, hresult⟩ := Option.map_eq_some_iff.1 htake
        obtain ⟨-, rfl⟩ := change_some (by omega) hchange
        have hnumber : (UInt32.ofNat taken.freeblock).toNat = taken.freeblock :=
          toNat_ofNat_of_small (by omega)
        rw [hnumber] at hresult
        cases hresult
        exact htook.newEntry hfbn hmax hinum hfits' hentry
      · cases htake
        exact htook.entry hfbn hinum hfits' hentry

/-- The loop of `iappend` has put the bytes behind the others. -/
structure Appended (image : Image) (dinodes : ℕ → Dinode) (files : ℕ → List Byte)
    (inum : ℕ) (data : List Byte) (image' : Image) (dinode' : Dinode) (last : ℕ) : Prop where
  good : Good image' (update dinodes inum dinode') (update files inum (files inum ++ data))
  fits : image'.freeblock ≤ fssize
  steps : Steps image (dinodes inum) image' dinode'
  length : last = (files inum).length + data.length
  limit : (files inum).length ≤ maxFile * bsize → last ≤ maxFile * bsize

/-- One round: a chunk is written into the block that is there then. -/
theorem Has.write {chunk : List Byte} {written : Image}
    (hhas : Has image dinodes files inum fbn image' dinode' x)
    (hinum : 1 ≤ inum ∧ inum < image.freeinode) (hfits : image.freeblock ≤ fssize)
    (hoff : off = (files inum).length) (hfbn : fbn = off / bsize)
    (hchunk : off % bsize + chunk.length ≤ bsize)
    (hchange : change image' x (off % bsize) chunk = some written) :
    Good written (update dinodes inum dinode') (update files inum (files inum ++ chunk)) ∧
      written.freeblock ≤ fssize ∧ Steps image (dinodes inum) written dinode' := by
  have hsize : fssize = 1000 := rfl
  have hsmall := hhas.small
  have hlast := hhas.last
  have hbounds := hhas.good.laid.bounds hhas.there
  obtain ⟨hlt, rfl⟩ := change_some (by omega) hchange
  subst hfbn hoff
  have hpatch := hhas.good.laid.patch hhas.there (ref_ne_indirect _)
    ((files inum).length % bsize) chunk
  refine ⟨⟨hpatch.2, ?_⟩, ?_, ?_⟩
  · apply hhas.good.stored.append hhas.good.laid _ hhas.there hchunk
    rw [hhas.steps.freeinode]
    exact hinum
  · dsimp only
    omega
  · apply hhas.steps.trans
    refine ⟨rfl, ?_, rfl⟩
    intro b hb
    apply Disk.block_patch_of_ne
    omega

theorem Good.appendLoop {rounds last : ℕ} {data : List Byte} (hgood : Good image dinodes files)
    (hinum : 1 ≤ inum ∧ inum < image.freeinode) (hfits : image.freeblock ≤ fssize)
    (hoff : off = (files inum).length) (hdin : dinodes inum = din) (hrounds : data.length ≤ rounds)
    (hloop : appendLoop rounds image din off data = some (image', dinode', last)) :
    Appended image dinodes files inum data image' dinode' last := by
  have hdone : ∀ {image : Image} {dinodes : ℕ → Dinode} {files : ℕ → List Byte},
      Good image dinodes files → image.freeblock ≤ fssize →
      Appended image dinodes files inum [] image (dinodes inum) (files inum).length := by
    intro image dinodes files hgood hfits
    refine ⟨?_, hfits, .refl _ _, rfl, id⟩
    rw [append_nil, update_eq_self, update_eq_self]
    exact hgood
  induction rounds generalizing image dinodes files din off data with
  | zero =>
    have hnil := length_eq_zero_iff.1 (Nat.le_zero.1 hrounds)
    subst hdin hoff hnil
    cases hloop
    exact hdone hgood hfits
  | succ rounds ih =>
  subst hdin
  rw [Mkfs.appendLoop] at hloop
  split_ifs at hloop with hnil hmax
  · subst hoff hnil
    cases hloop
    exact hdone hgood hfits
  · split at hloop
    · cases hloop
    · next taken dinode1 x htake =>
      have hhas := hgood.takeBlock hinum hfits (not_le.1 hmax) htake
      have hdiv : off / bsize * bsize + off % bsize = off := Nat.div_add_mod' off bsize
      have hmod : off % bsize < bsize := Nat.mod_lt _ (by decide)
      have hstart : off - off / bsize * bsize = off % bsize := by omega
      have hblock : (off / bsize + 1) * bsize = off / bsize * bsize + bsize := Nat.succ_mul ..
      set n1 := min data.length ((off / bsize + 1) * bsize - off) with hn1
      have hlength : (data.take n1).length = n1 := by
        rw [length_take]
        omega
      dsimp only at hloop
      rw [hstart] at hloop
      split at hloop
      · cases hloop
      · next written hchange =>
        obtain ⟨hgood', hfits', hsteps⟩ := hhas.write hinum hfits hoff rfl (by omega) hchange
        have hinum' : 1 ≤ inum ∧ inum < written.freeinode := by
          rw [hsteps.freeinode]
          exact hinum
        have hrest := ih hgood' hinum' hfits'
          (by rw [update_self, length_append, hlength, hoff])
          (update_self ..) (by rw [length_drop]; omega) hloop
        have hfiles : update (update files inum (files inum ++ data.take n1))
            inum (update files inum (files inum ++ data.take n1) inum ++
              data.drop n1) = update files inum (files inum ++ data) := by
          rw [update_self, update_idem, append_assoc, take_append_drop]
        have hgood'' := hrest.good
        rw [hfiles, update_idem] at hgood''
        have hsteps' := hrest.steps
        rw [update_self] at hsteps'
        have hlast := hrest.length
        rw [update_self, length_append, hlength, length_drop] at hlast
        refine ⟨hgood'', hrest.fits, hsteps.trans hsteps', by omega, ?_⟩
        intro hlimit
        apply hrest.limit
        rw [update_self, length_append, hlength]
        have hblocks : (off / bsize + 1) * bsize ≤ maxFile * bsize :=
          Nat.mul_le_mul_right bsize (not_le.1 hmax)
        omega

end Append

end Xv6Users.Mkfs
