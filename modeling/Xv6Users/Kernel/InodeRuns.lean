import Xv6Users.Kernel.Directories
import Xv6Users.Kernel.InodeAccount

/-!
# What an operation does when nothing is in its way

The outcomes of the operations of `kernel/fs.c` as equations, each under the
conditions in which the operation neither sleeps nor panics.
-/

namespace Xv6Users.InodeRuns

open Contracts Processes Inodes Syscalls Directories InodeAccount

variable {name src : List Byte} {inum off : ℕ}

variable {state : State} {ip dp : Ip}

theorem iget_cached (hcached : state.cached inum = some ip)
    (href : (state.icache ip).ref ≠ 2 ^ 31 - 1) :
    iget inum state =
      .done ip (state.setInode ip fun inode => { inode with ref := inode.ref + 1 }) := by
  simp only [iget, bind, Op.bind, Op.gets, hcached, retain, getInode, href, if_false,
    setInode, Op.modify, pure, Op.pure]

theorem iget_recycled (hcached : state.cached inum = none) (hempty : state.empty = some ip) :
    iget inum state = .done ip (state.setInode ip fun inode =>
      { inode with inum, ref := 1, valid := false }) := by
  simp [iget, bind, Op.bind, Op.gets, hcached, hempty, setInode, Op.modify, pure, Op.pure]

theorem iput_locked (hlock : (state.icache ip).lock.isSome) : iput ip state = .blocked state := by
  simp [iput, bind, Op.bind, Op.gets, getInode, hlock, Op.block]

theorem iput_kept (hlock : (state.icache ip).lock = none)
    (hkept : ¬ ((state.icache ip).valid ∧ (state.icache ip).info.nlink = 0 ∧
      (state.icache ip).ref = 1)) :
    iput ip state =
      .done () (state.setInode ip fun inode => { inode with ref := inode.ref - 1 }) := by
  simp [iput, bind, Op.bind, Op.gets, getInode, hlock, whenever, hkept, setInode,
    Op.modify, pure, Op.pure]

theorem iput_last (hlock : (state.icache ip).lock = none)
    (hlast : (state.icache ip).valid ∧ (state.icache ip).info.nlink = 0 ∧
      (state.icache ip).ref = 1) (hlog : 1 ≤ state.outstanding) :
    iput ip state = .done () ((State.freed state ip).setInode ip fun inode =>
      { inode with ref := inode.ref - 1 }) := by
  have hopen : ¬ state.outstanding < 1 := by omega
  have hfree := freeInode_eq state ip
  rw [if_neg hopen] at hfree
  simp [iput, bind, Op.bind, Op.gets, getInode, hlock, whenever, hlast, hfree, setInode, Op.modify]

def bytesOf (state : State) (ip : Ip) : List Byte :=
  state.data (state.icache ip).inum

theorem dirlookup_found (htype : (state.icache dp).info.type = .dir)
    (hfind : findDirent (bytesOf state dp) name (offsets (bytesOf state dp).length) =
      some (some (off, inum))) :
    dirlookup dp name state =
      (iget inum >>= fun ip => pure (some (ip, off)) : K (Option (Ip × ℕ))) state := by
  unfold bytesOf at hfind
  simp only [dirlookup, getInode, bind, Op.bind, Op.gets, htype, ne_eq, not_true_eq_false, if_false]
  rw [hfind]
  rfl

theorem dirlookup_absent (htype : (state.icache dp).info.type = .dir)
    (hfind : findDirent (bytesOf state dp) name (offsets (bytesOf state dp).length) = some none) :
    dirlookup dp name state = .done none state := by
  unfold bytesOf at hfind
  simp only [dirlookup, getInode, bind, Op.bind, Op.gets, htype, ne_eq, not_true_eq_false, if_false]
  rw [hfind]
  rfl

def written (state : State) (ip : Ip) (src : List Byte) (off : ℕ) : State :=
  let changed := state.setData (state.icache ip).inum (splice (bytesOf state ip) src off)
  if off + src.length > (bytesOf state ip).length then
    changed.setDisk (state.icache ip).inum (state.icache ip).info
  else changed

theorem writei_eq (answer : ℤ) (htype : (state.icache ip).info.type ≠ .dev) (hsrc : src ≠ [])
    (hoff : off ≤ (bytesOf state ip).length) (hmax : off + src.length ≤ maxFileSize)
    (hlog : 1 ≤ state.outstanding) :
    writei ip src off answer state = .done src.length (written state ip src off) := by
  have hfits : ¬ (off > (bytesOf state ip).length ∨ off + src.length > maxFileSize) := by
    omega
  have hopen : ¬ state.outstanding < 1 := by omega
  unfold bytesOf at hfits
  by_cases hgrows : off + src.length > (bytesOf state ip).length
  all_goals
    unfold bytesOf at hgrows
    simp [writei, getInode, bind, Op.bind, Op.gets, htype, hfits, hsrc, logWrite, hopen,
      pure, Op.pure, Op.modify, whenever, hgrows, written, bytesOf, iupdate,
      State.setData]

theorem bytesOf_written (src : List Byte) (off : ℕ) :
    bytesOf (written state ip src off) ip = splice (bytesOf state ip) src off := by
  rw [written]
  split_ifs
  · exact Function.update_self ..
  · exact Function.update_self ..

theorem writei_full (answer : ℤ) (htype : (state.icache ip).info.type ≠ .dev)
    (hmax : maxFileSize < off + src.length) :
    writei ip src off answer state = .done (-1) state := by
  simp only [writei, getInode, bind, Op.bind, Op.gets, htype, if_false]
  rw [if_pos (.inr hmax)]
  rfl

/-- `dirlink` of a name that is absent writes the entry at the first unused place. -/
theorem dirlink_new (htype : (state.icache dp).info.type = .dir)
    (hfind : findDirent (bytesOf state dp) name (offsets (bytesOf state dp).length) = some none)
    (hunused : findUnused (bytesOf state dp) (offsets (bytesOf state dp).length) = some off)
    (hoff : off ≤ (bytesOf state dp).length) (hmax : off + direntSize ≤ maxFileSize)
    (hlog : 1 ≤ state.outstanding) :
    dirlink dp name inum state = .done 0 (written state dp (direntBytes inum name) off) := by
  have hlookup := dirlookup_absent htype hfind
  have hwrite : writei dp (direntBytes inum name) off 0 state =
      .done direntSize (written state dp (direntBytes inum name) off) := by
    have hentry : direntBytes inum name ≠ [] := by simp [direntBytes]
    have heq := writei_eq 0 (by simp [htype]) hentry hoff
      (by rwa [length_direntBytes]) hlog
    rwa [length_direntBytes] at heq
  unfold bytesOf at hunused
  simp only [dirlink, bind, Op.bind, hlookup, getInode, Op.gets]
  rw [hunused]
  dsimp only
  rw [Op.bind, hwrite]
  rfl

/-- There is no room for a new entry. -/
theorem dirlink_full (htype : (state.icache dp).info.type = .dir)
    (hfind : findDirent (bytesOf state dp) name (offsets (bytesOf state dp).length) = some none)
    (hunused : findUnused (bytesOf state dp) (offsets (bytesOf state dp).length) = some off)
    (hmax : maxFileSize < off + direntSize) :
    dirlink dp name inum state = .halted (.panic "dirlink") := by
  have hlookup := dirlookup_absent htype hfind
  have hwrite : writei dp (direntBytes inum name) off 0 state = .done (-1) state :=
    writei_full 0 (by simp [htype]) (by rwa [length_direntBytes])
  unfold bytesOf at hunused
  simp only [dirlink, bind, Op.bind, hlookup, getInode, Op.gets]
  rw [hunused]
  dsimp only
  rw [Op.bind, hwrite]
  rfl

end Xv6Users.InodeRuns
