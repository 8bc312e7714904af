import Xv6Users.Kernel.DirectoryMaps
import Xv6Users.Kernel.InodeRuns
import Xv6Users.Kernel.Machine

/-!
# Directories of a running machine

In every directory that a machine reaches no name is in two entries.  `dirlink`
fails for a name that is present and adds one that is absent, and clearing an entry
removes its name; but for a name that stands for the directory itself `dirlink`
waits for a lock that its caller holds.
-/

namespace Xv6Users.DirectoryRuns

open Contracts Processes Inodes InodeAccount Moves InodeSpecs Syscalls CallTable Machine Directories
open DirectoryMaps InodeRuns SlotTable Function List

variable {ip : Ip} {bytes name path : List Byte} {origin state : State} {off inum : ℕ}

/-- The table of a directory is whole and has no more bytes than a file can have. -/
structure Table (bytes : List Byte) : Prop where
  aligned : Aligned bytes
  sized : bytes.length ≤ maxFileSize

/-- A process works on a directory that it has locked, within a transaction; nobody
else holds a lock, and neither the cache nor a counter is exhausted. -/
structure Ready (state : State) (curproc : Slot) (dp : Ip) : Prop where
  live : Live state dp
  unique : ∀ ip, Live state ip → (state.icache ip).inum = (state.icache dp).inum → ip = dp
  dir : (state.icache dp).info.type = .dir
  locked : (state.icache dp).lock = some curproc
  alone : ∀ ip, ip ≠ dp → (state.icache ip).lock = none
  slot : ∃ ip, state.empty = some ip
  refs : ∀ ip, (state.icache ip).ref < 2 ^ 31 - 1
  logging : 1 ≤ state.outstanding
  table : Table (bytesOf state dp)

def finds (state : State) (dp : Ip) (name : List Byte) : Option ℕ :=
  SlotTable.lookup (slots (bytesOf state dp)) (storedName name)

section Laws

variable {state : State} {curproc : Slot} {dp : Ip}

/-- `iget` takes a reference to the directory itself only for its own number. -/
theorem Ready.iget (hready : Ready state curproc dp) (inum : ℕ) :
    ∃ ip state', Inodes.iget inum state = .done ip state' ∧
      (state'.icache ip).inum = inum ∧ (ip = dp ↔ inum = (state.icache dp).inum) ∧
      (∀ jp, (state'.icache jp).lock = (state.icache jp).lock) ∧
      (state'.icache dp).inum = (state.icache dp).inum ∧
      (state'.icache dp).info = (state.icache dp).info ∧
      state'.data = state.data ∧ state'.outstanding = state.outstanding := by
  cases hcached : state.cached inum with
  | some ip =>
    obtain ⟨hlive, hinum⟩ := cached_eq_some hcached
    refine ⟨ip, _, iget_cached hcached (hready.refs ip).ne, ?_, ?_,
      read_setInode Inode.lock rfl, read_setInode Inode.inum rfl dp,
      read_setInode Inode.info rfl dp, rfl, rfl⟩
    · rw [icache_setInode_self]
      exact hinum
    · constructor
      · intro hsame
        rw [← hinum, hsame]
      · intro hsame
        exact hready.unique ip hlive (hinum.trans hsame)
  | none =>
    obtain ⟨ip, hempty⟩ := hready.slot
    have href : (state.icache ip).ref = 0 := by
      simpa using find?_some hempty
    have hne : dp ≠ ip := by
      rintro rfl
      exact hready.live.ne' href
    refine ⟨ip, _, iget_recycled hcached hempty, ?_, ?_,
      read_setInode Inode.lock rfl, ?_, ?_, rfl, rfl⟩
    · rw [icache_setInode_self]
    · apply iff_of_false hne.symm
      intro hsame
      exact cached_eq_none.1 hcached dp hready.live hsame.symm
    · rw [icache_setInode_of_ne hne]
    · rw [icache_setInode_of_ne hne]

theorem iput_returns (hlock : (state.icache ip).lock = none) (hlog : 1 ≤ state.outstanding) :
    ∃ state', iput ip state = .done () state' := by
  by_cases hlast : (state.icache ip).valid ∧ (state.icache ip).info.nlink = 0 ∧
      (state.icache ip).ref = 1
  · exact ⟨_, iput_last hlock hlast hlog⟩
  · exact ⟨_, iput_kept hlock hlast⟩

/-- `dirlookup` finds what the table holds. -/
theorem Ready.dirlookup (hready : Ready state curproc dp) (name : List Byte) :
    ∃ found state', dirlookupStr dp name state = .done found state' ∧
      finds state dp name = found.map fun entry => (state'.icache entry.1).inum := by
  obtain ⟨found, hfind, hlookup⟩ := findDirent_lookup hready.table.aligned (storedName name)
  rw [dirlookupStr_eq, finds, hlookup]
  cases found with
  | none => exact ⟨none, state, dirlookup_absent hready.dir hfind, rfl⟩
  | some entry =>
    obtain ⟨off, inum⟩ := entry
    obtain ⟨ip, state', hget, hinum, -⟩ := hready.iget inum
    refine ⟨some (ip, off), state', ?_, by simp [hinum]⟩
    rw [dirlookup_found hready.dir hfind]
    simp only [bind, Op.bind, hget]
    rfl

/-- What `dirlink` does to a finite map: it fails if the name is present, and otherwise
adds it. -/
def Links (state : State) (dp : Ip) (name : List Byte) (inum : ℕ) : Prop :=
  ∃ result state', dirlinkStr dp name inum state = .done result state' ∧
    (result = -1 ↔ (finds state dp name).isSome) ∧
    (finds state dp name = none → finds state' dp name = some inum ∧
      ∀ other, storedName other ≠ storedName name → finds state' dp other = finds state dp other)

/-- A name that is present is not one of the directory itself; a number for a name
that is absent is a `ushort`, and there is room for it. -/
def Linkable (state : State) (dp : Ip) (name : List Byte) (inum : ℕ) : Prop :=
  match finds state dp name with
  | some found => found ≠ (state.icache dp).inum
  | none => 0 < inum ∧ inum < 2 ^ 16 ∧ (none ∈ slots (bytesOf state dp) ∨
      (bytesOf state dp).length + direntSize ≤ maxFileSize)

/-- The entry is found again, unless its number does not fit. -/
theorem finds_written (htable : Table (bytesOf state dp)) (habsent : finds state dp name = none)
    (hunused : findUnused (bytesOf state dp) (offsets (bytesOf state dp).length) = some off)
    (inum : ℕ) (other : List Byte) :
    finds (written state dp (direntBytes inum (storedName name)) off) dp other =
      if storedName name = storedName other ∧ inum % 2 ^ 16 ≠ 0 then some (inum % 2 ^ 16)
      else finds state dp other := by
  rw [finds, bytesOf_written]
  exact lookup_link htable.aligned (zero_notMem_storedName name) (length_storedName name)
    habsent hunused inum (storedName other)

section

variable (hready : Ready state curproc dp)

include hready

theorem Ready.links_present {found : ℕ} (hfound : finds state dp name = some found) (inum : ℕ) :
    Links state dp name inum ↔ found ≠ (state.icache dp).inum := by
  obtain ⟨entry, hfind, hlookup⟩ := findDirent_lookup hready.table.aligned (storedName name)
  rw [finds, hlookup] at hfound
  obtain ⟨⟨off, number⟩, rfl, rfl⟩ := Option.map_eq_some_iff.1 hfound
  obtain ⟨ip, state', hget, -, hsame, hlocks, -, -, -, hlogs⟩ := hready.iget number
  have hlink : dirlinkStr dp name inum state = (iput ip >>= fun _ => pure (-1) : K ℤ) state' := by
    rw [dirlinkStr_eq]
    simp only [dirlink, bind, Op.bind, dirlookup_found hready.dir hfind, hget]
    rfl
  constructor
  · rintro ⟨result, last, hdone, -⟩ hself
    -- The caller waits for its own lock.
    have hlock : (state'.icache ip).lock.isSome := by
      rw [hlocks, hsame.2 hself, hready.locked]
      rfl
    rw [hlink] at hdone
    simp only [bind, Op.bind, iput_locked hlock] at hdone
    cases hdone
  · intro hother
    have hlock : (state'.icache ip).lock = none := by
      rw [hlocks]
      exact hready.alone ip fun hself => hother (hsame.1 hself)
    obtain ⟨last, hput⟩ := iput_returns hlock (hlogs ▸ hready.logging)
    refine ⟨-1, last, ?_, ?_, ?_⟩
    · rw [hlink]
      simp only [bind, Op.bind, hput]
      rfl
    · rw [finds, hlookup]
      simp
    · intro hnone
      rw [finds, hlookup] at hnone
      cases hnone

theorem Ready.links_absent (habsent : finds state dp name = none) (inum : ℕ) :
    Links state dp name inum ↔ 0 < inum ∧ inum < 2 ^ 16 ∧
      (none ∈ slots (bytesOf state dp) ∨ (bytesOf state dp).length + direntSize ≤ maxFileSize) := by
  have htable := hready.table
  obtain ⟨entry, hfind, hlookup⟩ := findDirent_lookup htable.aligned (storedName name)
  have hnone : entry = none := by
    rw [finds, hlookup] at habsent
    exact Option.map_eq_none_iff.1 habsent
  subst hnone
  have hunused := findUnused_entries htable.aligned
  have hslots := (slots_link htable.aligned hunused (length_direntBytes inum (storedName name))).2
  generalize direntSize * (((entries (bytesOf state dp)).findIdx? isUnused).getD
    (entries (bytesOf state dp)).length) = off at hunused hslots
  have hroom : (none ∈ slots (bytesOf state dp) ∨
      (bytesOf state dp).length + direntSize ≤ maxFileSize) ↔ off + direntSize ≤ maxFileSize := by
    obtain ⟨index, hempty, hend, -⟩ | ⟨rfl, hused, -⟩ := hslots
    · exact iff_of_true (.inl (mem_of_getElem? hempty)) (hend.trans htable.sized)
    · simp [hused]
  have hoff : off ≤ (bytesOf state dp).length := by
    obtain ⟨index, -, hend, -⟩ | ⟨rfl, -, -⟩ := hslots
    · omega
    · exact le_rfl
  rw [hroom]
  by_cases hmax : off + direntSize ≤ maxFileSize
  · have hlink : dirlinkStr dp name inum state =
        .done 0 (written state dp (direntBytes inum (storedName name)) off) := by
      rw [dirlinkStr_eq]
      exact dirlink_new hready.dir hfind hunused hoff hmax hready.logging
    have hfinds := finds_written htable habsent hunused inum
    constructor
    · rintro ⟨result, last, hdone, -, hadds⟩
      cases hlink.symm.trans hdone
      have hadded := (hadds habsent).1
      rw [hfinds, habsent] at hadded
      split_ifs at hadded with hfits
      have hinum := Option.some_inj.1 hadded
      exact ⟨by omega, by omega, hmax⟩
    · rintro ⟨hpos, hlt, -⟩
      have hinum : inum % 2 ^ 16 = inum := Nat.mod_eq_of_lt hlt
      refine ⟨0, _, hlink, by simp [habsent], fun _ => ⟨?_, fun other hother => ?_⟩⟩
      · rw [hfinds, hinum, if_pos ⟨rfl, hpos.ne'⟩]
      · rw [hfinds, if_neg fun h => hother h.1.symm]
  · refine iff_of_false ?_ fun h => hmax h.2.2
    rintro ⟨result, last, hdone, -⟩
    rw [dirlinkStr_eq, dirlink_full hready.dir hfind hunused (not_le.1 hmax)] at hdone
    cases hdone

theorem Ready.links_iff (name : List Byte) (inum : ℕ) :
    Links state dp name inum ↔ Linkable state dp name inum := by
  rw [Linkable]
  split
  next found hfound => exact hready.links_present hfound inum
  next habsent => exact hready.links_absent habsent inum

/-- Clearing the entry that `dirlookup` finds, as `sys_unlink` does, makes that name
absent and no other. -/
theorem Ready.clears (hdistinct : Distinct (slots (bytesOf state dp))) {looked : State}
    (hlookup : dirlookupStr dp name state = .done (some (ip, off)) looked) :
    ∃ state', writei dp (replicate direntSize 0) off 0 looked =
        .done direntSize state' ∧ finds state' dp name = none ∧
      ∀ other, storedName other ≠ storedName name →
        finds state' dp other = finds state dp other := by
  have htable := hready.table
  obtain ⟨entry, hfind, -⟩ := findDirent_lookup htable.aligned (storedName name)
  rw [dirlookupStr_eq] at hlookup
  cases entry with
  | none =>
    rw [dirlookup_absent hready.dir hfind] at hlookup
    cases hlookup
  | some entry =>
    obtain ⟨place, inum⟩ := entry
    obtain ⟨jp, state', hget, -, -, -, hnumber, hinfo, hdata, hlogs⟩ := hready.iget inum
    rw [dirlookup_found hready.dir hfind] at hlookup
    simp only [bind, Op.bind, hget] at hlookup
    cases hlookup
    have hbytes : bytesOf looked dp = bytesOf state dp := by
      rw [bytesOf, bytesOf, hnumber, hdata]
    obtain ⟨hend, index, hslot, hset⟩ := slots_clear htable.aligned hfind
    have hfinds : ∀ other, finds (written looked dp (replicate direntSize 0) off) dp
        other = if storedName name = storedName other then none
          else finds state dp other := by
      intro other
      rw [finds, bytesOf_written, hbytes, hset, lookup_clear hdistinct hslot, finds]
    refine ⟨written looked dp (replicate direntSize 0) off, ?_, ?_, ?_⟩
    · have hlength : (replicate direntSize (0 : Byte)).length = direntSize := length_replicate
      have hwrite : writei dp (replicate direntSize 0) off 0 looked =
          .done (replicate direntSize (0 : Byte)).length
            (written looked dp (replicate direntSize 0) off) := by
        apply writei_eq 0
        · rw [hinfo, hready.dir]
          exact FileType.noConfusion
        · exact cons_ne_nil _ _
        · rw [hbytes]
          omega
        · exact hend.trans htable.sized
        · rw [hlogs]
          exact hready.logging
      rwa [hlength] at hwrite
    · rw [hfinds, if_pos rfl]
    · intro other hother
      rw [hfinds, if_neg (Ne.symm hother)]

end

end Laws

/-- The table of a directory in which no name is in two entries. -/
structure Map (bytes : List Byte) : Prop extends Table bytes where
  distinct : Distinct (slots bytes)

/-- Every directory is a map, and no open file can write into one. -/
structure Mapped (state : State) : Prop where
  dirs : ∀ inum, (state.disk inum).type = .dir → Map (state.data inum)
  files : ∀ fp ip, fileInode (state.ftable fp) = some ip → (state.ftable fp).writable →
    (state.icache ip).valid ∧ (state.icache ip).info.type ≠ .dir

def strings (origin : State) : Run :=
  ⟨origin, True, True, True, { path | 0 ∉ path }, (Run.any origin).tidy⟩

/-- The parts of a path are parts of its bytes. -/
theorem sublist_of_mem_splitOnP (stop : Byte → Bool) {part : List Byte}
    (hpart : part ∈ path.splitOnP stop) : part.Sublist path := by
  induction path generalizing part with
  | nil =>
    rw [splitOnP_nil, mem_singleton] at hpart
    rw [hpart]
  | cons byte rest ih =>
    rw [splitOnP_cons_eq_if_modifyHead] at hpart
    split_ifs at hpart with hstop
    · cases mem_cons.1 hpart with
      | inl hnil =>
        rw [hnil]
        exact nil_sublist _
      | inr hmem => exact (ih hmem).cons byte
    · cases hsplit : rest.splitOnP stop with
      | nil =>
        rw [hsplit] at hpart
        cases hpart
      | cons first others =>
        rw [hsplit, modifyHead_cons] at hpart
        cases mem_cons.1 hpart with
        | inl hfirst =>
          rw [hfirst]
          apply List.Sublist.cons_cons
          apply ih
          rw [hsplit]
          exact .head _
        | inr hmem =>
          apply List.Sublist.cons
          apply ih
          rw [hsplit]
          exact .tail _ hmem

theorem mem_elements (hname : name ∈ elements path) :
    name.length ≤ dirsiz ∧ ∀ byte ∈ name, byte ∈ path := by
  obtain ⟨elem, helem, rfl⟩ := mem_map.1 hname
  refine ⟨length_take_le _ _, fun byte hbyte => ?_⟩
  have hpart := sublist_of_mem_splitOnP _ (mem_of_mem_filter helem)
  exact hpart.mem (mem_of_mem_take hbyte)

theorem names_strings (hname : (strings origin).Names name) : 0 ∉ name ∧ name.length ≤ dirsiz := by
  obtain rfl | rfl | ⟨path, hpath, hmem⟩ := hname
  · decide
  · decide
  · obtain ⟨hshort, hbytes⟩ := mem_elements hmem
    exact ⟨fun hzero => hpath (hbytes 0 hzero), hshort⟩

theorem Map.link (hmap : Map bytes) (hzero : 0 ∉ name) (hshort : name.length ≤ dirsiz)
    (habsent : findDirent bytes name (offsets bytes.length) = some none)
    (hunused : findUnused bytes (offsets bytes.length) = some off)
    (hfits : off + direntSize ≤ maxFileSize) (inum : ℕ) :
    Map (splice bytes (direntBytes inum name) off) := by
  have hlookup := lookup_of_findDirent hmap.aligned habsent
  have hlink := slots_link hmap.aligned hunused (length_direntBytes inum name)
  have hoff : off ≤ bytes.length := by
    obtain ⟨index, -, hend, -⟩ | ⟨rfl, -, -⟩ := hlink.2
    · omega
    · exact le_rfl
  refine ⟨⟨hlink.1, ?_⟩, distinct_link hmap.aligned hmap.distinct hzero hshort hlookup hunused inum⟩
  rw [length_splice hoff, length_direntBytes]
  exact max_le hmap.sized hfits

theorem Map.clear (hmap : Map bytes)
    (hfound : findDirent bytes name (offsets bytes.length) = some (some (off, inum))) :
    Map (splice bytes (replicate direntSize 0) off) := by
  obtain ⟨hend, index, -, hset⟩ := slots_clear hmap.aligned hfound
  have hlength : (splice bytes (replicate direntSize 0) off).length = bytes.length := by
    rw [length_splice (by omega), length_replicate, max_eq_left hend]
  refine ⟨⟨?_, ?_⟩, ?_⟩
  · rw [Aligned, hlength]
    exact hmap.aligned
  · rw [hlength]
    exact hmap.sized
  · rw [hset]
    exact hmap.distinct.clear index

section Moves

variable {run : Run} {flight flight' : Ip → ℕ} {state state' : State}

/-- A loaded copy that a file or a process holds stays loaded. -/
theorem valid_move (hacc : Accounted flight state)
    (hmove : Move run flight state flight' state') {jp : Ip} (hheld : 1 ≤ holds state jp)
    (hvalid : (state.icache jp).valid) : (state'.icache jp).valid := by
  have hcount := hacc.live_of_holds hheld
  cases hmove with
  | lock hlive lock => exact (read_setInode Inode.valid rfl jp).trans hvalid
  | retain hlive => exact (read_setInode Inode.valid rfl jp).trans hvalid
  | drop hkept => exact (read_setInode Inode.valid rfl jp).trans hvalid
  | setRights => exact (read_setInode Inode.valid rfl jp).trans hvalid
  | recycle hempty hnone =>
    rename_i ip inum
    have hjp : jp ≠ ip := by
      rintro rfl
      exact hcount.ne' hempty
    rwa [icache_setInode_of_ne hjp]
  | load hlive hinvalid htype =>
    rename_i ip
    by_cases hjp : jp = ip
    · subst hjp
      rw [icache_setInode_self]
    · rwa [icache_setInode_of_ne hjp]
  | free hlive hloaded hunlinked hlast hnone =>
    rename_i ip
    have hjp : jp ≠ ip := by
      rintro rfl
      omega
    change ((State.writeThrough state ip _ false).icache jp).valid
    rwa [icache_writeThrough_of_ne hjp]
  | store htree hlive hloaded htype =>
    rename_i ip info
    by_cases hjp : jp = ip
    · subst hjp
      rw [icache_writeThrough_self]
    · rwa [icache_writeThrough_of_ne hjp]
  | _ => exact hvalid

theorem files_move (hacc : Accounted flight state) (hmapped : Mapped state)
    (hmove : Move run flight state flight' state') {fp : Fp}
    (hfile : fileInode (state'.ftable fp) = some ip) (hwritable : (state'.ftable fp).writable) :
    (state'.icache ip).valid ∧ (state'.icache ip).info.type ≠ .dir := by
  have hbefore : fileInode (state.ftable fp) = some ip → (state.ftable fp).writable →
      (state'.icache ip).valid ∧ (state'.icache ip).info.type ≠ .dir := by
    intro hfile hwritable
    obtain ⟨hvalid, htype⟩ := hmapped.files fp ip hfile hwritable
    have hfiles : 1 ≤ Holders.holders (fun fp => fileInode (state.ftable fp)) ip :=
      Holders.one_le_holders hfile
    have hheld : 1 ≤ holds state ip := hfiles.trans (Nat.le_add_right _ _)
    have hvalid' := valid_move hacc hmove hheld hvalid
    exact ⟨hvalid', (hmove.type_eq hvalid hvalid').symm ▸ htype⟩
  cases hmove with
  | setFile hpass hrefiled =>
    rename_i changed change
    by_cases hfp : fp = changed
    · subst hfp
      have hself : (State.setFile state fp change).ftable fp =
          change (state.ftable fp) := update_self ..
      rw [hself] at hfile hwritable
      cases hrefiled.writes ip hfile hwritable with
      | inl hsame => exact hbefore hsame.1 hsame.2
      | inr hopened => exact hopened.2
    · have hother : (State.setFile state changed change).ftable fp =
          state.ftable fp := update_of_ne hfp ..
      rw [hother] at hfile hwritable
      exact hbefore hfile hwritable
  | _ => exact hbefore hfile hwritable

/-- The bytes of a directory that is written are a map again. -/
theorem Mapped.rewritten (hacc : Accounted flight state) (hmapped : Mapped state)
    (hlive : Live state ip) (hvalid : (state.icache ip).valid)
    (hbytes : Rewritten (strings origin) state ip bytes)
    (hdir : (state.disk (state.icache ip).inum).type = .dir) : Map bytes := by
  have hmap := hmapped.dirs _ hdir
  cases hbytes with
  | link inum hname _ habsent hunused hfits =>
    obtain ⟨hzero, hshort⟩ := names_strings hname
    exact hmap.link hzero hshort habsent hunused hfits inum
  | clear _ hfound => exact hmap.clear hfound
  | file hfile hwritable src off =>
    have htype := (hmapped.files _ _ hfile hwritable).2
    rw [(hacc.typed ip hlive hvalid).1] at htype
    exact absurd hdir htype

theorem map_nil : Map [] :=
  ⟨⟨dvd_zero _, Nat.zero_le _⟩, List.Pairwise.nil⟩

theorem dirs_move (hacc : Accounted flight state) (hmapped : Mapped state)
    (hmove : Move (strings origin) flight state flight' state')
    (hdir : (state'.disk inum).type = .dir) : Map (state'.data inum) := by
  cases hmove with
  | free hlive hvalid hunlinked hlast hheld =>
    rename_i ip
    by_cases hinum : inum = (state.icache ip).inum
    · subst hinum
      exact absurd ((congrArg Dinode.type disk_writeThrough_self).symm.trans hdir)
        FileType.noConfusion
    · have hsame : (State.freed state ip).disk inum = state.disk inum :=
        disk_writeThrough_of_ne hinum
      have hdata : (State.freed state ip).data inum = state.data inum := update_of_ne hinum ..
      rw [hdata]
      exact hmapped.dirs inum (hsame ▸ hdir)
  | store htree hlive hvalid htype =>
    rename_i ip info
    by_cases hinum : inum = (state.icache ip).inum
    · subst hinum
      rw [disk_writeThrough_self, htype, (hacc.typed ip hlive hvalid).1] at hdir
      exact hmapped.dirs _ hdir
    · rw [disk_writeThrough_of_ne hinum] at hdir
      exact hmapped.dirs inum hdir
  | allocate htree hfree type =>
    rename_i new
    by_cases hinum : inum = new
    · subst hinum
      have hdata : (state.allocate inum type).data inum = [] := update_self ..
      rw [hdata]
      exact map_nil
    · have hsame : (state.allocate new type).disk inum = state.disk inum := update_of_ne hinum ..
      have hdata : (state.allocate new type).data inum = state.data inum := update_of_ne hinum ..
      rw [hdata]
      exact hmapped.dirs inum (hsame ▸ hdir)
  | write htree hlive hvalid hbytes =>
    rename_i ip bytes
    by_cases hinum : inum = (state.icache ip).inum
    · subst hinum
      have hdata : (state.setData (state.icache ip).inum bytes).data
          (state.icache ip).inum = bytes := update_self ..
      rw [hdata]
      exact hmapped.rewritten hacc hlive hvalid hbytes hdir
    · have hdata : (state.setData (state.icache ip).inum bytes).data inum =
          state.data inum := update_of_ne hinum ..
      rw [hdata]
      exact hmapped.dirs inum hdir
  | _ => exact hmapped.dirs inum hdir

theorem mapped_move (hacc : Accounted flight state) (hmapped : Mapped state)
    (hmove : Move (strings origin) flight state flight' state') : Mapped state' :=
  ⟨fun _ => dirs_move hacc hmapped hmove, fun _ _ => files_move hacc hmapped hmove⟩

end Moves

def CallsStrings (state : State) (curproc : Slot) (call : Call) (state' : State) : Prop :=
  Calls state curproc call state' ∧ ∀ path ∈ entered call, 0 ∉ path

def Image.Mapped (image : Image) : Prop :=
  ∀ inum, (image.disk inum).type = .dir → Map (image.data inum)

variable {image : Image}

theorem strings_at (hstate : ReachedBy CallsStrings image state) :
    (strings (cold image)).At 0 state := by
  induction hstate with
  | start => exact booted_at (Run.start (strings (cold image)) (cold_accounted image))
  | step _ hstep ih => exact hstep.1.at ih trivial hstep.2 trivial fun _ => trivial

theorem mapped_of_reached (himage : Image.Mapped image)
    (hstate : ReachedBy CallsStrings image state) : DirectoryRuns.Mapped state := by
  have hcold : DirectoryRuns.Mapped (cold image) := ⟨himage, fun fp ip hfile => nomatch hfile⟩
  exact (strings_at hstate).reaches.invariant hcold mapped_move

def lockedRoot : State :=
  { booted (emptyRoot 0o755) with
    icache := update (cold (emptyRoot 0o755)).icache 0
      ⟨rootIno, 1, some 0, true, (emptyRoot 0o755).disk rootIno⟩
    outstanding := 1 }

theorem lockedRoot_ready : Ready lockedRoot 0 0 where
  live := (by decide : (0 : ℤ) < 1)
  unique := by
    unfold Live
    decide
  dir := by decide
  locked := by decide
  alone := by decide
  slot := ⟨1, by decide⟩
  refs := by decide
  logging := by decide
  table := ⟨by decide, by decide⟩

end Xv6Users.DirectoryRuns
