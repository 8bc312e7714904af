import Xv6Users.Core.SlotTable
import Xv6Users.Kernel.Directories

/-!
# Directories are finite maps

A directory maps names of up to 14 bytes to inode numbers: its entries are the slots
of a table.  `namecmp`, `strncpy` and `skipelem` look at no more than 14 bytes, so
longer names stand for their first 14 bytes.
-/

namespace Xv6Users.DirectoryMaps

open Contracts Processes Inodes Directories SlotTable List Option

variable {bytes name : List Byte} {off inum : ℕ}

/-! ## Entries as slots -/

/-- An entry with number 0 is empty. -/
def slot (de : Dirent) : Option (List Byte × ℕ) :=
  if de.inum = 0 then none else some (de.name, de.inum)

def slots (bytes : List Byte) : List (Option (List Byte × ℕ)) :=
  (entries bytes).map slot

theorem lookup_slots (des : List Dirent) (name : List Byte) :
    SlotTable.lookup (des.map slot) name = (des.findIdx? (isNamed name)).bind fun index =>
        (des[index]?).map Dirent.inum := by
  induction des with
  | nil => rfl
  | cons de rest ih =>
    rw [map_cons, findIdx?_cons, slot]
    by_cases hused : de.inum = 0
    · rw [if_pos hused, SlotTable.lookup, ih, if_neg (by simp [isNamed, hused])]
      cases hrest : rest.findIdx? (isNamed name) with
      | none => rfl
      | some index => simp
    · rw [if_neg hused, SlotTable.lookup]
      by_cases hname : de.name = name
      · rw [if_pos hname, if_pos (by simp [isNamed, hused, hname])]
        rfl
      · rw [if_neg hname, ih, if_neg (by simp [isNamed, hname])]
        cases hrest : rest.findIdx? (isNamed name) with
        | none => rfl
        | some index => simp

/-- The number that the loop of `dirlookup` finds. -/
theorem findDirent_lookup (haligned : Aligned bytes) (name : List Byte) :
    ∃ found, findDirent bytes name (offsets bytes.length) = some found ∧
      SlotTable.lookup (slots bytes) name = found.map Prod.snd := by
  refine ⟨_, findDirent_entries haligned name, ?_⟩
  rw [slots, lookup_slots]
  cases (entries bytes).findIdx? (isNamed name) with
  | none => rfl
  | some index =>
    cases hentry : (entries bytes)[index]? with
    | none => simp [hentry]
    | some de => simp [hentry]

theorem lookup_of_findDirent (haligned : Aligned bytes) {found : Option (ℕ × ℕ)}
    (hfind : findDirent bytes name (offsets bytes.length) = some found) :
    SlotTable.lookup (slots bytes) name = found.map Prod.snd := by
  obtain ⟨other, hother, hlookup⟩ := findDirent_lookup haligned name
  rw [hfind] at hother
  cases hother
  exact hlookup

/-- Where the loop of `dirlookup` stops there is an entry with the name. -/
theorem slot_of_findDirent (haligned : Aligned bytes)
    (hfind : findDirent bytes name (offsets bytes.length) = some (some (off, inum))) :
    ∃ index, index < (entries bytes).length ∧ off = direntSize * index ∧
      (slots bytes)[index]? = some (some (name, inum)) := by
  rw [findDirent_entries haligned, some_inj, bind_eq_some_iff] at hfind
  obtain ⟨index, hindex, hentry⟩ := hfind
  obtain ⟨hlt, hnamed, -⟩ := findIdx?_eq_some_iff_getElem.1 hindex
  rw [getElem?_eq_getElem hlt, map_some, some_inj] at hentry
  cases hentry
  refine ⟨index, hlt, rfl, ?_⟩
  simp only [isNamed, decide_eq_true_eq] at hnamed
  rw [slots, getElem?_map, getElem?_eq_getElem hlt, map_some, slot, if_neg hnamed.1, hnamed.2]

/-- The slot that an entry with this name and number is read as. -/
theorem slot_direntBytes (hzero : 0 ∉ name) (hshort : name.length ≤ dirsiz) (inum : ℕ) :
    slot (parseDirent (direntBytes inum name)) =
      if inum % 2 ^ 16 = 0 then none else some (name, inum % 2 ^ 16) := by
  rw [parseDirent_direntBytes, storedName_eq hzero hshort, slot]

/-- An entry is written into an unused place or to the end. -/
theorem slots_link (haligned : Aligned bytes)
    (hunused : findUnused bytes (offsets bytes.length) = some off) {row : List Byte}
    (hrow : row.length = direntSize) :
    Aligned (splice bytes row off) ∧ ((∃ index, (slots bytes)[index]? = some none ∧
          off + direntSize ≤ bytes.length ∧
          slots (splice bytes row off) = (slots bytes).set index (slot (parseDirent row))) ∨
        (off = bytes.length ∧ none ∉ slots bytes ∧
          slots (splice bytes row off) = slots bytes ++ [slot (parseDirent row)])) := by
  rw [findUnused_entries haligned, some_inj] at hunused
  cases hindex : (entries bytes).findIdx? isUnused with
  | some index =>
    rw [hindex, getD_some] at hunused
    subst hunused
    obtain ⟨hlt, hempty, -⟩ := findIdx?_eq_some_iff_getElem.1 hindex
    have hend := entry_le hlt
    refine ⟨?_, .inl ⟨index, ?_, hend, ?_⟩⟩
    · rw [Aligned, length_splice (by omega), hrow, max_eq_left hend]
      exact haligned
    · simp only [isUnused, decide_eq_true_eq] at hempty
      rw [slots, getElem?_map, getElem?_eq_getElem hlt, map_some, slot, if_pos hempty]
    · rw [slots, entries_splice hlt hrow, map_set, slots]
  | none =>
    have hlength : direntSize * (entries bytes).length = bytes.length := by
      rw [length_entries]
      exact Nat.mul_div_cancel' haligned
    rw [hindex, getD_none, hlength] at hunused
    subst hunused
    refine ⟨?_, .inr ⟨rfl, ?_, ?_⟩⟩
    · rw [Aligned, length_splice le_rfl, hrow, max_eq_right (Nat.le_add_right _ _)]
      exact Nat.dvd_add haligned (dvd_refl _)
    · intro hmem
      obtain ⟨de, hde, hslot⟩ := mem_map.1 hmem
      have hused := findIdx?_eq_none_iff.1 hindex de hde
      simp only [isUnused, decide_eq_false_iff_not] at hused
      rw [slot, if_neg hused] at hslot
      cases hslot
    · rw [slots, entries_splice_end haligned hrow, map_append, slots]
      rfl

/-- Clearing an entry. -/
theorem slots_clear (haligned : Aligned bytes)
    (hfind : findDirent bytes name (offsets bytes.length) = some (some (off, inum))) :
    off + direntSize ≤ bytes.length ∧ ∃ index, (slots bytes)[index]? = some (some (name, inum)) ∧
        slots (splice bytes (replicate direntSize 0) off) = (slots bytes).set index none := by
  obtain ⟨index, hlt, rfl, hslot⟩ := slot_of_findDirent haligned hfind
  have hrow : (replicate direntSize (0 : Byte)).length = direntSize := length_replicate
  refine ⟨entry_le hlt, index, hslot, ?_⟩
  rw [slots, entries_splice hlt hrow, map_set, slots, parseDirent_zero]
  rfl

/-- Adding a name that is absent, as a map. -/
theorem lookup_link (haligned : Aligned bytes) (hzero : 0 ∉ name) (hshort : name.length ≤ dirsiz)
    (habsent : SlotTable.lookup (slots bytes) name = none)
    (hunused : findUnused bytes (offsets bytes.length) = some off) (inum : ℕ) (other : List Byte) :
    SlotTable.lookup (slots (splice bytes (direntBytes inum name) off)) other =
      if name = other ∧ inum % 2 ^ 16 ≠ 0 then some (inum % 2 ^ 16)
      else SlotTable.lookup (slots bytes) other := by
  have hslots := (slots_link haligned hunused (length_direntBytes inum name)).2
  have hslot := slot_direntBytes hzero hshort inum
  by_cases hnone : inum % 2 ^ 16 = 0
  · -- The new entry reads as empty.
    rw [if_neg fun h => h.2 hnone]
    rw [hslot, if_pos hnone] at hslots
    obtain ⟨index, hempty, -, hset⟩ | ⟨-, -, happend⟩ := hslots
    · obtain ⟨hindex, hslot⟩ := List.getElem?_eq_some_iff.1 hempty
      rw [hset, ← hslot, set_getElem_self]
    · rw [happend]
      exact lookup_append_none _ _
  · rw [hslot, if_neg hnone] at hslots
    simp only [hnone, ne_eq, not_false_eq_true, and_true]
    obtain ⟨index, hempty, -, hset⟩ | ⟨-, -, happend⟩ := hslots
    · rw [hset, lookup_set _ _ _ habsent hempty]
    · rw [happend, lookup_append _ _ _ habsent]

/-- No name is in two entries, also after an entry is written. -/
theorem distinct_link (haligned : Aligned bytes) (hdistinct : Distinct (slots bytes))
    (hzero : 0 ∉ name) (hshort : name.length ≤ dirsiz)
    (habsent : SlotTable.lookup (slots bytes) name = none)
    (hunused : findUnused bytes (offsets bytes.length) = some off) (inum : ℕ) :
    Distinct (slots (splice bytes (direntBytes inum name) off)) := by
  have hslots := (slots_link haligned hunused (length_direntBytes inum name)).2
  rw [slot_direntBytes hzero hshort inum] at hslots
  by_cases hnone : inum % 2 ^ 16 = 0
  · rw [if_pos hnone] at hslots
    obtain ⟨index, -, -, hset⟩ | ⟨-, -, happend⟩ := hslots
    · rw [hset]
      exact hdistinct.clear index
    · rw [happend]
      exact hdistinct.append_none
  · rw [if_neg hnone] at hslots
    obtain ⟨index, -, -, hset⟩ | ⟨-, -, happend⟩ := hslots
    · rw [hset]
      exact hdistinct.set habsent _ index
    · rw [happend]
      exact hdistinct.append habsent _

/-! ## Comparing and copying names -/

/-- `p` and `q` are read with the terminator that follows a string. -/
def strncmp : ℕ → List Byte → List Byte → ℤ
  | 0, _, _ => 0
  | n + 1, p, q =>
    if p.headD 0 ≠ 0 ∧ p.headD 0 = q.headD 0 then strncmp n p.tail q.tail
    else (p.headD 0).toNat - (q.headD 0).toNat

def namecmp (s t : List Byte) : ℤ :=
  strncmp dirsiz s t

/-- The `n` bytes that are written. -/
def strncpy : ℕ → List Byte → List Byte
  | 0, _ => []
  | n + 1, t =>
    if t.headD 0 = 0 then 0 :: replicate n 0 else t.headD 0 :: strncpy n t.tail

/-- What a bounded comparison sees of a string. -/
def upTo (n : ℕ) (text : List Byte) : List Byte :=
  (text.take n).takeWhile (· != 0)

theorem upTo_succ (n : ℕ) (text : List Byte) :
    upTo (n + 1) text =
      if text.headD 0 = 0 then [] else text.headD 0 :: upTo n text.tail := by
  cases text with
  | nil => rfl
  | cons byte rest =>
    simp only [upTo, take_succ_cons, headD_cons, tail_cons]
    by_cases hzero : byte = 0
    · simp [hzero]
    · simp [hzero]

theorem strncmp_eq_zero (n : ℕ) (p q : List Byte) : strncmp n p q = 0 ↔ upTo n p = upTo n q := by
  induction n generalizing p q with
  | zero => simp [strncmp, upTo]
  | succ n ih =>
    rw [strncmp, upTo_succ, upTo_succ]
    by_cases hsame : p.headD 0 = q.headD 0
    · by_cases hzero : p.headD 0 = 0
      · rw [if_neg fun h => h.1 hzero, if_pos hzero, if_pos (hsame ▸ hzero), hsame]
        simp
      · rw [if_pos ⟨hzero, hsame⟩, if_neg hzero, if_neg (hsame ▸ hzero), ih, hsame]
        simp
    · rw [if_neg fun h => hsame h.2]
      have hdiffer : ((p.headD 0).toNat : ℤ) - (q.headD 0).toNat ≠ 0 := by
        intro hzero
        apply hsame
        exact UInt8.toNat_inj.1 (by omega)
      refine iff_of_false hdiffer ?_
      split_ifs with hp hq hq
      · exact absurd (hp.trans hq.symm) hsame
      · simp
      · simp
      · intro hlists
        exact hsame (cons.inj hlists).1

theorem strncpy_eq (n : ℕ) (text : List Byte) :
    strncpy n text = upTo n text ++ replicate (n - (upTo n text).length) 0 := by
  induction n generalizing text with
  | zero => simp [strncpy, upTo]
  | succ n ih =>
    rw [strncpy, upTo_succ]
    split_ifs with hzero
    · simp [replicate_succ]
    · rw [ih]
      simp

/-- Names are compared by the bytes that an entry stores. -/
theorem namecmp_eq_zero (s t : List Byte) : namecmp s t = 0 ↔ storedName s = storedName t :=
  strncmp_eq_zero dirsiz s t

/-! ## Strings of any length -/

/-- An entry as it is read, with the 14 bytes of its name. -/
def rawDirent (bytes : List Byte) (off : ℕ) : Option (ℕ × List Byte) :=
  match (bytes.drop off).take direntSize with
  | low :: high :: name =>
    if name.length = dirsiz then some (low.toNat + 256 * high.toNat, name) else none
  | _ => none

/-- The loop of `dirlookup` for a string. -/
def findNamed (bytes name : List Byte) : List ℕ → Option (Option (ℕ × ℕ))
  | [] => some none
  | off :: rest =>
    match rawDirent bytes off with
    | none => none
    | some (inum, raw) =>
      if inum = 0 then findNamed bytes name rest
      else if namecmp name raw = 0 then some (some (off, inum))
      else findNamed bytes name rest

/-- `dirlookup` of a string. -/
def dirlookupStr (dp : Ip) (name : List Byte) : K (Option (Ip × ℕ)) := do
  let inode ← getInode dp
  if inode.info.type ≠ .dir then kpanic "dirlookup not DIR"
  else do
    let bytes ← Op.gets fun state => state.data inode.inum
    match findNamed bytes name (offsets bytes.length) with
    | none => kpanic "dirlookup read"
    | some none => pure none
    | some (some (off, inum)) => do
      let ip ← iget inum
      pure (some (ip, off))

/-- `dirlink` of a string; the number is cut to a `ushort`. -/
def dirlinkStr (dp : Ip) (name : List Byte) (inum : ℕ) : K ℤ := do
  match ← dirlookupStr dp name with
  | some (ip, _) => do
    iput ip
    pure (-1)
  | none => do
    let inode ← getInode dp
    let bytes ← Op.gets fun state => state.data inode.inum
    match findUnused bytes (offsets bytes.length) with
    | none => kpanic "dirlink read"
    | some off => do
      let entry := UInt8.ofNat inum :: UInt8.ofNat (inum / 256) :: strncpy dirsiz name
      let written ← writei dp entry off 0
      if written = direntSize then pure 0 else kpanic "dirlink"

theorem length_storedName (name : List Byte) : (storedName name).length ≤ dirsiz :=
  (takeWhile_sublist _).length_le.trans (length_take_le _ _)

theorem zero_notMem_storedName (name : List Byte) : 0 ∉ storedName name := by
  intro hzero
  have hbyte := mem_takeWhile_imp hzero
  simp at hbyte

theorem direntAt_eq_raw (bytes : List Byte) (off : ℕ) :
    direntAt bytes off = (rawDirent bytes off).map fun raw => ⟨raw.1, storedName raw.2⟩ := by
  rw [direntAt, rawDirent]
  rcases (bytes.drop off).take direntSize with _ | ⟨low, _ | ⟨high, name⟩⟩
  · rfl
  · rfl
  · dsimp only
    split_ifs with hlength
    · rw [map_some, storedName, take_of_length_le hlength.le]
    · rfl

theorem findNamed_eq (bytes name : List Byte) (offs : List ℕ) :
    findNamed bytes name offs = findDirent bytes (storedName name) offs := by
  induction offs with
  | nil => rfl
  | cons off rest ih =>
    rw [findNamed, findDirent, direntAt_eq_raw]
    cases rawDirent bytes off with
    | none => rfl
    | some raw =>
      obtain ⟨inum, raw⟩ := raw
      simp only [map_some, namecmp_eq_zero, ih]
      by_cases hused : inum = 0
      · simp [hused]
      · by_cases hname : storedName name = storedName raw
        · simp [hused, hname]
        · simp [hused, hname, Ne.symm hname]

/-- A string is looked up by the bytes that an entry can store of it. -/
theorem dirlookupStr_eq (dp : Ip) (name : List Byte) :
    dirlookupStr dp name = dirlookup dp (storedName name) := by
  simp only [dirlookupStr, findNamed_eq]
  rfl

theorem strncpy_entry (inum : ℕ) (name : List Byte) :
    UInt8.ofNat inum :: UInt8.ofNat (inum / 256) :: strncpy dirsiz name =
      direntBytes inum (storedName name) := by
  rw [direntBytes, strncpy_eq, take_of_length_le (length_storedName name)]
  rfl

theorem dirlinkStr_eq (dp : Ip) (name : List Byte) (inum : ℕ) :
    dirlinkStr dp name inum = dirlink dp (storedName name) inum := by
  simp only [dirlinkStr, dirlookupStr_eq, strncpy_entry]
  rfl

/-- A path element is cut where a lookup stops comparing. -/
theorem skipelem_name {path rest : List Byte} (hzero : 0 ∉ path)
    (hskip : skipelem path = some (name, rest)) :
    name = storedName ((path.dropWhile (· == slash)).takeWhile (· != slash)) := by
  rw [skipelem] at hskip
  split_ifs at hskip with hempty
  cases hskip
  have hclean : 0 ∉ ((path.dropWhile (· == slash)).takeWhile (· != slash)).take dirsiz := by
    intro hmem
    apply hzero
    apply (dropWhile_sublist _).mem
    apply (takeWhile_sublist _).mem
    exact mem_of_mem_take hmem
  rw [← storedName_eq hclean (length_take_le _ _), storedName, take_take, min_self, storedName]

/-- The names of two used entries differ under `namecmp`. -/
def NamesDiffer (bytes : List Byte) : Prop :=
  ∀ first last left right, first < last → rawDirent bytes (direntSize * first) = some left →
    rawDirent bytes (direntSize * last) = some right →
    left.1 ≠ 0 → right.1 ≠ 0 → namecmp left.2 right.2 ≠ 0

theorem slot_of_raw {index : ℕ} {raw : ℕ × List Byte}
    (hraw : rawDirent bytes (direntSize * index) = some raw) (hused : raw.1 ≠ 0) :
    (slots bytes)[index]? = some (some (storedName raw.2, raw.1)) := by
  have hindex : index < (entries bytes).length := by
    rw [rawDirent] at hraw
    split at hraw
    next low high name hbytes =>
      split_ifs at hraw with hname
      have hlength := congrArg length hbytes
      simp only [length_take, length_drop, length_cons, hname, direntSize, dirsiz] at hlength
      simp only [length_entries, direntSize]
      omega
    · cases hraw
  have hentry := direntAt_eq hindex
  rw [direntAt_eq_raw, hraw, map_some, some_inj] at hentry
  rw [slots, getElem?_map, getElem?_eq_getElem hindex, map_some, ← hentry, slot, if_neg hused]

theorem namesDiffer_of_distinct (hdistinct : Distinct (slots bytes)) : NamesDiffer bytes := by
  intro first last left right hlt hleft hright hused hused' hsame
  rw [namecmp_eq_zero] at hsame
  obtain ⟨hfirst, hslot⟩ := List.getElem?_eq_some_iff.1 (slot_of_raw hleft hused)
  obtain ⟨hlast, hslot'⟩ := List.getElem?_eq_some_iff.1 (slot_of_raw hright hused')
  have hpair := pairwise_iff_getElem.1 hdistinct first last hfirst hlast hlt
  rw [hslot, hslot', ← hsame] at hpair
  exact hpair _ _ _ rfl rfl

end Xv6Users.DirectoryMaps
