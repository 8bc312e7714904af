import Xv6Users.Core.FixedRows
import Xv6Users.Kernel.Syscalls

/-!
# Directories as tables of entries

The bytes of a directory are a table of entries.  The loops of `dirlookup`,
`dirlink` and `isdirempty` scan it from the start; writing an entry at the offset
they find replaces that entry or appends a new one.
-/

namespace Xv6Users.Directories

open FixedRows Processes Inodes Syscalls List

variable {bytes row : List Byte} {index first : ℕ}

/-- What the bytes of one entry stand for. -/
def parseDirent (row : List Byte) : Dirent :=
  match row with
  | low :: high :: name => ⟨low.toNat + 256 * high.toNat, name.takeWhile (· != 0)⟩
  | _ => ⟨0, []⟩

def entries (bytes : List Byte) : List Dirent :=
  (rows direntSize bytes).map parseDirent

def Aligned (bytes : List Byte) : Prop := direntSize ∣ bytes.length
  deriving Decidable

@[simp]
theorem length_entries (bytes : List Byte) :
    (entries bytes).length = bytes.length / direntSize := by
  simp [entries]

theorem direntAt_eq (hindex : index < (entries bytes).length) :
    direntAt bytes (direntSize * index) = some (entries bytes)[index] := by
  have hrow : index < (rows direntSize bytes).length := by simpa using hindex
  have hlength := length_of_mem_rows (getElem_mem hrow)
  simp only [entries, getElem_map]
  rw [getElem_rows hrow] at hlength ⊢
  rw [direntAt]
  match hbytes : (bytes.drop (direntSize * index)).take direntSize with
  | [] =>
    rw [hbytes] at hlength
    cases hlength
  | [_] =>
    rw [hbytes] at hlength
    cases hlength
  | low :: high :: name =>
    rw [hbytes] at hlength
    have hname : name.length = dirsiz := by
      simpa [direntSize, dirsiz] using hlength
    simp [hname, parseDirent]

/-- The loops stop at the first entry that satisfies a condition; `none` is a short
read. -/
def scan (bytes : List Byte) (stop : Dirent → Bool) :
    List ℕ → Option (Option (ℕ × Dirent))
  | [] => some none
  | off :: rest =>
    match direntAt bytes off with
    | none => none
    | some de => if stop de then some (some (off, de)) else scan bytes stop rest

def isNamed (name : List Byte) (de : Dirent) : Bool :=
  de.inum ≠ 0 ∧ de.name = name

def isUnused (de : Dirent) : Bool :=
  de.inum = 0

theorem findDirent_eq_scan (bytes name : List Byte) (offs : List ℕ) :
    findDirent bytes name offs = (scan bytes (isNamed name) offs).map
      (Option.map fun found => (found.1, found.2.inum)) := by
  induction offs with
  | nil => rfl
  | cons off rest ih =>
    rw [findDirent, scan]
    cases direntAt bytes off with
    | none => rfl
    | some de =>
      dsimp only
      by_cases hnamed : de.inum ≠ 0 ∧ de.name = name
      · simp [isNamed, hnamed]
      · rw [if_neg hnamed, if_neg (by simpa [isNamed] using hnamed), ih]

theorem findUnused_eq_scan (bytes : List Byte) (offs : List ℕ) :
    findUnused bytes offs = (scan bytes isUnused offs).map
      fun found => (found.map Prod.fst).getD bytes.length := by
  induction offs with
  | nil => rfl
  | cons off rest ih =>
    rw [findUnused, scan]
    cases direntAt bytes off with
    | none => rfl
    | some de =>
      dsimp only
      by_cases hunused : de.inum = 0
      · simp [isUnused, hunused]
      · rw [if_neg hunused, if_neg (by simpa [isUnused] using hunused), ih]

/-- The offsets of the entries from the given one on. -/
theorem offsets_drop (haligned : Aligned bytes) (first : ℕ) :
    (offsets bytes.length).drop first =
      (range' first ((entries bytes).length - first)).map (direntSize * ·) := by
  obtain ⟨count, hcount⟩ := haligned
  have hround : (bytes.length + direntSize - 1) / direntSize = count := by
    simp only [direntSize] at hcount ⊢
    omega
  have hlength : (entries bytes).length = count := by
    simp only [length_entries, direntSize] at hcount ⊢
    omega
  rw [offsets, hround, hlength, ← map_drop, range_eq_range', drop_range']
  simp

theorem scan_range {stop : Dirent → Bool} {count : ℕ}
    (hcount : first + count = (entries bytes).length) :
    scan bytes stop ((range' first count).map (direntSize * ·)) =
      some ((((entries bytes).drop first).findIdx? stop).bind fun index =>
        ((entries bytes)[first + index]?).map fun de => (direntSize * (first + index), de)) := by
  induction count generalizing first with
  | zero =>
    rw [drop_of_length_le (by omega)]
    rfl
  | succ count ih =>
    have hfirst : first < (entries bytes).length := by omega
    rw [range'_succ, map_cons, scan, direntAt_eq hfirst, drop_eq_getElem_cons hfirst, findIdx?_cons]
    dsimp only
    split_ifs with hstop
    · simp
    · rw [ih (by omega)]
      cases hfound : ((entries bytes).drop (first + 1)).findIdx? stop with
      | none => rfl
      | some index =>
        have hnext : first + (index + 1) = first + 1 + index := by omega
        simp [hnext]

/-- The scan of a whole directory, or of all but its first entries. -/
theorem scan_offsets (haligned : Aligned bytes) (stop : Dirent → Bool)
    (hfirst : first ≤ (entries bytes).length) :
    scan bytes stop ((offsets bytes.length).drop first) =
      some ((((entries bytes).drop first).findIdx? stop).bind fun index =>
        ((entries bytes)[first + index]?).map fun de => (direntSize * (first + index), de)) := by
  rw [offsets_drop haligned, scan_range (by omega)]

theorem findDirent_entries (haligned : Aligned bytes) (name : List Byte) :
    findDirent bytes name (offsets bytes.length) =
      some (((entries bytes).findIdx? (isNamed name)).bind fun index =>
        ((entries bytes)[index]?).map fun de => (direntSize * index, de.inum)) := by
  have hscan := scan_offsets haligned (isNamed name) (Nat.zero_le _)
  rw [drop_zero, drop_zero] at hscan
  rw [findDirent_eq_scan, hscan]
  simp only [Option.map_some, Option.map_bind, Nat.zero_add]
  congr 2
  funext index
  simp [Function.comp_def]

theorem findUnused_entries (haligned : Aligned bytes) :
    findUnused bytes (offsets bytes.length) =
      some (direntSize * (((entries bytes).findIdx? isUnused).getD (entries bytes).length)) := by
  have hscan := scan_offsets haligned isUnused (Nat.zero_le _)
  rw [drop_zero, drop_zero] at hscan
  rw [findUnused_eq_scan, hscan]
  cases hfound : (entries bytes).findIdx? isUnused with
  | none =>
    have hwhole : direntSize * (bytes.length / direntSize) = bytes.length :=
      Nat.mul_div_cancel' haligned
    simp [hwhole]
  | some index =>
    have hindex : index < (entries bytes).length := (findIdx?_eq_some_iff_getElem.1 hfound).1
    simp [getElem?_eq_getElem hindex]

@[simp]
theorem length_direntBytes (inum : ℕ) (name : List Byte) :
    (direntBytes inum name).length = direntSize := by
  simp only [direntBytes, direntSize, dirsiz, length_cons, length_append,
    length_take, length_replicate]
  omega

/-- The name that is read back from an entry: up to `DIRSIZ` bytes, up to a NUL. -/
def storedName (name : List Byte) : List Byte :=
  (name.take dirsiz).takeWhile (· != 0)

theorem storedName_eq {name : List Byte} (hzero : 0 ∉ name)
    (hshort : name.length ≤ dirsiz) : storedName name = name := by
  rw [storedName, take_of_length_le hshort, takeWhile_eq_self_iff]
  intro byte hbyte
  simp only [bne_iff_ne, ne_eq]
  rintro rfl
  exact hzero hbyte

theorem parseDirent_direntBytes (inum : ℕ) (name : List Byte) :
    parseDirent (direntBytes inum name) = ⟨inum % 2 ^ 16, storedName name⟩ := by
  have hinum : (UInt8.ofNat inum).toNat + 256 * (UInt8.ofNat (inum / 256)).toNat =
      inum % 2 ^ 16 := by
    simp only [UInt8.toNat_ofNat']
    omega
  have hpadding : ∀ count, (replicate count (0 : Byte)).takeWhile (· != 0) = [] := by
    intro count
    cases count with
    | zero => rfl
    | succ count => rfl
  rw [direntBytes, parseDirent, hinum, storedName, takeWhile_append]
  split_ifs with hall
  · rw [hpadding, append_nil]
    rw [(takeWhile_sublist _).eq_of_length hall]
  · rfl

theorem parseDirent_zero : parseDirent (replicate direntSize 0) = ⟨0, []⟩ :=
  rfl

theorem length_splice {src : List Byte} {off : ℕ} (hoff : off ≤ bytes.length) :
    (splice bytes src off).length = max bytes.length (off + src.length) := by
  simp only [splice, length_append, length_take, length_drop]
  omega

/-- The end of an entry. -/
theorem entry_le (hindex : index < (entries bytes).length) :
    direntSize * index + direntSize ≤ bytes.length := by
  rw [length_entries] at hindex
  calc direntSize * index + direntSize = direntSize * (index + 1) := by ring
    _ ≤ direntSize * (bytes.length / direntSize) := Nat.mul_le_mul_left _ hindex
    _ ≤ bytes.length := Nat.mul_div_le _ _

/-- An entry that is overwritten changes alone. -/
theorem entries_splice (hindex : index < (entries bytes).length) (hrow : row.length = direntSize) :
    entries (splice bytes row (direntSize * index)) =
      (entries bytes).set index (parseDirent row) := by
  rw [length_entries] at hindex
  rw [splice, entries, rows_overwrite hindex hrow, map_set, entries]

/-- An entry that is written at the end is new. -/
theorem entries_splice_end (haligned : Aligned bytes) (hrow : row.length = direntSize) :
    entries (splice bytes row bytes.length) = entries bytes ++ [parseDirent row] := by
  have hsplice : splice bytes row bytes.length = bytes ++ row := by
    simp [splice]
  rw [hsplice, entries, rows_append (by decide) haligned hrow, map_append, entries]
  rfl

end Xv6Users.Directories
