import Xv6Users.Core.LineDiscipline
import Xv6Users.Core.RingBuffer

/-!
# Input from the console

`kernel/console.c`.  `consoleintr` edits the line between the write index and the edit
index of a ring, and `consoleread` takes what is before it.  Both hold the lock of the
console; a reader gives it up when it sleeps, and it may go on at any time, since it looks
at the indices again.  What is echoed is left out.
-/

namespace Xv6Users.ConsoleInput

open LineDiscipline RingBuffer

abbrev Byte := UInt8

/-- `INPUT_BUF`. -/
abbrev inputBuf : ℕ := 128

/-- `C(x)`. -/
def control (letter : Byte) : Byte := letter - 64

def newline : Byte := 10

/-- `C('D')`. -/
def endOfFile : Byte := control 68

structure Input where
  buf : ℕ → Byte
  r : UInt32
  w : UInt32
  e : UInt32

/-! ## The functions of the source -/

/-- The loop of `C('U')`; it ends at the write index. -/
def killLine : ℕ → Input → Input
  | 0, input => input
  | fuel + 1, input =>
    if input.e ≠ input.w ∧ input.buf (cell inputBuf (input.e - 1)) ≠ newline then
      killLine fuel { input with e := input.e - 1 }
    else input

/-- A carriage return is a newline. -/
def typed (c : Byte) : Byte := if c = 13 then newline else c

def Input.Takes (input : Input) (c : Byte) : Prop :=
  c ≠ 0 ∧ input.e - input.r < UInt32.ofNat inputBuf
  deriving Decidable

/-- Whether the line ends with a byte that is put into the buffer. -/
def Input.Commits (input : Input) (c : Byte) : Prop :=
  c = newline ∨ c = endOfFile ∨ input.e + 1 = input.r + UInt32.ofNat inputBuf
  deriving Decidable

def Input.put (input : Input) (c : Byte) : Input :=
  { input with
    buf := Function.update input.buf (cell inputBuf input.e) c
    e := input.e + 1
    w := if input.Commits c then input.e + 1 else input.w }

/-- One round of the loop of `consoleintr`. -/
def Input.key (input : Input) (c : Byte) : Input :=
  if c = control 80 then input
  else if c = control 85 then killLine (count input.w input.e) input
  else if c = control 72 ∨ c = 127 then
    if input.e ≠ input.w then { input with e := input.e - 1 } else input
  else if input.Takes c then input.put (typed c)
  else input

/-- A process in `consoleread`. -/
structure Reader where
  target : ℕ
  n : ℕ
  dst : List Byte

/-- The loop of `consoleread`; the last component says that it is left, not asleep. -/
def readLoop (target : ℕ) : ℕ → List Byte → Input → Input × Reader × Bool
  | 0, dst, input => (input, ⟨target, 0, dst⟩, true)
  | n + 1, dst, input =>
    if input.r = input.w then (input, ⟨target, n + 1, dst⟩, false)
    else if input.buf (cell inputBuf input.r) = endOfFile then
      -- The mark is kept for the next call if this one has bytes.
      ({ input with r := if n + 1 < target then input.r + 1 - 1 else input.r + 1 },
        ⟨target, n + 1, dst⟩, true)
    else if input.buf (cell inputBuf input.r) = newline then
      ({ input with r := input.r + 1 },
        ⟨target, n, dst ++ [input.buf (cell inputBuf input.r)]⟩, true)
    else
      readLoop target n (dst ++ [input.buf (cell inputBuf input.r)])
        { input with r := input.r + 1 }

/-- The bytes that the caller of `consoleread` gets. -/
def Reader.reply (reader : Reader) : Reply Byte :=
  ⟨reader.target, reader.dst.take (reader.target - reader.n)⟩

/-- The input, the reader if there is one, and what has been typed and read. -/
structure Console where
  input : Input
  reader : Option Reader
  keys : List (Key Byte)
  replies : List (Reply Byte)

def Input.accepts (input : Input) (c : Byte) : Option (Key Byte) :=
  if c = control 80 then none
  else if c = control 85 then some .kill
  else if c = control 72 ∨ c = 127 then some .erase
  else if input.Takes c then some (.type (typed c) (input.Commits (typed c)))
  else none

def Console.press (console : Console) (c : Byte) : Console :=
  { console with
    input := console.input.key c
    keys := console.keys ++ (console.input.accepts c).toList }

def Console.advance (console : Console) (reader : Reader) : Console :=
  let result := readLoop reader.target reader.n reader.dst console.input
  if result.2.2 then
    { console with
      input := result.1
      reader := none
      replies := console.replies ++ [result.2.1.reply] }
  else { console with input := result.1, reader := some result.2.1 }

inductive Action where
  /-- `consoleintr`, where `getc` gives these bytes. -/
  | consoleintr (bytes : List Byte)
  | consoleread (size : ℕ+)
  | resume

/-- There is one reader at a time. -/
def step (console : Console) : Action → Console
  | .consoleintr bytes => bytes.foldl Console.press console
  | .consoleread size =>
    match console.reader with
    | none => console.advance ⟨size, size, []⟩
    | some _ => console
  | .resume =>
    match console.reader with
    | none => console
    | some reader => console.advance reader

/-- The buffer and the indices are zero. -/
def start : Console := ⟨⟨fun _ => 0, 0, 0, 0⟩, none, [], []⟩

def run (actions : List Action) : Console :=
  actions.foldl step start

/-- The indices are in order, round the ring. -/
structure Input.Ordered (input : Input) : Prop where
  order : count input.r input.w + count input.w input.e = count input.r input.e
  room : count input.r input.e ≤ inputBuf

def Input.unread (input : Input) : List Byte :=
  contents inputBuf input.buf input.r input.w

def Input.line (input : Input) : List Byte :=
  contents inputBuf input.buf input.w input.e

section Input

variable {input : Input} {c : Byte}

theorem inputBuf_dvd : inputBuf ∣ 2 ^ 32 := by
  decide

theorem inputBuf_lt : inputBuf < 2 ^ 32 - 1 := by
  decide

theorem Input.Takes.room (htakes : input.Takes c) : count input.r input.e < inputBuf :=
  UInt32.lt_iff_toNat_lt.1 htakes.2

theorem Input.Ordered.erase (hordered : input.Ordered) (hne : input.e ≠ input.w) :
    Input.Ordered { input with e := input.e - 1 } := by
  have hline := count_pred hne.symm
  have hstart : input.r ≠ input.e := by
    intro hsame
    have hzero := count_eq_zero.2 hsame
    have horder := hordered.order
    omega
  have hall := count_pred hstart
  obtain ⟨horder, hroom⟩ := hordered
  constructor <;> dsimp only <;> omega

theorem line_erase (hne : input.e ≠ input.w) :
    Input.line { input with e := input.e - 1 } = input.line.dropLast := by
  have hline : input.line = _ := contents_pred hne.symm
  rw [hline, List.dropLast_concat]
  rfl

theorem line_eq_nil : input.line = [] ↔ input.e = input.w := by
  rw [Input.line, contents_eq_nil, eq_comm]

/-- The line has no newline, so all of it is erased. -/
theorem killLine_eq {fuel : ℕ} (hfuel : count input.w input.e = fuel)
    (hunbroken : newline ∉ input.line) : killLine fuel input = { input with e := input.w } := by
  induction fuel generalizing input with
  | zero =>
    cases input with
    | mk buf r w e =>
      cases count_eq_zero.1 hfuel
      rfl
  | succ fuel ih =>
    have hne : input.w ≠ input.e := by
      intro hsame
      rw [count_eq_zero.2 hsame] at hfuel
      cases hfuel
    have hline : input.line = _ := contents_pred hne
    have hlast : input.buf (cell inputBuf (input.e - 1)) ≠ newline := by
      intro hlast
      apply hunbroken
      rw [hline, hlast]
      exact List.mem_append_right _ (List.mem_singleton_self _)
    have hcount := count_pred hne
    rw [killLine, if_pos ⟨hne.symm, hlast⟩, ih]
    · dsimp only
      omega
    · intro hmem
      apply hunbroken
      rw [hline]
      exact List.mem_append_left _ hmem

section

variable (hordered : input.Ordered)

include hordered

theorem Input.Ordered.kill : Input.Ordered { input with e := input.w } := by
  obtain ⟨horder, hroom⟩ := hordered
  constructor
  · rw [count_self, Nat.add_zero]
  · dsimp only
    omega

/-- A byte in the buffer, before the line is committed. -/
theorem put_contents (hroom : count input.r input.e < inputBuf) (c : Byte) :
    contents inputBuf (input.put c).buf input.r input.w = input.unread ∧
      contents inputBuf (input.put c).buf input.w (input.e + 1) = input.line ++ [c] := by
  obtain ⟨hread, hline⟩ := contents_update_parts inputBuf_dvd hordered.order hroom c
  have hwide : count input.w input.e < 2 ^ 32 - 1 := by
    have horder := hordered.order
    have hsize := inputBuf_lt
    omega
  refine ⟨hread, ?_⟩
  have hlast : (input.put c).buf (cell inputBuf input.e) = c := Function.update_self ..
  rw [contents_succ hwide, hlast]
  exact congrArg (· ++ [c]) hline

theorem put_counts (hroom : count input.r input.e < inputBuf) :
    count input.r (input.e + 1) = count input.r input.e + 1 ∧
      count input.w (input.e + 1) = count input.w input.e + 1 := by
  have horder := hordered.order
  have hsize := inputBuf_lt
  exact ⟨count_succ (by omega), count_succ (by omega)⟩

theorem Input.Ordered.put (hroom : count input.r input.e < inputBuf)
    (c : Byte) : (input.put c).Ordered := by
  obtain ⟨hall, hline⟩ := put_counts hordered hroom
  have horder := hordered.order
  constructor
  · rw [Input.put]
    dsimp only
    split_ifs
    · rw [count_self, Nat.add_zero]
    · omega
  · rw [Input.put]
    dsimp only
    omega

/-- A byte that ends the line commits all of it. -/
theorem put_commits (hroom : count input.r input.e < inputBuf) (hcommits : input.Commits c) :
    (input.put c).unread = input.unread ++ (input.line ++ [c]) ∧ (input.put c).line = [] := by
  obtain ⟨hread, hline⟩ := put_contents hordered hroom c
  obtain ⟨hallCount, hlineCount⟩ := put_counts hordered hroom
  have horder : count input.r input.w + count input.w (input.e + 1) =
      count input.r (input.e + 1) := by
    have hbefore := hordered.order
    omega
  have hw : (input.put c).w = input.e + 1 := if_pos hcommits
  constructor
  · rw [Input.unread, hw, ← hread, ← hline, contents_append horder]
    rfl
  · rw [line_eq_nil, hw]
    rfl

theorem put_types (hroom : count input.r input.e < inputBuf) (hcommits : ¬ input.Commits c) :
    (input.put c).unread = input.unread ∧ (input.put c).line = input.line ++ [c] := by
  have hw : (input.put c).w = input.w := if_neg hcommits
  rw [Input.unread, Input.line, hw]
  exact put_contents hordered hroom c

end

end Input

/-- The bytes that the reader has so far. -/
def Console.got (console : Console) : List Byte :=
  match console.reader with
  | none => []
  | some reader => reader.dst

/-- A read that has not ended. -/
structure Reader.Good (reader : Reader) : Prop where
  positive : 0 < reader.target
  length : reader.dst.length + reader.n = reader.target
  unbroken : newline ∉ reader.dst
  unmarked : endOfFile ∉ reader.dst

/-- The ring holds what the editor has, and the replies are the text in order. -/
structure Console.Good (console : Console) : Prop where
  ordered : console.input.Ordered
  line : console.input.line = (edited console.keys).line
  unbroken : newline ∉ console.input.line
  served : Served newline endOfFile (edited console.keys).committed console.replies
    (console.got ++ console.input.unread)
  reading : ∀ reader ∈ console.reader, reader.Good

variable {c : Byte}

section Console

variable {console : Console} {input' : Input} {reader : Reader}

section

variable (hgood : console.Good)

include hgood

/-- A key that changes the line only. -/
theorem Console.Good.edit {key : Key Byte}
    (hcommitted : ((edited console.keys).press key).committed = (edited console.keys).committed)
    (hordered : input'.Ordered) (hline : input'.line = ((edited console.keys).press key).line)
    (hunbroken : newline ∉ input'.line) (hunread : input'.unread = console.input.unread) :
    Console.Good { console with input := input', keys := console.keys ++ [key] } where
  ordered := hordered
  line := by
    rw [edited_concat]
    exact hline
  unbroken := hunbroken
  served := by
    rw [edited_concat, hcommitted, hunread]
    exact hgood.served
  reading := hgood.reading

theorem Console.Good.erase :
    Console.Good
      { console with
        input := if console.input.e ≠ console.input.w then
            { console.input with e := console.input.e - 1 }
          else console.input
        keys := console.keys ++ [.erase] } := by
  have hdrop := congrArg List.dropLast hgood.line
  split_ifs with hend
  · have hline := line_erase hend
    refine hgood.edit rfl (hgood.ordered.erase hend) (hline.trans hdrop) ?_ rfl
    rw [hline]
    exact fun hmem => hgood.unbroken (List.mem_of_mem_dropLast hmem)
  · rw [not_not, ← line_eq_nil] at hend
    refine hgood.edit rfl hgood.ordered ?_ hgood.unbroken rfl
    rw [hend] at hdrop ⊢
    exact hdrop

theorem Console.Good.kill :
    Console.Good
      { console with
        input := killLine (count console.input.w console.input.e) console.input
        keys := console.keys ++ [.kill] } := by
  rw [killLine_eq rfl hgood.unbroken]
  have hline : Input.line { console.input with e := console.input.w } = [] := line_eq_nil.2 rfl
  refine hgood.edit rfl hgood.ordered.kill hline ?_ rfl
  rw [hline]
  exact List.not_mem_nil

theorem Console.Good.type (htakes : console.input.Takes c) :
    Console.Good
      { console with
        input := console.input.put (typed c)
        keys := console.keys ++ [.type (typed c) (console.input.Commits (typed c))] } := by
  have hroom := htakes.room
  have hordered := hgood.ordered.put hroom (typed c)
  by_cases hcommits : console.input.Commits (typed c)
  · obtain ⟨hunread, hline⟩ := put_commits hgood.ordered hroom hcommits
    rw [decide_eq_true hcommits]
    refine ⟨hordered, ?_, ?_, ?_, hgood.reading⟩
    · rw [edited_concat]
      exact hline
    · rw [hline]
      exact List.not_mem_nil
    · rw [edited_concat, hunread, ← List.append_assoc, hgood.line]
      exact hgood.served.extend _
  · obtain ⟨hunread, hline⟩ := put_types hgood.ordered hroom hcommits
    rw [decide_eq_false hcommits]
    refine hgood.edit rfl hordered ?_ ?_ hunread
    · rw [hline, hgood.line]
      rfl
    · rw [hline, List.mem_append, List.mem_singleton]
      rintro (hmem | hlast)
      · exact hgood.unbroken hmem
      · exact hcommits (Or.inl hlast.symm)

theorem Console.Good.press (c : Byte) : (console.press c).Good := by
  rw [Console.press, Input.key, Input.accepts]
  split_ifs with hlisting hkill herase hend htakes
  · rw [Option.toList_none, List.append_nil]
    exact hgood
  · exact hgood.kill
  · have hkeys := hgood.erase
    rwa [if_pos hend] at hkeys
  · have hkeys := hgood.erase
    rwa [if_neg hend] at hkeys
  · exact hgood.type htakes
  · rw [Option.toList_none, List.append_nil]
    exact hgood

theorem Console.Good.press_all (bytes : List Byte) : (bytes.foldl Console.press console).Good := by
  induction bytes generalizing console with
  | nil => exact hgood
  | cons byte rest ih => exact ih (hgood.press byte)

end

end Console

variable {console : Console}

section Reading

variable {input : Input} {target n : ℕ} {dst stream : List Byte} {replies : List (Reply Byte)}

theorem Input.Ordered.pop (hordered : input.Ordered) (hne : input.r ≠ input.w) :
    Input.Ordered { input with r := input.r + 1 } := by
  have hread := count_pop hne
  have hends : input.r ≠ input.e := by
    intro hsame
    have hzero := count_eq_zero.2 hsame
    have horder := hordered.order
    omega
  have hall := count_pop hends
  obtain ⟨horder, hroom⟩ := hordered
  constructor <;> dsimp only <;> omega

theorem unread_pop (hne : input.r ≠ input.w) :
    input.unread = input.buf (cell inputBuf input.r) ::
      Input.unread { input with r := input.r + 1 } := contents_pop hne

/-- The number of bytes that the call returns is the number it has copied. -/
theorem reply_eq (hlength : dst.length + n = target) :
    Reader.reply ⟨target, n, dst⟩ = ⟨target, dst⟩ := by
  rw [Reader.reply, ← hlength, Nat.add_sub_cancel, List.take_length]

/-- What a part of `consoleread` under the lock does. -/
structure Advances (stream : List Byte) (replies : List (Reply Byte)) (input : Input)
    (result : Input × Reader × Bool) : Prop where
  same : result.1 = { input with r := result.1.r }
  ordered : result.1.Ordered
  done : result.2.2 = true → Served newline endOfFile stream
    (replies ++ [result.2.1.reply]) result.1.unread
  asleep : result.2.2 = false → result.2.1.Good ∧ Served newline endOfFile stream replies
    (result.2.1.dst ++ result.1.unread)

/-- The mark is the next byte: it is an empty reply, or the bytes before it are one. -/
theorem advances_mark (hordered : input.Ordered) (hgood : Reader.Good ⟨target, n + 1, dst⟩)
    (hserved : Served newline endOfFile stream replies (dst ++ input.unread))
    (hne : input.r ≠ input.w) (hmark : input.buf (cell inputBuf input.r) = endOfFile) :
    Advances stream replies input
      ({ input with r := if n + 1 < target then input.r + 1 - 1 else input.r + 1 },
        ⟨target, n + 1, dst⟩, true) := by
  have hunread := unread_pop hne
  have hlength : dst.length + (n + 1) = target := hgood.length
  by_cases hbytes : n + 1 < target
  · rw [if_pos hbytes, UInt32.add_sub_cancel]
    refine ⟨rfl, hordered, ?_, nofun⟩
    intro _
    rw [reply_eq hlength]
    apply Served.bytes hserved
    · rw [← List.length_pos_iff]
      dsimp only
      omega
    · refine ⟨by dsimp only; omega, hgood.unmarked, ?_, Or.inr (Or.inr ?_)⟩
      · exact fun hmem => hgood.unbroken (List.mem_of_mem_dropLast hmem)
      · rw [hunread, hmark]
        rfl
  · rw [if_neg hbytes]
    refine ⟨rfl, hordered.pop hne, ?_, nofun⟩
    intro _
    have hempty : dst = [] := by
      rw [← List.length_eq_zero_iff]
      omega
    rw [reply_eq hlength, hempty]
    rw [hempty, List.nil_append, hunread, hmark] at hserved
    exact .mark hserved

theorem advances_newline (hordered : input.Ordered) (hgood : Reader.Good ⟨target, n + 1, dst⟩)
    (hserved : Served newline endOfFile stream replies (dst ++ input.unread))
    (hne : input.r ≠ input.w) (hline : input.buf (cell inputBuf input.r) = newline) :
    Advances stream replies input
      ({ input with r := input.r + 1 }, ⟨target, n, dst ++ [newline]⟩, true) := by
  have hlength : dst.length + (n + 1) = target := hgood.length
  refine ⟨rfl, hordered.pop hne, ?_, nofun⟩
  intro _
  have hcopied : (dst ++ [newline]).length + n = target := by
    rw [List.length_append, List.length_singleton]
    omega
  rw [unread_pop hne, hline, ← List.singleton_append, ← List.append_assoc] at hserved
  rw [reply_eq hcopied]
  apply Served.bytes hserved
  · exact List.append_ne_nil_of_right_ne_nil _ (List.cons_ne_nil _ _)
  · refine ⟨by dsimp only; omega, ?_, ?_, Or.inr (Or.inl List.getLast?_concat)⟩
    · rw [List.mem_append, List.mem_singleton]
      rintro (hmem | hlast)
      · exact hgood.unmarked hmem
      · exact absurd hlast (by decide)
    · rw [List.dropLast_concat]
      exact hgood.unbroken

theorem Reader.Good.copy (hgood : Reader.Good ⟨target, n + 1, dst⟩)
    (hline : c ≠ newline) (hmark : c ≠ endOfFile) : Reader.Good ⟨target, n, dst ++ [c]⟩ := by
  have hlength : dst.length + (n + 1) = target := hgood.length
  refine ⟨hgood.positive, ?_, ?_, ?_⟩ <;> dsimp only
  · rw [List.length_append, List.length_singleton]
    omega
  · rw [List.mem_append, List.mem_singleton]
    rintro (hmem | hlast)
    · exact hgood.unbroken hmem
    · exact hline hlast.symm
  · rw [List.mem_append, List.mem_singleton]
    rintro (hmem | hlast)
    · exact hgood.unmarked hmem
    · exact hmark hlast.symm

theorem advances_readLoop (hordered : input.Ordered) (hgood : Reader.Good ⟨target, n, dst⟩)
    (hserved : Served newline endOfFile stream replies (dst ++ input.unread)) :
    Advances stream replies input (readLoop target n dst input) := by
  induction n generalizing dst input with
  | zero =>
    have hlength : dst.length + 0 = target := hgood.length
    have hpositive : 0 < target := hgood.positive
    refine ⟨rfl, hordered, ?_, nofun⟩
    intro _
    rw [readLoop, reply_eq hlength]
    apply Served.bytes hserved
    · rw [← List.length_pos_iff]
      dsimp only
      omega
    · refine ⟨hlength.le, hgood.unmarked, ?_, Or.inl hlength⟩
      exact fun hmem => hgood.unbroken (List.mem_of_mem_dropLast hmem)
  | succ n ih =>
    rw [readLoop]
    by_cases hempty : input.r = input.w
    · rw [if_pos hempty]
      exact ⟨rfl, hordered, nofun, fun _ => ⟨hgood, hserved⟩⟩
    rw [if_neg hempty]
    by_cases hmark : input.buf (cell inputBuf input.r) = endOfFile
    · rw [if_pos hmark]
      exact advances_mark hordered hgood hserved hempty hmark
    rw [if_neg hmark]
    by_cases hline : input.buf (cell inputBuf input.r) = newline
    · rw [if_pos hline, hline]
      exact advances_newline hordered hgood hserved hempty hline
    rw [if_neg hline]
    rw [unread_pop hempty, ← List.singleton_append, ← List.append_assoc] at hserved
    obtain ⟨hsame, hordered', hdone, hasleep⟩ :=
      ih (hordered.pop hempty) (hgood.copy hline hmark) hserved
    exact ⟨hsame, hordered', hdone, hasleep⟩

theorem Console.Good.advance {reader : Reader} (hgood : console.Good) (hreader : reader.Good)
    (hserved : Served newline endOfFile (edited console.keys).committed console.replies
      (reader.dst ++ console.input.unread)) : (console.advance reader).Good := by
  obtain ⟨hsame, hordered, hdone, hasleep⟩ := advances_readLoop hgood.ordered hreader hserved
  rw [Console.advance]
  generalize readLoop reader.target reader.n reader.dst console.input = result at *
  have hline : result.1.line = console.input.line := by
    rw [hsame]
    rfl
  have hunbroken : newline ∉ result.1.line := by
    rw [hline]
    exact hgood.unbroken
  split_ifs with hleft
  · exact ⟨hordered, hline.trans hgood.line, hunbroken, hdone hleft, nofun⟩
  · rw [Bool.not_eq_true] at hleft
    obtain ⟨hgoodReader, hrest⟩ := hasleep hleft
    refine ⟨hordered, hline.trans hgood.line, hunbroken, hrest, ?_⟩
    intro other hother
    cases hother
    exact hgoodReader

theorem Console.Good.step (hgood : console.Good) (action : Action) :
    (step console action).Good := by
  cases action with
  | consoleintr bytes => exact hgood.press_all bytes
  | consoleread size =>
    rw [ConsoleInput.step]
    cases hreader : console.reader with
    | some reader => exact hgood
    | none =>
      apply hgood.advance
      · exact ⟨size.pos, Nat.zero_add _, List.not_mem_nil, List.not_mem_nil⟩
      · have hserved := hgood.served
        rwa [Console.got, hreader] at hserved
  | resume =>
    rw [ConsoleInput.step]
    cases hreader : console.reader with
    | none => exact hgood
    | some reader =>
      apply hgood.advance (hgood.reading reader hreader)
      have hserved := hgood.served
      rwa [Console.got, hreader] at hserved

theorem good_start : start.Good where
  ordered := ⟨by decide, by decide⟩
  line := rfl
  unbroken := List.not_mem_nil
  served := .start
  reading := nofun

theorem good_run (actions : List Action) : (run actions).Good := by
  have hall : ∀ console : Console, console.Good → (actions.foldl step console).Good := by
    induction actions with
    | nil => exact fun _ hgood => hgood
    | cons action rest ih => exact fun console hgood => ih _ (hgood.step action)
  exact hall start good_start

end Reading

end Xv6Users.ConsoleInput
