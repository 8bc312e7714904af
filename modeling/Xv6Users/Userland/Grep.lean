import Xv6Users.Userland.Ulib

/-!
# grep

`user/grep.c`: the matcher for `^`, `.`, `*` and `$`, with its meaning, and the loop
that cuts a stream of reads into lines.
-/

namespace Xv6Users.Grep

open Ulib List Option

def caret : Byte := 94
def dollar : Byte := 36
def star : Byte := 42
def dot : Byte := 46

/-- The loop of `matchstar`; `here` is `matchhere` on the rest of the pattern. -/
def matchstar (c : Byte) (here : List Byte → Bool) : List Byte → Bool
  | [] => here []
  | t :: text => here (t :: text) || ((t == c || c == dot) && matchstar c here text)

def matchhere : List Byte → List Byte → Bool
  | [] => fun _ => true
  | [c] => fun text =>
    if c = dollar then text.isEmpty
    else match text with
      | [] => false
      | t :: _ => c == dot || c == t
  | c :: d :: re => fun text =>
    if d = star then matchstar c (matchhere re) text
    else match text with
      | [] => false
      | t :: text => (c == dot || c == t) && matchhere (d :: re) text

/-- The loop of `match` over the ends of the text, the empty one included. -/
def matchLoop (re : List Byte) : List Byte → Bool
  | [] => matchhere re []
  | t :: text => matchhere re (t :: text) || matchLoop re text

def match' (re text : List Byte) : Bool :=
  if re.head? = some caret then matchhere re.tail text else matchLoop re text

/-- What a pattern is made of. -/
inductive Item where
  | many (c : Byte)
  | one (c : Byte)
  | ending
  deriving DecidableEq

/-- A pattern read as items, behind its `^`. -/
def items : List Byte → List Item
  | [] => []
  | [c] => if c = dollar then [.ending] else [.one c]
  | c :: d :: re => if d = star then .many c :: items re else .one c :: items (d :: re)

/-- `.` stands for any byte. -/
def Stands (c t : Byte) : Prop :=
  c = dot ∨ c = t

/-- An item matches `word` where `rest` follows it. -/
def Item.Matches (word rest : List Byte) : Item → Prop
  | many c => ∀ t ∈ word, Stands c t
  | one c => ∃ t, word = [t] ∧ Stands c t
  | ending => word = [] ∧ rest = []

def ItemsMatch : List Item → List Byte → List Byte → Prop
  | [], word, _ => word = []
  | item :: items, word, rest =>
    ∃ first second, word = first ++ second ∧ item.Matches first (second ++ rest) ∧
      ItemsMatch items second rest

def Starts (items : List Item) (text : List Byte) : Prop :=
  ∃ word rest, text = word ++ rest ∧ ItemsMatch items word rest

theorem starts_nil (text : List Byte) : Starts [] text :=
  ⟨[], text, rfl, rfl⟩

variable {text : List Byte} {c : Byte}

theorem starts_cons {item : Item} {items : List Item} :
    Starts (item :: items) text ↔ ∃ first later, text = first ++ later ∧ item.Matches first later ∧
        Starts items later := by
  constructor
  · rintro ⟨_, rest, rfl, first, second, rfl, hitem, hitems⟩
    exact ⟨first, second ++ rest, append_assoc .., hitem, second, rest, rfl, hitems⟩
  · rintro ⟨first, _, rfl, hitem, second, rest, rfl, hitems⟩
    exact ⟨first ++ second, rest, (append_assoc ..).symm, first, second, rfl, hitem, hitems⟩

theorem starts_one {items : List Item} :
    Starts (.one c :: items) text ↔
      ∃ t later, text = t :: later ∧ Stands c t ∧ Starts items later := by
  rw [starts_cons]
  constructor
  · rintro ⟨_, later, rfl, ⟨t, rfl, hstands⟩, hlater⟩
    exact ⟨t, later, rfl, hstands, hlater⟩
  · rintro ⟨t, later, rfl, hstands, hlater⟩
    exact ⟨[t], later, rfl, ⟨t, rfl, hstands⟩, hlater⟩

theorem matchstar_iff {here : List Byte → Bool} {items : List Item}
    (hhere : ∀ text, here text = true ↔ Starts items text) (text : List Byte) :
    matchstar c here text = true ↔ Starts (.many c :: items) text := by
  rw [starts_cons]
  induction text with
  | nil =>
    rw [matchstar, hhere]
    constructor
    · exact fun hstart => ⟨[], [], rfl, by simp [Item.Matches], hstart⟩
    · rintro ⟨first, later, hnil, -, hstart⟩
      rwa [(append_eq_nil_iff.1 hnil.symm).2] at hstart
  | cons t text ih =>
    have hstands : (t == c || c == dot) = true ↔ Stands c t := by
      rw [Bool.or_eq_true, beq_iff_eq, beq_iff_eq, Stands, or_comm, @eq_comm _ t]
    rw [matchstar, Bool.or_eq_true, Bool.and_eq_true, hhere, ih, hstands]
    constructor
    · rintro (hstart | ⟨ht, first, later, rfl, hfirst, hstart⟩)
      · exact ⟨[], t :: text, rfl, by simp [Item.Matches], hstart⟩
      · exact ⟨t :: first, later, rfl, forall_mem_cons.2 ⟨ht, hfirst⟩, hstart⟩
    · rintro ⟨first, later, htext, hfirst, hstart⟩
      cases first with
      | nil => exact .inl (by rwa [htext])
      | cons s first =>
        cases htext
        obtain ⟨ht, hfirst⟩ := forall_mem_cons.1 hfirst
        exact .inr ⟨ht, first, later, rfl, hfirst, hstart⟩

/-- `matchhere` decides whether the items of a pattern match at the start. -/
theorem matchhere_iff (re text : List Byte) :
    matchhere re text = true ↔ Starts (items re) text := by
  induction re using items.induct generalizing text with
  | case1 => simp [matchhere, items, starts_nil]
  | case2 => cases text <;> simp [matchhere, items, starts_cons, Item.Matches, starts_nil]
  | case3 c hc =>
    simp only [matchhere, items, hc, if_false, starts_one, starts_nil]
    cases text <;> simp [Stands]
  | case4 c re ih => exact matchstar_iff ih text
  | case5 c d re hd ih =>
    simp only [matchhere, items, hd, if_false, starts_one]
    cases text <;> simp [Stands, ih]

theorem matchLoop_iff (re text : List Byte) :
    matchLoop re text = true ↔
      ∃ before later, text = before ++ later ∧ Starts (items re) later := by
  induction text with
  | nil => simp [matchLoop, matchhere_iff]
  | cons t text ih =>
    rw [matchLoop, Bool.or_eq_true, matchhere_iff, ih]
    constructor
    · rintro (hstart | ⟨before, later, rfl, hstart⟩)
      · exact ⟨[], t :: text, rfl, hstart⟩
      · exact ⟨t :: before, later, rfl, hstart⟩
    · rintro ⟨before, later, htext, hstart⟩
      cases before with
      | nil => exact .inl (by rwa [htext])
      | cons s before =>
        cases htext
        exact .inr ⟨before, later, rfl, hstart⟩

/-- `match` finds a substring that the pattern matches, at the start of the text if
the pattern begins with `^`. -/
theorem match_iff (re text : List Byte) :
    match' re text = true ↔
      ∃ before word rest, text = before ++ (word ++ rest) ∧
        if re.head? = some caret then before = [] ∧ ItemsMatch (items re.tail) word rest
        else ItemsMatch (items re) word rest := by
  rw [match']
  split_ifs
  · rw [matchhere_iff]
    constructor
    · rintro ⟨word, rest, rfl, hmatch⟩
      exact ⟨[], word, rest, rfl, rfl, hmatch⟩
    · rintro ⟨_, word, rest, rfl, rfl, hmatch⟩
      exact ⟨word, rest, rfl, hmatch⟩
  · rw [matchLoop_iff]
    constructor
    · rintro ⟨before, _, rfl, word, rest, rfl, hmatch⟩
      exact ⟨before, word, rest, rfl, hmatch⟩
    · rintro ⟨before, word, rest, rfl, hmatch⟩
      exact ⟨before, _, rfl, word, rest, rfl, hmatch⟩

/-- The search for newlines from `p` on; `line` is what lies between `p` and the place
of the search.  The result is what is written and what lies behind the last `p`. -/
def lineLoop (pattern line : List Byte) : List Byte → List Byte × List Byte
  | [] => ([], line)
  | c :: text =>
    if c = newline then
      let rest := lineLoop pattern [] text
      ((if match' pattern line then line ++ [newline] else []) ++ rest.1, rest.2)
    else lineLoop pattern (line ++ [c]) text

/-- The loop of `grep` over the results of its reads.  `kept` are the first `m` bytes
of the buffer, and a read returns at most `sizeof(buf)-m-1` bytes.  A buffer in which
no newline was found is dropped whole (`p == buf`). -/
def grepLoop (pattern kept : List Byte) : List (List Byte) → Option (List Byte)
  | [] => some []
  | chunk :: chunks =>
    if 1024 - kept.length - 1 < chunk.length then none
    else do
      let buf := kept ++ chunk
      let found := lineLoop pattern [] buf
      let kept := if found.2.length = buf.length then [] else found.2
      let rest ← grepLoop pattern kept chunks
      some (found.1 ++ rest)

def grep (pattern : List Byte) (chunks : List (List Byte)) : Option (List Byte) :=
  grepLoop pattern [] chunks

def terminated (lines : List (List Byte)) : List Byte :=
  lines.flatMap (· ++ [newline])

/-- A text cut at its newlines. -/
structure Cut (text : List Byte) (lines : List (List Byte)) (last : List Byte) : Prop where
  text : text = terminated lines ++ last
  lines : ∀ line ∈ lines, newline ∉ line
  last : newline ∉ last

theorem exists_cut (text : List Byte) : ∃ lines last, Cut text lines last := by
  induction text with
  | nil => exact ⟨[], [], rfl, by simp, by simp⟩
  | cons c text ih =>
    obtain ⟨lines, last, rfl, hlines, hlast⟩ := ih
    by_cases hc : c = newline
    · exact ⟨[] :: lines, last, by simp [terminated, hc], by simpa using hlines, hlast⟩
    · cases lines with
      | nil => exact ⟨[], c :: last, rfl, by simp, by simp [Ne.symm hc, hlast]⟩
      | cons line lines =>
        obtain ⟨hline, hlines⟩ := forall_mem_cons.1 hlines
        exact ⟨(c :: line) :: lines, last, by simp [terminated],
          by simpa [Ne.symm hc, hline] using hlines, hlast⟩

section Cuts

variable {text rest last last' : List Byte} {lines lines' : List (List Byte)}

theorem Cut.unique (hcut : Cut text lines last) (hcut' : Cut text lines' last') :
    lines = lines' ∧ last = last' := by
  have hsplit := splitOn_lines hcut.lines hcut.last
  rw [show lines.flatMap (· ++ [newline]) ++ last = terminated lines' ++ last' from
    hcut.text.symm.trans hcut'.text, terminated, splitOn_lines hcut'.lines hcut'.last] at hsplit
  have hboth := append_inj' hsplit.symm rfl
  exact ⟨hboth.1, singleton_inj.1 hboth.2⟩

/-- The text goes on: what follows the last newline is cut anew. -/
theorem Cut.append (hcut : Cut text lines last) (hrest : Cut (last ++ rest) lines' last') :
    Cut (text ++ rest) (lines ++ lines') last' where
  text := by
    rw [hcut.text, append_assoc, hrest.text, terminated, terminated, terminated,
      flatMap_append, append_assoc]
  lines := forall_mem_append.2 ⟨hcut.lines, hrest.lines⟩
  last := hrest.last

theorem Cut.free (htext : newline ∉ text) : Cut text [] text :=
  ⟨rfl, by simp, htext⟩

theorem Cut.mem_iff (hcut : Cut text lines last) : newline ∈ text ↔ lines ≠ [] := by
  rw [hcut.text]
  cases lines <;> simp [terminated, hcut.last]

theorem lineLoop_append (pattern line : List Byte) {word : List Byte} (hword : newline ∉ word)
    (text : List Byte) :
    lineLoop pattern line (word ++ text) = lineLoop pattern (line ++ word) text := by
  induction word generalizing line with
  | nil => simp
  | cons c word ih =>
    obtain ⟨hc, hword⟩ := not_or.1 (mem_cons.not.1 hword)
    rw [cons_append, lineLoop, if_neg (Ne.symm hc), ih _ hword, append_assoc]
    rfl

def selected (pattern : List Byte) (lines : List (List Byte)) : List Byte :=
  terminated (lines.filter (match' pattern))

theorem Cut.lineLoop (pattern : List Byte) (hcut : Cut text lines last) :
    lineLoop pattern [] text = (selected pattern lines, last) := by
  obtain ⟨rfl, hlines, hlast⟩ := hcut
  induction lines with
  | nil => simpa [Grep.lineLoop, selected, terminated] using lineLoop_append pattern [] hlast []
  | cons line lines ih =>
    obtain ⟨hline, hlines⟩ := forall_mem_cons.1 hlines
    have hstep := lineLoop_append pattern [] hline (newline :: (terminated lines ++ last))
    simp only [nil_append, Grep.lineLoop, if_true, ih hlines] at hstep
    simp only [terminated, flatMap_cons, append_assoc, cons_append, nil_append] at hstep ⊢
    rw [hstep, selected, selected, filter_cons]
    split_ifs <;> simp [terminated]

end Cuts

/-- What a stream of short lines can be read as: portions that are not empty and that
fit the buffer. -/
structure Stream (lines : List (List Byte)) (last : List Byte) (chunks : List (List Byte)) :
    Prop where
  cut : Cut chunks.flatten lines last
  short : ∀ line ∈ last :: lines, line.length < 1000 ∧ 0 ∉ line
  nonempty : ∀ chunk ∈ chunks, chunk ≠ []
  served : ∀ pattern, (grep pattern chunks).isSome

/-- A read without a newline is the last one, or followed by no newline. -/
def Finished : List (List Byte) → Prop
  | [] => True
  | chunk :: chunks => (newline ∈ chunk ∨ newline ∉ chunks.flatten) ∧ Finished chunks

theorem finished_of_free {chunks : List (List Byte)} (hfree : newline ∉ chunks.flatten) :
    Finished chunks := by
  induction chunks with
  | nil => trivial
  | cons chunk chunks ih =>
    have hrest : newline ∉ chunks.flatten := fun hmem => hfree (by simp [hmem])
    exact ⟨.inr hrest, ih hrest⟩

variable {chunk : List Byte}

section Runs

variable {pattern kept last output : List Byte} {lines chunks : List (List Byte)}

/-- One read that contains a newline: its lines are served and the rest is kept. -/
theorem grepLoop_newline (hnewline : newline ∈ chunk)
    (hloop : grepLoop pattern kept (chunk :: chunks) = some output)
    (hcut : Cut (kept ++ (chunk :: chunks).flatten) lines last) :
    ∃ first kept' later rest, lines = first ++ later ∧ newline ∉ kept' ∧
      output = selected pattern first ++ rest ∧
      grepLoop pattern kept' chunks = some rest ∧ Cut (kept' ++ chunks.flatten) later last := by
  obtain ⟨first, kept', hbuf⟩ := exists_cut (kept ++ chunk)
  obtain ⟨later, last', hrest⟩ := exists_cut (kept' ++ chunks.flatten)
  have hboth := hbuf.append hrest
  rw [append_assoc] at hboth
  obtain ⟨rfl, rfl⟩ := hcut.unique hboth
  have hshort : kept'.length ≠ (kept ++ chunk).length := by
    have hne := hbuf.mem_iff.1 (mem_append_right kept hnewline)
    rw [hbuf.text]
    cases first with
    | nil => exact absurd rfl hne
    | cons line first => simp [terminated]; omega
  rw [grepLoop] at hloop
  split_ifs at hloop
  simp only [hbuf.lineLoop, hshort, if_false, bind_eq_bind, bind_eq_some_iff, some_inj] at hloop
  obtain ⟨rest, hrun, rfl⟩ := hloop
  exact ⟨first, kept', later, rest, rfl, hbuf.last, rfl, hrun, hrest⟩

/-- One read without a newline: everything is dropped. -/
theorem grepLoop_dropped (hkept : newline ∉ kept) (hnewline : newline ∉ chunk)
    (hloop : grepLoop pattern kept (chunk :: chunks) = some output) :
    grepLoop pattern [] chunks = some output := by
  have hbuf : Cut (kept ++ chunk) [] (kept ++ chunk) := .free (by simp [hkept, hnewline])
  rw [grepLoop] at hloop
  split_ifs at hloop
  simpa [hbuf.lineLoop, selected, terminated] using hloop

theorem grepLoop_finished (hfinished : Finished chunks) (hkept : newline ∉ kept)
    (hloop : grepLoop pattern kept chunks = some output)
    (hcut : Cut (kept ++ chunks.flatten) lines last) : output = selected pattern lines := by
  induction chunks generalizing kept output lines last with
  | nil =>
    rw [flatten_nil, append_nil] at hcut
    obtain ⟨rfl, -⟩ := hcut.unique (.free hkept)
    cases hloop
    rfl
  | cons chunk chunks ih =>
    obtain ⟨hchunk, hfinished⟩ := hfinished
    by_cases hnewline : newline ∈ chunk
    · obtain ⟨first, kept', later, rest, rfl, hkept', rfl, hrun, hrest⟩ :=
        grepLoop_newline hnewline hloop hcut
      rw [ih hfinished hkept' hrun hrest, selected, selected, selected, terminated,
        terminated, terminated, filter_append, flatMap_append]
    · have hfree := hchunk.resolve_left hnewline
      obtain ⟨rfl, -⟩ := hcut.unique (.free (by simp [hkept, hnewline, hfree]))
      exact ih hfinished (by simp) (grepLoop_dropped hkept hnewline hloop) (.free hfree)

/-- The empty pattern matches every line. -/
theorem selected_nil (lines : List (List Byte)) : selected [] lines = terminated lines := by
  have hall : ∀ line, match' [] line = true := fun line => by
    cases line <;> simp [match', matchLoop, matchhere]
  rw [selected, filter_eq_self.2 fun line _ => hall line]

/-- With the empty pattern a dropped part of a line is missing from the output. -/
theorem length_grepLoop (hnonempty : ∀ chunk ∈ chunks, chunk ≠ []) (hkept : newline ∉ kept)
    (hloop : grepLoop [] kept chunks = some output)
    (hcut : Cut (kept ++ chunks.flatten) lines last) :
    output.length ≤ (terminated lines).length ∧
      (¬ Finished chunks → output.length < (terminated lines).length) := by
  induction chunks generalizing kept output lines last with
  | nil =>
    cases hloop
    exact ⟨Nat.zero_le _, fun hnot => absurd trivial hnot⟩
  | cons chunk chunks ih =>
    obtain ⟨hchunk, hnonempty⟩ := forall_mem_cons.1 hnonempty
    by_cases hnewline : newline ∈ chunk
    · obtain ⟨first, kept', later, rest, rfl, hkept', rfl, hrun, hrest⟩ :=
        grepLoop_newline hnewline hloop hcut
      have hlength := ih hnonempty hkept' hrun hrest
      rw [selected_nil, terminated, terminated, flatMap_append, length_append, length_append]
      refine ⟨Nat.add_le_add_left hlength.1 _, fun hnot => Nat.add_lt_add_left ?_ _⟩
      exact hlength.2 fun hfinished => hnot ⟨.inl hnewline, hfinished⟩
    · obtain ⟨lines', last', hrest⟩ := exists_cut chunks.flatten
      have hrun := grepLoop_dropped hkept hnewline hloop
      have hlength := (ih hnonempty (by simp) hrun hrest).1
      cases lines' with
      | nil =>
        have hfree : newline ∉ chunks.flatten := fun hmem => hrest.mem_iff.1 hmem rfl
        refine ⟨hlength.trans (Nat.zero_le _), fun hnot => ?_⟩
        exact absurd ⟨.inr hfree, finished_of_free hfree⟩ hnot
      | cons line lines' =>
        have hlonger : Cut (kept ++ (chunk :: chunks).flatten)
            ((kept ++ chunk ++ line) :: lines') last' := by
          obtain ⟨hline, hlines⟩ := forall_mem_cons.1 hrest.lines
          refine ⟨?_, forall_mem_cons.2 ⟨by simp [hkept, hnewline, hline], hlines⟩,
            hrest.last⟩
          simp [hrest.text, terminated]
        obtain ⟨rfl, -⟩ := hcut.unique hlonger
        have hpositive := length_pos_iff.2 hchunk
        have hstrict : output.length < (terminated ((kept ++ chunk ++ line) :: lines')).length := by
          simp only [terminated, flatMap_cons, length_append] at hlength ⊢
          omega
        exact ⟨hstrict.le, fun _ => hstrict⟩

end Runs

/-- `grep` writes the matching lines for every pattern exactly if no read that lies
within a line is followed by the line's end. -/
theorem grep_complete_iff {lines chunks : List (List Byte)} {last : List Byte}
    (hstream : Stream lines last chunks) :
    (∀ pattern, grep pattern chunks = some (selected pattern lines)) ↔ Finished chunks := by
  constructor
  · intro hcomplete
    by_contra hnot
    have hlength := (length_grepLoop hstream.nonempty (by simp) (hcomplete []) hstream.cut).2 hnot
    rw [selected_nil] at hlength
    exact lt_irrefl _ hlength
  · intro hfinished pattern
    obtain ⟨output, hrun⟩ := isSome_iff_exists.1 (hstream.served pattern)
    rw [hrun, grepLoop_finished hfinished (by simp) hrun hstream.cut]

/-- A line read in two portions, the first of them without a newline. -/
theorem stream_abc : Stream [str "abc"] [] [str "ab", str "c\n"] where
  cut := ⟨by decide +kernel, by decide +kernel, by decide⟩
  short := by decide +kernel
  nonempty := by decide +kernel
  served _ := rfl

theorem grep_loses_line :
    Stream [str "abc"] [] [str "ab", str "c\n"] ∧
      selected (str "ab") [str "abc"] = str "abc\n" ∧
      grep (str "ab") [str "ab", str "c\n"] = some [] ∧
      grep (str "ab") [str "abc\n"] = some (str "abc\n") :=
  ⟨stream_abc, by decide +kernel, by decide +kernel, by decide +kernel⟩

theorem grep_complete_iff_abc :
    Stream [str "abc"] [] [str "ab", str "c\n"] ∧
      ((∀ pattern, grep pattern [str "ab", str "c\n"] = some (selected pattern [str "abc"])) ↔
        Finished [str "ab", str "c\n"]) := ⟨stream_abc, grep_complete_iff stream_abc⟩

end Xv6Users.Grep
