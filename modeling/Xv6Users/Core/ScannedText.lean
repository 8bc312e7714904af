import Mathlib

/-!
# Scanning text up to a stopping symbol

A C routine that walks a pointer up to a delimiter sees one unbounded stretch
of memory, of which only a finite part is known.  Scanning therefore returns
`none` when it runs off the known part.  Text that contains no stopping symbol
is always read back exactly, whatever follows the delimiter.
-/

namespace Xv6Users.ScannedText

open List Option

variable {α : Type*}

/-- Read up to the first symbol satisfying `stop`.  The second component starts
at that symbol. -/
def scanUntil (stop : α → Bool) : List α → Option (List α × List α)
  | [] => none
  | symbol :: rest =>
    if stop symbol then some ([], symbol :: rest)
    else (scanUntil stop rest).map fun found => (symbol :: found.1, found.2)

theorem scanUntil_append {stop : α → Bool} {field : List α} {symbol : α}
    (hfield : ∀ c ∈ field, stop c = false) (hstop : stop symbol = true) (rest : List α) :
    scanUntil stop (field ++ symbol :: rest) = some (field, symbol :: rest) := by
  induction field with
  | nil => simp [scanUntil, hstop]
  | cons head tail ih =>
    have hhead : stop head = false := hfield head (by simp)
    have htail : ∀ c ∈ tail, stop c = false := fun c hc =>
      hfield c (.tail head hc)
    simp [scanUntil, hhead, ih htail]

/-- What a successful scan returns: the text before the first stopping symbol
and the memory from that symbol on. -/
theorem scanUntil_eq_some {stop : α → Bool} {memory field rest : List α}
    (hscan : scanUntil stop memory = some (field, rest)) :
    memory = field ++ rest ∧ (∀ c ∈ field, stop c = false) ∧
      ∃ symbol tail, rest = symbol :: tail ∧ stop symbol = true := by
  induction memory generalizing field with
  | nil => simp [scanUntil] at hscan
  | cons head tail ih =>
    by_cases hhead : stop head = true
    · simp only [scanUntil, hhead, if_true, Option.some.injEq, Prod.mk.injEq] at hscan
      obtain ⟨rfl, rfl⟩ := hscan
      exact ⟨rfl, by simp, head, tail, rfl, hhead⟩
    · rw [scanUntil, if_neg hhead, map_eq_some_iff] at hscan
      obtain ⟨⟨found, after⟩, hfound, hpair⟩ := hscan
      obtain ⟨rfl, rfl⟩ := Prod.mk.inj hpair
      obtain ⟨hsplit, hfree, hrest⟩ := ih hfound
      refine ⟨by simp [hsplit], ?_, hrest⟩
      intro c hc
      rcases mem_cons.1 hc with rfl | hc
      · simpa using hhead
      · exact hfree c hc

/-! ## Pieces between separators -/

theorem mem_splitOn [BEq α] [LawfulBEq α] {separator : α}
    {text piece : List α} (hpiece : piece ∈ text.splitOn separator) :
    separator ∉ piece ∧ piece.Sublist text := by
  induction text generalizing piece with
  | nil =>
    have hnil : piece = [] := by simpa using hpiece
    simp [hnil]
  | cons c rest ih =>
    rw [splitOn_cons_eq_if_modifyHead] at hpiece
    split at hpiece
    case isTrue =>
      rcases mem_cons.1 hpiece with rfl | hpiece
      · simp
      · exact ⟨(ih hpiece).1, (ih hpiece).2.cons c⟩
    case isFalse hc =>
      -- The first piece of the rest grows by `c`; the others are unchanged.
      obtain ⟨first, tail, hsplit⟩ := exists_cons_of_ne_nil (splitOn_ne_nil separator rest)
      rw [hsplit, modifyHead_cons] at hpiece
      rcases mem_cons.1 hpiece with rfl | hpiece
      · have hfirst := ih (hsplit ▸ mem_cons_self)
        refine ⟨?_, hfirst.2.cons_cons c⟩
        rintro (_ | ⟨_, hmem⟩)
        · simp at hc
        · exact hfirst.1 hmem
      · have hrest := ih (hsplit ▸ mem_cons_of_mem first hpiece)
        exact ⟨hrest.1, hrest.2.cons c⟩

theorem exists_piece_of_mem [BEq α] [LawfulBEq α] {separator c : α}
    {text : List α} (hmem : c ∈ text) (hne : c ≠ separator) :
    ∃ piece ∈ text.splitOn separator, c ∈ piece := by
  induction text with
  | nil => simp at hmem
  | cons first rest ih =>
    obtain ⟨piece, tail, hsplit⟩ := exists_cons_of_ne_nil (splitOn_ne_nil separator rest)
    rw [splitOn_cons_eq_if_modifyHead]
    split
    case isTrue hfirst =>
      have hrest : c ∈ rest := by
        rcases mem_cons.1 hmem with rfl | hrest
        · simp at hfirst
          exact absurd hfirst hne
        · exact hrest
      obtain ⟨found, hfound, hc⟩ := ih hrest
      exact ⟨found, mem_cons_of_mem [] hfound, hc⟩
    case isFalse =>
      rw [hsplit, modifyHead_cons]
      rcases mem_cons.1 hmem with rfl | hrest
      · exact ⟨c :: piece, by simp, by simp⟩
      · obtain ⟨found, hfound, hc⟩ := ih hrest
        rw [hsplit] at hfound
        rcases mem_cons.1 hfound with rfl | hfound
        · exact ⟨first :: found, by simp, by simp [hc]⟩
        · exact ⟨found, mem_cons_of_mem _ hfound, hc⟩

theorem length_splitOn_le [BEq α] (separator : α) (text : List α) :
    (text.splitOn separator).length ≤ text.length + 1 := by
  induction text with
  | nil => simp
  | cons c rest ih =>
    rw [splitOn_cons_eq_if_modifyHead]
    split
    · simpa using ih
    · rw [length_modifyHead, length_cons]
      omega

variable {β : Type*}

/-- A fallible map over a list succeeds when it succeeds at every element. -/
theorem mapM_eq_some_iff {f : α → Option β} {inputs : List α} {outputs : List β} :
    inputs.mapM f = some outputs ↔
      List.Forall₂ (fun input output => f input = some output) inputs outputs := by
  induction inputs generalizing outputs with
  | nil => simp [eq_comm]
  | cons input inputs ih =>
    simp only [List.mapM_cons, Option.bind_eq_bind, Option.bind_eq_some_iff,
      Option.pure_def, Option.some.injEq]
    constructor
    · rintro ⟨output, houtput, rest, hrest, rfl⟩
      exact List.Forall₂.cons houtput (ih.1 hrest)
    · rintro (_ | ⟨houtput, hrest⟩)
      exact ⟨_, houtput, _, ih.2 hrest, rfl⟩

theorem mapM_total (f : α → β) (inputs : List α) :
    inputs.mapM (fun input => some (f input)) = some (inputs.map f) := mapM_pure

theorem mapM_map {γ : Type} (f : α → Option β) (g : β → γ) (inputs : List α) :
    inputs.mapM (fun input => (f input).map g) = (inputs.mapM f).map (map g) := by
  induction inputs with
  | nil => rfl
  | cons head tail ih =>
    rw [mapM_cons, mapM_cons, ih]
    cases f head <;> cases tail.mapM f <;> rfl

theorem mapM_eq_map_iff {f : α → Option β} {g : α → β} {inputs : List α} :
    inputs.mapM f = some (inputs.map g) ↔ ∀ input ∈ inputs, f input = some (g input) := by
  rw [mapM_eq_some_iff, forall₂_map_right_iff, forall₂_same]

/-- The results of a fallible map, with a total function in its place. -/
theorem eq_map_of_mapM {f : α → Option β} {g : α → β} {inputs : List α}
    {outputs : List β} (hmap : inputs.mapM f = some outputs)
    (hg : ∀ input output, f input = some output → g input = output) : outputs = inputs.map g := by
  have hall := mapM_eq_some_iff.1 hmap
  clear hmap
  induction hall with
  | nil => rfl
  | cons hhead _ ih => rw [map_cons, hg _ _ hhead, ih]

theorem exists_of_mem_forall₂ {rel : α → β → Prop} {inputs : List α}
    {outputs : List β} (hall : List.Forall₂ rel inputs outputs) {input : α}
    (hmem : input ∈ inputs) : ∃ output ∈ outputs, rel input output := by
  induction hall with
  | nil => simp at hmem
  | cons hhead _ ih =>
    rcases mem_cons.1 hmem with rfl | hmem
    · exact ⟨_, by simp, hhead⟩
    · obtain ⟨output, houtput, hrel⟩ := ih hmem
      exact ⟨output, mem_cons_of_mem _ houtput, hrel⟩

theorem exists_of_mem_mapM {f : α → Option β} {inputs : List α}
    {outputs : List β} (hmap : inputs.mapM f = some outputs) {output : β}
    (hmem : output ∈ outputs) : ∃ input ∈ inputs, f input = some output :=
  exists_of_mem_forall₂ (mapM_eq_some_iff.1 hmap).flip hmem

end Xv6Users.ScannedText
