import Xv6Users.Core.Contracts

/-!
# Entries given to a journal

A part of the state is a journal that operations only add entries to, and that has no
influence on what they do unless they stop.  Then the set of entries that an operation
gives to it is a property of the operation and of the rest of the state.
-/

namespace Xv6Users.Journal

open Contracts

variable {State Stop Entry α β : Type} {put : State → List Entry → State} {state : State}

/-- An operation that returns has one result and gives the same entries to the journal,
whatever the journal holds before. -/
def Gives (put : State → List Entry → State) (op : Op State Stop α) (state : State)
    (post : α → Finset Entry → Prop) : Prop :=
  (∀ journal result final, op (put state journal) ≠ .done result final) ∨
    ∃ result state' given, post result given ∧ ∀ journal result' final,
      op (put state journal) = .done result' final →
        result' = result ∧ ∃ journal', final = put state' journal' ∧
          ∀ entry, entry ∈ journal' ↔ entry ∈ journal ∨ entry ∈ given

variable {post post' : α → Finset Entry → Prop}

theorem Gives.halt (reason : Stop) : Gives put (Op.halt reason : Op State Stop α) state post :=
  .inl fun _ _ _ => nofun

theorem Gives.pure {result : α} (hpost : post result ∅) :
    Gives put (pure result : Op State Stop α) state post := by
  refine .inr ⟨result, state, ∅, hpost, ?_⟩
  intro journal result' final hdone
  cases hdone
  exact ⟨rfl, journal, rfl, fun entry => by simp⟩

/-- A change of the rest of the state. -/
theorem Gives.modify {change : State → State} {post : Unit → Finset Entry → Prop}
    (hchange : ∀ journal, change (put state journal) = put (change state) journal)
    (hpost : post () ∅) : Gives put (Op.modify change : Op State Stop Unit) state post := by
  refine .inr ⟨(), change state, ∅, hpost, ?_⟩
  intro journal result' final hdone
  cases hdone
  exact ⟨rfl, journal, hchange journal, fun entry => by simp⟩

theorem Gives.mono {op : Op State Stop α} (hgives : Gives put op state post)
    (hpost : ∀ result given, post result given → post' result given) :
    Gives put op state post' := by
  cases hgives with
  | inl hnever => exact .inl hnever
  | inr hreturns =>
    obtain ⟨result, state', given, hresult, hdone⟩ := hreturns
    exact .inr ⟨result, state', given, hpost result given hresult, hdone⟩

/-- What is read off the rest of the state. -/
theorem Gives.gets_bind {read : State → β} {next : β → Op State Stop α}
    (hread : ∀ journal, read (put state journal) = read state)
    (hnext : Gives put (next (read state)) state post) :
    Gives put (Op.gets read >>= next) state post := by
  have hsame : ∀ journal, (Op.gets read >>= next) (put state journal) =
      next (read state) (put state journal) := by
    intro journal
    change next (read (put state journal)) (put state journal) = _
    rw [hread]
  cases hnext with
  | inl hnever =>
    refine .inl fun journal => ?_
    rw [hsame]
    exact hnever journal
  | inr hreturns =>
    obtain ⟨result, state', given, hresult, hdone⟩ := hreturns
    refine .inr ⟨result, state', given, hresult, fun journal => ?_⟩
    rw [hsame]
    exact hdone journal

/-- The entries of a sequence are those of its parts. -/
theorem Gives.bind [DecidableEq Entry] {first : Op State Stop β} {next : β → Op State Stop α}
    {front : β → Finset Entry → Prop} (hfirst : Gives put first state front)
    (hnext : ∀ value middle given, front value given →
      Gives put (next value) middle fun result given' => post result (given ∪ given')) :
    Gives put (first >>= next) state post := by
  cases hfirst with
  | inl hnever =>
    refine .inl fun journal result final hdone => ?_
    obtain ⟨value, middle, hdone', -⟩ := Op.bind_eq_done.1 hdone
    exact hnever journal value middle hdone'
  | inr hreturns =>
    obtain ⟨value, middle, given, hvalue, hdone⟩ := hreturns
    cases hnext value middle given hvalue with
    | inl hnever =>
      refine .inl fun journal result final hboth => ?_
      obtain ⟨value', middle', hdone', hrest⟩ := Op.bind_eq_done.1 hboth
      obtain ⟨rfl, journal', rfl, -⟩ := hdone journal value' middle' hdone'
      exact hnever journal' result final hrest
    | inr hrest =>
      obtain ⟨result, state', given', hresult, hdone'⟩ := hrest
      refine .inr ⟨result, state', given ∪ given', hresult, ?_⟩
      intro journal result' final hboth
      obtain ⟨value', middle', hvalue', hlast⟩ := Op.bind_eq_done.1 hboth
      obtain ⟨rfl, journal', rfl, hfront⟩ := hdone journal value' middle' hvalue'
      obtain ⟨hsame, journal'', hfinal, hback⟩ := hdone' journal' result' final hlast
      refine ⟨hsame, journal'', hfinal, fun entry => ?_⟩
      rw [hback, hfront, Finset.mem_union, or_assoc]

/-- The entries are those that an empty journal holds afterwards. -/
theorem Gives.exists_given {op : Op State Stop α} (hgives : Gives put op state post)
    (hsome : ∃ result given, post result given) {bound : Finset Entry → Prop}
    (hbound : ∀ result given, post result given → bound given) {journalOf : State → List Entry}
    (hjournal : ∀ state journal, journalOf (put state journal) = journal) :
    ∃ given, bound given ∧ ∀ journal result final, op (put state journal) = .done result final →
        ∀ entry, entry ∈ journalOf final ↔ entry ∈ journal ∨ entry ∈ given := by
  cases hgives with
  | inl hnever =>
    obtain ⟨result, given, hresult⟩ := hsome
    refine ⟨given, hbound result given hresult, ?_⟩
    intro journal result' final hdone
    exact absurd hdone (hnever journal result' final)
  | inr hreturns =>
    obtain ⟨result, state', given, hresult, hdone⟩ := hreturns
    refine ⟨given, hbound result given hresult, ?_⟩
    intro journal result' final hdone'
    obtain ⟨-, journal', rfl, hentries⟩ := hdone journal result' final hdone'
    rw [hjournal]
    exact hentries

end Xv6Users.Journal
