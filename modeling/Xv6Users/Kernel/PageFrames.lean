import Xv6Users.Kernel.PageOwners

/-!
# What stays in page tables and pages

A call changes the tables, entries and contents of few places.  `Keeps` says that nothing
else changes.
-/

namespace Xv6Users.VirtualMemory

/-- A place of a page that is no part of the page tables. -/
def Place.Data : Place → Prop
  | .hand => True
  | .user _ _ _ => True
  | _ => False

/-- Outside the places of `except`, tables, entries and the contents of pages stay. -/
structure Keeps (except : Set Place) (memory : Memory) (live : List ℕ) (hand : Option ℕ)
    (after : Memory) (hand' : Option ℕ) : Prop where
  held : Place.hand ∉ except → hand' = hand
  table : ∀ pgdir ∈ live, ∀ dir, Place.table pgdir dir ∉ except →
    after.words pgdir dir = memory.words pgdir dir
  entry : ∀ pgdir ∈ live, ∀ dir index, Place.user pgdir dir index ∉ except →
    entry after pgdir dir index = entry memory pgdir dir index
  content : ∀ place page, place ∉ except → place.Data →
    target memory live hand place = some page → after.words page = memory.words page

variable {memory middle after : Memory} {live live' : List ℕ} {hand hand' hand'' : Option ℕ}
  {pgdir page : ℕ} {dir index : Index} {except except' : Set Place} {place : Place}

theorem Keeps.target (hkeeps : Keeps except memory live hand after hand')
    (hplace : place ∉ except) : target after live hand' place = target memory live hand place := by
  cases place with
  | hand => exact hkeeps.held hplace
  | directory pgdir => rfl
  | table pgdir dir =>
    by_cases hlive : pgdir ∈ live
    · simp only [VirtualMemory.target, hkeeps.table pgdir hlive dir hplace]
    · simp only [VirtualMemory.target, hlive, false_and, if_false]
  | user pgdir dir index =>
    by_cases hlive : pgdir ∈ live
    · simp only [VirtualMemory.target, hkeeps.entry pgdir hlive dir index hplace]
    · simp only [VirtualMemory.target, hlive, false_and, if_false]

theorem Keeps.trans (hfirst : Keeps except memory live hand middle hand')
    (hsecond : Keeps except' middle live hand' after hand'') :
    Keeps (except ∪ except') memory live hand after hand'' := by
  constructor
  · intro hplace
    rw [Set.mem_union, not_or] at hplace
    exact (hsecond.held hplace.2).trans (hfirst.held hplace.1)
  · intro pgdir hlive dir hplace
    rw [Set.mem_union, not_or] at hplace
    exact (hsecond.table pgdir hlive dir hplace.2).trans (hfirst.table pgdir hlive dir hplace.1)
  · intro pgdir hlive dir index hplace
    rw [Set.mem_union, not_or] at hplace
    exact (hsecond.entry pgdir hlive dir index hplace.2).trans
      (hfirst.entry pgdir hlive dir index hplace.1)
  · intro place page hplace hdata htarget
    rw [Set.mem_union, not_or] at hplace
    have hthere := (hfirst.target hplace.1).trans htarget
    exact (hsecond.content place page hplace.2 hdata hthere).trans
      (hfirst.content place page hplace.1 hdata htarget)

theorem Keeps.mono (hkeeps : Keeps except memory live hand after hand')
    (hsubset : except ⊆ except') : Keeps except' memory live hand after hand' := by
  constructor
  · exact fun hplace => hkeeps.held fun hin => hplace (hsubset hin)
  · exact fun pgdir hlive dir hplace =>
      hkeeps.table pgdir hlive dir fun hin => hplace (hsubset hin)
  · exact fun pgdir hlive dir index hplace =>
      hkeeps.entry pgdir hlive dir index fun hin => hplace (hsubset hin)
  · exact fun place page hplace =>
      hkeeps.content place page fun hin => hplace (hsubset hin)

/-- The pages that the call has in its hands may change owner. -/
theorem Keeps.of_words (hwords : after.words = memory.words)
    (hhand : Place.hand ∉ except → hand' = hand) : Keeps except memory live hand after hand' := by
  constructor
  · exact hhand
  · exact fun pgdir _ dir _ => by rw [hwords]
  · exact fun pgdir _ dir index _ => by rw [VirtualMemory.entry, VirtualMemory.entry, hwords]
  · exact fun place page _ _ _ => by rw [hwords]

theorem Keeps.refl (memory : Memory) (live : List ℕ) (hand : Option ℕ) (except : Set Place) :
    Keeps except memory live hand memory hand := .of_words rfl fun _ => rfl

theorem Keeps.congr (hkeeps : Keeps except memory live hand middle hand')
    (hwords : after.words = middle.words) : Keeps except memory live hand after hand' := by
  have hsame : Keeps ∅ middle live hand' after hand' := .of_words hwords fun _ => rfl
  exact (hkeeps.trans hsame).mono (Set.union_empty _).le

/-- Whoever has no page in hand before and after does not ask what happened to it. -/
theorem Keeps.empty_handed (hkeeps : Keeps except memory live none after none)
    (hsubset : ∀ place ∈ except, place = .hand ∨ place ∈ except') :
    Keeps except' memory live none after none := by
  have hout : ∀ place, place ∉ except' → place ≠ .hand → place ∉ except := by
    intro place hplace hhand hin
    exact (hsubset place hin).elim hhand hplace
  constructor
  · exact fun _ => rfl
  · exact fun pgdir hlive dir hplace =>
      hkeeps.table pgdir hlive dir (hout _ hplace (by exact nofun))
  · exact fun pgdir hlive dir index hplace =>
      hkeeps.entry pgdir hlive dir index (hout _ hplace (by exact nofun))
  · intro place page hplace hdata htarget
    apply hkeeps.content place page (hout place hplace _) hdata htarget
    rintro rfl
    cases htarget

/-- A page is filled that is neither part of the tables nor one of the pages that stay. -/
theorem Keeps.of_fill (hplain : Plain memory live page) (content : Index → Word)
    (hother : ∀ place ∉ except, place.Data → VirtualMemory.target memory live hand place ≠
      some page) : Keeps except memory live hand (memory.fill page content) hand := by
  constructor
  · exact fun _ => rfl
  · intro pgdir hlive dir _
    rw [hplain.fill_words hlive]
  · intro pgdir hlive dir index _
    rw [hplain.fill_entry hlive]
  · intro place other hplace hdata htarget
    apply fill_words_of_ne
    rintro rfl
    exact hother place hplace hdata htarget

/-- An entry of a table is written. -/
theorem Keeps.of_set (hapart : Apart memory live hand) (hlive : pgdir ∈ live)
    (hpresent : (memory.words pgdir dir).present) (word : Word) :
    Keeps {.user pgdir dir index} memory live hand
      (memory.set (memory.words pgdir dir).page index word) hand := by
  constructor
  · exact fun _ => rfl
  · intro other hother dir' _
    rw [hapart.set_words hlive hpresent hother]
  · intro other hother dir' index' hplace
    rw [hapart.set_entry hlive hpresent hother, if_neg]
    rintro ⟨rfl, rfl, rfl⟩
    exact hplace rfl
  · intro place other _ hdata htarget
    apply fill_words_of_ne
    rintro rfl
    have hsame := hapart.unique htarget (target_table hlive hpresent)
    rw [hsame] at hdata
    exact hdata

/-- A free page becomes a table. -/
theorem Keeps.of_link (hplain : Plain memory live page) (hapart : Apart memory live hand)
    (hlive : pgdir ∈ live) (habsent : ¬ (memory.words pgdir dir).present)
    (hfree : ∀ place, VirtualMemory.target memory live hand place ≠ some page) :
    Keeps {.table pgdir dir} memory live hand (memory.link pgdir dir page) hand := by
  constructor
  · exact fun _ => rfl
  · intro other hother dir' hplace
    rw [hplain.link_words hlive hother, if_neg]
    rintro ⟨rfl, rfl⟩
    exact hplace rfl
  · intro other hother dir' index' _
    rw [hplain.link_entry hapart hlive habsent hother]
  · intro place other _ hdata htarget
    have hpage : other ≠ page := fun hsame => hfree place (hsame ▸ htarget)
    have hdirectory : other ≠ pgdir := by
      rintro rfl
      have hsame := hapart.unique htarget (target_directory hlive)
      rw [hsame] at hdata
      exact hdata
    rw [Memory.link, Memory.set, fill_words_of_ne hdirectory, fill_words_of_ne hpage]

theorem target_mono (hsubset : ∀ other ∈ live', other ∈ live)
    (hplace : target memory live' hand place = some page) :
    target memory live hand place = some page := by
  cases place with
  | hand => exact hplace
  | directory pgdir =>
    rw [target] at hplace
    split_ifs at hplace with hother
    exact (target_directory (hsubset pgdir hother)).trans hplace
  | table pgdir dir =>
    rw [target] at hplace
    split_ifs at hplace with hother
    exact (target_table (hsubset pgdir hother.1) hother.2).trans hplace
  | user pgdir dir index =>
    rw [target] at hplace
    split_ifs at hplace with hother
    exact (target_user (hsubset pgdir hother.1) hother.2.1 hother.2.2).trans hplace

/-- Other directories do not see what happens to one. -/
theorem Keeps.restrict (hkeeps : Keeps except memory live hand after hand')
    (hsubset : ∀ other ∈ live', other ∈ live) (hhand : Place.hand ∉ except' → Place.hand ∉ except)
    (htable : ∀ other ∈ live', ∀ dir, Place.table other dir ∉ except' →
      Place.table other dir ∉ except)
    (huser : ∀ other ∈ live', ∀ dir index, Place.user other dir index ∉ except' →
      Place.user other dir index ∉ except) : Keeps except' memory live' hand after hand' := by
  constructor
  · exact fun hplace => hkeeps.held (hhand hplace)
  · exact fun other hother dir hplace =>
      hkeeps.table other (hsubset other hother) dir (htable other hother dir hplace)
  · exact fun other hother dir index hplace =>
      hkeeps.entry other (hsubset other hother) dir index (huser other hother dir index hplace)
  · intro place page hplace hdata hfound
    have hthere := target_mono hsubset hfound
    cases place with
    | hand => exact hkeeps.content .hand page (hhand hplace) trivial hthere
    | directory other => cases hdata
    | table other dir => cases hdata
    | user other dir index =>
      by_cases hother : other ∈ live'
      · exact hkeeps.content _ page (huser other hother dir index hplace) trivial hthere
      · rw [VirtualMemory.target, if_neg fun hboth => hother hboth.1] at hfound
        cases hfound

end Xv6Users.VirtualMemory
