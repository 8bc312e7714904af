import Xv6Users.Core.Ownership
import Xv6Users.Kernel.VirtualMemory

/-!
# Owners of pages

A page that is not free is a page directory, a page table, a page of a user or in the hands
of the call that has just allocated it.
-/

namespace Xv6Users.VirtualMemory

open Ownership Function

variable {other : ℕ}

inductive Place where
  | hand
  | directory (pgdir : ℕ)
  | table (pgdir : ℕ) (dir : Index)
  | user (pgdir : ℕ) (dir : Index) (index : Index)
  deriving DecidableEq

def entry (memory : Memory) (pgdir : ℕ) (dir index : Index) : Word :=
  if (memory.words pgdir dir).present then memory.words (memory.words pgdir dir).page index
  else Word.zero

/-- The page that a place has.  The lower half of a directory maps the pages of users. -/
def target (memory : Memory) (live : List ℕ) (hand : Option ℕ) : Place → Option ℕ
  | .hand => hand
  | .directory pgdir => if pgdir ∈ live then some pgdir else none
  | .table pgdir dir =>
    if pgdir ∈ live ∧ (memory.words pgdir dir).present then
      some (memory.words pgdir dir).page
    else none
  | .user pgdir dir index =>
    if pgdir ∈ live ∧ dir.val < 512 ∧ (entry memory pgdir dir index).present then
      some (entry memory pgdir dir index).page
    else none

/-- No page has two places. -/
structure Apart (memory : Memory) (live : List ℕ) (hand : Option ℕ) : Prop where
  unique : ∀ {left right : Place} {page : ℕ}, target memory live hand left = some page →
    target memory live hand right = some page → left = right

/-- Every page of the pool is free or has a place, and none is freed twice. -/
structure Paged (pool : List ℕ) (memory : Memory) (live : List ℕ) (hand : Option ℕ) :
    Prop where
  owned : Owned (· ∉ pool) (· ∉ memory.freelist) (target memory live hand)
  nodup : memory.freelist.Nodup
  refreed : memory.refreed = 0

section Places

variable {memory memory' : Memory} {live : List ℕ} {hand : Option ℕ} {pgdir page : ℕ}
  {dir index : Index} {word : Word}

theorem target_directory (hlive : pgdir ∈ live) :
    target memory live hand (.directory pgdir) = some pgdir := if_pos hlive

theorem target_table (hlive : pgdir ∈ live) (hpresent : (memory.words pgdir dir).present) :
    target memory live hand (.table pgdir dir) = some (memory.words pgdir dir).page :=
  if_pos ⟨hlive, hpresent⟩

theorem target_user (hlive : pgdir ∈ live) (hdir : dir.val < 512)
    (hpresent : (entry memory pgdir dir index).present) :
    target memory live hand (.user pgdir dir index) =
      some (entry memory pgdir dir index).page := if_pos ⟨hlive, hdir, hpresent⟩

/-- The words of live directories and their entries say where the pages are. -/
theorem target_congr (hwords : ∀ pgdir ∈ live, memory'.words pgdir = memory.words pgdir)
    (hentry : ∀ pgdir ∈ live, entry memory' pgdir = entry memory pgdir) :
    target memory' live hand = target memory live hand := by
  funext place
  cases place with
  | hand => rfl
  | directory pgdir => rfl
  | table pgdir dir =>
    by_cases hlive : pgdir ∈ live
    · simp only [target, hwords pgdir hlive]
    · simp only [target, hlive, false_and, if_false]
  | user pgdir dir index =>
    by_cases hlive : pgdir ∈ live
    · simp only [target, hentry pgdir hlive]
    · simp only [target, hlive, false_and, if_false]

/-- A page that is no directory and no table. -/
structure Plain (memory : Memory) (live : List ℕ) (page : ℕ) : Prop where
  directory : page ∉ live
  table : ∀ pgdir ∈ live, ∀ dir, (memory.words pgdir dir).present →
    (memory.words pgdir dir).page ≠ page

theorem Plain.of_target (hnone : ∀ pgdir, target memory live hand (.directory pgdir) ≠ some page)
    (htable : ∀ pgdir dir, target memory live hand (.table pgdir dir) ≠ some page) :
    Plain memory live page := by
  constructor
  · exact fun hlive => hnone page (target_directory hlive)
  · rintro pgdir hlive dir hpresent rfl
    exact htable pgdir dir (target_table hlive hpresent)

/-- A page with another place is neither. -/
theorem Apart.plain (hapart : Apart memory live hand) {place : Place}
    (hplace : target memory live hand place = some page)
    (hdirectory : ∀ pgdir, place ≠ .directory pgdir)
    (htable : ∀ pgdir dir, place ≠ .table pgdir dir) : Plain memory live page := by
  apply Plain.of_target
  · exact fun pgdir hother => hdirectory pgdir (hapart.unique hplace hother)
  · exact fun pgdir dir hother => htable pgdir dir (hapart.unique hplace hother)

theorem fill_words_of_ne {content : Index → Word} (hne : other ≠ page) :
    (memory.fill page content).words other = memory.words other := update_of_ne hne ..

@[simp]
theorem fill_words_self (memory : Memory) (page : ℕ) (content : Index → Word) :
    (memory.fill page content).words page = content := update_self ..

theorem ne_of_mem_of_not_mem {first second : ℕ} (hfirst : first ∈ live)
    (hsecond : second ∉ live) : first ≠ second := by
  rintro rfl
  exact hsecond hfirst

/-- Filling a plain page changes no directory. -/
theorem Plain.fill_words (hplain : Plain memory live page) (hlive : pgdir ∈ live)
    (content : Index → Word) : (memory.fill page content).words pgdir = memory.words pgdir :=
  fill_words_of_ne (ne_of_mem_of_not_mem hlive hplain.directory)

theorem Plain.fill_entry (hplain : Plain memory live page) (hlive : pgdir ∈ live)
    (content : Index → Word) : entry (memory.fill page content) pgdir = entry memory pgdir := by
  funext dir index
  rw [entry, entry, hplain.fill_words hlive]
  by_cases hpresent : (memory.words pgdir dir).present
  · rw [if_pos hpresent, if_pos hpresent, fill_words_of_ne (hplain.table pgdir hlive dir hpresent)]
  · rw [if_neg hpresent, if_neg hpresent]

theorem Plain.fill_target (hplain : Plain memory live page) (content : Index → Word) :
    target (memory.fill page content) live hand = target memory live hand :=
  target_congr (fun _ hlive => hplain.fill_words hlive content)
    (fun _ hlive => hplain.fill_entry hlive content)

/-- Tables are no directories, and no two entries of directories have one table. -/
theorem Apart.table_ne_directory (hapart : Apart memory live hand) (hlive : pgdir ∈ live)
    (hpresent : (memory.words pgdir dir).present) (hother : other ∈ live) :
    other ≠ (memory.words pgdir dir).page := by
  rintro rfl
  cases hapart.unique (target_directory hother) (target_table hlive hpresent)

theorem Apart.table_injective (hapart : Apart memory live hand) (hlive : pgdir ∈ live)
    (hpresent : (memory.words pgdir dir).present) {dir' : Index} (hother : other ∈ live)
    (hpresent' : (memory.words other dir').present)
    (hsame : (memory.words other dir').page = (memory.words pgdir dir).page) :
    other = pgdir ∧ dir' = dir := by
  have hplace := hapart.unique (target_table hother hpresent')
    (hsame ▸ target_table hlive hpresent)
  cases hplace
  exact ⟨rfl, rfl⟩

theorem target_hand (memory : Memory) (live : List ℕ) (hand hand' : Option ℕ) :
    target memory live hand' = update (target memory live hand) .hand hand' := by
  funext place
  cases place with
  | hand => exact (update_self Place.hand hand' (target memory live hand)).symm
  | directory pgdir => rfl
  | table pgdir dir => rfl
  | user pgdir dir index => rfl

section

variable (hapart : Apart memory live hand) (hlive : pgdir ∈ live)
  (hpresent : (memory.words pgdir dir).present)

include hapart hlive hpresent

/-- Writing to a table changes no directory. -/
theorem Apart.set_words (hother : other ∈ live) :
    (memory.set (memory.words pgdir dir).page index word).words other = memory.words other :=
  fill_words_of_ne (hapart.table_ne_directory hlive hpresent hother)

/-- Writing to a table changes one entry. -/
theorem Apart.set_entry (hother : other ∈ live) (dir' index' : Index) :
    entry (memory.set (memory.words pgdir dir).page index word) other dir' index' =
      if other = pgdir ∧ dir' = dir ∧ index' = index then word
      else entry memory other dir' index' := by
  rw [entry, hapart.set_words hlive hpresent hother, entry]
  by_cases hpresent' : (memory.words other dir').present
  · rw [if_pos hpresent', if_pos hpresent']
    by_cases hsame : (memory.words other dir').page = (memory.words pgdir dir).page
    · obtain ⟨rfl, rfl⟩ := hapart.table_injective hlive hpresent hother hpresent' hsame
      rw [Memory.set, fill_words_self, update_apply]
      simp only [true_and]
    · rw [Memory.set, fill_words_of_ne hsame, if_neg]
      rintro ⟨rfl, rfl, -⟩
      exact hsame rfl
  · rw [if_neg hpresent', if_neg hpresent', if_neg]
    rintro ⟨rfl, rfl, -⟩
    exact hpresent' hpresent

theorem Apart.set_entry_self :
    entry (memory.set (memory.words pgdir dir).page index word) pgdir dir index = word := by
  rw [hapart.set_entry hlive hpresent hlive]
  exact if_pos ⟨rfl, rfl, rfl⟩

theorem Apart.set_target_user (hdir : dir.val < 512) :
    target (memory.set (memory.words pgdir dir).page index word) live hand =
      update (target memory live hand) (.user pgdir dir index)
        (if word.present then some word.page else none) := by
  funext place
  cases place with
  | hand => rfl
  | directory other => rfl
  | table other dir' =>
    rw [update_of_ne (by exact nofun)]
    by_cases hother : other ∈ live
    · simp only [target, hapart.set_words hlive hpresent hother]
    · simp only [target, hother, false_and, if_false]
  | user other dir' index' =>
    by_cases hsame : other = pgdir ∧ dir' = dir ∧ index' = index
    · obtain ⟨rfl, rfl, rfl⟩ := hsame
      rw [update_self, target, hapart.set_entry_self hlive hpresent]
      simp only [hlive, hdir, true_and]
    · have hne : Place.user other dir' index' ≠ .user pgdir dir index := by
        rintro ⟨⟩
        exact hsame ⟨rfl, rfl, rfl⟩
      rw [update_of_ne hne]
      by_cases hother : other ∈ live
      · rw [target, hapart.set_entry hlive hpresent hother, if_neg hsame, target]
      · simp only [target, hother, false_and, if_false]

/-- The upper half of a directory maps no pages of users. -/
theorem Apart.set_target_kernel (hdir : ¬ dir.val < 512) :
    target (memory.set (memory.words pgdir dir).page index word) live hand =
      target memory live hand := by
  funext place
  cases place with
  | hand => rfl
  | directory other => rfl
  | table other dir' =>
    by_cases hother : other ∈ live
    · simp only [target, hapart.set_words hlive hpresent hother]
    · simp only [target, hother, false_and, if_false]
  | user other dir' index' =>
    by_cases hother : other ∈ live
    · rw [target, target, hapart.set_entry hlive hpresent hother]
      by_cases hsame : other = pgdir ∧ dir' = dir ∧ index' = index
      · obtain ⟨rfl, rfl, rfl⟩ := hsame
        simp only [hdir, false_and, and_false, if_false]
      · rw [if_neg hsame]
    · simp only [target, hother, false_and, if_false]

end

end Places

section Growth

variable {memory : Memory} {live : List ℕ} {hand : Option ℕ} {pgdir page : ℕ} {dir : Index}

/-- A page becomes an empty table of a directory. -/
def Memory.link (memory : Memory) (pgdir : ℕ) (dir : Index) (page : ℕ) : Memory :=
  (memory.fill page fun _ => Word.zero).set pgdir dir ⟨page, true, true, true, 0⟩

section

variable (hplain : Plain memory live page)

include hplain

theorem Plain.link_words (hlive : pgdir ∈ live) (hother : other ∈ live) (dir' : Index) :
    (memory.link pgdir dir page).words other dir' =
      if other = pgdir ∧ dir' = dir then ⟨page, true, true, true, 0⟩
      else memory.words other dir' := by
  rw [Memory.link, Memory.set]
  by_cases hsame : other = pgdir
  · subst hsame
    rw [fill_words_self, update_apply, hplain.fill_words hlive]
    simp only [true_and]
  · rw [fill_words_of_ne hsame, hplain.fill_words hother, if_neg]
    exact fun hboth => hsame hboth.1

theorem Plain.link_words_self (hlive : pgdir ∈ live) :
    (memory.link pgdir dir page).words pgdir dir = ⟨page, true, true, true, 0⟩ := by
  rw [hplain.link_words hlive hlive]
  exact if_pos ⟨rfl, rfl⟩

theorem Plain.link_entry (hapart : Apart memory live hand)
    (hlive : pgdir ∈ live) (habsent : ¬ (memory.words pgdir dir).present) (hother : other ∈ live) :
    entry (memory.link pgdir dir page) other = entry memory other := by
  have hne : page ≠ pgdir := (ne_of_mem_of_not_mem hlive hplain.directory).symm
  funext dir' index'
  by_cases hsame : other = pgdir ∧ dir' = dir
  · obtain ⟨rfl, rfl⟩ := hsame
    rw [entry, entry, hplain.link_words_self hlive, if_neg habsent, if_pos rfl, Memory.link,
      Memory.set, fill_words_of_ne hne, fill_words_self]
  · rw [entry, entry, hplain.link_words hlive hother, if_neg hsame]
    by_cases hpresent : (memory.words other dir').present
    · rw [if_pos hpresent, if_pos hpresent, Memory.link, Memory.set, fill_words_of_ne,
        fill_words_of_ne (hplain.table other hother dir' hpresent)]
      exact (hapart.table_ne_directory hother hpresent hlive).symm
    · rw [if_neg hpresent, if_neg hpresent]

theorem Plain.link_target (hapart : Apart memory live hand)
    (hlive : pgdir ∈ live) (habsent : ¬ (memory.words pgdir dir).present) :
    target (memory.link pgdir dir page) live hand =
      update (target memory live hand) (.table pgdir dir) (some page) := by
  funext place
  cases place with
  | hand => rfl
  | directory other => rfl
  | table other dir' =>
    by_cases hsame : other = pgdir ∧ dir' = dir
    · obtain ⟨rfl, rfl⟩ := hsame
      rw [update_self, target, hplain.link_words_self hlive]
      exact if_pos ⟨hlive, rfl⟩
    · have hne : Place.table other dir' ≠ .table pgdir dir := by
        rintro ⟨⟩
        exact hsame ⟨rfl, rfl⟩
      rw [update_of_ne hne]
      by_cases hother : other ∈ live
      · rw [target, hplain.link_words hlive hother, if_neg hsame, target]
      · simp only [target, hother, false_and, if_false]
  | user other dir' index' =>
    rw [update_of_ne (by exact nofun)]
    by_cases hother : other ∈ live
    · rw [target, hplain.link_entry hapart hlive habsent hother, target]
    · simp only [target, hother, false_and, if_false]

end

theorem entry_of_zero (hzero : memory.words pgdir = fun _ => Word.zero) (dir index : Index) :
    entry memory pgdir dir index = Word.zero := by
  rw [entry, hzero]
  rfl

/-- An empty page becomes a directory. -/
theorem adopt_target (hnew : page ∉ live) (hzero : memory.words page = fun _ => Word.zero) :
    target memory (page :: live) hand =
      update (target memory live hand) (.directory page) (some page) := by
  funext place
  cases place with
  | hand => rfl
  | directory other =>
    by_cases hsame : other = page
    · rw [hsame, update_self]
      exact target_directory (.head _)
    · rw [update_of_ne (fun hplace => hsame (Place.directory.inj hplace)), target,
        target]
      simp only [List.mem_cons, hsame, false_or]
  | table other dir' =>
    rw [update_of_ne (by exact nofun), target, target]
    by_cases hsame : other = page
    · subst hsame
      rw [hzero, if_neg (fun hboth => Bool.false_ne_true hboth.2), if_neg]
      exact fun hboth => hnew hboth.1
    · simp only [List.mem_cons, hsame, false_or]
  | user other dir' index' =>
    rw [update_of_ne (by exact nofun), target, target]
    by_cases hsame : other = page
    · subst hsame
      rw [entry_of_zero hzero, if_neg (fun hboth => Bool.false_ne_true hboth.2.2), if_neg]
      exact fun hboth => hnew hboth.1
    · simp only [List.mem_cons, hsame, false_or]

end Growth

end Xv6Users.VirtualMemory
