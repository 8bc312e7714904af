import Xv6Users.Kernel.PageFrames
import Xv6Users.Kernel.PlainLoop

/-!
# Allocating, mapping and freeing pages

Each function of the page tables keeps every page of the pool in one place.
-/

namespace Xv6Users.VirtualMemory

open Ownership Function List Set

variable {ok user writable : Bool} {rest : Fin 512} {dirs : List Index} {middle : Memory}
  {place : Place} {places : Set Place} {a oldsz pgtab : ℕ}

variable {pool : List ℕ} {memory memory' after : Memory} {live live' : List ℕ}
  {hand hand' : Option ℕ} {pgdir page va other : ℕ} {dir index : Index}

/-! ## Pages in one place -/

section

variable (hpaged : Paged pool memory live hand)

include hpaged

theorem Paged.apart : Apart memory live hand :=
  ⟨hpaged.owned.unique⟩

theorem Paged.apart_of_target
    (hsame : target memory' live hand = target memory live hand) : Apart memory' live hand := by
  constructor
  intro left right page hleft hright
  rw [hsame] at hleft hright
  exact hpaged.owned.unique hleft hright

theorem Paged.mem_pool (hplace : target memory live hand place = some page) : page ∈ pool :=
  not_not.1 (hpaged.owned.open_of_target hplace)

theorem Paged.not_free
    (hplace : target memory live hand place = some page) : page ∉ memory.freelist :=
  hpaged.owned.used_of_target hplace

theorem Paged.plain_of_free (hfree : page ∈ memory.freelist) : Plain memory live page := by
  apply Plain.of_target
  · exact fun _ hplace => hpaged.not_free hplace hfree
  · exact fun _ _ hplace => hpaged.not_free hplace hfree

end

theorem target_of_words (hwords : memory'.words = memory.words) :
    target memory' live hand = target memory live hand := by
  apply target_congr
  · exact fun pgdir _ => congrFun hwords pgdir
  · intro pgdir _
    funext dir index
    rw [entry, entry, hwords]

theorem Paged.same (hpaged : Paged pool memory live hand)
    (hfree : memory'.freelist = memory.freelist) (hrefreed : memory'.refreed = memory.refreed)
    (htarget : target memory' live' hand' = target memory live hand) :
    Paged pool memory' live' hand' := by
  refine ⟨?_, hfree ▸ hpaged.nodup, hrefreed.trans hpaged.refreed⟩
  rw [htarget, hfree]
  exact hpaged.owned

theorem kalloc_none (hkalloc : kalloc memory = (none, memory')) :
    memory'.freelist = memory.freelist ∧ memory'.words = memory.words ∧
      memory'.refreed = memory.refreed := by
  rw [kalloc] at hkalloc
  split_ifs at hkalloc
  · cases hkalloc
    exact ⟨rfl, rfl, rfl⟩
  · split at hkalloc
    · cases hkalloc
      exact ⟨rfl, rfl, rfl⟩
    · cases hkalloc

theorem kalloc_some (hkalloc : kalloc memory = (some page, memory')) :
    memory.freelist = page :: memory'.freelist ∧ memory'.words = memory.words ∧
      memory'.refreed = memory.refreed := by
  rw [kalloc] at hkalloc
  split_ifs at hkalloc
  · cases hkalloc
  · split at hkalloc
    · cases hkalloc
    · next hfree =>
      cases hkalloc
      exact ⟨hfree, rfl, rfl⟩

theorem Paged.kalloc_none (hpaged : Paged pool memory live hand)
    (hkalloc : kalloc memory = (none, memory')) : Paged pool memory' live hand := by
  obtain ⟨hfree, hwords, hrefreed⟩ := VirtualMemory.kalloc_none hkalloc
  exact hpaged.same hfree hrefreed (target_of_words hwords)

/-- A free page gets a place. -/
theorem Paged.acquire (hpaged : Paged pool memory live hand)
    (hkalloc : kalloc memory = (some page, memory')) (place : Place)
    (hempty : target memory live hand place = none)
    (htarget : target after live' hand' = update (target memory live hand) place (some page))
    (hfree : after.freelist = memory'.freelist) (hrefreed : after.refreed = memory'.refreed) :
    Paged pool after live' hand' := by
  obtain ⟨hlist, -, hsame⟩ := kalloc_some hkalloc
  have hnodup := hpaged.nodup
  rw [hlist, nodup_cons] at hnodup
  have hunused : ¬ page ∉ memory.freelist := by
    rw [hlist]
    exact not_not.2 (.head _)
  have hacquired := hpaged.owned.acquire hempty hunused
  refine ⟨?_, hfree ▸ hnodup.2, hrefreed.trans (hsame.trans hpaged.refreed)⟩
  rw [htarget]
  apply hacquired.congr _ (fun _ => rfl)
  intro other
  rw [hfree, hlist, mem_cons]
  by_cases hother : other = page
  · simp [hother, hnodup.1]
  · simp [hother]

/-- The call that asked for a page has it. -/
theorem Paged.take (hpaged : Paged pool memory live none)
    (hkalloc : kalloc memory = (some page, memory')) : Paged pool memory' live (some page) := by
  apply hpaged.acquire hkalloc .hand rfl _ rfl rfl
  rw [target_of_words (kalloc_some hkalloc).2.1]
  exact target_hand memory live none (some page)

theorem Paged.plain_of_kalloc (hpaged : Paged pool memory live hand)
    (hkalloc : kalloc memory = (some page, memory')) : Plain memory live page := by
  apply hpaged.plain_of_free
  rw [(kalloc_some hkalloc).1]
  exact .head _

theorem Plain.of_words (hplain : Plain memory live page)
    (hwords : memory'.words = memory.words) : Plain memory' live page := by
  refine ⟨hplain.directory, ?_⟩
  rw [hwords]
  exact hplain.table

/-- The page becomes a table. -/
theorem Paged.link (hpaged : Paged pool memory live hand)
    (hkalloc : kalloc memory = (some page, memory')) (hlive : pgdir ∈ live)
    (habsent : ¬ (memory.words pgdir dir).present) :
    Paged pool (memory'.link pgdir dir page) live hand := by
  have hwords := (kalloc_some hkalloc).2.1
  have hsame : target memory' live hand = target memory live hand := target_of_words hwords
  apply hpaged.acquire hkalloc (.table pgdir dir) (if_neg fun hboth => habsent hboth.2)
  · rw [← hsame]
    apply ((hpaged.plain_of_kalloc hkalloc).of_words hwords).link_target
    · exact hpaged.apart_of_target hsame
    · exact hlive
    · rwa [hwords]
  · rfl
  · rfl

/-- The page becomes a directory. -/
theorem Paged.adopt (hpaged : Paged pool memory live hand)
    (hkalloc : kalloc memory = (some page, memory')) :
    Paged pool (memory'.fill page fun _ => Word.zero) (page :: live) hand := by
  have hwords := (kalloc_some hkalloc).2.1
  have hplain := (hpaged.plain_of_kalloc hkalloc).of_words hwords
  apply hpaged.acquire hkalloc (.directory page) (if_neg hplain.directory)
  · rw [adopt_target hplain.directory (fill_words_self ..), hplain.fill_target,
      target_of_words hwords]
  · rfl
  · rfl

/-! ## Walking and mapping -/

/-- What `walkpgdir` has found. -/
structure Found (memory : Memory) (pgdir va pgtab : ℕ) (index : Index) : Prop where
  present : (memory.words pgdir (pdx va)).present
  page : (memory.words pgdir (pdx va)).page = pgtab
  index : index = ptx va

theorem Paged.walkpgdir_none (hpaged : Paged pool memory live hand)
    (hwalk : walkpgdir memory pgdir va true = (none, memory')) : Paged pool memory' live hand := by
  rw [walkpgdir] at hwalk
  split_ifs at hwalk with hpresent hfalse
  · cases hwalk
  · cases hfalse
  · split at hwalk
    · next hkalloc =>
      cases hwalk
      exact hpaged.kalloc_none hkalloc
    · cases hwalk

theorem Paged.free_of_kalloc (hpaged : Paged pool memory live hand)
    (hkalloc : kalloc memory = (some page, memory')) (place : Place) :
    target memory live hand place ≠ some page := by
  intro hplace
  apply hpaged.not_free hplace
  rw [(kalloc_some hkalloc).1]
  exact .head _

/-- A table is found or made; no entry changes. -/
theorem Paged.walkpgdir_some (hpaged : Paged pool memory live hand) (hlive : pgdir ∈ live)
    (hwalk : walkpgdir memory pgdir va true = (some (pgtab, index), memory')) :
    Paged pool memory' live hand ∧ Found memory' pgdir va pgtab index ∧
      entry memory' pgdir = entry memory pgdir ∧
      Keeps {.table pgdir (pdx va)} memory live hand memory' hand := by
  rw [walkpgdir] at hwalk
  split_ifs at hwalk with hpresent hfalse
  · cases hwalk
    exact ⟨hpaged, ⟨hpresent, rfl, rfl⟩, rfl, .refl ..⟩
  · cases hfalse
  · split at hwalk
    · cases hwalk
    · next page middle hkalloc =>
      have hwords := (kalloc_some hkalloc).2.1
      have hplain := (hpaged.plain_of_kalloc hkalloc).of_words hwords
      cases hwalk
      have hword : (middle.link pgdir (pdx va) pgtab).words pgdir (pdx va) =
          ⟨pgtab, true, true, true, 0⟩ := hplain.link_words_self hlive
      have hapart := hpaged.apart_of_target (target_of_words hwords)
      have habsent : ¬ (middle.words pgdir (pdx va)).present := by rwa [hwords]
      refine ⟨hpaged.link hkalloc hlive hpresent, ⟨?_, ?_, rfl⟩, ?_, ?_⟩
      · exact congrArg Word.present hword
      · exact congrArg Word.page hword
      · calc entry (middle.link pgdir (pdx va) pgtab) pgdir
            = entry middle pgdir := hplain.link_entry hapart hlive habsent hlive
          _ = entry memory pgdir := by
              funext dir index
              rw [entry, entry, hwords]
      · have htaken : Keeps ∅ memory live hand middle hand := .of_words hwords fun _ => rfl
        have hlinked := Keeps.of_link hplain hapart hlive habsent fun place => by
          rw [target_of_words hwords]
          exact hpaged.free_of_kalloc hkalloc place
        exact (htaken.trans hlinked).mono (empty_union _).le

/-- A page in the hands of the call is mapped for the user. -/
theorem Paged.map_user (hpaged : Paged pool memory live (some page)) (hlive : pgdir ∈ live)
    (hfound : Found memory pgdir va pgtab index) (hva : (pdx va).val < 512)
    (habsent : ¬ (memory.words pgtab index).present) (writable user : Bool) (rest : Fin 512) :
    Paged pool (memory.set pgtab index ⟨page, true, writable, user, rest⟩) live none := by
  obtain ⟨hpresent, rfl, rfl⟩ := hfound
  have hempty : target memory live (some page) (.user pgdir (pdx va) (ptx va)) = none := by
    apply if_neg
    rintro ⟨-, -, hentry⟩
    rw [entry, if_pos hpresent] at hentry
    exact habsent hentry
  have hmoved := hpaged.owned.move (show target memory live (some page) .hand = some page
    from rfl) hempty
  refine ⟨?_, hpaged.nodup, hpaged.refreed⟩
  rw [target_hand _ live (some page) none,
    hpaged.apart.set_target_user hlive hpresent hva, if_pos rfl,
    update_comm (by rintro ⟨⟩)]
  exact hmoved

theorem Paged.map_kernel (hpaged : Paged pool memory live hand) (hlive : pgdir ∈ live)
    (hfound : Found memory pgdir va pgtab index) (hva : ¬ (pdx va).val < 512) (word : Word) :
    Paged pool (memory.set pgtab index word) live hand := by
  obtain ⟨hpresent, rfl, rfl⟩ := hfound
  exact hpaged.same rfl rfl (hpaged.apart.set_target_kernel hlive hpresent hva)

/-- Entries that are present stay as they are. -/
def Grows (memory : Memory) (pgdir : ℕ) (after : Memory) : Prop :=
  ∀ dir index, (entry memory pgdir dir index).present →
    entry after pgdir dir index = entry memory pgdir dir index

theorem Grows.trans (hfirst : Grows memory pgdir middle) (hsecond : Grows middle pgdir after) :
    Grows memory pgdir after := by
  intro dir index hpresent
  have hsame := hfirst dir index hpresent
  calc entry after pgdir dir index
      = entry middle pgdir dir index := hsecond dir index (by rwa [hsame])
    _ = entry memory pgdir dir index := hsame

/-- A new entry leaves those that are present. -/
theorem Paged.set_grows (hpaged : Paged pool memory live hand) (hlive : pgdir ∈ live)
    (hfound : Found memory pgdir va pgtab index) (habsent : ¬ (memory.words pgtab index).present)
    (word : Word) : Grows memory pgdir (memory.set pgtab index word) := by
  obtain ⟨hpresent, rfl, rfl⟩ := hfound
  intro dir index hentry
  rw [hpaged.apart.set_entry hlive hpresent hlive, if_neg]
  rintro ⟨-, rfl, rfl⟩
  rw [entry, if_pos hpresent] at hentry
  exact habsent hentry

theorem walkpgdir_none_entry (hwalk : walkpgdir memory pgdir va true = (none, memory')) :
    memory'.words = memory.words := by
  rw [walkpgdir] at hwalk
  split_ifs at hwalk with hpresent hfalse
  · cases hwalk
  · cases hfalse
  · split at hwalk
    · next hkalloc =>
      cases hwalk
      exact (VirtualMemory.kalloc_none hkalloc).2.1
    · cases hwalk

theorem Grows.of_words (hwords : memory'.words = memory.words) : Grows memory pgdir memory' := by
  intro dir index _
  rw [entry, entry, hwords]

theorem pdx_user (hva : va < kernPage) : (pdx va).val = va / 1024 := by
  apply Nat.mod_eq_of_lt
  have hpage : kernPage = 524288 := rfl
  omega

theorem pdx_user_lt (hva : va < kernPage) : (pdx va).val < 512 := by
  have hpage : kernPage = 524288 := rfl
  rw [pdx_user hva]
  omega

theorem pdx_kernel (hva : kernPage ≤ va) (hend : va < 2 ^ 20) : ¬ (pdx va).val < 512 := by
  have hpage : kernPage = 524288 := rfl
  have hdir : (pdx va).val = va / 1024 := Nat.mod_eq_of_lt (by omega)
  omega

def mapping (pgdir va : ℕ) : Set Place :=
  {.hand, .table pgdir (pdx va), .user pgdir (pdx va) (ptx va)}

/-- A page from the hands of the call has got an entry, and nothing else has changed. -/
structure Mapped (memory : Memory) (live : List ℕ) (pgdir va page : ℕ) (word : Word)
    (after : Memory) : Prop where
  entry : entry after pgdir (pdx va) (ptx va) = word
  content : after.words page = memory.words page
  keeps : Keeps (mapping pgdir va) memory live (some page) after none

theorem Paged.mapped (hmiddle : Paged pool middle live (some page)) (hlive : pgdir ∈ live)
    (hfound : Found middle pgdir va pgtab index)
    (hkeeps : Keeps {.table pgdir (pdx va)} memory live (some page) middle (some page))
    (word : Word) : Mapped memory live pgdir va page word (middle.set pgtab index word) := by
  obtain ⟨hpresent, rfl, rfl⟩ := hfound
  have hset : Keeps {.user pgdir (pdx va) (ptx va)} middle live (some page)
      (middle.set (middle.words pgdir (pdx va)).page (ptx va) word) (some page) :=
    .of_set hmiddle.apart hlive hpresent word
  have hgiven : ∀ memory : Memory, Keeps {.hand} memory live (some page) memory none :=
    fun memory => .of_words rfl fun hnot => absurd rfl hnot
  have hhand : Place.hand ∉ ({.table pgdir (pdx va)} ∪ {.user pgdir (pdx va) (ptx va)} :
      Set Place) := by simp
  constructor
  · exact hmiddle.apart.set_entry_self hlive hpresent
  · exact (hkeeps.trans hset).content .hand page hhand trivial rfl
  · apply ((hkeeps.trans hset).trans (hgiven _)).mono
    rintro place ((rfl | rfl) | rfl)
    · exact .inr (.inl rfl)
    · exact .inr (.inr rfl)
    · exact .inl rfl

/-- A page in the hands of the call is mapped, or stays there. -/
theorem Paged.mappages_user (hpaged : Paged pool memory live (some page)) (hlive : pgdir ∈ live)
    (hva : va < kernPage)
    (hmap : mappages pgdir writable user rest 1 va page memory = some (ok, memory')) :
    Paged pool memory' live (if ok then none else some page) ∧ Grows memory pgdir memory' ∧
      (ok = true → Mapped memory live pgdir va page ⟨page, true, writable, user, rest⟩ memory') ∧
      (ok = false → memory'.words = memory.words) := by
  have hdir := pdx_user_lt hva
  rw [mappages] at hmap
  split at hmap
  · next hwalk =>
    cases hmap
    have hwords := walkpgdir_none_entry hwalk
    exact ⟨hpaged.walkpgdir_none hwalk, .of_words hwords, nofun, fun _ => hwords⟩
  · next pgtab index middle hwalk =>
    obtain ⟨hmiddle, hfound, hentry, hkeeps⟩ := hpaged.walkpgdir_some hlive hwalk
    split_ifs at hmap with hpresent
    cases hmap
    refine ⟨hmiddle.map_user hlive hfound hdir hpresent writable user rest, ?_, ?_, nofun⟩
    · rw [Grows, ← hentry]
      exact hmiddle.set_grows hlive hfound hpresent _
    · exact fun _ => hmiddle.mapped hlive hfound hkeeps _

theorem walkpgdir_freelist (hwalk : (walkpgdir memory pgdir va true).2 = memory') :
    memory'.freelist.length ≤ memory.freelist.length := by
  subst hwalk
  rw [walkpgdir]
  split_ifs with hpresent hfalse
  · exact le_rfl
  · cases hfalse
  · rcases hkalloc : kalloc memory with ⟨_ | page, middle⟩
    · exact (VirtualMemory.kalloc_none hkalloc).1 ▸ le_rfl
    · rw [(kalloc_some hkalloc).1]
      exact Nat.le_succ _

theorem mappages_freelist
    (hmap : mappages pgdir writable user rest 1 va page memory = some (ok, memory')) :
    memory'.freelist.length ≤ memory.freelist.length := by
  rw [mappages] at hmap
  split at hmap
  · next hwalk =>
    cases hmap
    exact walkpgdir_freelist (congrArg Prod.snd hwalk)
  · next hwalk =>
    have hwalked := walkpgdir_freelist (congrArg Prod.snd hwalk)
    split_ifs at hmap
    cases hmap
    exact hwalked

/-- Only a page that has an entry stops the machine. -/
theorem Paged.mappages_returns (hpaged : Paged pool memory live hand) (hlive : pgdir ∈ live)
    (habsent : ¬ (entry memory pgdir (pdx va) (ptx va)).present) (writable user : Bool)
    (rest : Fin 512) (page : ℕ) :
    ∃ ok after, mappages pgdir writable user rest 1 va page memory = some (ok, after) := by
  rw [mappages]
  split
  · exact ⟨false, _, rfl⟩
  · next pgtab index middle hwalk =>
    obtain ⟨-, ⟨hpresent, rfl, rfl⟩, hentry, -⟩ := hpaged.walkpgdir_some hlive hwalk
    rw [← hentry, entry, if_pos hpresent] at habsent
    rw [if_neg habsent]
    exact ⟨true, _, rfl⟩

/-- The tables of a directory and its entries for addresses above `KERNBASE`. -/
def kernelHalf (pgdir : ℕ) : Set Place :=
  { place | (∃ dir : Index, ¬ dir.val < 512 ∧ place = .table pgdir dir) ∨
    ∃ dir index : Index, ¬ dir.val < 512 ∧ place = .user pgdir dir index }

/-- Every entry is as before or has the user flag that was asked for. -/
def Flagged (memory : Memory) (pgdir : ℕ) (user : Bool) (after : Memory) : Prop :=
  ∀ dir index, entry after pgdir dir index = entry memory pgdir dir index ∨
    (entry after pgdir dir index).user = user

theorem Flagged.trans (hfirst : Flagged memory pgdir user middle)
    (hsecond : Flagged middle pgdir user after) : Flagged memory pgdir user after := by
  intro dir index
  obtain hsame | huser := hsecond dir index
  · rw [hsame]
    exact hfirst dir index
  · exact .inr huser

theorem Flagged.of_words (hwords : memory'.words = memory.words) :
    Flagged memory pgdir user memory' := by
  intro dir index
  left
  rw [entry, entry, hwords]

/-- What one new entry above `KERNBASE` changes. -/
theorem Paged.set_kernel (hpaged : Paged pool memory live hand) (hlive : pgdir ∈ live)
    (hfound : Found memory pgdir va pgtab index) (hva : ¬ (pdx va).val < 512) (word : Word) :
    Keeps (kernelHalf pgdir) memory live hand (memory.set pgtab index word) hand ∧
      Flagged memory pgdir word.user (memory.set pgtab index word) := by
  obtain ⟨hpresent, rfl, rfl⟩ := hfound
  constructor
  · apply (Keeps.of_set hpaged.apart hlive hpresent word).mono
    rintro _ rfl
    exact .inr ⟨_, _, hva, rfl⟩
  · intro dir index
    rw [hpaged.apart.set_entry hlive hpresent hlive]
    by_cases hsame : pgdir = pgdir ∧ dir = pdx va ∧ index = ptx va
    · rw [if_pos hsame]
      exact .inr rfl
    · rw [if_neg hsame]
      exact .inl rfl

/-- Pages above `KERNBASE` are mapped, if there is memory for the tables. -/
theorem Paged.mappages_kernel {count pa : ℕ} (hpaged : Paged pool memory live hand)
    (hlive : pgdir ∈ live) (hva : kernPage ≤ va) (hend : va + count ≤ 2 ^ 20)
    (hmap : mappages pgdir writable user rest count va pa memory = some (ok, memory')) :
    Paged pool memory' live hand ∧ Grows memory pgdir memory' ∧
      (Keeps (kernelHalf pgdir) memory live hand memory' hand ∧ Flagged memory pgdir user memory') ∧
      (ok = true → ∀ k < count, entry memory' pgdir (pdx (va + k)) (ptx (va + k)) =
        ⟨pa + k, true, writable, user, rest⟩) := by
  induction count generalizing va pa memory with
  | zero =>
    cases hmap
    exact ⟨hpaged, fun _ _ _ => rfl, ⟨.refl .., .of_words rfl⟩,
      fun _ k hk => absurd hk (Nat.not_lt_zero k)⟩
  | succ count ih =>
    have hdir := pdx_kernel hva (by omega)
    rw [mappages] at hmap
    split at hmap
    · next hwalk =>
      cases hmap
      have hwords := walkpgdir_none_entry hwalk
      exact ⟨hpaged.walkpgdir_none hwalk, .of_words hwords,
        ⟨.of_words hwords fun _ => rfl, .of_words hwords⟩, nofun⟩
    · next pgtab index middle hwalk =>
      obtain ⟨hmiddle, hfound, hentry, hwalked⟩ := hpaged.walkpgdir_some hlive hwalk
      split_ifs at hmap with hpresent
      have hset := hmiddle.map_kernel hlive hfound hdir ⟨pa, true, writable, user, rest⟩
      obtain ⟨hkeeps, hflagged⟩ :=
        hmiddle.set_kernel hlive hfound hdir ⟨pa, true, writable, user, rest⟩
      obtain ⟨hdone, hgrows, ⟨hkeeps', hflagged'⟩, hmapped⟩ := ih hset (by omega) (by omega) hmap
      refine ⟨hdone, ?_, ⟨?_, ?_⟩, ?_⟩
      · apply Grows.trans _ hgrows
        rw [Grows, ← hentry]
        exact hmiddle.set_grows hlive hfound hpresent _
      · apply ((hwalked.trans hkeeps).trans hkeeps').mono
        rintro place ((rfl | hplace) | hplace)
        · exact .inl ⟨_, hdir, rfl⟩
        · exact hplace
        · exact hplace
      · apply Flagged.trans _ hflagged'
        rw [Flagged, ← hentry]
        exact hflagged
      · intro hok k hk
        cases k with
        | zero =>
          have hfirst : entry (middle.set pgtab index ⟨pa, true, writable, user, rest⟩) pgdir
              (pdx va) (ptx va) = ⟨pa, true, writable, user, rest⟩ := by
            obtain ⟨hthere, rfl, rfl⟩ := hfound
            exact hmiddle.apart.set_entry_self hlive hthere
          have hlater := hgrows (pdx va) (ptx va) (by rw [hfirst])
          exact hlater.trans hfirst
        | succ k =>
          have hnext := hmapped hok k (by omega)
          rwa [add_right_comm va 1 k, add_right_comm pa 1 k] at hnext

section Freeing

variable (kernel : Kernel)

/-- The page at the head of the free list again. -/
def Memory.freed (memory : Memory) (page : ℕ) : Memory :=
  { memory.fill page (fun _ => Word.junk) with
    freelist := page :: memory.freelist
    refreed := if page ∈ memory.freelist then memory.refreed + 1 else memory.refreed }

/-- Pages of the pool lie between the end of the kernel and the end of the memory. -/
def Freeable (pool : List ℕ) : Prop :=
  ∀ page ∈ pool, kernel.ends ≤ page ∧ page < physPage

variable {kernel}

theorem kfree_eq (hpool : Freeable kernel pool) (hpage : page ∈ pool) :
    kfree kernel memory page = some (memory.freed page) := by
  obtain ⟨hends, hphys⟩ := hpool page hpage
  rw [kfree, if_neg]
  · rfl
  · omega

/-- Places give their pages back. -/
structure Releases (places : Set Place) (memory : Memory) (live : List ℕ)
    (hand : Option ℕ) (after : Memory) (live' : List ℕ) (hand' : Option ℕ) : Prop where
  gone : ∀ place ∈ places, target after live' hand' place = none
  kept : ∀ place, place ∉ places → target after live' hand' place = target memory live hand place
  free : ∀ page, page ∈ after.freelist ↔
    page ∈ memory.freelist ∨ ∃ place ∈ places, target memory live hand place = some page

theorem Paged.release (hpaged : Paged pool memory live hand)
    (hreleases : Releases places memory live hand after live' hand')
    (hnodup : after.freelist.Nodup) (hrefreed : after.refreed = 0) :
    Paged pool after live' hand' := by
  refine ⟨?_, hnodup, hrefreed⟩
  apply hpaged.owned.release places
  · intro page
    rw [hreleases.free, not_or]
  · exact hreleases.gone
  · exact hreleases.kept

theorem Paged.freed_nodup (hpaged : Paged pool memory live hand)
    (hplace : target memory live hand place = some page) :
    (memory.freed page).freelist.Nodup ∧ (memory.freed page).refreed = 0 := by
  have hnot := hpaged.not_free hplace
  refine ⟨nodup_cons.2 ⟨hnot, hpaged.nodup⟩, ?_⟩
  rw [Memory.freed, if_neg hnot]
  exact hpaged.refreed

theorem mem_freed :
    other ∈ (memory.freed page).freelist ↔ other ∈ memory.freelist ∨ page = other := by
  rw [Memory.freed, mem_cons, or_comm, eq_comm]

/-- The call gives the page back that it has. -/
theorem Paged.drop (hpaged : Paged pool memory live (some page)) :
    Paged pool (memory.freed page) live none := by
  have hhand : target memory live (some page) .hand = some page := rfl
  have hplain : Plain memory live page := by
    apply hpaged.apart.plain hhand
    · exact nofun
    · exact nofun
  have htarget : target (memory.freed page) live none =
      update (target memory live (some page)) .hand none := by
    calc target (memory.freed page) live none
        = target (memory.fill page fun _ => Word.junk) live none := target_of_words rfl
      _ = target memory live none := hplain.fill_target _
      _ = _ := target_hand memory live (some page) none
  obtain ⟨hnodup, hrefreed⟩ := hpaged.freed_nodup hhand
  have hreleases : Releases {.hand} memory live (some page) (memory.freed page) live none := by
    constructor
    · rintro _ rfl
      rw [htarget]
      exact update_self ..
    · intro place hplace
      rw [htarget]
      exact update_of_ne hplace ..
    · intro other
      rw [mem_freed]
      simp [hhand]
  exact hpaged.release hreleases hnodup hrefreed

/-! ### The pages of a user -/

theorem Releases.refl_of_none (hnone : ∀ place ∈ places, target memory live hand place = none) :
    Releases places memory live hand memory live hand := by
  constructor
  · exact hnone
  · exact fun _ _ => rfl
  · intro page
    constructor
    · exact .inl
    · rintro (hfree | ⟨place, hplace, htarget⟩)
      · exact hfree
      · rw [hnone place hplace] at htarget
        cases htarget

theorem Releases.trans {first second : Set Place}
    (hfirst : Releases first memory live hand middle live hand)
    (hsecond : Releases second middle live hand after live hand) :
    Releases (first ∪ second) memory live hand after live hand := by
  have hmiddle : ∀ place, target middle live hand place = none ∨
      place ∉ first ∧ target middle live hand place = target memory live hand place := by
    intro place
    by_cases hplace : place ∈ first
    · exact .inl (hfirst.gone place hplace)
    · exact .inr ⟨hplace, hfirst.kept place hplace⟩
  constructor
  · rintro place (hplace | hplace)
    · by_cases hagain : place ∈ second
      · exact hsecond.gone place hagain
      · rw [hsecond.kept place hagain]
        exact hfirst.gone place hplace
    · exact hsecond.gone place hplace
  · intro place hplace
    rw [mem_union, not_or] at hplace
    rw [hsecond.kept place hplace.2, hfirst.kept place hplace.1]
  · intro page
    rw [hsecond.free, hfirst.free, or_assoc]
    apply or_congr_right
    constructor
    · rintro (⟨place, hplace, htarget⟩ | ⟨place, hplace, htarget⟩)
      · exact ⟨place, .inl hplace, htarget⟩
      · obtain hnone | ⟨-, hsame⟩ := hmiddle place
        · cases hnone.symm.trans htarget
        · exact ⟨place, .inr hplace, hsame ▸ htarget⟩
    · rintro ⟨place, hplace | hplace, htarget⟩
      · exact .inl ⟨place, hplace, htarget⟩
      · by_cases hagain : place ∈ first
        · exact .inl ⟨place, hagain, htarget⟩
        · exact .inr ⟨place, hplace, (hfirst.kept place hagain).trans htarget⟩

/-- The user pages of a directory from page `a` on that lie below a size. -/
def usersFrom (pgdir oldsz a : ℕ) : Set Place :=
  { place | ∃ dir index : Index, place = .user pgdir dir index ∧
    a ≤ dir.val * 1024 + index.val ∧ (dir.val * 1024 + index.val) * 4096 < oldsz }

theorem target_user_of_words (hlive : pgdir ∈ live) (hdir : dir.val < 512)
    (hpresent : (memory.words pgdir dir).present)
    (hentry : (memory.words (memory.words pgdir dir).page index).present) :
    target memory live hand (.user pgdir dir index) =
      some (memory.words (memory.words pgdir dir).page index).page := by
  have hsame : entry memory pgdir dir index =
    memory.words (memory.words pgdir dir).page index := if_pos hpresent
  rw [target_user hlive hdir (by rwa [hsame]), hsame]

/-- A page of the user is freed and its entry cleared. -/
theorem Paged.unmap (hpaged : Paged pool memory live hand) (hlive : pgdir ∈ live)
    (hpresent : (memory.words pgdir dir).present) (hdir : dir.val < 512)
    (hentry : (memory.words (memory.words pgdir dir).page index).present) {after : Memory}
    (hafter : after = (memory.freed (memory.words (memory.words pgdir dir).page index).page).set
      (memory.words pgdir dir).page index Word.zero) :
    Releases {.user pgdir dir index} memory live hand after live hand ∧ Paged pool after live hand ∧
      Keeps {.user pgdir dir index} memory live hand after hand := by
  set page := (memory.words (memory.words pgdir dir).page index).page with hpage
  have hplace : target memory live hand (.user pgdir dir index) = some page :=
    target_user_of_words hlive hdir hpresent hentry
  have hplain : Plain memory live page := by
    apply hpaged.apart.plain hplace
    · exact nofun
    · exact nofun
  have hfreed : target (memory.freed page) live hand = target memory live hand :=
    (target_of_words rfl).trans (hplain.fill_target fun _ => Word.junk)
  have hwords : (memory.freed page).words pgdir = memory.words pgdir := hplain.fill_words hlive _
  have htarget : target after live hand =
      update (target memory live hand) (.user pgdir dir index) none := by
    rw [hafter, ← hwords]
    rw [(hpaged.apart_of_target hfreed).set_target_user hlive (by rwa [hwords]) hdir, hfreed]
    rfl
  obtain ⟨hnodup, hrefreed⟩ := hpaged.freed_nodup hplace
  have hreleases : Releases {.user pgdir dir index} memory live hand after live hand := by
    constructor
    · rintro _ rfl
      rw [htarget]
      exact update_self ..
    · intro place hother
      rw [htarget]
      exact update_of_ne hother ..
    · intro other
      have hmem : other ∈ after.freelist ↔ other ∈ (memory.freed page).freelist := by
        rw [hafter]
        rfl
      rw [hmem, mem_freed]
      simp [hplace]
  refine ⟨hreleases, hpaged.release hreleases ?_ ?_, ?_⟩
  · rw [hafter]
    exact hnodup
  · rw [hafter]
    exact hrefreed
  · have hfilled : Keeps {.user pgdir dir index} memory live hand
        (memory.fill page fun _ => Word.junk) hand := by
      apply Keeps.of_fill hplain
      intro place hother _ htarget
      exact hother (hpaged.owned.unique htarget hplace)
    have hkept : Keeps {.user pgdir dir index} memory live hand (memory.freed page) hand :=
      hfilled.congr rfl
    have hcleared : Keeps {.user pgdir dir index} (memory.freed page) live hand
        ((memory.freed page).set ((memory.freed page).words pgdir dir).page index Word.zero)
        hand := .of_set (hpaged.apart_of_target hfreed) hlive (by rwa [hwords]) Word.zero
    rw [hwords] at hcleared
    rw [hafter]
    exact (hkept.trans hcleared).mono (union_self _).le

theorem Releases.extend {inner : Set Place}
    (hreleases : Releases inner memory live hand after live hand) (hinner : inner ⊆ places)
    (hnone : ∀ place ∈ places, place ∉ inner → target memory live hand place = none) :
    Releases places memory live hand after live hand := by
  have hrest : Releases (places \ inner) memory live hand memory live hand :=
    .refl_of_none fun place hplace => hnone place hplace.1 hplace.2
  have hboth := hrest.trans hreleases
  rwa [sdiff_union_of_subset hinner] at hboth

theorem usersFrom_mono {b : ℕ} (hle : a ≤ b) :
    usersFrom pgdir oldsz b ⊆ usersFrom pgdir oldsz a := by
  rintro _ ⟨dir, index, rfl, hfrom, hbelow⟩
  exact ⟨dir, index, rfl, hle.trans hfrom, hbelow⟩

theorem usersFrom_succ (ha : a < kernPage) (hmore : a * 4096 < oldsz) :
    usersFrom pgdir oldsz a =
      {.user pgdir (pdx a) (ptx a)} ∪ usersFrom pgdir oldsz (a + 1) := by
  have hdir := pdx_user ha
  have hindex : (ptx a).val = a % 1024 := rfl
  ext place
  constructor
  · rintro ⟨dir, index, rfl, hfrom, hbelow⟩
    by_cases hsame : a = dir.val * 1024 + index.val
    · have hd : dir = pdx a := by
        apply Fin.ext
        omega
      have hi : index = ptx a := by
        apply Fin.ext
        omega
      rw [hd, hi]
      exact .inl (mem_singleton _)
    · exact .inr ⟨dir, index, rfl, by omega, hbelow⟩
  · rintro (rfl | hplace)
    · have hsum : (pdx a).val * 1024 + (ptx a).val = a := by omega
      refine ⟨pdx a, ptx a, rfl, hsum.ge, ?_⟩
      rwa [hsum]
    · exact usersFrom_mono (Nat.le_succ a) hplace

/-- The loop frees the user pages that are left. -/
theorem deallocLoop_spec (hpool : Freeable kernel pool) (hsize : oldsz ≤ kernbase)
    (ha : a ≤ kernPage) (hpaged : Paged pool memory live hand) (hlive : pgdir ∈ live) :
    ∃ after, deallocLoop kernel pgdir oldsz a memory = some after ∧
      Releases (usersFrom pgdir oldsz a) memory live hand after live hand ∧
      Paged pool after live hand ∧
      Keeps (usersFrom pgdir oldsz a) memory live hand after hand := by
  have hpage : kernPage = 524288 := rfl
  have hbase : kernbase = 2147483648 := rfl
  rw [deallocLoop_eq hsize ha]
  induction hleft : (oldsz + 4095) / 4096 - a generalizing a memory with
  | zero =>
    rw [pagesFrom_of_le (by omega)]
    refine ⟨memory, rfl, .refl_of_none ?_, hpaged, .refl ..⟩
    rintro _ ⟨dir, index, rfl, hfrom, hbelow⟩
    omega
  | succ left ih =>
    have hmore : a * 4096 < oldsz := by omega
    have hbelow : a < kernPage := by omega
    rw [pagesFrom_of_lt hmore, plainLoop, usersFrom_succ hbelow hmore]
    by_cases hentry : (memory.words pgdir (pdx a)).present ∧
        (memory.words (memory.words pgdir (pdx a)).page (ptx a)).present
    · obtain ⟨hunmapped, hpaged', hunmapping⟩ :=
        hpaged.unmap hlive hentry.1 (pdx_user_lt hbelow) hentry.2 rfl
      obtain ⟨after, hloop, hreleases, hdone, hkeeps⟩ :=
        ih (a := a + 1) (by omega) hpaged' (by omega)
      have hmem : (memory.words (memory.words pgdir (pdx a)).page (ptx a)).page ∈ pool :=
        hpaged.mem_pool (target_user_of_words hlive (pdx_user_lt hbelow) hentry.1 hentry.2)
      have hends := (hpool _ hmem).1
      have hdata := kernel.ends_gt
      rw [if_pos hentry, if_neg (by omega), kfree_eq hpool hmem, Option.bind_some, Option.map_map]
      exact ⟨after, hloop, hunmapped.trans hreleases, hdone, hunmapping.trans hkeeps⟩
    · obtain ⟨after, hloop, hreleases, hdone, hkeeps⟩ :=
        ih (a := a + 1) (by omega) hpaged (by omega)
      rw [if_neg hentry]
      refine ⟨after, hloop, ?_, hdone, hkeeps.mono subset_union_right⟩
      apply hreleases.extend subset_union_right
      rintro place (rfl | hplace) hnot
      · apply if_neg
        rintro ⟨-, -, hthere⟩
        rw [entry] at hthere
        split_ifs at hthere with hpresent
        · exact hentry ⟨hpresent, hthere⟩
        · cases hthere
      · exact absurd hplace hnot

/-- `deallocuvm` returns and frees the user pages between the sizes. -/
theorem deallocuvm_spec (hpool : Freeable kernel pool) (newsz : ℕ) (hsize : oldsz ≤ kernbase)
    (hpaged : Paged pool memory live hand) (hlive : pgdir ∈ live) :
    ∃ after, deallocuvm kernel memory pgdir oldsz newsz = some (min oldsz newsz, after) ∧
      (newsz < oldsz →
        Releases (usersFrom pgdir oldsz (pgroundup newsz)) memory live hand after live hand) ∧
      Paged pool after live hand ∧
      Keeps (usersFrom pgdir oldsz (pgroundup newsz)) memory live hand after hand := by
  rw [deallocuvm]
  by_cases hless : newsz ≥ oldsz
  · rw [if_pos hless, min_eq_left hless]
    exact ⟨memory, rfl, fun hlt => absurd hless (not_le.2 hlt), hpaged, .refl ..⟩
  · have hround : pgroundup newsz ≤ kernPage := by
      have hpage : kernPage = 524288 := rfl
      have hbase : kernbase = 2147483648 := rfl
      rw [pgroundup]
      omega
    obtain ⟨after, hloop, hreleases, hdone, hkeeps⟩ :=
      deallocLoop_spec hpool hsize hround hpaged hlive
    rw [if_neg hless, hloop, min_eq_right (not_le.1 hless).le]
    exact ⟨after, rfl, fun _ => hreleases, hdone, hkeeps⟩

def tables (memory : Memory) (pgdir : ℕ) (dirs : List Index) : List ℕ :=
  (dirs.filter fun dir => (memory.words pgdir dir).present).map fun dir =>
    (memory.words pgdir dir).page

theorem mem_tables {page : ℕ} :
    page ∈ tables memory pgdir dirs ↔
      ∃ dir ∈ dirs, (memory.words pgdir dir).present ∧ (memory.words pgdir dir).page = page := by
  simp [tables, and_assoc]

theorem tables_congr (hwords : memory'.words pgdir = memory.words pgdir) (dirs : List Index) :
    tables memory' pgdir dirs = tables memory pgdir dirs := by
  rw [tables, tables, hwords]

/-- What `freeTables` does when the tables are pages of the pool that are not free. -/
theorem freeTables_spec (hpool : Freeable kernel pool)
    (hmem : ∀ page ∈ tables memory pgdir dirs, page ∈ pool ∧ page ∉ memory.freelist ∧
      page ≠ pgdir) (hnodup : (tables memory pgdir dirs).Nodup) :
    ∃ after, freeTables kernel pgdir dirs memory = some after ∧
      after.freelist = (tables memory pgdir dirs).reverse ++ memory.freelist ∧
      after.refreed = memory.refreed ∧
      ∀ page, page ∉ tables memory pgdir dirs → after.words page = memory.words page := by
  induction dirs generalizing memory with
  | nil => exact ⟨memory, rfl, rfl, rfl, fun _ _ => rfl⟩
  | cons dir rest ih =>
    by_cases hpresent : (memory.words pgdir dir).present
    · have hcons : tables memory pgdir (dir :: rest) =
          (memory.words pgdir dir).page :: tables memory pgdir rest := by
        simp [tables, hpresent]
      rw [hcons] at hmem hnodup
      obtain ⟨hin, hnot, hne⟩ := hmem _ (.head _)
      obtain ⟨hfirst, hrest⟩ := nodup_cons.1 hnodup
      have hsame : tables (memory.freed (memory.words pgdir dir).page) pgdir rest =
          tables memory pgdir rest := tables_congr (fill_words_of_ne hne.symm) rest
      have hthen : ∀ page ∈ tables (memory.freed (memory.words pgdir dir).page) pgdir rest,
          page ∈ pool ∧ page ∉ (memory.freed (memory.words pgdir dir).page).freelist ∧
            page ≠ pgdir := by
        intro page hpage
        rw [hsame] at hpage
        obtain ⟨hpagein, hfree, hother⟩ := hmem page (.tail _ hpage)
        refine ⟨hpagein, ?_, hother⟩
        rw [mem_freed, not_or]
        exact ⟨hfree, fun heq => hfirst (heq ▸ hpage)⟩
      obtain ⟨after, hfreed, hlist, hrefreed, hwords⟩ := ih hthen (hsame ▸ hrest)
      rw [freeTables, if_pos hpresent, kfree_eq hpool hin, hcons]
      refine ⟨after, hfreed, ?_, ?_, ?_⟩
      · rw [hlist, hsame, reverse_cons, append_assoc]
        rfl
      · rw [hrefreed, Memory.freed, if_neg hnot]
      · intro page hpage
        rw [mem_cons, not_or] at hpage
        rw [hwords page (hsame ▸ hpage.2)]
        exact fill_words_of_ne hpage.1
    · have hskip : tables memory pgdir (dir :: rest) = tables memory pgdir rest := by
        simp [tables, hpresent]
      rw [hskip] at hmem hnodup ⊢
      rw [freeTables, if_neg hpresent]
      exact ih hmem hnodup

def placesOf (pgdir : ℕ) : Set Place :=
  { place | place = .directory pgdir ∨ (∃ dir, place = .table pgdir dir) ∨
    ∃ dir index, place = .user pgdir dir index }

theorem Paged.tables_nodup (hpaged : Paged pool memory live hand) (hlive : pgdir ∈ live)
    (hdirs : dirs.Nodup) : (tables memory pgdir dirs).Nodup := by
  apply (hdirs.filter _).map_on
  intro left hleft right hright hsame
  have hl : (memory.words pgdir left).present := by simpa using (mem_filter.1 hleft).2
  have hr : (memory.words pgdir right).present := by simpa using (mem_filter.1 hright).2
  exact (hpaged.apart.table_injective hlive hr hlive hl hsame).2

def without (live : List ℕ) (pgdir : ℕ) : List ℕ :=
  live.filter (· ≠ pgdir)

theorem mem_without : other ∈ without live pgdir ↔ other ∈ live ∧ other ≠ pgdir := by
  simp [without]

theorem target_without (hnot : pgdir ∉ live) (hplace : place ∈ placesOf pgdir) :
    target memory live hand place = none := by
  obtain rfl | ⟨dir, rfl⟩ | ⟨dir, index, rfl⟩ := hplace
  · exact if_neg hnot
  · exact if_neg fun hboth => hnot hboth.1
  · exact if_neg fun hboth => hnot hboth.1

theorem target_without_other (hplace : place ∉ placesOf pgdir) :
    target memory (without live pgdir) hand place = target memory live hand place := by
  cases place with
  | hand => rfl
  | directory other =>
    have hne : other ≠ pgdir := fun hsame => hplace (.inl (congrArg _ hsame))
    simp only [target, mem_without, hne, ne_eq, not_false_eq_true, and_true]
  | table other dir =>
    have hne : other ≠ pgdir := by
      rintro rfl
      exact hplace (.inr (.inl ⟨dir, rfl⟩))
    simp only [target, mem_without, hne, ne_eq, not_false_eq_true, and_true]
  | user other dir index =>
    have hne : other ≠ pgdir := by
      rintro rfl
      exact hplace (.inr (.inr ⟨dir, index, rfl⟩))
    simp only [target, mem_without, hne, ne_eq, not_false_eq_true, and_true]

/-- Filling a directory and its tables changes nothing in the others. -/
theorem Paged.keeps_without (hpaged : Paged pool memory live hand) (hlive : pgdir ∈ live)
    (hwords : ∀ page, page ∉ tables memory pgdir (finRange 1024) → page ≠ pgdir →
      after.words page = memory.words page) :
    Keeps ∅ memory (without live pgdir) hand after hand := by
  have hother : ∀ other ∈ without live pgdir, after.words other = memory.words other := by
    intro other hin
    rw [mem_without] at hin
    apply hwords other _ hin.2
    rw [mem_tables]
    rintro ⟨dir, -, hpresent, hpage⟩
    exact hpaged.apart.table_ne_directory hlive hpresent hin.1 hpage.symm
  constructor
  · exact fun _ => rfl
  · intro other hin dir _
    rw [hother other hin]
  · intro other hin dir index _
    rw [entry, entry, hother other hin]
    rw [mem_without] at hin
    by_cases hpresent : (memory.words other dir).present
    · rw [if_pos hpresent, if_pos hpresent, hwords]
      · rw [mem_tables]
        rintro ⟨dir', -, hpresent', hpage⟩
        exact hin.2 (hpaged.apart.table_injective hlive hpresent' hin.1 hpresent hpage.symm).1
      · exact (hpaged.apart.table_ne_directory hin.1 hpresent hlive).symm
    · rw [if_neg hpresent, if_neg hpresent]
  · intro place page _ hdata hfound
    have hthere : target memory live hand place = some page :=
      target_mono (fun other hin => (mem_without.1 hin).1) hfound
    apply hwords
    · rw [mem_tables]
      rintro ⟨dir, -, hpresent, rfl⟩
      rw [hpaged.owned.unique hthere (target_table hlive hpresent)] at hdata
      exact hdata
    · rintro rfl
      rw [hpaged.owned.unique hthere (target_directory hlive)] at hdata
      exact hdata

/-- A directory without user pages is freed with its tables. -/
theorem Paged.retire (hpool : Freeable kernel pool) (hpaged : Paged pool memory live hand)
    (hlive : pgdir ∈ live)
    (huser : ∀ dir index, target memory live hand (.user pgdir dir index) = none) :
    ∃ middle, freeTables kernel pgdir (finRange 1024) memory = some middle ∧
      kfree kernel middle pgdir = some (middle.freed pgdir) ∧
      Releases (placesOf pgdir) memory live hand (middle.freed pgdir) (without live pgdir) hand ∧
      Paged pool (middle.freed pgdir) (without live pgdir) hand ∧
      Keeps ∅ memory (without live pgdir) hand (middle.freed pgdir) hand := by
  have hdirectory : target memory live hand (.directory pgdir) = some pgdir :=
    target_directory hlive
  have htable : ∀ page ∈ tables memory pgdir (finRange 1024),
      ∃ dir, target memory live hand (.table pgdir dir) = some page := by
    intro page hpage
    obtain ⟨dir, -, hpresent, rfl⟩ := mem_tables.1 hpage
    exact ⟨dir, target_table hlive hpresent⟩
  have hmem : ∀ page ∈ tables memory pgdir (finRange 1024), page ∈ pool ∧
      page ∉ memory.freelist ∧ page ≠ pgdir := by
    intro page hpage
    obtain ⟨dir, hplace⟩ := htable page hpage
    refine ⟨hpaged.mem_pool hplace, hpaged.not_free hplace, ?_⟩
    rintro rfl
    cases hpaged.owned.unique hplace hdirectory
  have hnodup := hpaged.tables_nodup hlive (nodup_finRange 1024)
  obtain ⟨middle, hfreed, hlist, hrefreed, hwords⟩ := freeTables_spec hpool hmem hnodup
  have hnot : pgdir ∉ middle.freelist := by
    rw [hlist, mem_append, mem_reverse, not_or]
    exact ⟨fun hpage => (hmem pgdir hpage).2.2 rfl, hpaged.not_free hdirectory⟩
  have hkeeps : Keeps ∅ memory (without live pgdir) hand (middle.freed pgdir) hand := by
    apply hpaged.keeps_without hlive
    intro page hpage hne
    exact (fill_words_of_ne hne).trans (hwords page hpage)
  have hreleases : Releases (placesOf pgdir) memory live hand (middle.freed pgdir)
      (without live pgdir) hand := by
    constructor
    · intro place hplace
      apply target_without _ hplace
      rw [mem_without]
      exact fun hboth => hboth.2 rfl
    · intro place hplace
      exact (hkeeps.target (notMem_empty place)).trans (target_without_other hplace)
    · intro page
      rw [mem_freed, hlist, mem_append, mem_reverse]
      constructor
      · rintro ((hpage | hpage) | rfl)
        · obtain ⟨dir, hplace⟩ := htable page hpage
          exact .inr ⟨_, .inr (.inl ⟨dir, rfl⟩), hplace⟩
        · exact .inl hpage
        · exact .inr ⟨_, .inl rfl, hdirectory⟩
      · rintro (hpage | ⟨place, rfl | ⟨dir, rfl⟩ | ⟨dir, index, rfl⟩, hplace⟩)
        · exact .inl (.inr hpage)
        · rw [hdirectory] at hplace
          exact .inr (Option.some.inj hplace)
        · rw [target] at hplace
          split_ifs at hplace with hboth
          cases hplace
          exact .inl (.inl (mem_tables.2 ⟨dir, mem_finRange dir, hboth.2, rfl⟩))
        · rw [huser] at hplace
          cases hplace
  refine ⟨middle, hfreed, kfree_eq hpool (hpaged.mem_pool hdirectory), hreleases,
    hpaged.release hreleases ?_ ?_, hkeeps⟩
  · apply nodup_cons.2 ⟨hnot, _⟩
    rw [hlist]
    apply (nodup_reverse.2 hnodup).append hpaged.nodup
    intro page hpage hfree
    exact (hmem page (mem_reverse.1 hpage)).2.1 hfree
  · rw [Memory.freed, if_neg hnot, hrefreed]
    exact hpaged.refreed

/-- `freevm` returns, and every page of the directory is free then. -/
theorem freevm_spec (hpool : Freeable kernel pool) (hpaged : Paged pool memory live hand)
    (hlive : pgdir ∈ live) :
    ∃ after, freevm kernel memory pgdir = some after ∧ Paged pool after (without live pgdir) hand ∧
      (∀ place ∈ placesOf pgdir, ∀ page, target memory live hand place = some page →
        page ∈ after.freelist) ∧
      Keeps ∅ memory (without live pgdir) hand after hand := by
  obtain ⟨cleared, hdealloc, hreleased, hcleared, hkeeps⟩ :=
    deallocuvm_spec hpool 0 le_rfl hpaged hlive
  have hreleases := hreleased (by decide)
  have hall : ∀ dir index : Index, dir.val < 512 →
      Place.user pgdir dir index ∈ usersFrom pgdir kernbase (pgroundup 0) := by
    intro dir index hdir
    have hbase : kernbase = 2147483648 := rfl
    refine ⟨dir, index, rfl, ?_, ?_⟩
    · exact Nat.zero_le _
    · omega
  have huser : ∀ dir index, target cleared live hand (.user pgdir dir index) = none := by
    intro dir index
    by_cases hdir : dir.val < 512
    · exact hreleases.gone _ (hall dir index hdir)
    · exact if_neg fun hboth => hdir hboth.2.1
  obtain ⟨middle, htables, hkfree, hretired, hdone, hkept⟩ := hcleared.retire hpool hlive huser
  refine ⟨middle.freed pgdir, ?_, hdone, ?_, ?_⟩
  · rw [freevm, hdealloc]
    dsimp only
    rw [htables]
    exact hkfree
  · intro place hplace page htarget
    rw [hretired.free]
    by_cases hgone : place ∈ usersFrom pgdir kernbase (pgroundup 0)
    · exact .inl ((hreleases.free page).2 (.inr ⟨place, hgone, htarget⟩))
    · exact .inr ⟨place, hplace, (hreleases.kept place hgone).trans htarget⟩
  · have hothers : Keeps ∅ memory (without live pgdir) hand cleared hand := by
      apply hkeeps.restrict
      · exact fun other hother => (mem_without.1 hother).1
      · rintro - ⟨_, _, hplace, -⟩
        cases hplace
      · rintro other - dir - ⟨_, _, hplace, -⟩
        cases hplace
      · rintro other hother dir index - ⟨_, _, hplace, -⟩
        cases hplace
        exact (mem_without.1 hother).2 rfl
    exact (hothers.trans hkept).mono (union_self _).le

end Freeing

end Xv6Users.VirtualMemory
