import Xv6Users.Core.Runs
import Xv6Users.Kernel.PageSpecs

/-!
# Pages are conserved

Every call for a page directory keeps each page in one place, whatever allocation fails in
it, as long as `deallocuvm` is not asked for addresses above `KERNBASE`.
-/

namespace Xv6Users.VirtualMemory

open Ownership List Option Finset Set

variable {system : System} {a count d i n newsz oldsz : ℕ}

variable {kernel : Kernel} {pool : List ℕ} {memory memory' after : Memory} {live : List ℕ}
  {hand result : Option ℕ} {pgdir page va : ℕ}

/-! ## Making a directory -/

/-- A row of the kernel's mappings that lies above `KERNBASE`. -/
def Row.High (row : Row) : Prop :=
  kernPage ≤ row.virt ∧ row.virt + (row.stop - row.start) ≤ 2 ^ 20

theorem kmap_high (kernel : Kernel) : ∀ row ∈ kmap kernel, row.High := by
  have hdata := kernel.ends_gt
  have hends := kernel.ends_le
  have hkern : kernPage = 524288 := rfl
  have hext : extPage = 256 := rfl
  have hphys : physPage = 57344 := rfl
  have hdev : devPage = 1040384 := rfl
  intro row hrow
  simp only [kmap, List.mem_cons, List.not_mem_nil, or_false] at hrow
  obtain rfl | rfl | rfl | rfl := hrow
  · constructor <;> dsimp only <;> omega
  · constructor <;> dsimp only <;> omega
  · constructor <;> dsimp only <;> omega
  · constructor <;> dsimp only <;> omega

def RowsMapped (memory : Memory) (pgdir : ℕ) (rows : List Row) : Prop :=
  ∀ row ∈ rows, ∀ k < row.stop - row.start,
    entry memory pgdir (pdx (row.virt + k)) (ptx (row.virt + k)) =
      ⟨row.start + k, true, row.writable, false, 0⟩

variable {rows : List Row} {rest : Fin 512}

theorem Paged.mapRows {ok : Bool} (hpaged : Paged pool memory live hand)
    (hlive : pgdir ∈ live) (hhigh : ∀ row ∈ rows, row.High)
    (hmap : mapRows pgdir rows memory = some (ok, memory')) :
    Paged pool memory' live hand ∧ Grows memory pgdir memory' ∧
      (Keeps (kernelHalf pgdir) memory live hand memory' hand ∧
        Flagged memory pgdir false memory') ∧
      (ok = true → RowsMapped memory' pgdir rows) := by
  induction rows generalizing memory with
  | nil =>
    cases hmap
    exact ⟨hpaged, fun _ _ _ => rfl, ⟨.refl .., .of_words rfl⟩,
      fun _ row hrow => absurd hrow not_mem_nil⟩
  | cons row rows ih =>
    obtain ⟨hva, hend⟩ := hhigh row (.head _)
    rw [VirtualMemory.mapRows] at hmap
    split at hmap
    · cases hmap
    · next middle hrow =>
      cases hmap
      obtain ⟨hmiddle, hgrows, hkept, -⟩ := hpaged.mappages_kernel hlive hva hend hrow
      exact ⟨hmiddle, hgrows, hkept, nofun⟩
    · next middle hrow =>
      obtain ⟨hmiddle, hgrows, ⟨hkeeps, hflagged⟩, hmapped⟩ :=
        hpaged.mappages_kernel hlive hva hend hrow
      obtain ⟨hdone, hgrows', ⟨hkeeps', hflagged'⟩, hrest⟩ :=
        ih hmiddle (fun other hother => hhigh other (.tail _ hother)) hmap
      refine ⟨hdone, hgrows.trans hgrows', ⟨?_, hflagged.trans hflagged'⟩, ?_⟩
      · exact (hkeeps.trans hkeeps').mono (union_self _).le
      intro hok other hother k hk
      cases List.mem_cons.1 hother with
      | inl hsame =>
        subst hsame
        have hthere := hmapped rfl k hk
        rw [hgrows' _ _ (by rw [hthere]), hthere]
      | inr hlater => exact hrest hok other hlater k hk

theorem without_cons_self (hnot : pgdir ∉ live) : without (pgdir :: live) pgdir = live := by
  rw [without, filter_cons_of_neg (by simp)]
  apply filter_eq_self.2
  intro other hother
  simpa using ne_of_mem_of_not_mem hother hnot

/-- A directory that maps the kernel and nothing for a user. -/
structure Fresh (kernel : Kernel) (memory : Memory) (pgdir : ℕ) : Prop where
  rows : RowsMapped memory pgdir (kmap kernel)
  bare : ∀ dir : Index, dir.val < 512 → ¬ (memory.words pgdir dir).present
  upper : ∀ dir index : Index, (entry memory pgdir dir index).user = false

theorem Fresh.lower (hfresh : Fresh kernel memory pgdir) (dir index : Index)
    (hdir : dir.val < 512) : ¬ (entry memory pgdir dir index).present := by
  rw [entry, if_neg (hfresh.bare dir hdir)]
  rintro ⟨⟩

/-- A new directory has nothing to do with the others. -/
theorem Keeps.behind {pgdir : ℕ} (hnew : pgdir ∉ live)
    (hkeeps : Keeps (kernelHalf pgdir) memory (pgdir :: live) hand after hand) :
    Keeps ∅ memory live hand after hand := by
  apply hkeeps.restrict
  · exact fun other hother => .tail pgdir hother
  · rintro - (⟨_, -, hplace⟩ | ⟨_, _, -, hplace⟩)
    · cases hplace
    · cases hplace
  · rintro other hother dir - (⟨_, -, hplace⟩ | ⟨_, _, -, hplace⟩)
    · cases hplace
      exact hnew hother
    · cases hplace
  · rintro other hother dir index - (⟨_, -, hplace⟩ | ⟨_, _, -, hplace⟩)
    · cases hplace
    · cases hplace
      exact hnew hother

theorem fresh_of_rows (hzero : memory.words pgdir = fun _ => Word.zero) (hlive : pgdir ∈ live)
    (hrows : RowsMapped after pgdir (kmap kernel))
    (hkeeps : Keeps (kernelHalf pgdir) memory live hand after hand)
    (hflagged : Flagged memory pgdir false after) : Fresh kernel after pgdir := by
  refine ⟨hrows, ?_, ?_⟩
  · intro dir hdir
    rw [hkeeps.table pgdir hlive dir, hzero]
    · exact nofun
    · rintro (⟨_, hhigh, hplace⟩ | ⟨_, _, -, hplace⟩)
      · cases hplace
        exact hhigh hdir
      · cases hplace
  · intro dir index
    obtain hsame | huser := hflagged dir index
    · rw [hsame, entry_of_zero hzero]
      rfl
    · exact huser

/-- `setupkvm` makes a directory with the kernel's mappings or leaves all as it was. -/
theorem Paged.setupkvm (hpool : Freeable kernel pool) (hpaged : Paged pool memory live none)
    (hsetup : setupkvm kernel memory = some (result, after)) :
    Paged pool after (result.toList ++ live) none ∧ Keeps ∅ memory live none after none ∧
      ∀ pgdir ∈ result, pgdir ∉ live ∧ Fresh kernel after pgdir := by
  rw [VirtualMemory.setupkvm] at hsetup
  split at hsetup
  · next hkalloc =>
    cases hsetup
    exact ⟨hpaged.kalloc_none hkalloc,
      Keeps.of_words (VirtualMemory.kalloc_none hkalloc).2.1 fun _ => rfl, nofun⟩
  · next pgdir middle hkalloc =>
    have hplain := hpaged.plain_of_kalloc hkalloc
    have hnew := hplain.directory
    have hadopted := hpaged.adopt hkalloc
    have hwords := (kalloc_some hkalloc).2.1
    have hfilled : Keeps ∅ memory live none (middle.fill pgdir fun _ => Word.zero) none := by
      apply (Keeps.of_fill hplain (fun _ => Word.zero) _).congr
      · rw [Memory.fill, Memory.fill, hwords]
      · exact fun place _ _ => hpaged.free_of_kalloc hkalloc place
    split at hsetup
    · cases hsetup
    · next mapped hrows =>
      obtain ⟨hmapped, -, ⟨hkeeps, -⟩, -⟩ :=
        hadopted.mapRows (.head _) (kmap_high kernel) hrows
      obtain ⟨freed, hfree, hdone, -, hfreed⟩ := freevm_spec hpool hmapped (.head _)
      rw [without_cons_self hnew] at hdone hfreed
      rw [hfree] at hsetup
      cases hsetup
      refine ⟨hdone, ?_, nofun⟩
      exact ((hfilled.trans (hkeeps.behind hnew)).trans hfreed).mono (by simp)
    · next mapped hrows =>
      obtain ⟨hmapped, -, ⟨hkeeps, hflagged⟩, hentries⟩ :=
        hadopted.mapRows (.head _) (kmap_high kernel) hrows
      cases hsetup
      refine ⟨hmapped, (hfilled.trans (hkeeps.behind hnew)).mono (by simp), ?_⟩
      rintro _ ⟨⟩
      exact ⟨hnew, fresh_of_rows (fill_words_self ..) (.head _) (hentries rfl) hkeeps
        hflagged⟩

/-! ## Growing and copying -/

theorem Paged.fill_hand (hpaged : Paged pool memory live (some page))
    (content : Index → Word) : Paged pool (memory.fill page content) live (some page) := by
  have hhand : target memory live (some page) .hand = some page := rfl
  have hplain : Plain memory live page := by
    apply hpaged.apart.plain hhand
    · exact nofun
    · exact nofun
  exact hpaged.same rfl rfl (hplain.fill_target content)

theorem Paged.hand_mem (hpaged : Paged pool memory live (some page)) : page ∈ pool :=
  hpaged.mem_pool (show target memory live (some page) .hand = some page from rfl)

def entryAt (memory : Memory) (pgdir va : ℕ) : Word :=
  entry memory pgdir (pdx va) (ptx va)

theorem indices_injective {first second : ℕ} (hfirst : first < 2 ^ 20)
    (hsecond : second < 2 ^ 20) (hdir : pdx first = pdx second)
    (hindex : ptx first = ptx second) : first = second := by
  have hd : first / 1024 % 1024 = second / 1024 % 1024 := congrArg Fin.val hdir
  have hi : first % 1024 = second % 1024 := congrArg Fin.val hindex
  omega

theorem Paged.fill_keeps (hpaged : Paged pool memory live (some page)) (content : Index → Word) :
    Keeps {.hand} memory live (some page) (memory.fill page content) (some page) := by
  have hhand : target memory live (some page) .hand = some page := rfl
  apply Keeps.of_fill (hpaged.apart.plain hhand (by exact nofun) (by exact nofun))
  intro place hother _ htarget
  exact hother (hpaged.owned.unique htarget hhand)

theorem Paged.drop_keeps (hpaged : Paged pool memory live (some page)) :
    Keeps {.hand} memory live (some page) (memory.freed page) none := by
  have hgiven : Keeps {.hand} (memory.fill page fun _ => Word.junk) live (some page)
      (memory.freed page) none := .of_words rfl fun hnot => absurd rfl hnot
  exact ((hpaged.fill_keeps _).trans hgiven).mono (union_self _).le

/-- A new page is filled. -/
theorem Paged.ready_keeps (hpaged : Paged pool memory live none)
    (hkalloc : kalloc memory = (some page, memory')) (content : Index → Word) :
    Keeps {.hand} memory live none (memory'.fill page content) (some page) := by
  have htaken : Keeps {.hand} memory live none memory' (some page) :=
    .of_words (kalloc_some hkalloc).2.1 fun hnot => absurd rfl hnot
  exact (htaken.trans ((hpaged.take hkalloc).fill_keeps content)).mono (union_self _).le

/-- A new page is filled and mapped for the user. -/
theorem Paged.supply {word : Word} (hpaged : Paged pool memory live none)
    (hkalloc : kalloc memory = (some page, memory')) (content : Index → Word)
    (hmapped : Mapped (memory'.fill page content) live pgdir va page word after) :
    Keeps {.table pgdir (pdx va), .user pgdir (pdx va) (ptx va)} memory live none after none ∧
      after.words page = content := by
  constructor
  · apply ((hpaged.ready_keeps hkalloc content).trans hmapped.keeps).empty_handed
    rintro place (rfl | rfl | hplace)
    · exact .inl rfl
    · exact .inl rfl
    · exact .inr hplace
  · rw [hmapped.content, fill_words_self]

theorem Keeps.entry_of_ne {va' : ℕ} (hkeeps : Keeps {.table pgdir (pdx va),
      .user pgdir (pdx va) (ptx va)} memory live none after none) (hlive : pgdir ∈ live)
    (hva' : va' < 2 ^ 20) (hva : va < 2 ^ 20) (hne : va' ≠ va) :
    entryAt after pgdir va' = entryAt memory pgdir va' := by
  apply hkeeps.entry pgdir hlive
  rintro (hplace | hplace)
  · cases hplace
  · obtain ⟨-, hdir, hindex⟩ := Place.user.inj hplace
    exact hne (indices_injective hva' hva hdir hindex)

/-- The tables of a directory and its user pages from page `a` on below a size. -/
def growing (pgdir newsz a : ℕ) : Set Place :=
  { place | (∃ dir, place = .table pgdir dir) ∨ place ∈ usersFrom pgdir newsz a }

theorem growing_mono {b : ℕ} (hle : a ≤ b) : growing pgdir newsz b ⊆ growing pgdir newsz a := by
  rintro place (hplace | hplace)
  · exact .inl hplace
  · exact .inr (usersFrom_mono hle hplace)

theorem mem_usersFrom (hva : va < kernPage) :
    Place.user pgdir (pdx va) (ptx va) ∈ usersFrom pgdir newsz a ↔ a ≤ va ∧ va * 4096 < newsz := by
  have hdir := pdx_user hva
  have hindex : (ptx va).val = va % 1024 := rfl
  have hsum : (pdx va).val * 1024 + (ptx va).val = va := by omega
  constructor
  · rintro ⟨dir, index, hplace, hfrom, hbelow⟩
    cases hplace
    rw [hsum] at hfrom hbelow
    exact ⟨hfrom, hbelow⟩
  · rintro ⟨hfrom, hbelow⟩
    exact ⟨pdx va, ptx va, rfl, by rwa [hsum], by rwa [hsum]⟩

theorem mem_growing (hva : va < kernPage) :
    Place.user pgdir (pdx va) (ptx va) ∈ growing pgdir newsz a ↔ a ≤ va ∧ va * 4096 < newsz := by
  rw [← mem_usersFrom hva]
  constructor
  · rintro (⟨dir, hplace⟩ | hplace)
    · cases hplace
    · exact hplace
  · exact .inr

def Zeroed (memory : Memory) (pgdir va : ℕ) : Prop :=
  ∃ page, entryAt memory pgdir va = ⟨page, true, true, true, 0⟩ ∧
    memory.words page = fun _ => Word.zero

/-- All pages from `a` on below a size are new. -/
structure Grown (memory : Memory) (live : List ℕ) (pgdir newsz a : ℕ) (after : Memory) :
    Prop where
  keeps : Keeps (growing pgdir newsz a) memory live none after none
  zeroed : ∀ va, a ≤ va → va * 4096 < newsz → Zeroed after pgdir va

/-- No page from `a` on below a size is there. -/
structure Undone (memory : Memory) (live : List ℕ) (pgdir newsz a : ℕ) (after : Memory) :
    Prop where
  keeps : Keeps (growing pgdir newsz a) memory live none after none
  gone : ∀ va, a ≤ va → va * 4096 < newsz → ¬ (entryAt after pgdir va).present

theorem not_present_of_target (hlive : pgdir ∈ live) (hva : va < kernPage)
    (hnone : target memory live hand (.user pgdir (pdx va) (ptx va)) = none) :
    ¬ (entryAt memory pgdir va).present := by
  intro hpresent
  rw [target_user hlive (pdx_user_lt hva) hpresent] at hnone
  cases hnone

/-- After a failure `allocuvm` takes the pages away again that it has mapped. -/
theorem Paged.undo (hpool : Freeable kernel pool) (hsize : newsz < kernbase)
    (hless : oldsz < newsz) (hpaged : Paged pool memory live hand) (hlive : pgdir ∈ live) :
    ∃ freed, deallocuvm kernel memory pgdir newsz oldsz = some (oldsz, freed) ∧
      Paged pool freed live hand ∧
      Keeps (usersFrom pgdir newsz (pgroundup oldsz)) memory live hand freed hand ∧
      ∀ va, pgroundup oldsz ≤ va → va * 4096 < newsz → ¬ (entryAt freed pgdir va).present := by
  obtain ⟨freed, hdealloc, hreleases, hdone, hkeeps⟩ :=
    deallocuvm_spec hpool oldsz hsize.le hpaged hlive
  rw [min_eq_right hless.le] at hdealloc
  refine ⟨freed, hdealloc, hdone, hkeeps, ?_⟩
  intro va hfrom hbelow
  have hbase : kernbase = 2147483648 := rfl
  have hpage : kernPage = 524288 := rfl
  have hva : va < kernPage := by omega
  apply not_present_of_target hlive hva
  exact (hreleases hless).gone _ ((mem_usersFrom hva).2 ⟨hfrom, hbelow⟩)

theorem Undone.of_step {b : ℕ} (hundone : Undone memory' live pgdir newsz b after)
    (hstep : Keeps (growing pgdir newsz a) memory live none memory' none) (hle : b ≤ a) :
    Undone memory live pgdir newsz b after := by
  refine ⟨?_, hundone.gone⟩
  exact ((hstep.mono (growing_mono hle)).trans hundone.keeps).mono (union_self _).le

/-- The page that is mapped first stays as it is. -/
theorem Grown.of_step (hgrown : Grown memory' live pgdir newsz (a + 1) after)
    (hlive : pgdir ∈ live) (ha : a < kernPage)
    (hstep : Keeps (growing pgdir newsz a) memory live none memory' none)
    (hfirst : Zeroed memory' pgdir a) : Grown memory live pgdir newsz a after := by
  have hout : Place.user pgdir (pdx a) (ptx a) ∉ growing pgdir newsz (a + 1) := by
    rw [mem_growing ha]
    omega
  refine ⟨?_, ?_⟩
  · exact (hstep.trans (hgrown.keeps.mono (growing_mono (Nat.le_succ a)))).mono (union_self _).le
  · intro va hfrom hbelow
    by_cases hsame : va = a
    · obtain ⟨page, hentry, hzero⟩ := hfirst
      have hpresent : (entryAt memory' pgdir a).present := by rw [hentry]
      have htarget : target memory' live none (.user pgdir (pdx a) (ptx a)) =
          some (entryAt memory' pgdir a).page := target_user hlive (pdx_user_lt ha) hpresent
      rw [hentry] at htarget
      rw [hsame]
      refine ⟨page, (hgrown.keeps.entry pgdir hlive _ _ hout).trans hentry, ?_⟩
      rw [hgrown.keeps.content _ page hout trivial htarget, hzero]
    · exact hgrown.zeroed va (by omega) hbelow

/-- The loop of `allocuvm` from page `a` on: it maps all pages or none, and stops the machine
only where a page has an entry already. -/
theorem allocLoop_spec (hpool : Freeable kernel pool) (hsize : newsz < kernbase)
    (ha : pgroundup oldsz ≤ a) (hcount : a + count = (newsz + 4095) / 4096)
    (hless : oldsz ≤ newsz) (hpaged : Paged pool memory live none) (hlive : pgdir ∈ live) :
    (∃ size after, allocLoop kernel pgdir oldsz newsz (range' a count) memory = some (size, after) ∧
      Paged pool after live none ∧
      (size = newsz ∧ Grown memory live pgdir newsz a after ∨
        size = 0 ∧ Undone memory live pgdir newsz (pgroundup oldsz) after)) ∨
    (allocLoop kernel pgdir oldsz newsz (range' a count) memory = none ∧
      ∃ va, a ≤ va ∧ va * 4096 < newsz ∧ (entryAt memory pgdir va).present) := by
  have hbase : kernbase = 2147483648 := rfl
  have hpage : kernPage = 524288 := rfl
  induction count generalizing a memory with
  | zero =>
    refine .inl ⟨newsz, memory, rfl, hpaged, .inl ⟨rfl, .refl .., ?_⟩⟩
    intro va hfrom hbelow
    omega
  | succ count ih =>
    have hbelow : a * 4096 < newsz := by omega
    have hak : a < kernPage := by omega
    have hstrict : oldsz < newsz := by
      rw [pgroundup] at ha
      omega
    rw [range'_succ, VirtualMemory.allocLoop]
    rcases hkalloc : kalloc memory with ⟨_ | mem, middle⟩
    · obtain ⟨freed, hdealloc, hdone, hkeeps, hgone⟩ :=
        (hpaged.kalloc_none hkalloc).undo hpool hsize hstrict hlive
      have hsame : Keeps ∅ memory live none middle none :=
        .of_words (VirtualMemory.kalloc_none hkalloc).2.1 fun _ => rfl
      dsimp only
      rw [hdealloc]
      refine .inl ⟨0, freed, rfl, hdone, .inr ⟨rfl, ?_, hgone⟩⟩
      apply (hsame.trans hkeeps).mono
      rw [empty_union]
      exact fun place hplace => .inr hplace
    · dsimp only
      have hfilled := (hpaged.take hkalloc).fill_hand fun _ => Word.zero
      have hready := hpaged.ready_keeps hkalloc fun _ => Word.zero
      rcases hmap : mappages pgdir true true 0 1 a mem (middle.fill mem fun _ => Word.zero)
        with _ | ⟨_ | _, mapped⟩
      · refine .inr ⟨rfl, a, le_rfl, hbelow, ?_⟩
        by_contra habsent
        rw [entryAt, ← hready.entry pgdir hlive _ _ (by simp)] at habsent
        obtain ⟨ok, after, hreturns⟩ := hfilled.mappages_returns hlive habsent true true 0 mem
        cases hmap.symm.trans hreturns
      · obtain ⟨hmapped, -, -, hwords⟩ := hfilled.mappages_user hlive hak hmap
        obtain ⟨freed, hdealloc, hdone, hkeeps, hgone⟩ := hmapped.undo hpool hsize hstrict hlive
        have hwalked : Keeps ∅ (middle.fill mem fun _ => Word.zero) live (some mem) mapped
            (some mem) := .of_words (hwords rfl) fun _ => rfl
        have hdropped := hdone.drop_keeps
        dsimp only
        rw [hdealloc]
        dsimp only
        rw [kfree_eq hpool hmapped.hand_mem]
        refine .inl ⟨0, freed.freed mem, rfl, hdone.drop, .inr ⟨rfl, ?_, ?_⟩⟩
        · apply (((hready.trans hwalked).trans hkeeps).trans hdropped).empty_handed
          rintro place (((rfl | hnone) | hplace) | rfl)
          · exact .inl rfl
          · cases hnone
          · exact .inr (.inr hplace)
          · exact .inl rfl
        · intro va hfrom hlast
          rw [entryAt, hdropped.entry pgdir hlive _ _ (by simp)]
          exact hgone va hfrom hlast
      · obtain ⟨hmapped, -, hentry, -⟩ := hfilled.mappages_user hlive hak hmap
        obtain ⟨hsupplied, hzero⟩ := hpaged.supply hkalloc _ (hentry rfl)
        have hstep : Keeps (growing pgdir newsz a) memory live none mapped none := by
          apply hsupplied.mono
          rintro place (rfl | rfl)
          · exact .inl ⟨_, rfl⟩
          · exact (mem_growing hak).2 ⟨le_rfl, hbelow⟩
        obtain ⟨size, after, hloop, hdone, hresult⟩ | ⟨hloop, va, hfrom, hlast, hpresent⟩ :=
          ih (a := a + 1) (by omega) (by omega) hmapped
        · refine .inl ⟨size, after, hloop, hdone, hresult.imp ?_ ?_⟩
          · exact And.imp_right fun hgrown =>
              hgrown.of_step hlive hak hstep ⟨mem, (hentry rfl).entry, hzero⟩
          · exact And.imp_right fun hundone => hundone.of_step hstep ha
        · refine .inr ⟨hloop, va, by omega, hlast, ?_⟩
          rwa [hsupplied.entry_of_ne hlive (by omega) (by omega) (by omega)] at hpresent

theorem allocuvm_loop (hpool : Freeable kernel pool) (hsize : ¬ newsz ≥ kernbase)
    (hless : ¬ newsz < oldsz) (hpaged : Paged pool memory live none) (hlive : pgdir ∈ live) :
    (∃ size after, allocLoop kernel pgdir oldsz newsz (range' (pgroundup oldsz)
        ((newsz + 4095) / 4096 - pgroundup oldsz)) memory = some (size, after) ∧
      Paged pool after live none ∧
      (size = newsz ∧ Grown memory live pgdir newsz (pgroundup oldsz) after ∨
        size = 0 ∧ Undone memory live pgdir newsz (pgroundup oldsz) after)) ∨
    (allocLoop kernel pgdir oldsz newsz (range' (pgroundup oldsz)
        ((newsz + 4095) / 4096 - pgroundup oldsz)) memory = none ∧
      ∃ va, pgroundup oldsz ≤ va ∧ va * 4096 < newsz ∧ (entryAt memory pgdir va).present) := by
  have hround : pgroundup oldsz ≤ (newsz + 4095) / 4096 := by
    rw [pgroundup]
    omega
  exact allocLoop_spec hpool (by omega) le_rfl (Nat.add_sub_cancel' hround) (by omega) hpaged
    hlive

theorem Paged.allocuvm {size : ℕ} (hpool : Freeable kernel pool)
    (hpaged : Paged pool memory live none) (hlive : pgdir ∈ live)
    (halloc : allocuvm kernel memory pgdir oldsz newsz = some (size, after)) :
    Paged pool after live none := by
  rw [VirtualMemory.allocuvm] at halloc
  split_ifs at halloc with hbig hless
  · cases halloc
    exact hpaged
  · cases halloc
    exact hpaged
  · obtain ⟨_, _, hloop, hdone, -⟩ | ⟨hloop, -⟩ := allocuvm_loop hpool hbig hless hpaged hlive
    · cases hloop.symm.trans halloc
      exact hdone
    · cases hloop.symm.trans halloc

/-- The first page above `KERNBASE` cannot be mapped again. -/
theorem mappages_kernPage {writable user : Bool} {pa : ℕ}
    (hmapped : (entry memory pgdir (pdx kernPage) (ptx kernPage)).present) :
    mappages pgdir writable user rest (count + 1) kernPage pa memory = none := by
  rw [entry] at hmapped
  split_ifs at hmapped with hpresent
  · rw [mappages, walkpgdir, if_pos hpresent]
    exact if_pos hmapped
  · cases hmapped

theorem RowsMapped.entry_kernPage (hrows : RowsMapped memory pgdir (kmap kernel)) :
    (entry memory pgdir (pdx kernPage) (ptx kernPage)).present := by
  have hfirst := hrows ⟨kernPage, 0, extPage, true⟩ List.mem_cons_self 0
    (by decide)
  rw [hfirst]

/-- The pages from `i` to `n` of a new directory have the flags and the contents that those
of the other one have. -/
def Copied (memory : Memory) (pgdir d i n : ℕ) (after : Memory) : Prop :=
  ∀ va, i ≤ va → va < n → (entryAt memory pgdir va).present ∧
    ∃ page, entryAt after d va = { entryAt memory pgdir va with page := page } ∧
      after.words page = memory.words (entryAt memory pgdir va).page

theorem mem_growing_pages (hva : va < kernPage) :
    Place.user pgdir (pdx va) (ptx va) ∈ growing pgdir (n * 4096) a ↔ a ≤ va ∧ va < n := by
  rw [mem_growing hva]
  omega

theorem not_mem_growing (hne : pgdir ≠ d) (dir index : Index) :
    Place.user pgdir dir index ∉ growing d newsz a := by
  rintro (⟨_, hplace⟩ | ⟨_, _, hplace, -⟩)
  · cases hplace
  · cases hplace
    exact hne rfl

/-- Growing a new directory changes nothing in the others. -/
theorem Keeps.growing_behind (hnew : d ∉ live)
    (hkeeps : Keeps (growing d newsz a) memory (d :: live) none after none) :
    Keeps ∅ memory live none after none := by
  apply hkeeps.restrict
  · exact fun other hother => .tail d hother
  · rintro - (⟨_, hplace⟩ | ⟨_, _, hplace, -⟩)
    · cases hplace
    · cases hplace
  · rintro other hother dir - (⟨_, hplace⟩ | ⟨_, _, hplace, -⟩)
    · cases hplace
      exact hnew hother
    · cases hplace
  · exact fun other hother dir index _ =>
      not_mem_growing (ne_of_mem_of_not_mem hother hnew) dir index

theorem words_of_present (hpresent : (entryAt memory pgdir va).present) :
    (memory.words pgdir (pdx va)).present ∧
      memory.words (memory.words pgdir (pdx va)).page (ptx va) = entryAt memory pgdir va := by
  rw [entryAt, entry] at hpresent
  split_ifs at hpresent with htable
  · exact ⟨htable, (if_pos htable).symm⟩
  · cases hpresent

theorem Copied.of_keeps (hcopied : Copied memory' pgdir d i n after)
    (hkeeps : Keeps ∅ memory live none memory' none) (hparent : pgdir ∈ live) (hn : n ≤ kernPage) :
    Copied memory pgdir d i n after := by
  intro va hfrom hbelow
  obtain ⟨hthere, copy, hcopy, hsource⟩ := hcopied va hfrom hbelow
  have hparents : entryAt memory' pgdir va = entryAt memory pgdir va :=
    hkeeps.entry pgdir hparent _ _ (notMem_empty _)
  rw [hparents] at hthere hcopy hsource
  refine ⟨hthere, copy, hcopy, hsource.trans ?_⟩
  exact hkeeps.content (.user pgdir (pdx va) (ptx va)) _ (notMem_empty _) trivial
    (target_user hparent (pdx_user_lt (by omega)) hthere)

/-- The page that is copied first stays as it is, and so do the pages of the other
directory. -/
theorem Copied.of_step (hcopied : Copied memory' pgdir d (i + 1) n after) (hnew : d ∉ live)
    (hparent : pgdir ∈ live) (hn : n ≤ kernPage)
    (hstep : Keeps (growing d (n * 4096) i) memory (d :: live) none memory' none)
    (hrest : Keeps (growing d (n * 4096) (i + 1)) memory' (d :: live) none after none)
    (hpresent : (entryAt memory pgdir i).present)
    (hentry : entryAt memory' d i = { entryAt memory pgdir i with page := page })
    (hcontent : memory'.words page = memory.words (entryAt memory pgdir i).page) :
    Copied memory pgdir d i n after := by
  intro va hfrom hbelow
  by_cases hsame : va = i
  · subst hsame
    have hout : Place.user d (pdx va) (ptx va) ∉ growing d (n * 4096) (va + 1) := by
      rw [mem_growing_pages (by omega)]
      omega
    have hthere : (entryAt memory' d va).present := by rwa [hentry]
    have htarget : target memory' (d :: live) none (.user d (pdx va) (ptx va)) =
        some (entryAt memory' d va).page :=
      target_user (.head _) (pdx_user_lt (by omega)) hthere
    rw [hentry] at htarget
    refine ⟨hpresent, page, ?_, ?_⟩
    · exact (hrest.entry d List.mem_cons_self _ _ hout).trans hentry
    · rw [hrest.content _ page hout trivial htarget, hcontent]
  · exact hcopied.of_keeps (hstep.growing_behind hnew) hparent hn va (by omega) hbelow

/-- The loop of `copyuvm` from page `i` on: the new directory is full or gone.  The machine
stops only where a page is missing, is there already or would lie above `KERNBASE`. -/
theorem copyLoop_spec (hpool : Freeable kernel pool) (hpaged : Paged pool memory (d :: live) none)
    (hnew : d ∉ live) (hparent : pgdir ∈ live) (hi : i ≤ kernPage)
    (hkernel : (entryAt memory d kernPage).present) :
    (∃ after, copyLoop kernel pgdir d (range' i count) memory = some (some d, after) ∧
      Paged pool after (d :: live) none ∧ i + count ≤ kernPage ∧
      Keeps (growing d ((i + count) * 4096) i) memory (d :: live) none after none ∧
      Copied memory pgdir d i (i + count) after) ∨
    (∃ after, copyLoop kernel pgdir d (range' i count) memory = some (none, after) ∧
      Paged pool after live none ∧ Keeps ∅ memory live none after none) ∨
    (copyLoop kernel pgdir d (range' i count) memory = none ∧
      ((∃ va, i ≤ va ∧ va < i + count ∧ ¬ (entryAt memory pgdir va).present) ∨
        (∃ va, i ≤ va ∧ va < kernPage ∧ (entryAt memory d va).present) ∨
        kernPage < i + count ∧ kernPage ≤ i + memory.freelist.length)) := by
  have hpage : kernPage = 524288 := rfl
  have hfree : ∀ {memory : Memory}, Paged pool memory (d :: live) none →
      ∃ freed, freevm kernel memory d = some freed ∧ Paged pool freed live none ∧
        Keeps ∅ memory live none freed none := by
    intro memory hpaged
    obtain ⟨freed, hfreevm, hdone, -, hkeeps⟩ := freevm_spec hpool hpaged (.head _)
    rw [without_cons_self hnew] at hdone hkeeps
    exact ⟨freed, hfreevm, hdone, hkeeps⟩
  induction count generalizing i memory with
  | zero => exact .inl ⟨memory, rfl, hpaged, hi, .refl .., fun va hfrom hbelow => by omega⟩
  | succ count ih =>
    rw [range'_succ, VirtualMemory.copyLoop, walkpgdir_false]
    by_cases hthere : (entryAt memory pgdir i).present
    · obtain ⟨htable, hword⟩ := words_of_present hthere
      rw [if_pos htable]
      dsimp only
      rw [hword, if_neg (by simp [hthere])]
      rcases hkalloc : kalloc memory with ⟨_ | mem, middle⟩
      · obtain ⟨freed, hfreevm, hdone, hkeeps⟩ := hfree (hpaged.kalloc_none hkalloc)
        have hsame : Keeps ∅ memory live none middle none :=
          .of_words (VirtualMemory.kalloc_none hkalloc).2.1 fun _ => rfl
        dsimp only
        rw [hfreevm]
        exact .inr (.inl ⟨freed, rfl, hdone, (hsame.trans hkeeps).mono (by simp)⟩)
      · dsimp only
        have hlist : memory.freelist.length = middle.freelist.length + 1 := by
          rw [(kalloc_some hkalloc).1]
          rfl
        have hready := hpaged.ready_keeps hkalloc
          (middle.words (entryAt memory pgdir i).page)
        have hfilled := (hpaged.take hkalloc).fill_hand
          (middle.words (entryAt memory pgdir i).page)
        by_cases hlast : i = kernPage
        · subst hlast
          rw [mappages_kernPage]
          · exact .inr (.inr ⟨rfl, .inr (.inr ⟨by omega, Nat.le_add_right ..⟩)⟩)
          · rwa [hready.entry d List.mem_cons_self _ _ (by simp)]
        have hbelow : i < kernPage := lt_of_le_of_ne hi hlast
        rcases hmap : mappages d (entryAt memory pgdir i).writable
          (entryAt memory pgdir i).user (entryAt memory pgdir i).rest 1 i mem
          (middle.fill mem (middle.words (entryAt memory pgdir i).page))
          with _ | ⟨_ | _, mapped⟩
        · refine .inr (.inr ⟨rfl, .inr (.inl ⟨i, le_rfl, hbelow, ?_⟩)⟩)
          by_contra habsent
          rw [entryAt, ← hready.entry d List.mem_cons_self _ _ (by simp)] at habsent
          obtain ⟨ok, after, hreturns⟩ :=
            hfilled.mappages_returns List.mem_cons_self habsent _ _ _ mem
          cases hmap.symm.trans hreturns
        · obtain ⟨hmapped, -, -, hwords⟩ := hfilled.mappages_user List.mem_cons_self hbelow hmap
          obtain ⟨freed, hfreevm, hdone, hkeeps⟩ := hfree hmapped.drop
          have hwalked : Keeps {.hand} memory (d :: live) none mapped (some mem) :=
            hready.congr (hwords rfl)
          have hdropped : Keeps ∅ memory (d :: live) none (mapped.freed mem) none := by
            apply (hwalked.trans hmapped.drop_keeps).empty_handed
            rintro place (rfl | rfl)
            · exact .inl rfl
            · exact .inl rfl
          have hothers : Keeps ∅ memory live none (mapped.freed mem) none :=
            hdropped.restrict (fun other hother => .tail d hother)
              (fun _ => notMem_empty _) (fun _ _ _ _ => notMem_empty _)
              (fun _ _ _ _ _ => notMem_empty _)
          dsimp only
          rw [kfree_eq hpool hmapped.hand_mem]
          dsimp only
          rw [hfreevm]
          exact .inr (.inl ⟨freed, rfl, hdone, (hothers.trans hkeeps).mono (by simp)⟩)
        · obtain ⟨hmapped, hgrows, hentry, -⟩ :=
            hfilled.mappages_user List.mem_cons_self hbelow hmap
          obtain ⟨hsupplied, hcontent⟩ := hpaged.supply hkalloc _ (hentry rfl)
          rw [(kalloc_some hkalloc).2.1] at hcontent
          have hshorter := mappages_freelist hmap
          rw [Memory.fill] at hshorter
          dsimp only at hshorter
          have hword : entryAt mapped d i = { entryAt memory pgdir i with page := mem } := by
            rw [entryAt, (hentry rfl).entry]
            dsimp only
            rw [hthere]
          have hsum : i + (count + 1) = i + 1 + count := by omega
          have hstep : Keeps (growing d ((i + 1 + count) * 4096) i) memory (d :: live) none
              mapped none := by
            apply hsupplied.mono
            rintro place (rfl | rfl)
            · exact .inl ⟨_, rfl⟩
            · exact (mem_growing_pages hbelow).2 ⟨le_rfl, by omega⟩
          have hothers := hstep.growing_behind hnew
          have hparents : ∀ va, entryAt mapped pgdir va = entryAt memory pgdir va :=
            fun va => hothers.entry pgdir hparent _ _ (notMem_empty _)
          have hsame : ∀ va, va < 2 ^ 20 → va ≠ i → entryAt mapped d va = entryAt memory d va :=
            fun va hva hne => hsupplied.entry_of_ne List.mem_cons_self hva (by omega) hne
          have hkept : (entryAt mapped d kernPage).present := by
            rwa [hsame kernPage (by decide) (ne_of_gt hbelow)]
          rw [hsum]
          obtain ⟨after, hloop, hdone, hle, hkeeps, hcopied⟩ |
            ⟨after, hloop, hdone, hkeeps⟩ | ⟨hloop, hreason⟩ := ih (i := i + 1) hmapped hbelow hkept
          · refine .inl ⟨after, hloop, hdone, hle, ?_, ?_⟩
            · exact (hstep.trans (hkeeps.mono (growing_mono (Nat.le_succ i)))).mono
                (union_self _).le
            · exact hcopied.of_step hnew hparent hle hstep hkeeps hthere hword hcontent
          · exact .inr (.inl ⟨after, hloop, hdone, (hothers.trans hkeeps).mono (by simp)⟩)
          · refine .inr (.inr ⟨hloop, ?_⟩)
            obtain ⟨va, hfrom, hend, habsent⟩ | ⟨va, hfrom, hend, hpresent⟩ | hroom := hreason
            · exact .inl ⟨va, by omega, hend, by rwa [← hparents]⟩
            · refine .inr (.inl ⟨va, by omega, hend, ?_⟩)
              rwa [hsame va (by omega) (by omega)] at hpresent
            · exact .inr (.inr ⟨hroom.1, by omega⟩)
    · right
      right
      refine ⟨?_, .inl ⟨i, le_rfl, by omega, hthere⟩⟩
      by_cases htable : (memory.words pgdir (pdx i)).present
      · rw [entryAt, entry, if_pos htable] at hthere
        rw [if_pos htable]
        dsimp only
        rw [if_pos (by simpa using hthere)]
      · rw [if_neg htable]

theorem Paged.copyuvm {sz : ℕ} (hpool : Freeable kernel pool)
    (hpaged : Paged pool memory live none) (hparent : pgdir ∈ live)
    (hcopy : copyuvm kernel memory pgdir sz = some (result, after)) :
    Paged pool after (result.toList ++ live) none := by
  rw [VirtualMemory.copyuvm] at hcopy
  split at hcopy
  · cases hcopy
  · next middle hsetup =>
    cases hcopy
    exact (hpaged.setupkvm hpool hsetup).1
  · next d middle hsetup =>
    obtain ⟨hmiddle, -, hmade⟩ := hpaged.setupkvm hpool hsetup
    obtain ⟨hnew, hfresh⟩ := hmade d rfl
    rw [range_eq_range'] at hcopy
    obtain ⟨_, hloop, hdone, -⟩ | ⟨_, hloop, hdone, -⟩ | ⟨hloop, -⟩ :=
      copyLoop_spec hpool hmiddle hnew hparent (Nat.zero_le _) hfresh.rows.entry_kernPage
    · cases hloop.symm.trans hcopy
      exact hdone
    · cases hloop.symm.trans hcopy
      exact hdone
    · cases hloop.symm.trans hcopy

/-- Only the right of the user is taken away. -/
theorem Paged.clearpteu {uva : ℕ} (hpaged : Paged pool memory live none)
    (hlive : pgdir ∈ live) (hclear : clearpteu memory pgdir uva = some after) :
    Paged pool after live none := by
  rw [VirtualMemory.clearpteu, walkpgdir_false] at hclear
  by_cases hpresent : (memory.words pgdir (pdx uva)).present
  · rw [if_pos hpresent] at hclear
    cases hclear
    by_cases hdir : (pdx uva).val < 512
    · refine hpaged.same (by rfl) (by rfl) ?_
      rw [hpaged.apart.set_target_user hlive hpresent hdir]
      apply Function.update_eq_self_iff.2
      rw [target, entry, if_pos hpresent]
      simp only [hlive, hdir, true_and]
    · exact hpaged.map_kernel hlive ⟨hpresent, rfl, rfl⟩ hdir _
  · rw [if_neg hpresent] at hclear
    cases hclear

/-- `deallocuvm` is asked for addresses below `KERNBASE`. -/
def Call.Below : Call → Prop
  | .deallocuvm _ oldsz _ => oldsz ≤ kernbase
  | _ => True

theorem Paged.adopts {result : Option ℕ × Memory}
    (hresult : Paged pool result.2 (result.1.toList ++ system.live) none) :
    Paged pool (system.adopt result).memory (system.adopt result).live none := by
  obtain ⟨made, after⟩ := result
  cases made with
  | none => exact hresult
  | some pgdir => exact hresult

theorem Paged.call {system' : System} {request : Call} (hpool : Freeable kernel pool)
    (hpaged : Paged pool system.memory system.live none) (hbelow : request.Below)
    (hcall : call kernel system request = some system') :
    Paged pool system'.memory system'.live none := by
  cases request with
  | setupkvm =>
    obtain ⟨⟨result, after⟩, hsetup, rfl⟩ := map_eq_some_iff.1 hcall
    exact Paged.adopts (hpaged.setupkvm hpool hsetup).1
  | allocuvm pgdir oldsz newsz =>
    rw [VirtualMemory.call] at hcall
    split_ifs at hcall with hlive
    obtain ⟨⟨size, after⟩, halloc, rfl⟩ := map_eq_some_iff.1 hcall
    exact hpaged.allocuvm hpool hlive halloc
  | deallocuvm pgdir oldsz newsz =>
    rw [VirtualMemory.call] at hcall
    split_ifs at hcall with hlive
    obtain ⟨⟨size, after⟩, hdealloc, rfl⟩ := map_eq_some_iff.1 hcall
    obtain ⟨freed, hspec, -, hdone, -⟩ := deallocuvm_spec hpool newsz hbelow hpaged hlive
    cases hspec.symm.trans hdealloc
    exact hdone
  | copyuvm pgdir sz =>
    rw [VirtualMemory.call] at hcall
    split_ifs at hcall with hlive
    obtain ⟨result, hcopy, rfl⟩ := map_eq_some_iff.1 hcall
    exact Paged.adopts (hpaged.copyuvm hpool hlive hcopy)
  | clearpteu pgdir uva =>
    rw [VirtualMemory.call] at hcall
    split_ifs at hcall with hlive
    obtain ⟨after, hclear, rfl⟩ := map_eq_some_iff.1 hcall
    exact hpaged.clearpteu hlive hclear
  | freevm pgdir =>
    rw [VirtualMemory.call] at hcall
    split_ifs at hcall with hlive
    obtain ⟨after, hfree, rfl⟩ := map_eq_some_iff.1 hcall
    obtain ⟨freed, hspec, hdone, -, -⟩ := freevm_spec hpool hpaged hlive
    cases hspec.symm.trans hfree
    exact hdone

theorem Paged.start (hnodup : pool.Nodup) (outages : List Bool) (words : ℕ → Index → Word) :
    Paged pool (start pool outages words).memory (start pool outages words).live none := by
  have hnone : ∀ place, target (VirtualMemory.start pool outages words).memory
      (VirtualMemory.start pool outages words).live none place = none := by
    intro place
    cases place with
    | hand => rfl
    | directory pgdir => simp [target, VirtualMemory.start]
    | table pgdir dir => simp [target, VirtualMemory.start]
    | user pgdir dir index => simp [target, VirtualMemory.start]
  refine ⟨⟨?_, ?_, ?_⟩, hnodup, rfl⟩
  · intro page
    constructor
    · exact .inl
    · rintro (hout | ⟨place, hplace⟩)
      · exact hout
      · cases (hnone place).symm.trans hplace
  · intro left right page hleft
    cases (hnone left).symm.trans hleft
  · intro place page hplace
    cases (hnone place).symm.trans hplace

def Reaches (kernel : Kernel) (pool : List ℕ) (allowed : Call → Prop) (system : System) : Prop :=
  ∃ outages words, Relation.ReflTransGen
    (fun before after => ∃ request, allowed request ∧ call kernel before request = some after)
    (start pool outages words) system

theorem paged_of_reaches (hpool : Freeable kernel pool) (hnodup : pool.Nodup)
    (hreaches : Reaches kernel pool Call.Below system) :
    Paged pool system.memory system.live none := by
  obtain ⟨outages, words, hrun⟩ := hreaches
  induction hrun with
  | refl => exact Paged.start hnodup outages words
  | tail _ hlast ih =>
    obtain ⟨request, hbelow, hcall⟩ := hlast
    exact ih.call hpool hbelow hcall

/-- In every system that calls reach with sizes below `KERNBASE`, each page is free or in
one place, none was freed twice, and `freevm` frees all pages of a directory. -/
theorem pages_are_conserved {system : System} (hpool : Freeable kernel pool)
    (hnodup : pool.Nodup) (hreaches : Reaches kernel pool Call.Below system) :
    (∀ page ∈ pool, (page ∈ system.memory.freelist ∧
        ∀ place, target system.memory system.live none place ≠ some page) ∨
      (page ∉ system.memory.freelist ∧
        ∃! place, target system.memory system.live none place = some page)) ∧
    system.memory.freelist.Nodup ∧ system.memory.refreed = 0 ∧
    ∀ pgdir ∈ system.live, ∃ after, freevm kernel system.memory pgdir = some after ∧
      ∀ place ∈ placesOf pgdir, ∀ page,
        target system.memory system.live none place = some page → page ∈ after.freelist := by
  have hpaged := paged_of_reaches hpool hnodup hreaches
  refine ⟨?_, hpaged.nodup, hpaged.refreed, ?_⟩
  · intro page hpage
    by_cases hfree : page ∈ system.memory.freelist
    · exact .inl ⟨hfree, fun place hplace => hpaged.not_free hplace hfree⟩
    · have hused := (hpaged.owned.used_iff_existsUnique page).1 hfree
      exact .inr ⟨hfree, hused.resolve_left (not_not.2 hpage)⟩
  · intro pgdir hlive
    obtain ⟨after, hfreevm, -, hfreed, -⟩ := freevm_spec hpool hpaged hlive
    exact ⟨after, hfreevm, hfreed⟩

section Success

/-- The entries of a directory without a table. -/
def absent (memory : Memory) (pgdir : ℕ) : Finset Index :=
  univ.filter fun dir => ¬ (memory.words pgdir dir).present

/-- Memory for every table of a directory and a page more. -/
structure Roomy (memory : Memory) (pgdir : ℕ) : Prop where
  outages : memory.outages = []
  room : (absent memory pgdir).card < memory.freelist.length

theorem absent_link (hplain : Plain memory live page) (hlive : pgdir ∈ live) (dir : Index) :
    absent (memory.link pgdir dir page) pgdir = (absent memory pgdir).erase dir := by
  ext other
  simp only [absent, Finset.mem_filter, Finset.mem_univ, true_and, Finset.mem_erase,
    hplain.link_words hlive hlive]
  by_cases hsame : other = dir
  · simp [hsame]
  · simp [hsame]

theorem kalloc_of_roomy {rest : List ℕ} (houtages : memory.outages = [])
    (hfree : memory.freelist = page :: rest) :
    kalloc memory = (some page, { memory with freelist := rest }) := by
  rw [kalloc, houtages, hfree]
  rfl

theorem Roomy.walkpgdir (hroomy : Roomy memory pgdir) (hpaged : Paged pool memory live hand)
    (hlive : pgdir ∈ live) (va : ℕ) :
    ∃ pgtab memory', walkpgdir memory pgdir va true = (some (pgtab, ptx va), memory') ∧
      Roomy memory' pgdir := by
  rw [VirtualMemory.walkpgdir]
  by_cases hpresent : (memory.words pgdir (pdx va)).present
  · rw [if_pos hpresent]
    exact ⟨_, memory, rfl, hroomy⟩
  · obtain ⟨page, rest, hfree⟩ : ∃ page rest, memory.freelist = page :: rest := by
      apply exists_cons_of_length_pos
      exact Nat.zero_lt_of_lt hroomy.room
    have hkalloc := kalloc_of_roomy hroomy.outages hfree
    have hplain : Plain { memory with freelist := rest } live page :=
      (hpaged.plain_of_kalloc hkalloc).of_words rfl
    rw [if_neg hpresent, hkalloc]
    refine ⟨page, _, rfl, hroomy.outages, ?_⟩
    have hroom := hroomy.room
    rw [hfree, length_cons] at hroom
    have hmem : pdx va ∈ absent memory pgdir := Finset.mem_filter.2 ⟨Finset.mem_univ _, hpresent⟩
    have hcard := card_erase_of_mem hmem
    have hpos := card_pos.2 ⟨_, hmem⟩
    calc (absent (Memory.link { memory with freelist := rest } pgdir (pdx va) page) pgdir).card
        = ((absent memory pgdir).erase (pdx va)).card := by
          rw [absent_link hplain hlive]
          rfl
      _ < rest.length := by omega

theorem Roomy.set (hroomy : Roomy memory pgdir) (hpaged : Paged pool memory live hand)
    (hlive : pgdir ∈ live) {pgtab : ℕ} {index : Index}
    (hfound : Found memory pgdir va pgtab index) (word : Word) :
    Roomy (memory.set pgtab index word) pgdir := by
  obtain ⟨hpresent, rfl, rfl⟩ := hfound
  refine ⟨hroomy.outages, ?_⟩
  rw [absent, hpaged.apart.set_words hlive hpresent hlive]
  exact hroomy.room

/-- Pages that are not mapped yet can be mapped, and no later page changes. -/
theorem Paged.mappages_fresh (pa : ℕ) {writable user : Bool}
    (hpaged : Paged pool memory live hand) (hlive : pgdir ∈ live) (hva : kernPage ≤ va)
    (hend : va + count ≤ 2 ^ 20)
    (hfresh : ∀ v, va ≤ v → v < va + count → ¬ (entryAt memory pgdir v).present) :
    ∃ ok memory', mappages pgdir writable user rest count va pa memory = some (ok, memory') ∧
      (∀ v, va + count ≤ v → v < 2 ^ 20 → entryAt memory' pgdir v = entryAt memory pgdir v) ∧
      (Roomy memory pgdir → ok = true ∧ Roomy memory' pgdir) := by
  induction count generalizing va pa memory with
  | zero => exact ⟨true, memory, rfl, fun _ _ _ => rfl, fun hroomy => ⟨rfl, hroomy⟩⟩
  | succ count ih =>
    rw [mappages]
    rcases hwalk : walkpgdir memory pgdir va true with ⟨_ | ⟨pgtab, index⟩, middle⟩
    · refine ⟨false, middle, rfl, ?_, ?_⟩
      · intro v _ _
        rw [entryAt, entryAt, entry, entry, walkpgdir_none_entry hwalk]
      · intro hroomy
        obtain ⟨pgtab, memory', hfound, -⟩ := hroomy.walkpgdir hpaged hlive va
        cases hwalk.symm.trans hfound
    · obtain ⟨hmiddle, hfound, hentry, -⟩ := hpaged.walkpgdir_some hlive hwalk
      have habsent : ¬ (middle.words pgtab index).present := by
        have hfirst := hfresh va le_rfl (by omega)
        obtain ⟨hpresent, rfl, rfl⟩ := hfound
        rwa [entryAt, ← hentry, entry, if_pos hpresent] at hfirst
      have hset := hmiddle.map_kernel hlive hfound (pdx_kernel hva (by omega))
        ⟨pa, true, writable, user, rest⟩
      have hother : ∀ v, va < v → v < 2 ^ 20 →
          entryAt (middle.set pgtab index ⟨pa, true, writable, user, rest⟩) pgdir v =
            entryAt memory pgdir v := by
        intro v hlt hv
        obtain ⟨hpresent, rfl, rfl⟩ := hfound
        rw [entryAt, hmiddle.apart.set_entry hlive hpresent hlive, if_neg, hentry, entryAt]
        rintro ⟨-, hdir, hindex⟩
        have hsame := indices_injective hv (by omega) hdir hindex
        omega
      have hthen : ∀ v, va + 1 ≤ v → v < va + 1 + count → ¬ (entryAt
          (middle.set pgtab index ⟨pa, true, writable, user, rest⟩) pgdir v).present := by
        intro v hge hlt
        rw [hother v (by omega) (by omega)]
        exact hfresh v (by omega) (by omega)
      obtain ⟨ok, memory', hmap, hkept, hroom⟩ := ih (pa + 1) hset (by omega) (by omega) hthen
      dsimp only
      rw [if_neg habsent]
      refine ⟨ok, memory', hmap, ?_, ?_⟩
      · intro v hge hv
        rw [hkept v (by omega) hv, hother v (by omega) hv]
      · intro hroomy
        obtain ⟨pgtab', memory'', hwalked, hroomy'⟩ := hroomy.walkpgdir hpaged hlive va
        cases hwalk.symm.trans hwalked
        exact hroom (hroomy'.set hmiddle hlive hfound _)

def Ordered (rows : List Row) : Prop :=
  rows.Pairwise fun row other => row.virt + (row.stop - row.start) ≤ other.virt

theorem kmap_ordered (kernel : Kernel) : Ordered (kmap kernel) := by
  have hdata := kernel.data_gt
  have hends := kernel.ends_gt
  have hle := kernel.ends_le
  have hkern : kernPage = 524288 := rfl
  have hphys : physPage = 57344 := rfl
  have hdev : devPage = 1040384 := rfl
  simp only [Ordered, kmap, List.pairwise_cons, List.mem_cons, List.not_mem_nil, or_false,
    forall_eq_or_imp, forall_eq, List.Pairwise.nil, and_true, IsEmpty.forall_iff,
    implies_true]
  omega

theorem Paged.mapRows_fresh (hpaged : Paged pool memory live hand)
    (hlive : pgdir ∈ live) (hhigh : ∀ row ∈ rows, row.High) (hordered : Ordered rows)
    (hfresh : ∀ row ∈ rows, ∀ v, row.virt ≤ v → v < 2 ^ 20 → ¬ (entryAt memory pgdir v).present) :
    ∃ ok memory', VirtualMemory.mapRows pgdir rows memory = some (ok, memory') ∧
      (Roomy memory pgdir → ok = true ∧ Roomy memory' pgdir) := by
  induction rows generalizing memory with
  | nil => exact ⟨true, memory, rfl, fun hroomy => ⟨rfl, hroomy⟩⟩
  | cons row rows ih =>
    obtain ⟨hva, hend⟩ := hhigh row (.head _)
    obtain ⟨hbefore, hordered'⟩ := List.pairwise_cons.1 hordered
    have hmap : ∃ ok middle, mappages pgdir row.writable false 0 (row.stop - row.start)
        row.virt row.start memory = some (ok, middle) ∧
        (∀ v, row.virt + (row.stop - row.start) ≤ v → v < 2 ^ 20 →
          entryAt middle pgdir v = entryAt memory pgdir v) ∧
        (Roomy memory pgdir → ok = true ∧ Roomy middle pgdir) :=
      hpaged.mappages_fresh row.start hlive hva hend
        fun v hge hlt => hfresh row List.mem_cons_self v hge (by omega)
    obtain ⟨ok, middle, hrow, hkept, hroom⟩ := hmap
    obtain ⟨hmiddle, -, -, -⟩ := hpaged.mappages_kernel hlive hva hend hrow
    rw [VirtualMemory.mapRows, hrow]
    cases ok with
    | false => exact ⟨false, middle, rfl, fun hroomy => absurd (hroom hroomy).1 nofun⟩
    | true =>
      obtain ⟨ok, memory', hrest, hroomy'⟩ := ih hmiddle
        (fun other hother => hhigh other (.tail _ hother)) hordered' (by
          intro other hother v hge hlt
          rw [hkept v ((hbefore other hother).trans hge) hlt]
          exact hfresh other (.tail _ hother) v hge hlt)
      exact ⟨ok, memory', hrest, fun hroomy => hroomy' (hroom hroomy).2⟩

/-- The rows of the kernel are mapped in an empty directory, or memory runs out. -/
theorem Paged.mapRows_kmap (kernel : Kernel) (hpaged : Paged pool memory live hand)
    (hlive : pgdir ∈ live) (hzero : memory.words pgdir = fun _ => Word.zero) :
    ∃ ok memory', VirtualMemory.mapRows pgdir (kmap kernel) memory = some (ok, memory') ∧
      (Roomy memory pgdir → ok = true ∧ Roomy memory' pgdir) := by
  apply hpaged.mapRows_fresh hlive (kmap_high kernel) (kmap_ordered kernel)
  intro row _ v _ _
  rw [entryAt, entry_of_zero hzero]
  exact nofun

/-- `setupkvm` stops the machine in no case. -/
theorem setupkvm_returns (hpool : Freeable kernel pool) (hpaged : Paged pool memory live none) :
    ∃ result after, setupkvm kernel memory = some (result, after) := by
  rw [setupkvm]
  rcases hkalloc : kalloc memory with ⟨_ | pgdir, middle⟩
  · exact ⟨none, middle, rfl⟩
  · have hadopted := hpaged.adopt hkalloc
    obtain ⟨ok, mapped, hmap, -⟩ :=
      hadopted.mapRows_kmap kernel (.head _) (fill_words_self ..)
    obtain ⟨hmapped, -, -, -⟩ := hadopted.mapRows (.head _) (kmap_high kernel) hmap
    dsimp only
    rw [hmap]
    cases ok with
    | true => exact ⟨some pgdir, mapped, rfl⟩
    | false =>
      obtain ⟨freed, hfree, -, -, -⟩ := freevm_spec hpool hmapped (.head _)
      dsimp only
      rw [hfree]
      exact ⟨none, freed, rfl⟩

/-- With memory for a directory and all its tables, `setupkvm` makes one, and a page is
left. -/
theorem setupkvm_succeeds (hpaged : Paged pool memory live none)
    (houtages : memory.outages = []) (hroom : 1026 ≤ memory.freelist.length) :
    ∃ pgdir after, setupkvm kernel memory = some (some pgdir, after) ∧ Roomy after pgdir := by
  obtain ⟨pgdir, rest, hfree⟩ : ∃ pgdir rest, memory.freelist = pgdir :: rest := by
    apply exists_cons_of_length_pos
    omega
  rw [hfree, length_cons] at hroom
  have hkalloc := kalloc_of_roomy houtages hfree
  have hroomy : Roomy ((⟨rest, memory.outages, memory.words, memory.refreed⟩ : Memory).fill
      pgdir fun _ => Word.zero) pgdir := by
    refine ⟨houtages, ?_⟩
    calc (absent _ pgdir).card
        ≤ (univ : Finset Index).card := card_filter_le _ _
      _ = 1024 := Fintype.card_fin 1024
      _ < rest.length := by omega
  obtain ⟨ok, after, hmap, hdone⟩ := (hpaged.adopt hkalloc).mapRows_kmap kernel
    List.mem_cons_self (fill_words_self ..)
  obtain ⟨rfl, hleft⟩ := hdone hroomy
  refine ⟨pgdir, after, ?_, hleft⟩
  rw [setupkvm, hkalloc]
  dsimp only
  rw [hmap]

/-- The kernel's own mapping of a page. -/
theorem RowsMapped.entry_page (hrows : RowsMapped memory pgdir (kmap kernel))
    (hends : kernel.ends ≤ page) (hphys : page < physPage) :
    entry memory pgdir (pdx (kernPage + page)) (ptx (kernPage + page)) =
      ⟨page, true, true, false, 0⟩ := by
  have hdata := kernel.ends_gt
  have hrow : (⟨kernPage + kernel.data, kernel.data, physPage, true⟩ : Row) ∈ kmap kernel := by
    simp [kmap]
  have hentry := hrows _ hrow (page - kernel.data) (by dsimp only; omega)
  rwa [add_assoc, Nat.add_sub_cancel' (by omega)] at hentry

/-- Above `KERNBASE`, `deallocuvm` frees a page through the kernel's own mapping. -/
theorem deallocuvm_kernel (hpool : Freeable kernel pool)
    (hrows : RowsMapped memory pgdir (kmap kernel)) (hpage : page ∈ pool) :
    ∃ after, deallocuvm kernel memory pgdir ((kernPage + page + 1) * 4096)
        ((kernPage + page) * 4096) = some ((kernPage + page) * 4096, after) ∧
      after.freelist = page :: memory.freelist ∧
      after.refreed = if page ∈ memory.freelist then memory.refreed + 1 else memory.refreed := by
  obtain ⟨hends, hphys⟩ := hpool page hpage
  have hdata := kernel.ends_gt
  have hkern : kernPage = 524288 := rfl
  have hphysPage : physPage = 57344 := rfl
  have hentry := hrows.entry_page hends hphys
  have hround : pgroundup ((kernPage + page) * 4096) = kernPage + page := by
    rw [pgroundup]
    omega
  have hpresent : (memory.words pgdir (pdx (kernPage + page))).present := by
    by_contra habsent
    rw [entry, if_neg habsent] at hentry
    cases hentry
  rw [entry, if_pos hpresent] at hentry
  refine ⟨(memory.freed page).set (memory.words pgdir (pdx (kernPage + page))).page
    (ptx (kernPage + page)) Word.zero, ?_, rfl, rfl⟩
  rw [deallocuvm, if_neg (by omega), hround, deallocLoop, if_neg (by omega),
    if_pos (by omega), walkpgdir_false, if_pos hpresent]
  dsimp only
  rw [hentry]
  dsimp only
  rw [if_pos rfl, if_neg (by omega), kfree_eq hpool hpage]
  dsimp only
  rw [deallocLoop, if_neg (by omega), if_neg (by omega)]
  rfl

end Success

/-- A kernel of 22 pages, and 2000 pages after it. -/
def smallKernel : Kernel :=
  ⟨264, 278, by decide, by decide, by decide⟩

def smallPool : List ℕ :=
  range' 1024 2000

theorem smallPool_freeable : Freeable smallKernel smallPool := by
  intro page hpage
  have hphys : physPage = 57344 := rfl
  obtain ⟨hge, hlt⟩ := mem_range'_1.1 hpage
  constructor
  · exact (show 278 ≤ 1024 by decide).trans hge
  · omega

theorem smallPool_nodup : smallPool.Nodup :=
  nodup_range'

/-- The first directory. -/
theorem smallPool_setupkvm : ∃ pgdir memory,
    setupkvm smallKernel (start smallPool [] fun _ _ => Word.zero).memory =
      some (some pgdir, memory) ∧ Roomy memory pgdir := by
  apply setupkvm_succeeds (Paged.start smallPool_nodup [] _) rfl
  rw [start, smallPool, length_range']
  decide

theorem deallocuvm_frees_twice : ∃ (pgdir page : ℕ) (before after : System),
    page ∈ smallPool ∧ Reaches smallKernel smallPool Call.Below before ∧
      call smallKernel before (.deallocuvm pgdir ((kernPage + page + 1) * 4096)
        ((kernPage + page) * 4096)) = some after ∧
      after.memory.freelist.count page = 2 ∧ after.memory.refreed = 1 := by
  obtain ⟨pgdir, memory, hsetup, hroomy⟩ := smallPool_setupkvm
  have hpaged := Paged.start smallPool_nodup [] fun _ _ => Word.zero
  obtain ⟨hmade, -, hnew⟩ := hpaged.setupkvm smallPool_freeable hsetup
  obtain ⟨-, hfresh⟩ := hnew pgdir rfl
  obtain ⟨page, rest, hfree⟩ : ∃ page rest, memory.freelist = page :: rest := by
    apply exists_cons_of_length_pos
    exact Nat.zero_lt_of_lt hroomy.room
  have hmem : page ∈ memory.freelist := by
    rw [hfree]
    exact .head _
  have hpage : page ∈ smallPool := by
    by_contra hout
    exact (hmade.owned.used_iff page).2 (.inl hout) hmem
  obtain ⟨after, hdealloc, hlist, hrefreed⟩ :=
    deallocuvm_kernel smallPool_freeable hfresh.rows hpage
  refine ⟨pgdir, page, ⟨memory, [pgdir]⟩, ⟨after, [pgdir]⟩, hpage, ?_, ?_, ?_, ?_⟩
  · refine ⟨[], fun _ _ => Word.zero, .single ⟨.setupkvm, trivial, ?_⟩⟩
    rw [call, hsetup]
    rfl
  · rw [call, if_pos (.head _), hdealloc]
    rfl
  · rw [hlist, count_cons_self, count_eq_one_of_mem hmade.nodup hmem]
  · rw [hrefreed, if_pos hmem, hmade.refreed]

theorem smallPool_is_conserved : ∃ (pgdir : ℕ) (system : System) (after : Memory),
    Reaches smallKernel smallPool Call.Below system ∧ pgdir ∈ system.live ∧
      system.memory.refreed = 0 ∧ freevm smallKernel system.memory pgdir = some after ∧
      pgdir ∈ after.freelist := by
  obtain ⟨pgdir, memory, hsetup, -⟩ := smallPool_setupkvm
  have hreaches : Reaches smallKernel smallPool Call.Below ⟨memory, [pgdir]⟩ := by
    refine ⟨[], fun _ _ => Word.zero, .single ⟨.setupkvm, trivial, ?_⟩⟩
    rw [call, hsetup]
    rfl
  obtain ⟨-, -, hrefreed, hfreevm⟩ :=
    pages_are_conserved smallPool_freeable smallPool_nodup hreaches
  obtain ⟨after, hfree, hpages⟩ := hfreevm pgdir (.head _)
  refine ⟨pgdir, ⟨memory, [pgdir]⟩, after, hreaches, List.mem_cons_self, hrefreed, hfree, ?_⟩
  exact hpages (.directory pgdir) (.inl rfl) pgdir (target_directory (.head _))

end Xv6Users.VirtualMemory
