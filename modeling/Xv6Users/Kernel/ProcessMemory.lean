import Xv6Users.Kernel.PageRuns

/-!
# The memory of a process

`growproc` of `kernel/proc.c` and `copyuvm`, seen from the process: which pages it has, what
they contain, how large it is, and that users reach neither the kernel nor each other.
-/

namespace Xv6Users.VirtualMemory

open List

variable {kernel : Kernel} {pool : List ℕ} {memory memory' after : Memory} {live : List ℕ}
  {pgdir sz newsz va : ℕ}

/-- The user pages of a directory are exactly those below a size. -/
structure Sized (memory : Memory) (pgdir sz : ℕ) : Prop where
  below : sz < kernbase
  present : ∀ va < kernPage, (entryAt memory pgdir va).present ↔ va * 4096 < sz

/-- A page has kept its entry and its content. -/
structure Same (memory : Memory) (pgdir : ℕ) (after : Memory) (va : ℕ) : Prop where
  entry : entryAt after pgdir va = entryAt memory pgdir va
  content : after.words (entryAt memory pgdir va).page = memory.words (entryAt memory pgdir va).page

theorem Keeps.same {except : Set Place} (hkeeps : Keeps except memory live none after none)
    (hlive : pgdir ∈ live) (hva : va < kernPage) (hpresent : (entryAt memory pgdir va).present)
    (hplace : Place.user pgdir (pdx va) (ptx va) ∉ except) : Same memory pgdir after va :=
  ⟨hkeeps.entry pgdir hlive _ _ hplace,
    hkeeps.content (.user pgdir (pdx va) (ptx va)) _ hplace trivial
      (target_user hlive (pdx_user_lt hva) hpresent)⟩

/-! ## Growing and shrinking -/

variable (kernel) in
/-- The result of `growproc` with the size and the memory that it leaves. -/
def growproc (memory : Memory) (pgdir sz : ℕ) (n : ℤ) : Option (ℤ × ℕ × Memory) :=
  let newsz := ((sz + n) % 2 ^ 32).toNat
  if n > 0 then
    (allocuvm kernel memory pgdir sz newsz).map fun (size, memory) =>
      if size = 0 then (-1, sz, memory) else (0, size, memory)
  else if n < 0 then
    (deallocuvm kernel memory pgdir sz newsz).map fun (size, memory) =>
      if size = 0 then (-1, sz, memory) else (0, size, memory)
  else some (0, sz, memory)

/-- The process has its new size, with the pages that stay as they were and zeros in the
others. -/
structure Grew (memory : Memory) (pgdir sz size : ℕ) (after : Memory) : Prop where
  sized : Sized after pgdir size
  kept : ∀ va, va * 4096 < sz → va * 4096 < size → Same memory pgdir after va
  fresh : ∀ va, sz ≤ va * 4096 → va * 4096 < size →
    after.words (entryAt after pgdir va).page = fun _ => Word.zero

/-- All pages of the process are as they were, and there are no others. -/
structure Untouched (memory : Memory) (pgdir sz : ℕ) (after : Memory) : Prop where
  sized : Sized after pgdir sz
  kept : ∀ va, va * 4096 < sz → Same memory pgdir after va

/-- What a call of `growproc` has to do. -/
def Resized (memory : Memory) (pgdir sz : ℕ) (n : ℤ) (done : ℤ × ℕ × Memory) : Prop :=
  done.1 = 0 ∧ (done.2.1 : ℤ) = sz + n ∧ Grew memory pgdir sz done.2.1 done.2.2 ∨
    done.1 = -1 ∧ done.2.1 = sz ∧ Untouched memory pgdir sz done.2.2

theorem pgroundup_le_iff (hsz : sz < kernbase) : pgroundup sz ≤ va ↔ sz ≤ va * 4096 := by
  have hbase : kernbase = 2147483648 := rfl
  rw [pgroundup]
  omega

theorem Sized.va_lt (hsized : Sized memory pgdir sz) (hva : va * 4096 < sz) : va < kernPage := by
  have hbase : kernbase = 2147483648 := rfl
  have hpage : kernPage = 524288 := rfl
  have hbelow := hsized.below
  omega

theorem Sized.untouched (hsized : Sized memory pgdir sz) : Untouched memory pgdir sz memory :=
  ⟨hsized, fun _ _ => ⟨rfl, rfl⟩⟩

/-- Pages outside the part that grows stay. -/
theorem Keeps.same_growing (hkeeps : Keeps (growing pgdir newsz (pgroundup sz)) memory live none
      after none) (hlive : pgdir ∈ live) (hsized : Sized memory pgdir sz)
    (hva : va * 4096 < sz) : Same memory pgdir after va := by
  have hlt := hsized.va_lt hva
  apply hkeeps.same hlive hlt ((hsized.present va hlt).2 hva)
  rw [mem_growing hlt, pgroundup_le_iff hsized.below]
  omega

theorem Keeps.present_growing (hkeeps : Keeps (growing pgdir newsz (pgroundup sz)) memory live
      none after none) (hlive : pgdir ∈ live) (hsized : Sized memory pgdir sz)
    (hva : va < kernPage) (hout : va * 4096 < sz ∨ newsz ≤ va * 4096) :
    (entryAt after pgdir va).present ↔ va * 4096 < sz := by
  rw [← hsized.present va hva, entryAt, hkeeps.entry pgdir hlive, entryAt]
  rw [mem_growing hva, pgroundup_le_iff hsized.below]
  omega

theorem Grown.grew (hgrown : Grown memory live pgdir newsz (pgroundup sz) after)
    (hlive : pgdir ∈ live) (hsized : Sized memory pgdir sz) (hnew : newsz < kernbase)
    (hle : sz ≤ newsz) : Grew memory pgdir sz newsz after := by
  have hzeroed : ∀ va, sz ≤ va * 4096 → va * 4096 < newsz → Zeroed after pgdir va := by
    intro va hfrom hbelow
    exact hgrown.zeroed va ((pgroundup_le_iff hsized.below).2 hfrom) hbelow
  refine ⟨⟨hnew, ?_⟩, ?_, ?_⟩
  · intro va hva
    by_cases hmiddle : sz ≤ va * 4096 ∧ va * 4096 < newsz
    · obtain ⟨page, hentry, -⟩ := hzeroed va hmiddle.1 hmiddle.2
      rw [hentry]
      simp [hmiddle.2]
    · rw [hgrown.keeps.present_growing hlive hsized hva (by omega)]
      omega
  · exact fun va hold _ => hgrown.keeps.same_growing hlive hsized hold
  · intro va hfrom hbelow
    obtain ⟨page, hentry, hzero⟩ := hzeroed va hfrom hbelow
    rw [hentry]
    exact hzero

theorem Undone.untouched (hundone : Undone memory live pgdir newsz (pgroundup sz) after)
    (hlive : pgdir ∈ live) (hsized : Sized memory pgdir sz) : Untouched memory pgdir sz after := by
  refine ⟨⟨hsized.below, ?_⟩, fun va hold => hundone.keeps.same_growing hlive hsized hold⟩
  intro va hva
  by_cases hmiddle : sz ≤ va * 4096 ∧ va * 4096 < newsz
  · have hgone := hundone.gone va ((pgroundup_le_iff hsized.below).2 hmiddle.1) hmiddle.2
    simp [hgone, hmiddle.1]
  · exact hundone.keeps.present_growing hlive hsized hva (by omega)

/-- `allocuvm` for a process grows it or leaves it. -/
theorem allocuvm_spec (hpool : Freeable kernel pool) (hpaged : Paged pool memory live none)
    (hlive : pgdir ∈ live) (hsized : Sized memory pgdir sz) (hle : sz ≤ newsz) :
    ∃ size after, allocuvm kernel memory pgdir sz newsz = some (size, after) ∧
      Paged pool after live none ∧
      Keeps (growing pgdir newsz (pgroundup sz)) memory live none after none ∧
      (size = newsz ∧ (∀ va, sz ≤ va * 4096 → va * 4096 < newsz → Zeroed after pgdir va) ∧
          Grew memory pgdir sz newsz after ∨ size = 0 ∧ Untouched memory pgdir sz after) := by
  rw [allocuvm]
  by_cases hbig : newsz ≥ kernbase
  · rw [if_pos hbig]
    exact ⟨0, memory, rfl, hpaged, .refl .., .inr ⟨rfl, hsized.untouched⟩⟩
  · rw [if_neg hbig, if_neg (not_lt.2 hle)]
    obtain ⟨size, after, hloop, hdone, hresult⟩ | ⟨-, va, hfrom, hbelow, hpresent⟩ :=
      allocuvm_loop hpool hbig (not_lt.2 hle) hpaged hlive
    · obtain ⟨hsize, hgrown⟩ | ⟨hsize, hundone⟩ := hresult
      · refine ⟨size, after, hloop, hdone, hgrown.keeps, .inl ⟨hsize, ?_, ?_⟩⟩
        · intro va hfrom hbelow
          exact hgrown.zeroed va ((pgroundup_le_iff hsized.below).2 hfrom) hbelow
        · exact hgrown.grew hlive hsized (not_le.1 hbig) hle
      · exact ⟨size, after, hloop, hdone, hundone.keeps,
          .inr ⟨hsize, hundone.untouched hlive hsized⟩⟩
    · have hbase : kernbase = 2147483648 := rfl
      have hpage : kernPage = 524288 := rfl
      have hold := (hsized.present va (by omega)).1 hpresent
      rw [pgroundup_le_iff hsized.below] at hfrom
      omega

/-- `deallocuvm` for a process that gets smaller. -/
theorem deallocuvm_shrinks (hpool : Freeable kernel pool) (hpaged : Paged pool memory live none)
    (hlive : pgdir ∈ live) (hsized : Sized memory pgdir sz) (hless : newsz < sz) :
    ∃ after, deallocuvm kernel memory pgdir sz newsz = some (newsz, after) ∧
      Paged pool after live none ∧ Grew memory pgdir sz newsz after := by
  have hsmall : newsz < kernbase := hless.trans hsized.below
  obtain ⟨after, hdealloc, hreleases, hdone, hkeeps⟩ :=
    deallocuvm_spec hpool newsz hsized.below.le hpaged hlive
  rw [min_eq_right hless.le] at hdealloc
  refine ⟨after, hdealloc, hdone, ⟨hsmall, ?_⟩, ?_, ?_⟩
  · intro va hva
    by_cases hgone : newsz ≤ va * 4096 ∧ va * 4096 < sz
    · have habsent : ¬ (entryAt after pgdir va).present := by
        apply not_present_of_target hlive hva
        apply (hreleases hless).gone
        rwa [mem_usersFrom hva, pgroundup_le_iff hsmall]
      simp [habsent, hgone.1]
    · rw [entryAt, hkeeps.entry pgdir hlive, ← entryAt, hsized.present va hva]
      · omega
      · rwa [mem_usersFrom hva, pgroundup_le_iff hsmall]
  · intro va hold hkept
    have hva := hsized.va_lt hold
    apply hkeeps.same hlive hva ((hsized.present va hva).2 hold)
    rw [mem_usersFrom hva, pgroundup_le_iff hsmall]
    omega
  · intro va hfrom hbelow
    omega

section Calls

variable {n : ℤ}

theorem growproc_grows (hpool : Freeable kernel pool) (hpaged : Paged pool memory live none)
    (hlive : pgdir ∈ live) (hsized : Sized memory pgdir sz) (hpos : 0 < n) (hn : n < 2 ^ 31) :
    ∃ done, growproc kernel memory pgdir sz n = some done ∧ Resized memory pgdir sz n done := by
  have hbase : kernbase = 2147483648 := rfl
  have hbelow := hsized.below
  have hnew : (((sz : ℤ) + n) % 2 ^ 32).toNat = sz + n.toNat := by omega
  obtain ⟨size, after, halloc, -, -, hresult⟩ :=
    allocuvm_spec hpool hpaged hlive hsized (Nat.le_add_right sz n.toNat)
  rw [growproc]
  rw [if_pos hpos, hnew, halloc]
  obtain ⟨rfl, -, hgrew⟩ | ⟨rfl, huntouched⟩ := hresult
  · refine ⟨(0, sz + n.toNat, after), ?_, .inl ⟨rfl, ?_, hgrew⟩⟩
    · exact congrArg some (if_neg (by omega))
    · dsimp only
      omega
  · exact ⟨(-1, sz, after), rfl, .inr ⟨rfl, rfl, huntouched⟩⟩

theorem growproc_shrinks (hpool : Freeable kernel pool) (hpaged : Paged pool memory live none)
    (hlive : pgdir ∈ live) (hsized : Sized memory pgdir sz) (hneg : n < 0) (hle : 0 ≤ sz + n) :
    ∃ after, growproc kernel memory pgdir sz n =
        some (if sz + n = 0 then (-1, sz, after) else (0, (sz + n).toNat, after)) ∧
      Grew memory pgdir sz (sz + n).toNat after := by
  have hbase : kernbase = 2147483648 := rfl
  have hbelow := hsized.below
  have hnew : (((sz : ℤ) + n) % 2 ^ 32).toNat = (sz + n).toNat := by omega
  have hless : (sz + n).toNat < sz := by omega
  obtain ⟨after, hdealloc, -, hgrew⟩ := deallocuvm_shrinks hpool hpaged hlive hsized hless
  refine ⟨after, ?_, hgrew⟩
  rw [growproc]
  rw [if_neg (by omega), if_pos hneg, hnew, hdealloc]
  apply congrArg some
  dsimp only
  by_cases hzero : sz + n = 0
  · rw [if_pos (by omega), if_pos hzero]
  · rw [if_neg (by omega), if_neg hzero]

/-- A size below 0 wraps around, and `deallocuvm` does nothing. -/
theorem growproc_wraps (hsized : Sized memory pgdir sz) (hneg : n < 0) (hn : -2 ^ 31 ≤ n)
    (hless : sz + n < 0) :
    growproc kernel memory pgdir sz n =
      some (if sz = 0 then (-1, sz, memory) else (0, sz, memory)) := by
  have hbelow := hsized.below
  rw [growproc]
  rw [if_neg (by omega), if_pos hneg, deallocuvm, if_pos (by omega)]
  rfl

/-- `growproc` does what it has to do exactly when the size does not fall to 0 or below. -/
theorem growproc_resizes_iff (hpool : Freeable kernel pool)
    (hpaged : Paged pool memory live none) (hlive : pgdir ∈ live)
    (hsized : Sized memory pgdir sz) (hlow : -2 ^ 31 ≤ n) (hhigh : n < 2 ^ 31) :
    (∃ done, growproc kernel memory pgdir sz n = some done ∧
      Resized memory pgdir sz n done) ↔ 0 ≤ n ∨ sz = 0 ∨ 0 < sz + n := by
  obtain hpos | rfl | hneg : 0 < n ∨ n = 0 ∨ n < 0 := by omega
  · have hdone := growproc_grows hpool hpaged hlive hsized hpos hhigh
    exact iff_of_true hdone (.inl hpos.le)
  · refine iff_of_true ⟨(0, sz, memory), rfl, .inl ⟨rfl, (add_zero _).symm, ?_⟩⟩ (.inl le_rfl)
    exact ⟨hsized, fun _ _ _ => ⟨rfl, rfl⟩, fun _ hfrom hbelow => absurd hbelow (not_lt.2 hfrom)⟩
  · by_cases hwraps : sz + n < 0
    · rw [growproc_wraps hsized hneg hlow hwraps]
      by_cases hzero : sz = 0
      · rw [if_pos hzero]
        exact iff_of_true ⟨_, rfl, .inr ⟨rfl, rfl, hsized.untouched⟩⟩ (.inr (.inl hzero))
      · rw [if_neg hzero]
        apply iff_of_false
        · rintro ⟨_, ⟨⟩, ⟨-, hsize, -⟩ | ⟨hfail, -⟩⟩
          · omega
          · cases hfail
        · omega
    · obtain ⟨after, hcall, hgrew⟩ :=
        growproc_shrinks hpool hpaged hlive hsized hneg (not_lt.1 hwraps)
      rw [hcall]
      by_cases hempty : (sz : ℤ) + n = 0
      · rw [if_pos hempty]
        apply iff_of_false
        · rintro ⟨_, ⟨⟩, ⟨hok, -⟩ | ⟨-, -, huntouched⟩⟩
          · cases hok
          · -- page 0 was there and is gone
            have hkern : 0 < kernPage := by norm_num
            have hpos : (0 : ℤ) < sz := by linarith only [hneg, hempty]
            have hthere := (huntouched.sized.present 0 hkern).2 (by exact_mod_cast hpos)
            have hgone := (hgrew.sized.present 0 hkern).1 hthere
            omega
        · omega
      · rw [if_neg hempty]
        refine iff_of_true ⟨_, rfl, .inl ⟨rfl, ?_, hgrew⟩⟩ (by omega)
        dsimp only
        omega

end Calls

theorem walkpgdir_of_room (houtages : memory.outages = []) (hroom : memory.freelist ≠ []) :
    ∃ pgtab after, walkpgdir memory pgdir va true = (some (pgtab, ptx va), after) ∧
      after.outages = [] ∧ memory.freelist.length ≤ after.freelist.length + 1 := by
  rw [walkpgdir]
  by_cases hpresent : (memory.words pgdir (pdx va)).present
  · rw [if_pos hpresent]
    exact ⟨_, memory, rfl, houtages, Nat.le_succ _⟩
  · obtain ⟨page, rest, hfree⟩ := exists_cons_of_ne_nil hroom
    rw [if_neg hpresent, kalloc_of_roomy houtages hfree]
    exact ⟨page, _, rfl, houtages, hfree ▸ le_rfl⟩

/-- With memory for a table, a page that has no entry yet is mapped. -/
theorem mappages_of_room {page : ℕ} {writable user ok : Bool} {rest : Fin 512}
    (houtages : memory.outages = []) (hroom : memory.freelist ≠ [])
    (hmap : mappages pgdir writable user rest 1 va page memory = some (ok, after)) :
    ok = true ∧ after.outages = [] ∧ memory.freelist.length ≤ after.freelist.length + 1 := by
  obtain ⟨pgtab, walked, hwalk, hnone, hlength⟩ :
      ∃ pgtab walked, walkpgdir memory pgdir va true = (some (pgtab, ptx va), walked) ∧
        walked.outages = [] ∧ memory.freelist.length ≤ walked.freelist.length + 1 :=
    walkpgdir_of_room houtages hroom
  rw [mappages, hwalk] at hmap
  dsimp only at hmap
  split_ifs at hmap
  cases hmap
  exact ⟨rfl, hnone, hlength⟩

/-- With memory for each page and a table for it, all pages are mapped. -/
theorem allocLoop_of_room {size : ℕ} {pages : List ℕ} (houtages : memory.outages = [])
    (hroom : 2 * pages.length ≤ memory.freelist.length)
    (hloop : allocLoop kernel pgdir sz newsz pages memory = some (size, after)) : size = newsz := by
  induction pages generalizing memory with
  | nil =>
    cases hloop
    rfl
  | cons a rest ih =>
    rw [length_cons] at hroom
    obtain ⟨page, free, hfree⟩ : ∃ page free, memory.freelist = page :: free := by
      apply exists_cons_of_length_pos
      omega
    rw [hfree, length_cons] at hroom
    have hmaps : ∀ ok mapped, mappages pgdir true true 0 1 a page
        (({ memory with freelist := free } : Memory).fill page fun _ => Word.zero) =
          some (ok, mapped) →
        ok = true ∧ mapped.outages = [] ∧ free.length ≤ mapped.freelist.length + 1 := by
      intro ok mapped hmap
      have hfew : free ≠ [] := ne_nil_of_length_pos (by omega)
      exact mappages_of_room (by exact houtages) (by exact hfew) hmap
    rw [allocLoop, kalloc_of_roomy houtages hfree] at hloop
    dsimp only at hloop
    split at hloop
    · cases hloop
    · next hmap => cases (hmaps _ _ hmap).1
    · next mapped hmap =>
      obtain ⟨-, hnone, hlength⟩ := hmaps _ _ hmap
      exact ih hnone (by omega) hloop

theorem allocuvm_of_room {size : ℕ} (houtages : memory.outages = []) (hbelow : newsz < kernbase)
    (hle : sz ≤ newsz) (hroom : 2 * ((newsz + 4095) / 4096 - pgroundup sz) ≤ memory.freelist.length)
    (halloc : allocuvm kernel memory pgdir sz newsz = some (size, after)) : size = newsz := by
  rw [allocuvm, if_neg (not_le.2 hbelow), if_neg (not_lt.2 hle)] at halloc
  apply allocLoop_of_room houtages ?_ halloc
  rwa [length_range']

/-- The user's half of a new directory has no tables, so there is memory for some pages. -/
theorem Roomy.fresh (hroomy : Roomy memory pgdir) (hfresh : Fresh kernel memory pgdir) :
    4 ≤ memory.freelist.length := by
  have hsubset : ({0, 1, 2, 3} : Finset Index) ⊆ absent memory pgdir := by
    intro dir hdir
    have hlow : dir.val < 512 := by
      fin_cases hdir <;> decide
    exact Finset.mem_filter.2 ⟨Finset.mem_univ _, hfresh.bare dir hlow⟩
  calc 4
      = ({0, 1, 2, 3} : Finset Index).card := rfl
    _ ≤ (absent memory pgdir).card := Finset.card_le_card hsubset
    _ ≤ memory.freelist.length := hroomy.room.le

/-- The kernel's half of a directory does not grow. -/
theorem not_mem_growing_upper {a : ℕ} {dir index : Index} (hsize : newsz ≤ kernbase)
    (hhigh : ¬ dir.val < 512) : Place.user pgdir dir index ∉ growing pgdir newsz a := by
  have hbase : kernbase = 2147483648 := rfl
  rintro (⟨_, hplace⟩ | ⟨_, _, hplace, -, hbelow⟩)
  · cases hplace
  · cases hplace
    omega

theorem Fresh.sized (hfresh : Fresh kernel memory pgdir) : Sized memory pgdir 0 := by
  refine ⟨by norm_num, ?_⟩
  intro va hva
  have habsent := hfresh.lower (pdx va) (ptx va) (pdx_user_lt hva)
  rw [entryAt]
  simp [habsent]

/-- A process of one page in the small memory. -/
structure OnePage (pgdir : ℕ) (system : System) : Prop where
  reaches : Reaches smallKernel smallPool Call.Below system
  live : pgdir ∈ system.live
  sized : Sized system.memory pgdir 4096
  zeroed : Zeroed system.memory pgdir 0
  upper : ∀ dir index : Index, ¬ dir.val < 512 → (entry system.memory pgdir dir index).user = false

theorem smallPool_process : ∃ (pgdir : ℕ) (system : System), OnePage pgdir system := by
  obtain ⟨pgdir, memory, hsetup, hroomy⟩ := smallPool_setupkvm
  obtain ⟨hpaged, -, hmade⟩ := (Paged.start smallPool_nodup [] fun _ _ => Word.zero).setupkvm
    smallPool_freeable hsetup
  obtain ⟨-, hfresh⟩ := hmade pgdir rfl
  have hsized := hfresh.sized
  obtain ⟨size, after, halloc, -, hkeeps, hresult⟩ :=
    allocuvm_spec smallPool_freeable hpaged mem_cons_self hsized (Nat.zero_le 4096)
  have hpages : 2 * ((4096 + 4095) / 4096 - pgroundup 0) ≤ memory.freelist.length :=
    Nat.le_trans (by decide) (hroomy.fresh hfresh)
  obtain rfl := allocuvm_of_room hroomy.outages (by decide) (Nat.zero_le _) hpages halloc
  obtain ⟨-, hzeroed, hgrew⟩ := hresult.resolve_right fun hzero => by cases hzero.1
  have hfirst : call smallKernel (start smallPool [] fun _ _ => Word.zero) .setupkvm =
      some ⟨memory, [pgdir]⟩ := by
    rw [call, hsetup]
    rfl
  have hsecond : call smallKernel ⟨memory, [pgdir]⟩ (.allocuvm pgdir 0 4096) =
      some ⟨after, [pgdir]⟩ := by
    rw [call, if_pos (.head _), halloc]
    rfl
  refine ⟨pgdir, ⟨after, [pgdir]⟩, ⟨[], fun _ _ => Word.zero,
    .tail (.single ⟨.setupkvm, trivial, hfirst⟩)
      ⟨.allocuvm pgdir 0 4096, trivial, hsecond⟩⟩, mem_cons_self, hgrew.sized,
    hzeroed 0 le_rfl (by decide), ?_⟩
  intro dir index hhigh
  rw [hkeeps.entry pgdir (.head _)]
  · exact hfresh.upper dir index
  · exact not_mem_growing_upper (by norm_num) hhigh

/-- A process of one page loses it when it asks for less by a page, and the call says that it
has failed.  When it asks for less by two pages, the call says that it has not. -/
theorem growproc_empties_process : ∃ (pgdir : ℕ) (system : System) (after : Memory),
    Reaches smallKernel smallPool Call.Below system ∧ pgdir ∈ system.live ∧
      Sized system.memory pgdir 4096 ∧
      growproc smallKernel system.memory pgdir 4096 (-4096) = some (-1, 4096, after) ∧
      (entryAt system.memory pgdir 0).present ∧ ¬ (entryAt after pgdir 0).present ∧
      growproc smallKernel system.memory pgdir 4096 (-8192) = some (0, 4096, system.memory) := by
  obtain ⟨pgdir, system, ⟨hreaches, hlive, hsized, -, -⟩⟩ := smallPool_process
  have hpaged := paged_of_reaches smallPool_freeable smallPool_nodup hreaches
  have hkern : 0 < kernPage := by norm_num
  obtain ⟨after, hcall, hgrew⟩ := growproc_shrinks (n := -4096) smallPool_freeable hpaged hlive
    hsized (by decide) (by decide)
  refine ⟨pgdir, system, after, hreaches, hlive, hsized, hcall, ?_, ?_, ?_⟩
  · exact (hsized.present 0 hkern).2 (by decide)
  · intro hpresent
    exact absurd ((hgrew.sized.present 0 hkern).1 hpresent) (by decide)
  · exact growproc_wraps hsized (by decide) (by decide) (by decide)

theorem small_process_resizes : ∃ (pgdir : ℕ) (system : System) (done : ℤ × ℕ × Memory),
    Reaches smallKernel smallPool Call.Below system ∧ pgdir ∈ system.live ∧
      Sized system.memory pgdir 4096 ∧
      growproc smallKernel system.memory pgdir 4096 (-100) = some done ∧
      Resized system.memory pgdir 4096 (-100) done := by
  obtain ⟨pgdir, system, ⟨hreaches, hlive, hsized, -, -⟩⟩ := smallPool_process
  have hpaged := paged_of_reaches smallPool_freeable smallPool_nodup hreaches
  obtain ⟨done, hcall, hdone⟩ := (growproc_resizes_iff smallPool_freeable hpaged hlive hsized
    (n := -100) (by decide) (by decide)).2 (.inr (.inr (by decide)))
  exact ⟨pgdir, system, done, hreaches, hlive, hsized, hcall, hdone⟩

/-- All free pages of the pool are below the end of the memory. -/
theorem Paged.freelist_length (hpool : Freeable kernel pool)
    (hpaged : Paged pool memory live none) : memory.freelist.length ≤ physPage := by
  have hsubset : memory.freelist ⊆ range physPage := by
    intro page hfree
    have hpage : page ∈ pool := by
      by_contra hout
      exact (hpaged.owned.used_iff page).2 (.inl hout) hfree
    exact mem_range.2 (hpool page hpage).2
  calc memory.freelist.length
      ≤ (range physPage).length := (hpaged.nodup.subperm hsubset).length_le
    _ = physPage := length_range

/-- Where all places stay, the same pages are free. -/
theorem Keeps.freelist_perm (hkeeps : Keeps ∅ memory live none after none)
    (hpaged : Paged pool memory live none) (hafter : Paged pool after live none) :
    after.freelist.Perm memory.freelist := by
  rw [perm_ext_iff_of_nodup hafter.nodup hpaged.nodup]
  intro page
  have htarget : VirtualMemory.target after live none = VirtualMemory.target memory live none :=
    funext fun place => hkeeps.target (Set.notMem_empty place)
  have hbefore := hpaged.owned.used_iff page
  have hthen := hafter.owned.used_iff page
  rw [htarget, ← hbefore] at hthen
  exact not_iff_not.1 hthen

/-- The new directory has the pages of the other one up to a size and shares none. -/
structure Twin (memory : Memory) (live : List ℕ) (pgdir sz d : ℕ) (after : Memory) : Prop where
  fresh : d ∉ live
  sized : ∀ va < kernPage, (entryAt after d va).present ↔ va * 4096 < sz
  flags : ∀ va, va * 4096 < sz →
    { entryAt after d va with page := (entryAt memory pgdir va).page } = entryAt memory pgdir va
  content : ∀ va, va * 4096 < sz →
    after.words (entryAt after d va).page = memory.words (entryAt memory pgdir va).page
  unshared : ∀ va, va * 4096 < sz → ∀ other ∈ d :: live, ∀ va' < kernPage,
    (entryAt after other va').present → (entryAt after other va').page = (entryAt after d va).page →
    other = d ∧ va' = va

theorem Copied.twin {d : ℕ} (hcopied : Copied memory pgdir d 0 ((sz + 4095) / 4096) after)
    (hafter : Paged pool after (d :: live) none) (hnew : d ∉ live)
    (hsz : (sz + 4095) / 4096 ≤ kernPage)
    (hlower : ∀ va < kernPage, ¬ va * 4096 < sz → ¬ (entryAt after d va).present) :
    Twin memory live pgdir sz d after := by
  have hpage : kernPage = 524288 := rfl
  have hcopy : ∀ va, va * 4096 < sz → (entryAt memory pgdir va).present ∧
      ∃ page, entryAt after d va = { entryAt memory pgdir va with page := page } ∧
        after.words page = memory.words (entryAt memory pgdir va).page :=
    fun va hva => hcopied va (Nat.zero_le va) (by omega)
  have hthere : ∀ va, va * 4096 < sz → (entryAt after d va).present := by
    intro va hva
    obtain ⟨hpresent, page, hentry, -⟩ := hcopy va hva
    rwa [hentry]
  refine ⟨hnew, ?_, ?_, ?_, ?_⟩
  · intro va hva
    by_cases hbelow : va * 4096 < sz
    · exact iff_of_true (hthere va hbelow) hbelow
    · exact iff_of_false (hlower va hva hbelow) hbelow
  · intro va hva
    obtain ⟨-, page, hentry, -⟩ := hcopy va hva
    rw [hentry]
  · intro va hva
    obtain ⟨-, page, hentry, hcontent⟩ := hcopy va hva
    rw [hentry]
    exact hcontent
  · intro va hva other hother va' hva' hpresent hsame
    have hleft : target after (d :: live) none (.user other (pdx va') (ptx va')) =
        some (entryAt after other va').page := target_user hother (pdx_user_lt hva') hpresent
    have hright : target after (d :: live) none (.user d (pdx va) (ptx va)) =
        some (entryAt after d va).page :=
      target_user (.head _) (pdx_user_lt (by omega)) (hthere va hva)
    obtain ⟨hdirectory, hdir, hindex⟩ := Place.user.inj (hafter.owned.unique hleft (hsame ▸ hright))
    exact ⟨hdirectory, indices_injective (by omega) (by omega) hdir hindex⟩

/-- `copyuvm` returns a copy that shares no page, or gives back every page that it took. -/
theorem copyuvm_copies (hpool : Freeable kernel pool) (hpaged : Paged pool memory live none)
    (hlive : pgdir ∈ live) (hpresent : ∀ va, va * 4096 < sz → (entryAt memory pgdir va).present) :
    ∃ result after, copyuvm kernel memory pgdir sz = some (result, after) ∧
      (∀ va, entryAt after pgdir va = entryAt memory pgdir va) ∧
      (∀ va < kernPage, (entryAt memory pgdir va).present → Same memory pgdir after va) ∧
      (∀ d ∈ result, Twin memory live pgdir sz d after) ∧
      (result = none → after.freelist.Perm memory.freelist) := by
  have hpage : kernPage = 524288 := rfl
  have hphys : physPage = 57344 := rfl
  -- whatever the result, nothing changes in the directories that there are
  have hparent : ∀ {after}, Keeps ∅ memory live none after none →
      (∀ va, entryAt after pgdir va = entryAt memory pgdir va) ∧
      ∀ va < kernPage, (entryAt memory pgdir va).present → Same memory pgdir after va := by
    intro after hkeeps
    constructor
    · exact fun va => hkeeps.entry pgdir hlive _ _ (Set.notMem_empty _)
    · exact fun va hva hthere => hkeeps.same hlive hva hthere (Set.notMem_empty _)
  obtain ⟨made, middle, hsetup⟩ := setupkvm_returns hpool hpaged
  obtain ⟨hmiddle, hkept, hmade⟩ := hpaged.setupkvm hpool hsetup
  rw [copyuvm, hsetup]
  cases made with
  | none =>
    obtain ⟨hentries, hcontents⟩ := hparent hkept
    exact ⟨none, middle, rfl, hentries, hcontents, by rintro _ ⟨⟩,
      fun _ => hkept.freelist_perm hpaged hmiddle⟩
  | some d =>
    obtain ⟨hnew, hfresh⟩ := hmade d rfl
    rw [range_eq_range']
    obtain ⟨after, hloop, hdone, hle, hkeeps, hcopied⟩ | ⟨after, hloop, hdone, hkeeps⟩ |
      ⟨-, hreason⟩ := copyLoop_spec hpool hmiddle hnew hlive (Nat.zero_le _)
        hfresh.rows.entry_kernPage
    · rw [zero_add] at hle hcopied hkeeps
      have hboth : Keeps ∅ memory live none after none :=
        (hkept.trans (hkeeps.growing_behind hnew)).mono (by simp)
      obtain ⟨hentries, hcontents⟩ := hparent hboth
      refine ⟨some d, after, hloop, hentries, hcontents, ?_, by rintro ⟨⟩⟩
      rintro _ ⟨⟩
      apply (hcopied.of_keeps hkept hlive hle).twin hdone hnew hle
      intro va hva hout
      rw [entryAt, hkeeps.entry d (.head _)]
      · exact hfresh.lower _ _ (pdx_user_lt hva)
      · rw [mem_growing_pages hva]
        omega
    · have hboth : Keeps ∅ memory live none after none := (hkept.trans hkeeps).mono (by simp)
      obtain ⟨hentries, hcontents⟩ := hparent hboth
      exact ⟨none, after, hloop, hentries, hcontents, by rintro _ ⟨⟩,
        fun _ => hboth.freelist_perm hpaged hdone⟩
    · obtain ⟨va, -, hbelow, habsent⟩ | ⟨va, -, hva, hthere⟩ | ⟨-, hroom⟩ := hreason
      · rw [entryAt, hkept.entry pgdir hlive _ _ (Set.notMem_empty _)] at habsent
        exact absurd (hpresent va (by omega)) habsent
      · exact absurd hthere (hfresh.lower _ _ (pdx_user_lt hva))
      · have hlength := hmiddle.freelist_length hpool
        omega

/-- The process of one page can be copied. -/
theorem small_process_copies : ∃ (pgdir : ℕ) (system : System) (result : Option ℕ)
    (after : Memory), Reaches smallKernel smallPool Call.Below system ∧ pgdir ∈ system.live ∧
      Sized system.memory pgdir 4096 ∧
      copyuvm smallKernel system.memory pgdir 4096 = some (result, after) ∧
      ∀ d ∈ result, Twin system.memory system.live pgdir 4096 d after := by
  obtain ⟨pgdir, system, ⟨hreaches, hlive, hsized, -, -⟩⟩ := smallPool_process
  have hpaged := paged_of_reaches smallPool_freeable smallPool_nodup hreaches
  obtain ⟨result, after, hcopy, -, -, htwin, -⟩ := copyuvm_copies smallPool_freeable hpaged hlive
    fun va hva => (hsized.present va (hsized.va_lt hva)).2 hva
  exact ⟨pgdir, system, result, after, hreaches, hlive, hsized, hcopy, htwin⟩

section Isolation

variable {d : ℕ} {except : Set Place} {system system' : System} {request : Call}

/-- The directory that a call changes; `copyuvm` only reads that of the parent. -/
def Call.changes : Call → Option ℕ
  | .setupkvm | .copyuvm _ _ => none
  | .allocuvm pgdir _ _ | .deallocuvm pgdir _ _ | .clearpteu pgdir _ | .freevm pgdir => some pgdir

/-- A directory is kept as a whole by what changes places of another one. -/
theorem Keeps.alone (hkeeps : Keeps except memory live none after none) (hlive : d ∈ live)
    (hexcept : except ⊆ placesOf pgdir) (hother : pgdir ≠ d) :
    Keeps ∅ memory [d] none after none := by
  apply hkeeps.restrict
  · exact fun other hsame => eq_of_mem_singleton hsame ▸ hlive
  · rintro - hin
    obtain hplace | ⟨_, hplace⟩ | ⟨_, _, hplace⟩ := hexcept hin <;> cases hplace
  · rintro other hsame dir - hin
    cases eq_of_mem_singleton hsame
    obtain hplace | ⟨_, hplace⟩ | ⟨_, _, hplace⟩ := hexcept hin <;> cases hplace
    exact hother rfl
  · rintro other hsame dir index - hin
    cases eq_of_mem_singleton hsame
    obtain hplace | ⟨_, hplace⟩ | ⟨_, _, hplace⟩ := hexcept hin <;> cases hplace
    exact hother rfl

theorem Keeps.only (hkeeps : Keeps ∅ memory live none after none) (hlive : d ∈ live) :
    Keeps ∅ memory [d] none after none :=
  hkeeps.alone hlive (Set.empty_subset _) (Nat.succ_ne_self d)

theorem usersFrom_subset {oldsz a : ℕ} : usersFrom pgdir oldsz a ⊆ placesOf pgdir := by
  rintro place ⟨dir, index, rfl, -⟩
  exact .inr (.inr ⟨dir, index, rfl⟩)

theorem growing_subset {a : ℕ} : growing pgdir newsz a ⊆ placesOf pgdir := by
  rintro place (hplace | hplace)
  · exact .inr (.inl hplace)
  · exact usersFrom_subset hplace

/-- The kernel is mapped in a directory, and no user gets at an entry above `KERNBASE`. -/
structure Walled (kernel : Kernel) (memory : Memory) (pgdir : ℕ) : Prop where
  rows : RowsMapped memory pgdir (kmap kernel)
  upper : ∀ dir index : Index, ¬ dir.val < 512 → (entry memory pgdir dir index).user = false

theorem Walled.congr (hwalled : Walled kernel memory d) (hsame : ∀ dir index : Index,
    ¬ dir.val < 512 → entry after d dir index = entry memory d dir index) :
    Walled kernel after d := by
  constructor
  · intro row hrow k hk
    obtain ⟨hlow, hend⟩ := kmap_high kernel row hrow
    rw [hsame _ _ (pdx_kernel (by omega) (by omega))]
    exact hwalled.rows row hrow k hk
  · intro dir index hdir
    rw [hsame dir index hdir]
    exact hwalled.upper dir index hdir

theorem Walled.of_keeps (hwalled : Walled kernel memory d)
    (hkeeps : Keeps ∅ memory [d] none after none) : Walled kernel after d :=
  hwalled.congr fun dir index _ => hkeeps.entry d (.head _) dir index (Set.notMem_empty _)

/-- What a call that may change one directory keeps. -/
structure Framed (kernel : Kernel) (system : System) (changed : Option ℕ) (system' : System) :
    Prop where
  live : ∀ d ∈ system.live, changed ≠ some d → d ∈ system'.live
  keeps : ∀ d ∈ system.live, changed ≠ some d →
    Keeps ∅ system.memory [d] none system'.memory none
  walled : (∀ d ∈ system.live, Walled kernel system.memory d) →
    ∀ d ∈ system'.live, Walled kernel system'.memory d

theorem Framed.adopt {result : Option ℕ × Memory}
    (hkeeps : ∀ d ∈ system.live, Keeps ∅ system.memory [d] none result.2 none)
    (hnew : ∀ new ∈ result.1, Walled kernel result.2 new) :
    Framed kernel system none (system.adopt result) := by
  obtain ⟨_ | new, after⟩ := result
  · exact ⟨fun _ hlive _ => hlive, fun d hlive _ => hkeeps d hlive,
      fun hwalled d hlive => (hwalled d hlive).of_keeps (hkeeps d hlive)⟩
  · refine ⟨fun _ hlive _ => .tail _ hlive, fun d hlive _ => hkeeps d hlive, ?_⟩
    rintro hwalled d (_ | ⟨_, hlive⟩)
    · exact hnew new rfl
    · exact (hwalled d hlive).of_keeps (hkeeps d hlive)

theorem Framed.of_keeps (hkeeps : Keeps except system.memory system.live none after none)
    (hexcept : except ⊆ placesOf pgdir)
    (hself : Walled kernel system.memory pgdir → Walled kernel after pgdir) :
    Framed kernel system (some pgdir) ⟨after, system.live⟩ := by
  have hothers : ∀ d ∈ system.live, some pgdir ≠ some d →
      Keeps ∅ system.memory [d] none after none := fun d hlive hother =>
    hkeeps.alone hlive hexcept fun hsame => hother (congrArg some hsame)
  refine ⟨fun _ hlive _ => hlive, hothers, fun hwalled d hlive => ?_⟩
  by_cases hsame : pgdir = d
  · subst hsame
    exact hself (hwalled pgdir hlive)
  · exact (hwalled d hlive).of_keeps
      (hothers d hlive fun hsame' => hsame (Option.some.inj hsame'))

theorem Fresh.walled (hfresh : Fresh kernel memory d) : Walled kernel memory d :=
  ⟨hfresh.rows, fun dir index _ => hfresh.upper dir index⟩

theorem copyuvm_framed {result : Option ℕ × Memory} (hpool : Freeable kernel pool)
    (hpaged : Paged pool system.memory system.live none) (hparent : pgdir ∈ system.live)
    (hcopy : copyuvm kernel system.memory pgdir sz = some result) :
    Framed kernel system none (system.adopt result) := by
  rw [copyuvm] at hcopy
  split at hcopy
  · cases hcopy
  · next middle hsetup =>
    cases hcopy
    exact .adopt (fun d => (hpaged.setupkvm hpool hsetup).2.1.only) (by rintro _ ⟨⟩)
  · next new middle hsetup =>
    obtain ⟨hmiddle, hkept, hmade⟩ := hpaged.setupkvm hpool hsetup
    obtain ⟨hnew, hfresh⟩ := hmade new rfl
    rw [range_eq_range'] at hcopy
    obtain ⟨_, hloop, -, hend, hkeeps, -⟩ | ⟨_, hloop, -, hkeeps⟩ | ⟨hloop, -⟩ :=
      copyLoop_spec hpool hmiddle hnew hparent (Nat.zero_le _) hfresh.rows.entry_kernPage
    · cases hloop.symm.trans hcopy
      refine .adopt (fun d hlive => ?_) ?_
      · have hcopied := hkeeps.alone (.tail _ hlive) growing_subset
          (ne_of_mem_of_not_mem hlive hnew).symm
        exact ((hkept.only hlive).trans hcopied).mono (Set.union_empty _).le
      · rintro _ ⟨⟩
        have hbase : kernbase = kernPage * 4096 := rfl
        exact hfresh.walled.congr fun dir index hdir => hkeeps.entry new (.head _) dir index
          (not_mem_growing_upper (by omega) hdir)
    · cases hloop.symm.trans hcopy
      exact .adopt (fun d => ((hkept.trans hkeeps).mono (Set.union_empty _).le).only)
        (by rintro _ ⟨⟩)
    · cases hloop.symm.trans hcopy

/-- What a call does not change it keeps, with its contents, and no call opens the kernel's
half of a directory. -/
theorem call_framed (hpool : Freeable kernel pool)
    (hpaged : Paged pool system.memory system.live none) (hbelow : request.Below)
    (hcall : call kernel system request = some system') :
    Framed kernel system request.changes system' := by
  cases request with
  | setupkvm =>
    obtain ⟨result, hsetup, rfl⟩ := Option.map_eq_some_iff.1 hcall
    obtain ⟨-, hkeeps, hmade⟩ := hpaged.setupkvm hpool hsetup
    exact .adopt (fun d => hkeeps.only) fun new hnew => (hmade new hnew).2.walled
  | copyuvm pgdir sz =>
    rw [call] at hcall
    split_ifs at hcall with hparent
    obtain ⟨result, hcopy, rfl⟩ := Option.map_eq_some_iff.1 hcall
    exact copyuvm_framed hpool hpaged hparent hcopy
  | allocuvm pgdir oldsz newsz =>
    rw [call] at hcall
    split_ifs at hcall with hthere
    obtain ⟨⟨size, after⟩, halloc, rfl⟩ := Option.map_eq_some_iff.1 hcall
    rw [allocuvm] at halloc
    split_ifs at halloc with hbig hless
    · cases halloc
      exact .of_keeps (.refl ..) (Set.empty_subset _) id
    · cases halloc
      exact .of_keeps (.refl ..) (Set.empty_subset _) id
    · obtain ⟨_, _, hloop, -, hresult⟩ | ⟨hloop, -⟩ :=
        allocuvm_loop hpool hbig hless hpaged hthere
      · cases hloop.symm.trans halloc
        have hkeeps := hresult.elim (·.2.keeps) (·.2.keeps)
        exact .of_keeps hkeeps growing_subset fun hwalled => hwalled.congr fun dir index hdir =>
          hkeeps.entry pgdir hthere dir index (not_mem_growing_upper (by omega) hdir)
      · cases hloop.symm.trans halloc
  | deallocuvm pgdir oldsz newsz =>
    rw [call] at hcall
    split_ifs at hcall with hthere
    obtain ⟨⟨size, after⟩, hdealloc, rfl⟩ := Option.map_eq_some_iff.1 hcall
    obtain ⟨freed, hspec, -, -, hkeeps⟩ := deallocuvm_spec hpool newsz hbelow hpaged hthere
    cases hspec.symm.trans hdealloc
    exact .of_keeps hkeeps usersFrom_subset fun hwalled => hwalled.congr fun dir index hdir =>
      hkeeps.entry pgdir hthere dir index fun hin => not_mem_growing_upper hbelow hdir (.inr hin)
  | clearpteu pgdir uva =>
    rw [call] at hcall
    split_ifs at hcall with hthere
    obtain ⟨after, hclear, rfl⟩ := Option.map_eq_some_iff.1 hcall
    rw [clearpteu, walkpgdir_false] at hclear
    split_ifs at hclear with hpresent
    cases hclear
    refine .of_keeps (.of_set hpaged.apart hthere hpresent _)
      (Set.singleton_subset_iff.2 (.inr (.inr ⟨_, _, rfl⟩))) fun hwalled =>
        hwalled.congr fun dir index hdir => ?_
    rw [hpaged.apart.set_entry hthere hpresent hthere]
    split_ifs with hsame
    · obtain ⟨-, rfl, rfl⟩ := hsame
      have huser := hwalled.upper _ (ptx uva) hdir
      rw [entry, if_pos hpresent] at huser ⊢
      rw [← huser]
    · rfl
  | freevm pgdir =>
    rw [call] at hcall
    split_ifs at hcall with hthere
    obtain ⟨after, hfree, rfl⟩ := Option.map_eq_some_iff.1 hcall
    obtain ⟨freed, hspec, -, -, hkeeps⟩ := freevm_spec hpool hpaged hthere
    cases hspec.symm.trans hfree
    have hothers : ∀ d ∈ without system.live pgdir, Keeps ∅ system.memory [d] none after none :=
      fun d => hkeeps.only
    have hleft : ∀ d ∈ system.live, some pgdir ≠ some d → d ∈ without system.live pgdir :=
      fun d hlive hother => mem_without.2 ⟨hlive, fun hsame => hother (congrArg some hsame.symm)⟩
    exact ⟨hleft, fun d hlive hother => hothers d (hleft d hlive hother), fun hwalled d hlive =>
      (hwalled d (mem_without.1 hlive).1).of_keeps (hothers d hlive)⟩

/-- Whatever calls are made for other directories, those that fail included, a directory
keeps all its entries and the contents of its pages. -/
theorem address_spaces_are_isolated (hpool : Freeable kernel pool) (hnodup : pool.Nodup)
    (hreaches : Reaches kernel pool Call.Below system) (hlive : d ∈ system.live)
    (hrun : Relation.ReflTransGen (fun before after => ∃ request : Call, request.Below ∧
      request.changes ≠ some d ∧ call kernel before request = some after) system system') :
    d ∈ system'.live ∧ (∀ va, entryAt system'.memory d va = entryAt system.memory d va) ∧
      ∀ va < kernPage, (entryAt system.memory d va).present →
        Same system.memory d system'.memory va := by
  have hkept : Reaches kernel pool Call.Below system' ∧ d ∈ system'.live ∧
      Keeps ∅ system.memory [d] none system'.memory none := by
    induction hrun with
    | refl => exact ⟨hreaches, hlive, .refl ..⟩
    | tail _ hstep ih =>
      obtain ⟨request, hbelow, hother, hcall⟩ := hstep
      obtain ⟨hmiddle, hthere, hkeeps⟩ := ih
      have hframed := call_framed hpool (paged_of_reaches hpool hnodup hmiddle) hbelow hcall
      obtain ⟨outages, words, hrun⟩ := hmiddle
      exact ⟨⟨outages, words, hrun.tail ⟨request, hbelow, hcall⟩⟩, hframed.live d hthere hother,
        (hkeeps.trans (hframed.keeps d hthere hother)).mono (Set.union_empty _).le⟩
  obtain ⟨-, hthere, hkeeps⟩ := hkept
  exact ⟨hthere, fun va => hkeeps.entry d (.head _) _ _ (Set.notMem_empty _),
    fun va hva hpresent => hkeeps.same (.head _) hva hpresent (Set.notMem_empty _)⟩

/-- Another directory is made beside the process of one page. -/
theorem small_process_isolated : ∃ (pgdir : ℕ) (system system' : System),
    call smallKernel system .setupkvm = some system' ∧
      Same system.memory pgdir system'.memory 0 := by
  obtain ⟨pgdir, system, ⟨hreaches, hlive, hsized, -, -⟩⟩ := smallPool_process
  have hpaged := paged_of_reaches smallPool_freeable smallPool_nodup hreaches
  obtain ⟨made, memory, hsetup⟩ := setupkvm_returns smallPool_freeable hpaged
  have hcall : call smallKernel system .setupkvm = some (system.adopt (made, memory)) := by
    rw [call, hsetup]
    rfl
  have hkern : 0 < kernPage := by norm_num
  exact ⟨pgdir, system, _, hcall, (address_spaces_are_isolated smallPool_freeable smallPool_nodup
    hreaches hlive (.single ⟨.setupkvm, trivial, by rintro ⟨⟩, hcall⟩)).2.2 0 hkern
      ((hsized.present 0 hkern).2 (by decide))⟩

/-- In every system that calls reach with sizes below `KERNBASE`, every directory maps the
kernel, and a page that a user gets at lies below `KERNBASE`, was allocated and is none of
the kernel's. -/
theorem kernel_is_protected (hpool : Freeable kernel pool) (hnodup : pool.Nodup)
    (hreaches : Reaches kernel pool Call.Below system) (hlive : d ∈ system.live) :
    RowsMapped system.memory d (kmap kernel) ∧
      ∀ va < 2 ^ 20, (entryAt system.memory d va).present → (entryAt system.memory d va).user →
        va < kernPage ∧ (entryAt system.memory d va).page ∉ system.memory.freelist ∧
          kernel.ends ≤ (entryAt system.memory d va).page := by
  have hpaged := paged_of_reaches hpool hnodup hreaches
  have hwalled : ∀ d ∈ system.live, Walled kernel system.memory d := by
    obtain ⟨outages, words, hrun⟩ := hreaches
    clear hlive hpaged
    induction hrun with
    | refl => rintro _ ⟨⟩
    | tail hrun hlast ih =>
      obtain ⟨request, hbelow, hcall⟩ := hlast
      have hpaged := paged_of_reaches hpool hnodup ⟨outages, words, hrun⟩
      exact (call_framed hpool hpaged hbelow hcall).walled ih
  refine ⟨(hwalled d hlive).rows, fun va hva hpresent huser => ?_⟩
  by_cases hlow : va < kernPage
  · have htarget : target system.memory system.live none (.user d (pdx va) (ptx va)) = _ :=
      target_user hlive (pdx_user_lt hlow) hpresent
    exact ⟨hlow, hpaged.not_free htarget, (hpool _ (hpaged.mem_pool htarget)).1⟩
  · rw [entryAt, (hwalled d hlive).upper _ _ (pdx_kernel (not_lt.1 hlow) hva)] at huser
    cases huser

theorem small_process_protected : ∃ (pgdir : ℕ) (system : System),
    Reaches smallKernel smallPool Call.Below system ∧
      smallKernel.ends ≤ (entryAt system.memory pgdir 0).page := by
  obtain ⟨pgdir, system, ⟨hreaches, hlive, -, ⟨page, hentry, -⟩, -⟩⟩ := smallPool_process
  obtain ⟨-, hpages⟩ := kernel_is_protected smallPool_freeable smallPool_nodup hreaches hlive
  exact ⟨pgdir, system, hreaches, (hpages 0 (by decide) (by rw [hentry]) (by rw [hentry])).2.2⟩

end Isolation

end Xv6Users.VirtualMemory
