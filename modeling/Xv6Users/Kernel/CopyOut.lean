import Xv6Users.Kernel.UserBytes
import Xv6Users.Kernel.ProcessMemory

/-!
# Copying to the user

`copyout` writes a buffer page by page to the addresses of a user, from an address on and
around the end of the address space.
-/

namespace Xv6Users.VirtualMemory

open List

variable {middle : Memory} {i n : ℕ}

variable {memory after : Memory} {pgdir va page : ℕ} {checked : Bool} {buf : List UInt8}

def Accessible (memory : Memory) (pgdir va : ℕ) : Prop :=
  (entryAt memory pgdir va).present ∧ (entryAt memory pgdir va).user

def Tabled (memory : Memory) (pgdir va : ℕ) : Prop :=
  (memory.words pgdir (pdx va)).present

/-- The pages that a user may use are pairwise different and no part of the page tables. -/
structure Separate (memory : Memory) (pgdir : ℕ) : Prop where
  plain : ∀ va, Accessible memory pgdir va → Plain memory [pgdir] (entryAt memory pgdir va).page
  injective : ∀ va < 2 ^ 20, ∀ va' < 2 ^ 20, Accessible memory pgdir va →
    Accessible memory pgdir va' →
    (entryAt memory pgdir va).page = (entryAt memory pgdir va').page → va = va'

/-- Directories keep their user pages apart when the kernel's half is closed to the user. -/
theorem Paged.separate {pool live : List ℕ} (hpaged : Paged pool memory live none)
    (hlive : pgdir ∈ live)
    (hupper : ∀ dir index : Index, ¬ dir.val < 512 → (entry memory pgdir dir index).user = false) :
    Separate memory pgdir := by
  have hlow : ∀ va, Accessible memory pgdir va → (pdx va).val < 512 := by
    intro va haccess
    by_contra hhigh
    have huser := haccess.2
    rw [entryAt, hupper _ _ hhigh] at huser
    cases huser
  have htarget : ∀ va, Accessible memory pgdir va →
      target memory live none (.user pgdir (pdx va) (ptx va)) =
        some (entryAt memory pgdir va).page :=
    fun va haccess => target_user hlive (hlow va haccess) haccess.1
  constructor
  · intro va haccess
    have hplain := hpaged.apart.plain (htarget va haccess) (by rintro _ ⟨⟩) (by rintro _ _ ⟨⟩)
    constructor
    · intro hmem
      apply hplain.directory
      rw [mem_singleton.1 hmem]
      exact hlive
    · intro other hother
      rw [mem_singleton.1 hother]
      exact hplain.table pgdir hlive
  · intro va hva va' hva' haccess haccess' hsame
    have hplaces := hpaged.owned.unique (htarget va haccess) (hsame ▸ htarget va' haccess')
    obtain ⟨-, hdir, hindex⟩ := Place.user.inj hplaces
    exact indices_injective hva hva' hdir hindex

theorem uva2ka_of_accessible (haccess : Accessible memory pgdir va) :
    uva2ka checked memory pgdir va = some (some (entryAt memory pgdir va).page) := by
  obtain ⟨hpresent, huser⟩ := haccess
  obtain ⟨htable, hword⟩ := words_of_present hpresent
  rw [uva2ka, walkpgdir_false, if_pos htable]
  dsimp only
  rw [hword]
  simp [hpresent, huser]

theorem uva2ka_of_tabled (htabled : Tabled memory pgdir va)
    (hnot : ¬ Accessible memory pgdir va) : uva2ka checked memory pgdir va = some none := by
  have hword : memory.words (memory.words pgdir (pdx va)).page (ptx va) =
      entryAt memory pgdir va := (if_pos htabled).symm
  rw [Tabled] at htabled
  rw [uva2ka, walkpgdir_false, if_pos htabled]
  dsimp only
  rw [hword]
  by_cases hpresent : (entryAt memory pgdir va).present
  · have huser : ¬ (entryAt memory pgdir va).user := fun huser => hnot ⟨hpresent, huser⟩
    simp [hpresent, huser]
  · simp [hpresent]

/-- Without a page table the pointer that is read is null. -/
theorem uva2ka_of_not_tabled (hnot : ¬ Tabled memory pgdir va) :
    uva2ka checked memory pgdir va = if checked then some none else none := by
  rw [Tabled] at hnot
  rw [uva2ka, walkpgdir_false, if_neg hnot]

theorem Accessible.tabled (haccess : Accessible memory pgdir va) : Tabled memory pgdir va :=
  (words_of_present haccess.1).1

/-- A memory with the same page tables for a directory. -/
structure SameTables (memory : Memory) (pgdir : ℕ) (after : Memory) : Prop where
  words : after.words pgdir = memory.words pgdir
  entry : entry after pgdir = entry memory pgdir

theorem SameTables.entryAt (hsame : SameTables memory pgdir after) (va : ℕ) :
    entryAt after pgdir va = entryAt memory pgdir va := by
  rw [VirtualMemory.entryAt, VirtualMemory.entryAt, hsame.entry]

theorem SameTables.accessible_iff (hsame : SameTables memory pgdir after) (va : ℕ) :
    Accessible after pgdir va ↔ Accessible memory pgdir va := by
  rw [Accessible, Accessible, hsame.entryAt]

theorem SameTables.tabled_iff (hsame : SameTables memory pgdir after) (va : ℕ) :
    Tabled after pgdir va ↔ Tabled memory pgdir va := by
  rw [Tabled, Tabled, hsame.words]

theorem SameTables.trans (hfirst : SameTables memory pgdir middle)
    (hsecond : SameTables middle pgdir after) : SameTables memory pgdir after :=
  ⟨hsecond.words.trans hfirst.words, hsecond.entry.trans hfirst.entry⟩

theorem Separate.of_sameTables (hseparate : Separate memory pgdir)
    (hsame : SameTables memory pgdir after) : Separate after pgdir := by
  constructor
  · intro va haccess
    rw [hsame.accessible_iff] at haccess
    obtain ⟨hdirectory, htable⟩ := hseparate.plain va haccess
    rw [hsame.entryAt]
    refine ⟨hdirectory, ?_⟩
    intro other hother
    rw [mem_singleton.1 hother, hsame.words]
    exact htable pgdir (.head _)
  · intro va hva va' hva' haccess haccess'
    rw [hsame.accessible_iff] at haccess haccess'
    rw [hsame.entryAt, hsame.entryAt]
    exact hseparate.injective va hva va' hva' haccess haccess'

def addr (va i : ℕ) : ℕ :=
  (va + i) % 2 ^ 32

theorem addr_addr (va n j : ℕ) : addr (addr va n) j = addr va (n + j) := by
  rw [addr, addr, addr]
  omega

theorem addr_lt (va i : ℕ) : addr va i / 4096 < 2 ^ 20 := by
  rw [addr]
  omega

/-- The bytes up to the end of the page. -/
theorem addr_chunk (hva : va < 2 ^ 32) (hi : i < 4096 - va % 4096) :
    addr va i / 4096 = va / 4096 ∧ addr va i % 4096 = va % 4096 + i := by
  rw [addr]
  omega

theorem addr_next (va : ℕ) : (va / 4096 * 4096 + 4096) % 2 ^ 32 = addr va (4096 - va % 4096) := by
  rw [addr]
  omega

theorem addr_injective {j : ℕ} (hi : i < 2 ^ 32) (hj : j < 2 ^ 32) (hsame : addr va i = addr va j) :
    i = j := by
  rw [addr, addr] at hsame
  omega

/-- Nothing has changed but bytes of the user at the addresses of the buffer. -/
structure Copies (memory : Memory) (pgdir va len : ℕ) (after : Memory) : Prop where
  frame : after = { memory with words := after.words }
  tables : SameTables memory pgdir after
  pages : ∀ page, (∀ i < len, Accessible memory pgdir (addr va i / 4096) →
    (entryAt memory pgdir (addr va i / 4096)).page ≠ page) → after.words page = memory.words page
  bytes : ∀ page, ∀ k < 4096, (∀ i < len, Accessible memory pgdir (addr va i / 4096) →
    (entryAt memory pgdir (addr va i / 4096)).page = page → addr va i % 4096 ≠ k) →
    byteAt (after.words page) k = byteAt (memory.words page) k

/-- The bytes at the addresses are those of the buffer. -/
def Written (memory : Memory) (pgdir va : ℕ) (buf : List UInt8) (after : Memory) : Prop :=
  ∀ i < buf.length, byteAt (after.words (entryAt memory pgdir (addr va i / 4096)).page)
    (addr va i % 4096) = buf.getD i 0

theorem Copies.refl (memory : Memory) (pgdir va len : ℕ) : Copies memory pgdir va len memory :=
  ⟨rfl, ⟨rfl, rfl⟩, fun _ _ => rfl, fun _ _ _ _ => rfl⟩

theorem Copies.trans {m : ℕ} (hfirst : Copies memory pgdir va n middle)
    (hsecond : Copies middle pgdir (addr va n) m after) : Copies memory pgdir va (n + m) after := by
  have hlater : ∀ {P : ℕ → Prop}, (∀ i < n + m, P (addr va i)) →
      ∀ j < m, P (addr (addr va n) j) := by
    intro P hall j hj
    rw [addr_addr]
    exact hall (n + j) (by omega)
  refine ⟨?_, hfirst.tables.trans hsecond.tables, ?_, ?_⟩
  · rw [hsecond.frame, hfirst.frame]
  · intro page hout
    rw [hsecond.pages page, hfirst.pages page fun i hi => hout i (by omega)]
    intro j hj haccess
    rw [hfirst.tables.accessible_iff] at haccess
    rw [hfirst.tables.entryAt]
    exact hlater (P := fun x => Accessible memory pgdir (x / 4096) →
      (entryAt memory pgdir (x / 4096)).page ≠ page) hout j hj haccess
  · intro page k hk hout
    rw [hsecond.bytes page k hk, hfirst.bytes page k hk fun i hi => hout i (by omega)]
    intro j hj haccess
    rw [hfirst.tables.accessible_iff] at haccess
    rw [hfirst.tables.entryAt]
    exact hlater (P := fun x => Accessible memory pgdir (x / 4096) →
      (entryAt memory pgdir (x / 4096)).page = page → x % 4096 ≠ k) hout j hj haccess

/-- One round of the loop. -/
theorem copies_store (buf : List UInt8) (hseparate : Separate memory pgdir) (hva : va < 2 ^ 32)
    (haccess : Accessible memory pgdir (va / 4096)) (hpos : 0 < buf.length)
    (hfits : buf.length ≤ 4096 - va % 4096) :
    Copies memory pgdir va buf.length
        (memory.store (entryAt memory pgdir (va / 4096)).page (va % 4096) buf) ∧
      Written memory pgdir va buf
        (memory.store (entryAt memory pgdir (va / 4096)).page (va % 4096) buf) := by
  have hplain := hseparate.plain _ haccess
  have hstored : ∀ k < 4096, byteAt ((memory.store (entryAt memory pgdir (va / 4096)).page
      (va % 4096) buf).words (entryAt memory pgdir (va / 4096)).page) k =
      if va % 4096 ≤ k ∧ k < va % 4096 + buf.length then buf.getD (k - va % 4096) 0
      else byteAt (memory.words (entryAt memory pgdir (va / 4096)).page) k := by
    intro k hk
    rw [Memory.store, fill_words_self, byteAt_poke _ _ hk]
  refine ⟨⟨rfl, ⟨hplain.fill_words (.head _) _, hplain.fill_entry (.head _) _⟩, ?_, ?_⟩, ?_⟩
  · intro page hout
    obtain ⟨hpage, -⟩ := addr_chunk hva (hpos.trans_le hfits)
    have hother := hout 0 hpos
    rw [hpage] at hother
    exact fill_words_of_ne (hother haccess).symm
  · intro page k hk hout
    by_cases hsame : (entryAt memory pgdir (va / 4096)).page = page
    · rw [← hsame, hstored k hk, if_neg]
      rintro ⟨hfrom, hbelow⟩
      have hi : k - va % 4096 < buf.length := by omega
      obtain ⟨hpage, hoff⟩ := addr_chunk hva (hi.trans_le hfits)
      have hother := hout (k - va % 4096) hi
      rw [hpage, hoff] at hother
      exact hother haccess hsame (by omega)
    · rw [Memory.store, fill_words_of_ne (Ne.symm hsame)]
  · intro i hi
    obtain ⟨hpage, hoff⟩ := addr_chunk hva (hi.trans_le hfits)
    rw [hpage, hoff, hstored _ (by omega), if_pos (by omega), Nat.add_sub_cancel_left]

/-- What was written first stays when the rest is written elsewhere. -/
theorem Written.append (hseparate : Separate memory pgdir) (hlen : buf.length < 2 ^ 32)
    (hn : n ≤ buf.length) (haccess : ∀ i < buf.length, Accessible memory pgdir (addr va i / 4096))
    (htables : SameTables memory pgdir middle)
    (hfirst : Written memory pgdir va (buf.take n) middle)
    (hcopies : Copies middle pgdir (addr va n) (buf.length - n) after)
    (hsecond : Written middle pgdir (addr va n) (buf.drop n) after) :
    Written memory pgdir va buf after := by
  intro i hi
  by_cases hearly : i < n
  · have hthere := hfirst i (by rw [length_take]; omega)
    rw [hcopies.bytes _ _ (Nat.mod_lt _ (by decide)), hthere, getD_eq_getElem?_getD,
      getElem?_take, if_pos hearly, getD_eq_getElem?_getD]
    intro j hj hlater hpage hoff
    rw [htables.accessible_iff, addr_addr] at hlater
    rw [htables.entryAt, addr_addr] at hpage
    rw [addr_addr] at hoff
    have hsame := hseparate.injective _ (addr_lt va _) _ (addr_lt va i) hlater (haccess i hi) hpage
    have haddr : addr va (n + j) = addr va i := by omega
    have heq := addr_injective (by omega) (by omega) haddr
    omega
  · have hthere := hsecond (i - n) (by rw [length_drop]; omega)
    rw [addr_addr, htables.entryAt, Nat.add_sub_cancel' (not_lt.1 hearly)] at hthere
    rw [hthere, getD_eq_getElem?_getD, getElem?_drop,
      Nat.add_sub_cancel' (not_lt.1 hearly), getD_eq_getElem?_getD]

/-- The first byte of the buffer that cannot be written. -/
structure FirstBad (memory : Memory) (pgdir va len i : ℕ) : Prop where
  inside : i < len
  before : ∀ j < i, Accessible memory pgdir (addr va j / 4096)
  bad : ¬ Accessible memory pgdir (addr va i / 4096)

/-- The ways in which `copyout` can end. -/
inductive Outcome (checked : Bool) (memory : Memory) (pgdir va : ℕ) (buf : List UInt8) :
    Option (ℤ × Memory) → Prop
  | copied (after : Memory)
      (accessible : ∀ i < buf.length, Accessible memory pgdir (addr va i / 4096))
      (copies : Copies memory pgdir va buf.length after)
      (written : Written memory pgdir va buf after) :
      Outcome checked memory pgdir va buf (some (0, after))
  | refused (after : Memory) (i : ℕ) (first : FirstBad memory pgdir va buf.length i)
      (returns : Tabled memory pgdir (addr va i / 4096) ∨ checked = true)
      (copies : Copies memory pgdir va buf.length after) :
      Outcome checked memory pgdir va buf (some (-1, after))
  | stopped (i : ℕ) (first : FirstBad memory pgdir va buf.length i)
      (missing : ¬ Tabled memory pgdir (addr va i / 4096)) (unchecked : checked = false) :
      Outcome checked memory pgdir va buf none

theorem FirstBad.shift {m : ℕ} (htables : SameTables memory pgdir middle)
    (haccess : ∀ j < n, Accessible memory pgdir (addr va j / 4096))
    (hfirst : FirstBad middle pgdir (addr va n) m i) :
    FirstBad memory pgdir va (n + m) (n + i) := by
  obtain ⟨hinside, hbefore, hbad⟩ := hfirst
  refine ⟨by omega, ?_, ?_⟩
  · intro j hj
    by_cases hearly : j < n
    · exact haccess j hearly
    · have hthere := hbefore (j - n) (by omega)
      rwa [htables.accessible_iff, addr_addr, Nat.add_sub_cancel' (not_lt.1 hearly)] at hthere
  · rwa [htables.accessible_iff, addr_addr] at hbad

/-- The ways in which the rest ends are the ways in which the whole ends. -/
theorem Outcome.prepend {result : Option (ℤ × Memory)} (hseparate : Separate memory pgdir)
    (hlen : buf.length < 2 ^ 32) (hn : n ≤ buf.length)
    (haccess : ∀ j < n, Accessible memory pgdir (addr va j / 4096))
    (hcopies : Copies memory pgdir va n middle)
    (hwritten : Written memory pgdir va (buf.take n) middle)
    (hrest : Outcome checked middle pgdir (addr va n) (buf.drop n) result) :
    Outcome checked memory pgdir va buf result := by
  have htables := hcopies.tables
  have hlength : (buf.drop n).length = buf.length - n := length_drop
  have hsum : n + (buf.length - n) = buf.length := Nat.add_sub_cancel' hn
  cases hrest with
  | copied after hlater hcopies' hwritten' =>
    rw [hlength] at hlater hcopies'
    have hall : ∀ i < buf.length, Accessible memory pgdir (addr va i / 4096) := by
      intro i hi
      by_cases hearly : i < n
      · exact haccess i hearly
      · have hthere := hlater (i - n) (by omega)
        rwa [htables.accessible_iff, addr_addr, Nat.add_sub_cancel' (not_lt.1 hearly)] at hthere
    have hboth := hcopies.trans hcopies'
    rw [hsum] at hboth
    exact .copied after hall hboth
      (Written.append hseparate hlen hn hall htables hwritten hcopies' hwritten')
  | refused after i hfirst hreturns hcopies' =>
    rw [hlength] at hfirst hcopies'
    have hboth := hcopies.trans hcopies'
    have hshift := hfirst.shift htables haccess
    rw [htables.tabled_iff, addr_addr] at hreturns
    rw [hsum] at hboth hshift
    exact .refused after (n + i) hshift hreturns hboth
  | stopped i hfirst hmissing hunchecked =>
    rw [hlength] at hfirst
    have hshift := hfirst.shift htables haccess
    rw [htables.tabled_iff, addr_addr] at hmissing
    rw [hsum] at hshift
    exact .stopped (n + i) hshift hmissing hunchecked

theorem copyoutLoop_nil (rounds : ℕ) :
    copyoutLoop checked pgdir rounds va [] memory = some (0, memory) := by
  cases rounds with
  | zero => rfl
  | succ rounds => rfl

theorem outcome_copyoutLoop (hseparate : Separate memory pgdir) (hva : va < 2 ^ 32)
    (hlen : buf.length < 2 ^ 32) {rounds : ℕ} (hrounds : buf.length ≤ rounds) :
    Outcome checked memory pgdir va buf (copyoutLoop checked pgdir rounds va buf memory) := by
  induction rounds generalizing va buf memory with
  | zero => exact .copied memory (fun i hi => by omega) (.refl ..) (fun i hi => by omega)
  | succ rounds ih =>
    rw [copyoutLoop]
    by_cases hempty : buf.length = 0
    · rw [if_pos hempty]
      exact .copied memory (fun i hi => by omega) (.refl ..) (fun i hi => by omega)
    · rw [if_neg hempty]
      have hzero : addr va 0 / 4096 = va / 4096 := by
        rw [addr]
        omega
      by_cases haccess : Accessible memory pgdir (va / 4096)
      · rw [uva2ka_of_accessible haccess]
        dsimp only
        set n := min (4096 - va % 4096) buf.length with hdef
        have hnlen : n ≤ buf.length := min_le_right _ _
        have hnpage : n ≤ 4096 - va % 4096 := min_le_left _ _
        have htake : (buf.take n).length = n := length_take_of_le hnlen
        obtain ⟨hcopies, hwritten⟩ := copies_store (buf.take n) hseparate hva haccess
          (by omega) (by omega)
        rw [htake] at hcopies
        apply Outcome.prepend hseparate hlen hnlen _ hcopies hwritten
        · by_cases hlast : n = buf.length
          · rw [drop_of_length_le hlast.ge, copyoutLoop_nil]
            exact .copied _ (fun i hi => by cases hi) (.refl ..) (fun i hi => by cases hi)
          · have hfull : 4096 - va % 4096 = n := by omega
            rw [addr_next, hfull]
            apply ih (hseparate.of_sameTables hcopies.tables)
            · exact Nat.mod_lt _ (by decide)
            · rw [length_drop]
              omega
            · rw [length_drop]
              omega
        · intro j hj
          rwa [(addr_chunk hva (hj.trans_le hnpage)).1]
      · have hfirst : FirstBad memory pgdir va buf.length 0 :=
          ⟨by omega, fun j hj => absurd hj (Nat.not_lt_zero j), by rwa [hzero]⟩
        by_cases htabled : Tabled memory pgdir (va / 4096)
        · rw [uva2ka_of_tabled htabled haccess]
          exact .refused memory 0 hfirst (.inl (by rwa [hzero])) (.refl ..)
        · rw [uva2ka_of_not_tabled htabled]
          cases hchecked : checked with
          | true => exact .refused memory 0 hfirst (.inr rfl) (.refl ..)
          | false => exact .stopped 0 hfirst (by rwa [hzero]) rfl

theorem outcome_copyout (checked : Bool) (hseparate : Separate memory pgdir) (hva : va < 2 ^ 32)
    (hlen : buf.length < 2 ^ 32) :
    Outcome checked memory pgdir va buf (copyout checked memory pgdir va buf) :=
  outcome_copyoutLoop hseparate hva hlen le_rfl

/-- What `copyout` has to do: it returns 0 exactly when the user may use every page, has
written the buffer then, and in no case another byte. -/
def CopiedOut (memory : Memory) (pgdir va : ℕ) (buf : List UInt8)
    (result : Option (ℤ × Memory)) : Prop :=
  ∃ status after, result = some (status, after) ∧ (status = 0 ∨ status = -1) ∧
    (status = 0 ↔ ∀ i < buf.length, Accessible memory pgdir (addr va i / 4096)) ∧
    (status = 0 → Written memory pgdir va buf after) ∧ Copies memory pgdir va buf.length after

theorem FirstBad.unique {len j : ℕ} (hi : FirstBad memory pgdir va len i)
    (hj : FirstBad memory pgdir va len j) : i = j := by
  obtain hlt | rfl | hgt := lt_trichotomy i j
  · exact absurd (hj.before i hlt) hi.bad
  · rfl
  · exact absurd (hi.before j hgt) hj.bad

/-- `copyout` does so exactly when the first page of the range that the user may not use has a
page table. -/
theorem copyout_copies_iff (hseparate : Separate memory pgdir) (hva : va < 2 ^ 32)
    (hlen : buf.length < 2 ^ 32) :
    CopiedOut memory pgdir va buf (copyout false memory pgdir va buf) ↔
      ∀ i < buf.length, (∀ j < i, Accessible memory pgdir (addr va j / 4096)) →
        Tabled memory pgdir (addr va i / 4096) := by
  have houtcome := outcome_copyout false hseparate hva hlen
  generalize copyout false memory pgdir va buf = result at houtcome
  cases houtcome with
  | copied after haccess hcopies hwritten =>
    apply iff_of_true
    · exact ⟨0, after, rfl, .inl rfl, iff_of_true rfl haccess, fun _ => hwritten, hcopies⟩
    · exact fun i hi _ => (haccess i hi).tabled
  | refused after i hfirst hreturns hcopies =>
    apply iff_of_true
    · refine ⟨-1, after, rfl, .inr rfl, iff_of_false (by decide) ?_, nofun, hcopies⟩
      exact fun hall => hfirst.bad (hall i hfirst.inside)
    · intro j hj hbefore
      by_cases haccess : Accessible memory pgdir (addr va j / 4096)
      · exact haccess.tabled
      · rw [FirstBad.unique ⟨hj, hbefore, haccess⟩ hfirst]
        exact hreturns.resolve_right nofun
  | stopped i hfirst hmissing _ =>
    apply iff_of_false
    · rintro ⟨status, after, hnone, -⟩
      cases hnone
    · exact fun htabled => hmissing (htabled i hfirst.inside hfirst.before)

/-- A new directory has no page table for address 0, so `copyout` reads through a null
pointer. -/
theorem copyout_reads_null : ∃ (pgdir : ℕ) (memory : Memory),
    setupkvm smallKernel (start smallPool [] fun _ _ => Word.zero).memory =
      some (some pgdir, memory) ∧
    Separate memory pgdir ∧ ¬ Tabled memory pgdir 0 ∧ uva2ka false memory pgdir 0 = none ∧
    copyout false memory pgdir 0 [65] = none := by
  obtain ⟨pgdir, memory, hsetup, -⟩ := smallPool_setupkvm
  obtain ⟨hpaged, -, hmade⟩ := (Paged.start smallPool_nodup [] fun _ _ => Word.zero).setupkvm
    smallPool_freeable hsetup
  obtain ⟨-, hfresh⟩ := hmade pgdir rfl
  have hseparate : Separate memory pgdir :=
    hpaged.separate mem_cons_self fun dir index _ => hfresh.upper dir index
  have hmissing : ¬ Tabled memory pgdir 0 := hfresh.bare (pdx 0) (by decide)
  have hnull : uva2ka false memory pgdir 0 = none := uva2ka_of_not_tabled hmissing
  refine ⟨pgdir, memory, hsetup, hseparate, hmissing, hnull, ?_⟩
  rw [copyout, length_singleton, copyoutLoop, if_neg (by decide)]
  rw [hnull]

/-- Ten bytes go to the page of a small process. -/
theorem small_process_copyout : ∃ (pgdir : ℕ) (system : System), OnePage pgdir system ∧
    Separate system.memory pgdir ∧
    CopiedOut system.memory pgdir 4000 (replicate 10 65)
      (copyout false system.memory pgdir 4000 (replicate 10 65)) := by
  obtain ⟨pgdir, system, hprocess⟩ := smallPool_process
  have hpaged := paged_of_reaches smallPool_freeable smallPool_nodup hprocess.reaches
  have hseparate := hpaged.separate hprocess.live hprocess.upper
  obtain ⟨page, hentry, -⟩ := hprocess.zeroed
  have hpresent : (entryAt system.memory pgdir 0).present := by rw [hentry]
  refine ⟨pgdir, system, hprocess, hseparate, ?_⟩
  apply (copyout_copies_iff hseparate (by decide) (by simp)).2
  intro i hi _
  rw [length_replicate] at hi
  have hzero : addr 4000 i / 4096 = 0 := by
    rw [addr]
    omega
  rw [hzero]
  exact (words_of_present hpresent).1

end Xv6Users.VirtualMemory
