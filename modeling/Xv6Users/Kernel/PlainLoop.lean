import Xv6Users.Kernel.VirtualMemory

/-!
# The jump of `deallocuvm`

Where there is no page table, the loop of `deallocuvm` jumps to the next entry of the page
directory.  It does what the plain loop over all pages between the sizes does.
-/

namespace Xv6Users.VirtualMemory

open List Option

variable {kernel : Kernel} {memory after : Memory} {pgdir oldsz newsz a : ℕ} {pages : List ℕ}

theorem walkpgdir_false (memory : Memory) (pgdir va : ℕ) :
    walkpgdir memory pgdir va false = (if (memory.words pgdir (pdx va)).present then
        some ((memory.words pgdir (pdx va)).page, ptx va) else none, memory) := by
  rw [walkpgdir]
  by_cases hpresent : (memory.words pgdir (pdx va)).present
  · rw [if_pos hpresent, if_pos hpresent]
  · rw [if_neg hpresent, if_neg hpresent]
    rfl

/-- A cleared entry of a page table: the page it stood for, its place, and the freed page. -/
structure Cleared where
  va : ℕ
  pgtab : ℕ
  index : Index
  page : ℕ

/-- The loop without a jump: the entries cleared and the memory. -/
def plainLoop (kernel : Kernel) (pgdir : ℕ) :
    List ℕ → Memory → Option (List Cleared × Memory)
  | [], memory => some ([], memory)
  | a :: pages, memory =>
    let pde := memory.words pgdir (pdx a)
    let pte := memory.words pde.page (ptx a)
    if pde.present ∧ pte.present then
      if pte.page = 0 then none
      else
        (kfree kernel memory pte.page).bind fun memory =>
          (plainLoop kernel pgdir pages (memory.set pde.page (ptx a) Word.zero)).map
            (Prod.map (⟨a, pde.page, ptx a, pte.page⟩ :: ·) id)
    else plainLoop kernel pgdir pages memory

def ClearsOnly (cleared : List Cleared) (memory after : Memory) : Prop :=
  ∀ page index, (∀ entry ∈ cleared, entry.page ≠ page ∧
      ¬ (entry.pgtab = page ∧ entry.index = index)) →
    after.words page index = memory.words page index

/-- The pages from `a` on that start below a size. -/
def pagesFrom (a oldsz : ℕ) : List ℕ :=
  range' a ((oldsz + 4095) / 4096 - a)

theorem pagesFrom_of_lt (h : a * 4096 < oldsz) :
    pagesFrom a oldsz = a :: pagesFrom (a + 1) oldsz := by
  rw [pagesFrom, show (oldsz + 4095) / 4096 - a = (oldsz + 4095) / 4096 - (a + 1) + 1 by omega,
    range'_succ, pagesFrom]

theorem pagesFrom_of_le (h : oldsz ≤ a * 4096) : pagesFrom a oldsz = [] := by
  rw [pagesFrom, show (oldsz + 4095) / 4096 - a = 0 by omega, range'_zero]

/-- Without a page table the plain loop does nothing up to the next directory entry. -/
theorem plainLoop_skip (habsent : ¬ (memory.words pgdir (pdx a)).present)
    (j : ℕ) (hj : a + j ≤ (a / 1024 + 1) * 1024) :
    plainLoop kernel pgdir (pagesFrom a oldsz) memory =
      plainLoop kernel pgdir (pagesFrom (a + j) oldsz) memory := by
  induction j with
  | zero => rfl
  | succ j ih =>
    rw [ih (by omega)]
    by_cases hmore : (a + j) * 4096 < oldsz
    · have hpdx : pdx (a + j) = pdx a := by
        rw [pdx, pdx, Fin.mk.injEq, show (a + j) / 1024 = a / 1024 by omega]
      rw [pagesFrom_of_lt hmore, plainLoop, if_neg (by simp [hpdx, habsent]), add_assoc]
    · rw [pagesFrom_of_le (by omega), pagesFrom_of_le (by omega)]

theorem deallocLoop_eq (hsize : oldsz ≤ kernbase) (ha : a ≤ kernPage) :
    deallocLoop kernel pgdir oldsz a memory =
      (plainLoop kernel pgdir (pagesFrom a oldsz) memory).map Prod.snd := by
  have hpage : kernPage = 524288 := rfl
  have hbase : kernbase = 2147483648 := rfl
  induction hleft : 2 ^ 20 - a using Nat.strong_induction_on generalizing a memory with
  | _ left ih =>
    rw [deallocLoop, if_neg (by omega)]
    by_cases hmore : a * 4096 < oldsz
    · rw [if_pos hmore, walkpgdir_false]
      by_cases hpresent : (memory.words pgdir (pdx a)).present
      · rw [if_pos hpresent, pagesFrom_of_lt hmore, plainLoop]
        by_cases hentry : (memory.words (memory.words pgdir (pdx a)).page (ptx a)).present
        · simp only [hpresent, hentry, true_and, if_true]
          split
          · rfl
          · cases kfree kernel memory _ with
            | none => rfl
            | some memory =>
              simp only [Option.bind_some, Option.map_map]
              exact ih _ (by omega) (by omega) rfl
        · simp only [hpresent, hentry, Bool.false_eq_true, and_false, if_false]
          exact ih _ (by omega) (by omega) rfl
      · rw [if_neg hpresent, plainLoop_skip hpresent ((a / 1024 + 1) * 1024 - a) (by omega),
          show a + ((a / 1024 + 1) * 1024 - a) = (a / 1024 + 1) * 1024 by omega]
        exact ih _ (by omega) (by omega) rfl
    · rw [if_neg hmore, pagesFrom_of_le (by omega)]
      rfl

theorem plainLoop_frame {cleared : List Cleared}
    (hloop : plainLoop kernel pgdir pages memory = some (cleared, after)) :
    (∀ entry ∈ cleared, entry.va ∈ pages) ∧ ClearsOnly cleared memory after := by
  induction pages generalizing memory cleared with
  | nil =>
    cases hloop
    simp [ClearsOnly]
  | cons a pages ih =>
    rw [plainLoop] at hloop
    split_ifs at hloop
    · obtain ⟨freed, hfreed, hrest⟩ := bind_eq_some_iff.1 hloop
      obtain ⟨⟨entries, last⟩, htail, hpair⟩ := map_eq_some_iff.1 hrest
      cases hpair
      obtain ⟨hpages, hframe⟩ := ih htail
      refine ⟨by simpa using fun entry hentry => .inr (hpages entry hentry), ?_⟩
      intro page index hother
      obtain ⟨hpage, hplace⟩ := hother _ (.head _)
      rw [hframe page index fun entry hentry => hother entry (.tail _ hentry)]
      have hset : (freed.set (memory.words pgdir (pdx a)).page (ptx a) Word.zero).words page index =
          freed.words page index := by
        simp only [Memory.set, Memory.fill, Function.update_apply]
        grind
      rw [kfree, ite_none_left_eq_some, some.injEq] at hfreed
      rw [hset, ← hfreed.2]
      exact congrFun (Function.update_of_ne hpage.symm _ _) index
    · obtain ⟨hpages, hframe⟩ := ih hloop
      exact ⟨fun entry hentry => .tail _ (hpages entry hentry), hframe⟩

/-- `deallocuvm` is the plain loop over the pages from the first one at or after `newsz` up to
`oldsz`: it returns with the same memory, and only entries of these pages are cleared. -/
theorem deallocuvm_plain (kernel : Kernel) (memory : Memory) (pgdir : ℕ) (hless : newsz < oldsz)
    (hsize : oldsz ≤ kernbase) :
    deallocuvm kernel memory pgdir oldsz newsz =
        (plainLoop kernel pgdir (pagesFrom (pgroundup newsz) oldsz) memory).map
          (fun result => (newsz, result.2)) ∧
      ∀ cleared after,
        plainLoop kernel pgdir (pagesFrom (pgroundup newsz) oldsz) memory = some (cleared, after) →
        (∀ entry ∈ cleared, newsz ≤ entry.va * 4096 ∧ entry.va * 4096 < oldsz) ∧
          ClearsOnly cleared memory after := by
  have hround : newsz ≤ pgroundup newsz * 4096 ∧ pgroundup newsz ≤ kernPage := by
    have hpage : kernPage = 524288 := rfl
    have hbase : kernbase = 2147483648 := rfl
    unfold pgroundup
    omega
  constructor
  · rw [deallocuvm, if_neg (by omega), deallocLoop_eq hsize hround.2, Option.map_map]
    rfl
  · intro cleared after hloop
    obtain ⟨hpages, hframe⟩ := plainLoop_frame hloop
    refine ⟨fun entry hentry => ?_, hframe⟩
    obtain ⟨hfirst, hlast⟩ := mem_range'_1.1 (hpages entry hentry)
    exact ⟨hround.1.trans (Nat.mul_le_mul_right _ hfirst), by clear hsize hround; omega⟩

theorem deallocuvm_plain_page :
    ∃ (kernel : Kernel) (memory : Memory), deallocuvm kernel memory 0 4096 0 =
      (plainLoop kernel 0 (pagesFrom (pgroundup 0) 4096) memory).map
        (fun result => (0, result.2)) :=
  ⟨⟨0x108, 0x115, by norm_num, by norm_num, by norm_num⟩, ⟨[], [], fun _ _ => Word.zero, 0⟩,
    (@deallocuvm_plain 4096 0 _ _ 0 (by norm_num) (by norm_num)).1⟩

end Xv6Users.VirtualMemory
