import Xv6Users.Kernel.CopyOut
import Xv6Users.Kernel.Exec

/-!
# The image of a new program

While `exec` builds an image, all pages below its size are mapped in the new directory, and
nothing changes in the other directories.
-/

namespace Xv6Users.VirtualMemory

open Attempts List

variable {ph : Proghdr} {halts : Prop}

variable {kernel : Kernel} {pool : List ℕ} {base memory middle after : Memory} {live : List ℕ}
  {d sz newsz va : ℕ} {checked : Bool} {content : List UInt8}

/-- Only pages of the directory below a size have other contents. -/
structure UserWrite (memory : Memory) (d size : ℕ) (after : Memory) : Prop where
  frame : after = { memory with words := after.words }
  pages : ∀ page, (∀ va, va * 4096 < size → (entryAt memory d va).present →
    (entryAt memory d va).page ≠ page) → after.words page = memory.words page

theorem UserWrite.refl (memory : Memory) (d size : ℕ) : UserWrite memory d size memory :=
  ⟨rfl, fun _ _ => rfl⟩

theorem UserWrite.trans (hfirst : UserWrite memory d sz middle)
    (htables : SameTables memory d middle) (hsecond : UserWrite middle d sz after) :
    UserWrite memory d sz after := by
  constructor
  · rw [hsecond.frame, hfirst.frame]
  · intro page hout
    rw [hsecond.pages page, hfirst.pages page hout]
    intro va hva
    rw [htables.entryAt]
    exact hout va hva

theorem userWrite_store (hva : va * 4096 < sz) (hpresent : (entryAt memory d va).present)
    (off : ℕ) (bytes : List UInt8) :
    UserWrite memory d sz (memory.store (entryAt memory d va).page off bytes) := by
  refine ⟨rfl, ?_⟩
  intro page hout
  exact fill_words_of_ne (hout va hva hpresent).symm

section

variable (hwrite : UserWrite memory d sz after) (hpaged : Paged pool memory live none)
  (hd : d ∈ live) (hsz : sz ≤ kernbase)

include hwrite hpaged hd hsz

/-- A page of the image has one place. -/
theorem UserWrite.words_of_place {place : Place}
    {page : ℕ} (hplace : target memory live none place = some page)
    (hother : ∀ dir index, place ≠ .user d dir index) : after.words page = memory.words page := by
  have hbase : kernbase = 2147483648 := rfl
  have hpage : kernPage = 524288 := rfl
  apply hwrite.pages
  rintro va hva hpresent rfl
  exact hother _ _ (hpaged.owned.unique hplace (target_user hd (pdx_user_lt (by omega)) hpresent))

theorem UserWrite.tables {other : ℕ} (hother : other ∈ live) : SameTables memory other after := by
  have hwords : after.words other = memory.words other :=
    hwrite.words_of_place hpaged hd hsz (target_directory hother) (by rintro _ _ ⟨⟩)
  refine ⟨hwords, ?_⟩
  funext dir index
  rw [entry, entry, hwords]
  by_cases hpresent : (memory.words other dir).present
  · rw [if_pos hpresent, if_pos hpresent,
      hwrite.words_of_place hpaged hd hsz (target_table hother hpresent) (by rintro _ _ ⟨⟩)]
  · rw [if_neg hpresent, if_neg hpresent]

theorem UserWrite.paged : Paged pool after live none := by
  apply hpaged.same
  · rw [hwrite.frame]
  · rw [hwrite.frame]
  · apply target_congr
    · exact fun other hother => (hwrite.tables hpaged hd hsz hother).words
    · exact fun other hother => (hwrite.tables hpaged hd hsz hother).entry

end

/-- The other directories do not see it. -/
theorem UserWrite.keeps (hwrite : UserWrite memory d sz after)
    (hpaged : Paged pool memory (d :: live) none) (hnew : d ∉ live) (hsz : sz ≤ kernbase) :
    Keeps ∅ memory live none after none := by
  have htables : ∀ other ∈ live, SameTables memory other after := fun other hother =>
    hwrite.tables hpaged mem_cons_self hsz (.tail d hother)
  constructor
  · exact fun _ => rfl
  · exact fun other hother dir _ => congrFun (htables other hother).words dir
  · exact fun other hother dir index _ => congrFun₂ (htables other hother).entry dir index
  · intro place page _ _ hplace
    apply hwrite.words_of_place hpaged mem_cons_self hsz
      (target_mono (fun other hother => .tail d hother) hplace)
    rintro dir index rfl
    rw [target, if_neg fun hboth => hnew hboth.1] at hplace
    cases hplace

/-- The image has all its pages, and the rest is as in `base`. -/
structure Building (pool : List ℕ) (base : Memory) (live : List ℕ) (d : ℕ) (memory : Memory)
    (sz : ℕ) : Prop where
  paged : Paged pool memory (d :: live) none
  keeps : Keeps ∅ base live none memory none
  sized : Sized memory d sz
  upper : ∀ dir index : Index, ¬ dir.val < 512 → (entry memory d dir index).user = false

/-- The image is given up; the rest is as in `base`. -/
structure GivenUp (pool : List ℕ) (base : Memory) (live : List ℕ) (d : ℕ) (memory : Memory) :
    Prop where
  paged : Paged pool memory (d :: live) none
  keeps : Keeps ∅ base live none memory none

theorem Building.givenUp (hbuilding : Building pool base live d memory sz) :
    GivenUp pool base live d memory := ⟨hbuilding.paged, hbuilding.keeps⟩

theorem Building.write (hbuilding : Building pool base live d memory sz) (hnew : d ∉ live)
    (hwrite : UserWrite memory d sz after) : Building pool base live d after sz := by
  have hsz := hbuilding.sized.below.le
  have htables := hwrite.tables hbuilding.paged mem_cons_self hsz (.head _)
  refine ⟨hwrite.paged hbuilding.paged mem_cons_self hsz, ?_, ⟨hbuilding.sized.below, ?_⟩, ?_⟩
  · exact (hbuilding.keeps.trans (hwrite.keeps hbuilding.paged hnew hsz)).mono (by simp)
  · intro va hva
    rw [htables.entryAt]
    exact hbuilding.sized.present va hva
  · intro dir index hdir
    rw [htables.entry]
    exact hbuilding.upper dir index hdir

theorem Building.separate (hbuilding : Building pool base live d memory sz) : Separate memory d :=
  hbuilding.paged.separate mem_cons_self hbuilding.upper

/-- `loaduvm` finds every page of the segment and writes to no other. -/
theorem loadLoop_spec (hbuilding : Building pool base live d memory sz) (hnew : d ∉ live)
    {addr offset n : ℕ} {pages : List ℕ} (hpages : ∀ i ∈ pages, (addr / 4096 + i) * 4096 < sz) :
    ∃ ok after, loadLoop content d addr offset n pages memory = some (ok, after) ∧
      UserWrite memory d sz after := by
  induction pages generalizing memory with
  | nil => exact ⟨true, memory, rfl, .refl ..⟩
  | cons i rest ih =>
    have hbelow := hpages i (.head _)
    have hpresent := (hbuilding.sized.present _ (hbuilding.sized.va_lt hbelow)).2 hbelow
    obtain ⟨htable, hword⟩ := words_of_present hpresent
    rw [loadLoop, walkpgdir_false, if_pos htable]
    dsimp only
    rw [hword]
    rcases readi content ((offset + i * 4096) % 2 ^ 32) (min (n - i * 4096) 4096) with _ | bytes
    · exact ⟨false, memory, rfl, .refl ..⟩
    · have hwrite := userWrite_store hbelow hpresent 0 bytes
      dsimp only
      by_cases hshort : bytes.length ≠ min (n - i * 4096) 4096
      · rw [if_pos hshort]
        exact ⟨false, _, rfl, hwrite⟩
      · rw [if_neg hshort]
        obtain ⟨ok, after, hloop, hrest⟩ := ih (hbuilding.write hnew hwrite)
          fun other hother => hpages other (.tail i hother)
        have htables := hwrite.tables hbuilding.paged (.head _)
          hbuilding.sized.below.le (.head _)
        exact ⟨ok, after, hloop, hwrite.trans htables hrest⟩

theorem loaduvm_spec (hbuilding : Building pool base live d memory sz) (hnew : d ∉ live)
    (haligned : ph.vaddr.toNat % 4096 = 0) (hfits : ph.vaddr.toNat + ph.filesz.toNat ≤ sz)
    (content : List UInt8) :
    ∃ ok after, loaduvm content memory d ph.vaddr.toNat ph.off.toNat ph.filesz.toNat =
        some (ok, after) ∧ UserWrite memory d sz after := by
  rw [loaduvm, if_neg (not_not.2 haligned)]
  apply loadLoop_spec hbuilding hnew
  intro i hi
  rw [mem_range] at hi
  omega

/-- The image becomes larger, with pages of zeros behind it, or stays as it is. -/
structure Enlarged (pool : List ℕ) (base : Memory) (live : List ℕ) (d sz newsz : ℕ)
    (memory : Memory) (size : ℕ) (after : Memory) : Prop where
  building : Building pool base live d after size
  size : size = max sz newsz
  keeps : Keeps (growing d newsz (pgroundup sz)) memory (d :: live) none after none
  zeroed : ∀ va, sz ≤ va * 4096 → va * 4096 < newsz → Zeroed after d va

/-- What the checks of a program header are for. -/
theorem Enlarged.fits {size : ℕ}
    (henlarged : Enlarged pool base live d sz (ph.vaddr + ph.memsz).toNat memory size after)
    (hsmall : ¬ ph.memsz < ph.filesz) (hwraps : ¬ ph.vaddr + ph.memsz < ph.vaddr) :
    ph.vaddr.toNat + ph.filesz.toNat ≤ size := by
  have hsize := henlarged.size
  have hmemsz : ph.memsz.toNat < 2 ^ 32 := ph.memsz.toNat_lt
  rw [UInt32.lt_iff_toNat_lt] at hsmall hwraps
  rw [UInt32.toNat_add] at hwraps hsize
  omega

theorem enlarge_leads (hpool : Freeable kernel pool) (hnew : d ∉ live)
    (hbuilding : Building pool base live d memory sz) :
    Attempt.Leads halts (enlarge kernel d sz newsz) memory (GivenUp pool base live d)
      (Enlarged pool base live d sz newsz memory) := by
  rw [Attempt.Leads, enlarge]
  by_cases hle : sz ≤ newsz
  · obtain ⟨size, after, halloc, hdone, hkeeps, hresult⟩ :=
      allocuvm_spec hpool hbuilding.paged mem_cons_self hbuilding.sized hle
    have hothers : Keeps ∅ base live none after none :=
      (hbuilding.keeps.trans (hkeeps.growing_behind hnew)).mono (by simp)
    rw [halloc]
    by_cases hzero : size = 0
    · exact .inr (.inl ⟨after, if_pos hzero, hdone, hothers⟩)
    · obtain ⟨rfl, hzeroed, hgrew⟩ := hresult.resolve_right fun hfail => hzero hfail.1
      refine .inl ⟨size, after, if_neg hzero, ⟨hdone, hothers, hgrew.sized, ?_⟩, ?_, hkeeps,
        hzeroed⟩
      · intro dir index hdir
        rw [hkeeps.entry d (.head _)]
        · exact hbuilding.upper dir index hdir
        · exact not_mem_growing_upper hgrew.sized.below.le hdir
      · exact (max_eq_right hle).symm
  · have hbelow := hbuilding.sized.below
    rw [allocuvm, if_neg (by omega), if_pos (not_le.1 hle)]
    refine .inl ⟨sz, memory, if_neg (by omega), hbuilding, ?_, .refl .., ?_⟩
    · exact (max_eq_left (not_le.1 hle).le).symm
    · intro va hfrom hlast
      omega

theorem load_leads (hnew : d ∉ live) (hbuilding : Building pool base live d memory sz)
    (haligned : ph.vaddr.toNat % 4096 = 0) (hfits : ph.vaddr.toNat + ph.filesz.toNat ≤ sz) :
    Attempt.Leads halts (load content d ph) memory (GivenUp pool base live d)
      (fun _ after => Building pool base live d after sz) := by
  obtain ⟨ok, after, hload, hwrite⟩ := loaduvm_spec hbuilding hnew haligned hfits content
  have hdone := hbuilding.write hnew hwrite
  rw [Attempt.Leads, load, hload]
  cases ok with
  | false => exact .inr (.inl ⟨after, rfl, hdone.givenUp⟩)
  | true => exact .inl ⟨(), after, rfl, hdone⟩

/-- One program header keeps the image whole. -/
theorem loadSegment_leads (hpool : Freeable kernel pool) (hnew : d ∉ live)
    (hbuilding : Building pool base live d memory sz) (ph : Proghdr) :
    Attempt.Leads halts (loadSegment kernel content d sz ph) memory (GivenUp pool base live d)
      (fun size after => Building pool base live d after size) := by
  rw [loadSegment]
  by_cases htype : ph.type ≠ elfProgLoad
  · rw [if_pos htype]
    exact .pure hbuilding
  · rw [if_neg htype]
    by_cases hsmall : ph.memsz < ph.filesz
    · rw [if_pos hsmall]
      exact .giveUp hbuilding.givenUp
    · rw [if_neg hsmall]
      by_cases hwraps : ph.vaddr + ph.memsz < ph.vaddr
      · rw [if_pos hwraps]
        exact .giveUp hbuilding.givenUp
      · rw [if_neg hwraps]
        apply (enlarge_leads hpool hnew hbuilding).bind
        intro size after henlarged
        by_cases haligned : ph.vaddr.toNat % 4096 ≠ 0
        · rw [if_pos haligned]
          exact .giveUp henlarged.building.givenUp
        · rw [if_neg haligned]
          apply (load_leads hnew henlarged.building (not_not.1 haligned)
            (henlarged.fits hsmall hwraps)).bind
          exact fun _ _ hdone => .pure hdone

theorem loadSegments_leads (hpool : Freeable kernel pool) (hnew : d ∉ live) (count off : ℕ)
    (hbuilding : Building pool base live d memory sz) :
    Attempt.Leads halts (loadSegments kernel content d count off sz) memory
      (GivenUp pool base live d) (fun size after => Building pool base live d after size) := by
  induction count generalizing off sz memory with
  | zero => exact .pure hbuilding
  | succ count ih =>
    rw [loadSegments]
    rcases readi content off 32 with _ | bytes
    · exact .giveUp hbuilding.givenUp
    · dsimp only
      by_cases hshort : bytes.length ≠ 32
      · rw [if_pos hshort]
        exact .giveUp hbuilding.givenUp
      · rw [if_neg hshort]
        apply (loadSegment_leads hpool hnew hbuilding _).bind
        exact fun size after hdone => ih _ hdone

/-! ## The calls of `loaduvm` -/

/-- A call of `loaduvm`: the memory, the size of the image and the program header. -/
structure Load where
  memory : Memory
  size : ℕ
  ph : Proghdr

variable (kernel) in
def segmentLoad (pgdir sz : ℕ) (ph : Proghdr) (memory : Memory) : Option Load :=
  if ph.type ≠ elfProgLoad ∨ ph.memsz < ph.filesz ∨ ph.vaddr + ph.memsz < ph.vaddr then none
  else
    match enlarge kernel pgdir sz (ph.vaddr + ph.memsz).toNat memory with
    | some (some size, memory) =>
      if ph.vaddr.toNat % 4096 ≠ 0 then none else some ⟨memory, size, ph⟩
    | _ => none

variable (kernel) in
/-- The calls that `loadSegments` makes. -/
def loads (content : List UInt8) (pgdir : ℕ) : ℕ → ℕ → ℕ → Memory → List Load
  | 0, _, _, _ => []
  | count + 1, off, sz, memory =>
    match readi content off 32 with
    | none => []
    | some bytes =>
      if bytes.length ≠ 32 then []
      else
        (segmentLoad kernel pgdir sz (proghdr bytes) memory).toList ++
          match loadSegment kernel content pgdir sz (proghdr bytes) memory with
          | some (some sz, memory) => loads content pgdir count ((off + 32) % 2 ^ 32) sz memory
          | _ => []

/-- The call returns and writes only to pages of the image below its size, which are all
there. -/
structure Load.Contained (content : List UInt8) (d : ℕ) (load : Load) : Prop where
  sized : Sized load.memory d load.size
  writes : ∃ ok after, loaduvm content load.memory d load.ph.vaddr.toNat load.ph.off.toNat
    load.ph.filesz.toNat = some (ok, after) ∧ UserWrite load.memory d load.size after

theorem segmentLoad_contained (hpool : Freeable kernel pool) (hnew : d ∉ live)
    (hbuilding : Building pool base live d memory sz) {load : Load}
    (hload : segmentLoad kernel d sz ph memory = some load) : load.Contained content d := by
  rw [segmentLoad] at hload
  by_cases hchecks :
      ph.type ≠ elfProgLoad ∨ ph.memsz < ph.filesz ∨ ph.vaddr + ph.memsz < ph.vaddr
  · rw [if_pos hchecks] at hload
    cases hload
  rw [if_neg hchecks] at hload
  rw [not_or, not_or] at hchecks
  obtain ⟨-, hsmall, hwraps⟩ := hchecks
  have hleads : Attempt.Leads False (enlarge kernel d sz (ph.vaddr + ph.memsz).toNat) memory
      (GivenUp pool base live d)
      (Enlarged pool base live d sz (ph.vaddr + ph.memsz).toNat memory) :=
    enlarge_leads hpool hnew hbuilding
  obtain ⟨size, after, henlarge, henlarged⟩ | ⟨after, henlarge, -⟩ | ⟨hnever, -⟩ := hleads
  · rw [henlarge] at hload
    split_ifs at hload with haligned
    cases hload
    exact ⟨henlarged.building.sized, loaduvm_spec henlarged.building hnew (not_not.1 haligned)
      (henlarged.fits hsmall hwraps) content⟩
  · rw [henlarge] at hload
    cases hload
  · exact hnever.elim

theorem loads_contained (hpool : Freeable kernel pool) (hnew : d ∉ live) (count off : ℕ)
    (hbuilding : Building pool base live d memory sz) :
    ∀ load ∈ loads kernel content d count off sz memory, load.Contained content d := by
  induction count generalizing off sz memory with
  | zero => exact fun load hload => absurd hload not_mem_nil
  | succ count ih =>
    intro load hload
    rw [loads] at hload
    split at hload
    · cases hload
    · next bytes hread =>
      split_ifs at hload
      · cases hload
      · rcases mem_append.1 hload with hfirst | hlater
        · exact segmentLoad_contained hpool hnew hbuilding (Option.mem_toList.1 hfirst)
        · have hleads : Attempt.Leads False (loadSegment kernel content d sz (proghdr bytes)) memory
              (GivenUp pool base live d)
              (fun size after => Building pool base live d after size) :=
            loadSegment_leads hpool hnew hbuilding _
          obtain ⟨size, after, hsegment, hdone⟩ | ⟨after, hsegment, -⟩ | ⟨hnever, -⟩ := hleads
          · rw [hsegment] at hlater
            exact ih _ hdone load hlater
          · rw [hsegment] at hlater
            cases hlater
          · exact hnever.elim

end Xv6Users.VirtualMemory
