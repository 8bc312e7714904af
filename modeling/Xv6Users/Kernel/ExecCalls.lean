import Xv6Users.Kernel.ExecStack

/-!
# Calls of `exec`

A call that fails leaves the calling process as it was and all pages that it took free, and a
call that succeeds leaves the arguments on the stack of the new program.
-/

namespace Xv6Users.VirtualMemory

open Attempts LittleEndian List

variable {kernel : Kernel} {pool : List ℕ} {memory after : Memory} {live : List ℕ} {d sz : ℕ}
  {checked : Bool} {path content : List UInt8} {file : Option (List UInt8)} {argv : List CString}
  {curproc process : Process} {pair : ℕ × CString}

theorem Fresh.building (hfresh : Fresh kernel after d) (hpaged : Paged pool after (d :: live) none)
    (hkeeps : Keeps ∅ memory live none after none) : Building pool memory live d after 0 :=
  ⟨hpaged, hkeeps, hfresh.sized, fun dir index _ => hfresh.upper dir index⟩

/-- What a call that fails leaves. -/
structure Failed (pool : List ℕ) (memory : Memory) (live : List ℕ) (after : Memory) : Prop where
  paged : Paged pool after live none
  keeps : Keeps ∅ memory live none after none
  freed : after.freelist.Perm memory.freelist

theorem Keeps.failed (hkeeps : Keeps ∅ memory live none after none)
    (hpaged : Paged pool memory live none) (hafter : Paged pool after live none) :
    Failed pool memory live after := ⟨hafter, hkeeps, hkeeps.freelist_perm hpaged hafter⟩

/-- The way out of `exec` after a failure. -/
theorem GivenUp.freevm {base : Memory} (hgiven : GivenUp pool base live d memory)
    (hpool : Freeable kernel pool) (hbase : Paged pool base live none) (hnew : d ∉ live) :
    ∃ after, freevm kernel memory d = some after ∧ Failed pool base live after := by
  obtain ⟨after, hfree, hdone, -, hkept⟩ := freevm_spec hpool hgiven.paged (.head _)
  rw [without_cons_self hnew] at hdone hkept
  have hkeeps : Keeps ∅ base live none after none := (hgiven.keeps.trans hkept).mono (by simp)
  exact ⟨after, hfree, hkeeps.failed hbase hdone⟩

/-- What a call that succeeds leaves. -/
structure Succeeded (argv : List CString) (process : Process) (after : Memory) : Prop where
  sized : Sized after process.pgdir process.sz
  laid : ∃ ustack blocks, Laid after process.pgdir process.sz process.esp argv ustack blocks

/-- The ways in which `exec` can end. -/
inductive Ended (checked : Bool) (pool : List ℕ) (memory : Memory) (live : List ℕ)
    (argv : List CString) (curproc : Process) : Option (ℤ × Process × Memory) → Prop
  | failed (after : Memory) (failed : Failed pool memory live after) :
      Ended checked pool memory live argv curproc (some (-1, curproc, after))
  | succeeded (process : Process) (after : Memory)
      (succeeded : Succeeded argv process after) :
      Ended checked pool memory live argv curproc (some (0, process, after))
  | stopped (unchecked : checked = false) : Ended checked pool memory live argv curproc none

/-- Pages of the image that are there keep their bytes. -/
theorem Keeps.bytesAt {a n : ℕ} (hkeeps : Keeps ∅ memory live none after none) (hd : d ∈ live)
    (hsized : Sized memory d sz) (hend : a + n ≤ sz) :
    bytesAt after d a n = bytesAt memory d a n := by
  apply map_congr_left
  intro i hi
  rw [mem_range] at hi
  have hbelow : (a + i) / 4096 * 4096 < sz := by omega
  have hlt := hsized.va_lt hbelow
  obtain ⟨hentry, hcontent⟩ := hkeeps.same hd hlt ((hsized.present _ hlt).2 hbelow)
    (Set.notMem_empty _)
  rw [hentry, hcontent]

theorem Sized.keeps (hsized : Sized memory d sz)
    (hkeeps : Keeps ∅ memory live none after none) (hd : d ∈ live) : Sized after d sz := by
  refine ⟨hsized.below, ?_⟩
  intro va hva
  rw [entryAt, hkeeps.entry d hd _ _ (Set.notMem_empty _)]
  exact hsized.present va hva

theorem Stack.keeps {sp : ℕ} {blocks : List (ℕ × List UInt8)}
    (hstack : Stack memory d sz sp blocks) (hkeeps : Keeps ∅ memory live none after none)
    (hd : d ∈ live) (hsized : Sized memory d sz) : Stack after d sz sp blocks := by
  refine ⟨hstack.low, hstack.high, hstack.aligned, hstack.inside, hstack.starts, hstack.ordered, ?_⟩
  intro block hblock
  rw [hkeeps.bytesAt hd hsized (hstack.inside block hblock).2]
  exact hstack.held block hblock

theorem exec_ends (hpool : Freeable kernel pool) (hpaged : Paged pool memory live none)
    (hlive : curproc.pgdir ∈ live) (path : List UInt8) (file : Option (List UInt8))
    (argv : List CString) :
    Ended checked pool memory live argv curproc
      (exec kernel checked path file argv curproc memory) := by
  have hsame : Failed pool memory live memory := (Keeps.refl ..).failed hpaged hpaged
  unfold exec
  rcases file with _ | content
  · exact .failed memory hsame
  dsimp only
  rcases header content with _ | elf
  · exact .failed memory hsame
  obtain ⟨made, middle, hsetup⟩ := setupkvm_returns hpool hpaged
  obtain ⟨hmiddle, hkept, hmade⟩ := hpaged.setupkvm hpool hsetup
  rw [hsetup]
  rcases made with _ | d
  · exact .failed middle (hkept.failed hpaged hmiddle)
  dsimp only
  obtain ⟨hnew, hfresh⟩ := hmade d rfl
  have hleads : Attempt.Leads (checked = false) (image kernel checked content elf argv d) middle
      _ _ := image_leads kernel hpool hnew content elf argv (hfresh.building hmiddle hkept)
  obtain ⟨⟨sz, esp⟩, done, himage, hstacked, ustack, blocks, hlaid⟩ | ⟨given, himage, hgiven⟩ |
    ⟨hunchecked, himage⟩ := hleads
  · have hdne : d ≠ curproc.pgdir := fun heq => hnew (heq ▸ hlive)
    obtain ⟨freed, hfree, -, -, hsame⟩ :=
      freevm_spec hpool hstacked.building.paged (.tail d hlive)
    have hd : d ∈ without (d :: live) curproc.pgdir := mem_without.2 ⟨.head _, hdne⟩
    have hsized := hstacked.building.sized
    have hlaid' : Laid freed d sz esp argv ustack blocks :=
      ⟨hlaid.stack.keeps hsame hd hsized, hlaid.addresses, hlaid.strings⟩
    rw [himage]
    dsimp only
    rw [hfree]
    exact .succeeded _ freed ⟨hsized.keeps hsame hd, ustack, blocks, hlaid'⟩
  · obtain ⟨freed, hfree, hfailed⟩ := hgiven.freevm hpool hpaged hnew
    rw [himage]
    dsimp only
    rw [hfree]
    exact .failed freed hfailed
  · rw [himage]
    exact .stopped hunchecked

section Small

variable {base : Memory} {sz sp : ℕ} {buf : List UInt8}

/-- A block that fits into the stack page is pushed. -/
theorem push_fits (hstacked : Stacked pool base live d memory sz) (hnew : d ∉ live)
    (haccess : Accessible memory d (sz / 4096 - 1)) (hlow : sz ≤ sp + 4096)
    (hhigh : sp + buf.length ≤ sz) :
    Attempt.Leads False (push checked d sp buf) memory (fun _ => False) (fun _ after =>
      Stacked pool base live d after sz ∧ Accessible after d (sz / 4096 - 1)) := by
  have hbase : kernbase = 2147483648 := rfl
  have hsz := hstacked.building.sized.below
  have haligned := hstacked.aligned
  have hpage : ∀ i < buf.length, addr sp i / 4096 = sz / 4096 - 1 := by
    intro i hi
    rw [addr]
    omega
  have hgood : ∀ i, ¬ FirstBad memory d sp buf.length i := by
    intro i hfirst
    apply hfirst.bad
    rwa [hpage i hfirst.inside]
  have houtcome := outcome_copyout checked hstacked.building.separate
    (show sp < 2 ^ 32 by omega) (show buf.length < 2 ^ 32 by omega)
  rw [Attempt.Leads, push]
  generalize copyout checked memory d sp buf = result at houtcome
  cases houtcome with
  | copied after _ hcopies _ =>
    refine .inl ⟨(), after, rfl, hstacked.write hnew (hcopies.userWrite hstacked.building), ?_⟩
    rwa [Accessible, hcopies.tables.entryAt]
  | refused after i hfirst _ _ => exact absurd hfirst (hgood i)
  | stopped i hfirst _ _ => exact absurd hfirst (hgood i)

/-- With memory for two pages and a table, a program without segments gets its stack. -/
theorem stackPages_fits (hpool : Freeable kernel pool) (hnew : d ∉ live)
    (hbuilding : Building pool base live d memory 0) (houtages : memory.outages = [])
    (hroom : 4 ≤ memory.freelist.length) :
    Attempt.Leads False (stackPages kernel d 0) memory (fun _ => False) (fun size after =>
      size = 8192 ∧ Stacked pool base live d after 8192 ∧ Accessible after d 1) := by
  obtain ⟨size, middle, halloc, -⟩ := allocuvm_spec hpool hbuilding.paged (.head _)
    hbuilding.sized (Nat.zero_le 8192)
  have hpages : 2 * ((8192 + 4095) / 4096 - pgroundup 0) ≤ memory.freelist.length := hroom
  obtain rfl := allocuvm_of_room houtages (by decide) (Nat.zero_le _) hpages halloc
  have henlarge : enlarge kernel d 0 8192 memory = some (some 8192, middle) := by
    rw [enlarge, halloc]
    rfl
  have hleads : Attempt.Leads False (enlarge kernel d 0 8192) memory (GivenUp pool base live d)
      (Enlarged pool base live d 0 8192 memory) := enlarge_leads hpool hnew hbuilding
  obtain ⟨size, after, hdone, henlarged⟩ | ⟨after, hgave, -⟩ | ⟨hnever, -⟩ := hleads
  · cases henlarge.symm.trans hdone
    have hinside : 0 * 4096 < 8192 := by decide
    obtain ⟨cleared, hclear, hcleared, huser, hothers⟩ :=
      clearpteu_spec henlarged.building hnew hinside
    obtain ⟨page, hentry, -⟩ := henlarged.zeroed 1 (by decide) (by decide)
    refine .inl ⟨8192, cleared, ?_, rfl, ⟨hcleared, by decide, by decide, huser⟩, ?_⟩
    · change Attempt.bind (enlarge kernel d 0 8192) (fun sz memory =>
        (clearpteu memory d ((sz - 8192) / 4096)).map fun memory => (some sz, memory)) memory = _
      unfold Attempt.bind
      rw [henlarge]
      change (clearpteu middle d 0).map _ = _
      rw [hclear]
      rfl
    · rw [Accessible, hothers 1 (by decide) (by decide), hentry]
      exact ⟨rfl, rfl⟩
  · cases henlarge.symm.trans hgave
  · exact hnever.elim

def emptyProgram : List UInt8 :=
  [0x7F, 0x45, 0x4C, 0x46] ++ replicate 48 0

theorem header_emptyProgram : header emptyProgram = some ⟨elfMagic, 0, 0, 0⟩ := by decide

def oneArgument : List CString :=
  [⟨[97], by decide, by decide⟩]

/-- The program gets its image. -/
theorem image_fits (hpool : Freeable kernel pool) (hnew : d ∉ live)
    (hbuilding : Building pool base live d memory 0) (houtages : memory.outages = [])
    (hroom : 4 ≤ memory.freelist.length) :
    Attempt.Leads False (image kernel checked emptyProgram ⟨elfMagic, 0, 0, 0⟩ oneArgument d)
      memory (fun _ => False) (fun _ after => Stacked pool base live d after 8192) := by
  have hsegments : Attempt.Leads False (loadSegments kernel emptyProgram d 0 0 0) memory
      (fun _ => False) (fun size after => size = 0 ∧ after = memory) :=
    .pure ⟨rfl, rfl⟩
  apply hsegments.bind
  rintro size _ ⟨rfl, rfl⟩
  apply (stackPages_fits hpool hnew hbuilding houtages hroom).bind
  rintro size stacked ⟨rfl, hstacked, haccess⟩
  have hargument : Attempt.Leads False (pushArgs checked d oneArgument 8192 []) stacked
      (fun _ => False) (fun done after => done = (8188, [8188]) ∧
        Stacked pool base live d after 8192 ∧ Accessible after d 1) := by
    apply (push_fits hstacked hnew haccess (by decide) (by decide)).bind
    intro _ after hpushed
    exact .pure ⟨rfl, hpushed⟩
  apply hargument.bind
  rintro _ pushed ⟨rfl, hstacked', haccess'⟩
  apply (push_fits hstacked' hnew haccess' (by decide) (by decide)).bind
  intro _ after hdone
  exact .pure hdone.1

/-- A process with an empty directory. -/
theorem smallPool_adopt : ∃ (memory : Memory) (pgdir : ℕ), Paged smallPool memory [pgdir] none ∧
    memory.outages = [] ∧ 1026 ≤ memory.freelist.length := by
  have hstart := Paged.start smallPool_nodup [] fun _ _ => Word.zero
  have hfree : (start smallPool [] fun _ _ => Word.zero).memory.freelist =
      1024 :: range' 1025 1999 := by
    rw [start, smallPool, range'_succ]
  have hkalloc := kalloc_of_roomy rfl hfree
  refine ⟨_, 1024, hstart.adopt hkalloc, rfl, ?_⟩
  change 1026 ≤ (range' 1025 1999).length
  rw [length_range']
  decide

/-- The process executes the program. -/
theorem small_exec : ∃ (memory : Memory) (pgdir : ℕ) (process : Process) (after : Memory),
    Paged smallPool memory [pgdir] none ∧
      exec smallKernel false [] (some emptyProgram) oneArgument ⟨pgdir, 0, 0, 0, []⟩ memory =
        some (0, process, after) := by
  obtain ⟨memory, pgdir, hpaged, houtages, hroom⟩ := smallPool_adopt
  obtain ⟨d, middle, hsetup, hroomy⟩ : ∃ d middle,
      setupkvm smallKernel memory = some (some d, middle) ∧ Roomy middle d :=
    setupkvm_succeeds hpaged houtages hroom
  obtain ⟨hmiddle, hkept, hmade⟩ := hpaged.setupkvm smallPool_freeable hsetup
  obtain ⟨hnew, hfresh⟩ := hmade d rfl
  obtain ⟨⟨sz, esp⟩, done, himage, hstacked⟩ | ⟨_, _, hnever⟩ | ⟨hnever, _⟩ :=
    image_fits smallPool_freeable hnew (hfresh.building hmiddle hkept) hroomy.outages
      (hroomy.fresh hfresh)
  · obtain ⟨freed, hfreevm, -⟩ := freevm_spec smallPool_freeable hstacked.building.paged
      (.tail d (mem_singleton_self pgdir))
    refine ⟨memory, pgdir, ⟨d, sz, 0, esp, Processes.programName []⟩, freed, hpaged, ?_⟩
    unfold exec
    dsimp only
    rw [header_emptyProgram]
    rw [hsetup]
    dsimp only
    rw [himage]
    dsimp only
    rw [hfreevm]
    rfl
  · exact hnever.elim
  · exact hnever.elim

end Small

/-- A call returns, whatever the file holds and whichever pages run out; the bytes of the file
go to pages of the new image; and a failure leaves the process and all pages as they were. -/
theorem exec_safe (hpool : Freeable kernel pool) (hpaged : Paged pool memory live none)
    (hlive : curproc.pgdir ∈ live) (path : List UInt8) (file : Option (List UInt8))
    (argv : List CString) :
    (∃ status process after,
      exec kernel true path file argv curproc memory = some (status, process, after) ∧
      (status = 0 ∨ status = -1) ∧
      (status = -1 → process = curproc ∧ Failed pool memory live after)) ∧
    ∀ content elf d middle, file = some content → header content = some elf →
      setupkvm kernel memory = some (some d, middle) →
      ∀ load ∈ loads kernel content d elf.phnum.toNat elf.phoff.toNat 0 middle,
        load.Contained content d := by
  constructor
  · have hends : Ended true pool memory live argv curproc
        (exec kernel true path file argv curproc memory) :=
      exec_ends hpool hpaged hlive path file argv
    generalize exec kernel true path file argv curproc memory = result at hends
    cases hends with
    | failed after hfailed => exact ⟨-1, curproc, after, rfl, .inr rfl, fun _ => ⟨rfl, hfailed⟩⟩
    | succeeded process after hsucceeded =>
      exact ⟨0, process, after, rfl, .inl rfl, fun hstatus => absurd hstatus (by decide)⟩
    | stopped hunchecked => cases hunchecked
  · intro content elf d middle _ _ hsetup
    obtain ⟨hmiddle, hkept, hmade⟩ := hpaged.setupkvm hpool hsetup
    obtain ⟨hnew, hfresh⟩ := hmade d rfl
    exact loads_contained hpool hnew _ _ (hfresh.building hmiddle hkept)

/-- A small program is executed safely. -/
theorem small_exec_safe : ∃ (memory : Memory) (pgdir : ℕ) (status : ℤ) (process : Process)
    (after : Memory), Paged smallPool memory [pgdir] none ∧
      exec smallKernel true [] (some emptyProgram) oneArgument ⟨pgdir, 0, 0, 0, []⟩ memory =
        some (status, process, after) ∧ (status = 0 ∨ status = -1) := by
  obtain ⟨memory, pgdir, _, _, hpaged, -⟩ := small_exec
  have hlive : (⟨pgdir, 0, 0, 0, []⟩ : Process).pgdir ∈ [pgdir] := .head _
  obtain ⟨⟨status, process, after, hexec, hstatus, -⟩, -⟩ :=
    exec_safe smallPool_freeable hpaged hlive [] (some emptyProgram) oneArgument
  exact ⟨memory, pgdir, status, process, after, hpaged, hexec, hstatus⟩

/-- The words in front of the array, the array and the strings: where each starts and how long
it is. -/
def parts (esp : ℕ) (argv : List CString) (ustack : List ℕ) : List (ℕ × ℕ) :=
  (esp, 12) :: (esp + 12, (argv.length + 1) * 4) ::
    (ustack.zip argv).map fun pair => (pair.1, pair.2.bytes.length + 1)

/-- The stack of a process that starts with arguments. -/
structure CallStack (memory : Memory) (process : Process) (argv : List CString)
    (ustack : List ℕ) : Prop where
  sized : Sized memory process.pgdir process.sz
  count : ustack.length = argv.length
  frame : bytesAt memory process.pgdir process.esp ((3 + argv.length + 1) * 4) =
    (callFrame process.esp ustack).flatMap (toBytes 4)
  strings : ∀ pair ∈ ustack.zip argv,
    bytesAt memory process.pgdir pair.1 (pair.2.bytes.length + 1) = pair.2.bytes ++ [0]
  disjoint : (parts process.esp argv ustack).Pairwise fun part other =>
    part.1 + part.2 ≤ other.1 ∨ other.1 + other.2 ≤ part.1
  aligned : ∀ part ∈ parts process.esp argv ustack, part.1 % 4 = 0
  inside : ∀ part ∈ parts process.esp argv ustack,
    process.sz ≤ part.1 + 4096 ∧ part.1 + part.2 ≤ process.sz

theorem length_callFrame (esp : ℕ) (ustack : List ℕ) :
    (callFrame esp ustack).length = 3 + ustack.length + 1 := by
  rw [callFrame, length_append, length_append]
  rfl

section Laid

variable {sz esp : ℕ} {ustack : List ℕ} {blocks : List (ℕ × List UInt8)}

section

variable (hlaid : Laid memory d sz esp argv ustack blocks)

include hlaid

/-- Each string has its address. -/
theorem Laid.blocks_eq :
    blocks.reverse = (ustack.zip argv).map fun pair => (pair.1, pair.2.block) := by
  calc blocks.reverse
      = ustack.zip (argv.map CString.block) := zip_of_prod hlaid.addresses hlaid.strings
    _ = (ustack.zip argv).map fun pair => (pair.1, pair.2.block) := by
        rw [zip_map_right]
        rfl

theorem Laid.mem_blocks (hpair : pair ∈ ustack.zip argv) : (pair.1, pair.2.block) ∈ blocks := by
  rw [← mem_reverse, hlaid.blocks_eq]
  exact mem_map_of_mem hpair

theorem Laid.count : ustack.length = argv.length := by
  calc ustack.length
      = (blocks.reverse.map Prod.snd).length := by
        rw [← hlaid.addresses, length_map, length_map]
    _ = argv.length := by rw [hlaid.strings, length_map]

theorem Laid.length_frame :
    ((callFrame esp ustack).flatMap (toBytes 4)).length = (3 + argv.length + 1) * 4 := by
  rw [length_words, length_callFrame, hlaid.count]

/-- The strings lie above the array. -/
theorem Laid.above (hpair : pair ∈ ustack.zip argv) : esp + (3 + argv.length + 1) * 4 ≤ pair.1 := by
  have hordered := (pairwise_cons.1 hlaid.stack.ordered).1 _ (hlaid.mem_blocks hpair)
  rwa [hlaid.length_frame] at hordered

/-- Later arguments lie below earlier ones. -/
theorem Laid.strings_ordered :
    (ustack.zip argv).Pairwise fun pair later =>
      later.1 + (later.2.bytes.length + 1) ≤ pair.1 := by
  have hordered := pairwise_reverse.2 (pairwise_cons.1 hlaid.stack.ordered).2
  rw [hlaid.blocks_eq, pairwise_map] at hordered
  simpa only [CString.length_block] using hordered

theorem Laid.disjoint :
    (parts esp argv ustack).Pairwise fun part other =>
      part.1 + part.2 ≤ other.1 ∨ other.1 + other.2 ≤ part.1 := by
  have hstrings : ((ustack.zip argv).map fun pair => (pair.1, pair.2.bytes.length + 1)).Pairwise
      fun part other => part.1 + part.2 ≤ other.1 ∨ other.1 + other.2 ≤ part.1 :=
    pairwise_map.2 (hlaid.strings_ordered.imp .inr)
  refine pairwise_cons.2 ⟨?_, pairwise_cons.2 ⟨?_, hstrings⟩⟩
  · intro part hpart
    left
    obtain rfl | hpart := mem_cons.1 hpart
    · exact le_rfl
    · obtain ⟨pair, hpair, rfl⟩ := mem_map.1 hpart
      have habove := hlaid.above hpair
      omega
  · intro part hpart
    left
    obtain ⟨pair, hpair, rfl⟩ := mem_map.1 hpart
    have habove := hlaid.above hpair
    omega

theorem Laid.aligned : ∀ part ∈ parts esp argv ustack, part.1 % 4 = 0 := by
  intro part hpart
  have hesp := hlaid.stack.aligned
  simp only [parts, mem_cons, mem_map] at hpart
  obtain rfl | rfl | ⟨pair, hpair, rfl⟩ := hpart
  · exact hesp
  · omega
  · exact hlaid.stack.starts _ (.tail _ (hlaid.mem_blocks hpair))

theorem Laid.inside :
    ∀ part ∈ parts esp argv ustack, sz ≤ part.1 + 4096 ∧ part.1 + part.2 ≤ sz := by
  intro part hpart
  have hlow := hlaid.stack.low
  have hframe := (hlaid.stack.inside _ (.head _)).2
  rw [hlaid.length_frame] at hframe
  simp only [parts, mem_cons, mem_map] at hpart
  obtain rfl | rfl | ⟨pair, hpair, rfl⟩ := hpart
  · omega
  · omega
  · have hinside := hlaid.stack.inside _ (.tail _ (hlaid.mem_blocks hpair))
    rw [CString.length_block] at hinside
    omega

end

theorem Laid.callStack {process : Process}
    (hlaid : Laid memory process.pgdir process.sz process.esp argv ustack blocks)
    (hsized : Sized memory process.pgdir process.sz) : CallStack memory process argv ustack := by
  refine ⟨hsized, hlaid.count, ?_, ?_, hlaid.disjoint, hlaid.aligned, hlaid.inside⟩
  · have hframe := hlaid.stack.held _ (.head _)
    rwa [hlaid.length_frame] at hframe
  · intro pair hpair
    have hheld := hlaid.stack.held _ (.tail _ (hlaid.mem_blocks hpair))
    rwa [CString.length_block] at hheld

end Laid

/-- A call that succeeds leaves the arguments on the stack. -/
theorem exec_lays_stack (hpool : Freeable kernel pool) (hpaged : Paged pool memory live none)
    (hlive : curproc.pgdir ∈ live)
    (hexec : exec kernel checked path file argv curproc memory = some (0, process, after)) :
    ∃ ustack, CallStack after process argv ustack := by
  have hends : Ended checked pool memory live argv curproc
      (exec kernel checked path file argv curproc memory) :=
    exec_ends hpool hpaged hlive path file argv
  rw [hexec] at hends
  cases hends with
  | succeeded _ _ hsucceeded =>
    obtain ⟨ustack, blocks, hlaid⟩ := hsucceeded.laid
    exact ⟨ustack, hlaid.callStack hsucceeded.sized⟩

/-- A small program finds its argument. -/
theorem small_exec_lays_stack : ∃ (memory : Memory) (pgdir : ℕ) (process : Process)
    (after : Memory) (ustack : List ℕ), Paged smallPool memory [pgdir] none ∧
      exec smallKernel false [] (some emptyProgram) oneArgument ⟨pgdir, 0, 0, 0, []⟩ memory =
        some (0, process, after) ∧ CallStack after process oneArgument ustack := by
  obtain ⟨memory, pgdir, process, after, hpaged, hexec⟩ := small_exec
  obtain ⟨ustack, hstack⟩ := exec_lays_stack smallPool_freeable hpaged mem_cons_self hexec
  exact ⟨memory, pgdir, process, after, ustack, hpaged, hexec, hstack⟩

end Xv6Users.VirtualMemory
