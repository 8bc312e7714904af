import Xv6Users.Kernel.ExecImage

/-!
# The stack of a new program

`exec` pushes the argument strings and then a frame of words.  What is pushed stays in the
stack page, since below that page lies one that the user may not use.
-/

namespace Xv6Users.VirtualMemory

open Attempts LittleEndian List

variable {blocks : List (ℕ × List UInt8)} {argv : List CString} {ustack : List ℕ} {len : ℕ}

variable {kernel : Kernel} {pool : List ℕ} {base memory after : Memory} {live : List ℕ}
  {d sz sp va start : ℕ} {checked : Bool} {buf : List UInt8}

/-- An image with a stack page at its end and a page before that the user may not use. -/
structure Stacked (pool : List ℕ) (base : Memory) (live : List ℕ) (d : ℕ) (memory : Memory)
    (sz : ℕ) : Prop where
  building : Building pool base live d memory sz
  aligned : sz % 4096 = 0
  large : 8192 ≤ sz
  guard : (entryAt memory d (sz / 4096 - 2)).user = false

theorem clearpteu_spec (hbuilding : Building pool base live d memory sz) (hnew : d ∉ live)
    (hva : va * 4096 < sz) :
    ∃ after, clearpteu memory d va = some after ∧ Building pool base live d after sz ∧
      (entryAt after d va).user = false ∧
      ∀ other < kernPage, other ≠ va → entryAt after d other = entryAt memory d other := by
  have hlt := hbuilding.sized.va_lt hva
  have hpresent := (hbuilding.sized.present va hlt).2 hva
  obtain ⟨htable, hword⟩ := words_of_present hpresent
  have hclear : clearpteu memory d va = some (memory.set (memory.words d (pdx va)).page (ptx va)
      { entryAt memory d va with user := false }) := by
    rw [clearpteu, walkpgdir_false, if_pos htable]
    dsimp only
    rw [hword]
  have hapart := hbuilding.paged.apart
  have hentry : ∀ dir index, entry (memory.set (memory.words d (pdx va)).page (ptx va)
        { entryAt memory d va with user := false }) d dir index =
        if d = d ∧ dir = pdx va ∧ index = ptx va then { entryAt memory d va with user := false }
        else entry memory d dir index := hapart.set_entry mem_cons_self htable (.head _)
  have hset : Keeps {.user d (pdx va) (ptx va)} memory (d :: live) none
      (memory.set (memory.words d (pdx va)).page (ptx va)
        { entryAt memory d va with user := false }) none :=
    .of_set hapart mem_cons_self htable _
  have hothers : Keeps ∅ memory live none (memory.set (memory.words d (pdx va)).page (ptx va)
      { entryAt memory d va with user := false }) none := by
    apply hset.restrict
    · exact fun other hother => .tail d hother
    · rintro - ⟨⟩
    · rintro other hother dir - ⟨⟩
    · rintro other hother dir index - ⟨⟩
      exact hnew hother
  refine ⟨_, hclear, ⟨hbuilding.paged.clearpteu mem_cons_self hclear, ?_,
    ⟨hbuilding.sized.below, ?_⟩, ?_⟩, ?_, ?_⟩
  · exact (hbuilding.keeps.trans hothers).mono (by simp)
  · intro va' hva'
    rw [← hbuilding.sized.present va' hva', entryAt, hentry]
    by_cases hsame : d = d ∧ pdx va' = pdx va ∧ ptx va' = ptx va
    · rw [if_pos hsame, entryAt, entryAt, hsame.2.1, hsame.2.2]
    · rw [if_neg hsame, entryAt]
  · intro dir index hdir
    rw [hentry, if_neg]
    · exact hbuilding.upper dir index hdir
    · rintro ⟨-, rfl, -⟩
      exact hdir (pdx_user_lt hlt)
  · rw [entryAt, hentry, if_pos ⟨rfl, rfl, rfl⟩]
  · intro other hother hne
    rw [entryAt, hentry, if_neg, entryAt]
    rintro ⟨-, hdir, hindex⟩
    have hpage : kernPage = 524288 := rfl
    exact hne (indices_injective (by omega) (by omega) hdir hindex)

/-- The size of an image may be rounded up. -/
theorem Building.round (hbuilding : Building pool base live d memory sz)
    (hbelow : pgroundup sz * 4096 < kernbase) :
    Building pool base live d memory (pgroundup sz * 4096) := by
  refine ⟨hbuilding.paged, hbuilding.keeps, ⟨hbelow, ?_⟩, hbuilding.upper⟩
  intro va hva
  rw [hbuilding.sized.present va hva]
  have hround : pgroundup sz ≤ va ↔ sz ≤ va * 4096 := pgroundup_le_iff hbuilding.sized.below
  omega

theorem stackPages_leads {halts : Prop} (hpool : Freeable kernel pool) (hnew : d ∉ live)
    (hbuilding : Building pool base live d memory sz) :
    Attempt.Leads halts (stackPages kernel d sz) memory (GivenUp pool base live d)
      (fun size after => Stacked pool base live d after size) := by
  have hbase : kernbase = 2147483648 := rfl
  have hupper : pgroundup sz * 4096 < 2 ^ 32 := by
    rw [pgroundup]
    omega
  rw [stackPages]
  by_cases hbelow : pgroundup sz * 4096 < kernbase
  · have hnewsz : (pgroundup sz * 4096 + 8192) % 2 ^ 32 = pgroundup sz * 4096 + 8192 := by omega
    rw [hnewsz]
    apply (enlarge_leads hpool hnew (hbuilding.round hbelow)).bind
    intro size middle henlarged
    have hsize : size = pgroundup sz * 4096 + 8192 := by
      rw [henlarged.size]
      exact max_eq_right (Nat.le_add_right _ _)
    have hguard : (size - 8192) / 4096 = size / 4096 - 2 := by omega
    have hinside : (size / 4096 - 2) * 4096 < size := by
      clear hnewsz hbelow hupper
      omega
    obtain ⟨after, hclear, hdone, huser, -⟩ := clearpteu_spec henlarged.building hnew hinside
    refine .inl ⟨size, after, ?_, hdone, by omega, by omega, huser⟩
    rw [hguard]
    dsimp only
    rw [hclear]
    rfl
  · have hgives : Attempt.Leads halts
        (enlarge kernel d (pgroundup sz * 4096) ((pgroundup sz * 4096 + 8192) % 2 ^ 32)) memory
        (GivenUp pool base live d) (fun _ _ => False) := by
      rw [Attempt.Leads, enlarge, allocuvm, if_pos]
      · exact .inr (.inl ⟨memory, rfl, hbuilding.givenUp⟩)
      · have hsz := hbuilding.sized.below
        rw [pgroundup] at hbelow ⊢
        omega
    apply hgives.bind
    exact fun _ _ hnever => hnever.elim

/-- What the user may use lies in the image. -/
theorem Building.accessible_below (hbuilding : Building pool base live d memory sz)
    (hva : va < 2 ^ 20) (haccess : Accessible memory d va) : va * 4096 < sz := by
  by_cases hlow : va < kernPage
  · exact (hbuilding.sized.present va hlow).1 haccess.1
  · have huser := haccess.2
    rw [entryAt, hbuilding.upper _ _ (pdx_kernel (not_lt.1 hlow) hva)] at huser
    cases huser

theorem Copies.userWrite (hcopies : Copies memory d sp len after)
    (hbuilding : Building pool base live d memory sz) : UserWrite memory d sz after := by
  refine ⟨hcopies.frame, ?_⟩
  intro page hout
  apply hcopies.pages
  intro i _ haccess
  exact hout _ (hbuilding.accessible_below (addr_lt sp i) haccess) haccess.1

theorem Stacked.write (hstacked : Stacked pool base live d memory sz) (hnew : d ∉ live)
    (hwrite : UserWrite memory d sz after) : Stacked pool base live d after sz := by
  have htables := hwrite.tables hstacked.building.paged (.head _)
    hstacked.building.sized.below.le (.head _)
  refine ⟨hstacked.building.write hnew hwrite, hstacked.aligned, hstacked.large, ?_⟩
  rw [htables.entryAt]
  exact hstacked.guard

/-- What a successful `copyout` has done. -/
structure Put (pool : List ℕ) (base : Memory) (live : List ℕ) (d sz sp : ℕ) (buf : List UInt8)
    (memory after : Memory) : Prop where
  stacked : Stacked pool base live d after sz
  accessible : ∀ i < buf.length, Accessible memory d (addr sp i / 4096)
  copies : Copies memory d sp buf.length after
  written : Written memory d sp buf after

theorem push_leads (hstacked : Stacked pool base live d memory sz) (hnew : d ∉ live)
    (hsp : sp < 2 ^ 32) (hlen : buf.length < 2 ^ 32) :
    Attempt.Leads (checked = false) (push checked d sp buf) memory (GivenUp pool base live d)
      (fun _ after => Put pool base live d sz sp buf memory after) := by
  have hwrites : ∀ {after}, Copies memory d sp buf.length after →
      Stacked pool base live d after sz :=
    fun hcopies => hstacked.write hnew (hcopies.userWrite hstacked.building)
  have houtcome := outcome_copyout checked hstacked.building.separate hsp hlen
  rw [Attempt.Leads, push]
  generalize copyout checked memory d sp buf = result at houtcome
  cases houtcome with
  | copied after haccess hcopies hwritten =>
    exact .inl ⟨(), after, rfl, hwrites hcopies, haccess, hcopies, hwritten⟩
  | refused after i _ _ hcopies =>
    exact .inr (.inl ⟨after, rfl, (hwrites hcopies).building.givenUp⟩)
  | stopped i _ _ hunchecked => exact .inr (.inr ⟨hunchecked, rfl⟩)

def bytesAt (memory : Memory) (pgdir a n : ℕ) : List UInt8 :=
  (range n).map fun i =>
    byteAt (memory.words (entryAt memory pgdir ((a + i) / 4096)).page) ((a + i) % 4096)

/-- The blocks that have been pushed, the last one first, lie one below the other in the stack
page. -/
structure Stack (memory : Memory) (d sz sp : ℕ) (blocks : List (ℕ × List UInt8)) : Prop where
  low : sz ≤ sp + 4096
  high : sp ≤ sz
  aligned : sp % 4 = 0
  inside : ∀ block ∈ blocks, sp ≤ block.1 ∧ block.1 + block.2.length ≤ sz
  starts : ∀ block ∈ blocks, block.1 % 4 = 0
  ordered : blocks.Pairwise fun block above => block.1 + block.2.length ≤ above.1
  held : ∀ block ∈ blocks, bytesAt memory d block.1 block.2.length = block.2

theorem below_eq (hle : len ≤ sp) (hsp : sp < 2 ^ 32) : below sp len = (sp - len) / 4 * 4 := by
  rw [below]
  omega

theorem below_lt (sp len : ℕ) : below sp len < 2 ^ 32 := by
  rw [below]
  omega

/-- A block that does not fit into the rest of the stack page has a byte in the page before,
also when its address wraps around. -/
theorem below_hits_guard (hlen : len < 2 ^ 32) (hsz : sz < 2 ^ 31) (haligned : sz % 4096 = 0)
    (hlarge : 8192 ≤ sz) (hlow : sz ≤ sp + 4096) (hhigh : sp ≤ sz) (hfour : sp % 4 = 0)
    (hfits : sp - (sz - 4096) < len) : ∃ i < len, addr (below sp len) i / 4096 = sz / 4096 - 2 := by
  set start := (((sp : ℤ) - len) % 2 ^ 32).toNat with hstart
  have hbelow : below sp len = start / 4 * 4 := rfl
  clear_value start
  by_cases hedge : sp = sz - 4096
  · refine ⟨len - 1, by omega, ?_⟩
    rw [addr]
    omega
  · refine ⟨len + start % 4 - 1 - (sp - (sz - 4096)), by omega, ?_⟩
    rw [addr]
    omega

/-- A block that has been pushed lies in the stack page: otherwise one of its bytes would lie
in the page before. -/
theorem Put.confined (hput : Put pool base live d sz (below sp buf.length) buf memory after)
    (hstacked : Stacked pool base live d memory sz) (hstack : Stack memory d sz sp blocks)
    (hpos : 0 < buf.length) (hlen : buf.length < 2 ^ 32) :
    sz ≤ below sp buf.length + 4096 ∧ below sp buf.length + buf.length ≤ sp := by
  have hbase : kernbase = 2147483648 := rfl
  have hsz := hstacked.building.sized.below
  have haligned := hstacked.aligned
  have hlarge := hstacked.large
  have hlow := hstack.low
  have hhigh := hstack.high
  have hfour := hstack.aligned
  have hguard : ∀ i < buf.length, addr (below sp buf.length) i / 4096 ≠ sz / 4096 - 2 := by
    intro i hi hpage
    have huser := (hput.accessible i hi).2
    rw [hpage, hstacked.guard] at huser
    cases huser
  by_cases hfits : buf.length ≤ sp - (sz - 4096)
  · rw [below_eq (by omega) (by omega)]
    omega
  · exfalso
    obtain ⟨i, hi, hpage⟩ := below_hits_guard hlen (by omega) haligned hlarge hlow hhigh hfour
      (not_le.1 hfits)
    exact hguard i hi hpage

theorem length_bytesAt (memory : Memory) (pgdir a n : ℕ) :
    (bytesAt memory pgdir a n).length = n := by
  rw [bytesAt, length_map, length_range]

/-- What is written below a block of the stack page leaves the block. -/
theorem Copies.bytesAt_above {a n : ℕ} (hcopies : Copies memory d start len after)
    (haligned : sz % 4096 = 0) (hlow : sz ≤ start + 4096) (habove : start + len ≤ a)
    (hinside : a + n ≤ sz) : bytesAt after d a n = bytesAt memory d a n := by
  apply map_congr_left
  intro i hi
  rw [mem_range] at hi
  rw [hcopies.tables.entryAt]
  apply hcopies.bytes _ _ (Nat.mod_lt _ (by decide))
  intro j hj _ _
  rw [addr]
  omega

theorem Written.bytesAt (hwritten : Written memory d sp buf after)
    (htables : SameTables memory d after) (hend : sp + buf.length ≤ 2 ^ 32) :
    bytesAt after d sp buf.length = buf := by
  apply ext_getElem (length_bytesAt ..)
  intro i hi _
  rw [length_bytesAt] at hi
  have haddr : addr sp i = sp + i := Nat.mod_eq_of_lt (by omega)
  have hbyte := hwritten i hi
  rw [haddr] at hbyte
  simp only [VirtualMemory.bytesAt, getElem_map, getElem_range]
  rw [htables.entryAt, hbyte, getD_eq_getElem _ _ hi]

/-- Pushing a block. -/
theorem Stack.push (hstack : Stack memory d sz sp blocks)
    (hstacked : Stacked pool base live d memory sz)
    (hput : Put pool base live d sz (below sp buf.length) buf memory after)
    (hpos : 0 < buf.length) (hlen : buf.length < 2 ^ 32) :
    Stack after d sz (below sp buf.length) ((below sp buf.length, buf) :: blocks) := by
  have hbase : kernbase = 2147483648 := rfl
  have hsz := hstacked.building.sized.below
  have hhigh := hstack.high
  obtain ⟨hlow, hend⟩ := hput.confined hstacked hstack hpos hlen
  have hfour : below sp buf.length % 4 = 0 := by
    rw [below]
    omega
  refine ⟨hlow, by omega, hfour, ?_, ?_, ?_, ?_⟩
  · intro block hblock
    obtain rfl | hblock := mem_cons.1 hblock
    · exact ⟨le_rfl, by dsimp only; omega⟩
    · have hinside := hstack.inside block hblock
      exact ⟨by omega, hinside.2⟩
  · intro block hblock
    obtain rfl | hblock := mem_cons.1 hblock
    · exact hfour
    · exact hstack.starts block hblock
  · refine pairwise_cons.2 ⟨?_, hstack.ordered⟩
    intro block hblock
    have hinside := hstack.inside block hblock
    dsimp only
    omega
  · intro block hblock
    obtain rfl | hblock := mem_cons.1 hblock
    · exact hput.written.bytesAt hput.copies.tables (by omega)
    · have hinside := hstack.inside block hblock
      rw [hput.copies.bytesAt_above hstacked.aligned hlow (by omega) hinside.2]
      exact hstack.held block hblock

def CString.block (arg : CString) : List UInt8 :=
  arg.bytes ++ [0]

theorem CString.length_block (arg : CString) : arg.block.length = arg.bytes.length + 1 :=
  length_append

/-- The strings that have been pushed, and their addresses. -/
structure Pushed (memory : Memory) (d sz sp : ℕ) (argv : List CString) (ustack : List ℕ)
    (blocks : List (ℕ × List UInt8)) : Prop where
  stack : Stack memory d sz sp blocks
  few : ustack.length ≤ maxArg
  addresses : blocks.reverse.map Prod.fst = ustack
  strings : blocks.reverse.map Prod.snd = argv.map CString.block

theorem Pushed.snoc (hpushed : Pushed memory d sz sp argv ustack blocks)
    {arg : CString} (hfew : ¬ ustack.length ≥ maxArg)
    (hstack : Stack after d sz start ((start, arg.block) :: blocks)) :
    Pushed after d sz start (argv ++ [arg]) (ustack ++ [start]) ((start, arg.block) :: blocks) := by
  refine ⟨hstack, ?_, ?_, ?_⟩
  · rw [length_append, length_singleton]
    omega
  · rw [reverse_cons, map_append, hpushed.addresses]
    rfl
  · rw [reverse_cons, map_append, hpushed.strings, map_append]
    rfl

theorem pushArgs_leads (hnew : d ∉ live) {before : List CString}
    (hstacked : Stacked pool base live d memory sz)
    (hpushed : Pushed memory d sz sp before ustack blocks) :
    Attempt.Leads (checked = false) (pushArgs checked d argv sp ustack) memory
      (GivenUp pool base live d) (fun done after => Stacked pool base live d after sz ∧
        ∃ blocks, Pushed after d sz done.1 (before ++ argv) done.2 blocks) := by
  induction argv generalizing before ustack blocks sp memory with
  | nil =>
    rw [append_nil]
    exact .pure ⟨hstacked, blocks, hpushed⟩
  | cons arg rest ih =>
    rw [pushArgs]
    by_cases hmany : ustack.length ≥ maxArg
    · rw [if_pos hmany]
      exact .giveUp hstacked.building.givenUp
    · rw [if_neg hmany, ← CString.block, ← arg.length_block]
      have hshort : arg.block.length < 2 ^ 32 := by
        rw [arg.length_block]
        exact arg.short
      apply (push_leads hstacked hnew (below_lt ..) hshort).bind
      intro _ after hput
      have hpos : 0 < arg.block.length := by
        rw [arg.length_block]
        exact Nat.succ_pos _
      have hstack := hpushed.stack.push hstacked hput hpos hshort
      have hnext := ih hput.stacked (hpushed.snoc hmany hstack)
      rwa [append_assoc] at hnext

theorem length_words (words : List ℕ) : (words.flatMap (toBytes 4)).length = words.length * 4 := by
  induction words with
  | nil => rfl
  | cons word rest ih =>
    rw [flatMap_cons, length_append, length_toBytes, ih, length_cons]
    omega

theorem length_frame (sp : ℕ) (ustack : List ℕ) :
    (frame sp ustack).length = 3 + ustack.length + 1 := by
  rw [frame, length_append, length_append]
  rfl

/-- Where everything is aligned, there is nothing to round. -/
theorem subtract_eq_below (hsp : sp % 4 = 0) (hlen : len % 4 = 0) :
    subtract sp len = below sp len := by
  rw [subtract, below]
  omega

/-- The words at the end of the stack: a return address, the number of arguments, the address
of the array and the array. -/
def callFrame (esp : ℕ) (ustack : List ℕ) : List ℕ :=
  [0xffffffff, ustack.length, esp + 12] ++ ustack ++ [0]

/-- The stack of a new program. -/
structure Laid (memory : Memory) (d sz esp : ℕ) (argv : List CString) (ustack : List ℕ)
    (blocks : List (ℕ × List UInt8)) : Prop where
  stack : Stack memory d sz esp ((esp, (callFrame esp ustack).flatMap (toBytes 4)) :: blocks)
  addresses : blocks.reverse.map Prod.fst = ustack
  strings : blocks.reverse.map Prod.snd = argv.map CString.block

/-- The frame is pushed. -/
theorem Pushed.laid (hpushed : Pushed memory d sz sp argv ustack blocks)
    (hstacked : Stacked pool base live d memory sz)
    (hput : Put pool base live d sz (subtract sp ((3 + ustack.length + 1) * 4))
      ((frame sp ustack).flatMap (toBytes 4)) memory after) :
    Laid after d sz (subtract sp ((3 + ustack.length + 1) * 4)) argv ustack blocks := by
  have hfew := hpushed.few
  have hmax : maxArg = 32 := rfl
  have hlength : ((frame sp ustack).flatMap (toBytes 4)).length = (3 + ustack.length + 1) * 4 := by
    rw [length_words, length_frame]
  have hbelow : subtract sp ((3 + ustack.length + 1) * 4) =
      below sp ((frame sp ustack).flatMap (toBytes 4)).length := by
    rw [hlength]
    exact subtract_eq_below hpushed.stack.aligned (Nat.mul_mod_left _ _)
  rw [hbelow] at hput
  obtain ⟨hlow, hend⟩ := hput.confined hstacked hpushed.stack (by omega) (by omega)
  have hstack := hpushed.stack.push hstacked hput (by omega) (by omega)
  have hpointer : subtract sp ((ustack.length + 1) * 4) =
      subtract sp ((3 + ustack.length + 1) * 4) + 12 := by
    have hhigh := hpushed.stack.high
    have hsz := hstacked.building.sized.below
    have hbase : kernbase = 2147483648 := rfl
    rw [subtract, subtract]
    omega
  have hframe : frame sp ustack = callFrame (subtract sp ((3 + ustack.length + 1) * 4)) ustack := by
    rw [frame, callFrame, hpointer]
  rw [← hbelow, hframe] at hstack
  exact ⟨hstack, hpushed.addresses, hpushed.strings⟩

variable (kernel) in
/-- The image is whole, with its stack. -/
theorem image_leads (hpool : Freeable kernel pool) (hnew : d ∉ live) (content : List UInt8)
    (elf : Elfhdr) (argv : List CString) (hbuilding : Building pool base live d memory 0) :
    Attempt.Leads (checked = false) (image kernel checked content elf argv d) memory
      (GivenUp pool base live d) (fun done after => Stacked pool base live d after done.1 ∧
        ∃ ustack blocks, Laid after d done.1 done.2 argv ustack blocks) := by
  apply (loadSegments_leads hpool hnew _ _ hbuilding).bind
  intro size loaded hloaded
  apply (stackPages_leads hpool hnew hloaded).bind
  intro sz stacked hstacked
  have hfour : sz % 4 = 0 := by
    have haligned := hstacked.aligned
    omega
  have hempty : Pushed stacked d sz sz [] [] [] :=
    ⟨⟨Nat.le_add_right _ _, le_rfl, hfour, nofun, nofun, .nil, nofun⟩, Nat.zero_le _, rfl, rfl⟩
  apply (pushArgs_leads hnew hstacked hempty).bind
  rintro ⟨sp, ustack⟩ pushed ⟨hstacked', blocks, hpushed⟩
  have hshort : ((frame sp ustack).flatMap (toBytes 4)).length < 2 ^ 32 := by
    have hfew : ustack.length ≤ maxArg := hpushed.few
    have hmax : maxArg = 32 := rfl
    rw [length_words, length_frame]
    omega
  have hesp : subtract sp ((3 + ustack.length + 1) * 4) < 2 ^ 32 := by
    rw [subtract]
    omega
  apply (push_leads hstacked' hnew hesp hshort).bind
  intro _ after hput
  exact .pure ⟨hput.stacked, ustack, blocks, hpushed.laid hstacked' hput⟩

end Xv6Users.VirtualMemory
