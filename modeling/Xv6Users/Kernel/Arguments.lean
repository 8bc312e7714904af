import Xv6Users.Core.LittleEndian

/-!
# Arguments of system calls

The functions of `kernel/syscall.c` that fetch an integer, a block of memory or a string
from a process.  Addresses are 32-bit words, and so is all arithmetic on them; an `int` is
a word that is read as a signed number where the source does so.
-/

namespace Xv6Users.Arguments

open LittleEndian Option

/-- What the checks know of a process: its size, its stack pointer and the bytes that a
pointer leads to, those of the kernel included. -/
structure Caller where
  sz : UInt32
  esp : UInt32
  byte : UInt32 → UInt8
  sz_lt : sz < 0x80000000

def Caller.word (caller : Caller) (addr : UInt32) : UInt32 :=
  UInt32.ofNat (ofBytes [caller.byte addr, caller.byte (addr + 1), caller.byte (addr + 2),
    caller.byte (addr + 3)])

variable (caller : Caller)

def fetchint (addr : UInt32) : Option UInt32 :=
  if addr ≥ caller.sz ∨ addr + 4 > caller.sz then none else some (caller.word addr)

/-- The returned `int`, and the pointer if it is set. -/
def fetchstr (addr : UInt32) : Int32 × Option UInt32 :=
  if addr ≥ caller.sz then (-1, none)
  else
    -- the loop visits the addresses below `ep` in order
    match (List.range (caller.sz - addr).toNat).find? fun length =>
      caller.byte (addr + UInt32.ofNat length) = 0 with
    | some length => (Int32.ofNat length, some addr)
    | none => (-1, some addr)

/-- Where the argument with a number lies. -/
def argAddr (n : Int32) : UInt32 :=
  caller.esp + 4 + 4 * n.toUInt32

def argint (n : Int32) : Option UInt32 :=
  fetchint caller (argAddr caller n)

def argptr (n size : Int32) : Option UInt32 :=
  match argint caller n with
  | none => none
  | some i =>
    if size < 0 ∨ i ≥ caller.sz ∨ i + size.toUInt32 > caller.sz then none else some i

def argstr (n : Int32) : Int32 × Option UInt32 :=
  match argint caller n with
  | none => (-1, none)
  | some addr => fetchstr caller addr

/-- Every byte of a range is an address of the process, also as an integer. -/
def Inside (start : UInt32) (count : ℕ) : Prop :=
  ∀ k < count, start.toNat + k < caller.sz.toNat

/-- A string with its terminator, which is its only zero byte. -/
structure IsString (start : UInt32) (length : ℕ) : Prop where
  inside : Inside caller start (length + 1)
  ends : caller.byte (start + UInt32.ofNat length) = 0
  running : ∀ k < length, caller.byte (start + UInt32.ofNat k) ≠ 0

variable {caller} {addr size : UInt32} {length : ℕ}

theorem toNat_sz_lt : caller.sz.toNat < 2 ^ 31 :=
  UInt32.lt_iff_toNat_lt.1 caller.sz_lt

/-- A range that starts in the process does not wrap around. -/
theorem toNat_add_of_lt (haddr : addr < caller.sz) (hsize : size.toNat < 2 ^ 31) :
    (addr + size).toNat = addr.toNat + size.toNat := by
  have hsz : caller.sz.toNat < 2 ^ 31 := toNat_sz_lt
  have hlt : addr.toNat < caller.sz.toNat := UInt32.lt_iff_toNat_lt.1 haddr
  rw [UInt32.toNat_add]
  apply Nat.mod_eq_of_lt
  omega

/-- The test that `fetchint` and `argptr` make. -/
theorem passes_iff (hsize : size.toNat < 2 ^ 31) :
    ¬ (addr ≥ caller.sz ∨ addr + size > caller.sz) ↔
      addr < caller.sz ∧ Inside caller addr size.toNat := by
  rw [not_or, ge_iff_le, gt_iff_lt, UInt32.not_le, UInt32.not_lt]
  apply and_congr_right
  intro haddr
  have hlt : addr.toNat < caller.sz.toNat := UInt32.lt_iff_toNat_lt.1 haddr
  rw [UInt32.le_iff_toNat_le, toNat_add_of_lt haddr hsize]
  constructor
  · intro hend k hk
    exact (Nat.add_lt_add_left hk _).trans_le hend
  · intro hinside
    by_cases hzero : size.toNat = 0
    · rw [hzero]
      exact hlt.le
    · have hlast := hinside (size.toNat - 1) (by omega)
      omega

theorem lt_sz_of_inside {count : ℕ} (hcount : 0 < count) (hinside : Inside caller addr count) :
    addr < caller.sz := by
  exact hinside 0 hcount

theorem fetchint_eq_some {value : UInt32} :
    fetchint caller addr = some value ↔ Inside caller addr 4 ∧ value = caller.word addr := by
  have hpasses : ¬ (addr ≥ caller.sz ∨ addr + 4 > caller.sz) ↔
      addr < caller.sz ∧ Inside caller addr 4 := passes_iff (by decide)
  rw [fetchint]
  split_ifs with hfails
  · constructor
    · exact nofun
    · rintro ⟨hinside, -⟩
      exact absurd hfails (hpasses.2 ⟨lt_sz_of_inside (by decide) hinside, hinside⟩)
  · rw [some_inj]
    constructor
    · intro hvalue
      exact ⟨(hpasses.1 hfails).2, hvalue.symm⟩
    · intro hvalue
      exact hvalue.2.symm

/-- A size that is not negative is the same word as an unsigned number. -/
theorem toNat_size {size : Int32} (hsize : 0 ≤ size) :
    size.toUInt32.toNat = size.toInt.toNat ∧ size.toUInt32.toNat < 2 ^ 31 := by
  have hnonneg : 0 ≤ size.toInt := Int32.le_iff_toInt_le.1 hsize
  have hvalue : size.toInt = (size.toUInt32.toNat : ℤ).bmod (2 ^ 32) := by
    rw [← Int32.toInt_toBitVec, BitVec.toInt_eq_toNat_bmod]
    rfl
  have hlt := size.toUInt32.toNat_lt
  rw [hvalue] at hnonneg ⊢
  rw [Int.bmod_def] at hnonneg ⊢
  split_ifs at hnonneg ⊢ <;> omega

theorem argptr_eq_some {n size : Int32} {pointer : UInt32} :
    argptr caller n size = some pointer ↔
      argint caller n = some pointer ∧ 0 ≤ size ∧ pointer < caller.sz ∧
        Inside caller pointer size.toInt.toNat := by
  rw [argptr]
  cases hword : argint caller n with
  | none =>
    constructor
    · exact nofun
    · exact fun hsome => nomatch hsome.1
  | some i =>
    dsimp only
    by_cases hsize : size < 0
    · rw [if_pos (.inl hsize)]
      constructor
      · exact nofun
      · exact fun hsome => absurd hsize (Int32.not_lt.2 hsome.2.1)
    · have hnonneg : 0 ≤ size := Int32.not_lt.1 hsize
      obtain ⟨hvalue, hlt⟩ := toNat_size hnonneg
      have hpasses : ¬ (i ≥ caller.sz ∨ i + size.toUInt32 > caller.sz) ↔
          i < caller.sz ∧ Inside caller i size.toInt.toNat := hvalue ▸ passes_iff hlt
      split_ifs with hfails
      · constructor
        · exact nofun
        · rintro ⟨hsame, -, hinside⟩
          rw [some_inj] at hsame
          subst hsame
          exact absurd (hfails.resolve_left hsize) (hpasses.2 hinside)
      · rw [not_or] at hfails
        constructor
        · rintro hsome
          rw [some_inj] at hsome
          subst hsome
          exact ⟨rfl, hnonneg, hpasses.1 hfails.2⟩
        · exact fun hsome => hsome.1

/-- The number of addresses that the loop of `fetchstr` visits. -/
theorem toNat_sz_sub (haddr : addr < caller.sz) :
    (caller.sz - addr).toNat = caller.sz.toNat - addr.toNat :=
  UInt32.toNat_sub_of_le _ _ (UInt32.le_of_lt haddr)

theorem isString_iff (haddr : addr < caller.sz) :
    (List.range (caller.sz - addr).toNat).find? (fun length =>
      caller.byte (addr + UInt32.ofNat length) = 0) = some length ↔
      IsString caller addr length := by
  rw [List.find?_range_eq_some, toNat_sz_sub haddr, List.mem_range]
  simp only [decide_eq_true_eq, Bool.not_eq_true', decide_eq_false_iff_not]
  constructor
  · rintro ⟨hends, hlength, hrunning⟩
    refine ⟨fun k hk => ?_, hends, hrunning⟩
    omega
  · intro hstring
    have hlast := hstring.inside length (Nat.lt_succ_self length)
    exact ⟨hstring.ends, by omega, hstring.running⟩

/-- The length of a string of the process is no negative `int`. -/
theorem IsString.toInt_length (hstring : IsString caller addr length) :
    (Int32.ofNat length).toInt = length := by
  have hlast := hstring.inside length (Nat.lt_succ_self length)
  have hsz : caller.sz.toNat < 2 ^ 31 := toNat_sz_lt
  apply Int32.toInt_ofNat_of_lt
  omega

theorem fetchstr_of_isString (hstring : IsString caller addr length) :
    fetchstr caller addr = (Int32.ofNat length, some addr) := by
  have haddr : addr < caller.sz := lt_sz_of_inside (Nat.succ_pos _) hstring.inside
  rw [fetchstr, if_neg (UInt32.not_le.2 haddr), (isString_iff haddr).2 hstring]

/-- Without a string the result is negative. -/
theorem fetchstr_of_forall (hnone : ∀ length, ¬ IsString caller addr length) :
    (fetchstr caller addr).1 = -1 := by
  rw [fetchstr]
  split_ifs with haddr
  · rfl
  · rw [ge_iff_le, UInt32.not_le] at haddr
    split
    next length hfound => exact absurd ((isString_iff haddr).1 hfound) (hnone length)
    next => rfl

/-- What a fetched string is: the result is its length, and never negative otherwise. -/
theorem fetchstr_spec :
    (0 ≤ (fetchstr caller addr).1 ↔ ∃ length, IsString caller addr length) ∧
      ∀ length, IsString caller addr length →
        (fetchstr caller addr).1.toInt = length ∧ (fetchstr caller addr).2 = some addr := by
  constructor
  · constructor
    · intro hsucceeds
      by_contra hnone
      rw [not_exists] at hnone
      rw [fetchstr_of_forall hnone] at hsucceeds
      exact absurd hsucceeds (by decide)
    · rintro ⟨length, hstring⟩
      rw [fetchstr_of_isString hstring, Int32.le_iff_toInt_le, hstring.toInt_length]
      exact Int.natCast_nonneg length
  · intro length hstring
    rw [fetchstr_of_isString hstring]
    exact ⟨hstring.toInt_length, rfl⟩

/-- A string argument is fetched through the pointer argument. -/
theorem argstr_spec (n : Int32) :
    (0 ≤ (argstr caller n).1 ↔
      ∃ pointer length, argint caller n = some pointer ∧ IsString caller pointer length) ∧
      ∀ pointer length, argint caller n = some pointer → IsString caller pointer length →
        (argstr caller n).1.toInt = length ∧ (argstr caller n).2 = some pointer := by
  rw [argstr]
  cases hword : argint caller n with
  | none =>
    constructor
    · constructor
      · intro hsucceeds
        have hfails : ¬ (0 : Int32) ≤ -1 := by decide
        exact absurd hsucceeds hfails
      · rintro ⟨pointer, length, hpointer, -⟩
        cases hpointer
    · exact nofun
  | some addr =>
    have hspec : (0 ≤ (fetchstr caller addr).1 ↔ ∃ length, IsString caller addr length) ∧
        ∀ length, IsString caller addr length →
          (fetchstr caller addr).1.toInt = length ∧ (fetchstr caller addr).2 = some addr :=
      fetchstr_spec
    constructor
    · refine hspec.1.trans ?_
      constructor
      · rintro ⟨length, hstring⟩
        exact ⟨addr, length, rfl, hstring⟩
      · rintro ⟨pointer, length, hpointer, hstring⟩
        rw [some_inj] at hpointer
        subst hpointer
        exact ⟨length, hstring⟩
    · intro pointer length hpointer hstring
      rw [some_inj] at hpointer
      subst hpointer
      exact hspec.2 length hstring

/-- Whatever the arguments are, the bytes that a successful call hands to the kernel lie
below the size of the process, and every such range is accepted. -/
theorem fetched_bytes_are_inside (caller : Caller) :
    (∀ addr value, fetchint caller addr = some value ↔
      Inside caller addr 4 ∧ value = caller.word addr) ∧
    (∀ n value, argint caller n = some value ↔
      Inside caller (argAddr caller n) 4 ∧ value = caller.word (argAddr caller n)) ∧
    (∀ n size pointer, argptr caller n size = some pointer ↔
      argint caller n = some pointer ∧ 0 ≤ size ∧ pointer < caller.sz ∧
        Inside caller pointer size.toInt.toNat) ∧
    (∀ addr, (0 ≤ (fetchstr caller addr).1 ↔ ∃ length, IsString caller addr length) ∧
      ∀ length, IsString caller addr length →
        (fetchstr caller addr).1.toInt = length ∧ (fetchstr caller addr).2 = some addr) ∧
    ∀ n, (0 ≤ (argstr caller n).1 ↔
      ∃ pointer length, argint caller n = some pointer ∧ IsString caller pointer length) ∧
      ∀ pointer length, argint caller n = some pointer → IsString caller pointer length →
        (argstr caller n).1.toInt = length ∧ (argstr caller n).2 = some pointer :=
  ⟨fun _ _ => fetchint_eq_some, fun _ _ => fetchint_eq_some, fun _ _ _ => argptr_eq_some,
    fun _ => fetchstr_spec, argstr_spec⟩

/-- A size that would wrap around is refused. -/
example :
    let caller : Caller := ⟨8192, 4096, fun _ => 255, by decide⟩
    argint caller 0 = some 0xffffffff ∧ argptr caller 0 1 = none ∧
      fetchint caller 8189 = none ∧ fetchint caller 0xfffffffe = none := by
  decide

end Xv6Users.Arguments
