import Xv6Users.Userland.Ulib

/-!
# `chmod`

`user/chmod.c` copies its mode and its files into the rows of one array, checks
that all files exist and then changes their modes one by one.  An octal mode is
read as a decimal number by `atoi` and regrouped by `convertOctalToDecimal` of
`user/permisionhandler.c`.
-/

namespace Xv6Users.Chmod

open Ulib List Option

/-- The result of an `int` operation, `none` on overflow. -/
def checked (value : ℤ) : Option ℤ :=
  if -2 ^ 31 ≤ value ∧ value < 2 ^ 31 then some value else none

/-- The loop of `pow`, with the rounds left. -/
def powLoop (base : ℤ) : ℕ → ℤ → Option ℤ
  | 0, result => some result
  | rounds + 1, result => do powLoop base rounds (← checked (result * base))

def pow (base exponent : ℤ) : Option ℤ :=
  powLoop base exponent.toNat 1

/-- The loop of `convertOctalToDecimal`. -/
def convertLoop : ℕ → ℤ → ℤ → ℤ → Option ℤ
  | 0, _, _, _ => none
  | fuel + 1, octalNumber, i, decimalNumber =>
    if octalNumber = 0 then some decimalNumber
    else do
      let term ← checked (octalNumber.tmod 10 * (← pow 8 i))
      convertLoop fuel (octalNumber.tdiv 10) (i + 1) (← checked (decimalNumber + term))

/-- `convertOctalToDecimal`.  An `int` has at most ten decimal digits. -/
def convertOctalToDecimal (octalNumber : ℤ) : Option ℤ :=
  convertLoop 11 octalNumber 0 0

def readIn (base : ℕ) (s : List Byte) : ℕ :=
  s.foldl (fun n c => n * base + digitValue c) 0

/-- The decimal digits of a number read in base 8. -/
def regroup (n : ℕ) : ℕ :=
  Nat.ofDigits 8 (Nat.digits 10 n)

theorem regroup_append {d : ℕ} (hd : d < 10) (n : ℕ) :
    regroup (n * 10 + d) = regroup n * 8 + d := by
  rcases Nat.eq_zero_or_pos (n * 10 + d) with hzero | hpos
  · obtain ⟨rfl, rfl⟩ : n = 0 ∧ d = 0 := by omega
    rfl
  · rw [regroup, Nat.digits_def' (by norm_num) hpos, Nat.ofDigits_cons,
      show (n * 10 + d) % 10 = d by omega, show (n * 10 + d) / 10 = n by omega, regroup]
    ring

theorem readIn_append (base : ℕ) (s : List Byte) (c : Byte) :
    readIn base (s ++ [c]) = readIn base s * base + digitValue c := by
  simp [readIn]

theorem readIn_eight {s : List Byte} (hdigits : ∀ c ∈ s, digitValue c < 10) :
    readIn 8 s = regroup (readIn 10 s) := by
  induction s using reverseRecOn with
  | nil => rfl
  | append_singleton s c ih =>
    rw [readIn_append, readIn_append, regroup_append (hdigits c (by simp)),
      ih fun d hd => hdigits d (by simp [hd])]

theorem pow_eight {i : ℕ} (hi : i ≤ 9) : pow 8 i = some ((8 ^ i : ℕ) : ℤ) := by
  interval_cases i <;> rfl

theorem checked_natCast {n : ℕ} (hn : n < 2 ^ 31) : checked n = some (n : ℤ) :=
  if_pos (by omega)

/-- In round `i` at most ten digits are left over all, and the sum is below
`9 / 7 * 8 ^ i`, so that nothing overflows. -/
theorem convertLoop_eq (fuel n i sum : ℕ) (hi : fuel + i = 10) (hn : n * 10 ^ i < 10000000000)
    (hsum : 7 * sum + 9 ≤ 9 * 8 ^ i) :
    convertLoop (fuel + 1) n i sum = some ((sum + 8 ^ i * regroup n : ℕ) : ℤ) := by
  induction fuel generalizing n i sum with
  | zero =>
    obtain rfl : n = 0 := by
      rw [show i = 10 by omega] at hn
      omega
    simp [convertLoop, regroup]
  | succ fuel ih =>
    rw [convertLoop]
    by_cases hzero : n = 0
    · simp [hzero, regroup]
    · have hpow : 8 ^ i ≤ 8 ^ 9 := Nat.pow_le_pow_right (by norm_num) (by omega)
      have hterm : n % 10 * 8 ^ i ≤ 9 * 8 ^ i := Nat.mul_le_mul_right _ (by omega)
      have hmod : (n : ℤ).tmod 10 = ((n % 10 : ℕ) : ℤ) := by
        simp [Int.tmod_eq_emod_of_nonneg]
      have hdiv : (n : ℤ).tdiv 10 = ((n / 10 : ℕ) : ℤ) := by
        simp [Int.tdiv_eq_ediv_of_nonneg]
      have hnext : n / 10 * 10 ^ (i + 1) < 10000000000 := by
        refine lt_of_le_of_lt ?_ hn
        rw [pow_succ', ← mul_assoc]
        exact Nat.mul_le_mul_right _ (by omega)
      have hrec := ih (n / 10) (i + 1) (sum + n % 10 * 8 ^ i) (by omega) hnext
        (by rw [pow_succ]; omega)
      rw [if_neg (by exact_mod_cast hzero), pow_eight (by omega), hmod, hdiv,
        bind_eq_bind, bind_some, ← Nat.cast_mul, checked_natCast (by omega),
        bind_some, ← Nat.cast_add, checked_natCast (by omega),
        bind_some, ← Nat.cast_succ, hrec]
      have hregroup : regroup n = regroup (n / 10) * 8 + n % 10 := by
        rw [← regroup_append (by omega), Nat.div_add_mod']
      rw [hregroup]
      congr 2
      ring

/-- A string of octal digits given to `chmod`, however many zeros it starts
with, becomes its value in base 8 without an overflow. -/
theorem convertOctalToDecimal_atoi {s : List Byte} (hoctal : ∀ c ∈ s, 48 ≤ c ∧ c ≤ 55)
    (hsmall : readIn 10 s < 2 ^ 31) : convertOctalToDecimal (atoi s) = some (readIn 8 s : ℤ) := by
  have hdigit : ∀ c ∈ s, isDigit c = true ∧ digitValue c < 10 := by
    intro c hc
    have := hoctal c hc
    simp only [isDigit, digitValue, Bool.and_eq_true, decide_eq_true_eq, UInt8.le_iff_toNat_le] at *
    simp at *
    omega
  have hatoi : atoi s = readIn 10 s := by
    rw [atoi_eq, decimalPrefix, takeWhile_eq_self_iff.2 fun c hc => (hdigit c hc).1]
    exact int32_eq_self (by omega) (by exact_mod_cast hsmall)
  have hloop := convertLoop_eq 10 (readIn 10 s) 0 0 rfl (by omega) (by norm_num)
  rw [convertOctalToDecimal, hatoi, readIn_eight fun c hc => (hdigit c hc).2]
  simpa using hloop

theorem convertOctalToDecimal_atoi_0755 :
    convertOctalToDecimal (atoi (str "0755")) = some (readIn 8 (str "0755") : ℤ) ∧
      readIn 8 (str "0755") = 493 :=
  ⟨convertOctalToDecimal_atoi (by decide +kernel) (by decide +kernel), rfl⟩

def store (memory : List Byte) (offset : ℕ) (bytes : List Byte) : List Byte :=
  memory.take offset ++ bytes ++ memory.drop (offset + bytes.length)

/-- `parseCommandLineArguments`, on the memory from the start of `arguments` on:
the rows it writes and the memory afterwards.  Row `i` gets `argv[i + 1]`. -/
def parseCommandLineArguments (numOfFiles : ℕ) (memory : List Byte) (argv : List (List Byte)) :
    Option (List ℕ × List Byte) :=
  if argv.length < 3 then none
  else
    let rows := 0 :: range' 1 numOfFiles
    some (rows, rows.foldl (fun memory i =>
      store memory (stringSize * i) (argv.getD (i + 1) [] ++ [0])) memory)

/-- The first loop of `main`: the rows read, and whether all files exist. -/
def checkLoop (stat : List Byte → Bool) (name : ℕ → List Byte) : List ℕ → List ℕ × Bool
  | [] => ([], true)
  | i :: files =>
    if stat (name i) then ((checkLoop stat name files).map (i :: ·) id) else ([i], false)

/-- The second loop: the rows read and the file names processed.  `change` says
whether the mode in row 0 could be read and was set. -/
def changeLoop (change : List Byte → List Byte → Bool) (name : ℕ → List Byte) :
    List ℕ → List ℕ × List (List Byte)
  | [] => ([], [])
  | i :: files =>
    if change (name 0) (name i) then
      (changeLoop change name files).map ([i, 0] ++ ·) (name i :: ·)
    else ([i, 0], [name i])

/-- `main`, with the rows of `arguments` it touches and the names it processes. -/
def main (stat : List Byte → Bool) (change : List Byte → List Byte → Bool)
    (memory : List Byte) (argv : List (List Byte)) : List ℕ × List (List Byte) :=
  let numOfFiles := argv.length - 2
  match parseCommandLineArguments numOfFiles memory argv with
  | none => ([], [])
  | some (written, memory) =>
    let name := fun i => cstr (memory.drop (stringSize * i))
    let files := range' 1 numOfFiles
    match checkLoop stat name files with
    | (read, false) => (written ++ read, [])
    | (read, true) => (changeLoop change name files).map (written ++ read ++ ·) id

/-- `arguments` is declared with `argc - 2` rows, but one more is written as soon
as there is a file: the rows used lie inside the array, and the files processed
are `argv[2]`, `argv[3]`, …, only if there are too few arguments to do anything. -/
theorem main_rows_iff (stat : List Byte → Bool) (change : List Byte → List Byte → Bool)
    (memory : List Byte) (argv : List (List Byte)) :
    (∀ i ∈ (main stat change memory argv).1, i < argv.length - 2) ∧
        (main stat change memory argv).2 <+: argv.drop 2 ↔ argv.length < 3 := by
  by_cases hargc : argv.length < 3
  · simp [main, parseCommandLineArguments, hargc]
  · simp only [hargc, iff_false, not_and]
    intro hinside
    have hlast : argv.length - 2 ∈ (main stat change memory argv).1 := by
      have hrow : argv.length - 2 ∈ 0 :: range' 1 (argv.length - 2) := by simp; omega
      simp only [main, parseCommandLineArguments, if_neg hargc]
      split
      · exact mem_append_left _ hrow
      · exact mem_append_left _ (mem_append_left _ hrow)
    exact absurd (hinside _ hlast) (lt_irrefl _)

/-- `chmod 755 a`: the array has the single row 0, and the file name goes to row 1. -/
theorem main_last_row :
    main (fun _ => true) (fun _ _ => true) (replicate 96 0) [str "chmod", str "755", str "a"] =
      ([0, 1, 1, 1, 0], [str "a"]) := by
  decide +kernel

end Xv6Users.Chmod
