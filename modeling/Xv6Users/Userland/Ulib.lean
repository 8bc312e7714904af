import Xv6Users.Core.ScannedText

/-!
# The user library

Strings, decimal conversion, line input and the tokeniser of `user/ulib.c`.  A
C string is the list of its bytes without the terminating NUL; a `char*` into a
larger object is the list of all bytes from that address on, terminators
included.  A routine that would read or write outside the memory it was given
returns `none`.
-/

namespace Xv6Users.Ulib

open ScannedText List Option

abbrev Byte := UInt8

variable {delimiter : Byte} {lines : List (List Byte)} {after delimiters text : List Byte}
  {sp string : Option (List Byte)} {value : ℤ} {capacity : ℕ}

def str (text : String) : List Byte :=
  text.toList.map fun c => UInt8.ofNat c.toNat

def colon : Byte := 58
def comma : Byte := 44
def newline : Byte := 10
def carriageReturn : Byte := 13

/-- Size of every string field and scratch buffer (`STRING_SIZE`). -/
def stringSize : ℕ := 32

/-- Wrap-around of a 32-bit signed `int`. -/
def int32 (value : ℤ) : ℤ :=
  Int.bmod value (2 ^ 32)

def cstr (buffer : List Byte) : List Byte :=
  buffer.takeWhile (· ≠ 0)

/-- `strcpy` into an array of `capacity` bytes, which must also hold the
terminator. -/
def strcpy (capacity : ℕ) (source : List Byte) : Option (List Byte) :=
  if source.length < capacity then some source else none

theorem strcpy_eq_some {source copy : List Byte} :
    strcpy capacity source = some copy ↔ source.length < capacity ∧ copy = source := by
  rw [strcpy, ite_none_right_eq_some, some_inj, eq_comm]

/-- `strcat` onto a string stored in an array of `capacity` bytes. -/
def strcat (capacity : ℕ) (destination source : List Byte) : Option (List Byte) :=
  strcpy capacity (destination ++ source)

/-- `strcmp`, which sees the terminator behind each string. -/
def strcmp : List Byte → List Byte → ℤ
  | [], [] => 0
  | [], d :: _ => 0 - d.toNat
  | c :: _, [] => c.toNat - 0
  | c :: p, d :: q => if c = d then strcmp p q else c.toNat - d.toNat

theorem strcmp_eq_zero {p q : List Byte} (hp : 0 ∉ p) (hq : 0 ∉ q) : strcmp p q = 0 ↔ p = q := by
  fun_induction strcmp p q with
  | case1 => simp
  | case2 d q =>
    have hd : d.toNat ≠ 0 := fun h => hq (by simp [← UInt8.toNat_inj, h])
    simpa using hd
  | case3 c p =>
    have hc : c.toNat ≠ 0 := fun h => hp (by simp [← UInt8.toNat_inj, h])
    simpa using hc
  | case4 c p q ih => simp_all
  | case5 c p d q hne =>
    have hvalue : c.toNat ≠ d.toNat := fun h => hne (UInt8.toNat_inj.1 h)
    simp only [cons.injEq, hne, false_and, iff_false]
    omega

def isEmptyString (string : List Byte) : Bool :=
  string.isEmpty

/-! ## Decimal conversion -/

def isDigit (c : Byte) : Bool :=
  48 ≤ c && c ≤ 57

def digitValue (c : Byte) : ℕ :=
  c.toNat - 48

def atoiLoop (n : ℤ) : List Byte → ℤ
  | [] => n
  | c :: rest =>
    if isDigit c then atoiLoop (int32 (n * 10 + c.toNat - 48)) rest else n

def atoi (s : List Byte) : ℤ :=
  atoiLoop 0 s

/-- The C `abs`, which leaves the least `int` negative. -/
def abs (n : ℤ) : ℤ :=
  if n < 0 then int32 (-n) else n

/-- The digit loop of `itoa`, least significant digit first.  C division
truncates towards zero, so a negative `n` yields non-positive remainders. -/
def itoaLoop (base : ℤ) : ℕ → ℤ → List Byte
  | 0, _ => []
  | fuel + 1, n =>
    if n = 0 then []
    else
      let r := n.tmod base
      let digit := if 10 ≤ r then 65 + (r - 10) else 48 + r
      UInt8.ofNat (digit % 256).toNat :: itoaLoop base fuel (n.tdiv base)

/-- `itoa`.  An `int` has at most 32 digits in any base from 2 on. -/
def itoa (value : ℤ) (buffer : List Byte) (base : ℤ) : List Byte :=
  if base < 2 ∨ 32 < base then buffer
  else
    let digits := itoaLoop base 32 (abs value)
    let digits := if digits.isEmpty then str "0" else digits
    let digits := if value < 0 ∧ base = 10 then digits ++ str "-" else digits
    digits.reverse

theorem int32_eq_self (hlow : 0 ≤ value) (hhigh : value < 2 ^ 31) : int32 value = value := by
  rw [int32, Int.bmod_eq_of_le] <;> omega

/-- Wrapping after every digit is wrapping once at the end. -/
theorem int32_digit_step (n d : ℤ) : int32 (int32 n * 10 + d - 48) = int32 (n * 10 + d - 48) := by
  simp only [int32]
  rw [add_sub_assoc, add_sub_assoc, ← Int.bmod_add_bmod, Int.bmod_mul_bmod, Int.bmod_add_bmod]

/-- The number denoted by the leading decimal digits of a string. -/
def decimalPrefix (s : List Byte) : ℕ :=
  (s.takeWhile isDigit).foldl (fun n c => n * 10 + digitValue c) 0

theorem sub_zeroDigit {c : Byte} (hc : isDigit c = true) : (c.toNat : ℤ) - 48 = digitValue c := by
  simp only [isDigit, Bool.and_eq_true, decide_eq_true_eq, UInt8.le_iff_toNat_le] at hc
  have hlow : 48 ≤ c.toNat := by simpa using hc.1
  simp only [digitValue]
  omega

theorem atoiLoop_eq (n : ℕ) (s : List Byte) :
    atoiLoop (int32 n) s =
      int32 ((s.takeWhile isDigit).foldl (fun n c => n * 10 + digitValue c) n : ℕ) := by
  induction s generalizing n with
  | nil => rfl
  | cons c rest ih =>
    by_cases hc : isDigit c = true
    · have hstep : int32 (int32 n * 10 + c.toNat - 48) =
          int32 ((n * 10 + digitValue c : ℕ) : ℤ) := by
        rw [int32_digit_step]
        congr 1
        have hdigit := sub_zeroDigit hc
        omega
      simp only [atoiLoop, hc, if_true, hstep, ih, takeWhile_cons, foldl_cons]
    · simp [atoiLoop, hc]

/-- `atoi` is the leading decimal number, wrapped to 32 bits. -/
theorem atoi_eq (s : List Byte) : atoi s = int32 (decimalPrefix s) :=
  atoiLoop_eq 0 s

/-- The character of a digit in any base: capital letters from ten on. -/
def digitChar (d : ℕ) : Byte :=
  UInt8.ofNat (if 10 ≤ d then 55 + d else 48 + d)

theorem digitChar_lt_ten {d : ℕ} (hd : d < 10) :
    isDigit (digitChar d) = true ∧ digitValue (digitChar d) = d := by
  interval_cases d <;> decide

theorem itoaLoop_nat {base : ℕ} (hlow : 2 ≤ base) (hhigh : base ≤ 32) (fuel n : ℕ)
    (hfuel : n < base ^ fuel) : itoaLoop base fuel n = (Nat.digits base n).map digitChar := by
  induction fuel generalizing n with
  | zero =>
    have hzero : n = 0 := by simpa using hfuel
    subst hzero
    simp [itoaLoop]
  | succ fuel ih =>
    by_cases hn : n = 0
    · subst hn
      simp [itoaLoop]
    · have hlt : n / base < base ^ fuel := by
        rw [Nat.div_lt_iff_lt_mul (by omega)]
        simpa [pow_succ] using hfuel
      have hmod : (n : ℤ).tmod base = ((n % base : ℕ) : ℤ) := rfl
      have hdiv : (n : ℤ).tdiv base = ((n / base : ℕ) : ℤ) := rfl
      have hdigit : n % base < base := Nat.mod_lt _ (by omega)
      rw [Nat.digits_def' (by omega) (Nat.pos_of_ne_zero hn), map_cons, ← ih _ hlt]
      simp only [itoaLoop, Nat.cast_eq_zero, hn, if_false, hmod, hdiv, digitChar]
      congr 2
      split_ifs <;> omega

def digitsText (base n : ℕ) : List Byte :=
  if n = 0 then str "0" else ((Nat.digits base n).map digitChar).reverse

theorem itoa_eq {base : ℕ} (hlow : 2 ≤ base) (hhigh : base ≤ 32) (hvalue : value.natAbs < 2 ^ 31)
    (buffer : List Byte) :
    itoa value buffer base =
      (if value < 0 ∧ base = 10 then str "-" else []) ++ digitsText base value.natAbs := by
  have habs : abs value = value.natAbs := by
    unfold abs
    split
    · rw [int32_eq_self (by omega) (by omega)]
      omega
    · omega
  have hfuel : value.natAbs < base ^ 32 :=
    hvalue.trans ((show 2 ^ 31 < 2 ^ 32 by norm_num).trans_le (Nat.pow_le_pow_left hlow 32))
  rw [itoa, if_neg (by omega), habs, itoaLoop_nat hlow hhigh 32 _ hfuel, digitsText]
  by_cases hzero : value = 0
  · simp [hzero, str]
  · have hdigits : ¬ value.natAbs = 0 := by omega
    have hten : (base : ℤ) = 10 ↔ base = 10 := by omega
    have hnonempty : ((Nat.digits base value.natAbs).map digitChar).isEmpty = false := by
      simp [Nat.digits_ne_nil_iff_ne_zero, hzero]
    simp only [hdigits, hten, hnonempty, if_false, Bool.false_eq_true]
    split
    · rw [reverse_append]
      rfl
    · rfl

/-- The text of digits, most significant first, has their value. -/
theorem foldl_digits {read : Byte → ℕ} {write : ℕ → Byte} (base : ℕ) (digits : List ℕ)
    (hdigits : ∀ d ∈ digits, read (write d) = d) :
    (digits.map write).reverse.foldl (fun n c => n * base + read c) 0 =
      Nat.ofDigits base digits := by
  induction digits with
  | nil => rfl
  | cons d rest ih =>
    have hrest := ih fun e he => hdigits e (.tail d he)
    have hd := hdigits d (by simp)
    simp only [map_cons, reverse_cons, foldl_append,
      foldl_cons, foldl_nil, hrest, hd, Nat.ofDigits_cons]
    ring

/-- Decimal text written by `itoa` is read back by `atoi`. -/
theorem atoi_itoa (hlow : 0 ≤ value) (hhigh : value < 2 ^ 31) (buffer : List Byte) :
    atoi (itoa value buffer 10) = value := by
  have htext : itoa value buffer 10 = _ :=
    itoa_eq (show 2 ≤ 10 by norm_num) (by norm_num) (by omega) buffer
  rw [htext, if_neg (by omega), nil_append, digitsText]
  by_cases hzero : value = 0
  · subst hzero
    decide
  rw [if_neg (by omega), atoi_eq]
  set digits := Nat.digits 10 value.natAbs with hdigits
  have hsmall : ∀ d ∈ digits, d < 10 := fun d hd =>
    Nat.digits_lt_base (by norm_num) hd
  have hall : (digits.map digitChar).reverse.takeWhile isDigit =
      (digits.map digitChar).reverse := by
    rw [takeWhile_eq_self_iff]
    intro c hc
    obtain ⟨d, hd, rfl⟩ := mem_map.1 (mem_reverse.1 hc)
    exact (digitChar_lt_ten (hsmall d hd)).1
  rw [decimalPrefix, hall,
    foldl_digits 10 digits fun d hd => (digitChar_lt_ten (hsmall d hd)).2, hdigits,
    Nat.ofDigits_digits, Int.natAbs_of_nonneg hlow, int32_eq_self hlow hhigh]

/-- A negative number is written with a leading minus sign, at which `atoi`
stops before the first digit. -/
theorem atoi_itoa_of_neg (hneg : value < 0) (buffer : List Byte) :
    atoi (itoa value buffer 10) = 0 := by
  rw [itoa, if_neg (by norm_num)]
  simp only [hneg, true_and, if_true, reverse_append]
  rfl

theorem itoaLoop_bytes (fuel : ℕ) (n : ℤ) :
    ∀ c ∈ itoaLoop 10 fuel n, 39 ≤ c.toNat ∧ c.toNat ≤ 57 := by
  induction fuel generalizing n with
  | zero => simp [itoaLoop]
  | succ fuel ih =>
    intro c hc
    by_cases hn : n = 0
    · simp [itoaLoop, hn] at hc
    · have hlow : -10 < n.tmod 10 := by
        have := Int.lt_tmod_of_pos n (show (0 : ℤ) < 10 by norm_num)
        omega
      have hhigh : n.tmod 10 < 10 := Int.tmod_lt_of_pos n (by norm_num)
      simp only [itoaLoop, hn, if_false, mem_cons] at hc
      rcases hc with rfl | hc
      · rw [if_neg (by omega),
          UInt8.toNat_ofNat_of_lt' (by simp only [UInt8.size]; omega)]
        omega
      · exact ih _ c hc

/-- Decimal text holds neither a colon, a newline nor a terminator, even for
the least `int`, whose digits are not digits. -/
theorem itoa_bytes (value : ℤ) : ∀ c ∈ itoa value [] 10, 39 ≤ c.toNat ∧ c.toNat ≤ 57 := by
  have hdigits : ∀ c ∈ (if (itoaLoop 10 32 (abs value)).isEmpty then str "0"
      else itoaLoop 10 32 (abs value)), 39 ≤ c.toNat ∧ c.toNat ≤ 57 := by
    intro c hc
    split at hc
    · rw [show str "0" = [48] from rfl, mem_singleton] at hc
      subst hc
      decide
    · exact itoaLoop_bytes 32 _ c hc
  intro c hc
  rw [itoa, if_neg (by norm_num)] at hc
  simp only [mem_reverse] at hc
  split at hc
  · rcases mem_append.1 hc with hc | hc
    · exact hdigits c hc
    · rw [show str "-" = [45] from rfl, mem_singleton] at hc
      subst hc
      decide
  · exact hdigits c hc

theorem length_itoaLoop (fuel : ℕ) (n : ℤ) (hn : n.natAbs < 10 ^ fuel) :
    (itoaLoop 10 fuel n).length = (Nat.digits 10 n.natAbs).length := by
  induction fuel generalizing n with
  | zero =>
    have hzero : n.natAbs = 0 := by simpa using hn
    simp [itoaLoop, hzero]
  | succ fuel ih =>
    by_cases hzero : n = 0
    · simp [itoaLoop, hzero]
    · have hdiv : (n.tdiv 10).natAbs = n.natAbs / 10 := Int.natAbs_tdiv n 10
      have hrest : (n.tdiv 10).natAbs < 10 ^ fuel := by
        rw [hdiv, Nat.div_lt_iff_lt_mul (by norm_num)]
        simpa [pow_succ] using hn
      rw [itoaLoop, if_neg hzero, length_cons, ih _ hrest, hdiv,
        Nat.digits_def' (by norm_num) (Int.natAbs_pos.2 hzero), length_cons]

/-- The number of bytes of a printed `int`: its digits, at least one, and the sign. -/
def decimalWidth (value : ℤ) : ℕ :=
  (if value < 0 then 1 else 0) + max 1 (Nat.digits 10 value.natAbs).length

theorem length_itoa (hlow : -2 ^ 31 ≤ value) (hhigh : value < 2 ^ 31) :
    (itoa value [] 10).length = decimalWidth value := by
  have habs : (abs value).natAbs = value.natAbs := by
    simp only [abs, int32, Int.bmod]
    split
    · omega
    · rfl
  have hloop := length_itoaLoop 32 (abs value) (by omega)
  rw [habs] at hloop
  have hzero : (str "0").length = 1 := rfl
  have hminus : (str "-").length = 1 := rfl
  rw [itoa, if_neg (by norm_num), decimalWidth]
  simp only [length_reverse, isEmpty_iff_length_eq_zero, hloop, and_true]
  split_ifs <;> (try rw [length_append]) <;> omega

theorem length_itoa_le (hlow : -2 ^ 31 ≤ value) (hhigh : value < 2 ^ 31) :
    (itoa value [] 10).length ≤ 11 := by
  have hdigits : (Nat.digits 10 value.natAbs).length ≤ 10 :=
    Nat.digits_length_le_iff (by norm_num) value.natAbs |>.mpr (by omega)
  rw [length_itoa hlow hhigh, decimalWidth]
  split_ifs <;> omega

/-! ## Console input -/

/-- The read loop of `gets`, with room for `room` more bytes.  Each element of
the input is the result of one `read(0, &c, 1)`: a byte, or `none` when it
returns less than 1. -/
def getsLoop : ℕ → List (Option Byte) → List Byte × List (Option Byte)
  | 0, stdin => ([], stdin)
  | _ + 1, [] => ([], [])
  | _ + 1, none :: stdin => ([], stdin)
  | room + 1, some c :: stdin =>
    if c = newline ∨ c = carriageReturn then ([c], stdin)
    else
      let next := getsLoop room stdin
      (c :: next.1, next.2)

/-- `gets(buf, max)`: the C string left in `buf` and the remaining input. -/
def gets (stdin : List (Option Byte)) (max : ℕ) : List Byte × List (Option Byte) :=
  let input := getsLoop (max - 1) stdin
  (cstr input.1, input.2)

/-- `buf[strlen(buf)-1] = '\0'`, which writes before the buffer when the string
is empty. -/
def removeNewline (buffer : List Byte) : Option (List Byte) :=
  if buffer.isEmpty then none else some buffer.dropLast

/-! ## The tokeniser -/

def skipDelimiters (delimiters : List Byte) : List Byte → Option (List Byte)
  | [] => none
  | c :: rest =>
    if c ∈ delimiters then skipDelimiters delimiters rest
    else some (c :: rest)

/-- `strtok` with its static cursor `sp` made explicit.  The result is the
token pointer, after the terminator has been written over the delimiter, and
the new cursor.  A cursor left by an unfinished scan takes precedence over
`string`. -/
def strtok (delimiters : List Byte) (sp string : Option (List Byte)) :
    Option (Option (List Byte) × Option (List Byte)) :=
  match sp.or string with
  | none => some (none, none)
  | some memory => do
    let start ← skipDelimiters delimiters memory
    if start.head? = some 0 then some (none, none)
    else
      let found ← scanUntil (fun c => c ∈ delimiters || c == 0) start
      match found.2 with
      | [] => none
      | symbol :: after =>
        if symbol = 0 then some (some start, some (symbol :: after))
        else some (some (found.1 ++ 0 :: after), some after)

/-- `token = strtok(string, d); while(token != NULL) token = strtok(NULL, d)`:
all tokens of one scan. -/
def scanTokens (delimiters : List Byte) :
    ℕ → Option (List Byte) → Option (List Byte) → Option (List (List Byte))
  | 0, _, _ => none
  | fuel + 1, sp, string => do
    let result ← strtok delimiters sp string
    match result.1 with
    | none => some []
    | some token =>
      let tokens ← scanTokens delimiters fuel result.2 none
      some (token :: tokens)

/-- The tokens of a buffer, scanned from a finished tokeniser.  Every token
takes at least one byte, which bounds the number of calls. -/
def tokensOf (delimiters : List Byte) (memory : List Byte) : Option (List (List Byte)) :=
  scanTokens delimiters (memory.length + 1) none (some memory)

/-- Text a scan passes over whole: no delimiter and no terminator. -/
def Plain (delimiters text : List Byte) : Prop :=
  ∀ c ∈ text, c ∉ delimiters ∧ c ≠ 0

theorem Plain.scan (hplain : Plain delimiters text) :
    ∀ c ∈ text, (decide (c ∈ delimiters) || c == 0) = false := by
  intro c hc
  simp [hplain c hc]

theorem Plain.concat {c : Byte} (hplain : Plain delimiters text) (hdelim : c ∉ delimiters)
    (hnul : c ≠ 0) : Plain delimiters (text ++ [c]) := by
  intro d hd
  rcases mem_append.1 hd with hd | hd
  · exact hplain d hd
  · exact mem_singleton.1 hd ▸ ⟨hdelim, hnul⟩

theorem skipDelimiters_plain (hplain : Plain delimiters text) (hne : text ≠ []) (rest : List Byte) :
    skipDelimiters delimiters (text ++ rest) = some (text ++ rest) := by
  cases text with
  | nil => exact absurd rfl hne
  | cons c tail => simp [skipDelimiters, (hplain c (by simp)).1]

variable {line last : List Byte}

/-- One call of `strtok` at the start of a line that a delimiter ends. -/
theorem strtok_line {rest : List Byte}
    (hmem : sp.or string = some (line ++ delimiter :: rest)) (hplain : Plain delimiters line)
    (hne : line ≠ []) (hdelim : delimiter ∈ delimiters) (hzero : delimiter ≠ 0) :
    strtok delimiters sp string = some (some (line ++ 0 :: rest), some rest) := by
  have hskip := skipDelimiters_plain hplain hne (delimiter :: rest)
  have hscan := scanUntil_append hplain.scan
    (show (decide (delimiter ∈ delimiters) || delimiter == 0) = true by
      simp [hdelim]) rest
  obtain ⟨c, tail, rfl⟩ := exists_cons_of_ne_nil hne
  have hc : c ≠ 0 := (hplain c (by simp)).2
  rw [cons_append] at hskip hscan
  rw [strtok, hmem]
  simp [hskip, hscan, hc, hzero]

/-- The same for the last line of a buffer, which the terminator ends. -/
theorem strtok_last (hmem : sp.or string = some (line ++ 0 :: after))
    (hplain : Plain delimiters line) (hne : line ≠ []) :
    strtok delimiters sp string = some (some (line ++ 0 :: after), some (0 :: after)) := by
  have hskip := skipDelimiters_plain hplain hne (0 :: after)
  have hscan := scanUntil_append hplain.scan
    (show (decide ((0 : Byte) ∈ delimiters) || (0 : Byte) == 0) = true by
      simp) after
  obtain ⟨c, tail, rfl⟩ := exists_cons_of_ne_nil hne
  have hc : c ≠ 0 := (hplain c (by simp)).2
  rw [cons_append] at hskip hscan
  rw [strtok, hmem]
  simp [hskip, hscan, hc]

theorem strtok_end (hmem : sp.or string = some (0 :: after)) (hzero : (0 : Byte) ∉ delimiters) :
    strtok delimiters sp string = some (none, none) := by
  rw [strtok, hmem]
  simp [skipDelimiters, hzero]

def AtLine (line token : List Byte) : Prop :=
  ∃ beyond, token = line ++ 0 :: beyond

/-- A delimiter before the next token is skipped. -/
theorem strtok_delimiter {memory : List Byte} (hmem : delimiter ∈ delimiters)
    (hcursor : sp.or string = some (delimiter :: memory)) :
    strtok delimiters sp string = strtok delimiters (some memory) none := by
  simp [strtok, hcursor, skipDelimiters, hmem]

/-- The maximal runs without delimiters before the terminator, each with the
memory behind the byte that ends it; `run` is the one the memory goes on with. -/
def segments (delimiters : List Byte) : List Byte → List Byte → List (List Byte × List Byte)
  | _, [] => []
  | run, c :: rest =>
    if c ∈ delimiters ∨ c = 0 then
      (if run = [] then [] else [(run, rest)]) ++
        if c = 0 then [] else segments delimiters [] rest
    else segments delimiters (run ++ [c]) rest

/-- The token pointers to the segments: a terminator is written behind each one,
and the memory is unchanged from there on. -/
def tokensIn (delimiters memory : List Byte) : List (List Byte) :=
  (segments delimiters [] memory).map fun segment => segment.1 ++ 0 :: segment.2

/-- A scan yields the segments of the memory it starts in. -/
theorem scanTokens_run (hzero : 0 ∉ delimiters) {run memory : List Byte} {fuel : ℕ}
    (hmem : sp.or string = some (run ++ memory)) (hrun : Plain delimiters run)
    (hend : 0 ∈ memory) (hfuel : memory.length + 1 ≤ fuel) :
    scanTokens delimiters fuel sp string = some ((segments delimiters run memory).map
      fun segment => segment.1 ++ 0 :: segment.2) := by
  induction memory generalizing sp string fuel run with
  | nil => simp at hend
  | cons c rest ih =>
    obtain ⟨fuel, rfl⟩ : ∃ k, fuel = k + 2 := ⟨fuel - 2, by simp at hfuel; omega⟩
    rw [length_cons] at hfuel
    by_cases hnul : c = 0
    · subst hnul
      have hdone : strtok delimiters (some (0 :: rest)) none = some (none, none) :=
        strtok_end rfl hzero
      by_cases hempty : run = []
      · subst hempty
        simp [scanTokens, segments, strtok_end hmem hzero]
      · simp [scanTokens, segments, hempty, strtok_last hmem hrun hempty, hdone]
    · have hrest : 0 ∈ rest := (mem_cons.1 hend).resolve_left (Ne.symm hnul)
      by_cases hdelim : c ∈ delimiters
      · have hnext (k : ℕ) (hk : rest.length + 1 ≤ k) :=
          @ih (some rest) none [] k rfl (by simp [Plain]) hrest hk
        by_cases hempty : run = []
        · subst hempty
          rw [scanTokens, strtok_delimiter hdelim hmem, ← scanTokens, hnext _ (by omega)]
          simp [segments, hdelim, hnul]
        · rw [scanTokens, strtok_line hmem hrun hempty hdelim hnul]
          simp [segments, hempty, hdelim, hnul, hnext (fuel + 1) (by omega)]
      · rw [segments, if_neg (by simp [hdelim, hnul])]
        exact ih (by simpa using hmem) (hrun.concat hdelim hnul) hrest (by omega)

theorem scanTokens_eq (hzero : 0 ∉ delimiters) {memory : List Byte} {fuel : ℕ}
    (hmem : sp.or string = some memory) (hend : 0 ∈ memory) (hfuel : memory.length + 1 ≤ fuel) :
    scanTokens delimiters fuel sp string = some (tokensIn delimiters memory) := by
  rw [← nil_append memory] at hmem
  exact scanTokens_run hzero hmem (by simp [Plain]) hend hfuel

theorem segments_text {run : List Byte} (hrun : Plain delimiters run) (htext : 0 ∉ text) :
    (segments delimiters run (text ++ 0 :: after)).map Prod.fst =
      ((run ++ text).splitOnP (· ∈ delimiters)).filter (· ≠ []) := by
  induction text generalizing run with
  | nil =>
    rw [nil_append, append_nil, splitOnP_eq_singleton fun c hc => by simpa using (hrun c hc).1]
    by_cases hempty : run = [] <;> simp [segments, hempty]
  | cons c rest ih =>
    have hnul : c ≠ 0 := fun h => htext (by simp [h])
    have hrest : 0 ∉ rest := fun h => htext (.tail c h)
    rw [cons_append, segments]
    by_cases hdelim : c ∈ delimiters
    · rw [splitOnP_append_cons_of_forall_mem (fun d hd => by simpa using (hrun d hd).1) c
        (by simpa using hdelim)]
      have hnext := @ih [] (by simp [Plain]) hrest
      by_cases hempty : run = [] <;> simp_all
    · rw [if_neg (by simp [hdelim, hnul]), ih (hrun.concat hdelim hnul) hrest, append_assoc,
        singleton_append]

/-- The tokens of a terminated buffer are its lines that are not empty. -/
theorem tokensOf_text (hzero : delimiter ≠ 0) (htext : 0 ∉ text) (after : List Byte) :
    ∃ tokens, tokensOf [delimiter] (text ++ 0 :: after) = some tokens ∧
      List.Forall₂ AtLine ((text.splitOn delimiter).filter (· ≠ [])) tokens := by
  have hnil : (0 : Byte) ∉ [delimiter] := by simpa using hzero.symm
  refine ⟨_, scanTokens_eq hnil rfl (by simp) le_rfl, ?_⟩
  have hsegments : (segments [delimiter] [] (text ++ 0 :: after)).map Prod.fst =
      (text.splitOnP (· ∈ [delimiter])).filter (· ≠ []) := segments_text (by simp [Plain]) htext
  have hsplit : text.splitOn delimiter = text.splitOnP (· ∈ [delimiter]) := by
    unfold splitOn
    congr 1
    funext c
    rw [Bool.eq_iff_iff]
    simp
  rw [hsplit, ← hsegments]
  simp [tokensIn, AtLine]

/-- A new scan yields the segments of its string, each at its place and with one
byte written behind it, exactly if no earlier scan was left off, or if that one
has the same segments left. -/
theorem scanTokens_iff (hzero : 0 ∉ delimiters) (hcursor : ∀ cursor ∈ sp, 0 ∈ cursor)
    (htext : 0 ∉ text) (after : List Byte) {fuel : ℕ}
    (hfuel : (text ++ 0 :: after).length + (sp.getD []).length + 1 ≤ fuel) :
    scanTokens delimiters fuel sp (some (text ++ 0 :: after)) =
          some (tokensIn delimiters (text ++ 0 :: after)) ∧
        (segments delimiters [] (text ++ 0 :: after)).map Prod.fst =
          (text.splitOnP (· ∈ delimiters)).filter (· ≠ []) ↔
      ∀ cursor ∈ sp, tokensIn delimiters cursor = tokensIn delimiters (text ++ 0 :: after) := by
  have hruns : (segments delimiters [] (text ++ 0 :: after)).map Prod.fst =
    (text.splitOnP (· ∈ delimiters)).filter (· ≠ []) := segments_text (by simp [Plain]) htext
  rw [and_iff_left hruns]
  cases sp with
  | none =>
    rw [scanTokens_eq hzero rfl (by simp) (by simpa using hfuel)]
    simp
  | some cursor =>
    rw [scanTokens_eq hzero rfl (hcursor cursor rfl) (by rw [getD_some] at hfuel; omega)]
    simp

theorem scanTokens_iff_fresh :
    scanTokens (str ":") 9 none (some (str "a::b" ++ 0 :: [])) =
          some (tokensIn (str ":") (str "a::b" ++ 0 :: [])) ∧
        (segments (str ":") [] (str "a::b" ++ 0 :: [])).map Prod.fst =
          ((str "a::b").splitOnP (· ∈ str ":")).filter (· ≠ []) :=
  (scanTokens_iff (by decide +kernel) (by simp) (by decide +kernel) [] (by decide +kernel)).2
    (by simp)

/-- A scan of `w:x` that is left off after `w` hides the next string. -/
theorem strtok_abandoned :
    strtok (str ":") none (some (str "w:x" ++ [0])) =
        some (some (str "w" ++ 0 :: str "x" ++ [0]), some (str "x" ++ [0])) ∧
      scanTokens (str ":") 9 (some (str "x" ++ [0])) (some (str "a:b" ++ [0])) =
        some [str "x" ++ [0]] := by
  decide +kernel

theorem splitOn_lines (hlines : ∀ line ∈ lines, delimiter ∉ line) (hlast : delimiter ∉ last) :
    (lines.flatMap (· ++ [delimiter]) ++ last).splitOn delimiter = lines ++ [last] := by
  induction lines with
  | nil => simpa using splitOn_eq_singleton hlast
  | cons line rest ih =>
    have hrest := ih fun other hother =>
      hlines other (.tail line hother)
    rw [flatMap_cons, append_assoc, append_assoc, singleton_append,
      splitOn_append_cons_self_of_not_mem (hlines line (by simp)), hrest,
      cons_append]

/-- A buffer of non-empty lines, with or without a final delimiter, is cut into
exactly these lines. -/
theorem tokensOf_lines (hzero : delimiter ≠ 0) (after : List Byte)
    (hlines : ∀ line ∈ lines, line ≠ [] ∧ Plain [delimiter] line) (hlast : Plain [delimiter] last) :
    ∃ tokens, tokensOf [delimiter] (lines.flatMap (· ++ [delimiter]) ++ (last ++ 0 :: after)) =
        some tokens ∧
      List.Forall₂ AtLine (lines ++ if last = [] then [] else [last])
        tokens := by
  have hfree : ∀ {line}, Plain [delimiter] line → delimiter ∉ line ∧ 0 ∉ line := fun hplain =>
    ⟨fun hmem => (hplain delimiter hmem).1 (by simp),
      fun hmem => (hplain 0 hmem).2 rfl⟩
  have htext : 0 ∉ lines.flatMap (· ++ [delimiter]) ++ last := by
    rw [mem_append, mem_flatMap]
    rintro (⟨line, hline, hmem⟩ | hmem)
    · rcases mem_append.1 hmem with hmem | hmem
      · exact (hfree (hlines line hline).2).2 hmem
      · exact hzero (mem_singleton.1 hmem).symm
    · exact (hfree hlast).2 hmem
  obtain ⟨tokens, htokens, hall⟩ := tokensOf_text hzero htext after
  rw [splitOn_lines (fun line hline => (hfree (hlines line hline).2).1)
    (hfree hlast).1, filter_append, filter_eq_self.2
    fun line hline => by simpa using (hlines line hline).1] at hall
  refine ⟨tokens, by simpa using htokens, ?_⟩
  by_cases hempty : last = [] <;> simpa [hempty] using hall

section Records

variable {β γ : Type} {line : β → List Byte}

theorem mapM_of_atLine {parse : List Byte → Option γ} {value : β → γ}
    {items : List β} {tokens : List (List Byte)}
    (hparse : ∀ item ∈ items, ∀ beyond, parse (line item ++ 0 :: beyond) = some (value item))
    (htokens : List.Forall₂ AtLine (items.map line) tokens) :
    tokens.mapM parse = some (items.map value) := by
  induction items generalizing tokens with
  | nil =>
    cases htokens
    rfl
  | cons item items ih =>
    cases htokens with
    | cons hline hrest =>
      obtain ⟨beyond, rfl⟩ := hline
      simp [hparse item (by simp),
        ih (fun other hother => hparse other (by simp [hother])) hrest]

/-- A file of records, one on each line, is parsed record by record.  The last
line need not end in the delimiter. -/
theorem parse_lines (hzero : delimiter ≠ 0) {parse : List Byte → Option γ} {value : β → γ}
    {items last : List β} (hlast : last.length ≤ 1)
    (hlines : ∀ item ∈ items ++ last, line item ≠ [] ∧ Plain [delimiter] (line item))
    (hparse : ∀ item ∈ items ++ last, ∀ beyond,
      parse (line item ++ 0 :: beyond) = some (value item)) (after : List Byte) :
    ∃ tokens, tokensOf [delimiter] (items.flatMap (fun item => line item ++ [delimiter])
          ++ (last.flatMap line ++ 0 :: after)) = some tokens ∧
        tokens.mapM parse = some ((items ++ last).map value) := by
  have hitems : ∀ text ∈ items.map line, text ≠ [] ∧ Plain [delimiter] text := by
    intro text htext
    obtain ⟨item, hitem, rfl⟩ := mem_map.1 htext
    exact hlines item (mem_append_left last hitem)
  have htail : Plain [delimiter] (last.flatMap line) := by
    intro c hc
    obtain ⟨item, hitem, hmem⟩ := mem_flatMap.1 hc
    exact (hlines item (mem_append_right items hitem)).2 c hmem
  have hat : items.map line ++ (if last.flatMap line = [] then [] else [last.flatMap line]) =
        (items ++ last).map line := by
    match last, hlast with
    | [], _ => simp
    | [item], _ => simp [(hlines item (by simp)).1]
  obtain ⟨tokens, htokens, hforall⟩ := tokensOf_lines hzero after hitems htail
  rw [hat] at hforall
  exact ⟨tokens, by simpa [flatMap_map] using htokens,
    mapM_of_atLine hparse hforall⟩

/-- Lines built in buffers of one size: all of them fit, or none is kept. -/
theorem mapM_strcpy {items : List β} :
    items.mapM (fun item => strcpy capacity (line item)) = some lines ↔
      (∀ item ∈ items, (line item).length < capacity) ∧ lines = items.map line := by
  induction items generalizing lines with
  | nil => simp [eq_comm]
  | cons item items ih =>
    simp only [mapM_cons, bind_eq_bind, bind_eq_some_iff, ih, strcpy_eq_some]
    constructor
    · rintro ⟨_, ⟨hfits, rfl⟩, _, ⟨hrest, rfl⟩, hlines⟩
      cases hlines
      exact ⟨by simpa using ⟨hfits, hrest⟩, rfl⟩
    · rintro ⟨hfits, rfl⟩
      have hrest : ∀ other ∈ items, (line other).length < capacity :=
        fun other hother => hfits other (.tail item hother)
      exact ⟨_, ⟨hfits item (by simp), rfl⟩, _, ⟨hrest, rfl⟩, rfl⟩

/-- A file of such lines. -/
theorem flatten_mapM_strcpy {items : List β} {content : List Byte} :
    ((items.mapM fun item => strcpy capacity (line item)).bind fun lines =>
        some lines.flatten) = some content ↔
      (∀ item ∈ items, (line item).length < capacity) ∧ content = items.flatMap line := by
  simp only [bind_eq_some_iff, mapM_strcpy, some_inj]
  constructor
  · rintro ⟨_, ⟨hfits, rfl⟩, rfl⟩
    exact ⟨hfits, rfl⟩
  · rintro ⟨hfits, rfl⟩
    exact ⟨_, ⟨hfits, rfl⟩, rfl⟩

end Records

end Xv6Users.Ulib
