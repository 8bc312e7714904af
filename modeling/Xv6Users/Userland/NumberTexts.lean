import Xv6Users.Userland.Ulib

/-!
# Numbers as text

What `itoa` of `user/ulib.c` writes in the bases 2 to 32.
-/

namespace Xv6Users.NumberTexts

open Ulib List

variable {value : ℤ} {base : ℕ}

def digitOf (c : Byte) : ℕ :=
  if c.toNat < 58 then c.toNat - 48 else c.toNat - 55

/-- The number that digit characters stand for. -/
def evaluate (base : ℕ) (text : List Byte) : ℕ :=
  text.foldl (fun n c => n * base + digitOf c) 0

theorem digitOf_digitChar {d : ℕ} (hd : d < 32) :
    digitOf (digitChar d) = d ∧ 48 ≤ (digitChar d).toNat := by
  interval_cases d <;> decide

theorem evaluate_digitsText (hlow : 2 ≤ base) (hhigh : base ≤ 32) (n : ℕ) :
    evaluate base (digitsText base n) = n := by
  unfold evaluate digitsText
  split
  · simp [str, digitOf, *]
  · rw [foldl_digits base _ fun d hd => (digitOf_digitChar ?_).1, Nat.ofDigits_digits]
    exact (Nat.digits_lt_base hlow hd).trans_le hhigh

theorem digitsText_bytes (hlow : 2 ≤ base) (hhigh : base ≤ 32) (n : ℕ) :
    ∀ c ∈ digitsText base n, 48 ≤ c.toNat := by
  unfold digitsText
  split
  · decide +kernel
  · intro c hc
    obtain ⟨d, hd, rfl⟩ := mem_map.1 (mem_reverse.1 hc)
    exact (digitOf_digitChar ((Nat.digits_lt_base hlow hd).trans_le hhigh)).2

/-- `abs` leaves the least `int` negative, and the remainders taken from it give
characters below the digits. -/
theorem itoa_least (hlow : 2 ≤ base) (hhigh : base ≤ 32) (buffer : List Byte) :
    ∃ c ∈ itoa (-2 ^ 31) buffer base, c.toNat < 48 ∧ c ≠ 45 := by
  have hbuffer : itoa (-2 ^ 31) buffer base = itoa (-2 ^ 31) [] base := by
    simp only [itoa, show ¬ ((base : ℤ) < 2 ∨ 32 < (base : ℤ)) by omega, if_false]
  rw [hbuffer]
  interval_cases base <;> decide +kernel

/-- `itoa` writes the digits of the absolute value, and a minus sign in base 10
only, for every `int` but the least one. -/
theorem itoa_iff (hvalue : -2 ^ 31 ≤ value ∧ value < 2 ^ 31) (hlow : 2 ≤ base)
    (hhigh : base ≤ 32) (buffer : List Byte) :
    itoa value buffer base =
          (if value < 0 ∧ base = 10 then str "-" else []) ++ digitsText base value.natAbs ∧
        evaluate base (digitsText base value.natAbs) = value.natAbs ↔
      value ≠ -2 ^ 31 := by
  rw [and_iff_left (evaluate_digitsText hlow hhigh _)]
  constructor
  · rintro htext rfl
    obtain ⟨c, hc, hsmall, hminus⟩ := itoa_least hlow hhigh buffer
    rw [htext, mem_append] at hc
    rcases hc with hc | hc
    · split at hc
      · exact hminus (mem_singleton.1 hc)
      · simp at hc
    · have := digitsText_bytes hlow hhigh _ c hc
      omega
  · intro hne
    exact itoa_eq hlow hhigh (by omega) buffer

theorem itoa_iff_255 :
    itoa 255 [] (16 : ℕ) =
        (if (255 : ℤ) < 0 ∧ 16 = 10 then str "-" else []) ++ digitsText 16 255 ∧
      evaluate 16 (digitsText 16 255) = 255 :=
  (itoa_iff (by norm_num) (by norm_num) (by norm_num) []).2 (by norm_num)

/-- The digits of the least `int` are taken below `'0'` instead of above it. -/
theorem itoa_least_ten :
    itoa (-2 ^ 31) [] 10 = str "-./,),(-*,(" := by
  decide +kernel

end Xv6Users.NumberTexts
