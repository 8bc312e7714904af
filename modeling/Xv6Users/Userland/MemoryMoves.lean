import Mathlib

/-!
# The two `memmove`s

`memmove` of `user/ulib.c` copies upwards only, the one of `kernel/string.c`
downwards when the destination starts inside the source.  Addresses have 32
bits and wrap around.
-/

namespace Xv6Users.MemoryMoves

open Function

abbrev Address := BitVec 32
abbrev Memory := Address → UInt8

/-- `while(n-- > 0) *dst++ = *src++`. -/
def copyUp (memory : Memory) (dst src : Address) : ℕ → Memory
  | 0 => memory
  | n + 1 => copyUp (update memory dst (memory src)) (dst + 1) (src + 1) n

/-- `while(n-- > 0) *--d = *--s`. -/
def copyDown (memory : Memory) (d s : Address) : ℕ → Memory
  | 0 => memory
  | n + 1 => copyDown (update memory (d - 1) (memory (s - 1))) (d - 1) (s - 1) n

/-- `memmove` of the user library, whose length is a signed `int`. -/
def userMemmove (memory : Memory) (dst src : Address) (n : BitVec 32) : Memory :=
  copyUp memory dst src n.toInt.toNat

/-- `memmove` of the kernel, whose length is a `uint`. -/
def kernelMemmove (memory : Memory) (dst src : Address) (n : BitVec 32) : Memory :=
  if src < dst ∧ src + n > dst then copyDown memory (dst + n) (src + n) n.toNat
  else copyUp memory dst src n.toNat

/-- What a move is for: the destination holds the original source bytes and
nothing else changes. -/
def moved (memory : Memory) (dst src : Address) (n : ℕ) : Memory := fun a =>
  if (a - dst).toNat < n then memory (src + (a - dst)) else memory a

variable {memory : Memory} {dst src : Address} {n : ℕ}

/-- An upward copy repeats the first `dst - src` bytes of the source. -/
theorem copyUp_apply (hn : n < 2 ^ 32) (a : Address) :
    copyUp memory dst src n a =
      if (a - dst).toNat < n then
        memory (src + BitVec.ofNat 32 ((a - dst).toNat % (dst - src).toNat))
      else memory a := by
  induction n generalizing memory dst src with
  | zero => rfl
  | succ n ih =>
    have hdistance : dst + 1 - (src + 1) = dst - src := by bv_omega
    rw [copyUp, ih (by omega), hdistance]
    by_cases ha : a = dst
    · rw [ha, if_neg (by bv_omega), update_self, if_pos (by bv_omega)]
      simp
    · have hoffset : (a - dst).toNat = (a - (dst + 1)).toNat + 1 := by bv_omega
      rw [update_of_ne ha, hoffset]
      simp only [add_lt_add_iff_right]
      refine ite_congr rfl (fun hi => ?_) fun _ => rfl
      -- the byte read now is a source byte, or the copy of the first one
      generalize (a - (dst + 1)).toNat = i at hi
      generalize hk : (dst - src).toNat = k
      have hle : i % k ≤ i := Nat.mod_le i k
      rw [← Nat.mod_add_mod]
      by_cases hwrap : i % k + 1 = k
      · rw [hwrap, Nat.mod_self, show src + 1 + BitVec.ofNat 32 (i % k) = dst by bv_omega]
        simp
      · have hnext : (i % k + 1) % k = i % k + 1 := by
          rcases Nat.eq_zero_or_pos k with rfl | hpos
          · rw [Nat.mod_zero]
          · exact Nat.mod_eq_of_lt (by have := Nat.mod_lt i hpos; omega)
        rw [update_of_ne (by bv_omega), hnext]
        congr 1
        bv_omega

theorem add_succ_sub_one (p : Address) :
    p + BitVec.ofNat 32 (n + 1) - 1 = p + BitVec.ofNat 32 n := by
  bv_omega

theorem copyDown_eq_moved (hn : (dst - src).toNat + n < 2 ^ 32) :
    copyDown memory (dst + BitVec.ofNat 32 n) (src + BitVec.ofNat 32 n) n =
      moved memory dst src n := by
  induction n generalizing memory with
  | zero => rfl
  | succ n ih =>
    rw [copyDown, add_succ_sub_one, add_succ_sub_one, ih (by omega)]
    funext a
    unfold moved
    by_cases ha : (a - dst).toNat = n
    · have : a = dst + BitVec.ofNat 32 n := by bv_omega
      subst this
      rw [if_neg (by omega), if_pos (by omega), update_self]
      congr 1
      bv_omega
    · rw [update_of_ne (show a ≠ dst + BitVec.ofNat 32 n by bv_omega)]
      split
      · rw [if_pos (by omega), update_of_ne (by bv_omega)]
      · rw [if_neg (by omega)]

/-- Copying over equal bytes changes nothing, in either direction. -/
theorem copyUp_equal (hequal : ∀ i < n, memory (dst + BitVec.ofNat 32 i) =
    memory (src + BitVec.ofNat 32 i)) : copyUp memory dst src n = memory := by
  induction n generalizing dst src with
  | zero => rfl
  | succ n ih =>
    have hfirst : memory dst = memory src := by simpa using hequal 0 (by omega)
    rw [copyUp, ← hfirst, update_eq_self, ih]
    intro i hi
    have hnext := hequal (i + 1) (by omega)
    rwa [Nat.add_comm, BitVec.ofNat_add, ← BitVec.add_assoc, ← BitVec.add_assoc] at hnext

theorem copyDown_equal (hequal : ∀ i < n, memory (dst + BitVec.ofNat 32 i) =
      memory (src + BitVec.ofNat 32 i)) :
    copyDown memory (dst + BitVec.ofNat 32 n) (src + BitVec.ofNat 32 n) n = memory := by
  induction n with
  | zero => rfl
  | succ n ih =>
    rw [copyDown, add_succ_sub_one, add_succ_sub_one, ← hequal n (by omega), update_eq_self, ih]
    exact fun i hi => hequal i (by omega)

theorem offset_toNat {i : ℕ} (hi : i < 2 ^ 32) : (dst + BitVec.ofNat 32 i - dst).toNat = i := by
  bv_omega

/-- A memory that differs only inside the destination is the moved one exactly
if the destination holds the source. -/
theorem eq_moved_iff {after : Memory} (hn : n < 2 ^ 32)
    (hframe : ∀ a, n ≤ (a - dst).toNat → after a = memory a) :
    after = moved memory dst src n ↔
      ∀ i < n, after (dst + BitVec.ofNat 32 i) = memory (src + BitVec.ofNat 32 i) := by
  constructor
  · rintro rfl i hi
    rw [moved, offset_toNat (hi.trans hn), if_pos hi]
    congr 2
    bv_omega
  · intro h
    funext a
    unfold moved
    split
    · have ha := h (a - dst).toNat ‹_›
      rwa [BitVec.ofNat_toNat, BitVec.setWidth_eq, show dst + (a - dst) = a by bv_omega] at ha
    · exact hframe a (by omega)

theorem copyUp_eq_moved_iff (hn : n < 2 ^ 32) :
    copyUp memory dst src n = moved memory dst src n ↔
      ∀ i < n, memory (src + BitVec.ofNat 32 (i % (dst - src).toNat)) =
        memory (src + BitVec.ofNat 32 i) := by
  rw [eq_moved_iff hn]
  · refine forall₂_congr fun i hi => ?_
    rw [copyUp_apply hn, offset_toNat (hi.trans hn), if_pos hi]
  · intro a ha
    rw [copyUp_apply hn, if_neg (not_lt.2 ha)]

/-- The two moves leave the bytes they should exactly if copying upwards does
not change the source ahead of the copy: its bytes repeat with the distance
between the two places.  This holds in particular unless the destination starts
inside the source.  A length that is negative as an `int` moves nothing in the
user library. -/
theorem memmove_iff (memory : Memory) (dst src : Address) (n : BitVec 32) :
    userMemmove memory dst src n = moved memory dst src n.toNat ∧
        kernelMemmove memory dst src n = moved memory dst src n.toNat ↔
      if n.toNat < 2 ^ 31 then
        ∀ i < n.toNat, memory (src + BitVec.ofNat 32 (i % (dst - src).toNat)) =
          memory (src + BitVec.ofNat 32 i)
      else ∀ i < n.toNat, memory (dst + BitVec.ofNat 32 i) = memory (src + BitVec.ofNat 32 i) := by
  have hn : n.toNat < 2 ^ 32 := n.isLt
  have hself : BitVec.ofNat 32 n.toNat = n := by simp
  unfold userMemmove kernelMemmove
  by_cases hlt : n.toNat < 2 ^ 31
  · rw [if_pos hlt, BitVec.toInt_eq_toNat_of_lt (by omega), Int.toNat_natCast,
      copyUp_eq_moved_iff hn, and_iff_left_of_imp]
    intro h
    split
    · have hdown : (dst - src).toNat + n.toNat < 2 ^ 32 := by bv_omega
      simpa only [hself] using @copyDown_eq_moved memory dst src n.toNat hdown
    · exact (copyUp_eq_moved_iff hn).2 h
  · have hnone : n.toInt.toNat = 0 := by
      rw [BitVec.toInt_eq_toNat_cond, if_neg (by omega)]
      omega
    rw [if_neg hlt, hnone, copyUp, eq_moved_iff hn (fun a _ => rfl), and_iff_left_of_imp]
    intro h
    rw [← (eq_moved_iff hn fun a _ => rfl).2 h]
    split
    · simpa only [hself] using copyDown_equal h
    · exact copyUp_equal h

/-- Two bytes moved up by one: the user library copies the first one twice. -/
theorem userMemmove_overlap :
    let memory : Memory := fun a => UInt8.ofNat a.toNat
    userMemmove memory 2 1 2 3 = 1 ∧ kernelMemmove memory 2 1 2 3 = 2 ∧
      moved memory 2 1 2 3 = 2 := by
  decide +kernel

end Xv6Users.MemoryMoves
