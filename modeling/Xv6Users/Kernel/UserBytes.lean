import Xv6Users.Core.LittleEndian
import Xv6Users.Kernel.PageRuns

/-!
# Bytes of user pages

The words of a page are 32-bit words of memory.  Bytes are read from them and written to
them, as `memmove` and `readi` do for the pages of a user.
-/

namespace Xv6Users.VirtualMemory

open Buffers LittleEndian

def Word.value (word : Word) : ℕ :=
  word.page * 4096 + word.rest * 8 + word.user.toNat * 4 + word.writable.toNat * 2 +
    word.present.toNat

def Word.ofValue (value : ℕ) : Word where
  page := value / 4096
  present := value % 2 = 1
  writable := value / 2 % 2 = 1
  user := value / 4 % 2 = 1
  rest := ⟨value / 8 % 512, Nat.mod_lt _ (by decide)⟩

theorem toNat_decide_mod (value : ℕ) : (decide (value % 2 = 1)).toNat = value % 2 := by
  obtain hzero | hone := Nat.mod_two_eq_zero_or_one value
  · simp [hzero]
  · simp [hone]

@[simp]
theorem Word.value_ofValue (value : ℕ) : (Word.ofValue value).value = value := by
  rw [Word.value, Word.ofValue]
  dsimp only
  rw [toNat_decide_mod, toNat_decide_mod, toNat_decide_mod]
  omega

def Word.bytes (word : Word) : List UInt8 :=
  toBytes 4 word.value

def Word.ofBytes (bytes : List UInt8) : Word :=
  Word.ofValue (LittleEndian.ofBytes bytes)

@[simp]
theorem Word.length_bytes (word : Word) : word.bytes.length = 4 :=
  length_toBytes 4 _

theorem Word.bytes_ofBytes {bytes : List UInt8} (hlength : bytes.length = 4) :
    (Word.ofBytes bytes).bytes = bytes := by
  rw [Word.bytes, Word.ofBytes, Word.value_ofValue, ← hlength, toBytes_ofBytes]

def wordOf (off : ℕ) : Index :=
  ⟨off / 4 % 1024, Nat.mod_lt _ (by decide)⟩

def byteAt (content : Index → Word) (off : ℕ) : UInt8 :=
  (content (wordOf off)).bytes.getD (off % 4) 0

/-- The page with bytes written over it; words that they do not touch stay. -/
def poke (content : Index → Word) (off : ℕ) (src : List UInt8) : Index → Word :=
  fun index =>
    if 4 * index.val < off + src.length ∧ off < 4 * index.val + 4 then
      Word.ofBytes
        (overlay (content index).bytes (off - 4 * index.val) (src.drop (4 * index.val - off)))
    else content index

theorem byteAt_poke (content : Index → Word) {off k : ℕ} (src : List UInt8) (hk : k < 4096) :
    byteAt (poke content off src) k =
      if off ≤ k ∧ k < off + src.length then src.getD (k - off) 0 else byteAt content k := by
  have hword : (wordOf k).val = k / 4 := Nat.mod_eq_of_lt (by omega)
  rw [byteAt, poke, hword]
  by_cases htouched : 4 * (k / 4) < off + src.length ∧ off < 4 * (k / 4) + 4
  · rw [if_pos htouched, Word.bytes_ofBytes (by simp),
      getD_overlay (by rw [Word.length_bytes]; omega), List.length_drop]
    by_cases hinside : off ≤ k ∧ k < off + src.length
    · rw [if_pos hinside, if_pos (by omega), List.getD_eq_getElem?_getD, List.getElem?_drop,
        List.getD_eq_getElem?_getD]
      congr 2
      omega
    · rw [if_neg hinside, if_neg (by omega)]
      rfl
  · rw [if_neg htouched, if_neg (by omega)]
    rfl

def Memory.store (memory : Memory) (page off : ℕ) (src : List UInt8) : Memory :=
  memory.fill page (poke (memory.words page) off src)

/-- What `uva2ka` returns for the page of an address: a page, or 0.  The source reads through
the pointer that `walkpgdir` returns, which is null where there is no table; the machine is
taken to stop there.  With `checked` it is a version that returns 0 instead. -/
def uva2ka (checked : Bool) (memory : Memory) (pgdir uva : ℕ) : Option (Option ℕ) :=
  match walkpgdir memory pgdir uva false with
  | (none, _) => if checked then some none else none
  | (some (pgtab, index), memory) =>
    let pte := memory.words pgtab index
    if !pte.present then some none
    else if !pte.user then some none
    else some (some pte.page)

/-- The loop of `copyout` over the bytes that are left. -/
def copyoutLoop (checked : Bool) (pgdir : ℕ) :
    ℕ → ℕ → List UInt8 → Memory → Option (ℤ × Memory)
  | 0, _, _, memory => some (0, memory)
  | rounds + 1, va, buf, memory =>
    if buf.length = 0 then some (0, memory)
    else
      match uva2ka checked memory pgdir (va / 4096) with
      | none => none
      | some none => some (-1, memory)
      | some (some page) =>
        let n := min (4096 - va % 4096) buf.length
        copyoutLoop checked pgdir rounds ((va / 4096 * 4096 + 4096) % 2 ^ 32) (buf.drop n)
          (memory.store page (va % 4096) (buf.take n))

/-- Every round copies a byte or more. -/
def copyout (checked : Bool) (memory : Memory) (pgdir va : ℕ) (buf : List UInt8) :
    Option (ℤ × Memory) := copyoutLoop checked pgdir buf.length va buf memory

end Xv6Users.VirtualMemory
