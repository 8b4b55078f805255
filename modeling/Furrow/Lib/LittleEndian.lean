import Mathlib

set_option relaxedAutoImplicit false
set_option autoImplicit false

/-!
# Little-endian numbers

Numbers written as a fixed number of bytes, the least significant first.

## Main definitions

* `LittleEndian.bytes` — the `w` bytes of a number.
* `LittleEndian.value` — the number a byte string stands for.

## Main results

* `LittleEndian.value_bytes` — reading back what was written gives the number modulo `256 ^ w`.
* `LittleEndian.bytes_value`, `LittleEndian.eq_bytes` — writing what was read gives the bytes.
-/

namespace LittleEndian

/-- A byte has values. -/
instance byte_neZero : NeZero (256 : ℕ) := ⟨by decide⟩

/-- The `w` bytes of `n`, the least significant first. -/
def bytes : ℕ → ℕ → List (Fin 256)
  | 0, _ => []
  | w + 1, n => Fin.ofNat 256 n :: bytes w (n / 256)

/-- The number a byte string stands for. -/
def value : List (Fin 256) → ℕ
  | [] => 0
  | b :: bs => b.val + 256 * value bs

/-- The encoding at width `w` has `w` bytes. -/
@[simp] theorem length_bytes (w n : ℕ) : (bytes w n).length = w := by
  induction w generalizing n with
  | zero => rfl
  | succ w ih => simp [bytes, ih]

/-- Reading back what was written gives the number modulo `256 ^ w`. -/
theorem value_bytes (w n : ℕ) : value (bytes w n) = n % 256 ^ w := by
  induction w generalizing n with
  | zero => simp [bytes, value, Nat.mod_one]
  | succ w ih =>
    rw [bytes, value, ih, Fin.val_ofNat, pow_succ', Nat.mod_mul]

/-- Writing what was read gives the bytes. -/
theorem bytes_value (bs : List (Fin 256)) : bytes bs.length (value bs) = bs := by
  induction bs with
  | nil => rfl
  | cons b bs ih =>
    have hb : b.val < 256 := b.isLt
    have hlow : Fin.ofNat 256 (b.val + 256 * value bs) = b := by
      apply Fin.ext
      rw [Fin.val_ofNat]
      omega
    have hhigh : (b.val + 256 * value bs) / 256 = value bs := by omega
    rw [List.length_cons, bytes, value, hlow, hhigh, ih]

/-- The bytes of a number are those of what is left of it modulo `256 ^ w`. -/
theorem eq_bytes {w n : ℕ} {bs : List (Fin 256)} (hlen : bs.length = w)
    (hvalue : value bs = n % 256 ^ w) : bs = bytes w n := by
  have hself : bytes w (n % 256 ^ w) = bytes w n := by
    have h := bytes_value (bytes w n)
    rwa [length_bytes, value_bytes] at h
  rw [← hself, ← hvalue, ← hlen, bytes_value]

end LittleEndian
