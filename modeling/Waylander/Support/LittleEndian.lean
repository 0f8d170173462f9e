import Mathlib.Algebra.Order.Ring.Nat
import Mathlib.Data.List.Basic
import Mathlib.Tactic.Common

/-!
# Little-endian byte strings

A natural number is stored in a fixed number of bytes, least significant byte
first.  `toBytes` truncates a number that needs more bytes, as a narrowing copy
of an unsigned integer does; `ofBytes` reads any byte string back.  The two are
inverse to each other on numbers that fit.
-/

namespace LittleEndian

/-- The `k` low bytes of `n`, least significant byte first. -/
def toBytes : ℕ → ℕ → List (BitVec 8)
  | 0, _ => []
  | k + 1, n => BitVec.ofNat 8 n :: toBytes k (n / 256)

/-- The number whose bytes, least significant first, are `bytes`. -/
def ofBytes : List (BitVec 8) → ℕ
  | [] => 0
  | b :: bytes => b.toNat + 256 * ofBytes bytes

@[simp] theorem toBytes_length (k n : ℕ) : (toBytes k n).length = k := by
  induction k generalizing n with
  | zero => rfl
  | succ k ih => simp [toBytes, ih]

/-- Two numbers stored one after the other are one number. -/
theorem toBytes_append_toBytes (j k : ℕ) {a : ℕ} (ha : a < 256 ^ j) (b : ℕ) :
    toBytes j a ++ toBytes k b = toBytes (j + k) (a + 256 ^ j * b) := by
  induction j generalizing a with
  | zero =>
      obtain rfl : a = 0 := by simpa using ha
      simp [toBytes]
  | succ j ih =>
      have hpow : 256 ^ (j + 1) * b = 256 * (256 ^ j * b) := by
        rw [Nat.pow_succ', Nat.mul_assoc]
      have hlow : BitVec.ofNat 8 (a + 256 ^ (j + 1) * b) = BitVec.ofNat 8 a := by
        apply BitVec.eq_of_toNat_eq
        rw [hpow, BitVec.toNat_ofNat, BitVec.toNat_ofNat]
        omega
      have hhigh : (a + 256 ^ (j + 1) * b) / 256 = a / 256 + 256 ^ j * b := by
        rw [hpow]
        omega
      have ha' : a / 256 < 256 ^ j := by
        rw [Nat.pow_succ'] at ha
        omega
      rw [Nat.succ_add, toBytes, toBytes, hlow, hhigh, List.cons_append, ih ha']

theorem ofBytes_toBytes (k n : ℕ) : ofBytes (toBytes k n) = n % 256 ^ k := by
  induction k generalizing n with
  | zero => simp [toBytes, ofBytes, Nat.mod_one]
  | succ k ih =>
      rw [Nat.pow_succ', Nat.mod_mul, toBytes, ofBytes, ih]
      simp

theorem ofBytes_toBytes_of_lt {k n : ℕ} (h : n < 256 ^ k) :
    ofBytes (toBytes k n) = n := by
  rw [ofBytes_toBytes, Nat.mod_eq_of_lt h]

theorem ofBytes_lt (bytes : List (BitVec 8)) :
    ofBytes bytes < 256 ^ bytes.length := by
  induction bytes with
  | nil => simp [ofBytes]
  | cons b bytes ih =>
      have hb : b.toNat < 256 := b.isLt
      rw [ofBytes, List.length_cons, Nat.pow_succ']
      omega

theorem toBytes_ofBytes (bytes : List (BitVec 8)) :
    toBytes bytes.length (ofBytes bytes) = bytes := by
  induction bytes with
  | nil => rfl
  | cons b bytes ih =>
      have hb : b.toNat < 256 := b.isLt
      have hlow : BitVec.ofNat 8 (ofBytes (b :: bytes)) = b := by
        apply BitVec.eq_of_toNat_eq
        simp only [ofBytes, BitVec.toNat_ofNat]
        omega
      have hhigh : ofBytes (b :: bytes) / 256 = ofBytes bytes := by
        simp only [ofBytes]
        omega
      rw [List.length_cons, toBytes, hlow, hhigh, ih]

end LittleEndian
