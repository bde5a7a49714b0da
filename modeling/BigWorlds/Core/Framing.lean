/-
Byte strings one after the other, each behind its length in a fixed number of bytes, and what is left of them where the
stream is cut. Nothing here is about a particular reader.

- `ofBigEndian_bigEndian`: a number that fits is read back from its bytes;
- `take_framed_of_le`, `take_framed_of_lt`: a cut behind the first frame, and one inside of it;
- `whole`: how many of the frames a cut leaves whole.
-/
import Mathlib.Algebra.Order.Ring.Nat
import Mathlib.Data.List.Basic

namespace BigWorlds.Core

/-! ## Numbers as bytes -/

/-- the last `k` bytes of a number, the highest first -/
def bigEndian : (k n : ℕ) → List UInt8
  | 0, _ => []
  | k + 1, n => bigEndian k (n / 256) ++ [UInt8.ofNat (n % 256)]

def ofBigEndian (bytes : List UInt8) : ℕ := bytes.foldl (fun n byte => n * 256 + byte.toNat) 0

@[simp] theorem length_bigEndian (k n : ℕ) : (bigEndian k n).length = k := by
  induction k generalizing n with
  | zero => rfl
  | succ k ih => rw [bigEndian, List.length_append, ih, List.length_singleton]

theorem ofBigEndian_bigEndian {k n : ℕ} (h : n < 256 ^ k) : ofBigEndian (bigEndian k n) = n := by
  induction k generalizing n with
  | zero =>
    rw [pow_zero, Nat.lt_one_iff] at h
    rw [h]
    rfl
  | succ k ih =>
    have hdiv : n / 256 < 256 ^ k := Nat.div_lt_of_lt_mul (by rw [← pow_succ']; exact h)
    have hlast : (UInt8.ofNat (n % 256)).toNat = n % 256 :=
      (UInt8.toNat_ofNat' ).trans (Nat.mod_mod n 256)
    have hfront := ih hdiv
    unfold ofBigEndian at hfront ⊢
    rw [bigEndian, List.foldl_append, hfront, List.foldl_cons, List.foldl_nil, hlast]
    omega

/-! ## Frames -/

variable {k : ℕ} {bytes : List UInt8} {others : List (List UInt8)}

/-- the bytes behind their number, in `k` bytes -/
def frame (k : ℕ) (bytes : List UInt8) : List UInt8 := bigEndian k bytes.length ++ bytes

def framed (k : ℕ) (parts : List (List UInt8)) : List UInt8 := parts.flatMap (frame k)

@[simp] theorem length_frame : (frame k bytes).length = k + bytes.length := by
  rw [frame, List.length_append, length_bigEndian]

@[simp] theorem framed_nil : framed k [] = [] := rfl

@[simp] theorem framed_cons : framed k (bytes :: others) = frame k bytes ++ framed k others := rfl

/-- the number of frames that are whole in the first `n` bytes -/
def whole (k : ℕ) : (parts : List (List UInt8)) → (n : ℕ) → ℕ
  | [], _ => 0
  | bytes :: others, n =>
    if k + bytes.length ≤ n then whole k others (n - (k + bytes.length)) + 1 else 0

theorem whole_cons_of_le {n : ℕ} (h : k + bytes.length ≤ n) :
    whole k (bytes :: others) n = whole k others (n - (k + bytes.length)) + 1 := if_pos h

theorem whole_cons_of_lt {n : ℕ} (h : n < k + bytes.length) : whole k (bytes :: others) n = 0 :=
  if_neg (Nat.not_le.mpr h)

/-- a cut behind the first frame is one of the others -/
theorem take_framed_of_le {n : ℕ} (h : k + bytes.length ≤ n) :
    (framed k (bytes :: others)).take n = frame k bytes ++ (framed k others).take (n - (k + bytes.length)) := by
  rw [framed_cons, List.take_append, length_frame, List.take_of_length_le (by rw [length_frame]; exact h)]

/-- a cut behind the number of the first frame leaves a part of its bytes -/
theorem take_framed_of_lt {n : ℕ} (h : n < bytes.length) :
    (framed k (bytes :: others)).take (k + n) = bigEndian k bytes.length ++ bytes.take n := by
  have hlen : (bigEndian k bytes.length).length = k := length_bigEndian k bytes.length
  rw [framed_cons, frame, List.append_assoc, List.take_append, hlen, Nat.add_sub_cancel_left,
    List.take_of_length_le (by omega), List.take_append_of_le_length (Nat.le_of_lt h)]

end BigWorlds.Core
