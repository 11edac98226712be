import Mathlib.Tactic

/-!
# Byte strings and big-endian numbers

Fixed-width big-endian encodings, with the two round trips between numbers and bytes, and a
reader that consumes a byte string from the front.
-/

abbrev Bytes := List UInt8

def saturatingAdd (width a b : Nat) : Nat := min (a + b) (2 ^ width - 1)

namespace Bytes

/-- The `width` low-order bytes of a number, most significant byte first. -/
def ofNat : Nat → Nat → Bytes
  | 0, _ => []
  | width + 1, n => ofNat width (n / 256) ++ [UInt8.ofNat n]

def toNat (bs : Bytes) : Nat := bs.foldl (fun n b => n * 256 + b.toNat) 0

@[simp] theorem length_ofNat (width n : Nat) : (ofNat width n).length = width := by
  induction width generalizing n with
  | zero => rfl
  | succ width ih => simp [ofNat, ih]

theorem toNat_concat (bs : Bytes) (b : UInt8) : toNat (bs ++ [b]) = toNat bs * 256 + b.toNat := by
  simp [toNat]

theorem toNat_append (as bs : Bytes) : toNat (as ++ bs) = toNat as * 256 ^ bs.length + toNat bs := by
  induction bs using List.reverseRecOn with
  | nil => simp [toNat]
  | append_singleton bs b ih =>
    rw [← List.append_assoc, toNat_concat, toNat_concat, ih, List.length_append, List.length_singleton, pow_succ]
    ring

theorem toNat_ofNat (width n : Nat) : toNat (ofNat width n) = n % 256 ^ width := by
  induction width generalizing n with
  | zero => simp [ofNat, toNat, Nat.mod_one]
  | succ width ih =>
    have hb : (UInt8.ofNat n).toNat = n % 256 := by simp
    rw [ofNat, toNat_concat, ih, hb, pow_succ, Nat.mul_comm (256 ^ width) 256, Nat.mod_mul]
    ring

theorem toNat_ofNat_of_lt {width n : Nat} (h : n < 256 ^ width) : toNat (ofNat width n) = n := by
  rw [toNat_ofNat, Nat.mod_eq_of_lt h]

theorem toNat_lt (bs : Bytes) : toNat bs < 256 ^ bs.length := by
  induction bs using List.reverseRecOn with
  | nil => simp [toNat]
  | append_singleton bs b ih =>
    have := b.toNat_lt
    rw [toNat_concat, List.length_append, List.length_singleton, pow_succ]
    omega

theorem ofNat_toNat (bs : Bytes) : ofNat bs.length (toNat bs) = bs := by
  induction bs using List.reverseRecOn with
  | nil => rfl
  | append_singleton bs b ih =>
    have hb := b.toNat_lt
    have hdiv : (toNat bs * 256 + b.toNat) / 256 = toNat bs := by omega
    have hlow : UInt8.ofNat (toNat bs * 256 + b.toNat) = b := by
      apply UInt8.toNat_inj.mp
      rw [UInt8.toNat_ofNat']
      omega
    rw [toNat_concat, List.length_append, List.length_singleton, ofNat, hdiv, ih, hlow]

theorem ofNat_bitVec {bs : Bytes} {width : Nat} (h : bs.length = width) :
    ofNat width (BitVec.ofNat (8 * width) (toNat bs)).toNat = bs := by
  subst h
  have hlt := bs.toNat_lt
  rw [show 256 = 2 ^ 8 from rfl, ← pow_mul] at hlt
  rw [BitVec.toNat_ofNat, Nat.mod_eq_of_lt hlt, ofNat_toNat]

theorem bitVec_ofNat {width : Nat} (x : BitVec (8 * width)) :
    BitVec.ofNat (8 * width) (toNat (ofNat width x.toNat)) = x := by
  have hlt := x.isLt
  rw [pow_mul, show 2 ^ 8 = 256 from rfl] at hlt
  rw [toNat_ofNat_of_lt hlt, BitVec.ofNat_toNat, BitVec.setWidth_eq]

end Bytes

namespace Postcard

/-- Seven bits a byte, least significant first. -/
def varintBytes : Nat → Nat → Bytes
  | 0, _ => []
  | size + 1, n =>
    if n < 128 then [UInt8.ofNat n] else UInt8.ofNat (n % 128 + 128) :: varintBytes size (n / 128)

/-- A 64-bit number takes at most ten bytes. -/
def varint (n : Nat) : Bytes := varintBytes 10 n
def bytes (bs : Bytes) : Bytes := varint bs.length ++ bs
def list {α : Type} (f : α → Bytes) (l : List α) : Bytes := varint l.length ++ l.flatMap f
def bool (b : Bool) : Bytes := [if b then 1 else 0]

end Postcard
