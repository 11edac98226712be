import Kilogram.Lib.Bytes

/-!
# UTF-8 text

Well-formed byte sequences of UTF-8: the shortest form of each scalar value, no surrogates, nothing
beyond U+10FFFF.
-/

namespace Utf8

def within (lo hi b : UInt8) : Bool := lo ≤ b && b ≤ hi
def tail (b : UInt8) : Bool := within 0x80 0xBF b

def lead3 (a b : UInt8) : Bool := (a = 0xE0 && within 0xA0 0xBF b) || (within 0xE1 0xEC a && tail b) ||
    (a = 0xED && within 0x80 0x9F b) || (within 0xEE 0xEF a && tail b)

def lead4 (a b : UInt8) : Bool := (a = 0xF0 && within 0x90 0xBF b) || (within 0xF1 0xF3 a && tail b) ||
    (a = 0xF4 && within 0x80 0x8F b)

def valid : Bytes → Bool
  | [] => true
  | a :: rest =>
    if a < 0x80 then valid rest
    else
      match rest with
      | b :: rest =>
        if within 0xC2 0xDF a then tail b && valid rest
        else
          match rest with
          | c :: rest =>
            if lead3 a b then tail c && valid rest
            else
              match rest with
              | d :: rest => lead4 a b && tail c && tail d && valid rest
              | [] => false
          | [] => false
      | [] => false

theorem valid_of_ascii {bytes : Bytes} (h : ∀ b ∈ bytes, b < 128) : valid bytes = true := by
  induction bytes with
  | nil => rfl
  | cons b bytes ih =>
    unfold valid
    rw [if_pos (h b (.head _))]
    exact ih fun c hc => h c (.tail _ hc)

end Utf8

/-- A string: bytes that are well-formed UTF-8. -/
structure Text where
  bytes : Bytes
  valid : Utf8.valid bytes = true
  deriving DecidableEq

namespace Text

def ofBytes (bytes : Bytes) : Option Text :=
  if h : Utf8.valid bytes = true then some ⟨bytes, h⟩ else none

def length (t : Text) : Nat := t.bytes.length
def empty : Text := ⟨[], rfl⟩

@[simp] theorem ofBytes_bytes (t : Text) : ofBytes t.bytes = some t := by
  simp [ofBytes, t.valid]

theorem bytes_of_ofBytes {bytes : Bytes} {t : Text} (h : ofBytes bytes = some t) : t.bytes = bytes := by
  unfold ofBytes at h
  split at h
  · exact Option.some.inj h ▸ rfl
  · exact absurd h (by simp)

end Text
