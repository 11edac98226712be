import Kilogram.Vault.Keys

/-!
# Stored values of the projection namespace

A projection is the readable text of an event and the binding that ties it to its source.
-/

namespace Kilogram

structure ProjectionValue where
  text : Text
  binding : Bytes

namespace ProjectionValue

def encode (p : ProjectionValue) : Result Bytes := do
  Except.failIf (p.text.length > 4096 ∨ p.binding.length > 2304) (.bound "projection fields")
  return 5 :: (Bytes.ofNat 2 p.text.length ++ (p.text.bytes ++ (Bytes.ofNat 2 p.binding.length ++ p.binding)))

def decodeFields : Reader ProjectionValue := do
  let version ← Reader.byte
  Reader.failIf (version ≠ 5) (.integrity "projection version")
  let len ← Reader.u16
  Reader.failIf (len > 4096) (.integrity "projection text bound")
  let raw ← Reader.take len
  let text ← Reader.okOr (Text.ofBytes raw) (.integrity "projection UTF8")
  let len ← Reader.u16
  Reader.failIf (len > 2304) (.integrity "projection binding bound")
  let binding ← Reader.take len
  Reader.atEnd
  return ⟨text, binding⟩

def decode (raw : Bytes) : Result ProjectionValue := Reader.decode decodeFields raw

/-- The decoder accepts exactly what the encoder writes. -/
theorem decode_eq_ok {p : ProjectionValue} {raw : Bytes} : decode raw = .ok p ↔ p.encode = .ok raw := by
  simp only [decode, decodeFields, encode, Reader.decode_eq_ok, Reader.ok_iff, Except.ok_iff, existsAndEq,
    exists_const, not_or, not_not, Nat.not_lt, List.append_nil, and_true, true_and]
  constructor
  · rintro ⟨bytes, text, binding, rfl, -, ht, htext, -, hb, rfl⟩
    obtain rfl := Text.bytes_of_ofBytes htext
    exact ⟨⟨ht, hb⟩, rfl⟩
  · rintro ⟨⟨ht, hb⟩, rfl⟩
    exact ⟨p.text.bytes, p.text, p.binding, rfl, ht.trans_lt (by decide), ht, p.text.ofBytes_bytes,
      hb.trans_lt (by decide), hb, rfl⟩

end ProjectionValue
end Kilogram
