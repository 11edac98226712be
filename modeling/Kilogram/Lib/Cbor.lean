import Kilogram.Lib.Bytes
import Kilogram.Lib.Except

/-!
# Heads of canonical CBOR items

An item starts with a byte of three bits of major type and five bits of argument.
-/

namespace Cbor

inductive Fault where
  | truncated | indefinite | noncanonical

/-- How many bytes follow the first one, by its low five bits. -/
def width (extra : Nat) : Option Nat :=
  if extra ≤ 23 then some 0
  else if extra = 24 then some 1
  else if extra = 25 then some 2
  else if extra = 26 then some 4
  else if extra = 27 then some 8
  else none

/-- The smallest argument that needs this form. -/
def least (extra : Nat) : Nat :=
  if extra = 24 then 24
  else if extra = 25 then 256
  else if extra = 26 then 65536
  else if extra = 27 then 4294967296
  else 0

structure Head where
  (major argument : Nat)

def readHead : Bytes → Except Fault (Head × Bytes)
  | [] => .error .truncated
  | first :: rest => do
    let extra := first.toNat % 32
    let w ← Except.okOr (width extra) .indefinite
    Except.failIf (rest.length < w) .truncated
    let n := if w = 0 then extra else Bytes.toNat (rest.take w)
    Except.failIf (n < least extra) .noncanonical
    return (⟨first.toNat / 32, n⟩, rest.drop w)

end Cbor
