import Lilsync.Blake3
import Lilsync.Path

/-!
# Node identities

`identity.rs`: a node is known by its public key.  As text a key is 64
hexadecimal digits; the program writes lower-case ones, and reads what
`u8::from_str_radix` reads.
-/

namespace Lilsync

/-! ## Hexadecimal -/

/-- A hash in hexadecimal. -/
def toHex (hash : Hash) : Str :=
  hash.toList.flatMap fun (b : UInt8) ↦ [digit (b >>> 4), digit (b &&& 15)]
where
  digit (b : UInt8) : UInt8 := if b < 10 then 48 + b else 87 + b

/-- `char::to_digit(16)`. -/
def hexValue (c : UInt8) : Option UInt8 :=
  if 48 ≤ c ∧ c ≤ 57 then some (c - 48)
  else if 97 ≤ c ∧ c ≤ 102 then some (c - 87)
  else if 65 ≤ c ∧ c ≤ 70 then some (c - 55)
  else none

/-- `u8::from_str_radix(s, 16)` on two bytes: the first one may be a plus sign. -/
def hexByte (c c' : UInt8) : Option UInt8 :=
  if c = 43 then hexValue c'
  else match hexValue c, hexValue c' with
    | some hi, some lo => some (hi * 16 + lo)
    | _, _ => none

/-- The bytes that pairs of digits stand for. -/
def hexBytes : Str → Option (List UInt8)
  | c :: c' :: rest =>
    match hexByte c c', hexBytes rest with
    | some b, some bytes => some (b :: bytes)
    | _, _ => none
  | _ => some []

/-! ## Node ids -/

/-- `NodeId`. -/
structure NodeId where
  bytes : Vector UInt8 32
deriving DecidableEq

namespace NodeId

/-- `NodeId::to_string`. -/
def toText (id : NodeId) : Str := toHex id.bytes

/-- `NodeId::from_str`. -/
def fromText (value : Str) : Option NodeId :=
  if value.length ≠ 64 then none
  else match hexBytes value with
    | some bytes => if h : bytes.length = 32 then some ⟨⟨bytes.toArray, h⟩⟩ else none
    | none => none

/-! ## Reading what was written -/

/-- Every byte is read back from its two digits. -/
theorem hexByte_digits (b : UInt8) :
    hexByte (toHex.digit (b >>> 4)) (toHex.digit (b &&& 15)) = some b := by
  have h : ∀ n : Fin 256, hexByte (toHex.digit (UInt8.ofFin n >>> 4))
      (toHex.digit (UInt8.ofFin n &&& 15)) = some (UInt8.ofFin n) := by decide +kernel
  exact h b.toFin

theorem hexBytes_digits (bytes : List UInt8) : hexBytes (bytes.flatMap fun b : UInt8 ↦
    [toHex.digit (b >>> 4), toHex.digit (b &&& 15)]) = some bytes := by
  induction bytes with
  | nil => rfl
  | cons b bytes ih =>
    rw [List.flatMap_cons, List.cons_append, List.cons_append, List.nil_append, hexBytes,
      hexByte_digits, ih]

theorem length_toHex (hash : Hash) : (toHex hash).length = 64 := by
  rw [toHex, List.length_flatMap]
  simp

/-- The text of an id stands for it. -/
theorem fromText_toText (id : NodeId) : fromText id.toText = some id := by
  rw [fromText, toText, if_neg (not_not.mpr (length_toHex id.bytes)), toHex, hexBytes_digits]
  dsimp only
  rw [dif_pos id.bytes.length_toList]
  rfl

theorem toText_injective : Function.Injective toText := by
  intro id id' h
  have := congrArg fromText h
  rwa [fromText_toText, fromText_toText, Option.some.injEq] at this

end NodeId

end Lilsync
