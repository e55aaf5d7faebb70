import Lilsync.Identity
import Lilsync.Lib.Radix
import Lilsync.Lib.Utf8

/-!
# Join tickets

`cli.rs`: a ticket is a version byte, the issuer, the secret of the invite and
the endpoints of the issuer, written as one number in base 62.

Arithmetic is checked: a result is `none` where an operation on `u32` would
overflow, a cast to `u8` would lose bits, or an index or an `unwrap` would
panic.  Where it is not `none`, the program computes the same.
-/

namespace Lilsync

open Lilsync.Lib Lilsync.Lib.Radix

/-- The result of an operation on `u32`. -/
def checkedU32 (n : Nat) : Option Nat := if n < 2 ^ 32 then some n else none

/-- `n as u8`. -/
def checkedU8 (n : Nat) : Option UInt8 := if n < 2 ^ 8 then some n.toUInt8 else none

def ticketVersion : UInt8 := 2

def ticketMinBytes : Nat := 1 + 32 + 32

def maxTicketEndpointBytes : Nat := 384

def ticketMaxBytes : Nat := ticketMinBytes + maxTicketEndpointBytes

def ticketMaxChars : Nat := ticketMaxBytes * 8 / 5

/-- `JoinTicket`. -/
structure JoinTicket where
  issuer : NodeId
  secret : Str
  endpoints : List Str

def base62Alphabet : Str := lit "0123456789ABCDEFGHIJKLMNOPQRSTUVWXYZabcdefghijklmnopqrstuvwxyz"

/-- The loop of `b62_divmod`, from the remainder `rem` on. -/
def b62DivmodFrom (rem : Nat) : List UInt8 → Option (List UInt8 × Nat)
  | [] => some ([], rem)
  | b :: bytes => do
    let scaled ← checkedU32 (rem * 256)
    let val ← checkedU32 (scaled + b.toNat)
    let quotient ← checkedU8 (val / 62)
    let (bytes, rem) ← b62DivmodFrom (val % 62) bytes
    pure (quotient :: bytes, rem)

/-- `b62_divmod`: the quotient, and the remainder. -/
def b62Divmod (bytes : List UInt8) : Option (List UInt8 × UInt8) := do
  let (bytes, rem) ← b62DivmodFrom 0 bytes
  let rem ← checkedU8 rem
  pure (bytes, rem)

/-- The loop of `ticket_base62_encode`, for so many turns at most: the digits from
the last one on. -/
def base62Digits : Nat → List UInt8 → Option (List UInt8)
  | 0, _ => none
  | turns + 1, n => do
    let (n, rem) ← b62Divmod n
    let digit ← base62Alphabet[rem.toNat]?
    if n.all (· == 0) then pure [digit]
    else do
      let digits ← base62Digits turns n
      pure (digit :: digits)

/-- `ticket_base62_encode`.  A turn of the loop takes more than five bits. -/
def ticketBase62Encode (bytes : List UInt8) : Option Str := do
  let digits ← base62Digits (8 * bytes.length + 1) bytes
  if Utf8.valid digits.reverse then pure digits.reverse else none

/-- The first loop of `b62_mul_add`, over the bytes from the last one on: the new
bytes, and the carry. -/
def b62MulAddFrom (carry : Nat) : List UInt8 → Option (List UInt8 × Nat)
  | [] => some ([], carry)
  | b :: bytes => do
    let (bytes, carry) ← b62MulAddFrom carry bytes
    let scaled ← checkedU32 (b.toNat * 62)
    let val ← checkedU32 (scaled + carry)
    let low ← checkedU8 (val &&& 0xFF)
    pure (low :: bytes, val >>> 8)

/-- The second loop of `b62_mul_add`; a `u32` lasts for four turns. -/
def insertCarry : Nat → Nat → List UInt8 → Option (List UInt8)
  | 0, carry, bytes => if carry > 0 then none else some bytes
  | turns + 1, carry, bytes =>
    if carry > 0 then do
      let low ← checkedU8 (carry &&& 0xFF)
      insertCarry turns (carry >>> 8) (low :: bytes)
    else some bytes

/-- `b62_mul_add`. -/
def b62MulAdd (bytes : List UInt8) (digit : UInt8) : Option (List UInt8) := do
  let (bytes, carry) ← b62MulAddFrom digit.toNat bytes
  insertCarry 4 carry bytes

/-- `b62_char_to_digit`. -/
def b62CharToDigit (ch : UInt8) : IoResult UInt8 :=
  if 48 ≤ ch ∧ ch ≤ 57 then .ok (ch - 48)
  else if 65 ≤ ch ∧ ch ≤ 90 then .ok (ch - 65 + 10)
  else if 97 ≤ ch ∧ ch ≤ 122 then .ok (ch - 97 + 36)
  else .error (.other (.invalidTicketChar ch))

/-- The loop of `ticket_base62_decode`. -/
def base62DecodeFrom (result : List UInt8) : Str → Option (IoResult (List UInt8))
  | [] => some (.ok result)
  | ch :: s =>
    match b62CharToDigit ch with
    | .error err => some (.error err)
    | .ok digit => do
      let result ← b62MulAdd result digit
      base62DecodeFrom result s

/-- `ticket_base62_decode`. -/
def ticketBase62Decode (s : Str) : Option (IoResult (List UInt8)) :=
  if s.isEmpty ∨ s.length > ticketMaxChars then
    some (.error (.other (.unexpectedTicketLength s.length)))
  else base62DecodeFrom [] s

/-- `try_into().unwrap()`, of a slice to 32 bytes. -/
def toBytes32 (bytes : List UInt8) : Option (Vector UInt8 32) :=
  if h : bytes.length = 32 then some ⟨⟨bytes⟩, h⟩ else none

def comma : UInt8 := 44

/-- `parse_join_ticket`. -/
def parseJoinTicket (value : Str) : Option (IoResult JoinTicket) := do
  match ← ticketBase62Decode value with
  | .error err => pure (.error err)
  | .ok bytes =>
    if bytes.length < ticketMinBytes then pure (.error (.other .ticketTooShort))
    else
      let version ← bytes[0]?
      if version ≠ ticketVersion then pure (.error (.other (.unsupportedTicketVersion version)))
      else
        let issuer ← toBytes32 ((bytes.drop 1).take 32)
        let secretArr ← toBytes32 ((bytes.drop 33).take 32)
        let endpointsRaw := bytes.drop 65
        if !Utf8.valid endpointsRaw then pure (.error (.other .ticketNotUtf8))
        else
          let endpoints := (endpointsRaw.splitOn comma).filter fun s ↦ !s.isEmpty
          pure (.ok ⟨⟨issuer⟩, toHex secretArr, endpoints⟩)

/-- What a ticket encodes. -/
def ticketBytes (nodeId : NodeId) (secretBytes : Vector UInt8 32) (joined : Str) : List UInt8 :=
  [ticketVersion] ++ nodeId.bytes.toList ++ secretBytes.toList ++ joined

/-- `encode_ticket`. -/
def encodeTicket (nodeId : NodeId) (secretBytes : Vector UInt8 32) (endpoints : List Str) :
    Option (IoResult Str) :=
  let joined := [comma].intercalate endpoints
  if joined.length > maxTicketEndpointBytes then
    some (.error (.other (.endpointListTooLong joined.length)))
  else do
    let ticket ← ticketBase62Encode (ticketBytes nodeId secretBytes joined)
    pure (.ok ticket)

/-! ## The base 62 digits of a number -/

section Base62

variable {bytes : List UInt8} {rem carry d v : Nat}

theorem checkedU32_of_lt {n : Nat} (h : n < 2 ^ 32) : checkedU32 n = some n := if_pos h

theorem checkedU8_of_lt {n : Nat} (h : n < 2 ^ 8) : checkedU8 n = some n.toUInt8 := if_pos h

theorem toNat_toUInt8 {n : Nat} (h : n < 2 ^ 8) : n.toUInt8.toNat = n := by
  rw [Nat.toUInt8, UInt8.toNat_ofNat', Nat.mod_eq_of_lt h]

/-- The character of a digit. -/
def digit62 (d : Nat) : UInt8 := base62Alphabet.getD d 0

theorem getElem?_base62Alphabet (h : d < 62) : base62Alphabet[d]? = some (digit62 d) := by
  have hall : ∀ d : Fin 62, base62Alphabet[d.val]? = some (digit62 d.val) := by decide +kernel
  exact hall ⟨d, h⟩

theorem digit62_ascii (h : d < 62) : digit62 d < 0x80 := by
  have hall : ∀ d : Fin 62, digit62 d.val < 0x80 := by decide +kernel
  exact hall ⟨d, h⟩

/-- Every digit is read back from its character. -/
theorem b62CharToDigit_digit62 (h : d < 62) : b62CharToDigit (digit62 d) = .ok d.toUInt8 := by
  have hall : ∀ d : Fin 62, b62CharToDigit (digit62 d.val) = .ok d.val.toUInt8 := by
    decide +kernel
  exact hall ⟨d, h⟩

/-- The digits of a number, from the last one on; zero has one digit. -/
def digitsOf (v : Nat) : List Nat := if v = 0 then [0] else Nat.digits 62 v

theorem digitsOf_eq (v : Nat) :
    digitsOf v = if v / 62 = 0 then [v % 62] else v % 62 :: digitsOf (v / 62) := by
  rw [digitsOf, digitsOf]
  rcases Nat.eq_zero_or_pos v with rfl | hv
  · rfl
  · rw [if_neg hv.ne', Nat.digits_def' (by decide) hv]
    split
    · next h => rw [h, Nat.digits_zero]
    · rfl

theorem lt_of_mem_digitsOf (h : d ∈ digitsOf v) : d < 62 := by
  rw [digitsOf] at h
  split at h
  · rw [List.mem_singleton.mp h]
    decide
  · exact Nat.digits_lt_base (by decide) h

theorem ofDigits_digitsOf (v : Nat) : Nat.ofDigits 62 (digitsOf v) = v := by
  rw [digitsOf]
  split
  · next h => rw [h, Nat.ofDigits_singleton]
  · exact Nat.ofDigits_digits 62 v

/-! ## Encoding -/

/-- Division by 62, from a remainder of the bytes before on. -/
theorem b62DivmodFrom_eq (hrem : rem < 62) (bytes : List UInt8) :
    ∃ quotient, b62DivmodFrom rem bytes =
        some (quotient, (rem * 256 ^ bytes.length + value bytes) % 62) ∧
      quotient.length = bytes.length ∧
      value quotient = (rem * 256 ^ bytes.length + value bytes) / 62 := by
  induction bytes generalizing rem with
  | nil =>
    refine ⟨[], ?_, rfl, ?_⟩
    · simp [b62DivmodFrom, Nat.mod_eq_of_lt hrem]
    · simp [Nat.div_eq_of_lt hrem]
  | cons b bytes ih =>
    have hb := b.toNat_lt
    obtain ⟨quotient, hgo, hlen, hvalue⟩ := ih (Nat.mod_lt (rem * 256 + b.toNat) (by decide))
    have hdiv : (rem * 256 + b.toNat) / 62 < 2 ^ 8 := by omega
    -- what is divided is 62 times the new byte in its place, and what the rest divides
    have hsplit : rem * 256 ^ (b :: bytes).length + value (b :: bytes) =
        62 * ((rem * 256 + b.toNat) / 62 * 256 ^ bytes.length) +
          ((rem * 256 + b.toNat) % 62 * 256 ^ bytes.length + value bytes) := by
      rw [value_cons, List.length_cons, pow_succ]
      calc rem * (256 ^ bytes.length * 256) + (b.toNat * 256 ^ bytes.length + value bytes)
          = (rem * 256 + b.toNat) * 256 ^ bytes.length + value bytes := by ring
        _ = (62 * ((rem * 256 + b.toNat) / 62) + (rem * 256 + b.toNat) % 62)
              * 256 ^ bytes.length + value bytes := by rw [Nat.div_add_mod]
        _ = _ := by ring
    refine ⟨((rem * 256 + b.toNat) / 62).toUInt8 :: quotient, ?_, ?_, ?_⟩
    · rw [b62DivmodFrom, checkedU32_of_lt (by omega), Option.bind_eq_bind, Option.bind_some,
        checkedU32_of_lt (by omega), Option.bind_eq_bind, Option.bind_some, checkedU8_of_lt hdiv,
        Option.bind_eq_bind, Option.bind_some, hgo, hsplit, Nat.mul_add_mod]
      rfl
    · rw [List.length_cons, List.length_cons, hlen]
    · rw [value_cons, hlen, hvalue, toNat_toUInt8 hdiv, hsplit,
        Nat.mul_add_div (by decide)]

/-- `b62_divmod` divides by 62. -/
theorem b62Divmod_eq (bytes : List UInt8) :
    ∃ quotient, b62Divmod bytes = some (quotient, (value bytes % 62).toUInt8) ∧
      value quotient = value bytes / 62 := by
  obtain ⟨quotient, hgo, -, hvalue⟩ := @b62DivmodFrom_eq 0 (by decide) bytes
  rw [Nat.zero_mul, Nat.zero_add] at hgo hvalue
  refine ⟨quotient, ?_, hvalue⟩
  have hrem := Nat.mod_lt (value bytes) (show 62 > 0 by decide)
  rw [b62Divmod, hgo, Option.bind_eq_bind, Option.bind_some]
  dsimp only
  rw [checkedU8_of_lt (by omega)]
  rfl

/-- The loop takes the digits off, as long as there are turns for all of them. -/
theorem base62Digits_eq {turns : Nat} (hpos : 0 < turns) (h : value bytes < 62 ^ turns) :
    base62Digits turns bytes = some ((digitsOf (value bytes)).map digit62) := by
  induction turns generalizing bytes with
  | zero => exact absurd hpos (Nat.lt_irrefl 0)
  | succ turns ih =>
    obtain ⟨quotient, hdivmod, hvalue⟩ := b62Divmod_eq bytes
    have hrem := Nat.mod_lt (value bytes) (show 62 > 0 by decide)
    have hdigit : base62Alphabet[(value bytes % 62).toUInt8.toNat]? =
        some (digit62 (value bytes % 62)) := by
      rw [toNat_toUInt8 (by omega), getElem?_base62Alphabet hrem]
    have hzero : quotient.all (· == 0) = true ↔ value bytes / 62 = 0 := by
      rw [← hvalue, value_eq_zero_iff, List.all_eq_true]
      simp only [beq_iff_eq]
    rw [base62Digits, hdivmod, Option.bind_eq_bind, Option.bind_some]
    dsimp only
    rw [hdigit, Option.bind_eq_bind, Option.bind_some, digitsOf_eq]
    by_cases hdiv : value bytes / 62 = 0
    · rw [if_pos (hzero.mpr hdiv), if_pos hdiv]
      rfl
    · have hlt : value quotient < 62 ^ turns := by
        rw [hvalue, Nat.div_lt_iff_lt_mul (by decide), ← pow_succ]
        exact h
      have hturns : 0 < turns := by
        by_contra hn
        rw [Nat.eq_zero_of_not_pos hn, Nat.pow_zero, hvalue] at hlt
        exact hdiv (Nat.lt_one_iff.mp hlt)
      rw [if_neg (mt hzero.mp hdiv), if_neg hdiv, ih hturns hlt, hvalue]
      rfl

/-- Every string of bytes is encoded by the digits of its number. -/
theorem ticketBase62Encode_eq (bytes : List UInt8) :
    ticketBase62Encode bytes = some ((digitsOf (value bytes)).map digit62).reverse := by
  have hlt : value bytes < 62 ^ (8 * bytes.length + 1) := by
    calc value bytes < 256 ^ bytes.length := value_lt bytes
      _ = 2 ^ (8 * bytes.length) := by rw [pow_mul]; rfl
      _ ≤ 62 ^ (8 * bytes.length) := Nat.pow_le_pow_left (by decide) _
      _ ≤ 62 ^ (8 * bytes.length + 1) := Nat.pow_le_pow_right (by decide) (Nat.le_succ _)
  have hascii : Utf8.valid ((digitsOf (value bytes)).map digit62).reverse := by
    refine Utf8.valid_of_ascii fun ch hch ↦ ?_
    obtain ⟨d, hd, rfl⟩ := List.mem_map.mp (List.mem_reverse.mp hch)
    exact digit62_ascii (lt_of_mem_digitsOf hd)
  rw [ticketBase62Encode, base62Digits_eq (Nat.succ_pos _) hlt, Option.bind_eq_bind,
    Option.bind_some, if_pos hascii]
  rfl

/-- Two digits hold eleven bits. -/
theorem pow_256_le_pow_62 {n k : Nat} (h : 8 * n ≤ 11 * k) : 256 ^ n ≤ 62 ^ (2 * k) := by
  calc 256 ^ n = 2 ^ (8 * n) := by rw [pow_mul]; rfl
    _ ≤ 2 ^ (11 * k) := Nat.pow_le_pow_right (by decide) h
    _ = (2 ^ 11) ^ k := pow_mul 2 11 k
    _ ≤ (62 ^ 2) ^ k := Nat.pow_le_pow_left (by decide) k
    _ = 62 ^ (2 * k) := (pow_mul 62 2 k).symm

/-- The text of a ticket is not longer than the longest one that is read. -/
theorem length_digitsOf_le (h : bytes.length ≤ ticketMaxBytes) :
    (digitsOf (value bytes)).length ≤ ticketMaxChars := by
  have hlen : bytes.length ≤ 449 := h
  rw [digitsOf]
  split
  · decide
  · rw [show ticketMaxChars = 2 * 359 from rfl, Nat.digits_length_le_iff (by decide)]
    exact (value_lt bytes).trans_le (pow_256_le_pow_62 (by omega))

/-! ## Decoding -/

/-- Multiplication by 62 from a carry on, in place: what does not fit is carried. -/
theorem b62MulAddFrom_eq (hcarry : carry < 62) (bytes : List UInt8) :
    ∃ low carry', b62MulAddFrom carry bytes = some (low, carry') ∧ carry' < 62 ∧
      low.length = bytes.length ∧
      carry' * 256 ^ bytes.length + value low = value bytes * 62 + carry := by
  induction bytes with
  | nil => exact ⟨[], carry, rfl, hcarry, rfl, by simp⟩
  | cons b bytes ih =>
    obtain ⟨low, c, hgo, hc, hlen, hvalue⟩ := ih
    have hb := b.toNat_lt
    have hmask : (b.toNat * 62 + c) &&& 0xFF = (b.toNat * 62 + c) % 2 ^ 8 :=
      Nat.and_two_pow_sub_one_eq_mod _ 8
    have hlow := Nat.mod_lt (b.toNat * 62 + c) (show 2 ^ 8 > 0 by decide)
    refine ⟨((b.toNat * 62 + c) % 2 ^ 8).toUInt8 :: low, (b.toNat * 62 + c) / 2 ^ 8, ?_, by omega,
      ?_, ?_⟩
    · rw [b62MulAddFrom, hgo, Option.bind_eq_bind, Option.bind_some]
      dsimp only
      rw [checkedU32_of_lt (by omega), Option.bind_eq_bind, Option.bind_some,
        checkedU32_of_lt (by omega), Option.bind_eq_bind, Option.bind_some, hmask,
        checkedU8_of_lt hlow, Nat.shiftRight_eq_div_pow]
      rfl
    · rw [List.length_cons, List.length_cons, hlen]
    · rw [value_cons, value_cons, hlen, toNat_toUInt8 hlow, List.length_cons, pow_succ]
      calc (b.toNat * 62 + c) / 2 ^ 8 * (256 ^ bytes.length * 256) +
            ((b.toNat * 62 + c) % 2 ^ 8 * 256 ^ bytes.length + value low)
          = (2 ^ 8 * ((b.toNat * 62 + c) / 2 ^ 8) + (b.toNat * 62 + c) % 2 ^ 8)
              * 256 ^ bytes.length + value low := by ring
        _ = b.toNat * 62 * 256 ^ bytes.length + (c * 256 ^ bytes.length + value low) := by
            rw [Nat.div_add_mod]
            ring
        _ = _ := by
            rw [hvalue]
            ring

/-- `b62_mul_add` multiplies by 62 and adds, and makes no leading zero. -/
theorem b62MulAdd_eq (hbytes : Canonical bytes) (hd : d < 62) :
    ∃ result, b62MulAdd bytes d.toUInt8 = some result ∧ Canonical result ∧
      value result = value bytes * 62 + d := by
  obtain ⟨low, carry, hgo, hcarry, hlen, hvalue⟩ := b62MulAddFrom_eq hd bytes
  rw [b62MulAdd, toNat_toUInt8 (by omega), hgo, Option.bind_eq_bind, Option.bind_some]
  dsimp only
  rw [insertCarry]
  rcases Nat.eq_zero_or_pos carry with rfl | hpos
  · rw [Nat.zero_mul, Nat.zero_add] at hvalue
    refine ⟨low, if_neg (Nat.lt_irrefl 0), ?_, hvalue⟩
    match bytes, low, hlen with
    | [], [], _ => exact fun h ↦ by cases h
    | b :: bytes, l :: low, hlen =>
      have hle := canonical_cons_iff_pow_le.mp hbytes
      rw [List.length_cons, List.length_cons, Nat.succ_inj] at hlen
      rw [canonical_cons_iff_pow_le, hvalue, hlen]
      omega
  · have hmask : carry &&& 0xFF = carry :=
      (Nat.and_two_pow_sub_one_eq_mod carry 8).trans (Nat.mod_eq_of_lt (by omega))
    have hshift : carry >>> 8 = 0 := by
      rw [Nat.shiftRight_eq_div_pow]
      omega
    refine ⟨carry.toUInt8 :: low, ?_, ?_, ?_⟩
    · rw [if_pos hpos, hmask, checkedU8_of_lt (by omega), hshift]
      rfl
    · rw [canonical_cons_iff]
      intro h
      have := congrArg UInt8.toNat h
      rw [toNat_toUInt8 (by omega)] at this
      exact hpos.ne' this
    · rw [value_cons, toNat_toUInt8 (by omega), hlen, hvalue]

/-- Reading digits appends them to what was read before. -/
theorem base62DecodeFrom_eq {ds : List Nat} (hds : ∀ d ∈ ds, d < 62) (hbytes : Canonical bytes) :
    ∃ result, base62DecodeFrom bytes (ds.map digit62) = some (.ok result) ∧ Canonical result ∧
      value result = value bytes * 62 ^ ds.length + Nat.ofDigits 62 ds.reverse := by
  induction ds generalizing bytes with
  | nil => exact ⟨bytes, rfl, hbytes, by simp⟩
  | cons d ds ih =>
    rw [List.forall_mem_cons] at hds
    obtain ⟨next, hnext, hcanonical, hvalue⟩ := b62MulAdd_eq hbytes hds.1
    obtain ⟨result, hgo, hresult, heq⟩ := ih hds.2 hcanonical
    refine ⟨result, ?_, hresult, ?_⟩
    · rw [List.map_cons, base62DecodeFrom, b62CharToDigit_digit62 hds.1]
      dsimp only
      rw [hnext, Option.bind_eq_bind, Option.bind_some, hgo]
    · rw [heq, hvalue, Nat.ofDigits_reverse_cons, List.length_cons, pow_succ]
      ring

/-- What was encoded is decoded, if it starts with a byte that is not zero. -/
theorem ticketBase62Decode_encode (hbytes : Canonical bytes)
    (hlen : bytes.length ≤ ticketMaxBytes) :
    ticketBase62Decode ((digitsOf (value bytes)).map digit62).reverse = some (.ok bytes) := by
  have hlength := length_digitsOf_le hlen
  have hne : ((digitsOf (value bytes)).map digit62).reverse ≠ [] := by
    rw [List.reverse_ne_nil_iff, digitsOf_eq]
    split <;> exact List.cons_ne_nil _ _
  obtain ⟨result, hgo, hcanonical, hvalue⟩ :=
    @base62DecodeFrom_eq [] (digitsOf (value bytes)).reverse
      (fun d hd ↦ lt_of_mem_digitsOf (List.mem_reverse.mp hd)) (by rintro ⟨⟩)
  rw [value_nil, Nat.zero_mul, Nat.zero_add, List.reverse_reverse, ofDigits_digitsOf] at hvalue
  rw [ticketBase62Decode, if_neg, ← List.map_reverse, hgo, hcanonical.eq_of_value_eq hbytes hvalue]
  rw [List.isEmpty_iff, List.length_reverse, List.length_map]
  rintro (h | h)
  · exact hne h
  · omega

end Base62

/-! ## Tickets -/

section Tickets

variable {endpoints : List Str}

/-- The endpoints are read back from between the commas. -/
theorem filter_splitOn_intercalate (hne : ∀ e ∈ endpoints, e ≠ [])
    (hcomma : ∀ e ∈ endpoints, comma ∉ e) :
    (([comma].intercalate endpoints).splitOn comma).filter (fun s ↦ !s.isEmpty) = endpoints := by
  rcases eq_or_ne endpoints [] with rfl | hnil
  · rfl
  · rw [List.splitOn_intercalate comma hcomma hnil, List.filter_eq_self]
    intro e he
    rw [Bool.not_eq_true', List.isEmpty_eq_false_iff]
    exact hne e he

theorem valid_intercalate (hutf8 : ∀ e ∈ endpoints, Utf8.valid e) :
    Utf8.valid ([comma].intercalate endpoints) := by
  induction endpoints with
  | nil => rfl
  | cons e endpoints ih =>
    rw [List.forall_mem_cons] at hutf8
    cases endpoints with
    | nil =>
      rw [List.intercalate_singleton]
      exact hutf8.1
    | cons e' endpoints =>
      rw [List.intercalate_cons_cons]
      exact Utf8.valid_append
        (Utf8.valid_append hutf8.1 (Utf8.valid_singleton (by decide))) (ih hutf8.2)

theorem toBytes32_toList (v : Vector UInt8 32) : toBytes32 v.toList = some v := by
  rw [toBytes32, dif_pos v.length_toList]
  rfl

variable (nodeId : NodeId) (secretBytes : Vector UInt8 32) (joined : Str)

theorem length_ticketBytes :
    (ticketBytes nodeId secretBytes joined).length = ticketMinBytes + joined.length := by
  simp only [ticketBytes, List.length_append, List.length_singleton, Vector.length_toList]
  rfl

/-- The parts of a ticket, where they are looked for. -/
theorem parts_ticketBytes :
    ((ticketBytes nodeId secretBytes joined).drop 1).take 32 = nodeId.bytes.toList ∧
      ((ticketBytes nodeId secretBytes joined).drop 33).take 32 = secretBytes.toList ∧
      (ticketBytes nodeId secretBytes joined).drop 65 = joined := by
  have hid := nodeId.bytes.length_toList
  have hsecret := secretBytes.length_toList
  have h₁ : (ticketBytes nodeId secretBytes joined).drop 1 =
      nodeId.bytes.toList ++ (secretBytes.toList ++ joined) := by
    rw [ticketBytes, List.append_assoc, List.append_assoc]
    rfl
  have h₂ : (ticketBytes nodeId secretBytes joined).drop 33 = secretBytes.toList ++ joined := by
    rw [show 33 = 1 + 32 from rfl, ← List.drop_drop, h₁, List.drop_left' hid]
  refine ⟨?_, ?_, ?_⟩
  · rw [h₁, List.take_left' hid]
  · rw [h₂, List.take_left' hsecret]
  · rw [show 65 = 33 + 32 from rfl, ← List.drop_drop, h₂, List.drop_left' hsecret]

/-- A ticket is read back. -/
theorem parseJoinTicket_encodeTicket
    (hutf8 : ∀ e ∈ endpoints, Utf8.valid e) (hne : ∀ e ∈ endpoints, e ≠ [])
    (hcomma : ∀ e ∈ endpoints, comma ∉ e)
    (hlen : ([comma].intercalate endpoints).length ≤ maxTicketEndpointBytes) :
    ∃ ticket, encodeTicket nodeId secretBytes endpoints = some (.ok ticket) ∧
      ticket.length ≤ ticketMaxChars ∧
      parseJoinTicket ticket = some (.ok ⟨nodeId, toHex secretBytes, endpoints⟩) := by
  have hlength := length_ticketBytes nodeId secretBytes ([comma].intercalate endpoints)
  have hmax : (ticketBytes nodeId secretBytes ([comma].intercalate endpoints)).length ≤
      ticketMaxBytes := by
    rw [hlength, ticketMaxBytes]
    omega
  have hcanonical : Canonical (ticketBytes nodeId secretBytes ([comma].intercalate endpoints)) :=
    canonical_cons_iff.mpr (by decide)
  obtain ⟨hissuer, hsecret, hjoined⟩ :=
    parts_ticketBytes nodeId secretBytes ([comma].intercalate endpoints)
  refine ⟨((digitsOf (value (ticketBytes nodeId secretBytes
    ([comma].intercalate endpoints)))).map digit62).reverse, ?_, ?_, ?_⟩
  · rw [encodeTicket, if_neg (not_lt.mpr hlen), ticketBase62Encode_eq]
    rfl
  · rw [List.length_reverse, List.length_map]
    exact length_digitsOf_le hmax
  · have hmin : ¬ (ticketBytes nodeId secretBytes ([comma].intercalate endpoints)).length <
        ticketMinBytes := by
      rw [hlength]
      omega
    have hversion : (ticketBytes nodeId secretBytes ([comma].intercalate endpoints))[0]? =
        some ticketVersion := rfl
    rw [parseJoinTicket, ticketBase62Decode_encode hcanonical hmax, Option.bind_eq_bind,
      Option.bind_some]
    dsimp only
    rw [if_neg hmin, hversion, Option.bind_eq_bind, Option.bind_some]
    simp only [ne_eq, not_true_eq_false, if_false, hissuer, hsecret, hjoined, toBytes32_toList,
      valid_intercalate hutf8, Bool.not_true, Bool.false_eq_true,
      filter_splitOn_intercalate hne hcomma]
    rfl

/-- Two endpoints, and a node id that starts with zeros. -/
theorem parseJoinTicket_encodeTicket_leadingZeros :
    ∃ ticket, encodeTicket ⟨.replicate 32 0⟩ (.replicate 32 0)
        [lit "100.64.1.2:7420", lit "[fd7a::1]:7420"] = some (.ok ticket) ∧
      ticket.length ≤ ticketMaxChars ∧
      parseJoinTicket ticket = some (.ok ⟨⟨.replicate 32 0⟩, toHex (.replicate 32 0),
        [lit "100.64.1.2:7420", lit "[fd7a::1]:7420"]⟩) :=
  parseJoinTicket_encodeTicket _ _ (by decide +kernel) (by decide +kernel) (by decide +kernel)
    (by decide +kernel)

end Tickets

end Lilsync
