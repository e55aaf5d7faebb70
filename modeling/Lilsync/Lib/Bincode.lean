import Lilsync.Lib.OrdMap
import Lilsync.Lib.Utf8

/-!
# Values in a row of bytes

The default format of bincode: no names and no version, integers of a fixed width
with the low byte first, strings and maps after their length, an option after a tag,
the fields of a record one after the other.  A reader takes a value off the front of
the input and leaves what follows.  A format is a reader together with the writer it
undoes.
-/

namespace Lilsync.Lib.Bincode

open Std (ExtTreeMap TransOrd LawfulEqOrd)

variable {α β K V : Type}

/-! ## Readers -/

/-- Take a value off the front of the input, or fail. -/
abbrev Reader (α : Type) := StateT (List UInt8) Option α

/-- The next byte. -/
def byte : Reader UInt8
  | [] => none
  | b :: input => some (b, input)

/-- The next `n` bytes. -/
def take (n : Nat) : Reader (List UInt8) := fun input ↦
  if n ≤ input.length then some (input.take n, input.drop n) else none

@[simp] theorem run_byte_cons (b : UInt8) (input : List UInt8) :
    (byte : Reader UInt8).run (b :: input) = some (b, input) := rfl

theorem run_take_append {n : Nat} {bytes : List UInt8} (h : bytes.length = n)
    (rest : List UInt8) : (take n).run (bytes ++ rest) = some (bytes, rest) := by
  subst h
  change (if _ then _ else _) = _
  rw [if_pos (by rw [List.length_append]; exact Nat.le_add_right _ _), List.take_left,
    List.drop_left]

theorem run_take_eq_none {n : Nat} {input : List UInt8} (h : input.length < n) :
    (take n).run input = none :=
  if_neg (Nat.not_le.mpr h)

/-- What follows a failure fails. -/
theorem run_bind_eq_none {r : Reader α} {input : List UInt8} (h : r.run input = none)
    (k : α → Reader β) : (r >>= k).run input = none := by
  rw [StateT.run_bind, h]
  rfl

theorem run_bind_eq {r : Reader α} {input rest : List UInt8} {a : α}
    (h : r.run input = some (a, rest)) (k : α → Reader β) :
    (r >>= k).run input = (k a).run rest := by
  rw [StateT.run_bind, h]
  rfl

/-! ## Integers -/

/-- The `width` low bytes of a number, the lowest first. -/
def littleEndian : Nat → Nat → List UInt8
  | 0, _ => []
  | width + 1, n => n.toUInt8 :: littleEndian width (n / 256)

/-- The number bytes stand for, the lowest first. -/
def ofLittleEndian : List UInt8 → Nat
  | [] => 0
  | b :: bytes => b.toNat + 256 * ofLittleEndian bytes

@[simp] theorem length_littleEndian (width n : Nat) : (littleEndian width n).length = width := by
  induction width generalizing n with
  | zero => rfl
  | succ width ih => rw [littleEndian, List.length_cons, ih]

theorem ofLittleEndian_littleEndian {width n : Nat} (h : n < 256 ^ width) :
    ofLittleEndian (littleEndian width n) = n := by
  induction width generalizing n with
  | zero => exact (Nat.lt_one_iff.mp h).symm
  | succ width ih =>
    have hdiv : n / 256 < 256 ^ width := Nat.div_lt_of_lt_mul (by rwa [← Nat.pow_succ'])
    rw [littleEndian, ofLittleEndian, ih hdiv, Nat.toUInt8, UInt8.toNat_ofNat']
    exact Nat.mod_add_div n 256

theorem ofLittleEndian_append (low high : List UInt8) :
    ofLittleEndian (low ++ high) = ofLittleEndian low + 256 ^ low.length * ofLittleEndian high := by
  induction low with
  | nil => rw [List.nil_append, List.length_nil, pow_zero, one_mul, ofLittleEndian, zero_add]
  | cons b low ih =>
    rw [List.cons_append, ofLittleEndian, ih, ofLittleEndian, List.length_cons, Nat.pow_succ']
    ring

/-- The bytes on top alone make the number that large. -/
theorem le_ofLittleEndian_append {n : Nat} {low : List UInt8} (h : low.length = n)
    (high : List UInt8) : 256 ^ n * ofLittleEndian high ≤ ofLittleEndian (low ++ high) := by
  rw [ofLittleEndian_append, h]
  exact Nat.le_add_left _ _

/-! ## Formats -/

/-- How values are written and read back.  `Fits` says of a value that the integers
in it have their width and that the strings in it are strings. -/
structure Format (α : Type) where
  put : α → List UInt8
  get : Reader α
  Fits : α → Prop
  run_get : ∀ {a : α}, Fits a → ∀ rest, get.run (put a ++ rest) = some (a, rest)

namespace Format

/-- `bincode::deserialize`: bytes that follow the value are ignored. -/
def deserialize (f : Format α) (bytes : List UInt8) : Option α :=
  (f.get.run bytes).map Prod.fst

theorem run_bind_put (f : Format α) {a : α} (h : f.Fits a) (k : α → Reader β)
    (rest : List UInt8) : (f.get >>= k).run (f.put a ++ rest) = (k a).run rest :=
  run_bind_eq (f.run_get h rest) k

/-- What was written is read back. -/
theorem deserialize_put (f : Format α) {a : α} (h : f.Fits a) :
    f.deserialize (f.put a) = some a := by
  have hrun := f.run_get h []
  rw [List.append_nil] at hrun
  rw [deserialize, hrun]
  rfl

/-- An integer of `width` bytes. -/
def uint (width : Nat) : Format Nat where
  put := littleEndian width
  get := ofLittleEndian <$> take width
  Fits n := n < 256 ^ width
  run_get {n} h rest := by
    rw [StateT.run_map, run_take_append (length_littleEndian width n)]
    exact congrArg (fun m ↦ some (m, rest)) (ofLittleEndian_littleEndian h)

/-- Bytes of the width, whatever they were written for, are read as an integer. -/
theorem run_uint {width : Nat} {bytes : List UInt8} (h : bytes.length = width)
    (rest : List UInt8) :
    (uint width).get.run (bytes ++ rest) = some (ofLittleEndian bytes, rest) := by
  change (ofLittleEndian <$> take width).run _ = _
  rw [StateT.run_map, run_take_append h]
  rfl

/-- An array of `n` bytes, without its length. -/
def bytes (n : Nat) : Format (Vector UInt8 n) where
  put v := v.toList
  get := fun input ↦
    if h : n ≤ input.length then
      some (⟨(input.take n).toArray, by simpa using h⟩, input.drop n)
    else none
  Fits _ := True
  run_get {v} _ rest := by
    have hlen : v.toList.length = n := v.length_toList
    change (if h : n ≤ (v.toList ++ rest).length then _ else _) = _
    rw [dif_pos (by rw [List.length_append, hlen]; exact Nat.le_add_right _ _)]
    simp only [Option.some.injEq, Prod.mk.injEq]
    constructor
    · apply Vector.toArray_inj.mp
      change ((v.toList ++ rest).take n).toArray = v.toArray
      rw [List.take_left' hlen]
      rfl
    · rw [List.drop_left' hlen]

/-- A string: its length and its bytes, which must be UTF-8. -/
def string : Format (List UInt8) where
  put s := (uint 8).put s.length ++ s
  get := do
    let len ← (uint 8).get
    let s ← take len
    if Utf8.valid s then pure s else failure
  Fits s := Utf8.valid s ∧ s.length < 256 ^ 8
  run_get {s} h rest := by
    rw [List.append_assoc, run_bind_put (uint 8) h.2, run_bind_eq (run_take_append rfl _),
      if_pos h.1]
    rfl

/-- A length beyond the input is an error. -/
theorem run_string_eq_none {bytes rest : List UInt8} (h : bytes.length = 8)
    (hlen : rest.length < ofLittleEndian bytes) : string.get.run (bytes ++ rest) = none := by
  change ((uint 8).get >>= _).run _ = _
  rw [run_bind_eq (run_uint h rest)]
  exact run_bind_eq_none (run_take_eq_none hlen) _

/-- An option: a tag, then the value if there is one. -/
def option (f : Format α) : Format (Option α) where
  put
    | none => [0]
    | some a => 1 :: f.put a
  get := do
    match ← byte with
    | 0 => pure none
    | 1 => some <$> f.get
    | _ => failure
  Fits o := ∀ a ∈ o, f.Fits a
  run_get {o} h rest := by
    cases o with
    | none => rfl
    | some a =>
      change (some <$> f.get).run (f.put a ++ rest) = _
      rw [StateT.run_map, f.run_get (h a rfl)]
      rfl

section Tags

variable (f : Format α) (input : List UInt8)

theorem run_option_zero : f.option.get.run (0 :: input) = some (none, input) := rfl

theorem run_option_one :
    f.option.get.run (1 :: input) = (f.get.run input).map fun p ↦ (some p.1, p.2) := by
  change (some <$> f.get).run input = _
  rw [StateT.run_map]
  rfl

/-- Only 0 and 1 are tags. -/
theorem run_option_eq_none {tag : UInt8} (h0 : tag ≠ 0) (h1 : tag ≠ 1) :
    f.option.get.run (tag :: input) = none := by
  change (byte >>= _).run _ = none
  rw [run_bind_eq (run_byte_cons tag input)]
  split
  · exact absurd rfl h0
  · exact absurd rfl h1
  · rfl

end Tags

/-- An enumeration without data: the index of the variant. -/
def enum [DecidableEq α] (variants : List α) : Format α where
  put a := (uint 4).put (variants.idxOf a)
  get := do
    let i ← (uint 4).get
    match variants[i]? with
    | some a => pure a
    | none => failure
  Fits a := a ∈ variants ∧ variants.length ≤ 256 ^ 4
  run_get {a} h rest := by
    have hlt := List.idxOf_lt_length_iff.mpr h.1
    rw [run_bind_put (uint 4) (lt_of_lt_of_le hlt h.2), List.getElem?_eq_getElem hlt,
      List.getElem_idxOf hlt]
    rfl

/-! ## Maps -/

section Maps

variable [Ord K] [TransOrd K] [LawfulEqOrd K] [DecidableEq K] (k : Format K) (v : Format V)

/-- Read pairs into a map. -/
def readPairs : Nat → BTreeMap K V → Reader (BTreeMap K V)
  | 0, m => pure m
  | n + 1, m => do
    let key ← k.get
    let value ← v.get
    readPairs n (m.insert key value)

def putPair (pair : K × V) : List UInt8 := k.put pair.1 ++ v.put pair.2

omit [LawfulEqOrd K] [DecidableEq K] in
theorem run_readPairs {l : List (K × V)} (h : ∀ pair ∈ l, k.Fits pair.1 ∧ v.Fits pair.2)
    (m : BTreeMap K V) (rest : List UInt8) :
    (readPairs k v l.length m).run (l.flatMap (putPair k v) ++ rest) =
      some (l.foldl (fun m pair ↦ m.insert pair.1 pair.2) m, rest) := by
  induction l generalizing m with
  | nil => rfl
  | cons pair l ih =>
    obtain ⟨hpair, hl⟩ := List.forall_mem_cons.mp h
    rw [List.length_cons, readPairs, List.flatMap_cons, putPair, List.append_assoc,
      List.append_assoc, run_bind_put k hpair.1, run_bind_put v hpair.2, ih hl]
    rfl

/-- A map: the number of pairs, then the pairs in the order of their keys. -/
def map : Format (BTreeMap K V) where
  put m := (uint 8).put m.size ++ m.toList.flatMap (putPair k v)
  get := do
    let len ← (uint 8).get
    readPairs k v len ∅
  Fits m := m.size < 256 ^ 8 ∧ ∀ key value, m[key]? = some value → k.Fits key ∧ v.Fits value
  run_get {m} h rest := by
    have hpairs : ∀ pair ∈ m.toList, k.Fits pair.1 ∧ v.Fits pair.2 := fun pair hmem ↦
      h.2 _ _ (ExtTreeMap.mem_toList_iff_getElem?_eq_some.mp hmem)
    have hread := run_readPairs k v hpairs ∅ rest
    rw [ExtTreeMap.length_toList] at hread
    rw [List.append_assoc, run_bind_put (uint 8) h.1, hread, ← ExtTreeMap.ofList_eq_foldl]
    have hl : OrdMap.Functional m.toList := fun key a b ha hb ↦ by
      rw [ExtTreeMap.mem_toList_iff_getElem?_eq_some] at ha hb
      exact Option.some.inj (ha.symm.trans hb)
    have hof : ExtTreeMap.ofList m.toList = m := OrdMap.ext_graph fun key a ↦ by
      rw [OrdMap.getElem?_ofList_iff hl, ExtTreeMap.mem_toList_iff_getElem?_eq_some]
    rw [hof]

/-- A map whose first value cannot be read cannot be read. -/
theorem run_map_eq_none {n : Nat} {key : K} {input : List UInt8} (hn : n + 1 < 256 ^ 8)
    (hkey : k.Fits key) (h : v.get.run input = none) :
    (map k v).get.run ((uint 8).put (n + 1) ++ (k.put key ++ input)) = none := by
  change ((uint 8).get >>= _).run _ = _
  rw [run_bind_put (uint 8) hn, readPairs, run_bind_put k hkey]
  exact run_bind_eq_none h _

end Maps

end Format

end Lilsync.Lib.Bincode
