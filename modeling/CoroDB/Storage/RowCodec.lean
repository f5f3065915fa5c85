import CoroDB.Framework.InputStream
import CoroDB.Storage.Sstable

/-!
# Decoding rows, keys and schemas

What the readers make of the bytes of a record.
-/

namespace CoroDB

open Framework InputStream

inductive DecodeError where
  | rowWidth
  | unknownTag
  deriving DecidableEq, Repr

def readValue (s : InputStream) : Except DecodeError (Value × InputStream) :=
  let tag := s.readWord 1
  match tag.1 with
  | 0 => .ok (.null, tag.2)
  | 1 =>
    let word := tag.2.readWord 8
    .ok (.int (UInt64.ofNat word.1).toInt64, word.2)
  | 2 =>
    let len := tag.2.readWord 4
    let s := len.2.readPadded len.1
    .ok (.text s.1, s.2)
  | 3 =>
    let word := tag.2.readWord 8
    .ok (.double ⟨UInt64.ofNat word.1⟩, word.2)
  | _ => .error .unknownTag

def readValues : Nat → InputStream → Except DecodeError (List Value)
  | 0, _ => .ok []
  | count + 1, s =>
    match readValue s with
    | .error e => .error e
    | .ok (v, s') => (readValues count s').map (v :: ·)

def decodeRow (rec : Bytes) (columns : List Column) : Except DecodeError Row :=
  let count := (ofBytes rec).readWord 4
  if count.1 ≠ columns.length then .error .rowWidth
  else (readValues count.1 count.2).map Row.mk

def decodeKey (bs : Bytes) : Except DecodeError Value := (readValue (ofBytes bs)).map Prod.fst

def wireToType : Nat → TypeKind
  | 1 => .int64
  | 2 => .text
  | 3 => .float64
  | 4 => .boolean
  | 5 => .date
  | 6 => .decimal
  | _ => .null

def readColumn (s : InputStream) : Column × InputStream :=
  let len := s.readWord 2
  let name := len.2.readPadded len.1
  let t := name.2.readWord 1
  (⟨name.1, wireToType (t.1 % 64), t.1.testBit 6, t.1.testBit 7⟩, t.2)

def readColumns : Nat → InputStream → List Column
  | 0, _ => []
  | count + 1, s => (readColumn s).1 :: readColumns count (readColumn s).2

def deserializeSchema (bs : Bytes) : Option (List Column) :=
  let count := (ofBytes bs).readWord 4
  if count.2.failed then none else some (readColumns count.1 count.2)

section RoundTrip

def Value.Fits : Value → Prop
  | .text s => s.length < 2 ^ 32
  | _ => True

theorem readValue_writeValue {v : Value} (h : v.Fits) (rest : Bytes) :
    readValue (ofBytes (writeValue v ++ rest)) = .ok (v, ofBytes rest) := by
  cases v with
  | null => simp [readValue, writeValue, readWord_append]
  | int i =>
    have hi : i.toUInt64.toNat < 256 ^ 8 := i.toUInt64.toNat_lt
    simp [readValue, writeValue, List.append_assoc, readWord_append, readWord_append hi]
  | double d =>
    have hd : d.bits.toNat < 256 ^ 8 := d.bits.toNat_lt
    simp [readValue, writeValue, List.append_assoc, readWord_append, readWord_append hd]
  | text s =>
    have hs : s.length < 256 ^ 4 := h
    simp [readValue, writeValue, List.append_assoc, readWord_append, readWord_append hs,
      readPadded_append rfl]

theorem readValues_flatMap {vs : List Value} (h : ∀ v ∈ vs, v.Fits) (rest : Bytes) :
    readValues vs.length (ofBytes (vs.flatMap writeValue ++ rest)) = .ok vs := by
  induction vs with
  | nil => rfl
  | cons v vs ih =>
    rw [List.flatMap_cons, List.append_assoc, List.length_cons, readValues,
      readValue_writeValue (h v List.mem_cons_self)]
    simp only [ih fun v' hv' => h v' (List.mem_cons_of_mem v hv')]
    rfl

theorem length_le_writeValue (v : Value) : 1 ≤ (writeValue v).length := by
  cases v <;> simp [writeValue]

theorem Value.fits_of_writeValue {v : Value} (h : (writeValue v).length < 2 ^ 32) : v.Fits := by
  cases v with
  | null => trivial
  | int i => trivial
  | double d => trivial
  | text s =>
    simp only [writeValue, List.length_append, leBytes_length] at h
    change s.length < 2 ^ 32
    omega

theorem decodeKey_encodeKey {key : Value} (h : key.Fits) :
    decodeKey (encodeKey key) = .ok key := by
  have hread := readValue_writeValue h []
  rw [List.append_nil] at hread
  rw [decodeKey, encodeKey, hread]
  rfl

theorem length_le_flatMap_writeValue (vs : List Value) :
    vs.length ≤ (vs.flatMap writeValue).length := by
  induction vs with
  | nil => exact le_rfl
  | cons v vs ih =>
    have := length_le_writeValue v
    simp only [List.flatMap_cons, List.length_append, List.length_cons]
    omega

theorem writeValue_length_le {v : Value} {vs : List Value} (h : v ∈ vs) :
    (writeValue v).length ≤ (vs.flatMap writeValue).length := by
  obtain ⟨before, after, rfl⟩ := List.append_of_mem h
  simp only [List.flatMap_append, List.flatMap_cons, List.length_append]
  omega

theorem Row.fits_of_encodeRow {row : Row} (h : (encodeRow row).length < 2 ^ 32) :
    (∀ v ∈ row.values, v.Fits) ∧ row.values.length < 2 ^ 32 := by
  have hlen : 4 + (row.values.flatMap writeValue).length < 2 ^ 32 := by
    simpa [encodeRow] using h
  constructor
  · intro v hv
    apply Value.fits_of_writeValue
    have := writeValue_length_le hv
    omega
  · have := length_le_flatMap_writeValue row.values
    omega

theorem decodeRow_encodeRow {row : Row} {columns : List Column}
    (hwidth : row.values.length = columns.length) (hfits : ∀ v ∈ row.values, v.Fits)
    (hcount : row.values.length < 2 ^ 32) : decodeRow (encodeRow row) columns = .ok row := by
  have hcount : row.values.length < 256 ^ 4 := hcount
  have hvalues := readValues_flatMap hfits []
  rw [List.append_nil] at hvalues
  rw [decodeRow, encodeRow, readWord_append hcount]
  simp only [hwidth, ne_eq, not_true_eq_false, if_false]
  rw [← hwidth, hvalues]
  rfl

theorem decodeRow_encodeRow_wide (row : Row) {columns : List Column}
    (hwide : 2 ^ 32 ≤ columns.length) :
    decodeRow (encodeRow row) columns = .error .rowWidth := by
  have hlt := ofLeBytes_lt (leBytes 4 row.values.length)
  rw [leBytes_length] at hlt
  have hle : 4 ≤ (encodeRow row).length := by simp [encodeRow]
  have htake : (encodeRow row).take 4 = leBytes 4 row.values.length :=
    List.take_left' (leBytes_length 4 _)
  rw [decodeRow, readWord_of_le hle, htake]
  apply if_pos
  apply ne_of_lt
  exact lt_of_lt_of_le hlt hwide

end RoundTrip

end CoroDB
