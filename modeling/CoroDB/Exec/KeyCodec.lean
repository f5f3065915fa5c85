import CoroDB.Exec.Index
import CoroDB.Framework.PrefixCode
import CoroDB.Storage.RowCodec

/-!
# Keys of several columns

The keys of a table with several primary-key columns, and those of a composite index, are the
encodings of their values one after the other.
-/

namespace CoroDB

open Framework InputStream

section Codes

theorem writeValue_prefixFree : PrefixFree Value.Fits writeValue := by
  apply PrefixFree.of_decode
    (fun bs => (readValue (ofBytes bs)).map fun r => (r.1, r.2.rest))
  intro v rest h
  rw [readValue_writeValue h]
  rfl

theorem writeValue_ne_nil (v : Value) : writeValue v ≠ [] := by
  apply List.ne_nil_of_length_pos
  exact length_le_writeValue v

/-- The tags of texts and of doubles are exchanged between the two encodings of a value. -/
def retag : Bytes → Bytes :=
  List.modifyHead fun tag => if tag = 2 then 3 else if tag = 3 then 2 else tag

theorem retag_compositePart (v : Value) : retag (compositePart v) = writeValue v := by
  cases v with
  | null => rfl
  | int i => rfl
  | double d => rfl
  | text s => rfl

theorem retag_prefix {x y : Bytes} (h : x <+: y) : retag x <+: retag y := by
  obtain ⟨rest, rfl⟩ := h
  cases x with
  | nil => exact List.nil_prefix
  | cons b bs => exact ⟨rest, rfl⟩

theorem compositePart_prefixFree : PrefixFree Value.Fits compositePart := by
  apply PrefixFree.of_comp retag_prefix
  simp only [retag_compositePart]
  exact writeValue_prefixFree

theorem compositePart_ne_nil (v : Value) : compositePart v ≠ [] := by
  cases v <;> simp [compositePart]

end Codes

section Keys

/-- The values of the primary-key columns of a row, a missing one as `NULL`. -/
def keyTuple (row : Row) (columns : List Column) : List Value :=
  (columns.zipIdx.filter (·.1.primaryKey)).map fun c => row.values.getD c.2 .null

theorem extractKey_eq_keyTuple {columns : List Column} (h : 2 ≤ columns.countP (·.primaryKey))
    (row : Row) : extractKey row columns = .text ((keyTuple row columns).flatMap encodeKey) := by
  rw [extractKey, if_neg (not_lt.mpr h), keyTuple, List.flatMap_map]

theorem fits_keyTuple {row : Row} (h : ∀ v ∈ row.values, v.Fits) (columns : List Column) :
    ∀ v ∈ keyTuple row columns, v.Fits := by
  intro v hv
  obtain ⟨c, -, rfl⟩ := List.mem_map.mp hv
  by_cases hc : c.2 < row.values.length
  · rw [List.getD_eq_getElem _ _ hc]
    exact h _ (List.getElem_mem hc)
  · rw [List.getD_eq_default _ _ (not_lt.mp hc)]
    trivial

theorem extractKey_inj {row row' : Row} {columns columns' : List Column}
    (hrow : ∀ v ∈ row.values, v.Fits) (hrow' : ∀ v ∈ row'.values, v.Fits)
    (hcols : 2 ≤ columns.countP (·.primaryKey)) (hcols' : 2 ≤ columns'.countP (·.primaryKey))
    (heq : extractKey row columns = extractKey row' columns') :
    keyTuple row columns = keyTuple row' columns' := by
  rw [extractKey_eq_keyTuple hcols, extractKey_eq_keyTuple hcols'] at heq
  apply writeValue_prefixFree.flatMap_inj writeValue_ne_nil
  · exact fits_keyTuple hrow columns
  · exact fits_keyTuple hrow' columns'
  · exact Value.text.inj heq

theorem encodeComposite_inj {values values' : List Value} (h : ∀ v ∈ values, v.Fits)
    (h' : ∀ v ∈ values', v.Fits) (heq : encodeComposite values = encodeComposite values') :
    values = values' :=
  compositePart_prefixFree.flatMap_inj compositePart_ne_nil h h' (Value.text.inj heq)

end Keys

section Encodings

/-- Rows of fewer than `2 ^ 32` values and keys are read back from their encodings, the encoding of
a value is prefix-free, and keys of several columns are equal only for equal values. -/
theorem encodings_unambiguous :
    (∀ (row : Row) (columns : List Column), row.values.length = columns.length →
      (∀ v ∈ row.values, v.Fits) → row.values.length < 2 ^ 32 →
      decodeRow (encodeRow row) columns = .ok row) ∧
    (∀ v : Value, v.Fits → decodeKey (encodeKey v) = .ok v) ∧
    PrefixFree Value.Fits writeValue ∧
    (∀ (row row' : Row) (columns columns' : List Column), (∀ v ∈ row.values, v.Fits) →
      (∀ v ∈ row'.values, v.Fits) → 2 ≤ columns.countP (·.primaryKey) →
      2 ≤ columns'.countP (·.primaryKey) → extractKey row columns = extractKey row' columns' →
      keyTuple row columns = keyTuple row' columns') ∧
    ∀ values values' : List Value, (∀ v ∈ values, v.Fits) → (∀ v ∈ values', v.Fits) →
      encodeComposite values = encodeComposite values' → values = values' := by
  refine ⟨?_, ?_, writeValue_prefixFree, ?_, ?_⟩
  · intro row columns hwidth hfits hcount
    exact decodeRow_encodeRow hwidth hfits hcount
  · intro v hv
    exact decodeKey_encodeKey hv
  · intro row row' columns columns' hrow hrow' hcols hcols' heq
    exact extractKey_inj hrow hrow' hcols hcols' heq
  · intro values values' h h' heq
    exact encodeComposite_inj h h' heq

/-- Two rows that a concatenation without lengths would confuse keep different keys. -/
theorem encodings_unambiguous_texts :
    decodeRow (encodeRow ⟨[.text [97, 98], .text [99]]⟩)
        [⟨[97], .text, true, true⟩, ⟨[98], .text, true, true⟩] =
      .ok ⟨[.text [97, 98], .text [99]]⟩ ∧
    decodeKey (encodeKey (.int 7)) = .ok (.int 7) ∧
    encodeComposite [.text [97, 98], .text [99]] ≠ encodeComposite [.text [97], .text [98, 99]] := by
  have hfits : ∀ v ∈ [Value.text [97, 98], .text [99]], v.Fits := by
    simp [Value.Fits]
  have hfits' : ∀ v ∈ [Value.text [97], .text [98, 99]], v.Fits := by
    simp [Value.Fits]
  refine ⟨?_, ?_, ?_⟩
  · exact encodings_unambiguous.1 _ _ rfl hfits (by decide)
  · exact encodings_unambiguous.2.1 (.int 7) trivial
  · intro heq
    have := encodings_unambiguous.2.2.2.2 _ _ hfits hfits' heq
    exact absurd this (by decide)

/-- A row of `2 ^ 32` columns is not read back. -/
theorem decodeRow_loses_wide_row : ∃ (row : Row) (columns : List Column),
    row.values.length = columns.length ∧ (∀ v ∈ row.values, v.Fits) ∧
      decodeRow (encodeRow row) columns = .error .rowWidth := by
  have hall (width : Nat) (hwide : 2 ^ 32 ≤ width) : ∃ (row : Row) (columns : List Column),
      row.values.length = columns.length ∧ (∀ v ∈ row.values, v.Fits) ∧
        decodeRow (encodeRow row) columns = .error .rowWidth := by
    have hvalues : (List.replicate width Value.null).length =
        (List.replicate width (Column.mk [97] .int64 false false)).length := by
      rw [List.length_replicate, List.length_replicate]
    refine ⟨⟨List.replicate width .null⟩, List.replicate width ⟨[97], .int64, false, false⟩,
      hvalues, ?_, ?_⟩
    · intro v hv
      rw [List.eq_of_mem_replicate hv]
      trivial
    · apply decodeRow_encodeRow_wide
      rw [List.length_replicate]
      exact hwide
  exact hall (2 ^ 32) le_rfl

end Encodings

end CoroDB
