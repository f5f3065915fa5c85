import CoroDB.Storage.RowCodec

/-!
# Records that were cut off

What the readers make of a front part of an encoding.
-/

namespace CoroDB

open Framework InputStream

section Values

theorem readValue_failed (bs : Bytes) : readValue ⟨bs, true⟩ = .ok (.null, ⟨bs, true⟩) := by
  simp only [readValue, readWord_failed]

theorem readValues_failed (count : Nat) (bs : Bytes) :
    readValues count ⟨bs, true⟩ = .ok (List.replicate count .null) := by
  induction count with
  | zero => rfl
  | succ count ih =>
    simp only [readValues, readValue_failed, ih]
    rfl

theorem readValue_tag {tag : Nat} (htag : tag < 4) (rest : Bytes) :
    ∃ r, readValue (ofBytes (leBytes 1 tag ++ rest)) = .ok r := by
  have hlt : tag < 256 ^ 1 := by omega
  have hread := readWord_append hlt rest
  simp only [readValue, hread]
  interval_cases tag
  all_goals exact ⟨_, rfl⟩

theorem readValue_take {v : Value} (hfits : v.Fits) {k : Nat} (hk : k < (writeValue v).length) :
    ∃ v', readValue (ofBytes ((writeValue v).take k)) = .ok (v', ⟨[], true⟩) := by
  rcases Nat.eq_zero_or_pos k with rfl | hpos
  · exact ⟨.null, rfl⟩
  · cases v with
    | null =>
      simp only [writeValue, leBytes_length] at hk
      omega
    | int i =>
      simp only [writeValue, List.length_append, leBytes_length] at hk
      have hbody := readWord_take (by omega : k - 1 < 8) i.toUInt64.toNat []
      rw [List.append_nil] at hbody
      simp [readValue, writeValue, readWord_take_of_le hpos, hbody]
    | double d =>
      simp only [writeValue, List.length_append, leBytes_length] at hk
      have hbody := readWord_take (by omega : k - 1 < 8) d.bits.toNat []
      rw [List.append_nil] at hbody
      simp [readValue, writeValue, readWord_take_of_le hpos, hbody]
    | text s =>
      simp only [writeValue, List.length_append, leBytes_length] at hk
      have hs : s.length % 256 ^ 4 = s.length := Nat.mod_eq_of_lt hfits
      rcases Nat.lt_or_ge (k - 1) 4 with hlen | hlen
      · simp [readValue, writeValue, List.append_assoc, readWord_take_of_le hpos,
          readWord_take hlen, readPadded_failed]
      · have hbody : (s.take (k - 1 - 4)).length < s.length := by
          rw [List.length_take]
          omega
        have hread := readWord_take_of_le hlen s.length s
        rw [hs] at hread
        simp [readValue, writeValue, List.append_assoc, readWord_take_of_le hpos, hread,
          readPadded_of_lt hbody]

theorem readValues_take {vs : List Value} (hfits : ∀ v ∈ vs, v.Fits) {count : Nat}
    (hcount : count ≤ vs.length) (k : Nat) :
    ∃ vs', readValues count (ofBytes ((vs.flatMap writeValue).take k)) = .ok vs' := by
  induction vs generalizing count k with
  | nil =>
    obtain rfl : count = 0 := Nat.le_zero.mp hcount
    exact ⟨[], rfl⟩
  | cons v vs ih =>
    have hv := hfits v List.mem_cons_self
    have hvs := fun v' hv' => hfits v' (List.mem_cons_of_mem v hv')
    cases count with
    | zero => exact ⟨[], rfl⟩
    | succ count =>
      rw [List.flatMap_cons, readValues]
      rcases Nat.lt_or_ge k (writeValue v).length with hk | hk
      · obtain ⟨v', hread⟩ := readValue_take hv hk
        rw [List.take_append_of_le_length hk.le, hread]
        simp only [readValues_failed]
        exact ⟨_, rfl⟩
      · obtain ⟨vs', hread⟩ := ih hvs (Nat.le_of_succ_le_succ hcount) (k - (writeValue v).length)
        rw [List.take_append, List.take_of_length_le hk, readValue_writeValue hv]
        simp only [hread]
        exact ⟨_, rfl⟩

theorem readValues_nil (count : Nat) : ∃ vs, readValues count (ofBytes []) = .ok vs := by
  have hfits : ∀ v ∈ List.replicate count Value.null, v.Fits := by
    intro v hv
    rw [List.eq_of_mem_replicate hv]
    trivial
  have hcount : count ≤ (List.replicate count Value.null).length := by
    rw [List.length_replicate]
  exact readValues_take hfits hcount 0

end Values

section Records

theorem readWord_encodeRow_take (row : Row) (k : Nat) :
    (ofBytes ((encodeRow row).take k)).readWord 4 =
      (row.values.length % 256 ^ min k 4,
        if k < 4 then ⟨[], true⟩ else ofBytes ((row.values.flatMap writeValue).take (k - 4))) := by
  rcases Nat.lt_or_ge k 4 with hk | hk
  · rw [encodeRow, readWord_take hk, min_eq_left hk.le, if_pos hk]
  · rw [encodeRow, readWord_take_of_le hk, min_eq_right hk, if_neg hk.not_gt]

theorem decodeRow_take_of_readable {row : Row} {columns : List Column} {k : Nat}
    (hread : 4 ≤ k → row.values.length % 256 ^ 4 = columns.length → ∃ vs, readValues columns.length
      (ofBytes ((row.values.flatMap writeValue).take (k - 4))) = .ok vs) :
    (∃ e, decodeRow ((encodeRow row).take k) columns = .error e) ↔
      row.values.length % 256 ^ min k 4 ≠ columns.length := by
  rw [decodeRow, readWord_encodeRow_take]
  by_cases hwidth : row.values.length % 256 ^ min k 4 = columns.length
  · simp only [hwidth, ne_eq, not_true_eq_false, if_false, iff_false]
    rcases Nat.lt_or_ge k 4 with hk | hk
    · rw [if_pos hk, readValues_failed]
      rintro ⟨e, he⟩
      cases he
    · rw [min_eq_right hk] at hwidth
      obtain ⟨vs, hvs⟩ := hread hk hwidth
      rw [if_neg hk.not_gt, hvs]
      rintro ⟨e, he⟩
      cases he
  · simp [hwidth]

theorem decodeRow_take_iff {row : Row} (hfits : ∀ v ∈ row.values, v.Fits) (columns : List Column)
    (k : Nat) :
    (∃ e, decodeRow ((encodeRow row).take k) columns = .error e) ↔
      row.values.length % 256 ^ min k 4 ≠ columns.length := by
  apply decodeRow_take_of_readable
  intro _ hwidth
  apply readValues_take hfits
  rw [← hwidth]
  exact Nat.mod_le _ _

theorem decodeRow_take_count_iff {k : Nat} (hk : k ≤ 4) (row : Row) (columns : List Column) :
    (∃ e, decodeRow ((encodeRow row).take k) columns = .error e) ↔
      row.values.length % 256 ^ k ≠ columns.length := by
  rw [decodeRow_take_of_readable, min_eq_left hk]
  intro h4 _
  obtain rfl : k = 4 := le_antisymm hk h4
  exact readValues_nil columns.length

theorem decodeRow_take_all_iff (row : Row) (columns : List Column) :
    (∀ k < (encodeRow row).length, ∃ e, decodeRow ((encodeRow row).take k) columns = .error e) ↔
      ∀ k ≤ 4, row.values.length % 256 ^ k ≠ columns.length := by
  have hlen : (encodeRow row).length = 4 + (row.values.flatMap writeValue).length := by
    simp [encodeRow]
  have hvalues := length_le_flatMap_writeValue row.values
  constructor
  · intro h k hk
    rcases Nat.lt_or_ge k (encodeRow row).length with hlt | hge
    · exact (decodeRow_take_count_iff hk row columns).mp (h k hlt)
    · have hempty : row.values.length = 0 := by omega
      have hzero := (decodeRow_take_count_iff (Nat.zero_le 4) row columns).mp (h 0 (by omega))
      simpa [hempty] using hzero
  · intro h k _
    refine ⟨.rowWidth, ?_⟩
    rw [decodeRow, readWord_encodeRow_take]
    exact if_pos (h _ (min_le_right k 4))

theorem decodeKey_take (v : Value) (k : Nat) :
    ∃ v', decodeKey ((encodeKey v).take k) = .ok v' := by
  rcases Nat.eq_zero_or_pos k with rfl | hpos
  · exact ⟨.null, rfl⟩
  · obtain ⟨tag, body, htag, hv⟩ : ∃ tag body, tag < 4 ∧ encodeKey v = leBytes 1 tag ++ body := by
      cases v with
      | null => exact ⟨0, [], by decide, rfl⟩
      | int i => exact ⟨1, _, by decide, rfl⟩
      | double d => exact ⟨3, _, by decide, rfl⟩
      | text s => exact ⟨2, _, by decide, List.append_assoc _ _ _⟩
    obtain ⟨r, hr⟩ := readValue_tag htag (body.take (k - 1))
    rw [hv, List.take_append, List.take_of_length_le (by rw [leBytes_length]; exact hpos), leBytes_length,
      decodeKey, hr]
    exact ⟨r.1, rfl⟩

theorem deserializeSchema_eq_none_iff (bs : Bytes) : deserializeSchema bs = none ↔ bs.length < 4 := by
  rw [deserializeSchema]
  rcases Nat.lt_or_ge bs.length 4 with h | h
  · simp [readWord_of_lt h, h]
  · simp only [readWord_of_le h]
    simp [ofBytes, h]

theorem deserializeSchema_take_iff {columns : List Column} {k : Nat}
    (hk : k < (serializeSchema columns).length) :
    deserializeSchema ((serializeSchema columns).take k) = none ↔ k < 4 := by
  rw [deserializeSchema_eq_none_iff, List.length_take, min_eq_left hk.le]

end Records

/-- A front part of a row whose texts are shorter than `2 ^ 32` bytes is refused when the part of the
number of values that is there is not the number of columns; all front parts of any row are refused
when this holds for the first five of them. A front part of a key is never refused, and one of a
schema when it ends in the number of columns. -/
theorem truncated_refused_iff (row : Row) (v : Value) (columns : List Column) (k : Nat) :
    ((∀ x ∈ row.values, x.Fits) → k < (encodeRow row).length →
      ((∃ e, decodeRow ((encodeRow row).take k) columns = .error e) ↔
        row.values.length % 256 ^ min k 4 ≠ columns.length)) ∧
    ((∀ i < (encodeRow row).length,
        ∃ e, decodeRow ((encodeRow row).take i) columns = .error e) ↔
      ∀ i ≤ 4, row.values.length % 256 ^ i ≠ columns.length) ∧
    (k < (encodeKey v).length → ∃ v', decodeKey ((encodeKey v).take k) = .ok v') ∧
    (k < (serializeSchema columns).length →
      (deserializeSchema ((serializeSchema columns).take k) = none ↔ k < 4)) := by
  refine ⟨?_, decodeRow_take_all_iff row columns, ?_, ?_⟩
  · intro hfits _
    exact decodeRow_take_iff hfits columns k
  · intro _
    exact decodeKey_take v k
  · intro hk
    exact deserializeSchema_take_iff hk

/-- A row without its number of values, a part of a key, and a part of the number of columns. -/
theorem truncated_refused_one_column :
    (∃ e, decodeRow ((encodeRow ⟨[.int 258]⟩).take 0) [⟨[97], .int64, false, false⟩] = .error e) ∧
    (∃ v, decodeKey ((encodeKey (.int 258)).take 3) = .ok v) ∧
    deserializeSchema ((serializeSchema [⟨[97], .int64, false, false⟩]).take 3) = none := by
  have hzero := truncated_refused_iff ⟨[.int 258]⟩ (.int 258) [⟨[97], .int64, false, false⟩] 0
  have hthree := truncated_refused_iff ⟨[.int 258]⟩ (.int 258) [⟨[97], .int64, false, false⟩] 3
  refine ⟨?_, ?_, ?_⟩
  · apply (hzero.1 _ (by decide)).mpr
    · decide
    · simp [Value.Fits]
  · exact hthree.2.2.1 (by decide)
  · exact (hthree.2.2.2 (by decide)).mpr (by decide)

/-- A row, a key and a schema that were cut off are read with zeros in place of what is missing. -/
theorem truncated_accepted :
    decodeRow ((encodeRow ⟨[.int 258]⟩).take 6) [⟨[97], .int64, false, false⟩] = .ok ⟨[.int 2]⟩ ∧
    decodeKey ((encodeKey (.int 258)).take 2) = .ok (.int 2) ∧
    deserializeSchema ((serializeSchema [⟨[97], .int64, false, false⟩]).take 4) =
      some [⟨[], .null, false, false⟩] := by
  decide

end CoroDB
