import CoroDB.Framework.OrderedUnion
import CoroDB.Storage.Mvcc

/-!
# The merges of flush and compaction

`flush_memtable_internal` merges the memtable with the lowest level and `compact_levels` a level with
the next one, by the same loop.
-/

namespace CoroDB

open Framework

section Values

theorem valueLess_nan_right (a : Value) {c : Value} (hc : c.isNaN = true) :
    valueLess a c = decide (a.index < 2) := by
  cases c <;> cases a <;> simp_all [valueLess, Value.index, Value.isNaN, Double.less]

theorem valueLess_nan_left (a : Value) {c : Value} (hc : c.isNaN = true) :
    valueLess c a = decide (2 < a.index) := by
  cases c <;> cases a <;> simp_all [valueLess, Value.index, Value.isNaN, Double.less]

theorem valueLess_asymm {a b : Value} (h : valueLess a b = true) : valueLess b a = false := by
  cases ha : a.isNaN with
  | true =>
    rw [valueLess_nan_left b ha, decide_eq_true_iff] at h
    rw [valueLess_nan_right b ha, decide_eq_false_iff_not]
    omega
  | false =>
    cases hb : b.isNaN with
    | true =>
      rw [valueLess_nan_right a hb, decide_eq_true_iff] at h
      rw [valueLess_nan_left a hb, decide_eq_false_iff_not]
      omega
    | false =>
      apply Bool.eq_false_iff.mpr
      intro hba
      exact lt_asymm ((valueLess_iff ha hb).mp h) ((valueLess_iff hb ha).mp hba)

/-- Values with one key: equal ones, and the two zeros. -/
def sameValue (a b : Value) : Prop := a = b ∨ valueEq a b = true

instance decidableSameValue (a b : Value) : Decidable (sameValue a b) :=
  inferInstanceAs (Decidable (a = b ∨ valueEq a b = true))

theorem not_isNaN_of_valueEq {a b : Value} (h : valueEq a b = true) :
    a.isNaN = false ∧ b.isNaN = false := by
  constructor
  · apply Bool.eq_false_iff.mpr
    intro ha
    rw [(valueEq_of_isNaN ha b).1] at h
    cases h
  · apply Bool.eq_false_iff.mpr
    intro hb
    rw [(valueEq_of_isNaN hb a).2] at h
    cases h

theorem sameValue_iff {a b : Value} :
    sameValue a b ↔ a = b ∨ a.isNaN = false ∧ b.isNaN = false ∧ valueKey a = valueKey b := by
  constructor
  · rintro (rfl | h)
    · exact Or.inl rfl
    · obtain ⟨ha, hb⟩ := not_isNaN_of_valueEq h
      exact Or.inr ⟨ha, hb, (valueEq_iff ha hb).mp h⟩
  · rintro (rfl | ⟨ha, hb, hkey⟩)
    · exact Or.inl rfl
    · exact Or.inr ((valueEq_iff ha hb).mpr hkey)

theorem sameValue_equivalence : Equivalence sameValue where
  refl _ := Or.inl rfl
  symm {a b} h := by
    rw [sameValue_iff] at h ⊢
    rcases h with rfl | ⟨ha, hb, hkey⟩
    · exact Or.inl rfl
    · exact Or.inr ⟨hb, ha, hkey.symm⟩
  trans {a b c} hab hbc := by
    rw [sameValue_iff] at hab hbc ⊢
    rcases hab with rfl | ⟨ha, hb, hab⟩
    · exact hbc
    · rcases hbc with rfl | ⟨-, hc, hbc⟩
      · exact Or.inr ⟨ha, hb, hab⟩
      · exact Or.inr ⟨ha, hc, hab.trans hbc⟩

theorem index_of_valueKey {a b : Value} (h : valueKey a = valueKey b) : a.index = b.index := by
  cases a <;> cases b <;> simp_all [valueKey, Value.index]

theorem valueLess_congr {a b : Value} (h : sameValue a b) (c : Value) :
    valueLess a c = valueLess b c ∧ valueLess c a = valueLess c b := by
  rcases sameValue_iff.mp h with rfl | ⟨ha, hb, hkey⟩
  · exact ⟨rfl, rfl⟩
  · cases hc : c.isNaN with
    | true =>
      rw [valueLess_nan_right a hc, valueLess_nan_right b hc, valueLess_nan_left a hc,
        valueLess_nan_left b hc, index_of_valueKey hkey]
      exact ⟨rfl, rfl⟩
    | false =>
      constructor
      · rw [Bool.eq_iff_iff, valueLess_iff ha hc, valueLess_iff hb hc, hkey]
      · rw [Bool.eq_iff_iff, valueLess_iff hc ha, valueLess_iff hc hb, hkey]

end Values

section Versions

def sameVersion (a b : MemEntry) : Prop := sameValue a.pk b.pk ∧ a.commitTs = b.commitTs

instance decidableSameVersion (a b : MemEntry) : Decidable (sameVersion a b) :=
  inferInstanceAs (Decidable (sameValue a.pk b.pk ∧ a.commitTs = b.commitTs))

theorem mvccLess_asymm {a b : MemEntry} (h : mvccLess a b = true) : mvccLess b a = false := by
  rw [mvccLess] at h ⊢
  cases hab : valueLess a.pk b.pk with
  | true => simp [valueLess_asymm hab]
  | false =>
    cases hba : valueLess b.pk a.pk with
    | true => simp [hab, hba] at h
    | false =>
      simp only [hab, hba, Bool.false_eq_true, if_false, decide_eq_true_iff] at h
      simp [h.le]

theorem mvccLess_keyOrder : KeyOrder mvccLess sameVersion where
  equiv :=
    { refl := fun a => ⟨sameValue_equivalence.refl a.pk, rfl⟩
      symm := fun h => ⟨sameValue_equivalence.symm h.1, h.2.symm⟩
      trans := fun h h' => ⟨sameValue_equivalence.trans h.1 h'.1, h.2.trans h'.2⟩ }
  asymm _ _ := mvccLess_asymm
  congr_left a b c h := by
    rw [mvccLess, mvccLess, (valueLess_congr h.1 c.pk).1, (valueLess_congr h.1 c.pk).2, h.2]
  congr_right a b c h := by
    rw [mvccLess, mvccLess, (valueLess_congr h.1 c.pk).1, (valueLess_congr h.1 c.pk).2, h.2]

theorem strictOn_of_ordered {es : List MemEntry} (ho : Ordered es) :
    StrictOn mvccLess sameVersion es where
  trans a ha b hb c hc hab hbc := by
    rw [mvccLess_decides a b (ho a ha) (ho b hb)] at hab
    rw [mvccLess_decides b c (ho b hb) (ho c hc)] at hbc
    rw [mvccLess_decides a c (ho a ha) (ho c hc)]
    exact hab.trans hbc
  ties a ha b hb hab hba := by
    have hlt : ¬ VersionLt a b := by
      rw [← mvccLess_decides a b (ho a ha) (ho b hb), hab]
      exact Bool.false_ne_true
    have hgt : ¬ VersionLt b a := by
      rw [← mvccLess_decides b a (ho b hb) (ho a ha), hba]
      exact Bool.false_ne_true
    obtain ⟨hkey, hts⟩ := same_version_of_not_versionLt hlt hgt
    exact ⟨sameValue_iff.mpr (Or.inr ⟨ho a ha, ho b hb, hkey⟩), hts⟩

/-- The merge of two sorted lists is their sorted union, with the entries of the first list where
both have a version, just when `MVCCKeyCompare` orders the entries of both. -/
theorem mergeEntries_isOrderedUnion_iff {xs ys : List MemEntry} (hx : Sorted xs) (hy : Sorted ys) :
    IsOrderedUnion mvccLess sameVersion xs ys (mergeEntries xs ys) ↔
      StrictOn mvccLess sameVersion (xs ++ ys) :=
  isOrderedUnion_priorityMerge_iff mvccLess_keyOrder hx hy

/-- An entry that is in both lists, with a deletion and a row. -/
theorem mergeEntries_isOrderedUnion_deleted :
    IsOrderedUnion mvccLess sameVersion [⟨.int 1, ⟨[]⟩, true, 5⟩]
      [⟨.int 1, ⟨[.int 1]⟩, false, 5⟩, ⟨.int 1, ⟨[.int 1]⟩, false, 3⟩]
      (mergeEntries [⟨.int 1, ⟨[]⟩, true, 5⟩]
        [⟨.int 1, ⟨[.int 1]⟩, false, 5⟩, ⟨.int 1, ⟨[.int 1]⟩, false, 3⟩]) := by
  apply (mergeEntries_isOrderedUnion_iff (by decide) (by decide)).mpr
  apply strictOn_of_ordered
  decide

/-- The key of the second list is a `NaN`, and lost. -/
theorem mergeEntries_loses_nan :
    let one : MemEntry := ⟨.double ⟨0x3FF0000000000000⟩, ⟨[]⟩, false, 5⟩
    let nan : MemEntry := ⟨.double ⟨0x7FF8000000000000⟩, ⟨[]⟩, false, 5⟩
    Sorted [one] ∧ Sorted [nan] ∧ mergeEntries [one] [nan] = [one] ∧ ¬ sameVersion one nan := by
  decide

end Versions

end CoroDB
