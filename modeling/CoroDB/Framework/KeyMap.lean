import Mathlib

/-!
# Hash containers under a key test

An `unordered_map` finds its keys with an equality test that the program supplies.
-/

namespace CoroDB.Framework

universe u v

structure KeyEq (κ : Type u) where
  eq : κ → κ → Bool
  symm : ∀ {a b : κ}, eq a b = true → eq b a = true
  trans : ∀ {a b c : κ}, eq a b = true → eq b c = true → eq a c = true

namespace KeyEq

variable {κ : Type u}

def ofDecidableEq (κ : Type u) [DecidableEq κ] : KeyEq κ where
  eq a b := decide (a = b)
  symm h := by simpa using (of_decide_eq_true h).symm
  trans h h' := by simpa using (of_decide_eq_true h).trans (of_decide_eq_true h')

@[simp]
theorem ofDecidableEq_eq [DecidableEq κ] {a b : κ} :
    (ofDecidableEq κ).eq a b = true ↔ a = b :=
  decide_eq_true_iff

def prod {μ : Type v} (E : KeyEq κ) (F : KeyEq μ) : KeyEq (κ × μ) where
  eq a b := E.eq a.1 b.1 && F.eq a.2 b.2
  symm h := by
    rw [Bool.and_eq_true] at h ⊢
    exact ⟨E.symm h.1, F.symm h.2⟩
  trans h h' := by
    rw [Bool.and_eq_true] at h h' ⊢
    exact ⟨E.trans h.1 h'.1, F.trans h.2 h'.2⟩

variable (E : KeyEq κ) {a b c : κ}

theorem comm : E.eq a b = E.eq b a :=
  Bool.eq_iff_iff.mpr ⟨E.symm, E.symm⟩

theorem eq_left (h : E.eq a b = true) : E.eq a c = E.eq b c :=
  Bool.eq_iff_iff.mpr ⟨E.trans (E.symm h), E.trans h⟩

theorem eq_right (h : E.eq a b = true) : E.eq c a = E.eq c b := by
  rw [E.comm, E.eq_left h, E.comm]

end KeyEq

structure KeyMap {κ : Type u} (E : KeyEq κ) (β : Type v) where
  entries : List (κ × β)
  distinct : entries.Pairwise fun p q => E.eq p.1 q.1 = false

namespace KeyMap

variable {κ : Type u} {E : KeyEq κ} {β : Type v}

@[ext]
theorem ext {m n : KeyMap E β} (h : m.entries = n.entries) : m = n := by
  cases m
  cases n
  cases h
  rfl

def empty : KeyMap E β := ⟨[], List.Pairwise.nil⟩

def get? (m : KeyMap E β) (k : κ) : Option β :=
  (m.entries.find? fun p => E.eq p.1 k).map Prod.snd

def contains (m : KeyMap E β) (k : κ) : Bool := m.entries.any fun p => E.eq p.1 k

private theorem distinct_map (m : KeyMap E β) (g : κ × β → β) :
    (m.entries.map fun p => (p.1, g p)).Pairwise fun p q => E.eq p.1 q.1 = false := by
  rw [List.pairwise_map]
  exact m.distinct

private theorem distinct_append {m : KeyMap E β} {k : κ} (h : m.contains k = false) (v : β) :
    (m.entries ++ [(k, v)]).Pairwise fun p q => E.eq p.1 q.1 = false := by
  rw [List.pairwise_append]
  refine ⟨m.distinct, List.pairwise_singleton _ _, ?_⟩
  intro p hp q hq
  rw [List.mem_singleton.mp hq]
  simpa using List.any_eq_false.mp h p hp

/-- Give the key its value; a key that is there stays as it was first written. -/
def assign (m : KeyMap E β) (k : κ) (v : β) : KeyMap E β :=
  if h : m.contains k = false then ⟨m.entries ++ [(k, v)], distinct_append h v⟩
  else ⟨m.entries.map fun p => (p.1, if E.eq p.1 k then v else p.2), distinct_map m _⟩

def erase (m : KeyMap E β) (k : κ) : KeyMap E β :=
  ⟨m.entries.filter fun p => !E.eq p.1 k, m.distinct.filter _⟩

def filterValues (m : KeyMap E β) (p : β → Bool) : KeyMap E β :=
  ⟨m.entries.filter fun e => p e.2, m.distinct.filter _⟩

def filterKeys (m : KeyMap E β) (p : κ → Bool) : KeyMap E β :=
  ⟨m.entries.filter fun e => p e.1, m.distinct.filter _⟩

variable {m : KeyMap E β} {k j : κ} {v : β} {p q : κ × β}

theorem contains_iff : m.contains k = true ↔ ∃ p ∈ m.entries, E.eq p.1 k = true :=
  List.any_eq_true

theorem contains_congr (h : E.eq k j = true) : m.contains k = m.contains j := by
  simp only [contains, E.eq_right h]

theorem contains_of_mem (hp : p ∈ m.entries) (h : E.eq p.1 k = true) : m.contains k = true :=
  contains_iff.mpr ⟨p, hp, h⟩

theorem eq_of_mem (hp : p ∈ m.entries) (hq : q ∈ m.entries) (h : E.eq p.1 q.1 = true) : p = q := by
  by_contra hne
  rcases List.pairwise_iff_getElem.mp m.distinct with hd
  obtain ⟨i, hi, rfl⟩ := List.getElem_of_mem hp
  obtain ⟨l, hl, rfl⟩ := List.getElem_of_mem hq
  rcases lt_trichotomy i l with hil | rfl | hli
  · simp [hd i l hi hl hil] at h
  · exact hne rfl
  · rw [E.comm, hd l i hl hi hli] at h
    exact absurd h Bool.false_ne_true

theorem get?_eq_some_iff : m.get? k = some v ↔ ∃ p ∈ m.entries, E.eq p.1 k = true ∧ p.2 = v := by
  constructor
  · intro h
    obtain ⟨p, hp, rfl⟩ := Option.map_eq_some_iff.mp h
    exact ⟨p, List.mem_of_find?_eq_some hp, by simpa using List.find?_some hp, rfl⟩
  · rintro ⟨p, hp, hk, rfl⟩
    cases hf : m.entries.find? fun q => E.eq q.1 k with
    | none => exact absurd hk (List.find?_eq_none.mp hf p hp)
    | some q =>
      have hq : E.eq q.1 k = true := by simpa using List.find?_some hf
      have hpq := eq_of_mem hp (List.mem_of_find?_eq_some hf) (E.trans hk (E.symm hq))
      rw [get?, hf, hpq]
      rfl

theorem get?_eq_none_iff : m.get? k = none ↔ m.contains k = false := by
  rw [get?, Option.map_eq_none_iff, List.find?_eq_none, contains, List.any_eq_false]

theorem get?_congr (h : E.eq k j = true) : m.get? k = m.get? j := by
  simp only [get?, E.eq_right h]

@[simp]
theorem entries_empty : (empty : KeyMap E β).entries = [] := rfl

@[simp]
theorem contains_empty : (empty : KeyMap E β).contains k = false := rfl

@[simp]
theorem get?_empty : (empty : KeyMap E β).get? k = none := rfl

theorem mem_assign : p ∈ (m.assign k v).entries ↔
    (p.2 = v ∧ (p.1 = k ∧ m.contains k = false ∨ E.eq p.1 k = true ∧ ∃ w, (p.1, w) ∈ m.entries)) ∨
      (p ∈ m.entries ∧ E.eq p.1 k = false) := by
  obtain ⟨a, b⟩ := p
  rw [assign]
  split_ifs with h
  · have hne : ∀ w, (a, w) ∈ m.entries → E.eq a k = false := by
      intro w hw
      simpa using List.any_eq_false.mp h (a, w) hw
    simp only [List.mem_append, List.mem_singleton, Prod.mk.injEq]
    grind
  · have hk : m.contains k = true := by simpa using h
    simp only [List.mem_map, Prod.mk.injEq, Prod.exists]
    grind

theorem length_assign_le : (m.assign k v).entries.length ≤ m.entries.length + 1 := by
  rw [assign]
  split_ifs <;> simp

theorem mem_assign_of_free (h : m.contains k = false) :
    p ∈ (m.assign k v).entries ↔ p ∈ m.entries ∨ p = (k, v) := by
  simp [assign, h]

theorem mem_erase : p ∈ (m.erase k).entries ↔ p ∈ m.entries ∧ E.eq p.1 k = false := by
  simp [erase]

theorem erase_assign_of_free (h : m.contains k = false) (hk : E.eq k k = true) :
    (m.assign k v).erase k = m := by
  ext1
  have hall : ∀ p ∈ m.entries, (!E.eq p.1 k) = true := by simpa [contains] using h
  simp [assign, erase, h, hk, List.filter_eq_self.mpr hall]

theorem get?_assign : (m.assign k v).get? j = if E.eq k j then some v else m.get? j := by
  ext w
  rw [get?_eq_some_iff]
  split_ifs with hkj
  · constructor
    · rintro ⟨p, hp, hpj, rfl⟩
      rcases mem_assign.mp hp with ⟨rfl, -⟩ | ⟨-, hne⟩
      · rfl
      · rw [E.trans hpj (E.symm hkj)] at hne
        exact absurd hne Bool.true_eq_false.mp
    · rintro ⟨⟩
      cases hc : m.contains k with
      | false => exact ⟨(k, v), mem_assign.mpr (.inl ⟨rfl, .inl ⟨rfl, hc⟩⟩), hkj, rfl⟩
      | true =>
        obtain ⟨p, hp, hpk⟩ := contains_iff.mp hc
        exact ⟨(p.1, v), mem_assign.mpr (.inl ⟨rfl, .inr ⟨hpk, p.2, hp⟩⟩), E.trans hpk hkj, rfl⟩
  · rw [get?_eq_some_iff]
    constructor
    · rintro ⟨p, hp, hpj, rfl⟩
      rcases mem_assign.mp hp with ⟨-, ⟨rfl, -⟩ | ⟨hpk, -⟩⟩ | ⟨hp, -⟩
      · exact absurd hpj hkj
      · exact absurd (E.trans (E.symm hpk) hpj) hkj
      · exact ⟨p, hp, hpj, rfl⟩
    · rintro ⟨p, hp, hpj, rfl⟩
      refine ⟨p, mem_assign.mpr (.inr ⟨hp, ?_⟩), hpj, rfl⟩
      rw [← Bool.not_eq_true]
      exact fun hpk => hkj (E.trans (E.symm hpk) hpj)

theorem get?_erase : (m.erase k).get? j = if E.eq k j then none else m.get? j := by
  ext w
  rw [get?_eq_some_iff]
  split_ifs with hkj
  · simp only [mem_erase, iff_false]
    rintro ⟨p, ⟨-, hne⟩, hpj, -⟩
    rw [E.trans hpj (E.symm hkj)] at hne
    exact absurd hne Bool.true_eq_false.mp
  · rw [get?_eq_some_iff]
    refine exists_congr fun p => ?_
    rw [mem_erase]
    refine ⟨fun h => ⟨h.1.1, h.2⟩, fun h => ⟨⟨h.1, ?_⟩, h.2⟩⟩
    rw [← Bool.not_eq_true]
    exact fun hpk => hkj (E.trans (E.symm hpk) h.2.1)

theorem get?_filterKeys {f : κ → Bool} (hf : ∀ a b, E.eq a b = true → f a = f b) :
    (m.filterKeys f).get? k = if f k then m.get? k else none := by
  ext w
  rw [get?_eq_some_iff]
  simp only [filterKeys, List.mem_filter]
  split_ifs with hk
  · rw [get?_eq_some_iff]
    apply exists_congr
    intro p
    constructor
    · exact fun h => ⟨h.1.1, h.2⟩
    · exact fun h => ⟨⟨h.1, (hf p.1 k h.2.1).trans hk⟩, h.2⟩
  · simp only [iff_false]
    rintro ⟨p, ⟨-, hp⟩, hpk, -⟩
    exact hk ((hf p.1 k hpk).symm.trans hp)

theorem contains_eq_isSome : m.contains k = (m.get? k).isSome := by
  cases h : m.get? k with
  | none => exact get?_eq_none_iff.mp h
  | some v =>
    obtain ⟨p, hp, hk, -⟩ := get?_eq_some_iff.mp h
    exact contains_of_mem hp hk

theorem contains_assign : (m.assign k v).contains j = (E.eq k j || m.contains j) := by
  rw [contains_eq_isSome, get?_assign, contains_eq_isSome]
  split_ifs with h <;> simp [h]

theorem contains_erase : (m.erase k).contains j = (!E.eq k j && m.contains j) := by
  rw [contains_eq_isSome, get?_erase, contains_eq_isSome]
  split_ifs with h <;> simp [h]

theorem get?_of_mem (hp : p ∈ m.entries) (h : E.eq p.1 p.1 = true) : m.get? p.1 = some p.2 :=
  get?_eq_some_iff.mpr ⟨p, hp, h, rfl⟩

end KeyMap

end CoroDB.Framework
