import CoroDB.Framework.GcCascade

/-!
# Lists of versions

Entries with a key, a timestamp and a cell.
-/

namespace CoroDB.Framework

class Versioned (ε : Type*) (κ τ ρ : outParam Type*) where
  key : ε → κ
  ts : ε → τ
  cell : ε → Option ρ

section Merge

variable {α : Type*} (lt : α → α → Bool)

/-- Emit `x` and continue with `rest`, after the elements of the right stream that precede it. -/
def mergeFrom (x : α) (rest : List α → List α) : List α → List α
  | [] => x :: rest []
  | y :: ys =>
    if lt x y then x :: rest (y :: ys)
    else if lt y x then y :: mergeFrom x rest ys
    else x :: rest ys

/-- Merge two streams; of two elements that precede each other in no direction the left stays. -/
def priorityMerge : List α → List α → List α
  | [], ys => ys
  | x :: xs, ys => mergeFrom lt x (priorityMerge xs) ys

variable {lt}

@[simp] theorem priorityMerge_nil_left (ys : List α) : priorityMerge lt [] ys = ys := rfl

@[simp] theorem priorityMerge_nil_right (xs : List α) : priorityMerge lt xs [] = xs := by
  induction xs with
  | nil => rfl
  | cons x xs ih => simp [priorityMerge, mergeFrom, ih]

theorem priorityMerge_cons_cons (x y : α) (xs ys : List α) :
    priorityMerge lt (x :: xs) (y :: ys) =
      if lt x y then x :: priorityMerge lt xs (y :: ys)
      else if lt y x then y :: priorityMerge lt (x :: xs) ys
      else x :: priorityMerge lt xs ys := rfl

variable (lt) in
theorem priorityMerge_induction {motive : List α → List α → Prop}
    (left : ∀ ys, motive [] ys) (right : ∀ xs, motive xs [])
    (emitLeft : ∀ x xs y ys, lt x y = true → motive xs (y :: ys) → motive (x :: xs) (y :: ys))
    (emitRight : ∀ x xs y ys, lt x y = false → lt y x = true → motive (x :: xs) ys →
      motive (x :: xs) (y :: ys))
    (tie : ∀ x xs y ys, lt x y = false → lt y x = false → motive xs ys →
      motive (x :: xs) (y :: ys))
    (xs ys : List α) : motive xs ys := by
  induction xs generalizing ys with
  | nil => exact left ys
  | cons x xs ih =>
    induction ys with
    | nil => exact right _
    | cons y ys ih' =>
      cases hxy : lt x y with
      | true => exact emitLeft x xs y ys hxy (ih _)
      | false =>
        cases hyx : lt y x with
        | true => exact emitRight x xs y ys hxy hyx ih'
        | false => exact tie x xs y ys hxy hyx (ih _)

theorem mem_of_mem_priorityMerge {a : α} {xs ys : List α} (h : a ∈ priorityMerge lt xs ys) :
    a ∈ xs ∨ a ∈ ys := by
  induction xs, ys using priorityMerge_induction lt with
  | left ys => exact .inr h
  | right xs => exact .inl (by simpa using h)
  | emitLeft x xs y ys hxy ih =>
    rw [priorityMerge_cons_cons, if_pos hxy] at h
    rcases List.mem_cons.mp h with rfl | h
    · exact .inl List.mem_cons_self
    · exact (ih h).imp_left (List.mem_cons_of_mem _)
  | emitRight x xs y ys hxy hyx ih =>
    rw [priorityMerge_cons_cons, if_neg (by simp [hxy]), if_pos hyx] at h
    rcases List.mem_cons.mp h with rfl | h
    · exact .inr List.mem_cons_self
    · exact (ih h).imp_right (List.mem_cons_of_mem _)
  | tie x xs y ys hxy hyx ih =>
    rw [priorityMerge_cons_cons, if_neg (by simp [hxy]), if_neg (by simp [hyx])] at h
    rcases List.mem_cons.mp h with rfl | h
    · exact .inl List.mem_cons_self
    · exact (ih h).imp (List.mem_cons_of_mem _) (List.mem_cons_of_mem _)

theorem mem_priorityMerge_left {a : α} {xs : List α} (ys : List α) (h : a ∈ xs) :
    a ∈ priorityMerge lt xs ys := by
  induction xs, ys using priorityMerge_induction lt with
  | left ys => simp at h
  | right xs => simpa using h
  | emitLeft x xs y ys hxy ih =>
    rw [priorityMerge_cons_cons, if_pos hxy]
    rcases List.mem_cons.mp h with rfl | h
    · exact List.mem_cons_self
    · exact List.mem_cons_of_mem _ (ih h)
  | emitRight x xs y ys hxy hyx ih =>
    rw [priorityMerge_cons_cons, if_neg (by simp [hxy]), if_pos hyx]
    exact List.mem_cons_of_mem _ (ih h)
  | tie x xs y ys hxy hyx ih =>
    rw [priorityMerge_cons_cons, if_neg (by simp [hxy]), if_neg (by simp [hyx])]
    rcases List.mem_cons.mp h with rfl | h
    · exact List.mem_cons_self
    · exact List.mem_cons_of_mem _ (ih h)

theorem mem_priorityMerge_right {a : α} (xs : List α) {ys : List α} (h : a ∈ ys) :
    a ∈ priorityMerge lt xs ys ∨ ∃ x ∈ xs, lt x a = false ∧ lt a x = false := by
  induction xs, ys using priorityMerge_induction lt with
  | left ys => exact .inl h
  | right xs => simp at h
  | emitLeft x xs y ys hxy ih =>
    rw [priorityMerge_cons_cons, if_pos hxy]
    rcases ih h with h | ⟨x', hx', htie⟩
    · exact .inl (List.mem_cons_of_mem _ h)
    · exact .inr ⟨x', List.mem_cons_of_mem _ hx', htie⟩
  | emitRight x xs y ys hxy hyx ih =>
    rw [priorityMerge_cons_cons, if_neg (by simp [hxy]), if_pos hyx]
    rcases List.mem_cons.mp h with rfl | h
    · exact .inl List.mem_cons_self
    · exact (ih h).imp_left (List.mem_cons_of_mem _)
  | tie x xs y ys hxy hyx ih =>
    rw [priorityMerge_cons_cons, if_neg (by simp [hxy]), if_neg (by simp [hyx])]
    rcases List.mem_cons.mp h with rfl | h
    · exact .inr ⟨x, List.mem_cons_self, hxy, hyx⟩
    · rcases ih h with h | ⟨x', hx', htie⟩
      · exact .inl (List.mem_cons_of_mem _ h)
      · exact .inr ⟨x', List.mem_cons_of_mem _ hx', htie⟩

end Merge

section Versions

open Versioned

variable {ε κ τ ρ : Type*} [Versioned ε κ τ ρ]

/-- Some entry of the list has the version of `e`. -/
def HasVersion (es : List ε) (e : ε) : Prop := ∃ x ∈ es, key x = key e ∧ ts x = ts e

/-- The list `fs` has every version of `es`. -/
def Carries (es fs : List ε) : Prop := ∀ e ∈ es, HasVersion fs e

theorem hasVersion_of_mem {es : List ε} {e : ε} (he : e ∈ es) : HasVersion es e :=
  ⟨e, he, rfl, rfl⟩

theorem Carries.refl (es : List ε) : Carries es es := fun _ he => hasVersion_of_mem he

theorem Carries.hasVersion {es fs : List ε} (h : Carries es fs) {e : ε} (he : HasVersion es e) :
    HasVersion fs e := by
  obtain ⟨x, hx, hk, ht⟩ := he
  obtain ⟨y, hy, hk', ht'⟩ := h x hx
  exact ⟨y, hy, hk'.trans hk, ht'.trans ht⟩

theorem Carries.trans {es fs gs : List ε} (h : Carries es fs) (h' : Carries fs gs) :
    Carries es gs :=
  fun e he => h'.hasVersion (h e he)

theorem carries_priorityMerge_left {lt : ε → ε → Bool} (xs ys : List ε) :
    Carries xs (priorityMerge lt xs ys) :=
  fun _ he => hasVersion_of_mem (mem_priorityMerge_left ys he)

end Versions

section Entries

open Versioned

variable {ε κ τ ρ : Type*} [Versioned ε κ τ ρ] [LinearOrder κ] [LinearOrder τ]

/-- The history of a list: the first entry of a version gives its cell. -/
def History.ofList (es : List ε) : History κ τ ρ :=
  fun k t => (es.find? fun e => key e = k ∧ ts e = t).map cell

namespace History

@[simp] theorem ofList_nil : ofList ([] : List ε) = empty := rfl

theorem ofList_cons (e : ε) (es : List ε) (k : κ) (t : τ) :
    ofList (e :: es) k t = if key e = k ∧ ts e = t then some (cell e) else ofList es k t := by
  by_cases h : key e = k ∧ ts e = t <;> simp [ofList, h]

theorem ofList_append (es fs : List ε) : ofList (es ++ fs) = overlay (ofList es) (ofList fs) := by
  funext k t
  simp only [ofList, overlay, List.find?_append, Option.map_or]

theorem ofList_flatMap {ι : Type*} (g : ι → List ε) (is : List ι) :
    ofList (is.flatMap g) = overlays (is.map fun i => ofList (g i)) := by
  induction is with
  | nil => rfl
  | cons i is ih => rw [List.flatMap_cons, ofList_append, ih]; rfl

theorem ofList_eq_none {es : List ε} {k : κ} {t : τ} :
    ofList es k t = none ↔ ∀ e ∈ es, key e = k → ts e ≠ t := by
  simp [ofList]

theorem exists_of_ofList {es : List ε} {k : κ} {t : τ} {c : Option ρ}
    (h : ofList es k t = some c) : ∃ e ∈ es, key e = k ∧ ts e = t ∧ cell e = c := by
  obtain ⟨e, he, hc⟩ := Option.map_eq_some_iff.mp h
  have hp := List.find?_some he
  simp only [decide_eq_true_eq] at hp
  exact ⟨e, List.mem_of_find?_eq_some he, hp.1, hp.2, hc⟩

theorem ofList_ne_none {es : List ε} {e : ε} (he : e ∈ es) : ofList es (key e) (ts e) ≠ none :=
  fun h => ofList_eq_none.mp h e he rfl rfl

theorem ofList_filter_of_version {p : ε → Bool} {es : List ε} {k : κ} {t : τ}
    (h : ∀ e ∈ es, key e = k → ts e = t → p e = true) :
    ofList (es.filter p) k t = ofList es k t := by
  induction es with
  | nil => rfl
  | cons e es ih =>
    have hes : ∀ x ∈ es, key x = k → ts x = t → p x = true :=
      fun x hx => h x (List.mem_cons_of_mem e hx)
    by_cases hp : p e = true
    · rw [List.filter_cons_of_pos hp, ofList_cons, ofList_cons, ih hes]
    · have hne : ¬ (key e = k ∧ ts e = t) := fun hv => hp (h e List.mem_cons_self hv.1 hv.2)
      rw [List.filter_cons_of_neg hp, ofList_cons, if_neg hne, ih hes]

theorem ofList_filter_ts (f : τ → Bool) (es : List ε) (k : κ) (t : τ) :
    ofList (es.filter fun e => f (ts e)) k t = if f t then ofList es k t else none := by
  split_ifs with ht
  · apply ofList_filter_of_version
    rintro e - - rfl
    exact ht
  · rw [ofList_eq_none]
    rintro e he - rfl
    exact ht (List.mem_filter.mp he).2

theorem ofList_founded (es : List ε) : Founded (ofList es) := by
  induction es with
  | nil => exact fun k s => .inl fun t _ => rfl
  | cons e es ih =>
    have hone : Founded (ofList [e]) := by
      intro k s
      by_cases h : key e = k ∧ ts e ≤ s
      · refine .inr ⟨ts e, cell e, by simp [ofList_cons, h.1], h.2, ?_⟩
        intro t _ hv
        have : key e = k ∧ ts e = t := by
          by_contra hne
          simp [ofList_cons, hne, empty] at hv
        exact this.2.ge
      · left
        intro t ht
        rw [ofList_cons, if_neg (fun hk => h ⟨hk.1, hk.2.trans_le ht⟩)]
        rfl
    have := hone.overlay ih
    rwa [← ofList_append] at this

end History

open History (ofList ofList_cons overlay_apply exists_of_ofList ofList_append ofList_eq_none
  ofList_ne_none view_eq)

/-- The newest of the entries selected by `p` with a timestamp up to `s`, the first of them on a
tie. -/
def newestIn (p : ε → Bool) (s : τ) (es : List ε) : Option ε :=
  (es.filter fun e => p e && decide (ts e ≤ s)).argmax ts

theorem newestIn_spec {p : ε → Bool} {k : κ} {es : List ε} (s : τ)
    (hp : ∀ e ∈ es, (p e = true ↔ key e = k)) :
    match newestIn p s es with
    | none => ∀ t, t ≤ s → ofList es k t = none
    | some m => m ∈ es ∧ key m = k ∧ History.IsNewest (ofList es) k s (ts m) (cell m) := by
  induction es with
  | nil => exact fun t _ => rfl
  | cons e es ih =>
    have ih := ih fun a ha => hp a (List.mem_cons_of_mem _ ha)
    have hpe := hp e List.mem_cons_self
    by_cases hsel : key e = k ∧ ts e ≤ s
    · have hfilter : newestIn p s (e :: es) = match newestIn p s es with
          | none => some e
          | some c => if ts e < ts c then some c else some e := by
        rw [newestIn, List.filter_cons_of_pos (by simp [hpe.mpr hsel.1, hsel.2]), List.argmax_cons]
        unfold newestIn
        split <;> simp [*]
      cases hn : newestIn p s es with
      | none =>
        rw [hn] at ih
        simp only [hfilter, hn]
        refine ⟨List.mem_cons_self, hsel.1, by simp [ofList_cons, hsel.1], hsel.2, ?_⟩
        intro t ht hv
        by_contra hne
        exact hv (by rw [ofList_cons, if_neg (fun h => hne h.2.ge), ih t ht])
      | some c =>
        rw [hn] at ih
        obtain ⟨hmem, hk, hc, hcs, hmax⟩ := ih
        simp only [hfilter, hn]
        by_cases hlt : ts e < ts c
        · rw [if_pos hlt]
          refine ⟨List.mem_cons_of_mem _ hmem, hk, ?_, hcs, ?_⟩
          · rw [ofList_cons, if_neg (fun h => hlt.ne h.2), hc]
          · intro t ht hv
            by_cases he : key e = k ∧ ts e = t
            · exact he.2 ▸ hlt.le
            · exact hmax t ht (by rwa [ofList_cons, if_neg he] at hv)
        · rw [if_neg hlt]
          refine ⟨List.mem_cons_self, hsel.1, by simp [ofList_cons, hsel.1], hsel.2, ?_⟩
          intro t ht hv
          by_cases he : key e = k ∧ ts e = t
          · exact he.2.ge
          · exact (hmax t ht (by rwa [ofList_cons, if_neg he] at hv)).trans (not_lt.mp hlt)
    · have hfilter : newestIn p s (e :: es) = newestIn p s es := by
        rw [newestIn, List.filter_cons_of_neg]
        · rfl
        · simpa [hpe] using hsel
      have hsame : ∀ t, t ≤ s → ofList (e :: es) k t = ofList es k t := by
        intro t ht
        rw [ofList_cons, if_neg (fun h => hsel ⟨h.1, h.2.trans_le ht⟩)]
      rw [hfilter]
      cases hn : newestIn p s es with
      | none =>
        rw [hn] at ih
        intro t ht
        rw [hsame t ht, ih t ht]
      | some c =>
        rw [hn] at ih
        obtain ⟨hmem, hk, hc, hcs, hmax⟩ := ih
        refine ⟨List.mem_cons_of_mem _ hmem, hk, (hsame _ hcs).trans hc, hcs, ?_⟩
        intro t ht hv
        exact hmax t ht (by rwa [hsame t ht] at hv)

theorem newestIn_view {p : ε → Bool} {k : κ} {es : List ε} (s : τ)
    (hp : ∀ e ∈ es, (p e = true ↔ key e = k)) :
    (newestIn p s es).bind cell = History.view (ofList es) k s := by
  have hspec := newestIn_spec s hp
  cases hn : newestIn p s es with
  | none =>
    rw [hn] at hspec
    exact (History.view_eq_none hspec).symm
  | some m =>
    rw [hn] at hspec
    exact (view_eq hspec.2.2).symm

/-- The order of a sorted list: keys ascending, the versions of one key from the newest down. -/
def VersionLt (a b : ε) : Prop := key a < key b ∨ key a = key b ∧ ts b < ts a

theorem VersionLt.trans {a b c : ε} (hab : VersionLt a b) (hbc : VersionLt b c) :
    VersionLt a c := by
  rcases hab with hab | ⟨hk, hab⟩
  · rcases hbc with hbc | ⟨hk, _⟩
    · exact .inl (hab.trans hbc)
    · exact .inl (hk ▸ hab)
  · rcases hbc with hbc | ⟨hk', hbc⟩
    · exact .inl (hk ▸ hbc)
    · exact .inr ⟨hk.trans hk', hbc.trans hab⟩

theorem VersionLt.ne {a b : ε} (h : VersionLt a b) : ¬ (key a = key b ∧ ts a = ts b) := by
  rintro ⟨hk, ht⟩
  rcases h with h | ⟨_, h⟩
  · exact absurd hk h.ne
  · exact absurd ht h.ne'

theorem same_version_of_not_versionLt {a b : ε} (h : ¬ VersionLt a b) (h' : ¬ VersionLt b a) :
    key a = key b ∧ ts a = ts b := by
  simp only [VersionLt, not_or, not_lt, not_and] at h h'
  have hk : key a = key b := le_antisymm h'.1 h.1
  exact ⟨hk, le_antisymm (h.2 hk) (h'.2 hk.symm)⟩

def SortedVersions (es : List ε) : Prop := es.Pairwise VersionLt

/-- The comparator `lt` decides the version order on the entries that satisfy `P`. -/
def Decides (lt : ε → ε → Bool) (P : ε → Prop) : Prop :=
  ∀ a b, P a → P b → (lt a b = true ↔ VersionLt a b)

variable {lt : ε → ε → Bool} {P : ε → Prop}

theorem Decides.same_version (hlt : Decides lt P) {a b : ε} (ha : P a) (hb : P b)
    (hab : lt a b = false) (hba : lt b a = false) : key a = key b ∧ ts a = ts b :=
  same_version_of_not_versionLt
    (fun h => by simp [(hlt a b ha hb).mpr h] at hab)
    (fun h => by simp [(hlt b a hb ha).mpr h] at hba)

theorem carries_priorityMerge_right (hlt : Decides lt P) {xs ys : List ε} (hPx : ∀ x ∈ xs, P x)
    (hPy : ∀ y ∈ ys, P y) : Carries ys (priorityMerge lt xs ys) := by
  intro y hy
  rcases mem_priorityMerge_right xs hy with h | ⟨x, hx, hxy, hyx⟩
  · exact hasVersion_of_mem h
  · obtain ⟨hk, ht⟩ := hlt.same_version (hPx x hx) (hPy y hy) hxy hyx
    exact ⟨x, mem_priorityMerge_left ys hx, hk, ht⟩

theorem sortedVersions_priorityMerge (hlt : Decides lt P) {xs ys : List ε}
    (hx : SortedVersions xs) (hy : SortedVersions ys) (hPx : ∀ x ∈ xs, P x) (hPy : ∀ y ∈ ys, P y) :
    SortedVersions (priorityMerge lt xs ys) := by
  induction xs, ys using priorityMerge_induction lt with
  | left ys => exact hy
  | right xs => simpa using hx
  | emitLeft x xs y ys hxy ih =>
    obtain ⟨hx1, hx2⟩ := List.pairwise_cons.mp hx
    have hxy' := (hlt x y (hPx x List.mem_cons_self) (hPy y List.mem_cons_self)).mp hxy
    rw [priorityMerge_cons_cons, if_pos hxy]
    refine List.pairwise_cons.mpr
      ⟨?_, ih hx2 hy (fun a ha => hPx a (List.mem_cons_of_mem _ ha)) hPy⟩
    intro a ha
    rcases mem_of_mem_priorityMerge ha with ha | ha
    · exact hx1 a ha
    · rcases List.mem_cons.mp ha with rfl | ha
      · exact hxy'
      · exact hxy'.trans ((List.pairwise_cons.mp hy).1 a ha)
  | emitRight x xs y ys hxy hyx ih =>
    obtain ⟨hy1, hy2⟩ := List.pairwise_cons.mp hy
    have hyx' := (hlt y x (hPy y List.mem_cons_self) (hPx x List.mem_cons_self)).mp hyx
    rw [priorityMerge_cons_cons, if_neg (by simp [hxy]), if_pos hyx]
    refine List.pairwise_cons.mpr
      ⟨?_, ih hx hy2 hPx (fun a ha => hPy a (List.mem_cons_of_mem _ ha))⟩
    intro a ha
    rcases mem_of_mem_priorityMerge ha with ha | ha
    · rcases List.mem_cons.mp ha with rfl | ha
      · exact hyx'
      · exact hyx'.trans ((List.pairwise_cons.mp hx).1 a ha)
    · exact hy1 a ha
  | tie x xs y ys hxy hyx ih =>
    obtain ⟨hx1, hx2⟩ := List.pairwise_cons.mp hx
    obtain ⟨hy1, hy2⟩ := List.pairwise_cons.mp hy
    have hsame := hlt.same_version (hPx x List.mem_cons_self) (hPy y List.mem_cons_self) hxy hyx
    rw [priorityMerge_cons_cons, if_neg (by simp [hxy]), if_neg (by simp [hyx])]
    refine List.pairwise_cons.mpr
      ⟨?_, ih hx2 hy2 (fun a ha => hPx a (List.mem_cons_of_mem _ ha))
        (fun a ha => hPy a (List.mem_cons_of_mem _ ha))⟩
    intro a ha
    rcases mem_of_mem_priorityMerge ha with ha | ha
    · exact hx1 a ha
    · have := hy1 a ha
      rwa [VersionLt, ← hsame.1, ← hsame.2] at this

/-- Entries of the same version in the two lists carry the same cell. -/
def SameCells (xs ys : List ε) : Prop :=
  ∀ x ∈ xs, ∀ y ∈ ys, key x = key y → ts x = ts y → cell x = cell y

theorem ofList_of_mem {es : List ε} {e : ε} (hc : SameCells es es) (he : e ∈ es) :
    ofList es (key e) (ts e) = some (cell e) := by
  obtain ⟨c, hc'⟩ := Option.ne_none_iff_exists'.mp (ofList_ne_none he)
  obtain ⟨e', he', hk, ht, rfl⟩ := exists_of_ofList hc'
  rw [hc', hc e' he' e he hk ht]

omit [LinearOrder κ] [LinearOrder τ] in
theorem SameCells.subset {es fs : List ε} (hc : SameCells fs fs) (h : es ⊆ fs) : SameCells es es :=
  fun a ha b hb => hc a (h ha) b (h hb)

theorem SortedVersions.sameCells {es : List ε} (hs : SortedVersions es) : SameCells es es := by
  induction es with
  | nil => simp [SameCells]
  | cons e es ih =>
    obtain ⟨hhead, htail⟩ := List.pairwise_cons.mp hs
    intro x hx y hy hk ht
    rcases List.mem_cons.mp hx with hxe | hx' <;> rcases List.mem_cons.mp hy with hye | hy'
    · rw [hxe, hye]
    · exact absurd ⟨hxe ▸ hk, hxe ▸ ht⟩ (hhead y hy').ne
    · exact absurd ⟨hye ▸ hk.symm, hye ▸ ht.symm⟩ (hhead x hx').ne
    · exact ih htail x hx' y hy' hk ht

theorem exists_of_isNewest {es : List ε} {k : κ} {s t : τ} {c : Option ρ}
    (hn : History.IsNewest (ofList es) k s t c) :
    ∃ e ∈ es, key e = k ∧ ts e = t ∧ cell e = c ∧ ts e ≤ s ∧
      ∀ e' ∈ es, key e' = k → ts e' ≤ s → ts e' ≤ ts e := by
  obtain ⟨e, he, rfl, rfl, rfl⟩ := exists_of_ofList hn.1
  exact ⟨e, he, rfl, rfl, rfl, hn.2.1, fun e' he' hk hs =>
    hn.2.2 (ts e') hs (hk ▸ ofList_ne_none he')⟩

theorem isNewest_of_mem {es : List ε} {e : ε} {s : τ} (hc : SameCells es es) (he : e ∈ es)
    (hs : ts e ≤ s) (hmax : ∀ e' ∈ es, key e' = key e → ts e' ≤ s → ts e' ≤ ts e) :
    History.IsNewest (ofList es) (key e) s (ts e) (cell e) := by
  refine ⟨ofList_of_mem hc he, hs, fun t ht hv => ?_⟩
  obtain ⟨c, hc'⟩ := Option.ne_none_iff_exists'.mp hv
  obtain ⟨e', he', hk, rfl, -⟩ := exists_of_ofList hc'
  exact hmax e' he' hk ht

/-- A lone deletion among the entries `us` hides a value of the entries `others` at `h`. -/
def HidesValue (us others : List ε) (h : τ) (k : κ) : Prop :=
  ∃ a ∈ us, key a = k ∧ cell a = none ∧ ts a ≤ h ∧ (∀ e ∈ us, key e = k → ts e ≤ ts a) ∧
    ∃ r ∈ others, key r = k ∧ cell r ≠ none ∧ ts r ≤ ts a ∧
      ∀ e ∈ others, key e = k → ts e ≤ h → ts e ≤ ts r

section Hiding

variable {ks us js : List ε} {h : τ} {k : κ}

theorem hidesValue_of_drops (hd : History.Drops (ofList us) h k)
    (hv : History.view (ofList (ks ++ js)) k h ≠ none)
    (hnone : History.view (ofList (ks ++ (us ++ js))) k h = none) :
    HidesValue us (ks ++ js) h k := by
  obtain ⟨t, ha⟩ := hd.1
  obtain ⟨a, hau, hka, rfl, hca, hah, hamax⟩ := exists_of_isNewest ha
  refine ⟨a, hau, hka, hca, hah, fun e he hk => ?_, ?_⟩
  · rcases le_or_gt (ts e) h with hle | hlt
    · exact hamax e he hk hle
    · exact absurd (hd.2 (ts e) hlt) (hk ▸ ofList_ne_none he)
  · rcases History.ofList_founded (ks ++ js) k h with hn | ⟨t, c, hn⟩
    · exact absurd (History.view_eq_none hn) hv
    · have hc : c ≠ none := view_eq hn ▸ hv
      obtain ⟨r, hr, hkr, rfl, rfl, -, hrmax⟩ := exists_of_isNewest hn
      refine ⟨r, hr, hkr, hc, ?_, hrmax⟩
      by_contra hlt
      rw [ofList_append] at hn
      have := hd.newest_of_lt ha hn (not_le.mp hlt)
      rw [← ofList_append, ← ofList_append] at this
      exact hc (view_eq this ▸ hnone)

theorem HidesValue.drops (hc : SameCells (ks ++ (us ++ js)) (ks ++ (us ++ js)))
    (hh : HidesValue us (ks ++ js) h k) :
    History.Drops (ofList us) h k ∧ History.view (ofList (ks ++ js)) k h ≠ none ∧
      History.view (ofList (ks ++ (us ++ js))) k h = none := by
  have hall : ∀ e, e ∈ ks ++ (us ++ js) ↔ e ∈ us ∨ e ∈ ks ++ js := by
    intro e
    simp only [List.mem_append]
    tauto
  have hcu : SameCells us us := hc.subset fun e he => (hall e).mpr (.inl he)
  have hco : SameCells (ks ++ js) (ks ++ js) := hc.subset fun e he => (hall e).mpr (.inr he)
  obtain ⟨a, hau, rfl, hca, hah, htop, r, hr, hkr, hcr, hra, hrmax⟩ := hh
  refine ⟨⟨⟨ts a, ?_⟩, ?_⟩, ?_, ?_⟩
  · have := isNewest_of_mem hcu hau hah fun e he hk _ => htop e he hk
    rwa [hca] at this
  · intro t ht
    refine ofList_eq_none.mpr fun e he hk hte => ?_
    exact absurd ((htop e he hk).trans hah) (not_le.mpr (hte ▸ ht))
  · rw [← hkr, view_eq (isNewest_of_mem hco hr (hra.trans hah) fun e he hk hle =>
      hrmax e he (hk.trans hkr) hle)]
    exact hcr
  · rw [view_eq (isNewest_of_mem hc ((hall a).mpr (.inl hau)) hah fun e he hk hle =>
      ((hall e).mp he).elim (fun he => htop e he hk)
        fun he => (hrmax e he hk hle).trans hra), hca]

end Hiding

/-- A merge holds the versions of both streams, those of the left first. The streams are sorted,
or agree on the versions they share. -/
theorem ofList_priorityMerge (hlt : Decides lt P) {xs ys : List ε}
    (hPx : ∀ x ∈ xs, P x) (hPy : ∀ y ∈ ys, P y)
    (h : SortedVersions xs ∧ SortedVersions ys ∨ SameCells xs ys) :
    ofList (priorityMerge lt xs ys) =
      History.overlay (ofList xs) (ofList ys) := by
  induction xs, ys using priorityMerge_induction lt with
  | left ys => simp
  | right xs => simp
  | emitLeft x xs y ys hxy ih =>
    have htail : SortedVersions xs ∧ SortedVersions (y :: ys) ∨ SameCells xs (y :: ys) :=
      h.imp (fun hs => ⟨(List.pairwise_cons.mp hs.1).2, hs.2⟩)
        fun hc a ha => hc a (List.mem_cons_of_mem _ ha)
    have hrest := ih (fun a ha => hPx a (List.mem_cons_of_mem _ ha)) hPy htail
    rw [priorityMerge_cons_cons, if_pos hxy]
    funext k t
    rw [ofList_cons, hrest, overlay_apply, overlay_apply,
      ofList_cons x]
    split <;> simp
  | emitRight x xs y ys hxy hyx ih =>
    have htail : SortedVersions (x :: xs) ∧ SortedVersions ys ∨ SameCells (x :: xs) ys :=
      h.imp (fun hs => ⟨hs.1, (List.pairwise_cons.mp hs.2).2⟩)
        fun hc a ha b hb => hc a ha b (List.mem_cons_of_mem _ hb)
    have hrest := ih hPx (fun a ha => hPy a (List.mem_cons_of_mem _ ha)) htail
    rw [priorityMerge_cons_cons, if_neg (by simp [hxy]), if_pos hyx]
    funext k t
    rw [ofList_cons, hrest, overlay_apply, overlay_apply,
      ofList_cons y]
    split
    · rename_i hy
      cases hc : ofList (x :: xs) k t with
      | none => rfl
      | some c =>
        obtain ⟨x', hx', hk, ht, rfl⟩ := exists_of_ofList hc
        rcases h with hs | hsame
        · have hyx' := (hlt y x (hPy y List.mem_cons_self) (hPx x List.mem_cons_self)).mp hyx
          have hyx'' : VersionLt y x' := by
            rcases List.mem_cons.mp hx' with rfl | hm
            · exact hyx'
            · exact hyx'.trans ((List.pairwise_cons.mp hs.1).1 x' hm)
          exact absurd ⟨hy.1.trans hk.symm, hy.2.trans ht.symm⟩ hyx''.ne
        · rw [hsame x' hx' y List.mem_cons_self (hk.trans hy.1.symm) (ht.trans hy.2.symm)]
          rfl
    · rfl
  | tie x xs y ys hxy hyx ih =>
    have htail : SortedVersions xs ∧ SortedVersions ys ∨ SameCells xs ys :=
      h.imp (fun hs => ⟨(List.pairwise_cons.mp hs.1).2, (List.pairwise_cons.mp hs.2).2⟩)
        fun hc a ha b hb => hc a (List.mem_cons_of_mem _ ha) b (List.mem_cons_of_mem _ hb)
    have hrest := ih (fun a ha => hPx a (List.mem_cons_of_mem _ ha))
      (fun a ha => hPy a (List.mem_cons_of_mem _ ha)) htail
    have hsame := hlt.same_version (hPx x List.mem_cons_self) (hPy y List.mem_cons_self) hxy hyx
    rw [priorityMerge_cons_cons, if_neg (by simp [hxy]), if_neg (by simp [hyx])]
    funext k t
    rw [ofList_cons, hrest, overlay_apply, overlay_apply,
      ofList_cons x, ofList_cons y, hsame.1, hsame.2]
    split <;> simp

/-- The version pass over the entries of one key, cut at the first one at or below the horizon. -/
theorem gc_ofList_anchor {h : τ} {k : κ} {newer older : List ε} {anchor : ε}
    (hkey : ∀ e ∈ newer ++ anchor :: older, key e = k) (hnewer : ∀ e ∈ newer, h < ts e)
    (hanchor : ts anchor ≤ h) (holder : ∀ e ∈ older, ts e < ts anchor) :
    History.gc h (ofList (newer ++ anchor :: older)) =
      if cell anchor = none ∧ newer = [] then History.empty
      else ofList (newer ++ [anchor]) := by
  have hka : key anchor = k := hkey anchor (by simp)
  have hN : ∀ t, ¬ h < t → ofList newer k t = none := fun t ht =>
    ofList_eq_none.mpr fun e he _ hts => ht (hts ▸ hnewer e he)
  have hO : ∀ t, h < t → ofList older k t = none := fun t ht =>
    ofList_eq_none.mpr fun e he _ hts =>
      absurd (hts ▸ (holder e he).trans_le hanchor) ht.not_gt
  have hat : ∀ t, ofList (newer ++ anchor :: older) k t =
      if h < t then ofList newer k t
      else if t = ts anchor then some (cell anchor) else ofList older k t := by
    intro t
    rw [ofList_append, overlay_apply, ofList_cons]
    by_cases ht : h < t
    · have hne : ts anchor ≠ t := fun heq => absurd (heq ▸ hanchor) (not_le.mpr ht)
      simp [ht, hne, hO t ht]
    · simp [ht, hN t ht, hka, eq_comm]
  have hnewest : History.IsNewest (ofList (newer ++ anchor :: older)) k h (ts anchor)
      (cell anchor) := by
    refine ⟨by rw [hat, if_neg (not_lt.mpr hanchor), if_pos rfl], hanchor, ?_⟩
    intro t ht hv
    rw [hat, if_neg (not_lt.mpr ht)] at hv
    by_contra hne
    rw [if_neg (fun heq => hne heq.le)] at hv
    obtain ⟨c, hc⟩ := Option.ne_none_iff_exists'.mp hv
    obtain ⟨e, he, -, rfl, -⟩ := exists_of_ofList hc
    exact hne (holder e he).le
  have hdrops : History.Drops (ofList (newer ++ anchor :: older)) h k ↔
      cell anchor = none ∧ newer = [] := by
    constructor
    · rintro ⟨⟨a, ha⟩, habove⟩
      refine ⟨(hnewest.unique ha).2, ?_⟩
      rcases newer with _ | ⟨e, newer⟩
      · rfl
      · have := habove (ts e) (hnewer e (by simp))
        exact absurd (hkey e (by simp)) fun hk => ofList_eq_none.mp this e (by simp) hk rfl
    · rintro ⟨hc, rfl⟩
      refine ⟨⟨ts anchor, hc ▸ hnewest⟩, fun t ht => ?_⟩
      rw [hat, if_pos ht]
      rfl
  funext k' t
  by_cases hk' : k' = k
  · subst hk'
    split
    · rename_i hd
      exact History.gc_of_drops (hdrops.mpr hd) t
    · rename_i hd
      rw [History.gc_of_isNewest hnewest (mt hdrops.mp hd), hat, ofList_append,
        overlay_apply, ofList_cons, History.ofList_nil]
      by_cases ht : h < t
      · have hne : ts anchor ≠ t := fun heq => absurd (heq ▸ hanchor) (not_le.mpr ht)
        simp [ht, hne, History.empty]
      · obtain rfl | hta := eq_or_ne t (ts anchor)
        · simp [ht, hN _ ht, hka]
        · simp [ht, hN t ht, hta, hta.symm, History.empty]
  · have hother : ∀ (fs : List ε) (u : τ), (∀ e ∈ fs, key e = k) → ofList fs k' u = none :=
      fun fs u hfs => ofList_eq_none.mpr fun e he hke => absurd (hke.symm.trans (hfs e he)) hk'
    rw [History.gc_of_forall_none (fun u _ => hother _ u hkey), hother _ t hkey]
    split
    · rfl
    · refine (hother _ t fun e he => hkey e ?_).symm
      simp only [List.mem_append, List.mem_cons] at he ⊢
      tauto

end Entries

end CoroDB.Framework
