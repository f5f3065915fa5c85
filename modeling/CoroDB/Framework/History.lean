import Mathlib

/-!
# Version histories

A history gives every key its versions: at each timestamp either nothing, or a cell that holds a value
or marks a deletion.
-/

namespace CoroDB.Framework

/-- The versions of every key. The cell `none` of a version is a deletion. -/
def History (κ τ ρ : Type*) := κ → τ → Option (Option ρ)

namespace History

variable {κ τ ρ : Type*}

def empty : History κ τ ρ := fun _ _ => none

/-- The versions of `H`, and those of `K` that `H` does not have. -/
def overlay (H K : History κ τ ρ) : History κ τ ρ := fun k t => (H k t).or (K k t)

theorem overlay_apply (H K : History κ τ ρ) (k : κ) (t : τ) :
    overlay H K k t = (H k t).or (K k t) := rfl

@[simp] theorem empty_overlay (H : History κ τ ρ) : overlay empty H = H := by
  funext k t
  simp [overlay, empty]

@[simp] theorem overlay_empty (H : History κ τ ρ) : overlay H empty = H := by
  funext k t
  simp [overlay, empty]

theorem overlay_assoc (H K J : History κ τ ρ) :
    overlay (overlay H K) J = overlay H (overlay K J) := by
  funext k t
  simp [overlay, Option.or_assoc]

@[simp] theorem overlay_self (H : History κ τ ρ) : overlay H H = H := by
  funext k t
  simp [overlay]

theorem overlay_eq_none {H K : History κ τ ρ} {k : κ} {t : τ} :
    overlay H K k t = none ↔ H k t = none ∧ K k t = none := by
  simp [overlay]

theorem overlay_eq_right {H K : History κ τ ρ} (h : ∀ k t c, H k t = some c → K k t = some c) :
    overlay H K = K := by
  funext k t
  cases hc : H k t with
  | none => simp [overlay, hc]
  | some c => simp [overlay, hc, h k t c hc]

/-- Two histories give the same cell to every version they share. -/
def Agree (H K : History κ τ ρ) : Prop :=
  ∀ k t c d, H k t = some c → K k t = some d → c = d

theorem Agree.overlay_comm {H K : History κ τ ρ} (h : Agree H K) : overlay H K = overlay K H := by
  funext k t
  cases hH : H k t with
  | none => simp [overlay, hH]
  | some c =>
    cases hK : K k t with
    | none => simp [overlay, hH, hK]
    | some d => simp [overlay, hH, hK, h k t c d hH hK]

section View

variable [LinearOrder τ]

/-- Version `t` with cell `c` is the newest version of `k` at or below `s`. -/
def IsNewest (H : History κ τ ρ) (k : κ) (s t : τ) (c : Option ρ) : Prop :=
  H k t = some c ∧ t ≤ s ∧ ∀ t', t' ≤ s → H k t' ≠ none → t' ≤ t

theorem IsNewest.unique {H : History κ τ ρ} {k : κ} {s t t' : τ} {c c' : Option ρ}
    (h : IsNewest H k s t c) (h' : IsNewest H k s t' c') : t = t' ∧ c = c' := by
  have hle : t ≤ t' := h'.2.2 t h.2.1 (by simp [h.1])
  have hge : t' ≤ t := h.2.2 t' h'.2.1 (by simp [h'.1])
  have ht : t = t' := le_antisymm hle hge
  subst ht
  exact ⟨rfl, Option.some.inj (h.1.symm.trans h'.1)⟩

theorem IsNewest.lower {H : History κ τ ρ} {k : κ} {s s' t : τ} {c : Option ρ}
    (h : IsNewest H k s t c) (ht : t ≤ s') (hs : s' ≤ s) : IsNewest H k s' t c :=
  ⟨h.1, ht, fun t' ht' hv => h.2.2 t' (ht'.trans hs) hv⟩

open Classical in
/-- What a read of `k` at snapshot `s` returns: nothing when there is no version or the newest
one is a deletion. -/
noncomputable def view (H : History κ τ ρ) (k : κ) (s : τ) : Option ρ :=
  if h : ∃ c t, IsNewest H k s t c then h.choose else none

theorem view_eq {H : History κ τ ρ} {k : κ} {s t : τ} {c : Option ρ} (h : IsNewest H k s t c) :
    view H k s = c := by
  have hex : ∃ c t, IsNewest H k s t c := ⟨c, t, h⟩
  obtain ⟨t', ht'⟩ := hex.choose_spec
  rw [view, dif_pos hex]
  exact (ht'.unique h).2

theorem view_eq_none {H : History κ τ ρ} {k : κ} {s : τ} (h : ∀ t, t ≤ s → H k t = none) :
    view H k s = none := by
  have hex : ¬ ∃ c t, IsNewest H k s t c := by
    rintro ⟨c, t, hc, ht, -⟩
    simp [h t ht] at hc
  rw [view, dif_neg hex]

theorem view_eq_of_isNewest_iff {H K : History κ τ ρ} {k : κ} {s s' : τ}
    (h : ∀ c t, IsNewest H k s t c ↔ IsNewest K k s' t c) : view H k s = view K k s' := by
  by_cases hex : ∃ c t, IsNewest H k s t c
  · obtain ⟨c, t, hn⟩ := hex
    rw [view_eq hn, view_eq ((h c t).mp hn)]
  · have hex' : ¬ ∃ c t, IsNewest K k s' t c := by simpa only [h] using hex
    rw [view, view, dif_neg hex, dif_neg hex']

theorem view_congr {H K : History κ τ ρ} {k : κ} {s : τ} (h : ∀ t, t ≤ s → H k t = K k t) :
    view H k s = view K k s := by
  have hiff : ∀ c t, IsNewest H k s t c ↔ IsNewest K k s t c := by
    intro c t
    constructor
    · rintro ⟨hc, ht, hmax⟩
      exact ⟨h t ht ▸ hc, ht, fun t' ht' hv => hmax t' ht' (by rwa [h t' ht'])⟩
    · rintro ⟨hc, ht, hmax⟩
      exact ⟨(h t ht).trans hc, ht, fun t' ht' hv => hmax t' ht' (by rwa [← h t' ht'])⟩
  exact view_eq_of_isNewest_iff hiff

/-- Every key has a newest version below every bound that some version meets. -/
def Founded (H : History κ τ ρ) : Prop :=
  ∀ k s, (∀ t, t ≤ s → H k t = none) ∨ ∃ t c, IsNewest H k s t c

theorem Founded.overlay {H K : History κ τ ρ} (hH : Founded H) (hK : Founded K) :
    Founded (overlay H K) := by
  intro k s
  rcases hH k s with hH | ⟨t, c, hc, ht, hmax⟩
  · rcases hK k s with hK | ⟨t, c, hc, ht, hmax⟩
    · left
      intro t ht
      simp [overlay_eq_none, hH t ht, hK t ht]
    · right
      refine ⟨t, c, by simp [History.overlay, hH t ht, hc], ht, ?_⟩
      intro t' ht' hv
      apply hmax t' ht'
      simpa [History.overlay, hH t' ht'] using hv
  · right
    rcases hK k s with hK | ⟨u, d, hd, hu, hmax'⟩
    · refine ⟨t, c, by simp [History.overlay, hc], ht, ?_⟩
      intro t' ht' hv
      apply hmax t' ht'
      simpa [History.overlay, hK t' ht'] using hv
    · have hbound : ∀ t', t' ≤ s → History.overlay H K k t' ≠ none → t' ≤ max t u := by
        intro t' ht' hv
        by_cases hn : H k t' = none
        · exact (hmax' t' ht' (by simpa [History.overlay, hn] using hv)).trans (le_max_right t u)
        · exact (hmax t' ht' hn).trans (le_max_left t u)
      rcases le_total u t with hle | hle
      · rw [max_eq_left hle] at hbound
        exact ⟨t, c, by simp [History.overlay, hc], ht, hbound⟩
      · rw [max_eq_right hle] at hbound
        cases hn : H k u with
        | none => exact ⟨u, d, by simp [History.overlay, hn, hd], hu, hbound⟩
        | some c' => exact ⟨u, c', by simp [History.overlay, hn], hu, hbound⟩

theorem view_of_le {H : History κ τ ρ} {k : κ} {s s' : τ} (h : ∀ t, H k t ≠ none → t ≤ s)
    (hs : s ≤ s') : view H k s = view H k s' := by
  have hiff : ∀ c t, IsNewest H k s t c ↔ IsNewest H k s' t c := by
    intro c t
    constructor
    · rintro ⟨hc, ht, hmax⟩
      exact ⟨hc, ht.trans hs, fun t' _ hv => hmax t' (h t' hv) hv⟩
    · rintro ⟨hc, -, hmax⟩
      exact ⟨hc, h t (by simp [hc]), fun t' ht' hv => hmax t' (ht'.trans hs) hv⟩
  exact view_eq_of_isNewest_iff hiff

end View

end History

end CoroDB.Framework
