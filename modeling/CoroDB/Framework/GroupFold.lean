import CoroDB.Framework.Grouping

/-!
# Groups as folds

When no row fails, the state of a group is the fold of its rows: the table of groups is that of the
rows themselves, with the fold applied to each.
-/

namespace CoroDB.Framework

variable {κ ρ σ γ ε : Type}

section Fold

variable (E : KeyEq κ) (k : ρ → κ)

/-- The table of groups with a state that takes in one row after the other. -/
def groupFold (f : σ → ρ → σ) (init : σ) (rows : List ρ) (m : KeyMap E σ) : KeyMap E σ :=
  rows.foldl (fun m r => m.assign (k r) (f ((m.get? (k r)).getD init) r)) m

def rowGroups (rows : List ρ) : List (List ρ) :=
  (groupFold E k (fun g r => g ++ [r]) [] rows .empty).entries.map Prod.snd

end Fold

variable {E : KeyEq κ} {k : ρ → κ} {f : σ → ρ → σ} {init : σ} {rows rows' : List ρ}

theorem groupFold_cons (r : ρ) (m : KeyMap E σ) : groupFold E k f init (r :: rows) m =
    groupFold E k f init rows (m.assign (k r) (f ((m.get? (k r)).getD init) r)) :=
  rfl

theorem hashGroups_eq_groupFold {key : ρ → Except ε κ} {update : σ → ρ → Except ε σ}
    (hkey : ∀ r ∈ rows, key r = .ok (k r)) (hupdate : ∀ r ∈ rows, ∀ s, update s r = .ok (f s r))
    (m : KeyMap E σ) :
    hashGroups E key init update rows m = .ok (groupFold E k f init rows m) := by
  induction rows generalizing m with
  | nil => rfl
  | cons r rows ih =>
    obtain ⟨hr, hkey⟩ := List.forall_mem_cons.mp hkey
    obtain ⟨hur, hupdate⟩ := List.forall_mem_cons.mp hupdate
    rw [hashGroups_cons hr, hur]
    exact ih hkey hupdate _

section Image

variable {τ : Type} {h : τ → σ} {g : KeyMap E τ} {j : κ} {w : τ}

namespace KeyMap

def mapValues (h : τ → σ) (g : KeyMap E τ) : KeyMap E σ :=
  ⟨g.entries.map fun e => (e.1, h e.2), List.pairwise_map.mpr g.distinct⟩

theorem entries_mapValues : (g.mapValues h).entries = g.entries.map fun e => (e.1, h e.2) := rfl

theorem contains_mapValues : (g.mapValues h).contains j = g.contains j := by
  rw [contains, entries_mapValues, List.any_map]
  rfl

theorem get?_mapValues : (g.mapValues h).get? j = (g.get? j).map h := by
  rw [get?, get?, entries_mapValues, List.find?_map, Option.map_map, Option.map_map]
  rfl

theorem assign_mapValues : (g.mapValues h).assign j (h w) = (g.assign j w).mapValues h := by
  apply KeyMap.ext
  rw [entries_mapValues]
  cases hj : g.contains j with
  | false =>
    rw [entries_assign_new hj, entries_assign_new (contains_mapValues.trans hj), entries_mapValues,
      List.map_append]
    rfl
  | true =>
    rw [entries_assign_old hj, entries_assign_old (contains_mapValues.trans hj), entries_mapValues,
      List.map_map, List.map_map]
    apply List.map_congr_left
    intro e _
    simp only [Function.comp_apply]
    split_ifs <;> rfl

end KeyMap

theorem groupFold_mapValues {step : τ → ρ → τ} {start : τ} (hstart : h start = init)
    (hstep : ∀ t r, h (step t r) = f (h t) r) :
    groupFold E k f init rows (g.mapValues h) = (groupFold E k step start rows g).mapValues h := by
  induction rows generalizing g with
  | nil => rfl
  | cons r rows ih =>
    have hstate : f (((g.mapValues h).get? (k r)).getD init) r =
        h (step ((g.get? (k r)).getD start) r) := by
      rw [hstep, KeyMap.get?_mapValues, ← hstart]
      cases g.get? (k r) <;> rfl
    rw [groupFold_cons, hstate, KeyMap.assign_mapValues]
    exact ih

theorem groupFold_states :
    (groupFold E k f init rows .empty).entries.map Prod.snd =
      (rowGroups E k rows).map fun g => g.foldl f init := by
  have hstep : ∀ (g : List ρ) (r : ρ), List.foldl f init (g ++ [r]) = f (g.foldl f init) r := by simp
  have himage : groupFold E k f init rows (KeyMap.empty.mapValues (List.foldl f init)) =
      (groupFold E k (fun g r => g ++ [r]) [] rows .empty).mapValues (List.foldl f init) :=
    groupFold_mapValues rfl hstep
  have hempty : (KeyMap.empty : KeyMap E (List ρ)).mapValues (List.foldl f init) = .empty := rfl
  rw [← hempty, himage, KeyMap.entries_mapValues, rowGroups, List.map_map, List.map_map]
  rfl

end Image

theorem emitGroups_eq_ok {emit : κ → σ → Except ε (List γ)} {F : σ → γ} {groups : List (κ × σ)}
    (h : ∀ g ∈ groups, emit g.1 g.2 = .ok [F g.2]) :
    emitGroups emit groups = .ok ((groups.map Prod.snd).map F) := by
  induction groups with
  | nil => rfl
  | cons g groups ih =>
    obtain ⟨hg, hgroups⟩ := List.forall_mem_cons.mp h
    rw [emitGroups, hg, ih hgroups]
    rfl

section Order

variable {m n : KeyMap E σ} {j : κ} {v : σ}

def classes (m : KeyMap E σ) : List ((κ → Bool) × σ) := m.entries.map fun e => (E.eq e.1, e.2)

theorem contains_eq_classes : m.contains j = (classes m).any fun c => c.1 j := by
  rw [classes, List.any_map]
  rfl

theorem get?_eq_some_iff_classes :
    m.get? j = some v ↔ ∃ c ∈ classes m, c.1 j = true ∧ c.2 = v := by
  simp [KeyMap.get?_eq_some_iff, classes]

theorem classes_assign : classes (m.assign j v) =
    if (classes m).any fun c => c.1 j then (classes m).map fun c => (c.1, if c.1 j then v else c.2)
    else classes m ++ [(E.eq j, v)] := by
  rw [← contains_eq_classes]
  cases hj : m.contains j with
  | false => simp [classes, KeyMap.entries_assign_new hj]
  | true => simp [classes, KeyMap.entries_assign_old hj]

theorem classes_assign_perm (h : (classes m).Perm (classes n)) :
    (classes (m.assign j v)).Perm (classes (n.assign j v)) := by
  rw [classes_assign, classes_assign, h.any_eq]
  split_ifs
  · exact h.map _
  · exact h.append_right _

theorem get?_of_classes_perm (h : (classes m).Perm (classes n)) : m.get? j = n.get? j := by
  ext v
  simp only [get?_eq_some_iff_classes, h.mem_iff]

theorem classes_groupFold_congr (h : (classes m).Perm (classes n)) :
    (classes (groupFold E k f init rows m)).Perm (classes (groupFold E k f init rows n)) := by
  induction rows generalizing m n with
  | nil => exact h
  | cons r rows ih =>
    rw [groupFold_cons, groupFold_cons, get?_of_classes_perm h]
    exact ih (classes_assign_perm h)

theorem classes_assign_congr {i : κ} (h : E.eq i j = true) :
    classes (m.assign i v) = classes (m.assign j v) := by
  have hij : E.eq i = E.eq j := funext fun c => E.eq_left h
  have hclass : ∀ c ∈ classes m, c.1 i = c.1 j := by
    intro c hc
    obtain ⟨e, -, rfl⟩ := List.mem_map.mp hc
    exact E.eq_right h
  rw [classes_assign, classes_assign, ← contains_eq_classes, ← contains_eq_classes,
    KeyMap.contains_congr h, hij]
  split_ifs
  · apply List.map_congr_left
    intro c hc
    rw [hclass c hc]
  · rfl

section Commuting

variable (hcomm : ∀ s x y, f (f s x) y = f (f s y) x)
include hcomm

theorem classes_groupFold_swap (x y : ρ) (rows : List ρ) (m : KeyMap E σ) :
    (classes (groupFold E k f init (x :: y :: rows) m)).Perm
      (classes (groupFold E k f init (y :: x :: rows) m)) := by
  simp only [groupFold_cons]
  apply classes_groupFold_congr
  cases hxy : E.eq (k x) (k y) with
  | false =>
    have hyx : E.eq (k y) (k x) = false := E.comm.trans hxy
    rw [KeyMap.get?_assign, KeyMap.get?_assign, hxy, hyx]
    exact (KeyMap.assign_comm hxy).map _
  | true =>
    have hyx : E.eq (k y) (k x) = true := E.symm hxy
    rw [KeyMap.get?_assign, KeyMap.get?_assign, if_pos hxy, if_pos hyx, KeyMap.assign_assign hxy,
      KeyMap.assign_assign hyx, Option.getD_some, Option.getD_some, hcomm, KeyMap.get?_congr hxy,
      classes_assign_congr hxy]

theorem classes_groupFold_perm (h : rows.Perm rows') (m : KeyMap E σ) :
    (classes (groupFold E k f init rows m)).Perm (classes (groupFold E k f init rows' m)) := by
  induction h generalizing m with
  | nil => exact .refl _
  | cons x _ ih => exact ih _
  | swap x y l => exact classes_groupFold_swap hcomm y x l m
  | trans _ _ ih ih' => exact (ih m).trans (ih' m)

theorem groupFold_states_perm (h : rows.Perm rows') :
    ((groupFold E k f init rows .empty).entries.map Prod.snd).Perm
      ((groupFold E k f init rows' .empty).entries.map Prod.snd) := by
  have hstates : ∀ l, (groupFold E k f init l .empty).entries.map Prod.snd =
      (classes (groupFold E k f init l .empty)).map Prod.snd := by
    intro l
    rw [classes, List.map_map]
    rfl
  rw [hstates, hstates]
  exact (classes_groupFold_perm hcomm h .empty).map Prod.snd

end Commuting

theorem rowGroups_perm {F : List ρ → γ} (hF : ∀ g g', g.Perm g' → F g = F g') (h : rows.Perm rows') :
    ((rowGroups E k rows).map F).Perm ((rowGroups E k rows').map F) := by
  have hmultiset : ∀ g : List ρ, g.foldl (fun s r => r ::ₘ s) (0 : Multiset ρ) = g := by
    intro g
    induction g using List.reverseRecOn with
    | nil => rfl
    | append_singleton g r ih =>
      rw [List.foldl_append, ih, List.foldl_cons, List.foldl_nil, Multiset.cons_coe]
      exact Multiset.coe_eq_coe.mpr (List.perm_append_singleton r g).symm
  obtain ⟨lifted, hlifted⟩ : ∃ lifted : Multiset ρ → γ, ∀ g : List ρ, lifted g = F g :=
    ⟨fun s => Quot.liftOn s F hF, fun _ => rfl⟩
  have hstates : ∀ l : List ρ, ((groupFold E k (fun (s : Multiset ρ) r => r ::ₘ s) 0 l
      .empty).entries.map Prod.snd).map lifted = (rowGroups E k l).map F := by
    intro l
    rw [groupFold_states, List.map_map]
    apply List.map_congr_left
    intro g _
    rw [Function.comp_apply, hmultiset, hlifted]
  rw [← hstates, ← hstates]
  exact (groupFold_states_perm (fun s x y => Multiset.cons_swap y x s) h).map _

end Order

end CoroDB.Framework
