import CoroDB.Framework.VersionList

/-!
# Replay of a log into a sorted list

A log holds entries in the order they were written.
-/

namespace CoroDB.Framework

open Versioned

variable {ε κ τ ρ : Type*} [Versioned ε κ τ ρ] [LinearOrder κ] [LinearOrder τ]

def replay (lt : ε → ε → Bool) (p : ε → Bool) (log : List ε) : List ε :=
  log.foldl (fun es e => if p e then priorityMerge lt [e] es else es) []

section Spec

variable {lt : ε → ε → Bool} {p : ε → Bool} {P : ε → Prop}

theorem replay_concat (log : List ε) (e : ε) :
    replay lt p (log ++ [e]) =
      if p e then priorityMerge lt [e] (replay lt p log) else replay lt p log := by
  simp [replay]

theorem mem_of_mem_replay {log : List ε} {e : ε} (h : e ∈ replay lt p log) : e ∈ log := by
  induction log using List.reverseRecOn with
  | nil => simp [replay] at h
  | append_singleton log a ih =>
    rw [replay_concat] at h
    split_ifs at h
    · rcases mem_of_mem_priorityMerge h with h | h
      · exact List.mem_append_right _ h
      · exact List.mem_append_left _ (ih h)
    · exact List.mem_append_left _ (ih h)

theorem replay_sorted (hlt : Decides lt P) {log : List ε} (hP : ∀ e ∈ log, P e) :
    SortedVersions (replay lt p log) := by
  induction log using List.reverseRecOn with
  | nil => exact List.Pairwise.nil
  | append_singleton log a ih =>
    have hlog : ∀ e ∈ log, P e := fun e he => hP e (List.mem_append_left _ he)
    have ha : ∀ e ∈ [a], P e := fun e he => hP e (List.mem_append_right _ he)
    rw [replay_concat]
    split_ifs
    · exact sortedVersions_priorityMerge hlt (List.pairwise_singleton _ a) (ih hlog) ha
        fun e he => hlog e (mem_of_mem_replay he)
    · exact ih hlog

theorem ofList_replay (hlt : Decides lt P) {log : List ε} (hP : ∀ e ∈ log, P e) :
    History.ofList (replay lt p log) = History.ofList (log.filter p).reverse := by
  induction log using List.reverseRecOn with
  | nil => rfl
  | append_singleton log a ih =>
    have hlog : ∀ e ∈ log, P e := fun e he => hP e (List.mem_append_left _ he)
    have ha : ∀ e ∈ [a], P e := fun e he => hP e (List.mem_append_right _ he)
    rw [replay_concat, List.filter_append, List.reverse_append, History.ofList_append, ← ih hlog]
    by_cases hp : p a = true
    · rw [if_pos hp, List.filter_cons_of_pos hp, List.filter_nil, List.reverse_singleton]
      exact ofList_priorityMerge hlt ha (fun e he => hlog e (mem_of_mem_replay he))
        (.inl ⟨List.pairwise_singleton _ a, replay_sorted hlt hlog⟩)
    · rw [if_neg hp, List.filter_cons_of_neg hp, List.filter_nil]
      simp

end Spec

variable {p : ε → Bool} {log : List ε} {k : κ} {t : τ}

theorem ofList_take_filter_reverse {n : Nat}
    (hdrop : ∀ e ∈ log.drop n, key e = k → ts e ≠ t)
    (hp : ∀ e ∈ log, key e = k → ts e = t → p e = true) :
    History.ofList ((log.take n).filter p).reverse k t = History.ofList log.reverse k t := by
  have hrest : History.ofList (log.drop n).reverse k t = none :=
    History.ofList_eq_none.mpr fun e he => hdrop e (List.mem_reverse.mp he)
  have hkept : ∀ e ∈ (log.take n).reverse, key e = k → ts e = t → p e = true :=
    fun e he => hp e (List.mem_of_mem_take (List.mem_reverse.mp he))
  calc History.ofList ((log.take n).filter p).reverse k t
      = History.ofList (log.take n).reverse k t := by
        rw [← List.filter_reverse, History.ofList_filter_of_version hkept]
    _ = History.ofList ((log.drop n).reverse ++ (log.take n).reverse) k t := by
        rw [History.ofList_append, History.overlay_apply, hrest, Option.none_or]
    _ = History.ofList log.reverse k t := by rw [← List.reverse_append, List.take_append_drop]

end CoroDB.Framework
