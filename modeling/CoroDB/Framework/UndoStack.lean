import CoroDB.Framework.Run

/-!
# A stack of named copies

A value is changed, a named copy of it is put on a stack, and the newest copy of a name is gone back
to or given up with the copies above it.
-/

namespace CoroDB.Framework

inductive UndoOp (κ σ : Type*) where
  | change (f : σ → σ)
  | mark (name : κ)
  | backTo (name : κ)
  | release (name : κ)

/-- A value and its copies, the newest first. -/
structure UndoStack (κ σ : Type*) where
  current : σ
  marks : List (κ × σ)

variable {κ σ : Type*} [DecidableEq κ]

def fromName {β : Type*} (name : κ) (stack : List (κ × β)) : List (κ × β) :=
  stack.dropWhile fun m => m.1 != name

theorem fromName_suffix {β : Type*} (name : κ) (stack : List (κ × β)) :
    fromName name stack <:+ stack :=
  List.dropWhile_suffix _

namespace UndoStack

def step (u : UndoStack κ σ) : UndoOp κ σ → Option (UndoStack κ σ)
  | .change f => some ⟨f u.current, u.marks⟩
  | .mark name => some ⟨u.current, (name, u.current) :: u.marks⟩
  | .backTo name => (fromName name u.marks).head?.map fun m => ⟨m.2, fromName name u.marks⟩
  | .release name =>
    (fromName name u.marks).head?.map fun _ => ⟨u.current, (fromName name u.marks).tail⟩

end UndoStack

namespace UndoOp

/-- The copies that are left after some operations without a return, each with the operations up to
it. The newest comes first in every list. -/
def live : List (UndoOp κ σ) → List (κ × List (UndoOp κ σ))
  | [] => []
  | .mark name :: older => (name, .mark name :: older) :: live older
  | .release name :: older => (fromName name (live older)).tail
  | .change _ :: older => live older
  | .backTo _ :: older => live older

/-- What is left of the operations so far, the newest first, after one more. -/
def eraseStep (kept : List (UndoOp κ σ)) : UndoOp κ σ → List (UndoOp κ σ)
  | .backTo name => ((fromName name (live kept)).head?.map Prod.snd).getD kept
  | .mark name => .mark name :: kept
  | .release name => .release name :: kept
  | .change f => .change f :: kept

/-- The operations from which, for every return to a copy, everything done after the copy has been
deleted. -/
def eraseUndone (ops : List (UndoOp κ σ)) : List (UndoOp κ σ) := (ops.foldl eraseStep []).reverse

theorem live_of_suffix {kept : List (UndoOp κ σ)} {p : κ × List (UndoOp κ σ)}
    {ps : List (κ × List (UndoOp κ σ))} (h : p :: ps <:+ live kept) : live p.2 = p :: ps := by
  induction kept with
  | nil =>
    rw [live] at h
    exact absurd (List.suffix_nil.mp h) (List.cons_ne_nil p ps)
  | cons op older ih =>
    cases op with
    | change f => exact ih h
    | backTo name => exact ih h
    | release name =>
      apply ih
      rw [live] at h
      exact h.trans ((List.tail_suffix _).trans (fromName_suffix name _))
    | mark name =>
      rw [live] at h
      rcases List.suffix_cons_iff.mp h with heq | hsuffix
      · have hp : p = (name, .mark name :: older) := (List.cons.inj heq).1
        rw [hp, (List.cons.inj heq).2, live]
      · exact ih hsuffix

end UndoOp

namespace UndoStack

open UndoOp

/-- The copies of a stack are what the operations up to each of them lead to. -/
inductive Restores (u : UndoStack κ σ) : List (κ × σ) → List (κ × List (UndoOp κ σ)) → Prop
  | nil : Restores u [] []
  | cons {name : κ} {a : σ} {stack : List (κ × σ)} {ops : List (UndoOp κ σ)}
      {ps : List (κ × List (UndoOp κ σ))} :
      run step u ops.reverse = some ⟨a, (name, a) :: stack⟩ → Restores u stack ps →
      Restores u ((name, a) :: stack) ((name, ops) :: ps)

variable {u u₁ u₂ : UndoStack κ σ} {kept ops : List (UndoOp κ σ)} {op : UndoOp κ σ}

theorem Restores.tail {stack : List (κ × σ)} {ps : List (κ × List (UndoOp κ σ))}
    (h : Restores u stack ps) : Restores u stack.tail ps.tail := by
  cases h with
  | nil => exact .nil
  | cons hrun h => exact h

theorem Restores.fromName {stack : List (κ × σ)} {ps : List (κ × List (UndoOp κ σ))}
    (h : Restores u stack ps) (name : κ) :
    Restores u (fromName name stack) (fromName name ps) := by
  induction h with
  | nil => exact .nil
  | cons hrun h ih =>
    simp only [Framework.fromName, List.dropWhile_cons]
    split_ifs
    · exact ih
    · exact .cons hrun h

/-- The operations that are left lead to the same value and stack. -/
structure Erased (u : UndoStack κ σ) (kept : List (UndoOp κ σ)) (u' : UndoStack κ σ) : Prop where
  reached : run step u kept.reverse = some u'
  restores : Restores u u'.marks (live kept)

theorem Erased.append (h : Erased u kept u₁) (hop : u₁.step op = some u₂) :
    run step u (op :: kept).reverse = some u₂ := by
  rw [List.reverse_cons]
  exact run_concat h.reached hop

theorem Erased.step (h : Erased u kept u₁) (hop : u₁.step op = some u₂) :
    Erased u (eraseStep kept op) u₂ := by
  have hnext := h.append hop
  cases op with
  | change f =>
    rw [UndoStack.step, Option.some.injEq] at hop
    subst hop
    exact ⟨hnext, h.restores⟩
  | mark name =>
    rw [UndoStack.step, Option.some.injEq] at hop
    subst hop
    exact ⟨hnext, .cons hnext h.restores⟩
  | release name =>
    obtain ⟨m, hm, rfl⟩ := Option.map_eq_some_iff.mp hop
    exact ⟨hnext, (h.restores.fromName name).tail⟩
  | backTo name =>
    obtain ⟨m, hm, rfl⟩ := Option.map_eq_some_iff.mp hop
    have hrestores := h.restores.fromName name
    have hsuffix := fromName_suffix name (live kept)
    generalize Framework.fromName name u₁.marks = stack at hm hrestores
    simp only [eraseStep]
    generalize Framework.fromName name (live kept) = ps at hrestores hsuffix
    cases hrestores with
    | nil => simp at hm
    | cons hrun hrest =>
      rw [List.head?_cons, Option.some.injEq] at hm
      subst hm
      simp only [List.head?_cons, Option.map_some, Option.getD_some]
      exact ⟨hrun, live_of_suffix hsuffix ▸ .cons hrun hrest⟩

theorem Erased.run_ops (h : Erased u kept u₁) (hrun : run UndoStack.step u₁ ops = some u₂) :
    Erased u (ops.foldl eraseStep kept) u₂ := by
  induction ops generalizing kept u₁ with
  | nil =>
    rw [run, Option.some.injEq] at hrun
    exact hrun ▸ h
  | cons op ops ih =>
    obtain ⟨u', hop, hrun⟩ := run_cons hrun
    exact ih (h.step hop) hrun

theorem run_eraseUndone (hu : u.marks = []) (hrun : run step u ops = some u₁) :
    run step u (eraseUndone ops) = some u₁ := by
  have hstart : Erased u [] u := ⟨rfl, hu ▸ .nil⟩
  exact (hstart.run_ops hrun).reached

end UndoStack

end CoroDB.Framework
