import Mathlib

/-!
# A pool of workers with one queue

Tasks wait in a queue, first in, first out; an idle worker takes the first task, and several workers
run their tasks at the same time.
-/

namespace CoroDB.Framework

structure WorkerPool (ω τ : Type*) where
  tasks : List τ
  workers : ω → Option τ
  started : List τ
  finished : List τ

namespace WorkerPool

variable {ω τ κ : Type*}

def empty : WorkerPool ω τ := ⟨[], fun _ => none, [], []⟩

def posted (p : WorkerPool ω τ) : List τ := p.started ++ p.tasks

/-- A queue with a limit other than zero does not grow beyond it. -/
def post (limit : Nat) (t : τ) (p : WorkerPool ω τ) : Option (WorkerPool ω τ) :=
  if limit = 0 ∨ p.tasks.length < limit then some { p with tasks := p.tasks ++ [t] } else none

variable {p p' : WorkerPool ω τ} {w : ω} {t : τ} {limit : Nat}

theorem post_eq_some (h : p.post limit t = some p') : p' = { p with tasks := p.tasks ++ [t] } := by
  rw [post] at h
  split at h
  · exact (Option.some.inj h).symm
  · cases h

theorem posted_post (h : p.post limit t = some p') : p'.posted = p.posted ++ [t] := by
  rw [post_eq_some h]
  simp [posted]

section Steps

variable [DecidableEq ω]

def take (w : ω) (p : WorkerPool ω τ) : Option (WorkerPool ω τ) :=
  match p.workers w, p.tasks with
  | none, t :: rest =>
    some { p with
      tasks := rest
      workers := Function.update p.workers w (some t)
      started := p.started ++ [t] }
  | _, _ => none

def finish (w : ω) (p : WorkerPool ω τ) : Option (τ × WorkerPool ω τ) :=
  (p.workers w).map fun t =>
    (t, { p with workers := Function.update p.workers w none, finished := p.finished ++ [t] })

theorem mem_workers_update {f : ω → Option τ} {o : Option τ} {v : ω} {u : τ}
    (h : u ∈ Function.update f w o v) : v = w ∧ u ∈ o ∨ v ≠ w ∧ u ∈ f v := by
  by_cases hv : v = w
  · rw [hv, Function.update_self] at h
    exact .inl ⟨hv, h⟩
  · rw [Function.update_of_ne hv] at h
    exact .inr ⟨hv, h⟩

theorem take_eq_some (h : p.take w = some p') :
    ∃ t rest, p.workers w = none ∧ p.tasks = t :: rest ∧
      p' = { p with
        tasks := rest
        workers := Function.update p.workers w (some t)
        started := p.started ++ [t] } := by
  rw [take] at h
  cases hw : p.workers w with
  | some t => simp [hw] at h
  | none =>
    cases ht : p.tasks with
    | nil => simp [hw, ht] at h
    | cons t rest => exact ⟨t, rest, rfl, rfl, by simpa [hw, ht] using h.symm⟩

theorem finish_eq_some (h : p.finish w = some (t, p')) :
    p.workers w = some t ∧
      p' = { p with workers := Function.update p.workers w none, finished := p.finished ++ [t] } := by
  obtain ⟨u, hu, heq⟩ := Option.map_eq_some_iff.mp h
  cases heq
  exact ⟨hu, rfl⟩

theorem posted_take (h : p.take w = some p') : p'.posted = p.posted := by
  obtain ⟨t, rest, -, htasks, rfl⟩ := take_eq_some h
  simp [posted, htasks]

theorem posted_finish (h : p.finish w = some (t, p')) : p'.posted = p.posted := by
  rw [(finish_eq_some h).2]
  rfl

end Steps

section Owner

variable (owner : τ → κ)

def NotRunning (p : WorkerPool ω τ) (c : κ) : Prop :=
  ∀ w, ∀ t ∈ p.workers w, owner t ≠ c

def Idle (p : WorkerPool ω τ) (c : κ) : Prop :=
  (∀ t ∈ p.tasks, owner t ≠ c) ∧ NotRunning owner p c

instance idleDecidable [Fintype ω] [DecidableEq κ] (c : κ) : Decidable (Idle owner p c) :=
  inferInstanceAs (Decidable ((∀ t ∈ p.tasks, owner t ≠ c) ∧ ∀ w, ∀ t ∈ p.workers w, owner t ≠ c))

def ofOwner [DecidableEq κ] (c : κ) (ts : List τ) : List τ := ts.filter fun t => owner t = c

/-- At most one task of the owner is running, and the others that were started are finished in the
order in which they were started. -/
inductive Serial [DecidableEq κ] (p : WorkerPool ω τ) (c : κ) : Prop
  | idle : NotRunning owner p c → ofOwner owner c p.finished = ofOwner owner c p.started → Serial p c
  | busy (v : ω) (u : τ) : p.workers v = some u → owner u = c →
      (∀ w, w ≠ v → ∀ t ∈ p.workers w, owner t ≠ c) →
      ofOwner owner c p.finished ++ [u] = ofOwner owner c p.started → Serial p c

structure Solitary (p : WorkerPool ω τ) : Prop where
  queued : (p.tasks.map owner).Nodup
  waiting : ∀ t ∈ p.tasks, NotRunning owner p (owner t)

variable {owner} {c : κ}

theorem NotRunning.of_subsingleton [Subsingleton ω] (hw : p.workers w = none) :
    NotRunning owner p c := by
  intro v t ht
  rw [Subsingleton.elim v w, hw] at ht
  cases ht

theorem Idle.post (h : Idle owner p c) (hp : p.post limit t = some p') (ht : owner t ≠ c) :
    Idle owner p' c := by
  rw [post_eq_some hp]
  refine ⟨?_, h.2⟩
  intro u hu
  rcases List.mem_append.mp hu with hu | hu
  · exact h.1 u hu
  · rw [List.mem_singleton.mp hu]
    exact ht

theorem solitary_empty : Solitary owner (empty : WorkerPool ω τ) :=
  ⟨by simp [empty], by simp [empty]⟩

theorem Solitary.post (h : Solitary owner p) (hp : p.post limit t = some p')
    (hidle : Idle owner p (owner t)) : Solitary owner p' := by
  rw [post_eq_some hp]
  constructor
  · rw [List.map_append, List.nodup_append]
    refine ⟨h.queued, List.nodup_singleton _, ?_⟩
    intro a ha b hb
    obtain ⟨u, hu, rfl⟩ := List.mem_map.mp ha
    rw [List.map_singleton, List.mem_singleton] at hb
    rw [hb]
    exact hidle.1 u hu
  · intro u hu
    rcases List.mem_append.mp hu with hu | hu
    · exact h.waiting u hu
    · rw [List.mem_singleton.mp hu]
      exact hidle.2

section

variable [DecidableEq ω]

theorem Idle.take (h : Idle owner p c) (hp : p.take w = some p') : Idle owner p' c := by
  obtain ⟨t, rest, -, htasks, rfl⟩ := take_eq_some hp
  have hqueued := h.1
  rw [htasks] at hqueued
  refine ⟨fun u hu => hqueued u (List.mem_cons_of_mem t hu), ?_⟩
  intro v u hu
  rcases mem_workers_update hu with ⟨-, hu⟩ | hu
  · rw [← Option.mem_some_iff.mp hu]
    exact hqueued t List.mem_cons_self
  · exact h.2 v u hu.2

theorem Idle.finish (h : Idle owner p c) (hp : p.finish w = some (t, p')) : Idle owner p' c := by
  obtain ⟨-, rfl⟩ := finish_eq_some hp
  refine ⟨h.1, ?_⟩
  intro v u hu
  rcases mem_workers_update hu with ⟨-, hu⟩ | hu
  · cases hu
  · exact h.2 v u hu.2

theorem Solitary.take (h : Solitary owner p) (hp : p.take w = some p') : Solitary owner p' := by
  obtain ⟨t, rest, -, htasks, rfl⟩ := take_eq_some hp
  have hqueued := h.queued
  rw [htasks, List.map_cons, List.nodup_cons] at hqueued
  refine ⟨hqueued.2, ?_⟩
  intro u hu v x hx
  rcases mem_workers_update hx with ⟨-, hx⟩ | hx
  · intro heq
    rw [← Option.mem_some_iff.mp hx] at heq
    exact hqueued.1 (heq ▸ List.mem_map_of_mem hu)
  · exact h.waiting u (htasks ▸ List.mem_cons_of_mem t hu) v x hx.2

theorem Solitary.finish (h : Solitary owner p) (hp : p.finish w = some (t, p')) :
    Solitary owner p' := by
  obtain ⟨-, rfl⟩ := finish_eq_some hp
  refine ⟨h.queued, ?_⟩
  intro u hu v x hx
  rcases mem_workers_update hx with ⟨-, hx⟩ | hx
  · cases hx
  · exact h.waiting u hu v x hx.2

end

variable [DecidableEq κ]

theorem Serial.finished_isPrefix (h : Serial owner p c) :
    ofOwner owner c p.finished <+: ofOwner owner c p.started := by
  cases h with
  | idle _ heq => rw [heq]
  | busy w t _ _ _ heq => exact ⟨[t], heq⟩

theorem serial_empty : Serial owner (empty : WorkerPool ω τ) c :=
  .idle (by intro w t ht; simp [empty] at ht) rfl

theorem Serial.post (h : Serial owner p c) (hp : p.post limit t = some p') :
    Serial owner p' c := by
  rw [post_eq_some hp]
  cases h with
  | idle hnone heq => exact .idle hnone heq
  | busy w u hw hu hothers heq => exact .busy w u hw hu hothers heq

theorem Serial.one_at_a_time (h : Serial owner p c) {w w' : ω} {t t' : τ}
    (hw : p.workers w = some t) (ht : owner t = c) (hw' : p.workers w' = some t')
    (ht' : owner t' = c) : w = w' := by
  cases h with
  | idle hnone => exact absurd ht (hnone w t hw)
  | busy v u hv hu hothers =>
    have hone : ∀ x y, p.workers x = some y → owner y = c → x = v := by
      intro x y hx hy
      by_contra hne
      exact hothers x hne y hx hy
    rw [hone w t hw ht, hone w' t' hw' ht']

variable [DecidableEq ω]

theorem Serial.take (h : Serial owner p c) (hp : p.take w = some p')
    (hfree : ∀ t, p.tasks.head? = some t → NotRunning owner p (owner t)) : Serial owner p' c := by
  obtain ⟨t, rest, hidle, htasks, rfl⟩ := take_eq_some hp
  have hfree := hfree t (by rw [htasks]; rfl)
  have hstarted : ofOwner owner c (p.started ++ [t]) =
      ofOwner owner c p.started ++ if owner t = c then [t] else [] := by
    by_cases ht : owner t = c <;> simp [ofOwner, ht]
  by_cases ht : owner t = c
  · rw [ht] at hfree
    rw [if_pos ht] at hstarted
    cases h with
    | idle hnone heq =>
      refine .busy w t (Function.update_self ..) ht ?_ ((congrArg (· ++ [t]) heq).trans hstarted.symm)
      intro w' hne t' ht'
      rcases mem_workers_update ht' with ⟨heq, -⟩ | ht'
      · exact absurd heq hne
      · exact hnone w' t' ht'.2
    | busy v u hv hu => exact absurd hu (hfree v u hv)
  · rw [if_neg ht, List.append_nil] at hstarted
    have hother : ∀ v, ∀ u ∈ Function.update p.workers w (some t) v, owner u = c →
        u ∈ p.workers v := by
      intro v u hu huc
      rcases mem_workers_update hu with ⟨-, hu⟩ | hu
      · rw [Option.mem_some_iff.mp hu] at ht
        exact absurd huc ht
      · exact hu.2
    cases h with
    | idle hnone heq =>
      exact .idle (fun v u hu huc => hnone v u (hother v u hu huc) huc) (heq.trans hstarted.symm)
    | busy v u hv hu hothers heq =>
      have hne : v ≠ w := by
        intro h
        rw [h, hidle] at hv
        cases hv
      exact .busy v u ((Function.update_of_ne hne ..).trans hv) hu
        (fun x hx y hy hyc => hothers x hx y (hother x y hy hyc) hyc) (heq.trans hstarted.symm)

theorem Serial.finish (h : Serial owner p c) (hp : p.finish w = some (t, p')) :
    Serial owner p' c := by
  obtain ⟨hw, rfl⟩ := finish_eq_some hp
  have hfinished : ofOwner owner c (p.finished ++ [t]) =
      ofOwner owner c p.finished ++ if owner t = c then [t] else [] := by
    by_cases ht : owner t = c <;> simp [ofOwner, ht]
  have hother : ∀ v, ∀ u ∈ Function.update p.workers w none v, v ≠ w ∧ u ∈ p.workers v := by
    intro v u hu
    rcases mem_workers_update hu with ⟨-, hu⟩ | hu
    · cases hu
    · exact hu
  cases h with
  | idle hnone heq =>
    rw [if_neg (hnone w t hw), List.append_nil] at hfinished
    exact .idle (fun v u hu => hnone v u (hother v u hu).2) (hfinished.trans heq)
  | busy v u hv hu hothers heq =>
    by_cases hvw : v = w
    · rw [hvw, hw, Option.some.injEq] at hv
      rw [← hv] at hu heq
      rw [if_pos hu] at hfinished
      exact .idle (fun x y hy => hothers x (hvw ▸ (hother x y hy).1) y (hother x y hy).2)
        (hfinished.trans heq)
    · rw [if_neg (hothers w (Ne.symm hvw) t hw), List.append_nil] at hfinished
      exact .busy v u ((Function.update_of_ne hvw ..).trans hv) hu
        (fun x hx y hy => hothers x hx y (hother x y hy).2)
        ((congrArg (· ++ [u]) hfinished).trans heq)

end Owner

end WorkerPool

end CoroDB.Framework
