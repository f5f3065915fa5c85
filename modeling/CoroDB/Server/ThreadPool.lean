import CoroDB.Framework.CondVar
import CoroDB.Framework.Fairness

/-!
# Shutting down the thread pool

Workers and producers wait on two condition variables under one mutex. The destructor sets the stop
flag and notifies the workers without the mutex, and then joins them.
-/

namespace CoroDB

open Framework

/-- A thread in `worker_loop`. A worker that found nothing to do holds the mutex until it sleeps. -/
inductive WorkerState (ι : Type) where
  | ready
  | checked
  | asleep
  | running (task : ι)
  | exited
  deriving DecidableEq

/-- A call of `post`. Where it found room or a full queue it holds the mutex until it has queued its
task or sleeps. -/
inductive ProducerState where
  | idle
  | ready
  | admitted
  | full
  | asleep
  | notifying
  | returned
  | thrown
  deriving DecidableEq

inductive DestructorState where
  | before
  | stored
  | notified
  | returned
  deriving DecidableEq

/-- Producer `p` posts task `p`. -/
structure ThreadPool (ω ι : Type) where
  maxQueueSize : Nat
  tasks : List ι := []
  destructor : DestructorState := .before
  workers : ω → WorkerState ι := fun _ => .ready
  producers : ι → ProducerState := fun _ => .idle
  executed : List ι := []

inductive PoolAction (ω ι : Type) where
  | take (w : ω) (wake : Option ι)
  | check (w : ω)
  | sleep (w : ω)
  | finish (w : ω)
  | call (p : ι)
  | post (p : ι)
  | block (p : ι)
  | enqueue (p : ι)
  | notify (p : ι) (wake : Option ω)
  | store
  | notifyAll
  | join

def WorkerState.task {ι : Type} : WorkerState ι → Option ι
  | .running t => some t
  | _ => none

namespace ThreadPool

variable {ω ι : Type} [Fintype ω] [DecidableEq ω] [Fintype ι] [DecidableEq ι]

def stop (s : ThreadPool ω ι) : Prop := s.destructor ≠ .before

instance decidableStop (s : ThreadPool ω ι) : Decidable s.stop := inferInstanceAs (Decidable (_ ≠ _))

def mutexFree (s : ThreadPool ω ι) : Prop :=
  (∀ w, s.workers w ≠ .checked) ∧ ∀ p, s.producers p ≠ .admitted ∧ s.producers p ≠ .full

instance decidableMutexFree (s : ThreadPool ω ι) : Decidable s.mutexFree :=
  inferInstanceAs (Decidable (_ ∧ _))

/-- The predicate of the wait in `post`, and the tests of the stop flag around it. -/
def postOutcome (s : ThreadPool ω ι) : ProducerState :=
  if s.stop then .thrown
  else if s.maxQueueSize = 0 ∨ s.tasks.length < s.maxQueueSize then .admitted else .full

/-- A worker tells the producers of the room it made where the queue has a limit. -/
def notifyProducer (s : ThreadPool ω ι) (wake : Option ι) : Option (ι → ProducerState) :=
  if 0 < s.maxQueueSize then notifyOne .asleep .ready s.producers wake
  else if wake = none then some s.producers else none

def setWorker (s : ThreadPool ω ι) (w : ω) (x : WorkerState ι) : ThreadPool ω ι :=
  { s with workers := Function.update s.workers w x }

def setProducer (s : ThreadPool ω ι) (p : ι) (x : ProducerState) : ThreadPool ω ι :=
  { s with producers := Function.update s.producers p x }

def step (s : ThreadPool ω ι) : PoolAction ω ι → Option (ThreadPool ω ι)
  | .take w wake =>
    if s.workers w = .ready ∧ s.mutexFree then
      s.tasks.head?.bind fun t => (s.notifyProducer wake).map fun producers =>
        { s.setWorker w (.running t) with tasks := s.tasks.tail, producers := producers }
    else none
  | .check w =>
    if s.workers w = .ready ∧ s.mutexFree ∧ s.tasks = [] then
      some (s.setWorker w (if s.stop then .exited else .checked))
    else none
  | .sleep w => if s.workers w = .checked then some (s.setWorker w .asleep) else none
  | .finish w => (s.workers w).task.map fun t =>
    { s.setWorker w .ready with executed := s.executed ++ [t] }
  | .call p => if s.producers p = .idle then some (s.setProducer p .ready) else none
  | .post p =>
    if s.producers p = .ready ∧ s.mutexFree then some (s.setProducer p s.postOutcome) else none
  | .block p => if s.producers p = .full then some (s.setProducer p .asleep) else none
  | .enqueue p =>
    if s.producers p = .admitted then
      some { s.setProducer p .notifying with tasks := s.tasks ++ [p] }
    else none
  | .notify p wake =>
    if s.producers p = .notifying then
      (notifyOne .asleep .ready s.workers wake).map fun workers =>
        { s.setProducer p .returned with workers := workers }
    else none
  | .store => if s.destructor = .before then some { s with destructor := .stored } else none
  | .notifyAll =>
    if s.destructor = .stored then
      some { s with destructor := .notified, workers := Framework.notifyAll .asleep .ready s.workers }
    else none
  | .join =>
    if s.destructor = .notified ∧ ∀ w, s.workers w = .exited then
      some { s with destructor := .returned }
    else none

/-- The steps of one worker, of one call of `post` that has begun, and of the destructor that has
begun. -/
def OfWorker (w : ω) (a : PoolAction ω ι) : Prop :=
  a = .check w ∨ a = .sleep w ∨ a = .finish w ∨ ∃ wake, a = .take w wake

def OfProducer (p : ι) (a : PoolAction ω ι) : Prop :=
  a = .post p ∨ a = .block p ∨ a = .enqueue p ∨ ∃ wake, a = .notify p wake

def OfDestructor (a : PoolAction ω ι) : Prop := a = .notifyAll ∨ a = .join

structure Fair (b : Behavior (step (ω := ω) (ι := ι))) : Prop where
  worker : ∀ w, b.WeaklyFair (OfWorker w)
  producer : ∀ p, b.WeaklyFair (OfProducer p)
  destructor : b.WeaklyFair OfDestructor

inductive Effect (s : ThreadPool ω ι) : PoolAction ω ι → ThreadPool ω ι → Prop
  | take {w wake t rest} (hw : s.workers w = .ready) (hfree : s.mutexFree) (ht : s.tasks = t :: rest)
      (hnone : s.maxQueueSize = 0 ∨ census .asleep s.producers = 0) :
      Effect s (.take w wake) { s.setWorker w (.running t) with tasks := rest }
  | takeWaking {w wake t rest p} (hw : s.workers w = .ready) (hfree : s.mutexFree)
      (ht : s.tasks = t :: rest) (hp : s.producers p = .asleep) :
      Effect s (.take w wake) { (s.setWorker w (.running t)).setProducer p .ready with tasks := rest }
  | check {w} (hw : s.workers w = .ready) (hstop : ¬ s.stop) : Effect s (.check w) (s.setWorker w .checked)
  | exit {w} (hw : s.workers w = .ready) (hfree : s.mutexFree) (ht : s.tasks = []) (hstop : s.stop) :
      Effect s (.check w) (s.setWorker w .exited)
  | sleep {w} (hw : s.workers w = .checked) : Effect s (.sleep w) (s.setWorker w .asleep)
  | finish {w t} (hw : s.workers w = .running t) :
      Effect s (.finish w) { s.setWorker w .ready with executed := s.executed ++ [t] }
  | call {p} (hp : s.producers p = .idle) : Effect s (.call p) (s.setProducer p .ready)
  | reject {p} (hp : s.producers p = .ready) (hstop : s.stop) :
      Effect s (.post p) (s.setProducer p .thrown)
  | enter {p} (hp : s.producers p = .ready) (hstop : ¬ s.stop) :
      Effect s (.post p) (s.setProducer p .admitted)
  | full {p} (hp : s.producers p = .ready) (hstop : ¬ s.stop) (hmax : s.maxQueueSize ≠ 0) :
      Effect s (.post p) (s.setProducer p .full)
  | block {p} (hp : s.producers p = .full) : Effect s (.block p) (s.setProducer p .asleep)
  | enqueue {p} (hp : s.producers p = .admitted) :
      Effect s (.enqueue p) { s.setProducer p .notifying with tasks := s.tasks ++ [p] }
  | notify {p wake} (hp : s.producers p = .notifying) :
      Effect s (.notify p wake) (s.setProducer p .returned)
  | notifyWaking {p wake w} (hp : s.producers p = .notifying) (hw : s.workers w = .asleep) :
      Effect s (.notify p wake) ((s.setProducer p .returned).setWorker w .ready)
  | store (hd : s.destructor = .before) : Effect s .store { s with destructor := .stored }
  | notifyAll (hd : s.destructor = .stored) :
      Effect s .notifyAll
        { s with destructor := .notified, workers := Framework.notifyAll .asleep .ready s.workers }
  | join (hd : s.destructor = .notified) : Effect s .join { s with destructor := .returned }

variable {s s' : ThreadPool ω ι} {a : PoolAction ω ι}

omit [Fintype ω] [DecidableEq ω] in
theorem notifyProducer_eq_some {wake : Option ι} {producers : ι → ProducerState}
    (h : s.notifyProducer wake = some producers) :
    producers = s.producers ∧ (s.maxQueueSize = 0 ∨ census .asleep s.producers = 0) ∨
      ∃ p, s.producers p = .asleep ∧ producers = Function.update s.producers p .ready := by
  rw [notifyProducer] at h
  split_ifs at h with hmax hwake
  · rcases notifyOne_eq_some h with ⟨hsame, hnone⟩ | hsome
    · exact .inl ⟨hsame, .inr hnone⟩
    · exact .inr hsome
  · exact .inl ⟨(Option.some.inj h).symm, .inl (by omega)⟩

theorem step_effect (h : s.step a = some s') : Effect s a s' := by
  cases a with
  | take w wake =>
    obtain ⟨⟨hw, hfree⟩, h⟩ := Option.ite_none_right_eq_some.mp h
    obtain ⟨t, ht, h⟩ := Option.bind_eq_some_iff.mp h
    obtain ⟨producers, hnotify, rfl⟩ := Option.map_eq_some_iff.mp h
    have ht : s.tasks = t :: s.tasks.tail := List.eq_cons_of_mem_head? ht
    rcases notifyProducer_eq_some hnotify with ⟨rfl, hnone⟩ | ⟨p, hp, rfl⟩
    · exact .take hw hfree ht hnone
    · exact .takeWaking hw hfree ht hp
  | check w =>
    obtain ⟨⟨hw, hfree, ht⟩, h⟩ := Option.ite_none_right_eq_some.mp h
    cases h
    split_ifs with hstop
    · exact .exit hw hfree ht hstop
    · exact .check hw hstop
  | sleep w =>
    obtain ⟨hw, h⟩ := Option.ite_none_right_eq_some.mp h
    cases h
    exact .sleep hw
  | finish w =>
    obtain ⟨t, ht, rfl⟩ := Option.map_eq_some_iff.mp h
    have hw : s.workers w = .running t := by
      cases hw : s.workers w <;> simp_all [WorkerState.task]
    exact .finish hw
  | call p =>
    obtain ⟨hp, h⟩ := Option.ite_none_right_eq_some.mp h
    cases h
    exact .call hp
  | post p =>
    obtain ⟨⟨hp, -⟩, h⟩ := Option.ite_none_right_eq_some.mp h
    cases h
    rw [ThreadPool.postOutcome]
    split_ifs with hstop hroom
    · exact .reject hp hstop
    · exact .enter hp hstop
    · exact .full hp hstop fun h => hroom (.inl h)
  | block p =>
    obtain ⟨hp, h⟩ := Option.ite_none_right_eq_some.mp h
    cases h
    exact .block hp
  | enqueue p =>
    obtain ⟨hp, h⟩ := Option.ite_none_right_eq_some.mp h
    cases h
    exact .enqueue hp
  | notify p wake =>
    obtain ⟨hp, h⟩ := Option.ite_none_right_eq_some.mp h
    obtain ⟨workers, hnotify, rfl⟩ := Option.map_eq_some_iff.mp h
    rcases notifyOne_eq_some hnotify with ⟨rfl, -⟩ | ⟨w, hw, rfl⟩
    · exact .notify hp
    · exact .notifyWaking hp hw
  | store =>
    obtain ⟨hd, h⟩ := Option.ite_none_right_eq_some.mp h
    cases h
    exact .store hd
  | notifyAll =>
    obtain ⟨hd, h⟩ := Option.ite_none_right_eq_some.mp h
    cases h
    exact .notifyAll hd
  | join =>
    obtain ⟨⟨hd, -⟩, h⟩ := Option.ite_none_right_eq_some.mp h
    cases h
    exact .join hd

/-- What the shutdown relies on: nobody is about to sleep when the workers are notified, and there are
no more blocked producers than tasks when the flag is set. -/
def InTime (s : ThreadPool ω ι) : PoolAction ω ι → Prop
  | .store => census .asleep s.producers + census .full s.producers ≤
      s.tasks.length + census .admitted s.producers
  | .notifyAll => census .checked s.workers = 0
  | _ => True

omit [DecidableEq ω] in
theorem mutexFree_iff : s.mutexFree ↔ census .checked s.workers = 0 ∧
    census .admitted s.producers = 0 ∧ census .full s.producers = 0 := by
  simp [mutexFree, census_eq_zero, forall_and]

section Invariants

/-- Without a limit nobody waits for room. -/
def NoneBlocked (s : ThreadPool ω ι) : Prop :=
  s.maxQueueSize = 0 → census .asleep s.producers = 0 ∧ census .full s.producers = 0

omit [Fintype ω] in
theorem NoneBlocked.effect (h : NoneBlocked s) (he : Effect s a s') : NoneBlocked s' := by
  intro hmax
  cases he with
  | takeWaking _ _ _ hp => exact absurd hp (census_eq_zero.mp (h hmax).1 _)
  | full _ _ hlimit => exact absurd hmax hlimit
  | block hp => exact absurd hp (census_eq_zero.mp (h hmax).2 _)
  | _ => grind [NoneBlocked, setWorker, setProducer, census_update]

/-- Once a worker has left, the queue is empty and stays empty. -/
def Drained (s : ThreadPool ω ι) : Prop :=
  0 < census .exited s.workers → s.stop ∧ s.tasks = [] ∧ census .admitted s.producers = 0

theorem Drained.effect (h : Drained s) (he : Effect s a s') : Drained s' := by
  cases he with
  | exit hw hfree ht hstop => exact fun _ => ⟨hstop, ht, (mutexFree_iff.mp hfree).2.1⟩
  | notifyAll hd =>
    intro hexited
    rw [census_notifyAll _ _ _ (by simp) (by simp)] at hexited
    obtain ⟨-, ht, hadmitted⟩ := h hexited
    exact ⟨by simp [stop], ht, hadmitted⟩
  | _ => grind [Drained, stop, setWorker, setProducer, census_update]

/-- After the workers were notified none of them sleeps. -/
def Woken (s : ThreadPool ω ι) : Prop :=
  s.destructor = .notified ∨ s.destructor = .returned →
    census .checked s.workers = 0 ∧ census .asleep s.workers = 0

theorem Woken.effect (h : Woken s) (hok : InTime s a) (he : Effect s a s') : Woken s' := by
  cases he with
  | notifyAll hd =>
    intro _
    refine ⟨?_, census_asleep_notifyAll _ _ _ (by simp)⟩
    rw [census_notifyAll _ _ _ (by simp) (by simp)]
    exact hok
  | _ => grind [Woken, stop, setWorker, setProducer, census_update]

/-- After the flag was set every blocked producer finds a task whose removal wakes it. -/
def Covered (s : ThreadPool ω ι) : Prop :=
  s.stop → census .asleep s.producers + census .full s.producers ≤
    s.tasks.length + census .admitted s.producers

theorem Covered.effect (h : Covered s) (hnone : NoneBlocked s) (hok : InTime s a)
    (he : Effect s a s') : Covered s' := by
  cases he with
  | take hw hfree ht hnobody =>
    intro hstop
    obtain ⟨-, -, hfull⟩ := mutexFree_iff.mp hfree
    have hasleep : census .asleep s.producers = 0 := hnobody.elim (fun h => (hnone h).1) id
    simp [setWorker, hasleep, hfull]
  | takeWaking hw hfree ht hp => grind [Covered, stop, setWorker, setProducer, census_update]
  | store => exact fun _ => hok
  | _ => grind [Covered, stop, setWorker, setProducer, census_update]

/-- Tasks that `post` has accepted. -/
def accepted : ProducerState → ℕ
  | .notifying => 1
  | .returned => 1
  | _ => 0

def Once (s : ThreadPool ω ι) : Prop :=
  ∀ p, s.tasks.count p + census (.running p) s.workers + s.executed.count p =
    accepted (s.producers p)

omit [DecidableEq ω] [Fintype ι] in
theorem Once.setProducer (h : Once s) {q : ι} {x : ProducerState}
    (hx : accepted x = accepted (s.producers q)) : Once (s.setProducer q x) := by
  intro p
  have hsame : accepted (Function.update s.producers q x p) = accepted (s.producers p) := by
    by_cases hp : p = q
    · rw [hp, Function.update_self, hx]
    · rw [Function.update_of_ne hp]
  exact (h p).trans hsame.symm

omit [Fintype ι] in
theorem Once.setWorker (h : Once s) {w : ω} {x : WorkerState ι} (hw : (s.workers w).task = none)
    (hx : x.task = none) : Once (s.setWorker w x) := by
  intro p
  have hcount := census_update (.running p) s.workers w x
  have hold : s.workers w ≠ .running p := fun hp => by simp [hp, WorkerState.task] at hw
  have hnew : x ≠ .running p := fun hp => by simp [hp, WorkerState.task] at hx
  rw [if_neg hold, if_neg hnew] at hcount
  have hp := h p
  simp only [ThreadPool.setWorker]
  omega

omit [Fintype ι] in
theorem Once.take (h : Once s) {w : ω} {t : ι} {rest : List ι} (hw : s.workers w = .ready)
    (ht : s.tasks = t :: rest) : Once { s.setWorker w (.running t) with tasks := rest } := by
  intro p
  have hcount := census_update (.running p) s.workers w (.running t)
  have hp := h p
  rw [ht, List.count_cons] at hp
  simp only [hw, reduceCtorEq, if_false, WorkerState.running.injEq] at hcount
  simp only [ThreadPool.setWorker, ← hp, beq_iff_eq]
  omega

theorem Once.effect (h : Once s) (he : Effect s a s') : Once s' := by
  cases he with
  | take hw _ ht => exact h.take hw ht
  | takeWaking hw _ ht hq => exact (h.take hw ht).setProducer (congrArg accepted hq).symm
  | check hw | exit hw | sleep hw => exact h.setWorker (congrArg _ hw) rfl
  | finish hw =>
    rename_i w t
    intro p
    have hcount := census_update (.running p) s.workers w .ready
    simp only [hw, WorkerState.running.injEq, reduceCtorEq, if_false] at hcount
    simp only [ThreadPool.setWorker, ← h p, List.count_append, List.count_singleton, beq_iff_eq]
    omega
  | enqueue hq =>
    rename_i q
    intro p
    have hp := h p
    by_cases hpq : p = q
    · subst hpq
      simp [ThreadPool.setProducer, accepted, hq] at hp ⊢
      omega
    · simp [ThreadPool.setProducer, hpq, Ne.symm hpq, hp]
  | notifyAll hd =>
    intro p
    rw [← h p, census_notifyAll _ _ _ (by simp) (by simp)]
  | call hq | reject hq | enter hq | full hq | block hq | notify hq =>
    exact h.setProducer (congrArg accepted hq).symm
  | notifyWaking hq hw =>
    have hdone := h.setProducer (x := .returned) (congrArg accepted hq).symm
    exact hdone.setWorker (x := .ready) (congrArg _ hw) rfl
  | store | join => exact h

end Invariants

section Progress

omit [Fintype ω] in
theorem stop_effect (h : s.stop) (he : Effect s a s') : s'.stop := by
  cases he with
  | store | notifyAll | join => exact fun h => by cases h
  | _ => exact h

def producerMoves : List (ProducerState × ProducerState) :=
  [(.idle, .ready), (.ready, .thrown), (.ready, .admitted), (.ready, .full), (.full, .asleep),
    (.asleep, .ready), (.admitted, .notifying), (.notifying, .returned)]

omit [Fintype ω] in
theorem producer_moves (he : Effect s a s') (p : ι) :
    s'.producers p = s.producers p ∨ (s.producers p, s'.producers p) ∈ producerMoves := by
  have hupdate : ∀ q x, (s.producers q, x) ∈ producerMoves →
      Function.update s.producers q x p = s.producers p ∨
        (s.producers p, Function.update s.producers q x p) ∈ producerMoves := by
    intro q x hx
    by_cases hp : p = q
    · subst hp
      rw [Function.update_self]
      exact .inr hx
    · exact .inl (Function.update_of_ne hp _ _)
  cases he with
  | takeWaking _ _ _ hq | call hq | reject hq | enter hq | full hq | block hq | enqueue hq
  | notify hq | notifyWaking hq => exact hupdate _ _ (by simp [hq, producerMoves])
  | _ => exact .inl rfl

omit [Fintype ω] in
theorem called_effect {p : ι} (h : s.producers p ≠ .idle) (he : Effect s a s') :
    s'.producers p ≠ .idle := by
  have hmoves : ∀ m ∈ producerMoves, m.2 ≠ .idle := by decide
  rcases producer_moves he p with hsame | hmove
  · rwa [hsame]
  · exact hmoves _ hmove

omit [Fintype ω] in
theorem accepted_effect (he : Effect s a s') (p : ι) :
    accepted (s.producers p) ≤ accepted (s'.producers p) := by
  have hmoves : ∀ m ∈ producerMoves, accepted m.1 ≤ accepted m.2 := by decide
  rcases producer_moves he p with hsame | hmove
  · rw [hsame]
  · exact hmoves _ hmove

def workerWeight : WorkerState ι → ℕ
  | .exited => 0
  | .asleep => 1
  | .checked => 2
  | .ready => 2
  | .running _ => 3

def producerWeight : ProducerState → ℕ
  | .returned => 0
  | .thrown => 0
  | .asleep => 1
  | .full => 2
  | .ready => 2
  | .notifying => 2
  | .idle => 3
  | .admitted => 6

def destructorWeight (workers : ℕ) : DestructorState → ℕ
  | .returned => 0
  | .notified => 1
  | .stored => workers + 2
  | .before => workers + 3

def rank (s : ThreadPool ω ι) : ℕ :=
  weigh workerWeight s.workers + weigh producerWeight s.producers + 3 * s.tasks.length +
    destructorWeight (Fintype.card ω) s.destructor

theorem rank_effect (h : s.stop) (he : Effect s a s') : s'.rank < s.rank := by
  cases he with
  | notifyAll hd =>
    have hle : weigh workerWeight (Framework.notifyAll .asleep .ready s.workers) ≤
        weigh workerWeight s.workers + Fintype.card ω := by
      refine weigh_le_add_card fun w => ?_
      by_cases hw : s.workers w = .asleep <;> simp [Framework.notifyAll, hw, workerWeight]
    simp only [rank, hd, destructorWeight]
    omega
  | _ =>
    grind [rank, setWorker, setProducer, weigh_update, workerWeight, producerWeight,
      destructorWeight]

/-- A state in which nobody can move. -/
structure Quiet (s : ThreadPool ω ι) : Prop where
  worker : ∀ w a, OfWorker w a → s.step a = none
  producer : ∀ p a, OfProducer p a → s.step a = none
  destructor : ∀ a, OfDestructor a → s.step a = none

theorem Quiet.mutexFree (h : Quiet s) : s.mutexFree := by
  refine ⟨fun w hw => ?_, fun p => ⟨fun hp => ?_, fun hp => ?_⟩⟩
  · simpa [step, hw] using h.worker w (.sleep w) (by simp [OfWorker])
  · simpa [step, hp] using h.producer p (.enqueue p) (by simp [OfProducer])
  · simpa [step, hp] using h.producer p (.block p) (by simp [OfProducer])

omit [Fintype ω] [DecidableEq ω] in
theorem exists_notifyProducer (s : ThreadPool ω ι) : ∃ wake, (s.notifyProducer wake).isSome := by
  by_cases hmax : 0 < s.maxQueueSize
  · simpa [notifyProducer, hmax] using exists_notifyOne .asleep .ready s.producers
  · exact ⟨none, by simp [notifyProducer, hmax]⟩

theorem Quiet.workers (h : Quiet s) (w : ω) : s.workers w = .asleep ∨ s.workers w = .exited := by
  cases hw : s.workers w with
  | asleep => exact .inl rfl
  | exited => exact .inr rfl
  | checked => exact absurd hw (h.mutexFree.1 w)
  | running t => simpa [step, hw, WorkerState.task] using h.worker w (.finish w) (by simp [OfWorker])
  | ready =>
    cases ht : s.tasks with
    | nil => simpa [step, hw, h.mutexFree, ht] using h.worker w (.check w) (by simp [OfWorker])
    | cons t rest =>
      obtain ⟨wake, hwake⟩ := exists_notifyProducer s
      have hstep := h.worker w (.take w wake) (by simp [OfWorker])
      rw [step, if_pos ⟨hw, h.mutexFree⟩, ht, List.head?_cons, Option.bind_some,
        Option.map_eq_none_iff] at hstep
      simp [hstep] at hwake

theorem Quiet.producers (h : Quiet s) (p : ι) : s.producers p = .idle ∨ s.producers p = .asleep ∨
    s.producers p = .returned ∨ s.producers p = .thrown := by
  cases hp : s.producers p with
  | idle | asleep | returned | thrown => simp
  | admitted => exact absurd hp (h.mutexFree.2 p).1
  | full => exact absurd hp (h.mutexFree.2 p).2
  | ready => simpa [step, hp, h.mutexFree] using h.producer p (.post p) (by simp [OfProducer])
  | notifying =>
    obtain ⟨wake, hwake⟩ := exists_notifyOne .asleep .ready s.workers
    have hstep := h.producer p (.notify p wake) (by simp [OfProducer])
    rw [step, if_pos hp, Option.map_eq_none_iff] at hstep
    simp [hstep] at hwake

end Progress

section Shutdown

structure Inv (s : ThreadPool ω ι) : Prop where
  noneBlocked : NoneBlocked s
  drained : Drained s
  woken : Woken s
  covered : Covered s
  once : Once s

theorem Inv.step (h : Inv s) (hok : InTime s a) (hstep : s.step a = some s') : Inv s' where
  noneBlocked := h.noneBlocked.effect (step_effect hstep)
  drained := h.drained.effect (step_effect hstep)
  woken := h.woken.effect hok (step_effect hstep)
  covered := h.covered.effect h.noneBlocked hok (step_effect hstep)
  once := h.once.effect (step_effect hstep)

omit [DecidableEq ω] in
theorem inv_init (limit : ℕ) : Inv ({ maxQueueSize := limit } : ThreadPool ω ι) where
  noneBlocked := by simp [NoneBlocked, census_eq_zero]
  drained := by simp [Drained, census, weigh]
  woken := by simp [Woken]
  covered := by simp [Covered, stop]
  once := by simp [Once, census_eq_zero, accepted]

theorem Quiet.complete [Nonempty ω] (h : Quiet s) (hinv : Inv s) (hstop : s.stop) :
    s.destructor = .returned ∧ (∀ p, s.producers p ≠ .asleep) ∧
      ∀ p, s.executed.count p = accepted (s.producers p) := by
  have hnotified : s.destructor = .notified ∨ s.destructor = .returned := by
    cases hd : s.destructor with
    | before => exact absurd hd hstop
    | stored => simpa [ThreadPool.step, hd] using h.destructor .notifyAll (.inl rfl)
    | notified => exact .inl rfl
    | returned => exact .inr rfl
  have hexited : ∀ w, s.workers w = .exited := fun w =>
    (h.workers w).resolve_left (census_eq_zero.mp (hinv.woken hnotified).2 w)
  obtain ⟨w⟩ := ‹Nonempty ω›
  obtain ⟨-, htasks, hadmitted⟩ := hinv.drained (census_pos (hexited w))
  refine ⟨?_, ?_, fun p => ?_⟩
  · refine hnotified.resolve_left fun hd => ?_
    simpa [ThreadPool.step, hd, hexited] using h.destructor .join (.inr rfl)
  · have hcovered := hinv.covered hstop
    rw [htasks, hadmitted] at hcovered
    exact census_eq_zero.mp (by simpa using Nat.le_zero.mp ((Nat.le_add_right _ _).trans hcovered))
  · have hidle : census (.running p) s.workers = 0 :=
      census_eq_zero.mpr fun w => by simp [hexited w]
    simpa [htasks, hidle] using hinv.once p

variable {b : Behavior (step (ω := ω) (ι := ι))}

/-- In a fair behaviour that meets the conditions, the destructor returns once it has started, every
accepted task is executed exactly once and no call of `post` stays blocked. -/
theorem shutdown_complete [Nonempty ω] {limit : ℕ} (h₀ : b.state 0 = { maxQueueSize := limit })
    (hfair : Fair b) (hin : ∀ n a, b.action n = some a → InTime (b.state n) a) {n : ℕ}
    (hstop : (b.state n).stop) :
    (∀ k p, (b.state k).executed.count p ≤ accepted ((b.state k).producers p)) ∧
      ∃ m, n ≤ m ∧ ∀ k, m ≤ k → (b.state k).destructor = .returned ∧ ∀ p,
        (∀ j, accepted ((b.state j).producers p) ≤ (b.state k).executed.count p) ∧
        ((b.state n).producers p ≠ .idle →
          (b.state k).producers p = .returned ∨ (b.state k).producers p = .thrown) := by
  have hinv : ∀ k, Inv (b.state k) :=
    b.guarded (fun s a s' h hok hstep => h.step hok hstep) (h₀ ▸ inv_init limit) hin
  refine ⟨fun k p => ?_, ?_⟩
  · have hp := (hinv k).once p
    omega
  obtain ⟨m, hm, hrest⟩ := b.settles (I := stop) rank
    (fun s a s' h hstep => ⟨stop_effect h (step_effect hstep), rank_effect h (step_effect hstep)⟩) hstop
  have hquiet : Quiet (b.state m) :=
    ⟨fun w _ => (hfair.worker w).disabled hrest, fun p _ => (hfair.producer p).disabled hrest,
      fun _ => hfair.destructor.disabled hrest⟩
  have hlast : (b.state m).stop :=
    b.persists (fun s a s' h hstep => stop_effect h (step_effect hstep)) hm hstop
  obtain ⟨hreturned, hawake, hcount⟩ := hquiet.complete (hinv m) hlast
  refine ⟨m, hm, fun k hk => ?_⟩
  rw [(hrest k hk).1]
  refine ⟨hreturned, fun p => ⟨fun j => ?_, fun hcalled => ?_⟩⟩
  · rw [hcount p, ← (hrest (max j m) (le_max_right _ _)).1]
    exact b.persists
      (I := fun s => accepted ((b.state j).producers p) ≤ accepted (s.producers p))
      (fun s a s' h hstep => h.trans (accepted_effect (step_effect hstep) p)) (le_max_left _ _) le_rfl
  have hcalled : (b.state m).producers p ≠ .idle :=
    b.persists (I := fun s => s.producers p ≠ .idle)
      (fun s a s' h hstep => called_effect h (step_effect hstep)) hm hcalled
  rcases hquiet.producers p with h | h | h
  · exact absurd h hcalled
  · exact absurd h (hawake p)
  · exact h

end Shutdown

section Runs

theorem quiet_of (hw : ∀ w, s.workers w = .asleep ∨ s.workers w = .exited)
    (hp : ∀ p, s.producers p ∈ [.idle, .asleep, .returned, .thrown])
    (hd : s.destructor = .returned ∨ s.destructor = .notified ∧ ∃ w, s.workers w = .asleep) :
    Quiet s where
  worker w a ha := by
    have hw := hw w
    rcases ha with rfl | rfl | rfl | ⟨wake, rfl⟩ <;>
      rcases hw with hw | hw <;> simp [ThreadPool.step, hw, WorkerState.task]
  producer p a ha := by
    have hp := hp p
    rcases ha with rfl | rfl | rfl | ⟨wake, rfl⟩ <;>
      grind [ThreadPool.step]
  destructor a ha := by
    rcases ha with rfl | rfl <;> grind [ThreadPool.step]

theorem fair_ofRun {t : ThreadPool ω ι} {as : List (PoolAction ω ι)} (h : (run step s as).isSome)
    (ht : run step s as = some t) (hq : Quiet t) : Fair (Behavior.ofRun s as h) where
  worker w := Behavior.ofRun_weaklyFair ht (hq.worker w)
  producer p := Behavior.ofRun_weaklyFair ht (hq.producer p)
  destructor := Behavior.ofRun_weaklyFair ht hq.destructor

def missedRun : List (PoolAction Unit Unit) := [.check (), .store, .notifyAll, .sleep ()]

/-- A full queue of one task, two blocked producers, and one pop that wakes the first of them. -/
def blockedRun : List (PoolAction Unit (Fin 3)) :=
  [.call 0, .post 0, .enqueue 0, .notify 0 none, .call 1, .post 1, .block 1, .call 2, .post 2,
    .block 2, .store, .notifyAll, .take () (some 1), .post 1, .finish (), .check (), .join]

theorem missedRun_last : (run step { maxQueueSize := 0 } missedRun).map (fun t =>
    (t.workers (), t.producers (), t.destructor)) = some (.asleep, .idle, .notified) := by
  decide +kernel

theorem blockedRun_last : (run step { maxQueueSize := 1 } blockedRun).map (fun t =>
    (t.workers (), [t.producers 0, t.producers 1, t.producers 2], t.destructor)) =
      some (.exited, [.returned, .thrown, .asleep], .returned) := by
  decide +kernel

theorem blockedRun_blocked : ((run step { maxQueueSize := 1 } (blockedRun.take 10)).getD
    { maxQueueSize := 1 }).producers 2 = .asleep := by
  decide +kernel

/-- The destructor misses a worker that is about to sleep, and no one wakes a producer whose task finds
no room. -/
theorem shutdown_stuck :
    (∃ b : Behavior (step (ω := Unit) (ι := Unit)), b.state 0 = { maxQueueSize := 0 } ∧ Fair b ∧
      ∃ n, (b.state n).stop ∧ ∀ k, n ≤ k → (b.state k).destructor = .notified) ∧
    ∃ b : Behavior (step (ω := Unit) (ι := Fin 3)), b.state 0 = { maxQueueSize := 1 } ∧ Fair b ∧
      ∃ n m, b.action n = some .store ∧ (b.state n).producers 2 = .asleep ∧
        ∀ k, m ≤ k → (b.state k).producers 2 = .asleep := by
  constructor
  · obtain ⟨t, ht, hlast⟩ := Option.map_eq_some_iff.mp missedRun_last
    simp only [Prod.mk.injEq] at hlast
    obtain ⟨hw, hp, hd⟩ := hlast
    have hquiet : Quiet t := quiet_of (fun _ => .inl hw) (fun _ => by simp [hp])
      (.inr ⟨hd, (), hw⟩)
    have hsome : (run step { maxQueueSize := 0 } missedRun).isSome := by simp [ht]
    have hrest : ∀ k, 4 ≤ k → (Behavior.ofRun _ missedRun hsome).state k = t := fun k hk =>
      Behavior.ofRun_state ht hk
    refine ⟨Behavior.ofRun _ missedRun hsome, rfl, fair_ofRun hsome ht hquiet, 4, ?_, fun k hk => ?_⟩
    · rw [hrest 4 le_rfl]
      simp [stop, hd]
    · rw [hrest k hk, hd]
  · obtain ⟨t, ht, hlast⟩ := Option.map_eq_some_iff.mp blockedRun_last
    simp only [Prod.mk.injEq, List.cons.injEq, and_true] at hlast
    obtain ⟨hw, ⟨h0, h1, h2⟩, hd⟩ := hlast
    have hproducers : ∀ p, t.producers p ∈ [.idle, .asleep, .returned, .thrown] := fun p => by
      fin_cases p <;> simp [h0, h1, h2]
    have hquiet : Quiet t := quiet_of (fun _ => .inr hw) hproducers (.inl hd)
    have hsome : (run step { maxQueueSize := 1 } blockedRun).isSome := by simp [ht]
    refine ⟨Behavior.ofRun _ blockedRun hsome, rfl, fair_ofRun hsome ht hquiet, 10, 17, rfl, ?_,
      fun k hk => ?_⟩
    · exact blockedRun_blocked
    · rw [Behavior.ofRun_state ht hk, h2]

/-- A task that is posted, waits in the queue when the flag is set, and is executed. -/
def servedRun : List (PoolAction Unit Unit) :=
  [.call (), .post (), .enqueue (), .notify () none, .store, .notifyAll, .take () none, .finish (),
    .check (), .join]

theorem servedRun_last : (run step { maxQueueSize := 1 } servedRun).map (fun t =>
    (t.workers (), t.producers (), t.destructor)) = some (.exited, .returned, .returned) := by
  decide +kernel

theorem servedRun_inTime {n : ℕ} {a : PoolAction Unit Unit} (ha : servedRun[n]? = some a) :
    InTime ((run step { maxQueueSize := 1 } (servedRun.take n)).getD { maxQueueSize := 1 }) a := by
  have hn : n < 10 := (List.getElem?_eq_some_iff.mp ha).1
  interval_cases n <;> cases ha
  all_goals first
    | trivial
    | exact Nat.le_of_ble_eq_true rfl

theorem shutdown_served : ∃ b : Behavior (step (ω := Unit) (ι := Unit)),
    b.state 0 = { maxQueueSize := 1 } ∧ Fair b ∧
      ∃ m, ∀ k, m ≤ k → (b.state k).destructor = .returned ∧ 1 ≤ (b.state k).executed.count () := by
  obtain ⟨t, ht, hlast⟩ := Option.map_eq_some_iff.mp servedRun_last
  simp only [Prod.mk.injEq] at hlast
  obtain ⟨hw, hp, hd⟩ := hlast
  have hsome : (run step { maxQueueSize := 1 } servedRun).isSome := by simp [ht]
  have hfair : Fair (Behavior.ofRun _ servedRun hsome) :=
    fair_ofRun hsome ht (quiet_of (fun _ => .inr hw) (fun _ => by simp [hp]) (.inl hd))
  have hten : (Behavior.ofRun _ servedRun hsome).state 10 = t := Behavior.ofRun_state ht le_rfl
  have hstop : ((Behavior.ofRun _ servedRun hsome).state 10).stop := by simp [hten, stop, hd]
  obtain ⟨-, m, -, h⟩ := shutdown_complete rfl hfair (fun _ _ => servedRun_inTime) hstop
  refine ⟨_, rfl, hfair, m, fun k hk => ⟨(h k hk).1, ?_⟩⟩
  simpa [hten, hp, accepted] using ((h k hk).2 ()).1 10

end Runs

end ThreadPool

end CoroDB
