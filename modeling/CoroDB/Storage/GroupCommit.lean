import CoroDB.Framework.Run

/-!
# Group commit

Threads append records to the writers of the logs and call `request_sync`.
-/

namespace CoroDB

open Framework

/-- A writer by the number of its records, and of those that are flushed and synced. -/
structure WalWriter where
  appended : Nat
  synced : Nat
  needsGroupSync : Bool
  deriving DecidableEq, Repr

namespace WalWriter

def append (w : WalWriter) : WalWriter :=
  { w with appended := w.appended + 1, needsGroupSync := true }

def commitSync (w : WalWriter) : WalWriter :=
  if w.needsGroupSync then { w with synced := w.appended, needsGroupSync := false } else w

end WalWriter

/-- Where a thread is in a call of `request_sync`: a leader has the writers that it still has to
visit, a follower the epoch that it joined. -/
inductive SyncCall (ν : Type*) where
  | idle
  | leading (writer : ν) (todo : List ν)
  | waiting (writer : ν) (epoch : Nat)
  deriving DecidableEq

/-- The committer and its writers. `own` counts the records of a writer up to the last one that the
thread appended, `acknowledged` those of them that a call has returned for. -/
structure GroupCommit (ν ι : Type*) where
  writers : ν → WalWriter
  currentEpoch : Nat
  pendingCount : Nat
  calls : ι → SyncCall ν
  own : ι → ν → Nat
  acknowledged : ι → ν → Nat

inductive SyncAction (ν ι : Type*) where
  | append (thread : ι) (writer : ν)
  | requestSync (thread : ι) (writer : ν)
  | visit (thread : ι) (succeeds : Bool)
  | finish (thread : ι)
  | wake (thread : ι)
  deriving DecidableEq

namespace GroupCommit

variable {ν ι : Type*} [DecidableEq ν] [DecidableEq ι]

def init (ν ι : Type*) : GroupCommit ν ι where
  writers _ := ⟨0, 0, false⟩
  currentEpoch := 0
  pendingCount := 0
  calls _ := .idle
  own _ _ := 0
  acknowledged _ _ := 0

def setCall (s : GroupCommit ν ι) (i : ι) (c : SyncCall ν) : GroupCommit ν ι :=
  { s with calls := Function.update s.calls i c }

def complete (s : GroupCommit ν ι) (i : ι) (w : ν) : GroupCommit ν ι :=
  { s.setCall i .idle with
    acknowledged := Function.update s.acknowledged i
      (Function.update (s.acknowledged i) w (s.own i w)) }

/-- One lock section of a thread, with the writers in the order of the manager's map. -/
def step (order : List ν) (s : GroupCommit ν ι) : SyncAction ν ι → Option (GroupCommit ν ι)
  | .append i w =>
    if s.calls i = .idle then
      some { s with
        writers := Function.update s.writers w (s.writers w).append
        own := Function.update s.own i
          (Function.update (s.own i) w ((s.writers w).appended + 1)) }
    else none
  | .requestSync i w =>
    if s.calls i = .idle then
      some { s.setCall i (if s.pendingCount = 0 then .leading w order
          else .waiting w s.currentEpoch) with pendingCount := s.pendingCount + 1 }
    else none
  | .visit i succeeds =>
    match s.calls i with
    | .leading w (x :: todo) =>
      if (s.writers x).needsGroupSync = true ∧ succeeds = false then some (s.setCall i .idle)
      else some { s.setCall i (.leading w todo) with
        writers := Function.update s.writers x (s.writers x).commitSync }
    | _ => none
  | .finish i =>
    match s.calls i with
    | .leading w [] =>
      some { s.complete i w with currentEpoch := s.currentEpoch + 1, pendingCount := 0 }
    | _ => none
  | .wake i =>
    match s.calls i with
    | .waiting w epoch => if epoch < s.currentEpoch then some (s.complete i w) else none
    | _ => none

/-- What a step does: a thread appends, leads, joins, visits a writer, fails, finishes or wakes. -/
theorem step_cases {order : List ν} {s s' : GroupCommit ν ι} {a : SyncAction ν ι}
    (h : step order s a = some s') :
    (∃ i w, a = .append i w ∧ s.calls i = .idle ∧ s' = { s with
        writers := Function.update s.writers w (s.writers w).append
        own := Function.update s.own i
          (Function.update (s.own i) w ((s.writers w).appended + 1)) }) ∨
    (∃ i w, a = .requestSync i w ∧ s.calls i = .idle ∧ s.pendingCount = 0 ∧
      s' = { s.setCall i (.leading w order) with pendingCount := 1 }) ∨
    (∃ i w, a = .requestSync i w ∧ s.calls i = .idle ∧ s.pendingCount ≠ 0 ∧
      s' = { s.setCall i (.waiting w s.currentEpoch) with pendingCount := s.pendingCount + 1 }) ∨
    (∃ i w x todo succeeds, a = .visit i succeeds ∧ s.calls i = .leading w (x :: todo) ∧
      ¬ ((s.writers x).needsGroupSync = true ∧ succeeds = false) ∧ s' = { s.setCall i (.leading w todo) with
        writers := Function.update s.writers x (s.writers x).commitSync }) ∨
    (∃ i w x todo, a = .visit i false ∧ s.calls i = .leading w (x :: todo) ∧
      (s.writers x).needsGroupSync = true ∧ s' = s.setCall i .idle) ∨
    (∃ i w, a = .finish i ∧ s.calls i = .leading w [] ∧
      s' = { s.complete i w with currentEpoch := s.currentEpoch + 1, pendingCount := 0 }) ∨
    (∃ i w epoch, a = .wake i ∧ s.calls i = .waiting w epoch ∧ epoch < s.currentEpoch ∧
      s' = s.complete i w) := by
  cases a with
  | append i w =>
    simp only [step] at h
    split at h
    · next hidle => exact .inl ⟨i, w, rfl, hidle, (Option.some.inj h).symm⟩
    · cases h
  | requestSync i w =>
    simp only [step] at h
    split at h
    · next hidle =>
      obtain rfl := Option.some.inj h
      by_cases hpending : s.pendingCount = 0
      · exact .inr (.inl ⟨i, w, rfl, hidle, hpending, by simp [hpending]⟩)
      · exact .inr (.inr (.inl ⟨i, w, rfl, hidle, hpending, by simp [hpending]⟩))
    · cases h
  | visit i succeeds =>
    simp only [step] at h
    split at h
    · next w x todo hcall =>
      split at h
      · next hfails =>
        obtain ⟨hneeds, rfl⟩ := hfails
        exact .inr (.inr (.inr (.inr (.inl
          ⟨i, w, x, todo, rfl, hcall, hneeds, (Option.some.inj h).symm⟩))))
      · next hworks =>
        exact .inr (.inr (.inr (.inl
          ⟨i, w, x, todo, succeeds, rfl, hcall, hworks, (Option.some.inj h).symm⟩)))
    · cases h
  | finish i =>
    simp only [step] at h
    split at h
    · next w hcall =>
      exact .inr (.inr (.inr (.inr (.inr (.inl ⟨i, w, rfl, hcall, (Option.some.inj h).symm⟩)))))
    · cases h
  | wake i =>
    simp only [step] at h
    split at h
    · next w epoch hcall =>
      split at h
      · next hlt =>
        exact .inr (.inr (.inr (.inr (.inr (.inr
          ⟨i, w, epoch, rfl, hcall, hlt, (Option.some.inj h).symm⟩)))))
      · cases h
    · cases h

inductive CallStep (order : List ν) (s s' : GroupCommit ν ι) : SyncAction ν ι → Prop where
  | append (i : ι) (w : ν) (hi : s.calls i = .idle) (hcalls : ∀ j, s'.calls j = s.calls j)
      (hepoch : s'.currentEpoch = s.currentEpoch) (hpending : s'.pendingCount = s.pendingCount) :
      CallStep order s s' (.append i w)
  | lead (i : ι) (w : ν) (hi : s.calls i = .idle) (hzero : s.pendingCount = 0)
      (hcalls : ∀ j, s'.calls j = if j = i then .leading w order else s.calls j)
      (hepoch : s'.currentEpoch = s.currentEpoch) (hpending : s'.pendingCount = 1) :
      CallStep order s s' (.requestSync i w)
  | join (i : ι) (w : ν) (hi : s.calls i = .idle) (hzero : s.pendingCount ≠ 0)
      (hcalls : ∀ j, s'.calls j = if j = i then .waiting w s.currentEpoch else s.calls j)
      (hepoch : s'.currentEpoch = s.currentEpoch)
      (hpending : s'.pendingCount = s.pendingCount + 1) :
      CallStep order s s' (.requestSync i w)
  | visit (i : ι) (w x : ν) (todo : List ν) (succeeds : Bool)
      (hi : s.calls i = .leading w (x :: todo))
      (hworks : ¬ ((s.writers x).needsGroupSync = true ∧ succeeds = false))
      (hcalls : ∀ j, s'.calls j = if j = i then .leading w todo else s.calls j)
      (hepoch : s'.currentEpoch = s.currentEpoch) (hpending : s'.pendingCount = s.pendingCount) :
      CallStep order s s' (.visit i succeeds)
  | throw (i : ι) (w x : ν) (todo : List ν) (hi : s.calls i = .leading w (x :: todo))
      (hfails : (s.writers x).needsGroupSync = true)
      (hcalls : ∀ j, s'.calls j = if j = i then .idle else s.calls j)
      (hepoch : s'.currentEpoch = s.currentEpoch) (hpending : s'.pendingCount = s.pendingCount) :
      CallStep order s s' (.visit i false)
  | finish (i : ι) (w : ν) (hi : s.calls i = .leading w [])
      (hcalls : ∀ j, s'.calls j = if j = i then .idle else s.calls j)
      (hepoch : s'.currentEpoch = s.currentEpoch + 1) (hpending : s'.pendingCount = 0) :
      CallStep order s s' (.finish i)
  | wake (i : ι) (w : ν) (epoch : Nat) (hi : s.calls i = .waiting w epoch)
      (hlt : epoch < s.currentEpoch)
      (hcalls : ∀ j, s'.calls j = if j = i then .idle else s.calls j)
      (hepoch : s'.currentEpoch = s.currentEpoch) (hpending : s'.pendingCount = s.pendingCount) :
      CallStep order s s' (.wake i)

theorem callStep {order : List ν} {s s' : GroupCommit ν ι} {a : SyncAction ν ι}
    (h : step order s a = some s') : CallStep order s s' a := by
  rcases step_cases h with ⟨i, w, rfl, hi, rfl⟩ | ⟨i, w, rfl, hi, hzero, rfl⟩ |
    ⟨i, w, rfl, hi, hzero, rfl⟩ | ⟨i, w, x, todo, succeeds, rfl, hi, hworks, rfl⟩ |
    ⟨i, w, x, todo, rfl, hi, hfails, rfl⟩ | ⟨i, w, rfl, hi, rfl⟩ | ⟨i, w, epoch, rfl, hi, hlt, rfl⟩
  · exact .append i w hi (fun _ => rfl) rfl rfl
  · exact .lead i w hi hzero (Function.update_apply _ i _) rfl rfl
  · exact .join i w hi hzero (Function.update_apply _ i _) rfl rfl
  · exact .visit i w x todo succeeds hi hworks (Function.update_apply _ i _) rfl rfl
  · exact .throw i w x todo hi hfails (Function.update_apply _ i _) rfl rfl
  · exact .finish i w hi (Function.update_apply _ i _) rfl rfl
  · exact .wake i w epoch hi hlt (Function.update_apply _ i _) rfl rfl

/-- What a call has returned for is flushed and synced. -/
def Durable (s : GroupCommit ν ι) : Prop :=
  ∀ i w, s.acknowledged i w ≤ (s.writers w).synced

/-- A thread that joins an epoch has nothing unsynced in its writer, or the leader of the epoch has
still to visit the writer. -/
def JoinsInTime (s : GroupCommit ν ι) : SyncAction ν ι → Prop
  | .requestSync i w =>
    s.pendingCount = 0 ∨ s.own i w ≤ (s.writers w).synced ∨
      ∀ j x todo, s.calls j = .leading x todo → w ∈ todo
  | _ => True

/-- The thread takes part in the current epoch with a call on the writer. -/
def Member (s : GroupCommit ν ι) (i : ι) (w : ν) : Prop :=
  (∃ todo, s.calls i = .leading w todo) ∨ s.calls i = .waiting w s.currentEpoch

/-- Every record that the thread has appended to the writer is synced. -/
def Settled (s : GroupCommit ν ι) (i : ι) (w : ν) : Prop := s.own i w ≤ (s.writers w).synced

/-- There is one leader, epochs of followers are past or current, and a current call is counted. -/
structure Grouped (s : GroupCommit ν ι) : Prop where
  unique : ∀ i j w x todo todo', s.calls i = .leading w todo → s.calls j = .leading x todo' → i = j
  pending : ∀ i w, s.Member i w → s.pendingCount ≠ 0
  epoch_le : ∀ i w epoch, s.calls i = .waiting w epoch → epoch ≤ s.currentEpoch

/-- A writer that needs no sync is synced, and the threads have appended what the writers hold. -/
structure Counted (s : GroupCommit ν ι) : Prop where
  synced_le : ∀ w, (s.writers w).synced ≤ (s.writers w).appended
  clean : ∀ w, (s.writers w).needsGroupSync = false → (s.writers w).synced = (s.writers w).appended
  own_le : ∀ i w, s.own i w ≤ (s.writers w).appended

section Steps

variable {order : List ν} {s s' : GroupCommit ν ι} {a : SyncAction ν ι}

theorem Grouped.step (hs : s.Grouped) (h : step order s a = some s') : s'.Grouped := by
  obtain ⟨hunique, hmember, hle⟩ := hs
  have hleading : ∀ i w todo, s.calls i = .leading w todo → s.pendingCount ≠ 0 :=
    fun i w todo hi => hmember i w (.inl ⟨todo, hi⟩)
  have hwaiting : ∀ i w, s.calls i = .waiting w s.currentEpoch → s.pendingCount ≠ 0 :=
    fun i w hi => hmember i w (.inr hi)
  have hstep := callStep h
  clear h hmember
  refine ⟨?_, fun j x hj => ?_, ?_⟩
  · cases hstep <;> grind
  · rcases hj with ⟨todo, hj⟩ | hj <;> cases hstep <;> grind
  · cases hstep <;> grind

theorem Counted.step (hs : s.Counted) (h : step order s a = some s') : s'.Counted := by
  obtain ⟨hsynced, hclean, hown⟩ := hs
  rcases step_cases h with ⟨i, w, rfl, -, rfl⟩ | ⟨i, w, rfl, -, -, rfl⟩ | ⟨i, w, rfl, -, -, rfl⟩ |
    ⟨i, w, x, todo, succeeds, rfl, -, -, rfl⟩ | ⟨i, w, x, todo, rfl, -, -, rfl⟩ | ⟨i, w, rfl, -, rfl⟩ |
    ⟨i, w, epoch, rfl, -, -, rfl⟩
  case inl =>
    clear h
    constructor <;> simp only [Function.update_apply, WalWriter.append] <;> grind
  case inr.inr.inr.inl =>
    clear h
    constructor <;> simp only [setCall, Function.update_apply, WalWriter.commitSync] <;> grind
  all_goals exact ⟨hsynced, hclean, hown⟩

theorem synced_mono (hs : s.Counted) (h : step order s a = some s') (w : ν) :
    (s.writers w).synced ≤ (s'.writers w).synced := by
  have hsynced := hs.synced_le w
  rcases step_cases h with ⟨j, x, rfl, -, rfl⟩ | ⟨j, x, rfl, -, -, rfl⟩ | ⟨j, x, rfl, -, -, rfl⟩ |
    ⟨j, x, y, todo, succeeds, rfl, -, -, rfl⟩ | ⟨j, x, y, todo, rfl, -, -, rfl⟩ | ⟨j, x, rfl, -, rfl⟩ |
    ⟨j, x, epoch, rfl, -, -, rfl⟩
  case inl =>
    clear h
    simp only [Function.update_apply, WalWriter.append]
    grind
  case inr.inr.inr.inl =>
    clear h
    simp only [Function.update_apply, WalWriter.commitSync]
    grind
  all_goals exact le_refl _

theorem own_step {i : ι} (h : step order s a = some s') (hi : s.calls i ≠ .idle) :
    s'.own i = s.own i := by
  rcases step_cases h with ⟨j, x, rfl, hj, rfl⟩ | ⟨j, x, rfl, -, -, rfl⟩ | ⟨j, x, rfl, -, -, rfl⟩ |
    ⟨j, x, y, todo, succeeds, rfl, -, -, rfl⟩ | ⟨j, x, y, todo, rfl, -, -, rfl⟩ | ⟨j, x, rfl, -, rfl⟩ |
    ⟨j, x, epoch, rfl, -, -, rfl⟩
  case inl =>
    have hne : i ≠ j := fun hij => hi (hij ▸ hj)
    exact Function.update_of_ne hne _ _
  all_goals rfl

theorem Settled.step {i : ι} {w : ν} (hs : s.Counted) (h : step order s a = some s')
    (hi : s.calls i ≠ .idle) (hsettled : s.Settled i w) : s'.Settled i w := by
  rw [Settled, own_step h hi]
  exact hsettled.trans (synced_mono hs h w)

end Steps

/-- What the calls are owed: those that returned or may return have their records synced, and the
writer of a call of the current epoch is still to be visited or holds no unsynced record of it. -/
structure Served (s : GroupCommit ν ι) : Prop where
  durable : s.Durable
  released : ∀ i w epoch, s.calls i = .waiting w epoch → epoch < s.currentEpoch → s.Settled i w
  reached : ∀ i w j x todo, s.Member i w → s.calls j = .leading x todo →
    s.Settled i w ∨ w ∈ todo

section Serve

variable {order : List ν} {s s' : GroupCommit ν ι} {a : SyncAction ν ι}

theorem Served.durable_step (hc : s.Counted) (hs : s.Served)
    (h : step order s a = some s') : s'.Durable := by
  have hmono := synced_mono hc h
  have hkept : s'.acknowledged = s.acknowledged → s'.Durable := by
    intro hack j x
    rw [hack]
    exact (hs.durable j x).trans (hmono x)
  have hreturned : ∀ i w, s.Settled i w → s'.acknowledged = (s.complete i w).acknowledged →
      s'.Durable := by
    intro i w hsettled hack j x
    have hold := (hs.durable j x).trans (hmono x)
    have hnew := hsettled.trans (hmono w)
    rw [hack]
    simp only [complete, Function.update_apply]
    grind
  rcases step_cases h with ⟨i, w, rfl, -, rfl⟩ | ⟨i, w, rfl, -, -, rfl⟩ | ⟨i, w, rfl, -, -, rfl⟩ |
    ⟨i, w, x, todo, succeeds, rfl, -, -, rfl⟩ | ⟨i, w, x, todo, rfl, -, -, rfl⟩ |
    ⟨i, w, rfl, hi, rfl⟩ | ⟨i, w, epoch, rfl, hi, hlt, rfl⟩
  case inr.inr.inr.inr.inr.inl =>
    have hreached := hs.reached i w i w [] (.inl ⟨[], hi⟩) hi
    exact hreturned i w (hreached.resolve_right List.not_mem_nil) rfl
  case inr.inr.inr.inr.inr.inr => exact hreturned i w (hs.released i w epoch hi hlt) rfl
  all_goals exact hkept rfl

theorem Served.released_step (hc : s.Counted) (hs : s.Served) (hg : s.Grouped)
    (h : step order s a = some s') {j : ι} {x : ν} {epoch : Nat}
    (hj : s'.calls j = .waiting x epoch) (hlt : epoch < s'.currentEpoch) : s'.Settled j x := by
  have hsame : s.calls j = .waiting x epoch → s.Settled j x → s'.Settled j x :=
    fun hj hx => hx.step hc h (by simp [hj])
  have hreleased := hs.released j x epoch
  have hle := hg.epoch_le j x epoch
  cases callStep h with
  | finish i w hi hcalls hepoch hpending =>
    have hfinal := hs.reached j x i w []
    simp only [Member] at hfinal
    grind
  | _ => grind

omit [DecidableEq ν] in
theorem member_of_ne {i j : ι} {c : SyncCall ν} {x : ν}
    (hcalls : ∀ j, s'.calls j = if j = i then c else s.calls j)
    (hepoch : s'.currentEpoch = s.currentEpoch) (hj : j ≠ i) (h : s'.Member j x) :
    s.Member j x := by
  simpa only [Member, hcalls, if_neg hj, hepoch] using h

theorem settled_requestSync {i j : ι} {w x : ν}
    (h : step order s (.requestSync i w) = some s') : s'.Settled j x ↔ s.Settled j x := by
  simp only [step] at h
  split at h
  · rw [← Option.some.inj h]
    rfl
  · cases h

theorem settled_visit {i j : ι} {w x : ν} {todo : List ν} {succeeds : Bool} (hc : s.Counted)
    (hi : s.calls i = .leading w (x :: todo))
    (hworks : ¬ ((s.writers x).needsGroupSync = true ∧ succeeds = false))
    (h : step order s (.visit i succeeds) = some s') : s'.Settled j x := by
  simp only [step, hi, if_neg hworks, Option.some.injEq] at h
  subst h
  simp only [Settled, setCall, Function.update_self, WalWriter.commitSync]
  split
  · exact hc.own_le j x
  · next hclean => exact (hc.own_le j x).trans_eq (hc.clean x (by simpa using hclean)).symm

theorem Served.reached_step (horder : ∀ w, w ∈ order) (hg : s.Grouped) (hc : s.Counted)
    (hs : s.Served) (hjoin : s.JoinsInTime a) (h : step order s a = some s') {j k : ι} {x y : ν}
    {todo : List ν} (hj : s'.Member j x) (hk : s'.calls k = .leading y todo) :
    s'.Settled j x ∨ x ∈ todo := by
  have hkeep : s.Member j x → s.calls k = .leading y todo → s'.Settled j x ∨ x ∈ todo := by
    intro hm hk
    refine (hs.reached j x k y todo hm hk).imp_left fun hx => hx.step hc h ?_
    rcases hm with ⟨_, hm⟩ | hm <;> simp [hm]
  cases callStep h with
  | append i w hi hcalls hepoch hpending =>
    simp only [Member, hcalls, hepoch] at hj hk
    exact hkeep hj hk
  | lead i w hi hzero hcalls hepoch hpending =>
    rw [hcalls] at hk
    split at hk
    · obtain ⟨-, rfl⟩ := SyncCall.leading.inj hk
      exact .inr (horder x)
    · exact absurd hzero (hg.pending k y (.inl ⟨todo, hk⟩))
  | join i w hi hzero hcalls hepoch hpending =>
    have hki : k ≠ i := by
      rintro rfl
      simp [hcalls] at hk
    rw [hcalls, if_neg hki] at hk
    by_cases hji : j = i
    · subst hji
      obtain rfl : w = x := by simpa [Member, hcalls, hepoch] using hj
      rw [settled_requestSync h]
      exact (hjoin.resolve_left hzero).imp_right fun hall => hall k y todo hk
    · exact hkeep (member_of_ne hcalls hepoch hji hj) hk
  | visit i w z rest succeeds hi hworks hcalls hepoch hpending =>
    have hki : k = i := by
      by_contra hki
      rw [hcalls, if_neg hki] at hk
      exact hki (hg.unique k i y w todo _ hk hi)
    subst hki
    obtain ⟨rfl, rfl⟩ : w = y ∧ rest = todo := by simpa [hcalls] using hk
    by_cases hxz : x = z
    · subst hxz
      exact .inl (settled_visit hc hi hworks h)
    have hm : s.Member j x := by
      by_cases hji : j = k
      · subst hji
        obtain rfl : w = x := by simpa [Member, hcalls] using hj
        exact .inl ⟨_, hi⟩
      · exact member_of_ne hcalls hepoch hji hj
    rcases hs.reached j x k w (z :: rest) hm hi with hx | hx
    · refine .inl (hx.step hc h ?_)
      rcases hm with ⟨_, hm⟩ | hm <;> simp [hm]
    · exact .inr ((List.mem_cons.mp hx).resolve_left hxz)
  | throw i w z rest hi hfails hcalls hepoch hpending =>
    rw [hcalls] at hk
    split at hk
    · cases hk
    · next hki => exact absurd (hg.unique k i y w todo _ hk hi) hki
  | finish i w hi hcalls hepoch hpending =>
    rw [hcalls] at hk
    split at hk
    · cases hk
    · next hki => exact absurd (hg.unique k i y w todo _ hk hi) hki
  | wake i w epoch hi hlt hcalls hepoch hpending =>
    have hji : j ≠ i := by
      rintro rfl
      simp [Member, hcalls] at hj
    have hki : k ≠ i := by
      rintro rfl
      simp [hcalls] at hk
    rw [hcalls, if_neg hki] at hk
    exact hkeep (member_of_ne hcalls hepoch hji hj) hk

theorem Served.step (horder : ∀ w, w ∈ order) (hg : s.Grouped) (hc : s.Counted) (hs : s.Served)
    (hjoin : s.JoinsInTime a) (h : step order s a = some s') : s'.Served where
  durable := hs.durable_step hc h
  released _ _ _ hj hlt := hs.released_step hc hg h hj hlt
  reached _ _ _ _ _ hj hk := hs.reached_step horder hg hc hjoin h hj hk

end Serve

omit [DecidableEq ν] [DecidableEq ι] in
theorem init_not_member (i : ι) (w : ν) : ¬ (init ν ι).Member i w := by
  simp [Member, init]

omit [DecidableEq ν] [DecidableEq ι] in
theorem init_grouped : (init ν ι).Grouped where
  unique := by simp [init]
  pending i w h := absurd h (init_not_member i w)
  epoch_le := by simp [init]

omit [DecidableEq ν] [DecidableEq ι] in
theorem init_counted : (init ν ι).Counted where
  synced_le _ := le_refl _
  clean _ _ := rfl
  own_le _ _ := le_refl _

omit [DecidableEq ν] [DecidableEq ι] in
theorem init_served : (init ν ι).Served where
  durable _ _ := le_refl _
  released := by simp [init]
  reached i w _ _ _ h := absurd h (init_not_member i w)

/-- In every run whose callers join in time, each call that has returned had its records synced. -/
theorem durable_throughout {order : List ν} (horder : ∀ w, w ∈ order) (as : List (SyncAction ν ι))
    (h : Guarded (step order) JoinsInTime (init ν ι) as) :
    Throughout (step order) Durable (init ν ι) as := by
  have hinv := h.throughout (I := fun s => s.Grouped ∧ s.Counted ∧ s.Served)
    (fun s a s' hs hjoin hstep => ⟨hs.1.step hstep, hs.2.1.step hstep,
      hs.2.2.step horder hs.1 hs.2.1 hjoin hstep⟩) ⟨init_grouped, init_counted, init_served⟩
  exact hinv.mono fun s hs => hs.2.2.durable

instance JoinsInTime.decidable [Fintype ι] (s : GroupCommit ν ι) :
    (a : SyncAction ν ι) → Decidable (s.JoinsInTime a)
  | .requestSync i w => decidable_of_iff (s.pendingCount = 0 ∨ s.own i w ≤ (s.writers w).synced ∨
      ∀ j, (match s.calls j with
        | .leading _ todo => decide (w ∈ todo)
        | _ => true) = true) (by
      refine or_congr_right (or_congr_right ⟨fun h j x todo hj => ?_, fun h j => ?_⟩)
      · simpa [hj] using h j
      · split
        · next x todo hj => simpa using h j x todo hj
        · rfl)
  | .append _ _ | .visit _ _ | .finish _ | .wake _ => .isTrue trivial

/-- Two threads with a writer each: the second one joins before the leader is at its writer. -/
theorem durable_throughout_two_threads :
    Throughout (step [0, 1]) Durable (init (Fin 2) (Fin 2))
      [.append 0 0, .requestSync 0 0, .visit 0 true, .append 1 1, .requestSync 1 1, .visit 0 true,
        .finish 0, .wake 1] :=
  durable_throughout (by decide) _ (by decide)

/-- The leader has passed the writer when a follower appends to it and joins: the call of the
follower returns with its record unsynced. -/
theorem follower_returns_unsynced :
    ∃ s, run (step [()]) (init Unit (Fin 2))
        [.requestSync 0 (), .visit 0 true, .append 1 (), .requestSync 1 (), .finish 0, .wake 1] =
          some s ∧
      s.acknowledged 1 () = 1 ∧ (s.writers ()).synced = 0 ∧ ¬ s.Durable :=
  ⟨_, rfl, rfl, rfl, fun h => absurd (h 1 ()) (by decide)⟩

end GroupCommit

end CoroDB
