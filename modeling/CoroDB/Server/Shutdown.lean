import CoroDB.Server.Output

/-!
# Closing a connection

`Connection::send` and `Connection::shutdown` check the state of the connection on the thread that calls
them, and from other threads than that of the event loop they queue their work there.
-/

namespace CoroDB

open Framework

inductive LoopTask where
  | send (data : Bytes)
  | shutdown
  deriving DecidableEq, Repr

/-- Where a call on another thread is, behind its check of the state. -/
inductive PendingCall where
  | sending (data : Bytes)
  | closing
  | queueing
  deriving DecidableEq, Repr

def LoopTask.data : LoopTask → Option Bytes
  | send data => some data
  | shutdown => none

def PendingCall.data : PendingCall → Option Bytes
  | sending data => some data
  | _ => none

/-- A connection with the calls and tasks that are on their way, the data of all calls of `send` that
found it connected, and the data that `send_in_loop` has taken over. -/
structure ConnectionSystem where
  conn : Connection
  calls : List PendingCall
  pending : List LoopTask
  accepted : List Bytes
  executed : List Bytes

/-- The calls on other threads, the calls on the thread of the event loop, and the event loop itself. -/
inductive ConnectionAction where
  | callSend (data : Bytes)
  | queueSend (i : ℕ)
  | callShutdown
  | storeShutdown (i : ℕ)
  | queueShutdown (i : ℕ)
  | loopSend (data : Bytes) (result : Option ℕ)
  | loopShutdown
  | runTask (result : Option ℕ)
  | writable (result : Option ℕ)

namespace ConnectionSystem

def opened : ConnectionSystem := ⟨.opened, [], [], [], []⟩

variable (maxSize : ℕ) (s : ConnectionSystem)

def queueSend (i : ℕ) : Option ConnectionSystem :=
  (s.calls[i]?.bind PendingCall.data).map fun data =>
    { s with calls := s.calls.eraseIdx i, pending := s.pending ++ [.send data] }

def runTask (result : Option ℕ) : List LoopTask → Option ConnectionSystem
  | [] => none
  | .send data :: rest =>
    some { s with
      conn := s.conn.sendInLoop maxSize data result
      pending := rest
      executed := if s.conn.state = .connected then s.executed ++ [data] else s.executed }
  | .shutdown :: rest => some { s with conn := s.conn.shutdownInLoop, pending := rest }

def step : ConnectionAction → Option ConnectionSystem
  | .callSend data =>
    some (if s.conn.state = .connected then
      { s with calls := s.calls ++ [.sending data], accepted := s.accepted ++ [data] } else s)
  | .queueSend i => s.queueSend i
  | .callShutdown =>
    some (if s.conn.state = .connected then { s with calls := s.calls ++ [.closing] } else s)
  | .storeShutdown i =>
    if s.calls[i]? = some .closing then
      some { s with
        conn := { s.conn with state := .disconnecting }
        calls := s.calls.set i .queueing }
    else none
  | .queueShutdown i =>
    if s.calls[i]? = some .queueing then
      some { s with calls := s.calls.eraseIdx i, pending := s.pending ++ [.shutdown] }
    else none
  | .loopSend data result =>
    some (if s.conn.state = .connected then
      { s with
        conn := s.conn.sendInLoop maxSize data result
        accepted := s.accepted ++ [data]
        executed := s.executed ++ [data] } else s)
  | .loopShutdown =>
    some (if s.conn.state = .connected then
      { s with conn := Connection.shutdownInLoop { s.conn with state := .disconnecting } } else s)
  | .runTask result => s.runTask maxSize result s.pending
  | .writable result => some { s with conn := s.conn.handleWrite result }

/-- When the write side is closed, the socket has taken all data of all calls of `send`. -/
def Delivered : Prop :=
  s.conn.halfClosed = true → s.conn.socket = s.executed.flatten ∧ s.executed.Perm s.accepted

def onTheWay : List Bytes := s.pending.filterMap LoopTask.data ++ s.calls.filterMap PendingCall.data

/-- When `shutdown` changes the state, the connection is open and no data are on their way. -/
def Quiet : ConnectionAction → Prop
  | .storeShutdown _ => s.conn.state ≠ .disconnected ∧ s.onTheWay = []
  | .loopShutdown => s.conn.state = .connected → s.onTheWay = []
  | _ => True

structure Invariant : Prop where
  sound : s.conn.Sound
  kept : s.conn.socket ++ s.conn.unsent = s.executed.flatten
  early : s.conn.state ≠ .disconnecting →
    .shutdown ∉ s.pending ∧ .queueing ∉ s.calls ∧ s.conn.halfClosed = false
  late : s.conn.state = .disconnecting → s.onTheWay = []
  counted : s.conn.state ≠ .disconnected → (s.executed ++ s.onTheWay).Perm s.accepted
  closed : s.conn.halfClosed = true → s.conn.unsent = []

variable {maxSize s} {s' : ConnectionSystem}

theorem invariant_opened : opened.Invariant :=
  ⟨Connection.sound_opened, rfl, fun _ => ⟨by simp [opened], by simp [opened], rfl⟩, fun _ => rfl,
    fun _ => .refl _, fun _ => rfl⟩

theorem Invariant.delivered (h : s.Invariant) : s.Delivered := by
  intro hclosed
  have hstate : s.conn.state = .disconnecting := by
    by_contra hstate
    simp [(h.early hstate).2.2] at hclosed
  have hkept := h.kept
  have hcounted := h.counted (by simp [hstate])
  rw [h.closed hclosed, List.append_nil] at hkept
  rw [h.late hstate, List.append_nil] at hcounted
  exact ⟨hkept, hcounted⟩

theorem Invariant.callSend (h : s.Invariant) (hopen : s.conn.state = .connected) (data : Bytes) :
    Invariant { s with calls := s.calls ++ [.sending data], accepted := s.accepted ++ [data] } where
  sound := h.sound
  kept := h.kept
  early hstate := by simpa using h.early hstate
  late hstate := absurd hstate (by simp [hopen])
  counted hstate := by
    have hcounted := (h.counted hstate).append_right [data]
    simpa [onTheWay, PendingCall.data] using hcounted
  closed := h.closed

theorem Invariant.queueSend (h : s.Invariant) {i : ℕ} (hstep : s.queueSend i = some s') :
    s'.Invariant := by
  obtain ⟨data, hdata, rfl⟩ := Option.map_eq_some_iff.mp hstep
  obtain ⟨call, hcall, hdata⟩ := Option.bind_eq_some_iff.mp hdata
  have hsends : (data :: (s.calls.eraseIdx i).filterMap PendingCall.data).Perm
      (s.calls.filterMap PendingCall.data) := by
    obtain ⟨hi, rfl⟩ := List.getElem?_eq_some_iff.mp hcall
    have hperm := (List.getElem_cons_eraseIdx_perm hi).filterMap PendingCall.data
    rwa [List.filterMap_cons_some hdata] at hperm
  have hway : (onTheWay { s with
      calls := s.calls.eraseIdx i
      pending := s.pending ++ [.send data] }).Perm s.onTheWay := by
    simpa [onTheWay, LoopTask.data] using hsends.append_left (s.pending.filterMap LoopTask.data)
  constructor
  · exact h.sound
  · exact h.kept
  · intro hstate
    obtain ⟨hpending, hcalls, hhalf⟩ := h.early hstate
    exact ⟨by simpa using hpending, fun hmem => hcalls (List.mem_of_mem_eraseIdx hmem), hhalf⟩
  · intro hstate
    have hnil := h.late hstate
    exact (hnil ▸ hway).eq_nil
  · intro hstate
    exact (hway.append_left s.executed).trans (h.counted hstate)
  · exact h.closed

theorem Invariant.callShutdown (h : s.Invariant) :
    Invariant { s with calls := s.calls ++ [.closing] } := by
  have hway : onTheWay { s with calls := s.calls ++ [.closing] } = s.onTheWay := by
    have hclosing : [PendingCall.closing].filterMap PendingCall.data = [] := rfl
    simp only [onTheWay, List.filterMap_append, hclosing, List.append_nil]
  exact ⟨h.sound, h.kept, fun hstate => by simpa using h.early hstate,
    fun hstate => hway.trans (h.late hstate), fun hstate => hway ▸ h.counted hstate, h.closed⟩

theorem Invariant.disconnect (h : s.Invariant) (hopen : s.conn.state ≠ .disconnected)
    (hquiet : s.onTheWay = []) :
    Invariant { s with conn := { s.conn with state := .disconnecting } } :=
  ⟨⟨h.sound.offset, fun _ => h.sound.writing hopen⟩, h.kept, fun hstate => absurd rfl hstate,
    fun _ => hquiet, fun _ => h.counted hopen, h.closed⟩

theorem Invariant.reroute (h : s.Invariant) (hstate : s.conn.state = .disconnecting)
    {calls : List PendingCall} {pending : List LoopTask} (hcalls : ∀ call ∈ calls, call.data = none)
    (hpending : ∀ task ∈ pending, task.data = none) :
    Invariant { s with calls := calls, pending := pending } := by
  have hway : onTheWay { s with calls := calls, pending := pending } = s.onTheWay := by
    rw [h.late hstate, onTheWay, List.append_eq_nil_iff]
    exact ⟨List.filterMap_eq_nil_iff.mpr hpending, List.filterMap_eq_nil_iff.mpr hcalls⟩
  exact ⟨h.sound, h.kept, fun hne => absurd hstate hne, fun _ => hway.trans (h.late hstate),
    fun hopen => hway ▸ h.counted hopen, h.closed⟩

theorem Invariant.data_eq_none (h : s.Invariant) (hstate : s.conn.state = .disconnecting) :
    (∀ task ∈ s.pending, task.data = none) ∧ ∀ call ∈ s.calls, call.data = none := by
  have hquiet := h.late hstate
  rw [onTheWay, List.append_eq_nil_iff] at hquiet
  exact ⟨List.filterMap_eq_nil_iff.mp hquiet.1, List.filterMap_eq_nil_iff.mp hquiet.2⟩

theorem Invariant.storeShutdown (h : s.Invariant) (hopen : s.conn.state ≠ .disconnected)
    (hquiet : s.onTheWay = []) (i : ℕ) :
    Invariant { s with
      conn := { s.conn with state := .disconnecting }
      calls := s.calls.set i .queueing } := by
  have hdisconnect := h.disconnect hopen hquiet
  obtain ⟨hpending, hcalls⟩ := hdisconnect.data_eq_none rfl
  refine hdisconnect.reroute rfl ?_ hpending
  intro call hcall
  rcases List.mem_or_eq_of_mem_set hcall with hcall | rfl
  · exact hcalls call hcall
  · rfl

theorem Invariant.queueShutdown (h : s.Invariant) {i : ℕ} (hi : s.calls[i]? = some .queueing) :
    Invariant { s with calls := s.calls.eraseIdx i, pending := s.pending ++ [.shutdown] } := by
  have hstate : s.conn.state = .disconnecting := by
    by_contra hstate
    exact (h.early hstate).2.1 (List.mem_of_getElem? hi)
  obtain ⟨hpending, hcalls⟩ := h.data_eq_none hstate
  apply h.reroute hstate
  · exact fun call hcall => hcalls call (List.mem_of_mem_eraseIdx hcall)
  · intro task htask
    rcases List.mem_append.mp htask with htask | htask
    · exact hpending task htask
    · rw [List.mem_singleton.mp htask]
      rfl

theorem Invariant.shutdownInLoop (h : s.Invariant) (hstate : s.conn.state = .disconnecting) :
    Invariant { s with conn := s.conn.shutdownInLoop } := by
  obtain ⟨hsound, hclosed⟩ := Connection.shutdownInLoop_spec h.sound (by simp [hstate])
  have hsame : s.conn.shutdownInLoop.state = s.conn.state ∧
      s.conn.shutdownInLoop.socket = s.conn.socket ∧
      s.conn.shutdownInLoop.unsent = s.conn.unsent := by
    unfold Connection.shutdownInLoop
    split_ifs <;> exact ⟨rfl, rfl, rfl⟩
  obtain ⟨hsame, hsocket, hunsent⟩ := hsame
  constructor
  · exact hsound
  · rw [hsocket, hunsent]
    exact h.kept
  · exact fun hne => absurd (hsame.trans hstate) hne
  · exact fun _ => h.late hstate
  · exact fun _ => h.counted (by simp [hstate])
  · intro hhalf
    rw [hunsent]
    exact (hclosed hhalf).elim h.closed id

theorem Invariant.sendInLoop (h : s.Invariant) (hopen : s.conn.state = .connected) (data : Bytes)
    (result : Option ℕ) {pending : List LoopTask} {accepted : List Bytes}
    (hpending : .shutdown ∉ pending)
    (hcounted : (s.executed ++ [data] ++ (pending.filterMap LoopTask.data ++
      s.calls.filterMap PendingCall.data)).Perm accepted) :
    Invariant ⟨s.conn.sendInLoop maxSize data result, s.calls, pending, accepted,
      s.executed ++ [data]⟩ := by
  obtain ⟨hsound, hkept, hhalf⟩ := Connection.sendInLoop_spec maxSize data result h.sound hopen
  obtain ⟨-, hcalls, hearly⟩ := h.early (by simp [hopen])
  constructor
  · exact hsound
  · rw [hkept, h.kept]
    simp
  · exact fun _ => ⟨hpending, hcalls, hhalf.trans hearly⟩
  · exact fun hstate => absurd hstate (Connection.sendInLoop_state hopen)
  · exact fun _ => hcounted
  · intro hclosed
    rw [hhalf, hearly] at hclosed
    cases hclosed

theorem Invariant.writable (h : s.Invariant) (result : Option ℕ) :
    Invariant { s with conn := s.conn.handleWrite result } := by
  obtain ⟨hsound, hkept, hstate, hhalf⟩ := Connection.handleWrite_spec result h.sound
  have hdisconnecting : s.conn.halfClosed = true → s.conn.state = .disconnecting := by
    intro hclosed
    by_contra hne
    simp [(h.early hne).2.2] at hclosed
  constructor
  · exact hsound
  · exact hkept.trans h.kept
  · intro hne
    rw [hstate] at hne
    obtain ⟨hpending, hcalls, -⟩ := h.early hne
    refine ⟨hpending, hcalls, Bool.eq_false_iff.mpr fun hclosed => ?_⟩
    rcases hhalf hclosed with hclosed | ⟨hclosing, -⟩
    · exact hne (hdisconnecting hclosed)
    · exact hne hclosing
  · exact fun hclosing => h.late (hstate.symm.trans hclosing)
  · exact fun hopen => h.counted (hstate ▸ hopen)
  · intro hclosed
    rcases hhalf hclosed with hclosed | ⟨-, hnil⟩
    · have hidle : s.conn.writing = false := by
        simpa [h.closed hclosed] using h.sound.writing (by simp [hdisconnecting hclosed])
      have hsame : s.conn.handleWrite result = s.conn := if_pos (.inl hidle)
      rw [hsame]
      exact h.closed hclosed
    · exact hnil

theorem Invariant.runTask (h : s.Invariant) {result : Option ℕ}
    (hstep : s.runTask maxSize result s.pending = some s') : s'.Invariant := by
  cases hp : s.pending with
  | nil =>
    rw [hp] at hstep
    cases hstep
  | cons task rest =>
    rw [hp] at hstep
    cases task with
    | send data =>
      obtain rfl := Option.some.inj hstep
      cases hstate : s.conn.state with
      | connected =>
        rw [if_pos rfl]
        apply h.sendInLoop hstate data result
        · intro hmem
          exact (h.early (by simp [hstate])).1 (by simp [hp, hmem])
        · have hcounted := h.counted (by simp [hstate])
          simpa [onTheWay, hp, LoopTask.data] using hcounted
      | disconnecting =>
        have hnone := (h.data_eq_none hstate).1 (.send data) (by simp [hp])
        cases hnone
      | disconnected =>
        have hsame : s.conn.sendInLoop maxSize data result = s.conn := if_pos (by simp [hstate])
        obtain ⟨hpending, hcalls, hhalf⟩ := h.early (by simp [hstate])
        rw [if_neg (by simp), hsame]
        exact ⟨h.sound, h.kept,
          fun _ => ⟨fun hmem => hpending (by simp [hp, hmem]), hcalls, hhalf⟩,
          fun hclosing => absurd hclosing (by simp [hstate]),
          fun hopen => absurd hstate hopen, h.closed⟩
    | shutdown =>
      obtain rfl := Option.some.inj hstep
      have hstate : s.conn.state = .disconnecting := by
        by_contra hne
        exact (h.early hne).1 (by simp [hp])
      obtain ⟨hpending, hcalls⟩ := h.data_eq_none hstate
      have hrest : ∀ task ∈ rest, task.data = none :=
        fun task htask => hpending task (by simp [hp, htask])
      exact (h.reroute hstate hcalls hrest).shutdownInLoop hstate

theorem Invariant.step (h : s.Invariant) {a : ConnectionAction} (hquiet : s.Quiet a)
    (hstep : s.step maxSize a = some s') : s'.Invariant := by
  cases a with
  | callSend data =>
    obtain rfl := Option.some.inj hstep
    split_ifs with hopen
    · exact h.callSend hopen data
    · exact h
  | queueSend i => exact h.queueSend hstep
  | callShutdown =>
    obtain rfl := Option.some.inj hstep
    split_ifs with hopen
    · exact h.callShutdown
    · exact h
  | storeShutdown i =>
    simp only [ConnectionSystem.step] at hstep
    split_ifs at hstep with hi
    obtain rfl := Option.some.inj hstep
    exact h.storeShutdown hquiet.1 hquiet.2 i
  | queueShutdown i =>
    simp only [ConnectionSystem.step] at hstep
    split_ifs at hstep with hi
    obtain rfl := Option.some.inj hstep
    exact h.queueShutdown hi
  | loopSend data result =>
    obtain rfl := Option.some.inj hstep
    split_ifs with hopen
    · obtain ⟨hpending, -⟩ := h.early (by simp [hopen])
      apply h.sendInLoop hopen data result hpending
      have hlast : (s.executed ++ [data] ++ s.onTheWay).Perm (s.executed ++ s.onTheWay ++ [data]) := by
        rw [List.append_assoc, List.append_assoc]
        exact List.perm_append_comm.append_left s.executed
      exact hlast.trans ((h.counted (by simp [hopen])).append_right [data])
    · exact h
  | loopShutdown =>
    obtain rfl := Option.some.inj hstep
    split_ifs with hopen
    · exact (h.disconnect (by simp [hopen]) (hquiet hopen)).shutdownInLoop rfl
    · exact h
  | runTask result => exact h.runTask hstep
  | writable result =>
    obtain rfl := Option.some.inj hstep
    exact h.writable result

/-- In every run in which `shutdown` finds no data on their way, the write side is closed only when all
data have been written. -/
theorem delivered_of_quiet (maxSize : ℕ) (actions : List ConnectionAction)
    (h : Guarded (step maxSize) Quiet opened actions) :
    Throughout (step maxSize) Delivered opened actions :=
  (h.throughout (fun _ _ _ h hquiet hstep => h.step hquiet hstep) invariant_opened).mono
    fun _ h => h.delivered

/-- One byte is sent and run by the loop, and then the connection is shut down. -/
theorem delivered_oneByte :
    Throughout (step 8) Delivered opened [.callSend [1], .queueSend 0, .runTask (some 1), .callShutdown,
      .storeShutdown 0, .queueShutdown 0, .runTask none] := by
  apply delivered_of_quiet
  refine ⟨trivial, fun s₁ h₁ => ⟨trivial, fun s₂ h₂ => ⟨trivial, fun s₃ h₃ => ⟨trivial,
    fun s₄ h₄ => ⟨?_, fun s₅ h₅ => ⟨trivial, fun s₆ h₆ => ⟨trivial, fun s₇ h₇ => trivial⟩⟩⟩⟩⟩⟩⟩
  cases h₁
  cases h₂
  cases h₃
  cases h₄
  exact ⟨by decide, rfl⟩

/-- One byte is sent, and `shutdown` changes the state before the loop runs the task. -/
theorem dropped_oneByte :
    (run (step 8) opened [.callSend [1], .queueSend 0, .callShutdown, .storeShutdown 0, .queueShutdown 0,
      .runTask none, .runTask none]).map (fun s => (s.conn.halfClosed, s.conn.socket, s.accepted)) =
      some (true, [], [[1]]) := by
  decide

end ConnectionSystem

end CoroDB
