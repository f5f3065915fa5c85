import CoroDB.Framework.Run
import CoroDB.Storage.Value

/-!
# The output side of a connection

`Connection::send_in_loop` and `Connection::handle_write` share a buffer of which a front part has been
written, and `Connection::shutdown` closes the write side once nothing is left.
-/

namespace CoroDB

open Framework

inductive ConnectionState where
  | connected
  | disconnecting
  | disconnected
  deriving DecidableEq, Repr

/-- The output of a connection, with the bytes that the socket has taken and whether the write side is
closed. -/
structure Connection where
  state : ConnectionState
  outputBuffer : Bytes
  writeOffset : ℕ
  writing : Bool
  halfClosed : Bool
  socket : Bytes

namespace Connection

def opened : Connection := ⟨.connected, [], 0, false, false, []⟩

variable (c : Connection)

def unsent : Bytes := c.outputBuffer.drop c.writeOffset

def handleClose : Connection := { c with state := .disconnected, writing := false }

def shutdownInLoop : Connection := if c.writing then c else { c with halfClosed := true }

def keepRest (maxOutputBufferSize : ℕ) (rest : Bytes) : Connection :=
  if rest = [] then c
  else if maxOutputBufferSize < (c.outputBuffer ++ rest).length then
    handleClose { c with outputBuffer := c.outputBuffer ++ rest }
  else { c with outputBuffer := c.outputBuffer ++ rest, writing := true }

/-- `Connection::send_in_loop`. The result of `write_socket` is a number of bytes, where a larger number
than offered stands for all of them, or none if it would block. -/
def sendInLoop (maxOutputBufferSize : ℕ) (data : Bytes) (result : Option ℕ) : Connection :=
  if c.state ≠ .connected then c
  else if c.outputBuffer.length ≤ c.writeOffset then
    keepRest { c with
      outputBuffer := []
      writeOffset := 0
      socket := c.socket ++ data.take (result.getD 0) } maxOutputBufferSize (data.drop (result.getD 0))
  else c.keepRest maxOutputBufferSize data

def advance (n : ℕ) : Connection :=
  { c with socket := c.socket ++ c.unsent.take n, writeOffset := c.writeOffset + n }

def drained : Connection := { c with outputBuffer := [], writeOffset := 0, writing := false }

def handleWrite (result : Option ℕ) : Connection :=
  if c.writing = false ∨ result.getD 0 = 0 then c
  else if c.outputBuffer.length ≤ c.writeOffset + result.getD 0 then
    if c.state = .disconnecting then (c.advance (result.getD 0)).drained.shutdownInLoop
    else (c.advance (result.getD 0)).drained
  else c.advance (result.getD 0)

/-- The offset is within the buffer, and write events are asked for exactly while something is left. -/
structure Sound : Prop where
  offset : c.writeOffset ≤ c.outputBuffer.length
  writing : c.state ≠ .disconnected → (c.writing = true ↔ c.unsent ≠ [])

variable {c} {maxSize : ℕ} {data rest : Bytes} {result : Option ℕ}

theorem sound_opened : opened.Sound := ⟨le_rfl, by simp [opened, unsent]⟩

theorem unsent_append (h : c.writeOffset ≤ c.outputBuffer.length) (rest : Bytes) :
    (c.outputBuffer ++ rest).drop c.writeOffset = c.unsent ++ rest :=
  List.drop_append_of_le_length h

theorem keepRest_spec (maxSize : ℕ) (rest : Bytes) (h : c.writeOffset ≤ c.outputBuffer.length)
    (hwriting : rest = [] → (c.writing = true ↔ c.unsent ≠ [])) :
    (c.keepRest maxSize rest).Sound ∧ (c.keepRest maxSize rest).unsent = c.unsent ++ rest ∧
      (c.keepRest maxSize rest).socket = c.socket ∧
      (c.keepRest maxSize rest).halfClosed = c.halfClosed := by
  unfold keepRest
  split_ifs with hrest hmax
  · exact ⟨⟨h, fun _ => hwriting hrest⟩, by simp [hrest], rfl, rfl⟩
  · refine ⟨⟨?_, by simp [handleClose]⟩, unsent_append h rest, rfl, rfl⟩
    simp only [handleClose, List.length_append]
    omega
  · refine ⟨⟨?_, fun _ => ?_⟩, unsent_append h rest, rfl, rfl⟩
    · simp only [List.length_append]
      omega
    · simp [unsent, unsent_append h, hrest]

theorem unsent_eq_nil_of_le (h : c.outputBuffer.length ≤ c.writeOffset) : c.unsent = [] :=
  List.drop_eq_nil_of_le h

theorem sendInLoop_spec (maxSize : ℕ) (data : Bytes) (result : Option ℕ) (h : c.Sound)
    (hopen : c.state = .connected) :
    (c.sendInLoop maxSize data result).Sound ∧
      (c.sendInLoop maxSize data result).socket ++ (c.sendInLoop maxSize data result).unsent =
        c.socket ++ c.unsent ++ data ∧
      (c.sendInLoop maxSize data result).halfClosed = c.halfClosed := by
  rw [sendInLoop, if_neg (not_not.mpr hopen)]
  have hwriting := h.writing (by simp [hopen])
  split_ifs with hempty
  · have hunsent := unsent_eq_nil_of_le hempty
    have hidle : c.writing = false := by simpa [hunsent] using hwriting
    obtain ⟨hsound, hrest, hsocket, hhalf⟩ := keepRest_spec
      (c := { c with
        outputBuffer := []
        writeOffset := 0
        socket := c.socket ++ data.take (result.getD 0) })
      maxSize (data.drop (result.getD 0)) le_rfl fun _ => by simp [unsent, hidle]
    refine ⟨hsound, ?_, hhalf⟩
    rw [hrest, hsocket, hunsent]
    simp [unsent]
  · obtain ⟨hsound, hrest, hsocket, hhalf⟩ :=
      keepRest_spec maxSize data h.offset fun _ => hwriting
    exact ⟨hsound, by rw [hrest, hsocket, List.append_assoc], hhalf⟩

theorem sendInLoop_state (hopen : c.state = .connected) :
    (c.sendInLoop maxSize data result).state ≠ .disconnecting := by
  unfold sendInLoop keepRest
  split_ifs <;> simp [handleClose, hopen]

theorem shutdownInLoop_spec (h : c.Sound) (hopen : c.state ≠ .disconnected) :
    c.shutdownInLoop.Sound ∧
      (c.shutdownInLoop.halfClosed = true → c.halfClosed = true ∨ c.unsent = []) := by
  unfold shutdownInLoop
  split_ifs with hwriting
  · exact ⟨h, .inl⟩
  · exact ⟨⟨h.offset, h.writing⟩, fun _ => .inr (by simpa [hwriting] using h.writing hopen)⟩

theorem advance_unsent (n : ℕ) : (c.advance n).unsent = c.unsent.drop n :=
  List.drop_drop.symm

theorem handleWrite_spec (result : Option ℕ) (h : c.Sound) :
    (c.handleWrite result).Sound ∧
      (c.handleWrite result).socket ++ (c.handleWrite result).unsent = c.socket ++ c.unsent ∧
      (c.handleWrite result).state = c.state ∧
      ((c.handleWrite result).halfClosed = true → c.halfClosed = true ∨
        c.state = .disconnecting ∧ (c.handleWrite result).unsent = []) := by
  unfold handleWrite
  have hdrained : c.outputBuffer.length ≤ c.writeOffset + result.getD 0 →
      c.socket ++ c.unsent.take (result.getD 0) ++ [] = c.socket ++ c.unsent := by
    intro hall
    rw [List.append_nil, List.take_of_length_le]
    simp only [unsent, List.length_drop]
    omega
  split_ifs with hidle hall hclosing
  · exact ⟨h, rfl, rfl, .inl⟩
  · exact ⟨⟨le_rfl, by simp [drained, unsent, shutdownInLoop]⟩, hdrained hall, rfl,
      fun _ => .inr ⟨hclosing, rfl⟩⟩
  · exact ⟨⟨le_rfl, by simp [drained, unsent]⟩, hdrained hall, rfl, .inl⟩
  · have hleft : (c.advance (result.getD 0)).unsent ≠ [] := by
      simp only [unsent, advance, ne_eq, List.drop_eq_nil_iff]
      omega
    have hwriting : c.writing = true := by
      simp only [not_or, Bool.not_eq_false] at hidle
      exact hidle.1
    refine ⟨⟨?_, fun _ => ⟨fun _ => hleft, fun _ => hwriting⟩⟩, ?_, rfl, .inl⟩
    · simp only [advance]
      omega
    · rw [advance_unsent]
      simp [advance]

/-- The buffer is within its limit, or the connection has been closed with more than that left. -/
def Bounded (maxSize : ℕ) (c : Connection) : Prop :=
  c.state = .connected ∧ c.outputBuffer.length ≤ maxSize ∨
    c.state = .disconnected ∧ c.writing = false ∧ maxSize < c.unsent.length

/-- What is left and the data exceed the limit if the buffer and the data do. -/
def Fits (maxSize : ℕ) (c : Connection) (data : Bytes) : Prop :=
  c.state = .connected → c.unsent ≠ [] → c.unsent.length + data.length ≤ maxSize →
    c.outputBuffer.length + data.length ≤ maxSize

theorem keepRest_bounded (h : c.writeOffset ≤ c.outputBuffer.length) (hopen : c.state = .connected)
    (hmax : c.outputBuffer.length ≤ maxSize)
    (hfits : c.unsent.length + rest.length ≤ maxSize → c.outputBuffer.length + rest.length ≤ maxSize) :
    (c.keepRest maxSize rest).Bounded maxSize := by
  unfold keepRest
  split_ifs with hrest hover
  · exact .inl ⟨hopen, hmax⟩
  · refine .inr ⟨rfl, rfl, ?_⟩
    have hunsent : (handleClose { c with outputBuffer := c.outputBuffer ++ rest }).unsent =
        c.unsent ++ rest := unsent_append h rest
    rw [List.length_append] at hover
    rw [hunsent, List.length_append]
    omega
  · exact .inl ⟨hopen, Nat.le_of_not_lt hover⟩

theorem sendInLoop_bounded (h : c.Sound) (hb : c.Bounded maxSize) (hfits : c.Fits maxSize data) :
    (c.sendInLoop maxSize data result).Bounded maxSize := by
  unfold sendInLoop
  split_ifs with hopen hempty
  · exact hb
  · exact keepRest_bounded le_rfl (not_not.mp hopen) (Nat.zero_le _) fun hle => by
      simpa [unsent] using hle
  · have hleft : c.unsent ≠ [] := by simpa [unsent] using hempty
    rcases hb with ⟨-, hmax⟩ | ⟨hclosed, -⟩
    · exact keepRest_bounded h.offset (not_not.mp hopen) hmax (hfits (not_not.mp hopen) hleft)
    · exact absurd hclosed (by simp [not_not.mp hopen])

theorem handleWrite_bounded (hb : c.Bounded maxSize) : (c.handleWrite result).Bounded maxSize := by
  rcases hb with ⟨hopen, hmax⟩ | ⟨hclosed, hidle, hover⟩
  · unfold handleWrite
    split_ifs with hidle hall hclosing
    · exact .inl ⟨hopen, hmax⟩
    · exact absurd hclosing (by simp [hopen])
    · exact .inl ⟨hopen, Nat.zero_le _⟩
    · exact .inl ⟨hopen, hmax⟩
  · rw [handleWrite, if_pos (.inl hidle)]
    exact .inr ⟨hclosed, hidle, hover⟩

theorem sendInLoop_of_not_fits (result : Option ℕ) (h : c.Sound) (hb : c.Bounded maxSize)
    (hfits : ¬ c.Fits maxSize data) :
    (c.sendInLoop maxSize data result).state = .disconnected ∧
      (c.sendInLoop maxSize data result).unsent.length ≤ maxSize := by
  simp only [Fits, not_forall, not_le] at hfits
  obtain ⟨hopen, hleft, hroom, hover⟩ := hfits
  have hmax : c.outputBuffer.length ≤ maxSize := by
    rcases hb with ⟨-, hmax⟩ | ⟨hclosed, -⟩
    · exact hmax
    · exact absurd hclosed (by simp [hopen])
  have hdata : data ≠ [] := by
    rintro rfl
    exact absurd hmax (by simpa using hover)
  have hfull : ¬ c.outputBuffer.length ≤ c.writeOffset := by simpa [unsent] using hleft
  have hunsent : (handleClose { c with outputBuffer := c.outputBuffer ++ data }).unsent =
      c.unsent ++ data := unsent_append h.offset data
  rw [sendInLoop, if_neg (not_not.mpr hopen), if_neg hfull, keepRest, if_neg hdata,
    if_pos (by simpa using hover), hunsent, List.length_append]
  exact ⟨rfl, hroom⟩

end Connection

section Buffering

/-- A connection and the data that have been sent on it. -/
structure OutputRun where
  conn : Connection
  sent : Bytes

inductive OutputCall where
  | send (data : Bytes) (result : Option ℕ)
  | write (result : Option ℕ)

namespace OutputRun

variable {maxSize : ℕ} {s : OutputRun} {a : OutputCall}

def opened : OutputRun := ⟨.opened, []⟩

def step (maxSize : ℕ) (s : OutputRun) : OutputCall → Option OutputRun
  | .send data result =>
    some ⟨s.conn.sendInLoop maxSize data result,
      if s.conn.state = .connected then s.sent ++ data else s.sent⟩
  | .write result => some ⟨s.conn.handleWrite result, s.sent⟩

/-- The socket has taken a front part of what was sent, the rest is kept, write events are asked for
while there is a rest, and the connection is closed only for more than the limit. -/
def Delivers (maxSize : ℕ) (s : OutputRun) : Prop :=
  s.conn.socket <+: s.sent ∧ s.conn.socket ++ s.conn.unsent = s.sent ∧
    (s.conn.state = .connected → s.conn.unsent ≠ [] → s.conn.writing = true) ∧
    (s.conn.state ≠ .connected → maxSize < s.conn.unsent.length)

/-- The data of a call fit the buffer if they fit with what is left of it. -/
def CallFits (maxSize : ℕ) (s : OutputRun) : OutputCall → Prop
  | .send data _ => s.conn.Fits maxSize data
  | .write _ => True

structure Invariant (maxSize : ℕ) (s : OutputRun) : Prop where
  sound : s.conn.Sound
  bounded : s.conn.Bounded maxSize
  kept : s.conn.socket ++ s.conn.unsent = s.sent

theorem Invariant.delivers (h : Invariant maxSize s) : s.Delivers maxSize := by
  refine ⟨⟨_, h.kept⟩, h.kept, ?_, ?_⟩
  · intro hopen hleft
    exact (h.sound.writing (by simp [hopen])).mpr hleft
  · intro hclosed
    rcases h.bounded with ⟨hopen, -⟩ | ⟨-, -, hover⟩
    · exact absurd hopen hclosed
    · exact hover

theorem Invariant.step {s' : OutputRun} (h : Invariant maxSize s) (hfits : s.CallFits maxSize a)
    (hstep : s.step maxSize a = some s') : Invariant maxSize s' := by
  cases a with
  | write result =>
    obtain rfl := Option.some.inj hstep
    obtain ⟨hsound, hkept, -⟩ := Connection.handleWrite_spec result h.sound
    exact ⟨hsound, Connection.handleWrite_bounded h.bounded, hkept.trans h.kept⟩
  | send data result =>
    obtain rfl := Option.some.inj hstep
    by_cases hopen : s.conn.state = .connected
    · obtain ⟨hsound, hkept, -⟩ := Connection.sendInLoop_spec maxSize data result h.sound hopen
      refine ⟨hsound, Connection.sendInLoop_bounded h.sound h.bounded hfits, ?_⟩
      rw [hkept, h.kept, if_pos hopen]
    · have hsame : s.conn.sendInLoop maxSize data result = s.conn := by
        rw [Connection.sendInLoop, if_pos hopen]
      rw [hsame, if_neg hopen]
      exact h

theorem not_delivers_of_not_fits {s' : OutputRun} (h : Invariant maxSize s)
    (hfits : ¬ s.CallFits maxSize a) (hstep : s.step maxSize a = some s') : ¬ s'.Delivers maxSize := by
  cases a with
  | write result => exact absurd trivial hfits
  | send data result =>
    obtain rfl := Option.some.inj hstep
    obtain ⟨hclosed, hle⟩ := Connection.sendInLoop_of_not_fits result h.sound h.bounded hfits
    intro hdelivers
    exact absurd (hdelivers.2.2.2 (by simp [hclosed])) (Nat.not_lt.mpr hle)

theorem run_isSome (calls : List OutputCall) : ∃ t, run (step maxSize) s calls = some t := by
  induction calls generalizing s with
  | nil => exact ⟨s, rfl⟩
  | cons a calls ih => cases a <;> exact ih

/-- A connection delivers throughout exactly those runs in which no call is refused for the bytes of the
buffer that have been written already. -/
theorem delivers_iff (maxSize : ℕ) (calls : List OutputCall) :
    Throughout (step maxSize) (Delivers maxSize) opened calls ↔
      Guarded (step maxSize) (CallFits maxSize) opened calls := by
  obtain ⟨t, ht⟩ := run_isSome calls
  have hopened : Invariant maxSize opened :=
    ⟨Connection.sound_opened, .inl ⟨rfl, Nat.zero_le _⟩, rfl⟩
  exact throughout_iff_guarded (fun s a s' h hfits hstep => h.step hfits hstep)
    (fun s h => h.delivers) (fun s a s' h hfits hstep => not_delivers_of_not_fits h hfits hstep)
    hopened ht

/-- With a limit of 4 bytes, 3 bytes of which 2 have been written and then 2 more close the
connection, although 3 bytes are left. -/
theorem written_bytes_counted :
    (run (step 4) opened [.send [1, 2, 3] none, .write (some 2), .send [4, 5] none]).map
      (fun s => (s.conn.state, s.conn.unsent)) = some (.disconnected, [3, 4, 5]) := by
  decide

end OutputRun

end Buffering

end CoroDB
