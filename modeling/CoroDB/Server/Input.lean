import CoroDB.Framework.Fairness
import CoroDB.Server.Connections

/-!
# The input side of a connection

The socket is watched for edges: the kernel reports it once after bytes have arrived, and
`Connection::handle_read` then reads one time.
-/

namespace CoroDB

open Framework

section Lines

variable {buffer line rest more : Bytes}

theorem firstLine_length (h : firstLine buffer = some (line, rest)) : rest.length < buffer.length := by
  induction buffer generalizing line with
  | nil => cases h
  | cons b bs ih =>
    rw [firstLine] at h
    split_ifs at h with hb
    · cases h
      simp
    · obtain ⟨⟨line', rest'⟩, hline, heq⟩ := Option.map_eq_some_iff.mp h
      cases heq
      exact (ih hline).trans (by simp)

/-- The loop of `on_message`: the lines of a buffer, and what is left behind the last one. -/
def takeLines (buffer : Bytes) : List Bytes × Bytes :=
  match _h : firstLine buffer with
  | none => ([], buffer)
  | some p => (p.1 :: (takeLines p.2).1, (takeLines p.2).2)
termination_by buffer.length
decreasing_by all_goals exact firstLine_length _h

theorem takeLines_of_none (h : firstLine buffer = none) : takeLines buffer = ([], buffer) := by
  rw [takeLines]
  split
  · rfl
  · simp_all

theorem takeLines_of_some (h : firstLine buffer = some (line, rest)) :
    takeLines buffer = (line :: (takeLines rest).1, (takeLines rest).2) := by
  rw [takeLines]
  split <;> simp_all

theorem completeLines_takeLines (buffer more : Bytes) :
    completeLines (buffer ++ more) =
      (takeLines buffer).1 ++ completeLines ((takeLines buffer).2 ++ more) := by
  induction buffer using takeLines.induct with
  | case1 buffer h => simp [takeLines_of_none h]
  | case2 buffer p h ih =>
    rw [takeLines_of_some h, completeLines_of_firstLine h, ih]
    rfl

theorem firstLine_takeLines (buffer : Bytes) : firstLine (takeLines buffer).2 = none := by
  induction buffer using takeLines.induct with
  | case1 buffer h => rw [takeLines_of_none h, h]
  | case2 buffer p h ih => rw [takeLines_of_some h, ih]

theorem firstLine_eq_none (h : newline ∉ buffer) : firstLine buffer = none := by
  induction buffer with
  | nil => rfl
  | cons b bs ih =>
    simp only [List.mem_cons, not_or] at h
    simp [firstLine, Ne.symm h.1, ih h.2]

theorem firstLine_append_newline (h : newline ∉ line) :
    firstLine (line ++ newline :: rest) = some (line, rest) := by
  induction line with
  | nil => simp [firstLine]
  | cons b bs ih =>
    simp only [List.mem_cons, not_or] at h
    simp [firstLine, Ne.symm h.1, ih h.2]

theorem completeLines_of_firstLine_none (h : firstLine buffer = none) : completeLines buffer = [] := by
  induction buffer with
  | nil => rfl
  | cons b bs ih =>
    rw [firstLine] at h
    split_ifs at h with hb
    rw [completeLines, if_neg hb, ih (Option.map_eq_none_iff.mp h)]
    rfl

end Lines

def requestsOf (text : Bytes) : List Bytes := (completeLines text).filter fun line => !isBlankLine line

/-- How many bytes `handle_read` asks for. -/
def readSize : ℕ := 65536

/-- The bytes that have arrived, those among them that wait in the kernel, whether the kernel will report
them, whether it has, the buffer of the connection, and the lines that have been posted. -/
structure InputSide where
  arrived : Bytes
  unread : Bytes
  ready : Bool
  handling : Bool
  inputBuffer : Bytes
  posted : List Bytes
  closed : Bool

inductive InputAction where
  | arrive (bytes : Bytes)
  | poll
  | read

namespace InputSide

def start : InputSide := ⟨[], [], false, false, [], [], false⟩

variable (maxSize : ℕ) (s : InputSide)

def arrive (bytes : Bytes) : Option InputSide :=
  if bytes = [] then none
  else some { s with arrived := s.arrived ++ bytes, unread := s.unread ++ bytes, ready := true }

/-- `epoll_wait` reports the socket. -/
def poll : Option InputSide :=
  if s.ready = true ∧ s.handling = false ∧ s.closed = false then
    some { s with ready := false, handling := true }
  else none

def received : Bytes := s.inputBuffer ++ s.unread.take readSize

/-- `on_message` on the buffer with what has been read. -/
def onMessage : InputSide :=
  { s with
    unread := s.unread.drop readSize
    handling := false
    inputBuffer := (takeLines s.received).2
    posted := s.posted ++ (takeLines s.received).1.filter fun line => !isBlankLine line }

/-- `Connection::handle_read`. -/
def read : Option InputSide :=
  if s.handling = false then none
  else if s.unread = [] then some { s with handling := false }
  else if maxSize < s.received.length then
    some { s with unread := s.unread.drop readSize, handling := false, closed := true }
  else some s.onMessage

def step : InputAction → Option InputSide
  | .arrive bytes => s.arrive bytes
  | .poll => s.poll
  | .read => s.read maxSize

def requests : List Bytes := requestsOf s.arrived

/-- Bytes that wait will be reported, and the lines that have arrived are posted or can be found in the
buffer and the bytes that wait. -/
structure Invariant : Prop where
  reported : s.unread ≠ [] → s.ready = true ∨ s.handling = true
  accounted : s.closed = false → ∀ more, requestsOf (s.arrived ++ more) =
    s.posted ++ requestsOf (s.inputBuffer ++ s.unread ++ more)
  unfinished : firstLine s.inputBuffer = none

variable {maxSize s} {s' : InputSide}

theorem invariant_start : start.Invariant := ⟨fun h => absurd rfl h, fun _ _ => rfl, rfl⟩

theorem requestsOf_append (text more : Bytes) :
    requestsOf (text ++ more) = (takeLines text).1.filter (fun line => !isBlankLine line) ++
      requestsOf ((takeLines text).2 ++ more) := by
  rw [requestsOf, completeLines_takeLines, List.filter_append]
  rfl

theorem Invariant.arrive (h : s.Invariant) {bytes : Bytes} (hstep : s.arrive bytes = some s') :
    s'.Invariant := by
  rw [InputSide.arrive] at hstep
  split_ifs at hstep
  obtain rfl := Option.some.inj hstep
  refine ⟨fun _ => .inl rfl, fun hopen more => ?_, h.unfinished⟩
  have haccounted := h.accounted hopen (bytes ++ more)
  simpa only [List.append_assoc] using haccounted

theorem Invariant.poll (h : s.Invariant) (hstep : s.poll = some s') : s'.Invariant := by
  rw [InputSide.poll] at hstep
  split_ifs at hstep
  obtain rfl := Option.some.inj hstep
  exact ⟨fun _ => .inr rfl, h.accounted, h.unfinished⟩

theorem Invariant.read (h : s.Invariant) (hsize : s.unread.length ≤ readSize)
    (hstep : s.read maxSize = some s') : s'.Invariant ∧ s'.unread = [] := by
  have hdrop : s.unread.drop readSize = [] := List.drop_eq_nil_of_le hsize
  rw [InputSide.read] at hstep
  split_ifs at hstep with hidle hempty hover
  · obtain rfl := Option.some.inj hstep
    exact ⟨⟨fun hne => absurd hempty hne, h.accounted, h.unfinished⟩, hempty⟩
  · obtain rfl := Option.some.inj hstep
    exact ⟨⟨fun hne => absurd hdrop hne, fun hopen => by simp at hopen, h.unfinished⟩, hdrop⟩
  · obtain rfl := Option.some.inj hstep
    refine ⟨⟨fun hne => absurd hdrop hne, fun hopen more => ?_, firstLine_takeLines _⟩, hdrop⟩
    have hreceived : s.received = s.inputBuffer ++ s.unread := by
      rw [received, List.take_of_length_le hsize]
    have haccounted := h.accounted hopen more
    rw [← hreceived, requestsOf_append s.received] at haccounted
    simpa [onMessage, hdrop] using haccounted

theorem Invariant.step (h : s.Invariant) (hsize : s.unread.length ≤ readSize) {a : InputAction}
    (hstep : s.step maxSize a = some s') : s'.Invariant := by
  cases a with
  | arrive bytes => exact h.arrive hstep
  | poll => exact h.poll hstep
  | read => exact (h.read hsize hstep).1

theorem Invariant.requests_eq_posted (h : s.Invariant) (hopen : s.closed = false)
    (hread : s.unread = []) : s.requests = s.posted := by
  have haccounted := h.accounted hopen []
  rw [List.append_nil, hread, List.append_nil, List.append_nil, requestsOf,
    requestsOf, completeLines_of_firstLine_none h.unfinished] at haccounted
  simpa [requests, requestsOf] using haccounted

theorem requestsOf_isPrefix (text more : Bytes) : requestsOf text <+: requestsOf (text ++ more) := by
  have hnone : requestsOf (takeLines text).2 = [] := by
    rw [requestsOf, completeLines_of_firstLine_none (firstLine_takeLines text)]
    rfl
  have htext := requestsOf_append text []
  rw [List.append_nil, List.append_nil, hnone, List.append_nil] at htext
  rw [htext, requestsOf_append]
  exact List.prefix_append _ _

def IsLoop : InputAction → Prop
  | .arrive _ => False
  | _ => True

/-- Every request that arrives is posted some time later. -/
def Processed (b : Behavior (step maxSize)) : Prop :=
  ∀ n, ∃ m, n ≤ m ∧ (b.state n).requests <+: (b.state m).posted

def Waits (lines : List Bytes) (s : InputSide) : Prop := lines <+: s.requests ∧ s.unread ≠ []

def rank (s : InputSide) : ℕ := if s.handling then 0 else 1

theorem Invariant.enabled {lines : List Bytes} (h : s.Invariant) (hopen : s.closed = false)
    (hwaits : Waits lines s) : ∃ a, IsLoop a ∧ (s.step maxSize a).isSome := by
  cases hhandling : s.handling with
  | true =>
    refine ⟨.read, trivial, ?_⟩
    simp only [InputSide.step, InputSide.read, hhandling]
    split_ifs <;> simp_all
  | false =>
    have hready : s.ready = true := by simpa [hhandling] using h.reported hwaits.2
    exact ⟨.poll, trivial, by simp [InputSide.step, InputSide.poll, hready, hhandling, hopen]⟩

theorem Invariant.progress {lines : List Bytes} {a : InputAction} (h : s.Invariant)
    (hsize : s.unread.length ≤ readSize) (hopen : s'.closed = false) (hwaits : Waits lines s)
    (hstep : s.step maxSize a = some s') :
    lines <+: s'.posted ∨
      Waits lines s' ∧ s'.rank ≤ s.rank ∧ (IsLoop a → s'.rank < s.rank) := by
  cases a with
  | arrive bytes =>
    simp only [InputSide.step, InputSide.arrive] at hstep
    split_ifs at hstep with hbytes
    obtain rfl := Option.some.inj hstep
    exact .inr ⟨⟨hwaits.1.trans (requestsOf_isPrefix _ _), by simp [hbytes]⟩, le_rfl, False.elim⟩
  | poll =>
    simp only [InputSide.step, InputSide.poll] at hstep
    split_ifs at hstep with hready
    obtain rfl := Option.some.inj hstep
    exact .inr ⟨hwaits, by simp [rank], fun _ => by simp [rank, hready.2.1]⟩
  | read =>
    obtain ⟨hinv, hread⟩ := h.read hsize hstep
    have hsame : s'.arrived = s.arrived := by
      simp only [InputSide.step, InputSide.read] at hstep
      split_ifs at hstep <;> cases hstep <;> rfl
    have hposted := hinv.requests_eq_posted hopen hread
    rw [requests, hsame] at hposted
    exact .inl (hposted ▸ hwaits.1)

theorem processed_of_unread_le (b : Behavior (step maxSize)) (hstart : b.state 0 = start)
    (hfair : b.WeaklyFair IsLoop) (hopen : ∀ n, (b.state n).closed = false)
    (hsize : ∀ n, (b.state n).unread.length ≤ readSize) : Processed b := by
  have hinv : ∀ n, (b.state n).Invariant :=
    Behavior.invariant (fun s a s' h hsize hstep => h.step hsize hstep) (hstart ▸ invariant_start) hsize
  intro n
  by_cases hread : (b.state n).unread = []
  · refine ⟨n, le_rfl, ?_⟩
    rw [(hinv n).requests_eq_posted (hopen n) hread]
  · have hI : ∀ n, (b.state n).Invariant ∧ (b.state n).unread.length ≤ readSize ∧
        (b.state n).closed = false := fun n => ⟨hinv n, hsize n, hopen n⟩
    apply hfair.reaches
      (I := fun s => s.Invariant ∧ s.unread.length ≤ readSize ∧ s.closed = false)
      (P := Waits (b.state n).requests) (Q := fun s => (b.state n).requests <+: s.posted) rank hI
    · exact fun s h hwaits => h.1.enabled h.2.2 hwaits
    · intro s a s' h h' hwaits hstep
      exact (h.1.progress h.2.1 h'.2.2 hwaits hstep).imp_right fun hkeep => ⟨hkeep.1, hkeep.2.1⟩
    · intro s a s' h h' hwaits hloop hstep
      exact (h.1.progress h.2.1 h'.2.2 hwaits hstep).imp_right
        fun hkeep => ⟨hkeep.1, hkeep.2.2 hloop⟩
    · exact ⟨List.prefix_rfl, hread⟩

section OneRead

variable {bytes : Bytes} {t : InputSide}

/-- Some bytes arrive and are read once. -/
def oneRead (bytes : Bytes) : List InputAction := [.arrive bytes, .poll, .read]

theorem run_oneRead (hbytes : bytes ≠ [])
    (hread : read maxSize ⟨bytes, bytes, false, true, [], [], false⟩ = some t) :
    run (step maxSize) start (oneRead bytes) = some t := by
  have harrive : step maxSize start (.arrive bytes) =
      some ⟨bytes, bytes, true, false, [], [], false⟩ := by
    rw [step, arrive, if_neg hbytes]
    rfl
  have hpoll : step maxSize ⟨bytes, bytes, true, false, [], [], false⟩ .poll =
      some ⟨bytes, bytes, false, true, [], [], false⟩ := rfl
  rw [oneRead, run, harrive, Option.bind_some, run, hpoll, Option.bind_some, run, step, hread]
  rfl

theorem exists_behavior (hbytes : bytes ≠ [])
    (hread : read maxSize ⟨bytes, bytes, false, true, [], [], false⟩ = some t)
    (hready : t.ready = false) (hhandling : t.handling = false) (hopen : t.closed = false)
    (hunread : t.unread.length ≤ bytes.length) :
    ∃ b : Behavior (step maxSize), b.state 0 = start ∧ b.WeaklyFair IsLoop ∧
      (∀ n, (b.state n).closed = false ∧ (b.state n).unread.length ≤ bytes.length) ∧
      ∀ n, 3 ≤ n → b.state n = t := by
  have hrun := run_oneRead hbytes hread
  have hlast : ∀ n, 3 ≤ n → (Behavior.ofRun start (oneRead bytes) (Option.isSome_of_mem hrun)).state n = t :=
    fun n => Behavior.ofRun_state hrun
  have hquiet : ∀ a, IsLoop a → t.step maxSize a = none := by
    intro a ha
    cases a with
    | arrive bytes => exact ha.elim
    | poll => simp [step, poll, hready]
    | read => simp [step, read, hhandling]
  refine ⟨.ofRun start (oneRead bytes) (Option.isSome_of_mem hrun), rfl,
    Behavior.ofRun_weaklyFair hrun hquiet, fun n => ?_, hlast⟩
  rcases n with _ | _ | _ | n
  · exact ⟨rfl, Nat.zero_le _⟩
  · simp [Behavior.ofRun, oneRead, run, step, start, arrive, hbytes]
  · simp [Behavior.ofRun, oneRead, run, step, start, arrive, poll, hbytes]
  · rw [hlast (n + 3) (Nat.le_add_left 3 n)]
    exact ⟨hopen, hunread⟩

end OneRead

section Stalled

def longLine : Bytes := List.replicate readSize 120 ++ [newline]

/-- The newline waits in the kernel, and nothing will report it. -/
def stalled : InputSide := ⟨longLine, [newline], false, false, List.replicate readSize 120, [], false⟩

theorem newline_not_mem_replicate : newline ∉ List.replicate readSize (120 : UInt8) := by
  intro hmem
  exact absurd (List.eq_of_mem_replicate hmem) (by decide)

theorem requests_stalled : stalled.requests = [List.replicate readSize 120] := by
  have hfirst : firstLine (List.replicate readSize 120 ++ [newline]) =
      some (List.replicate readSize 120, []) := firstLine_append_newline newline_not_mem_replicate
  have hlines := completeLines_of_firstLine hfirst []
  have hblank : isBlankLine (List.replicate readSize 120) = false := by
    have hsize : readSize ≠ 0 := by decide
    have hspace : Ascii.isSpace 120 = false := by decide
    simp [isBlankLine, hsize, hspace]
  rw [List.append_nil] at hlines
  rw [requests, requestsOf, stalled, longLine, hlines]
  simp [hblank, completeLines]

theorem read_longLine (hmax : readSize ≤ maxSize) :
    read maxSize ⟨longLine, longLine, false, true, [], [], false⟩ = some stalled := by
  have hreceived : received ⟨longLine, longLine, false, true, [], [], false⟩ =
      List.replicate readSize 120 := by simp [received, longLine]
  have hover : ¬ maxSize < (received ⟨longLine, longLine, false, true, [], [], false⟩).length := by
    rw [hreceived, List.length_replicate]
    omega
  have hlines : takeLines (List.replicate readSize 120) = ([], List.replicate readSize 120) :=
    takeLines_of_none (firstLine_eq_none newline_not_mem_replicate)
  have hdrop : longLine.drop readSize = [newline] := by simp [longLine]
  have hline : longLine ≠ [] := by simp [longLine]
  rw [read, if_neg Bool.true_eq_false_eq_False, if_neg hline, if_neg hover, onMessage, hreceived, hlines,
    hdrop]
  rfl

/-- A run in which a line is never posted, although the event loop is fair. -/
theorem stalled_behavior (hmax : readSize ≤ maxSize) : ∃ b : Behavior (step maxSize),
    b.state 0 = start ∧ b.WeaklyFair IsLoop ∧ (∀ n, (b.state n).closed = false) ∧
      (∀ n, (b.state n).unread.length ≤ readSize + 1) ∧ ¬ Processed b := by
  have hlength : longLine.length = readSize + 1 := by simp [longLine]
  obtain ⟨b, hstart, hfair, hspec, hlast⟩ := exists_behavior (by simp [longLine]) (read_longLine hmax)
    rfl rfl rfl (by simp [longLine, stalled])
  refine ⟨b, hstart, hfair, fun n => (hspec n).1, fun n => hlength ▸ (hspec n).2, fun hprocessed => ?_⟩
  obtain ⟨m, hm, hprefix⟩ := hprocessed 3
  rw [hlast 3 le_rfl, hlast m hm, requests_stalled] at hprefix
  simp [stalled] at hprefix

end Stalled

/-- Every request is processed in every fair run of the event loop in which at most so many bytes wait,
exactly if one read can take them all. -/
theorem processed_iff (limit : ℕ) :
    (∀ (maxSize : ℕ) (b : Behavior (step maxSize)), b.state 0 = start → b.WeaklyFair IsLoop →
      (∀ n, (b.state n).closed = false) → (∀ n, (b.state n).unread.length ≤ limit) → Processed b) ↔
      limit ≤ readSize := by
  constructor
  · intro h
    by_contra hlimit
    obtain ⟨b, hstart, hfair, hopen, hsize, hnot⟩ := stalled_behavior le_rfl
    exact hnot (h _ b hstart hfair hopen fun n => (hsize n).trans (by omega))
  · intro hlimit maxSize b hstart hfair hopen hsize
    exact processed_of_unread_le b hstart hfair hopen fun n => (hsize n).trans hlimit

def shortLines : Bytes := [0x61, newline, 0x62, newline]

theorem read_shortLines : read readSize ⟨shortLines, shortLines, false, true, [], [], false⟩ =
    some ⟨shortLines, [], false, false, [], [[0x61], [0x62]], false⟩ := by
  have hlines : takeLines shortLines = ([[0x61], [0x62]], []) := by
    rw [shortLines, takeLines_of_some rfl, takeLines_of_some rfl, takeLines_of_none rfl]
  have hreceived : received ⟨shortLines, shortLines, false, true, [], [], false⟩ = shortLines := rfl
  rw [read, if_neg Bool.true_eq_false_eq_False, if_neg (by decide), if_neg (by decide), onMessage,
    hreceived, hlines]
  rfl

/-- Two lines that one read can take. -/
theorem shortLines_processed : ∃ b : Behavior (step readSize),
    b.state 0 = start ∧ b.WeaklyFair IsLoop ∧ (b.state 3).requests = [[0x61], [0x62]] ∧
      Processed b := by
  obtain ⟨b, hstart, hfair, hspec, hlast⟩ :=
    exists_behavior (by decide) read_shortLines rfl rfl rfl (Nat.zero_le _)
  refine ⟨b, hstart, hfair, by rw [hlast 3 le_rfl]; rfl, ?_⟩
  exact (processed_iff readSize).mpr le_rfl readSize b hstart hfair (fun n => (hspec n).1) fun n =>
    (hspec n).2.trans (by decide)

/-- A line of 65536 bytes and its newline, which arrive together. -/
theorem longLine_not_processed : ∃ b : Behavior (step readSize),
    b.state 0 = start ∧ b.WeaklyFair IsLoop ∧ (∀ n, (b.state n).closed = false) ∧ ¬ Processed b := by
  obtain ⟨b, hstart, hfair, hopen, -, hnot⟩ := stalled_behavior le_rfl
  exact ⟨b, hstart, hfair, hopen, hnot⟩

end InputSide

end CoroDB
