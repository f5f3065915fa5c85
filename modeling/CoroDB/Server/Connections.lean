import CoroDB.Framework.Run
import CoroDB.Framework.WorkerPool
import CoroDB.Sql.Tokenizer

/-!
# Connections and the worker pool

The server cuts the bytes of a connection into lines and posts every line that is not blank to the
worker pool as a task of its own.
-/

namespace CoroDB

open Framework Ascii

def newline : UInt8 := 10

def firstLine : Bytes → Option (Bytes × Bytes)
  | [] => none
  | b :: bs =>
    if b = newline then some ([], bs) else (firstLine bs).map fun p => (b :: p.1, p.2)

def consLine (b : UInt8) : List Bytes → List Bytes
  | [] => []
  | line :: lines => (b :: line) :: lines

def completeLines : Bytes → List Bytes
  | [] => []
  | b :: bs => if b = newline then [] :: completeLines bs else consLine b (completeLines bs)

theorem completeLines_of_firstLine {buffer line rest : Bytes}
    (h : firstLine buffer = some (line, rest)) (more : Bytes) :
    completeLines (buffer ++ more) = line :: completeLines (rest ++ more) := by
  induction buffer generalizing line with
  | nil => cases h
  | cons b bs ih =>
    rw [firstLine] at h
    rw [List.cons_append, completeLines]
    split at h
    · rename_i hb
      cases h
      rw [if_pos hb]
    · rename_i hb
      obtain ⟨⟨line', rest'⟩, hline, heq⟩ := Option.map_eq_some_iff.mp h
      cases heq
      rw [if_neg hb, ih hline, consLine]

def isBlankLine (line : Bytes) : Bool := line.all isSpace

/-- A posted line with its connection, numbered in the order of all posts. -/
structure Task (κ : Type) where
  conn : κ
  number : Nat
  line : Bytes
  deriving DecidableEq

structure Server (κ ω : Type) where
  received : κ → Bytes
  buffers : κ → Bytes
  pool : WorkerPool ω (Task κ)
  sent : List (Task κ × Bytes)

/-- The I/O thread of a connection receives bytes and goes through the lines of its buffer, and a
worker takes a task or ends it with a response. -/
inductive ServerAction (κ ω : Type) where
  | receive (c : κ) (bytes : Bytes)
  | nextLine (c : κ)
  | take (w : ω)
  | finish (w : ω) (response : Bytes)

namespace Server

variable {κ ω : Type}

def start : Server κ ω := ⟨fun _ => [], fun _ => [], .empty, []⟩

/-- A call of `on_message` ends when no line is left, and only then are further bytes read. -/
def receive [DecidableEq κ] (s : Server κ ω) (c : κ) (bytes : Bytes) : Option (Server κ ω) :=
  if (firstLine (s.buffers c)).isSome then none
  else
    some { s with
      received := Function.update s.received c (s.received c ++ bytes)
      buffers := Function.update s.buffers c (s.buffers c ++ bytes) }

/-- One round of `on_message`, which waits while the queue is full. -/
def nextLine [DecidableEq κ] (maxQueueSize : Nat) (s : Server κ ω) (c : κ) : Option (Server κ ω) :=
  (firstLine (s.buffers c)).bind fun p =>
    let s := { s with buffers := Function.update s.buffers c p.2 }
    if isBlankLine p.1 then some s
    else
      (s.pool.post maxQueueSize ⟨c, s.pool.posted.length, p.1⟩).map fun pool =>
        { s with pool := pool }

def take [DecidableEq ω] (s : Server κ ω) (w : ω) : Option (Server κ ω) :=
  (s.pool.take w).map fun pool => { s with pool := pool }

def finish [DecidableEq ω] (s : Server κ ω) (w : ω) (response : Bytes) : Option (Server κ ω) :=
  (s.pool.finish w).map fun p =>
    { s with
      pool := p.2
      sent := if response.isEmpty then s.sent else s.sent ++ [(p.1, response)] }

def step [DecidableEq κ] [DecidableEq ω] (maxQueueSize : Nat) (s : Server κ ω) :
    ServerAction κ ω → Option (Server κ ω)
  | .receive c bytes => s.receive c bytes
  | .nextLine c => s.nextLine maxQueueSize c
  | .take w => s.take w
  | .finish w response => s.finish w response

def statements (s : Server κ ω) (c : κ) : List Bytes :=
  (completeLines (s.received c)).filter fun line => !isBlankLine line

section Order

variable {s s' : Server κ ω} {maxQueueSize : Nat}

theorem take_eq_some [DecidableEq ω] {w : ω} (h : s.take w = some s') :
    ∃ pool, s.pool.take w = some pool ∧ s' = { s with pool := pool } := by
  obtain ⟨pool, hpool, rfl⟩ := Option.map_eq_some_iff.mp h
  exact ⟨pool, hpool, rfl⟩

theorem finish_eq_some [DecidableEq ω] {w : ω} {response : Bytes}
    (h : s.finish w response = some s') :
    ∃ t pool, s.pool.finish w = some (t, pool) ∧
      s' = { s with
        pool := pool
        sent := if response.isEmpty then s.sent else s.sent ++ [(t, response)] } := by
  obtain ⟨⟨t, pool⟩, hpool, rfl⟩ := Option.map_eq_some_iff.mp h
  exact ⟨t, pool, hpool, rfl⟩

variable [DecidableEq κ]

def tasksOf (c : κ) (tasks : List (Task κ)) : List (Task κ) :=
  WorkerPool.ofOwner Task.conn c tasks

/-- The statements of a connection run one at a time and in the order of their arrival, and their
responses are sent in that order. The numbers tell equal lines apart. -/
structure InOrder (s : Server κ ω) (c : κ) : Prop where
  oneAtATime : ∀ w w' t t', s.pool.workers w = some t → t.conn = c →
    s.pool.workers w' = some t' → t'.conn = c → w = w'
  executed : (tasksOf c s.pool.started).map Task.line <+: s.statements c
  answered : (tasksOf c (s.sent.map Prod.fst)).Sublist (tasksOf c s.pool.started)
  numbered : s.pool.started.map Task.number = List.range s.pool.started.length

/-- A line that is not blank is posted only when no earlier one of its connection is queued or
running. -/
def Paced (s : Server κ ω) : ServerAction κ ω → Prop
  | .nextLine c => ∀ p ∈ firstLine (s.buffers c), isBlankLine p.1 = false →
      s.pool.Idle Task.conn c
  | _ => True

instance pacedDecidable [Fintype ω] (s : Server κ ω) : (a : ServerAction κ ω) → Decidable (s.Paced a)
  | .receive _ _ => .isTrue trivial
  | .nextLine c => inferInstanceAs (Decidable (∀ p ∈ firstLine (s.buffers c),
      isBlankLine p.1 = false → s.pool.Idle Task.conn c))
  | .take _ => .isTrue trivial
  | .finish _ _ => .isTrue trivial

/-- What holds at every moment: every complete line was posted or is still in the buffer, and only
finished tasks were answered. -/
structure Accounted (s : Server κ ω) : Prop where
  lines : ∀ c more, (tasksOf c s.pool.posted).map Task.line ++
    (completeLines (s.buffers c ++ more)).filter (fun line => !isBlankLine line) =
      (completeLines (s.received c ++ more)).filter fun line => !isBlankLine line
  answered : (s.sent.map Prod.fst).Sublist s.pool.finished
  numbered : s.pool.posted.map Task.number = List.range s.pool.posted.length

theorem receive_eq_some {c : κ} {bytes : Bytes} (h : s.receive c bytes = some s') :
    s' = { s with
      received := Function.update s.received c (s.received c ++ bytes)
      buffers := Function.update s.buffers c (s.buffers c ++ bytes) } := by
  rw [receive] at h
  split at h
  · cases h
  · exact (Option.some.inj h).symm

theorem nextLine_eq_some {c : κ} (h : s.nextLine maxQueueSize c = some s') :
    ∃ line rest, firstLine (s.buffers c) = some (line, rest) ∧
      (isBlankLine line = true ∧ s' = { s with buffers := Function.update s.buffers c rest } ∨
        isBlankLine line = false ∧
          ∃ pool, s.pool.post maxQueueSize ⟨c, s.pool.posted.length, line⟩ = some pool ∧
            s' = { s with buffers := Function.update s.buffers c rest, pool := pool }) := by
  obtain ⟨⟨line, rest⟩, hline, h⟩ := Option.bind_eq_some_iff.mp h
  refine ⟨line, rest, hline, ?_⟩
  cases hb : isBlankLine line with
  | true => exact .inl ⟨rfl, by simpa [hb] using h.symm⟩
  | false =>
    rw [if_neg (by simp [hb])] at h
    obtain ⟨pool, hpool, rfl⟩ := Option.map_eq_some_iff.mp h
    exact .inr ⟨rfl, pool, hpool, rfl⟩

theorem accounted_start : Accounted (start : Server κ ω) where
  lines c more := by simp [start, WorkerPool.posted, WorkerPool.empty, tasksOf, WorkerPool.ofOwner]
  answered := by simp [start]
  numbered := by simp [start, WorkerPool.posted, WorkerPool.empty]

theorem Accounted.receive {c : κ} {bytes : Bytes} (h : Accounted s)
    (hs : s.receive c bytes = some s') : Accounted s' := by
  rw [receive_eq_some hs]
  refine ⟨?_, h.answered, h.numbered⟩
  intro d more
  by_cases hd : d = c
  · subst hd
    simpa using h.lines d (bytes ++ more)
  · simpa [hd] using h.lines d more

theorem Accounted.nextLine {c : κ} (h : Accounted s) (hs : s.nextLine maxQueueSize c = some s') :
    Accounted s' := by
  obtain ⟨line, rest, hline, hcases⟩ := nextLine_eq_some hs
  have hsplit := fun more => completeLines_of_firstLine hline more
  rcases hcases with ⟨hblank, rfl⟩ | ⟨hblank, pool, hpost, rfl⟩
  · refine ⟨?_, h.answered, h.numbered⟩
    intro d more
    by_cases hd : d = c
    · subst hd
      simpa [hsplit more, hblank] using h.lines d more
    · simpa [hd] using h.lines d more
  · have hposted := WorkerPool.posted_post hpost
    refine ⟨?_, ?_, ?_⟩
    · intro d more
      by_cases hd : d = c
      · subst hd
        simpa [hposted, tasksOf, WorkerPool.ofOwner, hsplit more, hblank] using h.lines d more
      · simpa [hposted, tasksOf, WorkerPool.ofOwner, hd, Ne.symm hd] using h.lines d more
    · rw [WorkerPool.post_eq_some hpost]
      exact h.answered
    · simp [hposted, h.numbered, List.range_succ]

theorem Accounted.inOrder {c : κ} (h : Accounted s) (hserial : s.pool.Serial Task.conn c) :
    s.InOrder c where
  oneAtATime _ _ _ _ hw ht hw' ht' := hserial.one_at_a_time hw ht hw' ht'
  executed := by
    have hstarted : tasksOf c s.pool.started <+: tasksOf c s.pool.posted :=
      (List.prefix_append _ _).filter _
    have hlines := h.lines c []
    rw [List.append_nil, List.append_nil] at hlines
    exact (hstarted.map _).trans ⟨_, hlines⟩
  answered := (h.answered.filter _).trans hserial.finished_isPrefix.sublist
  numbered := by
    have hnumbered := h.numbered
    rw [WorkerPool.posted, List.map_append, List.length_append, List.range_add] at hnumbered
    exact List.append_inj_left hnumbered (by simp)

variable [DecidableEq ω]

theorem Accounted.take {w : ω} (h : Accounted s) (hs : s.take w = some s') : Accounted s' := by
  obtain ⟨pool, htake, rfl⟩ := take_eq_some hs
  have hposted := WorkerPool.posted_take htake
  obtain ⟨t, rest, -, -, hpool⟩ := WorkerPool.take_eq_some htake
  refine ⟨?_, ?_, ?_⟩
  · simpa [hposted] using h.lines
  · rw [hpool]
    exact h.answered
  · simpa [hposted] using h.numbered

theorem Accounted.finish {w : ω} {response : Bytes} (h : Accounted s)
    (hs : s.finish w response = some s') : Accounted s' := by
  obtain ⟨t, pool, hfinish, rfl⟩ := finish_eq_some hs
  have hposted := WorkerPool.posted_finish hfinish
  refine ⟨?_, ?_, ?_⟩
  · simpa [hposted] using h.lines
  · rw [(WorkerPool.finish_eq_some hfinish).2]
    split
    · exact h.answered.trans (List.sublist_append_left _ _)
    · rw [List.map_append]
      exact h.answered.append (List.Sublist.refl _)
  · simpa [hposted] using h.numbered

theorem Accounted.step {a : ServerAction κ ω} (h : Accounted s)
    (hs : s.step maxQueueSize a = some s') : Accounted s' := by
  cases a with
  | receive c bytes => exact h.receive hs
  | nextLine c => exact h.nextLine hs
  | take w => exact h.take hs
  | finish w response => exact h.finish hs

theorem serial_step {a : ServerAction κ ω} {c : κ} (h : s.pool.Serial Task.conn c)
    (hs : s.step maxQueueSize a = some s')
    (hfree : ∀ w, a = .take w → s.pool.workers w = none →
      ∀ t, s.pool.tasks.head? = some t → s.pool.NotRunning Task.conn t.conn) :
    s'.pool.Serial Task.conn c := by
  cases a with
  | receive d bytes =>
    rw [receive_eq_some hs]
    exact h
  | nextLine d =>
    obtain ⟨line, rest, -, ⟨-, rfl⟩ | ⟨-, pool, hpost, rfl⟩⟩ := nextLine_eq_some hs
    · exact h
    · exact h.post hpost
  | take w =>
    obtain ⟨pool, htake, rfl⟩ := take_eq_some hs
    obtain ⟨-, -, hidle, -⟩ := WorkerPool.take_eq_some htake
    exact h.take htake (hfree w rfl hidle)
  | finish w response =>
    obtain ⟨t, pool, hfinish, rfl⟩ := finish_eq_some hs
    exact h.finish hfinish

theorem solitary_step {a : ServerAction κ ω} (h : s.pool.Solitary Task.conn) (ha : s.Paced a)
    (hs : s.step maxQueueSize a = some s') : s'.pool.Solitary Task.conn := by
  cases a with
  | receive d bytes =>
    rw [receive_eq_some hs]
    exact h
  | nextLine d =>
    obtain ⟨line, rest, hline, ⟨-, rfl⟩ | ⟨hblank, pool, hpost, rfl⟩⟩ := nextLine_eq_some hs
    · exact h
    · exact h.post hpost (ha (line, rest) hline hblank)
  | take w =>
    obtain ⟨pool, htake, rfl⟩ := take_eq_some hs
    exact h.take htake
  | finish w response =>
    obtain ⟨t, pool, hfinish, rfl⟩ := finish_eq_some hs
    exact h.finish hfinish

/-- With one worker, or when a client waits for the responses, the statements of every connection
are executed one at a time in the order of their arrival and answered in that order. -/
theorem statements_inOrder (maxQueueSize : Nat) (as : List (ServerAction κ ω))
    (hpaced : Subsingleton ω ∨ Guarded (step maxQueueSize) Paced start as) :
    Throughout (step maxQueueSize) (fun s => ∀ c, InOrder s c) (start : Server κ ω) as := by
  rcases hpaced with hone | hpaced
  · have hinv : Throughout (step maxQueueSize)
        (fun s => Accounted s ∧ ∀ c, s.pool.Serial Task.conn c) (start : Server κ ω) as := by
      apply Throughout.of_invariant
      · intro s a s' hs hstep
        refine ⟨hs.1.step hstep, fun c => serial_step (hs.2 c) hstep ?_⟩
        intro w _ hidle t _
        exact WorkerPool.NotRunning.of_subsingleton hidle
      · exact ⟨accounted_start, fun c => WorkerPool.serial_empty⟩
    exact hinv.mono fun s hs c => hs.1.inOrder (hs.2 c)
  · have hinv : Throughout (step maxQueueSize) (fun s => Accounted s ∧
        (∀ c, s.pool.Serial Task.conn c) ∧ s.pool.Solitary Task.conn) (start : Server κ ω) as := by
      apply Guarded.throughout _ hpaced
      · exact ⟨accounted_start, fun c => WorkerPool.serial_empty, WorkerPool.solitary_empty⟩
      · intro s a s' hs ha hstep
        refine ⟨hs.1.step hstep, fun c => serial_step (hs.2.1 c) hstep ?_,
          solitary_step hs.2.2 ha hstep⟩
        intro w _ _ t ht
        exact hs.2.2.waiting t (List.mem_of_mem_head? ht)
    exact hinv.mono fun s hs c => hs.1.inOrder (hs.2.1 c)

end Order

def twoStatements : Bytes := ascii "BEGIN" ++ [newline] ++ [newline] ++ ascii "COMMIT" ++ [newline]

def waitingClient : List (ServerAction Unit Bool) :=
  [.receive () twoStatements, .nextLine (), .nextLine (), .take false, .finish false [1],
    .nextLine (), .take true, .finish true [2]]

theorem statements_inOrder_waitingClient :
    (run (step 0) start waitingClient).map (fun s => s.sent.map fun p => (p.1.line, p.2)) =
        some [(ascii "BEGIN", [1]), (ascii "COMMIT", [2])] ∧
      Throughout (step 0) (fun s => ∀ c, InOrder s c) start waitingClient :=
  ⟨by decide, statements_inOrder 0 waitingClient (.inr (by decide))⟩

/-- Two workers run the two statements at the same time, and the second one ends first. -/
def pipeliningClient : List (ServerAction Unit Bool) :=
  [.receive () twoStatements, .nextLine (), .nextLine (), .nextLine (), .take false, .take true,
    .finish true [2], .finish false [1]]

theorem pipeliningClient_outOfOrder :
    (run (step 0) start (pipeliningClient.take 6)).map
        (fun s => [s.pool.workers false, s.pool.workers true].map (Option.map Task.line)) =
        some [some (ascii "BEGIN"), some (ascii "COMMIT")] ∧
      ∃ s, run (step 0) start pipeliningClient = some s ∧
        s.sent.map (fun p => p.1.line) = [ascii "COMMIT", ascii "BEGIN"] ∧ ¬ s.InOrder () := by
  refine ⟨by decide, _, rfl, by decide, ?_⟩
  intro h
  have hanswered := h.answered
  revert hanswered
  decide

end Server

end CoroDB
