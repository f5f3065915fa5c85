import CoroDB.Process.OpenTransaction
import CoroDB.Server.Connections

/-!
# Closed connections

The server with the database behind it: a worker executes the statement of its task in the session of
the task's connection, and the close callback rolls the transaction of a closed connection back and
resets its session.
-/

namespace CoroDB

open Framework Ascii

def semicolon : UInt8 := 59

def trimSpace (bytes : Bytes) : Bytes :=
  ((bytes.dropWhile isSpace).reverse.dropWhile isSpace).reverse

/-- The text of a line, without the white space around it and one semicolon at its end. -/
def statementText (line : Bytes) : Bytes :=
  let trimmed := trimSpace line
  if trimmed.getLast? = some semicolon then trimSpace trimmed.dropLast else trimmed

/-- The tables before and after a statement, with the number of its post. -/
structure Effect (ν : Type) where
  number : Nat
  before : ν → SqlTable
  after : ν → SqlTable

/-- The server with its database. For every connection: from which number on its statements were
posted after its last BEGIN, that number when it was closed in a transaction, and the effects of its
statements. -/
structure Hosted (ν κ ω : Type) [DecidableEq ν] where
  server : Server κ ω
  processor : Processor ν κ
  closed : κ → Bool
  began : κ → Nat
  closedInTxn : κ → Option Nat
  effects : κ → List (Effect ν)

/-- A worker ends its task with the statement executed or, beyond the rate limit, refused. -/
inductive HostedAction (κ ω : Type) where
  | receive (c : κ) (bytes : Bytes)
  | nextLine (c : κ)
  | take (w : ω)
  | finish (w : ω) (limited : Bool) (response : Bytes)
  | close (c : κ)

def HostedAction.onServer {κ ω : Type} : HostedAction κ ω → Option (ServerAction κ ω)
  | .receive c bytes => some (.receive c bytes)
  | .nextLine c => some (.nextLine c)
  | .take w => some (.take w)
  | .finish w _ response => some (.finish w response)
  | .close _ => none

variable {ν κ ω : Type} [DecidableEq ν] [DecidableEq κ]

def Database.closeSession (db : Database ν κ) (c : κ) : Database ν κ :=
  let s := db.sessions c
  if s.inTransaction then
    db.abandon c (db.txnManager.rollback s.currentTxnId).2
      { s with
        writeBuffer := .empty
        readSet := .empty
        tableReadVersions := .empty
        currentTxnId := 0 }
  else db

/-- `process_sql_line`, apart from the text of the response. -/
def Processor.processSqlLine (env : Environment ν) (fuel : Nat) (P : Processor ν κ) (c : κ)
    (line : Bytes) : Option (Processor ν κ) :=
  if statementText line = [] then some P
  else (P.run env fuel c (statementText line)).map Prod.fst

namespace Hosted

section Steps

variable (env : Environment ν) (fuel maxQueueSize : Nat)

/-- Whether a line changes tables at once and for good, in a transaction too. -/
def atOnceLine (P : Processor ν κ) (c : κ) (line : Bytes) : Bool :=
  match P.resolve env c fuel (statementText line) with
  | some (.ok a) => a.atOnce
  | _ => false

def begunAt (P P' : Processor ν κ) (t : Task κ) (began : Nat) : Nat :=
  if (P.db.sessions t.conn).inTransaction = false ∧ (P'.db.sessions t.conn).inTransaction = true then
    t.number + 1
  else began

def record (P P' : Processor ν κ) (t : Task κ) (effects : List (Effect ν)) : List (Effect ν) :=
  if atOnceLine env fuel P t.conn t.line then effects
  else effects ++ [⟨t.number, P.db.tables, P'.db.tables⟩]

def execute (h : Hosted ν κ ω) (t : Task κ) : Option (Hosted ν κ ω) :=
  (h.processor.processSqlLine env fuel t.conn t.line).map fun P =>
    { h with
      processor := P
      began := Function.update h.began t.conn (begunAt h.processor P t (h.began t.conn))
      effects := Function.update h.effects t.conn
        (record env fuel h.processor P t (h.effects t.conn)) }

def openSince (h : Hosted ν κ ω) (c : κ) : Option Nat :=
  if (h.processor.db.sessions c).inTransaction then some (h.began c) else none

def step [DecidableEq ω] (h : Hosted ν κ ω) : HostedAction κ ω → Option (Hosted ν κ ω)
  | .receive c bytes =>
    if h.closed c then none else (h.server.receive c bytes).map fun s => { h with server := s }
  | .nextLine c => (h.server.nextLine maxQueueSize c).map fun s => { h with server := s }
  | .take w => (h.server.take w).map fun s => { h with server := s }
  | .finish w limited response =>
    (h.server.pool.workers w).bind fun t =>
      (if limited then some h else h.execute env fuel t).bind fun h' =>
        (h.server.finish w response).map fun s => { h' with server := s }
  | .close c =>
    if h.closed c then none
    else
      some { h with
        processor := { h.processor with db := h.processor.db.closeSession c }
        closed := Function.update h.closed c true
        closedInTxn := Function.update h.closedInTxn c (h.openSince c) }

end Steps

def start (P : Processor ν κ) : Hosted ν κ ω :=
  ⟨.start, P, fun _ => false, fun _ => 0, fun _ => none, fun _ => []⟩

/-- No statement that a connection posted after its last BEGIN has changed a table when the connection
was closed in that transaction. -/
def RolledBack (h : Hosted ν κ ω) : Prop :=
  ∀ c began, h.closedInTxn c = some began →
    ∀ e ∈ h.effects c, began ≤ e.number → e.after = e.before

/-- A line that is not blank is posted only when no earlier one of its connection is queued or
running. -/
def Paced (h : Hosted ν κ ω) (a : HostedAction κ ω) : Prop := ∀ b ∈ a.onServer, h.server.Paced b

/-- A connection in a transaction closes only when its tasks have ended and no line is left. -/
def Settled (h : Hosted ν κ ω) : HostedAction κ ω → Prop
  | .close c => (h.processor.db.sessions c).inTransaction = true →
      h.server.pool.Idle Task.conn c ∧ firstLine (h.server.buffers c) = none
  | _ => True

instance settledDecidable [Fintype ω] (h : Hosted ν κ ω) :
    (a : HostedAction κ ω) → Decidable (h.Settled a)
  | .receive _ _ => .isTrue trivial
  | .nextLine _ => .isTrue trivial
  | .take _ => .isTrue trivial
  | .finish _ _ _ => .isTrue trivial
  | .close c => inferInstanceAs (Decidable ((h.processor.db.sessions c).inTransaction = true →
      h.server.pool.Idle Task.conn c ∧ firstLine (h.server.buffers c) = none))

end Hosted

section Lines

variable {env : Environment ν} {fuel : Nat} {P P' : Processor ν κ} {c d : κ} {line : Bytes}

theorem Processor.processSqlLine_others (hd : d ≠ c)
    (h : P.processSqlLine env fuel c line = some P') : P'.db.sessions d = P.db.sessions d := by
  rw [processSqlLine] at h
  split_ifs at h
  · rw [Option.some.inj h]
  · obtain ⟨⟨P', reply⟩, hrun, rfl⟩ := Option.map_eq_some_iff.mp h
    exact run_others hd hrun

theorem Processor.processSqlLine_tables (hline : Hosted.atOnceLine env fuel P c line = false)
    (hin : (P.db.sessions c).inTransaction = true)
    (h : P.processSqlLine env fuel c line = some P')
    (hin' : (P'.db.sessions c).inTransaction = true) : P'.db.tables = P.db.tables := by
  rw [processSqlLine] at h
  split_ifs at h
  · rw [Option.some.inj h]
  · obtain ⟨⟨P', reply⟩, hrun, rfl⟩ := Option.map_eq_some_iff.mp h
    refine run_tables (fun a ha => ?_) hin hrun hin'
    rw [Hosted.atOnceLine, ha] at hline
    exact hline

theorem Database.closeSession_others (db : Database ν κ) (hd : d ≠ c) :
    (db.closeSession c).sessions d = db.sessions d := by
  rw [closeSession]
  split_ifs
  · exact Function.update_of_ne hd _ _
  · rfl

theorem Database.closeSession_inTransaction (db : Database ν κ) (c : κ) :
    ((db.closeSession c).sessions c).inTransaction = false := by
  rw [closeSession]
  split_ifs with hin
  · rw [abandon, setSession_sessions_self]
    rfl
  · simpa using hin

end Lines

namespace Hosted

variable {env : Environment ν} {fuel maxQueueSize : Nat}

omit [DecidableEq ν] in
theorem tasksOf_concat (ts : List (Task κ)) (t : Task κ) :
    Server.tasksOf t.conn (ts ++ [t]) = Server.tasksOf t.conn ts ++ [t] := by
  simp [Server.tasksOf, WorkerPool.ofOwner]

omit [DecidableEq ν] in
theorem tasksOf_sublist (c : κ) (t : Task κ) (ts : List (Task κ)) :
    ((Server.tasksOf c ts).map Task.number).Sublist
      ((Server.tasksOf c (ts ++ [t])).map Task.number) :=
  ((List.sublist_append_left ts [t]).filter _).map _

omit [DecidableEq ν] in
theorem finished_pairwise {s : Server κ ω} {c : κ} (h : s.Accounted)
    (hserial : s.pool.Serial Task.conn c) :
    ((Server.tasksOf c s.pool.finished).map Task.number).Pairwise (· < ·) := by
  have hstarted : (Server.tasksOf c s.pool.finished).Sublist s.pool.started :=
    hserial.finished_isPrefix.sublist.trans List.filter_sublist
  have hposted : (Server.tasksOf c s.pool.finished).Sublist s.pool.posted :=
    hstarted.trans (List.sublist_append_left _ _)
  have hrange := hposted.map Task.number
  rw [h.numbered] at hrange
  exact List.pairwise_lt_range.sublist hrange

/-- An open transaction has changed no table since its BEGIN, a connection that was closed in one has
no task and no line left, and effects are those of tasks that have ended. -/
structure Contained (h : Hosted ν κ ω) : Prop where
  opened : ∀ c, (h.processor.db.sessions c).inTransaction = true →
    ∀ e ∈ h.effects c, h.began c ≤ e.number → e.after = e.before
  rolledBack : h.RolledBack
  quiet : ∀ c, h.closedInTxn c ≠ none → h.closed c = true ∧ h.server.pool.Idle Task.conn c ∧
    firstLine (h.server.buffers c) = none
  ended : ∀ c, ((h.effects c).map Effect.number).Sublist
    ((Server.tasksOf c h.server.pool.finished).map Task.number)

theorem contained_start (P : Processor ν κ) : (start P : Hosted ν κ ω).Contained where
  opened _ _ e he := by cases he
  rolledBack _ _ hc := by cases hc
  quiet _ hc := absurd rfl hc
  ended _ := List.nil_sublist _

variable {h h' : Hosted ν κ ω}

theorem Contained.server {s : Server κ ω} (hh : h.Contained)
    (hfinished : s.pool.finished = h.server.pool.finished)
    (hs : ∀ c, h.closedInTxn c ≠ none → h.server.pool.Idle Task.conn c →
      firstLine (h.server.buffers c) = none →
        s.pool.Idle Task.conn c ∧ firstLine (s.buffers c) = none) :
    ({ h with server := s } : Hosted ν κ ω).Contained where
  opened := hh.opened
  rolledBack := hh.rolledBack
  quiet c hc := by
    obtain ⟨hclosed, hidle, hline⟩ := hh.quiet c hc
    exact ⟨hclosed, hs c hc hidle hline⟩
  ended c := by
    have hended := hh.ended c
    rwa [← hfinished] at hended

theorem record_unchanged {P P' : Processor ν κ} {t : Task κ} {effects : List (Effect ν)} {began : Nat}
    (heffects : (P.db.sessions t.conn).inTransaction = true →
      ∀ e ∈ effects, began ≤ e.number → e.after = e.before)
    (hold : ∀ e ∈ effects, e.number < t.number)
    (h : P.processSqlLine env fuel t.conn t.line = some P')
    (hin' : (P'.db.sessions t.conn).inTransaction = true) :
    ∀ e ∈ record env fuel P P' t effects, begunAt P P' t began ≤ e.number → e.after = e.before := by
  intro e he hbegan
  cases hin : (P.db.sessions t.conn).inTransaction with
  | false =>
    rw [begunAt, if_pos ⟨hin, hin'⟩] at hbegan
    rw [record] at he
    split_ifs at he
    · have := hold e he
      omega
    · rcases List.mem_append.mp he with he | he
      · have := hold e he
        omega
      · rw [List.mem_singleton.mp he] at hbegan
        exact absurd hbegan (Nat.not_succ_le_self _)
  | true =>
    rw [begunAt, if_neg (by simp [hin])] at hbegan
    rw [record] at he
    split_ifs at he with hline
    · exact heffects hin e he hbegan
    · rcases List.mem_append.mp he with he | he
      · exact heffects hin e he hbegan
      · rw [List.mem_singleton.mp he]
        exact Processor.processSqlLine_tables (by simpa using hline) hin h hin'

omit [DecidableEq κ] in
theorem record_numbers {P P' : Processor ν κ} {t : Task κ} {effects : List (Effect ν)}
    {numbers : List Nat} (h : (effects.map Effect.number).Sublist numbers) :
    ((record env fuel P P' t effects).map Effect.number).Sublist (numbers ++ [t.number]) := by
  rw [record]
  split_ifs
  · exact h.trans (List.sublist_append_left _ _)
  · rw [List.map_append]
    exact h.append (List.Sublist.refl _)

/-- A worker ends a statement of a connection that was not closed in a transaction. -/
theorem Contained.execute {t : Task κ} {s : Server κ ω} (hh : h.Contained)
    (ht : h.closedInTxn t.conn = none)
    (hfinished : s.pool.finished = h.server.pool.finished ++ [t])
    (hserver : ∀ c, h.server.pool.Idle Task.conn c → firstLine (h.server.buffers c) = none →
      s.pool.Idle Task.conn c ∧ firstLine (s.buffers c) = none)
    (hlast : ∀ e ∈ h.effects t.conn, e.number < t.number)
    (hs : h.execute env fuel t = some h') : ({ h' with server := s } : Hosted ν κ ω).Contained := by
  obtain ⟨P, hP, rfl⟩ := Option.map_eq_some_iff.mp hs
  refine ⟨?_, ?_, ?_, ?_⟩
  · intro c hc
    by_cases hct : c = t.conn
    · subst hct
      dsimp only
      rw [Function.update_self, Function.update_self]
      exact record_unchanged (hh.opened _) hlast hP hc
    · dsimp only at hc ⊢
      rw [Function.update_of_ne hct, Function.update_of_ne hct]
      rw [Processor.processSqlLine_others hct hP] at hc
      exact hh.opened c hc
  · intro c began hc
    by_cases hct : c = t.conn
    · dsimp only at hc
      rw [hct, ht] at hc
      cases hc
    · dsimp only
      rw [Function.update_of_ne hct]
      exact hh.rolledBack c began hc
  · intro c hc
    obtain ⟨hclosed, hidle, hline⟩ := hh.quiet c hc
    exact ⟨hclosed, hserver c hidle hline⟩
  · intro c
    dsimp only
    rw [hfinished]
    by_cases hct : c = t.conn
    · rw [hct, Function.update_self, tasksOf_concat, List.map_append]
      exact record_numbers (hh.ended t.conn)
    · rw [Function.update_of_ne hct]
      exact (hh.ended c).trans (tasksOf_sublist c t _)

variable [DecidableEq ω]

theorem Contained.close {c : κ} (hh : h.Contained) (hsettled : h.Settled (.close c))
    (hs : h.step env fuel maxQueueSize (.close c) = some h') : h'.Contained := by
  rw [step] at hs
  split_ifs at hs
  obtain rfl := Option.some.inj hs
  refine ⟨?_, ?_, ?_, hh.ended⟩
  · intro d hd
    by_cases hdc : d = c
    · rw [hdc] at hd
      exact absurd hd (by simp [Database.closeSession_inTransaction])
    · dsimp only at hd
      rw [Database.closeSession_others h.processor.db hdc] at hd
      exact hh.opened d hd
  · intro d began hd
    dsimp only at hd
    by_cases hdc : d = c
    · rw [hdc, Function.update_self, openSince] at hd
      split_ifs at hd with hin
      obtain rfl := Option.some.inj hd
      rw [hdc]
      exact hh.opened c hin
    · rw [Function.update_of_ne hdc] at hd
      exact hh.rolledBack d began hd
  · intro d hd
    dsimp only at hd
    by_cases hdc : d = c
    · rw [hdc, Function.update_self, openSince] at hd
      split_ifs at hd with hin
      · obtain ⟨hidle, hline⟩ := hsettled hin
        rw [hdc]
        exact ⟨by simp, hidle, hline⟩
      · exact absurd rfl hd
    · rw [Function.update_of_ne hdc] at hd
      obtain ⟨hclosed, hidle, hline⟩ := hh.quiet d hd
      exact ⟨by simpa [hdc] using hclosed, hidle, hline⟩

theorem Contained.finish {w : ω} {limited : Bool} {response : Bytes} (hh : h.Contained)
    (haccounted : h'.server.Accounted) (hserial : ∀ c, h'.server.pool.Serial Task.conn c)
    (hs : h.step env fuel maxQueueSize (.finish w limited response) = some h') :
    h'.Contained := by
  obtain ⟨t, ht, hs⟩ := Option.bind_eq_some_iff.mp hs
  obtain ⟨h₁, hexec, hs⟩ := Option.bind_eq_some_iff.mp hs
  obtain ⟨s, hfinish, rfl⟩ := Option.map_eq_some_iff.mp hs
  obtain ⟨u, pool, hpool, rfl⟩ := Server.finish_eq_some hfinish
  have hidle : ∀ c, h.server.pool.Idle Task.conn c → firstLine (h.server.buffers c) = none →
      pool.Idle Task.conn c ∧ firstLine (h.server.buffers c) = none :=
    fun c hidle hline => ⟨hidle.finish hpool, hline⟩
  obtain ⟨hworker, hfinished⟩ := WorkerPool.finish_eq_some hpool
  obtain rfl : t = u := Option.some.inj (ht.symm.trans hworker)
  have hopen : h.closedInTxn t.conn = none := by
    by_contra hclosed
    exact (hh.quiet t.conn hclosed).2.1.2 w t ht rfl
  have hpairwise := finished_pairwise haccounted (hserial t.conn)
  dsimp only at hpairwise
  rw [hfinished, tasksOf_concat, List.map_append, List.pairwise_append] at hpairwise
  have hlast : ∀ e ∈ h.effects t.conn, e.number < t.number := by
    intro e he
    exact hpairwise.2.2 e.number ((hh.ended t.conn).subset (List.mem_map_of_mem he)) t.number
      (List.mem_singleton_self _)
  cases limited with
  | true =>
    obtain rfl := Option.some.inj hexec
    refine ⟨hh.opened, hh.rolledBack, fun c hc => ?_, fun c => ?_⟩
    · obtain ⟨hclosed, hc, hline⟩ := hh.quiet c hc
      exact ⟨hclosed, hidle c hc hline⟩
    · dsimp only
      rw [hfinished]
      exact (hh.ended c).trans (tasksOf_sublist c t _)
  | false => exact hh.execute hopen (by rw [hfinished]) hidle hlast hexec

/-- The server keeps the order of the posts in every step. -/
theorem Contained.step {a : HostedAction κ ω} (hh : h.Contained) (haccounted : h'.server.Accounted)
    (hserial : ∀ c, h'.server.pool.Serial Task.conn c) (ha : h.Settled a)
    (hs : h.step env fuel maxQueueSize a = some h') : h'.Contained := by
  cases a with
  | receive d bytes =>
    rw [Hosted.step] at hs
    split_ifs at hs with hclosed
    obtain ⟨s, hreceive, rfl⟩ := Option.map_eq_some_iff.mp hs
    rw [Server.receive_eq_some hreceive]
    refine hh.server rfl fun c hc hidle hline => ?_
    have hcd : c ≠ d := by
      intro hcd
      rw [← hcd, (hh.quiet c hc).1] at hclosed
      exact hclosed rfl
    exact ⟨hidle, by simpa [hcd] using hline⟩
  | nextLine d =>
    obtain ⟨s, hnext, rfl⟩ := Option.map_eq_some_iff.mp hs
    obtain ⟨line, rest, hfirst, hcases⟩ := Server.nextLine_eq_some hnext
    have hne : ∀ c, firstLine (h.server.buffers c) = none → c ≠ d := by
      intro c hline hcd
      rw [hcd, hfirst] at hline
      cases hline
    rcases hcases with ⟨-, rfl⟩ | ⟨-, pool, hpost, rfl⟩
    · refine hh.server rfl fun c hc hidle hline => ?_
      exact ⟨hidle, by simpa [hne c hline] using hline⟩
    · refine hh.server (by rw [WorkerPool.post_eq_some hpost]) fun c hc hidle hline => ?_
      exact ⟨hidle.post hpost (Ne.symm (hne c hline)), by simpa [hne c hline] using hline⟩
  | take w =>
    obtain ⟨s, htake, rfl⟩ := Option.map_eq_some_iff.mp hs
    obtain ⟨pool, hpool, rfl⟩ := Server.take_eq_some htake
    obtain ⟨t, rest, -, -, heq⟩ := WorkerPool.take_eq_some hpool
    refine hh.server (by rw [heq]) fun c _ hidle hline => ?_
    exact ⟨hidle.take hpool, hline⟩
  | finish w limited response => exact hh.finish haccounted hserial hs
  | close c => exact hh.close ha hs

theorem onServer_step {a : HostedAction κ ω} (hs : h.step env fuel maxQueueSize a = some h') :
    h'.server = h.server ∨ ∃ b, a.onServer = some b ∧ h.server.step maxQueueSize b = some h'.server := by
  cases a with
  | receive c bytes =>
    rw [Hosted.step] at hs
    split_ifs at hs
    obtain ⟨s, hreceive, rfl⟩ := Option.map_eq_some_iff.mp hs
    exact .inr ⟨_, rfl, hreceive⟩
  | nextLine c =>
    obtain ⟨s, hnext, rfl⟩ := Option.map_eq_some_iff.mp hs
    exact .inr ⟨_, rfl, hnext⟩
  | take w =>
    obtain ⟨s, htake, rfl⟩ := Option.map_eq_some_iff.mp hs
    exact .inr ⟨_, rfl, htake⟩
  | finish w limited response =>
    obtain ⟨t, -, hs⟩ := Option.bind_eq_some_iff.mp hs
    obtain ⟨h₁, -, hs⟩ := Option.bind_eq_some_iff.mp hs
    obtain ⟨s, hfinish, rfl⟩ := Option.map_eq_some_iff.mp hs
    exact .inr ⟨_, rfl, hfinish⟩
  | close c =>
    rw [Hosted.step] at hs
    split_ifs at hs
    obtain rfl := Option.some.inj hs
    exact .inl rfl

/-- The statements of every connection end in the order of their posts. -/
def EndsInOrder (h : Hosted ν κ ω) : Prop :=
  h.server.Accounted ∧ ∀ c, h.server.pool.Serial Task.conn c

theorem EndsInOrder.step {a : HostedAction κ ω} (hh : h.EndsInOrder)
    (hs : h.step env fuel maxQueueSize a = some h')
    (hfree : ∀ w, h.server.pool.workers w = none → ∀ t, h.server.pool.tasks.head? = some t →
      h.server.pool.NotRunning Task.conn t.conn) : h'.EndsInOrder := by
  rcases onServer_step hs with heq | ⟨b, -, hb⟩
  · rw [EndsInOrder, heq]
    exact hh
  · exact ⟨hh.1.step hb, fun c => Server.serial_step (hh.2 c) hb fun w _ hw t ht => hfree w hw t ht⟩

theorem endsInOrder_throughout (P : Processor ν κ) (as : List (HostedAction κ ω))
    (hpaced : Subsingleton ω ∨ Guarded (step env fuel maxQueueSize) Paced (start P) as) :
    Throughout (step env fuel maxQueueSize) EndsInOrder (start P : Hosted ν κ ω) as := by
  have hstart : (start P : Hosted ν κ ω).EndsInOrder :=
    ⟨Server.accounted_start, fun c => WorkerPool.serial_empty⟩
  rcases hpaced with hone | hpaced
  · refine Throughout.of_invariant (fun h a h' hh hs => hh.step hs fun w hw t _ => ?_) hstart
    exact WorkerPool.NotRunning.of_subsingleton hw
  · have hinv : Throughout (step env fuel maxQueueSize)
        (fun h => h.EndsInOrder ∧ h.server.pool.Solitary Task.conn) (start P : Hosted ν κ ω) as := by
      apply hpaced.throughout _ ⟨hstart, WorkerPool.solitary_empty⟩
      intro h a h' hh ha hs
      refine ⟨hh.1.step hs fun w _ t ht => hh.2.waiting t (List.mem_of_mem_head? ht), ?_⟩
      rcases onServer_step hs with heq | ⟨b, hb, hstep⟩
      · rw [heq]
        exact hh.2
      · exact Server.solitary_step hh.2 (ha b hb) hstep
    exact hinv.mono fun h hh => hh.1

section Sample

def disconnectTexts : List (Bytes × Ast Unit) :=
  [(ascii "BEGIN", .control .begin),
    (ascii "INSERT INTO t VALUES (1, 7)", .insert (.onTable ⟨(), [0, 1], [[.int 1, .int 7]]⟩))]

def openTransaction : Bytes :=
  ascii "BEGIN;" ++ [newline] ++ ascii "INSERT INTO t VALUES (1, 7);" ++ [newline]

def closedLate : List (HostedAction Unit Unit) :=
  [.receive () openTransaction, .nextLine (), .nextLine (), .take (), .finish () false [1], .take (),
    .finish () false [1], .close ()]

def closedEarly : List (HostedAction Unit Unit) :=
  [.receive () openTransaction, .nextLine (), .nextLine (), .take (), .finish () false [1], .close (),
    .take (), .finish () false [1]]

/-- Two workers run the two statements, and the INSERT ends before the BEGIN. -/
def closedOvertaken : List (HostedAction Unit Bool) :=
  [.receive () openTransaction, .nextLine (), .nextLine (), .take false, .take true,
    .finish true false [1], .finish false false [1], .close ()]

/-- From which number on statements were in the transaction that the connection was closed in, and the
rows before and after each statement. -/
def observed {ω : Type} (h : Hosted Unit Unit ω) : Option Nat × List (Nat × List Row × List Row) :=
  (h.closedInTxn (), (h.effects ()).map fun e =>
    (e.number, (e.before ()).scanVisible maxTs, (e.after ()).scanVisible maxTs))

theorem exists_not_rolledBack {ω : Type} [DecidableEq ω] {as : List (HostedAction Unit ω)}
    {effects : List (Nat × List Row × List Row)}
    (hrun : (run (step (.ofTexts disconnectTexts) 1 0) (start (.sample false)) as).map observed =
      some (some 1, effects)) (hmem : (1, [], [⟨[.int 1, .int 7]⟩]) ∈ effects) :
    ∃ h, run (step (.ofTexts disconnectTexts) 1 0) (start (.sample false)) as = some h ∧
      observed h = (some 1, effects) ∧ ¬ h.RolledBack := by
  obtain ⟨h, hh, hobserved⟩ := Option.map_eq_some_iff.mp hrun
  refine ⟨h, hh, hobserved, fun hrolled => ?_⟩
  obtain ⟨hclosed, heffects⟩ := Prod.mk.inj hobserved
  rw [← heffects] at hmem
  obtain ⟨e, he, heq⟩ := List.mem_map.mp hmem
  obtain ⟨hnumber, heq⟩ := Prod.mk.inj heq
  rw [hrolled () 1 hclosed e he hnumber.ge] at heq
  obtain ⟨hbefore, hafter⟩ := Prod.mk.inj heq
  rw [hbefore] at hafter
  cases hafter

end Sample

end Hosted

end CoroDB
