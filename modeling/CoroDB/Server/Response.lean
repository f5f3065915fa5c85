import CoroDB.Exec.Expression
import CoroDB.Server.Connections

/-!
# Responses on the wire

`run_sql` writes the result of a statement as lines with an end marker behind them, and `read_response`
of the client reads until what it has ends with the marker.
-/

namespace CoroDB

open Framework Ascii

section Writing

/-- What a statement ends with. A record of a query is given by its column names and its values. -/
inductive StatementOutcome where
  | message (text : Bytes)
  | query (records : List (List Bytes × List Value))
  | rows
  | nothing
  | error (what : Bytes)

def endMarker : Bytes := ascii "@END" ++ [newline]

def indent : Bytes := ascii "  "

/-- The lines of a message, which `std::getline` takes apart; empty ones are skipped. -/
def messageText (text : Bytes) : Bytes :=
  ((text.splitOn newline).filter (· ≠ [])).flatMap fun line => indent ++ line ++ [newline]

def sanitize (s : Bytes) : Bytes := s.map fun c => if c ∈ [9, 10, 13] then 32 else c

def fieldLine (fields : List Bytes) : Bytes := ((fields.map sanitize).intersperse [9]).flatten ++ [newline]

def headerNames (names : List Bytes) : List Bytes :=
  (names.zipIdx 1).map fun p => if p.1 = [] then ascii "col" ++ decimal p.2 else p.1

variable (doubleText : Double → Bytes)

def valueText : Value → Bytes
  | .null => ascii "NULL"
  | .int i => intText i
  | .double d => doubleText d
  | .text s => s

def queryText (records : List (List Bytes × List Value)) : Bytes :=
  ascii "@TABLE" ++ [newline] ++
    (records.head?.map fun rec => fieldLine (headerNames rec.1)).getD [] ++
    records.flatMap fun rec => fieldLine (rec.2.map (valueText doubleText))

/-- The end of `run_sql`: blanks in front are taken off, and the text is indented if it is no table. -/
def trimmedText (text : Bytes) : Bytes :=
  let text := text.dropWhile isTrimmed
  if text = [] then indent ++ ascii "OK" ++ [newline]
  else if ascii "@TABLE" <+: text then text else indent ++ text

def responseBody : StatementOutcome → Bytes
  | .message text => trimmedText (messageText text)
  | .query records => trimmedText (queryText doubleText records)
  | .rows => trimmedText (indent ++ ascii "OK" ++ [newline])
  | .nothing => trimmedText []
  | .error what => ascii "ERROR: " ++ what ++ [newline]

/-- `process_sql_line` for a line that is a statement. -/
def response (outcome : StatementOutcome) : Bytes := responseBody doubleText outcome ++ endMarker

end Writing

section Reading

/-- The loop of `read_response` over the reads that the connection gives it; none while it waits. The
reads that it has not made are left for the next call. -/
def readLoop (out : Bytes) : List Bytes → Option (Bytes × List Bytes)
  | [] => none
  | piece :: reads =>
    if endMarker <:+ out ++ piece then
      some ((out ++ piece).take ((out ++ piece).length - endMarker.length), reads)
    else readLoop (out ++ piece) reads

def readResponse (reads : List Bytes) : Option (Bytes × List Bytes) := readLoop [] reads

variable {out body next : Bytes} {reads rest : List Bytes}

theorem take_eq_iff (h : endMarker <:+ out) :
    out.take (out.length - endMarker.length) = body ↔ out = body ++ endMarker := by
  obtain ⟨front, rfl⟩ := h
  simp

theorem exists_cons_of_ends {front : List Bytes} (h : ¬ endMarker <:+ out)
    (hout : out ++ front.flatten = body ++ endMarker) : ∃ piece front', front = piece :: front' := by
  cases front with
  | nil => exact absurd ⟨body, by simpa using hout.symm⟩ h
  | cons piece front => exact ⟨piece, front, rfl⟩

/-- The loop returns behind the first reads that end with the marker. -/
theorem readLoop_eq_some_iff (h : ¬ endMarker <:+ out) :
    readLoop out reads = some (body, rest) ↔
      ∃ front, reads = front ++ rest ∧ out ++ front.flatten = body ++ endMarker ∧
        ∀ p, p <+: front → p ≠ front → ¬ endMarker <:+ out ++ p.flatten := by
  induction reads generalizing out with
  | nil =>
    refine ⟨fun hnone => (by cases hnone), ?_⟩
    rintro ⟨front, hreads, hout, -⟩
    obtain ⟨piece, front, rfl⟩ := exists_cons_of_ends h hout
    cases hreads
  | cons piece reads ih =>
    rw [readLoop]
    split_ifs with hend
    · constructor
      · intro hsome
        obtain ⟨hbody, rfl⟩ := Prod.mk.inj (Option.some.inj hsome)
        refine ⟨[piece], rfl, by simpa using (take_eq_iff hend).mp hbody, ?_⟩
        intro p hp hne
        have hnil : p = [] := by
          rcases List.prefix_cons_iff.mp hp with hnil | ⟨t, rfl, ht⟩
          · exact hnil
          · exact absurd (by simpa using ht) hne
        simpa [hnil] using h
      · rintro ⟨front, hreads, hout, hmin⟩
        obtain ⟨piece', front, rfl⟩ := exists_cons_of_ends h hout
        obtain ⟨rfl, rfl⟩ := List.cons.inj hreads
        have hnil : front = [] := by
          by_contra hne
          exact hmin [piece] (by simp) (by simpa using Ne.symm hne) (by simpa using hend)
        subst hnil
        have hbody := (take_eq_iff hend).mpr (by simpa using hout)
        rw [hbody]
        rfl
    · rw [ih hend]
      constructor
      · rintro ⟨front, rfl, hout, hmin⟩
        refine ⟨piece :: front, rfl, by simpa using hout, ?_⟩
        intro p hp hne
        rcases List.prefix_cons_iff.mp hp with rfl | ⟨t, rfl, ht⟩
        · simpa using h
        · have ht := hmin t ht (by simpa using hne)
          simpa using ht
      · rintro ⟨front, hreads, hout, hmin⟩
        obtain ⟨piece', front, rfl⟩ := exists_cons_of_ends h hout
        obtain ⟨rfl, rfl⟩ := List.cons.inj hreads
        refine ⟨front, rfl, by simpa using hout, ?_⟩
        intro p hp hne
        have hp := hmin (piece :: p) (by simpa using hp) (by simpa using hne)
        simpa using hp

/-- Some reads end where the response ends, and none before ends behind an end marker. -/
def CutsAt (response : Bytes) (reads : List Bytes) : Prop :=
  (∃ front, front <+: reads ∧ front.flatten = response) ∧
    ∀ front, front <+: reads → front.flatten.length < response.length →
      ¬ endMarker <:+ front.flatten

theorem flatten_length_lt {p front : List Bytes} (hp : p <+: front) (hne : p ≠ front)
    (hpieces : ∀ piece ∈ front, piece ≠ []) : p.flatten.length < front.flatten.length := by
  obtain ⟨more, rfl⟩ := hp
  cases more with
  | nil => exact absurd (List.append_nil p).symm hne
  | cons piece more =>
    have hpiece := List.length_pos_of_ne_nil (hpieces piece (by simp))
    simp only [List.flatten_append, List.flatten_cons, List.length_append]
    omega

/-- A response is read, and what follows it is left for the next call, exactly if the reads are cut
where it ends and not behind an end marker inside. -/
theorem readResponse_iff (doubleText : Double → Bytes) (outcome : StatementOutcome) (next : Bytes)
    (reads : List Bytes) (hreads : reads.flatten = response doubleText outcome ++ next)
    (hpieces : ∀ piece ∈ reads, piece ≠ []) :
    (∃ rest, readResponse reads = some (responseBody doubleText outcome, rest) ∧
      rest.flatten = next) ↔ CutsAt (response doubleText outcome) reads := by
  have hnil : ¬ endMarker <:+ ([] : Bytes) := by decide
  constructor
  · rintro ⟨rest, hread, -⟩
    obtain ⟨front, rfl, hfront, hmin⟩ := (readLoop_eq_some_iff hnil).mp hread
    refine ⟨⟨front, List.prefix_append _ _, hfront⟩, ?_⟩
    intro p hp hlength
    rw [response, ← hfront, List.nil_append] at hlength
    have hne : p ≠ front := by
      rintro rfl
      exact absurd hlength (Nat.lt_irrefl _)
    rcases List.prefix_or_prefix_of_prefix hp (List.prefix_append front rest) with hp | hp
    · exact hmin p hp hne
    · have hle := hp.flatten.length_le
      omega
  · rintro ⟨⟨front, ⟨rest, rfl⟩, hfront⟩, hmin⟩
    refine ⟨rest, (readLoop_eq_some_iff hnil).mpr ⟨front, rfl, hfront, ?_⟩, ?_⟩
    · intro p hp hne
      apply hmin p (hp.trans (List.prefix_append _ _))
      rw [← hfront]
      exact flatten_length_lt hp hne fun piece hpiece => hpieces piece (List.mem_append_left _ hpiece)
    · rw [List.flatten_append, hfront] at hreads
      exact List.append_cancel_left hreads

/-- The response of a statement without rows, in two reads, before the response of another one. -/
theorem readResponse_twoReads :
    ∃ rest, readResponse [ascii "  OK\n", ascii "@END\n", response (fun _ => []) .rows] =
        some (responseBody (fun _ => []) .rows, rest) ∧
      rest.flatten = response (fun _ => []) .rows := by
  apply (readResponse_iff (fun _ => []) .rows (response (fun _ => []) .rows)
    [ascii "  OK\n", ascii "@END\n", response (fun _ => []) .rows] (by decide) (by decide)).mpr
  refine ⟨⟨[ascii "  OK\n", ascii "@END\n"], by decide, by decide⟩, ?_⟩
  intro front hfront
  rw [← List.mem_inits] at hfront
  revert front
  decide

/-- A cell that ends with the marker's text ends the response early when a read ends behind it, and two
responses in one read are returned together. -/
theorem readResponse_misread :
    [ascii "@TABLE\nc\nx@END\n", ascii "@END\n"].flatten =
      response (fun _ => []) (.query [([ascii "c"], [.text (ascii "x@END")])]) ∧
    readResponse [ascii "@TABLE\nc\nx@END\n", ascii "@END\n"] =
      some (ascii "@TABLE\nc\nx", [ascii "@END\n"]) ∧
    readResponse [response (fun _ => []) .rows ++ response (fun _ => []) .rows] =
      some (ascii "  OK\n@END\n  OK\n", []) := by
  decide

end Reading

end CoroDB
