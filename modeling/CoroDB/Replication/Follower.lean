import CoroDB.Framework.ChunkedStream
import CoroDB.Framework.Framing
import CoroDB.Replication.RecordCodec

/-!
# The follower's receive loop

The follower reads frames, a length and a payload, from one connection. A length of zero or of more
than 64 MiB drops the connection.
-/

namespace CoroDB

open Framework

def maxFrameLength : Nat := 64 * 2 ^ 20

def frameAccepted (len : Nat) : Bool := decide (len ≠ 0 ∧ len ≤ maxFrameLength)

def encodeFrame (payload : Bytes) : Bytes := leBytes 4 payload.length ++ payload

def decodeFrame (bs : Bytes) : Option (Bytes × Bytes) :=
  if bs.length < 4 then none
  else if frameAccepted (ofLeBytes (bs.take 4)) = false then none
  else if (bs.drop 4).length < ofLeBytes (bs.take 4) then none
  else some ((bs.drop 4).take (ofLeBytes (bs.take 4)), (bs.drop 4).drop (ofLeBytes (bs.take 4)))

theorem decodeFrame_encodeFrame (payload rest : Bytes) (h : frameAccepted payload.length = true) :
    decodeFrame (encodeFrame payload ++ rest) = some (payload, rest) := by
  have hbound : payload.length < 256 ^ 4 := by
    have hle : payload.length ≤ 64 * 2 ^ 20 := (of_decide_eq_true h).2
    omega
  have htake : (encodeFrame payload ++ rest).take 4 = leBytes 4 payload.length := by
    rw [encodeFrame, List.append_assoc, List.take_left' (leBytes_length 4 _)]
  have hdrop : (encodeFrame payload ++ rest).drop 4 = payload ++ rest := by
    rw [encodeFrame, List.append_assoc, List.drop_left' (leBytes_length 4 _)]
  have hlen : ofLeBytes (leBytes 4 payload.length) = payload.length := by
    rw [ofLeBytes_leBytes, Nat.mod_eq_of_lt hbound]
  rw [decodeFrame, htake, hdrop, hlen, if_neg (by simp [encodeFrame]), if_neg (by simp [h]),
    if_neg (by simp), List.take_left, List.drop_left]

theorem of_decodeFrame (bs payload rest : Bytes) (h : decodeFrame bs = some (payload, rest)) :
    frameAccepted payload.length = true ∧ bs = encodeFrame payload ++ rest := by
  rw [decodeFrame] at h
  split_ifs at h with h4 hacc hshort
  obtain ⟨rfl, rfl⟩ := Prod.mk.inj (Option.some.inj h)
  have hlen : ((bs.drop 4).take (ofLeBytes (bs.take 4))).length = ofLeBytes (bs.take 4) := by
    rw [List.length_take]
    omega
  have hfour : (bs.take 4).length = 4 := by
    rw [List.length_take]
    omega
  have hword := leBytes_ofLeBytes (bs.take 4)
  rw [hfour] at hword
  rw [encodeFrame, hlen, hword, List.append_assoc, List.take_append_drop, List.take_append_drop]
  exact ⟨by simpa using hacc, rfl⟩

theorem encodeFrame_ne_nil (payload : Bytes) : encodeFrame payload ≠ [] := by
  intro h
  simpa [encodeFrame] using congrArg List.length h

def followerFraming : Framing Bytes UInt8 where
  encode := encodeFrame
  decode := decodeFrame
  Fits payload := frameAccepted payload.length = true
  decode_encode := decodeFrame_encodeFrame
  of_decode := of_decodeFrame
  encode_ne_nil := encodeFrame_ne_nil

structure ReplicationFollower (σ : Type) where
  replica : σ
  handed : List WireRecord
  deriving DecidableEq

inductive LoopEnd where
  | dropped
  | threw
  deriving DecidableEq, Repr

inductive Round (σ : Type) where
  | next (s : ReplicationFollower σ) (chunks : List Bytes)
  | ended (s : ReplicationFollower σ) (e : LoopEnd)

namespace ReplicationFollower

variable {σ ε : Type} (apply : σ → WireRecord → Except ε σ)

/-- What is done with a payload: the follower and whether an exception leaves. -/
def handle (s : ReplicationFollower σ) (payload : Bytes) : ReplicationFollower σ × Bool :=
  match WireRecord.deserialize payload with
  | .threw => (s, true)
  | .refused => (s, false)
  | .record r =>
    match apply s.replica r with
    | .error _ => ({ s with handed := s.handed ++ [r] }, true)
    | .ok replica => (⟨replica, s.handed ++ [r]⟩, false)

def receiveFrame (s : ReplicationFollower σ) (chunks : List Bytes) : Round σ :=
  match readExact chunks 4 with
  | none => .ended s .dropped
  | some (len, chunks) =>
    if frameAccepted (ofLeBytes len) = false then .ended s .dropped
    else
      match readExact chunks (ofLeBytes len) with
      | none => .ended s .dropped
      | some (payload, chunks) =>
        if (s.handle apply payload).2 then .ended (s.handle apply payload).1 .threw
        else .next (s.handle apply payload).1 chunks

def receiveLoop : Nat → ReplicationFollower σ → List Bytes → Option (ReplicationFollower σ × LoopEnd)
  | 0, _, _ => none
  | fuel + 1, s, chunks =>
    match s.receiveFrame apply chunks with
    | .ended s e => some (s, e)
    | .next s chunks => receiveLoop fuel s chunks

def handleAll : ReplicationFollower σ → List Bytes → ReplicationFollower σ × LoopEnd
  | s, [] => (s, .dropped)
  | s, payload :: payloads =>
    if (s.handle apply payload).2 then ((s.handle apply payload).1, .threw)
    else handleAll (s.handle apply payload).1 payloads

variable {apply} {s : ReplicationFollower σ} {chunks : List Bytes}

theorem receiveFrame_of_none (h : decodeFrame (arrived chunks) = none) :
    s.receiveFrame apply chunks = .ended s .dropped := by
  rw [decodeFrame] at h
  by_cases h4 : (arrived chunks).length < 4
  · rw [receiveFrame, readExact_of_lt h4]
  · obtain ⟨chunks', hread, hrest⟩ := readExact_of_le (not_lt.mp h4)
    simp only [receiveFrame, hread]
    rw [if_neg h4] at h
    split_ifs at h with hacc hshort
    · rw [if_pos hacc]
    · rw [if_neg hacc, readExact_of_lt (by rwa [hrest])]

theorem receiveFrame_of_some (apply : σ → WireRecord → Except ε σ) (s : ReplicationFollower σ)
    {payload rest : Bytes} (h : decodeFrame (arrived chunks) = some (payload, rest)) :
    ∃ chunks', arrived chunks' = rest ∧
      s.receiveFrame apply chunks =
        if (s.handle apply payload).2 then .ended (s.handle apply payload).1 .threw
        else .next (s.handle apply payload).1 chunks' := by
  rw [decodeFrame] at h
  split_ifs at h with h4 hacc hshort
  obtain ⟨rfl, rfl⟩ := Prod.mk.inj (Option.some.inj h)
  obtain ⟨chunks₁, hlen, hrest⟩ := readExact_of_le (not_lt.mp h4)
  rw [← hrest] at hshort
  obtain ⟨chunks', hread, hrest'⟩ := readExact_of_le (not_lt.mp hshort)
  refine ⟨chunks', by rw [hrest', hrest], ?_⟩
  simp only [receiveFrame, hlen, if_neg hacc, hread, hrest]

theorem receiveLoop_eq {fuel : Nat} (hfuel : (arrived chunks).length < fuel) :
    receiveLoop apply fuel s chunks =
      some (s.handleAll apply (followerFraming.readAll (arrived chunks))) := by
  induction fuel generalizing s chunks with
  | zero => cases hfuel
  | succ fuel ih =>
    rw [receiveLoop]
    cases hd : decodeFrame (arrived chunks) with
    | none =>
      rw [receiveFrame_of_none hd, Framing.readAll_of_none hd]
      rfl
    | some p =>
      obtain ⟨payload, rest⟩ := p
      obtain ⟨chunks', hrest, hframe⟩ := receiveFrame_of_some apply s hd
      obtain ⟨-, harrived⟩ := of_decodeFrame _ _ _ hd
      have hlen : (arrived chunks').length < fuel := by
        have hpos := List.length_pos_iff.mpr (encodeFrame_ne_nil payload)
        rw [harrived, List.length_append] at hfuel
        rw [hrest]
        omega
      rw [hframe, Framing.readAll_of_some hd, handleAll]
      split_ifs
      · rfl
      · change receiveLoop apply fuel _ chunks' = _
        rw [ih hlen, hrest]

end ReplicationFollower

def recordOf (payload : Bytes) : Option WireRecord :=
  match WireRecord.deserialize payload with
  | .record r => some r
  | _ => none

namespace ReplicationFollower

section Handled

variable {σ ε : Type} (apply : σ → WireRecord → Except ε σ)

/-- Neither the decoder nor the replica throws on the payloads. -/
def Unthrown : σ → List Bytes → Prop
  | _, [] => True
  | replica, payload :: payloads =>
    match WireRecord.deserialize payload with
    | .threw => False
    | .refused => Unthrown replica payloads
    | .record r =>
      match apply replica r with
      | .error _ => False
      | .ok replica => Unthrown replica payloads

def upToThrow : ReplicationFollower σ → List Bytes → List Bytes
  | _, [] => []
  | s, payload :: payloads =>
    if (s.handle apply payload).2 then [payload]
    else payload :: upToThrow (s.handle apply payload).1 payloads

variable {apply} {s : ReplicationFollower σ}

theorem handle_handed (payload : Bytes) :
    (s.handle apply payload).1.handed = s.handed ++ (recordOf payload).toList := by
  rw [handle, recordOf]
  cases WireRecord.deserialize payload with
  | threw => simp
  | refused => simp
  | record r => cases happly : apply s.replica r <;> simp [happly]

theorem upToThrow_isPrefix (payloads : List Bytes) : s.upToThrow apply payloads <+: payloads := by
  induction payloads generalizing s with
  | nil => exact List.nil_prefix
  | cons payload payloads ih =>
    rw [upToThrow]
    split_ifs
    · exact List.prefix_append [payload] payloads
    · exact List.cons_prefix_cons.mpr ⟨rfl, ih⟩

theorem upToThrow_of_dropped {payloads : List Bytes}
    (h : (s.handleAll apply payloads).2 = .dropped) : s.upToThrow apply payloads = payloads := by
  induction payloads generalizing s with
  | nil => rfl
  | cons payload payloads ih =>
    rw [handleAll] at h
    rw [upToThrow]
    split_ifs at h ⊢
    rw [ih h]

theorem handleAll_handed (apply : σ → WireRecord → Except ε σ) (s : ReplicationFollower σ)
    (payloads : List Bytes) :
    (s.handleAll apply payloads).1.handed =
      s.handed ++ (s.upToThrow apply payloads).filterMap recordOf := by
  induction payloads generalizing s with
  | nil => simp [handleAll, upToThrow]
  | cons payload payloads ih =>
    have hsplit : ∀ rest, (payload :: rest).filterMap recordOf =
        (recordOf payload).toList ++ rest.filterMap recordOf := by
      intro rest
      cases h : recordOf payload <;> simp [h]
    rw [handleAll, upToThrow]
    split_ifs
    · rw [hsplit, handle_handed, List.filterMap_nil, List.append_nil]
    · rw [ih, hsplit, handle_handed, List.append_assoc]

theorem handleAll_dropped_iff (payloads : List Bytes) :
    (s.handleAll apply payloads).2 = .dropped ↔ Unthrown apply s.replica payloads := by
  induction payloads generalizing s with
  | nil => simp [handleAll, Unthrown]
  | cons payload payloads ih =>
    rw [handleAll, Unthrown, handle]
    cases WireRecord.deserialize payload with
    | threw => simp
    | refused => simpa using ih
    | record r =>
      cases happly : apply s.replica r with
      | error e => simp [happly]
      | ok replica =>
        simp only [happly, Bool.false_eq_true, if_false]
        exact ih

/-- For every stream, cut into any pieces, and every replica: the loop ends, with an exception
exactly when the decoder or the replica throws on one of the frames up to the first length that is not
accepted; the records of these frames, up to the one that throws, are handed to the replica in their
order, and without an exception those of all of them are. -/
theorem receiveLoop_frames (apply : σ → WireRecord → Except ε σ) (s : ReplicationFollower σ)
    (chunks : List Bytes) :
    ∃ s' e, (∀ fuel, (arrived chunks).length < fuel →
        receiveLoop apply fuel s chunks = some (s', e)) ∧
      (e = .dropped ↔ Unthrown apply s.replica (followerFraming.readAll (arrived chunks))) ∧
      s'.handed = s.handed ++
        (s.upToThrow apply (followerFraming.readAll (arrived chunks))).filterMap recordOf ∧
      (e = .dropped → s'.handed =
        s.handed ++ (followerFraming.readAll (arrived chunks)).filterMap recordOf) := by
  have hhanded := handleAll_handed apply s (followerFraming.readAll (arrived chunks))
  refine ⟨_, _, fun fuel hfuel => receiveLoop_eq hfuel, handleAll_dropped_iff _, hhanded, ?_⟩
  intro hdropped
  rw [hhanded, upToThrow_of_dropped hdropped]

end Handled

section Sample

def cutSchema : Bytes := RawRecord.encode (.createTable [116] [1, 0, 0])

def commitFrame : Bytes := encodeFrame (WireRecord.commit 7).serialize

def idleReplica : Unit → WireRecord → Except Unit Unit := fun _ _ => .ok ()

/-- A schema that was cut ends the loop with an exception, and a frame without bytes drops the
connection; the frame behind is not handed over. The frame alone is. -/
theorem receiveLoop_loses_frames :
    receiveLoop idleReplica 100 ⟨(), []⟩ [encodeFrame cutSchema ++ commitFrame] =
        some (⟨(), []⟩, .threw) ∧
      receiveLoop idleReplica 100 ⟨(), []⟩ [encodeFrame [] ++ commitFrame] =
        some (⟨(), []⟩, .dropped) ∧
      receiveLoop idleReplica 100 ⟨(), []⟩ [encodeFrame [9] ++ commitFrame] =
        some (⟨(), [.commit 7]⟩, .dropped) := by
  decide +kernel

end Sample

end ReplicationFollower

end CoroDB
