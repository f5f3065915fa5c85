import CoroDB.Framework.Run
import CoroDB.Replication.Follower

/-!
# The primary's replication hub

Writers hand their records to the hub, which puts the frame of each one into the outbox of every
client, and one sender for each client writes the frames of its outbox to the socket.
-/

namespace CoroDB

open Framework

/-- A client. Beside the source's fields stand what is left of the frame that its sender is writing,
the bytes that the socket has taken, whether the sender has returned, how many records had been
broadcast when the client was accepted, and how many of the later ones it was given. -/
structure HubClient where
  outbox : List Bytes := []
  alive : Bool := true
  sending : Bytes := []
  written : Bytes := []
  returned : Bool := false
  accepted : Option Nat := none
  taken : Nat := 0

inductive BroadcastPc where
  | idle
  | framed (r : WireRecord)
  | visiting
  | reaping

def BroadcastPc.waiting : BroadcastPc → List WireRecord
  | .framed r => [r]
  | _ => []

/-- The hub, with the broadcast that holds `clients_mutex` and the clients that it has still to go
through. `log` has the records in the order in which their broadcasts took the mutex, `called` the
records of each writer that got past the first check of `broadcast`, and `stopping` the clients that
`stop` has taken out of the list. -/
structure ReplicationHub (ι κ : Type) where
  running : Bool := true
  clients : List κ := []
  client : κ → HubClient := fun _ => {}
  holder : Option (ι × WireRecord) := none
  rest : List κ := []
  pc : ι → BroadcastPc := fun _ => .idle
  log : List (ι × WireRecord) := []
  called : ι → List WireRecord := fun _ => []
  stopping : List κ := []

/-- A sender takes a frame, writes some of its bytes, fails to write, or finds its client marked. -/
inductive SenderAction where
  | pop
  | write (n : Nat)
  | fail
  | leave

inductive HubAction (ι κ : Type) where
  | accept (c : κ)
  | broadcast (w : ι) (r : WireRecord)
  | lock (w : ι)
  | visit (skip : Bool)
  | unlock
  | reap (w : ι) (dead : List κ)
  | sender (c : κ) (a : SenderAction)
  | stop
  | takeClients
  | kill (c : κ)

/-- A step of `sender_loop`. -/
def HubClient.step (x : HubClient) : SenderAction → Option HubClient
  | .pop =>
    match x.sending, x.outbox with
    | [], frame :: outbox =>
      if x.returned then none else some { x with sending := frame, outbox := outbox }
    | _, _ => none
  | .write n =>
    if x.returned then none
    else some { x with written := x.written ++ x.sending.take n, sending := x.sending.drop n }
  | .fail =>
    if x.returned ∨ x.sending = [] then none else some { x with alive := false, returned := true }
  | .leave =>
    if x.alive ∨ x.sending ≠ [] then none else some { x with returned := true }

def HubClient.push (x : HubClient) (r : WireRecord) : HubClient :=
  { x with outbox := x.outbox ++ [encodeFrame r.serialize], taken := x.taken + 1 }

namespace ReplicationHub

variable {ι κ : Type} [DecidableEq ι] [DecidableEq κ]

def setClient (h : ReplicationHub ι κ) (c : κ) (x : HubClient) : ReplicationHub ι κ :=
  { h with client := Function.update h.client c x }

def setPc (h : ReplicationHub ι κ) (w : ι) (p : BroadcastPc) : ReplicationHub ι κ :=
  { h with pc := Function.update h.pc w p }

/-- One round of the loop of `broadcast`: a client that is found dead is skipped, and one that was
found alive is given the frame, even if it has died since. -/
def visit (h : ReplicationHub ι κ) (r : WireRecord) (c : κ) (rest : List κ) (skip : Bool) :
    Option (ReplicationHub ι κ) :=
  if skip then if (h.client c).alive then none else some { h with rest := rest }
  else some { h.setClient c ((h.client c).push r) with rest := rest }

/-- The steps of `broadcast`, `accept_loop`, `sender_loop`, `reap_dead_clients` and `stop`. A client
that dies while `reap_dead_clients` goes through the list may stay in it, and a sender may take more
frames after `stop` has marked its client. -/
def step (h : ReplicationHub ι κ) : HubAction ι κ → Option (ReplicationHub ι κ)
  | .accept c =>
    if h.holder.isSome ∨ (h.client c).accepted.isSome then none
    else some { h.setClient c { accepted := some h.log.length } with clients := h.clients ++ [c] }
  | .broadcast w r =>
    match h.pc w with
    | .idle =>
      if h.running = false ∨ h.clients = [] then some h
      else some { h.setPc w (.framed r) with called := Function.update h.called w (h.called w ++ [r]) }
    | _ => none
  | .lock w =>
    match h.holder, h.pc w with
    | none, .framed r =>
      some { h.setPc w .visiting with
        holder := some (w, r)
        rest := h.clients
        log := h.log ++ [(w, r)] }
    | _, _ => none
  | .visit skip =>
    match h.holder, h.rest with
    | some e, c :: rest => h.visit e.2 c rest skip
    | _, _ => none
  | .unlock =>
    match h.holder, h.rest with
    | some e, [] => some { h.setPc e.1 .reaping with holder := none }
    | _, _ => none
  | .reap w dead =>
    match h.holder, h.pc w with
    | none, .reaping =>
      if ∀ c ∈ dead, (h.client c).alive = false then
        some { h.setPc w .idle with clients := h.clients.filter (· ∉ dead) }
      else none
    | _, _ => none
  | .sender c a => ((h.client c).step a).map (h.setClient c)
  | .stop => some { h with running := false }
  | .takeClients =>
    if h.holder.isSome ∨ h.running then none
    else some { h with clients := [], stopping := h.stopping ++ h.clients }
  | .kill c =>
    if c ∈ h.stopping then some (h.setClient c { h.client c with alive := false }) else none

section Client

def framesOf (log : List (ι × WireRecord)) : Bytes :=
  followerFraming.encodeAll (log.map fun e => e.2.serialize)

/-- The client has written and is going to write the frames of the records that it was given, which
are the first ones since it was accepted. -/
structure Follows (x : HubClient) (log : List (ι × WireRecord)) (k : Nat) : Prop where
  bound : k + x.taken ≤ log.length
  written : x.written <+: framesOf ((log.drop k).take x.taken)
  stream : x.returned = false →
    x.written ++ x.sending ++ x.outbox.flatten = framesOf ((log.drop k).take x.taken)

omit [DecidableEq ι]

variable {x x' : HubClient} {log : List (ι × WireRecord)} {k : Nat}

theorem Follows.of_stream (hf : Follows x log k) (hr : x.returned = false) (ht : x'.taken = x.taken)
    (hs : x'.written ++ x'.sending ++ x'.outbox.flatten =
      x.written ++ x.sending ++ x.outbox.flatten) : Follows x' log k := by
  rw [hf.stream hr] at hs
  refine ⟨ht ▸ hf.bound, ?_, fun _ => ht ▸ hs⟩
  rw [ht, ← hs, List.append_assoc]
  exact List.prefix_append _ _

theorem Follows.append (hf : Follows x log k) (e : ι × WireRecord) : Follows x (log ++ [e]) k := by
  have htake : ((log ++ [e]).drop k).take x.taken = (log.drop k).take x.taken := by
    have hbound := hf.bound
    rw [List.drop_append_of_le_length (by omega),
      List.take_append_of_le_length (by rw [List.length_drop]; omega)]
  refine ⟨?_, htake ▸ hf.written, fun h => htake ▸ hf.stream h⟩
  rw [List.length_append]
  exact hf.bound.trans (Nat.le_add_right _ _)

theorem Follows.push {w : ι} {r : WireRecord} (hf : Follows x log k)
    (hroom : k + x.taken + 1 ≤ log.length)
    (hlast : x.returned = false → k + x.taken + 1 = log.length)
    (hr : log.getLast? = some (w, r)) : Follows (x.push r) log k := by
  have hgrow : (log.drop k).take (x.taken + 1) =
      (log.drop k).take x.taken ++ ((log.drop k)[x.taken]?).toList := List.take_add_one ..
  have hframes : framesOf ((log.drop k).take (x.taken + 1)) =
      framesOf ((log.drop k).take x.taken) ++ framesOf ((log.drop k)[x.taken]?).toList := by
    rw [hgrow, framesOf, List.map_append, Framing.encodeAll_append]
    rfl
  refine ⟨hroom, ?_, fun h => ?_⟩
  · exact hframes ▸ hf.written.trans (List.prefix_append _ _)
  · have hget : (log.drop k)[x.taken]? = some (w, r) := by
      rw [List.getElem?_drop, ← hr, List.getLast?_eq_getElem?, ← hlast h, Nat.add_sub_cancel]
    change x.written ++ x.sending ++ (x.outbox ++ [encodeFrame r.serialize]).flatten = _
    rw [show (x.push r).taken = x.taken + 1 from rfl, hframes, hget, ← hf.stream h]
    simp [framesOf, followerFraming]

/-- What a step of the sender makes of its client. -/
structure Later (x x' : HubClient) : Prop where
  accepted : x'.accepted = x.accepted
  taken : x'.taken = x.taken
  returned : x'.returned = false → x.returned = false
  alive : x'.returned = false → x'.alive = x.alive
  follows : ∀ (log : List (ι × WireRecord)) k, Follows x log k → Follows x' log k

theorem later_step {a : SenderAction} (h : x.step a = some x') : Later (ι := ι) x x' := by
  cases a with
  | pop =>
    rw [HubClient.step] at h
    split at h
    · rename_i frame outbox hsending houtbox
      split_ifs at h with hr
      obtain rfl := Option.some.inj h
      rw [Bool.not_eq_true] at hr
      exact ⟨rfl, rfl, id, fun _ => rfl, fun log k hf =>
        hf.of_stream hr rfl (by simp [hsending, houtbox])⟩
    · cases h
  | write n =>
    rw [HubClient.step] at h
    split_ifs at h with hr
    obtain rfl := Option.some.inj h
    rw [Bool.not_eq_true] at hr
    exact ⟨rfl, rfl, id, fun _ => rfl, fun log k hf => hf.of_stream hr rfl (by simp)⟩
  | fail | leave =>
    rw [HubClient.step] at h
    split_ifs at h
    obtain rfl := Option.some.inj h
    exact ⟨rfl, rfl, by simp, by simp, fun log k hf => ⟨hf.bound, hf.written, by simp⟩⟩

end Client

section Invariant

/-- Every client follows the log, those in the list up to the record that is being given to them, and
the log has the records of each writer in the order of its calls, up to the one that waits. -/
structure Inv (h : ReplicationHub ι κ) : Prop where
  nodup : h.clients.Nodup
  known : ∀ c ∈ h.clients ++ h.stopping, (h.client c).accepted ≠ none
  stopped : ∀ c ∈ h.stopping, c ∉ h.clients
  gone : ∀ c ∈ h.clients, (h.client c).alive = false → (h.client c).returned = true
  rest_nodup : h.rest.Nodup
  rest_subset : ∀ c ∈ h.rest, c ∈ h.clients
  rest_nil : h.holder = none → h.rest = []
  latest : ∀ e, h.holder = some e → h.log.getLast? = some e ∧ h.pc e.1 = .visiting
  follows : ∀ c k, (h.client c).accepted = some k → Follows (h.client c) h.log k
  room : ∀ c ∈ h.rest, ∀ k, (h.client c).accepted = some k →
    k + (h.client c).taken + 1 ≤ h.log.length
  given : ∀ c ∈ h.clients, ∀ k, (h.client c).accepted = some k → (h.client c).returned = false →
    k + (h.client c).taken + (if c ∈ h.rest then 1 else 0) = h.log.length
  calls : ∀ w, (h.log.filter (·.1 = w)).map Prod.snd ++ (h.pc w).waiting = h.called w

theorem inv_start : Inv ({} : ReplicationHub ι κ) := by
  constructor <;> simp [BroadcastPc.waiting]

namespace Inv

variable {h : ReplicationHub ι κ} {c : κ} {x : HubClient} {w : ι} {r : WireRecord}

theorem sender (hi : h.Inv) (hx : Later (ι := ι) (h.client c) x) : (h.setClient c x).Inv := by
  obtain ⟨haccepted, htaken, hreturned, halive, hlater⟩ := hx
  cases hi
  constructor <;> simp only [ReplicationHub.setClient, Function.update_apply] <;> grind

theorem accept (hi : h.Inv) (hholder : h.holder = none) (hnew : (h.client c).accepted = none) :
    Inv { h.setClient c { accepted := some h.log.length } with clients := h.clients ++ [c] } := by
  have hfollows : Follows { accepted := some h.log.length } h.log h.log.length :=
    ⟨le_rfl, List.nil_prefix, fun _ => by simp [framesOf]⟩
  cases hi
  constructor <;> simp only [ReplicationHub.setClient, Function.update_apply] <;> grind

theorem broadcast (hi : h.Inv) (hpc : h.pc w = .idle) :
    Inv { h.setPc w (.framed r) with
      called := Function.update h.called w (h.called w ++ [r]) } := by
  cases hi
  constructor <;> simp only [setPc, Function.update_apply] <;> grind [BroadcastPc.waiting]

theorem lock (hi : h.Inv) (hholder : h.holder = none) (hpc : h.pc w = .framed r) :
    Inv { h.setPc w .visiting with
      holder := some (w, r)
      rest := h.clients
      log := h.log ++ [(w, r)] } := by
  have hempty := hi.rest_nil hholder
  have hbound : ∀ c k, (h.client c).accepted = some k → k + (h.client c).taken ≤ h.log.length :=
    fun c k hk => (hi.follows c k hk).bound
  have happend : ∀ c k, (h.client c).accepted = some k →
      Follows (h.client c) (h.log ++ [(w, r)]) k := fun c k hk => (hi.follows c k hk).append (w, r)
  cases hi
  constructor <;> simp only [setPc, Function.update_apply] <;> grind [BroadcastPc.waiting]

theorem skip (hi : h.Inv) {rest : List κ} (hrest : h.rest = c :: rest)
    (hdead : (h.client c).alive = false) : Inv { h with rest := rest } := by
  cases hi
  constructor <;> grind

theorem push (hi : h.Inv) {rest : List κ} (hrest : h.rest = c :: rest) {e : ι × WireRecord}
    (hholder : h.holder = some e) :
    Inv { h.setClient c ((h.client c).push e.2) with rest := rest } := by
  have hpush : ∀ k, (h.client c).accepted = some k →
      Follows ((h.client c).push e.2) h.log k := by
    intro k hk
    have hc : c ∈ h.rest := by simp [hrest]
    refine (hi.follows c k hk).push (hi.room c hc k hk) (fun hr => ?_) (hi.latest e hholder).1
    simpa [hc] using hi.given c (hi.rest_subset c hc) k hk hr
  cases hi
  constructor <;> simp only [ReplicationHub.setClient, Function.update_apply] <;>
    grind [HubClient.push]

theorem unlock (hi : h.Inv) {e : ι × WireRecord} (hholder : h.holder = some e)
    (hrest : h.rest = []) : Inv { h.setPc e.1 .reaping with holder := none } := by
  cases hi
  constructor <;> simp only [setPc, Function.update_apply] <;> grind [BroadcastPc.waiting]

theorem reap (hi : h.Inv) (hholder : h.holder = none) (hpc : h.pc w = .reaping) (dead : List κ) :
    Inv { h.setPc w .idle with clients := h.clients.filter (· ∉ dead) } := by
  have hnodup := hi.nodup.filter (· ∉ dead)
  have hempty := hi.rest_nil hholder
  cases hi
  constructor <;> simp only [setPc, Function.update_apply] <;> grind [BroadcastPc.waiting]

theorem takeClients (hi : h.Inv) (hholder : h.holder = none) :
    Inv { h with clients := [], stopping := h.stopping ++ h.clients } := by
  have hempty := hi.rest_nil hholder
  cases hi
  constructor <;> grind

theorem kill (hi : h.Inv) (hc : c ∈ h.stopping) :
    (h.setClient c { h.client c with alive := false }).Inv := by
  have hfollows : ∀ k, (h.client c).accepted = some k →
      Follows { h.client c with alive := false } h.log k :=
    fun k hk => ⟨(hi.follows c k hk).bound, (hi.follows c k hk).written, (hi.follows c k hk).stream⟩
  cases hi
  constructor <;> simp only [ReplicationHub.setClient, Function.update_apply] <;> grind

theorem step {h' : ReplicationHub ι κ} {a : HubAction ι κ} (hi : h.Inv) (ha : h.step a = some h') :
    h'.Inv := by
  cases a with
  | sender c a =>
    obtain ⟨x, hx, rfl⟩ := Option.map_eq_some_iff.mp ha
    exact hi.sender (later_step hx)
  | stop =>
    obtain rfl := Option.some.inj ha
    exact { hi with }
  | accept c =>
    rw [ReplicationHub.step] at ha
    split_ifs at ha with hc
    obtain rfl := Option.some.inj ha
    simp only [not_or, Option.isSome_iff_ne_none, not_not] at hc
    exact hi.accept hc.1 hc.2
  | takeClients =>
    rw [ReplicationHub.step] at ha
    split_ifs at ha with hc
    obtain rfl := Option.some.inj ha
    simp only [not_or, Option.isSome_iff_ne_none, not_not] at hc
    exact hi.takeClients hc.1
  | kill c =>
    rw [ReplicationHub.step] at ha
    split_ifs at ha with hc
    obtain rfl := Option.some.inj ha
    exact hi.kill hc
  | broadcast w r =>
    rw [ReplicationHub.step] at ha
    split at ha
    · rename_i hpc
      split_ifs at ha <;> obtain rfl := Option.some.inj ha
      · exact hi
      · exact hi.broadcast hpc
    · cases ha
  | lock w =>
    rw [ReplicationHub.step] at ha
    split at ha
    · rename_i r hholder hpc
      obtain rfl := Option.some.inj ha
      exact hi.lock hholder hpc
    · cases ha
  | visit skip =>
    rw [ReplicationHub.step] at ha
    split at ha
    · rename_i e c rest hholder hrest
      rw [ReplicationHub.visit] at ha
      split_ifs at ha with hskip halive <;> obtain rfl := Option.some.inj ha
      · exact hi.skip hrest (by simpa using halive)
      · exact hi.push hrest hholder
    · cases ha
  | unlock =>
    rw [ReplicationHub.step] at ha
    split at ha
    · rename_i e hholder hrest
      obtain rfl := Option.some.inj ha
      exact hi.unlock hholder hrest
    · cases ha
  | reap w dead =>
    rw [ReplicationHub.step] at ha
    split at ha
    · rename_i hholder hpc
      split_ifs at ha
      obtain rfl := Option.some.inj ha
      exact hi.reap hholder hpc dead
    · cases ha

end Inv

end Invariant

section Delivery

variable {σ ε : Type}

/-- The follower takes the frame of the record and reads the record back. -/
structure Sendable (r : WireRecord) : Prop where
  fits : r.Fits
  row : r.rowWire.length < 2 ^ 32
  frame : frameAccepted r.serialize.length = true

/-- The client is in the list and its sender has nothing left to write. -/
structure Settled (h : ReplicationHub ι κ) (c : κ) : Prop where
  listed : c ∈ h.clients
  given : c ∉ h.rest
  running : (h.client c).returned = false
  sent : (h.client c).sending = [] ∧ (h.client c).outbox = []

omit [DecidableEq ι] in
theorem readAll_frames {log : List (ι × WireRecord)} (h : ∀ e ∈ log, Sendable e.2) {bs : Bytes}
    (hbs : bs <+: framesOf log) :
    (followerFraming.readAll bs).filterMap recordOf <+: log.map Prod.snd ∧
      (bs = framesOf log → (followerFraming.readAll bs).filterMap recordOf = log.map Prod.snd) := by
  have hfits : ∀ p ∈ log.map fun e => e.2.serialize, followerFraming.Fits p := by
    intro p hp
    obtain ⟨e, he, rfl⟩ := List.mem_map.mp hp
    exact (h e he).frame
  have hrecords : (log.map fun e => e.2.serialize).filterMap recordOf = log.map Prod.snd := by
    rw [List.filterMap_map, ← List.filterMap_eq_map]
    apply List.filterMap_congr
    intro e he
    simp [recordOf, ((h e he).fits.faithful (h e he).row).roundTrip]
  rw [← hrecords]
  constructor
  · rw [List.prefix_iff_eq_take.mp hbs, framesOf, Framing.readAll_take hfits]
    exact (Framing.wholeIn_isPrefix _ _).filterMap _
  · rintro rfl
    rw [framesOf, Framing.readAll_eq_iff.mpr ⟨hfits, [], by simp, Framing.decode_nil⟩]

/-- In every interleaving of writers, senders, new clients and `stop`, and however the stream of a
client is cut: the records that its follower hands to the replica are the first ones of those
broadcast since the client was accepted, and all of them when the client is settled and no exception
ends the loop. Each writer's records are broadcast in the order of its calls. -/
theorem handed_inOrder {as : List (HubAction ι κ)} {h : ReplicationHub ι κ}
    (hrun : run step {} as = some h) (hsend : ∀ e ∈ h.log, Sendable e.2) {c : κ} {k : Nat}
    (hc : (h.client c).accepted = some k) {chunks : List Bytes}
    (harrived : arrived chunks <+: (h.client c).written)
    (apply : σ → WireRecord → Except ε σ) (replica : σ) :
    ∃ f e, (∀ fuel, (arrived chunks).length < fuel →
        ReplicationFollower.receiveLoop apply fuel ⟨replica, []⟩ chunks = some (f, e)) ∧
      f.handed <+: (h.log.drop k).map Prod.snd ∧
      (h.Settled c → arrived chunks = (h.client c).written → e = .dropped →
        f.handed = (h.log.drop k).map Prod.snd) ∧
      ∀ w, (h.log.filter (·.1 = w)).map Prod.snd <+: h.called w := by
  have hi : h.Inv := run_invariant (fun _ _ _ hi ha => hi.step ha) inv_start hrun
  have hf := hi.follows c k hc
  have hgiven : ∀ e ∈ (h.log.drop k).take (h.client c).taken, Sendable e.2 :=
    fun e he => hsend e (List.mem_of_mem_drop (List.mem_of_mem_take he))
  obtain ⟨hfront, hall⟩ := readAll_frames hgiven (harrived.trans hf.written)
  have hhanded := ReplicationFollower.handleAll_handed apply ⟨replica, []⟩
    (followerFraming.readAll (arrived chunks))
  refine ⟨_, _, fun fuel hfuel => ReplicationFollower.receiveLoop_eq hfuel, ?_, ?_, fun w => ?_⟩
  · rw [hhanded]
    exact ((ReplicationFollower.upToThrow_isPrefix _).filterMap _).trans
      (hfront.trans ((List.take_prefix _ _).map _))
  · intro hs heq hend
    have hstream := hf.stream hs.running
    have htaken := hi.given c hs.listed k hc hs.running
    rw [hs.sent.1, hs.sent.2, List.append_nil, List.flatten_nil, List.append_nil] at hstream
    rw [if_neg hs.given, Nat.add_zero] at htaken
    rw [hhanded, ReplicationFollower.upToThrow_of_dropped hend, List.nil_append,
      hall (heq.trans hstream), List.take_of_length_le]
    rw [List.length_drop]
    omega
  · rw [← hi.calls w]
    exact List.prefix_append _ _

/-- Two writers, and a client that is accepted behind the first record. -/
def twoWriters : List (HubAction Bool Bool) :=
  [.accept false, .broadcast false (.commit 5), .lock false, .visit false, .unlock, .reap false [],
    .accept true, .broadcast false (.commit 7), .broadcast true (.commit 8), .lock true, .visit false,
    .visit false, .unlock, .lock false, .visit false, .visit false, .unlock, .sender true .pop,
    .sender true (.write 13), .sender true .pop, .sender true (.write 4), .sender true (.write 9)]

def twoFrames : Bytes := encodeFrame (WireRecord.commit 8).serialize ++ ReplicationFollower.commitFrame

theorem sendable_commit (ts : UInt64) : Sendable (.commit ts) :=
  ⟨⟨Nat.two_pow_pos 8, trivial⟩, Nat.two_pow_pos 32, rfl⟩

theorem handed_twoWriters : ∃ h : ReplicationHub Bool Bool, run step {} twoWriters = some h ∧
    ∃ f e, (∀ fuel, 26 < fuel → ReplicationFollower.receiveLoop ReplicationFollower.idleReplica fuel
        ⟨(), []⟩ [(h.client true).written.take 20, (h.client true).written.drop 20] = some (f, e)) ∧
      (e = .dropped → f.handed = [.commit 8, .commit 7]) := by
  have hrun : run step {} twoWriters = some _ := rfl
  have hsend : ∀ e ∈ [(false, .commit 5), (true, .commit 8), (false, .commit 7)], Sendable e.2 := by
    simp [sendable_commit]
  obtain ⟨f, e, hloop, -, hall, -⟩ := handed_inOrder (c := true) (k := 1) hrun hsend rfl
    (List.prefix_refl (arrived [twoFrames.take 20, twoFrames.drop 20]))
    ReplicationFollower.idleReplica ()
  exact ⟨_, hrun, f, e, hloop,
    hall ⟨by decide, List.not_mem_nil, rfl, rfl, rfl⟩ rfl⟩

end Delivery

end ReplicationHub

end CoroDB
