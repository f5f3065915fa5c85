import Mathlib

/-!
# Streams that are taken in blocks

Data comes in pieces of any length and is compressed in blocks of a fixed length, with a buffer for
what does not yet fill a block.
-/

namespace CoroDB.Framework

structure BlockStream (σ α : Type) (n : Nat) where
  state : σ
  buf : List α
  short : buf.length < n

namespace BlockStream

variable {σ α : Type} {n : Nat} (compress : σ → List α → σ)

def fill (s : BlockStream σ α n) (data : List α) : BlockStream σ α n :=
  if h : (s.buf ++ data.take (n - s.buf.length)).length < n then
    ⟨s.state, s.buf ++ data.take (n - s.buf.length), h⟩
  else ⟨compress s.state (s.buf ++ data.take (n - s.buf.length)), [], Nat.zero_lt_of_lt s.short⟩

/-- The loop over the data; a round takes what the buffer has room for. -/
def absorb : Nat → BlockStream σ α n → List α → BlockStream σ α n
  | 0, s, _ => s
  | fuel + 1, s, data =>
    if data = [] then s else absorb fuel (s.fill compress data) (data.drop (n - s.buf.length))

def update (s : BlockStream σ α n) (data : List α) : BlockStream σ α n :=
  absorb compress data.length s data

/-- The data so far: whole blocks that were compressed in order, and the buffer. -/
structure Absorbed (init : σ) (total : List α) (s : BlockStream σ α n) (blocks : List (List α)) :
    Prop where
  whole : ∀ b ∈ blocks, b.length = n
  total_eq : total = blocks.flatten ++ s.buf
  state_eq : s.state = blocks.foldl compress init

variable {compress} {init : σ} {s : BlockStream σ α n} {total : List α} {blocks : List (List α)}

theorem Absorbed.fill (h : Absorbed compress init total s blocks) (data : List α) :
    ∃ blocks', Absorbed compress init (total ++ data.take (n - s.buf.length)) (s.fill compress data)
      blocks' := by
  rw [BlockStream.fill]
  split_ifs with hshort
  · refine ⟨blocks, h.whole, ?_, h.state_eq⟩
    rw [h.total_eq, List.append_assoc]
  · have hfull : (s.buf ++ data.take (n - s.buf.length)).length = n := by
      have hs := s.short
      rw [List.length_append, List.length_take] at hshort ⊢
      omega
    refine ⟨blocks ++ [s.buf ++ data.take (n - s.buf.length)], ?_, ?_, ?_⟩
    · intro b hb
      rcases List.mem_append.mp hb with hb | hb
      · exact h.whole b hb
      · rw [List.mem_singleton.mp hb, hfull]
    · simp [h.total_eq]
    · simp [h.state_eq]

theorem Absorbed.absorb {fuel : Nat} {data : List α} (h : Absorbed compress init total s blocks)
    (hfuel : data.length ≤ fuel) :
    ∃ blocks', Absorbed compress init (total ++ data) (absorb compress fuel s data) blocks' := by
  induction fuel generalizing s total blocks data with
  | zero =>
    rw [List.eq_nil_of_length_eq_zero (Nat.le_zero.mp hfuel), List.append_nil]
    exact ⟨blocks, h⟩
  | succ fuel ih =>
    rw [BlockStream.absorb]
    split_ifs with hnil
    · rw [hnil, List.append_nil]
      exact ⟨blocks, h⟩
    · obtain ⟨blocks', h'⟩ := h.fill data
      have hs := s.short
      have hpos := List.length_pos_of_ne_nil hnil
      have hrest : (data.drop (n - s.buf.length)).length ≤ fuel := by
        rw [List.length_drop]
        omega
      obtain ⟨blocks'', h''⟩ := ih h' hrest
      rw [List.append_assoc, List.take_append_drop] at h''
      exact ⟨blocks'', h''⟩

theorem Absorbed.update (h : Absorbed compress init total s blocks) (data : List α) :
    ∃ blocks', Absorbed compress init (total ++ data) (s.update compress data) blocks' :=
  h.absorb (le_refl _)

theorem length_flatten_whole (hwhole : ∀ b ∈ blocks, b.length = n) :
    blocks.flatten.length = n * blocks.length := by
  rw [List.length_flatten, List.map_congr_left hwhole]
  simp [Nat.mul_comm]

theorem Absorbed.length_buf (h : Absorbed compress init total s blocks) :
    s.buf.length = total.length % n := by
  rw [h.total_eq, List.length_append, length_flatten_whole h.whole, Nat.mul_add_mod,
    Nat.mod_eq_of_lt s.short]

def blocksOf (n : Nat) (total : List α) : List (List α) :=
  (List.range (total.length / n)).map fun i => (total.drop (n * i)).take n

theorem flatten_drop_take {i : Nat} (hwhole : ∀ b ∈ blocks, b.length = n) (hi : i < blocks.length) :
    (blocks.flatten.drop (n * i)).take n = blocks[i] := by
  induction blocks generalizing i with
  | nil => simp at hi
  | cons b blocks ih =>
    obtain ⟨hb, hwhole⟩ := List.forall_mem_cons.mp hwhole
    cases i with
    | zero => simp [← hb]
    | succ i =>
      rw [List.flatten_cons, Nat.mul_succ, Nat.add_comm, ← List.drop_drop, ← hb, List.drop_left, hb]
      exact ih hwhole (Nat.lt_of_succ_lt_succ hi)

theorem blocksOf_flatten (hn : 0 < n) (hwhole : ∀ b ∈ blocks, b.length = n) :
    blocksOf n blocks.flatten = blocks := by
  have hlength : blocks.flatten.length / n = blocks.length := by
    rw [length_flatten_whole hwhole, Nat.mul_div_cancel_left _ hn]
  apply List.ext_getElem
  · rw [blocksOf, List.length_map, List.length_range, hlength]
  · intro i hi hi'
    simp only [blocksOf, List.getElem_map, List.getElem_range]
    exact flatten_drop_take hwhole hi'

theorem Absorbed.state_of_whole (h : Absorbed compress init total s blocks)
    (htotal : total.length % n = 0) : s.state = (blocksOf n total).foldl compress init := by
  have hnil : s.buf = [] := List.eq_nil_of_length_eq_zero (h.length_buf.trans htotal)
  have htotal := h.total_eq
  rw [hnil, List.append_nil] at htotal
  rw [h.state_eq, htotal, blocksOf_flatten (Nat.zero_lt_of_lt s.short) h.whole]

end BlockStream

end CoroDB.Framework
