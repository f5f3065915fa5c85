import CoroDB.Framework.Word

/-!
# Input streams

A stream of bytes that is read in pieces of known width.
-/

namespace CoroDB.Framework

structure InputStream where
  rest : List UInt8
  failed : Bool
  deriving DecidableEq, Repr

namespace InputStream

def ofBytes (bs : List UInt8) : InputStream := ⟨bs, false⟩

def read (s : InputStream) (n : Nat) : List UInt8 × InputStream :=
  if s.failed then ([], s)
  else if n ≤ s.rest.length then (s.rest.take n, ofBytes (s.rest.drop n))
  else (s.rest, ⟨[], true⟩)

def readPadded (s : InputStream) (n : Nat) : List UInt8 × InputStream :=
  let r := s.read n
  (r.1 ++ List.replicate (n - r.1.length) 0, r.2)

def readWord (s : InputStream) (width : Nat) : Nat × InputStream :=
  let r := s.read width
  (ofLeBytes r.1, r.2)

theorem read_append {n : Nat} {bs : List UInt8} (h : bs.length = n) (rest : List UInt8) :
    (ofBytes (bs ++ rest)).read n = (bs, ofBytes rest) := by
  simp [read, ofBytes, ← h]

theorem readPadded_append {n : Nat} {bs : List UInt8} (h : bs.length = n) (rest : List UInt8) :
    (ofBytes (bs ++ rest)).readPadded n = (bs, ofBytes rest) := by
  simp [readPadded, read_append h, h]

theorem readWord_append {width n : Nat} (h : n < 256 ^ width) (rest : List UInt8) :
    (ofBytes (leBytes width n ++ rest)).readWord width = (n, ofBytes rest) := by
  simp [readWord, read_append (leBytes_length width n), ofLeBytes_leBytes, Nat.mod_eq_of_lt h]

theorem read_length_le (s : InputStream) (n : Nat) : (s.read n).1.length ≤ n := by
  rw [InputStream.read]
  split_ifs with hf hn
  · exact Nat.zero_le n
  · simp
  · exact (not_le.mp hn).le

theorem readPadded_length (s : InputStream) (n : Nat) : (s.readPadded n).1.length = n := by
  have hle := s.read_length_le n
  simp only [readPadded, List.length_append, List.length_replicate]
  omega

theorem readWord_lt (s : InputStream) (width : Nat) : (s.readWord width).1 < 256 ^ width :=
  (ofLeBytes_lt _).trans_le (Nat.pow_le_pow_right (by decide) (s.read_length_le width))

theorem readWord_of_le {n : Nat} {bs : List UInt8} (h : n ≤ bs.length) :
    (ofBytes bs).readWord n = (ofLeBytes (bs.take n), ofBytes (bs.drop n)) := by
  simp [readWord, read, ofBytes, h]

theorem readWord_of_lt {n : Nat} {bs : List UInt8} (h : bs.length < n) :
    (ofBytes bs).readWord n = (ofLeBytes bs, ⟨[], true⟩) := by
  simp [readWord, read, ofBytes, h.not_ge]

theorem readWord_failed (bs : List UInt8) (n : Nat) :
    (InputStream.mk bs true).readWord n = (0, ⟨bs, true⟩) := by
  simp [readWord, read, ofLeBytes]

theorem readPadded_failed (bs : List UInt8) (n : Nat) :
    (InputStream.mk bs true).readPadded n = (List.replicate n 0, ⟨bs, true⟩) := by
  simp [readPadded, read]

theorem readPadded_of_lt {n : Nat} {bs : List UInt8} (h : bs.length < n) :
    (ofBytes bs).readPadded n = (bs ++ List.replicate (n - bs.length) 0, ⟨[], true⟩) := by
  simp [readPadded, read, ofBytes, h.not_ge]

theorem readWord_take {width k : Nat} (h : k < width) (n : Nat) (rest : List UInt8) :
    (ofBytes ((leBytes width n ++ rest).take k)).readWord width = (n % 256 ^ k, ⟨[], true⟩) := by
  have hcut : (leBytes width n ++ rest).take k = leBytes k n := by
    rw [List.take_append_of_le_length (by simp [h.le]), take_leBytes h.le]
  rw [hcut, readWord_of_lt (by simp [h]), ofLeBytes_leBytes]

theorem readWord_take_of_le {width k : Nat} (h : width ≤ k) (n : Nat) (rest : List UInt8) :
    (ofBytes ((leBytes width n ++ rest).take k)).readWord width =
      (n % 256 ^ width, ofBytes (rest.take (k - width))) := by
  have hcut : (leBytes width n ++ rest).take k = leBytes width n ++ rest.take (k - width) := by
    rw [List.take_append, List.take_of_length_le (by simp [h]), leBytes_length]
  rw [hcut, readWord_of_le (by simp), List.take_left' (leBytes_length width n),
    List.drop_left' (leBytes_length width n), ofLeBytes_leBytes]

end InputStream

end CoroDB.Framework
