import CoroDB.Framework.Framing
import CoroDB.Storage.Value

/-!
# The write-ahead log file

`WalWriter` puts a magic number in front of a new file and appends records of type, length, checksum
and payload; `wal_read_records` reads up to the first damage.
-/

namespace CoroDB

open Framework

def walMagic : Bytes := leBytes 4 0x57414c31

structure WalRecord where
  type : UInt8
  payload : Bytes
  deriving DecidableEq, Repr

def computePayloadChecksum (payload : Bytes) : UInt32 :=
  payload.foldl (fun hash c => (hash ^^^ c.toUInt32) * 16777619) 2166136261

def encodeWalRecord (r : WalRecord) : Bytes :=
  r.type :: (leBytes 4 r.payload.length ++
    (leBytes 4 (computePayloadChecksum r.payload).toNat ++ r.payload))

/-- One round of the reading loop: nothing at the end of the file, for a short header, for a
length beyond the end and for a wrong checksum. -/
def decodeWalRecord : Bytes → Option (WalRecord × Bytes)
  | [] => none
  | type :: bytes =>
    if bytes.length < 8 then none
    else
      let len := ofLeBytes (bytes.take 4)
      let checksum := ofLeBytes ((bytes.drop 4).take 4)
      let rest := bytes.drop 8
      if rest.length < len then none
      else if (computePayloadChecksum (rest.take len)).toNat ≠ checksum then none
      else some (⟨type, rest.take len⟩, rest.drop len)

def WalRecord.Fits (r : WalRecord) : Prop := r.payload.length < 2 ^ 32

instance (r : WalRecord) : Decidable r.Fits := inferInstanceAs (Decidable (_ < _))

private theorem leBytes_four_ofLeBytes {bs : Bytes} (h : bs.length = 4) :
    leBytes 4 (ofLeBytes bs) = bs := by
  have := leBytes_ofLeBytes bs
  rwa [h] at this

theorem decodeWalRecord_encode (r : WalRecord) (rest : Bytes) (h : r.Fits) :
    decodeWalRecord (encodeWalRecord r ++ rest) = some (r, rest) := by
  have hlen : ofLeBytes (leBytes 4 r.payload.length) = r.payload.length := by
    rw [ofLeBytes_leBytes]
    exact Nat.mod_eq_of_lt h
  have hsum : ofLeBytes (leBytes 4 (computePayloadChecksum r.payload).toNat) =
      (computePayloadChecksum r.payload).toNat := by
    rw [ofLeBytes_leBytes]
    exact Nat.mod_eq_of_lt (computePayloadChecksum r.payload).toNat_lt
  have htake : ∀ n (bs : Bytes), (leBytes 4 n ++ bs).take 4 = leBytes 4 n :=
    fun n bs => List.take_left' (leBytes_length 4 n)
  have hdrop : ∀ n (bs : Bytes), (leBytes 4 n ++ bs).drop 4 = bs :=
    fun n bs => List.drop_left' (leBytes_length 4 n)
  have hdrop8 : ∀ bs : Bytes, bs.drop 8 = (bs.drop 4).drop 4 := fun bs => by simp
  simp only [encodeWalRecord, List.cons_append, List.append_assoc, decodeWalRecord, hdrop8, htake,
    hdrop, hlen, hsum]
  rw [if_neg (by simp only [List.length_append, leBytes_length]; omega),
    if_neg (by simp only [List.length_append]; omega), List.take_left, List.drop_left,
    if_neg (not_not.mpr rfl)]

theorem of_decodeWalRecord (bs : Bytes) (r : WalRecord) (rest : Bytes)
    (h : decodeWalRecord bs = some (r, rest)) : r.Fits ∧ bs = encodeWalRecord r ++ rest := by
  cases bs with
  | nil => simp [decodeWalRecord] at h
  | cons type bytes =>
    simp only [decodeWalRecord] at h
    split_ifs at h with hshort hbeyond hsum
    obtain ⟨rfl, rfl⟩ := Prod.mk.inj (Option.some.inj h)
    have hlen4 : (bytes.take 4).length = 4 := by simp only [List.length_take]; omega
    have hsum4 : ((bytes.drop 4).take 4).length = 4 := by
      simp only [List.length_take, List.length_drop]; omega
    have hpayload : ((bytes.drop 8).take (ofLeBytes (bytes.take 4))).length =
        ofLeBytes (bytes.take 4) := by
      rw [List.length_take]
      omega
    constructor
    · have := ofLeBytes_lt (bytes.take 4)
      rw [hlen4] at this
      change ((bytes.drop 8).take (ofLeBytes (bytes.take 4))).length < 2 ^ 32
      rw [hpayload]
      exact this
    · simp only [encodeWalRecord, hpayload, not_not.mp hsum, leBytes_four_ofLeBytes hlen4,
        leBytes_four_ofLeBytes hsum4, List.cons_append, List.append_assoc,
        List.take_append_drop, List.cons.injEq, true_and]
      rw [show bytes.drop 8 = (bytes.drop 4).drop 4 by simp, List.take_append_drop,
        List.take_append_drop]

/-- The records of a log file, behind its magic number. -/
def walFraming : Framing WalRecord UInt8 where
  encode := encodeWalRecord
  decode := decodeWalRecord
  Fits := WalRecord.Fits
  decode_encode := decodeWalRecord_encode
  of_decode := of_decodeWalRecord
  encode_ne_nil := fun _ => List.cons_ne_nil _ _

/-- The bytes of a file after `WalWriter` has opened it; a new file gets the magic number. -/
def openWal : Option Bytes → Bytes
  | none => walMagic
  | some file => file

def appendWal (file : Bytes) (rs : List WalRecord) : Bytes :=
  rs.foldl (fun file r => file ++ encodeWalRecord r) file

def walReadRecords (file : Bytes) : List WalRecord :=
  if file.take 4 = walMagic then walFraming.readAll (file.drop 4) else []

theorem walReadRecords_magic_append (bs : Bytes) :
    walReadRecords (walMagic ++ bs) = walFraming.readAll bs := by
  have hmagic : walMagic.length = 4 := rfl
  rw [walReadRecords, List.take_left' hmagic, List.drop_left' hmagic, if_pos rfl]

/-- The log after a crash that cut it behind `k` bytes, and the records of a second writer. -/
def resumedWal (rs : List WalRecord) (k : Nat) (rs₂ : List WalRecord) : Bytes :=
  appendWal (openWal (some ((appendWal (openWal none) rs).take k))) rs₂

/-- The records of a log that lie wholly in the first `k` bytes of its file. -/
def wholeRecords (rs : List WalRecord) (k : Nat) : List WalRecord :=
  if k < 4 then [] else walFraming.wholeIn (k - 4) rs

theorem appendWal_eq (file : Bytes) (rs : List WalRecord) :
    appendWal file rs = file ++ walFraming.encodeAll rs := by
  induction rs generalizing file with
  | nil => simp [appendWal]
  | cons r rs ih =>
    rw [appendWal, List.foldl_cons, ← appendWal, ih, List.append_assoc]
    rfl

private theorem take_walMagic_append {k : Nat} (hk : 4 ≤ k) (bs : Bytes) :
    (walMagic ++ bs).take k = walMagic ++ bs.take (k - 4) := by
  have hmagic : walMagic.length = 4 := rfl
  rw [List.take_append, List.take_of_length_le (by omega), hmagic]

theorem walReadRecords_take {rs : List WalRecord} (hfits : ∀ r ∈ rs, r.Fits) (k : Nat) :
    walReadRecords ((appendWal (openWal none) rs).take k) = wholeRecords rs k := by
  have hmagic : walMagic.length = 4 := rfl
  rw [appendWal_eq, openWal, walReadRecords, wholeRecords]
  by_cases hk : k < 4
  · rw [if_pos hk, if_neg]
    intro hfront
    have := congrArg List.length hfront
    simp only [List.length_take, hmagic] at this
    omega
  · rw [if_neg hk, take_walMagic_append (not_lt.mp hk), ← walReadRecords,
      walReadRecords_magic_append]
    exact Framing.readAll_take hfits (k - 4)

/-- Reading a new log that was cut gives its records up to the first one that is not wholly in front
of the cut, so all of them when nothing was cut off. -/
theorem walReadRecords_cut {rs : List WalRecord} (hfits : ∀ r ∈ rs, r.Fits) (k : Nat) :
    ∃ n ≤ rs.length, walReadRecords ((appendWal (openWal none) rs).take k) = rs.take n ∧
      (∀ i < rs.length, i < n ↔ (appendWal (openWal none) (rs.take (i + 1))).length ≤ k) ∧
      ((appendWal (openWal none) rs).length ≤ k → n = rs.length) := by
  have hprefix : wholeRecords rs k <+: rs := by
    rw [wholeRecords]
    split_ifs
    · exact List.nil_prefix
    · exact Framing.wholeIn_isPrefix _ rs
  have hlength : ∀ i < rs.length,
      i < (wholeRecords rs k).length ↔ (appendWal (openWal none) (rs.take (i + 1))).length ≤ k := by
    intro i hi
    have hmagic : walMagic.length = 4 := rfl
    rw [appendWal_eq, openWal, List.length_append, hmagic, wholeRecords]
    split_ifs with hk
    · rw [List.length_nil]
      omega
    · rw [Framing.lt_length_wholeIn hi]
      omega
  refine ⟨(wholeRecords rs k).length, hprefix.length_le, ?_, hlength, fun hwhole => ?_⟩
  · rw [walReadRecords_take hfits]
    exact List.prefix_iff_eq_take.mp hprefix
  · rcases hprefix.length_le.lt_or_eq with hlt | heq
    · have hall := (hlength _ hlt).not.mp (lt_irrefl _)
      have hmono : (appendWal (openWal none) (rs.take ((wholeRecords rs k).length + 1))).length ≤
          (appendWal (openWal none) rs).length := by
        have hsplit := Framing.encodeAll_append walFraming
          (rs.take ((wholeRecords rs k).length + 1)) (rs.drop ((wholeRecords rs k).length + 1))
        rw [List.take_append_drop] at hsplit
        rw [appendWal_eq, appendWal_eq, hsplit, List.length_append, List.length_append,
          List.length_append]
        omega
      omega
    · exact heq

def threeRecords : List WalRecord := [⟨1, [7]⟩, ⟨2, [8, 9]⟩, ⟨1, []⟩]

/-- A cut inside the second of three records. -/
theorem walReadRecords_cut_inside :
    ∃ n ≤ threeRecords.length,
      walReadRecords ((appendWal (openWal none) threeRecords).take 20) = threeRecords.take n ∧
      (∀ i < threeRecords.length,
        i < n ↔ (appendWal (openWal none) (threeRecords.take (i + 1))).length ≤ 20) ∧
      ((appendWal (openWal none) threeRecords).length ≤ 20 → n = threeRecords.length) :=
  walReadRecords_cut (by decide) 20

/-- Reading a log that was cut and reopened gives back the whole records and the new ones exactly
when every one of them fits its length field, a cut inside the magic number is followed by none,
and the torn bytes in front of the new records neither hide them nor add a record. -/
theorem walReadRecords_resumed_iff (rs rs₂ : List WalRecord) (k : Nat) :
    walReadRecords (resumedWal rs k rs₂) = wholeRecords rs k ++ rs₂ ↔
      (k < 4 → rs₂ = []) ∧
      (4 ≤ k → (∀ r ∈ wholeRecords rs k ++ rs₂, r.Fits) ∧
        ∃ rest, walFraming.torn (k - 4) rs ++ walFraming.encodeAll rs₂ =
            walFraming.encodeAll rs₂ ++ rest ∧
          ∀ r : WalRecord, r.Fits → ¬ encodeWalRecord r <+: rest) := by
  have hfile : resumedWal rs k rs₂ =
      (walMagic ++ walFraming.encodeAll rs).take k ++ walFraming.encodeAll rs₂ := by
    simp only [resumedWal, openWal, appendWal_eq]
  have hmagic : walMagic.length = 4 := rfl
  rw [hfile, walReadRecords]
  by_cases hk : k < 4
  · have hk4 : ¬ 4 ≤ k := not_le.mpr hk
    simp only [wholeRecords, hk, hk4, if_true, true_imp_iff, false_imp_iff, and_true,
      List.nil_append]
    have hlen : ((walMagic ++ walFraming.encodeAll rs).take k).length = k := by
      simp only [List.length_take, List.length_append]
      omega
    constructor
    · intro hread
      split_ifs at hread with hfront
      · obtain ⟨-, rest, hrest, -⟩ := Framing.readAll_eq_iff.mp hread
        have hbytes := congrArg List.length hrest
        simp only [List.length_drop, List.length_append, hlen] at hbytes
        cases rs₂ with
        | nil => rfl
        | cons r rs₂ =>
          have := List.length_pos_iff.mpr (walFraming.encode_ne_nil r)
          simp only [Framing.encodeAll_cons, List.length_append] at hbytes
          omega
      · exact hread.symm
    · rintro rfl
      rw [if_neg]
      intro hfront
      have := congrArg List.length hfront
      simp only [Framing.encodeAll_nil, List.append_nil, List.length_take, hlen, hmagic] at this
      omega
  · have hk4 : 4 ≤ k := not_lt.mp hk
    rw [take_walMagic_append hk4, List.append_assoc, List.take_left' hmagic,
      List.drop_left' hmagic, if_pos rfl]
    simp only [wholeRecords, hk, hk4, if_false, false_imp_iff, true_and, true_imp_iff]
    exact Framing.readAll_resume_iff (k - 4) rs rs₂

/-- A log that was cut between two records reads back with the new ones. -/
theorem walReadRecords_resumed_boundary {rs rs₂ : List WalRecord} (hfits : ∀ r ∈ rs ++ rs₂, r.Fits)
    (n : Nat) :
    walReadRecords (resumedWal rs (appendWal (openWal none) (rs.take n)).length rs₂) =
      rs.take n ++ rs₂ := by
  have hsplit := Framing.encodeAll_append walFraming (rs.take n) (rs.drop n)
  rw [List.take_append_drop] at hsplit
  have hfile : resumedWal rs (appendWal (openWal none) (rs.take n)).length rs₂ =
      walMagic ++ walFraming.encodeAll (rs.take n ++ rs₂) := by
    simp only [resumedWal, openWal, appendWal_eq]
    rw [hsplit, ← List.append_assoc, List.take_left, List.append_assoc, Framing.encodeAll_append]
  rw [hfile, walReadRecords_magic_append]
  refine Framing.readAll_eq_iff.mpr ⟨fun r hr => ?_, [], by simp, Framing.decode_nil⟩
  exact hfits r (((List.take_sublist n rs).append (List.Sublist.refl rs₂)).subset hr)

/-- A cut in front of the payload: the record written after it is not read back. -/
theorem walReadRecords_loses_resumed :
    walReadRecords (resumedWal [⟨1, [7]⟩] 13 [⟨1, [8]⟩]) = [] ∧
      wholeRecords [⟨1, [7]⟩] 13 ++ [⟨1, [8]⟩] = [⟨1, [8]⟩] := by
  decide

end CoroDB
