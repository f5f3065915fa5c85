import CoroDB.Framework.BufferReader
import CoroDB.Storage.Crc32c
import CoroDB.Storage.Manifest

/-!
# The bytes of the manifest

`serialize_manifest` writes the records of all tables with a checksum behind them, and
`deserialize_manifest` checks the length of every field before it reads it.
-/

namespace CoroDB

open Framework BufferReader

section Tables

abbrev ManifestTable := Bytes × List ManifestLevel

/-- Insert a table into a map ordered by names; a table that is there stays. -/
def emplaceTable (tables : List ManifestTable) (t : ManifestTable) : List ManifestTable :=
  match tables with
  | [] => [t]
  | u :: us =>
    if t.1 < u.1 then t :: u :: us
    else if t.1 = u.1 then u :: us
    else u :: emplaceTable us t

def SortedTables (tables : List ManifestTable) : Prop := tables.Pairwise fun t u => t.1 < u.1

theorem mem_emplaceTable {tables : List ManifestTable} {t u : ManifestTable}
    (h : u ∈ emplaceTable tables t) : u = t ∨ u ∈ tables := by
  induction tables with
  | nil => exact Or.inl (List.mem_singleton.mp h)
  | cons v vs ih =>
    rw [emplaceTable] at h
    split_ifs at h with hlt heq
    · exact List.mem_cons.mp h
    · exact Or.inr h
    · rcases List.mem_cons.mp h with rfl | h
      · exact Or.inr List.mem_cons_self
      · exact (ih h).imp_right (List.mem_cons_of_mem v)

theorem SortedTables.emplace {tables : List ManifestTable} (h : SortedTables tables)
    (t : ManifestTable) : SortedTables (emplaceTable tables t) := by
  induction tables with
  | nil => exact List.pairwise_singleton _ t
  | cons u us ih =>
    obtain ⟨hu, hus⟩ := List.pairwise_cons.mp h
    rw [emplaceTable]
    split_ifs with hlt heq
    · apply List.pairwise_cons.mpr
      refine ⟨?_, h⟩
      intro v hv
      rcases List.mem_cons.mp hv with rfl | hv
      · exact hlt
      · exact hlt.trans (hu v hv)
    · exact h
    · apply List.pairwise_cons.mpr
      refine ⟨?_, ih hus⟩
      intro v hv
      rcases mem_emplaceTable hv with rfl | hv
      · exact lt_of_le_of_ne (not_lt.mp hlt) fun hname => heq hname.symm
      · exact hu v hv

theorem SortedTables.foldl {tables : List ManifestTable} (h : SortedTables tables)
    (ts : List ManifestTable) : SortedTables (ts.foldl emplaceTable tables) := by
  induction ts generalizing tables with
  | nil => exact h
  | cons t ts ih => exact ih (h.emplace t)

theorem emplaceTable_of_lt {tables : List ManifestTable} {t : ManifestTable}
    (h : ∀ u ∈ tables, u.1 < t.1) : emplaceTable tables t = tables ++ [t] := by
  induction tables with
  | nil => rfl
  | cons u us ih =>
    have hu := h u List.mem_cons_self
    rw [emplaceTable, if_neg hu.not_gt, if_neg hu.ne', List.cons_append,
      ih fun v hv => h v (List.mem_cons_of_mem u hv)]

theorem foldl_emplaceTable {tables ts : List ManifestTable} (h : SortedTables (tables ++ ts)) :
    ts.foldl emplaceTable tables = tables ++ ts := by
  induction ts generalizing tables with
  | nil => rw [List.foldl_nil, List.append_nil]
  | cons t ts ih =>
    have hlast : ∀ u ∈ tables, u.1 < t.1 := by
      intro u hu
      exact (List.pairwise_append.mp h).2.2 u hu t List.mem_cons_self
    rw [List.foldl_cons, emplaceTable_of_lt hlast, ih]
    · rw [List.append_assoc, List.singleton_append]
    · rwa [List.append_assoc, List.singleton_append]

end Tables

/-- The manifest: its version and a map of the tables, ordered by their names. -/
@[ext]
structure ManifestState where
  version : UInt64
  tables : List ManifestTable
  sorted : SortedTables tables

def ManifestState.ofTables (version : UInt64) (ts : List ManifestTable) : ManifestState :=
  ⟨version, ts.foldl emplaceTable [], SortedTables.foldl List.Pairwise.nil ts⟩

theorem ManifestState.ofTables_tables (m : ManifestState) :
    ManifestState.ofTables m.version m.tables = m := by
  apply ManifestState.ext
  · rfl
  · exact foldl_emplaceTable m.sorted

section Codec

def manifestMagic : Nat := 0x314E464D

def serializeLevel (l : ManifestLevel) : Bytes :=
  leBytes 1 l.level ++ leBytes 8 l.sizeBytes ++ leBytes 4 l.footerCrc

def serializeTable (t : ManifestTable) : Bytes :=
  leBytes 2 t.1.length ++ t.1 ++ leBytes 4 t.2.length ++ t.2.flatMap serializeLevel

def manifestBody (m : ManifestState) : Bytes :=
  leBytes 4 manifestMagic ++ leBytes 8 m.version.toNat ++ leBytes 4 m.tables.length ++
    m.tables.flatMap serializeTable

def serializeManifest (m : ManifestState) : Bytes :=
  manifestBody m ++ leBytes 4 (crc32c (manifestBody m)).toNat

def readLevel : BufferReader ManifestLevel := do
  need 13
  let level ← word 1
  let sizeBytes ← word 8
  let footerCrc ← word 4
  pure ⟨level, sizeBytes, footerCrc⟩

def readTable : BufferReader ManifestTable := do
  need 2
  let nameLen ← word 2
  need (nameLen + 4)
  let name ← read nameLen
  let levelCount ← word 4
  let levels ← many levelCount readLevel
  pure (name, levels)

def readTables : BufferReader (UInt64 × List ManifestTable) := do
  let magic ← word 4
  require (magic = manifestMagic)
  let version ← word 8
  let tableCount ← word 4
  let tables ← many tableCount readTable
  pure (UInt64.ofNat version, tables)

def readManifest : BufferReader ManifestState := do
  need 20
  let m ← readTables
  exactly 4
  let body ← front
  let crc ← word 4
  require (crc = (crc32c body).toNat)
  pure (ManifestState.ofTables m.1 m.2)

def deserializeManifest (data : Bytes) : Outcome ManifestState := run readManifest data

end Codec

section Bounds

theorem readLevel_needs : Needs 0 readLevel 0 := by
  apply needs_need.bind
  intro _
  apply (needs_word (by decide : 1 + 12 ≤ 13)).bind
  intro level
  apply (needs_word (by decide : 8 + 4 ≤ 12)).bind
  intro sizeBytes
  apply (needs_word (by decide : 4 + 0 ≤ 4)).bind
  intro footerCrc
  exact Needs.pure _

theorem readTable_needs : Needs 0 readTable 0 := by
  apply needs_need.bind
  intro _
  apply (needs_word (by decide : 2 + 0 ≤ 2)).bind
  intro nameLen
  apply needs_need.bind
  intro _
  apply (needs_read (le_refl (nameLen + 4))).bind
  intro name
  apply (needs_word (by decide : 4 + 0 ≤ 4)).bind
  intro levelCount
  apply (readLevel_needs.many levelCount).bind
  intro levels
  exact Needs.pure _

theorem readTables_needs : Needs 20 readTables 0 := by
  apply (needs_word (by decide : 4 + 16 ≤ 20)).bind
  intro magic
  apply needs_require.bind
  intro _
  apply (needs_word (by decide : 8 + 8 ≤ 16)).bind
  intro version
  apply (needs_word (by decide : 4 + 0 ≤ 8)).bind
  intro tableCount
  apply (readTable_needs.many tableCount).bind
  intro tables
  exact Needs.pure _

theorem readManifest_needs : Needs 0 readManifest 0 := by
  apply needs_need.bind
  intro _
  apply readTables_needs.bind
  intro m
  apply needs_exactly.bind
  intro _
  apply needs_front.bind
  intro body
  apply (needs_word (by decide : 4 + 0 ≤ 4)).bind
  intro crc
  apply needs_require.bind
  intro _
  exact Needs.pure _

theorem deserializeManifest_ne_outside (data : Bytes) : deserializeManifest data ≠ .outside :=
  readManifest_needs.run_ne_outside data

theorem deserializeManifest_refused {data : Bytes}
    (h : ∀ m, deserializeManifest data ≠ .value m) : deserializeManifest data = .refused := by
  cases hr : deserializeManifest data with
  | value m => exact absurd hr (h m)
  | refused => rfl
  | outside => exact absurd hr (deserializeManifest_ne_outside data)

end Bounds

section RoundTrip

/-- A record whose fields fit their bytes. -/
structure ManifestLevel.Fits (l : ManifestLevel) : Prop where
  level : l.level < 256
  sizeBytes : l.sizeBytes < 2 ^ 64
  footerCrc : l.footerCrc < 2 ^ 32

/-- A manifest whose names, numbers and records fit their bytes. -/
structure ManifestState.Fits (m : ManifestState) : Prop where
  tables : m.tables.length < 2 ^ 32
  names : ∀ t ∈ m.tables, t.1.length < 2 ^ 16
  levels : ∀ t ∈ m.tables, t.2.length < 2 ^ 32
  records : ∀ t ∈ m.tables, ∀ l ∈ t.2, l.Fits

theorem reads_readLevel {l : ManifestLevel} (h : l.Fits) :
    Reads readLevel (serializeLevel l) l := by
  have hlevel : l.level < 256 ^ 1 := h.level
  have hsize : l.sizeBytes < 256 ^ 8 := h.sizeBytes
  have hcrc : l.footerCrc < 256 ^ 4 := h.footerCrc
  rw [serializeLevel, List.append_assoc]
  apply Reads.need
  · apply (reads_word hlevel).bind
    apply (reads_word hsize).bind
    exact (reads_word hcrc).last
  · simp

theorem reads_readTable {t : ManifestTable} (hname : t.1.length < 2 ^ 16)
    (hcount : t.2.length < 2 ^ 32) (hlevels : ∀ l ∈ t.2, l.Fits) :
    Reads readTable (serializeTable t) t := by
  have hname : t.1.length < 256 ^ 2 := hname
  have hcount : t.2.length < 256 ^ 4 := hcount
  rw [serializeTable, List.append_assoc, List.append_assoc]
  apply Reads.need
  · apply (reads_word hname).bind
    apply Reads.need
    · apply (reads_read rfl).bind
      apply (reads_word hcount).bind
      exact (Reads.many fun l hl => reads_readLevel (hlevels l hl)).last
    · simp
  · simp

theorem reads_readTables {m : ManifestState} (h : m.Fits) :
    Reads readTables (manifestBody m) (m.version, m.tables) := by
  have hversion : m.version.toNat < 256 ^ 8 := m.version.toNat_lt
  have htables : m.tables.length < 256 ^ 4 := h.tables
  have hall : ∀ t ∈ m.tables, Reads readTable (serializeTable t) t := fun t ht =>
    reads_readTable (h.names t ht) (h.levels t ht) (h.records t ht)
  rw [manifestBody, List.append_assoc, List.append_assoc]
  apply (reads_word (by decide : manifestMagic < 256 ^ 4)).bind
  apply Reads.require
  · apply (reads_word hversion).bind
    apply (reads_word htables).bind
    rw [UInt64.ofNat_toNat]
    exact (Reads.many hall).last
  · rfl

theorem readTables_serializeManifest {m : ManifestState} (h : m.Fits) :
    readTables (serializeManifest m) 0 =
      .value ((m.version, m.tables), (manifestBody m).length) := by
  have hread := reads_readTables h [] (leBytes 4 (crc32c (manifestBody m)).toNat)
  rw [List.nil_append, List.length_nil, Nat.zero_add] at hread
  rw [serializeManifest, hread]

theorem serializeManifest_length (m : ManifestState) :
    (serializeManifest m).length = (manifestBody m).length + 4 := by
  rw [serializeManifest, List.length_append, leBytes_length]

theorem deserializeManifest_serializeManifest {m : ManifestState} (h : m.Fits) :
    deserializeManifest (serializeManifest m) = .value m := by
  have hlen := serializeManifest_length m
  have hbody : 16 ≤ (manifestBody m).length := by
    simp only [manifestBody, List.length_append, leBytes_length]
    omega
  have hfront : front (serializeManifest m) (manifestBody m).length =
      .value (manifestBody m, (manifestBody m).length) := by
    rw [front, if_pos (by omega), serializeManifest, List.take_left]
  have hcrc : word 4 (serializeManifest m) (manifestBody m).length =
      .value ((crc32c (manifestBody m)).toNat, (manifestBody m).length + 4) := by
    have hlt : (crc32c (manifestBody m)).toNat < 256 ^ 4 := (crc32c (manifestBody m)).toNat_lt
    have hread := reads_word hlt (manifestBody m) []
    rw [List.append_nil, leBytes_length] at hread
    rw [serializeManifest, hread]
  have hend : exactly 4 (serializeManifest m) (manifestBody m).length =
      .value ((), (manifestBody m).length) := by
    rw [exactly, if_pos hlen.symm]
  have hread : readManifest (serializeManifest m) 0 =
      .value (ManifestState.ofTables m.version m.tables, (manifestBody m).length + 4) := by
    rw [readManifest, bind_value (need_of_le (by omega)),
      bind_value (readTables_serializeManifest h), bind_value hend, bind_value hfront,
      bind_value hcrc, bind_value (require_of rfl)]
    rfl
  rw [deserializeManifest, run_value hread, m.ofTables_tables]

end RoundTrip

section Damage

theorem deserializeManifest_accepted {data : Bytes} {m : ManifestState}
    (h : deserializeManifest data = .value m) :
    ∃ ts pos, readTables data 0 = .value (ts, pos) ∧ pos + 4 = data.length ∧
      ofLeBytes (data.drop pos) = (crc32c (data.take pos)).toNat := by
  obtain ⟨_, hread⟩ := run_eq_value h
  obtain ⟨_, _, hneed, htail⟩ := bind_eq_value hread
  rw [need_eq_value hneed] at htail
  obtain ⟨ts, pos, htables, htail⟩ := bind_eq_value htail
  obtain ⟨_, _, hexactly, htail⟩ := bind_eq_value htail
  rw [(exactly_eq_value hexactly).2] at htail
  obtain ⟨_, _, hfront, htail⟩ := bind_eq_value htail
  rw [(front_eq_value hfront).2, (front_eq_value hfront).1] at htail
  obtain ⟨_, _, hcrc, htail⟩ := bind_eq_value htail
  obtain ⟨_, _, hrequire, -⟩ := bind_eq_value htail
  have hend := (exactly_eq_value hexactly).1
  have hlast : (data.drop pos).take 4 = data.drop pos := by
    apply List.take_of_length_le
    rw [List.length_drop]
    omega
  have hsum := require_eq_value hrequire
  rw [word_eq_value hcrc, hlast] at hsum
  exact ⟨ts, pos, htables, hend, hsum⟩

theorem readLevel_stable : Stable readLevel :=
  (stable_need 13).bind fun _ => (stable_word 1).bind fun _ => (stable_word 8).bind fun _ =>
    (stable_word 4).bind fun _ => Stable.pure _

theorem readTable_stable : Stable readTable :=
  (stable_need 2).bind fun _ => (stable_word 2).bind fun nameLen =>
    (stable_need (nameLen + 4)).bind fun _ => (stable_read nameLen).bind fun _ =>
      (stable_word 4).bind fun levelCount => (readLevel_stable.many levelCount).bind fun _ =>
        Stable.pure _

theorem readTables_stable : Stable readTables :=
  (stable_word 4).bind fun _ => (stable_require _).bind fun _ => (stable_word 8).bind fun _ =>
    (stable_word 4).bind fun tableCount => (readTable_stable.many tableCount).bind fun _ =>
      Stable.pure _

theorem deserializeManifest_take {m : ManifestState} (h : m.Fits) {k : Nat}
    (hk : k < (serializeManifest m).length) :
    deserializeManifest ((serializeManifest m).take k) = .refused := by
  apply deserializeManifest_refused
  intro m' hm'
  obtain ⟨ts, pos, htables, hend, -⟩ := deserializeManifest_accepted hm'
  have hwhole := readTables_stable _ ((serializeManifest m).drop k) 0 _ htables
  rw [List.take_append_drop, readTables_serializeManifest h] at hwhole
  injection hwhole with hpair
  obtain ⟨-, rfl⟩ := Prod.mk.inj hpair
  rw [List.length_take, serializeManifest_length] at hend
  rw [serializeManifest_length] at hk
  omega

theorem deserializeManifest_set (m : ManifestState) {i : Nat} {b : UInt8}
    (hi : i < (serializeManifest m).length) (hb : b ≠ (serializeManifest m)[i]) :
    deserializeManifest ((serializeManifest m).set i b) = .refused := by
  apply deserializeManifest_refused
  intro m' hm'
  obtain ⟨ts, pos, -, hend, hcrc⟩ := deserializeManifest_accepted hm'
  obtain ⟨body, hbody⟩ : ∃ body, manifestBody m = body := ⟨_, rfl⟩
  have himage : serializeManifest m = body ++ leBytes 4 (crc32c body).toNat := by
    rw [serializeManifest, hbody]
  have hstored : ofLeBytes (leBytes 4 (crc32c body).toNat) = (crc32c body).toNat := by
    rw [ofLeBytes_leBytes]
    exact Nat.mod_eq_of_lt (crc32c body).toNat_lt
  simp only [himage, List.length_append, leBytes_length] at hi hb
  rw [List.length_set, serializeManifest_length, hbody, Nat.add_right_cancel_iff] at hend
  subst hend
  rcases Nat.lt_or_ge i body.length with hin | hout
  · rw [himage, List.set_append_left i b hin, List.drop_left' (List.length_set ..),
      List.take_left' (List.length_set ..), hstored] at hcrc
    rw [List.getElem_append_left hin] at hb
    exact crc32c_set_ne hin hb (UInt32.toNat_inj.mp hcrc.symm)
  · rw [himage, List.set_append_right i b hout, List.drop_left, List.take_left] at hcrc
    rw [List.getElem_append_right hout] at hb
    have hsame := ofLeBytes_inj (List.length_set ..) (hcrc.trans hstored.symm)
    apply hb
    have hget := congrArg (fun bs => bs[i - body.length]?) hsame
    rw [List.getElem?_set_self (by simp; omega)] at hget
    exact (List.getElem?_eq_some_iff.mp hget.symm).2.symm

theorem deserializeManifest_wrapped {name : Bytes} (hname : name.length < 2 ^ 16)
    {levels : List ManifestLevel} (hne : levels ≠ []) (hwrap : levels.length % 256 ^ 4 = 0) :
    deserializeManifest (serializeManifest
      ⟨0, [(name, levels)], List.pairwise_singleton _ _⟩) = .refused := by
  let short : ManifestState := ⟨0, [(name, [])], List.pairwise_singleton _ _⟩
  let long : ManifestState := ⟨0, [(name, levels)], List.pairwise_singleton _ _⟩
  have hfits : short.Fits := by
    refine ⟨(by decide : 1 < 2 ^ 32), ?_, ?_, ?_⟩
    · intro t ht
      rw [List.mem_singleton.mp ht]
      exact hname
    · simp [short]
    · simp [short]
  have hbody : manifestBody long = manifestBody short ++ levels.flatMap serializeLevel := by
    have hcount : leBytes 4 levels.length = leBytes 4 0 := leBytes_eq_of_mod_eq hwrap
    simp [manifestBody, serializeTable, long, short, hcount]
  have hlevels : 0 < (levels.flatMap serializeLevel).length := by
    obtain ⟨l, ls, rfl⟩ := List.exists_cons_of_ne_nil hne
    simp [serializeLevel]
  have hshort : 16 ≤ (manifestBody short).length := by
    simp only [manifestBody, List.length_append, leBytes_length]
    omega
  have hlen : (serializeManifest long).length =
      (manifestBody short).length + (levels.flatMap serializeLevel).length + 4 := by
    rw [serializeManifest_length, hbody, List.length_append]
  have htables : readTables (serializeManifest long) 0 =
      .value ((short.version, short.tables), (manifestBody short).length) := by
    have hread := reads_readTables hfits []
      (levels.flatMap serializeLevel ++ leBytes 4 (crc32c (manifestBody long)).toNat)
    rw [List.nil_append, List.length_nil, Nat.zero_add, ← List.append_assoc, ← hbody] at hread
    rw [serializeManifest, hread]
  have hend : exactly 4 (serializeManifest long) (manifestBody short).length = .refused := by
    rw [exactly, if_neg (by omega)]
  have hread : readManifest (serializeManifest long) 0 = .refused := by
    rw [readManifest, bind_value (need_of_le (by omega)), bind_value htables, bind_refused hend]
  exact run_refused hread

end Damage

/-- A manifest is read back, every front part of its bytes and every change of one of them is
refused, and no bytes make the reader leave its buffer. -/
theorem manifest_codec :
    (∀ m : ManifestState, m.Fits →
      deserializeManifest (serializeManifest m) = .value m ∧
      (∀ k < (serializeManifest m).length,
        deserializeManifest ((serializeManifest m).take k) = .refused) ∧
      ∀ (i : Nat) (b : UInt8) (hi : i < (serializeManifest m).length),
        b ≠ (serializeManifest m)[i] →
          deserializeManifest ((serializeManifest m).set i b) = .refused) ∧
    ∀ data : Bytes, deserializeManifest data ≠ .outside := by
  constructor
  · intro m hm
    refine ⟨deserializeManifest_serializeManifest hm, ?_, ?_⟩
    · intro k hk
      exact deserializeManifest_take hm hk
    · intro i b hi hb
      exact deserializeManifest_set m hi hb
  · exact deserializeManifest_ne_outside

def twoTables : ManifestState :=
  ManifestState.ofTables 7 [([97], [⟨0, 8192, 5⟩, ⟨1, 16384, 6⟩]), ([98], [])]

theorem twoTables_fits : twoTables.Fits := by
  refine ⟨by decide, by decide, by decide, ?_⟩
  have hall : ∀ t ∈ twoTables.tables, ∀ l ∈ t.2,
      l.level < 256 ∧ l.sizeBytes < 2 ^ 64 ∧ l.footerCrc < 2 ^ 32 := by decide
  intro t ht l hl
  obtain ⟨hlevel, hsize, hcrc⟩ := hall t ht l hl
  exact ⟨hlevel, hsize, hcrc⟩

theorem manifest_codec_twoTables :
    deserializeManifest (serializeManifest twoTables) = .value twoTables ∧
      deserializeManifest ((serializeManifest twoTables).take 40) = .refused := by
  have hcodec := manifest_codec.1 twoTables twoTables_fits
  constructor
  · exact hcodec.1
  · apply hcodec.2.1
    rw [serializeManifest_length]
    decide

/-- A table with `2 ^ 32` records is not read back. -/
theorem deserializeManifest_loses_levels : ∃ m : ManifestState, m.tables.length < 2 ^ 32 ∧
    (∀ t ∈ m.tables, t.1.length < 2 ^ 16 ∧ ∀ l ∈ t.2, l.Fits) ∧
      deserializeManifest (serializeManifest m) = .refused := by
  have hall (count : Nat) (hpos : 0 < count) (hwrap : count % 256 ^ 4 = 0) :
      ∃ m : ManifestState, m.tables.length < 2 ^ 32 ∧
        (∀ t ∈ m.tables, t.1.length < 2 ^ 16 ∧ ∀ l ∈ t.2, l.Fits) ∧
          deserializeManifest (serializeManifest m) = .refused := by
    refine ⟨⟨0, [([97], List.replicate count ⟨0, 0, 0⟩)], List.pairwise_singleton _ _⟩,
      (by decide : 1 < 2 ^ 32), ?_, ?_⟩
    · intro t ht
      obtain rfl := List.mem_singleton.mp ht
      refine ⟨(by decide : 1 < 2 ^ 16), ?_⟩
      intro l hl
      rw [List.eq_of_mem_replicate hl]
      exact ⟨by decide, by decide, by decide⟩
    · apply deserializeManifest_wrapped (by decide)
      · apply List.ne_nil_of_length_pos
        rwa [List.length_replicate]
      · rwa [List.length_replicate]
  exact hall (256 ^ 4) (by decide) (Nat.mod_self _)

end CoroDB
