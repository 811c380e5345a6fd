import DeepFinder.Core.Varint

/-!
# The shard manifest

The `MANIFEST` file lists the shard files of a content index.  It reads back as it was written
(`Manifest.decode_encode`), and no cut of it reads as anything (`Manifest.decode_take`): a record is
read at its place (`decodeShards_record`), and the record that a cut falls into is not
(`decodeShards_cut`).

A manifest fits (`Manifest.Fits`) when its numbers and the lengths of its file names are below the
bounds of their fields.  A proper prefix is what a write that was interrupted leaves, and `decode`
checks no sum: that it refuses all of them rests on the count in the header.
-/

namespace DeepFinder

open ByteString

/-- `ShardEntry`. -/
structure ShardEntry where
  shardId : ℕ
  baseDocid : ℕ
  numDocs : ℕ
  file : String
  deriving DecidableEq, Repr

/-- `Manifest`. -/
structure Manifest where
  buildTime : ℕ
  totalContentDocs : ℕ
  shards : List ShardEntry
  deriving DecidableEq, Repr

/-! ## Encoding and decoding -/

def ShardEntry.encode (s : ShardEntry) : Bytes :=
  toLE 4 s.shardId ++ (toLE 4 s.baseDocid ++ (toLE 4 s.numDocs ++
    (encodeU32 ((utf8 s.file).length % 2 ^ 32) ++ utf8 s.file)))

/-- `encode`. -/
def Manifest.encode (m : Manifest) : Bytes :=
  toLE 8 m.buildTime ++ (toLE 4 m.totalContentDocs ++ (toLE 4 m.shards.length ++
    m.shards.flatMap ShardEntry.encode))

/-- An unsigned field of `k` bytes. -/
def leField (bytes : Bytes) (pos k : ℕ) : Option ℕ := (subslice bytes pos k).map ofLE

/-- The loop of `decode`, which reads `count` records from `p` on. -/
def Manifest.decodeShards (bytes : Bytes) : ℕ → ℕ → Option (List ShardEntry)
  | 0, _ => some []
  | count + 1, p =>
      if bytes.length < p + 12 then none
      else do
        let id ← leField bytes p 4
        let base ← leField bytes (p + 4) 4
        let num ← leField bytes (p + 8) 4
        let (flen, p) ← decodeU32 bytes (p + 12)
        if bytes.length < p + flen then none
        else do
          let file ← fromUtf8 (← subslice bytes p flen)
          let shards ← Manifest.decodeShards bytes count (p + flen)
          pure (⟨id, base, num, file⟩ :: shards)

/-- `decode`. -/
def Manifest.decode (bytes : Bytes) : Option Manifest :=
  if bytes.length < 16 then none
  else do
    let bt ← leField bytes 0 8
    let total ← leField bytes 8 4
    let count ← leField bytes 12 4
    let shards ← Manifest.decodeShards bytes count 16
    pure ⟨bt, total, shards⟩

/-! ## Round trip -/

/-- The entry fits its fields. -/
structure ShardEntry.Fits (s : ShardEntry) : Prop where
  shardId_lt : s.shardId < 2 ^ 32
  baseDocid_lt : s.baseDocid < 2 ^ 32
  numDocs_lt : s.numDocs < 2 ^ 32
  file_lt : (utf8 s.file).length < 2 ^ 32

/-- The manifest fits its fields.  The total is a field of its own, which `decode` does not compare
with the entries. -/
structure Manifest.Fits (m : Manifest) : Prop where
  buildTime_lt : m.buildTime < 2 ^ 64
  totalContentDocs_lt : m.totalContentDocs < 2 ^ 32
  length_lt : m.shards.length < 2 ^ 32
  shards_fit : ∀ s ∈ m.shards, s.Fits

lemma leField_toLE {bytes : Bytes} {pos k n : ℕ} (h : StandsAt bytes pos (toLE k n))
    (hn : n < 256 ^ k) : leField bytes pos k = some n := by
  have hslice := h.subslice
  rw [length_toLE] at hslice
  rw [leField, hslice, Option.map_some, ofLE_toLE_of_lt hn]

/-- The fields of a record, each where it stands. -/
lemma ShardEntry.Fits.fields {bytes : Bytes} {p : ℕ} {s : ShardEntry} (hs : s.Fits)
    (h : StandsAt bytes p s.encode) :
    leField bytes p 4 = some s.shardId ∧ leField bytes (p + 4) 4 = some s.baseDocid ∧
      leField bytes (p + 8) 4 = some s.numDocs ∧
      StandsAt bytes (p + 12) (encodeU32 (utf8 s.file).length) ∧
      StandsAt bytes (p + 12 + (encodeU32 (utf8 s.file).length).length) (utf8 s.file) := by
  rw [ShardEntry.encode, Nat.mod_eq_of_lt hs.file_lt] at h
  have hbase := h.right
  have hnum := hbase.right
  have htail := hnum.right
  simp only [length_toLE, Nat.add_assoc, Nat.reduceAdd] at hbase hnum htail
  refine ⟨leField_toLE h.left ?_, leField_toLE hbase.left ?_, leField_toLE hnum.left ?_,
    htail.left, htail.right⟩
  · simpa using hs.shardId_lt
  · simpa using hs.baseDocid_lt
  · simpa using hs.numDocs_lt

lemma ShardEntry.Fits.length_encode {s : ShardEntry} (hs : s.Fits) :
    s.encode.length = 12 + (encodeU32 (utf8 s.file).length).length + (utf8 s.file).length := by
  simp only [ShardEntry.encode, List.length_append, length_toLE, Nat.mod_eq_of_lt hs.file_lt]
  omega

/-- The loop reads the record that stands at its place, and goes on behind it. -/
lemma Manifest.decodeShards_record {bytes : Bytes} {p count : ℕ} {s : ShardEntry} (hs : s.Fits)
    (h : StandsAt bytes p s.encode) :
    Manifest.decodeShards bytes (count + 1) p =
      (Manifest.decodeShards bytes count (p + s.encode.length)).map (s :: ·) := by
  obtain ⟨hid, hbase, hnum, hlen, hfile⟩ := hs.fields h
  have hroom := hlen.le_length
  have hfits := hfile.le_length
  have hend : p + 12 + (encodeU32 (utf8 s.file).length).length + (utf8 s.file).length =
      p + s.encode.length := by
    rw [hs.length_encode]
    omega
  rw [Manifest.decodeShards, if_neg (by omega), hid, hbase, hnum,
    decodeU32_encodeU32 hs.file_lt hlen]
  dsimp only [Option.bind_eq_bind, Option.bind_some]
  rw [if_neg (by omega), hfile.subslice, Option.bind_some, fromUtf8_utf8, Option.bind_some, hend]
  cases Manifest.decodeShards bytes count (p + s.encode.length) <;> simp

lemma Manifest.decodeShards_encode {bytes : Bytes} {p : ℕ} {shards : List ShardEntry}
    (h : StandsAt bytes p (shards.flatMap ShardEntry.encode)) (hfit : ∀ s ∈ shards, s.Fits) :
    Manifest.decodeShards bytes shards.length p = some shards := by
  induction shards generalizing p with
  | nil => simp [Manifest.decodeShards]
  | cons s shards ih =>
      rw [List.flatMap_cons] at h
      have hrest := ih h.right fun x hx => hfit x (List.mem_cons_of_mem _ hx)
      rw [List.length_cons, Manifest.decodeShards_record (hfit s (List.mem_cons_self ..)) h.left,
        hrest, Option.map_some]

/-- The fixed fields of a manifest, and where its records stand. -/
lemma Manifest.Fits.fields {bytes : Bytes} {m : Manifest} (hm : m.Fits)
    (h : StandsAt bytes 0 m.encode) :
    leField bytes 0 8 = some m.buildTime ∧ leField bytes 8 4 = some m.totalContentDocs ∧
      leField bytes 12 4 = some m.shards.length ∧
      StandsAt bytes 16 (m.shards.flatMap ShardEntry.encode) := by
  have htotal := h.right
  have hcount := htotal.right
  have hshards := hcount.right
  simp only [length_toLE, Nat.reduceAdd, Nat.zero_add] at htotal hcount hshards
  refine ⟨leField_toLE h.left ?_, leField_toLE htotal.left ?_, leField_toLE hcount.left ?_, hshards⟩
  · simpa using hm.buildTime_lt
  · simpa using hm.totalContentDocs_lt
  · simpa using hm.length_lt

/-- A manifest that fits its fields reads back as it was written. -/
theorem Manifest.decode_encode {m : Manifest} (h : m.Fits) :
    Manifest.decode m.encode = some m := by
  obtain ⟨hbt, htotal, hcount, hshards⟩ := h.fields (StandsAt.refl m.encode)
  have hroom := hshards.le_length
  rw [Manifest.decode, if_neg (by omega), hbt, htotal, hcount]
  dsimp only [Option.bind_eq_bind, Option.bind_some]
  rw [Manifest.decodeShards_encode hshards h.shards_fit]
  rfl

/-! ## Cuts -/

/-- A record whose end is cut off is not read. -/
lemma Manifest.decodeShards_cut {bytes : Bytes} {p n count : ℕ} {s : ShardEntry} (hs : s.Fits)
    (h : StandsAt bytes p s.encode) (hcut : n < p + s.encode.length) :
    Manifest.decodeShards (bytes.take n) (count + 1) p = none := by
  obtain ⟨-, -, -, hlen, -⟩ := hs.fields h
  obtain ⟨hnum, hvalue, -⟩ := encodeU32_spec hs.file_lt
  rw [Manifest.decodeShards]
  split
  · rfl
  · simp only [Option.bind_eq_bind, Option.bind_eq_none_iff]
    rintro id - base - num - ⟨flen, p'⟩ hread
    -- what is read of the length is the numeral that stood there before the cut
    obtain ⟨cs, hcs, hstands, -, rfl, rfl⟩ := decodeU32_eq_some_iff.mp hread
    obtain rfl := hcs.unique hnum (standsAt_take_iff.mp hstands).1 hlen
    rw [hvalue, Nat.mod_eq_of_lt hs.file_lt, if_pos]
    rw [hs.length_encode] at hcut
    rw [List.length_take]
    omega

/-- Wherever the records are cut short, one of them is not read. -/
lemma Manifest.decodeShards_take {bytes : Bytes} {p n : ℕ} {shards : List ShardEntry}
    (h : StandsAt bytes p (shards.flatMap ShardEntry.encode)) (hfit : ∀ s ∈ shards, s.Fits)
    (hp : p ≤ n) (hcut : n < p + (shards.flatMap ShardEntry.encode).length) :
    Manifest.decodeShards (bytes.take n) shards.length p = none := by
  induction shards generalizing p with
  | nil =>
      simp at hcut
      omega
  | cons s shards ih =>
      have hs := hfit s (List.mem_cons_self ..)
      rw [List.flatMap_cons] at h hcut
      rw [List.length_append] at hcut
      have hroom := h.left.le_length
      by_cases hrecord : n < p + s.encode.length
      · exact Manifest.decodeShards_cut hs h.left hrecord
      · have hwhole : StandsAt (bytes.take n) p s.encode := by
          refine standsAt_take_iff.mpr ⟨h.left, ?_⟩
          rw [List.length_take]
          omega
        rw [List.length_cons, Manifest.decodeShards_record hs hwhole,
          ih h.right (fun x hx => hfit x (List.mem_cons_of_mem _ hx)) (by omega) (by omega),
          Option.map_none]

/-- A manifest that is cut short is not read. -/
lemma Manifest.decode_take {m : Manifest} (h : m.Fits) {n : ℕ} (hcut : n < m.encode.length) :
    Manifest.decode (m.encode.take n) = none := by
  obtain ⟨-, -, hcount, hshards⟩ := h.fields (StandsAt.refl m.encode)
  rw [Manifest.decode]
  split
  · rfl
  · rename_i hfixed
    rw [List.length_take] at hfixed
    have hkept : leField (m.encode.take n) 12 4 = some m.shards.length := by
      unfold leField at hcount ⊢
      obtain ⟨slice, hslice, hvalue⟩ := Option.map_eq_some_iff.mp hcount
      have hstands := standsAt_of_subslice hslice
      have hlen := length_of_subslice hslice
      have htake : StandsAt (m.encode.take n) 12 slice := by
        refine standsAt_take_iff.mpr ⟨hstands, ?_⟩
        rw [List.length_take, hlen]
        omega
      have hread := htake.subslice
      rw [hlen] at hread
      rw [hread, Option.map_some, hvalue]
    have hlength : m.encode.length = 16 + (m.shards.flatMap ShardEntry.encode).length := by
      simp [Manifest.encode]
      omega
    simp only [hkept, Option.bind_eq_bind, Option.bind_some, Option.bind_eq_none_iff]
    intro bt _ total _ shards hread
    rw [Manifest.decodeShards_take hshards h.shards_fit (by omega) (by omega)] at hread
    cases hread

/-- A manifest that fits its fields reads back field for field, and no proper prefix of it reads as
a manifest: the count in the header asks for every entry, and each entry for all of its bytes. -/
theorem manifest_codec {m : Manifest} (h : m.Fits) :
    Manifest.decode m.encode = some m ∧
      ∀ cut, cut <+: m.encode → cut ≠ m.encode → Manifest.decode cut = none := by
  refine ⟨Manifest.decode_encode h, fun cut hcut hne => ?_⟩
  have hlt : cut.length < m.encode.length :=
    lt_of_le_of_ne hcut.length_le fun hlen => hne (hcut.eq_of_length hlen)
  rw [List.prefix_iff_eq_take.mp hcut]
  exact Manifest.decode_take h hlt

/-- Two shards, the name of the second with a letter of two bytes; the last cut falls into it. -/
theorem manifest_codec_two :
    Manifest.decode (Manifest.encode ⟨7, 3, [⟨0, 0, 2, "shard-00000.dfcs"⟩, ⟨1, 2, 1, "é"⟩]⟩) =
        some ⟨7, 3, [⟨0, 0, 2, "shard-00000.dfcs"⟩, ⟨1, 2, 1, "é"⟩]⟩ ∧
      Manifest.decode ((Manifest.encode
        ⟨7, 3, [⟨0, 0, 2, "shard-00000.dfcs"⟩, ⟨1, 2, 1, "é"⟩]⟩).take 59) = none := by
  obtain ⟨hback, hcut⟩ := @manifest_codec
    ⟨7, 3, [⟨0, 0, 2, "shard-00000.dfcs"⟩, ⟨1, 2, 1, "é"⟩]⟩
    ⟨by decide, by decide, by decide, fun s hs => by
      simp only [List.mem_cons, List.not_mem_nil, or_false] at hs
      rcases hs with rfl | rfl <;>
        exact ⟨by decide, by decide, by decide, by decide +kernel⟩⟩
  exact ⟨hback, hcut _ (List.take_prefix _ _) (by decide +kernel)⟩

end DeepFinder
