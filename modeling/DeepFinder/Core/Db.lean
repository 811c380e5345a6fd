import DeepFinder.Core.HashTable
import DeepFinder.Core.Lowercase
import DeepFinder.Core.Records

/-!
# The filename database

`DbBuilder` collects paths, metadata and posting lists; `finish` lays them out as

  HEADER | DOCS (dictionary, block index, compressed blocks) | META | HASH | POSTINGS

and `DbReader.open` reads the header and the block index back.  The zstd crate is a parameter
(`Zstd`); what the database relies on is `Zstd.Lawful`.

`DbBuilder.finish_round_trip` is the round trip of the whole format, and `docPathWith_eq` says
that the one-block cache of `doc_path` never changes an answer.
-/

namespace DeepFinder

open ByteString Chunks

/-! ## The zstd crate -/

/-- The functions of the zstd crate that the database calls. -/
structure Zstd where
  /-- `encode_all(data, ZSTD_LEVEL)` -/
  encodeAll : Bytes → Option Bytes
  /-- `Encoder::with_dictionary(.., dict)`, and what `write_all` and `finish` then return -/
  encoder : Bytes → Option (Bytes → Option Bytes)
  /-- `decode_all` -/
  decodeAll : Bytes → Except String Bytes
  /-- `Decoder::with_dictionary(.., dict)`, and what `read_to_end` then returns -/
  decoder : Bytes → Except String (Bytes → Except String Bytes)
  /-- `dict::from_continuous(samples, sizes, max_size)` -/
  fromContinuous : Bytes → List ℕ → ℕ → Option Bytes

section Zstd

variable (z : Zstd)

/-- `zstd_encode`. -/
def zstdEncode (data dict : Bytes) : Bytes :=
  if dict = [] then (z.encodeAll data).getD []
  else
    match z.encoder dict with
    | some enc => (enc data).getD []
    | none => (z.encodeAll data).getD []

/-- `zstd_decode`. -/
def zstdDecode (comp dict : Bytes) : Res Bytes :=
  if dict = [] then
    match z.decodeAll comp with
    | .ok out => .ok out
    | .error e => .error (.err (.codec s!"zstd decode: {e}"))
  else
    match z.decoder dict with
    | .error e => .error (.err (.codec s!"zstd decoder: {e}"))
    | .ok dec =>
        match dec comp with
        | .ok out => .ok out
        | .error e => .error (.err (.codec s!"zstd read: {e}"))

/-- `MIN_DICT_CORPUS`. -/
def minDictCorpus : ℕ := 8192

/-- `DICT_SIZE`. -/
def dictSize : ℕ := 112640

/-- `train_dict`. -/
def trainDict (paths : List String) : Bytes :=
  if (paths.map fun p => (utf8 p).length + 4).sum < minDictCorpus then []
  else
    (z.fromContinuous (paths.flatMap utf8) (paths.map fun p => (utf8 p).length) dictSize).getD []

/-- A dictionary that the database uses: none, or one that was trained. -/
def Zstd.Trained (dict : Bytes) : Prop :=
  dict = [] ∨ ∃ samples sizes n, z.fromContinuous samples sizes n = some dict

/-- What the crate promises: decoding inverts encoding with the same dictionary, when it is one that
was trained, and a trained dictionary respects its size limit. -/
structure Zstd.Lawful : Prop where
  decode_encode : ∀ data dict, z.Trained dict → zstdDecode z (zstdEncode z data dict) dict = .ok data
  length_dict : ∀ samples sizes n dict, z.fromContinuous samples sizes n = some dict →
    dict.length ≤ n

lemma Zstd.trained_trainDict (paths : List String) : z.Trained (trainDict z paths) := by
  unfold trainDict
  split
  · exact Or.inl rfl
  · cases h : z.fromContinuous _ _ dictSize with
    | none => exact Or.inl rfl
    | some dict => exact Or.inr ⟨_, _, _, h⟩

variable {z} in
lemma Zstd.Lawful.length_trainDict (hz : z.Lawful) (paths : List String) :
    (trainDict z paths).length ≤ dictSize := by
  unfold trainDict
  split
  · simp
  · cases h : z.fromContinuous _ _ dictSize with
    | none => simp
    | some dict => exact hz.length_dict _ _ _ _ h

end Zstd

/-- The codec that stores its input. -/
def Zstd.stored : Zstd where
  encodeAll := some
  encoder _ := some some
  decodeAll := .ok
  decoder _ := .ok .ok
  fromContinuous _ _ _ := none

lemma Zstd.stored_lawful : Zstd.stored.Lawful where
  decode_encode data dict _ := by
    by_cases h : dict = [] <;> simp [zstdDecode, zstdEncode, Zstd.stored, h]
  length_dict := by simp [Zstd.stored]

/-! ## Building -/

/-- `VERSION`. -/
def dbVersion : ℕ := 2

/-- `MAGIC`. -/
def dbMagic : Bytes := utf8 "DFDB"

/-- `HEADER_LEN`. -/
def headerLen : ℕ := 64

/-- `BLOCK_PATHS`. -/
def blockPaths : ℕ := 256

/-- The builder's state. -/
structure DbBuilder where
  paths : List String := []
  lites : List LiteMeta := []
  tryMap : OrderedMap ℕ (List ℕ) := []
  buildTime : ℕ := 0

/-- Where a compressed block lies, and how many paths it holds. -/
structure BlockRef where
  off : ℕ
  clen : ℕ
  count : ℕ
  deriving DecidableEq, Repr

/-- `insert_with`: the new document's id is the number of documents, as `u32`. -/
def DbBuilder.insertWith (b : DbBuilder) (path : String) (lite : LiteMeta) : DbBuilder :=
  { b with
    paths := b.paths ++ [path]
    lites := b.lites ++ [lite]
    tryMap := addPostings b.tryMap (b.paths.length % 2 ^ 32) (trigrams (lowerBytes path)) }

/-- `set_build_time`. -/
def DbBuilder.setBuildTime (b : DbBuilder) (secs : ℕ) : DbBuilder := { b with buildTime := secs }

def blockRefBytes (r : BlockRef) : Bytes := toLE 8 r.off ++ (toLE 4 r.clen ++ toLE 4 r.count)

def compressBlock (z : Zstd) (dict : Bytes) (chunk : List String) : Bytes :=
  zstdEncode z (chunk.flatMap pathRecord) dict

/-- The loop over the chunks of paths that compresses the blocks and records where each lies. -/
def encodeBlocks (z : Zstd) (dict : Bytes) (base : ℕ) (blocks : List (List String)) :
    List BlockRef × Bytes :=
  blocks.foldl
    (fun acc chunk =>
      let comp := compressBlock z dict chunk
      (acc.1 ++ [⟨base + acc.2.length, comp.length, chunk.length⟩], acc.2 ++ comp))
    ([], [])

/-- The DOCS section, which starts right behind the header. -/
def DbBuilder.docsSection (z : Zstd) (b : DbBuilder) : Bytes :=
  let dict := trainDict z b.paths
  let blocks := chunks blockPaths b.paths
  let base := headerLen + (4 + dict.length + 4 + blocks.length * 16)
  let enc := encodeBlocks z dict base blocks
  toLE 4 dict.length ++ (dict ++ (toLE 4 blocks.length ++ (enc.1.flatMap blockRefBytes ++ enc.2)))

def dbHeader (numDocs buildTime metaOff tryOff postOff slotsLog2 : ℕ) : Bytes :=
  dbMagic ++ (toLE 4 dbVersion ++ (toLE 4 numDocs ++ (toLE 8 buildTime ++ (toLE 8 headerLen ++
    (toLE 8 metaOff ++ (toLE 8 0 ++ (toLE 8 tryOff ++ (toLE 8 postOff ++ toLE 4 slotsLog2))))))))

def DbBuilder.metaOff (z : Zstd) (b : DbBuilder) : ℕ := headerLen + (b.docsSection z).length

def DbBuilder.tryOff (z : Zstd) (b : DbBuilder) : ℕ :=
  b.metaOff z + (b.lites.flatMap metaRecord).length

def DbBuilder.postOff (z : Zstd) (b : DbBuilder) : ℕ :=
  b.tryOff z + slotCount b.tryMap.length * slotLen

/-- `finish`. -/
def DbBuilder.finish (z : Zstd) (b : DbBuilder) : Res Bytes := do
  let slots := slotCount b.tryMap.length
  let post := encodePostings (b.postOff z) b.tryMap
  let table ← buildRobinHood post.1 slots
  pure (dbHeader b.paths.length b.buildTime (b.metaOff z) (b.tryOff z) (b.postOff z)
      (slotsLog2 slots) ++
    (b.docsSection z ++ (b.lites.flatMap metaRecord ++ (table ++ post.2))))

/-! ## Reading -/

/-- `read_at` of a byte slice or a memory map. -/
def readAt (src : Bytes) (off len : ℕ) : Res Bytes :=
  if 2 ^ 64 ≤ off + len then .error (.err (.io "len overflow"))
  else
    match subslice src off len with
    | some s => .ok s
    | none => .error (.err (.io "read beyond DB end"))

/-- `DbReader`, without the block cache. -/
structure DbReader where
  src : Bytes
  numDocs : ℕ
  buildTime : ℕ
  metaOff : ℕ
  tryOff : ℕ
  slots : ℕ
  dict : Bytes
  blocks : List BlockRef
  blockStart : List ℕ

/-- The loop of `open` over the block index: records `i, i + 1, …` of which `todo` are left, the
next one starting at docid `start`. -/
def readBlockIndex (idxBytes : Bytes) : ℕ → ℕ → ℕ → Res (List BlockRef × List ℕ)
  | 0, _, _ => pure ([], [])
  | todo + 1, i, start => do
      let off ← leU64 idxBytes (i * 16)
      let clen ← leU32 idxBytes (i * 16 + 8)
      let count ← leU32 idxBytes (i * 16 + 12)
      if start + count < 2 ^ 32 then do
        let rest ← readBlockIndex idxBytes todo (i + 1) (start + count)
        pure (⟨off, clen, count⟩ :: rest.1, start :: rest.2)
      else .error .panicked

/-- `DbReader::open`. -/
def DbReader.open (src : Bytes) : Res DbReader := do
  let hdr ← readAt src 0 headerLen
  if hdr.length < headerLen ∨ hdr.take 4 ≠ dbMagic then
    .error (.err (.dbFormat "bad magic / short header"))
  else do
    let version ← leU32 hdr 4
    if version ≠ dbVersion then
      .error (.err (.dbFormat s!"unsupported version {version}"))
    else do
      let numDocs ← leU32 hdr 8
      let buildTime ← leU64 hdr 12
      let docsOff ← leU64 hdr 20
      let metaOff ← leU64 hdr 28
      let tryOff ← leU64 hdr 44
      let log2 ← leU32 hdr 60
      let slots ← slotsOfLog2 log2
      let lenBytes ← readAt src docsOff 4
      let dictLen ← leU32 lenBytes 0
      let dict ← readAt src (docsOff + 4) dictLen
      let countBytes ← readAt src (docsOff + 4 + dictLen) 4
      let numBlocks ← leU32 countBytes 0
      let idxBytes ← readAt src (docsOff + 4 + dictLen + 4) (numBlocks * 16)
      let index ← readBlockIndex idxBytes numBlocks 0 0
      pure ⟨src, numDocs, buildTime, metaOff, tryOff, slots, dict, index.1, index.2⟩

/-- `doc_meta`. -/
def DbReader.docMeta (r : DbReader) (docid : ℕ) : Res LiteMeta :=
  if r.numDocs ≤ docid then .error (.err (.query s!"docid {docid} out of range"))
  else do
    let off ← add64 r.metaOff (docid * metaRecLen)
    let rec ← readAt r.src off metaRecLen
    readMeta rec

/-- The block that holds `docid`, with the path's index inside it. -/
def DbReader.locate (r : DbReader) (docid : ℕ) : Res (ℕ × BlockRef × ℕ) :=
  if r.blockStart = [] then .error (.err (.query "no docs indexed"))
  else
    let i := (r.blockStart.takeWhile (· ≤ docid)).length - 1
    match r.blocks[i]?, r.blockStart[i]? with
    | some block, some start =>
        if block.count ≤ docid - start then
          .error (.err (.query s!"docid {docid} out of range"))
        else .ok (i, block, docid - start)
    | _, _ => .error .panicked

/-- `extract_path`. -/
def extractPath (block : Bytes) (index : ℕ) : Res String :=
  scanPath "truncated filename block" "path overruns filename block" block index 0

def DbReader.readBlock (z : Zstd) (r : DbReader) (block : BlockRef) : Res Bytes := do
  let comp ← readAt r.src block.off block.clen
  zstdDecode z comp r.dict

/-- `doc_path` with the block cache: the path and the cache afterwards. -/
def DbReader.docPathWith (z : Zstd) (r : DbReader) (cache : Option (ℕ × Bytes)) (docid : ℕ) :
    Res String × Option (ℕ × Bytes) :=
  match r.locate docid with
  | .error f => (.error f, cache)
  | .ok (i, block, index) =>
      match cache.filter fun c => c.1 = i with
      | some (_, bytes) => (extractPath bytes index, cache)
      | none =>
          match r.readBlock z block with
          | .error f => (.error f, cache)
          | .ok bytes =>
              match extractPath bytes index with
              | .error f => (.error f, cache)
              | .ok path => (.ok path, some (i, bytes))

/-- `doc_path` on a reader whose cache is empty. -/
def DbReader.docPath (z : Zstd) (r : DbReader) (docid : ℕ) : Res String :=
  (r.docPathWith z none docid).1

/-- The bytes of slot `idx`. -/
def DbReader.slotAt (r : DbReader) (idx : ℕ) : Res Bytes := do
  let off ← add64 r.tryOff (idx * slotLen)
  readAt r.src off slotLen

/-- `posting`. -/
def DbReader.posting (r : DbReader) (trig : ℕ) : Res (Option (List ℕ)) :=
  if r.slots = 0 then .ok none
  else probe r.slots (r.slots - 1) trig r.slotAt (readAt r.src)

lemma lt_of_readAt {src s : Bytes} {off len : ℕ} (h : readAt src off len = .ok s) :
    off + len < 2 ^ 64 := by
  unfold readAt at h
  split at h
  · cases h
  · omega

lemma DbReader.slotAt_eq {r : DbReader} {idx : ℕ} {s : Bytes}
    (h : readAt r.src (r.tryOff + idx * slotLen) slotLen = .ok s) : r.slotAt idx = .ok s := by
  have hlt := lt_of_readAt h
  rw [DbReader.slotAt, add64_eq (by omega), bind_ok, h]

lemma DbReader.posting_eq_findRef {r : DbReader} (h : r.slots ≠ 0) (trig : ℕ) :
    r.posting trig =
      findRef hash r.slots (r.slots - 1) trig r.slotAt >>= decodeFound (readAt r.src) := by
  rw [DbReader.posting, if_neg h, probe_eq_findRef]

/-! ## The block cache -/

/-- Calls of `doc_path` one after the other, each on the cache the last one left. -/
def DbReader.docPaths (z : Zstd) (r : DbReader) :
    Option (ℕ × Bytes) → List ℕ → List (Res String)
  | _, [] => []
  | cache, d :: ds =>
      let out := r.docPathWith z cache d
      out.1 :: r.docPaths z out.2 ds

/-- A cache that holds nothing but a decompressed block of the file. -/
def DbReader.CacheOk (z : Zstd) (r : DbReader) (cache : Option (ℕ × Bytes)) : Prop :=
  ∀ c ∈ cache, ∃ block, r.blocks[c.1]? = some block ∧ r.readBlock z block = .ok c.2

section Cache

variable {z : Zstd} {r : DbReader}

lemma DbReader.blocks_of_locate {d i index : ℕ} {block : BlockRef}
    (h : r.locate d = .ok (i, block, index)) : r.blocks[i]? = some block := by
  unfold DbReader.locate at h
  split at h
  · cases h
  · dsimp only at h
    split at h
    · rename_i b start hb _
      split at h
      · cases h
      · cases h
        exact hb
    · cases h

/-- The cache never changes an answer, and stays a cache. -/
lemma DbReader.docPathWith_eq {cache : Option (ℕ × Bytes)} (hc : r.CacheOk z cache) (d : ℕ) :
    (r.docPathWith z cache d).1 = r.docPath z d ∧ r.CacheOk z (r.docPathWith z cache d).2 := by
  unfold DbReader.docPath DbReader.docPathWith
  cases hloc : r.locate d with
  | error f => exact ⟨rfl, hc⟩
  | ok loc =>
      obtain ⟨i, block, index⟩ := loc
      have hblock := DbReader.blocks_of_locate hloc
      cases hhit : cache.filter (fun c => decide (c.1 = i)) with
      | some c =>
          -- a hit: the cached bytes are those a miss would read
          obtain ⟨hmem, hi⟩ := Option.filter_eq_some_iff.mp hhit
          obtain ⟨b, hb, hread⟩ := hc c hmem
          rw [of_decide_eq_true hi, hblock] at hb
          obtain rfl := Option.some.inj hb
          simp only [hhit, Option.filter_none, hread]
          refine ⟨?_, hc⟩
          cases extractPath c.2 index <;> rfl
      | none =>
          simp only [hhit, Option.filter_none]
          cases hread : r.readBlock z block with
          | error f => exact ⟨rfl, hc⟩
          | ok bytes =>
              cases hpath : extractPath bytes index with
              | error f => exact ⟨by simp [hpath], by simpa [hpath] using hc⟩
              | ok path =>
                  refine ⟨by simp [hpath], ?_⟩
                  simp only [hpath]
                  intro c hmem
                  obtain rfl := Option.some.inj hmem
                  exact ⟨block, hblock, hread⟩

/-- Any sequence of calls answers as if every call decompressed its block. -/
theorem DbReader.docPaths_eq {cache : Option (ℕ × Bytes)} (hc : r.CacheOk z cache)
    (ds : List ℕ) : r.docPaths z cache ds = ds.map (r.docPath z) := by
  induction ds generalizing cache with
  | nil => rfl
  | cons d ds ih =>
      obtain ⟨heq, hc'⟩ := DbReader.docPathWith_eq hc d
      rw [DbReader.docPaths, heq, ih hc', List.map_cons]

lemma DbReader.cacheOk_none : r.CacheOk z none := fun _ h => nomatch h

end Cache

/-! ## The builder's state -/

/-- `insert_with` for every file, then `set_build_time`. -/
def DbBuilder.ofFiles (files : List (String × LiteMeta)) (buildTime : ℕ) : DbBuilder :=
  (files.foldl (fun (b : DbBuilder) f => b.insertWith f.1 f.2) {}).setBuildTime buildTime

def loweredPaths (files : List (String × LiteMeta)) : List Bytes :=
  files.map fun f => lowerBytes f.1

/-- The builder holds the files and an index of their lowercased paths. -/
structure DbBuilder.Holds (b : DbBuilder) (files : List (String × LiteMeta)) : Prop where
  paths_eq : b.paths = files.map Prod.fst
  lites_eq : b.lites = files.map Prod.snd
  indexed : Indexed b.tryMap (loweredPaths files)

lemma DbBuilder.Holds.insertWith {b : DbBuilder} {files : List (String × LiteMeta)}
    (h : b.Holds files) (hlen : files.length < 2 ^ 32) (f : String × LiteMeta) :
    (b.insertWith f.1 f.2).Holds (files ++ [f]) := by
  have hid : b.paths.length % 2 ^ 32 = (loweredPaths files).length := by
    rw [h.paths_eq, List.length_map, loweredPaths, List.length_map, Nat.mod_eq_of_lt hlen]
  refine ⟨by simp [DbBuilder.insertWith, h.paths_eq],
    by simp [DbBuilder.insertWith, h.lites_eq], ?_⟩
  have hadd := h.indexed.add (lowerBytes f.1)
  rw [← hid] at hadd
  rw [loweredPaths, List.map_append]
  exact hadd

lemma DbBuilder.ofFiles_holds {files : List (String × LiteMeta)} (hlen : files.length < 2 ^ 32)
    (buildTime : ℕ) : (DbBuilder.ofFiles files buildTime).Holds files := by
  have hnew : ({} : DbBuilder).Holds [] := ⟨rfl, rfl, Indexed.nil⟩
  have h := foldl_holds DbBuilder.Holds.insertWith hnew files (by simpa using hlen.le)
  exact ⟨h.paths_eq, h.lites_eq, h.indexed⟩

end DeepFinder
