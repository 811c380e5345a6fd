import DeepFinder.Core.Db

/-!
# The round trip of the filename database

Everything that was inserted reads back: the sections stand at the offsets the header names, the
block index locates every path's block, and the hash table answers every trigram.

What the format bounds is bounded: the number of documents and the length of a path by 32 bits, the
length of a compressed block by 32 bits, the time by 64 bits, and the file by the largest vector.
The compressor is a parameter.  All that is asked of it (`Zstd.Lawful`) is that decoding with the
dictionary of a database gives back what was encoded with it; whether a dictionary is trained is
decided as in the source.
-/

namespace DeepFinder

open ByteString Chunks

/-! ## Reading pieces of the file -/

lemma readAt_of_standsAt {src x : Bytes} {off : ℕ} (h : StandsAt src off x)
    (hsrc : src.length < 2 ^ 64) : readAt src off x.length = .ok x := by
  have hle := h.le_length
  rw [readAt, if_neg (by omega), h.subslice]

/-- A block of the index with the offset it is written at. -/
def blockRef (z : Zstd) (dict : Bytes) (chunk : List String) (off : ℕ) : BlockRef :=
  ⟨off, (compressBlock z dict chunk).length, chunk.length⟩

/-- The block index of the blocks written from offset `base` on. -/
def blockRefs (z : Zstd) (dict : Bytes) (base : ℕ) (blocks : List (List String)) :
    List BlockRef := pieceRefs (compressBlock z dict) (blockRef z dict) base blocks

lemma encodeBlocks_eq (z : Zstd) (dict : Bytes) (base : ℕ) (blocks : List (List String)) :
    encodeBlocks z dict base blocks =
      (blockRefs z dict base blocks, blocks.flatMap (compressBlock z dict)) :=
  foldl_pieces (compressBlock z dict) (blockRef z dict) base blocks ([], [])

@[simp] lemma length_blockRefBytes (r : BlockRef) : (blockRefBytes r).length = 16 := by
  simp [blockRefBytes]

def blockStarts : ℕ → List BlockRef → List ℕ
  | _, [] => []
  | start, r :: rs => start :: blockStarts (start + r.count) rs

/-- The index reads back when its fields fit and the document count does. -/
lemma readBlockIndex_eq {idxBytes : Bytes} {refs : List BlockRef}
    (hidx : StandsAt idxBytes 0 (refs.flatMap blockRefBytes))
    (hfit : ∀ r ∈ refs, r.off < 2 ^ 64 ∧ r.clen < 2 ^ 32 ∧ r.count < 2 ^ 32) :
    ∀ (todo i start : ℕ), todo + i = refs.length →
      start + ((refs.drop i).map BlockRef.count).sum < 2 ^ 32 →
      readBlockIndex idxBytes todo i start =
        .ok (refs.drop i, blockStarts start (refs.drop i)) := by
  intro todo
  induction todo with
  | zero =>
      intro i start hlen _
      rw [List.drop_eq_nil_of_le (by omega)]
      rfl
  | succ todo ih =>
      intro i start hlen hsum
      have hi : i < refs.length := by omega
      obtain ⟨hoff, hclen, hcount⟩ := hfit refs[i] (List.getElem_mem hi)
      have hrec := hidx.record blockRefBytes length_blockRefBytes (List.getElem?_eq_getElem hi)
      rw [Nat.zero_add, blockRefBytes] at hrec
      have h1 : leU64 idxBytes (i * 16) = .ok refs[i].off := leAt_of_standsAt hrec.left hoff
      have h2 : leU32 idxBytes (i * 16 + 8) = .ok refs[i].clen := by
        have := leAt_of_standsAt hrec.right.left hclen
        rwa [length_toLE] at this
      have h3 : leU32 idxBytes (i * 16 + 12) = .ok refs[i].count := by
        have := leAt_of_standsAt hrec.right.right hcount
        rwa [length_toLE, length_toLE] at this
      rw [List.drop_eq_getElem_cons hi] at hsum ⊢
      rw [List.map_cons, List.sum_cons] at hsum
      rw [readBlockIndex, h1, bind_ok, h2, bind_ok, h3, bind_ok, if_pos (by omega),
        ih (i + 1) _ (by omega) (by omega)]
      rfl

/-! ## The file -/

section File

variable (z : Zstd) (b : DbBuilder)

def DbBuilder.dict : Bytes := trainDict z b.paths

def DbBuilder.blocks : List (List String) := chunks blockPaths b.paths

def DbBuilder.blocksBase : ℕ := headerLen + (4 + (b.dict z).length + 4 + b.blocks.length * 16)

def DbBuilder.refs : List BlockRef := blockRefs z (b.dict z) (b.blocksBase z) b.blocks

/-- The file that `finish` writes around a hash table. -/
def DbBuilder.file (table : Bytes) : Bytes :=
  dbHeader b.paths.length b.buildTime (b.metaOff z) (b.tryOff z) (b.postOff z)
      (slotsLog2 (slotCount b.tryMap.length)) ++
    (b.docsSection z ++ (b.lites.flatMap metaRecord ++ (table ++ postingBytes b.tryMap)))

/-- The length of the file that `finish` writes. -/
def DbBuilder.fileSize : ℕ := b.postOff z + (postingBytes b.tryMap).length

/-- The reader of that file. -/
def DbBuilder.reader (table : Bytes) : DbReader where
  src := b.file z table
  numDocs := b.paths.length
  buildTime := b.buildTime
  metaOff := b.metaOff z
  tryOff := b.tryOff z
  slots := slotCount b.tryMap.length
  dict := b.dict z
  blocks := b.refs z
  blockStart := blockStarts 0 (b.refs z)

variable {z b}

lemma length_dbHeader (n t o₁ o₂ o₃ k : ℕ) : (dbHeader n t o₁ o₂ o₃ k).length = headerLen := by
  have h : dbMagic.length = 4 := by decide
  simp [dbHeader, h, headerLen]

lemma docsSection_eq : b.docsSection z =
    toLE 4 (b.dict z).length ++ (b.dict z ++ (toLE 4 b.blocks.length ++
      ((b.refs z).flatMap blockRefBytes ++ b.blocks.flatMap (compressBlock z (b.dict z))))) := by
  rw [DbBuilder.docsSection, encodeBlocks_eq]
  rfl

lemma DbBuilder.standsAt_docs (table : Bytes) :
    StandsAt (b.file z table) headerLen (b.docsSection z) := by
  have h := (StandsAt.refl (b.file z table)).right.left
  rwa [length_dbHeader, Nat.zero_add] at h

lemma DbBuilder.standsAt_metas (table : Bytes) :
    StandsAt (b.file z table) (b.metaOff z) (b.lites.flatMap metaRecord) := by
  have h := (StandsAt.refl (b.file z table)).right.right.left
  rwa [length_dbHeader, Nat.zero_add] at h

lemma DbBuilder.standsAt_table (table : Bytes) :
    StandsAt (b.file z table) (b.tryOff z) table := by
  have h := (StandsAt.refl (b.file z table)).right.right.right.left
  rwa [length_dbHeader, Nat.zero_add] at h

lemma DbBuilder.standsAt_postings {table : Bytes}
    (htable : table.length = slotCount b.tryMap.length * slotLen) :
    StandsAt (b.file z table) (b.postOff z) (postingBytes b.tryMap) := by
  have h := (StandsAt.refl (b.file z table)).right.right.right.right
  rwa [length_dbHeader, Nat.zero_add, htable] at h

lemma DbBuilder.length_file {table : Bytes}
    (htable : table.length = slotCount b.tryMap.length * slotLen) :
    (b.file z table).length = b.fileSize z := by
  rw [DbBuilder.file, List.length_append, length_dbHeader, DbBuilder.fileSize, DbBuilder.postOff,
    DbBuilder.tryOff, DbBuilder.metaOff]
  simp only [List.length_append, htable]
  omega

/-- The header reads back. -/
lemma leAt_dbHeader {n t o₁ o₂ k : ℕ} (hn : n < 2 ^ 32) (ht : t < 2 ^ 64) (h₁ : o₁ < 2 ^ 64)
    (h₂ : o₂ < 2 ^ 64) (o₃ : ℕ) (hk : k < 2 ^ 32) :
    let hdr := dbHeader n t o₁ o₂ o₃ k
    leU32 hdr 4 = .ok dbVersion ∧ leU32 hdr 8 = .ok n ∧ leU64 hdr 12 = .ok t ∧
      leU64 hdr 20 = .ok headerLen ∧ leU64 hdr 28 = .ok o₁ ∧ leU64 hdr 44 = .ok o₂ ∧
      leU32 hdr 60 = .ok k := by
  have hmagic : dbMagic.length = 4 := by decide
  have h := StandsAt.refl (dbHeader n t o₁ o₂ o₃ k)
  have e1 := h.right
  have e2 := e1.right
  have e3 := e2.right
  have e4 := e3.right
  have e5 := e4.right
  have e6 := e5.right
  have e7 := e6.right
  have e8 := e7.right
  have e9 := e8.right
  simp only [hmagic, length_toLE, Nat.zero_add, Nat.reduceAdd] at e1 e2 e3 e4 e5 e6 e7 e8 e9
  exact ⟨leAt_of_standsAt e1.left (by decide), leAt_of_standsAt e2.left hn,
    leAt_of_standsAt e3.left ht, leAt_of_standsAt e4.left (by decide),
    leAt_of_standsAt e5.left h₁, leAt_of_standsAt e7.left h₂, leAt_of_standsAt e9 hk⟩

/-- What a file must satisfy for its 32- and 64-bit fields to hold what is written to them.  The
bound on the whole file is that of a vector; offsets inside of it then fit their 64 bits. -/
structure DbBuilder.Fits (z : Zstd) (b : DbBuilder) : Prop where
  count_lt : b.paths.length < 2 ^ 32
  time_lt : b.buildTime < 2 ^ 64
  path_lt : ∀ p ∈ b.paths, (utf8 p).length < 2 ^ 32
  block_lt : ∀ c ∈ b.blocks, (compressBlock z (b.dict z) c).length < 2 ^ 32
  size_lt : b.fileSize z < 2 ^ 63

instance (z : Zstd) (b : DbBuilder) : Decidable (b.Fits z) :=
  decidable_of_iff (b.paths.length < 2 ^ 32 ∧ b.buildTime < 2 ^ 64 ∧
    (∀ p ∈ b.paths, (utf8 p).length < 2 ^ 32) ∧
    (∀ c ∈ b.blocks, (compressBlock z (b.dict z) c).length < 2 ^ 32) ∧ b.fileSize z < 2 ^ 63)
    ⟨fun ⟨hcount, htime, hpath, hblock, hsize⟩ => ⟨hcount, htime, hpath, hblock, hsize⟩,
      fun ⟨hcount, htime, hpath, hblock, hsize⟩ => ⟨hcount, htime, hpath, hblock, hsize⟩⟩

lemma blockPaths_pos : 0 < blockPaths := by decide

lemma sum_count_blockRefs (dict : Bytes) (paths : List String) (base : ℕ) :
    ((blockRefs z dict base (chunks blockPaths paths)).map BlockRef.count).sum = paths.length := by
  induction paths using chunk_induction blockPaths_pos generalizing base with
  | nil => rfl
  | step paths hne ih =>
      rw [chunks_of_ne_nil blockPaths_pos hne, blockRefs, pieceRefs, List.map_cons, List.sum_cons]
      have hrest := ih (base + (compressBlock z dict (paths.take blockPaths)).length)
      rw [blockRefs] at hrest
      rw [hrest, blockRef, List.length_take, List.length_drop]
      dsimp only
      omega

/-- Block `i` starts at docid `256 * i`. -/
lemma getElem?_blockStarts (dict : Bytes) (paths : List String) (base start i : ℕ) :
    (blockStarts start (blockRefs z dict base (chunks blockPaths paths)))[i]? =
      if i * blockPaths < paths.length then some (start + i * blockPaths) else none := by
  induction paths using chunk_induction blockPaths_pos generalizing base start i with
  | nil => rfl
  | step paths hne ih =>
      have hpos : 0 < paths.length := List.length_pos_iff.mpr hne
      rw [chunks_of_ne_nil blockPaths_pos hne, blockRefs, pieceRefs, blockStarts]
      cases i with
      | zero => simp [hpos]
      | succ i =>
          have hrest := ih (base + (compressBlock z dict (paths.take blockPaths)).length)
            (start + (blockRef z dict (paths.take blockPaths) base).count) i
          rw [blockRefs] at hrest
          rw [List.getElem?_cons_succ, hrest, blockRef, List.length_take, List.length_drop,
            Nat.succ_mul]
          split
          · rw [if_pos (by omega), Nat.min_eq_left (by omega)]
            congr 1
            dsimp only
            omega
          · rw [if_neg (by omega)]

/-- The length of a `takeWhile` that stops at `i`. -/
lemma length_takeWhile_eq {α : Type} {p : α → Bool} {l : List α} {i : ℕ} (hi : i ≤ l.length)
    (hbefore : ∀ j < i, ∀ a, l[j]? = some a → p a = true)
    (hat : ∀ a, l[i]? = some a → p a = false) : (l.takeWhile p).length = i := by
  induction l generalizing i with
  | nil =>
      obtain rfl : i = 0 := by simpa using hi
      rfl
  | cons a l ih =>
      cases i with
      | zero => simp [hat a rfl]
      | succ i =>
          have hrest := ih (i := i) (by simpa using hi)
            (fun j hj x hx => hbefore (j + 1) (by omega) x (by simpa using hx))
            (fun x hx => hat x (by simpa using hx))
          simp [hbefore 0 (by omega) a rfl, hrest]

/-! ## Where the parts of the DOCS section stand -/

lemma length_refs : (b.refs z).length = b.blocks.length := by
  rw [DbBuilder.refs, blockRefs, length_pieceRefs]

section Docs

variable (z b) (table : Bytes)

lemma DbBuilder.standsAt_docsParts :
    StandsAt (b.file z table) headerLen (toLE 4 (b.dict z).length) ∧
    StandsAt (b.file z table) (headerLen + 4) (b.dict z) ∧
    StandsAt (b.file z table) (headerLen + 4 + (b.dict z).length) (toLE 4 b.blocks.length) ∧
    StandsAt (b.file z table) (headerLen + 4 + (b.dict z).length + 4)
      ((b.refs z).flatMap blockRefBytes) ∧
    StandsAt (b.file z table) (b.blocksBase z)
      (b.blocks.flatMap (compressBlock z (b.dict z))) := by
  have h := DbBuilder.standsAt_docs (z := z) (b := b) table
  rw [docsSection_eq] at h
  have h2 := h.right
  have h3 := h2.right
  have h4 := h3.right
  have h5 := h4.right
  rw [length_flatMap_of_width length_blockRefBytes, length_refs] at h5
  simp only [length_toLE] at h2 h3 h4 h5
  refine ⟨h.left, h2.left, h3.left, h4.left, ?_⟩
  rwa [DbBuilder.blocksBase, show headerLen + (4 + (b.dict z).length + 4 + b.blocks.length * 16) =
    headerLen + 4 + (b.dict z).length + 4 + b.blocks.length * 16 by omega]

lemma DbBuilder.standsAt_block {i : ℕ} {chunk : List String} (h : b.blocks[i]? = some chunk) :
    ∃ off, (b.refs z)[i]? = some (blockRef z (b.dict z) chunk off) ∧
      StandsAt (b.file z table) off (compressBlock z (b.dict z) chunk) := by
  obtain ⟨-, -, -, -, hblocks⟩ := DbBuilder.standsAt_docsParts z b table
  refine ⟨_, ?_, hblocks.piece (compressBlock z (b.dict z)) h⟩
  rw [DbBuilder.refs, blockRefs, getElem?_pieceRefs, h]
  rfl

end Docs

variable (hb : b.Fits z)
include hb

lemma DbBuilder.Fits.offset_lt {table : Bytes}
    (htable : table.length = slotCount b.tryMap.length * slotLen) {off : ℕ} {x : Bytes}
    (h : StandsAt (b.file z table) off x) : off + x.length < 2 ^ 63 := by
  have hle := h.le_length
  rw [DbBuilder.length_file htable] at hle
  exact lt_of_le_of_lt hle hb.size_lt

lemma DbBuilder.Fits.read {table : Bytes}
    (htable : table.length = slotCount b.tryMap.length * slotLen) {off : ℕ} {x : Bytes}
    (h : StandsAt (b.file z table) off x) : readAt (b.file z table) off x.length = .ok x := by
  refine readAt_of_standsAt h ?_
  rw [DbBuilder.length_file htable]
  exact hb.size_lt.trans (by decide)

lemma DbBuilder.Fits.length_blocks : b.blocks.length < 2 ^ 32 := by
  have hcount := hb.count_lt
  have h256 : blockPaths = 256 := rfl
  rw [DbBuilder.blocks, length_chunks blockPaths_pos, h256]
  omega

/-- The fields of the block index fit their widths. -/
lemma DbBuilder.Fits.refs_fit {table : Bytes}
    (htable : table.length = slotCount b.tryMap.length * slotLen) :
    ∀ r ∈ b.refs z, r.off < 2 ^ 64 ∧ r.clen < 2 ^ 32 ∧ r.count < 2 ^ 32 := by
  intro r hr
  obtain ⟨i, hi, hri⟩ := List.mem_iff_getElem.mp hr
  have hi' : i < b.blocks.length := length_refs ▸ hi
  have hmem := List.getElem_mem hi'
  obtain ⟨off, hget, hstands⟩ :=
    DbBuilder.standsAt_block z b table (List.getElem?_eq_getElem hi')
  rw [List.getElem?_eq_getElem hi, hri] at hget
  obtain rfl := Option.some.inj hget
  have hoff := hb.offset_lt htable hstands
  have hcount := length_le_of_mem_chunks blockPaths_pos b.paths _ hmem
  have h256 : blockPaths = 256 := rfl
  refine ⟨?_, hb.block_lt _ hmem, ?_⟩ <;> dsimp only [blockRef] <;> omega

/-- `open` succeeds on the file. -/
lemma DbBuilder.Fits.open_file (hz : z.Lawful) (hm : b.tryMap.length ≤ 2 ^ 24)
    {table : Bytes} (htable : table.length = slotCount b.tryMap.length * slotLen) :
    DbReader.open (b.file z table) = .ok (b.reader z table) := by
  obtain ⟨hlen, hdict, hcount, hindex, -⟩ := DbBuilder.standsAt_docsParts z b table
  have hhdr : StandsAt (b.file z table) 0 (dbHeader b.paths.length b.buildTime (b.metaOff z)
      (b.tryOff z) (b.postOff z) (slotsLog2 (slotCount b.tryMap.length))) :=
    (StandsAt.refl _).left
  have hmeta := hb.offset_lt htable (DbBuilder.standsAt_metas (z := z) (b := b) table)
  have htry := hb.offset_lt htable (DbBuilder.standsAt_table (z := z) (b := b) table)
  have hlog := slotsLog2_lt hm
  obtain ⟨hversion, hdocs, htime, hdocsOff, hmetaOff, htryOff, hlog2⟩ :=
    leAt_dbHeader hb.count_lt hb.time_lt (show b.metaOff z < 2 ^ 64 by omega)
      (show b.tryOff z < 2 ^ 64 by omega) (b.postOff z)
      (show slotsLog2 (slotCount b.tryMap.length) < 2 ^ 32 by omega)
  have hread := hb.read htable hhdr
  rw [length_dbHeader] at hread
  have hmagic : (dbHeader b.paths.length b.buildTime (b.metaOff z) (b.tryOff z) (b.postOff z)
      (slotsLog2 (slotCount b.tryMap.length))).take 4 = dbMagic := by
    rw [dbHeader, List.take_left' (by decide)]
  have hdictLen : (b.dict z).length < 256 ^ 4 :=
    lt_of_le_of_lt (hz.length_trainDict b.paths) (by decide)
  have hblocks : b.blocks.length < 256 ^ 4 := hb.length_blocks
  have hreadLen := hb.read htable hlen
  have hreadCount := hb.read htable hcount
  have hreadIndex := hb.read htable hindex
  rw [length_toLE] at hreadLen hreadCount
  rw [length_flatMap_of_width length_blockRefBytes, length_refs] at hreadIndex
  have hrefs := readBlockIndex_eq (StandsAt.refl _) (hb.refs_fit htable) b.blocks.length 0 0
    (by rw [length_refs, Nat.add_zero])
    (by
      rw [List.drop_zero, Nat.zero_add, DbBuilder.refs, DbBuilder.blocks, sum_count_blockRefs]
      exact hb.count_lt)
  rw [List.drop_zero] at hrefs
  rw [DbReader.open, hread, bind_ok, if_neg (by rw [length_dbHeader, hmagic]; simp), hversion,
    bind_ok, if_neg (by simp), hdocs, bind_ok, htime, bind_ok, hdocsOff, bind_ok, hmetaOff,
    bind_ok, htryOff, bind_ok, hlog2, bind_ok, slotsOfLog2_slotsLog2 hm, bind_ok, hreadLen,
    bind_ok, leU32, leAt_of_standsAt (StandsAt.refl _) hdictLen, bind_ok, hb.read htable hdict,
    bind_ok, hreadCount, bind_ok, leU32, leAt_of_standsAt (StandsAt.refl _) hblocks, bind_ok,
    hreadIndex, bind_ok, hrefs, bind_ok]
  rfl

/-! ## Documents -/

variable {files : List (String × LiteMeta)} {table : Bytes}

lemma DbBuilder.Fits.docMeta_eq (hfiles : b.Holds files)
    (htable : table.length = slotCount b.tryMap.length * slotLen) {d : ℕ}
    {f : String × LiteMeta} (hd : files[d]? = some f) :
    (b.reader z table).docMeta d = .ok f.2 := by
  obtain ⟨hlt, -⟩ := List.getElem?_eq_some_iff.mp hd
  have hmeta : b.lites[d]? = some f.2 := by rw [hfiles.lites_eq, List.getElem?_map, hd]; rfl
  have hread := hb.read htable
    ((DbBuilder.standsAt_metas (z := z) (b := b) table).record metaRecord length_metaRecord hmeta)
  rw [length_metaRecord] at hread
  have hoff := lt_of_readAt hread
  rw [DbReader.docMeta, if_neg]
  · change (add64 (b.metaOff z) (d * metaRecLen) >>= fun off =>
      readAt (b.file z table) off metaRecLen >>= fun rec => readMeta rec) = _
    rw [add64_eq (by omega), bind_ok, hread, bind_ok, readMeta_metaRecord]
  · change ¬ b.paths.length ≤ d
    rw [hfiles.paths_eq, List.length_map]
    omega

omit hb in
lemma DbBuilder.docMeta_out_of_range {d : ℕ} (hd : b.paths.length ≤ d) :
    (b.reader z table).docMeta d = .error (.err (.query s!"docid {d} out of range")) := if_pos hd

variable (table) in
omit hb in
/-- The block that `locate` picks starts at the last multiple of 256 that is a block start and
not above the docid. -/
lemma DbBuilder.length_takeWhile_blockStart (d : ℕ) (hne : b.paths ≠ []) :
    ∃ i, i * blockPaths < b.paths.length ∧ i * blockPaths ≤ d ∧
      (d < b.paths.length → d < (i + 1) * blockPaths) ∧
      (b.paths.length ≤ d → b.paths.length ≤ (i + 1) * blockPaths) ∧
      (((b.reader z table).blockStart.takeWhile fun s => decide (s ≤ d)).length - 1) = i := by
  have h256 : blockPaths = 256 := rfl
  have hpos : 0 < b.paths.length := List.length_pos_iff.mpr hne
  have hget := getElem?_blockStarts (z := z) (b.dict z) b.paths (b.blocksBase z) 0
  change ∀ i, (b.reader z table).blockStart[i]? = _ at hget
  -- the number of blocks that start at or below `d`
  set m := min ((b.paths.length - 1) / 256) (d / 256) with hm
  have htw : ((b.reader z table).blockStart.takeWhile fun s => decide (s ≤ d)).length = m + 1 := by
    refine length_takeWhile_eq ?_ (fun j hj s hs => ?_) (fun s hs => ?_)
    · have hlast : (b.reader z table).blockStart[m]? ≠ none := by
        rw [hget m, if_pos (by rw [h256]; omega)]
        simp
      exact List.getElem?_eq_none_iff.not.mp hlast |> Nat.lt_of_not_le
    · rw [hget j] at hs
      split at hs
      · obtain rfl := Option.some.inj hs
        exact decide_eq_true (by rw [h256]; omega)
      · cases hs
    · rw [hget (m + 1)] at hs
      split at hs
      · rename_i hlt
        obtain rfl := Option.some.inj hs
        rw [h256] at hlt
        exact decide_eq_false (by rw [h256]; omega)
      · cases hs
  refine ⟨m, ?_, ?_, ?_, ?_, ?_⟩
  · rw [h256]; omega
  · rw [h256]; omega
  · rw [h256]; omega
  · rw [h256]; omega
  · rw [htw]; rfl

variable (table) in
omit hb in
/-- A nonempty database locates every docid at its block, or past the end of the last one. -/
lemma DbBuilder.locate_eq (d : ℕ) (hne : b.paths ≠ []) :
    ∃ i off chunk, b.blocks[i]? = some chunk ∧
      chunk = (b.paths.drop (i * blockPaths)).take blockPaths ∧
      (b.refs z)[i]? = some (blockRef z (b.dict z) chunk off) ∧
      StandsAt (b.file z table) off (compressBlock z (b.dict z) chunk) ∧
      (d < b.paths.length ↔ d - i * blockPaths < chunk.length) ∧ i * blockPaths ≤ d ∧
      (b.reader z table).locate d =
        if chunk.length ≤ d - i * blockPaths then
          .error (.err (.query s!"docid {d} out of range"))
        else .ok (i, blockRef z (b.dict z) chunk off, d - i * blockPaths) := by
  have h256 : blockPaths = 256 := rfl
  obtain ⟨i, hi, hid, hin, hout, htw⟩ :=
    DbBuilder.length_takeWhile_blockStart (z := z) table d hne
  have hchunk := getElem?_chunks blockPaths_pos b.paths i hi
  obtain ⟨off, href, hstands⟩ := DbBuilder.standsAt_block z b table hchunk
  refine ⟨i, off, _, hchunk, rfl, href, hstands, ?_, hid, ?_⟩
  · rw [List.length_take, List.length_drop, h256]
    rw [h256] at hi hid hin hout
    omega
  · have hstart : (b.reader z table).blockStart[i]? = some (i * blockPaths) := by
      have h := getElem?_blockStarts (z := z) (b.dict z) b.paths (b.blocksBase z) 0 i
      rw [if_pos hi, Nat.zero_add] at h
      exact h
    have hnil : (b.reader z table).blockStart ≠ [] := by
      intro h
      rw [h] at hstart
      cases hstart
    rw [DbReader.locate, if_neg hnil]
    dsimp only
    rw [htw, hstart, show (b.reader z table).blocks[i]? = _ from href]
    rfl

lemma DbBuilder.Fits.docPath_eq (hz : z.Lawful)
    (htable : table.length = slotCount b.tryMap.length * slotLen) {d : ℕ} {path : String}
    (hd : b.paths[d]? = some path) : (b.reader z table).docPath z d = .ok path := by
  obtain ⟨hlt, -⟩ := List.getElem?_eq_some_iff.mp hd
  obtain ⟨i, off, chunk, hblock, hchunk, -, hstands, hiff, hle, hloc⟩ :=
    DbBuilder.locate_eq (z := z) (b := b) table d (by rintro h; simp [h] at hlt)
  rw [if_neg (by have := hiff.mp hlt; omega)] at hloc
  have hread : (b.reader z table).readBlock z (blockRef z (b.dict z) chunk off) =
      .ok (chunk.flatMap pathRecord) := by
    have h := hb.read htable hstands
    change (readAt (b.file z table) off (compressBlock z (b.dict z) chunk).length >>= fun comp =>
      zstdDecode z comp (b.dict z)) = _
    rw [h, bind_ok, compressBlock]
    exact hz.decode_encode _ _ (z.trained_trainDict b.paths)
  have hlocal : chunk[d - i * blockPaths]? = some path := by
    have hin := hiff.mp hlt
    rw [hchunk, List.length_take] at hin
    rw [hchunk, List.getElem?_take_of_lt (by omega), List.getElem?_drop, Nat.add_sub_cancel' hle, hd]
  have hpaths : ∀ p ∈ chunk, (utf8 p).length < 2 ^ 32 := by
    intro p hp
    rw [hchunk] at hp
    exact hb.path_lt p (List.mem_of_mem_drop (List.mem_of_mem_take hp))
  have hextract : extractPath (chunk.flatMap pathRecord) (d - i * blockPaths) = .ok path :=
    scanPath_flatMap hpaths hlocal (StandsAt.refl _)
  rw [DbReader.docPath, DbReader.docPathWith, hloc]
  simp only [Option.filter_none, hread, hextract]

omit hb in
lemma DbBuilder.docPath_out_of_range {d : ℕ} (hd : b.paths.length ≤ d) :
    ∃ e, (b.reader z table).docPath z d = .error (.err e) := by
  by_cases hne : b.paths = []
  · refine ⟨.query "no docs indexed", ?_⟩
    have hnil : (b.reader z table).blockStart = [] := by
      change blockStarts 0 (blockRefs z _ _ (chunks blockPaths b.paths)) = []
      rw [hne]
      rfl
    rw [DbReader.docPath, DbReader.docPathWith, DbReader.locate, if_pos hnil]
  · obtain ⟨i, off, chunk, -, -, -, -, hiff, -, hloc⟩ :=
      DbBuilder.locate_eq (z := z) (b := b) table d hne
    have hout : chunk.length ≤ d - i * blockPaths := by
      by_contra h
      exact absurd (hiff.mpr (Nat.lt_of_not_le h)) (by omega)
    rw [if_pos hout] at hloc
    exact ⟨_, by rw [DbReader.docPath, DbReader.docPathWith, hloc]⟩

/-- `finish` succeeds, and the reader of its file answers every trigram. -/
lemma DbBuilder.Fits.finish_eq (hfiles : b.Holds files) :
    ∃ table, table.length = slotCount b.tryMap.length * slotLen ∧
      b.finish z = .ok (b.file z table) ∧
      ∀ t, (b.reader z table).posting t =
        .ok (if docsWith (loweredPaths files) t = [] then none
          else some (docsWith (loweredPaths files) t)) := by
  have hpm := hfiles.indexed.postingMap
  have hn : (loweredPaths files).length < 2 ^ 32 := by
    have := hb.count_lt
    rwa [hfiles.paths_eq, List.length_map, ← List.length_map (f := fun f : String × LiteMeta =>
      lowerBytes f.1)] at this
  obtain ⟨table, hbuild, htable, hprobe⟩ := table_built hpm hn
    (fun e he => length_encodePosting_lt (hpm.docs_ascending e he) (hpm.doc_lt e he) hn)
    (lt_trans hb.size_lt (by decide))
  refine ⟨table, htable, ?_, fun t => ?_⟩
  · rw [DbBuilder.finish, encodePostings_eq, hbuild, bind_ok]
    rfl
  · rw [← hfiles.indexed.find?_eq t]
    refine hprobe t _ _ (fun idx hidx => ?_) (fun off enc hstands => ?_)
    · have hle : (idx + 1) * slotLen ≤ table.length := by
        rw [htable]
        exact Nat.mul_le_mul_right _ hidx
      rw [Nat.succ_mul] at hle
      have hsub := subslice_eq_some hle
      have hread := hb.read htable
        ((DbBuilder.standsAt_table (z := z) (b := b) table).trans (standsAt_of_subslice hsub))
      rw [length_of_subslice hsub] at hread
      rw [sliceAt_eq_ok hsub]
      exact DbReader.slotAt_eq hread
    · exact hb.read htable ((DbBuilder.standsAt_postings htable).trans hstands)

end File

/-! ## The round trip -/

/-- Everything inserted reads back: the counts, every document in any order of calls, and the
posting list of every trigram. -/
theorem DbBuilder.finish_round_trip {z : Zstd} (hz : z.Lawful)
    {files : List (String × LiteMeta)} {buildTime : ℕ}
    (hb : (DbBuilder.ofFiles files buildTime).Fits z) (hlen : files.length < 2 ^ 32) :
    ∃ bytes r, (DbBuilder.ofFiles files buildTime).finish z = .ok bytes ∧
      bytes.length = (DbBuilder.ofFiles files buildTime).fileSize z ∧
      DbReader.open bytes = .ok r ∧ r.numDocs = files.length ∧ r.buildTime = buildTime ∧
      (∀ d f, files[d]? = some f → r.docPath z d = .ok f.1 ∧ r.docMeta d = .ok f.2) ∧
      (∀ d, files.length ≤ d →
        (∃ e, r.docPath z d = .error (.err e)) ∧ ∃ e, r.docMeta d = .error (.err e)) ∧
      (∀ ds, r.docPaths z none ds = ds.map (r.docPath z)) ∧
      ∀ t, r.posting t = .ok (if docsWith (loweredPaths files) t = [] then none
        else some (docsWith (loweredPaths files) t)) := by
  have hfiles := DbBuilder.ofFiles_holds hlen buildTime
  have hcount : (DbBuilder.ofFiles files buildTime).paths.length = files.length := by
    rw [hfiles.paths_eq, List.length_map]
  obtain ⟨table, htable, hfinish, hposting⟩ := hb.finish_eq hfiles
  refine ⟨_, _, hfinish, DbBuilder.length_file htable,
    hb.open_file hz hfiles.indexed.postingMap.length_le htable, hcount, rfl,
    fun d f hd => ⟨?_, hb.docMeta_eq hfiles htable hd⟩, fun d hd => ?_, fun ds => ?_, hposting⟩
  · refine hb.docPath_eq hz htable ?_
    rw [hfiles.paths_eq, List.getElem?_map, hd]
    rfl
  · exact ⟨DbBuilder.docPath_out_of_range (by omega),
      ⟨_, DbBuilder.docMeta_out_of_range (by omega)⟩⟩
  · exact DbReader.docPaths_eq DbReader.cacheOk_none ds

/-- Every insertion sequence whose paths and compressed blocks are shorter than `2 ^ 32` bytes and
whose file fits a vector reads back: the header, every path and its metadata by document number,
several paths at once, and the posting list of every trigram.  Numbers behind the last document are
errors and no panics. -/
theorem filename_db_reads_back {z : Zstd} (hz : z.Lawful) {files : List (String × LiteMeta)}
    {buildTime : ℕ} (hlen : files.length < 2 ^ 32) (htime : buildTime < 2 ^ 64)
    (hpaths : ∀ f ∈ files, (utf8 f.1).length < 2 ^ 32)
    (hblocks : ∀ c ∈ chunks blockPaths (files.map Prod.fst),
      (compressBlock z (trainDict z (files.map Prod.fst)) c).length < 2 ^ 32)
    (hsize : (DbBuilder.ofFiles files buildTime).fileSize z < 2 ^ 63) :
    ∃ bytes r, (DbBuilder.ofFiles files buildTime).finish z = .ok bytes ∧
      bytes.length = (DbBuilder.ofFiles files buildTime).fileSize z ∧
      DbReader.open bytes = .ok r ∧ r.numDocs = files.length ∧ r.buildTime = buildTime ∧
      (∀ d f, files[d]? = some f → r.docPath z d = .ok f.1 ∧ r.docMeta d = .ok f.2) ∧
      (∀ d, files.length ≤ d →
        (∃ e, r.docPath z d = .error (.err e)) ∧ ∃ e, r.docMeta d = .error (.err e)) ∧
      (∀ ds, r.docPaths z none ds = ds.map (r.docPath z)) ∧
      ∀ t, r.posting t = .ok (if docsWith (loweredPaths files) t = [] then none
        else some (docsWith (loweredPaths files) t)) := by
  have hfiles := DbBuilder.ofFiles_holds hlen buildTime
  refine DbBuilder.finish_round_trip hz ⟨?_, htime, ?_, ?_, hsize⟩ hlen
  · rwa [hfiles.paths_eq, List.length_map]
  · intro p hp
    rw [hfiles.paths_eq] at hp
    obtain ⟨f, hf, rfl⟩ := List.mem_map.mp hp
    exact hpaths f hf
  · rw [DbBuilder.blocks, DbBuilder.dict, hfiles.paths_eq]
    exact hblocks

/-- Two files, one path a substring of the other when lowercased. -/
theorem filename_db_reads_back_two :
    let files : List (String × LiteMeta) := [("/Abc", ⟨true, 0, 7⟩), ("/abcd", ⟨false, 12, -3⟩)]
    ∃ bytes r, (DbBuilder.ofFiles files 99).finish .stored = .ok bytes ∧
      DbReader.open bytes = .ok r ∧ r.docPaths .stored none [1, 0] = [.ok "/abcd", .ok "/Abc"] ∧
      r.posting (trigramKey (utf8 "abc")) = .ok (some [0, 1]) := by
  obtain ⟨bytes, r, hfinish, -, hopen, -, -, hdocs, -, hpaths, hposting⟩ :=
    @filename_db_reads_back .stored Zstd.stored_lawful
      [("/Abc", ⟨true, 0, 7⟩), ("/abcd", ⟨false, 12, -3⟩)] 99 (by decide) (by decide) (by decide)
      (by decide +kernel) (by decide +kernel)
  refine ⟨bytes, r, hfinish, hopen, ?_, ?_⟩
  · rw [hpaths]
    simp [(hdocs 0 _ rfl).1, (hdocs 1 _ rfl).1]
  · rw [hposting]
    decide +kernel

/-- A path the format cannot hold: the length field wraps at `2 ^ 32`. -/
def overlongPath : String := String.ofList (List.replicate (2 ^ 32) 'a')

lemma length_utf8_replicate (n : ℕ) :
    (utf8 (String.ofList (List.replicate n 'a'))).length = n := by
  rw [utf8, String.toByteArray_ofList]
  change (List.replicate n 'a').utf8Encode.size = n
  induction n with
  | zero => rfl
  | succ n ih =>
      have hone : ['a'].utf8Encode.size = 1 := by decide
      rw [List.replicate_succ, List.utf8Encode_cons, ByteArray.size_append, ih, hone]
      omega

/-- No database returns a path of `2 ^ 32` bytes or more. -/
lemma DbReader.length_docPath_lt {z : Zstd} {r : DbReader} {d : ℕ} {path : String}
    (h : r.docPath z d = .ok path) : (utf8 path).length < 2 ^ 32 := by
  unfold DbReader.docPath DbReader.docPathWith at h
  cases hloc : r.locate d with
  | error f => rw [hloc] at h; cases h
  | ok loc =>
      obtain ⟨i, block, index⟩ := loc
      simp only [hloc, Option.filter_none] at h
      cases hread : r.readBlock z block with
      | error f => rw [hread] at h; cases h
      | ok bytes =>
          cases hpath : extractPath bytes index with
          | error f => simp [hread, hpath] at h
          | ok p =>
              simp only [hread, hpath] at h
              obtain rfl := Except.ok.inj h
              exact length_of_scanPath hpath

/-- A path of `2 ^ 32` bytes does not read back. -/
theorem overlong_path_does_not_read_back :
    Zstd.stored.Lawful ∧ ¬ ∃ bytes r,
      (DbBuilder.ofFiles [(overlongPath, ⟨false, 0, 0⟩)] 0).finish .stored = .ok bytes ∧
        DbReader.open bytes = .ok r ∧ r.docPath .stored 0 = .ok overlongPath := by
  refine ⟨Zstd.stored_lawful, fun h => ?_⟩
  obtain ⟨_, r, _, _, hpath⟩ := h
  exact Nat.not_lt.mpr (length_utf8_replicate (2 ^ 32)).ge (DbReader.length_docPath_lt hpath)

end DeepFinder
