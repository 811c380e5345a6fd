import DeepFinder.Content.Shard
import DeepFinder.Lib.AssocMap

/-!
# The round trip of a shard

The sections of a finished shard stand where its table of contents says, so the reader returns
what was added, and its postings index the folded contents.  With `ShardView.Indexes.candidates_eq`
this makes a search over a shard equal to a scan of the files.

The numbers in a shard's header are bounded by their fields, and the size of the file by the offsets
of its sections, which are `u32`.  `Index/ShardSizes.lean` says what happens to larger ones.  The
limit of a query is applied to the files in the order in which they were added.
-/

namespace DeepFinder

open ByteString

/-! ## The builder's state -/

/-- `add_file` for every file. -/
def ShardBuilder.ofFiles (shardId baseDocid : ℕ) (files : List ShardFile) : ShardBuilder :=
  files.foldl ShardBuilder.addFile { shardId, baseDocid }

def foldedContents (files : List ShardFile) : List Bytes := files.map fun f => fold f.content

/-- The record of a content written at offset `off`. -/
def contentRef (f : ShardFile) (off : ℕ) : ℕ × ℕ := (off, f.content.length)

/-- The builder holds the files and an index of their folded contents. -/
structure ShardBuilder.Holds (b : ShardBuilder) (files : List ShardFile) : Prop where
  paths_eq : b.paths = files.map ShardFile.path
  lites_eq : b.lites = files.map ShardFile.lite
  corpus_eq : b.corpus = files.flatMap ShardFile.content
  offsets_eq : b.offsets = pieceRefs ShardFile.content contentRef 0 files
  indexed : Indexed b.tryMap (foldedContents files)

lemma ShardBuilder.Holds.addFile {b : ShardBuilder} {files : List ShardFile} (h : b.Holds files)
    (hlen : files.length < 2 ^ 32) (f : ShardFile) : (b.addFile f).Holds (files ++ [f]) := by
  have hid : b.paths.length % 2 ^ 32 = (foldedContents files).length := by
    rw [h.paths_eq, List.length_map, foldedContents, List.length_map, Nat.mod_eq_of_lt hlen]
  refine ⟨by simp [ShardBuilder.addFile, h.paths_eq], by simp [ShardBuilder.addFile, h.lites_eq],
    by simp [ShardBuilder.addFile, h.corpus_eq], ?_, ?_⟩
  · rw [pieceRefs_snoc, Nat.zero_add, ← h.corpus_eq, ← h.offsets_eq]
    rfl
  · have hadd := h.indexed.add (fold f.content)
    rw [← hid] at hadd
    rw [foldedContents, List.map_append]
    exact hadd

lemma ShardBuilder.ofFiles_holds {files : List ShardFile} (hlen : files.length ≤ 2 ^ 32)
    (shardId baseDocid : ℕ) : (ShardBuilder.ofFiles shardId baseDocid files).Holds files := by
  have hnew : ShardBuilder.Holds { shardId, baseDocid } [] := ⟨rfl, rfl, rfl, rfl, Indexed.nil⟩
  exact foldl_holds ShardBuilder.Holds.addFile hnew files (by simpa using hlen)

/-! ## The table of contents -/

/-- The location of a section written at offset `off`. -/
def sectionLoc (s : String × Bytes) (off : ℕ) : String × ℕ × ℕ := (s.1, off, s.2.length)

def sectionLocs (sections : List (String × Bytes)) : List (String × ℕ × ℕ) :=
  pieceRefs Prod.snd sectionLoc 0 sections

lemma layOutSections_eq (sections : List (String × Bytes)) :
    layOutSections sections = (sectionLocs sections, sections.flatMap Prod.snd) := by
  have h := foldl_pieces Prod.snd sectionLoc 0 sections ([], [])
  simp only [Nat.zero_add, List.nil_append, List.length_nil] at h
  exact h

/-- A location that the table can hold, of a section the reader knows. -/
structure ValidLoc (loc : String × ℕ × ℕ) : Prop where
  known : loc.1 ∈ knownTags
  off_lt : loc.2.1 < 2 ^ 32
  size_lt : loc.2.2 < 2 ^ 32

lemma length_utf8_of_known {tag : String} (h : tag ∈ knownTags) : (utf8 tag).length < 2 ^ 32 := by
  have hall : ∀ tag ∈ knownTags, (utf8 tag).length < 2 ^ 32 := by decide
  exact hall tag h

lemma readToc_eq {toc : Bytes} {locs : List (String × ℕ × ℕ)} (hlocs : ∀ l ∈ locs, ValidLoc l)
    {p : ℕ} (h : StandsAt toc p (locs.flatMap tocEntry)) (sect : List (String × ℕ × ℕ)) :
    readToc toc locs.length p sect = .ok (locs.reverse ++ sect) := by
  induction locs generalizing p sect with
  | nil => rfl
  | cons loc locs ih =>
      obtain ⟨hknown, hoff, hsize⟩ := hlocs loc (List.mem_cons_self ..)
      have htag := length_utf8_of_known hknown
      rw [List.flatMap_cons, tocEntry] at h
      have hentry := h.left
      have hrest := h.right
      have hname := hentry.right.left
      have hkind := hentry.right.right.left
      have hoffs := hentry.right.right.right.left
      have hsz := hentry.right.right.right.right
      simp only [List.length_append, length_toLE, List.length_singleton] at hrest hoffs hsz
      set q := p + (encodeU32 (utf8 loc.1).length).length with hq
      have hbyte : byteAt toc (q + (utf8 loc.1).length) = .ok 0 := by
        obtain ⟨pre, post, rfl, hpre⟩ := hkind
        rw [byteAt, ← hpre]
        simp
      rw [List.length_cons, readToc, decodeU32_encodeU32 htag hentry.left]
      dsimp only
      rw [← hq, sliceAt_eq_ok hname.subslice, bind_ok, hbyte, bind_ok, leU32,
        leAt_of_standsAt hoffs hoff, bind_ok, leU32, leAt_of_standsAt hsz hsize, bind_ok,
        fromUtf8_utf8]
      dsimp only
      rw [if_pos hknown, ih (fun l hl => hlocs l (List.mem_cons_of_mem _ hl)) (by
        rwa [show p + ((encodeU32 (utf8 loc.1).length).length + ((utf8 loc.1).length +
          (1 + (4 + 4)))) = q + (utf8 loc.1).length + 9 by omega] at hrest)]
      simp

/-! ## The file -/

section File

variable (b : ShardBuilder) (buildTime : ℕ)

def ShardBuilder.body (table : Bytes) : Bytes :=
  (b.sections buildTime table (postingBytes b.tryMap)).flatMap Prod.snd

def ShardBuilder.locs (table : Bytes) : List (String × ℕ × ℕ) :=
  sectionLocs (b.sections buildTime table (postingBytes b.tryMap))

def ShardBuilder.toc (table : Bytes) : Bytes :=
  toLE 4 (b.locs buildTime table).length ++ (b.locs buildTime table).flatMap tocEntry

/-- The file that `finish` writes around a hash table. -/
def ShardBuilder.file (table : Bytes) : Bytes :=
  b.body buildTime table ++ (b.toc buildTime table ++
    (toLE 4 (b.body buildTime table).length ++ toLE 4 (b.toc buildTime table).length))

/-- The length of the file that `finish` writes: the sections, 142 bytes of contents and the
footer. -/
def ShardBuilder.fileSize : ℕ :=
  26 + (b.paths.flatMap pathRecord).length + (b.lites.flatMap metaRecord).length +
    (b.offsets.flatMap offsetRecord).length + b.corpus.length +
    slotCount b.tryMap.length * slotLen + (postingBytes b.tryMap).length + 142 + 8

/-- The reader of that file. -/
def ShardBuilder.reader (table : Bytes) : ShardReader where
  bytes := b.file buildTime table
  buildTime := buildTime
  shardId := b.shardId
  numDocs := b.paths.length
  baseDocid := b.baseDocid
  slots := slotCount b.tryMap.length
  sect := (b.locs buildTime table).reverse

variable {b buildTime} {table : Bytes}

lemma length_metaData (t s d n k : ℕ) : (metaData t s d n k).length = 26 := by
  simp [metaData]

lemma length_flatMap_tocEntry (locs : List (String × ℕ × ℕ)) :
    (locs.flatMap tocEntry).length = ((locs.map Prod.fst).map fun tag =>
      (encodeU32 (utf8 tag).length).length + (utf8 tag).length + 9).sum := by
  induction locs with
  | nil => rfl
  | cons loc locs ih =>
      rw [List.flatMap_cons, List.length_append, ih, List.map_cons, List.map_cons, List.sum_cons]
      simp only [tocEntry, List.length_append, length_toLE, List.length_singleton]
      omega

lemma map_fst_locs : (b.locs buildTime table).map Prod.fst = knownTags := rfl

lemma length_toc : (b.toc buildTime table).length = 142 := by
  have hsum : (knownTags.map fun tag =>
      (encodeU32 (utf8 tag).length).length + (utf8 tag).length + 9).sum = 138 := by decide
  rw [ShardBuilder.toc, List.length_append, length_flatMap_tocEntry, map_fst_locs, hsum,
    length_toLE]

lemma length_body (htable : table.length = slotCount b.tryMap.length * slotLen) :
    (b.body buildTime table).length + 150 = b.fileSize := by
  simp only [ShardBuilder.body, ShardBuilder.sections, List.flatMap_cons, List.flatMap_nil,
    List.length_append, List.length_nil, length_metaData, htable, ShardBuilder.fileSize]
  omega

lemma length_file (htable : table.length = slotCount b.tryMap.length * slotLen) :
    (b.file buildTime table).length = b.fileSize := by
  have hbody : (b.body buildTime table).length + 150 = b.fileSize := length_body htable
  rw [ShardBuilder.file, List.length_append, List.length_append, List.length_append, length_toc,
    length_toLE, length_toLE]
  omega

lemma appendToc_eq {body toc : Bytes} (h : body.length + toc.length < 2 ^ 32) :
    appendToc body toc = .ok (body ++ (toc ++ (toLE 4 body.length ++ toLE 4 toc.length))) := by
  have hlen : (body ++ toc).length % 2 ^ 32 = body.length + toc.length := by
    rw [List.length_append, Nat.mod_eq_of_lt h]
  unfold appendToc
  rw [hlen, Nat.mod_eq_of_lt (show body.length < 2 ^ 32 by omega)]
  dsimp only
  rw [if_neg (by omega), Nat.add_sub_cancel_left]

lemma finish_eq (htable : table.length = slotCount b.tryMap.length * slotLen)
    (hsize : b.fileSize < 2 ^ 32 + 8)
    (hbuild : buildRobinHood (postingRefs 0 b.tryMap) (slotCount b.tryMap.length) = .ok table) :
    b.finish buildTime = .ok (b.file buildTime table) := by
  have hbody : (b.body buildTime table).length + 150 = b.fileSize := length_body htable
  have htoc : (b.toc buildTime table).length = 142 := length_toc
  rw [ShardBuilder.finish, encodePostings_eq, hbuild, bind_ok, layOutSections_eq]
  have happend : (b.body buildTime table).length + (b.toc buildTime table).length < 2 ^ 32 := by
    omega
  exact appendToc_eq happend

/-! ## Opening -/

/-- The sizes that the format's integer fields must hold: the footer locates the table of contents,
and nothing locates the footer. -/
structure ShardBuilder.Fits (b : ShardBuilder) (buildTime : ℕ) : Prop where
  size_lt : b.fileSize < 2 ^ 32 + 8
  time_lt : buildTime < 2 ^ 64
  shardId_lt : b.shardId < 2 ^ 32
  baseDocid_lt : b.baseDocid < 2 ^ 32

lemma standsAt_section {i : ℕ} {s : String × Bytes}
    (h : (b.sections buildTime table (postingBytes b.tryMap))[i]? = some s) :
    ∃ off, (b.locs buildTime table)[i]? = some (s.1, off, s.2.length) ∧
      off + s.2.length ≤ (b.body buildTime table).length ∧
      StandsAt (b.file buildTime table) off s.2 := by
  have hbody : StandsAt (b.file buildTime table) 0 (b.body buildTime table) := (StandsAt.refl _).left
  refine ⟨_, ?_, ((StandsAt.refl (b.body buildTime table)).piece Prod.snd h).le_length,
    hbody.piece Prod.snd h⟩
  rw [ShardBuilder.locs, sectionLocs, getElem?_pieceRefs, h]
  rfl

variable (hb : b.Fits buildTime)
    (htable : table.length = slotCount b.tryMap.length * slotLen)
include hb htable

lemma validLoc_locs : ∀ l ∈ b.locs buildTime table, ValidLoc l := by
  intro l hl
  obtain ⟨i, hi⟩ := List.mem_iff_getElem?.mp hl
  have hknown : l.1 ∈ knownTags := by
    have hmem := List.mem_map_of_mem (f := Prod.fst) hl
    rwa [map_fst_locs] at hmem
  have hsec : ∃ s, (b.sections buildTime table (postingBytes b.tryMap))[i]? = some s := by
    rw [ShardBuilder.locs, sectionLocs, getElem?_pieceRefs] at hi
    obtain ⟨s, hs, -⟩ := Option.map_eq_some_iff.mp hi
    exact ⟨s, hs⟩
  obtain ⟨s, hs⟩ := hsec
  obtain ⟨off, hloc, hle, -⟩ := standsAt_section hs
  rw [hi] at hloc
  obtain rfl := Option.some.inj hloc
  have hbody : (b.body buildTime table).length + 150 = b.fileSize := length_body htable
  have hsize := hb.size_lt
  exact ⟨hknown, by dsimp only; omega, by dsimp only; omega⟩

omit hb htable in
/-- The reader finds every section where it stands. -/
lemma lookup_section {i : ℕ} {tag : String} {x : Bytes}
    (h : (b.sections buildTime table (postingBytes b.tryMap))[i]? = some (tag, x)) :
    ∃ off, (b.reader buildTime table).sect.lookup tag = some (off, x.length) ∧
      off + x.length ≤ (b.body buildTime table).length ∧
      StandsAt (b.file buildTime table) off x := by
  obtain ⟨off, hloc, hle, hstands⟩ := standsAt_section h
  have hnodup : ((b.locs buildTime table).reverse.map Prod.fst).Nodup := by
    rw [List.map_reverse, List.nodup_reverse, map_fst_locs]
    decide
  exact ⟨off, AssocMap.lookup_of_mem hnodup (List.mem_reverse.mpr (List.mem_of_getElem? hloc)), hle,
    hstands⟩

omit hb htable in
lemma section_eq {i : ℕ} {tag : String} {x : Bytes}
    (h : (b.sections buildTime table (postingBytes b.tryMap))[i]? = some (tag, x)) :
    (b.reader buildTime table).section tag = .ok x := by
  obtain ⟨off, hlookup, -, hstands⟩ := lookup_section h
  rw [ShardReader.section, hlookup]
  exact sliceAt_eq_ok hstands.subslice

omit htable in
/-- The fields of the metaData section read back. -/
lemma leAt_metaData {n k : ℕ} (hn : n < 2 ^ 32) (hk : k < 2 ^ 32) :
    let md := metaData buildTime b.shardId b.baseDocid n k
    leAt md 0 2 = .ok shardVersion ∧ leU64 md 2 = .ok buildTime ∧ leU32 md 10 = .ok b.shardId ∧
      leU32 md 14 = .ok b.baseDocid ∧ leU32 md 18 = .ok n ∧ leU32 md 22 = .ok k := by
  have e0 := StandsAt.refl (metaData buildTime b.shardId b.baseDocid n k)
  have e1 := e0.right
  have e2 := e1.right
  have e3 := e2.right
  have e4 := e3.right
  have e5 := e4.right
  simp only [length_toLE, Nat.zero_add, Nat.reduceAdd] at e1 e2 e3 e4 e5
  exact ⟨leAt_of_standsAt e0.left (by decide), leAt_of_standsAt e1.left hb.time_lt,
    leAt_of_standsAt e2.left hb.shardId_lt, leAt_of_standsAt e3.left hb.baseDocid_lt,
    leAt_of_standsAt e4.left hn, leAt_of_standsAt e5 hk⟩

/-- `open` succeeds on the file. -/
lemma open_file (hm : b.tryMap.length ≤ 2 ^ 24) (hn : b.paths.length < 2 ^ 32) :
    ShardReader.open (b.file buildTime table) = .ok (b.reader buildTime table) := by
  have hsize := hb.size_lt
  have hbody : (b.body buildTime table).length + 150 = b.fileSize := length_body htable
  have hlen : (b.file buildTime table).length = b.fileSize := length_file htable
  have htocLen : (b.toc buildTime table).length = 142 := length_toc
  have hfile := StandsAt.refl (b.file buildTime table)
  have htoc := hfile.right.left
  have hfoot := hfile.right.right
  rw [Nat.zero_add] at htoc hfoot
  have hfooter : (b.file buildTime table).length - 8 =
      (b.body buildTime table).length + (b.toc buildTime table).length := by omega
  have h1 : leU32 (b.file buildTime table) ((b.file buildTime table).length - 8) =
      .ok (b.body buildTime table).length := by
    rw [hfooter]
    exact leAt_of_standsAt hfoot.left (by omega)
  have h2 : leU32 (b.file buildTime table) ((b.file buildTime table).length - 8 + 4) =
      .ok (b.toc buildTime table).length := by
    have h := leAt_of_standsAt hfoot.right (by omega)
    rwa [length_toLE, ← hfooter] at h
  have hcount : leU32 (b.toc buildTime table) 0 = .ok (b.locs buildTime table).length := by
    refine leAt_of_standsAt (StandsAt.refl (b.toc buildTime table)).left ?_
    rw [← List.length_map (f := Prod.fst), map_fst_locs]
    decide
  have hentries := (StandsAt.refl (b.toc buildTime table)).right
  rw [length_toLE] at hentries
  have hsect := readToc_eq (validLoc_locs hb htable) hentries []
  rw [List.append_nil] at hsect
  have hsection : (b.sections buildTime table (postingBytes b.tryMap))[0]? = some ("metaData",
      metaData buildTime b.shardId b.baseDocid b.paths.length
        (slotsLog2 (slotCount b.tryMap.length))) := rfl
  obtain ⟨off, hlookup, hmdLe, hmd⟩ := lookup_section hsection
  have hlog := slotsLog2_lt hm
  obtain ⟨hversion, htime, hid, hbase, hnum, hlog2⟩ := leAt_metaData hb hn
    (show slotsLog2 (slotCount b.tryMap.length) < 2 ^ 32 by omega)
  rw [ShardReader.open, if_neg (by omega)]
  dsimp only
  rw [h1, bind_ok, h2, bind_ok, if_neg (by omega),
    sliceAt_eq_ok htoc.subslice, bind_ok, hcount, bind_ok, hsect, bind_ok,
    show (b.locs buildTime table).reverse.lookup "metaData" = _ from hlookup]
  dsimp only
  rw [if_neg (by omega), sliceAt_eq_ok hmd.subslice, bind_ok, hversion, bind_ok, if_neg (by simp),
    htime, bind_ok, hid, bind_ok, hbase, bind_ok, hnum, bind_ok, hlog2, bind_ok,
    slotsOfLog2_slotsLog2 hm, bind_ok]
  rfl

/-! ## Documents -/

omit hb htable
variable {files : List ShardFile} (hfiles : b.Holds files)

lemma length_le_of_mem_flatMap {α : Type} {f : α → Bytes} {l : List α} {a : α} (h : a ∈ l) :
    (f a).length ≤ (l.flatMap f).length := by
  obtain ⟨i, hi⟩ := List.mem_iff_getElem?.mp h
  have hle := ((StandsAt.refl (l.flatMap f)).piece f hi).le_length
  omega

@[simp] lemma length_offsetRecord (o : ℕ × ℕ) : (offsetRecord o).length = 12 := by
  simp [offsetRecord]

include hfiles

lemma ShardBuilder.Holds.length_lt (hsize : b.fileSize < 2 ^ 32 + 8) :
    files.length * 17 < 2 ^ 32 := by
  have hlites : (b.lites.flatMap metaRecord).length = files.length * 17 := by
    rw [length_flatMap_of_width length_metaRecord, hfiles.lites_eq, List.length_map]
    rfl
  have hle : (b.lites.flatMap metaRecord).length + 150 ≤ b.fileSize := by
    rw [ShardBuilder.fileSize]
    omega
  omega

lemma ShardBuilder.Holds.path_eq (hsize : b.fileSize < 2 ^ 32 + 8) {d : ℕ} {f : ShardFile}
    (hd : files[d]? = some f) : (b.reader buildTime table).path d = .ok f.path := by
  have hpath : b.paths[d]? = some f.path := by
    rw [hfiles.paths_eq, List.getElem?_map, hd]
    rfl
  have hlen : ∀ p ∈ b.paths, (utf8 p).length < 2 ^ 32 := by
    intro p hp
    have hle := length_le_of_mem_flatMap (f := pathRecord) hp
    have hrec : (pathRecord p).length = 4 + (utf8 p).length := by simp [pathRecord]
    have hnames : (b.paths.flatMap pathRecord).length + 150 ≤ b.fileSize := by
      rw [ShardBuilder.fileSize]
      omega
    omega
  rw [ShardReader.path, section_eq (i := 1) rfl, bind_ok]
  exact scanPath_flatMap hlen hpath (StandsAt.refl _)

lemma ShardBuilder.Holds.meta_eq {d : ℕ} {f : ShardFile} (hd : files[d]? = some f) :
    (b.reader buildTime table).meta d = .ok f.lite := by
  have hlite : b.lites[d]? = some f.lite := by
    rw [hfiles.lites_eq, List.getElem?_map, hd]
    rfl
  have hrec := (StandsAt.refl (b.lites.flatMap metaRecord)).record metaRecord length_metaRecord hlite
  have hle := hrec.le_length
  have hsub := hrec.subslice
  have h17 : metaRecLen = 17 := rfl
  rw [length_metaRecord, Nat.zero_add, h17] at hle hsub
  rw [ShardReader.meta, section_eq (i := 2) rfl, bind_ok, if_neg (by omega), sliceAt_eq_ok hsub,
    bind_ok, readMeta_metaRecord]

lemma ShardBuilder.Holds.content_eq (hsize : b.fileSize < 2 ^ 32 + 8) {d : ℕ} {f : ShardFile}
    (hd : files[d]? = some f) : (b.reader buildTime table).content d = .ok f.content := by
  have hpiece := (StandsAt.refl (files.flatMap ShardFile.content)).piece ShardFile.content hd
  rw [Nat.zero_add, ← hfiles.corpus_eq] at hpiece
  have hoffset : b.offsets[d]? =
      some (((files.take d).flatMap ShardFile.content).length, f.content.length) := by
    rw [hfiles.offsets_eq, getElem?_pieceRefs, hd, Nat.zero_add]
    rfl
  have hcorpus := hpiece.le_length
  have hbound : b.corpus.length + 150 ≤ b.fileSize := by
    rw [ShardBuilder.fileSize]
    omega
  have hrec := (StandsAt.refl (b.offsets.flatMap offsetRecord)).record offsetRecord
    length_offsetRecord hoffset
  have hle := hrec.le_length
  rw [length_offsetRecord, Nat.zero_add] at hle
  rw [Nat.zero_add, offsetRecord] at hrec
  have h1 := leAt_of_standsAt hrec.left (by dsimp only; omega)
  have h2 := leAt_of_standsAt hrec.right (by dsimp only; omega)
  rw [length_toLE] at h2
  rw [ShardReader.content, section_eq (i := 3) rfl, bind_ok, if_neg (by omega), leU64, h1, bind_ok,
    leU32, h2, bind_ok, section_eq (i := 4) rfl, bind_ok]
  dsimp only
  rw [add64_eq (by omega), bind_ok, if_neg (by omega), sliceAt_eq_ok hpiece.subslice]

/-- The finished shard holds exactly the files it was built from. -/
theorem ShardBuilder.Holds.finish_indexes (hb : b.Fits buildTime) :
    ∃ bytes r, b.finish buildTime = .ok bytes ∧ bytes.length = b.fileSize ∧
      ShardReader.open bytes = .ok r ∧ r.view.Indexes files := by
  have hsize := hb.size_lt
  have hcount := hfiles.length_lt hsize
  have hpm := hfiles.indexed.postingMap
  have hn : (foldedContents files).length < 2 ^ 32 := by
    rw [foldedContents, List.length_map]
    omega
  have hpost : (postingBytes b.tryMap).length + 150 ≤ b.fileSize := by
    rw [ShardBuilder.fileSize]
    omega
  have hoff : 0 + (postingBytes b.tryMap).length < 2 ^ 64 := by omega
  obtain ⟨table, hbuild, htable, hprobe⟩ := table_built hpm hn
    (fun e he => by
      have hle : (encodePosting e.2).length ≤ (postingBytes b.tryMap).length :=
        length_le_of_mem_flatMap (f := fun e : ℕ × List ℕ => encodePosting e.2) he
      omega)
    hoff
  have hpaths : b.paths.length = files.length := by rw [hfiles.paths_eq, List.length_map]
  refine ⟨_, _, finish_eq htable hsize hbuild, length_file htable,
    open_file hb htable hpm.length_le (by rw [hpaths]; omega), hpaths,
    fun d f hd => hfiles.path_eq hsize hd, fun d f hd => hfiles.meta_eq hd,
    fun d f hd => hfiles.content_eq hsize hd, fun t => ?_⟩
  change (b.reader buildTime table).posting t = .ok (if docsWith (foldedContents files) t = []
    then none else some (docsWith (foldedContents files) t))
  rw [← hfiles.indexed.find?_eq t, ← hprobe t (ctSlotAt table)
    (ctPostingAt (postingBytes b.tryMap)) ?_ ?_]
  · have hslots : (b.reader buildTime table).slots = slotCount b.tryMap.length := rfl
    rw [ShardReader.posting, section_eq (i := 5) rfl, bind_ok, section_eq (i := 6) rfl, bind_ok,
      hslots]
  · intro idx hidx
    have hle : (idx + 1) * slotLen ≤ table.length := by
      rw [htable]
      exact Nat.mul_le_mul_right _ hidx
    rw [Nat.succ_mul] at hle
    rw [ctSlotAt, if_neg (by omega)]
  · intro off enc hstands
    have hle := hstands.le_length
    rw [Nat.zero_add, ctPostingAt, add64_eq (by omega), bind_ok, if_neg (by omega),
      sliceAt_eq_ok hstands.subslice]

end File

/-! ## Search equals a scan -/

lemma foldl_addFile_lites (files : List ShardFile) (b : ShardBuilder) :
    (files.foldl ShardBuilder.addFile b).lites = b.lites ++ files.map ShardFile.lite := by
  induction files generalizing b with
  | nil => simp
  | cons f files ih => simp [ih, ShardBuilder.addFile]

lemma ShardBuilder.length_le_of_fileSize {files : List ShardFile} {shardId baseDocid : ℕ}
    (h : (ShardBuilder.ofFiles shardId baseDocid files).fileSize < 2 ^ 32 + 8) :
    files.length ≤ 2 ^ 32 := by
  have hlites : (ShardBuilder.ofFiles shardId baseDocid files).lites.length = files.length := by
    rw [ShardBuilder.ofFiles, foldl_addFile_lites]
    simp
  have hsec := length_flatMap_of_width length_metaRecord
    (ShardBuilder.ofFiles shardId baseDocid files).lites
  have h17 : metaRecLen = 17 := rfl
  rw [hlites, h17] at hsec
  rw [ShardBuilder.fileSize] at h
  omega

lemma trigrams_subset_of_contentMatches {q content : Bytes} {caseSensitive : Bool}
    (h : contentMatches (fold q) q caseSensitive content = true) :
    trigrams (fold q) ⊆ trigrams (fold content) := by
  refine trigrams_mono ?_
  cases caseSensitive with
  | true => exact fold_mono (containsSub_iff.mp h)
  | false => exact containsSub_iff.mp h

lemma ShardBuilder.ofFiles_fits {files : List ShardFile} {shardId baseDocid buildTime : ℕ}
    (hid : shardId < 2 ^ 32) (hbase : baseDocid < 2 ^ 32) (htime : buildTime < 2 ^ 64)
    (hsize : (ShardBuilder.ofFiles shardId baseDocid files).fileSize < 2 ^ 32 + 8) :
    (ShardBuilder.ofFiles shardId baseDocid files).Fits buildTime := by
  have hfields : ∀ (l : List ShardFile) (b : ShardBuilder),
      (l.foldl ShardBuilder.addFile b).shardId = b.shardId ∧
        (l.foldl ShardBuilder.addFile b).baseDocid = b.baseDocid := by
    intro l
    induction l with
    | nil => exact fun b => ⟨rfl, rfl⟩
    | cons f l ih => exact fun b => ih (b.addFile f)
  obtain ⟨hid', hbase'⟩ := hfields files { shardId, baseDocid }
  refine ⟨hsize, htime, ?_, ?_⟩
  · rw [ShardBuilder.ofFiles, hid']
    exact hid
  · rw [ShardBuilder.ofFiles, hbase']
    exact hbase

/-- A shard whose table of contents ends below `2 ^ 32` finishes, and opens as an index of its
files. -/
theorem ShardBuilder.ofFiles_opens {files : List ShardFile} {shardId baseDocid buildTime : ℕ}
    (hid : shardId < 2 ^ 32) (hbase : baseDocid < 2 ^ 32) (htime : buildTime < 2 ^ 64)
    (hsize : (ShardBuilder.ofFiles shardId baseDocid files).fileSize < 2 ^ 32 + 8) :
    ∃ bytes r, (ShardBuilder.ofFiles shardId baseDocid files).finish buildTime = .ok bytes ∧
      bytes.length = (ShardBuilder.ofFiles shardId baseDocid files).fileSize ∧
      ShardReader.open bytes = .ok r ∧ r.view.Indexes files :=
  (ShardBuilder.ofFiles_holds (ShardBuilder.length_le_of_fileSize hsize) shardId
    baseDocid).finish_indexes (ShardBuilder.ofFiles_fits hid hbase htime hsize)

/-- A shard of files finishes, and opens as an index of them. -/
theorem ShardBuilder.ofFiles_indexes {files : List ShardFile} {shardId baseDocid buildTime : ℕ}
    (hid : shardId < 2 ^ 32) (hbase : baseDocid < 2 ^ 32) (htime : buildTime < 2 ^ 64)
    (hsize : (ShardBuilder.ofFiles shardId baseDocid files).fileSize < 2 ^ 32) :
    ∃ bytes r, (ShardBuilder.ofFiles shardId baseDocid files).finish buildTime = .ok bytes ∧
      bytes.length = (ShardBuilder.ofFiles shardId baseDocid files).fileSize ∧
      ShardReader.open bytes = .ok r ∧ r.view.Indexes files :=
  ShardBuilder.ofFiles_opens hid hbase htime (hsize.trans_le (Nat.le_add_right _ _))

/-- A finished shard returns what was added, and a search over it is a scan of the contents.  The
four bounds are those of the fields that `finish` writes; the search part is about every query, the
empty and the short ones included, in both case modes and under every limit. -/
theorem shard_search_eq_scan {files : List ShardFile} {shardId baseDocid buildTime : ℕ}
    (hid : shardId < 2 ^ 32) (hbase : baseDocid < 2 ^ 32) (htime : buildTime < 2 ^ 64)
    (hsize : (ShardBuilder.ofFiles shardId baseDocid files).fileSize < 2 ^ 32) :
    ∃ bytes r, (ShardBuilder.ofFiles shardId baseDocid files).finish buildTime = .ok bytes ∧
      bytes.length = (ShardBuilder.ofFiles shardId baseDocid files).fileSize ∧
      ShardReader.open bytes = .ok r ∧ r.numDocs = files.length ∧
      (∀ d f, files[d]? = some f →
        r.path d = .ok f.path ∧ r.meta d = .ok f.lite ∧ r.content d = .ok f.content) ∧
      ∀ q caseSensitive limit,
        candidates r.view.source (fold q) q caseSensitive limit =
          .ok (takeOpt limit (matchingDocs files (contentMatches (fold q) q caseSensitive))) := by
  obtain ⟨bytes, r, hfinish, hlength, hopen, hindex⟩ :=
    @ShardBuilder.ofFiles_indexes files shardId baseDocid buildTime hid hbase htime hsize
  refine ⟨bytes, r, hfinish, hlength, hopen, hindex.numDocs_eq,
    fun d f hd => ⟨hindex.path_eq d f hd, hindex.lite_eq d f hd, hindex.content_eq d f hd⟩,
    fun q caseSensitive limit => ?_⟩
  exact hindex.candidates_eq (fun _ f _ h => trigrams_subset_of_contentMatches h) limit

/-- Two files, searched with and without regard to case. -/
theorem shard_search_eq_scan_two :
    let files : List ShardFile := [⟨"/a", ⟨false, 5, 1⟩, utf8 "Hello"⟩,
      ⟨"/b", ⟨false, 6, 2⟩, utf8 "hello\xff"⟩]
    ∃ bytes r, (ShardBuilder.ofFiles 3 0 files).finish 77 = .ok bytes ∧
      ShardReader.open bytes = .ok r ∧ r.path 1 = .ok "/b" ∧
      candidates r.view.source (fold (utf8 "Hello")) (utf8 "Hello") false none = .ok [0, 1] ∧
      candidates r.view.source (fold (utf8 "Hello")) (utf8 "Hello") true none = .ok [0] := by
  obtain ⟨bytes, r, hfinish, -, hopen, -, hdocs, hsearch⟩ :=
    @shard_search_eq_scan [⟨"/a", ⟨false, 5, 1⟩, utf8 "Hello"⟩,
      ⟨"/b", ⟨false, 6, 2⟩, utf8 "hello\xff"⟩] 3 0 77 (by decide) (by decide) (by decide)
      (by decide +kernel)
  refine ⟨bytes, r, hfinish, hopen, (hdocs 1 _ rfl).1, ?_, ?_⟩
  · rw [hsearch]
    decide +kernel
  · rw [hsearch]
    decide +kernel

end DeepFinder
