import DeepFinder.Index.Streaming
import Mathlib.Algebra.BigOperators.Group.Finset.Basic

/-!
# Shard arithmetic

`add_file` and `finish` cast lengths, offsets and counts to 32 bits without a check; the only bound
on a shard is the flush, after the fact, on the bytes of its contents.  `shard_exact_iff`: the casts
keep every value, and the file opens and returns the contents, exactly when the table of contents
ends below `2 ^ 32`.  Otherwise `finish` panics or its file does not open.

The exact condition is on the files of each shard (`shardSize`, a formula in their paths, contents
and distinct trigrams), for shards of any number below `2 ^ 32` and any base.  Since overflow checks
are off in a release build, a table of contents that crosses the bound is cut off there and panics
in a debug build; neither file opens.
-/

namespace DeepFinder

open ByteString

/-! ## The size of a shard -/

def shardTrigrams (files : List ShardFile) : Finset ℕ :=
  ((foldedContents files).flatMap trigrams).toFinset

/-- Where the table of contents of a shard ends: the metadata section and the table itself, a path,
a metadata record, a content and its reference a file, a hash table with two slots or more a
trigram, and the posting lists. -/
def shardSize (files : List ShardFile) : ℕ :=
  168 + (files.map fun f => (4 + (utf8 f.path).length) + 17 + 12 + f.content.length).sum +
    slotCount (shardTrigrams files).card * slotLen +
    ∑ t ∈ shardTrigrams files, (encodePosting (docsWith (foldedContents files) t)).length

section Size

variable {files : List ShardFile}

lemma Indexed.toFinset_keys {m : OrderedMap ℕ (List ℕ)} {texts : List Bytes}
    (h : Indexed m texts) : (m.map Prod.fst).toFinset = (texts.flatMap trigrams).toFinset := by
  ext t
  rw [List.mem_toFinset, List.mem_toFinset, List.mem_map, List.mem_flatMap]
  constructor
  · rintro ⟨e, he, rfl⟩
    obtain ⟨-, hne⟩ := h.eq_docsWith he
    obtain ⟨d, hd⟩ := List.exists_mem_of_ne_nil _ hne
    obtain ⟨x, hx, ht⟩ := mem_docsWith.mp hd
    exact ⟨x, List.mem_of_getElem? hx, ht⟩
  · rintro ⟨x, hx, ht⟩
    obtain ⟨d, hd⟩ := List.mem_iff_getElem?.mp hx
    have hne : docsWith texts t ≠ [] := List.ne_nil_of_mem (mem_docsWith.mpr ⟨x, hd, ht⟩)
    have hfind := h.find?_eq t
    rw [if_neg hne] at hfind
    exact ⟨_, OrderedMap.mem_of_find? hfind, rfl⟩

lemma Indexed.length_eq {m : OrderedMap ℕ (List ℕ)} {texts : List Bytes} (h : Indexed m texts) :
    m.length = (texts.flatMap trigrams).toFinset.card := by
  rw [← h.toFinset_keys, List.toFinset_card_of_nodup h.ascending.nodup_keys, List.length_map]

/-- The posting section holds the list of every trigram. -/
lemma Indexed.length_postingBytes {m : OrderedMap ℕ (List ℕ)} {texts : List Bytes}
    (h : Indexed m texts) : (postingBytes m).length =
      ∑ t ∈ (texts.flatMap trigrams).toFinset, (encodePosting (docsWith texts t)).length := by
  have hlens : m.map (fun e => (encodePosting e.2).length) =
      (m.map Prod.fst).map fun t => (encodePosting (docsWith texts t)).length := by
    rw [List.map_map]
    refine List.map_congr_left fun e he => ?_
    rw [(h.eq_docsWith he).1]
    rfl
  rw [postingBytes, List.length_flatMap, hlens, ← h.toFinset_keys,
    List.sum_toFinset _ h.ascending.nodup_keys]

/-- The footer stands where the table of contents ends. -/
lemma fileSize_eq (hlen : files.length ≤ 2 ^ 32) (id base : ℕ) :
    (ShardBuilder.ofFiles id base files).fileSize = shardSize files + 8 := by
  have hfiles := ShardBuilder.ofFiles_holds hlen id base
  have hlites : ((ShardBuilder.ofFiles id base files).lites.flatMap metaRecord).length =
      files.length * 17 := by
    rw [length_flatMap_of_width length_metaRecord, hfiles.lites_eq, List.length_map]
    rfl
  have hoffsets : ((ShardBuilder.ofFiles id base files).offsets.flatMap offsetRecord).length =
      files.length * 12 := by
    rw [length_flatMap_of_width length_offsetRecord, hfiles.offsets_eq, length_pieceRefs]
  have hsum : (files.map fun f => (4 + (utf8 f.path).length) + 17 + 12 + f.content.length).sum =
      ((files.map ShardFile.path).flatMap pathRecord).length + files.length * 17 +
        files.length * 12 + (files.flatMap ShardFile.content).length := by
    clear hfiles hlites hoffsets hlen
    induction files with
    | nil => rfl
    | cons f files ih =>
        simp only [List.map_cons, List.sum_cons, List.flatMap_cons, List.length_append,
          List.length_cons, pathRecord, length_toLE, ih]
        omega
  rw [ShardBuilder.fileSize, hlites, hoffsets, hfiles.paths_eq, hfiles.corpus_eq,
    hfiles.indexed.length_eq, hfiles.indexed.length_postingBytes, shardSize, hsum, shardTrigrams]
  omega

lemma shardSize_lt_iff (id base : ℕ) :
    (ShardBuilder.ofFiles id base files).fileSize < 2 ^ 32 + 8 ↔ shardSize files < 2 ^ 32 := by
  constructor
  · intro h
    rw [fileSize_eq (ShardBuilder.length_le_of_fileSize h)] at h
    omega
  · intro h
    have hlen : files.length ≤ 2 ^ 32 := by
      have hsum : files.length ≤
          (files.map fun f => (4 + (utf8 f.path).length) + 17 + 12 + f.content.length).sum := by
        clear h
        induction files with
        | nil => exact le_rfl
        | cons f files ih =>
            rw [List.length_cons, List.map_cons, List.sum_cons]
            omega
      rw [shardSize] at h
      omega
    rw [fileSize_eq hlen]
    omega

end Size

/-! ## The casts -/

/-- What `add_file` and `finish` cast to 32 bits, around a hash table: the documents, the lengths of
contents and paths, the count of documents, the counts and lengths of the posting lists, the
offset, the size and the tag length of each section, the offset of the table of contents, the count
of its entries and its end. -/
def ShardBuilder.casts (b : ShardBuilder) (buildTime : ℕ) (table : Bytes) : List ℕ :=
  List.range b.paths.length ++ b.offsets.map Prod.snd ++
    b.paths.length :: b.paths.map (fun p => (utf8 p).length) ++
    b.tryMap.map (fun e => e.2.length) ++ b.tryMap.map (fun e => (encodePosting e.2).length) ++
    (b.locs buildTime table).flatMap (fun l => [l.2.1, l.2.2, (utf8 l.1).length]) ++
    [(b.body buildTime table).length, (b.locs buildTime table).length,
      (b.body buildTime table ++ b.toc buildTime table).length]

/-- No cast changes a value, and the finished file opens and returns the contents.  `casts` lists
every value that the builder casts to 32 bits, the locations of the sections and the entries of the
table included. -/
structure ShardExact (buildTime id base : ℕ) (files : List ShardFile) : Prop where
  casts_lt : ∃ table,
    buildRobinHood (encodePostings 0 (ShardBuilder.ofFiles id base files).tryMap).1
      (slotCount (ShardBuilder.ofFiles id base files).tryMap.length) = .ok table ∧
    ∀ v ∈ (ShardBuilder.ofFiles id base files).casts buildTime table, v < 2 ^ 32
  reads_back : ∃ bytes r, (ShardBuilder.ofFiles id base files).finish buildTime = .ok bytes ∧
    ShardReader.open bytes = .ok r ∧
    ∀ d f, files[d]? = some f → r.content d = .ok f.content

section Exact

variable {b : ShardBuilder} {files : List ShardFile} {buildTime id base : ℕ} {table bytes : Bytes}

/-- Below the bound every cast keeps its value. -/
lemma ShardBuilder.Holds.casts_lt (hfiles : b.Holds files) (hb : b.Fits buildTime)
    (htable : table.length = slotCount b.tryMap.length * slotLen) :
    ∀ v ∈ b.casts buildTime table, v < 2 ^ 32 := by
  have hsize := hb.size_lt
  have hbody : (b.body buildTime table).length + 150 = b.fileSize := length_body htable
  have htoc : (b.toc buildTime table).length = 142 := length_toc
  have hcount := hfiles.length_lt hsize
  have hpaths : b.paths.length = files.length := by rw [hfiles.paths_eq, List.length_map]
  have hsections : (b.paths.flatMap pathRecord).length + b.corpus.length +
      (postingBytes b.tryMap).length + 150 ≤ b.fileSize := by
    rw [ShardBuilder.fileSize]
    omega
  -- Every number that is cast counts, locates or measures a part of the file.
  intro v hv
  simp only [ShardBuilder.casts, List.mem_append, List.mem_cons, List.mem_map, List.mem_flatMap,
    List.not_mem_nil, or_false] at hv
  rcases hv with (((((hv | hv) | hv) | hv) | hv) | hv) | hv
  · have := List.mem_range.mp hv
    omega
  · -- a content is part of the corpus
    obtain ⟨o, ho, rfl⟩ := hv
    obtain ⟨i, hi⟩ := List.mem_iff_getElem?.mp ho
    rw [hfiles.offsets_eq, getElem?_pieceRefs, Option.map_eq_some_iff] at hi
    obtain ⟨f, hf, rfl⟩ := hi
    have hle := length_le_of_mem_flatMap (f := ShardFile.content) (List.mem_of_getElem? hf)
    rw [← hfiles.corpus_eq] at hle
    rw [contentRef]
    omega
  · rcases hv with rfl | ⟨p, hp, rfl⟩
    · omega
    · have hle := length_le_of_mem_flatMap (f := pathRecord) hp
      have hrec : (pathRecord p).length = 4 + (utf8 p).length := by simp [pathRecord]
      omega
  · obtain ⟨e, he, rfl⟩ := hv
    rw [(hfiles.indexed.eq_docsWith he).1]
    have hle : (docsWith (foldedContents files) e.1).length ≤ (foldedContents files).length :=
      (List.length_filter_le _ _).trans List.length_range.le
    have hfolded : (foldedContents files).length = files.length := List.length_map _
    omega
  · obtain ⟨e, he, rfl⟩ := hv
    have hle : (encodePosting e.2).length ≤ (postingBytes b.tryMap).length :=
      length_le_of_mem_flatMap (f := fun e : ℕ × List ℕ => encodePosting e.2) he
    omega
  · obtain ⟨l, hl, hv⟩ := hv
    have hvalid := validLoc_locs hb htable l hl
    rcases hv with rfl | rfl | rfl
    · exact hvalid.off_lt
    · exact hvalid.size_lt
    · exact length_utf8_of_known hvalid.known
  · rcases hv with rfl | rfl | rfl
    · omega
    · rw [← List.length_map (f := Prod.fst), map_fst_locs]
      decide
    · rw [List.length_append]
      omega

/-- A footer of truncated fields does not locate the table of contents. -/
lemma open_appendToc {body toc : Bytes} (hlong : 2 ^ 32 ≤ body.length + toc.length)
    (h : appendToc body toc = .ok bytes) :
    ShardReader.open bytes = .error (.err (.dbFormat "shard TOC/end mismatch")) := by
  unfold appendToc at h
  dsimp only at h
  split at h
  · cases h
  rename_i hle
  obtain rfl := Except.ok.inj h
  have hoff : body.length % 2 ^ 32 < 2 ^ 32 := Nat.mod_lt _ (Nat.two_pow_pos 32)
  have hend : (body ++ toc).length % 2 ^ 32 < 2 ^ 32 := Nat.mod_lt _ (Nat.two_pow_pos 32)
  generalize body.length % 2 ^ 32 = tocOff at *
  generalize (body ++ toc).length % 2 ^ 32 = outLen at *
  have hfile := StandsAt.refl (body ++ (toc ++ (toLE 4 tocOff ++ toLE 4 (outLen - tocOff))))
  have hfoot := hfile.right.right
  have h1 := leAt_of_standsAt hfoot.left (show tocOff < 256 ^ 4 by omega)
  have h2 := leAt_of_standsAt hfoot.right (show outLen - tocOff < 256 ^ 4 by omega)
  have hlength : (body ++ (toc ++ (toLE 4 tocOff ++ toLE 4 (outLen - tocOff)))).length =
      0 + body.length + toc.length + 8 := by
    simp only [List.length_append, length_toLE]
    omega
  rw [length_toLE] at h2
  rw [ShardReader.open, hlength, if_neg (by omega), Nat.add_sub_cancel]
  dsimp only
  rw [leU32, h1, bind_ok, leU32, h2, bind_ok, if_pos (by omega)]

lemma ShardBuilder.open_of_finish (hsize : 2 ^ 32 + 8 ≤ b.fileSize)
    (h : b.finish buildTime = .ok bytes) :
    ShardReader.open bytes = .error (.err (.dbFormat "shard TOC/end mismatch")) := by
  obtain ⟨table, hbuild, h⟩ := bind_eq_ok_iff.mp h
  have htable := length_of_buildRobinHood hbuild
  have hbody : (b.body buildTime table).length + 150 = b.fileSize := length_body htable
  have htoc : (b.toc buildTime table).length = 142 := length_toc
  rw [encodePostings_eq, layOutSections_eq] at h
  exact @open_appendToc bytes (b.body buildTime table) (b.toc buildTime table) (by omega) h

/-- A shard is exact when its table of contents ends below `2 ^ 32`, and only then. -/
lemma shard_exact_iff (hid : id < 2 ^ 32) (hbase : base < 2 ^ 32) (htime : buildTime < 2 ^ 64) :
    ShardExact buildTime id base files ↔ shardSize files < 2 ^ 32 := by
  rw [← shardSize_lt_iff id base]
  constructor
  · rintro ⟨-, bytes, r, hfinish, hopen, -⟩
    by_contra hlong
    rw [ShardBuilder.open_of_finish (Nat.le_of_not_lt hlong) hfinish] at hopen
    cases hopen
  · intro hsize
    obtain ⟨bytes, r, hfinish, -, hopen, hindex⟩ :=
      ShardBuilder.ofFiles_opens hid hbase htime hsize
    refine ⟨?_, bytes, r, hfinish, hopen, hindex.content_eq⟩
    obtain ⟨table, hbuild, -⟩ := bind_eq_ok_iff.mp hfinish
    have hfiles := ShardBuilder.ofFiles_holds (ShardBuilder.length_le_of_fileSize hsize) id base
    exact ⟨table, hbuild, hfiles.casts_lt (ShardBuilder.ofFiles_fits hid hbase htime hsize)
      (length_of_buildRobinHood hbuild)⟩

end Exact

/-! ## The shards of a build -/

variable {buildTime : ℕ} {recs : List BuildRec}

/-- The numbers that a build gives its shards are 32-bit values. -/
lemma Consumer.Accounts.ids_lt {c : Consumer} (h : c.Accounts buildTime recs (recGroups recs))
    (hlt : (recs.filterMap BuildRec.file?).length < 2 ^ 32) {k : ℕ} {e : ShardEntry}
    (he : c.entries[k]? = some e) : e.shardId < 2 ^ 32 ∧ e.baseDocid < 2 ^ 32 := by
  obtain ⟨g, sbytes, hg, -, -⟩ := h.file_eq k e he
  constructor
  · have hid := congrArg (fun l => l[k]?) h.ids_eq
    rw [List.getElem?_map, he, List.getElem?_range (List.getElem?_eq_some_iff.mp hg).1] at hid
    have hk := Option.some.inj hid
    have hlt' := (List.getElem?_eq_some_iff.mp hg).1
    have hle := @length_recGroups_le recs
    omega
  · rw [h.base_eq k e he, List.map_take, h.num_eq]
    have hle : (((recGroups recs).map List.length).take k).sum ≤
        ((recGroups recs).map List.length).sum :=
      (List.take_sublist k _).sum_le_sum fun _ _ => Nat.zero_le _
    rw [← List.length_flatten, length_flatten_recGroups] at hle
    omega

/-- The shards of a stream of records are exact when each one's table of contents ends below
`2 ^ 32`, and only then; and so are the shards that a build of them has written. -/
theorem shard_arithmetic_exact_iff (htime : buildTime < 2 ^ 64) (recs : List BuildRec) :
    ((∀ g ∈ recGroups recs, ∀ id base, id < 2 ^ 32 → base < 2 ^ 32 →
      ShardExact buildTime id base g) ↔ ∀ g ∈ recGroups recs, shardSize g < 2 ^ 32) ∧
    (∀ c, Consumer.run buildTime recs = .ok c →
      ((∀ (k : ℕ) (e : ShardEntry), c.entries[k]? = some e → ∃ g sbytes,
          (recGroups recs)[k]? = some g ∧ c.written[k]? = some (IndexFile.content e.file, sbytes) ∧
          (ShardBuilder.ofFiles e.shardId e.baseDocid g).finish buildTime = .ok sbytes ∧
          ShardExact buildTime e.shardId e.baseDocid g) ↔
        ∀ g ∈ recGroups recs, shardSize g < 2 ^ 32)) := by
  constructor
  · constructor
    · intro h g hg
      exact (shard_exact_iff (by decide) (by decide) htime).mp (h g hg 0 0 (by decide) (by decide))
    · intro h g hg id base hid hbase
      exact (shard_exact_iff hid hbase htime).mpr (h g hg)
  · intro c hrun
    have hacc := Consumer.accounts_of_run (length_files_of_run hrun) hrun
    have hids : ∀ (k : ℕ) (e : ShardEntry), c.entries[k]? = some e →
        e.shardId < 2 ^ 32 ∧ e.baseDocid < 2 ^ 32 :=
      fun k e he => hacc.ids_lt (length_files_of_run hrun) he
    constructor
    · intro h g hg
      obtain ⟨k, hk⟩ := List.mem_iff_getElem?.mp hg
      have hnum := congrArg (fun l => l[k]?) hacc.num_eq
      rw [List.getElem?_map, List.getElem?_map, hk, Option.map_some, Option.map_eq_some_iff] at hnum
      obtain ⟨e, he, -⟩ := hnum
      obtain ⟨g', -, hg', -, -, hexact⟩ := h k e he
      rw [hk] at hg'
      obtain rfl := Option.some.inj hg'
      exact (shard_exact_iff (hids k e he).1 (hids k e he).2 htime).mp hexact
    · intro h k e he
      obtain ⟨g, sbytes, hg, hwritten, hfinish⟩ := hacc.file_eq k e he
      exact ⟨g, sbytes, hg, hwritten, hfinish, (shard_exact_iff (hids k e he).1 (hids k e he).2
        htime).mpr (h g (List.mem_of_getElem? hg))⟩

/-- The shard of a file of three bytes. -/
theorem shard_arithmetic_exact_small :
    recGroups [⟨"/a", false, 3, 1, some [97, 98, 99]⟩] = [[⟨"/a", ⟨false, 3, 1⟩, [97, 98, 99]⟩]] ∧
      ShardExact 5 0 0 [⟨"/a", ⟨false, 3, 1⟩, [97, 98, 99]⟩] := by
  have hgroups : recGroups [⟨"/a", false, 3, 1, some [97, 98, 99]⟩] =
      [[⟨"/a", ⟨false, 3, 1⟩, [97, 98, 99]⟩]] := shardGroups_singleton (by decide)
  have hiff := (@shard_arithmetic_exact_iff 5 (by decide)
    [⟨"/a", false, 3, 1, some [97, 98, 99]⟩]).1
  rw [hgroups] at hiff
  refine ⟨hgroups, hiff.mpr (fun g hg => ?_) _ (List.mem_singleton_self _) 0 0 (by decide)
    (by decide)⟩
  rw [List.mem_singleton.mp hg]
  decide +kernel

/-- A text file of 4 GiB is a record that no cast keeps, and its shard does not open. -/
theorem four_gib_file_lost :
    let content : Bytes := List.replicate (2 ^ 32) 97
    let file : ShardFile := ⟨"/a", ⟨false, 2 ^ 32, 1⟩, content⟩
    recGroups [⟨"/a", false, 2 ^ 32, 1, some content⟩] = [[file]] ∧
      ¬ ShardExact 0 0 0 [file] ∧
      ∀ bytes, (ShardBuilder.ofFiles 0 0 [file]).finish 0 = .ok bytes →
        ShardReader.open bytes = .error (.err (.dbFormat "shard TOC/end mismatch")) := by
  intro content file
  have hlen : content.length = 2 ^ 32 := List.length_replicate
  have hsize : ¬ shardSize [file] < 2 ^ 32 := by
    rw [shardSize, List.map_singleton, List.sum_singleton]
    have hcontent : file.content.length = 2 ^ 32 := hlen
    omega
  refine ⟨?_, ?_, fun bytes hfinish => ?_⟩
  · have hflat : (([] ++ [file]).flatMap ShardFile.content).length = 2 ^ 32 := by
      rw [List.nil_append, List.flatMap_singleton]
      exact hlen
    have hfiles : [(⟨"/a", false, 2 ^ 32, 1, some content⟩ : BuildRec)].filterMap
        BuildRec.file? = [file] := rfl
    rw [recGroups, hfiles, shardGroups, if_pos (by rw [hflat]; decide), shardGroups, if_pos rfl]
    rfl
  · rwa [shard_exact_iff (by decide) (by decide) (by decide)]
  · refine ShardBuilder.open_of_finish ?_ hfinish
    rw [← shardSize_lt_iff 0 0] at hsize
    omega

end DeepFinder
