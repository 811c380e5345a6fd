import DeepFinder.Index.Atomicity

/-!
# The accounting of a streaming build

The consumer of a build carries a builder, a shard number, a document offset and a count through
its records, and flushes the builder whenever its corpus reaches the threshold.
`streaming_build_accounts` says that nothing is lost or counted twice wherever the flushes fall, as
long as fewer than `2 ^ 32` records carry content: the counts are `u32`, and at that number they
overflow, which a debug build turns into a panic and a release build into an index without contents
(`overfull_build_loses_contents`).
-/

namespace DeepFinder

open ByteString

/-! ## Where the flushes fall -/

/-- No shard is empty. -/
lemma ne_nil_of_mem_shardGroups {cur files : List ShardFile} {g : List ShardFile}
    (h : g ∈ shardGroups cur files) : g ≠ [] := by
  induction files generalizing cur with
  | nil =>
      rw [shardGroups] at h
      by_cases hcur : cur = []
      · rw [if_pos hcur] at h
        cases h
      · rw [if_neg hcur, List.mem_singleton] at h
        exact h ▸ hcur
  | cons f files ih =>
      rw [shardGroups] at h
      split at h
      · rcases List.mem_cons.mp h with rfl | h
        · exact List.append_ne_nil_of_right_ne_nil _ (List.cons_ne_nil _ _)
        · exact ih h
      · exact ih h

/-- Every shard but the last has reached the threshold. -/
lemma full_of_mem_dropLast_shardGroups {cur files : List ShardFile} {g : List ShardFile}
    (h : g ∈ (shardGroups cur files).dropLast) :
    shardFlushBytes ≤ (g.flatMap ShardFile.content).length := by
  induction files generalizing cur with
  | nil =>
      rw [shardGroups] at h
      split at h
      · cases h
      · cases h
  | cons f files ih =>
      rw [shardGroups] at h
      split at h
      · rename_i hfull
        by_cases hrest : shardGroups [] files = []
        · rw [hrest] at h
          cases h
        · rw [List.dropLast_cons_of_ne_nil hrest] at h
          rcases List.mem_cons.mp h with rfl | h
          · exact hfull
          · exact ih h
      · exact ih h

/-! ## The manifest -/

section Entries

variable {groups : List (List ShardFile)}

lemma map_shardId_shardEntries (id base : ℕ) :
    (shardEntries id base groups).map ShardEntry.shardId = List.range' id groups.length := by
  induction groups generalizing id base with
  | nil => rfl
  | cons g groups ih =>
      rw [shardEntries, List.map_cons, ih, List.length_cons, List.range'_succ]

lemma map_numDocs_shardEntries (id base : ℕ) :
    (shardEntries id base groups).map ShardEntry.numDocs = groups.map List.length := by
  induction groups generalizing id base with
  | nil => rfl
  | cons g groups ih => rw [shardEntries, List.map_cons, ih, List.map_cons]

/-- The entry of a shard: its offset is the number of documents in the shards before it. -/
lemma getElem?_shardEntries (id base k : ℕ) : (shardEntries id base groups)[k]? =
    (groups[k]?).map fun g =>
      ⟨id + k, base + ((groups.take k).map List.length).sum, g.length, shardName (id + k)⟩ := by
  induction groups generalizing id base k with
  | nil => rfl
  | cons g groups ih =>
      rw [shardEntries]
      cases k with
      | zero => simp
      | succ k =>
          have hid : id + 1 + k = id + (k + 1) := by omega
          rw [List.getElem?_cons_succ, List.getElem?_cons_succ, ih, hid, List.take_succ_cons,
            List.map_cons, List.sum_cons, Nat.add_assoc]

/-- A shard is the file finished from its group. -/
lemma exists_of_finishShards {buildTime id base k : ℕ} {shards : List Bytes} {g : List ShardFile}
    (h : finishShards buildTime id base groups = .ok shards) (hg : groups[k]? = some g) :
    ∃ sbytes, shards[k]? = some sbytes ∧
      (ShardBuilder.ofFiles (id + k) (base + ((groups.take k).map List.length).sum) g).finish
        buildTime = .ok sbytes := by
  induction groups generalizing id base k shards with
  | nil => cases hg
  | cons g' groups ih =>
      obtain ⟨sbytes, hfinish, h⟩ := bind_eq_ok_iff.mp h
      obtain ⟨rest, hrest, h⟩ := bind_eq_ok_iff.mp h
      obtain rfl := Except.ok.inj h
      cases k with
      | zero =>
          obtain rfl := Option.some.inj hg
          exact ⟨sbytes, rfl, by simpa using hfinish⟩
      | succ k =>
          have hid : id + 1 + k = id + (k + 1) := by omega
          have hnext := ih hrest hg
          rw [hid, Nat.add_assoc] at hnext
          simpa using hnext

end Entries

/-! ## The accounting -/

/-- What a consumer that is done has made of its records.  `groups` are the files of the shards, one
list a shard, and everything is said of them in the order of the manifest. -/
structure Consumer.Accounts (c : Consumer) (buildTime : ℕ) (recs : List BuildRec)
    (groups : List (List ShardFile)) : Prop where
  /-- one filename document a record, in arrival order -/
  docs_eq : c.fnb = DbBuilder.ofFiles (recDocs recs) buildTime
  /-- the shards, in manifest order, are the records with a content, in arrival order -/
  files_eq : groups.flatten = recs.filterMap BuildRec.file?
  num_eq : c.entries.map ShardEntry.numDocs = groups.map List.length
  ids_eq : c.entries.map ShardEntry.shardId = List.range groups.length
  base_eq : ∀ (k : ℕ) (e : ShardEntry), c.entries[k]? = some e →
    e.baseDocid = ((c.entries.take k).map ShardEntry.numDocs).sum
  /-- each entry's file is the shard of its files -/
  file_eq : ∀ (k : ℕ) (e : ShardEntry), c.entries[k]? = some e → ∃ g sbytes,
    groups[k]? = some g ∧ c.written[k]? = some (IndexFile.content e.file, sbytes) ∧
    (ShardBuilder.ofFiles e.shardId e.baseDocid g).finish buildTime = .ok sbytes
  total_eq : c.contentDocs = (c.entries.map ShardEntry.numDocs).sum
  nonempty : ∀ g ∈ groups, g ≠ []
  full : ∀ g ∈ groups.dropLast, shardFlushBytes ≤ (g.flatMap ShardFile.content).length

variable {z : Zstd} {ov : Overflow} {buildTime : ℕ} {recs : List BuildRec} {c : Consumer}

/-- A consumer that finishes its shards accounts for its records. -/
lemma Consumer.accounts_of_run (hlt : (recs.filterMap BuildRec.file?).length < 2 ^ 32)
    (h : Consumer.runUnder ov buildTime recs = .ok c) :
    c.Accounts buildTime recs (recGroups recs) := by
  obtain ⟨shards, hshards, hfnb, hcount, hentries, hwritten⟩ := Consumer.output_of_run hlt h
  have hnum : c.entries.map ShardEntry.numDocs = (recGroups recs).map List.length := by
    rw [hentries, map_numDocs_shardEntries]
  have hentry : ∀ (k : ℕ) (e : ShardEntry), c.entries[k]? = some e →
      ∃ g, (recGroups recs)[k]? = some g ∧
        e = ⟨k, (((recGroups recs).take k).map List.length).sum, g.length, shardName k⟩ := by
    intro k e he
    rw [hentries, getElem?_shardEntries, Option.map_eq_some_iff] at he
    obtain ⟨g, hg, rfl⟩ := he
    exact ⟨g, hg, by simp⟩
  refine
    { docs_eq := hfnb, files_eq := ?_, num_eq := hnum, ids_eq := ?_, base_eq := ?_, file_eq := ?_,
      total_eq := ?_, nonempty := fun g hg => ne_nil_of_mem_shardGroups hg,
      full := fun g hg => full_of_mem_dropLast_shardGroups hg }
  · rw [recGroups, flatten_shardGroups, List.nil_append]
  · rw [hentries, map_shardId_shardEntries, List.range_eq_range']
  · intro k e he
    obtain ⟨g, -, rfl⟩ := hentry k e he
    simp only [List.map_take, hnum]
  · intro k e he
    obtain ⟨g, hg, rfl⟩ := hentry k e he
    obtain ⟨sbytes, hsbytes, hfinish⟩ := exists_of_finishShards hshards hg
    rw [Nat.zero_add, Nat.zero_add] at hfinish
    refine ⟨g, sbytes, hg, ?_, hfinish⟩
    rw [hwritten, getElem?_shardWrites, hsbytes, Nat.zero_add]
    rfl
  · rw [hcount, hnum, ← List.length_flatten, length_flatten_recGroups]

/-- A disk that reads back as the records of a build: the database holds a document a record, the
manifest is the consumer's, and the shards it lists open, in its order, as the groups of files. -/
structure ReadsBack (z : Zstd) (d : Disk) (buildTime : ℕ) (recs : List BuildRec) (c : Consumer)
    (groups : List (List ShardFile)) : Prop where
  db_opens : ∃ bytes r, d .db = some bytes ∧ DbReader.open bytes = .ok r ∧
    (r.view z).Indexes (recDocs recs)
  manifest_reads : ∃ bytes, d manifestFile = some bytes ∧
    Manifest.decode bytes = some ⟨buildTime, c.contentDocs, c.entries⟩
  shards_open : ShardSetIndexes (loadShardSet d) groups

/-- A build of fewer than `2 ^ 32` records with content, under either profile, that completes
accounts for every record: each is a filename document, in arrival order; the shards in manifest
order are the records with a content, in arrival order, each once; numbers, offsets and the total
agree; no shard is empty, and every shard but the last has reached the threshold.  A build whose
files fit their formats completes and reads back so. -/
theorem streaming_build_accounts (hz : z.Lawful) (ov : Overflow) (buildTime : ℕ)
    (recs : List BuildRec) (hlt : (recs.filterMap BuildRec.file?).length < 2 ^ 32) :
    (∀ c, Consumer.runUnder ov buildTime recs = .ok c →
      c.Accounts buildTime recs (recGroups recs)) ∧
    (BuildFits z buildTime recs → ∃ c ws, Consumer.runUnder ov buildTime recs = .ok c ∧
      buildWritesUnder ov z buildTime recs = .ok ws ∧
      ∀ old, ReadsBack z (Writes.apply ws old) buildTime recs c (recGroups recs)) := by
  refine ⟨fun c hrun => Consumer.accounts_of_run hlt hrun, fun hfits => ?_⟩
  obtain ⟨ws, hbuild, hdisk⟩ := hfits.holdsIndex hz
  have hunder : buildWritesUnder ov z buildTime recs = .ok ws :=
    (buildWritesUnder_eq z hlt).trans hbuild
  obtain ⟨c, hrun, hbuild'⟩ := bind_eq_ok_iff.mp hunder
  refine ⟨c, ws, hrun, hunder, fun old => ?_⟩
  obtain ⟨hdb, hset⟩ := (hdisk old).reopens
  refine ⟨hdb, ?_, hset⟩
  -- the manifest stands last
  obtain ⟨fnBytes, -, hws⟩ := bind_eq_ok_iff.mp hbuild'
  obtain ⟨shards, fnBytes', -, hpublish⟩ := exists_publishWrites hbuild
  have hmanifest : (⟨buildTime, c.contentDocs, c.entries⟩ : Manifest) =
      recManifest buildTime recs := by
    obtain ⟨_, -, -, hcount, hentries, -⟩ := Consumer.output_of_run hlt hrun
    rw [recManifest, hcount, hentries]
  refine ⟨(recManifest buildTime recs).encode, ?_, ?_⟩
  · have htake : ws = ws.take (shards.length + 2) := by
      rw [hpublish, List.take_of_length_le (by rw [length_publishWrites])]
    rw [htake, hpublish, apply_take_manifest, if_pos (by omega)]
  · rw [hmanifest, Manifest.decode_encode hfits.manifest_fits]

/-- A build of a file, a directory and an empty file. -/
theorem streaming_build_accounts_three :
    let recs : List BuildRec := [⟨"/a", false, 1, 1, some [97]⟩, ⟨"/d", true, 0, 2, none⟩,
      ⟨"/e", false, 0, 3, some []⟩]
    let files : List ShardFile := [⟨"/a", ⟨false, 1, 1⟩, [97]⟩, ⟨"/e", ⟨false, 0, 3⟩, []⟩]
    ∃ c ws, Consumer.runUnder .wraps 5 recs = .ok c ∧
      buildWritesUnder .wraps .stored 5 recs = .ok ws ∧
      c.Accounts 5 recs [files] ∧ c.contentDocs = 2 ∧
      ReadsBack .stored (Writes.apply ws fun _ => none) 5 recs c [files] := by
  intro recs files
  have hgroups : recGroups recs = [files] := by
    have hfiles : recs.filterMap BuildRec.file? = files := rfl
    rw [recGroups, hfiles, shardGroups, if_neg (by decide), shardGroups, if_neg (by decide)]
    rfl
  obtain ⟨hacc, hreads⟩ := streaming_build_accounts Zstd.stored_lawful .wraps 5 recs (by decide)
  rw [hgroups] at hacc hreads
  obtain ⟨c, ws, hrun, hbuild, hdisk⟩ := hreads
    ⟨by decide, by decide, by decide +kernel,
      by rw [hgroups]; decide +kernel⟩
  refine ⟨c, ws, hrun, hbuild, hacc c hrun, ?_, hdisk _⟩
  rw [(hacc c hrun).total_eq, (hacc c hrun).num_eq]
  rfl

/-! ## Counting on 32 bits -/

/-- A consumer with `n` empty contents so far, none of them in a shard that was written. -/
structure Consumer.AllEmpty (c : Consumer) (n : ℕ) : Prop where
  corpus_eq : c.shard.corpus = []
  length_eq : c.shard.paths.length = n
  entries_eq : c.entries = []

/-- While the contents are empty nothing is flushed. -/
lemma Consumer.AllEmpty.receive {ov : Overflow} {c : Consumer} {n m : ℕ} (h : c.AllEmpty n)
    {r : BuildRec} (hr : r.content = some []) (hadd : ov.add32 c.contentDocs 1 = .ok m) :
    ∃ c', c.receive ov buildTime r = .ok c' ∧ c'.contentDocs = m ∧ c'.AllEmpty (n + 1) := by
  have hcorpus : (c.shard.addFile ⟨r.path, ⟨r.isDir, r.size, r.mtime⟩, []⟩).corpus = [] := by
    rw [ShardBuilder.addFile, h.corpus_eq]
    rfl
  have hlength : (c.shard.addFile ⟨r.path, ⟨r.isDir, r.size, r.mtime⟩, []⟩).paths.length =
      n + 1 := by
    rw [ShardBuilder.addFile, List.length_append, h.length_eq]
    rfl
  rw [Consumer.receive, hr]
  dsimp only
  rw [hadd, bind_ok, ShardBuilder.contentBytes, hcorpus, if_neg (by decide)]
  exact ⟨_, rfl, rfl, hcorpus, hlength, h.entries_eq⟩

/-- With overflow checks the count of the contents panics. -/
lemma receiveAll_panics {r : BuildRec} (hr : r.content = some []) {n k : ℕ} {c : Consumer}
    (h : c.AllEmpty k) (hlt : c.contentDocs < 2 ^ 32) (hover : 2 ^ 32 ≤ c.contentDocs + n) :
    Consumer.receiveAll .panics buildTime (List.replicate n r) c = .error .panicked := by
  induction n generalizing c k with
  | zero => omega
  | succ n ih =>
      rw [List.replicate_succ, Consumer.receiveAll]
      by_cases hnext : c.contentDocs + 1 < 2 ^ 32
      · obtain ⟨c', hreceive, hcount, hempty⟩ :=
          @Consumer.AllEmpty.receive buildTime .panics c k _ h r hr (add32_eq hnext)
        rw [hreceive, bind_ok]
        exact ih hempty (by omega) (by omega)
      · rw [Consumer.receive, hr]
        dsimp only
        rw [Overflow.add32, add32, if_neg hnext]
        rfl

/-- Without them it starts again from zero. -/
lemma receiveAll_wraps {r : BuildRec} (hr : r.content = some []) (n : ℕ) {k : ℕ} {c : Consumer}
    (h : c.AllEmpty k) (hcount : c.contentDocs = k % 2 ^ 32) :
    ∃ c', Consumer.receiveAll .wraps buildTime (List.replicate n r) c = .ok c' ∧
      c'.contentDocs = (k + n) % 2 ^ 32 ∧ c'.AllEmpty (k + n) := by
  induction n generalizing c k with
  | zero => exact ⟨c, rfl, hcount, h⟩
  | succ n ih =>
      obtain ⟨c₁, hreceive, hcount₁, hempty⟩ :=
        @Consumer.AllEmpty.receive buildTime .wraps c k _ h r hr rfl
      have hnext : c₁.contentDocs = (k + 1) % 2 ^ 32 := by
        rw [hcount₁, hcount, Nat.mod_add_mod]
      obtain ⟨c', hall, hcount', hempty'⟩ := ih hempty hnext
      have hsum : k + (n + 1) = k + 1 + n := by omega
      rw [List.replicate_succ, Consumer.receiveAll, hreceive, bind_ok, hsum]
      exact ⟨c', hall, hcount', hempty'⟩

/-- Of 2 ^ 32 empty files, a consumer without overflow checks has no shard and the total 0 at its
end, and one with them panics. -/
theorem overfull_build_loses_contents :
    let recs : List BuildRec := List.replicate (2 ^ 32) ⟨"/a", false, 0, 0, some []⟩
    (∃ c, Consumer.runUnder .wraps 0 recs = .ok c ∧ c.entries = [] ∧ c.contentDocs = 0 ∧
      ¬ c.Accounts 0 recs (recGroups recs)) ∧
    Consumer.runUnder .panics 0 recs = .error .panicked := by
  intro recs
  have hstart : Consumer.AllEmpty { fnb := DbBuilder.setBuildTime {} 0 } 0 := ⟨rfl, rfl, rfl⟩
  constructor
  · obtain ⟨c, hall, hcount, hempty⟩ := @receiveAll_wraps 0 ⟨"/a", false, 0, 0, some []⟩ rfl
      (2 ^ 32) 0 _ hstart rfl
    rw [Nat.zero_add] at hcount hempty
    have hdocs : c.shard.docCount = 0 := by
      rw [ShardBuilder.docCount, hempty.length_eq, Nat.mod_self]
    refine ⟨c, ?_, hempty.entries_eq, hcount.trans (Nat.mod_self _), fun hacc => ?_⟩
    · rw [Consumer.runUnder, hall, bind_ok, Consumer.close, hdocs, if_neg (by decide)]
    · have hnum := hacc.num_eq
      rw [hempty.entries_eq, List.map_nil] at hnum
      have hgroups : recGroups recs = [] := List.map_eq_nil_iff.mp hnum.symm
      have hfiles := hacc.files_eq
      rw [hgroups] at hfiles
      have hrecs : recs.filterMap BuildRec.file? =
          List.replicate (2 ^ 32) ⟨"/a", ⟨false, 0, 0⟩, []⟩ :=
        List.filterMap_replicate_of_some rfl
      have hlength := congrArg List.length hfiles
      rw [hrecs, List.length_replicate] at hlength
      exact absurd hlength (by decide)
  · rw [Consumer.runUnder, receiveAll_panics rfl hstart (by exact Nat.two_pow_pos 32)
      (by exact Nat.le_add_left _ _)]
    rfl

end DeepFinder
