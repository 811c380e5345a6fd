import DeepFinder.Content.ShardRoundTrip
import DeepFinder.Core.DbRoundTrip
import DeepFinder.Daemon.Shards
import DeepFinder.Index.Manifest
import DeepFinder.Index.Walk
import DeepFinder.Lib.Writes
import Mathlib.Data.Nat.Digits.Defs

/-!
# Publishing an index

The consumer of a build writes the shard files one by one as they fill up, then the filename
database, then the manifest, each by an atomic rename.  `buildWrites_eq` says what it writes.

Records come in any order, and all of them before the database is finished.  A shard that is full is
written at once, and the last one at the end, if it holds anything.  The 32-bit counters of the
consumer are checked or not, as the build profile has it (`Overflow`); below `2 ^ 32` records with
content both come to the same (`buildWritesUnder_eq`).
-/

namespace DeepFinder

open ByteString

/-! ## The files of an index -/

/-- A file of an index. -/
inductive IndexFile where
  /-- the filename database, `out_db` -/
  | db
  /-- a file of the content directory -/
  | content (name : String)
  deriving DecidableEq, Repr

abbrev Disk := IndexFile → Option Bytes

/-- `format!("\x7b:05\x7d")`, the lowest digit first. -/
def paddedDigits (n : ℕ) : List ℕ :=
  Nat.digits 10 n ++ List.replicate (5 - (Nat.digits 10 n).length) 0

def shardName (id : ℕ) : String :=
  "shard-" ++ String.ofList ((paddedDigits id).reverse.map fun d => Char.ofNat (48 + d)) ++ ".dfcs"

/-- `MANIFEST` in the content directory. -/
def manifestFile : IndexFile := .content "MANIFEST"

example : shardName 42 = "shard-00042.dfcs" := by decide +kernel

/-- `load_shard_set`. -/
def loadShardSet (d : Disk) : List Bytes :=
  match (d manifestFile).bind Manifest.decode with
  | none => []
  | some manifest => manifest.shards.filterMap fun e => d (.content e.file)

/-! ## The consumer -/

/-- `SHARD_FLUSH_BYTES`. -/
def shardFlushBytes : ℕ := 128 * 1024 * 1024

/-- The consumer of a build, with the files it has written. -/
structure Consumer where
  fnb : DbBuilder
  shardId : ℕ := 0
  baseDocid : ℕ := 0
  shard : ShardBuilder := { shardId := 0, baseDocid := 0 }
  contentDocs : ℕ := 0
  entries : List ShardEntry := []
  written : List (IndexFile × Bytes) := []

/-- The current shard is finished, written and listed. -/
def Consumer.emit (c : Consumer) (buildTime : ℕ) : Res Consumer := do
  let sbytes ← c.shard.finish buildTime
  pure { c with
    written := c.written ++ [(.content (shardName c.shardId), sbytes)]
    entries := c.entries ++ [⟨c.shardId, c.baseDocid, c.shard.docCount, shardName c.shardId⟩] }

/-- The current shard is emitted and the next one begins. -/
def Consumer.flush (ov : Overflow) (c : Consumer) (buildTime : ℕ) : Res Consumer := do
  let emitted ← c.emit buildTime
  let shardId ← ov.add32 c.shardId 1
  let baseDocid ← ov.add32 c.baseDocid c.shard.docCount
  pure { emitted with
    shardId := shardId
    baseDocid := baseDocid
    shard := { shardId := shardId, baseDocid := baseDocid } }

/-- A record arrives. -/
def Consumer.receive (ov : Overflow) (c : Consumer) (buildTime : ℕ) (r : BuildRec) :
    Res Consumer :=
  let lite : LiteMeta := ⟨r.isDir, r.size, r.mtime⟩
  let c := { c with fnb := c.fnb.insertWith r.path lite }
  match r.content with
  | none => .ok c
  | some bytes => do
      let shard := c.shard.addFile ⟨r.path, lite, bytes⟩
      let contentDocs ← ov.add32 c.contentDocs 1
      let c := { c with shard := shard, contentDocs := contentDocs }
      if shardFlushBytes ≤ shard.contentBytes then c.flush ov buildTime else .ok c

def Consumer.receiveAll (ov : Overflow) (buildTime : ℕ) : List BuildRec → Consumer → Res Consumer
  | [], c => .ok c
  | r :: recs, c =>
      Consumer.receive ov c buildTime r >>= fun c => Consumer.receiveAll ov buildTime recs c

def Consumer.close (c : Consumer) (buildTime : ℕ) : Res Consumer :=
  if 0 < c.shard.docCount then c.emit buildTime else .ok c

/-- The consumer thread up to `fnb.finish()`. -/
def Consumer.runUnder (ov : Overflow) (buildTime : ℕ) (recs : List BuildRec) : Res Consumer := do
  let c ← Consumer.receiveAll ov buildTime recs { fnb := DbBuilder.setBuildTime {} buildTime }
  c.close buildTime

/-- The files that a build writes, in order. -/
def buildWritesUnder (ov : Overflow) (z : Zstd) (buildTime : ℕ) (recs : List BuildRec) :
    Res (List (IndexFile × Bytes)) := do
  let c ← Consumer.runUnder ov buildTime recs
  let fnBytes ← c.fnb.finish z
  let manifest : Manifest := ⟨buildTime, c.contentDocs, c.entries⟩
  pure (c.written ++ [(.db, fnBytes), (manifestFile, manifest.encode)])

/-- The consumer thread with overflow checks.  While fewer than `2 ^ 32` records carry content, the
profile makes no difference: `buildWritesUnder_eq`. -/
abbrev Consumer.run (buildTime : ℕ) (recs : List BuildRec) : Res Consumer :=
  Consumer.runUnder .panics buildTime recs

/-- The files that a build with overflow checks writes. -/
abbrev buildWrites (z : Zstd) (buildTime : ℕ) (recs : List BuildRec) :
    Res (List (IndexFile × Bytes)) :=
  buildWritesUnder .panics z buildTime recs

/-! ## What the consumer makes of its records -/

def BuildRec.doc (r : BuildRec) : String × LiteMeta := (r.path, ⟨r.isDir, r.size, r.mtime⟩)

/-- The content document of a record that has a content. -/
def BuildRec.file? (r : BuildRec) : Option ShardFile :=
  r.content.map fun bytes => ⟨r.path, ⟨r.isDir, r.size, r.mtime⟩, bytes⟩

/-- The files of each shard, given those of the current one and those to come: a shard ends when its
contents reach the threshold. -/
def shardGroups : List ShardFile → List ShardFile → List (List ShardFile)
  | cur, [] => if cur = [] then [] else [cur]
  | cur, f :: files =>
      if shardFlushBytes ≤ ((cur ++ [f]).flatMap ShardFile.content).length then
        (cur ++ [f]) :: shardGroups [] files
      else shardGroups (cur ++ [f]) files

/-- The shards are finished one by one. -/
def finishShards (buildTime : ℕ) : ℕ → ℕ → List (List ShardFile) → Res (List Bytes)
  | _, _, [] => .ok []
  | id, base, g :: groups => do
      let sbytes ← (ShardBuilder.ofFiles id base g).finish buildTime
      let rest ← finishShards buildTime (id + 1) (base + g.length) groups
      pure (sbytes :: rest)

def shardWrites : ℕ → List Bytes → List (IndexFile × Bytes)
  | _, [] => []
  | id, sbytes :: rest => (.content (shardName id), sbytes) :: shardWrites (id + 1) rest

def shardEntries : ℕ → ℕ → List (List ShardFile) → List ShardEntry
  | _, _, [] => []
  | id, base, g :: groups =>
      ⟨id, base, g.length, shardName id⟩ :: shardEntries (id + 1) (base + g.length) groups

section Consumer

variable {ov : Overflow} {buildTime : ℕ}

lemma foldl_addFile_paths (files : List ShardFile) (b : ShardBuilder) :
    (files.foldl ShardBuilder.addFile b).paths = b.paths ++ files.map ShardFile.path := by
  induction files generalizing b with
  | nil => simp
  | cons f files ih =>
      rw [List.foldl_cons, ih, ShardBuilder.addFile]
      simp

lemma foldl_addFile_corpus (files : List ShardFile) (b : ShardBuilder) :
    (files.foldl ShardBuilder.addFile b).corpus = b.corpus ++ files.flatMap ShardFile.content := by
  induction files generalizing b with
  | nil => simp
  | cons f files ih =>
      rw [List.foldl_cons, ih, ShardBuilder.addFile]
      simp

lemma length_ofFiles_paths (id base : ℕ) (files : List ShardFile) :
    (ShardBuilder.ofFiles id base files).paths.length = files.length := by
  rw [ShardBuilder.ofFiles, foldl_addFile_paths]
  simp

lemma ofFiles_addFile (id base : ℕ) (files : List ShardFile) (f : ShardFile) :
    (ShardBuilder.ofFiles id base files).addFile f =
      ShardBuilder.ofFiles id base (files ++ [f]) := by
  rw [ShardBuilder.ofFiles, ShardBuilder.ofFiles, List.foldl_append]
  rfl

def Consumer.output (c : Consumer) : DbBuilder × ℕ × List ShardEntry × List (IndexFile × Bytes) :=
  (c.fnb, c.contentDocs, c.entries, c.written)

lemma docCount_ofFiles {id base : ℕ} {files : List ShardFile} (h : files.length < 2 ^ 32) :
    (ShardBuilder.ofFiles id base files).docCount = files.length := by
  rw [ShardBuilder.docCount, length_ofFiles_paths, Nat.mod_eq_of_lt h]

lemma contentBytes_ofFiles (id base : ℕ) (files : List ShardFile) :
    (ShardBuilder.ofFiles id base files).contentBytes =
      (files.flatMap ShardFile.content).length := by
  rw [ShardBuilder.contentBytes, ShardBuilder.ofFiles, foldl_addFile_corpus]
  rfl

/-- The consumer between two records, with the files of the current shard: the earlier shards have a
file each at least, and the counters are exact. -/
structure Consumer.Holds (c : Consumer) (cur : List ShardFile) : Prop where
  shard_eq : c.shard = ShardBuilder.ofFiles c.shardId c.baseDocid cur
  id_le : c.shardId ≤ c.baseDocid
  count_eq : c.contentDocs = c.baseDocid + cur.length

lemma Consumer.Holds.docCount_eq {c : Consumer} {cur : List ShardFile} (h : c.Holds cur)
    (hlt : c.contentDocs < 2 ^ 32) : c.shard.docCount = cur.length := by
  have hcount := h.count_eq
  rw [h.shard_eq]
  exact docCount_ofFiles (by omega)

/-- From any point on, the consumer finishes the shards of the files to come and adds every record
to the filename database. -/
lemma Consumer.receiveAll_eq (recs : List BuildRec) (c : Consumer) (cur : List ShardFile)
    (hc : c.Holds cur)
    (hlt : c.contentDocs + (recs.filterMap BuildRec.file?).length < 2 ^ 32) :
    ((Consumer.receiveAll ov buildTime recs c >>= fun c => c.close buildTime).map
        Consumer.output) =
      (finishShards buildTime c.shardId c.baseDocid
          (shardGroups cur (recs.filterMap BuildRec.file?))).map fun shards =>
        (recs.foldl (fun b r => b.insertWith r.doc.1 r.doc.2) c.fnb,
          c.contentDocs + (recs.filterMap BuildRec.file?).length,
          c.entries ++ shardEntries c.shardId c.baseDocid
            (shardGroups cur (recs.filterMap BuildRec.file?)),
          c.written ++ shardWrites c.shardId shards) := by
  -- By induction on the records; `cur` is what the current shard holds, and the counters are below
  -- `2 ^ 32` as long as all contents to come can be counted.
  induction recs generalizing c cur with
  | nil =>
      have hnum := hc.docCount_eq (by omega)
      rw [Consumer.receiveAll, bind_ok, Consumer.close, hnum, List.filterMap_nil, shardGroups]
      by_cases hnil : cur = []
      · rw [hnil, if_neg (by simp), if_pos rfl]
        simp [finishShards, shardEntries, shardWrites, Consumer.output, Except.map]
      · rw [if_pos (List.length_pos_iff.mpr hnil), if_neg hnil, Consumer.emit, hnum, hc.shard_eq,
          finishShards]
        cases (ShardBuilder.ofFiles c.shardId c.baseDocid cur).finish buildTime with
        | error e => rfl
        | ok sbytes => rfl
  | cons r recs ih =>
      rw [Consumer.receiveAll, bind_assoc, Consumer.receive]
      cases hcontent : r.content with
      | none =>
          have hfile : r.file? = none := by rw [BuildRec.file?, hcontent]; rfl
          rw [List.filterMap_cons_none hfile] at hlt ⊢
          exact ih _ cur ⟨hc.shard_eq, hc.id_le, hc.count_eq⟩ hlt
      | some bytes =>
          have hfile : r.file? = some ⟨r.path, ⟨r.isDir, r.size, r.mtime⟩, bytes⟩ := by
            rw [BuildRec.file?, hcontent]
            rfl
          rw [List.filterMap_cons_some hfile] at hlt ⊢
          rw [List.length_cons] at hlt
          rw [shardGroups]
          dsimp only
          generalize (⟨r.path, ⟨r.isDir, r.size, r.mtime⟩, bytes⟩ : ShardFile) = f
          have hcount := hc.count_eq
          have hid := hc.id_le
          have hshard : c.shard.addFile f =
              ShardBuilder.ofFiles c.shardId c.baseDocid (cur ++ [f]) := by
            rw [hc.shard_eq, ofFiles_addFile]
          have hnum : (cur ++ [f]).length = cur.length + 1 := by
            rw [List.length_append, List.length_singleton]
          rw [ov.add32_eq (by omega), bind_ok, hshard, contentBytes_ofFiles]
          -- A full shard is written and the next one begins behind its documents; otherwise the
          -- file joins the current one.
          by_cases hfull : shardFlushBytes ≤ ((cur ++ [f]).flatMap ShardFile.content).length
          · rw [if_pos hfull, if_pos hfull, Consumer.flush, Consumer.emit, finishShards]
            dsimp only
            rw [docCount_ofFiles (by omega), ov.add32_eq (by omega), ov.add32_eq (by omega)]
            cases (ShardBuilder.ofFiles c.shardId c.baseDocid (cur ++ [f])).finish buildTime with
            | error e => rfl
            | ok sbytes =>
                refine (ih _ [] ⟨rfl, ?_, ?_⟩ ?_).trans ?_
                · dsimp only
                  omega
                · dsimp only
                  rw [List.length_nil]
                  omega
                · dsimp only
                  omega
                dsimp only
                rw [bind_ok]
                cases finishShards buildTime (c.shardId + 1) (c.baseDocid + (cur ++ [f]).length)
                    (shardGroups [] (recs.filterMap BuildRec.file?)) with
                | error e => rfl
                | ok shards =>
                    simp [Except.map, shardWrites, shardEntries, BuildRec.doc]
                    omega
          · rw [if_neg hfull, if_neg hfull]
            refine Eq.trans (ih _ (cur ++ [f]) ?_ ?_) ?_
            · refine ⟨rfl, hid, ?_⟩
              dsimp only
              omega
            · dsimp only
              omega
            dsimp only
            refine congrArg (fun g => Except.map g _) (funext fun shards => ?_)
            rw [List.foldl_cons, List.length_cons]
            simp [BuildRec.doc]
            omega

lemma Consumer.flush_contentDocs {c c' : Consumer} (h : Consumer.flush ov c buildTime = .ok c') :
    c'.contentDocs = c.contentDocs := by
  obtain ⟨e, he, h⟩ := bind_eq_ok_iff.mp h
  obtain ⟨id, -, h⟩ := bind_eq_ok_iff.mp h
  obtain ⟨base, -, h⟩ := bind_eq_ok_iff.mp h
  obtain ⟨sbytes, -, he⟩ := bind_eq_ok_iff.mp he
  rw [← Except.ok.inj h, ← Except.ok.inj he]

/-- With overflow checks, a consumer that gets through its records has counted the contents on 32
bits. -/
lemma Consumer.contentDocs_lt {recs : List BuildRec} {c c' : Consumer}
    (h : Consumer.receiveAll .panics buildTime recs c = .ok c') (hlt : c.contentDocs < 2 ^ 32) :
    c.contentDocs + (recs.filterMap BuildRec.file?).length < 2 ^ 32 := by
  induction recs generalizing c with
  | nil => exact hlt
  | cons r recs ih =>
      rw [Consumer.receiveAll, Consumer.receive] at h
      cases hcontent : r.content with
      | none =>
          have hfile : r.file? = none := by rw [BuildRec.file?, hcontent]; rfl
          rw [List.filterMap_cons_none hfile]
          rw [hcontent] at h
          exact @ih { c with fnb := c.fnb.insertWith r.path ⟨r.isDir, r.size, r.mtime⟩ } h hlt
      | some bytes =>
          have hfile : r.file? = some ⟨r.path, ⟨r.isDir, r.size, r.mtime⟩, bytes⟩ := by
            rw [BuildRec.file?, hcontent]
            rfl
          rw [List.filterMap_cons_some hfile, List.length_cons]
          rw [hcontent] at h
          dsimp only at h
          obtain ⟨c₁, hc₁, h⟩ := bind_eq_ok_iff.mp h
          obtain ⟨n, hn, hc₁⟩ := bind_eq_ok_iff.mp hc₁
          obtain ⟨rfl, hn⟩ := add32_eq_ok hn
          have hcount : c₁.contentDocs = c.contentDocs + 1 := by
            split at hc₁
            · exact Consumer.flush_contentDocs hc₁
            · obtain rfl := Except.ok.inj hc₁
              rfl
          have hrest := ih h (by omega)
          omega

lemma foldl_insertWith_setBuildTime (docs : List (String × LiteMeta)) (b : DbBuilder) :
    docs.foldl (fun (b : DbBuilder) f => b.insertWith f.1 f.2) (b.setBuildTime buildTime) =
      (docs.foldl (fun (b : DbBuilder) f => b.insertWith f.1 f.2) b).setBuildTime buildTime := by
  induction docs generalizing b with
  | nil => rfl
  | cons f docs ih => exact ih (b.insertWith f.1 f.2)

def recDocs (recs : List BuildRec) : List (String × LiteMeta) := recs.map BuildRec.doc

def recGroups (recs : List BuildRec) : List (List ShardFile) :=
  shardGroups [] (recs.filterMap BuildRec.file?)

def recManifest (buildTime : ℕ) (recs : List BuildRec) : Manifest :=
  ⟨buildTime, (recs.filterMap BuildRec.file?).length, shardEntries 0 0 (recGroups recs)⟩

/-- The consumer finishes the shards in order and holds every document. -/
lemma Consumer.run_eq {recs : List BuildRec}
    (hlt : (recs.filterMap BuildRec.file?).length < 2 ^ 32) :
    (Consumer.runUnder ov buildTime recs).map Consumer.output =
      (finishShards buildTime 0 0 (recGroups recs)).map fun shards =>
        (DbBuilder.ofFiles (recDocs recs) buildTime, (recs.filterMap BuildRec.file?).length,
          shardEntries 0 0 (recGroups recs), shardWrites 0 shards) := by
  have hrun := @Consumer.receiveAll_eq ov buildTime recs
    { fnb := DbBuilder.setBuildTime {} buildTime } [] ⟨rfl, le_rfl, rfl⟩ (by
      rw [Nat.zero_add]
      exact hlt)
  have hfnb : recs.foldl (fun b r => b.insertWith r.doc.1 r.doc.2)
      (DbBuilder.setBuildTime {} buildTime) = DbBuilder.ofFiles (recDocs recs) buildTime := by
    rw [DbBuilder.ofFiles, ← foldl_insertWith_setBuildTime, recDocs, List.foldl_map]
  dsimp only at hrun
  rw [hfnb] at hrun
  refine hrun.trans (congrArg (fun g => Except.map g _) (funext fun shards => ?_))
  rw [Nat.zero_add, List.nil_append, List.nil_append, recGroups]

/-- A build writes its shards under the names of the first slots, then the filename database, then
the manifest. -/
theorem buildWrites_eq (z : Zstd) {recs : List BuildRec}
    (hlt : (recs.filterMap BuildRec.file?).length < 2 ^ 32) :
    buildWritesUnder ov z buildTime recs =
      finishShards buildTime 0 0 (recGroups recs) >>= fun shards =>
        (DbBuilder.ofFiles (recDocs recs) buildTime).finish z >>= fun fnBytes =>
          .ok (shardWrites 0 shards ++
            [(.db, fnBytes), (manifestFile, (recManifest buildTime recs).encode)]) := by
  have hbuild : buildWritesUnder ov z buildTime recs =
      (Consumer.runUnder ov buildTime recs).map Consumer.output >>= fun out =>
        out.1.finish z >>= fun fnBytes =>
          .ok (out.2.2.2 ++ [(.db, fnBytes),
            (manifestFile, (⟨buildTime, out.2.1, out.2.2.1⟩ : Manifest).encode)]) := by
    unfold buildWritesUnder
    cases Consumer.runUnder ov buildTime recs with
    | error e => rfl
    | ok c => rfl
  rw [hbuild, Consumer.run_eq hlt, recManifest]
  cases finishShards buildTime 0 0 (recGroups recs) with
  | error e => rfl
  | ok shards => rfl

lemma buildWritesUnder_eq (z : Zstd) {recs : List BuildRec}
    (hlt : (recs.filterMap BuildRec.file?).length < 2 ^ 32) :
    buildWritesUnder ov z buildTime recs = buildWrites z buildTime recs :=
  (buildWrites_eq z hlt).trans (buildWrites_eq z hlt).symm

lemma length_files_of_run {recs : List BuildRec} {c : Consumer}
    (h : Consumer.run buildTime recs = .ok c) :
    (recs.filterMap BuildRec.file?).length < 2 ^ 32 := by
  obtain ⟨c', hall, -⟩ := bind_eq_ok_iff.mp h
  have hlt := Consumer.contentDocs_lt hall (Nat.two_pow_pos 32)
  rwa [Nat.zero_add] at hlt

/-- What the consumer has when it is done. -/
lemma Consumer.output_of_run {recs : List BuildRec} {c : Consumer}
    (hlt : (recs.filterMap BuildRec.file?).length < 2 ^ 32)
    (h : Consumer.runUnder ov buildTime recs = .ok c) :
    ∃ shards, finishShards buildTime 0 0 (recGroups recs) = .ok shards ∧
      c.fnb = DbBuilder.ofFiles (recDocs recs) buildTime ∧
      c.contentDocs = (recs.filterMap BuildRec.file?).length ∧
      c.entries = shardEntries 0 0 (recGroups recs) ∧ c.written = shardWrites 0 shards := by
  have hrun := @Consumer.run_eq ov buildTime recs hlt
  rw [h] at hrun
  rcases hshards : finishShards buildTime 0 0 (recGroups recs) with e | shards
  · rw [hshards] at hrun
    cases hrun
  · rw [hshards] at hrun
    have hout : c.output = _ := Except.ok.inj hrun
    rw [Consumer.output, Prod.mk.injEq, Prod.mk.injEq, Prod.mk.injEq] at hout
    exact ⟨shards, rfl, hout⟩

end Consumer

end DeepFinder
