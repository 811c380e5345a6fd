import DeepFinder.Core.StrSlice
import DeepFinder.Index.Atomicity
import DeepFinder.Index.Walk
import Mathlib.Data.List.Destutter

/-!
# The build without contents

`build_index` walks the root in parallel, each thread pushing what it records onto one list, sorts
the list by path, drops neighbours of one path and writes the filename database.

Its visitor asks the settings before it asks whether a path is text, where the visitor of the
content build does the opposite, so the two walks differ below directories whose path is no text.
Both record the same (`filenameRecs_eq`), and the database is the same, byte for byte, whatever the
threads do (`filename_build`).

Both walks see one tree under one set of settings.  `one_file_system` is left out: only the visitor
of the content build looks at devices.  The records must be fewer than `2 ^ 32` and fit the
database's format, or `finish` would not write them.
-/

namespace DeepFinder

open ByteString

/-- `DocRec`. -/
structure DocRec where
  path : String
  isDir : Bool
  size : Int64
  mtime : Int64
  deriving DecidableEq, Repr

/-- What `insert_with` is given. -/
def DocRec.doc (r : DocRec) : String × LiteMeta := (r.path, ⟨r.isDir, r.size, r.mtime⟩)

/-- `build_index_report`: the default names to skip, and others. -/
def buildSkip (extraSkip : List String) : List String :=
  extraSkip.foldl (fun skip e => if e ≠ "" ∧ e ∉ skip then skip ++ [e] else skip) defaultSkip

def docRecOf (path : String) (u : FileNode) : DocRec where
  path := path
  isDir := nodeIsDir u
  size := ((nodeOwnStat u).map FileStat.size).getD 0
  mtime := ((nodeOwnStat u).map FileStat.mtime).getD 0

/-- The visitor of `collect_records`. -/
def collectEntry (env : WalkEnv) (skip : List String) (fs : FileSystem) (p : List Bytes)
    (u : FileNode) : WalkState × Option DocRec :=
  if nodeIsDir u && skip.contains (toStringLossy (fs.entryName p)) then (.skip, none)
  else if env.ignores p (nodeIsDir u) then (if nodeIsDir u then .skip else .next, none)
  else (.next, (fromUtf8 (pathBytes fs.root p)).map fun path => docRecOf path u)

/-- The walk of `collect_records`. -/
def collectWalk (env : WalkEnv) (skip : List String) (hidden : Bool) (fs : FileSystem) :
    List (List Bytes × FileNode) :=
  fs.tree.walk (fun p u => env.standard (!hidden) p (nodeIsDir u))
    (fun p u => decide ((collectEntry env skip fs p u).1 = .next)) []

def filenameRecs (env : WalkEnv) (skip : List String) (hidden : Bool) (fs : FileSystem) :
    List DocRec :=
  (collectWalk env skip hidden fs).filterMap fun e => (collectEntry env skip fs e.1 e.2).2

/-- `collect_records`, of what the threads have pushed. -/
def collectRecords (pushed : List DocRec) : List DocRec :=
  (pushed.mergeSort fun a b => a.path ≤ b.path).destutter fun a b => a.path ≠ b.path

/-- `build_index_report`: the number of documents, and the database that is written. -/
def buildIndexReport (z : Zstd) (buildTime : ℕ) (pushed : List DocRec) : Res (ℕ × Bytes) := do
  let builder := (collectRecords pushed).foldl (fun b r => b.insertWith r.doc.1 r.doc.2)
    (DbBuilder.setBuildTime {} buildTime)
  let bytes ← builder.finish z
  .ok (builder.paths.length % 2 ^ 32, bytes)

/-! ## Both builds record the same -/

/-- Below a directory whose path is no text, no path is. -/
lemma fromUtf8_joinName {path name : Bytes} (h : fromUtf8 path = none) :
    fromUtf8 (joinName path name) = none := by
  rw [Option.eq_none_iff_forall_ne_some]
  intro t ht
  have hnot : ∀ s, utf8 s ≠ path := by
    rintro s rfl
    rw [fromUtf8_utf8] at h
    cases h
  have hslash : ∀ {tail : Bytes}, ∀ b ∈ (slash :: tail).head?, b.IsUTF8FirstByte := by
    intro tail b hb
    obtain rfl := Option.some.inj hb
    decide
  have hbytes := utf8_of_fromUtf8 ht
  unfold joinName at hbytes
  split at hbytes
  · rename_i hend
    rcases hend with rfl | hend
    · exact hnot "" rfl
    · obtain ⟨init, rfl⟩ := List.getLast?_eq_some_iff.mp hend
      rw [List.append_assoc] at hbytes
      obtain ⟨a, b, -, ha, -⟩ := exists_append_of_utf8 hbytes.symm hslash
      refine hnot (a ++ "/") ?_
      rw [utf8_append, ha]
      rfl
  · obtain ⟨a, b, -, ha, -⟩ := exists_append_of_utf8 hbytes.symm hslash
    exact hnot a ha

variable {env : WalkEnv} {opts : ContentBuildOptions} {fs : FileSystem}

lemma buildSkip_extraSkip : buildSkip opts.extraSkip = opts.skip := rfl

/-- Of an entry both visitors record the same. -/
lemma collectEntry_snd (p : List Bytes) (u : FileNode) :
    ((collectEntry env opts.skip fs p u).2).map DocRec.doc =
      ((visitEntry env opts fs p u).2).map BuildRec.doc := by
  unfold collectEntry visitEntry
  split
  · rfl
  · cases hpath : fromUtf8 (pathBytes fs.root p) with
    | none =>
        split
        · rfl
        · rfl
    | some path =>
        dsimp only
        split
        · rfl
        · rfl

/-- Both go on alike where the path is text. -/
lemma collectEntry_fst {p : List Bytes} (u : FileNode)
    (hpath : ¬ fromUtf8 (pathBytes fs.root p) = none) :
    (collectEntry env opts.skip fs p u).1 = (visitEntry env opts fs p u).1 := by
  obtain ⟨path, hpath⟩ := Option.ne_none_iff_exists'.mp hpath
  unfold collectEntry visitEntry
  rw [hpath]
  split
  · rfl
  · dsimp only
    split
    · rfl
    · rfl

/-- The build without contents records what the content build does. -/
theorem filenameRecs_eq (hone : opts.oneFileSystem = false) :
    (filenameRecs env (buildSkip opts.extraSkip) opts.hidden fs).map DocRec.doc =
      recDocs (buildRecs env opts fs) := by
  have hvisit : (fun e : List Bytes × FileNode =>
      ((collectEntry env opts.skip fs e.1 e.2).2).map DocRec.doc) =
      fun e => ((visitEntry env opts fs e.1 e.2).2).map BuildRec.doc :=
    funext fun e => collectEntry_snd e.1 e.2
  rw [filenameRecs, recDocs, buildRecs, List.map_filterMap, List.map_filterMap, collectWalk,
    buildWalk, buildSkip_extraSkip, hvisit]
  -- the walks part below directories whose path is no text
  refine FileTree.filterMap_walk_congr (fun p => fromUtf8 (pathBytes fs.root p) = none)
    (fun p n hp => ?_) (fun p u hp => ?_) (fun p u hp => ?_) fs.tree []
  · rw [pathBytes, List.foldl_append]
    exact fromUtf8_joinName hp
  · rw [Option.map_eq_none_iff, Option.eq_none_iff_forall_ne_some]
    intro r hr
    obtain ⟨-, -, path, hpath, -⟩ := visitEntry_snd.mp hr
    rw [hp] at hpath
    cases hpath
  · rw [collectEntry_fst u hp, hone, Bool.false_and, Bool.not_false, Bool.and_true]

/-! ## The database -/

lemma collectEntry_path {skip : List String} {p : List Bytes} {u : FileNode} {r : DocRec}
    (h : (collectEntry env skip fs p u).2 = some r) : utf8 r.path = pathBytes fs.root p := by
  unfold collectEntry at h
  split at h
  · cases h
  · split at h
    · cases h
    · obtain ⟨path, hpath, rfl⟩ := Option.map_eq_some_iff.mp h
      exact utf8_of_fromUtf8 hpath

/-- No two records have one path. -/
lemma pairwise_filenameRecs (skip : List String) (hidden : Bool) :
    (filenameRecs env skip hidden fs).Pairwise fun a b => a.path ≠ b.path := by
  have hwalk : (collectWalk env skip hidden fs).Pairwise fun e e' => e.1 ≠ e'.1 :=
    List.pairwise_map.mp (FileTree.nodup_walk fs.tree [] fs.names_nodup)
  refine List.Pairwise.filterMap _ (fun e e' hne r hr r' hr' hpath => ?_)
    (hwalk.imp_of_mem fun he he' hne => And.intro hne (And.intro he he'))
  obtain ⟨hne, he, he'⟩ := hne
  have hvalid : ∀ e ∈ collectWalk env skip hidden fs, ∀ name ∈ e.1, name ≠ [] ∧ slash ∉ name :=
    fun e he => fs.names_valid.of_resolve ((FileTree.mem_walk_iff fs.names_nodup).mp he).1
  have hbytes : pathBytes fs.root e.1 = pathBytes fs.root e'.1 := by
    rw [← collectEntry_path hr, ← collectEntry_path hr', hpath]
  exact hne (pathBytes_inj (hvalid e he) (hvalid e' he') hbytes)

/-- The records are sorted, each path once, and the threads have no say in it. -/
lemma collectRecords_perm {pushed recs : List DocRec} (hperm : pushed.Perm recs)
    (hrecs : recs.Pairwise fun a b => a.path ≠ b.path) :
    (collectRecords pushed).Perm recs ∧
      (collectRecords pushed).Pairwise fun a b => a.path < b.path := by
  have hsort : (pushed.mergeSort fun a b => a.path ≤ b.path).Perm pushed := List.mergeSort_perm _ _
  have hne : (pushed.mergeSort fun a b => a.path ≤ b.path).Pairwise fun a b => a.path ≠ b.path :=
    ((hsort.trans hperm).pairwise_iff fun h => Ne.symm h).mpr hrecs
  have hle : (pushed.mergeSort fun a b => a.path ≤ b.path).Pairwise fun a b =>
      decide (a.path ≤ b.path) = true := by
    refine List.pairwise_mergeSort (fun a b c hab hbc => ?_) (fun a b => ?_) pushed
    · exact decide_eq_true (String.le_trans (of_decide_eq_true hab) (of_decide_eq_true hbc))
    · simpa using String.le_total a.path b.path
  rw [collectRecords, List.destutter_of_isChain _ _ hne.isChain]
  refine ⟨hsort.trans hperm, (hle.and hne).imp fun h => ?_⟩
  rw [← String.not_le]
  exact fun hba => h.2 (String.le_antisymm (of_decide_eq_true h.1) hba)

lemma collectRecords_congr {pushed pushed' recs : List DocRec} (hperm : pushed.Perm recs)
    (hperm' : pushed'.Perm recs) (hrecs : recs.Pairwise fun a b => a.path ≠ b.path) :
    collectRecords pushed = collectRecords pushed' := by
  obtain ⟨hp, hlt⟩ := collectRecords_perm hperm hrecs
  obtain ⟨hp', hlt'⟩ := collectRecords_perm hperm' hrecs
  exact (hp.trans hp'.symm).eq_of_pairwise
    (fun a b _ _ hab hba => absurd hba (String.lt_asymm hab)) hlt hlt'

/-- The report is about the sorted documents. -/
lemma buildIndexReport_eq (z : Zstd) (buildTime : ℕ) (pushed : List DocRec) :
    buildIndexReport z buildTime pushed =
      ((DbBuilder.ofFiles ((collectRecords pushed).map DocRec.doc) buildTime).finish z).map
        fun bytes => ((DbBuilder.ofFiles ((collectRecords pushed).map DocRec.doc)
          buildTime).paths.length % 2 ^ 32, bytes) := by
  have hfold : (collectRecords pushed).foldl (fun b r => b.insertWith r.doc.1 r.doc.2)
      (DbBuilder.setBuildTime {} buildTime) =
        DbBuilder.ofFiles ((collectRecords pushed).map DocRec.doc) buildTime := by
    rw [DbBuilder.ofFiles, ← foldl_insertWith_setBuildTime, List.foldl_map]
  rw [buildIndexReport, hfold]
  rfl

/-- Whatever the order in which the threads record what they find, the build without contents
writes one database: its documents are those of the content build, each once, in the order of their
paths, and the report counts them. -/
theorem filename_build {z : Zstd} (hz : z.Lawful) (hone : opts.oneFileSystem = false)
    {buildTime : ℕ} {pushed : List DocRec}
    (hpushed : pushed.Perm (filenameRecs env (buildSkip opts.extraSkip) opts.hidden fs))
    (hlen : pushed.length < 2 ^ 32)
    (hfits : (DbBuilder.ofFiles ((collectRecords pushed).map DocRec.doc) buildTime).Fits z) :
    ∃ docs bytes r, docs.Perm (recDocs (buildRecs env opts fs)) ∧
      docs.Pairwise (fun a b => a.1 < b.1) ∧ DbReader.open bytes = .ok r ∧
      (r.view z).Indexes docs ∧
      ∀ pushed' : List DocRec,
        pushed'.Perm (filenameRecs env (buildSkip opts.extraSkip) opts.hidden fs) →
          buildIndexReport z buildTime pushed' = .ok (docs.length, bytes) := by
  have hrecs := @pairwise_filenameRecs env fs (buildSkip opts.extraSkip) opts.hidden
  obtain ⟨hperm, hsorted⟩ := collectRecords_perm hpushed hrecs
  have hcount : ((collectRecords pushed).map DocRec.doc).length < 2 ^ 32 := by
    rw [List.length_map, hperm.length_eq, ← hpushed.length_eq]
    exact hlen
  obtain ⟨bytes, r, hfinish, hopen, hindexes⟩ := DbBuilder.finish_indexes hz hfits hcount
  refine ⟨_, bytes, r, ?_, List.pairwise_map.mpr hsorted, hopen, hindexes, fun pushed' h' => ?_⟩
  · rw [← filenameRecs_eq hone]
    exact hperm.map _
  · rw [buildIndexReport_eq, collectRecords_congr h' hpushed hrecs, hfinish]
    have hpaths : (DbBuilder.ofFiles ((collectRecords pushed).map DocRec.doc)
        buildTime).paths.length = ((collectRecords pushed).map DocRec.doc).length := by
      rw [(DbBuilder.ofFiles_holds hcount buildTime).paths_eq, List.length_map]
    rw [hpaths, Nat.mod_eq_of_lt hcount]
    rfl

/-- Two files that the threads find before their directory, and one that the settings ignore. -/
theorem filename_build_two :
    let env : WalkEnv := {
      standard := fun _ _ _ => true
      otherDevice := fun _ => false
      ignoreMatcher := some ⟨fun p _ => if p = [utf8 "tmp.log"] then .ignore else .none⟩ }
    let fs : FileSystem := {
      root := utf8 "/proj"
      rootName := utf8 "proj"
      tree := .dir ⟨64, some 1⟩ [(utf8 "key.txt", .leaf (.file ⟨2, some 1⟩ (some [107, 10]))),
        (utf8 "tmp.log", .leaf (.file ⟨0, some 1⟩ (some []))),
        (utf8 "a.bin", .leaf (.file ⟨1, none⟩ (some [0])))]
      names_nodup := by simp [FileTree.NamesNodup, FileTree.EntriesNodup]; decide
      names_valid := by simp [FileTree.AllNames, FileTree.EntriesAllNames]; decide }
    let pushed : List DocRec :=
      [⟨"/proj/key.txt", false, 2, 1⟩, ⟨"/proj/a.bin", false, 1, 0⟩, ⟨"/proj", true, 64, 1⟩]
    ∃ docs bytes r, docs.Perm (recDocs (buildRecs env {} fs)) ∧
      docs.Pairwise (fun a b => a.1 < b.1) ∧ DbReader.open bytes = .ok r ∧
      (r.view .stored).Indexes docs ∧
      buildIndexReport .stored 5 pushed = .ok (3, bytes) ∧
      buildIndexReport .stored 5 pushed.reverse = .ok (3, bytes) := by
  intro env fs pushed
  have hpushed : pushed.reverse.Perm (filenameRecs env (buildSkip []) false fs) := by
    decide +kernel
  have hcollect : collectRecords pushed.reverse = pushed.reverse := by
    rw [collectRecords, List.mergeSort_of_pairwise (by decide)]
    decide
  obtain ⟨docs, bytes, r, hdocs, hsorted, hopen, hindexes, hall⟩ :=
    @filename_build env {} fs .stored Zstd.stored_lawful rfl 5 pushed.reverse hpushed (by decide)
      (by rw [hcollect]; decide +kernel)
  have hthree : docs.length = 3 := by
    rw [hdocs.length_eq]
    decide +kernel
  rw [hthree] at hall
  exact ⟨docs, bytes, r, hdocs, hsorted, hopen, hindexes,
    hall pushed ((List.reverse_perm _).symm.trans hpushed), hall pushed.reverse hpushed⟩

end DeepFinder
