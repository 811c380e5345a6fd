import DeepFinder.Daemon.ContentTransparency
import DeepFinder.Daemon.Server
import DeepFinder.Daemon.Transparency

/-!
# What a query reads of a database

A query takes its snapshot of the published set, reads the filename index through it, then takes
snapshots of the shards and last of the overlay.  `QueryReads` is what it has seen of a database
then, and `QueryReads.Serves` says that both layers have a version of a path.  Its answers follow
(`QueryReads.filename_answer`, `QueryReads.content_answer`).

Other threads may act between the snapshots, so that the three parts need not have belonged together
at any time; what ties them is the handles of the published set that was read first.
-/

namespace DeepFinder

open ByteString

/-! ## Reads -/

/-- What a query reads of a database: the documents of its reader, those of the shards, and the
records of the overlay. -/
structure QueryReads where
  db : String → Option FileVersion
  shards : String → Option FileVersion
  overlay : List WalRecord

/-- The reads of a query that has an entry of the published set, takes its snapshot of the shards in
one state, and its snapshot of the overlay in another. -/
def LiveEntry.reads (e : LiveEntry) (atShards atOverlay : ServerState) : QueryReads where
  db := e.db.docs
  shards := (atShards.shards e.dbPath e.shards).elim (fun _ => none) Cold.docs
  overlay := atOverlay.overlays e.dbPath e.overlay

/-- What the content layer has of a version: its metadata and its content, if that is indexed. -/
def FileVersion.indexed (v : FileVersion) : Option (LiteMeta × Bytes) :=
  v.content.map fun content => (v.lite, content)

/-- The metadata that the filename layer has of a path. -/
def QueryReads.name (reads : QueryReads) (path : String) : Option LiteMeta :=
  match hotVersion reads.overlay path with
  | some v => v.map FileVersion.lite
  | none => (reads.db path).map FileVersion.lite

/-- The content that the content layer has of a path. -/
def QueryReads.content (reads : QueryReads) (path : String) : Option (LiteMeta × Bytes) :=
  match hotVersion reads.overlay path with
  | some v => v.bind FileVersion.indexed
  | none => (reads.shards path).bind FileVersion.indexed

/-- Both layers have this version of the path, or have nothing when there is none.  A version
without a content has nothing to serve in the content layer (`FileVersion.indexed`). -/
def QueryReads.Serves (reads : QueryReads) (path : String) (v : Option FileVersion) : Prop :=
  reads.name path = v.map FileVersion.lite ∧ reads.content path = v.bind FileVersion.indexed

lemma QueryReads.serves_of_hot {reads : QueryReads} {path : String} {v : Option FileVersion}
    (h : hotVersion reads.overlay path = some v) : reads.Serves path v := by
  rw [QueryReads.Serves, QueryReads.name, QueryReads.content, h]
  exact ⟨rfl, rfl⟩

lemma QueryReads.serves_iff_of_cold {reads : QueryReads} {path : String} {v : Option FileVersion}
    (h : hotVersion reads.overlay path = none) :
    reads.Serves path v ↔ (reads.db path).map FileVersion.lite = v.map FileVersion.lite ∧
      (reads.shards path).bind FileVersion.indexed = v.bind FileVersion.indexed := by
  rw [QueryReads.Serves, QueryReads.name, QueryReads.content, h]

/-! ## Answers -/

/-- A filename query that reads an index of the files answers with the metadata that the filename
layer has of the path, where the matchers agree. -/
theorem QueryReads.filename_answer {reads : QueryReads} {files : List (String × LiteMeta)}
    {db : FilenameDb} {q path : String} {caseSensitive : Bool} {mode : PathMode}
    {scope : Option String} {name : String} {shards : List Bytes}
    (hfiles : (files.map Prod.fst).Nodup) (hdb : db.Indexes files)
    (hlookup : files.lookup path = (reads.db path).map FileVersion.lite)
    (hkeep : ColdKeeps caseSensitive q files)
    (hpaths : (reads.overlay.map WalRecord.path).toFinset.card < 2 ^ 32)
    (hagree : MatchersAgree caseSensitive mode q path) :
    ∃ map, queryEntry (filenameCtx q caseSensitive mode scope)
        ⟨name, db, shards, ({} : Overlay).applyRecords reads.overlay⟩ none = .ok map ∧
      map.lookup path = (reads.name path).bind fun lite =>
        if inScope path scope && termMatches caseSensitive q (shownText mode path) then
          some (lite, .filename)
        else none := by
  obtain ⟨hinv, hversion⟩ := Overlay.version_applyRecords
    (fun r hr => List.mem_toFinset.mpr (List.mem_map_of_mem hr)) hpaths
  obtain ⟨map, hmap, hat⟩ := @lookup_queryEntry q caseSensitive mode scope db files _ _ hdb hfiles
    hkeep hinv name shards
  refine ⟨map, hmap, ?_⟩
  rw [hat, hversion, QueryReads.name]
  rcases hotVersion reads.overlay path with _ | _ | v
  · dsimp only
    rw [hlookup, (matchersAgree_iff caseSensitive mode q path).mp hagree]
    cases (reads.db path).map FileVersion.lite with
    | none =>
        rw [Option.map_none, ite_self]
        rfl
    | some lite =>
        rw [Option.map_some, Option.bind_some]
        have hshows : (filenameCtx q caseSensitive mode scope).shows path = (inScope path scope &&
            (decide (mode = .full) || termMatches caseSensitive q (baseName path))) := rfl
        rw [hshows, Bool.and_left_comm]
  · rfl
  · rfl

/-- What a version answers, from its indexed content. -/
lemma contentAnswer_eq {q path : String} {caseSensitive : Bool} {scope : Option String}
    (version : Option FileVersion) :
    contentAnswer q caseSensitive scope path version =
      (version.bind FileVersion.indexed).bind fun found =>
        if inScope path scope && contentMatches (fold (utf8 q)) (utf8 q) caseSensitive found.2 then
          some (found.1, .content)
        else none := by
  cases version with
  | none => rfl
  | some v =>
      rw [contentAnswer, Option.bind_some, Option.bind_some, FileVersion.indexed]
      cases v.content with
      | none => rfl
      | some content => rfl

/-- A content query that reads shards of the files answers with the metadata that the content layer
has of the path, when its content there contains the query. -/
theorem QueryReads.content_answer {reads : QueryReads} {files : List (String × FileVersion)}
    {filess : List (List ShardFile)} {shards : List Bytes} {q path : String} {caseSensitive : Bool}
    {scope : Option String} {name : String} {db : FilenameDb}
    (hfiles : (files.map Prod.fst).Nodup)
    (hpart : filess.flatten.Perm (files.filterMap shardFile)) (hshards : BuiltShards shards filess)
    (hlookup : files.lookup path = reads.shards path)
    (hpaths : (reads.overlay.map WalRecord.path).toFinset.card < 2 ^ 32) :
    ∃ map, queryEntry (contentCtx q caseSensitive scope)
        ⟨name, db, shards, ({} : Overlay).applyRecords reads.overlay⟩ none = .ok map ∧
      map.lookup path = (reads.content path).bind fun found =>
        if inScope path scope && contentMatches (fold (utf8 q)) (utf8 q) caseSensitive found.2 then
          some (found.1, .content)
        else none := by
  obtain ⟨map, hmap, -, hat⟩ := @queryEntry_contentAnswer files filess shards reads.overlay q
    caseSensitive scope name db hfiles hpart hshards hpaths
  refine ⟨map, hmap, ?_⟩
  rw [hat, hlookup, QueryReads.content]
  rcases hotVersion reads.overlay path with _ | v
  · exact contentAnswer_eq _
  · exact contentAnswer_eq _

end DeepFinder
