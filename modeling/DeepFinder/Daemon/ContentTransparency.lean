import DeepFinder.Content.OverlayMap
import DeepFinder.Core.DbRoundTrip
import DeepFinder.Daemon.Answers

/-!
# Contents through the overlay

A content query over shards of files and the records since they were built should report the
current contents that contain the query: `content_query_transparent`.  The overlay numbers its
slots in 32 bits, so this holds for records of fewer than `2 ^ 32` paths, and at that number a short
query finds nothing (`full_overlay_loses_contents`).

The files may be divided among shards in any way, as long as each shard is one that a build has
finished and opened again (`BuiltShards`); files without content are in no shard.  Of the records
nothing is asked but their number.  Path filters and `--expr` come after the layers and are left out
of the request here.
-/

namespace DeepFinder

open ByteString

/-! ## Files in shards -/

/-- The file as a shard holds it, when it has a content. -/
def shardFile (f : String × FileVersion) : Option ShardFile :=
  f.2.content.map fun content => ⟨f.1, f.2.lite, content⟩

lemma shardFile_sublist (files : List (String × FileVersion)) :
    ((files.filterMap shardFile).map ShardFile.path).Sublist (files.map Prod.fst) := by
  induction files with
  | nil => exact List.Sublist.refl _
  | cons f files ih =>
      cases hf : shardFile f with
      | none =>
          rw [List.filterMap_cons_none hf]
          exact ih.cons _
      | some file =>
          obtain ⟨c, -, rfl⟩ := Option.map_eq_some_iff.mp hf
          rw [List.filterMap_cons_some hf]
          exact ih.cons_cons _

/-- The shards were built of these files, each shard below `2 ^ 32` bytes.  Their numbers and their
build times may be any that fit, so that nothing depends on how the files were divided. -/
def BuiltShards (shards : List Bytes) (filess : List (List ShardFile)) : Prop :=
  List.Forall₂ (fun src files => ∃ shardId baseDocid buildTime : ℕ,
    shardId < 2 ^ 32 ∧ baseDocid < 2 ^ 32 ∧ buildTime < 2 ^ 64 ∧
      (ShardBuilder.ofFiles shardId baseDocid files).fileSize < 2 ^ 32 ∧
      (ShardBuilder.ofFiles shardId baseDocid files).finish buildTime = .ok src) shards filess

lemma BuiltShards.indexes {shards : List Bytes} {filess : List (List ShardFile)}
    (h : BuiltShards shards filess) : ShardSetIndexes shards filess := by
  refine h.imp fun src files => ?_
  rintro ⟨shardId, baseDocid, buildTime, hid, hbase, htime, hsize, hfinish⟩
  obtain ⟨bytes, r, hbytes, -, hopen, hindex⟩ :=
    ShardBuilder.ofFiles_indexes hid hbase htime hsize
  obtain rfl := Except.ok.inj (hbytes.symm.trans hfinish)
  exact ⟨r, hopen, hindex⟩

/-! ## The query -/

/-- The context of an unlimited literal query of the content layer alone. -/
def contentCtx (q : String) (caseSensitive : Bool) (scope : Option String) : QueryCtx where
  folded := fold (utf8 q)
  needle := q
  caseSensitive := caseSensitive
  fnCase := caseSensitive
  reContent := none
  scope := scope
  effLimit := none
  limit := none
  wantFn := false
  wantCt := true
  pathMode := .full

/-- What the query reports for a path that now has this version, if any. -/
def contentAnswer (q : String) (caseSensitive : Bool) (scope : Option String) (path : String)
    (version : Option FileVersion) : Option (LiteMeta × MatchKind) :=
  version.bind fun v => v.content.bind fun content =>
    if inScope path scope && contentMatches (fold (utf8 q)) (utf8 q) caseSensitive content then
      some (v.lite, .content)
    else none

lemma queryEntry_contentCtx (q : String) (caseSensitive : Bool) (scope : Option String)
    (name : String) (db db' : FilenameDb) (shards : List Bytes) (o : Overlay) :
    queryEntry (contentCtx q caseSensitive scope) ⟨name, db, shards, o⟩ none =
      queryEntry (contentCtx q caseSensitive scope) ⟨name, db', shards, o⟩ none := by
  have hlayer : ∀ db, filenameLayer (contentCtx q caseSensitive scope) db none = .ok [] :=
    fun _ => rfl
  simp only [queryEntry, hlayer]

section Transparent

variable {q : String} {caseSensitive : Bool} {scope : Option String}

lemma findsFile_contentCtx (files : List ShardFile) (content : Bytes) :
    (contentCtx q caseSensitive scope).contentSearch.findsFile files content =
      contentMatches (fold (utf8 q)) (utf8 q) caseSensitive content := by
  unfold LineQuery.findsFile LineQuery.prefilter LineQuery.verifies
  dsimp only [QueryCtx.contentSearch, contentCtx]
  rw [Bool.and_true]
  cases hmatch : contentMatches (fold (utf8 q)) (utf8 q) caseSensitive content with
  | false => rfl
  | true =>
      rw [walked_of_subset fun _ => trigrams_subset_of_contentMatches hmatch]
      rfl

lemma overlayFinds_contentCtx (texts : List Bytes) (content : Bytes) :
    (contentCtx q caseSensitive scope).contentSearch.overlayFinds texts content =
      contentMatches (fold (utf8 q)) (utf8 q) caseSensitive content := by
  unfold LineQuery.overlayFinds
  dsimp only [QueryCtx.contentSearch, contentCtx]
  cases hmatch : contentMatches (fold (utf8 q)) (utf8 q) caseSensitive content with
  | false => rfl
  | true =>
      rw [walked_of_subset fun _ => trigrams_subset_of_contentMatches hmatch]
      rfl

/-- What shards show of the files in them does not depend on the partition. -/
lemma coldContents_eq (db : Database) :
    db.coldContents (contentCtx q caseSensitive scope).contentSearch =
      (db.filess.flatten.filter fun f =>
        contentMatches (fold (utf8 q)) (utf8 q) caseSensitive f.content && inScope f.path scope).map
          fun f => (f.path, f.lite) := by
  unfold Database.coldContents
  simp only [findsFile_contentCtx]
  induction db.filess with
  | nil => rfl
  | cons files filess ih =>
      rw [List.flatMap_cons, ih, List.flatten_cons, List.filter_append, List.map_append]
      rfl

/-- The shards of a partition of the files answer as the files do. -/
lemma lookup_coldContents {db : Database} {files : List (String × FileVersion)}
    (hfiles : (files.map Prod.fst).Nodup)
    (hpart : db.filess.flatten.Perm (files.filterMap shardFile)) (path : String) :
    ((db.coldContents (contentCtx q caseSensitive scope).contentSearch).lookup path).map
        (fun lite => (lite, .content)) =
      contentAnswer q caseSensitive scope path (files.lookup path) := by
  have hperm := (hpart.map fun f : ShardFile => f.path).symm
  have hsub := hfiles.sublist (shardFile_sublist files)
  have hnodup : ((db.coldContents (contentCtx q caseSensitive scope).contentSearch).map
      Prod.fst).Nodup := by
    rw [coldContents_eq, List.map_map]
    exact (hperm.nodup_iff.mp hsub).sublist (List.filter_sublist.map _)
  have hmem : ∀ lite, (db.coldContents (contentCtx q caseSensitive scope).contentSearch).lookup
      path = some lite ↔ ∃ v c, files.lookup path = some v ∧ v.content = some c ∧ v.lite = lite ∧
        (inScope path scope && contentMatches (fold (utf8 q)) (utf8 q) caseSensitive c) = true := by
    intro lite
    rw [AssocMap.lookup_eq_some hnodup, coldContents_eq, List.mem_map]
    constructor
    · rintro ⟨f, hf, hpath⟩
      obtain ⟨rfl, rfl⟩ := Prod.mk.inj hpath
      obtain ⟨hf, hmatch⟩ := List.mem_filter.mp hf
      obtain ⟨e, he, hshard⟩ := List.mem_filterMap.mp (hpart.mem_iff.mp hf)
      obtain ⟨c, hc, rfl⟩ := Option.map_eq_some_iff.mp hshard
      exact ⟨e.2, c, AssocMap.lookup_of_mem hfiles he, hc, rfl, by rw [Bool.and_comm]; exact hmatch⟩
    · rintro ⟨v, c, hlook, hc, rfl, hmatch⟩
      refine ⟨⟨path, v.lite, c⟩, List.mem_filter.mpr ⟨hpart.mem_iff.mpr ?_, ?_⟩, rfl⟩
      · refine List.mem_filterMap.mpr ⟨(path, v), AssocMap.mem_of_lookup hlook, ?_⟩
        rw [shardFile, hc]
        rfl
      · rw [Bool.and_comm]
        exact hmatch
  refine Option.ext fun e => ?_
  rw [Option.map_eq_some_iff]
  simp only [hmem, contentAnswer, Option.bind_eq_some_iff]
  constructor
  · rintro ⟨lite, ⟨v, c, hlook, hc, rfl, hmatch⟩, rfl⟩
    exact ⟨v, hlook, c, hc, if_pos hmatch⟩
  · rintro ⟨v, hlook, c, hc, hsome⟩
    split at hsome
    · rename_i hmatch
      exact ⟨v.lite, ⟨v, c, hlook, hc, rfl, hmatch⟩, Option.some.inj hsome⟩
    · cases hsome

end Transparent

/-- The answer at a path: what the overlay has of it, or else what the shards have. -/
lemma queryEntry_contentAnswer {files : List (String × FileVersion)}
    {filess : List (List ShardFile)} {shards : List Bytes} {recs : List WalRecord} {q : String}
    {caseSensitive : Bool} {scope : Option String} {name : String} {index : FilenameDb}
    (hfiles : (files.map Prod.fst).Nodup)
    (hpart : filess.flatten.Perm (files.filterMap shardFile)) (hshards : BuiltShards shards filess)
    (hpaths : (recs.map WalRecord.path).toFinset.card < 2 ^ 32) :
    ∃ map, queryEntry (contentCtx q caseSensitive scope)
        ⟨name, index, shards, ({} : Overlay).applyRecords recs⟩ none = .ok map ∧
      (map.map Prod.fst).Nodup ∧
      ∀ path, map.lookup path =
        contentAnswer q caseSensitive scope path ((hotVersion recs path).getD (files.lookup path)) := by
  obtain ⟨bytes, r, -, -, hindex⟩ := DbBuilder.empty_indexes
  rw [queryEntry_contentCtx q caseSensitive scope name index (r.view .stored)]
  obtain ⟨map, hmap, hnodup, hat⟩ := Database.queryEntry_content
    ⟨⟨name, r.view .stored, shards, ({} : Overlay).applyRecords recs⟩, [], filess, recs,
      hindex, hshards.indexes, rfl, hpaths⟩
    (show (contentCtx q caseSensitive scope).Unlimited from ⟨rfl, rfl⟩) rfl rfl
  refine ⟨map, hmap, hnodup, fun path => ?_⟩
  rw [hat, Database.contentMeta]
  dsimp only
  rcases hotVersion recs path with _ | _ | v
  · exact lookup_coldContents hfiles hpart path
  · rfl
  · rw [Option.getD_some]
    dsimp only [contentAnswer]
    cases hc : v.content with
    | none => simp [hc]
    | some c =>
        rw [Option.map_some, Option.getD_some, overlayFinds_contentCtx, Option.bind_some, hc,
          Option.bind_some]
        have hscope : (contentCtx q caseSensitive scope).contentSearch.scope = scope := rfl
        rw [hscope]
        split
        · rfl
        · rfl

/-- Over a partition of files into shards and records about fewer than `2 ^ 32` paths, an unlimited
content query reports every path in scope whose current content contains the query, once, with its
current metadata, and nothing else. -/
theorem content_query_transparent {files : List (String × FileVersion)}
    {filess : List (List ShardFile)} {shards : List Bytes} {recs : List WalRecord} {q : String}
    {caseSensitive : Bool} {scope : Option String} {name : String} {index : FilenameDb}
    (hfiles : (files.map Prod.fst).Nodup)
    (hpart : filess.flatten.Perm (files.filterMap shardFile)) (hshards : BuiltShards shards filess)
    (hpaths : (recs.map WalRecord.path).toFinset.card < 2 ^ 32) :
    ∃ map, queryEntry (contentCtx q caseSensitive scope)
        ⟨name, index, shards, ({} : Overlay).applyRecords recs⟩ none = .ok map ∧
      (map.map Prod.fst).Nodup ∧
      ∀ path, map.lookup path =
        contentAnswer q caseSensitive scope path ((currentFiles files recs).lookup path) := by
  obtain ⟨map, hmap, hnodup, hat⟩ := @queryEntry_contentAnswer files filess shards recs q
    caseSensitive scope name index hfiles hpart hshards hpaths
  refine ⟨map, hmap, hnodup, fun path => ?_⟩
  rw [hat, lookup_currentFiles]
  rcases hotVersion recs path with _ | v
  · rfl
  · rfl

/-- Two files in one shard; one of them changes, a third appears and goes again. -/
theorem content_query_transparent_two :
    ∃ index shard map, queryEntry (contentCtx "b" true none) ⟨"", index, [shard],
        ({} : Overlay).applyRecords
          [.upsert "/t" ⟨false, 1, 5⟩ (some [98]), .upsert "/u" ⟨false, 1, 6⟩ (some [98]),
            .delete "/u"]⟩ none = .ok map ∧
      map.lookup "/t" = some (⟨false, 1, 5⟩, .content) ∧
      map.lookup "/s" = some (⟨false, 2, 4⟩, .content) ∧ map.lookup "/u" = none := by
  obtain ⟨-, r, -, -, -⟩ := DbBuilder.empty_indexes
  obtain ⟨shard, -, hfinish, -, -⟩ :=
    @ShardBuilder.ofFiles_indexes [⟨"/s", ⟨false, 2, 4⟩, [97, 98]⟩, ⟨"/t", ⟨false, 1, 4⟩, [97]⟩]
      0 0 0 (by decide) (by decide) (by decide) (by decide +kernel)
  obtain ⟨map, hmap, -, hat⟩ := @content_query_transparent
    [("/s", ⟨⟨false, 2, 4⟩, some [97, 98]⟩), ("/t", ⟨⟨false, 1, 4⟩, some [97]⟩)]
    [[⟨"/s", ⟨false, 2, 4⟩, [97, 98]⟩, ⟨"/t", ⟨false, 1, 4⟩, [97]⟩]] [shard]
    [.upsert "/t" ⟨false, 1, 5⟩ (some [98]), .upsert "/u" ⟨false, 1, 6⟩ (some [98]), .delete "/u"]
    "b" true none "" (r.view .stored) (by decide) (List.Perm.refl _)
    (List.Forall₂.cons ⟨0, 0, 0, by decide, by decide, by decide, by decide +kernel, hfinish⟩
      List.Forall₂.nil) (by decide)
  refine ⟨r.view .stored, shard, map, hmap, ?_, ?_, ?_⟩
  · rw [hat]
    decide +kernel
  · rw [hat]
    decide +kernel
  · rw [hat]
    decide +kernel

/-! ## Too many paths -/

/-- An overlay whose number of slots wraps to zero answers nothing to a query shorter than a
trigram. -/
lemma queryEntry_newFiles {n : ℕ} (hn : n % 2 ^ 32 = 0) (lite : LiteMeta) (content : Bytes)
    {q : String} (hq : (fold (utf8 q)).length < 3) (caseSensitive : Bool) (scope : Option String)
    (name : String) (index : FilenameDb) :
    queryEntry (contentCtx q caseSensitive scope)
      ⟨name, index, [], ({} : Overlay).applyRecords (newFiles n lite content)⟩ none = .ok [] := by
  have hlayer : overlayContentLayer (contentCtx q caseSensitive scope)
      (({} : Overlay).applyRecords (newFiles n lite content)) = .ok [] := by
    change ((({} : Overlay).applyRecords (newFiles n lite content)).contentQuery
      (fold (utf8 q)) (utf8 q) caseSensitive none >>= fun found =>
        pure (overlayHits (contentCtx q caseSensitive scope) .content found)) = _
    rw [Overlay.contentQuery_newFiles hn lite content hq]
    rfl
  have hcold : dropShadowed (({} : Overlay).applyRecords (newFiles n lite content)) [] = [] := by
    unfold dropShadowed
    split
    · rfl
    · rfl
  unfold queryEntry
  dsimp only
  rw [hlayer]
  change Except.ok (dropShadowed (({} : Overlay).applyRecords (newFiles n lite content)) []) = _
  rw [hcold]

/-- With `2 ^ 32` new files a one-byte query finds nothing, although every one of them contains
it. -/
theorem full_overlay_loses_contents :
    ∃ index, queryEntry (contentCtx "a" true none) ⟨"", index, [], ({} : Overlay).applyRecords
        (newFiles (2 ^ 32) ⟨false, 1, 0⟩ [97])⟩ none = .ok [] ∧
      contentAnswer "a" true none (newPath 7)
          ((currentFiles [] (newFiles (2 ^ 32) ⟨false, 1, 0⟩ [97])).lookup (newPath 7)) =
        some (⟨false, 1, 0⟩, .content) := by
  obtain ⟨-, r, -, -, -⟩ := DbBuilder.empty_indexes
  refine ⟨r.view .stored, queryEntry_newFiles (Nat.mod_self _) _ _ (by decide +kernel) _ _ _ _, ?_⟩
  rw [lookup_currentFiles, hotVersion_newFiles (by norm_num)]
  decide +kernel

end DeepFinder
