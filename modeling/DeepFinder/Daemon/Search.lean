import DeepFinder.Daemon.Query
import DeepFinder.Index.Registry
import DeepFinder.Ipc.Bfs
import DeepFinder.Ipc.Wire
import DeepFinder.Lib.Chunks

/-!
# Serving a connection

`handle_conn` answers one request from one snapshot of the databases: a search in line mode or in
path mode, or the acknowledgement of an index request.  Line mode gathers the hits of the selected
databases in one vector; path mode merges their result maps, filters, sorts and truncates.

The regex engines, modification times, the iteration order of hash maps and the start of a build
are what the connection finds in its environment (`ConnEnv`).
-/

namespace DeepFinder

open ByteString

/-! ## The environment -/

/-- What a connection finds besides its request and its snapshot. -/
structure ConnEnv where
  /-- `regex::Regex::new` -/
  regexNew : String → Except String (String → Bool)
  /-- `regex::bytes::Regex::new` -/
  bytesRegexNew : String → Except String ByteRegex
  fileMtimeSecs : String → Option Int64
  /-- the iteration order of the merged map (number 0) and of the map of each entry -/
  order : ℕ → ResultMap → ResultMap
  order_perm : ∀ i map, (order i map).Perm map
  registry : List DbRecord
  home : String
  defaultDbPath : String
  /-- the content directory beside the default database -/
  defaultContentDir : String
  /-- `spawn_build`: whether the build was accepted -/
  spawnBuild : String → String → String → ContentBuildOptions → Bool

/-- An environment of these regex engines, with nothing registered, no file to compare with, and
maps that iterate as they were filled. -/
def ConnEnv.ofRegex (regexNew : String → Except String (String → Bool))
    (bytesRegexNew : String → Except String ByteRegex) : ConnEnv where
  regexNew := regexNew
  bytesRegexNew := bytesRegexNew
  fileMtimeSecs _ := none
  order _ map := map
  order_perm _ _ := List.Perm.refl _
  registry := []
  home := "/home/user"
  defaultDbPath := "/home/user/.deepfind/index.dfdb"
  defaultContentDir := "/home/user/.deepfind/content"
  spawnBuild _ _ _ _ := true

def plainEnv : ConnEnv := ConnEnv.ofRegex (fun _ => .error "") fun _ => .error ""

/-- `STREAM_CHUNK`. -/
def streamChunk : ℕ := 512

/-! ## The parts of a search -/

/-- What is resolved from a request before any layer is searched. -/
structure SearchPlan where
  caseSensitive : Bool
  re : Option (String → Bool)
  reContent : Option ByteRegex
  needle : String
  fnCase : Bool
  folded : Bytes

/-- The compiled regex of a request, if it has one; a bad regex ends the connection. -/
def compileRegex {α : Type} (new : String → Except String α) (caseSensitive : Bool) :
    Option String → Except String (Option α)
  | none => .ok none
  | some r =>
      match new (if caseSensitive then r else "(?i)" ++ r) with
      | .ok re => .ok (some re)
      | .error e => .error ("bad regex: " ++ e)

/-- The first part of the handling of a search. -/
def searchPlan (env : ConnEnv) (req : SearchRequest) : Except String SearchPlan := do
  let caseSensitive := req.opts.case.isSensitive req.query
  let re ← compileRegex env.regexNew caseSensitive req.opts.regex
  let reContent ← compileRegex env.bytesRegexNew caseSensitive req.opts.regex
  let needle := match req.opts.regex with
    | some r => (longestLiteralAtom r).getD ""
    | none => req.query
  pure {
    caseSensitive := caseSensitive
    re := re
    reContent := reContent
    needle := needle
    fnCase := if re.isSome then false else caseSensitive
    folded := fold (utf8 (toLowercase needle)) }

/-- `DbSet::select`. -/
def selectEntries (entries : List DbEntry) (name : Option String) : List DbEntry :=
  match name with
  | some n => entries.filter fun e => e.name == n
  | none => entries

/-- `DbSet::select_named`. -/
def selectNamed (entries : List DbEntry) (names : List String) : List DbEntry :=
  entries.filter fun e => names.contains e.name

def selectedNames (entries : List DbEntry) (req : SearchRequest) : List String :=
  (selectEntries entries req.db).map DbEntry.name

/-- The message for a `--db` that names no database. -/
def unknownDbMessage (entries : List DbEntry) (name : String) : String :=
  if entries = [] then
    "no registered DBs found; run 'deepfind db add <name> <root>' first"
  else
    "no registered DB named '" ++ name ++ "'; available: " ++
      ", ".intercalate (entries.map DbEntry.name)

/-! ## Line mode -/

/-- The line query of a request. -/
def lineQuery (req : SearchRequest) (plan : SearchPlan) : LineQuery where
  folded := plan.folded
  needle := utf8 plan.needle
  caseSensitive := plan.caseSensitive
  re := plan.reContent
  scope := req.scope
  limit := req.limit
  context := req.opts.context

/-- Line hits on paths that the overlay shadows are stale. -/
def dropShadowedLines (ov : Overlay) (all : List LineHit) : List LineHit :=
  if ov.shadowsAnything then all.filter fun h => !ov.suppresses h.path else all

/-- The loop over the selected entries; `all` gathers the hits of every one of them. -/
def searchLines (q : LineQuery) : List DbEntry → List LineHit → Res (List LineHit)
  | [], all => pure all
  | entry :: entries, all => do
      let cold ← ContentShards.queryLines entry.shards q
      let all := dropShadowedLines entry.overlay (all ++ cold)
      searchLines q entries (all ++ overlayLineHits entry.overlay q)

def lineFrames (hits : List LineHit) : List ResponseFrame :=
  (Chunks.chunks streamChunk hits).map .lines ++ [.done (hits.length % 2 ^ 32)]

/-! ## Path mode -/

/-- The cap on merged results: none while a path filter is active. -/
def mergeCap (req : SearchRequest) : Option ℕ :=
  if req.opts.extensions.isEmpty && req.opts.types.isEmpty && req.opts.excludes.isEmpty &&
      req.opts.globs.isEmpty && req.opts.maxDepth.isNone then req.limit
  else none

/-- The query context of a request. -/
def queryCtx (req : SearchRequest) (plan : SearchPlan) : QueryCtx where
  folded := plan.folded
  needle := plan.needle
  caseSensitive := plan.caseSensitive
  fnCase := plan.fnCase
  reContent := plan.reContent
  scope := req.scope
  effLimit := if req.scope.isSome then none else req.limit
  limit := req.limit
  wantFn := req.opts.layers.filename
  wantCt := req.opts.layers.content
  pathMode := req.opts.pathMode

/-- The loop that merges the result maps of the selected entries; `i` numbers them. -/
def mergeEntries (env : ConnEnv) (ctx : QueryCtx) (cap : Option ℕ) :
    ℕ → List DbEntry → ResultMap → Res ResultMap
  | _, [], merged => pure merged
  | i, entry :: entries, merged => do
      let per ← queryEntry ctx entry cap
      mergeEntries env ctx cap (i + 1) entries ((env.order i per).foldl (mergeIn cap) merged)

/-- The path regex gates the hits of the filename layer alone. -/
def passesRegex (re : Option (String → Bool)) (hit : Hit) : Bool :=
  match hit.2.2, re with
  | .filename, some isMatch => isMatch hit.1
  | _, _ => true

/-- The `--expr` of a request, if it parses. -/
def bfsExpr (req : SearchRequest) : Option Bfs.Expr :=
  req.opts.expr.bind fun s => (Bfs.parse s).toOption

/-- The expression filter, with the modification times resolved beforehand. -/
def passesExpr (env : ConnEnv) (expr : Option Bfs.Expr) (hit : Hit) : Bool :=
  match expr with
  | some e =>
      Bfs.eval (fun f => if f ∈ Bfs.newerFiles e then env.fileMtimeSecs f else none) hit.1 hit.2.1 e
  | none => true

/-- `kind_weight`. -/
def kindWeight : MatchKind → ℕ
  | .both => 0
  | .content => 1
  | .filename => 2

/-- The default order: kind weight, then depth, then path. -/
def defaultLe (a b : Hit) : Bool :=
  if kindWeight a.2.2 ≠ kindWeight b.2.2 then kindWeight a.2.2 < kindWeight b.2.2
  else if depthOf a.1 ≠ depthOf b.1 then depthOf a.1 < depthOf b.1
  else a.1 ≤ b.1

/-- `sort_entries`. -/
def sortEntries (entries : List Hit) (mode : SortMode) : List Hit :=
  match mode with
  | .none => entries
  | .path => entries.mergeSort fun a b => a.1 ≤ b.1
  | .kind => entries.mergeSort fun a b => kindWeight a.2.2 ≤ kindWeight b.2.2
  | .default => entries.mergeSort defaultLe

def filterHits (env : ConnEnv) (req : SearchRequest) (plan : SearchPlan) (merged : ResultMap) :
    List Hit :=
  ((merged.filter fun h => passes h.1 req.opts).filter (passesRegex plan.re)).filter
    (passesExpr env (bfsExpr req))

def searchPaths (env : ConnEnv) (req : SearchRequest) (plan : SearchPlan)
    (entries : List DbEntry) : Res (List Hit) := do
  let merged ← mergeEntries env (queryCtx req plan) (mergeCap req) 1 entries []
  pure (takeOpt req.limit
    (sortEntries (filterHits env req plan (env.order 0 merged)) req.opts.sort))

def batchFrame (chunk : List Hit) : ResponseFrame :=
  .batch (chunk.map fun h => h.1) (chunk.map fun h => h.2.1) (chunk.map fun h => h.2.2)

def pathFrames (entries : List Hit) : List ResponseFrame :=
  (Chunks.chunks streamChunk entries).map batchFrame ++ [.done (entries.length % 2 ^ 32)]

/-! ## The connection -/

/-- What a search sends, unless it fails with an error. -/
def handleSearch (env : ConnEnv) (entries : List DbEntry) (req : SearchRequest) :
    Res (Except String (List ResponseFrame)) :=
  match searchPlan env req with
  | .error e => pure (.error e)
  | .ok plan =>
      let selected := selectedNames entries req
      match req.db, selected with
      | some name, [] => pure (.ok [.error (unknownDbMessage entries name)])
      | _, _ =>
          if req.opts.lineNumbers || req.opts.context.isSome then do
            let hits ← searchLines (lineQuery req plan) (selectNamed entries selected) []
            pure (.ok (lineFrames hits))
          else do
            let hits ← searchPaths env req plan (selectNamed entries selected)
            pure (.ok (pathFrames hits))

/-- `handle_index_request`. -/
def handleIndexRequest (env : ConnEnv) (req : IndexRequest) : Bool × String :=
  let target : Except String (String × String × String) := match req.db with
    | some name =>
        match env.registry.find? fun r => r.name == name with
        | some r => .ok (r.root, r.dbPath, r.contentDir)
        | none => .error ("no registered DB named '" ++ name ++ "'")
    | none => .ok (req.root.getD env.home, env.defaultDbPath, env.defaultContentDir)
  match target with
  | .error message => (false, message)
  | .ok (root, dbPath, contentDir) =>
      let opts : ContentBuildOptions := {
        maxFileSize := if req.maxFileSize = 0 then defaultMaxFileSize else req.maxFileSize
        extraSkip := req.skip
        oneFileSystem := req.oneFileSystem
        hidden := req.hidden }
      let accepted := env.spawnBuild root dbPath contentDir opts
      (accepted, if accepted then "indexing in background; run 'deepfind status' for progress"
        else "already indexing")

/-- The frames that reached the socket, and how the handling ended. -/
structure ConnLog where
  sent : List ResponseFrame
  result : Except String Unit

variable (W : WireCodec)

/-- The sends of a reply, one frame after the other; a frame that does not encode or that the codec
refuses ends the connection. -/
def sendFrames : List ResponseFrame → ConnLog
  | [] => ⟨[], .ok ()⟩
  | frame :: frames =>
      match sendFrame W frame with
      | .ok _ => ⟨frame :: (sendFrames frames).sent, (sendFrames frames).result⟩
      | .error e => ⟨[], .error e⟩

/-- `handle_conn`, from the decoded request on.  A panic while searching is the error of the
blocking task. -/
def handleConn (env : ConnEnv) (entries : List DbEntry) : Request → Res ConnLog
  | .index req =>
      let (accepted, message) := handleIndexRequest env req
      pure (sendFrames W [.indexAck accepted message])
  | .search req =>
      match handleSearch env entries req with
      | .ok (.ok frames) => pure (sendFrames W frames)
      | .ok (.error e) => pure ⟨[], .error e⟩
      | .error .panicked => pure ⟨[], .error "task panicked"⟩
      | .error f => .error f

end DeepFinder
