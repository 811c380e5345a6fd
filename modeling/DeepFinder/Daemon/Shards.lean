import DeepFinder.Content.Lines
import DeepFinder.Content.Overlay
import DeepFinder.Core.Scope
import DeepFinder.Ipc.Proto

/-!
# Content queries over a shard set

`ContentShards` searches every shard of a snapshot in turn; a shard that cannot be opened is
skipped.  Path-batch queries return paths with metadata, line queries the matching lines; the
overlay renders its own line hits the same way.

A shard that can be opened is a view (`ShardView`), whose accessors may still fail; a failure ends
the query, as `?` does in the source.  `ShardSetIndexes` is what later modules know of a set of
shards: that each of them opens and returns the files that it is said to hold.
-/

namespace DeepFinder

open ByteString

/-- The entries of a result map: a path, its metadata and how it matched. -/
abbrev Hit := String × LiteMeta × MatchKind

/-- `LineQuery`. -/
structure LineQuery where
  folded : Bytes
  needle : Bytes
  caseSensitive : Bool
  re : Option ByteRegex
  scope : Option String
  limit : Option ℕ
  context : Option ℕ

/-! ## Every shard of a snapshot -/

/-- The loop over the shards of a snapshot, in which a shard that does not open is skipped. -/
def forShards {α : Type} (search : ShardReader → Res (List α)) : List Bytes → Res (List α)
  | [] => pure []
  | src :: rest => do
      match ← (ShardReader.open src).toOption with
      | none => forShards search rest
      | some r => do
          let hits ← search r
          let more ← forShards search rest
          pure (hits ++ more)

/-- The loop over the docids of a shard that resolves them to in-scope hits. -/
def docHits (v : ShardView) (scope : Option String) : List ℕ → Res (List Hit)
  | [] => pure []
  | d :: ds => do
      match ← (v.path d).toOption with
      | none => docHits v scope ds
      | some path =>
          if !inScope path scope then docHits v scope ds
          else do
            let lite ← (v.lite d).unwrapOr default
            let more ← docHits v scope ds
            pure ((path, lite, .content) :: more)

/-- `ContentShards::query`. -/
def ContentShards.query (shards : List Bytes) (folded needle : Bytes) (caseSensitive : Bool)
    (scope : Option String) (perShardLimit : Option ℕ) : Res (List Hit) :=
  forShards (fun r => do
    let docids ← (candidates r.view.source folded needle caseSensitive perShardLimit).unwrapOr []
    docHits r.view scope docids) shards

/-- `ContentShards::query_regex`. -/
def ContentShards.queryRegex (shards : List Bytes) (atomFolded : Bytes) (re : ByteRegex)
    (scope : Option String) (perShardLimit : Option ℕ) : Res (List Hit) :=
  forShards (fun r => do
    let docids ← (contentRegexDocids r.view atomFolded re perShardLimit).unwrapOr []
    docHits r.view scope docids) shards

/-! ## Line hits -/

def LineQuery.offsets (q : LineQuery) (content : Bytes) : List ℕ :=
  match q.re with
  | some rx => rx.findIter content
  | none =>
      literalMatchOffsets content (if q.caseSensitive then q.needle else q.folded) q.caseSensitive

/-- The hit shown for a match: its line, or the context block around it. -/
def LineQuery.hitAt (q : LineQuery) (path : String) (content : Bytes) (off : ℕ) : LineHit :=
  match q.context with
  | some n =>
      let block := contextBlock content off n
      ⟨path, block.1, block.2⟩
  | none => ⟨path, lineNumber content off, lineText content off⟩

/-- The loop over the offsets of a content: one hit a line number; `seen` are those shown. -/
def LineQuery.hitLoop (q : LineQuery) (path : String) (content : Bytes) :
    List ℕ → List ℕ → List LineHit
  | [], _ => []
  | off :: offs, seen =>
      let hit := q.hitAt path content off
      if hit.lineNo ∈ seen then q.hitLoop path content offs seen
      else hit :: q.hitLoop path content offs (hit.lineNo :: seen)

def LineQuery.fileHits (q : LineQuery) (path : String) (content : Bytes) : List LineHit :=
  q.hitLoop path content (q.offsets content) []

/-- The loop of `query_lines` over the docids of a shard. -/
def docLines (v : ShardView) (q : LineQuery) : List ℕ → Res (List LineHit)
  | [] => pure []
  | d :: ds => do
      match ← (v.path d).toOption with
      | none => docLines v q ds
      | some path =>
          if !inScope path q.scope then docLines v q ds
          else do
            match ← (v.content d).toOption with
            | none => docLines v q ds
            | some content => do
                let more ← docLines v q ds
                pure (q.fileHits path content ++ more)

/-- `ContentShards::query_lines`. -/
def ContentShards.queryLines (shards : List Bytes) (q : LineQuery) : Res (List LineHit) :=
  forShards (fun r => do
    let docids ← (match q.re with
      | some rx => contentRegexDocids r.view q.folded rx q.limit
      | none => candidates r.view.source q.folded q.needle q.caseSensitive q.limit).unwrapOr []
    docLines r.view q docids) shards

/-- The loop of `overlay_line_hits` over the docids; the cap is looked at between documents. -/
def overlayLineLoop (ov : Overlay) (q : LineQuery) : List ℕ → List LineHit → List LineHit
  | [], out => out
  | d :: ds, out =>
      if capReached q.limit out.length then out
      else
        match ov.paths[d]? with
        | none => overlayLineLoop ov q ds out
        | some path =>
            if path ∈ ov.tombstones ∨ inScope path q.scope = false then overlayLineLoop ov q ds out
            else
              match ov.content d with
              | none => overlayLineLoop ov q ds out
              | some content => overlayLineLoop ov q ds (out ++ q.fileHits path content)

/-- `overlay_line_hits`. -/
def overlayLineHits (ov : Overlay) (q : LineQuery) : List LineHit :=
  overlayLineLoop ov q (List.range (ov.len % 2 ^ 32)) []

/-! ## What a shard set answers -/

/-- Every shard of the set opens, and holds exactly its files. -/
def ShardSetIndexes (shards : List Bytes) (filess : List (List ShardFile)) : Prop :=
  List.Forall₂ (fun src files => ∃ r, ShardReader.open src = .ok r ∧ r.view.Indexes files)
    shards filess

section Shards

variable {filess : List (List ShardFile)} {shards : List Bytes}

/-- The loop over the shards gathers what the search of each of them returns. -/
lemma forShards_eq {α : Type} (h : ShardSetIndexes shards filess)
    {search : ShardReader → Res (List α)} {g : List ShardFile → List α}
    (hsearch : ∀ r files, files ∈ filess → r.view.Indexes files → search r = .ok (g files)) :
    forShards search shards = .ok (filess.flatMap g) := by
  induction h with
  | nil => rfl
  | cons hopen _ ih =>
      obtain ⟨r, hr, hindex⟩ := hopen
      rw [forShards, hr, Res.toOption_ok, bind_ok]
      dsimp only
      rw [hsearch r _ (List.mem_cons_self ..) hindex, bind_ok,
        ih fun r files hf => hsearch r files (List.mem_cons_of_mem _ hf), bind_ok]
      rfl

lemma docHits_eq {v : ShardView} {files : List ShardFile} (h : v.Indexes files)
    (scope : Option String) {ds : List ℕ} (hds : ∀ d ∈ ds, d < files.length) :
    docHits v scope ds = .ok (ds.filterMap fun d => (files[d]?).bind fun f =>
      if inScope f.path scope then some (f.path, f.lite, .content) else none) := by
  induction ds with
  | nil => rfl
  | cons d ds ih =>
      obtain ⟨f, hf⟩ : ∃ f, files[d]? = some f :=
        ⟨_, List.getElem?_eq_getElem (hds d (List.mem_cons_self ..))⟩
      rw [docHits, h.path_eq d f hf, Res.toOption_ok, bind_ok,
        ih fun x hx => hds x (List.mem_cons_of_mem _ hx), h.lite_eq d f hf]
      dsimp only
      cases hscope : inScope f.path scope with
      | false => simp [hf, hscope]
      | true =>
          rw [Res.unwrapOr_ok, bind_ok]
          simp [hf, hscope]

lemma docLines_eq {v : ShardView} {files : List ShardFile} (h : v.Indexes files) (q : LineQuery)
    {ds : List ℕ} (hds : ∀ d ∈ ds, d < files.length) :
    docLines v q ds = .ok (ds.flatMap fun d => ((files[d]?).map fun f =>
      if inScope f.path q.scope then q.fileHits f.path f.content else []).getD []) := by
  induction ds with
  | nil => rfl
  | cons d ds ih =>
      obtain ⟨f, hf⟩ : ∃ f, files[d]? = some f :=
        ⟨_, List.getElem?_eq_getElem (hds d (List.mem_cons_self ..))⟩
      rw [docLines, h.path_eq d f hf, Res.toOption_ok, bind_ok,
        ih fun x hx => hds x (List.mem_cons_of_mem _ hx), h.content_eq d f hf]
      dsimp only
      cases hscope : inScope f.path q.scope with
      | false => simp [hf, hscope]
      | true =>
          rw [Res.toOption_ok, bind_ok]
          simp [hf, hscope]

lemma LineQuery.fileHits_ne_nil {q : LineQuery} {path : String} {content : Bytes} :
    q.fileHits path content ≠ [] ↔ q.offsets content ≠ [] := by
  rw [LineQuery.fileHits]
  cases q.offsets content with
  | nil => simp [LineQuery.hitLoop]
  | cons off offs => simp [LineQuery.hitLoop]

lemma LineQuery.path_of_mem_hitLoop {q : LineQuery} {path : String} {content : Bytes}
    {offs seen : List ℕ} {hit : LineHit} (h : hit ∈ q.hitLoop path content offs seen) :
    hit.path = path := by
  have hat : ∀ off, (q.hitAt path content off).path = path := by
    intro off
    unfold LineQuery.hitAt
    split <;> rfl
  induction offs generalizing seen with
  | nil => cases h
  | cons off offs ih =>
      rw [LineQuery.hitLoop] at h
      split at h
      · exact ih h
      · rcases List.mem_cons.mp h with rfl | h
        · exact hat off
        · exact ih h

end Shards

end DeepFinder
