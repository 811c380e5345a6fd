import DeepFinder.Content.OverlayVersion
import DeepFinder.Core.Accepts
import DeepFinder.Daemon.Query

/-!
# What the layers of a database find

A database holds documents in its filename index, files in its shards, and recent records in its
overlay (`DbEntry.Holds`).  Each layer has one list of finds, fixed by the query; a limit takes a
prefix of it, and scope, basename mode and the content regex then keep some of these
(`answerOf`).  `DbEntry.Holds.queryEntry_finds` is the specification of `query_entry` that the
later results use.
-/

namespace DeepFinder

open ByteString

/-- The database holds these documents, files and records.  The documents and the files are those of
the index on disk; the records are all that the overlay was made of, so that what it has of a path
is said by the last of them. -/
structure DbEntry.Holds (e : DbEntry) (docs : List (String × LiteMeta))
    (filess : List (List ShardFile)) (recs : List WalRecord) : Prop where
  db_indexes : e.db.Indexes docs
  shards_index : ShardSetIndexes e.shards filess
  overlay_eq : e.overlay = ({} : Overlay).applyRecords recs
  paths_lt : (recs.map WalRecord.path).toFinset.card < 2 ^ 32

lemma DbEntry.Holds.inv {e : DbEntry} {docs : List (String × LiteMeta)}
    {filess : List (List ShardFile)} {recs : List WalRecord} (h : e.Holds docs filess recs) :
    e.overlay.Inv (recs.map WalRecord.path).toFinset ∧
      ∀ p, e.overlay.version p = hotVersion recs p := by
  rw [h.overlay_eq]
  exact Overlay.version_applyRecords (fun r hr => List.mem_toFinset.mpr (List.mem_map_of_mem hr))
    h.paths_lt

/-! ## The content layer -/

/-- What candidate generation asks of a content: in regex mode the atom alone, folded. -/
def LineQuery.prefilter (q : LineQuery) (content : Bytes) : Bool :=
  match q.re with
  | some _ => contentMatches q.folded q.folded false content
  | none => contentMatches q.folded q.needle q.caseSensitive content

/-- What the regex, if there is one, says of a content. -/
def LineQuery.verifies (q : LineQuery) (content : Bytes) : Bool :=
  match q.re with
  | some rx => rx.isMatch content
  | none => true

/-- The files of a shard that candidate generation returns. -/
def LineQuery.foundFiles (q : LineQuery) (files : List ShardFile) : List ShardFile :=
  files.filter fun f =>
    q.prefilter f.content && walked (files.map fun f => fold f.content) q.folded (fold f.content)

/-- The files of a shard that a search reports, in scope and verified. -/
def LineQuery.keptFiles (q : LineQuery) (limit : Option ℕ) (files : List ShardFile) :
    List ShardFile :=
  (takeOpt limit (q.foundFiles files)).filter fun f =>
    q.verifies f.content && inScope f.path q.scope

/-- The content search of a context. -/
def QueryCtx.contentSearch (ctx : QueryCtx) : LineQuery where
  folded := ctx.folded
  needle := utf8 ctx.needle
  caseSensitive := ctx.caseSensitive
  re := ctx.reContent
  scope := ctx.scope
  limit := ctx.limit
  context := none

def QueryCtx.withLimits (ctx : QueryCtx) (effLimit limit : Option ℕ) : QueryCtx :=
  { ctx with effLimit := effLimit, limit := limit }

/-- The docids of a shard that a content query starts from. -/
def LineQuery.docids (q : LineQuery) (v : ShardView) : Res (List ℕ) :=
  match q.re with
  | some rx => contentRegexDocids v q.folded rx q.limit
  | none => candidates v.source q.folded q.needle q.caseSensitive q.limit

lemma flatMap_filterMap {α β γ : Type} (g : α → Option β) (f : β → List γ) (l : List α) :
    (l.filterMap g).flatMap f = l.flatMap fun a => ((g a).map f).getD [] := by
  induction l with
  | nil => rfl
  | cons a l ih =>
      rw [List.filterMap_cons, List.flatMap_cons, ← ih]
      cases g a with
      | none => rfl
      | some b => rw [List.flatMap_cons]; rfl

lemma mem_takeOpt {α : Type} {limit : Option ℕ} {l : List α} {a : α} (h : a ∈ takeOpt limit l) :
    a ∈ l := by
  cases limit with
  | none => exact h
  | some n => exact List.mem_of_mem_take h

section Shard

variable {v : ShardView} {files : List ShardFile} {q : LineQuery}

lemma regexLoop_eq (h : v.Indexes files) (rx : ByteRegex) {ds : List ℕ}
    (hds : ∀ d ∈ ds, d < files.length) :
    regexLoop v rx ds =
      .ok (ds.filter fun d => ((files[d]?).map fun f => rx.isMatch f.content).getD false) := by
  induction ds with
  | nil => rfl
  | cons d ds ih =>
      have hget := List.getElem?_eq_getElem (hds d (List.mem_cons_self ..))
      rw [regexLoop, h.content_eq d _ hget, bind_ok,
        ih fun x hx => hds x (List.mem_cons_of_mem _ hx), bind_ok, List.filter_cons, hget]
      rfl

/-- The candidate documents are the found files. -/
lemma candidateDocs_foundFiles (q : LineQuery) (files : List ShardFile) :
    (candidateDocs (files.map fun f => fold f.content) q.folded fun d =>
        ((files[d]?).map fun f => q.prefilter f.content).getD false).filterMap
      (fun d => files[d]?) = q.foundFiles files := by
  rw [candidateDocs, List.length_map, List.filterMap_filter, LineQuery.foundFiles,
    ← List.filterMap_eq_filter]
  refine Eq.trans ?_ (filterMap_getElem? _ files)
  refine List.filterMap_congr fun d _ => ?_
  rw [List.getElem?_map]
  cases files[d]? with
  | none => simp
  | some f => simp [Option.guard]

/-- A content query starts from the found files, and in regex mode from those that match. -/
lemma LineQuery.docids_eq (h : v.Indexes files) (q : LineQuery) :
    ∃ ds : List ℕ, q.docids v = .ok ds ∧ (∀ d ∈ ds, d < files.length) ∧
      ds.filterMap (fun d => files[d]?) =
        (takeOpt q.limit (q.foundFiles files)).filter fun f => q.verifies f.content := by
  have hlen : (files.map fun f => fold f.content).length = files.length := List.length_map _
  have hnum : v.source.csNumDocs = (files.map fun f => fold f.content).length :=
    h.numDocs_eq.trans hlen.symm
  obtain ⟨all, hall⟩ : ∃ all, all = candidateDocs (files.map fun f => fold f.content) q.folded
      fun d => ((files[d]?).map fun f => q.prefilter f.content).getD false := ⟨_, rfl⟩
  have hbound : ∀ d ∈ all, d < files.length := by
    intro d hd
    rw [← hlen]
    exact lt_of_mem_candidateDocs (hall ▸ hd)
  have hlt : ∀ d ∈ takeOpt q.limit all, d < files.length := fun d hd => hbound d (mem_takeOpt hd)
  have hfound : (takeOpt q.limit all).filterMap (fun d => files[d]?) =
      takeOpt q.limit (q.foundFiles files) := by
    rw [← candidateDocs_foundFiles, ← hall, takeOpt_filterMap_of_isSome]
    intro d hd
    rw [List.getElem?_eq_getElem (hbound d hd)]
    rfl
  -- both modes generate candidates; they check different texts for the pre-filter
  have hcands : ∀ (original : Bytes) (caseSensitive : Bool),
      (∀ content, q.prefilter content = contentMatches q.folded original caseSensitive content) →
      candidates v.source q.folded original caseSensitive q.limit =
        .ok (takeOpt q.limit all) := by
    intro original caseSensitive hpre
    rw [hall]
    refine candidates_eq_docs hnum h.posting_eq (fun d hd => ?_) q.limit
    rw [hlen] at hd
    have hget := List.getElem?_eq_getElem hd
    rw [hget, Option.map_some, Option.getD_some, hpre]
    exact h.verify_eq hget q.folded original caseSensitive
  cases hre : q.re with
  | none =>
      refine ⟨takeOpt q.limit all, ?_, hlt, ?_⟩
      · rw [LineQuery.docids, hre]
        exact hcands q.needle q.caseSensitive fun content => by rw [LineQuery.prefilter, hre]
      · rw [hfound]
        simp [LineQuery.verifies, hre]
  | some rx =>
      refine ⟨(takeOpt q.limit all).filter fun d =>
        ((files[d]?).map fun f => rx.isMatch f.content).getD false, ?_,
        fun d hd => hlt d (List.mem_filter.mp hd).1, ?_⟩
      · have hfolded := hcands q.folded false fun content => by rw [LineQuery.prefilter, hre]
        rw [LineQuery.docids, hre]
        dsimp only
        rw [contentRegexDocids, hfolded, bind_ok, regexLoop_eq h rx hlt]
      · rw [← hfound, List.filterMap_filter, List.filter_filterMap]
        refine List.filterMap_congr fun d hd => ?_
        rw [List.getElem?_eq_getElem (hlt d hd)]
        simp only [Option.map_some, Option.getD_some, LineQuery.verifies, hre, Option.filter_some]

lemma LineQuery.keptFiles_eq {q : LineQuery} {limit : Option ℕ} {kept : List ShardFile}
    (h : kept = (takeOpt limit (q.foundFiles files)).filter fun f => q.verifies f.content) :
    q.keptFiles limit files = kept.filter fun f => inScope f.path q.scope := by
  rw [h, LineQuery.keptFiles, List.filter_filter]
  refine List.filter_congr fun f _ => ?_
  rw [Bool.and_comm]

/-- The hits a query of paths makes of a shard. -/
lemma docHits_docids (h : v.Indexes files) (q : LineQuery) :
    (do let docids ← (q.docids v).unwrapOr []
        docHits v q.scope docids : Res (List Hit)) =
      .ok ((q.keptFiles q.limit files).map fun f => (f.path, f.lite, .content)) := by
  obtain ⟨ds, hds, hlt, hfound⟩ := LineQuery.docids_eq h q
  rw [hds, Res.unwrapOr_ok, bind_ok, docHits_eq h q.scope hlt, LineQuery.keptFiles_eq hfound,
    List.filter_filterMap, List.map_filterMap]
  refine congrArg Except.ok (List.filterMap_congr fun d hd => ?_)
  rw [List.getElem?_eq_getElem (hlt d hd)]
  simp only [Option.bind_some, Option.filter_some]
  split <;> rfl

/-- The line hits a query makes of a shard. -/
lemma docLines_docids (h : v.Indexes files) (q : LineQuery) :
    (do let docids ← (q.docids v).unwrapOr []
        docLines v q docids : Res (List LineHit)) =
      .ok ((q.keptFiles q.limit files).flatMap fun f => q.fileHits f.path f.content) := by
  obtain ⟨ds, hds, hlt, hfound⟩ := LineQuery.docids_eq h q
  rw [hds, Res.unwrapOr_ok, bind_ok, docLines_eq h q hlt, LineQuery.keptFiles_eq hfound,
    List.filter_filterMap, flatMap_filterMap]
  refine congrArg Except.ok (List.flatMap_congr fun d hd => ?_)
  rw [List.getElem?_eq_getElem (hlt d hd), Option.filter_some]
  split
  · rename_i hscope
    rw [Option.map_some, if_pos hscope]
    rfl
  · rename_i hscope
    rw [Option.map_some, if_neg hscope]
    rfl

end Shard

/-- The cold hits of the content layer. -/
lemma contentLayer_eq {ctx : QueryCtx} {shards : List Bytes} {filess : List (List ShardFile)}
    (h : ShardSetIndexes shards filess) (hct : ctx.wantCt = true) :
    contentLayer ctx shards = .ok (filess.flatMap fun files =>
      (ctx.contentSearch.keptFiles ctx.limit files).map fun f => (f.path, f.lite, .content)) := by
  rw [contentLayer, if_pos hct]
  cases hre : ctx.reContent with
  | none =>
      refine forShards_eq h fun r files _ hindex => ?_
      have hre : ctx.contentSearch.re = none := hre
      have hdocs := docHits_docids hindex ctx.contentSearch
      unfold LineQuery.docids at hdocs
      rw [hre] at hdocs
      exact hdocs
  | some re =>
      refine forShards_eq h fun r files _ hindex => ?_
      have hre : ctx.contentSearch.re = some re := hre
      have hdocs := docHits_docids hindex ctx.contentSearch
      unfold LineQuery.docids at hdocs
      rw [hre] at hdocs
      exact hdocs

lemma contentLayer_withLimits {ctx : QueryCtx} {shards : List Bytes}
    {filess : List (List ShardFile)} (h : ShardSetIndexes shards filess) (eff lim : Option ℕ) :
    contentLayer (ctx.withLimits eff lim) shards = .ok (if ctx.wantCt then
      filess.flatMap fun files => (ctx.contentSearch.keptFiles lim files).map fun f =>
        (f.path, f.lite, .content) else []) := by
  by_cases hwant : ctx.wantCt = true
  · rw [if_pos hwant]
    exact contentLayer_eq h hwant
  · rw [if_neg hwant, contentLayer]
    exact if_neg hwant

lemma queryLines_eq {q : LineQuery} {shards : List Bytes} {filess : List (List ShardFile)}
    (h : ShardSetIndexes shards filess) :
    ContentShards.queryLines shards q = .ok (filess.flatMap fun files =>
      (q.keptFiles q.limit files).flatMap fun f => q.fileHits f.path f.content) := by
  refine forShards_eq h fun r files _ hindex => ?_
  have hdocs := docLines_docids hindex q
  unfold LineQuery.docids at hdocs
  exact hdocs

/-! ## The overlay -/

/-- What the overlay asks of a content, among the texts it indexes. -/
def LineQuery.overlayFinds (q : LineQuery) (texts : List Bytes) (content : Bytes) : Bool :=
  match q.re with
  | some rx => rx.isMatch content
  | none =>
      contentMatches q.folded q.needle q.caseSensitive content &&
        walked texts q.folded (fold content)

section Overlay

variable {o : Overlay} {known : Finset String}

/-- What a content query finds in the overlay, before a limit cuts it: every path once, the live
versions whose content is found. -/
lemma Overlay.Inv.contentFinds (h : o.Inv known) (hcard : known.card < 2 ^ 32) (q : LineQuery) :
    ∃ found : List (String × LiteMeta), (found.map Prod.fst).Nodup ∧
      (∀ limit, (match q.re with
        | some re => pure (o.contentRegexHits re.isMatch limit)
        | none => o.contentQuery q.folded q.needle q.caseSensitive limit : Res _) =
          .ok (takeOpt limit found)) ∧
      ∀ x, x ∈ found ↔ ∃ v c, o.version x.1 = some (some v) ∧ v.lite = x.2 ∧
        v.content = some c ∧ q.overlayFinds o.texts c = true := by
  unfold LineQuery.overlayFinds
  cases hre : q.re with
  | some rx =>
      refine ⟨o.scanHits (fun d _ => ((o.content d).map rx.isMatch).getD false) o.paths.zipIdx,
        h.nodup_scanHits _, fun limit => ?_, fun x => ?_⟩
      · dsimp only
        rw [Overlay.contentRegexHits, Overlay.scanDocs_nil]
        rfl
      · rw [Overlay.mem_scanHits]
        constructor
        · rintro ⟨d, hd, hlive, hhit, hlite⟩
          cases hc : o.content d with
          | none =>
              rw [hc] at hhit
              cases hhit
          | some c =>
              obtain ⟨p, v, hp, -, hversion, hmeta, hvc⟩ := h.slot_of_content hc
              rw [List.mem_zipIdx_iff_getElem?] at hd
              obtain rfl := Option.some.inj (hp.symm.trans hd)
              rw [hmeta] at hlite
              rw [hc] at hhit
              exact ⟨v, c, hversion, hlite.symm, hvc, hhit⟩
        · rintro ⟨v, c, hversion, hlite, hvc, hmatch⟩
          obtain ⟨d, hd, hlive, hmeta, hcontent⟩ := h.version_eq_some.mp hversion
          refine ⟨d, List.mem_zipIdx_iff_getElem?.mpr hd, hlive, ?_, by rw [hmeta, ← hlite]; rfl⟩
          rw [Overlay.content, hcontent, hvc]
          exact hmatch
  | none =>
      obtain ⟨found, hnodup, hfound, hmem⟩ := h.contentQuery_eq hcard q.folded q.needle q.caseSensitive
      refine ⟨found, hnodup, fun limit => hfound limit, fun x => ?_⟩
      rw [hmem]
      dsimp only
      simp only [Bool.and_eq_true]

end Overlay

/-! ## The answer of a database -/

/-- What each layer finds before a limit cuts it. -/
structure Finds where
  fn : List (String × LiteMeta)
  ct : List (List ShardFile)
  ovFn : List (String × LiteMeta)
  ovCt : List (String × LiteMeta)

/-- The hits of the filename index and of the shards. -/
def Finds.cold (finds : Finds) (ctx : QueryCtx) : List Hit :=
  (if ctx.wantFn then
    ((takeOpt ctx.effLimit finds.fn).filter fun f => ctx.shows f.1).map fun f =>
      (f.1, f.2, .filename)
  else []) ++
  if ctx.wantCt then
    finds.ct.flatMap fun found => ((takeOpt ctx.limit found).filter fun f =>
      ctx.contentSearch.verifies f.content && inScope f.path ctx.scope).map fun f =>
        (f.path, f.lite, .content)
  else []

def Finds.hot (finds : Finds) (ctx : QueryCtx) : List Hit :=
  (if ctx.wantFn then overlayHits ctx .filename (takeOpt ctx.limit finds.ovFn) else []) ++
  if ctx.wantCt then overlayHits ctx .content (takeOpt ctx.limit finds.ovCt) else []

/-- Cold hits merge, stale ones are dropped, and hot hits override what is left. -/
def answerOf (cap : Option ℕ) (o : Overlay) (cold hot : List Hit) : ResultMap :=
  hot.foldl (overrideIn cap) (dropShadowed o (cold.foldl (mergeIn cap) []))

/-- What the layers of a database find for a query. -/
structure Finds.Of (finds : Finds) (o : Overlay) (docs : List (String × LiteMeta))
    (filess : List (List ShardFile)) (ctx : QueryCtx) : Prop where
  fn_sub : ∀ f ∈ finds.fn, f ∈ docs
  fn_eq : ColdKeeps ctx.fnCase ctx.needle docs →
    finds.fn = docs.filter fun f => coldAccepts ctx.fnCase ctx.needle f.1
  ct_eq : finds.ct = filess.map ctx.contentSearch.foundFiles
  ovFn_eq : finds.ovFn = o.filenameQuery ctx.needle ctx.fnCase (ctx.pathMode = .basename) none
  ovCt_nodup : (finds.ovCt.map Prod.fst).Nodup
  mem_ovCt : ∀ x, x ∈ finds.ovCt ↔ ∃ v c, o.version x.1 = some (some v) ∧ v.lite = x.2 ∧
    v.content = some c ∧ ctx.contentSearch.overlayFinds o.texts c = true

/-- What an overlay query finds is live. -/
lemma Finds.Of.version_hot {finds : Finds} {o : Overlay} {docs : List (String × LiteMeta)}
    {filess : List (List ShardFile)} {ctx ctx' : QueryCtx} {known : Finset String}
    (h : finds.Of o docs filess ctx) (ho : o.Inv known) {hit : Hit} (hhit : hit ∈ finds.hot ctx') :
    ∃ v, o.version hit.1 = some (some v) := by
  rcases List.mem_append.mp hhit with hfn | hct
  · split at hfn
    · obtain ⟨f, hf, rfl⟩ := List.mem_map.mp hfn
      have hmem := mem_takeOpt (List.mem_filter.mp hf).1
      rw [h.ovFn_eq] at hmem
      obtain ⟨⟨v, hv, -⟩, -⟩ := ho.mem_filenameQuery.mp hmem
      exact ⟨v, hv⟩
    · cases hfn
  · split at hct
    · obtain ⟨f, hf, rfl⟩ := List.mem_map.mp hct
      obtain ⟨v, c, hv, -⟩ := (h.mem_ovCt f).mp (mem_takeOpt (List.mem_filter.mp hf).1)
      exact ⟨v, hv⟩
    · cases hct

/-- Dropping what the overlay shadows keeps what it says nothing about. -/
lemma lookup_dropShadowed {o : Overlay} {known : Finset String} (ho : o.Inv known)
    (map : ResultMap) (x : String) :
    (dropShadowed o map).lookup x = if o.version x = none then map.lookup x else none := by
  have hsuppress : (!o.suppresses x) = decide (o.version x = none) := by
    by_cases hx : o.version x = none
    · have hnot : o.suppresses x ≠ true := fun hs => (ho.suppresses_iff x).mp hs hx
      simp [hx, hnot]
    · simp [hx, (ho.suppresses_iff x).mpr hx]
  unfold dropShadowed
  split
  · rw [AssocMap.lookup_filter fun y => !o.suppresses y, hsuppress]
    simp
  · rename_i hnone
    have hx := ho.suppresses_eq_false (by simpa using hnone) x
    rw [hx] at hsuppress
    rw [if_pos (by simpa using hsuppress.symm)]

/-- The content hits of the overlay, given what its query found. -/
lemma overlayContentLayer_eq {ctx : QueryCtx} {o : Overlay} {found : List (String × LiteMeta)}
    (h : (match ctx.reContent with
      | some re => pure (o.contentRegexHits re.isMatch ctx.limit)
      | none => o.contentQuery ctx.folded (utf8 ctx.needle) ctx.caseSensitive ctx.limit : Res _) =
        .ok found) :
    overlayContentLayer ctx o =
      .ok (if ctx.wantCt then overlayHits ctx .content found else []) := by
  unfold overlayContentLayer
  split
  · cases hre : ctx.reContent with
    | some re =>
        rw [hre] at h
        dsimp only at h ⊢
        rw [h]
        rfl
    | none =>
        rw [hre] at h
        dsimp only at h ⊢
        rw [h]
        rfl
  · rfl

/-- The documents that the filename index finds for a query, before a limit cuts them. -/
def FilenameDb.found (db : FilenameDb) (docs : List (String × LiteMeta)) (ctx : QueryCtx) :
    List (String × LiteMeta) :=
  match queryDocids db ctx.needle ctx.fnCase none with
  | .ok ds => ds.filterMap fun d => docs[d]?
  | .error _ => []

/-- The filename layer cuts, filters and merges what the index finds. -/
lemma FilenameDb.Indexes.filenameLayer_eq {db : FilenameDb} {docs : List (String × LiteMeta)}
    (h : db.Indexes docs) (ctx : QueryCtx) :
    (∀ f ∈ db.found docs ctx, f ∈ docs) ∧
      (ColdKeeps ctx.fnCase ctx.needle docs →
        db.found docs ctx = docs.filter fun f => coldAccepts ctx.fnCase ctx.needle f.1) ∧
      ∀ eff lim cap, filenameLayer (ctx.withLimits eff lim) db cap =
        .ok ((if ctx.wantFn then
          ((takeOpt eff (db.found docs ctx)).filter fun f => ctx.shows f.1).map fun f =>
            (f.1, f.2, MatchKind.filename) else []).foldl (mergeIn cap) []) := by
  obtain ⟨ds, -, hlt, hds, hkeeps⟩ := h.queryDocids_take ctx.needle ctx.fnCase
  have hsome : ∀ d ∈ ds, (docs[d]?).isSome = true := by
    intro d hd
    rw [List.getElem?_eq_getElem (hlt d hd)]
    rfl
  have hfound : db.found docs ctx = ds.filterMap fun d => docs[d]? := by
    rw [FilenameDb.found, hds none]
    rfl
  rw [hfound]
  refine ⟨fun f hf => ?_, fun hkeep => ?_, fun eff lim cap => ?_⟩
  · obtain ⟨d, -, hd⟩ := List.mem_filterMap.mp hf
    exact List.mem_of_getElem? hd
  · rw [hkeeps hkeep, docsWhere, List.filterMap_filter, ← List.filterMap_eq_filter]
    refine Eq.trans ?_ (filterMap_getElem? _ docs)
    refine List.filterMap_congr fun d _ => ?_
    cases docs[d]? with
    | none => simp
    | some f => simp [Option.guard]
  · unfold filenameLayer
    have hwant : (ctx.withLimits eff lim).wantFn = ctx.wantFn := rfl
    rw [hwant]
    split
    · have hquery : queryDocids db (ctx.withLimits eff lim).needle (ctx.withLimits eff lim).fnCase
          (ctx.withLimits eff lim).effLimit = .ok (takeOpt eff ds) := hds eff
      rw [hquery, Res.unwrapOr_ok, bind_ok,
        filenameLoop_eq h _ cap (fun d hd => hlt d (mem_takeOpt hd)) allFilename_nil,
        ← takeOpt_filterMap_of_isSome hsome]
      refine congrArg (fun hits : List Hit => Except.ok (hits.foldl (mergeIn cap) [])) ?_
      rw [filenameHits, List.filter_filterMap, List.map_filterMap]
      refine List.filterMap_congr fun d hd => ?_
      rw [List.getElem?_eq_getElem (hlt d (mem_takeOpt hd))]
      have hshows : (ctx.withLimits eff lim).shows = ctx.shows := rfl
      rw [hshows, Option.bind_some, Option.filter_some]
      split <;> rfl
    · rfl

/-- What the layers of an entry find for a query, before a limit cuts it. -/
def DbEntry.finds (e : DbEntry) (docs : List (String × LiteMeta)) (filess : List (List ShardFile))
    (ctx : QueryCtx) : Finds where
  fn := e.db.found docs ctx
  ct := filess.map ctx.contentSearch.foundFiles
  ovFn := e.overlay.filenameQuery ctx.needle ctx.fnCase (ctx.pathMode = .basename) none
  ovCt := match ctx.reContent with
    | some re => e.overlay.contentRegexHits re.isMatch none
    | none =>
        match e.overlay.contentQuery ctx.folded (utf8 ctx.needle) ctx.caseSensitive none with
        | .ok found => found
        | .error _ => []

/-- The specification of `query_entry`: it cuts, filters and merges what the layers find. -/
theorem DbEntry.Holds.queryEntry_finds {e : DbEntry} {docs : List (String × LiteMeta)}
    {filess : List (List ShardFile)} {recs : List WalRecord} (h : e.Holds docs filess recs)
    (ctx : QueryCtx) :
    (e.finds docs filess ctx).Of e.overlay docs filess ctx ∧ ∀ eff lim cap,
      queryEntry (ctx.withLimits eff lim) e cap =
        .ok (answerOf cap e.overlay ((e.finds docs filess ctx).cold (ctx.withLimits eff lim))
          ((e.finds docs filess ctx).hot (ctx.withLimits eff lim))) := by
  obtain ⟨hinv, -⟩ := h.inv
  obtain ⟨hsub, heq, hlayer⟩ := h.db_indexes.filenameLayer_eq ctx
  obtain ⟨found, hnodup, hcontent, hmem⟩ := hinv.contentFinds h.paths_lt ctx.contentSearch
  have hfound : (e.finds docs filess ctx).ovCt = found := by
    have hnone := hcontent none
    unfold DbEntry.finds
    dsimp only
    cases hre : ctx.reContent with
    | some re =>
        have hre : ctx.contentSearch.re = some re := hre
        rw [hre] at hnone
        exact Except.ok.inj hnone
    | none =>
        have hre : ctx.contentSearch.re = none := hre
        rw [hre] at hnone
        have hnone : e.overlay.contentQuery ctx.folded (utf8 ctx.needle) ctx.caseSensitive none =
            .ok found := hnone
        dsimp only
        rw [hnone]
  refine ⟨⟨hsub, heq, rfl, rfl, hfound ▸ hnodup, hfound ▸ hmem⟩, fun eff lim cap => ?_⟩
  rw [queryEntry, hlayer, bind_ok, contentLayer_withLimits h.shards_index, bind_ok,
    @overlayContentLayer_eq (ctx.withLimits eff lim) _ _ (hcontent lim), bind_ok,
    overlayFilenameLayer, Overlay.filenameQuery_eq_takeOpt, answerOf, Finds.cold, Finds.hot,
    List.foldl_append, List.foldl_append, hfound, DbEntry.finds, List.flatMap_map]
  rfl

/-- What `query_entry` computes is fixed by what the layers find. -/
theorem DbEntry.Holds.queryEntry_eq {e : DbEntry} {docs : List (String × LiteMeta)}
    {filess : List (List ShardFile)} {recs : List WalRecord} (h : e.Holds docs filess recs)
    (ctx : QueryCtx) :
    ∃ finds : Finds, finds.Of e.overlay docs filess ctx ∧ ∀ eff lim cap,
      queryEntry (ctx.withLimits eff lim) e cap =
        .ok (answerOf cap e.overlay (finds.cold (ctx.withLimits eff lim))
          (finds.hot (ctx.withLimits eff lim))) :=
  ⟨_, h.queryEntry_finds ctx⟩

end DeepFinder
