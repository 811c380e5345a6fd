import DeepFinder.Daemon.LineMode

/-!
# Line mode against path mode

Line mode and path mode are two loops over the same documents (`Database.Live`): the files of the
shards of which no record says anything, and the contents that the records left in the overlays.
Path mode, restricted to the content layer, shows the documents that the search for candidates
returns and that the filters let through.  Line mode shows those with a match that no overlay of a
later database covers; it has no filters, and it looks at every content of an overlay.

`LineModeSafe` says of the request and the documents when none of this makes a difference.  Each of
its parts is needed wherever it is seen: `Unmasked` is the case that a path stands in one selected
database only and that no document is left out for two reasons at once, and there
`line_mode_agrees` is an equivalence.  Of the regex engine it is assumed that it matches a content
exactly when it finds a match in it.
-/

namespace DeepFinder

open ByteString

/-! ## Documents -/

/-- The regex engine matches a content exactly when it finds a match in it.  Path mode asks the
first and line mode the second; both are methods of one compiled regex, whose documentation says as
much. -/
def ByteRegex.Coherent (rx : ByteRegex) : Prop :=
  ∀ content, rx.isMatch content = true ↔ rx.findIter content ≠ []

/-- A content that a search may look at, the folded texts of the index it stands in, and whether
that index is the overlay. -/
structure LiveDoc where
  path : String
  lite : LiteMeta
  content : Bytes
  texts : List Bytes
  hot : Bool

/-- The documents of a database. -/
inductive Database.Live (db : Database) : LiveDoc → Prop
  | cold {files : List ShardFile} {f : ShardFile} (hfiles : files ∈ db.filess) (hf : f ∈ files)
      (hnone : hotVersion db.recs f.path = none) :
      db.Live ⟨f.path, f.lite, f.content, files.map fun f => fold f.content, false⟩
  | hot {path : String} {v : FileVersion} {content : Bytes}
      (hv : hotVersion db.recs path = some (some v)) (hcontent : v.content = some content) :
      db.Live ⟨path, v.lite, content, db.hotTexts, true⟩

/-- Whether a content holds what the search looks for. -/
def LineQuery.holds (q : LineQuery) (content : Bytes) : Bool :=
  match q.re with
  | some rx => rx.isMatch content
  | none => contentMatches q.folded q.needle q.caseSensitive content

/-- Whether the search for candidates comes to the document: by the rarest trigram of the folded
needle, which is the atom for a regex.  In an overlay a regex is tried on every content. -/
def LineQuery.retrieves (q : LineQuery) (d : LiveDoc) : Bool :=
  match q.re with
  | some _ => d.hot || (contentMatches q.folded q.folded false d.content &&
      walked d.texts q.folded (fold d.content))
  | none => walked d.texts q.folded (fold d.content)

def LineQuery.Blank (q : LineQuery) : Prop := q.re = none ∧ q.needle = []

/-- The document is in scope and has a match. -/
structure LineQuery.Matches (q : LineQuery) (d : LiveDoc) : Prop where
  not_blank : ¬ q.Blank
  in_scope : inScope d.path q.scope = true
  holds : q.holds d.content = true

/-! ## What makes no difference -/

/-- The same request in path mode, restricted to the content layer. -/
def SearchRequest.contentOnly (req : SearchRequest) : SearchRequest :=
  { req with opts := { req.opts with
      lineNumbers := false
      context := none
      layers := { filename := false, content := req.opts.layers.content } } }

/-- Whether path mode lets a path of the content layer through: the layer is asked for, and the
filters and the expression pass. -/
def pathModeAdmits (env : ConnEnv) (req : SearchRequest) (path : String) (lite : LiteMeta) : Bool :=
  req.opts.layers.content && (passes path req.opts && passesExpr env (bfsExpr req)
    (path, lite, .content))

def Uncovered (later : List Database) (path : String) : Prop :=
  ∀ db ∈ later, hotVersion db.recs path = none

/-- Line mode and path mode treat the documents of the selected databases alike. -/
structure LineModeSafe (env : ConnEnv) (req : SearchRequest) (q : LineQuery)
    (dbs : List Database) : Prop where
  /-- a blank search has no lines, so the filters must let no document in scope through -/
  blank : q.Blank → ∀ db ∈ dbs, ∀ d, db.Live d → inScope d.path q.scope = true →
    pathModeAdmits env req d.path d.lite = false
  /-- the search for candidates comes to the contents of an overlay that have a match -/
  candidates : ∀ db later, db :: later <:+ dbs → ∀ d, db.Live d → d.hot = true → q.Matches d →
    Uncovered later d.path → q.retrieves d = true
  /-- the filters, the choice of layers and `--expr` let the documents with a match through -/
  filters : ∀ db ∈ dbs, ∀ d, db.Live d → q.Matches d → q.retrieves d = true →
    pathModeAdmits env req d.path d.lite = true
  /-- the records of later databases are about none of their paths -/
  records : ∀ db later, db :: later <:+ dbs → ∀ d, db.Live d → q.Matches d →
    q.retrieves d = true → Uncovered later d.path

/-- No document hides how another one is treated, and no document is left out for two reasons: each
path has one document in the selected databases, and what the records of a later database cover
passes the filters. -/
structure Unmasked (env : ConnEnv) (req : SearchRequest) (dbs : List Database) : Prop where
  once : ∀ db ∈ dbs, ∀ d d', db.Live d → db.Live d' → d.path = d'.path → d = d'
  apart : dbs.Pairwise fun db later => ∀ d d', db.Live d → later.Live d' → d.path ≠ d'.path
  covered : ∀ db later, db :: later <:+ dbs → ∀ d, db.Live d → ¬ Uncovered later d.path →
    pathModeAdmits env req d.path d.lite = true

/-- The paths with a line in line mode are the paths that path mode returns from the content
layer. -/
def ModesAgree (env : ConnEnv) (entries : List DbEntry) (req : SearchRequest) : Prop :=
  ∃ lines paths, handleSearch env entries req = .ok (.ok lines) ∧
    handleSearch env entries req.contentOnly = .ok (.ok paths) ∧
    ∀ p, (∃ hit ∈ lines.flatMap ResponseFrame.lineHits, hit.path = p) ↔
      ∃ hit ∈ paths.flatMap ResponseFrame.batchHits, hit.1 = p

/-! ## Lines and documents -/

section Documents

variable {q : LineQuery} {db : Database}

lemma LineQuery.findsFile_eq (q : LineQuery) (files : List ShardFile) (f : ShardFile) :
    q.findsFile files f.content = (q.holds f.content && q.retrieves
      ⟨f.path, f.lite, f.content, files.map fun f => fold f.content, false⟩) := by
  rw [findsFile, prefilter, verifies, holds, retrieves]
  cases q.re with
  | none => rw [Bool.and_true]
  | some rx => rw [Bool.false_or, Bool.and_comm]

lemma LineQuery.overlayFinds_eq (q : LineQuery) (path : String) (lite : LiteMeta)
    (content : Bytes) (texts : List Bytes) : q.overlayFinds texts content =
      (q.holds content && q.retrieves ⟨path, lite, content, texts, true⟩) := by
  rw [overlayFinds, holds, retrieves]
  cases q.re with
  | none => rfl
  | some rx => rw [Bool.true_or, Bool.and_true]

/-- Whether line mode shows a line of the document, if it is in scope. -/
def LineQuery.showsLine (q : LineQuery) (d : LiveDoc) : Bool :=
  (d.hot || (q.holds d.content && q.retrieves d)) && !(q.offsets d.content).isEmpty

lemma Database.findsLine_iff {p : String} : db.findsLine q p = true ↔
    ∃ d, db.Live d ∧ d.path = p ∧ inScope p q.scope = true ∧ q.showsLine d = true := by
  rw [findsLine, Bool.and_eq_true]
  constructor
  · rintro ⟨hscope, h⟩
    cases hv : hotVersion db.recs p with
    | none =>
        simp only [hv, List.any_eq_true, Bool.and_eq_true, decide_eq_true_eq] at h
        obtain ⟨files, hfiles, f, hf, rfl, hfinds, hoffs⟩ := h
        rw [q.findsFile_eq] at hfinds
        exact ⟨_, .cold hfiles hf hv, rfl, hscope,
          Bool.and_eq_true_iff.mpr ⟨(Bool.false_or _).trans hfinds, hoffs⟩⟩
    | some v =>
        cases v with
        | none => simp [hv] at h
        | some v =>
            cases hc : v.content with
            | none => simp [hv, hc] at h
            | some content =>
                simp only [hv, hc, Option.map_some, Option.getD_some] at h
                exact ⟨_, .hot hv hc, rfl, hscope, Bool.and_eq_true_iff.mpr ⟨rfl, h⟩⟩
  · rintro ⟨d, hd, rfl, hscope, hline⟩
    refine ⟨hscope, ?_⟩
    obtain ⟨hfinds, hoffs⟩ := Bool.and_eq_true_iff.mp hline
    cases hd with
    | @cold files f hfiles hf hnone =>
        rw [Bool.false_or, ← q.findsFile_eq] at hfinds
        simp only [hnone, List.any_eq_true, Bool.and_eq_true, decide_eq_true_eq]
        exact ⟨files, hfiles, f, hf, rfl, hfinds, hoffs⟩
    | hot hv hc =>
        simp only [hv, hc, Option.map_some, Option.getD_some]
        exact hoffs

/-- A path has a line when a document of it has one that no later database drops. -/
lemma hasLine_iff {p : String} (dbs : List Database) : hasLine q p dbs = true ↔
    ∃ db later, db :: later <:+ dbs ∧ db.findsLine q p = true ∧ Uncovered later p := by
  induction dbs with
  | nil => simp [hasLine]
  | cons e es ih =>
      rw [hasLine, Bool.or_eq_true, ih, Bool.and_eq_true, List.all_eq_true]
      simp only [decide_eq_true_eq]
      constructor
      · rintro (⟨hline, hrest⟩ | ⟨db, later, hsuffix, h⟩)
        · exact ⟨e, es, List.suffix_rfl, hline, hrest⟩
        · exact ⟨db, later, hsuffix.trans (List.suffix_cons e es), h⟩
      · rintro ⟨db, later, hsuffix, hline, hrest⟩
        obtain heq | htail := List.suffix_cons_iff.mp hsuffix
        · obtain ⟨rfl, rfl⟩ := List.cons.inj heq
          exact Or.inl ⟨hline, hrest⟩
        · exact Or.inr ⟨db, later, htail, hline, hrest⟩

/-- The content search reports a path under the metadata of a document that it finds. -/
lemma Database.exists_live_of_contentMeta {p : String} {lite : LiteMeta}
    (h : db.contentMeta q p = some lite) : ∃ d, db.Live d ∧ d.path = p ∧ d.lite = lite ∧
      inScope p q.scope = true ∧ q.holds d.content = true ∧ q.retrieves d = true := by
  unfold contentMeta at h
  cases hv : hotVersion db.recs p with
  | none =>
      rw [hv] at h
      have hmem := AssocMap.mem_of_lookup h
      simp only [coldContents, List.mem_flatMap, List.mem_map, List.mem_filter,
        Bool.and_eq_true] at hmem
      obtain ⟨files, hfiles, f, ⟨hf, hfinds, hscope⟩, heq⟩ := hmem
      obtain ⟨rfl, rfl⟩ := Prod.mk.inj heq
      rw [q.findsFile_eq, Bool.and_eq_true] at hfinds
      exact ⟨_, .cold hfiles hf hv, rfl, rfl, hscope, hfinds.1, hfinds.2⟩
  | some v =>
      cases v with
      | none => rw [hv] at h; cases h
      | some v =>
          rw [hv] at h
          cases hc : v.content with
          | none => simp [hc] at h
          | some content =>
              simp only [hc, Option.map_some, Option.getD_some, Bool.and_eq_true,
                Option.ite_none_right_eq_some, Option.some.injEq] at h
              obtain ⟨⟨hscope, hfinds⟩, rfl⟩ := h
              rw [q.overlayFinds_eq p v.lite, Bool.and_eq_true] at hfinds
              exact ⟨_, .hot hv hc, rfl, rfl, hscope, hfinds.1, hfinds.2⟩

lemma Database.Live.isSome_contentMeta {d : LiveDoc} (hd : db.Live d)
    (hscope : inScope d.path q.scope = true) (hholds : q.holds d.content = true)
    (hretrieves : q.retrieves d = true) : (db.contentMeta q d.path).isSome = true := by
  cases hd with
  | @cold files f hfiles hf hnone =>
      have hfinds : q.findsFile files f.content = true := by
        rw [q.findsFile_eq, hholds, hretrieves]
        rfl
      rw [contentMeta, hnone]
      refine Option.isSome_iff_ne_none.mpr fun hnil => AssocMap.lookup_eq_none.mp hnil
        (List.mem_map.mpr ⟨(f.path, f.lite), ?_, rfl⟩)
      refine List.mem_flatMap.mpr ⟨files, hfiles, List.mem_map.mpr ⟨f, ?_, rfl⟩⟩
      exact List.mem_filter.mpr ⟨hf, by rw [hfinds, hscope]; rfl⟩
  | @hot path v content hv hc =>
      have hfinds : q.overlayFinds db.hotTexts content = true := by
        rw [q.overlayFinds_eq path v.lite, hholds, hretrieves]
        rfl
      simp only [contentMeta, hv, hc, Option.map_some, Option.getD_some, hfinds, hscope,
        Bool.and_self, if_true, Option.isSome_some]

lemma exists_live_of_foundMeta {dbs : List Database} {p : String} {lite : LiteMeta}
    (h : foundMeta q dbs p = some lite) : ∃ db ∈ dbs, ∃ d, db.Live d ∧ d.path = p ∧
      d.lite = lite ∧ inScope p q.scope = true ∧ q.holds d.content = true ∧
      q.retrieves d = true := by
  obtain ⟨db, hdb, hmeta⟩ := List.exists_of_findSome?_eq_some h
  exact ⟨db, hdb, Database.exists_live_of_contentMeta hmeta⟩

lemma exists_foundMeta {dbs : List Database} (hdb : db ∈ dbs) {d : LiveDoc} (hd : db.Live d)
    (hscope : inScope d.path q.scope = true) (hholds : q.holds d.content = true)
    (hretrieves : q.retrieves d = true) : ∃ lite, foundMeta q dbs d.path = some lite :=
  Option.isSome_iff_exists.mp (List.findSome?_isSome_iff.mpr
    ⟨db, hdb, hd.isSome_contentMeta hscope hholds hretrieves⟩)

end Documents

/-! ## The two modes by documents -/

lemma foundMeta_contentOnly (req : SearchRequest) (plan : SearchPlan) (dbs : List Database)
    (path : String) :
    foundMeta (queryCtx req.contentOnly plan).contentSearch dbs path =
      foundMeta (lineQuery req plan) dbs path := by
  have hmeta : ∀ db : Database, db.contentMeta (queryCtx req.contentOnly plan).contentSearch path =
      db.contentMeta (lineQuery req plan) path := fun db => rfl
  rw [foundMeta, foundMeta, funext hmeta]

/-- A query of no layer finds nothing. -/
lemma mergeEntries_no_layers (env : ConnEnv) {ctx : QueryCtx} (hctx : ctx.Unlimited)
    (hfn : ctx.wantFn = false) (hct : ctx.wantCt = false) (dbs : List Database) (i : ℕ)
    (merged : ResultMap) :
    mergeEntries env ctx none i (dbs.map Database.entry) merged = .ok merged := by
  induction dbs generalizing i with
  | nil => rfl
  | cons db dbs ih =>
      obtain ⟨finds, -, hquery⟩ := db.holds.queryEntry_eq ctx
      have hquery := (congrArg (queryEntry · db.entry none) hctx.withLimits_eq).symm.trans
        (hquery none none none)
      have hfn' : (ctx.withLimits none none).wantFn = false := hfn
      have hct' : (ctx.withLimits none none).wantCt = false := hct
      have hempty : dropShadowed db.entry.overlay [] = [] := by
        unfold dropShadowed
        split <;> rfl
      rw [Finds.cold, Finds.hot, hfn', hct', if_neg Bool.false_ne_true, if_neg Bool.false_ne_true,
        if_neg Bool.false_ne_true, if_neg Bool.false_ne_true, answerOf, List.append_nil,
        List.foldl_nil, List.foldl_nil, hempty] at hquery
      rw [List.map_cons, mergeEntries, hquery, bind_ok, (env.order_perm i []).eq_nil,
        List.foldl_nil]
      exact ih (i + 1)

/-- The paths of the content layer alone, in path mode. -/
lemma contentOnly_paths (env : ConnEnv) {req : SearchRequest} {plan : SearchPlan}
    {dbs : List Database} (hplan : searchPlan env req = .ok plan) (hsel : req.Selects dbs)
    (hlimit : req.limit = none) :
    ∃ hits,
      handleSearch env (dbs.map Database.entry) req.contentOnly = .ok (.ok (pathFrames hits)) ∧
      ∀ p, (∃ hit ∈ hits, hit.1 = p) ↔ ∃ lite,
        foundMeta (lineQuery req plan) (selectedDbs dbs req) p = some lite ∧
          pathModeAdmits env req p lite = true := by
  have hplan' : searchPlan env req.contentOnly = .ok plan := hplan
  have hsel' : req.contentOnly.Selects dbs := hsel
  have hlimit' : req.contentOnly.limit = none := hlimit
  have hselected : selectedDbs dbs req.contentOnly = selectedDbs dbs req := rfl
  have hnil : (([] : ResultMap).map Prod.fst).Nodup := List.nodup_nil
  obtain ⟨merged, hmerged, hnodup, hat⟩ : ∃ merged,
      mergeEntries env (queryCtx req.contentOnly plan) none 1
        ((selectedDbs dbs req).map Database.entry) [] = .ok merged ∧ (merged.map Prod.fst).Nodup ∧
      ∀ p, merged.lookup p = if req.opts.layers.content then
        (foundMeta (lineQuery req plan) (selectedDbs dbs req) p).map fun lite =>
          (lite, MatchKind.content) else none := by
    cases hct : req.opts.layers.content with
    | true =>
        obtain ⟨merged, hmerged, hnodup, hat⟩ := mergeEntries_content env
          (unlimited_queryCtx hlimit' plan) rfl hct (selectedDbs dbs req) 1 hnil
          fun _ he => absurd he List.not_mem_nil
        refine ⟨merged, hmerged, hnodup, fun p => ?_⟩
        rw [hat, foundMeta_contentOnly, if_pos rfl]
        rfl
    | false =>
        exact ⟨[], mergeEntries_no_layers env (unlimited_queryCtx hlimit' plan) rfl hct _ 1 [],
          hnil, fun p => rfl⟩
  obtain ⟨hits, hhits, -, hmem⟩ := mem_searchPaths hlimit' hmerged hnodup
  refine ⟨hits, ?_, fun p => ?_⟩
  · rw [handleSearch_of_selects hplan' hsel', hselected, hhits]
    rfl
  · have hadmits : ∀ lite, pathModeAdmits env req p lite = (req.opts.layers.content &&
        passesAll env req.contentOnly plan (p, lite, .content)) := by
      intro lite
      have hregex : passesRegex plan.re (p, lite, .content) = true := by cases plan.re <;> rfl
      rw [pathModeAdmits, passesAll, hregex, Bool.and_true]
      rfl
    constructor
    · rintro ⟨⟨p, lite, kind⟩, hhit, rfl⟩
      obtain ⟨hlook, hpass⟩ := (hmem _).mp hhit
      rw [hat] at hlook
      split at hlook
      · rename_i hct
        obtain ⟨m, hfound, hm⟩ := Option.map_eq_some_iff.mp hlook
        obtain ⟨rfl, rfl⟩ := Prod.mk.inj hm
        exact ⟨m, hfound, by rw [hadmits, hct, hpass]; rfl⟩
      · cases hlook
    · rintro ⟨lite, hfound, hadmit⟩
      rw [hadmits, Bool.and_eq_true] at hadmit
      refine ⟨(p, lite, .content), (hmem _).mpr ⟨?_, hadmit.2⟩, rfl⟩
      rw [hat, if_pos hadmit.1, hfound]
      rfl

/-- Of a search that is not blank the lines are those of the contents that hold what it looks
for. -/
lemma LineQuery.offsets_iff {q : LineQuery} (hfold : q.folded = [] ↔ q.needle = [])
    (hre : ∀ rx, q.re = some rx → rx.Coherent) (content : Bytes) :
    (!(q.offsets content).isEmpty) = true ↔ ¬ q.Blank ∧ q.holds content = true := by
  have hne : (!(q.offsets content).isEmpty) = true ↔ q.offsets content ≠ [] := by
    cases q.offsets content <;> simp
  rw [hne, offsets, holds, Blank]
  cases hrx : q.re with
  | some rx =>
      rw [← hre rx hrx content]
      exact (and_iff_right fun h => Option.some_ne_none rx h.1).symm
  | none =>
      rw [and_iff_right rfl]
      by_cases hneedle : q.needle = []
      · rw [hfold.mpr hneedle, hneedle, ite_self, literalMatchOffsets, if_pos rfl]
        exact iff_of_false (fun h => h rfl) fun h => h.1 rfl
      · rw [and_iff_right hneedle, contentMatches]
        cases q.caseSensitive with
        | true => rw [if_pos rfl, if_pos rfl, containsSub_iff, literalMatchOffsets_ne_nil hneedle,
            if_pos rfl]
        | false => rw [if_neg Bool.false_ne_true, if_neg Bool.false_ne_true, containsSub_iff,
            literalMatchOffsets_ne_nil fun h => hneedle (hfold.mp h), if_neg Bool.false_ne_true]

lemma folded_eq_nil_iff {env : ConnEnv} {req : SearchRequest} {plan : SearchPlan}
    (hplan : searchPlan env req = .ok plan) :
    (lineQuery req plan).folded = [] ↔ (lineQuery req plan).needle = [] := by
  have hfolded : plan.folded = fold (utf8 (toLowercase plan.needle)) := by
    unfold searchPlan at hplan
    dsimp only at hplan
    cases hre : compileRegex env.regexNew (req.opts.case.isSensitive req.query) req.opts.regex with
    | error e => rw [hre] at hplan; cases hplan
    | ok re =>
        rw [hre] at hplan
        cases hct : compileRegex env.bytesRegexNew (req.opts.case.isSensitive req.query)
            req.opts.regex with
        | error e => rw [hct] at hplan; cases hplan
        | ok reContent =>
            rw [hct] at hplan
            obtain rfl := Except.ok.inj hplan
            rfl
  change plan.folded = [] ↔ utf8 plan.needle = []
  rw [hfolded, fold, List.map_eq_nil_iff]
  constructor
  · intro hnil
    by_contra hne
    exact toLowercase_ne_empty (fun h => hne (congrArg utf8 h)) (utf8_injective hnil)
  · intro hnil
    have hempty : plan.needle = "" := utf8_injective hnil
    rw [hempty]
    rfl

/-- What line mode shows, by documents. -/
lemma exists_live_of_hasLine {q : LineQuery} (hfold : q.folded = [] ↔ q.needle = [])
    (hre : ∀ rx, q.re = some rx → rx.Coherent) {dbs : List Database} {p : String} :
    hasLine q p dbs = true ↔ ∃ db later, db :: later <:+ dbs ∧ Uncovered later p ∧
      ∃ d, db.Live d ∧ d.path = p ∧ q.Matches d ∧ (d.hot = true ∨ q.retrieves d = true) := by
  rw [hasLine_iff]
  refine exists_congr fun db => exists_congr fun later => and_congr_right fun _ => ?_
  rw [and_comm]
  refine and_congr_right fun _ => db.findsLine_iff.trans (exists_congr fun d => ?_)
  refine and_congr_right fun _ => and_congr_right fun hp => ?_
  rw [LineQuery.showsLine, Bool.and_eq_true, q.offsets_iff hfold hre, Bool.or_eq_true,
    Bool.and_eq_true]
  constructor
  · rintro ⟨hscope, hfinds, hblank, hholds⟩
    exact ⟨⟨hblank, hp ▸ hscope, hholds⟩, hfinds.imp id And.right⟩
  · rintro ⟨hmatch, hfinds⟩
    exact ⟨hp ▸ hmatch.in_scope, hfinds.imp id fun h => ⟨hmatch.holds, h⟩, hmatch.not_blank,
      hmatch.holds⟩

lemma LineQuery.Blank.finds {q : LineQuery} (h : q.Blank) (hfold : q.folded = [] ↔ q.needle = [])
    (d : LiveDoc) : q.holds d.content = true ∧ q.retrieves d = true := by
  have hnil : q.folded = [] := hfold.mpr h.2
  rw [LineQuery.holds, LineQuery.retrieves, h.1]
  dsimp only
  rw [contentMatches, h.2, hnil]
  refine ⟨?_, walked_of_subset fun hlen => absurd hlen (by decide)⟩
  cases q.caseSensitive <;> exact containsSub_iff.mpr List.nil_infix

/-- Both modes, path by path. -/
lemma modesAgree_iff {env : ConnEnv} {req : SearchRequest} {plan : SearchPlan}
    {dbs : List Database} (hplan : searchPlan env req = .ok plan) (hlimit : req.limit = none)
    (hmode : (req.opts.lineNumbers || req.opts.context.isSome) = true) :
    ModesAgree env (dbs.map Database.entry) req ↔ ∀ p,
      hasLine (lineQuery req plan) p (selectedDbs dbs req) = true ↔
        ∃ lite, foundMeta (lineQuery req plan) (selectedDbs dbs req) p = some lite ∧
          pathModeAdmits env req p lite = true := by
  by_cases hsel : req.Selects dbs
  · obtain ⟨hits, hhits, hat⟩ := contentOnly_paths env hplan hsel hlimit
    obtain ⟨lines, hlines, hline⟩ := @mem_searchLines (lineQuery req plan) hlimit
      (selectedDbs dbs req) []
    have hframes :
        handleSearch env (dbs.map Database.entry) req = .ok (.ok (lineFrames lines)) := by
      rw [handleSearch_of_selects hplan hsel, if_pos hmode, hlines]
      rfl
    have hline : ∀ p, (∃ hit ∈ lines, hit.path = p) ↔
        hasLine (lineQuery req plan) p (selectedDbs dbs req) = true := by
      intro p
      rw [hline]
      simp
    constructor
    · rintro ⟨lframes, pframes, hlframes, hpframes, hagree⟩ p
      obtain rfl := Except.ok.inj (Except.ok.inj (hframes.symm.trans hlframes))
      obtain rfl := Except.ok.inj (Except.ok.inj (hhits.symm.trans hpframes))
      rw [← hline, ← hat, ← lineHits_lineFrames lines, ← batchHits_pathFrames hits]
      exact hagree p
    · intro hagree
      refine ⟨lineFrames lines, pathFrames hits, hframes, hhits, fun p => ?_⟩
      rw [lineHits_lineFrames, batchHits_pathFrames, hline, hat]
      exact hagree p
  · -- an unknown name selects nothing, and both modes answer it by the same error
    obtain ⟨message, hmessage, hnone⟩ := handleSearch_of_not_selects hplan hsel
    have hsel' : ¬ req.contentOnly.Selects dbs := hsel
    obtain ⟨message', hmessage', -⟩ :=
      @handleSearch_of_not_selects env req.contentOnly plan dbs hplan hsel'
    rw [hnone]
    refine iff_of_true ⟨_, _, hmessage, hmessage', fun p => ?_⟩ fun p => ?_
    · simp [ResponseFrame.lineHits, ResponseFrame.batchHits]
    · simp [hasLine, foundMeta]

/-! ## Agreement -/

section Agreement

variable {env : ConnEnv} {req : SearchRequest} {q : LineQuery} {dbs : List Database}
  (hfold : q.folded = [] ↔ q.needle = []) (hre : ∀ rx, q.re = some rx → rx.Coherent)

lemma mem_of_suffix {db : Database} {later dbs : List Database} (h : db :: later <:+ dbs) :
    db ∈ dbs := h.subset List.mem_cons_self

lemma exists_suffix {db : Database} (h : db ∈ dbs) : ∃ later, db :: later <:+ dbs := by
  obtain ⟨pre, later, rfl⟩ := List.append_of_mem h
  exact ⟨later, List.suffix_append pre (db :: later)⟩

include hfold hre

/-- Where nothing makes a difference the modes show the same paths. -/
lemma LineModeSafe.hasLine_iff (h : LineModeSafe env req q dbs) (p : String) :
    hasLine q p dbs = true ↔ ∃ lite, foundMeta q dbs p = some lite ∧
      pathModeAdmits env req p lite = true := by
  rw [exists_live_of_hasLine hfold hre]
  constructor
  · rintro ⟨db, later, hsuffix, hclear, d, hd, rfl, hmatch, hfinds⟩
    have hretrieves : q.retrieves d = true :=
      hfinds.elim (fun hhot => h.candidates db later hsuffix d hd hhot hmatch hclear) id
    obtain ⟨lite, hlite⟩ := exists_foundMeta (mem_of_suffix hsuffix) hd hmatch.in_scope
      hmatch.holds hretrieves
    -- the metadata may be that of another document of the path, which has a match as well
    obtain ⟨db', hdb', d', hd', hpath, rfl, hscope, hholds, hretrieves'⟩ :=
      exists_live_of_foundMeta hlite
    have hmatch' : q.Matches d' := ⟨hmatch.not_blank, hpath ▸ hscope, hholds⟩
    exact ⟨_, hlite, hpath ▸ h.filters db' hdb' d' hd' hmatch' hretrieves'⟩
  · rintro ⟨lite, hlite, hadmit⟩
    obtain ⟨db, hdb, d, hd, rfl, rfl, hscope, hholds, hretrieves⟩ := exists_live_of_foundMeta hlite
    have hblank : ¬ q.Blank := fun hb =>
      Bool.false_ne_true ((h.blank hb db hdb d hd hscope).symm.trans hadmit)
    have hmatch : q.Matches d := ⟨hblank, hscope, hholds⟩
    obtain ⟨later, hsuffix⟩ := exists_suffix hdb
    exact ⟨db, later, hsuffix, h.records db later hsuffix d hd hmatch hretrieves, d, hd, rfl,
      hmatch, Or.inr hretrieves⟩

omit hfold hre in
/-- Two documents of a path are one, in one place. -/
lemma Unmasked.same_place (h : Unmasked env req dbs) {db db' : Database}
    {later later' : List Database} (hsuffix : db :: later <:+ dbs)
    (hsuffix' : db' :: later' <:+ dbs) {d d' : LiveDoc} (hd : db.Live d) (hd' : db'.Live d')
    (hpath : d.path = d'.path) : d = d' ∧ later = later' := by
  have hlater : ∀ {e e' : Database} {es es' : List Database} {c c' : LiveDoc}, e.Live c →
      e'.Live c' → c.path = c'.path → e :: es <:+ dbs → ¬ e' :: es' <:+ es := by
    intro e e' es es' c c' hc hc' hcc hes hes'
    have hpair := List.pairwise_cons.mp (h.apart.sublist hes.sublist)
    exact hpair.1 e' (mem_of_suffix hes') c c' hc hc' hcc
  obtain htail | htail := List.suffix_or_suffix_of_suffix hsuffix hsuffix'
  · obtain heq | htail := List.suffix_cons_iff.mp htail
    · obtain ⟨rfl, rfl⟩ := List.cons.inj heq
      exact ⟨h.once db (mem_of_suffix hsuffix) d d' hd hd' hpath, rfl⟩
    · exact absurd htail (hlater hd' hd hpath.symm hsuffix')
  · obtain heq | htail := List.suffix_cons_iff.mp htail
    · obtain ⟨rfl, rfl⟩ := List.cons.inj heq
      exact ⟨h.once db' (mem_of_suffix hsuffix) d d' hd hd' hpath, rfl⟩
    · exact absurd htail (hlater hd hd' hpath hsuffix)

omit hfold hre in
/-- Where no document hides another one, a document that path mode finds has its own metadata. -/
lemma Unmasked.foundMeta_eq (h : Unmasked env req dbs) {db : Database} (hdb : db ∈ dbs)
    {d : LiveDoc} (hd : db.Live d) {lite : LiteMeta} (hlite : foundMeta q dbs d.path = some lite) :
    lite = d.lite ∧ q.retrieves d = true := by
  obtain ⟨db', hdb', d', hd', hpath, rfl, -, -, hretrieves⟩ := exists_live_of_foundMeta hlite
  obtain ⟨later, hsuffix⟩ := exists_suffix hdb
  obtain ⟨later', hsuffix'⟩ := exists_suffix hdb'
  obtain ⟨rfl, -⟩ := h.same_place hsuffix' hsuffix hd' hd hpath
  exact ⟨rfl, hretrieves⟩

/-- Where no document hides another one, modes that show the same paths treat the documents
alike. -/
lemma Unmasked.lineModeSafe (h : Unmasked env req dbs)
    (hagree : ∀ p, hasLine q p dbs = true ↔ ∃ lite, foundMeta q dbs p = some lite ∧
      pathModeAdmits env req p lite = true) : LineModeSafe env req q dbs := by
  -- an uncovered match has a line, so that path mode finds it and lets it through
  have hshown : ∀ db later, db :: later <:+ dbs → ∀ d, db.Live d → q.Matches d →
      (d.hot = true ∨ q.retrieves d = true) → Uncovered later d.path →
      q.retrieves d = true ∧ pathModeAdmits env req d.path d.lite = true := by
    intro db later hsuffix d hd hmatch hfinds hclear
    obtain ⟨lite, hlite, hadmit⟩ := (hagree d.path).mp ((exists_live_of_hasLine hfold hre).mpr
      ⟨db, later, hsuffix, hclear, d, hd, rfl, hmatch, hfinds⟩)
    obtain ⟨rfl, hretrieves⟩ := h.foundMeta_eq (mem_of_suffix hsuffix) hd hlite
    exact ⟨hretrieves, hadmit⟩
  -- what path mode finds and lets through has a line, and nothing else has this path
  have hline : ∀ db later, db :: later <:+ dbs → ∀ d, db.Live d → inScope d.path q.scope = true →
      q.holds d.content = true → q.retrieves d = true →
      pathModeAdmits env req d.path d.lite = true → q.Matches d ∧ Uncovered later d.path := by
    intro db later hsuffix d hd hscope hholds hretrieves hadmit
    obtain ⟨lite, hlite⟩ := exists_foundMeta (mem_of_suffix hsuffix) hd hscope hholds hretrieves
    obtain ⟨rfl, -⟩ := h.foundMeta_eq (mem_of_suffix hsuffix) hd hlite
    obtain ⟨db', later', hsuffix', hclear, d', hd', hpath, hmatch, -⟩ :=
      (exists_live_of_hasLine hfold hre).mp ((hagree d.path).mpr ⟨_, hlite, hadmit⟩)
    obtain ⟨rfl, rfl⟩ := h.same_place hsuffix' hsuffix hd' hd hpath
    exact ⟨hmatch, hclear⟩
  refine ⟨fun hb db hdb d hd hscope => ?_, fun db later hsuffix d hd hhot hmatch hclear =>
    (hshown db later hsuffix d hd hmatch (Or.inl hhot) hclear).1,
    fun db hdb d hd hmatch hretrieves => ?_, fun db later hsuffix d hd hmatch hretrieves => ?_⟩
  · obtain ⟨hholds, hretrieves⟩ := hb.finds hfold d
    obtain ⟨later, hsuffix⟩ := exists_suffix hdb
    refine Bool.eq_false_iff.mpr fun hadmit => ?_
    exact (hline db later hsuffix d hd hscope hholds hretrieves hadmit).1.not_blank hb
  · obtain ⟨later, hsuffix⟩ := exists_suffix hdb
    by_cases hclear : Uncovered later d.path
    · exact (hshown db later hsuffix d hd hmatch (Or.inr hretrieves) hclear).2
    · exact h.covered db later hsuffix d hd hclear
  · by_contra hclear
    have hadmit := h.covered db later hsuffix d hd hclear
    exact hclear (hline db later hsuffix d hd hmatch.in_scope hmatch.holds hretrieves hadmit).2

end Agreement

/-- Line mode and path mode agree wherever their differences touch no document; and where no
document hides another one, they agree nowhere else.  The regex engine is asked to be coherent,
since path mode calls `is_match` and line mode `find_iter`; with a limit the two count different
things, and `Daemon/Limits.lean` is about that. -/
theorem line_mode_agrees {env : ConnEnv} {req : SearchRequest} {plan : SearchPlan}
    {dbs : List Database} (hplan : searchPlan env req = .ok plan) (hlimit : req.limit = none)
    (hmode : (req.opts.lineNumbers || req.opts.context.isSome) = true)
    (hre : ∀ rx, plan.reContent = some rx → rx.Coherent) :
    (LineModeSafe env req (lineQuery req plan) (selectedDbs dbs req) →
      ModesAgree env (dbs.map Database.entry) req) ∧
    (Unmasked env req (selectedDbs dbs req) → ModesAgree env (dbs.map Database.entry) req →
      LineModeSafe env req (lineQuery req plan) (selectedDbs dbs req)) := by
  have hfold := folded_eq_nil_iff hplan
  constructor
  · intro hsafe
    exact (modesAgree_iff hplan hlimit hmode).mpr fun p => hsafe.hasLine_iff hfold hre p
  · intro hunmasked hagree
    exact hunmasked.lineModeSafe hfold hre ((modesAgree_iff hplan hlimit hmode).mp hagree)

section OfFile

variable {path : String} {lite : LiteMeta} {content : Bytes} {view : FilenameDb}

lemma live_ofFile_self (h : view.Indexes []) :
    (Database.ofFile path lite content h).Live ⟨path, lite, content, [fold content], true⟩ := by
  have hlive := @Database.Live.hot (Database.ofFile path lite content h) path
    ⟨lite, some content⟩ content (by rw [Database.hotVersion_ofFile, if_pos rfl]) rfl
  rwa [Database.hotTexts_ofFile] at hlive

/-- A database of one file has one document. -/
lemma eq_of_live_ofFile (h : view.Indexes []) {d : LiveDoc}
    (hd : (Database.ofFile path lite content h).Live d) :
    d = ⟨path, lite, content, [fold content], true⟩ := by
  cases hd with
  | cold hfiles => exact absurd hfiles List.not_mem_nil
  | hot hv hc =>
      rw [Database.hotVersion_ofFile] at hv
      split at hv
      · rename_i hp
        obtain rfl := Option.some.inj (Option.some.inj hv)
        obtain rfl := Option.some.inj hc
        rw [Database.hotTexts_ofFile, hp]
      · cases hv

end OfFile

/-- The search for `needle` of the requests below. -/
lemma lineQuery_needle (env : ConnEnv) {req : SearchRequest} (hquery : req.query = "needle")
    (hcase : req.opts.case = .smart) (hregex : req.opts.regex = none) (hscope : req.scope = none)
    (hlimit : req.limit = none) (hcontext : req.opts.context = none) :
    ∃ plan, searchPlan env req = .ok plan ∧ lineQuery req plan =
      ⟨utf8 "needle", utf8 "needle", false, none, none, none, none⟩ := by
  have hfold : fold (lowerBytes "needle") = utf8 "needle" := by decide +kernel
  have hsens : CaseControl.smart.isSensitive "needle" = false := by decide +kernel
  unfold searchPlan
  rw [hregex]
  refine ⟨_, rfl, ?_⟩
  simp only [lineQuery, hquery, hcase, hscope, hlimit, hcontext, hfold, hsens]

/-- A database of one file, and a request whose filters let everything through. -/
lemma lineModeSafe_ofFile {env : ConnEnv} {req : SearchRequest} {q : LineQuery} {path : String}
    {lite : LiteMeta} {content : Bytes} {view : FilenameDb} (h : view.Indexes [])
    (hblank : ¬ q.Blank) (hadmits : ∀ p lite, pathModeAdmits env req p lite = true)
    (hretrieves : q.retrieves ⟨path, lite, content, [fold content], true⟩ = true) :
    LineModeSafe env req q [Database.ofFile path lite content h] := by
  -- no database comes after the only one, and it has one document
  have hlater : ∀ {db later d}, db :: later <:+ [Database.ofFile path lite content h] →
      db.Live d → d = ⟨path, lite, content, [fold content], true⟩ ∧ later = [] := by
    intro db later d hsuffix hd
    obtain heq | hnil := List.suffix_cons_iff.mp hsuffix
    · obtain ⟨rfl, rfl⟩ := List.cons.inj heq
      exact ⟨eq_of_live_ofFile h hd, rfl⟩
    · exact absurd (List.suffix_nil.mp hnil) (List.cons_ne_nil _ _)
  refine ⟨fun hb => absurd hb hblank, fun db later hsuffix d hd _ _ _ => ?_,
    fun db hdb d hd _ _ => hadmits _ _, fun db later hsuffix d hd _ _ => ?_⟩
  · obtain ⟨rfl, -⟩ := hlater hsuffix hd
    exact hretrieves
  · obtain ⟨-, rfl⟩ := hlater hsuffix hd
    exact fun e he => absurd he List.not_mem_nil

/-- One file in the overlay, and requests without filters: for a literal, and for a regex. -/
theorem line_mode_agrees_one :
    let rec1 : WalRecord := .upsert "a.txt" ⟨false, 7, 1⟩ (some (utf8 "needle\n"))
    let literal : SearchRequest := { query := "needle", opts := { lineNumbers := true } }
    let regex : SearchRequest :=
      { query := "", opts := { regex := some "needle", lineNumbers := true } }
    let rx : ByteRegex := ⟨fun c => containsSub (fold c) (utf8 "needle"),
      fun c => memmemFindIter (fold c) (utf8 "needle")⟩
    ∃ bytes r, (DbBuilder.ofFiles [] 0).finish .stored = .ok bytes ∧ DbReader.open bytes = .ok r ∧
      (∀ env : ConnEnv, ModesAgree env
        [⟨"default", r.view .stored, [], ({} : Overlay).applyRecords [rec1]⟩] literal) ∧
      ModesAgree (ConnEnv.ofRegex (fun _ => .ok fun path => termMatches false "needle" path)
          fun _ => .ok rx)
        [⟨"default", r.view .stored, [], ({} : Overlay).applyRecords [rec1]⟩] regex := by
  intro rec1 literal regex rx
  obtain ⟨bytes, r, hfinish, hopen, hindex⟩ := DbBuilder.empty_indexes
  refine ⟨bytes, r, hfinish, hopen, fun env => ?_, ?_⟩
  · obtain ⟨plan, hplan, hq⟩ := @lineQuery_needle env literal rfl rfl rfl rfl rfl rfl
    have hplain : plan.reContent = none := congrArg LineQuery.re hq
    refine (@line_mode_agrees env literal plan
      [Database.ofFile "a.txt" ⟨false, 7, 1⟩ (utf8 "needle\n") hindex] hplan rfl rfl fun rx hrx =>
        absurd (hplain.symm.trans hrx) (Option.some_ne_none rx).symm).1 ?_
    rw [selectedDbs_of_none rfl, hq]
    refine lineModeSafe_ofFile hindex (fun hb => absurd hb.2 (by decide)) (fun p lite => ?_)
      (by decide +kernel)
    simp [pathModeAdmits, passes, passesExpr, bfsExpr, literal]
  · generalize henv : ConnEnv.ofRegex (fun _ => .ok fun path => termMatches false "needle" path)
      (fun _ => .ok rx) = env
    obtain ⟨plan, hplan, hrx⟩ : ∃ plan, searchPlan env regex = .ok plan ∧
        plan.reContent = some rx := by
      rw [← henv]
      exact ⟨_, rfl, rfl⟩
    have hcoherent : rx.Coherent := fun c => by
      rw [memmemFindIter_ne_nil, containsSub_iff]
    refine (@line_mode_agrees env regex plan
      [Database.ofFile "a.txt" ⟨false, 7, 1⟩ (utf8 "needle\n") hindex] hplan rfl rfl fun rx' hrx' =>
        Option.some.inj (hrx.symm.trans hrx') ▸ hcoherent).1 ?_
    rw [selectedDbs_of_none rfl]
    have hre : (lineQuery regex plan).re = some rx := hrx
    refine lineModeSafe_ofFile hindex (fun hb => Option.some_ne_none rx (hre.symm.trans hb.1))
      (fun p lite => ?_) ?_
    · simp [pathModeAdmits, passes, passesExpr, bfsExpr, regex]
    · rw [LineQuery.retrieves, hre]
      rfl

/-- Line mode shows a file that the extension filter of the request rejects. -/
theorem filters_ignored_in_line_mode :
    let rec1 : WalRecord := .upsert "a.txt" ⟨false, 7, 1⟩ (some (utf8 "needle\n"))
    let req : SearchRequest :=
      { query := "needle", opts := { extensions := ["rs"], lineNumbers := true } }
    ∃ bytes r, (DbBuilder.ofFiles [] 0).finish .stored = .ok bytes ∧ DbReader.open bytes = .ok r ∧
      ∀ env : ConnEnv, ∃ lines paths,
        handleSearch env [⟨"default", r.view .stored, [], ({} : Overlay).applyRecords [rec1]⟩] req =
          .ok (.ok lines) ∧
        handleSearch env [⟨"default", r.view .stored, [], ({} : Overlay).applyRecords [rec1]⟩]
          req.contentOnly = .ok (.ok paths) ∧
        (∃ hit ∈ lines.flatMap ResponseFrame.lineHits, hit.path = "a.txt") ∧
        ¬ ∃ hit ∈ paths.flatMap ResponseFrame.batchHits, hit.1 = "a.txt" := by
  intro rec1 req
  obtain ⟨bytes, r, hfinish, hopen, hindex⟩ := DbBuilder.empty_indexes
  refine ⟨bytes, r, hfinish, hopen, fun env => ?_⟩
  obtain ⟨plan, hplan, hq⟩ := @lineQuery_needle env req rfl rfl rfl rfl rfl rfl
  have hsel := @selects_of_none req rfl
    [Database.ofFile "a.txt" ⟨false, 7, 1⟩ (utf8 "needle\n") hindex]
  obtain ⟨hits, hhits, hat⟩ := contentOnly_paths env hplan hsel rfl
  obtain ⟨lines, hlines, hline⟩ := @mem_searchLines (lineQuery req plan) rfl
    (selectedDbs [Database.ofFile "a.txt" ⟨false, 7, 1⟩ (utf8 "needle\n") hindex] req) []
  refine ⟨lineFrames lines, pathFrames hits, ?_, hhits, ?_, ?_⟩
  · have hreply := handleSearch_of_selects hplan hsel
    have hmode : (req.opts.lineNumbers || req.opts.context.isSome) = true := rfl
    rw [if_pos hmode, hlines] at hreply
    exact hreply
  · rw [lineHits_lineFrames, hline, selectedDbs_of_none rfl, hq]
    refine Or.inr ((hasLine_iff _).mpr ⟨_, [], List.suffix_rfl, ?_, fun db hdb =>
      absurd hdb List.not_mem_nil⟩)
    exact Database.findsLine_iff.mpr ⟨_, live_ofFile_self hindex, rfl, rfl, by decide +kernel⟩
  · rw [batchHits_pathFrames, hat]
    rintro ⟨lite, -, hadmit⟩
    have hpasses : passes "a.txt" req.opts = false := by decide +kernel
    rw [pathModeAdmits, hpasses, Bool.false_and, Bool.and_false] at hadmit
    cases hadmit

end DeepFinder
