import DeepFinder.Core.DbRoundTrip
import DeepFinder.Daemon.LineMode

/-!
# Verbatim occurrences

A content that holds the query byte for byte should be found by it.  The query is lowercased by
Unicode and then folded, contents are folded by ASCII alone, and candidates come from the folded
query even when letter case counts; so the query must survive its own folding (`FoldKeeps`).
`found_verbatim_iff` says that this is all it takes.

`FoundVerbatim` ranges over all databases, all selections of them and both modes of a reply, so that
the condition is one on the query alone.  In line mode a path of which a later database has a record
is left out: its lines are dropped for another reason, which `Daemon/ModeAgreement.lean` is about.
-/

namespace DeepFinder

open ByteString

/-- What folding leaves of the query finds the query's own bytes: as a substring of their folded
form, or, when letter case counts, by its trigrams. -/
def FoldKeeps (q : String) (case : CaseControl) : Prop :=
  if case.isSensitive q then
    3 ≤ (fold (lowerBytes q)).length → trigrams (fold (lowerBytes q)) ⊆ trigrams (fold (utf8 q))
  else fold (lowerBytes q) <:+: fold (utf8 q)

instance (q : String) (case : CaseControl) : Decidable (FoldKeeps q case) :=
  inferInstanceAs (Decidable (if case.isSensitive q then _ else _))

/-- An unlimited request without regex, scope, filters or expression that asks for contents. -/
structure SearchRequest.PlainLiteral (req : SearchRequest) : Prop where
  regex_eq : req.opts.regex = none
  limit_eq : req.limit = none
  scope_eq : req.scope = none
  extensions_eq : req.opts.extensions = []
  types_eq : req.opts.types = []
  excludes_eq : req.opts.excludes = []
  globs_eq : req.opts.globs = []
  maxDepth_eq : req.opts.maxDepth = none
  expr_eq : req.opts.expr = none
  content_eq : req.opts.layers.content = true

/-- The reply reports the path: with a line in line mode, else in the content layer. -/
def ReportsContent (req : SearchRequest) (frames : List ResponseFrame) (path : String) : Prop :=
  if req.opts.lineNumbers || req.opts.context.isSome then
    ∃ hit ∈ frames.flatMap ResponseFrame.lineHits, hit.path = path
  else ∃ hit ∈ frames.flatMap ResponseFrame.batchHits, hit.1 = path ∧ hit.2.2.hasContent = true

/-- Whatever the databases hold, a plain search for the query reports every path with a content
that holds the query byte for byte; in line mode, unless a later database has a record about the
path. -/
def FoundVerbatim (q : String) (case : CaseControl) : Prop :=
  ∀ (env : ConnEnv) (dbs : List Database) (req : SearchRequest), req.PlainLiteral →
    req.query = q → req.opts.case = case → req.Selects dbs →
    ∀ (pre post : List Database) (db : Database) (path : String),
      selectedDbs dbs req = pre ++ db :: post →
      ((req.opts.lineNumbers || req.opts.context.isSome) = true →
        ∀ d ∈ post, hotVersion d.recs path = none) →
      db.anyContent (containsSub · (utf8 q)) (containsSub · (utf8 q)) path = true →
      ∃ frames, handleSearch env (dbs.map Database.entry) req = .ok (.ok frames) ∧
        ReportsContent req frames path

/-- The plan of a literal request. -/
def literalPlan (q : String) (case : CaseControl) : SearchPlan where
  caseSensitive := case.isSensitive q
  re := none
  reContent := none
  needle := q
  fnCase := case.isSensitive q
  folded := fold (lowerBytes q)

lemma searchPlan_literal (env : ConnEnv) {req : SearchRequest} (h : req.opts.regex = none) :
    searchPlan env req = .ok (literalPlan req.query req.opts.case) := by
  unfold searchPlan
  rw [h]
  rfl

section Finds

variable {q : String} {case : CaseControl} {lq : LineQuery}

/-- A query that survives its folding finds the contents that hold it. -/
lemma FoldKeeps.matches_walked (h : FoldKeeps q case) {c : Bytes} (hc : utf8 q <:+: c)
    (texts : List Bytes) :
    contentMatches (fold (lowerBytes q)) (utf8 q) (case.isSensitive q) c = true ∧
      walked texts (fold (lowerBytes q)) (fold c) = true := by
  unfold FoldKeeps at h
  unfold contentMatches
  cases hcase : case.isSensitive q with
  | true =>
      rw [hcase, if_pos rfl] at h
      exact ⟨containsSub_iff.mpr hc, walked_of_subset fun hlen =>
        List.Subset.trans (h hlen) (trigrams_mono (fold_mono hc))⟩
  | false =>
      rw [hcase, if_neg Bool.false_ne_true] at h
      have hinfix := h.trans (fold_mono hc)
      exact ⟨containsSub_iff.mpr hinfix, walked_of_subset fun _ => trigrams_mono hinfix⟩

/-- It has a match offset in them, too. -/
lemma FoldKeeps.offsets_ne_nil (h : FoldKeeps q case) (hq : q ≠ "") {c : Bytes}
    (hc : utf8 q <:+: c) :
    literalMatchOffsets c (if case.isSensitive q then utf8 q else fold (lowerBytes q))
      (case.isSensitive q) ≠ [] := by
  have hutf8 : ∀ {s : String}, s ≠ "" → utf8 s ≠ [] :=
    fun hs hnil => hs (utf8_injective hnil)
  cases hcase : case.isSensitive q with
  | true =>
      rw [if_pos rfl]
      exact (literalMatchOffsets_ne_nil (hutf8 hq)).mpr hc
  | false =>
      rw [if_neg Bool.false_ne_true]
      unfold FoldKeeps at h
      rw [hcase, if_neg Bool.false_ne_true] at h
      refine (literalMatchOffsets_ne_nil fun hnil => ?_).mpr (h.trans (fold_mono hc))
      exact hutf8 (toLowercase_ne_empty hq) (List.map_eq_nil_iff.mp hnil)

/-- The content search of a literal plan. -/
lemma FoldKeeps.findsContent (h : FoldKeeps q case) (hre : lq.re = none)
    (hfolded : lq.folded = fold (lowerBytes q)) (hneedle : lq.needle = utf8 q)
    (hcase : lq.caseSensitive = case.isSensitive q) (hscope : lq.scope = none) {db : Database}
    {path : String}
    (hc : db.anyContent (containsSub · (utf8 q)) (containsSub · (utf8 q)) path = true) :
    db.findsContent lq path = true ∧ (q ≠ "" → db.findsLine lq path = true) := by
  have hoffsets : ∀ c, utf8 q <:+: c → q ≠ "" → (!(lq.offsets c).isEmpty) = true := by
    intro c hc hq
    have hne := h.offsets_ne_nil hq hc
    rw [LineQuery.offsets, hre, hfolded, hneedle, hcase]
    simpa using hne
  have hfile : ∀ (files : List ShardFile) (c : Bytes), utf8 q <:+: c →
      lq.findsFile files c = true := by
    intro files c hc
    obtain ⟨hmatch, hwalked⟩ := h.matches_walked hc (files.map fun f => fold f.content)
    rw [LineQuery.findsFile, LineQuery.prefilter, LineQuery.verifies, hre, hfolded, hneedle, hcase]
    dsimp only
    rw [hmatch, hwalked]
    rfl
  unfold Database.anyContent at hc
  unfold Database.findsContent Database.findsLine
  rw [hscope]
  revert hc
  rcases hotVersion db.recs path with _ | _ | v
  · intro hc
    obtain ⟨files, hfiles, hc⟩ := List.any_eq_true.mp hc
    obtain ⟨f, hf, hc⟩ := List.any_eq_true.mp hc
    rw [Bool.and_eq_true] at hc
    have hinfix := containsSub_iff.mp hc.2
    refine ⟨List.any_eq_true.mpr ⟨files, hfiles, List.any_eq_true.mpr ⟨f, hf, ?_⟩⟩, fun hq =>
      List.any_eq_true.mpr ⟨files, hfiles, List.any_eq_true.mpr ⟨f, hf, ?_⟩⟩⟩
    · rw [hc.1, hfile files _ hinfix]
      rfl
    · rw [hc.1, hfile files _ hinfix, hoffsets _ hinfix hq]
      rfl
  · intro hc
    exact absurd hc Bool.false_ne_true
  · dsimp only
    cases hv : v.content with
    | none =>
        intro hc
        exact absurd hc Bool.false_ne_true
    | some c =>
        intro hc
        have hinfix := containsSub_iff.mp hc
        refine ⟨?_, fun hq => hoffsets c hinfix hq⟩
        obtain ⟨hmatch, hwalked⟩ := h.matches_walked hinfix db.hotTexts
        dsimp only
        rw [LineQuery.overlayFinds, hre, hfolded, hneedle, hcase]
        dsimp only
        rw [hmatch, hwalked]
        rfl

end Finds

/-- A path with an unshadowed line is still there when all databases have been searched. -/
lemma hasLine_of_unshadowed {lq : LineQuery} {pre post : List Database} {db : Database}
    {path : String} (hpost : ∀ d ∈ post, hotVersion d.recs path = none)
    (h : db.findsLine lq path = true) : hasLine lq path (pre ++ db :: post) = true := by
  induction pre with
  | nil =>
      rw [List.nil_append, hasLine, h, Bool.or_eq_true, Bool.and_eq_true, List.all_eq_true]
      exact Or.inl ⟨rfl, fun d hd => decide_eq_true (hpost d hd)⟩
  | cons d pre ih =>
      rw [List.cons_append, hasLine, ih, Bool.or_true]

/-- A query that survives its folding is found verbatim. -/
theorem FoldKeeps.foundVerbatim {q : String} {case : CaseControl} (h : FoldKeeps q case)
    (hq : q ≠ "") : FoundVerbatim q case := by
  rintro env dbs req hplain rfl rfl hsel pre post db path hselected hpost hcontent
  have hplan := searchPlan_literal env hplain.regex_eq
  have hmem : db ∈ selectedDbs dbs req := by
    rw [hselected]
    exact List.mem_append_right _ (List.mem_cons_self ..)
  -- In line mode the line that the query stands on is held by its database, and no later one drops
  -- it; in path mode the path is merged with the content flag, and nothing of the request filters
  -- it.
  unfold ReportsContent
  split
  · rename_i hmode
    obtain ⟨-, hline⟩ := @FoldKeeps.findsContent req.query req.opts.case
      (lineQuery req (literalPlan req.query req.opts.case)) h rfl rfl rfl rfl hplain.scope_eq db path
      hcontent
    obtain ⟨lines, hlines, hat⟩ := @mem_searchLines
      (lineQuery req (literalPlan req.query req.opts.case)) hplain.limit_eq (selectedDbs dbs req) []
    refine ⟨lineFrames lines, ?_, ?_⟩
    · rw [handleSearch_of_selects hplan hsel, if_pos hmode, hlines]
      rfl
    · rw [lineHits_lineFrames]
      refine (hat path).mpr (Or.inr ?_)
      rw [hselected]
      exact hasLine_of_unshadowed (hpost hmode) (hline hq)
  · rename_i hmode
    obtain ⟨merged, hits, hhits, -, hhit, -, hct⟩ := handleSearch_paths env hplan hsel
      hplain.limit_eq (Bool.eq_false_of_not_eq_true hmode)
    refine ⟨pathFrames hits, hhits, ?_⟩
    rw [batchHits_pathFrames]
    have hfound := (@FoldKeeps.findsContent req.query req.opts.case
      (queryCtx req (literalPlan req.query req.opts.case)).contentSearch h rfl rfl rfl rfl
      hplain.scope_eq db path hcontent).1
    have hreport : reports MatchKind.hasContent merged path = true := by
      rw [hct]
      refine List.any_eq_true.mpr ⟨db, hmem, ?_⟩
      rw [hfound, Bool.and_true]
      exact hplain.content_eq
    unfold reports at hreport
    cases hlook : merged.lookup path with
    | none =>
        rw [hlook] at hreport
        cases hreport
    | some e =>
        rw [hlook] at hreport
        refine ⟨(path, e), (hhit _).mpr ⟨hlook, ?_⟩, rfl, hreport⟩
        have hpasses : passes path req.opts = true := by
          rw [passes, hplain.extensions_eq, hplain.types_eq, hplain.excludes_eq, hplain.globs_eq,
            hplain.maxDepth_eq]
          rfl
        have hexpr : passesExpr env (bfsExpr req) (path, e) = true := by
          rw [bfsExpr, hplain.expr_eq]
          rfl
        have hregex : passesRegex (literalPlan req.query req.opts.case).re (path, e) = true := by
          unfold passesRegex
          split
          · rename_i hre
            cases hre
          · rfl
        rw [passesAll, hpasses, hexpr, hregex]
        rfl

/-! ## The condition is necessary -/

/-- A database whose overlay holds a file with the query as its content. -/
def Database.ofVerbatim (q : String) {view : FilenameDb} (h : view.Indexes []) : Database :=
  Database.ofFile "f" ⟨false, 0, 0⟩ (utf8 q) h

lemma Database.findsContent_ofVerbatim (q : String) {view : FilenameDb} (h : view.Indexes [])
    (lq : LineQuery) : (Database.ofVerbatim q h).findsContent lq "f" =
      (inScope "f" lq.scope && lq.overlayFinds [fold (utf8 q)] (utf8 q)) := rfl

/-- A query that is found verbatim survives its folding. -/
theorem FoundVerbatim.foldKeeps {q : String} {case : CaseControl} (h : FoundVerbatim q case) :
    FoldKeeps q case := by
  obtain ⟨bytes, r, -, -, hindex⟩ := DbBuilder.empty_indexes
  obtain ⟨req, hreq⟩ : ∃ req : SearchRequest, req = { query := q, opts := { case := case } } :=
    ⟨_, rfl⟩
  have hplain : req.PlainLiteral := by
    subst hreq
    exact ⟨rfl, rfl, rfl, rfl, rfl, rfl, rfl, rfl, rfl, rfl⟩
  have hquery : req.query = q := by rw [hreq]
  have hcase : req.opts.case = case := by rw [hreq]
  have hdb : req.db = none := by rw [hreq]
  have hmode : (req.opts.lineNumbers || req.opts.context.isSome) = false := by rw [hreq]; rfl
  have hselected := selectedDbs_of_none hdb [Database.ofVerbatim q hindex]
  have hself : (Database.ofVerbatim q hindex).anyContent (containsSub · (utf8 q))
      (containsSub · (utf8 q)) "f" = true := containsSub_iff.mpr (List.infix_refl _)
  obtain ⟨env, -⟩ : ∃ env : ConnEnv, env.registry = [] :=
    ⟨ConnEnv.ofRegex (fun _ => .error "") fun _ => .error "", rfl⟩
  obtain ⟨frames, hframes, hreports⟩ := h env [Database.ofVerbatim q hindex] req hplain hquery hcase
    (selects_of_none hdb _) [] [] _ "f" hselected (fun _ d hd => absurd hd List.not_mem_nil) hself
  obtain ⟨merged, hits, hhits, -, hmem, -, hct⟩ := handleSearch_paths env
    (searchPlan_literal env hplain.regex_eq) (selects_of_none hdb [Database.ofVerbatim q hindex])
    hplain.limit_eq hmode
  obtain rfl := Except.ok.inj (Except.ok.inj (hhits.symm.trans hframes))
  rw [ReportsContent, if_neg (by rw [hmode]; exact Bool.false_ne_true), batchHits_pathFrames]
    at hreports
  obtain ⟨hit, hhit, hpath, hkind⟩ := hreports
  -- the only content is found through the overlay
  have hfound : reports MatchKind.hasContent merged "f" = true := by
    rw [reports, ← hpath, ((hmem hit).mp hhit).1]
    exact hkind
  rw [hct, hselected, hquery, hcase] at hfound
  have hfinds : (contentMatches (fold (lowerBytes q)) (utf8 q) (case.isSensitive q) (utf8 q) &&
      walked [fold (utf8 q)] (fold (lowerBytes q)) (fold (utf8 q))) = true := by
    simp only [List.any_cons, List.any_nil, Bool.or_false, Bool.and_eq_true,
      Database.findsContent_ofVerbatim] at hfound
    exact hfound.2.2
  rw [Bool.and_eq_true] at hfinds
  unfold FoldKeeps
  cases hsens : case.isSensitive q with
  | true =>
      rw [if_pos rfl]
      exact subset_of_walked_self hfinds.2
  | false =>
      rw [if_neg Bool.false_ne_true]
      rw [contentMatches, hsens, if_neg Bool.false_ne_true] at hfinds
      exact containsSub_iff.mp hfinds.1

/-! ## The law -/

/-- A nonempty query is found verbatim in every content that holds it exactly when it survives its
own folding.  Contents are folded byte by byte and the query is lowercased as a text first; the two
differ on letters outside of ASCII, whose upper case forms a content keeps. -/
theorem found_verbatim_iff {q : String} {case : CaseControl} (hq : q ≠ "") :
    FoundVerbatim q case ↔ FoldKeeps q case :=
  ⟨FoundVerbatim.foldKeeps, fun h => h.foundVerbatim hq⟩

/-- An ASCII query is found verbatim. -/
theorem found_verbatim_main : FoundVerbatim "Main" .sensitive :=
  (found_verbatim_iff (by decide)).mpr (by decide +kernel)

/-- Smart case finds no ASCII capital in `É`, so the search looks for `é`, which ASCII folding
does not make of the content `É`. -/
theorem accented_capital_not_found : ¬ FoundVerbatim "É" .smart :=
  fun h => absurd h.foldKeeps (by decide +kernel)

end DeepFinder
