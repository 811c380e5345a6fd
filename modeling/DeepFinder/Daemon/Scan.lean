import DeepFinder.Core.CaseSensitive
import DeepFinder.Daemon.Answers
import DeepFinder.Daemon.ContentTransparency
import DeepFinder.Daemon.Transparency
import DeepFinder.Daemon.Verbatim
import DeepFinder.Index.Pipeline

/-!
# A search is a scan of the files

The daemon answers from four sources: the filename index, the shards, and both halves of the
overlay, which correct the first two.  What it is for can be said without any of them: look at every
file as it is now, at its path and at its content, and report the ones that match
(`QueryCtx.scanFile`).

`search_is_scan` is this refinement for the whole search of many databases, with the metadata and
the layers of every result; `indexed_search` is the same for the index of a tree, from the threads
of the build to the reply.

## What is assumed

The request is a literal one in path mode without a limit (`SearchRequest.LiteralPaths`).  With
regard to case its query has no capital sigma and keeps its trigrams when it is lowercased, since
the index loses others (`Core/Query.lean`).  And on the paths that the records leave in an overlay
the matcher of the overlay has to agree with that of the index (`QueryCtx.AgreesOn`): it looks for
the raw text of a query of several words, so that `key rs` would not find a recorded `/key.rs`
(`Daemon/Transparency.lean`).
-/

namespace DeepFinder

open ByteString

/-! ## The scan -/

def QueryCtx.namesFile (ctx : QueryCtx) (path : String) : Bool :=
  ctx.wantFn && (coldAccepts ctx.fnCase ctx.needle path && ctx.shows path)

def QueryCtx.readsFile (ctx : QueryCtx) (path : String) (v : FileVersion) : Bool :=
  ctx.wantCt && (inScope path ctx.scope &&
    (v.content.map (contentMatches ctx.folded (utf8 ctx.needle) ctx.caseSensitive)).getD false)

def QueryCtx.scanFile (ctx : QueryCtx) (path : String) (v : FileVersion) :
    Option (LiteMeta × MatchKind) :=
  (MatchKind.ofLayers (ctx.namesFile path) (ctx.readsFile path v)).map fun kind => (v.lite, kind)

/-- Of a path in two databases the first tells the metadata, and both tell layers. -/
def mergeFound : Option (LiteMeta × MatchKind) → Option (LiteMeta × MatchKind) →
    Option (LiteMeta × MatchKind)
  | some e, some e' => some (e.1, combineKind e.2 e'.2)
  | some e, none => some e
  | none, e => e

/-- A database that was built of files, with the records about them since. -/
structure BuiltDatabase extends Database where
  files : List (String × FileVersion)
  files_nodup : (files.map Prod.fst).Nodup
  docs_perm : docs.Perm (files.map fun f => (f.1, f.2.lite))
  filess_perm : filess.flatten.Perm (files.filterMap shardFile)

def BuiltDatabase.current (db : BuiltDatabase) : List (String × FileVersion) :=
  currentFiles db.files db.recs

/-- What a look at the files of the databases reports about a path. -/
def scanAll (ctx : QueryCtx) (dbs : List BuiltDatabase) (path : String) :
    Option (LiteMeta × MatchKind) :=
  dbs.foldl (fun found db =>
    mergeFound found ((db.current.lookup path).bind (ctx.scanFile path))) none

/-- A literal query, of which letter case keeps what it is searched by. -/
structure QueryCtx.Literal (ctx : QueryCtx) : Prop where
  re_eq : ctx.reContent = none
  folded_eq : ctx.folded = fold (lowerBytes ctx.needle)
  keeps : ctx.caseSensitive = true → 3 ≤ (fold (lowerBytes ctx.needle)).length →
    trigrams (fold (lowerBytes ctx.needle)) ⊆ trigrams (fold (utf8 ctx.needle))
  no_sigma : ctx.fnCase = true → 'Σ' ∉ ctx.needle.toList

/-- The overlay judges the paths that it has files of as the index would.  Where they differ is what
`Daemon/Transparency.lean` is about; nothing is asked of paths without a record, nor if the filename
layer is off. -/
def QueryCtx.AgreesOn (ctx : QueryCtx) (recs : List WalRecord) : Prop :=
  ctx.wantFn = true → ∀ path v, hotVersion recs path = some (some v) → inScope path ctx.scope = true →
    MatchersAgree ctx.fnCase ctx.pathMode ctx.needle path

variable {ctx : QueryCtx}

/-! ## The layers of a path -/

lemma QueryCtx.Literal.coldKeeps (h : ctx.Literal) (docs : List (String × LiteMeta)) :
    ColdKeeps ctx.fnCase ctx.needle docs := by
  cases hcase : ctx.fnCase with
  | false => exact coldKeeps_false _ _
  | true =>
      intro t ht f _ hmatch _
      have hin : t.toList <:+: ctx.needle.toList := by
        rw [searchTexts] at ht
        cases hcompound : compound ctx.needle with
        | none =>
            rw [hcompound] at ht
            rw [List.mem_singleton.mp ht]
        | some n =>
            rw [hcompound] at ht
            exact (infix_of_parse (parse_of_compound hcompound).1 ht).1
      have hsigma : 'Σ' ∉ t.toList := fun hmem => h.no_sigma hcase (hin.subset hmem)
      exact trigrams_mono (lowerBytes_infix_of_contains hsigma (termMatches_true_iff.mp hmatch))

/-- Candidate generation loses no match. -/
lemma QueryCtx.Literal.matches_walked (h : ctx.Literal) (texts : List Bytes) (content : Bytes) :
    (contentMatches ctx.folded (utf8 ctx.needle) ctx.caseSensitive content &&
      walked texts ctx.folded (fold content)) =
      contentMatches ctx.folded (utf8 ctx.needle) ctx.caseSensitive content := by
  cases hmatch : contentMatches ctx.folded (utf8 ctx.needle) ctx.caseSensitive content with
  | false => rfl
  | true =>
      rw [Bool.true_and]
      refine walked_of_subset fun hlen => ?_
      unfold contentMatches at hmatch
      cases hcase : ctx.caseSensitive with
      | false =>
          rw [hcase] at hmatch
          exact trigrams_mono (containsSub_iff.mp hmatch)
      | true =>
          rw [hcase] at hmatch
          rw [h.folded_eq] at hlen ⊢
          exact List.Subset.trans (h.keeps hcase hlen)
            (trigrams_mono (fold_mono (containsSub_iff.mp hmatch)))

lemma QueryCtx.Literal.findsFile (h : ctx.Literal) (files : List ShardFile) (content : Bytes) :
    ctx.contentSearch.findsFile files content =
      contentMatches ctx.folded (utf8 ctx.needle) ctx.caseSensitive content := by
  have hre : ctx.contentSearch.re = none := h.re_eq
  rw [LineQuery.findsFile, LineQuery.prefilter, LineQuery.verifies, hre, Bool.and_true]
  exact h.matches_walked _ content

lemma QueryCtx.Literal.overlayFinds (h : ctx.Literal) (texts : List Bytes) (content : Bytes) :
    ctx.contentSearch.overlayFinds texts content =
      contentMatches ctx.folded (utf8 ctx.needle) ctx.caseSensitive content := by
  have hre : ctx.contentSearch.re = none := h.re_eq
  rw [LineQuery.overlayFinds, hre]
  exact h.matches_walked _ content

namespace BuiltDatabase

variable (db : BuiltDatabase)

lemma lookup_current (path : String) : db.current.lookup path =
    match hotVersion db.recs path with
    | none => db.files.lookup path
    | some v => v := lookup_currentFiles db.files db.recs path

lemma lookup_files {path : String} {v : FileVersion} :
    db.files.lookup path = some v ↔ (path, v) ∈ db.files :=
  AssocMap.lookup_eq_some db.files_nodup

lemma mem_docs {f : String × LiteMeta} :
    f ∈ db.docs ↔ ∃ v, db.files.lookup f.1 = some v ∧ v.lite = f.2 := by
  rw [db.docs_perm.mem_iff, List.mem_map]
  simp only [db.lookup_files]
  constructor
  · rintro ⟨g, hg, rfl⟩
    exact ⟨g.2, hg, rfl⟩
  · rintro ⟨v, hv, hlite⟩
    exact ⟨_, hv, Prod.ext rfl hlite⟩

lemma mem_filess {f : ShardFile} : (∃ files ∈ db.filess, f ∈ files) ↔
    ∃ v, db.files.lookup f.path = some v ∧ v.lite = f.lite ∧ v.content = some f.content := by
  rw [← List.mem_flatten, db.filess_perm.mem_iff, List.mem_filterMap]
  simp only [db.lookup_files, shardFile, Option.map_eq_some_iff]
  constructor
  · rintro ⟨g, hg, c, hc, rfl⟩
    exact ⟨g.2, hg, rfl, hc⟩
  · rintro ⟨v, hv, hlite, hc⟩
    refine ⟨_, hv, f.content, hc, ?_⟩
    rw [hlite]

lemma any_docs (path : String) (accepts : Bool) :
    (db.docs.any fun f => decide (f.1 = path) && accepts) =
      (decide ((db.files.lookup path).isSome = true) && accepts) := by
  rw [Bool.eq_iff_iff, List.any_eq_true]
  simp only [Bool.and_eq_true, decide_eq_true_eq, Option.isSome_iff_exists, db.mem_docs]
  constructor
  · rintro ⟨f, ⟨v, hv, -⟩, rfl, haccepts⟩
    exact ⟨⟨v, hv⟩, haccepts⟩
  · rintro ⟨⟨v, hv⟩, haccepts⟩
    exact ⟨(path, v.lite), ⟨v, hv, rfl⟩, rfl, haccepts⟩

lemma any_filess (path : String) (accepts : Bytes → Bool) :
    (db.filess.any fun files => files.any fun f => decide (f.path = path) && accepts f.content) =
      ((db.files.lookup path).map fun v => (v.content.map accepts).getD false).getD false := by
  have hany : (db.filess.any fun files => files.any fun f =>
      decide (f.path = path) && accepts f.content) = true ↔
      ∃ v c, db.files.lookup path = some v ∧ v.content = some c ∧ accepts c = true := by
    simp only [List.any_eq_true, Bool.and_eq_true, decide_eq_true_eq]
    constructor
    · rintro ⟨files, hfiles, f, hf, rfl, haccepts⟩
      obtain ⟨v, hv, -, hc⟩ := db.mem_filess.mp ⟨files, hfiles, hf⟩
      exact ⟨v, f.content, hv, hc, haccepts⟩
    · rintro ⟨v, c, hv, hc, haccepts⟩
      obtain ⟨files, hfiles, hf⟩ := (@mem_filess db ⟨path, v.lite, c⟩).mpr ⟨v, hv, rfl, hc⟩
      exact ⟨files, hfiles, _, hf, rfl, haccepts⟩
  rw [Bool.eq_iff_iff, hany]
  cases hv : db.files.lookup path with
  | none => simp
  | some v => cases hc : v.content <;> simp [hc]

/-- The filename layer shows the files whose path matches. -/
lemma showsName_eq (h : ctx.AgreesOn db.recs) (path : String) :
    db.showsName ctx path =
      (decide ((db.current.lookup path).isSome = true) && ctx.namesFile path) := by
  rw [Database.showsName, QueryCtx.namesFile, db.lookup_current]
  cases hwant : ctx.wantFn with
  | false => simp
  | true =>
      rcases hversion : hotVersion db.recs path with _ | _ | v
      · dsimp only
        rw [db.any_docs, Bool.true_and, Bool.true_and]
      · rfl
      · dsimp only
        rw [Bool.true_and, Bool.true_and, Option.isSome_some, decide_eq_true rfl, Bool.true_and,
          QueryCtx.shows]
        cases hscope : inScope path ctx.scope with
        | false => simp
        | true =>
            have hagree := (matchersAgree_iff _ _ _ _).mp (h hwant path v hversion hscope)
            rw [Bool.true_and, Bool.true_and, hagree]

/-- The content layer finds the files whose content matches. -/
lemma findsContent_eq (h : ctx.Literal) (path : String) :
    (ctx.wantCt && db.findsContent ctx.contentSearch path) =
      ((db.current.lookup path).map (ctx.readsFile path)).getD false := by
  rw [Database.findsContent, db.lookup_current]
  have hscope : ctx.contentSearch.scope = ctx.scope := rfl
  rw [hscope]
  rcases hotVersion db.recs path with _ | _ | v
  · dsimp only
    simp only [h.findsFile]
    rw [db.any_filess]
    cases db.files.lookup path with
    | none => simp
    | some v => rfl
  · simp
  · rw [Option.map_some, Option.getD_some, QueryCtx.readsFile]
    cases hc : v.content with
    | none => simp [hc]
    | some c => simp [hc, h.overlayFinds]

/-! ## The answer of a database -/

def Fresh (path : String) (lite : LiteMeta) : Prop :=
  ∃ v, db.current.lookup path = some v ∧ v.lite = lite

end BuiltDatabase

/-- Merging keeps what is known of the metadata. -/
lemma forall_foldl_mergeIn {P : String → LiteMeta → Prop} {hits : List Hit} {map : ResultMap}
    (hmap : ∀ e ∈ map, P e.1 e.2.1) (hhits : ∀ h ∈ hits, P h.1 h.2.1) :
    ∀ e ∈ hits.foldl (mergeIn none) map, P e.1 e.2.1 := by
  induction hits generalizing map with
  | nil => exact hmap
  | cons h hits ih =>
      refine ih ?_ fun h' hh' => hhits h' (List.mem_cons_of_mem _ hh')
      rw [mergeIn, if_neg fun hc => Bool.false_ne_true hc.1]
      refine AssocMap.forall_put hmap ?_
      cases hlook : map.lookup h.1 with
      | none => exact hhits h (List.mem_cons_self ..)
      | some e => exact hmap (h.1, e) (AssocMap.mem_of_lookup hlook)

lemma forall_foldl_overrideIn {P : String → LiteMeta → Prop} {hits : List Hit} {map : ResultMap}
    (hmap : ∀ e ∈ map, P e.1 e.2.1) (hhits : ∀ h ∈ hits, P h.1 h.2.1) :
    ∀ e ∈ hits.foldl (overrideIn none) map, P e.1 e.2.1 := by
  induction hits generalizing map with
  | nil => exact hmap
  | cons h hits ih =>
      refine ih ?_ fun h' hh' => hhits h' (List.mem_cons_of_mem _ hh')
      have hhit := hhits h (List.mem_cons_self ..)
      rw [overrideIn]
      split
      · exact AssocMap.forall_put hmap hhit
      · rw [if_neg (by exact Bool.false_ne_true)]
        exact AssocMap.forall_put hmap hhit

/-- The answer of a database tells the metadata of its hits. -/
lemma forall_answerOf {P : String → LiteMeta → Prop} {o : Overlay} {known : Finset String}
    (ho : o.Inv known) {cold hot : List Hit}
    (hcold : ∀ h ∈ cold, o.version h.1 = none → P h.1 h.2.1) (hhot : ∀ h ∈ hot, P h.1 h.2.1) :
    ∀ e ∈ answerOf none o cold hot, P e.1 e.2.1 := by
  rw [answerOf]
  refine forall_foldl_overrideIn (fun e he => ?_) hhot
  have hmerged : ∀ e ∈ cold.foldl (mergeIn none) [], o.version e.1 = none → P e.1 e.2.1 :=
    @forall_foldl_mergeIn (fun p lite => o.version p = none → P p lite) cold []
      (fun e he => absurd he List.not_mem_nil) hcold
  unfold dropShadowed at he
  split at he
  · obtain ⟨he, hsuppress⟩ := List.mem_filter.mp he
    refine hmerged e he ?_
    by_contra hversion
    rw [(ho.suppresses_iff e.1).mpr hversion] at hsuppress
    cases hsuppress
  · rename_i hnone
    refine hmerged e he ?_
    by_contra hversion
    have hall := ho.suppresses_eq_false (by simpa using hnone) e.1
    rw [(ho.suppresses_iff e.1).mpr hversion] at hall
    cases hall

namespace BuiltDatabase

variable (db : BuiltDatabase)

/-- What the index and the shards find has the metadata of its file. -/
lemma fresh_of_cold {finds : Finds} (h : finds.Of db.entry.overlay db.docs db.filess ctx) :
    ∀ hit ∈ finds.cold (ctx.withLimits none none), hotVersion db.recs hit.1 = none →
      db.Fresh hit.1 hit.2.1 := by
  intro hit hhit hversion
  have hfile : (∃ v, db.files.lookup hit.1 = some v ∧ v.lite = hit.2.1) →
      db.Fresh hit.1 hit.2.1 := by
    rintro ⟨v, hv, hlite⟩
    exact ⟨v, by rw [db.lookup_current, hversion]; exact hv, hlite⟩
  refine hfile ?_
  rcases List.mem_append.mp hhit with hhit | hhit
  · split at hhit
    · obtain ⟨f, hf, rfl⟩ := List.mem_map.mp hhit
      exact db.mem_docs.mp (h.fn_sub f (List.mem_of_mem_filter hf))
    · cases hhit
  · split at hhit
    · obtain ⟨found, hfound, hhit⟩ := List.mem_flatMap.mp hhit
      obtain ⟨f, hf, rfl⟩ := List.mem_map.mp hhit
      rw [h.ct_eq] at hfound
      obtain ⟨files, hfiles, rfl⟩ := List.mem_map.mp hfound
      have hmem : f ∈ files := List.mem_of_mem_filter (List.mem_of_mem_filter hf)
      obtain ⟨v, hv, hlite, -⟩ := db.mem_filess.mp ⟨files, hfiles, hmem⟩
      exact ⟨v, hv, hlite⟩
    · cases hhit

/-- What the overlay finds has the metadata of its record. -/
lemma fresh_of_hot {finds : Finds} (h : finds.Of db.entry.overlay db.docs db.filess ctx) :
    ∀ hit ∈ finds.hot (ctx.withLimits none none), db.Fresh hit.1 hit.2.1 := by
  obtain ⟨hinv, hversion⟩ := db.inv
  intro hit hhit
  have hrecord : (∃ v, hotVersion db.recs hit.1 = some (some v) ∧ v.lite = hit.2.1) →
      db.Fresh hit.1 hit.2.1 := by
    rintro ⟨v, hv, hlite⟩
    exact ⟨v, by rw [db.lookup_current, hv], hlite⟩
  refine hrecord ?_
  rcases List.mem_append.mp hhit with hhit | hhit
  · split at hhit
    · obtain ⟨f, hf, rfl⟩ := List.mem_map.mp hhit
      have hf : f ∈ finds.ovFn := List.mem_of_mem_filter hf
      rw [h.ovFn_eq, hinv.mem_filenameQuery] at hf
      obtain ⟨⟨v, hv, hlite⟩, -⟩ := hf
      exact ⟨v, hversion f.1 ▸ hv, hlite⟩
    · cases hhit
  · split at hhit
    · obtain ⟨f, hf, rfl⟩ := List.mem_map.mp hhit
      obtain ⟨v, c, hv, hlite, -⟩ := (h.mem_ovCt f).mp (List.mem_of_mem_filter hf)
      exact ⟨v, hversion f.1 ▸ hv, hlite⟩
    · cases hhit

/-- The answer of a database is what a look at its files reports. -/
theorem queryEntry_scan (hctx : ctx.Unlimited) (hliteral : ctx.Literal)
    (hagree : ctx.AgreesOn db.recs) :
    ∃ map, queryEntry ctx db.entry none = .ok map ∧ (map.map Prod.fst).Nodup ∧
      ∀ path, map.lookup path = (db.current.lookup path).bind (ctx.scanFile path) := by
  obtain ⟨hinv, hversion⟩ := db.inv
  obtain ⟨finds, hfinds, hquery⟩ := db.holds.queryEntry_eq ctx
  have hquery := hquery none none none
  rw [hctx.withLimits_eq] at hquery
  obtain ⟨map, hmap, hnodup, hfn, hct⟩ := db.queryEntry_reports hctx
  have hfresh : ∀ e ∈ map, db.Fresh e.1 e.2.1 := by
    obtain rfl := Except.ok.inj (hquery.symm.trans hmap)
    refine forall_answerOf hinv (fun hit hhit hnone => ?_) (fun hit hhit => ?_)
    · rw [hversion] at hnone
      rw [← hctx.withLimits_eq] at hhit
      exact db.fresh_of_cold hfinds hit hhit hnone
    · rw [← hctx.withLimits_eq] at hhit
      exact db.fresh_of_hot hfinds hit hhit
  refine ⟨map, hmap, hnodup, fun path => ?_⟩
  have hkind := lookup_kind map path
  rw [hfn (hliteral.coldKeeps _), hct, db.showsName_eq hagree, db.findsContent_eq hliteral] at hkind
  cases hfile : db.current.lookup path with
  | none =>
      rw [hfile] at hkind
      exact Option.map_eq_none_iff.mp hkind
  | some v =>
      rw [hfile, Option.isSome_some, decide_eq_true rfl, Bool.true_and, Option.map_some,
        Option.getD_some] at hkind
      rw [Option.bind_some, QueryCtx.scanFile, ← hkind, Option.map_map]
      cases hlook : map.lookup path with
      | none => rfl
      | some e =>
          obtain ⟨v', hv', hlite⟩ := hfresh _ (AssocMap.mem_of_lookup hlook)
          obtain rfl := Option.some.inj (hfile.symm.trans hv')
          rw [Option.map_some, hlite]
          rfl

end BuiltDatabase

/-! ## Many databases -/

/-- The merge of the databases is what a look at the files of each reports. -/
theorem mergeEntries_scan (env : ConnEnv) (hctx : ctx.Unlimited) (hliteral : ctx.Literal)
    {dbs : List BuiltDatabase} (hagree : ∀ db ∈ dbs, ctx.AgreesOn db.recs) (i : ℕ)
    {merged : ResultMap} (hmerged : (merged.map Prod.fst).Nodup) :
    ∃ map, mergeEntries env ctx none i (dbs.map fun db => db.entry) merged = .ok map ∧
      (map.map Prod.fst).Nodup ∧ ∀ path, map.lookup path = dbs.foldl (fun found db =>
        mergeFound found ((db.current.lookup path).bind (ctx.scanFile path)))
          (merged.lookup path) := by
  induction dbs generalizing i merged with
  | nil => exact ⟨merged, rfl, hmerged, fun _ => rfl⟩
  | cons db dbs ih =>
      obtain ⟨per, hper, hnodup, hat⟩ :=
        db.queryEntry_scan hctx hliteral (hagree db (List.mem_cons_self ..))
      have hperm := env.order_perm i per
      have hnodup' : ((env.order i per).map Prod.fst).Nodup :=
        (hperm.map Prod.fst).nodup_iff.mpr hnodup
      have hnext : (((env.order i per).foldl (mergeIn none) merged).map Prod.fst).Nodup := by
        rw [foldl_mergeIn, putAllCapped_none]
        exact AssocMap.nodup_putAll hmerged
      obtain ⟨map, hmap, hmapNodup, hmapAt⟩ :=
        ih (fun d hd => hagree d (List.mem_cons_of_mem _ hd)) (i + 1) hnext
      refine ⟨map, ?_, hmapNodup, fun path => ?_⟩
      · rw [List.map_cons, mergeEntries, hper]
        exact hmap
      · rw [hmapAt, List.foldl_cons, lookup_foldl_mergeIn hnodup',
          AssocMap.lookup_perm hnodup hperm, ← hat]
        refine congrArg (fun found => dbs.foldl _ found) ?_
        cases per.lookup path with
        | none => cases merged.lookup path <;> rfl
        | some e => cases merged.lookup path <;> rfl

/-! ## From the request to the reply -/

/-- An unlimited literal request in path mode, of which letter case keeps what it is searched by:
with regard to case the query survives its folding (`Daemon/Verbatim.lean`) and has no capital
sigma.  Without regard to case the last two say nothing. -/
structure SearchRequest.LiteralPaths (req : SearchRequest) : Prop where
  regex_eq : req.opts.regex = none
  limit_eq : req.limit = none
  mode_eq : (req.opts.lineNumbers || req.opts.context.isSome) = false
  keeps : req.opts.case.isSensitive req.query = true → FoldKeeps req.query req.opts.case
  no_sigma : req.opts.case.isSensitive req.query = true → 'Σ' ∉ req.query.toList

def literalCtx (req : SearchRequest) : QueryCtx := queryCtx req (literalPlan req.query req.opts.case)

def selectedBuilt (dbs : List BuiltDatabase) (req : SearchRequest) : List BuiltDatabase :=
  dbs.filter fun db => (selectedNames (dbs.map fun db => db.entry) req).contains db.entry.name

lemma SearchRequest.LiteralPaths.literal {req : SearchRequest} (h : req.LiteralPaths) :
    (literalCtx req).Literal where
  re_eq := rfl
  folded_eq := rfl
  keeps hcase := by
    have hkeeps := h.keeps hcase
    have hcase : req.opts.case.isSensitive req.query = true := hcase
    rwa [FoldKeeps, if_pos hcase] at hkeeps
  no_sigma hcase := h.no_sigma hcase

lemma selectedDbs_built (dbs : List BuiltDatabase) (req : SearchRequest) :
    selectedDbs (dbs.map BuiltDatabase.toDatabase) req =
      (selectedBuilt dbs req).map BuiltDatabase.toDatabase := by
  rw [selectedDbs, List.map_map, List.filter_map, selectedBuilt]
  rfl

/-- The reply to a literal request is what a look at the files of the selected databases reports,
filtered. -/
lemma handleSearch_scan (env : ConnEnv) {req : SearchRequest} (hreq : req.LiteralPaths)
    {dbs : List BuiltDatabase} (hsel : req.Selects (dbs.map BuiltDatabase.toDatabase))
    (hagree : ∀ db ∈ selectedBuilt dbs req, (literalCtx req).AgreesOn db.recs) :
    ∃ hits, handleSearch env (dbs.map fun db => db.entry) req = .ok (.ok (pathFrames hits)) ∧
      (hits.map Prod.fst).Nodup ∧ ∀ h : Hit, h ∈ hits ↔
        scanAll (literalCtx req) (selectedBuilt dbs req) h.1 = some h.2 ∧
          passesAll env req (literalPlan req.query req.opts.case) h = true := by
  have hplan := searchPlan_literal env hreq.regex_eq
  have hnil : (([] : ResultMap).map Prod.fst).Nodup := List.nodup_nil
  obtain ⟨merged, hmerged, hnodup, hat⟩ := mergeEntries_scan env
    (unlimited_queryCtx hreq.limit_eq (literalPlan req.query req.opts.case)) hreq.literal hagree 1
    hnil
  obtain ⟨hits, hhits, hhitsNodup, hmem⟩ := mem_searchPaths hreq.limit_eq hmerged hnodup
  refine ⟨hits, ?_, hhitsNodup, fun h => ?_⟩
  · have hentries : (dbs.map fun db => db.entry) =
        (dbs.map BuiltDatabase.toDatabase).map Database.entry := by rw [List.map_map]; rfl
    have hselected : ((selectedBuilt dbs req).map BuiltDatabase.toDatabase).map Database.entry =
        (selectedBuilt dbs req).map fun db => db.entry := by rw [List.map_map]; rfl
    rw [hentries, handleSearch_of_selects hplan hsel, hreq.mode_eq, if_neg Bool.false_ne_true,
      selectedDbs_built, hselected, hhits]
    rfl
  · rw [hmem, hat]
    rfl

/-- A literal search of any databases, each with any records since it was built, delivers what a
look at the selected databases' files as they are now reports: each path once, with the metadata of
its file and the layers that match, when the filters let it through. -/
theorem search_is_scan (env : ConnEnv) {req : SearchRequest} (hreq : req.LiteralPaths)
    {dbs : List BuiltDatabase} (hsel : req.Selects (dbs.map BuiltDatabase.toDatabase))
    (hagree : ∀ db ∈ selectedBuilt dbs req, (literalCtx req).AgreesOn db.recs) :
    ∃ frames, handleSearch env (dbs.map fun db => db.entry) req = .ok (.ok frames) ∧
      ((frames.flatMap ResponseFrame.batchHits).map Prod.fst).Nodup ∧
      ∀ h : Hit, h ∈ frames.flatMap ResponseFrame.batchHits ↔
        scanAll (literalCtx req) (selectedBuilt dbs req) h.1 = some h.2 ∧
          passesAll env req (literalPlan req.query req.opts.case) h = true := by
  obtain ⟨hits, hhandle, hnodup, hmem⟩ := handleSearch_scan env hreq hsel hagree
  refine ⟨_, hhandle, ?_⟩
  rw [batchHits_pathFrames]
  exact ⟨hnodup, hmem⟩

lemma agreesOn_key (recs : List WalRecord) : (literalCtx { query := "key" }).AgreesOn recs := by
  intro _ path v _ _
  have hword : compound "key" = none := by decide +kernel
  have hagree : MatchersAgree false .full "key" path := by
    unfold MatchersAgree
    rw [hword]
    exact ⟨by decide, trivial⟩
  exact hagree

lemma literalPaths_key : ({ query := "key" } : SearchRequest).LiteralPaths :=
  ⟨rfl, rfl, rfl, fun h => absurd h (by decide +kernel), fun h => absurd h (by decide +kernel)⟩

/-- A file of the overlay whose path and content match, and one that was deleted. -/
theorem search_is_scan_one :
    let recs : List WalRecord :=
      [.upsert "/Key.rs" ⟨false, 2, 1⟩ (some (utf8 "KEY")), .upsert "/key" ⟨false, 0, 1⟩ none,
        .delete "/key"]
    ∃ bytes r frames, DbReader.open bytes = .ok r ∧
      handleSearch plainEnv [⟨"default", r.view .stored, [], ({} : Overlay).applyRecords recs⟩]
        { query := "key" } = .ok (.ok frames) ∧
      ("/Key.rs", ⟨false, 2, 1⟩, .both) ∈ frames.flatMap ResponseFrame.batchHits ∧
      ∀ e, ("/key", e) ∉ frames.flatMap ResponseFrame.batchHits := by
  intro recs
  obtain ⟨bytes, r, -, hopen, hindex⟩ := DbBuilder.empty_indexes
  let db : BuiltDatabase := {
    entry := ⟨"default", r.view .stored, [], ({} : Overlay).applyRecords recs⟩
    docs := []
    filess := []
    recs := recs
    holds := ⟨hindex, List.Forall₂.nil, rfl, by decide⟩
    files := []
    files_nodup := List.nodup_nil
    docs_perm := List.Perm.refl _
    filess_perm := List.Perm.refl _ }
  have hselected : selectedBuilt [db] { query := "key" } = [db] := rfl
  obtain ⟨frames, hhandle, -, hmem⟩ := @search_is_scan plainEnv { query := "key" } literalPaths_key
    [db] (selects_of_none rfl _) fun d _ => agreesOn_key d.recs
  rw [hselected] at hmem
  refine ⟨bytes, r, frames, hopen, hhandle, (hmem _).mpr ⟨?_, ?_⟩, fun e he => ?_⟩
  · have hscan : ((currentFiles [] recs).lookup "/Key.rs").bind
        ((literalCtx { query := "key" }).scanFile "/Key.rs") = some (⟨false, 2, 1⟩, .both) := by
      decide +kernel
    exact hscan
  · decide +kernel
  · have hscan : ((currentFiles [] recs).lookup "/key").bind
        ((literalCtx { query := "key" }).scanFile "/key") = none := by decide +kernel
    have hsome : ((currentFiles [] recs).lookup "/key").bind
        ((literalCtx { query := "key" }).scanFile "/key") = some e := ((hmem _).mp he).1
    rw [hscan] at hsome
    cases hsome

/-! ## The index of a tree -/

def builtFiles (env : WalkEnv) (opts : ContentBuildOptions) (fs : FileSystem) :
    List (String × FileVersion) := (buildRecs env opts fs).map fun r => (r.path, r.version)

section Tree

variable {wenv : WalkEnv} {opts : ContentBuildOptions} {fs : FileSystem} {z : Zstd}
  {buildTime : ℕ}

/-- No two records of a build have one path. -/
lemma nodup_builtFiles : ((builtFiles wenv opts fs).map Prod.fst).Nodup := by
  have hwalk : (buildWalk wenv opts fs).Pairwise fun e e' => e.1 ≠ e'.1 :=
    List.pairwise_map.mp (FileTree.nodup_walk fs.tree [] fs.names_nodup)
  have hvalid : ∀ e ∈ buildWalk wenv opts fs, ∀ name ∈ e.1, name ≠ [] ∧ slash ∉ name :=
    fun e he => fs.names_valid.of_resolve ((FileTree.mem_walk_iff fs.names_nodup).mp he).1
  have hpath : ∀ {e : List Bytes × FileNode} {r : BuildRec},
      (visitEntry wenv opts fs e.1 e.2).2 = some r → utf8 r.path = pathBytes fs.root e.1 := by
    intro e r hr
    obtain ⟨-, -, path, hpath, rfl⟩ := visitEntry_snd.mp hr
    exact utf8_of_fromUtf8 hpath
  rw [builtFiles, List.map_map, List.Nodup, List.pairwise_map]
  refine List.Pairwise.filterMap _ (fun e e' hne r hr r' hr' heq => ?_)
    (hwalk.imp_of_mem fun he he' hne => And.intro hne (And.intro he he'))
  obtain ⟨hne, he, he'⟩ := hne
  have hbytes : pathBytes fs.root e.1 = pathBytes fs.root e'.1 := by
    rw [← hpath hr, ← hpath hr']
    exact congrArg utf8 heq
  exact hne (pathBytes_inj (hvalid e he) (hvalid e' he') hbytes)

/-- A disk that reopens as the records of a build holds a database of its files, whatever has been
recorded since. -/
lemma exists_built {d : Disk} (h : ReopensAs z d (recDocs (buildRecs wenv opts fs))
      ((buildRecs wenv opts fs).filterMap BuildRec.file?)) (name : String)
    {recs : List WalRecord} (hrecs : (recs.map WalRecord.path).toFinset.card < 2 ^ 32) :
    ∃ bytes r, d .db = some bytes ∧ DbReader.open bytes = .ok r ∧ ∃ db : BuiltDatabase,
      db.entry = ⟨name, r.view z, loadShardSet d, ({} : Overlay).applyRecords recs⟩ ∧
      db.files = builtFiles wenv opts fs ∧ db.recs = recs := by
  obtain ⟨docs, groups, ⟨⟨bytes, r, hdb, hopen, hindexes⟩, hshards⟩, hdocs, hgroups⟩ := h
  refine ⟨bytes, r, hdb, hopen, ⟨⟨⟨name, r.view z, loadShardSet d,
    ({} : Overlay).applyRecords recs⟩, docs, groups, recs, hindexes, hshards, rfl, hrecs⟩,
    builtFiles wenv opts fs, nodup_builtFiles, ?_, ?_⟩, rfl, rfl, rfl⟩
  · rw [builtFiles, List.map_map]
    exact hdocs
  · rw [builtFiles, List.filterMap_map]
    exact hgroups

/-- The reply from such a disk: what a look at the files reports, as the records left them. -/
lemma search_reopened {d : Disk} (h : ReopensAs z d (recDocs (buildRecs wenv opts fs))
      ((buildRecs wenv opts fs).filterMap BuildRec.file?)) {recs : List WalRecord}
    (hrecs : (recs.map WalRecord.path).toFinset.card < 2 ^ 32) (env : ConnEnv)
    {req : SearchRequest} (hreq : req.LiteralPaths) (hdb : req.db = none)
    (hagree : (literalCtx req).AgreesOn recs) (name : String) :
    ∃ bytes r frames, d .db = some bytes ∧ DbReader.open bytes = .ok r ∧
      handleSearch env [⟨name, r.view z, loadShardSet d, ({} : Overlay).applyRecords recs⟩] req =
        .ok (.ok frames) ∧
      ((frames.flatMap ResponseFrame.batchHits).map Prod.fst).Nodup ∧
      ∀ h : Hit, h ∈ frames.flatMap ResponseFrame.batchHits ↔
        ((currentFiles (builtFiles wenv opts fs) recs).lookup h.1).bind
            ((literalCtx req).scanFile h.1) = some h.2 ∧
          passesAll env req (literalPlan req.query req.opts.case) h = true := by
  obtain ⟨bytes, r, hbytes, hopen, db, hentry, hfiles, hdbRecs⟩ := exists_built h name hrecs
  have hselected : selectedBuilt [db] req = [db] := by
    rw [selectedBuilt, selectedNames, hdb, selectEntries]
    simp
  obtain ⟨hits, hhandle, hnodup, hmem⟩ := handleSearch_scan env hreq
    (selects_of_none hdb ([db].map BuiltDatabase.toDatabase)) (by
      rw [hselected]
      intro d hd
      rw [List.mem_singleton.mp hd, hdbRecs]
      exact hagree)
  refine ⟨bytes, r, pathFrames hits, hbytes, hopen, ?_, ?_⟩
  · rw [← hentry]
    exact hhandle
  · rw [batchHits_pathFrames]
    refine ⟨hnodup, fun h => ?_⟩
    have hcurrent : db.current = currentFiles (builtFiles wenv opts fs) recs := by
      rw [BuiltDatabase.current, hfiles, hdbRecs]
    rw [hmem, hselected, ← hcurrent]
    rfl

/-- The index of a tree, in whatever order the records came to the consumer, and with any records
since: a literal search delivers what a look at the files reports, those of the tree as the records
left them. -/
theorem indexed_search (hz : z.Lawful) {built : List BuildRec}
    (hbuilt : built.Perm (buildRecs wenv opts fs)) (hfits : BuildFits z buildTime built)
    {recs : List WalRecord} (hrecs : (recs.map WalRecord.path).toFinset.card < 2 ^ 32)
    (env : ConnEnv) {req : SearchRequest} (hreq : req.LiteralPaths) (hdb : req.db = none)
    (hagree : (literalCtx req).AgreesOn recs) (name : String) :
    ∃ ws, buildWrites z buildTime built = .ok ws ∧ ∀ old, ∃ bytes r frames,
      Writes.apply ws old .db = some bytes ∧ DbReader.open bytes = .ok r ∧
      handleSearch env [⟨name, r.view z, loadShardSet (Writes.apply ws old),
        ({} : Overlay).applyRecords recs⟩] req = .ok (.ok frames) ∧
      ((frames.flatMap ResponseFrame.batchHits).map Prod.fst).Nodup ∧
      ∀ h : Hit, h ∈ frames.flatMap ResponseFrame.batchHits ↔
        ((currentFiles (builtFiles wenv opts fs) recs).lookup h.1).bind
            ((literalCtx req).scanFile h.1) = some h.2 ∧
          passesAll env req (literalPlan req.query req.opts.case) h = true := by
  obtain ⟨ws, hws, hopens⟩ := reopens_of_perm hz hbuilt hfits
  refine ⟨ws, hws, fun old => ?_⟩
  exact search_reopened (hopens old) hrecs env hreq hdb hagree name

end Tree

/-- A tree with one file, which is searched after another has been written. -/
theorem indexed_search_two :
    let wenv : WalkEnv := {
      standard := fun _ _ _ => true
      otherDevice := fun _ => false
      ignoreMatcher := none }
    let fs : FileSystem := {
      root := utf8 "/proj"
      rootName := utf8 "proj"
      tree := .dir ⟨64, some 1⟩ [(utf8 "key.txt", .leaf (.file ⟨2, some 1⟩ (some [107, 10])))]
      names_nodup := by simp [FileTree.NamesNodup, FileTree.EntriesNodup]
      names_valid := by simp [FileTree.AllNames, FileTree.EntriesAllNames]; decide }
    ∃ ws, buildWrites .stored 5 (buildRecs wenv {} fs) = .ok ws ∧ ∃ bytes r frames,
      Writes.apply ws (fun _ => none) .db = some bytes ∧ DbReader.open bytes = .ok r ∧
      handleSearch plainEnv [⟨"default", r.view .stored, loadShardSet (Writes.apply ws fun _ => none),
        ({} : Overlay).applyRecords [.upsert "/proj/b" ⟨false, 3, 2⟩ (some (utf8 "Key"))]⟩]
        { query := "key" } = .ok (.ok frames) ∧
      ("/proj/key.txt", ⟨false, 2, 1⟩, .filename) ∈ frames.flatMap ResponseFrame.batchHits ∧
      ("/proj/b", ⟨false, 3, 2⟩, .content) ∈ frames.flatMap ResponseFrame.batchHits := by
  intro wenv fs
  have hrecs : buildRecs wenv {} fs =
      [⟨"/proj", true, 64, 1, none⟩, ⟨"/proj/key.txt", false, 2, 1, some [107, 10]⟩] := by
    decide +kernel
  have hfits : BuildFits .stored 5 (buildRecs wenv {} fs) := by
    have hfiles : (buildRecs wenv {} fs).filterMap BuildRec.file? =
        [⟨"/proj/key.txt", ⟨false, 2, 1⟩, [107, 10]⟩] := by
      rw [hrecs]
      rfl
    have hgroups : recGroups (buildRecs wenv {} fs) =
        [[⟨"/proj/key.txt", ⟨false, 2, 1⟩, [107, 10]⟩]] := by
      rw [recGroups, hfiles, shardGroups, if_neg (by decide)]
      rfl
    refine ⟨by decide, by rw [hrecs]; decide, by rw [hrecs]; decide +kernel, ?_⟩
    rw [hgroups]
    decide +kernel
  obtain ⟨ws, hws, hdisk⟩ := @indexed_search wenv {} fs .stored 5 Zstd.stored_lawful _
    (List.Perm.refl _) hfits [.upsert "/proj/b" ⟨false, 3, 2⟩ (some (utf8 "Key"))] (by decide)
    plainEnv { query := "key" } literalPaths_key rfl (agreesOn_key _) "default"
  obtain ⟨bytes, r, frames, hbytes, hopen, hhandle, -, hmem⟩ := hdisk fun _ => none
  have hfiles : builtFiles wenv {} fs = [("/proj", ⟨⟨true, 64, 1⟩, none⟩),
      ("/proj/key.txt", ⟨⟨false, 2, 1⟩, some [107, 10]⟩)] := by
    rw [builtFiles, hrecs]
    rfl
  rw [hfiles] at hmem
  refine ⟨ws, hws, bytes, r, frames, hbytes, hopen, hhandle, (hmem _).mpr ⟨?_, ?_⟩,
    (hmem _).mpr ⟨?_, ?_⟩⟩
  · decide +kernel
  · decide +kernel
  · decide +kernel
  · decide +kernel

end DeepFinder
