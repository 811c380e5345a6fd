import DeepFinder.Daemon.Layers

/-!
# Filename hits through the overlay

A filename query over a database and the records since it was built should answer as the same
query over a database built from the updated files.  Both answers are computed path by path
(`lookup_queryEntry`); they differ where the two matchers do.  The index evaluates the parsed
query, and the overlay looks for its raw text.

The bound on the records is that of the overlay's slots.  With regard to case the two databases must
keep their paths' trigrams (`ColdKeeps`, see `Core/Query.lean`); this hypothesis is about the index
alone, and a query without a capital sigma meets it.  What is left is a condition on each path that
the records leave in the overlay: that the parsed query and its raw text judge it alike.
-/

namespace DeepFinder

open ByteString

/-! ## Where the matchers agree -/

/-- The index and the overlay judge a path alike: never for the empty query, always for a query
searched by its raw text, and for a compound query when its tree holds of the path exactly (in
basename mode: at least) where the raw text occurs. -/
def MatchersAgree (caseSensitive : Bool) (mode : PathMode) (q path : String) : Prop :=
  q ≠ "" ∧
    match compound q, mode with
    | none, _ => True
    | some n, .full => termMatches caseSensitive q path = n.holds caseSensitive path
    | some n, .basename =>
        termMatches caseSensitive q (baseName path) = true → n.holds caseSensitive path = true

lemma split_baseName (path : String) :
    ∃ dir : List Char, path.toList = dir ++ (baseName path).toList ∧
      ∀ c ∈ dir.reverse.head?, c = '/' := by
  refine ⟨(path.toList.reverse.dropWhile (· ≠ '/')).reverse, ?_, ?_⟩
  · have hsplit := List.takeWhile_append_dropWhile
      (p := fun c : Char => decide (c ≠ '/')) (l := path.toList.reverse)
    have hrev := congrArg List.reverse hsplit
    rw [List.reverse_append, List.reverse_reverse] at hrev
    rw [baseName, String.toList_ofList, hrev]
  · intro c hc
    rw [List.reverse_reverse] at hc
    have := List.head?_dropWhile_not (fun c : Char => decide (c ≠ '/')) path.toList.reverse
    rw [Option.mem_def] at hc
    rw [hc] at this
    simpa using this

/-- A path contains what its file name contains. -/
lemma termMatches_of_baseName {caseSensitive : Bool} {q path : String}
    (h : termMatches caseSensitive q (baseName path) = true) :
    termMatches caseSensitive q path = true := by
  obtain ⟨dir, hsplit, hdir⟩ := split_baseName path
  cases caseSensitive with
  | true =>
      have hinfix : (baseName path).toList <:+: path.toList := by
        rw [hsplit]
        exact (List.suffix_append _ _).isInfix
      exact termMatches_true_iff.mpr ((termMatches_true_iff.mp h).trans (infix_utf8 hinfix))
  | false =>
      have hslash : endsWord '/' = true := by decide +kernel
      have hword : AtWordEnd dir.reverse := by
        intro c hc
        rw [hdir c hc]
        exact hslash
      have hlower := @lowerLoop_mono dir [] hword (fun _ h => nomatch h) (baseName path).toList
      rw [List.append_nil, ← hsplit] at hlower
      have hinfix : lowerBytes (baseName path) <:+: lowerBytes path := by
        refine infix_utf8 ?_
        rw [toLowercase, toLowercase, String.toList_ofList, String.toList_ofList]
        exact hlower
      exact termMatches_false_iff.mpr ((termMatches_false_iff.mp h).trans hinfix)

lemma matchersAgree_iff (caseSensitive : Bool) (mode : PathMode) (q path : String) :
    MatchersAgree caseSensitive mode q path ↔
      termMatches caseSensitive q (shownText mode path) =
        (coldAccepts caseSensitive q path &&
          (decide (mode = .full) || termMatches caseSensitive q (baseName path))) := by
  unfold MatchersAgree coldAccepts
  by_cases hne : q = ""
  · simp [hne, termMatches_empty]
  · rw [if_neg hne]
    cases hcompound : compound q with
    | none =>
        cases mode with
        | full => simp [hne, shownText]
        | basename =>
            simp only [hne, shownText, ne_eq, not_false_eq_true, true_and, reduceIte, true_iff,
              reduceCtorEq, decide_false, Bool.false_or]
            cases hbase : termMatches caseSensitive q (baseName path) with
            | false => rw [Bool.and_false]
            | true => rw [Bool.and_true, termMatches_of_baseName hbase]
    | some n =>
        cases mode with
        | full => simp [hne, shownText]
        | basename =>
            simp only [hne, shownText, ne_eq, not_false_eq_true, true_and, reduceIte,
              reduceCtorEq, decide_false, Bool.false_or]
            cases termMatches caseSensitive q (baseName path) <;> simp

/-! ## The answers, path by path -/

def applyToFiles (files : List (String × LiteMeta)) : WalRecord → List (String × LiteMeta)
  | .upsert path lite _ => AssocMap.put path (fun _ => lite) files
  | .delete path => files.filter fun f => decide (f.1 ≠ path)

/-- The files after records: later ones win, and a delete removes. -/
def updatedFiles (files : List (String × LiteMeta)) (recs : List WalRecord) :
    List (String × LiteMeta) :=
  recs.foldl applyToFiles files

lemma updatedFiles_concat (files : List (String × LiteMeta)) (recs : List WalRecord)
    (r : WalRecord) :
    updatedFiles files (recs ++ [r]) = applyToFiles (updatedFiles files recs) r :=
  List.foldl_append ..

lemma nodup_updatedFiles {files : List (String × LiteMeta)} (h : (files.map Prod.fst).Nodup)
    (recs : List WalRecord) : ((updatedFiles files recs).map Prod.fst).Nodup := by
  induction recs using List.reverseRecOn with
  | nil => exact h
  | append_singleton recs r ih =>
      rw [updatedFiles_concat]
      cases r with
      | upsert path lite content => exact AssocMap.nodup_put ih _ _
      | delete path => exact AssocMap.nodup_filter ih _

lemma lookup_applyToFiles (files : List (String × LiteMeta)) (r : WalRecord) (x : String) :
    (applyToFiles files r).lookup x =
      if x = r.path then r.version.map FileVersion.lite else files.lookup x := by
  cases r with
  | upsert path lite content => exact AssocMap.lookup_put ..
  | delete path => exact AssocMap.lookup_without ..

/-- The updated files hold what the last record of a path says, and otherwise what they held. -/
lemma lookup_updatedFiles (files : List (String × LiteMeta)) (recs : List WalRecord)
    (x : String) :
    (updatedFiles files recs).lookup x = match hotVersion recs x with
      | none => files.lookup x
      | some v => v.map FileVersion.lite :=
  lookup_foldl_records lookup_applyToFiles files recs x

/-- The context of an unlimited literal query of the filename layer. -/
def filenameCtx (q : String) (caseSensitive : Bool) (mode : PathMode) (scope : Option String) :
    QueryCtx where
  folded := fold (lowerBytes q)
  needle := q
  caseSensitive := caseSensitive
  fnCase := caseSensitive
  reContent := none
  scope := scope
  effLimit := none
  limit := none
  wantFn := true
  wantCt := false
  pathMode := mode

section Answers

variable {q : String} {caseSensitive : Bool} {mode : PathMode} {scope : Option String}
  {db : FilenameDb} {docs : List (String × LiteMeta)} {o : Overlay} {known : Finset String}

/-- The overlay's filename query finds the live versions whose path matches. -/
lemma lookup_filenameQuery (ho : o.Inv known) (x : String) :
    (o.filenameQuery q caseSensitive (mode = .basename) none).lookup x =
      match o.version x with
      | some (some v) => if termMatches caseSensitive q (shownText mode x) then some v.lite else none
      | _ => none := by
  have hmem : ∀ lite, (o.filenameQuery q caseSensitive (mode = .basename) none).lookup x =
      some lite ↔ (∃ v, o.version x = some (some v) ∧ v.lite = lite) ∧
        termMatches caseSensitive q (shownText mode x) = true := by
    intro lite
    rw [AssocMap.lookup_eq_some (ho.nodup_filenameQuery _ _ _), ho.mem_filenameQuery]
    simp [shownText]
  refine Option.ext fun lite => (hmem lite).trans ?_
  match o.version x with
  | none => simp
  | some none => simp
  | some (some v) =>
      dsimp only
      split
      · rename_i hmatch
        simp [hmatch]
      · rename_i hmatch
        simp [hmatch]

/-- What the overlay adds for a path: its live version, when the path is in scope and matches. -/
lemma lookup_overlayFilenameLayer (ho : o.Inv known) {ctx : QueryCtx} (hfn : ctx.wantFn = true)
    (hlimit : ctx.limit = none) (x : String) :
    (overlayFilenameLayer ctx o).lookup x =
      match o.version x with
      | some (some v) =>
          if inScope x ctx.scope && termMatches ctx.fnCase ctx.needle (shownText ctx.pathMode x) then
            some (v.lite, .filename)
          else none
      | _ => none := by
  rw [overlayFilenameLayer, if_pos hfn, hlimit, overlayHits,
    AssocMap.lookup_map_snd (fun _ lite => (lite, MatchKind.filename)),
    AssocMap.lookup_filter fun y => inScope y ctx.scope, lookup_filenameQuery ho]
  rcases o.version x with _ | _ | v
  · simp
  · simp
  · dsimp only
    cases inScope x ctx.scope with
    | false => simp
    | true =>
        simp only [reduceIte, Bool.true_and]
        split <;> rfl

lemma nodup_overlayFilenameLayer (ho : o.Inv known) {ctx : QueryCtx} (hlimit : ctx.limit = none) :
    ((overlayFilenameLayer ctx o).map Prod.fst).Nodup := by
  unfold overlayFilenameLayer
  split
  · rw [hlimit, overlayHits, List.map_map]
    exact (ho.nodup_filenameQuery _ _ _).sublist (List.filter_sublist.map Prod.fst)
  · exact List.nodup_nil

/-- The answer to a filename query over an overlay, at a path. -/
lemma lookup_queryEntry (h : db.Indexes docs) (hdocs : (docs.map Prod.fst).Nodup)
    (hkeep : ColdKeeps caseSensitive q docs) (ho : o.Inv known) (name : String)
    (shards : List Bytes) :
    ∃ map, queryEntry (filenameCtx q caseSensitive mode scope) ⟨name, db, shards, o⟩ none =
        .ok map ∧
      ∀ x, map.lookup x = match o.version x with
        | none =>
            if coldAccepts caseSensitive q x && (filenameCtx q caseSensitive mode scope).shows x then
              (docs.lookup x).map fun lite => (lite, .filename)
            else none
        | some none => none
        | some (some v) =>
            if inScope x scope && termMatches caseSensitive q (shownText mode x) then
              some (v.lite, .filename)
            else none := by
  have hcold : filenameLayer (filenameCtx q caseSensitive mode scope) db none =
      .ok ((filenameHits (filenameCtx q caseSensitive mode scope) docs
        (docsWhere docs (coldAccepts caseSensitive q))).foldl (mergeIn none) []) := by
    have hdocids : queryDocids db (filenameCtx q caseSensitive mode scope).needle
        (filenameCtx q caseSensitive mode scope).fnCase
        (filenameCtx q caseSensitive mode scope).effLimit =
          .ok (docsWhere docs (coldAccepts caseSensitive q)) := h.queryDocids_eq_accepts hkeep none
    rw [filenameLayer, hdocids, Res.unwrapOr_ok, bind_ok]
    exact filenameLoop_eq h _ none (fun d hd => lt_of_mem_docsWhere hd) allFilename_nil
  refine ⟨(overlayFilenameLayer (filenameCtx q caseSensitive mode scope) o).foldl (overrideIn none)
    (dropShadowed o ((filenameHits (filenameCtx q caseSensitive mode scope) docs
      (docsWhere docs (coldAccepts caseSensitive q))).foldl (mergeIn none) [])), ?_, fun x => ?_⟩
  · rw [queryEntry, hcold, bind_ok]
    rfl
  · have hhot : (overlayFilenameLayer (filenameCtx q caseSensitive mode scope) o).lookup x =
        match o.version x with
        | some (some v) =>
            if inScope x scope && termMatches caseSensitive q (shownText mode x) then
              some (v.lite, .filename)
            else none
        | _ => none := lookup_overlayFilenameLayer ho rfl rfl x
    have hnodup := @nodup_overlayFilenameLayer o known ho (filenameCtx q caseSensitive mode scope) rfl
    rw [lookup_foldl_overrideIn hnodup, lookup_dropShadowed ho, hhot,
      lookup_filenameHits hdocs]
    rcases o.version x with _ | _ | v
    · rfl
    · rfl
    · dsimp only
      by_cases hmatch :
          (inScope x scope && termMatches caseSensitive q (shownText mode x)) = true
      · rw [if_pos hmatch]
        rfl
      · rw [if_neg hmatch]
        rfl

end Answers

lemma ite_some_eq_iff {α : Type} {a b : Bool} {v : α} :
    ((if a then some v else none) = if b then some v else none) ↔ a = b := by
  cases a <;> cases b <;> simp

/-! ## Transparency -/

/-- Over files with distinct paths and records about fewer than 2 ^ 32 of them, the overlay is
transparent to a filename query exactly when the two matchers agree on every path in scope that
the records leave in the overlay. -/
theorem filename_query_transparent_iff {files : List (String × LiteMeta)} {recs : List WalRecord}
    {q : String} {caseSensitive : Bool} {mode : PathMode} {scope : Option String}
    {cold rebuilt : FilenameDb} {name : String} {shards shards' : List Bytes}
    (hfiles : (files.map Prod.fst).Nodup)
    (hpaths : (recs.map WalRecord.path).toFinset.card < 2 ^ 32)
    (hcold : cold.Indexes files) (hrebuilt : rebuilt.Indexes (updatedFiles files recs))
    (hkeep : caseSensitive = true →
      ColdKeeps true q files ∧ ColdKeeps true q (updatedFiles files recs)) :
    (∃ hot fresh : ResultMap,
      queryEntry (filenameCtx q caseSensitive mode scope)
        ⟨name, cold, shards, ({} : Overlay).applyRecords recs⟩ none = .ok hot ∧
      queryEntry (filenameCtx q caseSensitive mode scope) ⟨name, rebuilt, shards', {}⟩ none =
        .ok fresh ∧
      ∀ path, hot.lookup path = fresh.lookup path) ↔
    ∀ path v, hotVersion recs path = some (some v) → inScope path scope = true →
      MatchersAgree caseSensitive mode q path := by
  have hkeeps : ColdKeeps caseSensitive q files ∧
      ColdKeeps caseSensitive q (updatedFiles files recs) := by
    cases caseSensitive with
    | true => exact hkeep rfl
    | false => exact ⟨coldKeeps_false _ _, coldKeeps_false _ _⟩
  obtain ⟨hinv, hversion⟩ := Overlay.version_applyRecords
    (fun r hr => List.mem_toFinset.mpr (List.mem_map_of_mem hr)) hpaths
  obtain ⟨hot, hhot, hhotAt⟩ := @lookup_queryEntry q caseSensitive mode scope cold files _ _ hcold
    hfiles hkeeps.1 hinv name shards
  obtain ⟨fresh, hfresh, hfreshAt⟩ := @lookup_queryEntry q caseSensitive mode scope rebuilt _ _ _
    hrebuilt (nodup_updatedFiles hfiles recs) hkeeps.2 (Overlay.inv_empty ∅) name shards'
  -- the answers at a path
  have hempty : ∀ x, ({} : Overlay).version x = none := fun _ => rfl
  have hat : ∀ x, hot.lookup x = fresh.lookup x ↔ ∀ v, hotVersion recs x = some (some v) →
      inScope x scope = true → MatchersAgree caseSensitive mode q x := by
    intro x
    rw [hhotAt, hfreshAt, hversion, hempty, lookup_updatedFiles]
    match hotVersion recs x with
    | none => simp
    | some none => simp
    | some (some v) =>
        rw [matchersAgree_iff]
        cases hscope : inScope x scope with
        | false => simp [QueryCtx.shows, filenameCtx, hscope]
        | true =>
            simp only [QueryCtx.shows, filenameCtx, hscope, Bool.true_and, Option.map_some]
            rw [ite_some_eq_iff]
            exact ⟨fun heq _ _ _ => heq, fun heq => heq v rfl trivial⟩
  constructor
  · rintro ⟨hot', fresh', hhot', hfresh', heq⟩ x
    obtain rfl := Except.ok.inj (hhot.symm.trans hhot')
    obtain rfl := Except.ok.inj (hfresh.symm.trans hfresh')
    exact (hat x).mp (heq x)
  · intro hagree
    exact ⟨hot, fresh, hhot, hfresh, fun x => (hat x).mpr (hagree x)⟩

/-- A file was created and another deleted since the database of two files was built. -/
theorem filename_query_transparent_two :
    let files : List (String × LiteMeta) :=
      [("src/main.rs", ⟨false, 10, 1⟩), ("src/old.rs", ⟨false, 20, 2⟩)]
    let recs : List WalRecord := [.upsert "src/new.rs" ⟨false, 5, 3⟩ none, .delete "src/old.rs"]
    ∃ bytes bytes' r r', (DbBuilder.ofFiles files 0).finish .stored = .ok bytes ∧
      DbReader.open bytes = .ok r ∧
      (DbBuilder.ofFiles (updatedFiles files recs) 0).finish .stored = .ok bytes' ∧
      DbReader.open bytes' = .ok r' ∧
      ∃ hot fresh : ResultMap,
        queryEntry (filenameCtx "SRC" false .full none)
          ⟨"default", r.view .stored, [], ({} : Overlay).applyRecords recs⟩ none = .ok hot ∧
        queryEntry (filenameCtx "SRC" false .full none) ⟨"default", r'.view .stored, [], {}⟩ none =
          .ok fresh ∧
        ∀ path, hot.lookup path = fresh.lookup path := by
  intro files recs
  have hcompound : compound "SRC" = none := by decide +kernel
  obtain ⟨bytes, r, hfinish, hopen, hindex⟩ := @DbBuilder.stored_indexes files (by decide +kernel)
  obtain ⟨bytes', r', hfinish', hopen', hindex'⟩ := @DbBuilder.stored_indexes
    (updatedFiles files recs) (by decide +kernel)
  refine ⟨bytes, bytes', r, r', hfinish, hopen, hfinish', hopen', ?_⟩
  have hagree : ∀ path, MatchersAgree false .full "SRC" path := by
    intro path
    unfold MatchersAgree
    rw [hcompound]
    exact ⟨by decide, trivial⟩
  exact (@filename_query_transparent_iff files recs "SRC" false .full none (r.view .stored)
    (r'.view .stored) "default" [] [] (by decide) (by decide) hindex hindex'
    (fun h => Bool.noConfusion h)).mpr fun path _ _ _ => hagree path

/-- A file created since the build is found by its words in a rebuilt database, but not through
the overlay, which looks for the raw text of the query. -/
theorem implicit_and_missed_by_overlay :
    let recs : List WalRecord := [.upsert "src/foo.rs" ⟨false, 5, 3⟩ none]
    ∃ bytes bytes' r r', (DbBuilder.ofFiles [] 0).finish .stored = .ok bytes ∧
      DbReader.open bytes = .ok r ∧
      (DbBuilder.ofFiles (updatedFiles [] recs) 0).finish .stored = .ok bytes' ∧
      DbReader.open bytes' = .ok r' ∧
      ∃ hot fresh : ResultMap,
        queryEntry (filenameCtx "src foo" false .full none)
          ⟨"default", r.view .stored, [], ({} : Overlay).applyRecords recs⟩ none = .ok hot ∧
        queryEntry (filenameCtx "src foo" false .full none)
          ⟨"default", r'.view .stored, [], {}⟩ none = .ok fresh ∧
        hot.lookup "src/foo.rs" = none ∧
        fresh.lookup "src/foo.rs" = some (⟨false, 5, 3⟩, .filename) := by
  intro recs
  obtain ⟨bytes, r, hfinish, hopen, hindex⟩ := DbBuilder.empty_indexes
  obtain ⟨bytes', r', hfinish', hopen', hindex'⟩ := @DbBuilder.stored_indexes
    (updatedFiles [] recs) (by decide +kernel)
  obtain ⟨hinv, -⟩ := @Overlay.version_applyRecords (recs.map WalRecord.path).toFinset recs
    (fun x hx => List.mem_toFinset.mpr (List.mem_map_of_mem hx)) (by decide)
  obtain ⟨hot, hhot, hhotAt⟩ := @lookup_queryEntry "src foo" false .full none _ _ _ _ hindex
    (by decide) (coldKeeps_false _ _) hinv "default" []
  obtain ⟨fresh, hfresh, hfreshAt⟩ := @lookup_queryEntry "src foo" false .full none _ _ _ _ hindex'
    (by decide) (coldKeeps_false _ _) (Overlay.inv_empty ∅) "default" []
  refine ⟨bytes, bytes', r, r', hfinish, hopen, hfinish', hopen', hot, fresh, hhot, hfresh, ?_, ?_⟩
  · rw [hhotAt]
    decide +kernel
  · rw [hfreshAt]
    decide +kernel

end DeepFinder
