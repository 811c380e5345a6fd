import DeepFinder.Core.DbRoundTrip
import DeepFinder.Daemon.Answers

/-!
# Regex mode

A regex request searches by the longest literal atom of the regex, and verifies the regex only on
part of what that finds: on every content, but on a path only when no content matched.  The answer
is exact when the atom search loses no path and adds none (`RegexSearchExact`,
`regex_search_exact_iff`).

The regex engines are parameters, of which nothing is asked: `isMatch` judges paths and `rx`
contents, and they need not agree.  `RegexSearchExact` is a condition on the paths and contents of
the selected databases, with their records.  Its three clauses are the three ways to go wrong: the
atom search loses a path, it loses a content, or it finds a path by its name that the regex does not
match while a content of it matches, so that the kind is wrong.
-/

namespace DeepFinder

open ByteString

/-! ## The exact answer and the atom's -/

/-- Whether a database holds a path that the regex matches. -/
def pathMatches (dbs : List Database) (isMatch : String → Bool) (path : String) : Bool :=
  dbs.any fun db => db.anyPath isMatch isMatch path

/-- Whether a database holds a content of the path that the regex matches. -/
def contentMatchesRegex (dbs : List Database) (rx : ByteRegex) (path : String) : Bool :=
  dbs.any fun db => db.anyContent rx.isMatch rx.isMatch path

/-- Whether a database holds a path that the search for the atom accepts. -/
def atomAcceptsPath (dbs : List Database) (atom path : String) : Bool :=
  dbs.any fun db => db.anyPath (coldAccepts false atom) (termMatches false atom) path

/-- Whether a database holds a content that the regex matches and that, in a shard, contains the
folded atom. -/
def atomAcceptsContent (dbs : List Database) (atom : String) (rx : ByteRegex) (path : String) :
    Bool :=
  dbs.any fun db => db.anyContent
    (fun c => containsSub (fold c) (fold (lowerBytes atom)) && rx.isMatch c) rx.isMatch path

/-! ## The search -/

/-- A regex request without limit or filters, over full paths and both layers. -/
def regexRequest (query r : String) (case : CaseControl) (sort : SortMode) (db : Option String) :
    SearchRequest where
  query := query
  opts := { regex := some r, case := case, sort := sort }
  db := db

def regexPattern (query r : String) (case : CaseControl) : String :=
  if case.isSensitive query then r else "(?i)" ++ r

/-- The plan of a regex request whose pattern compiles. -/
def regexPlan (query r : String) (case : CaseControl) (isMatch : String → Bool) (rx : ByteRegex) :
    SearchPlan where
  caseSensitive := case.isSensitive query
  re := some isMatch
  reContent := some rx
  needle := (longestLiteralAtom r).getD ""
  fnCase := false
  folded := fold (lowerBytes ((longestLiteralAtom r).getD ""))

/-- The search for the atom loses no path and no content that the regex matches, and finds no path
that the regex does not match beside a content that it does. -/
def RegexSearchExact (dbs : List Database) (atom : String) (isMatch : String → Bool)
    (rx : ByteRegex) : Prop :=
  ∀ path, (pathMatches dbs isMatch path = true → atomAcceptsPath dbs atom path = true) ∧
    (contentMatchesRegex dbs rx path = true → atomAcceptsContent dbs atom rx path = true) ∧
    (atomAcceptsPath dbs atom path = true → contentMatchesRegex dbs rx path = true →
      pathMatches dbs isMatch path = true)

/-- On a path that the atom search accepts, the regex is judged by the path alone. -/
lemma pathMatches_of_accepts {dbs : List Database} {atom path : String}
    (h : atomAcceptsPath dbs atom path = true) (isMatch : String → Bool) :
    pathMatches dbs isMatch path = isMatch path := by
  rw [Bool.eq_iff_iff]
  constructor
  · intro hmatch
    obtain ⟨db, -, hmatch⟩ := List.any_eq_true.mp hmatch
    unfold Database.anyPath at hmatch
    match hotVersion db.recs path, hmatch with
    | none, hmatch =>
        obtain ⟨f, -, hf⟩ := List.any_eq_true.mp hmatch
        exact (Bool.and_eq_true _ _ ▸ hf).2
    | some (some _), hmatch => exact hmatch
  · intro hmatch
    obtain ⟨db, hdb, haccept⟩ := List.any_eq_true.mp h
    exact List.any_eq_true.mpr
      ⟨db, hdb, Database.anyPath_mono (fun _ => hmatch) (fun _ => hmatch) haccept⟩

lemma atomAcceptsContent_matches {dbs : List Database} {atom path : String} {rx : ByteRegex}
    (h : atomAcceptsContent dbs atom rx path = true) : contentMatchesRegex dbs rx path = true := by
  obtain ⟨db, hdb, h⟩ := List.any_eq_true.mp h
  refine List.any_eq_true.mpr ⟨db, hdb, Database.anyContent_mono (fun c hc => ?_) (fun _ hc => hc) h⟩
  exact (Bool.and_eq_true _ _ ▸ hc).2

section Search

variable {query r : String} {case : CaseControl} {sort : SortMode} {name : Option String}
  {isMatch : String → Bool} {rx : ByteRegex}

lemma searchPlan_regexRequest {env : ConnEnv}
    (hre : env.regexNew (regexPattern query r case) = .ok isMatch)
    (hrx : env.bytesRegexNew (regexPattern query r case) = .ok rx) :
    searchPlan env (regexRequest query r case sort name) =
      .ok (regexPlan query r case isMatch rx) := by
  have hre' : compileRegex env.regexNew (case.isSensitive query) (some r) = .ok (some isMatch) := by
    rw [compileRegex]
    unfold regexPattern at hre
    rw [hre]
  have hrx' : compileRegex env.bytesRegexNew (case.isSensitive query) (some r) = .ok (some rx) := by
    rw [compileRegex]
    unfold regexPattern at hrx
    rw [hrx]
  unfold searchPlan
  dsimp only [regexRequest]
  rw [hre']
  dsimp only [Bind.bind, Except.bind]
  rw [hrx']
  rfl

lemma showsName_regex (db : Database) (path : String) :
    db.showsName (queryCtx (regexRequest query r case sort name)
        (regexPlan query r case isMatch rx)) path =
      db.anyPath (coldAccepts false ((longestLiteralAtom r).getD ""))
        (termMatches false ((longestLiteralAtom r).getD "")) path := by
  unfold Database.showsName Database.anyPath
  match hotVersion db.recs path with
  | none => simp [queryCtx, regexRequest, regexPlan, QueryCtx.shows, inScope]
  | some none => simp [queryCtx, regexRequest]
  | some (some _) => simp [queryCtx, regexRequest, regexPlan, inScope, shownText]

/-- In regex mode the content layer finds the contents that the atom search accepts and the regex
matches. -/
lemma findsContent_regex (db : Database) (path : String) :
    db.findsContent (queryCtx (regexRequest query r case sort name)
        (regexPlan query r case isMatch rx)).contentSearch path =
      db.anyContent (fun c => containsSub (fold c)
        (fold (lowerBytes ((longestLiteralAtom r).getD ""))) && rx.isMatch c) rx.isMatch path := by
  have hfile : ∀ (files : List ShardFile) (c : Bytes),
      (queryCtx (regexRequest query r case sort name)
        (regexPlan query r case isMatch rx)).contentSearch.findsFile files c =
      (containsSub (fold c) (fold (lowerBytes ((longestLiteralAtom r).getD ""))) &&
        rx.isMatch c) := by
    intro files c
    unfold LineQuery.findsFile LineQuery.prefilter LineQuery.verifies contentMatches
    dsimp only [QueryCtx.contentSearch, queryCtx, regexPlan]
    cases hsub : containsSub (fold c) (fold (lowerBytes ((longestLiteralAtom r).getD ""))) with
    | false => simp
    | true =>
        rw [walked_of_subset fun _ => trigrams_mono (containsSub_iff.mp hsub)]
        simp
  unfold Database.findsContent Database.anyContent
  match hotVersion db.recs path with
  | none =>
      simp only [hfile]
      simp [QueryCtx.contentSearch, queryCtx, regexRequest, inScope]
  | some none => simp
  | some (some v) =>
      cases hc : v.content with
      | none => simp [hc]
      | some c =>
          simp [hc, QueryCtx.contentSearch, queryCtx, regexRequest, regexPlan, inScope,
            LineQuery.overlayFinds]

def gateKind (pathMatch : Bool) (kind : MatchKind) : Bool :=
  match kind with
  | .filename => pathMatch
  | _ => true

lemma filter_gateKind_eq_iff : ∀ {fn ct pathMatch fn' ct' : Bool},
    (ct = true → ct' = true) → (fn = true → fn' = pathMatch) →
    ((MatchKind.ofLayers fn ct).filter (gateKind pathMatch) = MatchKind.ofLayers fn' ct' ↔
      (fn' = true → fn = true) ∧ (ct' = true → ct = true) ∧
        (fn = true → ct' = true → fn' = true)) := by
  decide

/-- The kinds that the reply to a regex request delivers. -/
lemma regex_search_kinds {env : ConnEnv} {dbs : List Database}
    (hre : env.regexNew (regexPattern query r case) = .ok isMatch)
    (hrx : env.bytesRegexNew (regexPattern query r case) = .ok rx)
    (hsel : (regexRequest query r case sort name).Selects dbs) :
    ∃ hits, handleSearch env (dbs.map Database.entry) (regexRequest query r case sort name) =
        .ok (.ok (pathFrames hits)) ∧ (hits.map Prod.fst).Nodup ∧
      ∀ path, (hits.lookup path).map (fun e => e.2) = (MatchKind.ofLayers
        (atomAcceptsPath (selectedDbs dbs (regexRequest query r case sort name))
          ((longestLiteralAtom r).getD "") path)
        (atomAcceptsContent (selectedDbs dbs (regexRequest query r case sort name))
          ((longestLiteralAtom r).getD "") rx path)).filter (gateKind (isMatch path)) := by
  have hplan := @searchPlan_regexRequest query r case sort name isMatch rx env hre hrx
  obtain ⟨merged, hits, hhits, hhitsNodup, hmem, hfn, hct⟩ :=
    handleSearch_paths env hplan hsel rfl rfl
  have hfn := hfn fun db _ => coldKeeps_false _ db.docs
  refine ⟨hits, hhits, hhitsNodup, fun path => ?_⟩
  have hlook : hits.lookup path =
      (merged.lookup path).filter fun e => gateKind (isMatch path) e.2 := by
    refine Option.ext fun e => ?_
    rw [AssocMap.lookup_eq_some hhitsNodup, hmem, Option.filter_eq_some_iff]
    refine and_congr_right fun _ => ?_
    have hgate : passesAll env (regexRequest query r case sort name)
        (regexPlan query r case isMatch rx) (path, e) = gateKind (isMatch path) e.2 := by
      obtain ⟨lite, kind⟩ := e
      cases kind <;> simp [passesAll, passes, passesRegex, passesExpr, bfsExpr, regexRequest,
        regexPlan, gateKind]
    rw [hgate]
  have hkind := lookup_kind merged path
  have hmap : ((merged.lookup path).filter fun e => gateKind (isMatch path) e.2).map
      (fun e => e.2) = ((merged.lookup path).map fun e => e.2).filter (gateKind (isMatch path)) := by
    cases merged.lookup path with
    | none => rfl
    | some e =>
        rw [Option.map_some, Option.filter_some, Option.filter_some]
        split <;> rfl
  rw [hlook, hmap, hkind, hfn, hct]
  simp only [showsName_regex, findsContent_regex]
  rfl

/-- The reply to a regex request holds the paths that the regex matches, and those with a content
that it matches, each with its kind, exactly when the search for the atom is exact.  The two engines
are what the two constructors return for the pattern; for a regex without an atom the text to be
searched is empty, and every path and content is a candidate. -/
theorem regex_search_exact_iff {env : ConnEnv} {dbs : List Database}
    (hre : env.regexNew (regexPattern query r case) = .ok isMatch)
    (hrx : env.bytesRegexNew (regexPattern query r case) = .ok rx)
    (hsel : (regexRequest query r case sort name).Selects dbs) :
    (∃ frames, handleSearch env (dbs.map Database.entry) (regexRequest query r case sort name) =
        .ok (.ok frames) ∧
      ((frames.flatMap ResponseFrame.batchHits).map Prod.fst).Nodup ∧
      ∀ path, ((frames.flatMap ResponseFrame.batchHits).lookup path).map (fun e => e.2) =
        MatchKind.ofLayers
          (pathMatches (selectedDbs dbs (regexRequest query r case sort name)) isMatch path)
          (contentMatchesRegex (selectedDbs dbs (regexRequest query r case sort name)) rx path)) ↔
    RegexSearchExact (selectedDbs dbs (regexRequest query r case sort name))
      ((longestLiteralAtom r).getD "") isMatch rx := by
  obtain ⟨hits, hhits, hnodup, hkinds⟩ :=
    @regex_search_kinds query r case sort name isMatch rx env dbs
    hre hrx hsel
  generalize selectedDbs dbs (regexRequest query r case sort name) = sel at hkinds ⊢
  generalize (longestLiteralAtom r).getD "" = atom at hkinds ⊢
  have hat := fun path => @filter_gateKind_eq_iff (atomAcceptsPath sel atom path)
    (atomAcceptsContent sel atom rx path) (isMatch path) _ _ atomAcceptsContent_matches
    fun h => pathMatches_of_accepts h isMatch
  constructor
  · rintro ⟨frames, hframes, -, hexact⟩ path
    obtain rfl := Except.ok.inj (Except.ok.inj (hhits.symm.trans hframes))
    have hexact := hexact path
    rw [batchHits_pathFrames] at hexact
    exact (hat path).mp ((hkinds path).symm.trans hexact)
  · intro hexact
    refine ⟨pathFrames hits, hhits, ?_, fun path => ?_⟩
    · rw [batchHits_pathFrames]
      exact hnodup
    · rw [batchHits_pathFrames]
      exact (hkinds path).trans ((hat path).mpr (hexact path))

end Search

/-- Among a path, a changed file and a changed file of that name, `main` matches the first by its
path, the second by its content and the third by both. -/
theorem regex_search_exact_main :
    let files : List (String × LiteMeta) :=
      [("src/Main.rs", ⟨false, 10, 1⟩), ("a.txt", ⟨false, 3, 2⟩)]
    let recs : List WalRecord := [.upsert "b.txt" ⟨false, 7, 3⟩ (some (utf8 "fn Main")),
      .upsert "main.c" ⟨false, 4, 4⟩ (some (utf8 "main"))]
    let isMatch := fun path => termMatches false "main" path
    let rx : ByteRegex := ⟨fun c => containsSub (fold c) (utf8 "main"),
      fun c => memmemFindIter (fold c) (utf8 "main")⟩
    let env := ConnEnv.ofRegex (fun _ => .ok isMatch) fun _ => .ok rx
    ∃ bytes r, (DbBuilder.ofFiles files 0).finish .stored = .ok bytes ∧
      DbReader.open bytes = .ok r ∧ ∃ frames, handleSearch env
          [⟨"default", r.view .stored, [], ({} : Overlay).applyRecords recs⟩]
          (regexRequest "" "main" .smart .default none) = .ok (.ok frames) ∧
        ((frames.flatMap ResponseFrame.batchHits).map Prod.fst).Nodup ∧
        ["src/Main.rs", "b.txt", "main.c", "a.txt"].map (fun path =>
            ((frames.flatMap ResponseFrame.batchHits).lookup path).map fun e => e.2) =
          [some .filename, some .content, some .both, none] := by
  intro files recs isMatch rx env
  obtain ⟨bytes, r, hfinish, hopen, hindex⟩ := @DbBuilder.stored_indexes files (by decide +kernel)
  have hatom : (longestLiteralAtom "main").getD "" = "main" := by decide +kernel
  have hcompound : compound "main" = none := by decide +kernel
  have hcold : ∀ path, coldAccepts false "main" path = termMatches false "main" path := by
    intro path
    rw [coldAccepts, if_neg (by decide), hcompound]
  let db : Database := ⟨⟨"default", r.view .stored, [], ({} : Overlay).applyRecords recs⟩, files,
    [], recs, ⟨hindex, List.Forall₂.nil, rfl, by decide⟩⟩
  have hselected := @selectedDbs_of_none (regexRequest "" "main" .smart .default none) rfl [db]
  have hpaths : ∀ path, pathMatches [db] isMatch path = atomAcceptsPath [db] "main" path := by
    intro path
    simp [pathMatches, atomAcceptsPath, Database.anyPath, hcold, isMatch]
  -- without shards the contents are those of the records, which are verified by the regex alone
  have hcontents : ∀ path,
      contentMatchesRegex [db] rx path = atomAcceptsContent [db] "main" rx path := by
    intro path
    simp [contentMatchesRegex, atomAcceptsContent, Database.anyContent, db]
  have hexact : RegexSearchExact [db] "main" isMatch rx := by
    intro path
    rw [hpaths, hcontents]
    exact ⟨id, id, fun h _ => h⟩
  refine ⟨bytes, r, hfinish, hopen, ?_⟩
  obtain ⟨frames, hframes, hnodup, hkinds⟩ := (@regex_search_exact_iff "" "main" .smart .default
    none isMatch rx env [db] rfl rfl (selects_of_none rfl _)).mpr
      (by rw [hselected, hatom]; exact hexact)
  refine ⟨frames, hframes, hnodup, ?_⟩
  -- what the database holds of a path, by its documents and records
  have hpathsAt : ∀ path, pathMatches [db] isMatch path = (hotVersion recs path).elim
      (files.any fun f => decide (f.1 = path) && isMatch path)
      (fun v => v.isSome && isMatch path) := by
    intro path
    have hrecs : hotVersion db.recs path = hotVersion recs path := rfl
    rw [pathMatches, List.any_cons, List.any_nil, Bool.or_false, Database.anyPath, hrecs]
    obtain _ | _ | v := hotVersion recs path <;> rfl
  have hcontentsAt : ∀ path, contentMatchesRegex [db] rx path =
      ((hotVersion recs path).join.bind fun v => v.content.map rx.isMatch).getD false := by
    intro path
    have hrecs : hotVersion db.recs path = hotVersion recs path := rfl
    rw [contentMatchesRegex, List.any_cons, List.any_nil, Bool.or_false, Database.anyContent, hrecs]
    obtain _ | _ | v := hotVersion recs path <;> rfl
  simp only [List.map_cons, List.map_nil, hkinds, hselected, hpathsAt, hcontentsAt]
  decide +kernel

/-- A regex without a literal atom matches a path, but searches the index by an empty query,
which no path passes. -/
theorem regex_without_atom_loses_path :
    let files : List (String × LiteMeta) := [("a.txt", ⟨false, 3, 2⟩)]
    let isMatch := fun path : String => decide (path ≠ "")
    let rx : ByteRegex := ⟨fun c => decide (c ≠ []), fun c => List.range c.length⟩
    let env := ConnEnv.ofRegex (fun _ => .ok isMatch) fun _ => .ok rx
    ∃ bytes r, (DbBuilder.ofFiles files 0).finish .stored = .ok bytes ∧
      DbReader.open bytes = .ok r ∧
      handleSearch env [⟨"default", r.view .stored, [], {}⟩]
        (regexRequest "" "." .smart .default none) = .ok (.ok [.done 0]) ∧
      isMatch "a.txt" = true := by
  intro files isMatch rx env
  obtain ⟨bytes, r, hfinish, hopen, hindex⟩ := @DbBuilder.stored_indexes files (by decide +kernel)
  have hatom : (longestLiteralAtom ".").getD "" = "" := by decide +kernel
  refine ⟨bytes, r, hfinish, hopen, ?_, by decide⟩
  obtain ⟨hits, hhits, -, hkinds⟩ := @regex_search_kinds "" "." .smart .default none isMatch rx env
    [Database.ofDocs "default" hindex] rfl rfl (selects_of_none rfl _)
  have hnone : ∀ path, hits.lookup path = none := by
    intro path
    have haccepts : atomAcceptsPath [Database.ofDocs "default" hindex] "" path = false := by
      simp [atomAcceptsPath, Database.anyPath, Database.ofDocs, coldAccepts, hotVersion]
    have hcontents : atomAcceptsContent [Database.ofDocs "default" hindex] "" rx path = false := rfl
    have hkind := hkinds path
    rw [@selectedDbs_of_none (regexRequest "" "." .smart .default none) rfl, hatom, haccepts,
      hcontents] at hkind
    exact Option.map_eq_none_iff.mp hkind
  cases hits with
  | nil => exact hhits
  | cons h hits =>
      have hself := hnone h.1
      rw [AssocMap.lookup_cons, if_pos rfl] at hself
      cases hself

end DeepFinder
