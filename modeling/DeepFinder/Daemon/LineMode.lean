import DeepFinder.Core.DbRoundTrip
import DeepFinder.Daemon.Answers

/-!
# Line mode

Line mode gathers the matching lines of the selected databases in one list, and each overlay drops
what it shadows from all that was gathered so far: a database's lines survive its own overlay and
those of the databases selected after it.  `mem_searchLines` says which paths have a line in the
end.  How this compares with path mode is the subject of `Daemon/ModeAgreement.lean`.
-/

namespace DeepFinder

open ByteString

/-! ## The lines of a database -/

/-- Whether the content search finds a line of the path: in a shard, or in the overlay when the
records say something about it. -/
def Database.findsLine (db : Database) (q : LineQuery) (path : String) : Bool :=
  inScope path q.scope &&
    match hotVersion db.recs path with
    | none =>
        db.filess.any fun files => files.any fun f =>
          decide (f.path = path) && (q.findsFile files f.content && !(q.offsets f.content).isEmpty)
    | some none => false
    | some (some v) => (v.content.map fun c => !(q.offsets c).isEmpty).getD false

/-- The line hits of a slot of the overlay. -/
def Overlay.slotLines (o : Overlay) (q : LineQuery) (d : ℕ) : List LineHit :=
  match o.paths[d]? with
  | none => []
  | some path =>
      if path ∈ o.tombstones ∨ inScope path q.scope = false then []
      else ((o.content d).map (q.fileHits path)).getD []

/-- Without a limit, the loop over the slots gathers the hits of every one. -/
lemma overlayLineLoop_eq (o : Overlay) {q : LineQuery} (hlimit : q.limit = none) (ds : List ℕ)
    (out : List LineHit) :
    overlayLineLoop o q ds out = out ++ ds.flatMap (o.slotLines q) := by
  induction ds generalizing out with
  | nil => rw [overlayLineLoop, List.flatMap_nil, List.append_nil]
  | cons d ds ih =>
      have hroom : ¬ capReached none out.length = true := Bool.false_ne_true
      rw [overlayLineLoop, hlimit, if_neg hroom, List.flatMap_cons, Overlay.slotLines]
      cases o.paths[d]? with
      | none => rw [ih]; rfl
      | some path =>
          dsimp only
          split
          · rw [ih]; rfl
          · cases o.content d with
            | none => rw [ih]; rfl
            | some content =>
                dsimp only
                rw [ih, List.append_assoc]
                rfl

lemma LineQuery.exists_fileHits {q : LineQuery} {path p : String} {content : Bytes} :
    (∃ h ∈ q.fileHits path content, h.path = p) ↔
      path = p ∧ (!(q.offsets content).isEmpty) = true := by
  have hne : (!(q.offsets content).isEmpty) = true ↔ q.fileHits path content ≠ [] := by
    rw [LineQuery.fileHits_ne_nil]
    cases q.offsets content <;> simp
  rw [hne]
  constructor
  · rintro ⟨h, hmem, rfl⟩
    exact ⟨(LineQuery.path_of_mem_hitLoop hmem).symm, List.ne_nil_of_mem hmem⟩
  · rintro ⟨rfl, hnil⟩
    obtain ⟨h, hmem⟩ := List.exists_mem_of_ne_nil _ hnil
    exact ⟨h, hmem, LineQuery.path_of_mem_hitLoop hmem⟩

/-- The paths with a line in the overlay. -/
lemma Overlay.Inv.exists_overlayLineHits {o : Overlay} {known : Finset String} (h : o.Inv known)
    (hcard : known.card < 2 ^ 32) {q : LineQuery} (hlimit : q.limit = none) (p : String) :
    (∃ hit ∈ overlayLineHits o q, hit.path = p) ↔ inScope p q.scope = true ∧
      ∃ v c, o.version p = some (some v) ∧ v.content = some c ∧
        (!(q.offsets c).isEmpty) = true := by
  have hlen : o.len % 2 ^ 32 = o.paths.length := Nat.mod_eq_of_lt (h.length_paths_lt hcard)
  rw [overlayLineHits, overlayLineLoop_eq o hlimit, List.nil_append, hlen]
  simp only [List.mem_flatMap, List.mem_range]
  constructor
  · rintro ⟨hit, ⟨d, -, hhit⟩, rfl⟩
    unfold Overlay.slotLines at hhit
    cases hd : o.paths[d]? with
    | none => rw [hd] at hhit; cases hhit
    | some path =>
        rw [hd] at hhit
        dsimp only at hhit
        split at hhit
        · cases hhit
        · rename_i hlive
          rw [not_or, Bool.not_eq_false] at hlive
          obtain ⟨v, hv, -, hvc⟩ := h.live_of_slot hd hlive.1
          cases hc : o.content d with
          | none => rw [hc] at hhit; cases hhit
          | some c =>
              rw [hc] at hhit
              obtain ⟨hpath, hoffs⟩ := LineQuery.exists_fileHits.mp ⟨hit, hhit, rfl⟩
              have hcontent : v.content = some c := by
                rw [Overlay.content, hvc] at hc
                exact hc
              exact hpath ▸ ⟨hlive.2, v, c, hv, hcontent, hoffs⟩
  · rintro ⟨hscope, v, c, hv, hvc, hoffs⟩
    obtain ⟨d, hd, hlive, -, hcontent⟩ := h.version_eq_some.mp hv
    obtain ⟨hlt, -⟩ := List.getElem?_eq_some_iff.mp hd
    obtain ⟨hit, hhit, hpath⟩ := LineQuery.exists_fileHits.mpr ⟨(rfl : p = p), hoffs⟩
    refine ⟨hit, ⟨d, hlt, ?_⟩, hpath⟩
    unfold Overlay.slotLines
    rw [hd]
    dsimp only
    rw [if_neg (by simp [hlive, hscope]), Overlay.content, hcontent, hvc]
    exact hhit

/-- The paths with a line in a shard set. -/
lemma exists_queryLines {q : LineQuery} (hlimit : q.limit = none) {shards : List Bytes}
    {filess : List (List ShardFile)} (h : ShardSetIndexes shards filess) :
    ∃ lines, ContentShards.queryLines shards q = .ok lines ∧
      ∀ p, (∃ hit ∈ lines, hit.path = p) ↔ inScope p q.scope = true ∧
        (filess.any fun files => files.any fun f => decide (f.path = p) &&
          (q.findsFile files f.content && !(q.offsets f.content).isEmpty)) = true := by
  refine ⟨_, queryLines_eq h, fun p => ?_⟩
  simp only [List.mem_flatMap, LineQuery.keptFiles, LineQuery.foundFiles, hlimit, takeOpt,
    List.mem_filter, List.any_eq_true, LineQuery.findsFile, Bool.and_eq_true, decide_eq_true_eq]
  constructor
  · rintro ⟨hit, ⟨files, hfiles, f, ⟨⟨hf, hfound⟩, hverify, hscope⟩, hhit⟩, rfl⟩
    obtain ⟨hpath, hoffs⟩ := LineQuery.exists_fileHits.mp ⟨hit, hhit, rfl⟩
    exact ⟨hpath ▸ hscope, files, hfiles, f, hf, hpath, ⟨hfound, hverify⟩, hoffs⟩
  · rintro ⟨hscope, files, hfiles, f, hf, rfl, ⟨hfound, hverify⟩, hoffs⟩
    obtain ⟨hit, hhit, hpath⟩ := LineQuery.exists_fileHits.mpr ⟨(rfl : f.path = f.path), hoffs⟩
    exact ⟨hit, ⟨files, hfiles, f, ⟨⟨hf, hfound⟩, hverify, hscope⟩, hhit⟩, hpath⟩

lemma mem_dropShadowedLines {o : Overlay} {known : Finset String} (ho : o.Inv known)
    (lines : List LineHit) (hit : LineHit) :
    hit ∈ dropShadowedLines o lines ↔ hit ∈ lines ∧ o.version hit.path = none := by
  have hsuppress : (!o.suppresses hit.path) = true ↔ o.version hit.path = none := by
    rw [Bool.not_eq_true', ← Bool.not_eq_true, ho.suppresses_iff, not_not]
  unfold dropShadowedLines
  split
  · rw [List.mem_filter, hsuppress]
  · rename_i hnone
    have hall := ho.suppresses_eq_false (by simpa using hnone) hit.path
    exact (and_iff_left (hsuppress.mp (by rw [hall]; rfl))).symm

/-! ## The lines of many databases -/

/-- Whether the path has a line when every selected database has been searched: one of a database
that no later one shadows. -/
def hasLine (q : LineQuery) (path : String) : List Database → Bool
  | [] => false
  | db :: dbs =>
      (db.findsLine q path && dbs.all fun d => decide (hotVersion d.recs path = none)) ||
        hasLine q path dbs

/-- The paths with a line after a database: those of the lines gathered before that it does not
shadow, and its own. -/
lemma Database.exists_gathered (db : Database) {q : LineQuery} (hlimit : q.limit = none)
    {all cold : List LineHit}
    (hcold : ∀ p, (∃ hit ∈ cold, hit.path = p) ↔ inScope p q.scope = true ∧
      (db.filess.any fun files => files.any fun f => decide (f.path = p) &&
        (q.findsFile files f.content && !(q.offsets f.content).isEmpty)) = true) (p : String) :
    (∃ hit ∈ dropShadowedLines db.entry.overlay (all ++ cold) ++
        overlayLineHits db.entry.overlay q, hit.path = p) ↔
      ((∃ hit ∈ all, hit.path = p) ∧ hotVersion db.recs p = none) ∨ db.findsLine q p = true := by
  obtain ⟨hinv, hversion⟩ := db.inv
  have hsplit : (∃ hit ∈ dropShadowedLines db.entry.overlay (all ++ cold) ++
        overlayLineHits db.entry.overlay q, hit.path = p) ↔
      (((∃ hit ∈ all, hit.path = p) ∨ ∃ hit ∈ cold, hit.path = p) ∧
        hotVersion db.recs p = none) ∨
      ∃ hit ∈ overlayLineHits db.entry.overlay q, hit.path = p := by
    simp only [List.mem_append, mem_dropShadowedLines hinv, hversion]
    constructor
    · rintro ⟨hit, ⟨hall | hcold, hv⟩ | hhot, rfl⟩
      · exact Or.inl ⟨Or.inl ⟨hit, hall, rfl⟩, hv⟩
      · exact Or.inl ⟨Or.inr ⟨hit, hcold, rfl⟩, hv⟩
      · exact Or.inr ⟨hit, hhot, rfl⟩
    · rintro (⟨⟨hit, hall, rfl⟩ | ⟨hit, hcold, rfl⟩, hv⟩ | ⟨hit, hhot, rfl⟩)
      · exact ⟨hit, Or.inl ⟨Or.inl hall, hv⟩, rfl⟩
      · exact ⟨hit, Or.inl ⟨Or.inr hcold, hv⟩, rfl⟩
      · exact ⟨hit, Or.inr hhot, rfl⟩
  rw [hsplit, hinv.exists_overlayLineHits db.holds.paths_lt hlimit p, hcold p, hversion,
    Database.findsLine, Bool.and_eq_true]
  match hotVersion db.recs p with
  | none =>
      simp only [reduceCtorEq, false_and, exists_false, and_false, or_false, and_true]
  | some none => simp
  | some (some v) => cases hc : v.content <;> simp [hc]

/-- The paths with a line, after an unlimited search of the selected databases. -/
theorem mem_searchLines {q : LineQuery} (hlimit : q.limit = none) (dbs : List Database)
    (all : List LineHit) :
    ∃ lines, searchLines q (dbs.map Database.entry) all = .ok lines ∧
      ∀ p, (∃ hit ∈ lines, hit.path = p) ↔
        ((∃ hit ∈ all, hit.path = p) ∧ ∀ d ∈ dbs, hotVersion d.recs p = none) ∨
          hasLine q p dbs = true := by
  induction dbs generalizing all with
  | nil => exact ⟨all, rfl, by simp [hasLine]⟩
  | cons db dbs ih =>
      obtain ⟨hinv, hversion⟩ := db.inv
      obtain ⟨cold, hcold, hcoldAt⟩ := exists_queryLines hlimit db.holds.shards_index
      obtain ⟨lines, hlines, hmem⟩ := ih
        (dropShadowedLines db.entry.overlay (all ++ cold) ++ overlayLineHits db.entry.overlay q)
      refine ⟨lines, ?_, fun p => (hmem p).trans ?_⟩
      · rw [List.map_cons, searchLines, hcold]
        exact hlines
      · rw [db.exists_gathered hlimit hcoldAt, hasLine, Bool.or_eq_true, Bool.and_eq_true,
          List.all_eq_true]
        simp only [decide_eq_true_eq, List.mem_cons, forall_eq_or_imp]
        rw [or_and_right, and_assoc, or_assoc]

/-- The lines of a database that has changed files only. -/
lemma handleSearch_overlay_lines {env : ConnEnv} {req : SearchRequest} {plan : SearchPlan}
    (hplan : searchPlan env req = .ok plan) (hdb : req.db = none)
    (hmode : (req.opts.lineNumbers || req.opts.context.isSome) = true) (name : String)
    (index : FilenameDb) (o : Overlay) :
    handleSearch env [⟨name, index, [], o⟩] req =
      .ok (.ok (lineFrames (overlayLineHits o (lineQuery req plan)))) := by
  have hsome : req.db.isSome = true → selectedNames [⟨name, index, [], o⟩] req ≠ [] := by
    rw [hdb]
    exact fun h => nomatch h
  have hdrop : dropShadowedLines o [] = [] := by
    unfold dropShadowedLines
    split <;> rfl
  rw [handleSearch_selected hplan hsome, if_pos hmode, selectNamed_of_none hdb]
  change Except.ok (Except.ok (lineFrames (dropShadowedLines o [] ++
    overlayLineHits o (lineQuery req plan)))) = _
  rw [hdrop, List.nil_append]

end DeepFinder
