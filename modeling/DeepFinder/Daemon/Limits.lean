import DeepFinder.Daemon.LimitPaths
import Mathlib.Data.List.Flatten

/-!
# Limits

With a limit a search should return as many of its results as the limit allows (`LimitLaw`).  Only
the last cut does that: the layers are cut first, by documents and before they are filtered,
verified and merged.  `limit_law` says of which databases and requests the law holds:

- in line mode, when the documents within the limit have exactly as many lines as it allows, or
  fewer and then no document beyond it has a line to show (`LinesSpared`).  This is exact: line mode
  does not cut the lines it has gathered;
- in path mode, when no cut does harm (`PathsSpared` of `Daemon/LimitPaths.lean`).  This is enough.
-/

namespace DeepFinder

open ByteString

/-! ## The law -/

/-- The results under a limit of `n` are as many as all results allow, and among them. -/
def CutsTo {α : Type} (n : ℕ) (all cut : List α) : Prop :=
  cut.length = min n all.length ∧ ∀ a ∈ cut, a ∈ all

/-- Under a limit of `n` a search returns `n` of the results that it has without a limit, or all of
them when they are fewer. -/
def LimitLaw (env : ConnEnv) (o o' : MapOrder) (entries : List DbEntry) (req : SearchRequest)
    (n : ℕ) : Prop :=
  ∀ plan, searchPlan env req = .ok plan → ∃ all cut,
    handleSearch (env.ordered o) entries (req.limited none) = .ok (.ok all) ∧
    handleSearch (env.ordered o') entries (req.limited (some n)) = .ok (.ok cut) ∧
    CutsTo n (all.flatMap ResponseFrame.batchHits) (cut.flatMap ResponseFrame.batchHits) ∧
    CutsTo n (all.flatMap ResponseFrame.lineHits) (cut.flatMap ResponseFrame.lineHits)

lemma cutsTo_nil {α : Type} (n : ℕ) : CutsTo n ([] : List α) [] :=
  ⟨(Nat.min_zero n).symm, fun _ ha => ha⟩

/-- A prefix of hits of different paths obeys the law when it is among all of them, and there are
enough hits, or no path is missing. -/
lemma cutsTo_take {n : ℕ} {all kept : List Hit} (hall : (all.map Prod.fst).Nodup)
    (hkept : (kept.map Prod.fst).Nodup)
    (henough : n ≤ kept.length ∨ ∀ h ∈ all, h.1 ∈ kept.map Prod.fst)
    (hsub : ∀ h ∈ kept.take n, h ∈ all) : CutsTo n all (kept.take n) := by
  have hshort : ∀ {l m : List Hit}, (l.map Prod.fst).Nodup →
      (∀ h ∈ l, h.1 ∈ m.map Prod.fst) → l.length ≤ m.length := by
    intro l m hl hsub
    have hpaths : l.map Prod.fst ⊆ m.map Prod.fst := by
      intro p hp
      obtain ⟨h, hh, rfl⟩ := List.mem_map.mp hp
      exact hsub h hh
    have hlen := (hl.subperm hpaths).length_le
    rwa [List.length_map, List.length_map] at hlen
  have htake : (kept.take n).length ≤ all.length := by
    refine hshort (hkept.sublist ((List.take_sublist n kept).map Prod.fst)) fun h hh => ?_
    exact List.mem_map_of_mem (hsub h hh)
  refine ⟨?_, hsub⟩
  rw [List.length_take] at htake ⊢
  rcases henough with hn | hfull
  · omega
  · have := hshort hall hfull
    omega

/-! ## Paths -/

section Paths

variable {env : ConnEnv} {dbs : List Database} {req : SearchRequest} {plan : SearchPlan} {n : ℕ}

/-- A search in path mode replies with what the databases answer. -/
lemma handleSearch_answers (o : MapOrder) (hplan : searchPlan env req = .ok plan)
    (hsel : req.Selects dbs) (hmode : req.lineMode = false) {f : Database → ResultMap}
    (hf : ∀ db : Database, queryEntry (queryCtx req plan) db.entry (mergeCap req) = .ok (f db)) :
    handleSearch (env.ordered o) (dbs.map Database.entry) req =
      .ok (.ok (pathFrames (o.reply env req plan ((selectedDbs dbs req).map f)))) := by
  have hplan : searchPlan (env.ordered o) req = .ok plan := hplan
  have hpaths : ¬ (req.opts.lineNumbers || req.opts.context.isSome) = true :=
    Bool.eq_false_iff.mp hmode
  have hquery : (((selectedDbs dbs req).map Database.entry).mapM fun e =>
      queryEntry (queryCtx req plan) e (mergeCap req)) = .ok ((selectedDbs dbs req).map f) := by
    rw [List.mapM_map]
    exact mapM_eq_ok fun db _ => hf db
  rw [handleSearch_of_selects hplan hsel, if_neg hpaths, searchPaths, mergeEntries_ordered, hquery,
    bind_ok, pure_bind, foldl_mergeIn_nil]
  rfl

/-- The reply without a limit has every find that passes the filters. -/
lemma mem_reply_unlimited (o : MapOrder) (h : Hit) :
    h ∈ o.reply env (req.limited none) plan (foundMaps dbs req plan) ↔
      h ∈ filterHits env req plan (mergeAll (foundMaps dbs req plan).flatten) := by
  have hmerged : h ∈ o.merged none (foundMaps dbs req plan) ↔
      h ∈ mergeAll (foundMaps dbs req plan).flatten := by
    change h ∈ mergeAll (o.hits 1 (foundMaps dbs req plan)) ↔ _
    rw [← AssocMap.lookup_eq_some (nodup_mergeAll _), lookup_mergeAll nodup_foundMaps,
      AssocMap.lookup_eq_some (nodup_mergeAll _)]
  rw [MapOrder.reply, mergeCap_limited_none, mem_filterHits]
  change h ∈ sortEntries (filterHits env req plan _) _ ↔ _
  rw [(sortEntries_perm _ _).mem_iff, mem_filterHits, (o.order_perm 0 _).mem_iff, hmerged]

/-- In path mode the law holds when no cut does harm. -/
lemma cutsTo_paths (h : PathsSpared env dbs req plan n) (o o' : MapOrder) :
    CutsTo n (o.reply env (req.limited none) plan (foundMaps dbs req plan))
      (o'.reply env (req.limited (some n)) plan (keptMaps dbs req plan n)) := by
  have hall : ((o.reply env (req.limited none) plan (foundMaps dbs req plan)).map
      Prod.fst).Nodup :=
    ((sortEntries_perm _ _).map Prod.fst).nodup_iff.mpr (o.nodup_filterHits env req plan _ _)
  have hcut : o'.reply env (req.limited (some n)) plan (keptMaps dbs req plan n) =
      (keptHits env o' dbs req plan n).take n := rfl
  rw [hcut]
  refine cutsTo_take hall (nodup_keptHits o') ?_ fun hit hhit => ?_
  · have henough : n ≤ (keptHits env o' dbs req plan n).length ∨
        ∀ hit ∈ filterHits env req plan (mergeAll (foundMaps dbs req plan).flatten),
          hit.1 ∈ (keptHits env o' dbs req plan n).map Prod.fst := by
      -- the cap leaves room for all paths, or as many are kept as it allows
      rcases mergeCap_limited_some req n with hcap | hcap
      · exact h.enough_of_room (Or.inl hcap)
      · by_cases hroom : (∀ db ∈ dbs, ¬ db.Overfull req plan n) ∧
            (dbs.flatMap fun db => db.shownPaths req plan
              (db.within req plan n)).toFinset.card ≤ n
        · exact h.enough_of_room (Or.inr hroom)
        · exact Or.inl (h.enough_of_full hcap hroom)
    exact henough.imp id fun hall hit hhit => hall hit ((mem_reply_unlimited o hit).mp hhit)
  · obtain ⟨hmerged, hpass⟩ := mem_keptHits.mp (List.mem_of_mem_take hhit)
    refine (mem_reply_unlimited o hit).mpr (mem_filterHits.mpr ⟨?_, hpass⟩)
    exact (AssocMap.lookup_eq_some (nodup_mergeAll _)).mp (h.found_of_merged hmerged)

end Paths

/-! ## Lines -/

def LineQuery.limited (q : LineQuery) (limit : Option ℕ) : LineQuery := { q with limit := limit }

def lineCount (q : LineQuery) (docs : List (String × Bytes)) : ℕ :=
  (docs.map fun doc => (q.shownLines doc.1 doc.2).length).sum

/-- The documents of the shards that a limit of `n` cuts off: those in scope and verified behind
the first `n` candidates of each shard. -/
def Database.coldLost (db : Database) (q : LineQuery) (n : ℕ) : List (String × Bytes) :=
  db.filess.flatMap fun files => (((q.foundFiles files).drop n).filter fun f =>
    q.verifies f.content && inScope f.path q.scope).map fun f => (f.path, f.content)

def Database.hotLost (db : Database) (q : LineQuery) (n : ℕ) : List (String × Bytes) :=
  (db.hotDocs q).drop (docsUntil q n (db.hotDocs q)).length

/-- The documents that a limit of `n` cuts off and that would be shown without it. -/
def lostDocs (q : LineQuery) (n : ℕ) : List Database → List (String × Bytes)
  | [] => []
  | db :: dbs =>
      (((db.coldLost q n).filter fun d => !db.shadows d.1) ++ db.hotLost q n).filter
        (fun d => dbs.all fun e => !e.shadows d.1) ++ lostDocs q n dbs

/-- A limit of `n` does no harm in line mode: the documents within it have exactly `n` lines to
show, or fewer, and then no document beyond it has one. -/
def LinesSpared (q : LineQuery) (n : ℕ) (dbs : List Database) : Prop :=
  lineCount q (heldDocs (q.limited (some n)) dbs) = n ∨
    (lineCount q (heldDocs (q.limited (some n)) dbs) < n ∧
      ∀ doc ∈ lostDocs q n dbs, q.shownLines doc.1 doc.2 = [])

section Lines

variable {q : LineQuery} {n : ℕ}

lemma lineCount_append (docs docs' : List (String × Bytes)) :
    lineCount q (docs ++ docs') = lineCount q docs + lineCount q docs' := by
  rw [lineCount, List.map_append, List.sum_append]
  rfl

lemma length_flatMap_linesOf (limit : Option ℕ) (docs : List (String × Bytes)) :
    (docs.flatMap (q.limited limit).linesOf).length = lineCount q docs := by
  rw [List.length_flatMap, lineCount]
  refine congrArg List.sum (List.map_congr_left fun doc _ => ?_)
  rw [LineQuery.linesOf, List.length_map]
  rfl

lemma docsUntil_eq_take (n : ℕ) (docs : List (String × Bytes)) :
    docsUntil q n docs = docs.take (docsUntil q n docs).length := by
  induction docs generalizing n with
  | nil => rfl
  | cons doc docs ih =>
      rw [docsUntil]
      split
      · rfl
      · rw [List.length_cons, List.take_succ_cons, ← ih]

lemma docsUntil_limited (q : LineQuery) (limit : Option ℕ) (n : ℕ) (docs : List (String × Bytes)) :
    docsUntil (q.limited limit) n docs = docsUntil q n docs := by
  induction docs generalizing n with
  | nil => rfl
  | cons doc docs ih =>
      have hlines : (q.limited limit).linesOf doc = q.linesOf doc := rfl
      rw [docsUntil, docsUntil, hlines, ih]

lemma perm_append_middle {α : Type} (a b c d : List α) :
    ((a ++ b) ++ (c ++ d)).Perm ((a ++ c) ++ (b ++ d)) := by
  rw [List.append_assoc, List.append_assoc]
  exact (List.perm_append_comm_assoc b c d).append_left a

/-- What a limit leaves and what it cuts off are the documents without it, up to their order. -/
lemma perm_heldDocs (q : LineQuery) (n : ℕ) (dbs : List Database) :
    (heldDocs (q.limited (some n)) dbs ++ lostDocs q n dbs).Perm (heldDocs (q.limited none) dbs) := by
  induction dbs with
  | nil => exact List.Perm.refl _
  | cons db dbs ih =>
      have hcold : ((db.coldDocs (q.limited (some n))) ++ db.coldLost q n).Perm
          (db.coldDocs (q.limited none)) := by
        unfold Database.coldDocs Database.coldLost
        refine (List.flatMap_append_perm _ _ _).trans (List.Perm.of_eq ?_)
        refine List.flatMap_congr fun files _ => ?_
        change ((((q.foundFiles files).take n).filter _).map _) ++ _ =
          ((q.foundFiles files).filter _).map _
        conv_rhs => rw [← List.take_append_drop n (q.foundFiles files)]
        rw [List.filter_append, List.map_append]
        rfl
      have hhot : db.hotTaken (q.limited (some n)) ++ db.hotLost q n =
          db.hotTaken (q.limited none) := by
        change docsUntil (q.limited (some n)) n (db.hotDocs q) ++ db.hotLost q n = db.hotDocs q
        rw [docsUntil_limited, docsUntil_eq_take, Database.hotLost]
        exact List.take_append_drop _ _
      -- cold documents go with cold ones and hot with hot ones, and each part is filtered
      have hshown := hcold.filter fun d => !db.shadows d.1
      rw [List.filter_append] at hshown
      have hone := ((perm_append_middle _ _ _ _).trans
        (hshown.append (List.Perm.of_eq hhot))).filter
          fun d : String × Bytes => dbs.all fun e => !e.shadows d.1
      rw [List.filter_append] at hone
      exact (perm_append_middle _ _ _ _).trans (hone.append ih)

lemma lineCount_heldDocs (q : LineQuery) (n : ℕ) (dbs : List Database) :
    lineCount q (heldDocs (q.limited none) dbs) =
      lineCount q (heldDocs (q.limited (some n)) dbs) + lineCount q (lostDocs q n dbs) := by
  rw [← lineCount_append]
  exact ((perm_heldDocs q n dbs).map _).sum_eq.symm

lemma lineCount_eq_zero {docs : List (String × Bytes)} :
    lineCount q docs = 0 ↔ ∀ doc ∈ docs, q.shownLines doc.1 doc.2 = [] := by
  rw [lineCount, List.sum_eq_zero_iff, List.forall_mem_map]
  exact forall₂_congr fun doc _ => List.length_eq_zero_iff

/-- In line mode the law holds exactly when the documents within the limit have as many lines as it
allows, or all. -/
lemma cutsTo_lines_iff (q : LineQuery) (n : ℕ) (dbs : List Database) :
    CutsTo n (heldLines (q.limited none) dbs) (heldLines (q.limited (some n)) dbs) ↔
      LinesSpared q n dbs := by
  have hsub : ∀ hit ∈ heldLines (q.limited (some n)) dbs, hit ∈ heldLines (q.limited none) dbs := by
    intro hit hhit
    obtain ⟨doc, hdoc, hline⟩ := List.mem_flatMap.mp hhit
    exact List.mem_flatMap.mpr
      ⟨doc, (perm_heldDocs q n dbs).subset (List.mem_append_left _ hdoc), hline⟩
  rw [CutsTo, and_iff_left hsub, heldLines, heldLines, length_flatMap_linesOf,
    length_flatMap_linesOf, lineCount_heldDocs q n, LinesSpared, ← lineCount_eq_zero]
  omega

lemma linesSpared_nil (q : LineQuery) (n : ℕ) : LinesSpared q n [] :=
  (Nat.eq_zero_or_pos n).imp Eq.symm fun hn => ⟨hn, fun _ hdoc => absurd hdoc List.not_mem_nil⟩

end Lines

/-! ## Searches -/

/-- The request and the databases are such that a limit of `n` does no harm.  A regex that does not
compile is answered by an error under every limit, so that there is nothing to ask then. -/
def LimitSafe (env : ConnEnv) (dbs : List Database) (req : SearchRequest) (n : ℕ) : Prop :=
  ∀ plan, searchPlan env req = .ok plan →
    if req.lineMode then LinesSpared (lineQuery req plan) n (selectedDbs dbs req)
    else PathsSpared env (selectedDbs dbs req) req plan n

lemma exists_replies_iff {r r' : Res (Except String (List ResponseFrame))}
    {all cut : List ResponseFrame} (hall : r = .ok (.ok all)) (hcut : r' = .ok (.ok cut))
    {P : List ResponseFrame → List ResponseFrame → Prop} :
    (∃ a c, r = .ok (.ok a) ∧ r' = .ok (.ok c) ∧ P a c) ↔ P all cut := by
  constructor
  · rintro ⟨a, c, ha, hc, hP⟩
    obtain rfl := Except.ok.inj (Except.ok.inj (hall.symm.trans ha))
    obtain rfl := Except.ok.inj (Except.ok.inj (hcut.symm.trans hc))
    exact hP
  · exact fun hP => ⟨all, cut, hall, hcut, hP⟩

/-- Where the request and the databases are such that no cut does harm, a limit cuts the reply and
nothing else; in line mode only there.  In path mode a harmful cut can be made up for by another
layer that finds the same path, so that the condition is enough but not needed. -/
theorem limit_law (env : ConnEnv) (o o' : MapOrder) (dbs : List Database) (req : SearchRequest)
    (n : ℕ) :
    (LimitSafe env dbs req n → LimitLaw env o o' (dbs.map Database.entry) req n) ∧
      (req.lineMode = true → LimitLaw env o o' (dbs.map Database.entry) req n →
        LimitSafe env dbs req n) := by
  have hline : ∀ plan, searchPlan env req = .ok plan → req.Selects dbs → req.lineMode = true →
      ((∃ all cut,
        handleSearch (env.ordered o) (dbs.map Database.entry) (req.limited none) = .ok (.ok all) ∧
        handleSearch (env.ordered o') (dbs.map Database.entry) (req.limited (some n)) =
          .ok (.ok cut) ∧
        CutsTo n (all.flatMap ResponseFrame.batchHits) (cut.flatMap ResponseFrame.batchHits) ∧
        CutsTo n (all.flatMap ResponseFrame.lineHits) (cut.flatMap ResponseFrame.lineHits)) ↔
      LinesSpared (lineQuery req plan) n (selectedDbs dbs req)) := by
    intro plan hplan hsel hmode
    have hreply : ∀ (r : MapOrder) limit,
        handleSearch (env.ordered r) (dbs.map Database.entry) (req.limited limit) =
          .ok (.ok (lineFrames (heldLines ((lineQuery req plan).limited limit)
            (selectedDbs dbs req)))) := fun r limit =>
      @handleSearch_lines (env.ordered r) (req.limited limit) plan dbs hplan hsel hmode
    rw [exists_replies_iff (hreply o none) (hreply o' (some n)), lineHits_lineFrames,
      lineHits_lineFrames, batchHits_lineFrames, batchHits_lineFrames, and_iff_right (cutsTo_nil n),
      cutsTo_lines_iff]
  constructor
  · intro hsafe plan hplan
    have hsafe := hsafe plan hplan
    by_cases hsel : req.Selects dbs
    · cases hmode : req.lineMode with
      | true =>
          rw [hmode, if_pos rfl] at hsafe
          exact (hline plan hplan hsel hmode).mpr hsafe
      | false =>
          rw [hmode, if_neg Bool.false_ne_true] at hsafe
          have hall := @handleSearch_answers env dbs (req.limited none) plan o hplan hsel hmode
            (fun db => db.answer req plan none (db.layerFinds req plan)) fun db => by
              rw [mergeCap_limited_none]
              exact db.queryEntry_unlimited req plan none
          have hcut := @handleSearch_answers env dbs (req.limited (some n)) plan o' hplan hsel hmode
            _ fun db => db.queryEntry_limited req plan n (mergeCap (req.limited (some n)))
          refine ⟨_, _, hall, hcut, ?_⟩
          rw [batchHits_pathFrames, batchHits_pathFrames, lineHits_pathFrames, lineHits_pathFrames]
          exact ⟨cutsTo_paths hsafe o o', cutsTo_nil n⟩
    · -- an unknown name is answered by an error, and selects nothing
      have herror : ∀ (r : MapOrder) limit, ∃ message,
          handleSearch (env.ordered r) (dbs.map Database.entry) (req.limited limit) =
            .ok (.ok [.error message]) := by
        intro r limit
        obtain ⟨message, hmessage, -⟩ := @handleSearch_of_not_selects (env.ordered r)
          (req.limited limit) plan dbs hplan hsel
        exact ⟨message, hmessage⟩
      obtain ⟨message, hall⟩ := herror o none
      obtain ⟨message', hcut⟩ := herror o' (some n)
      exact ⟨_, _, hall, hcut, cutsTo_nil n, cutsTo_nil n⟩
  · intro hmode hlaw plan hplan
    rw [hmode, if_pos rfl]
    by_cases hsel : req.Selects dbs
    · exact (hline plan hplan hsel hmode).mp (hlaw plan hplan)
    · obtain ⟨-, -, hnone⟩ := handleSearch_of_not_selects hplan hsel
      rw [hnone]
      exact linesSpared_nil _ n

/-- Of two file names with an `x` a limit of one returns one. -/
theorem limit_law_two_names :
    ∃ src r, (DbBuilder.ofFiles [("/d/x", ⟨false, 1, 0⟩), ("/d/xy", ⟨false, 1, 0⟩)] 0).finish
        .stored = .ok src ∧ DbReader.open src = .ok r ∧
      ∀ o o', LimitLaw plainEnv o o' [⟨"default", r.view .stored, [], {}⟩] namesWithX 1 := by
  obtain ⟨src, r, hfinish, hopen, hindex⟩ := @DbBuilder.stored_indexes
    [("/d/x", ⟨false, 1, 0⟩), ("/d/xy", ⟨false, 1, 0⟩)] (by decide +kernel)
  refine ⟨src, r, hfinish, hopen, fun o o' => (limit_law plainEnv o o'
    [Database.ofDocs "default" hindex] namesWithX 1).1 fun plan hplan => ?_⟩
  obtain rfl : twoPathsPlan = plan := Except.ok.inj hplan
  generalize hdb : Database.ofDocs "default" hindex = db
  have hfinds : db.layerFinds namesWithX twoPathsPlan =
      ⟨[("/d/x", ⟨false, 1, 0⟩), ("/d/xy", ⟨false, 1, 0⟩)], [], [], []⟩ := by
    have hfn := (db.holds.queryEntry_finds (queryCtx namesWithX twoPathsPlan)).1.fn_eq
      (coldKeeps_false "x" _)
    subst hdb
    have hboth : [("/d/x", ⟨false, 1, 0⟩), ("/d/xy", ⟨false, 1, 0⟩)].filter
        (fun f : String × LiteMeta => coldAccepts false "x" f.1) =
          [("/d/x", ⟨false, 1, 0⟩), ("/d/xy", ⟨false, 1, 0⟩)] := by
      decide +kernel
    exact congrArg (fun fn => (⟨fn, [], [], []⟩ : Finds)) (hfn.trans hboth)
  -- the first is within the limit, the second beyond it
  have hshadows : ∀ p, db.shadows p = false := by
    intro p
    subst hdb
    rfl
  have hkeeps : ∀ ps : List String, ps.filter (fun p => !db.shadows p) = ps := by
    intro ps
    refine List.filter_eq_self.mpr fun p _ => ?_
    rw [hshadows]
    rfl
  have hwithin : db.shownPaths namesWithX twoPathsPlan (db.within namesWithX twoPathsPlan 1) =
      ["/d/x"] := by
    rw [Database.shownPaths, hkeeps, Database.within, hfinds]
    decide +kernel
  have hcold : (db.within namesWithX twoPathsPlan 1).coldPaths namesWithX twoPathsPlan =
      ["/d/x"] := by
    rw [Database.within, hfinds]
    decide +kernel
  have hbeyond : db.shownPaths namesWithX twoPathsPlan (db.beyond namesWithX twoPathsPlan 1) =
      ["/d/xy"] := by
    rw [Database.shownPaths, hkeeps, Database.beyond, hfinds]
    decide +kernel
  have hpasses : PathPasses plainEnv [db] namesWithX twoPathsPlan "/d/x" :=
    ⟨by decide +kernel, fun isMatch h => absurd h (Option.some_ne_none isMatch).symm,
      fun _ _ _ _ _ => rfl⟩
  have hmode : namesWithX.lineMode = false := rfl
  rw [hmode, if_neg Bool.false_ne_true, selectedDbs_of_none rfl]
  refine ⟨?_, Or.inr ⟨{"/d/x"}, le_rfl, ?_⟩, Or.inr (Or.inl ⟨?_, ?_⟩)⟩
  · intro e he e' he'
    obtain rfl := List.mem_singleton.mp he
    obtain rfl := List.mem_singleton.mp he'
    rw [hwithin, hbeyond]
    exact List.disjoint_singleton.mpr (by decide)
  · intro p hp
    obtain rfl := Finset.mem_singleton.mp hp
    refine ⟨hpasses, db, List.mem_singleton_self db, ?_⟩
    rw [hwithin]
    exact List.mem_singleton_self _
  · intro e he
    obtain rfl := List.mem_singleton.mp he
    rw [Database.Overfull, hcold, hwithin]
    decide
  · rw [List.flatMap_singleton, hwithin]
    decide

/-! ## What the early cuts do -/

/-- The lines with an `a`, of all contents. -/
def allLinesWithA : SearchRequest where
  query := "a"
  opts := { case := .sensitive, lineNumbers := true }

/-- Two lines with an `a`. -/
def twoLines : WalRecord := .upsert "/t" ⟨false, 4, 0⟩ (some (utf8 "a\na\n"))

section Examples

variable {view : FilenameDb}

lemma MapOrder.order_nil (o : MapOrder) (i : ℕ) : o.order i [] = [] := (o.order_perm i []).eq_nil

lemma MapOrder.order_singleton (o : MapOrder) (i : ℕ) (h : Hit) : o.order i [h] = [h] :=
  List.perm_singleton.mp (o.order_perm i [h])

/-- The reply about the lines of a file that has changed. -/
lemma handleSearch_twoLines (o : MapOrder) {limit : Option ℕ} (hlimit : limit ∈ [none, some 1]) :
    handleSearch (plainEnv.ordered o)
        [⟨"default", view, [], ({} : Overlay).applyRecords [twoLines]⟩]
        (allLinesWithA.limited limit) =
      .ok (.ok (lineFrames [⟨"/t", 1, "a"⟩, ⟨"/t", 2, "a"⟩])) := by
  have hplan : searchPlan (plainEnv.ordered o) (allLinesWithA.limited limit) =
      .ok ⟨true, none, none, "a", true, fold (utf8 (toLowercase "a"))⟩ := rfl
  have hhits : ∀ limit ∈ [none, some 1], overlayLineHits (({} : Overlay).applyRecords [twoLines])
      ⟨fold (utf8 (toLowercase "a")), utf8 "a", true, none, none, limit, none⟩ =
        [⟨"/t", 1, "a"⟩, ⟨"/t", 2, "a"⟩] := by
    decide +kernel
  rw [handleSearch_overlay_lines hplan rfl rfl]
  exact congrArg (fun hits => Except.ok (Except.ok (lineFrames hits))) (hhits limit hlimit)

/-- A limit of one loses the only file whose name has an `x`, behind a path that has one elsewhere;
and it returns both lines of a file. -/
theorem limit_cuts_documents :
    ∃ src r, (DbBuilder.ofFiles [("/x/a", ⟨false, 1, 0⟩), ("/x/x", ⟨false, 1, 0⟩)] 0).finish
        .stored = .ok src ∧ DbReader.open src = .ok r ∧
      (∀ o : MapOrder, handleSearch (plainEnv.ordered o) [⟨"default", r.view .stored, [], {}⟩]
          (namesWithX.limited none) = .ok (.ok (pathFrames [nameHit "/x/x"])) ∧
        handleSearch (plainEnv.ordered o) [⟨"default", r.view .stored, [], {}⟩]
          (namesWithX.limited (some 1)) = .ok (.ok (pathFrames []))) ∧
      (∀ o : MapOrder, ∀ limit ∈ [none, some 1], handleSearch (plainEnv.ordered o)
          [⟨"default", r.view .stored, [], ({} : Overlay).applyRecords [twoLines]⟩]
          (allLinesWithA.limited limit) =
        .ok (.ok (lineFrames [⟨"/t", 1, "a"⟩, ⟨"/t", 2, "a"⟩]))) ∧
      (∀ o o', ¬ LimitLaw plainEnv o o' [⟨"default", r.view .stored, [], {}⟩] namesWithX 1) ∧
      ∀ o o', ¬ LimitLaw plainEnv o o'
        [⟨"default", r.view .stored, [], ({} : Overlay).applyRecords [twoLines]⟩]
        allLinesWithA 1 := by
  obtain ⟨src, r, hfinish, hopen, hindex⟩ := @DbBuilder.stored_indexes
    [("/x/a", ⟨false, 1, 0⟩), ("/x/x", ⟨false, 1, 0⟩)] (by decide +kernel)
  have hnone : ∀ o : MapOrder, handleSearch (plainEnv.ordered o)
      [⟨"default", r.view .stored, [], {}⟩] (namesWithX.limited none) =
        .ok (.ok (pathFrames [nameHit "/x/x"])) := by
    intro o
    have hfound : (filenameHits (queryCtx namesWithX twoPathsPlan)
        [("/x/a", ⟨false, 1, 0⟩), ("/x/x", ⟨false, 1, 0⟩)] (takeOpt none
          (docsWhere [("/x/a", ⟨false, 1, 0⟩), ("/x/x", ⟨false, 1, 0⟩)]
            (coldAccepts false "x")))).foldl (mergeIn none) [] = [nameHit "/x/x"] := by
      decide +kernel
    have hmerged : o.merged none [[nameHit "/x/x"]] = [nameHit "/x/x"] := by
      rw [MapOrder.merged, MapOrder.hits, MapOrder.hits, o.order_singleton]
      rfl
    have hpass : filterHits plainEnv (namesWithX.limited none) twoPathsPlan [nameHit "/x/x"] =
        [nameHit "/x/x"] := by
      decide +kernel
    refine (handleSearch_namesWithX hindex o none).trans ?_
    have hreq : ({ namesWithX with limit := none } : SearchRequest) = namesWithX.limited none := rfl
    rw [hfound, hreq, MapOrder.reply, mergeCap_limited_none, hmerged, o.order_singleton, hpass,
      List.perm_singleton.mp (sortEntries_perm [nameHit "/x/x"] _)]
    rfl
  have hone : ∀ o : MapOrder, handleSearch (plainEnv.ordered o)
      [⟨"default", r.view .stored, [], {}⟩] (namesWithX.limited (some 1)) =
        .ok (.ok (pathFrames [])) := by
    intro o
    have hfound : (filenameHits (queryCtx namesWithX twoPathsPlan)
        [("/x/a", ⟨false, 1, 0⟩), ("/x/x", ⟨false, 1, 0⟩)] (takeOpt (some 1)
          (docsWhere [("/x/a", ⟨false, 1, 0⟩), ("/x/x", ⟨false, 1, 0⟩)]
            (coldAccepts false "x")))).foldl (mergeIn (some 1)) [] = [] := by
      decide +kernel
    have hmerged : o.merged (some 1) [[]] = [] := by
      rw [MapOrder.merged, MapOrder.hits, MapOrder.hits, o.order_nil]
      rfl
    have hcap : mergeCap (namesWithX.limited (some 1)) = some 1 := rfl
    have hpass : filterHits plainEnv (namesWithX.limited (some 1)) twoPathsPlan [] = [] := rfl
    refine (handleSearch_namesWithX hindex o (some 1)).trans ?_
    have hreq : ({ namesWithX with limit := some 1 } : SearchRequest) = namesWithX.limited (some 1) :=
      rfl
    rw [hfound, hreq, MapOrder.reply, hcap, hmerged, o.order_nil, hpass,
      (sortEntries_perm [] _).eq_nil]
    rfl
  refine ⟨src, r, hfinish, hopen, fun o => ⟨hnone o, hone o⟩,
    fun o limit hlimit => handleSearch_twoLines o hlimit, fun o o' hlaw => ?_, fun o o' hlaw => ?_⟩
  · obtain ⟨all, cut, hall, hcut, ⟨hlen, -⟩, -⟩ := hlaw twoPathsPlan rfl
    obtain rfl := Except.ok.inj (Except.ok.inj ((hnone o).symm.trans hall))
    obtain rfl := Except.ok.inj (Except.ok.inj ((hone o').symm.trans hcut))
    rw [batchHits_pathFrames, batchHits_pathFrames] at hlen
    cases hlen
  · obtain ⟨all, cut, hall, hcut, -, ⟨hlen, -⟩⟩ := hlaw
      ⟨true, none, none, "a", true, fold (utf8 (toLowercase "a"))⟩ rfl
    have hreply := fun o => @handleSearch_twoLines (r.view .stored) o
    obtain rfl := Except.ok.inj (Except.ok.inj ((hreply o (by simp)).symm.trans hall))
    obtain rfl := Except.ok.inj (Except.ok.inj ((hreply o' (by simp)).symm.trans hcut))
    rw [lineHits_lineFrames] at hlen
    cases hlen

end Examples

end DeepFinder
