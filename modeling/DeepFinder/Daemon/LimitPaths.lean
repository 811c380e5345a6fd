import DeepFinder.Daemon.LimitCuts

/-!
# Limits in path mode

What a request and the databases must be like for a limit to do no harm in path mode
(`PathsSpared`):

- no path that a database shows within the limit is shown beyond it by a layer of any database: its
  kind and metadata would be those of a part of its finds;
- nothing is shown beyond the limit, or at least as many paths as the limit allows are shown within
  it and pass the filters;
- when the merge has a cap, it leaves room for all paths, or every path passes the filters, no
  shadowed path has taken the place of another for nothing, and a database with more paths than the
  cap allows shares none with the others.

The condition is enough (`cutsTo_paths`).  It is not needed in every case: what the cuts lose can be
made up for by another layer or database, and a path whose finds are cut apart may stand behind the
first `n` results.  The iteration order of hash maps has a part in both.
-/

namespace DeepFinder

/-! ## Filters -/

/-- The hits that a database shows when its layers find this. -/
def Database.shownHits (db : Database) (req : SearchRequest) (plan : SearchPlan) (finds : Finds) :
    List Hit :=
  finds.hot (freeCtx req plan) ++ (finds.cold (freeCtx req plan)).filter fun h => !db.shadows h.1

/-- The path passes the filters: its path filters, the regex by its path or by a content that
matches, and `--expr` with the metadata of each of its hits. -/
structure PathPasses (env : ConnEnv) (dbs : List Database) (req : SearchRequest)
    (plan : SearchPlan) (path : String) : Prop where
  path_filters : passes path req.opts = true
  regex : ∀ isMatch, plan.re = some isMatch → isMatch path = true ∨
    ∃ db ∈ dbs, ∃ h ∈ db.shownHits req plan (db.layerFinds req plan),
      h.1 = path ∧ h.2.2 = .content
  expr : ∀ db ∈ dbs, ∀ h ∈ db.shownHits req plan (db.layerFinds req plan), h.1 = path →
    passesExpr env (bfsExpr req) h = true

def foundMaps (dbs : List Database) (req : SearchRequest) (plan : SearchPlan) : List ResultMap :=
  dbs.map fun db => db.answer req plan none (db.layerFinds req plan)

section Filters

variable {env : ConnEnv} {dbs : List Database} {req : SearchRequest} {plan : SearchPlan}

lemma nodup_foundMaps : ∀ per ∈ foundMaps dbs req plan, (per.map Prod.fst).Nodup := by
  intro per hper
  obtain ⟨db, -, rfl⟩ := List.mem_map.mp hper
  exact nodup_answerOf _ _ _

lemma exists_hit_of_mem_mergeAll {hits : List Hit} {e : Hit} (he : e ∈ mergeAll hits) :
    ∃ h ∈ hits, h.1 = e.1 ∧ h.2.1 = e.2.1 := by
  rw [mergeAll_eq] at he
  refine AssocMap.forall_putAll (P := fun e => ∃ h ∈ hits, h.1 = e.1 ∧ h.2.1 = e.2.1)
    (fun e he => absurd he List.not_mem_nil) (fun u hu v hv => ?_) e he
  obtain ⟨h, hh, rfl⟩ := List.mem_map.mp hu
  cases v with
  | none => exact ⟨h, hh, rfl, rfl⟩
  | some w => exact hv w rfl

/-- The metadata of an answer is that of a hit that the database shows. -/
lemma Database.exists_shownHit {db : Database} {finds : Finds} {e : Hit}
    (he : e ∈ db.answer req plan none finds) :
    ∃ h ∈ db.shownHits req plan finds, h.1 = e.1 ∧ h.2.1 = e.2.1 := by
  rw [Database.answer, answerOf_eq] at he
  refine AssocMap.forall_putAll
    (P := fun e => ∃ h ∈ db.shownHits req plan finds, h.1 = e.1 ∧ h.2.1 = e.2.1)
    (fun e he => ?_) (fun u hu v hv => ?_) e he
  · have hcold := dropShadowed_subset _ _ he
    obtain ⟨h, hh, hpath, hlite⟩ := exists_hit_of_mem_mergeAll hcold
    have hkey := (mem_map_fst_dropShadowed db.inv.1 _).mp (List.mem_map_of_mem (f := Prod.fst) he)
    have hshadows := (db.version_eq_none e.1).mp hkey.2
    refine ⟨h, List.mem_append_right _ (List.mem_filter.mpr ⟨hh, ?_⟩), hpath, hlite⟩
    rw [hpath, hshadows]
    rfl
  · obtain ⟨h, hh, rfl⟩ := List.mem_map.mp hu
    refine ⟨h, List.mem_append_left _ hh, rfl, ?_⟩
    cases v <;> rfl

/-- A content hit that a database shows is part of the merged kind. -/
lemma reports_content_of_shown {db : Database} (hdb : db ∈ dbs) {h : Hit}
    (hh : h ∈ db.shownHits req plan (db.layerFinds req plan)) (hkind : h.2.2 = .content) :
    reports MatchKind.hasContent (mergeAll (foundMaps dbs req plan).flatten) h.1 = true := by
  have hflag : (decide (h.1 = h.1) && MatchKind.hasContent h.2.2) = true := by
    rw [hkind]
    simp [MatchKind.hasContent]
  have hanswer : reports MatchKind.hasContent
      (db.answer req plan none (db.layerFinds req plan)) h.1 = true := by
    rw [Database.answer, reports_answerOf additive_hasContent db.inv.1, Bool.or_eq_true,
      Bool.and_eq_true, decide_eq_true_eq]
    rcases List.mem_append.mp hh with hhot | hcold
    · exact Or.inr (List.any_eq_true.mpr ⟨h, hhot, hflag⟩)
    · obtain ⟨hcold, hshadows⟩ := List.mem_filter.mp hcold
      exact Or.inl ⟨(db.version_eq_none h.1).mpr (by simpa using hshadows),
        List.any_eq_true.mpr ⟨h, hcold, hflag⟩⟩
  have hnodup : ((db.answer req plan none (db.layerFinds req plan)).map Prod.fst).Nodup :=
    nodup_answerOf _ _ _
  rw [reports_eq_anyHit _ hnodup] at hanswer
  obtain ⟨e, he, hmatch⟩ := List.any_eq_true.mp hanswer
  rw [mergeAll, reports_foldl_mergeIn additive_hasContent, Bool.or_eq_true]
  refine Or.inr (List.any_eq_true.mpr ⟨e, List.mem_flatten.mpr ⟨_, ?_, he⟩, hmatch⟩)
  exact List.mem_map_of_mem (f := fun db : Database =>
    db.answer req plan none (db.layerFinds req plan)) hdb

/-- What is found of a path that passes the filters passes them. -/
lemma PathPasses.passesAll {h : Hit} (hpass : PathPasses env dbs req plan h.1)
    (hfound : (mergeAll (foundMaps dbs req plan).flatten).lookup h.1 = some h.2) :
    passesAll env req plan h = true := by
  obtain ⟨e, he, hpath, hlite⟩ := exists_hit_of_mem_mergeAll
    (AssocMap.mem_of_lookup hfound : (h.1, h.2) ∈ _)
  obtain ⟨per, hper, he⟩ := List.mem_flatten.mp he
  obtain ⟨db, hdb, rfl⟩ := List.mem_map.mp hper
  obtain ⟨x, hx, hxpath, hxlite⟩ := Database.exists_shownHit he
  have hexpr : passesExpr env (bfsExpr req) h = true := by
    have hx := hpass.expr db hdb x hx (hxpath.trans hpath)
    have hsame : x.1 = h.1 ∧ x.2.1 = h.2.1 := ⟨hxpath.trans hpath, hxlite.trans hlite⟩
    unfold passesExpr at hx ⊢
    rwa [hsame.1, hsame.2] at hx
  have hregex : passesRegex plan.re h = true := by
    obtain ⟨path, lite, kind⟩ := h
    cases hre : plan.re with
    | none => cases kind <;> rfl
    | some isMatch =>
        rcases hpass.regex isMatch hre with hmatch | ⟨db, hdb, y, hy, rfl, hkind⟩
        · cases kind
          · exact hmatch
          · rfl
          · rfl
        · have hreports := reports_content_of_shown hdb hy hkind
          rw [reports, hfound] at hreports
          cases kind
          · cases hreports
          · rfl
          · rfl
  rw [DeepFinder.passesAll, hpass.path_filters, hregex, hexpr]
  rfl

end Filters

/-! ## The condition -/

/-- The cap on the merge does no harm. -/
def CapSpared (env : ConnEnv) (dbs : List Database) (req : SearchRequest) (plan : SearchPlan)
    (n : ℕ) : Prop :=
  ((∀ db ∈ dbs, ¬ db.Overfull req plan n) ∧
    (dbs.flatMap fun db => db.shownPaths req plan (db.within req plan n)).toFinset.card ≤ n) ∨
  ((∀ db ∈ dbs, db.Refills req plan n ∧
      ∀ p ∈ db.shownPaths req plan (db.within req plan n), PathPasses env dbs req plan p) ∧
    dbs.Pairwise fun db db' => db.Overfull req plan n ∨ db'.Overfull req plan n →
      List.Disjoint (db.shownPaths req plan (db.within req plan n))
        (db'.shownPaths req plan (db'.within req plan n)))

/-- A limit of `n` does no harm to a search of these databases in path mode. -/
structure PathsSpared (env : ConnEnv) (dbs : List Database) (req : SearchRequest)
    (plan : SearchPlan) (n : ℕ) : Prop where
  /-- the finds of a path are not cut apart -/
  whole : ∀ db ∈ dbs, ∀ db' ∈ dbs, List.Disjoint (db.shownPaths req plan (db.within req plan n))
    (db'.shownPaths req plan (db'.beyond req plan n))
  /-- nothing is lost, or enough is left -/
  enough : (∀ db ∈ dbs, db.shownPaths req plan (db.beyond req plan n) = []) ∨
    ∃ paths : Finset String, n ≤ paths.card ∧ ∀ p ∈ paths, PathPasses env dbs req plan p ∧
      ∃ db ∈ dbs, p ∈ db.shownPaths req plan (db.within req plan n)
  cap : mergeCap (req.limited (some n)) = none ∨ CapSpared env dbs req plan n

/-! ## What is kept -/

/-- What the selected databases answer under a limit of `n`. -/
def keptMaps (dbs : List Database) (req : SearchRequest) (plan : SearchPlan) (n : ℕ) :
    List ResultMap :=
  dbs.map fun db => db.answer req plan (mergeCap (req.limited (some n))) (db.within req plan n)

/-- The answers that pass the filters under a limit of `n`, in the order of the request. -/
def keptHits (env : ConnEnv) (o : MapOrder) (dbs : List Database) (req : SearchRequest)
    (plan : SearchPlan) (n : ℕ) : List Hit :=
  sortEntries (filterHits env req plan (o.order 0
    (o.merged (mergeCap (req.limited (some n))) (keptMaps dbs req plan n)))) req.opts.sort

section Kept

variable {env : ConnEnv} {dbs : List Database} {req : SearchRequest} {plan : SearchPlan} {n : ℕ}
  {x : String}

lemma mem_pathsOf_map {f : Database → ResultMap} :
    x ∈ pathsOf (dbs.map f) ↔ ∃ db ∈ dbs, x ∈ (f db).map Prod.fst := by
  rw [pathsOf, List.mem_toFinset, List.map_flatten, List.map_map, List.mem_flatten]
  simp only [List.mem_map, Function.comp_apply, exists_exists_and_eq_and]

lemma mergeCap_limited_none (req : SearchRequest) : mergeCap (req.limited none) = none := by
  unfold mergeCap
  exact ite_self _

lemma mergeCap_limited_some (req : SearchRequest) (n : ℕ) :
    mergeCap (req.limited (some n)) = none ∨ mergeCap (req.limited (some n)) = some n := by
  unfold mergeCap
  split
  · exact Or.inr rfl
  · exact Or.inl rfl

lemma nodup_answer (db : Database) (cap : Option ℕ) (finds : Finds) :
    ((db.answer req plan cap finds).map Prod.fst).Nodup := by
  have hnil : (([] : ResultMap).map Prod.fst).Nodup := List.nodup_nil
  refine nodup_foldl_overrideIn cap ?_
  unfold dropShadowed
  split
  · exact AssocMap.nodup_filter (nodup_foldl_mergeIn cap hnil) _
  · exact nodup_foldl_mergeIn cap hnil

lemma nodup_keptMaps : ∀ per ∈ keptMaps dbs req plan n, (per.map Prod.fst).Nodup := by
  intro per hper
  obtain ⟨db, -, rfl⟩ := List.mem_map.mp hper
  exact nodup_answer db _ _

/-- Merging maps that say the same of a path. -/
lemma lookup_mergeAll_congr {f g : Database → ResultMap}
    (hf : ∀ db, ((f db).map Prod.fst).Nodup) (hg : ∀ db, ((g db).map Prod.fst).Nodup)
    (h : ∀ db ∈ dbs, (f db).lookup x = (g db).lookup x) :
    (mergeAll (dbs.map f).flatten).lookup x = (mergeAll (dbs.map g).flatten).lookup x := by
  suffices hstart : ∀ m m' : ResultMap, m.lookup x = m'.lookup x →
      ((dbs.map f).flatten.foldl (mergeIn none) m).lookup x =
        ((dbs.map g).flatten.foldl (mergeIn none) m').lookup x from hstart [] [] rfl
  induction dbs with
  | nil => exact fun m m' hm => hm
  | cons db dbs ih =>
      intro m m' hm
      rw [List.map_cons, List.map_cons, List.flatten_cons, List.flatten_cons, List.foldl_append,
        List.foldl_append]
      refine ih (fun d hd => h d (List.mem_cons_of_mem _ hd)) _ _ ?_
      rw [lookup_foldl_mergeIn (hf db), lookup_foldl_mergeIn (hg db),
        h db (List.mem_cons_self ..), hm]

/-- A cap of the merge that leaves room for what a database shows leaves its answer as it is. -/
lemma answer_kept_of_room {db : Database} (hroom : mergeCap (req.limited (some n)) = none ∨
    ¬ db.Overfull req plan n) :
    db.answer req plan (mergeCap (req.limited (some n))) (db.within req plan n) =
      db.answer req plan none (db.within req plan n) := by
  rcases mergeCap_limited_some req n with hcap | hcap
  · rw [hcap]
  · rw [hcap]
    refine Database.answer_of_room (hroom.resolve_left fun hnone => ?_)
    cases hcap.symm.trans hnone

lemma mem_shownPaths_of_kept {db : Database} {cap : Option ℕ}
    (h : x ∈ (db.answer req plan cap (db.within req plan n)).map Prod.fst) :
    x ∈ db.shownPaths req plan (db.within req plan n) := by
  rw [← db.mem_answer]
  obtain ⟨e, he, rfl⟩ := List.mem_map.mp h
  have hlook := AssocMap.lookup_of_mem (nodup_answer db cap _) he
  rw [Database.lookup_answer_capped h] at hlook
  exact List.mem_map_of_mem (AssocMap.mem_of_lookup hlook)

namespace PathsSpared

variable (h : PathsSpared env dbs req plan n)

include h

/-- What is kept of a path is what is found of it, in every database. -/
lemma lookup_kept {db : Database} (hdb : db ∈ dbs)
    (hx : x ∈ (db.answer req plan (mergeCap (req.limited (some n)))
      (db.within req plan n)).map Prod.fst) :
    (mergeAll (keptMaps dbs req plan n).flatten).lookup x =
      (mergeAll (foundMaps dbs req plan).flatten).lookup x := by
  refine lookup_mergeAll_congr (fun d => nodup_answer d _ _) (fun d => nodup_answer d _ _)
    fun d hd => ?_
  have hshown := mem_shownPaths_of_kept hx
  rw [← Database.lookup_answer_within (fun hlost => h.whole db hdb d hd hshown hlost)]
  by_cases hmem : x ∈ (d.answer req plan (mergeCap (req.limited (some n)))
      (d.within req plan n)).map Prod.fst
  · exact Database.lookup_answer_capped hmem
  · -- the cap has not dropped the path from this database either
    have hnot : x ∉ d.shownPaths req plan (d.within req plan n) := by
      intro hd'
      have hroom : mergeCap (req.limited (some n)) ≠ none ∧ d.Overfull req plan n := by
        by_contra hroom
        rw [not_and_or, not_not] at hroom
        rw [answer_kept_of_room hroom, d.mem_answer] at hmem
        exact hmem hd'
      rcases h.cap.resolve_left hroom.1 with ⟨hall, -⟩ | ⟨-, hpairs⟩
      · exact hall d hd hroom.2
      · have hne : db ≠ d := by
          rintro rfl
          exact hmem hx
        have : Std.Symm fun db db' : Database => db.Overfull req plan n ∨ db'.Overfull req plan n →
            List.Disjoint (db.shownPaths req plan (db.within req plan n))
              (db'.shownPaths req plan (db'.within req plan n)) :=
          ⟨fun _ _ hdis hover => (hdis hover.symm).symm⟩
        exact hpairs.forall hdb hd hne (Or.inr hroom.2) hshown hd'
    rw [AssocMap.lookup_eq_none.mpr hmem,
      AssocMap.lookup_eq_none.mpr fun hmem' => hnot ((d.mem_answer req plan _ x).mp hmem')]

omit h in
lemma exists_kept_of_merged {o : MapOrder} {cap : Option ℕ} {hit : Hit}
    (hhit : hit ∈ o.merged cap (keptMaps dbs req plan n)) :
    ∃ db ∈ dbs, hit.1 ∈ (db.answer req plan (mergeCap (req.limited (some n)))
      (db.within req plan n)).map Prod.fst := by
  have hkey := List.mem_map_of_mem (f := Prod.fst) ((takeOpt_sublist cap _).subset hhit)
  rw [mem_map_fst_mergeAll, o.mem_map_fst_hits] at hkey
  exact mem_pathsOf_map.mp hkey

lemma found_of_merged {o : MapOrder} {hit : Hit}
    (hhit : hit ∈ o.merged (mergeCap (req.limited (some n))) (keptMaps dbs req plan n)) :
    (mergeAll (foundMaps dbs req plan).flatten).lookup hit.1 = some hit.2 := by
  obtain ⟨db, hdb, hkey⟩ := exists_kept_of_merged hhit
  rw [← h.lookup_kept hdb hkey]
  exact ((MapOrder.mem_merged nodup_keptMaps o).mp hhit).1

end PathsSpared

lemma mem_keptHits {o : MapOrder} {hit : Hit} : hit ∈ keptHits env o dbs req plan n ↔
    hit ∈ o.merged (mergeCap (req.limited (some n))) (keptMaps dbs req plan n) ∧
      passesAll env req plan hit = true := by
  rw [keptHits, (sortEntries_perm _ _).mem_iff, mem_filterHits, (o.order_perm 0 _).mem_iff]

lemma nodup_keptHits (o : MapOrder) :
    ((keptHits env o dbs req plan n).map Prod.fst).Nodup :=
  ((sortEntries_perm _ _).map Prod.fst).nodup_iff.mpr (o.nodup_filterHits env req plan _ _)

/-- With a cap that leaves room, every path that is shown within the limit is merged. -/
lemma merged_of_room {o : MapOrder}
    (hroom : mergeCap (req.limited (some n)) = none ∨ (∀ db ∈ dbs, ¬ db.Overfull req plan n) ∧
      (dbs.flatMap fun db => db.shownPaths req plan (db.within req plan n)).toFinset.card ≤ n)
    {db : Database} (hdb : db ∈ dbs) (hx : x ∈ db.shownPaths req plan (db.within req plan n)) :
    ∃ value, (x, value) ∈ o.merged (mergeCap (req.limited (some n))) (keptMaps dbs req plan n) := by
  have hanswer : ∀ d ∈ dbs, d.answer req plan (mergeCap (req.limited (some n)))
      (d.within req plan n) = d.answer req plan none (d.within req plan n) := fun d hd =>
    answer_kept_of_room (hroom.imp id fun hall => hall.1 d hd)
  have hpaths : ∀ p, p ∈ pathsOf (keptMaps dbs req plan n) ↔
      ∃ d ∈ dbs, p ∈ d.shownPaths req plan (d.within req plan n) := fun p =>
    mem_pathsOf_map.trans (exists_congr fun d => and_congr_right fun hd => by
      rw [hanswer d hd, d.mem_answer])
  have hkey : x ∈ (mergeAll (o.hits 1 (keptMaps dbs req plan n))).map Prod.fst := by
    rw [mem_map_fst_mergeAll, o.mem_map_fst_hits]
    exact (hpaths x).mpr ⟨db, hdb, hx⟩
  have hwhole : o.merged (mergeCap (req.limited (some n))) (keptMaps dbs req plan n) =
      mergeAll (o.hits 1 (keptMaps dbs req plan n)) := by
    rw [MapOrder.merged]
    rcases hroom with hcap | ⟨-, hfew⟩
    · rw [hcap]
      rfl
    · rcases mergeCap_limited_some req n with hcap | hcap
      · rw [hcap]
        rfl
      · rw [hcap]
        refine List.take_of_length_le (le_trans (le_of_eq ?_) hfew)
        rw [mergeAll_eq, AssocMap.length_putAll, map_fst_mergeUpdate, o.toFinset_hits]
        refine congrArg Finset.card (Finset.ext fun p => ?_)
        rw [hpaths, List.mem_toFinset, List.mem_flatMap]
  rw [hwhole]
  obtain ⟨e, he, rfl⟩ := List.mem_map.mp hkey
  exact ⟨e.2, he⟩

namespace PathsSpared

variable (h : PathsSpared env dbs req plan n)

include h

/-- With a cap that leaves room, enough paths are kept, or all that are found. -/
lemma enough_of_room {o : MapOrder}
    (hroom : mergeCap (req.limited (some n)) = none ∨ (∀ db ∈ dbs, ¬ db.Overfull req plan n) ∧
      (dbs.flatMap fun db => db.shownPaths req plan (db.within req plan n)).toFinset.card ≤ n) :
    n ≤ (keptHits env o dbs req plan n).length ∨
      ∀ hit ∈ filterHits env req plan (mergeAll (foundMaps dbs req plan).flatten),
        hit.1 ∈ (keptHits env o dbs req plan n).map Prod.fst := by
  rcases h.enough with hnone | ⟨paths, hcard, hpaths⟩
  · refine Or.inr fun hit hhit => ?_
    obtain ⟨hfound, hpass⟩ := mem_filterHits.mp hhit
    -- a database answers the path, and has not lost it
    obtain ⟨db, hdb, hkey⟩ := mem_pathsOf_map.mp (List.mem_toFinset.mpr
      ((mem_map_fst_mergeAll _ _).mp (List.mem_map_of_mem (f := Prod.fst) hfound)))
    have hshown : hit.1 ∈ db.shownPaths req plan (db.within req plan n) := by
      have hlook := fun hnot => AssocMap.lookup_eq_none.mp hnot hkey
      rw [← Database.lookup_answer_within (n := n) (by rw [hnone db hdb]; simp)] at hlook
      by_contra hnot
      exact hlook (AssocMap.lookup_eq_none.mpr fun hmem =>
        hnot ((db.mem_answer req plan _ _).mp hmem))
    obtain ⟨value, hvalue⟩ := @merged_of_room _ _ _ _ _ o hroom _ hdb hshown
    have hsame := h.found_of_merged hvalue
    rw [AssocMap.lookup_of_mem (nodup_mergeAll _) hfound] at hsame
    obtain rfl := Option.some.inj hsame
    exact List.mem_map_of_mem (f := Prod.fst) (mem_keptHits.mpr ⟨hvalue, hpass⟩)
  · refine Or.inl (hcard.trans ?_)
    have hsub : paths ⊆ ((keptHits env o dbs req plan n).map Prod.fst).toFinset := by
      intro p hp
      obtain ⟨hpass, db, hdb, hshown⟩ := hpaths p hp
      obtain ⟨value, hvalue⟩ := @merged_of_room _ _ _ _ _ o hroom _ hdb hshown
      have hmem := mem_keptHits.mpr ⟨hvalue, hpass.passesAll (h.found_of_merged hvalue)⟩
      exact List.mem_toFinset.mpr (List.mem_map_of_mem (f := Prod.fst) hmem)
    have hlen := Finset.card_le_card hsub
    rwa [List.toFinset_card_of_nodup (nodup_keptHits o), List.length_map] at hlen

/-- With a cap that does not, as many paths are kept as it allows, and each passes the filters. -/
lemma enough_of_full {o : MapOrder} (hcap : mergeCap (req.limited (some n)) = some n)
    (hfull : ¬ ((∀ db ∈ dbs, ¬ db.Overfull req plan n) ∧
      (dbs.flatMap fun db => db.shownPaths req plan (db.within req plan n)).toFinset.card ≤ n)) :
    n ≤ (keptHits env o dbs req plan n).length := by
  obtain ⟨hall, -⟩ := (h.cap.resolve_left fun hnone => by
    rw [hcap] at hnone
    cases hnone).resolve_left hfull
  have hunion : n ≤ (pathsOf (keptMaps dbs req plan n)).card := by
    by_cases hover : ∃ db ∈ dbs, db.Overfull req plan n
    · obtain ⟨db, hdb, hover⟩ := hover
      have hlen := Database.length_answer_capped hover (hall db hdb).1
      rw [← List.length_map Prod.fst, ← List.toFinset_card_of_nodup (nodup_answer db _ _)] at hlen
      refine hlen.symm.le.trans (Finset.card_le_card fun p hp => ?_)
      exact mem_pathsOf_map.mpr ⟨db, hdb, by rw [hcap]; exact List.mem_toFinset.mp hp⟩
    · push Not at hover
      have hmany := Nat.lt_of_not_le fun hfew => hfull ⟨hover, hfew⟩
      refine hmany.le.trans (Finset.card_le_card fun p hp => ?_)
      obtain ⟨db, hdb, hshown⟩ := List.mem_flatMap.mp (List.mem_toFinset.mp hp)
      rw [← db.mem_answer, ← answer_kept_of_room (Or.inr (hover db hdb))] at hshown
      exact mem_pathsOf_map.mpr ⟨db, hdb, hshown⟩
  have hmerged : (o.merged (mergeCap (req.limited (some n))) (keptMaps dbs req plan n)).length =
      n := by
    rw [MapOrder.merged, hcap, takeOpt, List.length_take, mergeAll_eq, AssocMap.length_putAll,
      map_fst_mergeUpdate, o.toFinset_hits]
    exact Nat.min_eq_left hunion
  have hkept : filterHits env req plan (o.order 0 (o.merged (mergeCap (req.limited (some n)))
      (keptMaps dbs req plan n))) = o.order 0 (o.merged (mergeCap (req.limited (some n)))
        (keptMaps dbs req plan n)) := by
    unfold filterHits
    have hpass : ∀ hit ∈ o.order 0 (o.merged (mergeCap (req.limited (some n)))
        (keptMaps dbs req plan n)), passesAll env req plan hit = true := by
      intro hit hhit
      have hhit := (o.order_perm 0 _).mem_iff.mp hhit
      obtain ⟨db, hdb, hkey⟩ := exists_kept_of_merged hhit
      exact ((hall db hdb).2 _ (mem_shownPaths_of_kept hkey)).passesAll (h.found_of_merged hhit)
    simp only [passesAll, Bool.and_eq_true] at hpass
    rw [List.filter_filter, List.filter_filter]
    refine List.filter_eq_self.mpr fun hit hhit => ?_
    obtain ⟨⟨hpaths, hregex⟩, hexpr⟩ := hpass hit hhit
    rw [hpaths, hregex, hexpr]
    rfl
  rw [keptHits, (sortEntries_perm _ _).length_eq, hkept, (o.order_perm 0 _).length_eq, hmerged]

end PathsSpared

end Kept

end DeepFinder
