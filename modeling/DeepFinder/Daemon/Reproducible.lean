import DeepFinder.Core.DbRoundTrip
import DeepFinder.Daemon.Answers
import Mathlib.Data.Prod.Lex
import Mathlib.Data.String.Basic

/-!
# Reproducible results

A search reads its result maps in an order that hash maps do not fix (`MapOrder`).  What a merge
without a cap holds does not depend on it (`lookup_mergeAll`), and the default order is total on
hits of different paths (`sortEntries_default_eq`).

A cap keeps the paths that are read first.  So the reply is the same for every order unless the cap
falls among the paths that one database is the first to find (`default_sort_reproducible_iff`).

The orders are independent of each other: each map may be read in any order, and in another one at
the next request.  `CapCuts` compares the cap with the numbers of paths that the databases find,
which no order changes, and asks for a path that passes the filters among those it falls between;
where none passes, the reply is empty in every order.  Other sort orders than the default one are
not total and are left out.
-/

namespace DeepFinder

/-! ## Orders of iteration -/

/-- An iteration order for each hash map of a search. -/
structure MapOrder where
  order : ℕ → ResultMap → ResultMap
  order_perm : ∀ i map, (order i map).Perm map

def ConnEnv.ordered (env : ConnEnv) (o : MapOrder) : ConnEnv :=
  { env with order := o.order, order_perm := o.order_perm }

def MapOrder.filled : MapOrder := ⟨fun _ map => map, fun _ _ => List.Perm.refl _⟩

/-- The hits of the result maps of the databases from number `i` on, as they are read. -/
def MapOrder.hits (o : MapOrder) : ℕ → List ResultMap → List Hit
  | _, [] => []
  | i, per :: pers => o.order i per ++ o.hits (i + 1) pers

def pathsOf (pers : List ResultMap) : Finset String := (pers.flatten.map Prod.fst).toFinset

def mergeAll (hits : List Hit) : ResultMap := hits.foldl (mergeIn none) []

section Order

variable (o : MapOrder)

lemma MapOrder.hits_append (i : ℕ) (pers pers' : List ResultMap) :
    o.hits i (pers ++ pers') = o.hits i pers ++ o.hits (i + pers.length) pers' := by
  induction pers generalizing i with
  | nil => rfl
  | cons per pers ih =>
      have hnext : i + 1 + pers.length = i + (per :: pers).length := by
        rw [List.length_cons]
        omega
      rw [List.cons_append, hits, hits, ih, hnext, List.append_assoc]

lemma MapOrder.hits_perm (i : ℕ) (pers : List ResultMap) : (o.hits i pers).Perm pers.flatten := by
  induction pers generalizing i with
  | nil => exact List.Perm.refl _
  | cons per pers ih => exact (o.order_perm i per).append (ih (i + 1))

lemma MapOrder.toFinset_hits (i : ℕ) (pers : List ResultMap) :
    ((o.hits i pers).map Prod.fst).toFinset = pathsOf pers :=
  List.toFinset_eq_of_perm _ _ ((o.hits_perm i pers).map Prod.fst)

lemma MapOrder.mem_map_fst_hits (i : ℕ) (pers : List ResultMap) (p : String) :
    p ∈ (o.hits i pers).map Prod.fst ↔ p ∈ pathsOf pers := by
  rw [← o.toFinset_hits i pers, List.mem_toFinset]

lemma MapOrder.hits_filled (i : ℕ) (pers : List ResultMap) :
    MapOrder.filled.hits i pers = pers.flatten := by
  induction pers generalizing i with
  | nil => rfl
  | cons per pers ih =>
      rw [hits, ih]
      rfl

end Order

/-! ## Merging -/

lemma mergeAll_eq (hits : List Hit) :
    mergeAll hits = AssocMap.putAll (hits.map mergeUpdate) [] := by
  rw [mergeAll, foldl_mergeIn, putAllCapped_none]

lemma nodup_mergeAll (hits : List Hit) : ((mergeAll hits).map Prod.fst).Nodup := by
  rw [mergeAll_eq]
  exact AssocMap.nodup_putAll List.nodup_nil

lemma mem_map_fst_mergeAll (hits : List Hit) (p : String) :
    p ∈ (mergeAll hits).map Prod.fst ↔ p ∈ hits.map Prod.fst := by
  rw [mergeAll_eq, AssocMap.mem_map_fst_putAll, map_fst_mergeUpdate]
  simp

lemma foldl_mergeIn_nil (cap : Option ℕ) (hits : List Hit) :
    hits.foldl (mergeIn cap) [] = takeOpt cap (mergeAll hits) := by
  cases cap with
  | none => rfl
  | some n =>
      have hfull : ∀ l, capReached (some n) l = true ↔ n ≤ l := fun l => decide_eq_true_iff
      rw [foldl_mergeIn, mergeAll_eq, takeOpt, ← AssocMap.putAllCapped_eq hfull, List.take_nil]

lemma takeOpt_sublist {α : Type} (limit : Option ℕ) (l : List α) : (takeOpt limit l).Sublist l := by
  cases limit with
  | none => exact List.Sublist.refl l
  | some n => exact List.take_sublist n l

lemma dropShadowed_subset (o : Overlay) (map : ResultMap) : dropShadowed o map ⊆ map := by
  unfold dropShadowed
  split
  · exact List.filter_sublist.subset
  · exact List.Subset.refl map

/-- A cap keeps the first entries of the answer of a database as well. -/
lemma answerOf_eq (cap : Option ℕ) (o : Overlay) (cold hot : List Hit) :
    answerOf cap o cold hot = takeOpt cap (AssocMap.putAll (hot.map overrideUpdate)
      (dropShadowed o (takeOpt cap (mergeAll cold)))) := by
  rw [answerOf, foldl_overrideIn, foldl_mergeIn_nil]
  cases cap with
  | none => exact putAllCapped_none _ _
  | some n =>
      have hfull : ∀ l, capReached (some n) l = true ↔ n ≤ l := fun l => decide_eq_true_iff
      have hshort : (dropShadowed o ((mergeAll cold).take n)).length ≤ n := by
        unfold dropShadowed
        split
        · exact (List.length_filter_le _ _).trans (List.length_take_le ..)
        · exact List.length_take_le ..
      rw [takeOpt, takeOpt, ← AssocMap.putAllCapped_eq hfull, List.take_of_length_le hshort]

/-- What the merge holds does not depend on the order in which the maps are read. -/
lemma lookup_foldl_hits {pers : List ResultMap} (hpers : ∀ per ∈ pers, (per.map Prod.fst).Nodup)
    (o o' : MapOrder) (i : ℕ) {m m' : ResultMap} {x : String} (hm : m.lookup x = m'.lookup x) :
    ((o.hits i pers).foldl (mergeIn none) m).lookup x =
      ((o'.hits i pers).foldl (mergeIn none) m').lookup x := by
  induction pers generalizing i m m' with
  | nil => exact hm
  | cons per pers ih =>
      have hper := hpers per (List.mem_cons_self ..)
      have hread : ∀ r : MapOrder, ((r.order i per).map Prod.fst).Nodup ∧
          (r.order i per).lookup x = per.lookup x := fun r =>
        ⟨((r.order_perm i per).map Prod.fst).nodup_iff.mpr hper,
          AssocMap.lookup_perm hper (r.order_perm i per) x⟩
      rw [MapOrder.hits, MapOrder.hits, List.foldl_append, List.foldl_append]
      apply ih fun q hq => hpers q (List.mem_cons_of_mem _ hq)
      rw [lookup_foldl_mergeIn (hread o).1, lookup_foldl_mergeIn (hread o').1, (hread o).2,
        (hread o').2, hm]

lemma lookup_mergeAll {pers : List ResultMap} (hpers : ∀ per ∈ pers, (per.map Prod.fst).Nodup)
    (o : MapOrder) (x : String) :
    (mergeAll (o.hits 1 pers)).lookup x = (mergeAll pers.flatten).lookup x := by
  rw [← MapOrder.hits_filled 1 pers]
  exact lookup_foldl_hits hpers o MapOrder.filled 1 rfl

/-- What the loop over the databases merges. -/
lemma mergeEntries_ordered (env : ConnEnv) (o : MapOrder) (ctx : QueryCtx) (cap : Option ℕ)
    (entries : List DbEntry) (i : ℕ) (m : ResultMap) :
    mergeEntries (env.ordered o) ctx cap i entries m =
      (entries.mapM fun e => queryEntry ctx e cap) >>= fun pers =>
        pure ((o.hits i pers).foldl (mergeIn cap) m) := by
  induction entries generalizing i m with
  | nil => rfl
  | cons entry entries ih =>
      rw [mergeEntries, List.mapM_cons, bind_assoc]
      refine congrArg _ (funext fun per => ?_)
      rw [ih, bind_assoc]
      refine congrArg _ (funext fun pers => ?_)
      rw [pure_bind, MapOrder.hits, List.foldl_append]
      rfl

/-! ## The result map of one database -/

lemma nodup_foldl_mergeIn (cap : Option ℕ) {hits : List Hit} {map : ResultMap}
    (h : (map.map Prod.fst).Nodup) : ((hits.foldl (mergeIn cap) map).map Prod.fst).Nodup := by
  induction hits generalizing map with
  | nil => exact h
  | cons hit hits ih =>
      apply ih
      unfold mergeIn
      split
      · exact h
      · exact AssocMap.nodup_put h _ _

lemma nodup_foldl_overrideIn (cap : Option ℕ) {hits : List Hit} {map : ResultMap}
    (h : (map.map Prod.fst).Nodup) : ((hits.foldl (overrideIn cap) map).map Prod.fst).Nodup := by
  induction hits generalizing map with
  | nil => exact h
  | cons hit hits ih =>
      apply ih
      unfold overrideIn
      split
      · exact AssocMap.nodup_put h _ _
      · split
        · exact h
        · exact AssocMap.nodup_put h _ _

lemma nodup_filenameLoop {ctx : QueryCtx} {db : FilenameDb} {cap : Option ℕ} {ds : List ℕ}
    {merged map : ResultMap} (h : (merged.map Prod.fst).Nodup)
    (hloop : filenameLoop ctx db cap ds merged = .ok map) : (map.map Prod.fst).Nodup := by
  induction ds generalizing merged with
  | nil =>
      obtain rfl := Except.ok.inj hloop
      exact h
  | cons d ds ih =>
      rw [filenameLoop] at hloop
      split at hloop
      · obtain rfl := Except.ok.inj hloop
        exact h
      · obtain ⟨path, -, hloop⟩ := bind_eq_ok_iff.mp hloop
        cases path with
        | none => exact ih h hloop
        | some path =>
            dsimp only at hloop
            split at hloop
            · exact ih h hloop
            · split at hloop
              · exact ih h hloop
              · obtain ⟨lite, -, hloop⟩ := bind_eq_ok_iff.mp hloop
                exact ih (@nodup_foldl_mergeIn cap [(path, lite, .filename)] merged h) hloop

/-- The map of one database has one entry a path. -/
lemma nodup_queryEntry {ctx : QueryCtx} {entry : DbEntry} {cap : Option ℕ} {map : ResultMap}
    (h : queryEntry ctx entry cap = .ok map) : (map.map Prod.fst).Nodup := by
  rw [queryEntry] at h
  obtain ⟨names, hnames, h⟩ := bind_eq_ok_iff.mp h
  obtain ⟨content, -, h⟩ := bind_eq_ok_iff.mp h
  obtain ⟨ovContent, -, h⟩ := bind_eq_ok_iff.mp h
  obtain rfl := Except.ok.inj h
  have hfilename : (names.map Prod.fst).Nodup := by
    unfold filenameLayer at hnames
    split at hnames
    · obtain ⟨docids, -, hloop⟩ := bind_eq_ok_iff.mp hnames
      have hnil : (([] : ResultMap).map Prod.fst).Nodup := List.nodup_nil
      exact nodup_filenameLoop hnil hloop
    · obtain rfl := Except.ok.inj hnames
      exact List.nodup_nil
  have hcold : ((dropShadowed entry.overlay (content.foldl (mergeIn cap) names)).map
      Prod.fst).Nodup := by
    unfold dropShadowed
    split
    · exact AssocMap.nodup_filter (nodup_foldl_mergeIn cap hfilename) _
    · exact nodup_foldl_mergeIn cap hfilename
  exact nodup_foldl_overrideIn cap (nodup_foldl_overrideIn cap hcold)

/-! ## Sorting -/

/-- The default order compares kind weight, depth and path, one after the other. -/
def sortKey (h : Hit) : ℕ ×ₗ ℕ ×ₗ String := toLex (kindWeight h.2.2, toLex (depthOf h.1, h.1))

lemma defaultLe_iff (a b : Hit) : defaultLe a b = true ↔ sortKey a ≤ sortKey b := by
  rw [defaultLe, sortKey, sortKey, Prod.Lex.toLex_le_toLex, Prod.Lex.toLex_le_toLex]
  by_cases hkind : kindWeight a.2.2 = kindWeight b.2.2
  · by_cases hdepth : depthOf a.1 = depthOf b.1
    · simp [hkind, hdepth]
    · simp [hkind, hdepth]
  · simp [hkind]

/-- Hits of different paths have one default order. -/
lemma sortEntries_default_eq {hits hits' : List Hit} (hnodup : (hits.map Prod.fst).Nodup)
    (h : hits.Perm hits') : sortEntries hits .default = sortEntries hits' .default := by
  have hsorted : ∀ l : List Hit,
      (sortEntries l .default).Pairwise fun a b => defaultLe a b = true := by
    refine fun l => List.pairwise_mergeSort (fun a b c hab hbc => ?_) (fun a b => ?_) l
    · rw [defaultLe_iff] at hab hbc ⊢
      exact hab.trans hbc
    · rw [Bool.or_eq_true, defaultLe_iff, defaultLe_iff]
      exact le_total _ _
  have hperm : (sortEntries hits .default).Perm (sortEntries hits' .default) :=
    (sortEntries_perm hits .default).trans (h.trans (sortEntries_perm hits' .default).symm)
  refine hperm.eq_of_pairwise (fun a b ha hb hab hba => ?_) (hsorted hits) (hsorted hits')
  rw [defaultLe_iff] at hab hba
  have hpath : a.1 = b.1 :=
    congrArg (fun k : ℕ ×ₗ ℕ ×ₗ String => (ofLex (ofLex k).2).2) (le_antisymm hab hba)
  have ha := (sortEntries_perm hits .default).mem_iff.mp ha
  have hb := h.mem_iff.mpr ((sortEntries_perm hits' .default).mem_iff.mp hb)
  exact List.inj_on_of_nodup_map hnodup ha hb hpath

/-! ## What a cap keeps -/

/-- The merge of the result maps under a cap, as it is read. -/
def MapOrder.merged (o : MapOrder) (cap : Option ℕ) (pers : List ResultMap) : ResultMap :=
  takeOpt cap (mergeAll (o.hits 1 pers))

/-- The cap falls among the paths that one database is the first to find, and the hit on one of
these is kept. -/
def CutInside (keeps : Hit → Bool) (n : ℕ) (pers : List ResultMap) : Prop :=
  ∃ before per after path value, pers = before ++ per :: after ∧
    (pathsOf before).card < n ∧ n < (pathsOf (before ++ [per])).card ∧
    path ∈ per.map Prod.fst ∧ path ∉ pathsOf before ∧
    (mergeAll pers.flatten).lookup path = some value ∧ keeps (path, value) = true

section Cap

variable {pers : List ResultMap} {n : ℕ} {p : String}

lemma mem_take_mergeAll {hits hits' : List Hit} (hp : p ∈ hits.map Prod.fst)
    (hn : (hits.map Prod.fst).toFinset.card ≤ n) :
    p ∈ ((mergeAll (hits ++ hits')).take n).map Prod.fst := by
  rw [mergeAll_eq, List.map_append]
  rw [← map_fst_mergeUpdate] at hp hn
  exact AssocMap.mem_take_putAll hp hn

lemma notMem_take_mergeAll {hits hits' : List Hit} (hp : p ∉ hits.map Prod.fst)
    (hn : n ≤ (hits.map Prod.fst).toFinset.card) :
    p ∉ ((mergeAll (hits ++ hits')).take n).map Prod.fst := by
  rw [mergeAll_eq, List.map_append]
  rw [← map_fst_mergeUpdate] at hp hn
  exact AssocMap.notMem_take_putAll hp hn

lemma MapOrder.nodup_merged (o : MapOrder) (cap : Option ℕ) (pers : List ResultMap) :
    ((o.merged cap pers).map Prod.fst).Nodup :=
  (nodup_mergeAll _).sublist ((takeOpt_sublist cap _).map Prod.fst)

/-- The order decides which paths are kept, and not what is known of them. -/
lemma MapOrder.mem_merged (hpers : ∀ per ∈ pers, (per.map Prod.fst).Nodup) (o : MapOrder)
    {cap : Option ℕ} {h : Hit} :
    h ∈ o.merged cap pers ↔ (mergeAll pers.flatten).lookup h.1 = some h.2 ∧
      h.1 ∈ (o.merged cap pers).map Prod.fst := by
  have hlook : ∀ e ∈ o.merged cap pers, (mergeAll pers.flatten).lookup e.1 = some e.2 := by
    intro e he
    rw [← lookup_mergeAll hpers o]
    exact AssocMap.lookup_of_mem (nodup_mergeAll _) ((takeOpt_sublist cap _).subset he)
  constructor
  · exact fun hmem => ⟨hlook h hmem, List.mem_map_of_mem hmem⟩
  · rintro ⟨hvalue, hpath⟩
    obtain ⟨e, he, hpath⟩ := List.mem_map.mp hpath
    have hsame := hlook e he
    rw [hpath, hvalue] at hsame
    obtain rfl : e = h := Prod.ext hpath (Option.some.inj hsame).symm
    exact he

/-- A path that is found has a database that is the first to find it. -/
lemma exists_first (hp : p ∈ pathsOf pers) : ∃ before per after, pers = before ++ per :: after ∧
    p ∈ per.map Prod.fst ∧ p ∉ pathsOf before := by
  induction pers with
  | nil => simp [pathsOf] at hp
  | cons per pers ih =>
      by_cases hper : p ∈ per.map Prod.fst
      · exact ⟨[], per, pers, rfl, hper, by simp [pathsOf]⟩
      · have hrest : p ∈ pathsOf pers := by
          rw [pathsOf, List.mem_toFinset, List.flatten_cons, List.map_append, List.mem_append] at hp
          exact List.mem_toFinset.mpr (hp.resolve_left hper)
        obtain ⟨before, q, after, rfl, hq, hbefore⟩ := ih hrest
        refine ⟨per :: before, q, after, rfl, hq, fun hmem => ?_⟩
        rw [pathsOf, List.mem_toFinset, List.flatten_cons, List.map_append, List.mem_append] at hmem
        exact hmem.elim hper fun h => hbefore (List.mem_toFinset.mpr h)

/-- When the cap does not cut, a hit that is kept under one order is kept under every order. -/
lemma MapOrder.mem_merged_of_not_cut {keeps : Hit → Bool}
    (hpers : ∀ per ∈ pers, (per.map Prod.fst).Nodup) (hcut : ¬ CutInside keeps n pers)
    (o o' : MapOrder) {h : Hit} (hmem : h ∈ o.merged (some n) pers) (hkeeps : keeps h = true) :
    h ∈ o'.merged (some n) pers := by
  obtain ⟨hvalue, hpath⟩ := (o.mem_merged hpers).mp hmem
  refine (o'.mem_merged hpers).mpr ⟨hvalue, ?_⟩
  have hfound : h.1 ∈ pathsOf pers := by
    rw [← o.mem_map_fst_hits 1, ← mem_map_fst_mergeAll]
    exact ((takeOpt_sublist (some n) _).map Prod.fst).subset hpath
  obtain ⟨before, per, after, hsplit, hper, hbefore⟩ := exists_first hfound
  have hroom : (pathsOf before).card < n := by
    by_contra hfull
    rw [hsplit, merged, takeOpt, hits_append] at hpath
    refine notMem_take_mergeAll ?_ ?_ hpath
    · rw [o.mem_map_fst_hits]
      exact hbefore
    · rw [o.toFinset_hits]
      exact Nat.le_of_not_lt hfull
  have hcard : (pathsOf (before ++ [per])).card ≤ n := by
    by_contra hover
    exact hcut ⟨before, per, after, h.1, h.2, hsplit, hroom, Nat.lt_of_not_le hover, hper,
      hbefore, hvalue, hkeeps⟩
  have hall : pers = (before ++ [per]) ++ after := by
    rw [hsplit, List.append_assoc]
    rfl
  rw [hall, merged, takeOpt, hits_append]
  refine mem_take_mergeAll ?_ ?_
  · rw [o'.mem_map_fst_hits, pathsOf, List.mem_toFinset, List.flatten_append, List.map_append]
    exact List.mem_append_right _ (by simpa using hper)
  · rw [o'.toFinset_hits]
    exact hcard

/-! ## Two orders that a cap tells apart -/

/-- Every map is read with the entry of this path first. -/
def MapOrder.readFirst (path : String) : MapOrder where
  order _ map := map.filter (fun e => e.1 = path) ++ map.filter (fun e => !decide (e.1 = path))
  order_perm _ map := List.filter_append_perm _ map

/-- Every map is read with the entry of this path last. -/
def MapOrder.readLast (path : String) : MapOrder where
  order _ map := map.filter (fun e => !decide (e.1 = path)) ++ map.filter (fun e => e.1 = path)
  order_perm _ map := List.perm_append_comm.trans (List.filter_append_perm _ map)

/-- Where the cap cuts, the path is kept when it is read first. -/
lemma mem_merged_readFirst {before after : List ResultMap} {per : ResultMap}
    (hn : (pathsOf before).card < n) (hp : p ∈ per.map Prod.fst) :
    p ∈ ((MapOrder.readFirst p).merged (some n) (before ++ per :: after)).map Prod.fst := by
  rw [MapOrder.merged, takeOpt, MapOrder.hits_append, MapOrder.hits]
  rw [show (MapOrder.readFirst p).order (1 + before.length) per =
    per.filter (fun e => e.1 = p) ++ per.filter (fun e => !decide (e.1 = p)) from rfl]
  rw [List.append_assoc, ← List.append_assoc]
  apply mem_take_mergeAll
  · obtain ⟨e, he, rfl⟩ := List.mem_map.mp hp
    rw [List.map_append]
    exact List.mem_append_right _ (List.mem_map_of_mem (List.mem_filter.mpr ⟨he, by simp⟩))
  · have hone : ((per.filter fun e => e.1 = p).map Prod.fst).toFinset ⊆ {p} := by
      intro q hq
      obtain ⟨e, he, rfl⟩ := List.mem_map.mp (List.mem_toFinset.mp hq)
      exact Finset.mem_singleton.mpr (of_decide_eq_true (List.mem_filter.mp he).2)
    rw [List.map_append, List.toFinset_append, MapOrder.toFinset_hits]
    have hcard := Finset.card_le_card hone
    rw [Finset.card_singleton] at hcard
    have := Finset.card_union_le (pathsOf before)
      ((per.filter fun e => e.1 = p).map Prod.fst).toFinset
    omega

/-- Where the cap cuts, the path is dropped when it is read last. -/
lemma notMem_merged_readLast {before after : List ResultMap} {per : ResultMap}
    (hn : n < (pathsOf (before ++ [per])).card) (hp : p ∉ pathsOf before) :
    p ∉ ((MapOrder.readLast p).merged (some n) (before ++ per :: after)).map Prod.fst := by
  rw [MapOrder.merged, takeOpt, MapOrder.hits_append, MapOrder.hits]
  rw [show (MapOrder.readLast p).order (1 + before.length) per =
    per.filter (fun e => !decide (e.1 = p)) ++ per.filter (fun e => e.1 = p) from rfl]
  rw [List.append_assoc, ← List.append_assoc]
  apply notMem_take_mergeAll
  · rw [List.map_append, List.mem_append, not_or, MapOrder.mem_map_fst_hits]
    refine ⟨hp, fun hmem => ?_⟩
    obtain ⟨e, he, heq⟩ := List.mem_map.mp hmem
    have hne := (List.mem_filter.mp he).2
    simp [heq] at hne
  · rw [List.map_append, List.toFinset_append, MapOrder.toFinset_hits]
    have hsub : pathsOf (before ++ [per]) ⊆ insert p (pathsOf before ∪
        ((per.filter fun e => !decide (e.1 = p)).map Prod.fst).toFinset) := by
      intro q hq
      rw [pathsOf, List.mem_toFinset, List.flatten_append, List.map_append, List.mem_append] at hq
      by_cases hqp : q = p
      · exact Finset.mem_insert.mpr (Or.inl hqp)
      · refine Finset.mem_insert_of_mem (Finset.mem_union.mpr (hq.imp List.mem_toFinset.mpr ?_))
        intro hper
        obtain ⟨e, he, rfl⟩ := List.mem_map.mp hper
        have he : e ∈ per := by simpa using he
        exact List.mem_toFinset.mpr (List.mem_map_of_mem (List.mem_filter.mpr ⟨he, by simp [hqp]⟩))
    have hcard := Finset.card_le_card hsub
    have := Finset.card_insert_le p (pathsOf before ∪
      ((per.filter fun e => !decide (e.1 = p)).map Prod.fst).toFinset)
    omega

end Cap

/-! ## The reply -/

/-- The entries of the reply, when the databases find these. -/
def MapOrder.reply (o : MapOrder) (env : ConnEnv) (req : SearchRequest) (plan : SearchPlan)
    (pers : List ResultMap) : List Hit :=
  takeOpt req.limit (sortEntries
    (filterHits env req plan (o.order 0 (o.merged (mergeCap req) pers))) req.opts.sort)

def queryAll (entries : List DbEntry) (req : SearchRequest) (plan : SearchPlan) :
    Res (List ResultMap) :=
  (selectNamed entries (selectedNames entries req)).mapM fun e =>
    queryEntry (queryCtx req plan) e (mergeCap req)

/-- A cap is in force and falls among the paths that one database is the first to find, one of
which passes the filters. -/
def CapCuts (env : ConnEnv) (entries : List DbEntry) (req : SearchRequest) : Prop :=
  ∃ plan n pers, searchPlan env req = .ok plan ∧ mergeCap req = some n ∧
    queryAll entries req plan = .ok pers ∧ CutInside (passesAll env req plan) n pers

section Reply

variable {env : ConnEnv} {entries : List DbEntry} {req : SearchRequest} {plan : SearchPlan}
  {pers : List ResultMap}

lemma nodup_of_queryAll (h : queryAll entries req plan = .ok pers) :
    ∀ per ∈ pers, (per.map Prod.fst).Nodup := by
  unfold queryAll at h
  generalize selectNamed entries (selectedNames entries req) = selected at h
  induction selected generalizing pers with
  | nil =>
      obtain rfl := Except.ok.inj h
      exact fun per hper => nomatch hper
  | cons entry selected ih =>
      rw [List.mapM_cons] at h
      obtain ⟨per, hper, h⟩ := bind_eq_ok_iff.mp h
      obtain ⟨rest, hrest, h⟩ := bind_eq_ok_iff.mp h
      obtain rfl := Except.ok.inj h
      exact List.forall_mem_cons.mpr ⟨nodup_queryEntry hper, ih hrest⟩

lemma searchPaths_ordered (o : MapOrder) :
    searchPaths (env.ordered o) req plan (selectNamed entries (selectedNames entries req)) =
      queryAll entries req plan >>= fun pers => pure (o.reply env req plan pers) := by
  rw [searchPaths, mergeEntries_ordered, bind_assoc]
  refine congrArg _ (funext fun pers => ?_)
  rw [pure_bind, foldl_mergeIn_nil]
  rfl

/-- In path mode the reply is an error, and nothing is selected, or the entries that are found. -/
lemma handleSearch_ordered (hplan : searchPlan env req = .ok plan)
    (hmode : (req.opts.lineNumbers || req.opts.context.isSome) = false) :
    (selectNamed entries (selectedNames entries req) = [] ∧ ∃ message, ∀ o : MapOrder,
      handleSearch (env.ordered o) entries req = .ok (.ok [.error message])) ∨
    ∀ o : MapOrder, handleSearch (env.ordered o) entries req =
      queryAll entries req plan >>= fun pers =>
        pure (.ok (pathFrames (o.reply env req plan pers))) := by
  have hplan : ∀ o : MapOrder, searchPlan (env.ordered o) req = .ok plan := fun _ => hplan
  by_cases hsel : req.db.isSome = true → selectedNames entries req ≠ []
  · refine Or.inr fun o => ?_
    rw [handleSearch_selected (hplan o) hsel, if_neg (by rw [hmode]; exact Bool.false_ne_true),
      searchPaths_ordered, bind_assoc]
    rfl
  · obtain ⟨hdb, hnames⟩ := Classical.not_imp.mp hsel
    have hnames := not_not.mp hnames
    obtain ⟨name, hname⟩ := Option.isSome_iff_exists.mp hdb
    refine Or.inl ⟨?_, unknownDbMessage entries name, fun o =>
      handleSearch_unknown (hplan o) hname hnames⟩
    rw [hnames]
    exact List.filter_eq_nil_iff.mpr fun _ _ => Bool.false_ne_true

/-- The reply lists the merged hits that pass the filters, unless the limit cuts them. -/
lemma MapOrder.mem_reply {n : ℕ} (hcap : mergeCap req = some n) (o : MapOrder) (h : Hit) :
    h ∈ o.reply env req plan pers ↔
      h ∈ o.merged (some n) pers ∧ passesAll env req plan h = true := by
  have hlimit : req.limit = some n := by
    rw [mergeCap] at hcap
    split at hcap
    · exact hcap
    · cases hcap
  have hsort := sortEntries_perm
    (filterHits env req plan (o.order 0 (o.merged (some n) pers))) req.opts.sort
  rw [reply, hcap, hlimit, takeOpt, List.take_of_length_le, hsort.mem_iff, mem_filterHits,
    (o.order_perm 0 _).mem_iff]
  rw [hsort.length_eq]
  have hlen : (o.merged (some n) pers).length ≤ n := List.length_take_le ..
  refine le_trans ?_ hlen
  rw [← (o.order_perm 0 (o.merged (some n) pers)).length_eq]
  exact (List.filter_sublist.trans (List.filter_sublist.trans List.filter_sublist)).length_le

lemma MapOrder.nodup_filterHits (o : MapOrder) (env : ConnEnv) (req : SearchRequest)
    (plan : SearchPlan) (cap : Option ℕ) (pers : List ResultMap) :
    ((filterHits env req plan (o.order 0 (o.merged cap pers))).map Prod.fst).Nodup := by
  have hread := ((o.order_perm 0 _).map Prod.fst).nodup_iff.mpr (o.nodup_merged cap pers)
  exact AssocMap.nodup_filter (AssocMap.nodup_filter (AssocMap.nodup_filter hread _) _) _

/-- Under the default order the reply depends on the merged hits that pass the filters alone. -/
lemma MapOrder.reply_eq (hsort : req.opts.sort = .default) (o o' : MapOrder)
    (h : ∀ x, passesAll env req plan x = true →
      (x ∈ o.merged (mergeCap req) pers ↔ x ∈ o'.merged (mergeCap req) pers)) :
    o.reply env req plan pers = o'.reply env req plan pers := by
  have hnodup := o.nodup_filterHits env req plan (mergeCap req) pers
  have hnodup' := o'.nodup_filterHits env req plan (mergeCap req) pers
  rw [reply, reply, hsort]
  refine congrArg (takeOpt req.limit) (sortEntries_default_eq hnodup ?_)
  refine (List.perm_ext_iff_of_nodup (List.Nodup.of_map _ hnodup)
    (List.Nodup.of_map _ hnodup')).mpr fun x => ?_
  rw [mem_filterHits, mem_filterHits, (o.order_perm 0 _).mem_iff, (o'.order_perm 0 _).mem_iff]
  exact and_congr_left (h x)

end Reply

/-- A path-mode search in the default order sends the same reply for every order of iteration,
exactly when the cap does not cut.  The default order is total on paths, so the sort undoes every
order; what it cannot undo is which paths the cap has let in. -/
theorem default_sort_reproducible_iff (env : ConnEnv) (entries : List DbEntry)
    {req : SearchRequest} (hsort : req.opts.sort = .default)
    (hmode : (req.opts.lineNumbers || req.opts.context.isSome) = false) :
    (∀ o o' : MapOrder, handleSearch (env.ordered o) entries req =
      handleSearch (env.ordered o') entries req) ↔ ¬ CapCuts env entries req := by
  constructor
  · rintro hsame ⟨plan, n, pers, hplan, hcap, hquery, before, per, after, path, value, hsplit,
      hroom, hover, hper, hnew, hvalue, hkeeps⟩
    have hpers := nodup_of_queryAll hquery
    rcases @handleSearch_ordered env entries req plan hplan hmode with ⟨hnone, -⟩ | hreply
    · rw [queryAll, hnone] at hquery
      obtain rfl := Except.ok.inj hquery
      simp at hsplit
    · have hframes := hsame (MapOrder.readFirst path) (MapOrder.readLast path)
      rw [hreply, hreply, hquery] at hframes
      have hhits := congrArg (List.flatMap ResponseFrame.batchHits)
        (Except.ok.inj (Except.ok.inj hframes))
      rw [batchHits_pathFrames, batchHits_pathFrames] at hhits
      -- The path that the cap falls on is in the reply when the maps are read with it first, and
      -- not when they are read with it last.
      have hfirst : (path, value) ∈ (MapOrder.readFirst path).reply env req plan pers := by
        rw [MapOrder.mem_reply hcap, MapOrder.mem_merged hpers]
        refine ⟨⟨hvalue, ?_⟩, hkeeps⟩
        rw [hsplit]
        exact mem_merged_readFirst hroom hper
      rw [hhits, MapOrder.mem_reply hcap, MapOrder.mem_merged hpers, hsplit] at hfirst
      exact notMem_merged_readLast hover hnew hfirst.1.2
  · intro hcut o o'
    by_cases hplan : ∃ plan, searchPlan env req = .ok plan
    · obtain ⟨plan, hplan⟩ := hplan
      rcases @handleSearch_ordered env entries req plan hplan hmode with ⟨-, message, herr⟩ | hreply
      · rw [herr, herr]
      · rw [hreply, hreply]
        cases hquery : queryAll entries req plan with
        | error e => rfl
        | ok pers =>
            have hpers := nodup_of_queryAll hquery
            refine congrArg (fun hits => Except.ok (Except.ok (pathFrames hits))) ?_
            -- Sorted replies are the same when they have the same entries.
            refine MapOrder.reply_eq hsort o o' fun x hkeeps => ?_
            cases hcap : mergeCap req with
            | none =>
                have hall : ∀ r : MapOrder, x.1 ∈ (r.merged none pers).map Prod.fst ↔
                    x.1 ∈ pathsOf pers := fun r =>
                  (mem_map_fst_mergeAll _ _).trans (r.mem_map_fst_hits 1 pers x.1)
                rw [o.mem_merged hpers, o'.mem_merged hpers, hall, hall]
            | some n =>
                have hnot : ¬ CutInside (passesAll env req plan) n pers := fun h =>
                  hcut ⟨plan, n, pers, hplan, hcap, hquery, h⟩
                exact ⟨fun h => MapOrder.mem_merged_of_not_cut hpers hnot o o' h hkeeps,
                  fun h => MapOrder.mem_merged_of_not_cut hpers hnot o' o h hkeeps⟩
    · rw [handleSearch, handleSearch]
      cases hbad : searchPlan env req with
      | ok plan => exact absurd ⟨plan, hbad⟩ hplan
      | error e =>
          have hboth : ∀ r : MapOrder, searchPlan (env.ordered r) req = .error e := fun _ => hbad
          rw [hboth, hboth]

/-- Without a limit the reply about two files is the same for every order. -/
theorem default_sort_reproducible_unlimited :
    ∃ src r, (DbBuilder.ofFiles [("/b/x", ⟨false, 1, 0⟩), ("/b/xy", ⟨false, 1, 0⟩)] 0).finish
        .stored = .ok src ∧ DbReader.open src = .ok r ∧
      ∀ o o' : MapOrder,
        handleSearch (plainEnv.ordered o)
          [⟨"b", r.view .stored, [], {}⟩] { query := "x" } =
        handleSearch (plainEnv.ordered o')
          [⟨"b", r.view .stored, [], {}⟩] { query := "x" } := by
  obtain ⟨src, r, hfinish, hopen, -⟩ := @DbBuilder.stored_indexes
    [("/b/x", ⟨false, 1, 0⟩), ("/b/xy", ⟨false, 1, 0⟩)] (by decide +kernel)
  refine ⟨src, r, hfinish, hopen, (default_sort_reproducible_iff _ _ rfl rfl).mpr ?_⟩
  rintro ⟨plan, n, pers, -, hcap, -⟩
  cases hcap

/-! ## A limit across two databases -/

/-- A filename query of a database without changes. -/
lemma queryEntry_names {db : FilenameDb} {docs : List (String × LiteMeta)} (h : db.Indexes docs)
    {ctx : QueryCtx} (hfn : ctx.wantFn = true) (hct : ctx.wantCt = false)
    (hkeep : ColdKeeps ctx.fnCase ctx.needle docs) (name : String) (cap : Option ℕ) :
    queryEntry ctx ⟨name, db, [], {}⟩ cap =
      .ok ((filenameHits ctx docs (takeOpt ctx.effLimit
        (docsWhere docs (coldAccepts ctx.fnCase ctx.needle)))).foldl (mergeIn cap) []) := by
  have hlt : ∀ d ∈ takeOpt ctx.effLimit (docsWhere docs (coldAccepts ctx.fnCase ctx.needle)),
      d < docs.length := fun d hd =>
    List.mem_range.mp (List.mem_of_mem_filter ((takeOpt_sublist _ _).subset hd))
  have hnames : filenameLayer ctx db cap = .ok ((filenameHits ctx docs (takeOpt ctx.effLimit
      (docsWhere docs (coldAccepts ctx.fnCase ctx.needle)))).foldl (mergeIn cap) []) := by
    rw [filenameLayer, if_pos hfn, h.queryDocids_eq_accepts hkeep, Res.unwrapOr_ok, bind_ok,
      filenameLoop_eq h ctx cap hlt allFilename_nil]
  have hov : overlayFilenameLayer ctx {} = [] := by
    rw [overlayFilenameLayer, if_pos hfn]
    rfl
  rw [queryEntry]
  dsimp only
  rw [hnames, bind_ok, contentLayer, hct, if_neg Bool.false_ne_true, hov, overlayContentLayer, hct,
    if_neg Bool.false_ne_true]
  rfl

/-- A hit of the filename layer on a file of one byte. -/
def nameHit (path : String) : Hit := (path, ⟨false, 1, 0⟩, .filename)

/-- The plan of a request for names with an `x`. -/
def twoPathsPlan : SearchPlan where
  caseSensitive := false
  re := none
  reContent := none
  needle := "x"
  fnCase := false
  folded := fold (utf8 (toLowercase "x"))

/-- Paths with an `x` in their file name. -/
def namesWithX : SearchRequest where
  query := "x"
  opts := { layers := { content := false }, pathMode := .basename }

/-- The reply about the paths of a database without changes. -/
lemma handleSearch_namesWithX {view : FilenameDb} {docs : List (String × LiteMeta)}
    (h : view.Indexes docs) (o : MapOrder) (limit : Option ℕ) :
    handleSearch (plainEnv.ordered o) [⟨"default", view, [], {}⟩] { namesWithX with limit := limit } =
      .ok (.ok (pathFrames (o.reply plainEnv { namesWithX with limit := limit } twoPathsPlan
        [(filenameHits (queryCtx namesWithX twoPathsPlan) docs
          (takeOpt limit (docsWhere docs (coldAccepts false "x")))).foldl (mergeIn limit) []]))) := by
  have hquery := @queryEntry_names view docs h
    (queryCtx { namesWithX with limit := limit } twoPathsPlan) rfl rfl (coldKeeps_false "x" _)
    "default" limit
  rcases @handleSearch_ordered plainEnv [⟨"default", view, [], {}⟩]
    { namesWithX with limit := limit } twoPathsPlan rfl rfl with ⟨hnone, -⟩ | hreply
  · cases hnone
  · have hall : queryAll [⟨"default", view, [], {}⟩] { namesWithX with limit := limit }
        twoPathsPlan = queryEntry (queryCtx { namesWithX with limit := limit } twoPathsPlan)
          ⟨"default", view, [], {}⟩ limit >>= fun per => pure [per] := rfl
    rw [hreply, hall, hquery]
    rfl

/-- A file name with an `x` is found. -/
lemma handleSearch_oneName {view : FilenameDb} (h : view.Indexes [("/d/x", ⟨false, 1, 0⟩)]) :
    handleSearch plainEnv [⟨"default", view, [], {}⟩] namesWithX =
      .ok (.ok [batchFrame [nameHit "/d/x"], .done 1]) := by
  have hreply := handleSearch_namesWithX h MapOrder.filled none
  have hhits : MapOrder.filled.reply plainEnv namesWithX twoPathsPlan
      [(filenameHits (queryCtx namesWithX twoPathsPlan) [("/d/x", ⟨false, 1, 0⟩)] (takeOpt none
        (docsWhere [("/d/x", ⟨false, 1, 0⟩)] (coldAccepts false "x")))).foldl (mergeIn none) []] =
      [nameHit "/d/x"] := by
    have hmerged : filterHits plainEnv namesWithX twoPathsPlan (MapOrder.filled.order 0
        (MapOrder.filled.merged none [(filenameHits (queryCtx namesWithX twoPathsPlan)
          [("/d/x", ⟨false, 1, 0⟩)] (takeOpt none (docsWhere [("/d/x", ⟨false, 1, 0⟩)]
            (coldAccepts false "x")))).foldl (mergeIn none) []])) = [nameHit "/d/x"] := by
      decide +kernel
    have hsorted := sortEntries_perm [nameHit "/d/x"] namesWithX.opts.sort
    rw [MapOrder.reply]
    change takeOpt none (sortEntries (filterHits plainEnv namesWithX twoPathsPlan _) _) = _
    exact (congrArg (fun l => sortEntries l namesWithX.opts.sort) hmerged).trans
      (List.perm_singleton.mp hsorted)
  exact hreply.trans (congrArg (fun hits => Except.ok (Except.ok (pathFrames hits))) hhits)

section TwoDatabases

/-- Two paths with an `x` in them. -/
def twoPaths : SearchRequest where
  query := "x"
  limit := some 2
  opts := { layers := { content := false } }

variable {a b : FilenameDb}

lemma queryAll_twoPaths (ha : a.Indexes [("/a/x", ⟨false, 1, 0⟩)])
    (hb : b.Indexes [("/b/x", ⟨false, 1, 0⟩), ("/b/xy", ⟨false, 1, 0⟩)]) :
    queryAll [⟨"a", a, [], {}⟩, ⟨"b", b, [], {}⟩] twoPaths twoPathsPlan =
      .ok [[nameHit "/a/x"], [nameHit "/b/x", nameHit "/b/xy"]] := by
  have hfst := @queryEntry_names a _ ha (queryCtx twoPaths twoPathsPlan) rfl rfl
    (coldKeeps_false "x" _) "a" (some 2)
  have hsnd := @queryEntry_names b _ hb (queryCtx twoPaths twoPathsPlan) rfl rfl
    (coldKeeps_false "x" _) "b" (some 2)
  have hall : queryAll [⟨"a", a, [], {}⟩, ⟨"b", b, [], {}⟩] twoPaths twoPathsPlan =
      queryEntry (queryCtx twoPaths twoPathsPlan) ⟨"a", a, [], {}⟩ (some 2) >>= fun fst =>
        queryEntry (queryCtx twoPaths twoPathsPlan) ⟨"b", b, [], {}⟩ (some 2) >>= fun snd =>
          pure [fst, snd] := by
    rfl
  rw [hall, hfst, bind_ok, hsnd, bind_ok]
  apply congrArg Except.ok
  decide +kernel

lemma handleSearch_twoPaths (ha : a.Indexes [("/a/x", ⟨false, 1, 0⟩)])
    (hb : b.Indexes [("/b/x", ⟨false, 1, 0⟩), ("/b/xy", ⟨false, 1, 0⟩)]) (o : MapOrder) :
    handleSearch (plainEnv.ordered o) [⟨"a", a, [], {}⟩, ⟨"b", b, [], {}⟩] twoPaths =
      .ok (.ok (pathFrames (o.reply plainEnv twoPaths twoPathsPlan
        [[nameHit "/a/x"], [nameHit "/b/x", nameHit "/b/xy"]]))) := by
  rcases @handleSearch_ordered plainEnv [⟨"a", a, [], {}⟩, ⟨"b", b, [], {}⟩] twoPaths
    twoPathsPlan rfl rfl with ⟨hnone, -⟩ | hreply
  · cases hnone
  · rw [hreply, queryAll_twoPaths ha hb]
    rfl

lemma MapOrder.reply_of_sorted {o : MapOrder} {pers : List ResultMap} {hits : List Hit}
    (hperm : hits.Perm (filterHits plainEnv twoPaths twoPathsPlan
      (o.order 0 (o.merged (some 2) pers)))) (hnodup : (hits.map Prod.fst).Nodup)
    (hsorted : hits.Pairwise fun a b => defaultLe a b = true) :
    o.reply plainEnv twoPaths twoPathsPlan pers = takeOpt (some 2) hits := by
  have hsort := sortEntries_default_eq hnodup hperm
  rw [sortEntries, List.mergeSort_of_pairwise hsorted] at hsort
  rw [hsort]
  rfl

/-- With a limit of two and one path found in the first database, the order of the second one's
map decides which of its two paths is reported. -/
theorem capped_merge_follows_map_order :
    ∃ srcA a srcB b, (DbBuilder.ofFiles [("/a/x", ⟨false, 1, 0⟩)] 0).finish .stored = .ok srcA ∧
      DbReader.open srcA = .ok a ∧
      (DbBuilder.ofFiles [("/b/x", ⟨false, 1, 0⟩), ("/b/xy", ⟨false, 1, 0⟩)] 0).finish .stored =
        .ok srcB ∧ DbReader.open srcB = .ok b ∧
      handleSearch (plainEnv.ordered MapOrder.filled)
          [⟨"a", a.view .stored, [], {}⟩, ⟨"b", b.view .stored, [], {}⟩] twoPaths =
        .ok (.ok (pathFrames [nameHit "/a/x", nameHit "/b/x"])) ∧
      handleSearch (plainEnv.ordered (MapOrder.readFirst "/b/xy"))
          [⟨"a", a.view .stored, [], {}⟩, ⟨"b", b.view .stored, [], {}⟩] twoPaths =
        .ok (.ok (pathFrames [nameHit "/a/x", nameHit "/b/xy"])) ∧
      ¬ ∀ o o' : MapOrder, handleSearch (plainEnv.ordered o)
          [⟨"a", a.view .stored, [], {}⟩, ⟨"b", b.view .stored, [], {}⟩] twoPaths =
        handleSearch (plainEnv.ordered o')
          [⟨"a", a.view .stored, [], {}⟩, ⟨"b", b.view .stored, [], {}⟩] twoPaths := by
  obtain ⟨srcA, a, hfinishA, hopenA, ha⟩ := @DbBuilder.stored_indexes
    [("/a/x", ⟨false, 1, 0⟩)] (by decide +kernel)
  obtain ⟨srcB, b, hfinishB, hopenB, hb⟩ := @DbBuilder.stored_indexes
    [("/b/x", ⟨false, 1, 0⟩), ("/b/xy", ⟨false, 1, 0⟩)] (by decide +kernel)
  have hfilled := handleSearch_twoPaths ha hb MapOrder.filled
  have hread := handleSearch_twoPaths ha hb (MapOrder.readFirst "/b/xy")
  have hfst : MapOrder.filled.reply plainEnv twoPaths twoPathsPlan
      [[nameHit "/a/x"], [nameHit "/b/x", nameHit "/b/xy"]] =
      [nameHit "/a/x", nameHit "/b/x"] :=
    @MapOrder.reply_of_sorted _ _ [nameHit "/a/x", nameHit "/b/x"] (by decide +kernel) (by decide)
      (by decide +kernel)
  have hsnd : (MapOrder.readFirst "/b/xy").reply plainEnv twoPaths twoPathsPlan
      [[nameHit "/a/x"], [nameHit "/b/x", nameHit "/b/xy"]] =
      [nameHit "/a/x", nameHit "/b/xy"] :=
    @MapOrder.reply_of_sorted _ _ [nameHit "/a/x", nameHit "/b/xy"] (by decide +kernel) (by decide)
      (by decide +kernel)
  rw [hfst] at hfilled
  rw [hsnd] at hread
  refine ⟨srcA, a, srcB, b, hfinishA, hopenA, hfinishB, hopenB, hfilled, hread, fun hsame => ?_⟩
  have hframes := hfilled.symm.trans ((hsame _ _).trans hread)
  have hhits := congrArg (List.flatMap ResponseFrame.batchHits)
    (Except.ok.inj (Except.ok.inj hframes))
  rw [batchHits_pathFrames, batchHits_pathFrames] at hhits
  exact absurd hhits (by decide)

end TwoDatabases

end DeepFinder
