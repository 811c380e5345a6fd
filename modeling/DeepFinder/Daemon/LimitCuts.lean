import DeepFinder.Daemon.HeldDocs
import DeepFinder.Daemon.Reproducible

/-!
# What a limit cuts

A limit splits the finds of each layer in two, before anything else is done with them: what is
within the limit goes on to be filtered, verified and merged, and what is beyond it is lost
(`Finds.within`, `Finds.beyond`).  A database then shows the paths of its hot finds, and of its cold
finds those that its overlay does not shadow (`Database.shownPaths`).

Three facts about the answer of a database under a limit are proved here, for `Daemon/Limits.lean`:

- a path of which nothing is lost is answered as without the limit (`Database.lookup_answer_within`);
- the cap on the merge keeps some of the paths, and says of these all there is to say
  (`Database.lookup_answer_capped`);
- it keeps all of them, or as many as it may, unless more of the first cold paths are shadowed than
  the overlay finds again (`Database.length_answer_capped`).
-/

namespace DeepFinder

open ByteString

/-! ## The two parts of the finds -/

def dropOpt {α : Type} : Option ℕ → List α → List α
  | none, _ => []
  | some n, l => l.drop n

lemma takeOpt_append_dropOpt {α : Type} (limit : Option ℕ) (l : List α) :
    takeOpt limit l ++ dropOpt limit l = l := by
  cases limit with
  | none => exact List.append_nil l
  | some n => exact List.take_append_drop n l

def Finds.within (finds : Finds) (effLimit limit : Option ℕ) : Finds where
  fn := takeOpt effLimit finds.fn
  ct := finds.ct.map (takeOpt limit)
  ovFn := takeOpt limit finds.ovFn
  ovCt := takeOpt limit finds.ovCt

def Finds.beyond (finds : Finds) (effLimit limit : Option ℕ) : Finds where
  fn := dropOpt effLimit finds.fn
  ct := finds.ct.map (dropOpt limit)
  ovFn := dropOpt limit finds.ovFn
  ovCt := dropOpt limit finds.ovCt

section Parts

variable {finds : Finds} {ctx : QueryCtx} {effLimit limit : Option ℕ} {x : String}

lemma Finds.cold_within : (finds.within effLimit limit).cold (ctx.withLimits none none) =
    finds.cold (ctx.withLimits effLimit limit) := by
  unfold Finds.cold Finds.within
  rw [List.flatMap_map]
  rfl

lemma Finds.hot_within : (finds.within effLimit limit).hot (ctx.withLimits none none) =
    finds.hot (ctx.withLimits effLimit limit) := rfl

lemma filter_within {α : Type} {l : List α} (keep : α → Bool) (g : α → Hit)
    (h : x ∉ (((dropOpt limit l).filter keep).map g).map Prod.fst) :
    (((takeOpt limit l).filter keep).map g).filter (fun hit => decide (hit.1 = x)) =
      ((l.filter keep).map g).filter fun hit => decide (hit.1 = x) := by
  have hlost : (((dropOpt limit l).filter keep).map g).filter (fun hit => decide (hit.1 = x)) =
      [] := by
    refine List.filter_eq_nil_iff.mpr fun hit hhit hx => h ?_
    exact List.mem_map.mpr ⟨hit, hhit, of_decide_eq_true hx⟩
  conv_rhs => rw [← takeOpt_append_dropOpt limit l, List.filter_append, List.map_append,
    List.filter_append, hlost, List.append_nil]

/-- The cold hits at a path that are within the limits, when none is beyond them. -/
lemma Finds.filter_cold_within
    (h : x ∉ ((finds.beyond effLimit limit).cold (ctx.withLimits none none)).map Prod.fst) :
    ((finds.within effLimit limit).cold (ctx.withLimits none none)).filter
        (fun hit => decide (hit.1 = x)) =
      (finds.cold (ctx.withLimits none none)).filter fun hit => decide (hit.1 = x) := by
  unfold Finds.cold Finds.within Finds.beyond at *
  rw [List.map_append, List.mem_append, not_or] at h
  rw [List.filter_append, List.filter_append]
  refine congrArg₂ (· ++ ·) ?_ ?_
  · cases hfn : (ctx.withLimits none none).wantFn with
    | false => rfl
    | true =>
        rw [hfn] at h
        exact filter_within _ _ h.1
  · cases hct : (ctx.withLimits none none).wantCt with
    | false => rfl
    | true =>
        rw [hct] at h
        have h := h.2
        simp only [if_true, List.flatMap_map, List.map_flatMap, List.mem_flatMap, not_exists,
          not_and] at h
        simp only [if_true, List.flatMap_map, List.filter_flatMap]
        exact List.flatMap_congr fun found hfound => filter_within _ _ (h found hfound)

/-- The hot hits at a path that are within the limits, when none is beyond them. -/
lemma Finds.filter_hot_within
    (h : x ∉ ((finds.beyond effLimit limit).hot (ctx.withLimits none none)).map Prod.fst) :
    ((finds.within effLimit limit).hot (ctx.withLimits none none)).filter
        (fun hit => decide (hit.1 = x)) =
      (finds.hot (ctx.withLimits none none)).filter fun hit => decide (hit.1 = x) := by
  unfold Finds.hot Finds.within Finds.beyond at *
  rw [List.map_append, List.mem_append, not_or] at h
  rw [List.filter_append, List.filter_append]
  refine congrArg₂ (· ++ ·) ?_ ?_
  · cases hfn : (ctx.withLimits none none).wantFn with
    | false => rfl
    | true =>
        rw [hfn] at h
        exact filter_within _ _ h.1
  · cases hct : (ctx.withLimits none none).wantCt with
    | false => rfl
    | true =>
        rw [hct] at h
        exact filter_within _ _ h.2

end Parts

/-! ## The answer of a database -/

section Answer

variable {o : Overlay} {known : Finset String} {cold cold' hot hot' : List Hit} {x : String}

/-- What is answered for a path is up to the hits at it, and to the cold ones only if the overlay
does not shadow it. -/
lemma lookup_answerOf_congr (ho : o.Inv known)
    (hcold : o.version x = none → cold.filter (fun h => decide (h.1 = x)) =
      cold'.filter fun h => decide (h.1 = x))
    (hhot : hot.filter (fun h => decide (h.1 = x)) = hot'.filter fun h => decide (h.1 = x)) :
    (answerOf none o cold hot).lookup x = (answerOf none o cold' hot').lookup x := by
  have hover : ∀ hits : List Hit, ((hits.map overrideUpdate).filter fun e => e.1 = x) =
      (hits.filter fun h => decide (h.1 = x)).map overrideUpdate := fun hits => List.filter_map
  have hmerge : ∀ hits : List Hit, ((hits.map mergeUpdate).filter fun e => e.1 = x) =
      (hits.filter fun h => decide (h.1 = x)).map mergeUpdate := fun hits => List.filter_map
  have hstart : (dropShadowed o (mergeAll cold)).lookup x =
      (dropShadowed o (mergeAll cold')).lookup x := by
    rw [lookup_dropShadowed ho, lookup_dropShadowed ho]
    by_cases hv : o.version x = none
    · rw [if_pos hv, if_pos hv, mergeAll_eq, mergeAll_eq, AssocMap.lookup_putAll,
        AssocMap.lookup_putAll, ← AssocMap.updates_filter, hmerge, hcold hv, ← hmerge,
        AssocMap.updates_filter]
    · rw [if_neg hv, if_neg hv]
  rw [answerOf_eq, answerOf_eq]
  change (AssocMap.putAll _ (dropShadowed o (mergeAll cold))).lookup x =
    (AssocMap.putAll _ (dropShadowed o (mergeAll cold'))).lookup x
  rw [AssocMap.lookup_putAll, AssocMap.lookup_putAll, hstart, ← AssocMap.updates_filter, hover, hhot,
    ← hover, AssocMap.updates_filter]

lemma mem_map_fst_dropShadowed (ho : o.Inv known) (map : ResultMap) :
    x ∈ (dropShadowed o map).map Prod.fst ↔ x ∈ map.map Prod.fst ∧ o.version x = none := by
  have hkey : ∀ m : ResultMap, x ∈ m.map Prod.fst ↔ m.lookup x ≠ none := fun m =>
    (not_iff_not.mp (AssocMap.lookup_eq_none.symm.trans (not_not (a := m.lookup x = none)).symm))
  rw [hkey, hkey, lookup_dropShadowed ho]
  by_cases hv : o.version x = none
  · rw [if_pos hv, and_iff_left hv]
  · rw [if_neg hv]
    exact iff_of_false (fun h => h rfl) fun h => hv h.2

lemma mem_map_fst_answerOf (ho : o.Inv known) :
    x ∈ (answerOf none o cold hot).map Prod.fst ↔
      x ∈ hot.map Prod.fst ∨ (x ∈ cold.map Prod.fst ∧ o.version x = none) := by
  rw [answerOf_eq]
  change x ∈ (AssocMap.putAll _ (dropShadowed o (mergeAll cold))).map Prod.fst ↔ _
  rw [AssocMap.mem_map_fst_putAll, mem_map_fst_dropShadowed ho, mem_map_fst_mergeAll,
    map_fst_overrideUpdate, or_comm]

/-- Merging under a cap: the paths that are kept are answered as without it. -/
lemma lookup_answerOf_capped (ho : o.Inv known) (hhot : ∀ h ∈ hot, o.version h.1 ≠ none)
    (cap : Option ℕ) (hx : x ∈ (answerOf cap o cold hot).map Prod.fst) :
    (answerOf cap o cold hot).lookup x = (answerOf none o cold hot).lookup x := by
  have hsub : ∀ {map : ResultMap}, (map.map Prod.fst).Nodup → x ∈ (takeOpt cap map).map Prod.fst →
      (takeOpt cap map).lookup x = map.lookup x := by
    intro map hmap hmem
    obtain ⟨e, he, rfl⟩ := List.mem_map.mp hmem
    rw [AssocMap.lookup_of_mem (hmap.sublist ((takeOpt_sublist cap map).map Prod.fst)) he,
      AssocMap.lookup_of_mem hmap ((takeOpt_sublist cap map).subset he)]
  have hdrop : (dropShadowed o (takeOpt cap (mergeAll cold))).lookup x =
      (dropShadowed o (mergeAll cold)).lookup x ∨ x ∉ hot.map Prod.fst := by
    by_cases hmem : x ∈ hot.map Prod.fst
    · -- a hot path is shadowed, so that both maps have lost it
      obtain ⟨h, hh, rfl⟩ := List.mem_map.mp hmem
      left
      rw [lookup_dropShadowed ho, lookup_dropShadowed ho, if_neg (hhot h hh), if_neg (hhot h hh)]
    · exact Or.inr hmem
  have hmap : ((AssocMap.putAll (hot.map overrideUpdate)
      (dropShadowed o (takeOpt cap (mergeAll cold)))).map Prod.fst).Nodup := by
    refine AssocMap.nodup_putAll ?_
    have hcold := (nodup_mergeAll cold).sublist ((takeOpt_sublist cap _).map Prod.fst)
    unfold dropShadowed
    split
    · exact AssocMap.nodup_filter hcold _
    · exact hcold
  rw [answerOf_eq] at hx ⊢
  rw [answerOf_eq, hsub hmap hx]
  have hx := (AssocMap.mem_map_fst_putAll.mp
    (((takeOpt_sublist cap _).map Prod.fst).subset hx)).symm
  rw [map_fst_overrideUpdate] at hx
  change _ = (AssocMap.putAll _ (dropShadowed o (mergeAll cold))).lookup x
  rw [AssocMap.lookup_putAll, AssocMap.lookup_putAll]
  refine congrArg _ (hdrop.elim id fun hcoldOnly => ?_)
  -- a cold path that is kept was among the first
  have hkept := (mem_map_fst_dropShadowed ho _).mp (hx.resolve_left hcoldOnly)
  rw [lookup_dropShadowed ho, lookup_dropShadowed ho, if_pos hkept.2, if_pos hkept.2,
    hsub (nodup_mergeAll cold) hkept.1]

/-- A cap that leaves room for all paths changes nothing. -/
lemma answerOf_of_room {n : ℕ}
    (hcold : (cold.map Prod.fst).toFinset.card ≤ n)
    (hall : (answerOf none o cold hot).length ≤ n) :
    answerOf (some n) o cold hot = answerOf none o cold hot := by
  have hlen : (mergeAll cold).length = (cold.map Prod.fst).toFinset.card := by
    rw [mergeAll_eq, AssocMap.length_putAll, map_fst_mergeUpdate]
  rw [answerOf_eq] at hall ⊢
  rw [answerOf_eq]
  have hfirst : takeOpt (some n) (mergeAll cold) = mergeAll cold :=
    List.take_of_length_le (hlen.trans_le hcold)
  rw [hfirst]
  exact List.take_of_length_le hall

/-- The first `n` different paths. -/
def firstPaths (n : ℕ) (paths : List String) : List String := paths.eraseDups.take n

lemma map_fst_mergeAll (hits : List Hit) :
    (mergeAll hits).map Prod.fst = (hits.map Prod.fst).eraseDups := by
  rw [mergeAll_eq, AssocMap.map_fst_putAll, map_fst_mergeUpdate]
  simp

/-- A cap that does not leave room for all paths keeps as many as it may, when the overlay finds at
least as many paths as it shadows among the first cold ones. -/
lemma length_answerOf_capped (ho : o.Inv known) (hhot : ∀ h ∈ hot, o.version h.1 ≠ none) {n : ℕ}
    (hover : n < (cold.map Prod.fst).toFinset.card ∨ n < (answerOf none o cold hot).length)
    (hback : (cold.map Prod.fst).toFinset.card ≤ n ∨
      ((firstPaths n (cold.map Prod.fst)).filter fun p => (o.version p).isSome).length ≤
        (hot.map Prod.fst).toFinset.card) :
    (answerOf (some n) o cold hot).length = n := by
  have hlen : (mergeAll cold).length = (cold.map Prod.fst).toFinset.card := by
    rw [mergeAll_eq, AssocMap.length_putAll, map_fst_mergeUpdate]
  by_cases hcold : (cold.map Prod.fst).toFinset.card ≤ n
  · -- all cold paths are kept, and the cap falls among the hot ones
    have hall := hover.resolve_left (Nat.not_lt.mpr hcold)
    have hfirst : takeOpt (some n) (mergeAll cold) = mergeAll cold :=
      List.take_of_length_le (hlen.trans_le hcold)
    rw [answerOf_eq] at hall ⊢
    rw [hfirst, takeOpt, List.length_take]
    exact Nat.min_eq_left hall.le
  · -- the hot paths take the places of the shadowed ones
    have hback := hback.resolve_left hcold
    have hfirst : ((mergeAll cold).take n).map Prod.fst = firstPaths n (cold.map Prod.fst) := by
      rw [List.map_take, map_fst_mergeAll, firstPaths]
    have hnodup : ((mergeAll cold).take n |>.map Prod.fst).Nodup :=
      (nodup_mergeAll cold).sublist ((List.take_sublist n _).map Prod.fst)
    have hdrop : ((dropShadowed o ((mergeAll cold).take n)).map Prod.fst).Nodup := by
      unfold dropShadowed
      split
      · exact AssocMap.nodup_filter hnodup _
      · exact hnodup
    have hleft : (dropShadowed o ((mergeAll cold).take n)).length =
        ((firstPaths n (cold.map Prod.fst)).filter fun p => !(o.version p).isSome).length := by
      rw [← List.length_map Prod.fst]
      refine List.Perm.length_eq ((List.perm_ext_iff_of_nodup hdrop
        ((hfirst ▸ hnodup).filter _)).mpr fun p => ?_)
      rw [mem_map_fst_dropShadowed ho, hfirst, List.mem_filter]
      simp
    have hdisjoint : Disjoint ((dropShadowed o ((mergeAll cold).take n)).map Prod.fst).toFinset
        (hot.map Prod.fst).toFinset := by
      rw [Finset.disjoint_left]
      intro p hp hp'
      obtain ⟨h, hh, rfl⟩ := List.mem_map.mp (List.mem_toFinset.mp hp')
      exact hhot h hh ((mem_map_fst_dropShadowed ho _).mp (List.mem_toFinset.mp hp)).2
    have hlong : (firstPaths n (cold.map Prod.fst)).length = n := by
      rw [← hfirst, List.length_map, List.length_take, hlen]
      omega
    have hsplit := (firstPaths n (cold.map Prod.fst)).length_eq_length_filter_add
      fun p => (o.version p).isSome
    rw [answerOf_eq, takeOpt, takeOpt, List.length_take, AssocMap.length_putAll_append _ hdrop,
      map_fst_overrideUpdate, List.toFinset_append, Finset.card_union_of_disjoint hdisjoint,
      List.toFinset_card_of_nodup hdrop, List.length_map, hleft]
    omega

end Answer

/-! ## Databases -/

def SearchRequest.limited (req : SearchRequest) (limit : Option ℕ) : SearchRequest :=
  { req with limit := limit }

def freeCtx (req : SearchRequest) (plan : SearchPlan) : QueryCtx :=
  (queryCtx req plan).withLimits none none

/-- The paths of cold finds that pass scope, basename mode and content regex. -/
def Finds.coldPaths (finds : Finds) (req : SearchRequest) (plan : SearchPlan) : List String :=
  (finds.cold (freeCtx req plan)).map Prod.fst

def Finds.hotPaths (finds : Finds) (req : SearchRequest) (plan : SearchPlan) : List String :=
  (finds.hot (freeCtx req plan)).map Prod.fst

/-- The paths that a database shows when its layers find this. -/
def Database.shownPaths (db : Database) (req : SearchRequest) (plan : SearchPlan) (finds : Finds) :
    List String :=
  finds.hotPaths req plan ++ (finds.coldPaths req plan).filter fun p => !db.shadows p

/-- What the layers of a database find for a request. -/
def Database.layerFinds (db : Database) (req : SearchRequest) (plan : SearchPlan) : Finds :=
  db.entry.finds db.docs db.filess (queryCtx req plan)

/-- What of this is within a limit of `n`; under a scope the filename index is asked without one. -/
def Database.within (db : Database) (req : SearchRequest) (plan : SearchPlan) (n : ℕ) : Finds :=
  (db.layerFinds req plan).within (if req.scope.isSome then none else some n) (some n)

/-- What of this is beyond a limit of `n`. -/
def Database.beyond (db : Database) (req : SearchRequest) (plan : SearchPlan) (n : ℕ) : Finds :=
  (db.layerFinds req plan).beyond (if req.scope.isSome then none else some n) (some n)

/-- A cap of `n` on the merge does not leave room for all paths within the limit. -/
def Database.Overfull (db : Database) (req : SearchRequest) (plan : SearchPlan) (n : ℕ) : Prop :=
  n < ((db.within req plan n).coldPaths req plan).toFinset.card ∨
    n < (db.shownPaths req plan (db.within req plan n)).toFinset.card

/-- The overlay finds at least as many paths as it shadows among the first `n` cold ones, if these
are not all cold ones. -/
def Database.Refills (db : Database) (req : SearchRequest) (plan : SearchPlan) (n : ℕ) : Prop :=
  ((db.within req plan n).coldPaths req plan).toFinset.card ≤ n ∨
    ((firstPaths n ((db.within req plan n).coldPaths req plan)).filter db.shadows).length ≤
      ((db.within req plan n).hotPaths req plan).toFinset.card

/-- The answer of a database whose layers find this. -/
def Database.answer (db : Database) (req : SearchRequest) (plan : SearchPlan) (cap : Option ℕ)
    (finds : Finds) : ResultMap :=
  answerOf cap db.entry.overlay (finds.cold (freeCtx req plan)) (finds.hot (freeCtx req plan))

section Databases

variable {db : Database} {req : SearchRequest} {plan : SearchPlan} {n : ℕ} {x : String}

lemma Database.version_eq_none (db : Database) (p : String) :
    db.entry.overlay.version p = none ↔ db.shadows p = false := by
  rw [db.inv.2, Database.shadows, Option.isSome_eq_false_iff, Option.isNone_iff_eq_none]

lemma Database.queryEntry_unlimited (db : Database) (req : SearchRequest) (plan : SearchPlan)
    (cap : Option ℕ) : queryEntry (queryCtx (req.limited none) plan) db.entry cap =
      .ok (db.answer req plan cap (db.layerFinds req plan)) := by
  have hctx : queryCtx (req.limited none) plan = (queryCtx req plan).withLimits none none := by
    unfold queryCtx QueryCtx.withLimits SearchRequest.limited
    simp
  rw [hctx, (db.holds.queryEntry_finds (queryCtx req plan)).2]
  rfl

lemma Database.queryEntry_limited (db : Database) (req : SearchRequest) (plan : SearchPlan) (n : ℕ)
    (cap : Option ℕ) : queryEntry (queryCtx (req.limited (some n)) plan) db.entry cap =
      .ok (db.answer req plan cap (db.within req plan n)) := by
  have hctx : queryCtx (req.limited (some n)) plan = (queryCtx req plan).withLimits
      (if req.scope.isSome then none else some n) (some n) := rfl
  rw [hctx, (db.holds.queryEntry_finds (queryCtx req plan)).2, Database.answer, freeCtx,
    Database.within, Finds.cold_within, Finds.hot_within]
  rfl

lemma Database.version_hot_within {hit : Hit}
    (h : hit ∈ (db.within req plan n).hot (freeCtx req plan)) :
    db.entry.overlay.version hit.1 ≠ none := by
  rw [Database.within, freeCtx, Finds.hot_within] at h
  obtain ⟨v, hv⟩ := (db.holds.queryEntry_finds (queryCtx req plan)).1.version_hot db.inv.1 h
  rw [hv]
  exact Option.some_ne_none _

lemma Database.mem_answer (db : Database) (req : SearchRequest) (plan : SearchPlan) (finds : Finds)
    (x : String) :
    x ∈ (db.answer req plan none finds).map Prod.fst ↔ x ∈ db.shownPaths req plan finds := by
  rw [Database.answer, mem_map_fst_answerOf db.inv.1, db.version_eq_none, Database.shownPaths,
    List.mem_append, List.mem_filter, Bool.not_eq_true']
  rfl

lemma Database.length_answer (db : Database) (req : SearchRequest) (plan : SearchPlan)
    (finds : Finds) : (db.answer req plan none finds).length =
      (db.shownPaths req plan finds).toFinset.card := by
  have hnodup : ((db.answer req plan none finds).map Prod.fst).Nodup := nodup_answerOf _ _ _
  rw [← List.length_map Prod.fst, ← List.toFinset_card_of_nodup hnodup]
  refine congrArg Finset.card (Finset.ext fun p => ?_)
  rw [List.mem_toFinset, List.mem_toFinset]
  exact db.mem_answer req plan finds p

lemma Database.lookup_answer_within (h : x ∉ db.shownPaths req plan (db.beyond req plan n)) :
    (db.answer req plan none (db.within req plan n)).lookup x =
      (db.answer req plan none (db.layerFinds req plan)).lookup x := by
  rw [Database.shownPaths, List.mem_append, not_or, List.mem_filter] at h
  refine lookup_answerOf_congr db.inv.1 (fun hv => Finds.filter_cold_within fun hcold => ?_)
    (Finds.filter_hot_within h.1)
  exact h.2 ⟨hcold, by rw [(db.version_eq_none x).mp hv]; rfl⟩

lemma Database.lookup_answer_capped {cap : Option ℕ}
    (h : x ∈ (db.answer req plan cap (db.within req plan n)).map Prod.fst) :
    (db.answer req plan cap (db.within req plan n)).lookup x =
      (db.answer req plan none (db.within req plan n)).lookup x :=
  lookup_answerOf_capped db.inv.1 (fun _ hhit => Database.version_hot_within hhit) cap h

lemma Database.answer_of_room (h : ¬ db.Overfull req plan n) :
    db.answer req plan (some n) (db.within req plan n) =
      db.answer req plan none (db.within req plan n) := by
  rw [Database.Overfull, not_or, Nat.not_lt, Nat.not_lt] at h
  exact answerOf_of_room h.1 ((db.length_answer req plan _).trans_le h.2)

/-- A cap that does not leave room keeps as many paths as it may. -/
lemma Database.length_answer_capped (hover : db.Overfull req plan n)
    (hback : db.Refills req plan n) :
    (db.answer req plan (some n) (db.within req plan n)).length = n := by
  refine length_answerOf_capped db.inv.1 (fun _ hhit => Database.version_hot_within hhit)
    (hover.imp id fun h => (db.length_answer req plan _).symm ▸ h) (hback.imp id fun h => ?_)
  have hshadows : (fun p => (db.entry.overlay.version p).isSome) = db.shadows := by
    funext p
    rw [db.inv.2]
    rfl
  rw [hshadows]
  exact h

end Databases

end DeepFinder
