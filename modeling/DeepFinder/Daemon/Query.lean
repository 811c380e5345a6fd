import DeepFinder.Daemon.Shards
import DeepFinder.Lib.AssocMap

/-!
# Querying one database

`query_entry` asks the layers of one database in turn and merges their hits by path: the filename
index, the content shards, and then the hot overlay, which first drops what it shadows.

Every layer only adds updates to the result map, so the map is a `putAllCapped` of the hits
(`queryEntry_eq`), and what it holds for a path depends on the hits at that path alone.

Every layer is given the limits of the context and cuts its own hits; the map has a bound as well,
beyond which paths that it does not know yet are dropped.  Nothing is assumed of the layers here;
what they find is the subject of `Daemon/Layers.lean`.
-/

namespace DeepFinder

open ByteString

abbrev ResultMap := List Hit

/-- `DbEntry` as one query reads it: the reader, the shards of its snapshot of them, and its
snapshot of the overlay. -/
structure DbEntry where
  name : String
  db : FilenameDb
  shards : List Bytes
  overlay : Overlay

/-- `QueryCtx`. -/
structure QueryCtx where
  folded : Bytes
  needle : String
  caseSensitive : Bool
  fnCase : Bool
  reContent : Option ByteRegex
  scope : Option String
  effLimit : Option ℕ
  limit : Option ℕ
  wantFn : Bool
  wantCt : Bool
  pathMode : PathMode

/-! ## Merging by path -/

/-- `combine_kind`. -/
def combineKind : MatchKind → MatchKind → MatchKind
  | .filename, .content => .both
  | .content, .filename => .both
  | .both, _ => .both
  | _, .both => .both
  | _, b => b

/-- `merge_in`. -/
def mergeIn (cap : Option ℕ) (map : ResultMap) (hit : Hit) : ResultMap :=
  if capReached cap map.length ∧ map.lookup hit.1 = none then map
  else
    AssocMap.put hit.1 (fun e => match e with
      | some (lite, existing) => (lite, combineKind existing hit.2.2)
      | none => hit.2) map

/-- `override_in`. -/
def overrideIn (cap : Option ℕ) (map : ResultMap) (hit : Hit) : ResultMap :=
  match map.lookup hit.1 with
  | some (_, k) => AssocMap.put hit.1 (fun _ => (hit.2.1, combineKind k hit.2.2)) map
  | none =>
      if capReached cap map.length then map else AssocMap.put hit.1 (fun _ => hit.2) map

/-! ## The layers -/

/-- The loop over the filename docids. -/
def filenameLoop (ctx : QueryCtx) (db : FilenameDb) (mergeCap : Option ℕ) :
    List ℕ → ResultMap → Res ResultMap
  | [], merged => pure merged
  | d :: ds, merged =>
      if capReached mergeCap merged.length then pure merged
      else do
        match ← (db.docPath d).toOption with
        | none => filenameLoop ctx db mergeCap ds merged
        | some path =>
            if !inScope path ctx.scope then filenameLoop ctx db mergeCap ds merged
            else if ctx.pathMode = .basename ∧
                termMatches ctx.fnCase ctx.needle (baseName path) = false then
              filenameLoop ctx db mergeCap ds merged
            else do
              let lite ← (db.docMeta d).unwrapOr default
              filenameLoop ctx db mergeCap ds (mergeIn mergeCap merged (path, lite, .filename))

def filenameLayer (ctx : QueryCtx) (db : FilenameDb) (mergeCap : Option ℕ) : Res ResultMap :=
  if ctx.wantFn then do
    let docids ← (queryDocids db ctx.needle ctx.fnCase ctx.effLimit).unwrapOr []
    filenameLoop ctx db mergeCap docids []
  else pure []

/-- The hits of the content layer. -/
def contentLayer (ctx : QueryCtx) (shards : List Bytes) : Res (List Hit) :=
  if ctx.wantCt then
    match ctx.reContent with
    | some re => ContentShards.queryRegex shards ctx.folded re ctx.scope ctx.limit
    | none =>
        ContentShards.query shards ctx.folded (utf8 ctx.needle) ctx.caseSensitive ctx.scope ctx.limit
  else pure []

/-- Cold hits on paths that the overlay shadows are stale. -/
def dropShadowed (ov : Overlay) (merged : ResultMap) : ResultMap :=
  if ov.shadowsAnything then merged.filter fun e => !ov.suppresses e.1 else merged

/-- What a query of the overlay returned, as hits in scope. -/
def overlayHits (ctx : QueryCtx) (kind : MatchKind) (found : List (String × LiteMeta)) : List Hit :=
  (found.filter fun e => inScope e.1 ctx.scope).map fun e => (e.1, e.2, kind)

def overlayFilenameLayer (ctx : QueryCtx) (ov : Overlay) : List Hit :=
  if ctx.wantFn then
    overlayHits ctx .filename
      (ov.filenameQuery ctx.needle ctx.fnCase (ctx.pathMode = .basename) ctx.limit)
  else []

/-- The content hits of the overlay. -/
def overlayContentLayer (ctx : QueryCtx) (ov : Overlay) : Res (List Hit) :=
  if ctx.wantCt then do
    let found ← match ctx.reContent with
      | some re => pure (ov.contentRegexHits re.isMatch ctx.limit)
      | none => ov.contentQuery ctx.folded (utf8 ctx.needle) ctx.caseSensitive ctx.limit
    pure (overlayHits ctx .content found)
  else pure []

/-- `query_entry`. -/
def queryEntry (ctx : QueryCtx) (entry : DbEntry) (mergeCap : Option ℕ) : Res ResultMap := do
  let merged ← filenameLayer ctx entry.db mergeCap
  let content ← contentLayer ctx entry.shards
  let merged := content.foldl (mergeIn mergeCap) merged
  let merged := dropShadowed entry.overlay merged
  let merged := (overlayFilenameLayer ctx entry.overlay).foldl (overrideIn mergeCap) merged
  let ovContent ← overlayContentLayer ctx entry.overlay
  pure (ovContent.foldl (overrideIn mergeCap) merged)

/-! ## The result map as a sequence of updates -/

/-- The update that `merge_in` makes. -/
def mergeUpdate (hit : Hit) : String × (Option (LiteMeta × MatchKind) → LiteMeta × MatchKind) :=
  (hit.1, fun e => match e with
    | some (lite, existing) => (lite, combineKind existing hit.2.2)
    | none => hit.2)

/-- The update that `override_in` makes. -/
def overrideUpdate (hit : Hit) : String × (Option (LiteMeta × MatchKind) → LiteMeta × MatchKind) :=
  (hit.1, fun e => match e with
    | some (_, existing) => (hit.2.1, combineKind existing hit.2.2)
    | none => hit.2)

lemma foldl_mergeIn (cap : Option ℕ) (hits : List Hit) (map : ResultMap) :
    hits.foldl (mergeIn cap) map =
      AssocMap.putAllCapped (capReached cap) (hits.map mergeUpdate) map := by
  rw [AssocMap.putAllCapped, List.foldl_map]
  rfl

lemma overrideIn_eq (cap : Option ℕ) (map : ResultMap) (hit : Hit) :
    overrideIn cap map hit =
      AssocMap.putCapped (capReached cap) hit.1 (overrideUpdate hit).2 map := by
  unfold overrideIn AssocMap.putCapped
  cases h : map.lookup hit.1 with
  | none =>
      dsimp only
      by_cases hcap : capReached cap map.length = true
      · rw [if_pos hcap, if_pos ⟨hcap, rfl⟩]
      · rw [if_neg hcap, if_neg fun h => hcap h.1]
        exact AssocMap.put_congr (by rw [h]; rfl)
  | some e =>
      dsimp only
      rw [if_neg fun hc => Option.some_ne_none e hc.2]
      exact AssocMap.put_congr (by rw [h]; rfl)

lemma foldl_overrideIn (cap : Option ℕ) (hits : List Hit) (map : ResultMap) :
    hits.foldl (overrideIn cap) map =
      AssocMap.putAllCapped (capReached cap) (hits.map overrideUpdate) map := by
  rw [AssocMap.putAllCapped, List.foldl_map]
  congr 1
  funext map hit
  exact overrideIn_eq cap map hit

lemma map_fst_mergeUpdate (hits : List Hit) :
    (hits.map mergeUpdate).map Prod.fst = hits.map Prod.fst := by
  rw [List.map_map]
  rfl

lemma map_fst_overrideUpdate (hits : List Hit) :
    (hits.map overrideUpdate).map Prod.fst = hits.map Prod.fst := by
  rw [List.map_map]
  rfl

lemma putAllCapped_none (es : List (String × (Option (LiteMeta × MatchKind) → LiteMeta × MatchKind)))
    (map : ResultMap) : AssocMap.putAllCapped (capReached none) es map = AssocMap.putAll es map :=
  AssocMap.putAllCapped_of_not_full (fun _ => rfl) es map

lemma lookup_foldl_mergeIn {hits : List Hit} (h : (hits.map Prod.fst).Nodup) (map : ResultMap)
    (x : String) :
    (hits.foldl (mergeIn none) map).lookup x = match hits.lookup x with
      | some v => some ((mergeUpdate (x, v)).2 (map.lookup x))
      | none => map.lookup x := by
  rw [foldl_mergeIn, putAllCapped_none, AssocMap.lookup_putAll,
    AssocMap.updates_of_nodup (by rw [map_fst_mergeUpdate]; exact h)]
  have hmap : hits.map mergeUpdate = hits.map fun e => (e.1, (mergeUpdate (e.1, e.2)).2) := rfl
  rw [hmap, AssocMap.lookup_map_snd fun y v => (mergeUpdate (y, v)).2]
  cases hits.lookup x <;> rfl

lemma lookup_foldl_overrideIn {hits : List Hit} (h : (hits.map Prod.fst).Nodup) (map : ResultMap)
    (x : String) :
    (hits.foldl (overrideIn none) map).lookup x = match hits.lookup x with
      | some v => some ((overrideUpdate (x, v)).2 (map.lookup x))
      | none => map.lookup x := by
  rw [foldl_overrideIn, putAllCapped_none, AssocMap.lookup_putAll,
    AssocMap.updates_of_nodup (by rw [map_fst_overrideUpdate]; exact h)]
  have hmap : hits.map overrideUpdate = hits.map fun e => (e.1, (overrideUpdate (e.1, e.2)).2) := rfl
  rw [hmap, AssocMap.lookup_map_snd fun y v => (overrideUpdate (y, v)).2]
  cases hits.lookup x <;> rfl

/-! ## What each layer finds -/

/-- What a query in a mode compares with: the path, or its file name. -/
def shownText (mode : PathMode) (path : String) : String :=
  if mode = .basename then baseName path else path

/-- What the filename loop asks of a path that the index returned. -/
def QueryCtx.shows (ctx : QueryCtx) (path : String) : Bool :=
  inScope path ctx.scope &&
    (decide (ctx.pathMode = .full) || termMatches ctx.fnCase ctx.needle (baseName path))

/-- The hits that the filename loop makes of docids. -/
def filenameHits (ctx : QueryCtx) (docs : List (String × LiteMeta)) (ds : List ℕ) : List Hit :=
  ds.filterMap fun d => (docs[d]?).bind fun f =>
    if ctx.shows f.1 then some (f.1, f.2, .filename) else none

def AllFilename (map : ResultMap) : Prop := ∀ e ∈ map, e.2.2 = .filename

lemma allFilename_nil : AllFilename [] := fun _ he => nomatch he

lemma AllFilename.merge {cap : Option ℕ} {map : ResultMap} (h : AllFilename map) (path : String)
    (lite : LiteMeta) : AllFilename (mergeIn cap map (path, lite, .filename)) := by
  unfold mergeIn
  split
  · exact h
  · refine AssocMap.forall_put h ?_
    cases hlook : map.lookup path with
    | none => rfl
    | some e =>
        have hkind : e.2 = .filename := h _ (AssocMap.mem_of_lookup hlook)
        dsimp only
        rw [hkind]
        rfl

/-- A full map of filename hits stays as it is. -/
lemma AllFilename.merge_of_full {cap : Option ℕ} {map : ResultMap} (h : AllFilename map)
    (hcap : capReached cap map.length = true) (path : String) (lite : LiteMeta) :
    mergeIn cap map (path, lite, .filename) = map := by
  unfold mergeIn
  cases hlook : map.lookup path with
  | none => rw [if_pos ⟨hcap, rfl⟩]
  | some e =>
      have hkind : e.2 = .filename := h _ (AssocMap.mem_of_lookup hlook)
      rw [if_neg fun hc => Option.some_ne_none e hc.2]
      refine AssocMap.put_eq_self hlook ?_
      dsimp only
      rw [hkind]
      exact Prod.ext rfl hkind.symm

lemma AllFilename.foldl_of_full {cap : Option ℕ} {map : ResultMap} (h : AllFilename map)
    (hcap : capReached cap map.length = true) {hits : List Hit}
    (hhits : ∀ hit ∈ hits, hit.2.2 = .filename) : hits.foldl (mergeIn cap) map = map := by
  induction hits with
  | nil => rfl
  | cons hit hits ih =>
      obtain ⟨path, lite, kind⟩ := hit
      obtain rfl : kind = .filename := hhits _ (List.mem_cons_self ..)
      rw [List.foldl_cons, h.merge_of_full hcap, ih fun x hx => hhits x (List.mem_cons_of_mem _ hx)]

lemma filenameHits_kind {ctx : QueryCtx} {docs : List (String × LiteMeta)} {ds : List ℕ}
    {hit : Hit} (h : hit ∈ filenameHits ctx docs ds) : hit.2.2 = .filename := by
  obtain ⟨d, -, hd⟩ := List.mem_filterMap.mp h
  obtain ⟨f, -, hf⟩ := Option.bind_eq_some_iff.mp hd
  split at hf
  · obtain rfl := Option.some.inj hf
    rfl
  · cases hf

lemma filenameLoop_eq {db : FilenameDb} {docs : List (String × LiteMeta)} (h : db.Indexes docs)
    (ctx : QueryCtx) (cap : Option ℕ) {ds : List ℕ} (hds : ∀ d ∈ ds, d < docs.length)
    {merged : ResultMap} (hall : AllFilename merged) :
    filenameLoop ctx db cap ds merged =
      .ok ((filenameHits ctx docs ds).foldl (mergeIn cap) merged) := by
  induction ds generalizing merged with
  | nil => rfl
  | cons d ds ih =>
      obtain ⟨f, hf⟩ : ∃ f, docs[d]? = some f :=
        ⟨_, List.getElem?_eq_getElem (hds d (List.mem_cons_self ..))⟩
      have hrest := fun x hx => hds x (List.mem_cons_of_mem d hx)
      rw [filenameLoop]
      by_cases hcap : capReached cap merged.length = true
      · rw [if_pos hcap, hall.foldl_of_full hcap fun hit hhit => filenameHits_kind hhit]
        rfl
      · rw [if_neg hcap, h.path_eq d f hf, Res.toOption_ok, bind_ok]
        dsimp only
        rw [filenameHits, List.filterMap_cons, hf, Option.bind_some, ← filenameHits]
        rw [QueryCtx.shows]
        by_cases hscope : inScope f.1 ctx.scope = true
        · rw [if_neg (by simp [hscope])]
          by_cases hbase : ctx.pathMode = .basename ∧
              termMatches ctx.fnCase ctx.needle (baseName f.1) = false
          · rw [if_pos hbase, if_neg (by simp [hbase.1, hbase.2]), ih hrest hall]
          · have hkeep : ctx.pathMode = .full ∨
                termMatches ctx.fnCase ctx.needle (baseName f.1) = true := by
              cases hmode : ctx.pathMode with
              | full => exact Or.inl rfl
              | basename =>
                  refine Or.inr ((Bool.not_eq_false _).mp fun hb => hbase ⟨hmode, hb⟩)
            rw [if_neg hbase, if_pos (by simpa [hscope] using hkeep), h.meta_eq d f hf,
              Res.unwrapOr_ok, bind_ok, ih hrest (hall.merge _ _), List.foldl_cons]
        · rw [if_pos (by simp [hscope]), if_neg (by simp [hscope]), ih hrest hall]

lemma filterMap_getElem? {α β : Type} (g : α → Option β) (l : List α) :
    ((List.range l.length).filterMap fun d => (l[d]?).bind g) = l.filterMap g := by
  induction l using List.reverseRecOn with
  | nil => rfl
  | append_singleton l a ih =>
      rw [List.length_append, List.length_singleton, List.range_succ, List.filterMap_append,
        List.filterMap_append, ← ih]
      refine congrArg₂ (· ++ ·) ?_ ?_
      · refine List.filterMap_congr fun d hd => ?_
        rw [List.getElem?_append_left (List.mem_range.mp hd)]
      · rw [List.filterMap_cons, List.getElem?_concat_length]
        rfl

/-- The hits among the documents with a property. -/
lemma filenameHits_docsWhere (ctx : QueryCtx) (docs : List (String × LiteMeta))
    (p : String → Bool) :
    filenameHits ctx docs (docsWhere docs p) =
      (docs.filter fun f => p f.1 && ctx.shows f.1).map fun f => (f.1, f.2, .filename) := by
  rw [filenameHits, docsWhere, List.filterMap_filter, ← List.filterMap_eq_map,
    List.filterMap_filter]
  refine Eq.trans ?_ (filterMap_getElem? _ docs)
  refine List.filterMap_congr fun d _ => ?_
  cases docs[d]? with
  | none => rfl
  | some f =>
      simp only [Option.map_some, Option.getD_some, Option.bind_some, Function.comp_apply]
      cases p f.1 <;> cases ctx.shows f.1 <;> rfl

/-- With one document a path, the map after the filename loop holds the paths with the property
that the loop shows. -/
lemma lookup_filenameHits {docs : List (String × LiteMeta)} (hdocs : (docs.map Prod.fst).Nodup)
    (ctx : QueryCtx) (p : String → Bool) (x : String) :
    ((filenameHits ctx docs (docsWhere docs p)).foldl (mergeIn none) []).lookup x =
      if p x && ctx.shows x then (docs.lookup x).map fun lite => (lite, .filename) else none := by
  have hfst : ((filenameHits ctx docs (docsWhere docs p)).map Prod.fst).Nodup := by
    rw [filenameHits_docsWhere, List.map_map]
    exact hdocs.sublist (List.filter_sublist.map Prod.fst)
  have hlook : (filenameHits ctx docs (docsWhere docs p)).lookup x =
      if p x && ctx.shows x then (docs.lookup x).map fun lite => (lite, .filename) else none := by
    rw [filenameHits_docsWhere, AssocMap.lookup_map_snd (fun _ lite => (lite, MatchKind.filename)),
      AssocMap.lookup_filter fun y => p y && ctx.shows y]
    split <;> rfl
  rw [lookup_foldl_mergeIn hfst, hlook]
  cases p x && ctx.shows x with
  | false => rfl
  | true =>
      rw [if_pos rfl]
      cases docs.lookup x <;> rfl

end DeepFinder
