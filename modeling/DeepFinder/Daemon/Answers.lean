import DeepFinder.Daemon.Layers
import DeepFinder.Daemon.Search

/-!
# Answers without a limit

Without a limit nothing is cut, so what a search reports for a path depends on the hits at that
path alone.  A kind of match is the set of layers that found the path, and merging unites these
sets (`reports_foldl_mergeIn`); so a database reports a path exactly in the layers that show it
(`Database.queryEntry_reports`), and a search of many databases in the layers of all of them
(`mergeEntries_reports`).

The databases are those of a `Database`: documents, files and records, with the fact that the entry
which a search reads holds them.  So the results below are about data and not about index files, and
a request is described by what it selects and by its plan.
-/

namespace DeepFinder

open ByteString

/-! ## Kinds as sets of layers -/

/-- Whether the filename layer is among the layers of a kind. -/
def MatchKind.hasFilename : MatchKind → Bool
  | .filename | .both => true
  | .content => false

/-- Whether the content layer is among the layers of a kind. -/
def MatchKind.hasContent : MatchKind → Bool
  | .content | .both => true
  | .filename => false

/-- The kind of a path that these layers found, if any did. -/
def MatchKind.ofLayers (filename content : Bool) : Option MatchKind :=
  match filename, content with
  | true, true => some .both
  | true, false => some .filename
  | false, true => some .content
  | false, false => none

/-- A property of kinds that holds of a union of layers when it holds of a part. -/
def Additive (flag : MatchKind → Bool) : Prop := ∀ a b, flag (combineKind a b) = (flag a || flag b)

lemma additive_hasFilename : Additive MatchKind.hasFilename := by
  intro a b
  cases a <;> cases b <;> rfl

lemma additive_hasContent : Additive MatchKind.hasContent := by
  intro a b
  cases a <;> cases b <;> rfl

/-- Whether a map reports the path with a kind that has the property. -/
def reports (flag : MatchKind → Bool) (map : ResultMap) (path : String) : Bool :=
  ((map.lookup path).map fun e => flag e.2).getD false

def anyHit (flag : MatchKind → Bool) (hits : List Hit) (path : String) : Bool :=
  hits.any fun h => decide (h.1 = path) && flag h.2.2

lemma lookup_kind (map : ResultMap) (path : String) : (map.lookup path).map (fun e => e.2) =
    MatchKind.ofLayers (reports MatchKind.hasFilename map path)
      (reports MatchKind.hasContent map path) := by
  unfold reports
  cases map.lookup path with
  | none => rfl
  | some e =>
      obtain ⟨lite, kind⟩ := e
      cases kind <;> rfl

lemma reports_eq_anyHit (flag : MatchKind → Bool) {map : ResultMap}
    (h : (map.map Prod.fst).Nodup) (path : String) :
    reports flag map path = anyHit flag map path := by
  rw [Bool.eq_iff_iff, reports, anyHit, List.any_eq_true]
  constructor
  · intro hrep
    cases hlook : map.lookup path with
    | none =>
        rw [hlook] at hrep
        cases hrep
    | some e =>
        rw [hlook] at hrep
        exact ⟨(path, e), AssocMap.mem_of_lookup hlook, by simpa using hrep⟩
  · rintro ⟨hit, hmem, hhit⟩
    rw [Bool.and_eq_true, decide_eq_true_eq] at hhit
    obtain ⟨rfl, hflag⟩ := hhit
    rw [AssocMap.lookup_of_mem h hmem]
    exact hflag

lemma anyHit_perm (flag : MatchKind → Bool) {hits hits' : List Hit} (h : hits.Perm hits')
    (path : String) : anyHit flag hits path = anyHit flag hits' path := by
  rw [Bool.eq_iff_iff, anyHit, anyHit, List.any_eq_true, List.any_eq_true]
  exact exists_congr fun hit => and_congr_left' h.mem_iff

lemma anyHit_append (flag : MatchKind → Bool) (hits hits' : List Hit) (path : String) :
    anyHit flag (hits ++ hits') path = (anyHit flag hits path || anyHit flag hits' path) :=
  List.any_append

section Additive

variable {flag : MatchKind → Bool} (hflag : Additive flag)

include hflag

/-- Merging hits into a map adds the layers of the hits. -/
lemma reports_foldl_mergeIn (hits : List Hit) (map : ResultMap) (path : String) :
    reports flag (hits.foldl (mergeIn none) map) path =
      (reports flag map path || anyHit flag hits path) := by
  induction hits generalizing map with
  | nil => simp [anyHit]
  | cons hit hits ih =>
      have hstep : reports flag (mergeIn none map hit) path =
          (reports flag map path || (decide (hit.1 = path) && flag hit.2.2)) := by
        rw [mergeIn, if_neg fun hc => Bool.false_ne_true hc.1, reports, AssocMap.lookup_put, reports]
        by_cases hpath : path = hit.1
        · subst hpath
          rw [if_pos rfl]
          cases map.lookup hit.1 with
          | none => simp
          | some e => simp [hflag e.2 hit.2.2]
        · rw [if_neg hpath, decide_eq_false fun h => hpath h.symm]
          simp
      rw [List.foldl_cons, ih, hstep, anyHit, anyHit, List.any_cons, Bool.or_assoc]

/-- Overriding adds the layers of the hits, too. -/
lemma reports_foldl_overrideIn (hits : List Hit) (map : ResultMap) (path : String) :
    reports flag (hits.foldl (overrideIn none) map) path =
      (reports flag map path || anyHit flag hits path) := by
  induction hits generalizing map with
  | nil => simp [anyHit]
  | cons hit hits ih =>
      have hstep : reports flag (overrideIn none map hit) path =
          (reports flag map path || (decide (hit.1 = path) && flag hit.2.2)) := by
        rw [overrideIn_eq, AssocMap.putCapped, if_neg fun hc => Bool.false_ne_true hc.1, reports,
          AssocMap.lookup_put, reports]
        by_cases hpath : path = hit.1
        · subst hpath
          rw [if_pos rfl]
          cases map.lookup hit.1 with
          | none => simp [overrideUpdate]
          | some e => simp [overrideUpdate, hflag e.2 hit.2.2]
        · rw [if_neg hpath, decide_eq_false fun h => hpath h.symm]
          simp
      rw [List.foldl_cons, ih, hstep, anyHit, anyHit, List.any_cons, Bool.or_assoc]

/-- The answer of a database: its cold hits on paths the overlay says nothing about, and its hot
hits. -/
lemma reports_answerOf {o : Overlay} {known : Finset String} (ho : o.Inv known)
    (cold hot : List Hit) (path : String) :
    reports flag (answerOf none o cold hot) path =
      ((decide (o.version path = none) && anyHit flag cold path) || anyHit flag hot path) := by
  rw [answerOf, reports_foldl_overrideIn hflag]
  congr 1
  have hcold := reports_foldl_mergeIn hflag cold [] path
  unfold reports at hcold ⊢
  rw [lookup_dropShadowed ho]
  by_cases hv : o.version path = none
  · rw [if_pos hv, hcold, decide_eq_true hv]
    simp
  · rw [if_neg hv, decide_eq_false hv]
    rfl

end Additive

/-! ## What a database shows -/

/-- A database with what it holds: documents, the files of its shards, and its recent records. -/
structure Database where
  entry : DbEntry
  docs : List (String × LiteMeta)
  filess : List (List ShardFile)
  recs : List WalRecord
  holds : entry.Holds docs filess recs

/-- A database of documents, without contents or recent records. -/
def Database.ofDocs (name : String) {view : FilenameDb} {docs : List (String × LiteMeta)}
    (h : view.Indexes docs) : Database where
  entry := ⟨name, view, [], {}⟩
  docs := docs
  filess := []
  recs := []
  holds := ⟨h, List.Forall₂.nil, rfl, by decide⟩

/-- A database whose overlay holds one file, over an empty index. -/
def Database.ofFile (path : String) (lite : LiteMeta) (content : Bytes) {view : FilenameDb}
    (h : view.Indexes []) : Database where
  entry := ⟨"default", view, [], ({} : Overlay).applyRecords [.upsert path lite (some content)]⟩
  docs := []
  filess := []
  recs := [.upsert path lite (some content)]
  holds := ⟨h, List.Forall₂.nil, rfl, by simp⟩

def Database.hotTexts (db : Database) : List Bytes := (({} : Overlay).applyRecords db.recs).texts

lemma Database.hotTexts_ofFile (path : String) (lite : LiteMeta) (content : Bytes)
    {view : FilenameDb} (h : view.Indexes []) :
    (Database.ofFile path lite content h).hotTexts = [fold content] := by
  have hslot : ({} : Overlay).writeSlot path lite (some content) =
      { paths := [path], metas := [lite], contents := [some content], docTrigrams := [[]],
        byPath := [(path, 0)] } := rfl
  have hlook : ([(path, 0)] : List (String × ℕ)).lookup path = some 0 := List.lookup_cons_self
  unfold Database.hotTexts Database.ofFile
  dsimp only [Overlay.applyRecords, List.foldl_cons, List.foldl_nil, Overlay.applyRecord]
  have herase : ({ ({} : Overlay) with tombstones := ({} : Overlay).tombstones.erase path } :
      Overlay) = {} := rfl
  rw [herase, hslot]
  dsimp only
  rw [hlook]
  rfl

lemma Database.hotVersion_ofFile (path : String) (lite : LiteMeta) (content : Bytes)
    {view : FilenameDb} (h : view.Indexes []) (p : String) :
    hotVersion (Database.ofFile path lite content h).recs p =
      if p = path then some (some ⟨lite, some content⟩) else none := by
  have hrecs : (Database.ofFile path lite content h).recs =
      [] ++ [.upsert path lite (some content)] := rfl
  rw [hrecs, hotVersion_concat]
  rfl

/-- Whether the filename layer shows the path: the index accepts it, or the overlay does when the
records say something about it. -/
def Database.showsName (db : Database) (ctx : QueryCtx) (path : String) : Bool :=
  ctx.wantFn &&
    match hotVersion db.recs path with
    | none =>
        db.docs.any fun f => decide (f.1 = path) && (coldAccepts ctx.fnCase ctx.needle path &&
          ctx.shows path)
    | some none => false
    | some (some _) =>
        inScope path ctx.scope && termMatches ctx.fnCase ctx.needle (shownText ctx.pathMode path)

/-- Whether candidate generation returns a file of a shard and its content is verified. -/
def LineQuery.findsFile (q : LineQuery) (files : List ShardFile) (content : Bytes) : Bool :=
  q.prefilter content && walked (files.map fun f => fold f.content) q.folded (fold content) &&
    q.verifies content

/-- Whether the content search finds the path: in a shard, or in the overlay when the records say
something about it. -/
def Database.findsContent (db : Database) (q : LineQuery) (path : String) : Bool :=
  inScope path q.scope &&
    match hotVersion db.recs path with
    | none =>
        db.filess.any fun files => files.any fun f =>
          decide (f.path = path) && q.findsFile files f.content
    | some none => false
    | some (some v) =>
        match v.content with
        | none => false
        | some content => q.overlayFinds db.hotTexts content

/-- Whether a path of the database has the property: one of the index, or one that the records
left in the overlay. -/
def Database.anyPath (db : Database) (cold hot : String → Bool) (path : String) : Bool :=
  match hotVersion db.recs path with
  | none => db.docs.any fun f => decide (f.1 = path) && cold path
  | some none => false
  | some (some _) => hot path

/-- Whether a content of the path has the property: one in a shard, or the one that the records
left in the overlay. -/
def Database.anyContent (db : Database) (cold hot : Bytes → Bool) (path : String) : Bool :=
  match hotVersion db.recs path with
  | none => db.filess.any fun files => files.any fun f => decide (f.path = path) && cold f.content
  | some none => false
  | some (some v) => (v.content.map hot).getD false

lemma Database.anyPath_mono {db : Database} {cold hot cold' hot' : String → Bool} {path : String}
    (hcold : cold path = true → cold' path = true) (hhot : hot path = true → hot' path = true)
    (h : db.anyPath cold hot path = true) : db.anyPath cold' hot' path = true := by
  unfold Database.anyPath at h ⊢
  match hotVersion db.recs path, h with
  | none, h =>
      obtain ⟨f, hf, hmatch⟩ := List.any_eq_true.mp h
      rw [Bool.and_eq_true] at hmatch
      refine List.any_eq_true.mpr ⟨f, hf, ?_⟩
      rw [Bool.and_eq_true]
      exact ⟨hmatch.1, hcold hmatch.2⟩
  | some none, h => exact h
  | some (some v), h => exact hhot h

lemma Database.anyContent_mono {db : Database} {cold hot cold' hot' : Bytes → Bool} {path : String}
    (hcold : ∀ c, cold c = true → cold' c = true) (hhot : ∀ c, hot c = true → hot' c = true)
    (h : db.anyContent cold hot path = true) : db.anyContent cold' hot' path = true := by
  unfold Database.anyContent at h ⊢
  match hotVersion db.recs path, h with
  | none, h =>
      obtain ⟨files, hfiles, h⟩ := List.any_eq_true.mp h
      obtain ⟨f, hf, hmatch⟩ := List.any_eq_true.mp h
      rw [Bool.and_eq_true] at hmatch
      refine List.any_eq_true.mpr ⟨files, hfiles, List.any_eq_true.mpr ⟨f, hf, ?_⟩⟩
      rw [Bool.and_eq_true]
      exact ⟨hmatch.1, hcold _ hmatch.2⟩
  | some none, h => exact h
  | some (some v), h =>
      dsimp only at h ⊢
      cases hc : v.content with
      | none =>
          rw [hc] at h
          cases h
      | some c =>
          rw [hc] at h
          exact hhot c h

/-- A context without limits. -/
structure QueryCtx.Unlimited (ctx : QueryCtx) : Prop where
  effLimit_eq : ctx.effLimit = none
  limit_eq : ctx.limit = none

lemma Database.inv (db : Database) :
    db.entry.overlay.Inv (db.recs.map WalRecord.path).toFinset ∧
      ∀ p, db.entry.overlay.version p = hotVersion db.recs p := db.holds.inv

lemma Database.texts_eq (db : Database) : db.entry.overlay.texts = db.hotTexts := by
  rw [db.holds.overlay_eq, Database.hotTexts]

lemma QueryCtx.Unlimited.withLimits_eq {ctx : QueryCtx} (h : ctx.Unlimited) :
    ctx.withLimits none none = ctx := by
  obtain ⟨heff, hlimit⟩ := h
  cases ctx
  rw [QueryCtx.withLimits]
  congr
  · exact heff.symm
  · exact hlimit.symm

/-- A layer whose hits have one kind. -/
lemma anyHit_map {α : Type} (flag : MatchKind → Bool) (kind : MatchKind) (l : List α)
    (g : α → String × LiteMeta) (path : String) :
    anyHit flag (l.map fun a => ((g a).1, (g a).2, kind)) path =
      (flag kind && l.any fun a => decide ((g a).1 = path)) := by
  rw [anyHit, List.any_map]
  induction l with
  | nil => simp
  | cons a l ih =>
      rw [List.any_cons, ih, List.any_cons]
      simp only [Function.comp_apply]
      cases flag kind <;> simp

lemma anyHit_ite (flag : MatchKind → Bool) (want : Bool) (hits : List Hit) (path : String) :
    anyHit flag (if want then hits else []) path = (want && anyHit flag hits path) := by
  cases want <;> rfl

/-- The cold hits at a path. -/
lemma anyHit_cold (flag : MatchKind → Bool) (finds : Finds) (ctx : QueryCtx) (path : String) :
    anyHit flag (finds.cold (ctx.withLimits none none)) path =
      ((ctx.wantFn && (flag .filename && finds.fn.any fun f =>
        decide (f.1 = path) && ctx.shows f.1)) ||
      (ctx.wantCt && (flag .content && finds.ct.any fun found => found.any fun f =>
        decide (f.path = path) && (ctx.contentSearch.verifies f.content &&
          inScope f.path ctx.scope)))) := by
  have hany : ∀ {α : Type} (l : List α) (p r : α → Bool),
      (l.filter p).any r = l.any fun a => r a && p a := by
    intro α l p r
    rw [List.any_filter]
    exact congrArg l.any (funext fun a => Bool.and_comm _ _)
  have hct : anyHit flag (finds.ct.flatMap fun found => (found.filter fun f =>
      ctx.contentSearch.verifies f.content && inScope f.path ctx.scope).map fun f =>
        (f.path, f.lite, .content)) path =
      (flag .content && finds.ct.any fun found => found.any fun f =>
        decide (f.path = path) && (ctx.contentSearch.verifies f.content &&
          inScope f.path ctx.scope)) := by
    induction finds.ct with
    | nil => simp [anyHit]
    | cons found rest ih =>
        rw [List.flatMap_cons, anyHit_append, ih,
          anyHit_map flag .content _ (fun f : ShardFile => (f.path, f.lite)), hany, List.any_cons,
          Bool.and_or_distrib_left]
  have hfn : anyHit flag ((finds.fn.filter fun f => ctx.shows f.1).map fun f =>
      (f.1, f.2, .filename)) path = (flag .filename && finds.fn.any fun f =>
        decide (f.1 = path) && ctx.shows f.1) := by
    rw [anyHit_map flag .filename _ (fun f : String × LiteMeta => f), hany]
  rw [Finds.cold, anyHit_append]
  refine congrArg₂ (· || ·) ?_ ?_
  · refine (anyHit_ite flag ctx.wantFn _ path).trans (congrArg (ctx.wantFn && ·) ?_)
    exact hfn
  · refine (anyHit_ite flag ctx.wantCt _ path).trans (congrArg (ctx.wantCt && ·) ?_)
    exact hct

/-- The hot hits at a path. -/
lemma anyHit_hot (flag : MatchKind → Bool) (finds : Finds) (ctx : QueryCtx) (path : String) :
    anyHit flag (finds.hot (ctx.withLimits none none)) path =
      (inScope path ctx.scope &&
        ((ctx.wantFn && (flag .filename && finds.ovFn.any fun f => decide (f.1 = path))) ||
          (ctx.wantCt && (flag .content && finds.ovCt.any fun f => decide (f.1 = path))))) := by
  have hlayer : ∀ (kind : MatchKind) (found : List (String × LiteMeta)),
      anyHit flag (overlayHits (ctx.withLimits none none) kind found) path =
        (flag kind && (inScope path ctx.scope && found.any fun f => decide (f.1 = path))) := by
    intro kind found
    rw [overlayHits, anyHit_map flag kind _ (fun f : String × LiteMeta => f), List.any_filter]
    have hscope : ∀ f ∈ found,
        (inScope f.1 (ctx.withLimits none none).scope && decide (f.1 = path)) =
        (inScope path ctx.scope && decide (f.1 = path)) := by
      intro f _
      by_cases hf : f.1 = path
      · rw [hf]
        rfl
      · rw [decide_eq_false hf, Bool.and_false, Bool.and_false]
    congr 1
    cases hs : inScope path ctx.scope with
    | false =>
        rw [Bool.false_and, List.any_eq_false]
        intro f hf
        rw [hscope f hf, hs]
        simp
    | true =>
        rw [Bool.true_and, Bool.eq_iff_iff, List.any_eq_true, List.any_eq_true]
        refine exists_congr fun f => and_congr_right fun hf => ?_
        rw [hscope f hf, hs, Bool.true_and]
  rw [Finds.hot, anyHit_append]
  refine (congrArg₂ (· || ·) ((anyHit_ite flag ctx.wantFn _ path).trans
    (congrArg (ctx.wantFn && ·) (hlayer .filename _)))
    ((anyHit_ite flag ctx.wantCt _ path).trans
      (congrArg (ctx.wantCt && ·) (hlayer .content _)))).trans ?_
  cases inScope path ctx.scope <;> simp [QueryCtx.withLimits, takeOpt]

lemma nodup_answerOf (o : Overlay) (cold hot : List Hit) :
    ((answerOf none o cold hot).map Prod.fst).Nodup := by
  rw [answerOf, foldl_overrideIn, putAllCapped_none, foldl_mergeIn, putAllCapped_none]
  have hnil : (([] : ResultMap).map Prod.fst).Nodup := List.nodup_nil
  apply AssocMap.nodup_putAll
  unfold dropShadowed
  split
  · exact AssocMap.nodup_filter (AssocMap.nodup_putAll hnil) _
  · exact AssocMap.nodup_putAll hnil

section Shown

variable {db : Database} {ctx : QueryCtx} {finds : Finds}

/-- The filename layer finds the path among the documents, and in the overlay. -/
lemma Finds.Of.any_fn (h : finds.Of db.entry.overlay db.docs db.filess ctx)
    (hkeep : ColdKeeps ctx.fnCase ctx.needle db.docs) (path : String) :
    (finds.fn.any fun f => decide (f.1 = path) && ctx.shows f.1) =
      db.docs.any fun f => decide (f.1 = path) &&
        (coldAccepts ctx.fnCase ctx.needle path && ctx.shows path) := by
  rw [h.fn_eq hkeep, List.any_filter]
  congr 1
  funext f
  by_cases hf : f.1 = path
  · simp [hf]
  · simp [hf]

lemma Finds.Of.any_ovFn (h : finds.Of db.entry.overlay db.docs db.filess ctx) (path : String) :
    (finds.ovFn.any fun f => decide (f.1 = path)) =
      match hotVersion db.recs path with
      | some (some _) => termMatches ctx.fnCase ctx.needle (shownText ctx.pathMode path)
      | _ => false := by
  obtain ⟨hinv, hversion⟩ := db.inv
  have hmem : (finds.ovFn.any fun f => decide (f.1 = path)) = true ↔
      (∃ v, db.entry.overlay.version path = some (some v)) ∧
        termMatches ctx.fnCase ctx.needle (shownText ctx.pathMode path) = true := by
    rw [List.any_eq_true, h.ovFn_eq]
    constructor
    · rintro ⟨⟨p, lite⟩, hf, hp⟩
      obtain rfl : p = path := of_decide_eq_true hp
      obtain ⟨⟨v, hv, -⟩, hmatch⟩ := hinv.mem_filenameQuery.mp hf
      exact ⟨⟨v, hv⟩, by simpa [shownText] using hmatch⟩
    · rintro ⟨⟨v, hv⟩, hmatch⟩
      exact ⟨(path, v.lite), hinv.mem_filenameQuery.mpr ⟨⟨v, hv, rfl⟩,
        by simpa [shownText] using hmatch⟩, decide_eq_true rfl⟩
  rw [Bool.eq_iff_iff, hmem, hversion]
  match hotVersion db.recs path with
  | none => simp
  | some none => simp
  | some (some v) => simp

/-- The content layer finds the path in a shard, and in the overlay. -/
lemma Finds.Of.any_ct (h : finds.Of db.entry.overlay db.docs db.filess ctx) (path : String) :
    (finds.ct.any fun found => found.any fun f => decide (f.path = path) &&
        (ctx.contentSearch.verifies f.content && inScope f.path ctx.scope)) =
      (inScope path ctx.scope && db.filess.any fun files => files.any fun f =>
        decide (f.path = path) && ctx.contentSearch.findsFile files f.content) := by
  rw [h.ct_eq, List.any_map, Bool.eq_iff_iff, Bool.and_eq_true, List.any_eq_true, List.any_eq_true]
  simp only [Function.comp_apply, LineQuery.foundFiles, List.any_filter, List.any_eq_true,
    Bool.and_eq_true, decide_eq_true_eq, LineQuery.findsFile]
  constructor
  · rintro ⟨files, hfiles, f, hf, hfound, rfl, hverify, hscope⟩
    exact ⟨hscope, files, hfiles, f, hf, rfl, hfound, hverify⟩
  · rintro ⟨hscope, files, hfiles, f, hf, rfl, hfound, hverify⟩
    exact ⟨files, hfiles, f, hf, hfound, rfl, hverify, hscope⟩

lemma Finds.Of.any_ovCt (h : finds.Of db.entry.overlay db.docs db.filess ctx) (path : String) :
    (finds.ovCt.any fun f => decide (f.1 = path)) =
      match hotVersion db.recs path with
      | some (some v) => match v.content with
        | none => false
        | some content => ctx.contentSearch.overlayFinds db.hotTexts content
      | _ => false := by
  obtain ⟨-, hversion⟩ := db.inv
  have hmem : (finds.ovCt.any fun f => decide (f.1 = path)) = true ↔
      ∃ v c, hotVersion db.recs path = some (some v) ∧ v.content = some c ∧
        ctx.contentSearch.overlayFinds db.hotTexts c = true := by
    rw [List.any_eq_true, ← db.texts_eq, ← hversion]
    constructor
    · rintro ⟨⟨p, lite⟩, hf, hp⟩
      obtain rfl : p = path := of_decide_eq_true hp
      obtain ⟨v, c, hv, -, hc, hfound⟩ := (h.mem_ovCt _).mp hf
      exact ⟨v, c, hv, hc, hfound⟩
    · rintro ⟨v, c, hv, hc, hfound⟩
      exact ⟨(path, v.lite), (h.mem_ovCt _).mpr ⟨v, c, hv, rfl, hc, hfound⟩, decide_eq_true rfl⟩
  rw [Bool.eq_iff_iff, hmem]
  match hotVersion db.recs path with
  | none => simp
  | some none => simp
  | some (some v) => cases hc : v.content <;> simp [hc]

/-- What an unlimited query of a database reports. -/
theorem Database.queryEntry_reports (db : Database) {ctx : QueryCtx} (hctx : ctx.Unlimited) :
    ∃ map, queryEntry ctx db.entry none = .ok map ∧ (map.map Prod.fst).Nodup ∧
      (ColdKeeps ctx.fnCase ctx.needle db.docs →
        ∀ p, reports MatchKind.hasFilename map p = db.showsName ctx p) ∧
      ∀ p, reports MatchKind.hasContent map p =
        (ctx.wantCt && db.findsContent ctx.contentSearch p) := by
  obtain ⟨hinv, hversion⟩ := db.inv
  obtain ⟨finds, hfinds, hquery⟩ := db.holds.queryEntry_eq ctx
  have hquery := hquery none none none
  rw [hctx.withLimits_eq] at hquery
  refine ⟨_, hquery, nodup_answerOf _ _ _, fun hkeep p => ?_, fun p => ?_⟩
  · rw [reports_answerOf additive_hasFilename hinv, ← hctx.withLimits_eq, anyHit_cold, anyHit_hot,
      hfinds.any_fn hkeep, hfinds.any_ovFn, hversion, hctx.withLimits_eq, Database.showsName]
    match hotVersion db.recs p with
    | none => simp [MatchKind.hasFilename]
    | some none => simp [MatchKind.hasFilename]
    | some (some v) => simp [MatchKind.hasFilename, Bool.and_left_comm]
  · rw [reports_answerOf additive_hasContent hinv, ← hctx.withLimits_eq, anyHit_cold, anyHit_hot,
      hfinds.any_ct, hfinds.any_ovCt, hversion, hctx.withLimits_eq, Database.findsContent]
    have hscope : ctx.contentSearch.scope = ctx.scope := rfl
    rw [hscope]
    match hotVersion db.recs p with
    | none => simp [MatchKind.hasContent]
    | some none => simp [MatchKind.hasContent]
    | some (some v) => simp [MatchKind.hasContent, Bool.and_left_comm]

end Shown

/-! ## The content layer alone -/

def Database.coldContents (db : Database) (q : LineQuery) : List (String × LiteMeta) :=
  db.filess.flatMap fun files =>
    (files.filter fun f => q.findsFile files f.content && inScope f.path q.scope).map fun f =>
      (f.path, f.lite)

/-- The metadata under which the content layer reports the path. -/
def Database.contentMeta (db : Database) (q : LineQuery) (path : String) : Option LiteMeta :=
  match hotVersion db.recs path with
  | none => (db.coldContents q).lookup path
  | some none => none
  | some (some v) =>
      if inScope path q.scope && (v.content.map (q.overlayFinds db.hotTexts)).getD false then
        some v.lite
      else none

/-- Content hits merge into a map of them as the first hit of each path. -/
lemma lookup_foldl_mergeIn_content (found : List (String × LiteMeta)) {map : ResultMap}
    (hmap : ∀ e ∈ map, e.2.2 = .content) (path : String) :
    ((found.map fun f => (f.1, f.2, MatchKind.content)).foldl (mergeIn none) map).lookup path =
      (map.lookup path).or ((found.lookup path).map fun lite => (lite, .content)) := by
  induction found generalizing map with
  | nil => simp
  | cons f found ih =>
      have hput : mergeIn none map (f.1, f.2, .content) =
          AssocMap.put f.1 (mergeUpdate (f.1, f.2, .content)).2 map :=
        if_neg fun hc => Bool.false_ne_true hc.1
      rw [List.map_cons, List.foldl_cons, hput, ih]
      · rw [AssocMap.lookup_put, AssocMap.lookup_cons]
        by_cases hp : path = f.1
        · subst hp
          rw [if_pos rfl, if_pos rfl]
          cases hlook : map.lookup f.1 with
          | none => rfl
          | some e =>
              have hkind : e.2 = .content := hmap _ (AssocMap.mem_of_lookup hlook)
              rw [Option.some_or, Option.some_or, mergeUpdate]
              dsimp only
              rw [hkind]
              exact congrArg some (Prod.ext rfl hkind.symm)
        · rw [if_neg hp, if_neg hp]
      · refine AssocMap.forall_put hmap ?_
        cases hlook : map.lookup f.1 with
        | none => rfl
        | some e =>
            have hkind : e.2 = .content := hmap _ (AssocMap.mem_of_lookup hlook)
            rw [mergeUpdate]
            dsimp only
            rw [hkind]
            rfl

section ContentOnly

variable {db : Database} {ctx : QueryCtx} {finds : Finds}

lemma Finds.Of.cold_content (h : finds.Of db.entry.overlay db.docs db.filess ctx)
    (hfn : ctx.wantFn = false) (hct : ctx.wantCt = true) :
    finds.cold (ctx.withLimits none none) =
      (db.coldContents ctx.contentSearch).map fun f => (f.1, f.2, .content) := by
  have hfn' : (ctx.withLimits none none).wantFn = false := hfn
  have hct' : (ctx.withLimits none none).wantCt = true := hct
  rw [Finds.cold, hfn', hct', if_neg Bool.false_ne_true, if_pos rfl, List.nil_append, h.ct_eq,
    List.flatMap_map, Database.coldContents, List.map_flatMap]
  refine List.flatMap_congr fun files _ => ?_
  rw [List.map_map, LineQuery.foundFiles]
  have hfilter : (files.filter fun f => ctx.contentSearch.prefilter f.content &&
        walked (files.map fun f => fold f.content) ctx.contentSearch.folded (fold f.content)).filter
      (fun f => ctx.contentSearch.verifies f.content && inScope f.path ctx.scope) =
      files.filter fun f => ctx.contentSearch.findsFile files f.content &&
        inScope f.path ctx.contentSearch.scope := by
    rw [List.filter_filter]
    refine List.filter_congr fun f _ => ?_
    rw [LineQuery.findsFile, Bool.and_comm, ← Bool.and_assoc]
    rfl
  rw [← hfilter]
  rfl

lemma Finds.Of.lookup_ovCt (h : finds.Of db.entry.overlay db.docs db.filess ctx) (path : String) :
    finds.ovCt.lookup path = match hotVersion db.recs path with
      | some (some v) =>
          if (v.content.map (ctx.contentSearch.overlayFinds db.hotTexts)).getD false then some v.lite
          else none
      | _ => none := by
  obtain ⟨-, hversion⟩ := db.inv
  have hmem : ∀ lite, finds.ovCt.lookup path = some lite ↔ ∃ v,
      hotVersion db.recs path = some (some v) ∧ v.lite = lite ∧
        (v.content.map (ctx.contentSearch.overlayFinds db.hotTexts)).getD false = true := by
    intro lite
    rw [AssocMap.lookup_eq_some h.ovCt_nodup, h.mem_ovCt, hversion, db.texts_eq]
    refine exists_congr fun v => ?_
    cases v.content <;> simp
  refine Option.ext fun lite => (hmem lite).trans ?_
  match hotVersion db.recs path with
  | none => simp
  | some none => simp
  | some (some v) =>
      dsimp only
      split
      · rename_i hfound
        simp [hfound]
      · rename_i hfound
        simp [hfound]

/-- What an unlimited query of the content layer alone reports. -/
theorem Database.queryEntry_content (db : Database) {ctx : QueryCtx} (hctx : ctx.Unlimited)
    (hfn : ctx.wantFn = false) (hct : ctx.wantCt = true) :
    ∃ map, queryEntry ctx db.entry none = .ok map ∧ (map.map Prod.fst).Nodup ∧
      ∀ p, map.lookup p = (db.contentMeta ctx.contentSearch p).map fun lite => (lite, .content) := by
  obtain ⟨hinv, hversion⟩ := db.inv
  obtain ⟨finds, hfinds, hquery⟩ := db.holds.queryEntry_eq ctx
  have hquery := (congrArg (queryEntry · db.entry none) hctx.withLimits_eq).symm.trans
    (hquery none none none)
  have hhot : finds.hot (ctx.withLimits none none) = overlayHits ctx .content finds.ovCt := by
    have hfn' : (ctx.withLimits none none).wantFn = false := hfn
    have hct' : (ctx.withLimits none none).wantCt = true := hct
    rw [Finds.hot, hfn', hct', if_neg Bool.false_ne_true, if_pos rfl, List.nil_append]
    rfl
  have hhotNodup : ((overlayHits ctx .content finds.ovCt).map Prod.fst).Nodup := by
    rw [overlayHits, List.map_map]
    exact hfinds.ovCt_nodup.sublist (List.filter_sublist.map Prod.fst)
  refine ⟨_, hquery, nodup_answerOf _ _ _, fun p => ?_⟩
  rw [answerOf, hhot, lookup_foldl_overrideIn hhotNodup,
    lookup_dropShadowed hinv, hfinds.cold_content hfn hct,
    lookup_foldl_mergeIn_content _ (fun _ he => absurd he List.not_mem_nil), hversion, overlayHits,
    AssocMap.lookup_map_snd (fun _ lite => (lite, MatchKind.content)),
    AssocMap.lookup_filter fun y => inScope y ctx.scope, hfinds.lookup_ovCt, Database.contentMeta]
  have hscope : ctx.contentSearch.scope = ctx.scope := rfl
  rw [hscope]
  rcases hotVersion db.recs p with _ | _ | v
  · simp
  · simp
  · cases inScope p ctx.scope with
    | false => simp
    | true =>
        by_cases hfound :
            (v.content.map (ctx.contentSearch.overlayFinds db.hotTexts)).getD false = true
        · simp [hfound, overrideUpdate]
        · simp [hfound]

end ContentOnly

/-! ## What a search of many databases reports -/

/-- What an unlimited merge of the selected databases reports. -/
theorem mergeEntries_reports (env : ConnEnv) {ctx : QueryCtx} (hctx : ctx.Unlimited)
    (dbs : List Database) (i : ℕ) {merged : ResultMap} (hmerged : (merged.map Prod.fst).Nodup) :
    ∃ map, mergeEntries env ctx none i (dbs.map Database.entry) merged = .ok map ∧
      (map.map Prod.fst).Nodup ∧
      ((∀ db ∈ dbs, ColdKeeps ctx.fnCase ctx.needle db.docs) →
        ∀ p, reports MatchKind.hasFilename map p =
          (reports MatchKind.hasFilename merged p || dbs.any fun db => db.showsName ctx p)) ∧
      ∀ p, reports MatchKind.hasContent map p = (reports MatchKind.hasContent merged p ||
        dbs.any fun db => ctx.wantCt && db.findsContent ctx.contentSearch p) := by
  induction dbs generalizing i merged with
  | nil => exact ⟨merged, rfl, hmerged, by simp, by simp⟩
  | cons db dbs ih =>
      obtain ⟨per, hper, hnodup, hfn, hct⟩ := db.queryEntry_reports hctx
      have hmerge : ∀ flag, Additive flag → ∀ p,
          reports flag ((env.order i per).foldl (mergeIn none) merged) p =
            (reports flag merged p || reports flag per p) := by
        intro flag hflag p
        rw [reports_foldl_mergeIn hflag, anyHit_perm flag (env.order_perm i per),
          ← reports_eq_anyHit flag hnodup]
      have hnext : (((env.order i per).foldl (mergeIn none) merged).map Prod.fst).Nodup := by
        rw [foldl_mergeIn, putAllCapped_none]
        exact AssocMap.nodup_putAll hmerged
      obtain ⟨map, hmap, hmapNodup, hmapFn, hmapCt⟩ := ih (i + 1) hnext
      refine ⟨map, ?_, hmapNodup, fun hkeep p => ?_, fun p => ?_⟩
      · rw [List.map_cons, mergeEntries, hper]
        exact hmap
      · rw [hmapFn fun d hd => hkeep d (List.mem_cons_of_mem _ hd),
          hmerge _ additive_hasFilename, hfn (hkeep db (List.mem_cons_self ..)), List.any_cons,
          Bool.or_assoc]
      · rw [hmapCt, hmerge _ additive_hasContent, hct, List.any_cons, Bool.or_assoc]

lemma sortEntries_perm (entries : List Hit) (mode : SortMode) :
    (sortEntries entries mode).Perm entries := by
  unfold sortEntries
  cases mode with
  | none => exact List.Perm.refl _
  | path => exact List.mergeSort_perm _ _
  | kind => exact List.mergeSort_perm _ _
  | default => exact List.mergeSort_perm _ _

/-- Whether the filters of a request let a merged hit through. -/
def passesAll (env : ConnEnv) (req : SearchRequest) (plan : SearchPlan) (h : Hit) : Bool :=
  passes h.1 req.opts && passesRegex plan.re h && passesExpr env (bfsExpr req) h

lemma unlimited_queryCtx {req : SearchRequest} (hlimit : req.limit = none) (plan : SearchPlan) :
    (queryCtx req plan).Unlimited := by
  refine ⟨?_, hlimit⟩
  rw [queryCtx, hlimit, ite_self]

lemma mem_filterHits {env : ConnEnv} {req : SearchRequest} {plan : SearchPlan} {map : ResultMap}
    {h : Hit} : h ∈ filterHits env req plan map ↔ h ∈ map ∧ passesAll env req plan h = true := by
  simp only [filterHits, passesAll, List.mem_filter, Bool.and_eq_true, and_assoc]

/-- An unlimited search returns every merged hit that passes the filters, once. -/
theorem mem_searchPaths {env : ConnEnv} {req : SearchRequest} (hlimit : req.limit = none)
    {plan : SearchPlan} {entries : List DbEntry} {merged : ResultMap}
    (hmerged : mergeEntries env (queryCtx req plan) none 1 entries [] = .ok merged)
    (hnodup : (merged.map Prod.fst).Nodup) :
    ∃ hits, searchPaths env req plan entries = .ok hits ∧ (hits.map Prod.fst).Nodup ∧
      ∀ h, h ∈ hits ↔ merged.lookup h.1 = some h.2 ∧ passesAll env req plan h = true := by
  have hcap : mergeCap req = none := by
    rw [mergeCap, hlimit, ite_self]
  have hperm := env.order_perm 0 merged
  have hsort := sortEntries_perm (filterHits env req plan (env.order 0 merged)) req.opts.sort
  have hfilter : ((filterHits env req plan (env.order 0 merged)).map Prod.fst).Nodup := by
    refine List.Nodup.sublist (List.Sublist.map Prod.fst ?_)
      ((hperm.map Prod.fst).nodup_iff.mpr hnodup)
    exact List.filter_sublist.trans (List.filter_sublist.trans List.filter_sublist)
  refine ⟨sortEntries (filterHits env req plan (env.order 0 merged)) req.opts.sort, ?_,
    (hsort.map Prod.fst).nodup_iff.mpr hfilter, fun h => ?_⟩
  · rw [searchPaths, hcap, hmerged, bind_ok, hlimit]
    rfl
  · rw [hsort.mem_iff, mem_filterHits, hperm.mem_iff, AssocMap.lookup_eq_some hnodup]

/-- The metadata under which the content layer of the selected databases reports the path: that of
the first one that finds it. -/
def foundMeta (q : LineQuery) (dbs : List Database) (path : String) : Option LiteMeta :=
  dbs.findSome? fun db => db.contentMeta q path

lemma foundMeta_cons (q : LineQuery) (db : Database) (dbs : List Database) (path : String) :
    foundMeta q (db :: dbs) path = (db.contentMeta q path).or (foundMeta q dbs path) := by
  rw [foundMeta, List.findSome?_cons]
  cases db.contentMeta q path <;> rfl

/-- What an unlimited merge of the content layers alone reports. -/
theorem mergeEntries_content (env : ConnEnv) {ctx : QueryCtx} (hctx : ctx.Unlimited)
    (hfn : ctx.wantFn = false) (hct : ctx.wantCt = true) (dbs : List Database) (i : ℕ)
    {merged : ResultMap} (hmerged : (merged.map Prod.fst).Nodup)
    (hkinds : ∀ e ∈ merged, e.2.2 = .content) :
    ∃ map, mergeEntries env ctx none i (dbs.map Database.entry) merged = .ok map ∧
      (map.map Prod.fst).Nodup ∧
      ∀ p, map.lookup p = (merged.lookup p).or
        ((foundMeta ctx.contentSearch dbs p).map fun lite => (lite, .content)) := by
  induction dbs generalizing i merged with
  | nil => exact ⟨merged, rfl, hmerged, by simp [foundMeta]⟩
  | cons db dbs ih =>
      obtain ⟨per, hper, hnodup, hat⟩ := db.queryEntry_content hctx hfn hct
      have hperm := env.order_perm i per
      have hordered : ((env.order i per).map Prod.fst).Nodup :=
        (hperm.map Prod.fst).nodup_iff.mpr hnodup
      -- the map of the entry, as paths with metadata
      have hcontent : ∀ e ∈ env.order i per, e.2.2 = .content := by
        rintro ⟨p, lite, kind⟩ he
        have hlook := AssocMap.lookup_of_mem hnodup (hperm.mem_iff.mp he)
        rw [hat] at hlook
        obtain ⟨m, -, hm⟩ := Option.map_eq_some_iff.mp hlook
        exact (Prod.mk.inj hm).2.symm
      have hform : (env.order i per) =
          ((env.order i per).map fun e => (e.1, e.2.1)).map fun f => (f.1, f.2, .content) := by
        rw [List.map_map]
        refine (List.map_id _).symm.trans (List.map_congr_left fun e he => ?_)
        exact Prod.ext rfl (Prod.ext rfl (hcontent e he))
      have hlook : ∀ p, ((env.order i per).foldl (mergeIn none) merged).lookup p =
          (merged.lookup p).or ((db.contentMeta ctx.contentSearch p).map fun lite =>
            (lite, .content)) := by
        intro p
        rw [hform, lookup_foldl_mergeIn_content _ hkinds, ← AssocMap.lookup_map_snd
          (fun _ lite => (lite, MatchKind.content)), ← hform, AssocMap.lookup_perm hnodup hperm, hat]
      have hnextNodup : (((env.order i per).foldl (mergeIn none) merged).map Prod.fst).Nodup := by
        rw [foldl_mergeIn, putAllCapped_none]
        exact AssocMap.nodup_putAll hmerged
      have hnextKinds : ∀ e ∈ (env.order i per).foldl (mergeIn none) merged, e.2.2 = .content := by
        rintro ⟨p, lite, kind⟩ he
        have hsome := AssocMap.lookup_of_mem hnextNodup he
        rw [hlook, Option.or_eq_some_iff] at hsome
        rcases hsome with hsome | ⟨-, hsome⟩
        · exact hkinds _ (AssocMap.mem_of_lookup hsome)
        · obtain ⟨m, -, hm⟩ := Option.map_eq_some_iff.mp hsome
          exact (Prod.mk.inj hm).2.symm
      obtain ⟨map, hmap, hmapNodup, hmapAt⟩ := ih (i + 1) hnextNodup hnextKinds
      refine ⟨map, ?_, hmapNodup, fun p => ?_⟩
      · rw [List.map_cons, mergeEntries, hper]
        exact hmap
      · rw [hmapAt, hlook, Option.or_assoc, foundMeta_cons]
        cases db.contentMeta ctx.contentSearch p <;> rfl

/-! ## From the request to the frames -/

def selectedDbs (dbs : List Database) (req : SearchRequest) : List Database :=
  dbs.filter fun db => (selectedNames (dbs.map Database.entry) req).contains db.entry.name

/-- The request names no database, or one of these.  Others are answered by one error frame. -/
def SearchRequest.Selects (req : SearchRequest) (dbs : List Database) : Prop :=
  ∀ name, req.db = some name → ∃ db ∈ dbs, db.entry.name = name

lemma selects_of_none {req : SearchRequest} (h : req.db = none) (dbs : List Database) :
    req.Selects dbs := by
  intro name hname
  rw [h] at hname
  cases hname

lemma selectedDbs_of_none {req : SearchRequest} (h : req.db = none) (dbs : List Database) :
    selectedDbs dbs req = dbs := by
  refine List.filter_eq_self.mpr fun db hdb => ?_
  rw [selectedNames, h, selectEntries, List.contains_iff_mem]
  exact List.mem_map_of_mem (List.mem_map_of_mem hdb)

lemma selectNamed_of_none {entries : List DbEntry} {req : SearchRequest} (h : req.db = none) :
    selectNamed entries (selectedNames entries req) = entries := by
  refine List.filter_eq_self.mpr fun e he => ?_
  rw [selectedNames, h, selectEntries, List.contains_iff_mem]
  exact List.mem_map_of_mem he

lemma selectNamed_selectedNames (dbs : List Database) (req : SearchRequest) :
    selectNamed (dbs.map Database.entry) (selectedNames (dbs.map Database.entry) req) =
      (selectedDbs dbs req).map Database.entry := by
  rw [selectNamed, List.filter_map, selectedDbs]
  rfl

/-- A search that selects a database, or is asked of all of them. -/
lemma handleSearch_selected {env : ConnEnv} {req : SearchRequest} {plan : SearchPlan}
    {entries : List DbEntry} (hplan : searchPlan env req = .ok plan)
    (h : req.db.isSome = true → selectedNames entries req ≠ []) :
    handleSearch env entries req =
      if req.opts.lineNumbers || req.opts.context.isSome then
        searchLines (lineQuery req plan) (selectNamed entries (selectedNames entries req)) [] >>=
          fun hits => pure (.ok (lineFrames hits))
      else
        searchPaths env req plan (selectNamed entries (selectedNames entries req)) >>=
          fun hits => pure (.ok (pathFrames hits)) := by
  rw [handleSearch, hplan]
  dsimp only
  cases hdb : req.db with
  | none => rfl
  | some name =>
      cases hnames : selectedNames entries req with
      | nil => exact absurd hnames (h (by rw [hdb]; rfl))
      | cons n ns => rfl

lemma handleSearch_unknown {env : ConnEnv} {req : SearchRequest} {plan : SearchPlan}
    {entries : List DbEntry} {name : String} (hplan : searchPlan env req = .ok plan)
    (hdb : req.db = some name) (hnames : selectedNames entries req = []) :
    handleSearch env entries req = .ok (.ok [.error (unknownDbMessage entries name)]) := by
  rw [handleSearch, hplan]
  dsimp only
  rw [hdb, hnames]
  rfl

lemma handleSearch_of_selects {env : ConnEnv} {req : SearchRequest} {plan : SearchPlan}
    {dbs : List Database} (hplan : searchPlan env req = .ok plan) (hsel : req.Selects dbs) :
    handleSearch env (dbs.map Database.entry) req =
      if req.opts.lineNumbers || req.opts.context.isSome then
        searchLines (lineQuery req plan) ((selectedDbs dbs req).map Database.entry) [] >>=
          fun hits => pure (.ok (lineFrames hits))
      else
        searchPaths env req plan ((selectedDbs dbs req).map Database.entry) >>= fun hits =>
          pure (.ok (pathFrames hits)) := by
  rw [handleSearch_selected hplan, selectNamed_selectedNames]
  intro hdb
  obtain ⟨name, hname⟩ := Option.isSome_iff_exists.mp hdb
  obtain ⟨db, hmem, heq⟩ := hsel name hname
  rw [selectedNames, hname, selectEntries]
  refine List.ne_nil_of_mem (List.mem_map_of_mem (List.mem_filter.mpr
    ⟨List.mem_map_of_mem hmem, beq_iff_eq.mpr heq⟩))

/-- A name that no database has is answered by an error, and selects nothing. -/
lemma handleSearch_of_not_selects {env : ConnEnv} {req : SearchRequest} {plan : SearchPlan}
    {dbs : List Database} (hplan : searchPlan env req = .ok plan) (hsel : ¬ req.Selects dbs) :
    ∃ message, handleSearch env (dbs.map Database.entry) req = .ok (.ok [.error message]) ∧
      selectedDbs dbs req = [] := by
  unfold SearchRequest.Selects at hsel
  push Not at hsel
  obtain ⟨name, hdb, hnone⟩ := hsel
  have hnames : selectedNames (dbs.map Database.entry) req = [] := by
    rw [selectedNames, hdb, selectEntries, List.map_eq_nil_iff, List.filter_eq_nil_iff]
    intro e he
    obtain ⟨db, hmem, rfl⟩ := List.mem_map.mp he
    exact fun hname => hnone db hmem (beq_iff_eq.mp hname)
  refine ⟨_, handleSearch_unknown hplan hdb hnames, ?_⟩
  rw [selectedDbs, hnames]
  exact List.filter_eq_nil_iff.mpr fun db _ => Bool.false_ne_true

/-- The reply to an unlimited request in path mode: the merged hits that pass the filters, each in
the layers that found its path. -/
theorem handleSearch_paths (env : ConnEnv) {req : SearchRequest} {plan : SearchPlan}
    {dbs : List Database} (hplan : searchPlan env req = .ok plan) (hsel : req.Selects dbs)
    (hlimit : req.limit = none)
    (hmode : (req.opts.lineNumbers || req.opts.context.isSome) = false) :
    ∃ merged hits, handleSearch env (dbs.map Database.entry) req = .ok (.ok (pathFrames hits)) ∧
      (hits.map Prod.fst).Nodup ∧
      (∀ h, h ∈ hits ↔ merged.lookup h.1 = some h.2 ∧ passesAll env req plan h = true) ∧
      ((∀ db ∈ selectedDbs dbs req, ColdKeeps plan.fnCase plan.needle db.docs) →
        ∀ p, reports MatchKind.hasFilename merged p =
          (selectedDbs dbs req).any fun db => db.showsName (queryCtx req plan) p) ∧
      ∀ p, reports MatchKind.hasContent merged p = (selectedDbs dbs req).any fun db =>
        req.opts.layers.content && db.findsContent (queryCtx req plan).contentSearch p := by
  have hnil : (([] : ResultMap).map Prod.fst).Nodup := List.nodup_nil
  obtain ⟨merged, hmerged, hnodup, hfn, hct⟩ := mergeEntries_reports env
    (unlimited_queryCtx hlimit plan) (selectedDbs dbs req) 1 hnil
  obtain ⟨hits, hhits, hhitsNodup, hmem⟩ := mem_searchPaths hlimit hmerged hnodup
  refine ⟨merged, hits, ?_, hhitsNodup, hmem, hfn, hct⟩
  rw [handleSearch_of_selects hplan hsel, hmode, hhits]
  rfl

def ResponseFrame.batchHits : ResponseFrame → List Hit
  | .batch paths lites kinds => paths.zip (lites.zip kinds)
  | _ => []

def ResponseFrame.lineHits : ResponseFrame → List LineHit
  | .lines hits => hits
  | _ => []

/-- The frames of a path-mode reply deliver its results. -/
lemma batchHits_pathFrames (hits : List Hit) :
    (pathFrames hits).flatMap ResponseFrame.batchHits = hits := by
  have hchunk : ∀ chunk : List Hit, (batchFrame chunk).batchHits = chunk := by
    intro chunk
    rw [batchFrame, ResponseFrame.batchHits]
    induction chunk with
    | nil => rfl
    | cons h chunk ih => exact congrArg (h :: ·) ih
  rw [pathFrames, List.flatMap_append, List.flatMap_map]
  have hall : (Chunks.chunks streamChunk hits).flatMap (fun c => (batchFrame c).batchHits) =
      (Chunks.chunks streamChunk hits).flatten := by
    rw [← List.flatMap_id]
    exact List.flatMap_congr fun c _ => hchunk c
  rw [hall, Chunks.flatten_chunks (by decide)]
  exact List.append_nil hits

lemma lineHits_lineFrames (hits : List LineHit) :
    (lineFrames hits).flatMap ResponseFrame.lineHits = hits := by
  rw [lineFrames, List.flatMap_append, List.flatMap_map]
  have hall : (Chunks.chunks streamChunk hits).flatMap
      (fun c => (ResponseFrame.lines c).lineHits) = (Chunks.chunks streamChunk hits).flatten := by
    rw [← List.flatMap_id]
    rfl
  rw [hall, Chunks.flatten_chunks (by decide)]
  exact List.append_nil hits

lemma lineHits_pathFrames (hits : List Hit) :
    (pathFrames hits).flatMap ResponseFrame.lineHits = [] := by
  rw [pathFrames, List.flatMap_append, List.flatMap_map, List.append_eq_nil_iff]
  exact ⟨List.flatMap_eq_nil_iff.mpr fun _ _ => rfl, rfl⟩

lemma batchHits_lineFrames (hits : List LineHit) :
    (lineFrames hits).flatMap ResponseFrame.batchHits = [] := by
  rw [lineFrames, List.flatMap_append, List.flatMap_map, List.append_eq_nil_iff]
  exact ⟨List.flatMap_eq_nil_iff.mpr fun _ _ => rfl, rfl⟩

end DeepFinder
