import DeepFinder.Daemon.LineHits
import DeepFinder.Daemon.LineMode

/-!
# The documents of a line-mode search

Line mode walks over shards and overlays, gathers the lines of each document as it comes to it, and
drops lines again when a later overlay shadows their path.  What it replies with in the end is said
by the documents alone: `heldDocs` lists those that are shown, in order, and each is shown with the
lines of its matches (`LineQuery.linesOf`).  `searchLines_eq` is the specification of the loop that
the results about limits, frames and replies use.

A limit takes the first candidates of each shard, before they are verified, and of an overlay the
documents up to the one that reaches it.
-/

namespace DeepFinder

open ByteString

def SearchRequest.lineMode (req : SearchRequest) : Bool :=
  req.opts.lineNumbers || req.opts.context.isSome

/-! ## Documents -/

/-- The lines of the matches in a document, once for each number under which they are shown. -/
def LineQuery.linesOf (q : LineQuery) (doc : String × Bytes) : List LineHit :=
  (q.shownLines doc.1 doc.2).map (q.lineHit doc.1 doc.2)

def Database.shadows (db : Database) (path : String) : Bool := (hotVersion db.recs path).isSome

/-- The documents of the shards that a search takes. -/
def Database.coldDocs (db : Database) (q : LineQuery) : List (String × Bytes) :=
  db.filess.flatMap fun files => (q.keptFiles q.limit files).map fun f => (f.path, f.content)

/-- The document that the records hold for a path in scope. -/
def Database.hotDoc (db : Database) (q : LineQuery) (path : String) : Option (String × Bytes) :=
  if inScope path q.scope then
    match hotVersion db.recs path with
    | some (some v) => v.content.map fun content => (path, content)
    | _ => none
  else none

/-- The documents of the overlay, in the order of its slots. -/
def Database.hotDocs (db : Database) (q : LineQuery) : List (String × Bytes) :=
  db.entry.overlay.paths.filterMap (db.hotDoc q)

/-- The first documents, until they have `n` lines. -/
def docsUntil (q : LineQuery) : ℕ → List (String × Bytes) → List (String × Bytes)
  | _, [] => []
  | n, doc :: docs =>
      if n = 0 then [] else doc :: docsUntil q (n - (q.linesOf doc).length) docs

/-- The documents of the overlay that a search takes. -/
def Database.hotTaken (db : Database) (q : LineQuery) : List (String × Bytes) :=
  match q.limit with
  | none => db.hotDocs q
  | some n => docsUntil q n (db.hotDocs q)

/-- The documents that are shown in the end: those of each database that neither its own overlay
nor that of a later one shadows, and those of its overlay that no later one shadows. -/
def heldDocs (q : LineQuery) : List Database → List (String × Bytes)
  | [] => []
  | db :: dbs =>
      (((db.coldDocs q).filter fun d => !db.shadows d.1) ++ db.hotTaken q).filter
        (fun d => dbs.all fun e => !e.shadows d.1) ++ heldDocs q dbs

def heldLines (q : LineQuery) (dbs : List Database) : List LineHit :=
  (heldDocs q dbs).flatMap q.linesOf

section Docs

variable {db : Database} {q : LineQuery}

lemma LineQuery.fileHits_eq_linesOf (q : LineQuery) (path : String) (content : Bytes) :
    q.fileHits path content = q.linesOf (path, content) := q.fileHits_eq path content

lemma LineQuery.path_of_mem_linesOf {doc : String × Bytes} {hit : LineHit}
    (h : hit ∈ q.linesOf doc) : hit.path = doc.1 :=
  LineQuery.path_of_mem_hitLoop ((q.fileHits_eq_linesOf doc.1 doc.2).symm ▸ h)

/-- A condition on the paths of lines is one on the paths of their documents. -/
lemma filter_linesOf (p : String → Bool) (docs : List (String × Bytes)) :
    (docs.flatMap q.linesOf).filter (fun h => p h.path) =
      (docs.filter fun d => p d.1).flatMap q.linesOf := by
  induction docs with
  | nil => rfl
  | cons doc docs ih =>
      rw [List.flatMap_cons, List.filter_append, ih, List.filter_cons]
      have hpath : ∀ h ∈ q.linesOf doc, p h.path = p doc.1 := fun h hh => by
        rw [LineQuery.path_of_mem_linesOf hh]
      by_cases hp : p doc.1 = true
      · rw [if_pos hp, List.flatMap_cons,
          List.filter_eq_self.mpr fun h hh => (hpath h hh).trans hp]
      · rw [if_neg hp, List.filter_eq_nil_iff.mpr fun h hh => by rw [hpath h hh]; exact hp,
          List.nil_append]

/-- A slot of the overlay shows the lines of the document that its path has, if it has one. -/
lemma Database.slotLines_eq (db : Database) (q : LineQuery) {d : ℕ} {path : String}
    (hd : db.entry.overlay.paths[d]? = some path) :
    db.entry.overlay.slotLines q d = ((db.hotDoc q path).map q.linesOf).getD [] := by
  obtain ⟨hinv, hversion⟩ := db.inv
  rw [Overlay.slotLines, hd, Database.hotDoc]
  dsimp only
  by_cases hscope : inScope path q.scope = true
  · rw [if_pos hscope, ← hversion]
    by_cases hdead : path ∈ db.entry.overlay.tombstones
    · rw [if_pos (Or.inl hdead), Overlay.version, if_pos hdead]
      rfl
    · obtain ⟨v, hv, -, hcontent⟩ := hinv.live_of_slot hd hdead
      rw [if_neg (by simp [hdead, hscope]), hv, Overlay.content, hcontent]
      dsimp only [Option.join_some]
      cases v.content with
      | none => rfl
      | some content =>
          rw [Option.map_some, Option.map_some, Option.map_some, q.fileHits_eq_linesOf]
  · rw [if_neg hscope, if_pos (Or.inr (Bool.eq_false_iff.mpr hscope))]
    rfl

lemma docsUntil_zero (docs : List (String × Bytes)) : docsUntil q 0 docs = [] := by
  cases docs <;> rfl

/-- What the loop over the slots does with a slot: it gathers its lines, unless there are `n`
already. -/
lemma Database.overlayLineLoop_cons (db : Database) (q : LineQuery) {d : ℕ} {path : String}
    (hd : db.entry.overlay.paths[d]? = some path) (ds : List ℕ) (out : List LineHit) :
    overlayLineLoop db.entry.overlay q (d :: ds) out =
      if capReached q.limit out.length then out
      else overlayLineLoop db.entry.overlay q ds
        (out ++ ((db.hotDoc q path).map q.linesOf).getD []) := by
  rw [← db.slotLines_eq q hd, overlayLineLoop, Overlay.slotLines, hd]
  split
  · rfl
  · dsimp only
    split
    · rw [List.append_nil]
    · cases db.entry.overlay.content d with
      | none =>
          dsimp only
          rw [Option.map_none, Option.getD_none, List.append_nil]
      | some content => rfl

/-- The loop over the slots gathers the lines of the documents that the search takes. -/
lemma Database.overlayLineLoop_eq (db : Database) (q : LineQuery) {ds : List ℕ}
    {paths : List String}
    (hds : List.Forall₂ (fun d path => db.entry.overlay.paths[d]? = some path) ds paths)
    (out : List LineHit) :
    overlayLineLoop db.entry.overlay q ds out = out ++ (match q.limit with
      | none => paths.filterMap (db.hotDoc q)
      | some n => docsUntil q (n - out.length) (paths.filterMap (db.hotDoc q))).flatMap
        q.linesOf := by
  induction hds generalizing out with
  | nil => cases q.limit <;> exact (List.append_nil out).symm
  | cons hd _ ih =>
      rename_i d path ds paths _
      rw [db.overlayLineLoop_cons q hd, ih]
      cases hlimit : q.limit with
      | none =>
          rw [if_neg (by simp [capReached]), List.filterMap_cons]
          cases db.hotDoc q path with
          | none => simp
          | some doc => simp
      | some n =>
          dsimp only
          by_cases hfull : n ≤ out.length
          · have hreached : capReached (some n) out.length = true := decide_eq_true hfull
            rw [if_pos hreached, Nat.sub_eq_zero_of_le hfull, docsUntil_zero, List.flatMap_nil,
              List.append_nil]
          · rw [if_neg (by simpa [capReached] using hfull), List.filterMap_cons]
            cases db.hotDoc q path with
            | none => simp
            | some doc =>
                dsimp only
                rw [docsUntil, if_neg (by omega), List.flatMap_cons, Option.map_some,
                  Option.getD_some, List.length_append, List.append_assoc, Nat.sub_sub]

lemma Database.overlayLineHits_eq (db : Database) (q : LineQuery) :
    overlayLineHits db.entry.overlay q = (db.hotTaken q).flatMap q.linesOf := by
  have hlen : db.entry.overlay.len % 2 ^ 32 = db.entry.overlay.paths.length :=
    Nat.mod_eq_of_lt (db.inv.1.length_paths_lt db.holds.paths_lt)
  have hslots : List.Forall₂ (fun d path => db.entry.overlay.paths[d]? = some path)
      (List.range db.entry.overlay.paths.length) db.entry.overlay.paths := by
    refine List.forall₂_iff_get.mpr ⟨List.length_range, fun d hd hd' => ?_⟩
    simp
  rw [overlayLineHits, hlen, db.overlayLineLoop_eq q hslots, List.nil_append, Database.hotTaken,
    Database.hotDocs]
  rfl

lemma Database.queryLines_eq (db : Database) (q : LineQuery) :
    ContentShards.queryLines db.entry.shards q = .ok ((db.coldDocs q).flatMap q.linesOf) := by
  rw [DeepFinder.queryLines_eq db.holds.shards_index, Database.coldDocs, List.flatMap_assoc]
  refine congrArg Except.ok (List.flatMap_congr fun files _ => ?_)
  rw [List.flatMap_map]
  exact List.flatMap_congr fun f _ => q.fileHits_eq_linesOf f.path f.content

lemma Database.dropShadowedLines_eq (db : Database) (lines : List LineHit) :
    dropShadowedLines db.entry.overlay lines = lines.filter fun h => !db.shadows h.path := by
  obtain ⟨hinv, hversion⟩ := db.inv
  have hshadows : ∀ p, db.entry.overlay.suppresses p = db.shadows p := by
    intro p
    rw [Bool.eq_iff_iff, hinv.suppresses_iff, hversion, Database.shadows, Option.isSome_iff_ne_none]
  unfold dropShadowedLines
  split
  · exact List.filter_congr fun h _ => by rw [hshadows]
  · rename_i hnone
    refine (List.filter_eq_self.mpr fun h _ => ?_).symm
    rw [← hshadows, hinv.suppresses_eq_false (by simpa using hnone)]
    rfl

end Docs

/-- A search in line mode replies with the lines of the documents that are shown, after what was
gathered before and is not shadowed. -/
theorem searchLines_eq (q : LineQuery) (dbs : List Database) (all : List LineHit) :
    searchLines q (dbs.map Database.entry) all =
      .ok ((all.filter fun h => dbs.all fun d => !d.shadows h.path) ++ heldLines q dbs) := by
  unfold heldLines
  induction dbs generalizing all with
  | nil =>
      rw [heldDocs, List.flatMap_nil, List.append_nil]
      exact congrArg Except.ok (List.filter_eq_self.mpr fun _ _ => rfl).symm
  | cons db dbs ih =>
      have hold : (all.filter fun h => (db :: dbs).all fun d => !d.shadows h.path) =
          (all.filter fun h => !db.shadows h.path).filter fun h =>
            dbs.all fun d => !d.shadows h.path := by
        rw [List.filter_filter]
        refine List.filter_congr fun h _ => ?_
        rw [List.all_cons, Bool.and_comm]
      -- conditions on the paths of lines are conditions on documents
      have hcold : (((db.coldDocs q).flatMap q.linesOf).filter fun h => !db.shadows h.path) =
          ((db.coldDocs q).filter fun d => !db.shadows d.1).flatMap q.linesOf :=
        filter_linesOf (fun p => !db.shadows p) _
      have hlater : ∀ docs : List (String × Bytes),
          ((docs.flatMap q.linesOf).filter fun h => dbs.all fun d => !d.shadows h.path) =
            (docs.filter fun d => dbs.all fun e => !e.shadows d.1).flatMap q.linesOf :=
        filter_linesOf fun p => dbs.all fun d => !d.shadows p
      rw [List.map_cons, searchLines, db.queryLines_eq, bind_ok, ih, db.overlayLineHits_eq,
        db.dropShadowedLines_eq, heldDocs, hold]
      simp only [List.filter_append, hcold, hlater, List.flatMap_append, List.append_assoc]

/-- The reply in line mode. -/
theorem handleSearch_lines {env : ConnEnv} {req : SearchRequest} {plan : SearchPlan}
    {dbs : List Database} (hplan : searchPlan env req = .ok plan) (hsel : req.Selects dbs)
    (hmode : req.lineMode = true) :
    handleSearch env (dbs.map Database.entry) req =
      .ok (.ok (lineFrames (heldLines (lineQuery req plan) (selectedDbs dbs req)))) := by
  have hmode : (req.opts.lineNumbers || req.opts.context.isSome) = true := hmode
  rw [handleSearch_of_selects hplan hsel, if_pos hmode, searchLines_eq, List.filter_nil,
    List.nil_append]
  rfl

end DeepFinder
