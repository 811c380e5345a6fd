import DeepFinder.Content.OverlayMap
import DeepFinder.Core.DbRoundTrip
import DeepFinder.Daemon.HeldDocs
import DeepFinder.Daemon.Protocol
import DeepFinder.Daemon.Reproducible
import DeepFinder.Index.Walk
import DeepFinder.Ipc.StandardWire

/-!
# The size of a reply's frames

Results are sent in blocks of `streamChunk`, whatever their size, and a frame that is longer than
the transport takes ends the connection.  `result_frames_fit` says of which databases and requests
every frame of results can be sent:

- in line mode, when no block of the lines that the documents hold adds up to more than a frame;
- in path mode, when no `streamChunk` paths of the databases do.  This is enough, and it is also
  needed as far as the databases go: which paths share a frame is up to the iteration of a hash map.

Short paths and lines always fit (`pathsFit_of_short`, `linesFit_of_short`).  Eight files of one line
each, as long as a default build takes, do not (`long_lines_not_sent`).

The codec is any `WireCodec` with `WireCodec.Sizes`.
-/

namespace DeepFinder

open ByteString

/-! ## Blocks of results -/

/-- The results that frame number `i` of a reply delivers. -/
def frameBlock {α : Type} (i : ℕ) (hits : List α) : List α :=
  (hits.drop (i * streamChunk)).take streamChunk

def entrySize (h : Hit) : ℕ := stringSize h.1 + (liteSize h.2.1 + 1)

def entriesSize (hits : List Hit) : ℕ :=
  1 + (3 * varintSize hits.length + (hits.map entrySize).sum)

lemma batchSize_eq (hits : List Hit) : batchSize (hits.map fun h => h.1)
    (hits.map fun h => h.2.1) (hits.map fun h => h.2.2) = entriesSize hits := by
  have hsum : (hits.map entrySize).sum = (hits.map fun h => stringSize h.1).sum +
      ((hits.map fun h => liteSize h.2.1).sum + (hits.map fun _ => 1).sum) := by
    rw [← List.sum_map_add, ← List.sum_map_add]
    rfl
  unfold batchSize entriesSize vecSize
  rw [hsum]
  simp only [List.map_map, List.length_map]
  change 1 + (varintSize hits.length + (hits.map fun h => stringSize h.1).sum +
    (varintSize hits.length + (hits.map fun h => liteSize h.2.1).sum +
      (varintSize hits.length + (hits.map fun _ => 1).sum))) = _
  omega

def ResponseFrame.carriesResults : ResponseFrame → Bool
  | .batch .. => true
  | .lines .. => true
  | _ => false

section Fits

variable {W : WireCodec} (hW : W.Sizes)

include hW

lemma pathFrames_fit_iff (hits : List Hit) :
    (∀ f ∈ pathFrames hits, f.carriesResults = true → W.fits f = true) ↔
      ∀ i, entriesSize (frameBlock i hits) ≤ maxFrameLength := by
  have hblocks := Chunks.forall_mem_chunks_iff (k := streamChunk) (by decide)
    (P := fun c => entriesSize c ≤ maxFrameLength) (by decide) hits
  refine Iff.trans ?_ hblocks
  have hfits : ∀ c : List Hit, W.fits (batchFrame c) = true ↔ entriesSize c ≤ maxFrameLength := by
    intro c
    rw [← batchSize_eq]
    exact hW.fits_iff _
  constructor
  · intro h c hc
    exact (hfits c).mp (h _ (List.mem_append_left _ (List.mem_map_of_mem hc)) rfl)
  · intro h f hf hcarries
    rcases List.mem_append.mp hf with hbatch | hdone
    · obtain ⟨c, hc, rfl⟩ := List.mem_map.mp hbatch
      exact (hfits c).mpr (h c hc)
    · obtain rfl := List.mem_singleton.mp hdone
      cases hcarries

lemma lineFrames_fit_iff (hits : List LineHit) :
    (∀ f ∈ lineFrames hits, f.carriesResults = true → W.fits f = true) ↔
      ∀ i, linesSize (frameBlock i hits) ≤ maxFrameLength := by
  have hblocks := Chunks.forall_mem_chunks_iff (k := streamChunk) (by decide)
    (P := fun c => linesSize c ≤ maxFrameLength) (by decide) hits
  refine Iff.trans ?_ hblocks
  constructor
  · intro h c hc
    exact (hW.fits_iff _).mp (h _ (List.mem_append_left _ (List.mem_map_of_mem hc)) rfl)
  · intro h f hf hcarries
    rcases List.mem_append.mp hf with hlines | hdone
    · obtain ⟨c, hc, rfl⟩ := List.mem_map.mp hlines
      exact (hW.fits_iff _).mpr (h c hc)
    · obtain rfl := List.mem_singleton.mp hdone
      cases hcarries

end Fits

/-! ## What the databases hold -/

/-- The path is one of the database: of a document, of a file of a shard, or of a record. -/
def Database.HasPath (db : Database) (path : String) : Prop :=
  (∃ doc ∈ db.docs, doc.1 = path) ∨ (∃ files ∈ db.filess, ∃ f ∈ files, f.path = path) ∨
    ∃ r ∈ db.recs, r.path = path

/-- The most that a result takes besides its path: its metadata, its kind, and its share of the
numbers before the vectors of a frame. -/
def entryOverhead : ℕ := 20

/-- No paths of the databases that could share a frame add up to more than one.  Which of them share
a frame depends on the order in which hash maps are read, so all choices are considered. -/
def PathsFit (dbs : List Database) : Prop :=
  ∀ paths : List String, paths.Nodup → paths.length ≤ streamChunk →
    (∀ p ∈ paths, ∃ db ∈ dbs, db.HasPath p) →
    (paths.map fun p => stringSize p + entryOverhead).sum + 10 ≤ maxFrameLength

/-- No block of the lines that the documents hold for the request adds up to more than a frame. -/
def LinesFit (env : ConnEnv) (dbs : List Database) (req : SearchRequest) : Prop :=
  ∀ plan, searchPlan env req = .ok plan → ∀ i,
    linesSize (frameBlock i (heldLines (lineQuery req plan) (selectedDbs dbs req))) ≤ maxFrameLength

lemma Finds.Of.hasPath_cold {db : Database} {finds : Finds} {ctx ctx' : QueryCtx}
    (h : finds.Of db.entry.overlay db.docs db.filess ctx) {hit : Hit} (hhit : hit ∈ finds.cold ctx') :
    db.HasPath hit.1 := by
  rcases List.mem_append.mp hhit with hfn | hct
  · split at hfn
    · obtain ⟨f, hf, rfl⟩ := List.mem_map.mp hfn
      exact Or.inl ⟨f, h.fn_sub f (mem_takeOpt (List.mem_filter.mp hf).1), rfl⟩
    · cases hfn
  · split at hct
    · obtain ⟨found, hfound, hhit⟩ := List.mem_flatMap.mp hct
      obtain ⟨f, hf, rfl⟩ := List.mem_map.mp hhit
      rw [h.ct_eq] at hfound
      obtain ⟨files, hfiles, rfl⟩ := List.mem_map.mp hfound
      have hmem := mem_takeOpt (List.mem_filter.mp hf).1
      exact Or.inr (Or.inl ⟨files, hfiles, f, (List.mem_filter.mp hmem).1, rfl⟩)
    · cases hct

lemma Finds.Of.hasPath_hot {db : Database} {finds : Finds} {ctx ctx' : QueryCtx}
    (h : finds.Of db.entry.overlay db.docs db.filess ctx) {hit : Hit} (hhit : hit ∈ finds.hot ctx') :
    db.HasPath hit.1 := by
  obtain ⟨hinv, hversion⟩ := db.inv
  obtain ⟨v, hv⟩ := h.version_hot hinv hhit
  rw [hversion] at hv
  exact Or.inr (Or.inr ((hotVersion_ne_none_iff db.recs hit.1).mp (by rw [hv]; simp)))

/-- A database reports its own paths. -/
lemma Database.hasPath_of_queryEntry (db : Database) {ctx : QueryCtx} {cap : Option ℕ}
    {map : ResultMap} (h : queryEntry ctx db.entry cap = .ok map) {hit : Hit} (hhit : hit ∈ map) :
    db.HasPath hit.1 := by
  obtain ⟨finds, hof, hquery⟩ := db.holds.queryEntry_eq ctx
  have hself : ctx.withLimits ctx.effLimit ctx.limit = ctx := rfl
  have hmap := hquery ctx.effLimit ctx.limit cap
  rw [hself, h] at hmap
  obtain rfl := Except.ok.inj hmap
  have hkey := List.mem_map_of_mem (f := Prod.fst) ((takeOpt_sublist cap _).subset
    (answerOf_eq cap db.entry.overlay _ _ ▸ hhit))
  rcases AssocMap.mem_map_fst_putAll.mp hkey with hcold | hhot
  · obtain ⟨e, he, heq⟩ := List.mem_map.mp hcold
    have hmem := List.mem_map_of_mem (f := Prod.fst)
      ((takeOpt_sublist cap _).subset (dropShadowed_subset _ _ he))
    rw [mem_map_fst_mergeAll] at hmem
    obtain ⟨x, hx, hxe⟩ := List.mem_map.mp hmem
    exact heq ▸ hxe ▸ hof.hasPath_cold hx
  · rw [map_fst_overrideUpdate] at hhot
    obtain ⟨x, hx, hxe⟩ := List.mem_map.mp hhot
    exact hxe ▸ hof.hasPath_hot hx

/-- The entries of a reply are different paths of the selected databases. -/
lemma searchPaths_hasPath {env : ConnEnv} {req : SearchRequest} {plan : SearchPlan}
    {dbs : List Database} {hits : List Hit}
    (h : searchPaths env req plan (dbs.map Database.entry) = .ok hits) :
    (hits.map Prod.fst).Nodup ∧ ∀ hit ∈ hits, ∃ db ∈ dbs, db.HasPath hit.1 := by
  obtain ⟨o, hordered⟩ : ∃ o : MapOrder, env.ordered o = env :=
    ⟨⟨env.order, env.order_perm⟩, rfl⟩
  rw [← hordered, searchPaths, mergeEntries_ordered, bind_assoc] at h
  obtain ⟨pers, hpers, h⟩ := bind_eq_ok_iff.mp h
  rw [pure_bind] at h
  obtain rfl := Except.ok.inj h
  rw [foldl_mergeIn_nil]
  have hsub := takeOpt_sublist req.limit (sortEntries (filterHits (env.ordered o) req plan
    (o.order 0 (o.merged (mergeCap req) pers))) req.opts.sort)
  constructor
  · refine List.Nodup.sublist (hsub.map Prod.fst) ?_
    rw [((sortEntries_perm _ _).map Prod.fst).nodup_iff]
    exact o.nodup_filterHits (env.ordered o) req plan (mergeCap req) pers
  · intro hit hhit
    have hmerged := (mem_filterHits.mp ((sortEntries_perm _ _).mem_iff.mp (hsub.subset hhit))).1
    have hkey := List.mem_map_of_mem (f := Prod.fst) ((takeOpt_sublist _ _).subset
      ((o.order_perm 0 _).mem_iff.mp hmerged))
    rw [mem_map_fst_mergeAll, MapOrder.mem_map_fst_hits, pathsOf, List.mem_toFinset] at hkey
    obtain ⟨e, he, heq⟩ := List.mem_map.mp hkey
    obtain ⟨per, hper, he⟩ := List.mem_flatten.mp he
    obtain ⟨entry, hentry, hquery⟩ := mem_of_mapM_eq_ok hpers hper
    obtain ⟨db, hdb, rfl⟩ := List.mem_map.mp hentry
    exact ⟨db, hdb, heq ▸ db.hasPath_of_queryEntry hquery he⟩

/-! ## Short results -/

/-- The longest result that is short: 512 such results are less than a frame. -/
def shortResult : ℕ := 16000

lemma lineHitSize_le {hit : LineHit} (hline : hit.lineNo < 2 ^ 64)
    (hshort : (utf8 hit.path).length + (utf8 hit.text).length ≤ shortResult) :
    lineHitSize hit ≤ shortResult + 15 := by
  have hpath : varintSize (utf8 hit.path).length ≤ 3 :=
    varintSize_le_three (((Nat.le_add_right ..).trans hshort).trans_lt (by decide))
  have htext : varintSize (utf8 hit.text).length ≤ 3 :=
    varintSize_le_three (((Nat.le_add_left ..).trans hshort).trans_lt (by decide))
  have hnumber := varintSize_le hline
  unfold lineHitSize stringSize blobSize
  omega

/-- The sizes of a block's results add up to at most a block of the largest one. -/
lemma sum_frameBlock_le {α : Type} {hits : List α} {g : α → ℕ} {n : ℕ}
    (h : ∀ hit ∈ hits, g hit ≤ n) (i : ℕ) :
    (frameBlock i hits).length ≤ streamChunk ∧
      ((frameBlock i hits).map g).sum ≤ streamChunk * n := by
  have hlen : (frameBlock i hits).length ≤ streamChunk := List.length_take_le ..
  refine ⟨hlen, ?_⟩
  have hsum := List.sum_le_card_nsmul ((frameBlock i hits).map g) n fun k hk => by
    obtain ⟨hit, hhit, rfl⟩ := List.mem_map.mp hk
    exact h hit (List.mem_of_mem_drop (List.mem_of_mem_take hhit))
  rw [List.length_map, Nat.nsmul_eq_mul] at hsum
  exact hsum.trans (Nat.mul_le_mul_right n hlen)

/-- Paths that are short fit. -/
theorem pathsFit_of_short {dbs : List Database}
    (h : ∀ db ∈ dbs, ∀ p, db.HasPath p → (utf8 p).length ≤ shortResult) : PathsFit dbs := by
  intro paths _ hlen hhas
  have hsize : ∀ p ∈ paths, stringSize p + entryOverhead ≤ shortResult + 23 := by
    intro p hp
    obtain ⟨db, hdb, hpath⟩ := hhas p hp
    have hshort := h db hdb p hpath
    have hcount := varintSize_le_three (hshort.trans_lt (by decide))
    unfold stringSize blobSize entryOverhead
    omega
  have hsum := List.sum_le_card_nsmul (paths.map fun p => stringSize p + entryOverhead)
    (shortResult + 23) fun k hk => by
      obtain ⟨p, hp, rfl⟩ := List.mem_map.mp hk
      exact hsize p hp
  rw [List.length_map, Nat.nsmul_eq_mul] at hsum
  have hmul := Nat.mul_le_mul_right (shortResult + 23) hlen
  have hmax : streamChunk * (shortResult + 23) + 10 ≤ maxFrameLength := by decide
  omega

/-- Lines that are short fit. -/
theorem linesFit_of_short {env : ConnEnv} {dbs : List Database} {req : SearchRequest}
    (h : ∀ plan, ∀ hit ∈ heldLines (lineQuery req plan) (selectedDbs dbs req),
      hit.lineNo < 2 ^ 64 ∧ (utf8 hit.path).length + (utf8 hit.text).length ≤ shortResult) :
    LinesFit env dbs req := by
  intro plan _ i
  obtain ⟨hlen, hsum⟩ := sum_frameBlock_le (g := lineHitSize) (n := shortResult + 15)
    (fun hit hhit => lineHitSize_le (h plan hit hhit).1 (h plan hit hhit).2) i
  have hcount := varintSize_le_three (hlen.trans_lt (by decide))
  have hmax : 4 + streamChunk * (shortResult + 15) ≤ maxFrameLength := by decide
  unfold linesSize vecSize
  rw [List.length_map]
  omega

/-! ## The frames of a search -/

lemma entrySize_le_overhead (h : Hit) : entrySize h ≤ stringSize h.1 + entryOverhead := by
  have hsize := varintSize_le (zigzag_lt h.2.1.size)
  have htime := varintSize_le (zigzag_lt h.2.1.mtime)
  unfold entrySize liteSize entryOverhead
  omega

/-- Entries of different paths of the databases fit when the paths do. -/
lemma PathsFit.entriesSize_le {dbs : List Database} (h : PathsFit dbs) {hits : List Hit}
    (hnodup : (hits.map Prod.fst).Nodup) (hlen : hits.length ≤ streamChunk)
    (hhas : ∀ hit ∈ hits, ∃ db ∈ dbs, db.HasPath hit.1) : entriesSize hits ≤ maxFrameLength := by
  have hpaths := h (hits.map Prod.fst) hnodup (by rw [List.length_map]; exact hlen) fun p hp => by
    obtain ⟨hit, hhit, rfl⟩ := List.mem_map.mp hp
    exact hhas hit hhit
  have hsum : (hits.map entrySize).sum ≤
      ((hits.map Prod.fst).map fun p => stringSize p + entryOverhead).sum := by
    rw [List.map_map]
    exact List.sum_le_sum fun hit _ => entrySize_le_overhead hit
  have hcount := varintSize_le_three (hlen.trans_lt (by decide))
  unfold entriesSize
  omega

/-- Where no database is selected, there are no lines to fit. -/
lemma linesFit_of_unselected {env : ConnEnv} {dbs : List Database} {req : SearchRequest}
    (h : selectedDbs dbs req = []) : LinesFit env dbs req := by
  intro plan _ i
  rw [h]
  change linesSize (frameBlock i []) ≤ maxFrameLength
  rw [frameBlock, List.drop_nil, List.take_nil]
  decide

/-- Every frame of results can be sent: in line mode exactly when the lines that the documents hold
fit block by block, and in path mode when the paths of the selected databases fit.  Of the codec
only the sizes of its messages are used.  The second part is one-directional, since a limit or a
filter can keep a long path out of every frame. -/
theorem result_frames_fit {W : WireCodec} (hW : W.Sizes) (env : ConnEnv) (dbs : List Database)
    (req : SearchRequest) :
    (req.lineMode = true →
      ((∀ frames, handleSearch env (dbs.map Database.entry) req = .ok (.ok frames) →
        ∀ f ∈ frames, f.carriesResults = true → W.fits f = true) ↔ LinesFit env dbs req)) ∧
    (req.lineMode = false → PathsFit (selectedDbs dbs req) →
      ∀ frames, handleSearch env (dbs.map Database.entry) req = .ok (.ok frames) →
        ∀ f ∈ frames, f.carriesResults = true → W.fits f = true) := by
  by_cases hplan : ∃ plan, searchPlan env req = .ok plan
  · obtain ⟨plan, hplan⟩ := hplan
    by_cases hsel : req.Selects dbs
    · constructor
      · intro hmode
        rw [handleSearch_lines hplan hsel hmode]
        constructor
        · intro h plan' hplan'
          obtain rfl := Except.ok.inj (hplan.symm.trans hplan')
          exact (lineFrames_fit_iff hW _).mp (h _ rfl)
        · intro h frames hframes
          obtain rfl := Except.ok.inj (Except.ok.inj hframes)
          exact (lineFrames_fit_iff hW _).mpr (h plan hplan)
      · intro hmode hfit frames hframes
        have hpaths : ¬ (req.opts.lineNumbers || req.opts.context.isSome) = true :=
          Bool.eq_false_iff.mp hmode
        rw [handleSearch_of_selects hplan hsel, if_neg hpaths] at hframes
        obtain ⟨hits, hhits, hframes⟩ := bind_eq_ok_iff.mp hframes
        obtain rfl := Except.ok.inj (Except.ok.inj hframes)
        -- The paths of a frame are distinct paths of the selected databases, and no more than a
        -- chunk.
        obtain ⟨hnodup, hhas⟩ := searchPaths_hasPath hhits
        refine (pathFrames_fit_iff hW hits).mpr fun i => ?_
        have hsub : (frameBlock i hits).Sublist hits :=
          (List.take_sublist _ _).trans (List.drop_sublist _ _)
        exact hfit.entriesSize_le (hnodup.sublist (hsub.map _)) (List.length_take_le ..)
          fun hit hhit => hhas hit (hsub.subset hhit)
    · -- an unknown name is answered by one error frame
      obtain ⟨message, hmessage, hnone⟩ := handleSearch_of_not_selects hplan hsel
      have herror : ∀ frames, handleSearch env (dbs.map Database.entry) req = .ok (.ok frames) →
          ∀ f ∈ frames, f.carriesResults = true → W.fits f = true := by
        intro frames hframes f hf hcarries
        rw [hmessage] at hframes
        obtain rfl := Except.ok.inj (Except.ok.inj hframes)
        obtain rfl := List.mem_singleton.mp hf
        cases hcarries
      exact ⟨fun _ => iff_of_true herror (linesFit_of_unselected hnone), fun _ _ => herror⟩
  · obtain ⟨message, hmessage⟩ := @handleSearch_of_bad_plan env (dbs.map Database.entry) req hplan
    have hnone : ∀ frames, handleSearch env (dbs.map Database.entry) req ≠ .ok (.ok frames) := by
      intro frames hframes
      rw [hmessage] at hframes
      cases Except.ok.inj hframes
    exact ⟨fun _ => iff_of_true (fun frames hframes => absurd hframes (hnone frames))
      fun plan hp => absurd ⟨plan, hp⟩ hplan,
      fun _ _ frames hframes => absurd hframes (hnone frames)⟩

/-- The reply that one file name is found, in standard encoding. -/
theorem result_frames_fit_one_name :
    ∃ src r, (DbBuilder.ofFiles [("/d/x", ⟨false, 1, 0⟩)] 0).finish .stored = .ok src ∧
      DbReader.open src = .ok r ∧
      handleSearch plainEnv [⟨"default", r.view .stored, [], {}⟩] namesWithX =
        .ok (.ok [batchFrame [nameHit "/d/x"], .done 1]) ∧
      standardWire.fits (batchFrame [nameHit "/d/x"]) = true := by
  obtain ⟨src, r, hfinish, hopen, hindex⟩ := @DbBuilder.stored_indexes
    [("/d/x", ⟨false, 1, 0⟩)] (by decide +kernel)
  have hreply := handleSearch_oneName hindex
  refine ⟨src, r, hfinish, hopen, hreply, ?_⟩
  have hshort : PathsFit (selectedDbs [Database.ofDocs "default" hindex] namesWithX) := by
    refine pathsFit_of_short fun db hdb p hp => ?_
    obtain rfl := List.mem_singleton.mp (List.mem_of_mem_filter hdb)
    obtain rfl : "/d/x" = p := by simpa [Database.HasPath, Database.ofDocs] using hp
    decide
  exact (@result_frames_fit standardWire standardWire_sizes plainEnv
    [Database.ofDocs "default" hindex] namesWithX).2 rfl hshort _ hreply _ (List.mem_cons_self ..) rfl

/-! ## Long lines -/

lemma lossyLoop_ascii {bs : Bytes} (h : ∀ b ∈ bs, b < 0x80) {fuel : ℕ} (hfuel : bs.length ≤ fuel) :
    lossyLoop fuel bs = bs.map fun b => Char.ofNat b.toNat := by
  induction fuel generalizing bs with
  | zero =>
      obtain rfl := List.length_eq_zero_iff.mp (Nat.le_zero.mp hfuel)
      rfl
  | succ fuel ih =>
      cases bs with
      | nil => rfl
      | cons b bs =>
          obtain ⟨hb, hbs⟩ := List.forall_mem_cons.mp h
          have hfront : utf8Front (b :: bs) = (some (Char.ofNat b.toNat), 1) := if_pos hb
          rw [lossyLoop, hfront, Option.getD_some, List.drop_one, List.tail_cons,
            ih hbs (Nat.le_of_succ_le_succ hfuel), List.map_cons]

lemma le_length_fromUtf8Lossy {bs : Bytes} (h : ∀ b ∈ bs, b < 0x80) :
    bs.length ≤ (utf8 (fromUtf8Lossy bs)).length := by
  refine Nat.le_trans ?_ (length_le_utf8 _)
  rw [fromUtf8Lossy, String.toList_ofList, lossyLoop_ascii h (Nat.le_refl _), List.length_map]

section SingleLine

variable {content : Bytes}

lemma countNewlines_eq_zero {bs : Bytes} (h : newline ∉ bs) : countNewlines bs = 0 := by
  rw [countNewlines, List.filter_eq_nil_iff.mpr]
  · rfl
  · intro b hb
    rw [decide_eq_true_eq]
    rintro rfl
    exact h hb

lemma positionNewline_eq_none {bs : Bytes} (h : newline ∉ bs) : positionNewline bs = none := by
  rw [positionNewline, List.findIdx?_eq_none_iff]
  intro b hb
  rw [decide_eq_false_iff_not]
  rintro rfl
  exact h hb

lemma lineStart_eq_zero (h : newline ∉ content) (up : ℕ) : lineStart content up = 0 := by
  have hnone : rpositionNewline (content.take up) = none := by
    have hrev : newline ∉ (content.take up).reverse := fun hmem =>
      h (List.mem_of_mem_take (List.mem_reverse.mp hmem))
    rw [rpositionNewline]
    exact congrArg (Option.map _) (positionNewline_eq_none hrev)
  rw [lineStart, hnone]
  rfl

/-- A content of one line is shown whole, once. -/
lemma LineQuery.fileHits_single_line {q : LineQuery} (hctx : q.context = none)
    (hline : newline ∉ content) (hoff : q.offsets content ≠ []) (path : String) :
    q.fileHits path content = [⟨path, 1, fromUtf8Lossy content⟩] := by
  have hat : ∀ off, q.hitAt path content off = ⟨path, 1, fromUtf8Lossy content⟩ := by
    intro off
    have hcount : countNewlines (content.take (min off content.length)) = 0 :=
      countNewlines_eq_zero fun hmem => hline (List.mem_of_mem_take hmem)
    have hstop : positionNewline (content.drop (min off content.length)) = none :=
      positionNewline_eq_none fun hmem => hline (List.mem_of_mem_drop hmem)
    rw [hitAt, hctx]
    dsimp only
    rw [lineNumber, hcount, lineText, lineStart_eq_zero hline, hstop, Option.map_none,
      Option.getD_none, List.take_length, List.drop_zero]
  have hseen : ∀ offs, q.hitLoop path content offs [1] = [] := by
    intro offs
    induction offs with
    | nil => rfl
    | cons off offs ih =>
        rw [hitLoop, hat]
        dsimp only
        rw [if_pos (List.mem_singleton.mpr rfl), ih]
  rw [fileHits]
  cases hoffs : q.offsets content with
  | nil => exact absurd hoffs hoff
  | cons off offs =>
      rw [hitLoop, hat]
      dsimp only
      rw [if_neg List.not_mem_nil, hseen]

end SingleLine

/-- The line hits of an overlay of new files. -/
lemma overlayLineHits_newFiles {n : ℕ} (hn : n < 2 ^ 32) (lite : LiteMeta) (content : Bytes)
    {q : LineQuery} (hlimit : q.limit = none) (hscope : q.scope = none) :
    overlayLineHits (({} : Overlay).applyRecords (newFiles n lite content)) q =
      (List.range n).flatMap fun i => q.fileHits (newPath i) content := by
  obtain ⟨hpaths, -⟩ := Overlay.paths_applyRecords_upserts lite (some content)
    (List.nodup_range.map newPath_injective : ((List.range n).map newPath).Nodup)
  have hpaths : (({} : Overlay).applyRecords (newFiles n lite content)).paths =
      (List.range n).map newPath := hpaths
  obtain ⟨hinv, hversion⟩ := @Overlay.version_applyUpserts ((List.range n).map newPath).toFinset
    (newFiles n lite content) (by
      intro r hr p hp
      obtain ⟨path, hpath, rfl⟩ := List.mem_map.mp hr
      obtain rfl : path = p := Option.some.inj hp
      exact List.mem_toFinset.mpr hpath) (by
      refine lt_of_le_of_lt (List.toFinset_card_le _) ?_
      rw [List.length_map, List.length_range]
      exact hn)
  generalize ({} : Overlay).applyRecords (newFiles n lite content) = o at *
  have hlen : o.len % 2 ^ 32 = n := by
    rw [Overlay.len, hpaths, List.length_map, List.length_range, Nat.mod_eq_of_lt hn]
  rw [overlayLineHits, overlayLineLoop_eq o hlimit, List.nil_append, hlen]
  refine List.flatMap_congr fun i hi => ?_
  have hi := List.mem_range.mp hi
  obtain ⟨d, hd, hlive, -, hcontent⟩ := hinv.version_eq_some.mp
    ((hversion (newPath i)).trans (hotVersion_newFiles hi lite content))
  have hslot : o.paths[i]? = some (newPath i) := by
    rw [hpaths, List.getElem?_map, List.getElem?_range hi]
    rfl
  obtain rfl := hinv.index_unique hd hslot
  rw [Overlay.slotLines, hslot]
  dsimp only
  rw [if_neg (by simp [hlive, hscope, inScope]), Overlay.content, hcontent]
  rfl

lemma sum_texts_lt_linesSize (hits : List LineHit) :
    (hits.map fun h => (utf8 h.text).length).sum < linesSize hits := by
  have hsum : (hits.map fun h => (utf8 h.text).length).sum ≤ (hits.map lineHitSize).sum := by
    refine List.sum_le_sum fun h _ => ?_
    unfold lineHitSize stringSize blobSize
    omega
  unfold linesSize vecSize
  omega

/-- A request for the lines with an `a`. -/
def linesWithA : SearchRequest where
  query := "a"
  opts := { case := .sensitive, lineNumbers := true }

/-- The lines with an `a` in new files whose contents are one line with it. -/
lemma handleSearch_linesWithA {n : ℕ} (hn : n < 2 ^ 32) (lite : LiteMeta) {content : Bytes}
    (hline : newline ∉ content) (ha : utf8 "a" <:+: content) (name : String)
    (index : FilenameDb) :
    handleSearch plainEnv [⟨name, index, [], ({} : Overlay).applyRecords (newFiles n lite content)⟩]
      linesWithA = .ok (.ok (lineFrames ((List.range n).map fun i =>
        ⟨newPath i, 1, fromUtf8Lossy content⟩))) := by
  obtain ⟨plan, hplan, hcase, hneedle, hre⟩ : ∃ plan, searchPlan plainEnv linesWithA = .ok plan ∧
      plan.caseSensitive = true ∧ plan.needle = "a" ∧ plan.reContent = none :=
    ⟨_, rfl, rfl, rfl, rfl⟩
  have hoff : (lineQuery linesWithA plan).offsets content ≠ [] := by
    unfold LineQuery.offsets lineQuery
    dsimp only
    rw [hre, hcase, hneedle]
    have hne : utf8 "a" ≠ [] := by decide
    exact (literalMatchOffsets_ne_nil hne).mpr ha
  have hhits : (List.range n).flatMap
      (fun i => (lineQuery linesWithA plan).fileHits (newPath i) content) =
      (List.range n).map fun i => ⟨newPath i, 1, fromUtf8Lossy content⟩ := by
    rw [List.map_eq_flatMap]
    exact List.flatMap_congr fun i _ => LineQuery.fileHits_single_line rfl hline hoff (newPath i)
  have hlines := overlayLineHits_newFiles hn lite content
    (q := lineQuery linesWithA plan) rfl rfl
  rw [handleSearch_overlay_lines hplan rfl rfl, hlines, hhits]

lemma length_trigrams_replicate (n : ℕ) (b : UInt8) :
    (trigrams (List.replicate n b)).length ≤ 1 := by
  have hsub : trigrams (List.replicate n b) ⊆ [trigramKey [b, b, b]] := by
    intro t ht
    obtain ⟨w, hw, rfl⟩ := mem_trigrams.mp ht
    obtain ⟨hlen, hinf⟩ := mem_windows.mp hw
    have hbytes : ∀ c ∈ w, c = b := fun c hc => List.eq_of_mem_replicate (hinf.subset hc)
    obtain rfl : w = List.replicate 3 b := List.eq_replicate_iff.mpr ⟨hlen, hbytes⟩
    exact List.mem_singleton.mpr rfl
  exact ((trigrams_nodup _).subperm hsub).length_le

/-- A file of few different bytes is indexed as text. -/
lemma classify_text {content : Bytes} {stat : FileStat} {maxFileSize : ℕ}
    (hstat : stat.len.toNat = content.length) (hlen : content.length ≤ maxFileSize)
    (h0 : 0 ∉ content) (htrigrams : (trigrams (fold content)).length ≤ 1) :
    classify (some ⟨⟨false, true, stat⟩, some content⟩) maxFileSize = .text content := by
  have hsmall : ¬maxFileSize < stat.len.toNat := by omega
  have hnul : ¬(content.take nulScanBytes).contains 0 = true := fun h =>
    h0 (List.mem_of_mem_take (List.contains_iff_mem.mp h))
  have hfew : ¬(3 ≤ content.length ∧ trigramMax < distinctTrigrams content) := fun h =>
    absurd (h.2.trans_le htrigrams) (by decide)
  unfold classify
  dsimp only
  rw [Bool.not_true, if_neg Bool.false_ne_true, if_neg hsmall, List.take_of_length_le hlen,
    if_neg hnul, if_neg hfew]

/-- Eight files of one line each, as long as a default build takes, make a frame that cannot be
sent: the client gets nothing. -/
theorem long_lines_not_sent :
    let content : Bytes := List.replicate defaultMaxFileSize 97
    (∀ stat : FileStat, stat.len.toNat = content.length →
      classify (some ⟨⟨false, true, stat⟩, some content⟩) defaultMaxFileSize = .text content) ∧
    ∃ src r hits, (DbBuilder.ofFiles [] 0).finish .stored = .ok src ∧ DbReader.open src = .ok r ∧
      handleSearch plainEnv [⟨"default", r.view .stored, [],
          ({} : Overlay).applyRecords (newFiles 8 ⟨false, 1048576, 0⟩ content)⟩] linesWithA =
        .ok (.ok [.lines hits, .done 8]) ∧
      ∀ W : WireCodec, W.Sizes → W.fits (.lines hits) = false ∧
        ∃ e, handleConn W plainEnv [⟨"default", r.view .stored, [],
            ({} : Overlay).applyRecords (newFiles 8 ⟨false, 1048576, 0⟩ content)⟩]
          (.search linesWithA) = .ok ⟨[], .error e⟩ := by
  intro content
  have hall : ∀ b ∈ content, b = 97 := fun b hb => List.eq_of_mem_replicate hb
  have hlen : content.length = defaultMaxFileSize := List.length_replicate ..
  have htrigrams : (trigrams (fold content)).length ≤ 1 := by
    have hfold : fold content = List.replicate defaultMaxFileSize (foldByte 97) :=
      List.map_replicate ..
    rw [hfold]
    exact length_trigrams_replicate _ _
  have ha : utf8 "a" <:+: content := by
    have hmem : (97 : UInt8) ∈ content := List.mem_replicate.mpr ⟨by decide, rfl⟩
    obtain ⟨s, t, hsplit⟩ := List.append_of_mem hmem
    exact ⟨s, t, by rw [hsplit, List.append_assoc]; rfl⟩
  clear_value content
  have hline : newline ∉ content := fun h => absurd (hall _ h) (by decide)
  refine ⟨fun stat hstat => classify_text hstat hlen.le (fun h0 => ?_) htrigrams, ?_⟩
  · exact absurd (hall 0 h0) (by decide)
  obtain ⟨src, r, hfinish, hopen, -⟩ := DbBuilder.empty_indexes
  have hreply := handleSearch_linesWithA (n := 8) (by norm_num) ⟨false, 1048576, 0⟩ hline ha
    "default" (r.view .stored)
  have hframes : lineFrames ((List.range 8).map fun i =>
      (⟨newPath i, 1, fromUtf8Lossy content⟩ : LineHit)) =
      [.lines ((List.range 8).map fun i => ⟨newPath i, 1, fromUtf8Lossy content⟩), .done 8] := rfl
  rw [hframes] at hreply
  have hfits : ∀ W : WireCodec, W.Sizes → W.fits (.lines ((List.range 8).map fun i =>
      ⟨newPath i, 1, fromUtf8Lossy content⟩)) = false := by
    intro W hW
    have hascii : ∀ b ∈ content, b < 0x80 := fun b hb => by
      rw [hall b hb]
      decide
    have htext : defaultMaxFileSize ≤ (utf8 (fromUtf8Lossy content)).length :=
      hlen ▸ le_length_fromUtf8Lossy hascii
    have htexts := sum_texts_lt_linesSize ((List.range 8).map fun i =>
      ⟨newPath i, 1, fromUtf8Lossy content⟩)
    have hsum : (((List.range 8).map fun i =>
        (⟨newPath i, 1, fromUtf8Lossy content⟩ : LineHit)).map fun h => (utf8 h.text).length).sum =
        8 * (utf8 (fromUtf8Lossy content)).length := by
      have htexts : ((List.range 8).map fun i =>
          (⟨newPath i, 1, fromUtf8Lossy content⟩ : LineHit)).map (fun h => (utf8 h.text).length) =
          List.replicate 8 (utf8 (fromUtf8Lossy content)).length := rfl
      rw [htexts, List.sum_replicate_nat]
    rw [hsum] at htexts
    have hmax : maxFrameLength = 8 * defaultMaxFileSize := rfl
    rw [← Bool.not_eq_true]
    intro hfits
    have hsize : linesSize _ ≤ maxFrameLength := (hW.fits_iff _).mp hfits
    omega
  refine ⟨src, r, _, hfinish, hopen, hreply, fun W hW => ⟨hfits W hW, ?_⟩⟩
  obtain ⟨e, he⟩ := sendFrame_of_not_fits (hfits W hW)
  refine ⟨e, ?_⟩
  rw [handleConn, hreply]
  dsimp only
  rw [sendFrames, he]
  rfl

end DeepFinder
