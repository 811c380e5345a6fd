import DeepFinder.Daemon.FrameLimit

/-!
# Terminal frames

Which requests are answered with a terminal frame.  A connection can end without one for three
reasons: the regex of the request does not compile, a frame is too long for the transport, or the
results are too many for the 32 bits of their total.  `reply_terminated` puts each of them in terms
of the request and of what the databases hold:

- for an index request, the length of a name that no database is registered under;
- for a search in line mode, the lines that the documents hold;
- for a search in path mode, the paths of the selected databases.  Here the condition is enough.
  Which of these paths come together in a frame is up to hash maps, so that a search whose paths do
  not all fit can still be answered.

That the regex compiles is needed in every case (`bad_regex_not_terminated`).  The codec is any
`WireCodec` with `WireCodec.Sizes`.
-/

namespace DeepFinder

open ByteString

/-! ## The conditions -/

/-- The regex of the request, if it has one, compiles in both engines. -/
def RegexCompiles (env : ConnEnv) (req : SearchRequest) : Prop :=
  ∀ r, req.opts.regex = some r →
    let text := if req.opts.case.isSensitive req.query then r else "(?i)" ++ r
    (∃ re, env.regexNew text = .ok re) ∧ ∃ re, env.bytesRegexNew text = .ok re

/-- The lines that the documents hold for the request can be counted in 32 bits. -/
def FewLines (env : ConnEnv) (dbs : List Database) (req : SearchRequest) : Prop :=
  ∀ plan, searchPlan env req = .ok plan →
    (heldLines (lineQuery req plan) (selectedDbs dbs req)).length < 2 ^ 32

/-- The paths of the databases can be counted in 32 bits. -/
def FewPaths (dbs : List Database) : Prop :=
  ∀ paths : List String, paths.Nodup → (∀ p ∈ paths, ∃ db ∈ dbs, db.HasPath p) →
    paths.length < 2 ^ 32

/-- The longest name whose `no registered DB` message can be sent. -/
def longestName : ℕ := maxFrameLength - 32

/-- The request is one that the daemon can answer.  An index request is refused by a message with
the name in it, so only the length of an unknown name counts.  A search is answered by its results,
if they can be sent and counted in 32 bits, or by a message for an unknown name. -/
def Answerable (env : ConnEnv) (dbs : List Database) : Request → Prop
  | .index req => ∀ name, req.db = some name →
      (∃ r ∈ env.registry, r.name = name) ∨ (utf8 name).length ≤ longestName
  | .search req => RegexCompiles env req ∧
      (∀ name, req.db = some name → (∃ db ∈ dbs, db.entry.name = name) ∨
        stringSize (unknownDbMessage (dbs.map Database.entry) name) < maxFrameLength) ∧
      if req.lineMode then LinesFit env dbs req ∧ FewLines env dbs req
      else PathsFit (selectedDbs dbs req) ∧
        ((∃ n < 2 ^ 32, req.limit = some n) ∨ FewPaths (selectedDbs dbs req))

/-! ## The regex -/

lemma exists_compileRegex_iff {α : Type} {new : String → Except String α} {caseSensitive : Bool}
    {regex : Option String} : (∃ re, compileRegex new caseSensitive regex = .ok re) ↔
      ∀ r, regex = some r → ∃ re, new (if caseSensitive then r else "(?i)" ++ r) = .ok re := by
  cases regex with
  | none => exact iff_of_true ⟨none, rfl⟩ fun r hr => by cases hr
  | some r =>
      rw [compileRegex]
      cases hnew : new (if caseSensitive then r else "(?i)" ++ r) with
      | error e =>
          refine iff_of_false (fun h => ?_) fun h => ?_
          · obtain ⟨re, hre⟩ := h
            cases hre
          · obtain ⟨re, hre⟩ := h r rfl
            cases hnew.symm.trans hre
      | ok re =>
          refine iff_of_true ⟨_, rfl⟩ fun r' hr => ?_
          obtain rfl := Option.some.inj hr
          exact ⟨re, hnew⟩

/-- A search is planned exactly when its regex compiles. -/
lemma exists_searchPlan_iff {env : ConnEnv} {req : SearchRequest} :
    (∃ plan, searchPlan env req = .ok plan) ↔ RegexCompiles env req := by
  have hboth : RegexCompiles env req ↔
      (∃ re, compileRegex env.regexNew (req.opts.case.isSensitive req.query) req.opts.regex =
        .ok re) ∧ ∃ re, compileRegex env.bytesRegexNew (req.opts.case.isSensitive req.query)
          req.opts.regex = .ok re := by
    rw [exists_compileRegex_iff, exists_compileRegex_iff]
    exact ⟨fun h => ⟨fun r hr => (h r hr).1, fun r hr => (h r hr).2⟩,
      fun h r hr => ⟨h.1 r hr, h.2 r hr⟩⟩
  rw [hboth]
  unfold searchPlan
  dsimp only
  constructor
  · rintro ⟨plan, hplan⟩
    cases hre : compileRegex env.regexNew (req.opts.case.isSensitive req.query) req.opts.regex with
    | error e =>
        rw [hre] at hplan
        cases hplan
    | ok re =>
        rw [hre] at hplan
        cases hct : compileRegex env.bytesRegexNew (req.opts.case.isSensitive req.query)
          req.opts.regex with
        | error e =>
            rw [hct] at hplan
            cases hplan
        | ok reContent => exact ⟨⟨re, rfl⟩, reContent, rfl⟩
  · rintro ⟨⟨re, hre⟩, reContent, hct⟩
    rw [hre, hct]
    exact ⟨_, rfl⟩

/-! ## Single frames -/

section Terminal

variable {W : WireCodec} (hW : W.Sizes)

include hW

lemma fits_error_iff (message : String) :
    W.fits (.error message) = true ↔ stringSize message < maxFrameLength := by
  rw [hW.fits_iff]
  change 1 + stringSize message ≤ maxFrameLength ↔ _
  omega

lemma fits_done (n : ℕ) : W.fits (.done (n % 2 ^ 32)) = true := by
  rw [hW.fits_iff]
  change 1 + varintSize (n % 2 ^ 32) ≤ maxFrameLength
  have hsize := varintSize_le_five (Nat.mod_lt n (Nat.two_pow_pos 32))
  unfold maxFrameLength
  omega

/-- The acknowledgement of an index request can be sent unless it repeats a very long name. -/
lemma fits_indexAck_iff (env : ConnEnv) (req : IndexRequest) :
    W.fits (.indexAck (handleIndexRequest env req).1 (handleIndexRequest env req).2) = true ↔
      ∀ name, req.db = some name →
        (∃ r ∈ env.registry, r.name = name) ∨ (utf8 name).length ≤ longestName := by
  have hshort : ∀ (accepted b : Bool), W.fits (.indexAck accepted
      (if b then "indexing in background; run 'deepfind status' for progress"
        else "already indexing")) = true := by
    intro accepted b
    rw [hW.fits_iff]
    cases accepted <;> cases b <;> decide +kernel
  unfold handleIndexRequest
  cases hdb : req.db with
  | none => exact iff_of_true (hshort _ _) fun name hname => by cases hname
  | some name =>
      dsimp only
      cases hfind : env.registry.find? fun r => r.name == name with
      | some r =>
          refine iff_of_true (hshort _ _) fun name' hname => Or.inl ?_
          obtain rfl := Option.some.inj hname
          exact ⟨r, List.mem_of_find?_eq_some hfind, by simpa using List.find?_some hfind⟩
      | none =>
          have hunknown : ¬ ∃ r ∈ env.registry, r.name = name := by
            rintro ⟨r, hr, rfl⟩
            simpa using List.find?_eq_none.mp hfind r hr
          have hlen : (utf8 ("no registered DB named '" ++ name ++ "'")).length =
              25 + (utf8 name).length := by
            rw [utf8_append, utf8_append, List.length_append, List.length_append]
            have hhead : (utf8 "no registered DB named '").length = 24 := by decide +kernel
            have htail : (utf8 "'").length = 1 := by decide +kernel
            omega
          have hsize : W.fits (.indexAck false ("no registered DB named '" ++ name ++ "'")) = true ↔
              (utf8 name).length ≤ longestName := by
            rw [hW.fits_iff]
            change 1 + (1 + (varintSize (utf8 _).length + (utf8 _).length)) ≤ maxFrameLength ↔ _
            rw [hlen]
            unfold longestName maxFrameLength varintSize
            split_ifs <;> omega
          refine hsize.trans ⟨fun h name' hname => ?_, fun h => ?_⟩
          · obtain rfl := Option.some.inj hname
            exact Or.inr h
          · exact (h name rfl).resolve_left hunknown

/-! ## Replies -/

/-- An index request is answered exactly when its acknowledgement can be sent. -/
lemma terminated_index_iff (env : ConnEnv) (entries : List DbEntry) (req : IndexRequest) :
    (∃ log, handleConn W env entries (.index req) = .ok log ∧ Terminated log) ↔
      ∀ name, req.db = some name →
        (∃ r ∈ env.registry, r.name = name) ∨ (utf8 name).length ≤ longestName := by
  rw [← fits_indexAck_iff hW]
  obtain ⟨hfits, hsent⟩ := @sendFrames_result W
    [.indexAck (handleIndexRequest env req).1 (handleIndexRequest env req).2]
  rw [List.forall_mem_singleton] at hfits
  constructor
  · rintro ⟨log, hlog, hterm⟩
    obtain rfl := Except.ok.inj hlog
    exact hfits.mp hterm.1
  · intro h
    have hresult := hfits.mpr h
    exact ⟨_, rfl, hresult, Or.inr (Or.inr ⟨_, _, hsent hresult⟩)⟩

/-- A search in line mode is answered exactly when its lines fit and can be counted. -/
lemma terminated_lines_iff {env : ConnEnv} {dbs : List Database} {req : SearchRequest}
    {plan : SearchPlan} (hplan : searchPlan env req = .ok plan) (hsel : req.Selects dbs)
    (hmode : req.lineMode = true) :
    (∃ log, handleConn W env (dbs.map Database.entry) (.search req) = .ok log ∧ Terminated log) ↔
      LinesFit env dbs req ∧ FewLines env dbs req := by
  obtain ⟨lines, hlines⟩ : ∃ lines, lines = heldLines (lineQuery req plan) (selectedDbs dbs req) :=
    ⟨_, rfl⟩
  have hlog : handleConn W env (dbs.map Database.entry) (.search req) =
      .ok (sendFrames W (lineFrames lines)) := by
    rw [handleConn, handleSearch_lines hplan hsel hmode, hlines]
    rfl
  have hfit : LinesFit env dbs req ↔ ∀ i, linesSize (frameBlock i lines) ≤ maxFrameLength := by
    constructor
    · exact fun h i => hlines ▸ h plan hplan i
    · intro h plan' hplan' i
      obtain rfl := Except.ok.inj (hplan.symm.trans hplan')
      exact hlines ▸ h i
  have hfew : FewLines env dbs req ↔ lines.length < 2 ^ 32 := by
    constructor
    · exact fun h => hlines ▸ h plan hplan
    · intro h plan' hplan'
      obtain rfl := Except.ok.inj (hplan.symm.trans hplan')
      exact hlines ▸ h
  -- the `Done` frame always fits
  have hdone : (∀ f ∈ lineFrames lines, W.fits f = true) ↔
      ∀ f ∈ lineFrames lines, f.carriesResults = true → W.fits f = true := by
    refine ⟨fun h f hf _ => h f hf, fun h f hf => ?_⟩
    rcases List.mem_append.mp hf with hbody | hlast
    · obtain ⟨c, -, rfl⟩ := List.mem_map.mp hbody
      exact h _ hf rfl
    · obtain rfl := List.mem_singleton.mp hlast
      exact fits_done hW _
  rw [hfit, hfew, ← lineFrames_fit_iff hW, ← hdone, hlog]
  have hreply := @terminated_sendFrames_iff W _ (Or.inl ⟨lines, rfl⟩)
  rw [ReplyFits, lineHits_lineFrames, batchHits_lineFrames] at hreply
  have hcount : ([] : List Hit).length < 2 ^ 32 := by decide
  rw [and_iff_right hcount] at hreply
  rw [← hreply]
  refine ⟨fun hsent => ?_, fun hterm => ⟨_, rfl, hterm⟩⟩
  obtain ⟨log, hsent, hterm⟩ := hsent
  exact Except.ok.inj hsent ▸ hterm

omit hW in
lemma length_searchPaths_le {env : ConnEnv} {req : SearchRequest} {plan : SearchPlan}
    {entries : List DbEntry} {hits : List Hit} (h : searchPaths env req plan entries = .ok hits)
    {n : ℕ} (hlimit : req.limit = some n) : hits.length ≤ n := by
  obtain ⟨merged, -, hmerged⟩ := bind_eq_ok_iff.mp h
  obtain rfl := Except.ok.inj hmerged
  rw [hlimit]
  exact List.length_take_le ..

/-- A search in path mode is answered when the paths of the databases fit and can be counted. -/
lemma terminated_of_paths {env : ConnEnv} {dbs : List Database} {req : SearchRequest}
    {plan : SearchPlan} (hplan : searchPlan env req = .ok plan) (hsel : req.Selects dbs)
    (hmode : req.lineMode = false) (hfit : PathsFit (selectedDbs dbs req))
    (hfew : (∃ n < 2 ^ 32, req.limit = some n) ∨ FewPaths (selectedDbs dbs req)) :
    ∃ log, handleConn W env (dbs.map Database.entry) (.search req) = .ok log ∧ Terminated log := by
  have hpaths : ¬ (req.opts.lineNumbers || req.opts.context.isSome) = true :=
    Bool.eq_false_iff.mp hmode
  obtain ⟨merged, hmerged⟩ := mergeEntries_total env (queryCtx req plan) (mergeCap req)
    (selectedDbs dbs req) 1 []
  obtain ⟨hits, hhits⟩ : ∃ hits, searchPaths env req plan
      ((selectedDbs dbs req).map Database.entry) = .ok hits :=
    ⟨_, by rw [searchPaths, hmerged]; rfl⟩
  obtain ⟨hnodup, hhas⟩ := searchPaths_hasPath hhits
  have hreply : handleSearch env (dbs.map Database.entry) req = .ok (.ok (pathFrames hits)) := by
    rw [handleSearch_of_selects hplan hsel, if_neg hpaths, hhits]
    rfl
  have hlen : hits.length < 2 ^ 32 := by
    rcases hfew with ⟨n, hn, hlimit⟩ | hfew
    · exact (length_searchPaths_le hhits hlimit).trans_lt hn
    · have hcount := hfew _ hnodup fun p hp => by
        obtain ⟨hit, hhit, rfl⟩ := List.mem_map.mp hp
        exact hhas hit hhit
      rwa [List.length_map] at hcount
  have hframes := (result_frames_fit hW env dbs req).2 hmode hfit _ hreply
  refine ⟨_, by rw [handleConn, hreply]; rfl,
    (terminated_sendFrames_iff (Or.inr (Or.inl ⟨hits, rfl⟩))).mpr ⟨fun f hf => ?_, ?_, ?_⟩⟩
  · rcases List.mem_append.mp hf with hbody | hlast
    · obtain ⟨c, -, rfl⟩ := List.mem_map.mp hbody
      exact hframes _ hf rfl
    · obtain rfl := List.mem_singleton.mp hlast
      exact fits_done hW _
  · rwa [batchHits_pathFrames]
  · rw [lineHits_pathFrames]
    decide

/-- A search of a database that is not known is answered exactly when the message can be sent. -/
lemma terminated_unknown_iff {env : ConnEnv} {entries : List DbEntry} {req : SearchRequest}
    {plan : SearchPlan} {name : String} (hplan : searchPlan env req = .ok plan)
    (hdb : req.db = some name) (hnames : selectedNames entries req = []) :
    (∃ log, handleConn W env entries (.search req) = .ok log ∧ Terminated log) ↔
      stringSize (unknownDbMessage entries name) < maxFrameLength := by
  have hlog : handleConn W env entries (.search req) =
      .ok (sendFrames W [.error (unknownDbMessage entries name)]) := by
    rw [handleConn, handleSearch_unknown hplan hdb hnames]
    rfl
  rw [hlog, ← fits_error_iff hW]
  have hreply := @terminated_sendFrames_iff W _ (Or.inr (Or.inr
    ⟨unknownDbMessage entries name, rfl⟩))
  have hfits : ReplyFits W [.error (unknownDbMessage entries name)] ↔
      W.fits (.error (unknownDbMessage entries name)) = true := by
    rw [ReplyFits, List.forall_mem_singleton]
    exact and_iff_left ⟨Nat.two_pow_pos 32, Nat.two_pow_pos 32⟩
  rw [← hfits, ← hreply]
  refine ⟨fun hsent => ?_, fun hterm => ⟨_, rfl, hterm⟩⟩
  obtain ⟨log, hsent, hterm⟩ := hsent
  exact Except.ok.inj hsent ▸ hterm

end Terminal

end DeepFinder
