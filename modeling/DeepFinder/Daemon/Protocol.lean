import DeepFinder.Core.DbRoundTrip
import DeepFinder.Daemon.HeldDocs

/-!
# The response protocol

Every reply is a body of batch or lines frames and a `Done` that counts what they deliver, or one
`Error` or `IndexAck` frame (`Terminated`).  Searching never fails (`handleSearch_total`), so the
connection ends without a terminal frame only when the regex does not compile or when a frame cannot
be sent.  `Daemon/Terminal.lean` says for which requests that is.
-/

namespace DeepFinder

open ByteString

/-! ## The shape of a reply -/

/-- The frames sent are a complete reply, and the handling ended without an error.  The total that a
`Done` gives is that of the results in the frames before it. -/
def Terminated (log : ConnLog) : Prop :=
  log.result = .ok () ∧
    ((∃ body total, log.sent = body ++ [.done total] ∧
      (((∀ f ∈ body, ∃ paths lites kinds, f = .batch paths lites kinds) ∧
          total = (body.flatMap ResponseFrame.batchHits).length) ∨
        ((∀ f ∈ body, ∃ hits, f = .lines hits) ∧
          total = (body.flatMap ResponseFrame.lineHits).length))) ∨
    (∃ message, log.sent = [.error message]) ∨
    ∃ accepted message, log.sent = [.indexAck accepted message])

/-- Every frame can be sent, and the results can be counted in 32 bits. -/
def ReplyFits (W : WireCodec) (frames : List ResponseFrame) : Prop :=
  (∀ f ∈ frames, W.fits f = true) ∧ (frames.flatMap ResponseFrame.batchHits).length < 2 ^ 32 ∧
    (frames.flatMap ResponseFrame.lineHits).length < 2 ^ 32

/-! ## Searching never fails -/

lemma mergeEntries_total (env : ConnEnv) (ctx : QueryCtx) (cap : Option ℕ) (dbs : List Database)
    (i : ℕ) (merged : ResultMap) :
    ∃ map, mergeEntries env ctx cap i (dbs.map Database.entry) merged = .ok map := by
  induction dbs generalizing i merged with
  | nil => exact ⟨merged, rfl⟩
  | cons db dbs ih =>
      obtain ⟨finds, -, hquery⟩ := db.holds.queryEntry_eq ctx
      have hself : ctx.withLimits ctx.effLimit ctx.limit = ctx := rfl
      have hquery := (congrArg (queryEntry · db.entry cap) hself).symm.trans
        (hquery ctx.effLimit ctx.limit cap)
      rw [List.map_cons, mergeEntries, hquery]
      exact ih (i + 1) _

/-- Over databases that hold what they index, a search with a compiled regex ends in a reply. -/
theorem handleSearch_total {env : ConnEnv} {dbs : List Database} {req : SearchRequest}
    {plan : SearchPlan} (hplan : searchPlan env req = .ok plan) :
    ∃ frames, handleSearch env (dbs.map Database.entry) req = .ok (.ok frames) ∧
      ((∃ hits, frames = lineFrames hits) ∨ (∃ hits, frames = pathFrames hits) ∨
        ∃ message, frames = [.error message]) := by
  by_cases hsel : req.Selects dbs
  · by_cases hmode : (req.opts.lineNumbers || req.opts.context.isSome) = true
    · exact ⟨_, handleSearch_lines hplan hsel hmode, Or.inl ⟨_, rfl⟩⟩
    · obtain ⟨merged, hmerged⟩ := mergeEntries_total env (queryCtx req plan) (mergeCap req)
        (selectedDbs dbs req) 1 []
      rw [handleSearch_of_selects hplan hsel, if_neg hmode]
      exact ⟨_, by rw [searchPaths, hmerged]; rfl, Or.inr (Or.inl ⟨_, rfl⟩)⟩
  · obtain ⟨message, hmessage, -⟩ := handleSearch_of_not_selects hplan hsel
    exact ⟨_, hmessage, Or.inr (Or.inr ⟨message, rfl⟩)⟩

lemma handleSearch_of_bad_plan {env : ConnEnv} {entries : List DbEntry} {req : SearchRequest}
    (h : ¬ ∃ plan, searchPlan env req = .ok plan) :
    ∃ message, handleSearch env entries req = .ok (.error message) := by
  rw [handleSearch]
  cases hplan : searchPlan env req with
  | error e => exact ⟨e, rfl⟩
  | ok plan => exact absurd ⟨plan, hplan⟩ h

/-! ## Sending -/

section Sending

variable {W : WireCodec}

/-- The sends end without an error exactly when every frame can be sent, and then all were. -/
lemma sendFrames_result (frames : List ResponseFrame) :
    ((sendFrames W frames).result = .ok () ↔ ∀ f ∈ frames, W.fits f = true) ∧
      ((sendFrames W frames).result = .ok () → (sendFrames W frames).sent = frames) := by
  induction frames with
  | nil => exact ⟨by simp [sendFrames], fun _ => rfl⟩
  | cons f frames ih =>
      rw [sendFrames, List.forall_mem_cons, WireCodec.fits_eq_true]
      cases hf : sendFrame W f with
      | ok v =>
          have hsent : ∃ v', (Except.ok v : Except String Bytes) = .ok v' := ⟨v, rfl⟩
          exact ⟨ih.1.trans (and_iff_right hsent).symm, fun h => congrArg (f :: ·) (ih.2 h)⟩
      | error e =>
          refine ⟨iff_of_false (fun h => ?_) fun h => ?_, fun h => ?_⟩
          · cases h
          · obtain ⟨v, hv⟩ := h.1
            cases hv
          · cases h

end Sending

lemma pathFrames_terminated {hits : List Hit} (h : hits.length < 2 ^ 32) :
    Terminated ⟨pathFrames hits, .ok ()⟩ := by
  refine ⟨rfl, Or.inl ⟨_, _, rfl, Or.inl ⟨fun f hf => ?_, ?_⟩⟩⟩
  · obtain ⟨chunk, -, rfl⟩ := List.mem_map.mp hf
    exact ⟨_, _, _, rfl⟩
  · have hall := congrArg List.length (batchHits_pathFrames hits)
    rw [pathFrames, List.flatMap_append] at hall
    rw [Nat.mod_eq_of_lt h, ← hall]
    exact congrArg List.length (List.append_nil _)

lemma lineFrames_terminated {hits : List LineHit} (h : hits.length < 2 ^ 32) :
    Terminated ⟨lineFrames hits, .ok ()⟩ := by
  refine ⟨rfl, Or.inl ⟨_, _, rfl, Or.inr ⟨fun f hf => ?_, ?_⟩⟩⟩
  · obtain ⟨chunk, -, rfl⟩ := List.mem_map.mp hf
    exact ⟨_, rfl⟩
  · have hall := congrArg List.length (lineHits_lineFrames hits)
    rw [lineFrames, List.flatMap_append] at hall
    rw [Nat.mod_eq_of_lt h, ← hall]
    exact congrArg List.length (List.append_nil _)

/-- A total that counts what was delivered did not overflow. -/
lemma total_lt_of_terminated {frames : List ResponseFrame} {body : List ResponseFrame} {n : ℕ}
    (hframes : frames = body ++ [.done (n % 2 ^ 32)])
    (hbody : (body.flatMap ResponseFrame.batchHits).length +
      (body.flatMap ResponseFrame.lineHits).length = n)
    (h : Terminated ⟨frames, .ok ()⟩) : n < 2 ^ 32 := by
  have hmod : n % 2 ^ 32 < 2 ^ 32 := Nat.mod_lt _ (by decide)
  obtain ⟨-, ⟨body', total, hsent, hcount⟩ | ⟨message, hsent⟩ | ⟨accepted, message, hsent⟩⟩ := h
  · obtain ⟨rfl, hdone⟩ := List.append_inj' (hframes.symm.trans hsent) rfl
    obtain rfl : n % 2 ^ 32 = total := ResponseFrame.done.inj (List.cons.inj hdone).1
    rcases hcount with ⟨hall, htotal⟩ | ⟨hall, htotal⟩
    · have hnone : body.flatMap ResponseFrame.lineHits = [] := by
        refine List.flatMap_eq_nil_iff.mpr fun f hf => ?_
        obtain ⟨_, _, _, rfl⟩ := hall f hf
        rfl
      rw [hnone, List.length_nil, Nat.add_zero] at hbody
      omega
    · have hnone : body.flatMap ResponseFrame.batchHits = [] := by
        refine List.flatMap_eq_nil_iff.mpr fun f hf => ?_
        obtain ⟨_, rfl⟩ := hall f hf
        rfl
      rw [hnone, List.length_nil, Nat.zero_add] at hbody
      omega
  · have hlast := congrArg List.getLast? (hframes.symm.trans hsent)
    rw [List.getLast?_append] at hlast
    cases hlast
  · have hlast := congrArg List.getLast? (hframes.symm.trans hsent)
    rw [List.getLast?_append] at hlast
    cases hlast

/-- A reply of a search is complete when it is sent whole, exactly when it fits. -/
lemma terminated_sendFrames_iff {W : WireCodec} {frames : List ResponseFrame}
    (h : (∃ hits, frames = lineFrames hits) ∨ (∃ hits, frames = pathFrames hits) ∨
      ∃ message, frames = [.error message]) :
    Terminated (sendFrames W frames) ↔ ReplyFits W frames := by
  obtain ⟨hfits, hsent⟩ := sendFrames_result (W := W) frames
  -- a reply that is sent whole
  have hwhole : Terminated (sendFrames W frames) ↔
      (∀ f ∈ frames, W.fits f = true) ∧ Terminated ⟨frames, .ok ()⟩ := by
    have hlog : (sendFrames W frames).result = .ok () → sendFrames W frames = ⟨frames, .ok ()⟩ := by
      intro hres
      have hsent := hsent hres
      cases hsend : sendFrames W frames with
      | mk sent result =>
          rw [hsend] at hres hsent
          obtain rfl : result = .ok () := hres
          obtain rfl : sent = frames := hsent
          rfl
    constructor
    · intro hterm
      exact ⟨hfits.mp hterm.1, hlog hterm.1 ▸ hterm⟩
    · rintro ⟨hall, hterm⟩
      rw [hlog (hfits.mpr hall)]
      exact hterm
  rw [hwhole, ReplyFits]
  refine and_congr_right fun _ => ?_
  rcases h with ⟨hits, rfl⟩ | ⟨hits, rfl⟩ | ⟨message, rfl⟩
  · rw [batchHits_lineFrames, lineHits_lineFrames]
    constructor
    · intro hterm
      refine ⟨by decide, total_lt_of_terminated (n := hits.length) rfl ?_ hterm⟩
      have hline := congrArg List.length (lineHits_lineFrames hits)
      have hbatch := congrArg List.length (batchHits_lineFrames hits)
      rw [lineFrames, List.flatMap_append] at hline hbatch
      rw [List.length_append] at hline hbatch
      exact (congrArg₂ (· + ·) (Nat.eq_zero_of_add_eq_zero_right hbatch) hline).trans
        (Nat.zero_add _)
    · rintro ⟨-, hlen⟩
      exact lineFrames_terminated hlen
  · rw [batchHits_pathFrames, lineHits_pathFrames]
    constructor
    · intro hterm
      refine ⟨total_lt_of_terminated (n := hits.length) rfl ?_ hterm, by decide⟩
      have hbatch := congrArg List.length (batchHits_pathFrames hits)
      have hline := congrArg List.length (lineHits_pathFrames hits)
      rw [pathFrames, List.flatMap_append] at hline hbatch
      rw [List.length_append] at hline hbatch
      exact (congrArg₂ (· + ·) hbatch (Nat.eq_zero_of_add_eq_zero_right hline)).trans
        (Nat.add_zero _)
    · rintro ⟨hlen, -⟩
      exact pathFrames_terminated hlen
  · exact iff_of_true ⟨rfl, Or.inr (Or.inl ⟨message, rfl⟩)⟩
      ⟨Nat.two_pow_pos 32, Nat.two_pow_pos 32⟩

end DeepFinder
