import DeepFinder.Cli.Fallback
import DeepFinder.Daemon.Protocol
import DeepFinder.Daemon.Reproducible
import DeepFinder.Ipc.LengthDelimited
import DeepFinder.Ipc.Transport

/-!
# A session

The client sends its request and reads frames until one of them ends the reply; the daemon takes
the first message for the request and sends its frames.  Both read a stream that arrives in pieces
of any length.

`search_session` follows a search from the options of the client to the results it prints: the
daemon handles the request that was meant, and the client has the daemon's results, in their order.
`cut_reply_fails` says that the client never takes a part of a reply for all of it.

## What is assumed

The messages are encoded and delimited by any `WireCodec` whose decoding inverts its encoding
(`WireCodec.RoundTrips`), and taken off the stream by any decoder that reads back what the codec
writes (`Decoder.Reads`).  This is what bincode and tokio-util's codec are documented to do, and
`standardWire` and `lengthDelimited` are a codec and a decoder that do.

A reply can only arrive when each of its frames can be sent; `Daemon/FrameLimit.lean` and
`Daemon/Terminal.lean` say when that is.
-/

namespace DeepFinder

open ByteString

/-! ## The two sides -/

section Sides

variable (W : WireCodec)

def requestBytes (r : WireRequest) : Except String Bytes := do
  let bytes ← encodeRequest W r
  W.delimit bytes

def replyBytes (frames : List ResponseFrame) : Except String Bytes :=
  (frames.mapM (sendFrame W)).map List.flatten

variable {σ : Type} (D : Framed.Decoder σ UInt8 Bytes String) (s₀ : σ)

/-- `handle_conn`; what follows the first message is not read. -/
def serveConn (env : ConnEnv) (entries : List DbEntry) (pieces : List Bytes) (ending : StreamEnd) :
    Res ConnLog :=
  match (received D s₀ pieces ending).1 with
  | [] => pure ⟨[], .ok ()⟩
  | message :: _ =>
      match decodeRequest W message with
      | .ok r => handleConn W env entries r.request
      | .error e => pure ⟨[], .error e⟩

def frameItem (message : Bytes) : StreamItem :=
  match decodeFrame W message with
  | .ok f => .frame f
  | .error e => .undecodable e

/-- The exchange of a client that sends this request and reads this stream. -/
def Exchange.streamed (r : WireRequest) (pieces : List Bytes) (ending : StreamEnd) : Exchange where
  connect := .ok ()
  encoded := (encodeRequest W r).map fun _ => ()
  sent := ((requestBytes W r).map fun _ => ()).mapError .tooLong
  items := (received D s₀ pieces ending).1.map (frameItem W) ++
    (received D s₀ pieces ending).2.toList.map StreamItem.readError

end Sides

/-- The first frame that `daemon_index_submit` reads. -/
def receiveAck : List StreamItem → Except String (Bool × String)
  | [] => .error "daemon closed without ack"
  | .readError e :: _ => .error e
  | .undecodable e :: _ => .error e
  | .frame (.indexAck accepted message) :: _ => .ok (accepted, message)
  | .frame (.error message) :: _ => .error message
  | .frame _ :: _ => .error "unexpected response frame"

/-- `daemon_index_submit`. -/
def daemonIndexSubmit (x : Exchange) : Except String (Bool × String) := do
  x.connect
  x.encoded
  match x.sent with
  | .error (.tooLong e) => .error e
  | .error (.io e) => .error e
  | .ok _ => receiveAck x.items

/-! ## Messages that arrive -/

section Sessions

variable {W : WireCodec} {σ : Type} {D : Framed.Decoder σ UInt8 Bytes String} {s₀ : σ}
  {pieces : List Bytes} {ending : StreamEnd}

lemma requestBytes_eq_ok {r : WireRequest} {sent : Bytes} :
    requestBytes W r = .ok sent ↔
      ∃ bytes, W.requestToVec r = .ok bytes ∧ W.delimit bytes = .ok sent := by
  unfold requestBytes
  constructor
  · intro h
    cases henc : encodeRequest W r with
    | error e =>
        rw [henc] at h
        cases h
    | ok bytes =>
        rw [henc] at h
        exact ⟨bytes, encodeRequest_eq_ok.mp henc, h⟩
  · rintro ⟨bytes, henc, hdelimit⟩
    rw [encodeRequest_eq_ok.mpr henc]
    exact hdelimit

lemma delimited_eq {data v : Bytes} (h : W.delimit data = .ok v) : W.delimited data = some v := by
  rw [WireCodec.delimited, h]
  rfl

lemma replyBytes_of_fits {frames : List ResponseFrame} (h : ∀ f ∈ frames, W.fits f = true) :
    ∃ bytes, replyBytes W frames = .ok bytes := by
  have hall : ∃ vs, frames.mapM (sendFrame W) = .ok vs := by
    induction frames with
    | nil => exact ⟨[], rfl⟩
    | cons f frames ih =>
        obtain ⟨v, hv⟩ := WireCodec.fits_eq_true.mp (h f (List.mem_cons_self ..))
        obtain ⟨vs, hvs⟩ := ih fun g hg => h g (List.mem_cons_of_mem _ hg)
        exact ⟨v :: vs, by rw [List.mapM_cons, hv, hvs]; rfl⟩
  obtain ⟨vs, hvs⟩ := hall
  exact ⟨vs.flatten, by rw [replyBytes, hvs]; rfl⟩

/-- A reply on the stream is a sequence of messages, each of which decodes to its frame. -/
lemma messages_of_reply (hW : W.RoundTrips) {frames : List ResponseFrame} {reply : Bytes}
    (h : replyBytes W frames = .ok reply) (htyped : ∀ f ∈ frames, f.Typed) :
    ∃ msgs vs, List.Forall₂ (fun m v => W.delimited m = some v) msgs vs ∧
      vs.flatten = reply ∧ msgs.map (frameItem W) = frames.map StreamItem.frame := by
  obtain ⟨vs, hvs, rfl⟩ : ∃ vs, frames.mapM (sendFrame W) = .ok vs ∧ vs.flatten = reply := by
    unfold replyBytes at h
    cases hvs : frames.mapM (sendFrame W) with
    | error e =>
        rw [hvs] at h
        cases h
    | ok vs =>
        rw [hvs] at h
        exact ⟨vs, rfl, Except.ok.inj h⟩
  clear h
  induction frames generalizing vs with
  | nil =>
      obtain rfl : [] = vs := Except.ok.inj hvs
      exact ⟨[], [], .nil, rfl, rfl⟩
  | cons f frames ih =>
      rw [List.mapM_cons] at hvs
      cases hv : sendFrame W f with
      | error e =>
          rw [hv] at hvs
          cases hvs
      | ok v =>
          rw [hv] at hvs
          cases hws : frames.mapM (sendFrame W) with
          | error e =>
              rw [hws] at hvs
              cases hvs
          | ok ws =>
              rw [hws] at hvs
              obtain rfl : v :: ws = vs := Except.ok.inj hvs
              obtain ⟨m, henc, hm⟩ := sendFrame_eq_ok.mp hv
              obtain ⟨msgs, vs, hall, hflat, hitems⟩ :=
                ih (fun g hg => htyped g (List.mem_cons_of_mem _ hg)) ws hws
              have hdec : decodeFrame W m = .ok f := by
                rw [decodeFrame, hW.frame (htyped f (List.mem_cons_self ..)) henc]
                rfl
              refine ⟨m :: msgs, v :: vs, .cons (delimited_eq hm) hall, ?_, ?_⟩
              · rw [List.flatten_cons, List.flatten_cons, hflat]
              · rw [List.map_cons, List.map_cons, hitems, frameItem, hdec]

/-- The daemon handles the request that was sent. -/
lemma serveConn_eq (hW : W.RoundTrips) (hreads : D.Reads s₀ W.delimited) {env : ConnEnv}
    {entries : List DbEntry} {r : WireRequest} {sent : Bytes} (h : requestBytes W r = .ok sent)
    (hpieces : pieces.flatten = sent) :
    serveConn W D s₀ env entries pieces ending = handleConn W env entries r.request := by
  obtain ⟨m, henc, hm⟩ := requestBytes_eq_ok.mp h
  have hflat : pieces.flatten = [sent].flatten := by simpa using hpieces
  have hmsgs := received_flatten ending hreads (.cons (delimited_eq hm) .nil) hflat
  have hdec : decodeRequest W m = .ok r := by
    rw [decodeRequest, hW.request henc]
    rfl
  rw [serveConn, hmsgs]
  simp [hdec]

lemma items_of_reply (ending : StreamEnd) (hW : W.RoundTrips) (hreads : D.Reads s₀ W.delimited)
    {frames : List ResponseFrame} {reply : Bytes} (h : replyBytes W frames = .ok reply)
    (htyped : ∀ f ∈ frames, f.Typed) (hpieces : pieces.flatten = reply) :
    (received D s₀ pieces ending).1.map (frameItem W) = frames.map StreamItem.frame := by
  obtain ⟨msgs, vs, hall, hflat, hitems⟩ := messages_of_reply hW h htyped
  rw [received_flatten ending hreads hall (hpieces.trans hflat.symm), hitems]

/-- The client reads some of the frames of a reply that is cut off. -/
lemma items_of_cut (ending : StreamEnd) (hW : W.RoundTrips) (hreads : D.Reads s₀ W.delimited)
    {frames : List ResponseFrame} {reply : Bytes} (h : replyBytes W frames = .ok reply)
    (htyped : ∀ f ∈ frames, f.Typed) (hpieces : pieces.flatten <+: reply)
    (hne : pieces.flatten ≠ reply) :
    ∃ j, j < frames.length ∧
      (received D s₀ pieces ending).1.map (frameItem W) = (frames.take j).map StreamItem.frame := by
  obtain ⟨msgs, vs, hall, rfl, hitems⟩ := messages_of_reply hW h htyped
  obtain ⟨j, hj, htake⟩ := received_cut ending hreads hall hpieces hne
  have hlength : msgs.length = frames.length := by simpa using congrArg List.length hitems
  refine ⟨j, hlength ▸ hj, ?_⟩
  rw [htake, List.map_take, hitems, List.map_take]

/-! ## Whole replies -/

def ResponseFrame.Delivers (f : ResponseFrame) : Prop :=
  (∃ chunk, f = batchFrame chunk) ∨ ∃ hits, f = .lines hits

/-- The client gathers what the frames before the last one deliver. -/
lemma receive_append {body : List ResponseFrame} (hbody : ∀ f ∈ body, f.Delivers)
    (items : List StreamItem) (out : List Hit) (lines : List LineHit) :
    receive (body.map StreamItem.frame ++ items) out lines =
      receive items (out ++ body.flatMap ResponseFrame.batchHits)
        (lines ++ body.flatMap ResponseFrame.lineHits) := by
  induction body generalizing out lines with
  | nil => simp
  | cons f body ih =>
      have htail := ih fun g hg => hbody g (List.mem_cons_of_mem _ hg)
      rcases hbody f (List.mem_cons_self ..) with ⟨chunk, rfl⟩ | ⟨hits, rfl⟩
      · have hchunk : batchHits (chunk.map fun h => h.1) (chunk.map fun h => h.2.1)
            (chunk.map fun h => h.2.2) = (batchFrame chunk).batchHits := by
          rw [batchFrame, ResponseFrame.batchHits]
          clear htail hbody ih
          induction chunk with
          | nil => rfl
          | cons h chunk ih => simpa [batchHits] using ih
        rw [List.map_cons, List.cons_append, batchFrame, receive, htail, hchunk]
        simp [batchFrame, ResponseFrame.lineHits]
      · rw [List.map_cons, List.cons_append, receive, htail]
        simp [ResponseFrame.batchHits, ResponseFrame.lineHits]

/-- What a search finds: its entries in path mode, its lines in line mode. -/
def searchAnswer (env : ConnEnv) (req : SearchRequest) (plan : SearchPlan)
    (entries : List DbEntry) : Res (List Hit × List LineHit) :=
  if req.opts.lineNumbers || req.opts.context.isSome then do
    let hits ← searchLines (lineQuery req plan) entries []
    pure ([], hits)
  else do
    let hits ← searchPaths env req plan entries
    pure (hits, [])

/-- The frames of a search deliver what it finds. -/
lemma handleSearch_answer {env : ConnEnv} {dbs : List Database} {req : SearchRequest}
    {plan : SearchPlan} (hplan : searchPlan env req = .ok plan) (hsel : req.Selects dbs) :
    ∃ out lines body n,
      searchAnswer env req plan ((selectedDbs dbs req).map Database.entry) = .ok (out, lines) ∧
      handleSearch env (dbs.map Database.entry) req = .ok (.ok (body ++ [.done n])) ∧
      n < 2 ^ 32 ∧ (∀ f ∈ body, f.Delivers) ∧ body.flatMap ResponseFrame.batchHits = out ∧
      body.flatMap ResponseFrame.lineHits = lines := by
  have hdone : ∀ {α : Type} (deliver : ResponseFrame → List α) (body : List ResponseFrame) (n : ℕ),
      deliver (.done n) = [] → (body ++ [ResponseFrame.done n]).flatMap deliver =
        body.flatMap deliver := by
    intro α deliver body n h
    simp [h]
  obtain ⟨frames, hframes, -⟩ := handleSearch_total hplan
  rw [handleSearch_of_selects hplan hsel] at hframes ⊢
  unfold searchAnswer
  split
  · rename_i hmode
    have hhits := searchLines_eq (lineQuery req plan) (selectedDbs dbs req) []
    generalize _ ++ heldLines (lineQuery req plan) (selectedDbs dbs req) = hits at hhits
    refine ⟨[], hits, (Chunks.chunks streamChunk hits).map .lines, hits.length % 2 ^ 32,
      by rw [hhits]; rfl, by rw [hhits]; rfl, Nat.mod_lt _ (by decide), fun f hf => ?_, ?_, ?_⟩
    · obtain ⟨chunk, -, rfl⟩ := List.mem_map.mp hf
      exact Or.inr ⟨chunk, rfl⟩
    · exact (hdone _ _ _ rfl).symm.trans (batchHits_lineFrames hits)
    · exact (hdone _ _ _ rfl).symm.trans (lineHits_lineFrames hits)
  · rename_i hmode
    rw [if_neg hmode] at hframes
    obtain ⟨hits, hhits, -⟩ := bind_eq_ok_iff.mp hframes
    refine ⟨hits, [], (Chunks.chunks streamChunk hits).map batchFrame, hits.length % 2 ^ 32,
      by rw [hhits]; rfl, by rw [hhits]; rfl, Nat.mod_lt _ (by decide), fun f hf => ?_, ?_, ?_⟩
    · obtain ⟨chunk, -, rfl⟩ := List.mem_map.mp hf
      exact Or.inl ⟨chunk, rfl⟩
    · exact (hdone _ _ _ rfl).symm.trans (batchHits_pathFrames hits)
    · exact (hdone _ _ _ rfl).symm.trans (lineHits_pathFrames hits)

lemma daemonSearch_streamed {r : WireRequest} {sent : Bytes} (h : requestBytes W r = .ok sent) :
    daemonSearch (.streamed W D s₀ r pieces ending) =
      receive ((received D s₀ pieces ending).1.map (frameItem W) ++
        (received D s₀ pieces ending).2.toList.map StreamItem.readError) [] [] := by
  obtain ⟨m, henc, -⟩ := requestBytes_eq_ok.mp h
  have henc := encodeRequest_eq_ok.mpr henc
  simp [daemonSearch, Exchange.streamed, h, henc, bind, Except.bind, Except.map, Except.mapError]

/-- A search whose reply can be sent ends with the client holding what the daemon found, in path
mode and in line mode, whatever the pieces in which the request and the reply arrive.  The plan and
the selection say that the request is one that the daemon answers with results; that each of its
frames fits the transport is asked of the reply, since one frame that does not fit ends it. -/
theorem search_session (hW : W.RoundTrips) (hreads : D.Reads s₀ W.delimited) {env : ConnEnv}
    {dbs : List Database} {req : SearchRequest} {plan : SearchPlan}
    (hplan : searchPlan env req = .ok plan) (hsel : req.Selects dbs)
    (hfits : ∀ frames, handleSearch env (dbs.map Database.entry) req = .ok (.ok frames) →
      ∀ f ∈ frames, W.fits f = true)
    {direct : Bool} {sent : Bytes} (hsent : requestBytes W (.search direct req) = .ok sent) :
    ∃ out lines,
      searchAnswer env req plan ((selectedDbs dbs req).map Database.entry) = .ok (out, lines) ∧
      ((∀ hit ∈ lines, hit.lineNo < 2 ^ 32) → ∀ pieces ending, pieces.flatten = sent →
        ∃ log reply, serveConn W D s₀ env (dbs.map Database.entry) pieces ending = .ok log ∧
          replyBytes W log.sent = .ok reply ∧
          ∀ pieces ending, pieces.flatten = reply →
            daemonSearch (.streamed W D s₀ (.search direct req) pieces ending) =
              .ok (out, lines)) := by
  obtain ⟨out, lines, body, n, hanswer, hframes, hn, hbody, hout, hlines⟩ :=
    @handleSearch_answer env dbs req plan hplan hsel
  refine ⟨out, lines, hanswer, fun hnumbers pieces ending hpieces => ?_⟩
  have hfits := hfits _ hframes
  -- what the daemon sends
  obtain ⟨hresult, hsend⟩ := @sendFrames_result W (body ++ [.done n])
  have hall := hsend (hresult.mpr hfits)
  have hserve : serveConn W D s₀ env (dbs.map Database.entry) pieces ending =
      .ok (sendFrames W (body ++ [.done n])) := by
    rw [serveConn_eq hW hreads hsent hpieces, WireRequest.request, handleConn, hframes]
    rfl
  obtain ⟨reply, hreply⟩ := replyBytes_of_fits hfits
  refine ⟨_, reply, hserve, by rw [hall, hreply], fun pieces ending hpieces => ?_⟩
  -- what the client reads
  have htyped : ∀ f ∈ body ++ [.done n], f.Typed := by
    intro f hf
    rcases List.mem_append.mp hf with hf | hf
    · rcases hbody f hf with ⟨chunk, rfl⟩ | ⟨hits, rfl⟩
      · trivial
      · refine fun hit hhit => hnumbers hit ?_
        rw [← hlines]
        exact List.mem_flatMap.mpr ⟨_, hf, hhit⟩
    · obtain rfl := List.mem_singleton.mp hf
      exact hn
  rw [daemonSearch_streamed hsent, items_of_reply ending hW hreads hreply htyped hpieces,
    List.map_append, List.append_assoc, receive_append hbody, hout, hlines]
  rfl

/-- A search that finds one file name, with the request and the reply in two pieces each. -/
theorem search_session_one_name :
    ∃ src r, (DbBuilder.ofFiles [("/d/x", ⟨false, 1, 0⟩)] 0).finish .stored = .ok src ∧
      DbReader.open src = .ok r ∧
      ∃ log reply, serveConn standardWire lengthDelimited none plainEnv
          [⟨"default", r.view .stored, [], {}⟩]
          [[0, 0], [0, 22, 0, 1, 120, 0, 0, 0, 0, 0, 0, 0, 0, 0, 0, 0, 0, 1, 0, 1, 0, 0, 0, 0]]
          .closed = .ok log ∧
        replyBytes standardWire log.sent = .ok reply ∧
        daemonSearch (.streamed standardWire lengthDelimited none (.search false namesWithX)
          [reply.take 9, reply.drop 9] .closed) = .ok ([nameHit "/d/x"], []) := by
  obtain ⟨src, r, hfinish, hopen, hindex⟩ := @DbBuilder.stored_indexes
    [("/d/x", ⟨false, 1, 0⟩)] (by decide +kernel)
  refine ⟨src, r, hfinish, hopen, ?_⟩
  have hreply := handleSearch_oneName hindex
  have hsel := selects_of_none (rfl : namesWithX.db = none) [Database.ofDocs "default" hindex]
  have hfits : ∀ frames, handleSearch plainEnv [(Database.ofDocs "default" hindex).entry]
      namesWithX = .ok (.ok frames) → ∀ f ∈ frames, standardWire.fits f = true := by
    intro frames hframes
    obtain rfl := Except.ok.inj (Except.ok.inj (hreply.symm.trans hframes))
    decide +kernel
  obtain ⟨out, lines, hanswer, hsession⟩ := @search_session standardWire _ lengthDelimited none
    standardWire_roundTrips lengthDelimited_reads plainEnv [Database.ofDocs "default" hindex]
    namesWithX twoPathsPlan rfl hsel hfits false
    [0, 0, 0, 22, 0, 1, 120, 0, 0, 0, 0, 0, 0, 0, 0, 0, 0, 0, 0, 1, 0, 1, 0, 0, 0, 0]
    (by decide +kernel)
  -- the answer is what the frames deliver
  obtain ⟨rfl, rfl⟩ : [nameHit "/d/x"] = out ∧ [] = lines := by
    have hsearch := @handleSearch_of_selects plainEnv namesWithX twoPathsPlan _ rfl hsel
    rw [if_neg (by decide)] at hsearch
    rw [searchAnswer, if_neg (by decide)] at hanswer
    obtain ⟨hits, hhits, hpair⟩ := bind_eq_ok_iff.mp hanswer
    obtain ⟨rfl, rfl⟩ := Prod.mk.inj (Except.ok.inj hpair)
    rw [hhits] at hsearch
    have hframes := congrArg (List.flatMap ResponseFrame.batchHits)
      (Except.ok.inj (Except.ok.inj (hreply.symm.trans hsearch)))
    rw [batchHits_pathFrames] at hframes
    exact ⟨hframes, rfl⟩
  obtain ⟨log, reply, hserve, hsent, hclient⟩ := hsession (by simp)
    [[0, 0], [0, 22, 0, 1, 120, 0, 0, 0, 0, 0, 0, 0, 0, 0, 0, 0, 0, 1, 0, 1, 0, 0, 0, 0]] .closed rfl
  exact ⟨log, reply, hserve, hsent, hclient _ .closed (by simp)⟩

/-- The acknowledgement of an index request arrives as the daemon gave it, whether it accepts the
build or refuses it with a message.  Only a message too long for a frame could keep it back. -/
theorem index_session (hW : W.RoundTrips) (hreads : D.Reads s₀ W.delimited) {env : ConnEnv}
    {entries : List DbEntry} {req : IndexRequest}
    (hfits : W.fits (.indexAck (handleIndexRequest env req).1 (handleIndexRequest env req).2) = true)
    {sent : Bytes} (hsent : requestBytes W (.index req) = .ok sent)
    (hpieces : pieces.flatten = sent) :
    ∃ log reply, serveConn W D s₀ env entries pieces ending = .ok log ∧
      replyBytes W log.sent = .ok reply ∧
      ∀ pieces ending, pieces.flatten = reply →
        daemonIndexSubmit (.streamed W D s₀ (.index req) pieces ending) =
          .ok (handleIndexRequest env req) := by
  have hfits : ∀ f ∈ [ResponseFrame.indexAck (handleIndexRequest env req).1
      (handleIndexRequest env req).2], W.fits f = true := by
    intro f hf
    obtain rfl := List.mem_singleton.mp hf
    exact hfits
  have hall := (sendFrames_result _).2 ((sendFrames_result _).1.mpr hfits)
  obtain ⟨reply, hreply⟩ := replyBytes_of_fits hfits
  refine ⟨_, reply, serveConn_eq hW hreads hsent hpieces, hall.symm ▸ hreply,
    fun pieces ending hpieces => ?_⟩
  have hitems := items_of_reply ending hW hreads hreply
    (fun f hf => by obtain rfl := List.mem_singleton.mp hf; trivial) hpieces
  obtain ⟨m, henc, -⟩ := requestBytes_eq_ok.mp hsent
  have henc := encodeRequest_eq_ok.mpr henc
  simp [daemonIndexSubmit, Exchange.streamed, hsent, henc, hitems, bind, Except.bind, Except.map,
    Except.mapError, receiveAck]

/-- A request to index a directory, with every field but the name of a database. -/
theorem index_session_directory :
    let req : IndexRequest :=
      { root := some "/p", skip := ["target"], maxFileSize := 300, hidden := true }
    ∃ log reply, serveConn standardWire lengthDelimited none plainEnv []
        [[0, 0, 0, 19, 1, 1, 2, 47, 112], [1, 6, 116, 97, 114, 103, 101, 116, 251, 44, 1, 0, 1, 0]]
        .closed = .ok log ∧
      replyBytes standardWire log.sent = .ok reply ∧
      ∀ pieces ending, pieces.flatten = reply →
        daemonIndexSubmit (.streamed standardWire lengthDelimited none (.index req) pieces ending) =
          .ok (handleIndexRequest plainEnv req) :=
  @index_session standardWire _ lengthDelimited none
    [[0, 0, 0, 19, 1, 1, 2, 47, 112], [1, 6, 116, 97, 114, 103, 101, 116, 251, 44, 1, 0, 1, 0]]
    .closed standardWire_roundTrips lengthDelimited_reads plainEnv []
    { root := some "/p", skip := ["target"], maxFileSize := 300, hidden := true }
    (by decide +kernel)
    [0, 0, 0, 19, 1, 1, 2, 47, 112, 1, 6, 116, 97, 114, 103, 101, 116, 251, 44, 1, 0, 1, 0]
    (by decide +kernel) rfl

/-! ## Replies that are cut off -/

/-- Before the last frame of a complete reply there are only frames with results. -/
lemma take_of_terminated {log : ConnLog} (h : Terminated log) {j : ℕ} (hj : j < log.sent.length)
    {f : ResponseFrame} (hf : f ∈ log.sent.take j) :
    (∃ paths lites kinds, f = .batch paths lites kinds) ∨ ∃ hits, f = .lines hits := by
  obtain ⟨-, ⟨body, total, hsent, hbody⟩ | ⟨message, hsent⟩ | ⟨accepted, message, hsent⟩⟩ := h
  · rw [hsent] at hj hf
    have hle : j ≤ body.length := by simpa [Nat.lt_succ_iff] using hj
    rw [List.take_append_of_le_length hle] at hf
    rcases hbody with ⟨hall, -⟩ | ⟨hall, -⟩
    · exact Or.inl (hall f (List.mem_of_mem_take hf))
    · exact Or.inr (hall f (List.mem_of_mem_take hf))
  · rw [hsent] at hj hf
    obtain rfl : j = 0 := by simpa using hj
    cases hf
  · rw [hsent] at hj hf
    obtain rfl : j = 0 := by simpa using hj
    cases hf

/-- A stream of frames with results ends as what follows them does. -/
lemma streamOutcome_append {frames : List ResponseFrame} (h : ∀ f ∈ frames,
      (∃ paths lites kinds, f = .batch paths lites kinds) ∨ ∃ hits, f = .lines hits)
    (items : List StreamItem) :
    streamOutcome (frames.map StreamItem.frame ++ items) = streamOutcome items := by
  induction frames with
  | nil => rfl
  | cons f frames ih =>
      have htail := ih fun g hg => h g (List.mem_cons_of_mem _ hg)
      rcases h f (List.mem_cons_self ..) with ⟨paths, lites, kinds, rfl⟩ | ⟨hits, rfl⟩
      · exact htail
      · exact htail

lemma daemonSearch_fails {x : Exchange} (h : x.outcome ≠ .done) :
    ∃ e, daemonSearch x = .error e := by
  have htext : ∃ e, x.outcome.text = some e := by
    cases hout : x.outcome with
    | done => exact absurd hout h
    | _ => exact ⟨_, rfl⟩
  obtain ⟨e, he⟩ := htext
  exact ⟨e, daemonSearch_error_iff.mpr he⟩

lemma daemonIndexSubmit_fails {x : Exchange} (hconnect : x.connect = .ok ())
    (h : ∃ e, receiveAck x.items = .error e) : ∃ e, daemonIndexSubmit x = .error e := by
  obtain ⟨connect, encoded, sent, items⟩ := x
  obtain rfl : connect = .ok () := hconnect
  cases encoded with
  | error e => exact ⟨e, rfl⟩
  | ok _ =>
      cases sent with
      | error e => cases e <;> exact ⟨_, rfl⟩
      | ok _ => exact h

/-- A reply that is cut off, anywhere, is an error for the client: it never takes a part of the
results for all of them, or a request for accepted that was not acknowledged.  A proper prefix of a
terminated reply lacks its terminal frame, and no frame is read out of an incomplete message. -/
theorem cut_reply_fails (hW : W.RoundTrips) (hreads : D.Reads s₀ W.delimited) {log : ConnLog}
    (hterm : Terminated log) (htyped : ∀ f ∈ log.sent, f.Typed) {reply : Bytes}
    (hreply : replyBytes W log.sent = .ok reply) (hpieces : pieces.flatten <+: reply)
    (hne : pieces.flatten ≠ reply) (r : WireRequest) :
    (∃ e, daemonSearch (.streamed W D s₀ r pieces ending) = .error e) ∧
      ∃ e, daemonIndexSubmit (.streamed W D s₀ r pieces ending) = .error e := by
  obtain ⟨j, hj, hitems⟩ := items_of_cut ending hW hreads hreply htyped hpieces hne
  have hframes := fun f => @take_of_terminated log hterm j hj f
  constructor
  · apply daemonSearch_fails
    have hstream : streamOutcome (Exchange.streamed W D s₀ r pieces ending).items ≠ .done := by
      rw [Exchange.streamed, hitems, streamOutcome_append hframes]
      cases (received D s₀ pieces ending).2 <;> simp [streamOutcome]
    unfold Exchange.outcome
    split
    · simp
    · simp
    · simp
    · simp
    · exact hstream
  · have hack : ∃ e, receiveAck (Exchange.streamed W D s₀ r pieces ending).items = .error e := by
      rw [Exchange.streamed, hitems]
      cases hsent : log.sent.take j with
      | nil =>
          cases (received D s₀ pieces ending).2 with
          | none => exact ⟨_, rfl⟩
          | some e => exact ⟨e, rfl⟩
      | cons f fs =>
          rcases hframes f (by simp [hsent]) with ⟨paths, lites, kinds, rfl⟩ | ⟨hits, rfl⟩
          · exact ⟨_, rfl⟩
          · exact ⟨_, rfl⟩
    exact daemonIndexSubmit_fails rfl hack

/-- A reply of one result, whose `Done` frame does not arrive whole. -/
theorem cut_reply_one_name :
    let pieces : List Bytes :=
      [[0, 0, 0, 13, 0, 1, 4, 47, 100], [47, 120, 1, 0, 2, 0, 1, 0, 0, 0], [0, 2]]
    (∃ e, daemonSearch (.streamed standardWire lengthDelimited none (.search false namesWithX)
        pieces .closed) = .error e) ∧
      ∃ e, daemonIndexSubmit (.streamed standardWire lengthDelimited none
        (.search false namesWithX) pieces .closed) = .error e :=
  @cut_reply_fails standardWire _ lengthDelimited none
    [[0, 0, 0, 13, 0, 1, 4, 47, 100], [47, 120, 1, 0, 2, 0, 1, 0, 0, 0], [0, 2]] .closed
    standardWire_roundTrips lengthDelimited_reads
    ⟨[batchFrame [nameHit "/d/x"], .done 1], .ok ()⟩
    ⟨rfl, .inl ⟨[batchFrame [nameHit "/d/x"]], 1, rfl,
      .inl ⟨fun f hf => ⟨_, _, _, List.mem_singleton.mp hf⟩, rfl⟩⟩⟩
    (by simp [ResponseFrame.Typed, batchFrame])
    [0, 0, 0, 13, 0, 1, 4, 47, 100, 47, 120, 1, 0, 2, 0, 1, 0, 0, 0, 0, 2, 2, 1] (by decide +kernel)
    (by decide) (by decide) (.search false namesWithX)

end Sessions

end DeepFinder
