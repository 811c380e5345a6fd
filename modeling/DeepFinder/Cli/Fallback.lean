import DeepFinder.Daemon.Answers

/-!
# Falling back to the direct scan

`cmd_search` scans the tree itself when the daemon is out of reach, and tells so from the text of
the error that `daemon_search` returned.  That text is the operating system's, the client's own, or
a message of the daemon with the user's database name in it.

`fallback_iff` says for which outcomes of an exchange the text tells the truth: never for a stream
that just ends, and for an `Error` frame unless its message holds one of the three words that stand
for an unreachable daemon.  `unknown_db_falls_back` is such a message.
-/

namespace DeepFinder

open ByteString

/-! ## The exchange -/

/-- Why a request is not sent: the codec refuses it, or the stream fails. -/
inductive SendError where
  | tooLong (text : String)
  | io (text : String)
  deriving DecidableEq, Repr

/-- What the stream yields: a decoded frame, an error of reading, or bytes that are no frame. -/
inductive StreamItem where
  | frame (f : ResponseFrame)
  | readError (text : String)
  | undecodable (text : String)
  deriving DecidableEq, Repr

/-- What the client finds, step by step: whether the socket connects, the request encodes and is
sent, and what comes back until the stream ends.  Errors are their texts. -/
structure Exchange where
  connect : Except String Unit
  encoded : Except String Unit
  sent : Except SendError Unit
  items : List StreamItem

/-- `is_daemon_unreachable`, and the test of `cmd_search`. -/
def isDaemonUnreachable (msg : String) : Bool :=
  containsSub (utf8 msg) (utf8 "Connection refused") ||
    containsSub (utf8 msg) (utf8 "No such file") || containsSub (utf8 msg) (utf8 "connect")

/-- The loop of a `Batch` frame; missing metadata is the default. -/
def batchHits : List String → List LiteMeta → List MatchKind → List (String × LiteMeta × MatchKind)
  | [], _, _ => []
  | p :: paths, lites, kinds =>
      (p, lites.headD default, kinds.headD .filename) :: batchHits paths lites.tail kinds.tail

/-- The loop of `daemon_search` over the stream. -/
def receive : List StreamItem → List (String × LiteMeta × MatchKind) → List LineHit →
    Except String (List (String × LiteMeta × MatchKind) × List LineHit)
  | [], _, _ => .error "daemon stream ended early"
  | .readError e :: _, _, _ => .error e
  | .undecodable e :: _, _, _ => .error e
  | .frame (.batch paths lites kinds) :: items, out, lines =>
      receive items (out ++ batchHits paths lites kinds) lines
  | .frame (.lines hits) :: items, out, lines => receive items out (lines ++ hits)
  | .frame (.done _) :: _, out, lines => .ok (out, lines)
  | .frame (.indexAck _ _) :: _, _, _ => .error "unexpected IndexAck"
  | .frame (.error message) :: _, _, _ => .error message

/-- `daemon_search`. -/
def daemonSearch (x : Exchange) :
    Except String (List (String × LiteMeta × MatchKind) × List LineHit) := do
  x.connect
  x.encoded
  match x.sent with
  | .error (.tooLong e) => .error e
  | .error (.io e) => .error e
  | .ok _ => receive x.items [] []

/-- How `cmd_search` goes on: with the daemon's results, with `direct_scan`, or not at all. -/
inductive SearchEnd where
  | results (out : List (String × LiteMeta × MatchKind)) (lines : List LineHit)
  | scan
  | exit (message : String)
  deriving DecidableEq, Repr

/-- `cmd_search`, up to the direct scan. -/
def cmdSearch (direct : Bool) (x : Exchange) : SearchEnd :=
  if direct then .scan
  else
    match daemonSearch x with
    | .ok r => .results r.1 r.2
    | .error msg => if isDaemonUnreachable msg then .scan else .exit msg

/-! ## Outcomes -/

/-- How an exchange ends. -/
inductive Outcome where
  /-- the socket does not connect -/
  | unreachable (text : String)
  /-- the client has no request that can be sent -/
  | unsent (text : String)
  /-- the stream fails before a terminal frame -/
  | cutOff (text : String)
  /-- the stream ends before a terminal frame -/
  | endedEarly
  | undecodable (text : String)
  | done
  | error (message : String)
  | indexAck
  deriving DecidableEq, Repr

/-- What ends the stream. -/
def streamOutcome : List StreamItem → Outcome
  | [] => .endedEarly
  | .readError e :: _ => .cutOff e
  | .undecodable e :: _ => .undecodable e
  | .frame (.batch _ _ _) :: items | .frame (.lines _) :: items => streamOutcome items
  | .frame (.done _) :: _ => .done
  | .frame (.indexAck _ _) :: _ => .indexAck
  | .frame (.error message) :: _ => .error message

/-- The first of the steps that fails, or what ends the stream. -/
def Exchange.outcome (x : Exchange) : Outcome :=
  match x.connect, x.encoded, x.sent with
  | .error e, _, _ => .unreachable e
  | _, .error e, _ => .unsent e
  | _, _, .error (.tooLong e) => .unsent e
  | _, _, .error (.io e) => .cutOff e
  | .ok _, .ok _, .ok _ => streamOutcome x.items

/-- The daemon could not be reached, or the stream ended before a terminal frame. -/
def Outcome.TransportFailure : Outcome → Prop
  | .unreachable _ | .cutOff _ | .endedEarly => True
  | _ => False

/-- The text of an outcome tells whether it is a transport failure.  A stream that ends without a
`Done` gives an error without any of the three words that are looked for, so that it is never told
as one. -/
def Outcome.RightlyTold : Outcome → Prop
  | .unreachable e | .cutOff e => isDaemonUnreachable e = true
  | .endedEarly => False
  | .unsent e | .undecodable e | .error e => isDaemonUnreachable e = false
  | .done | .indexAck => True

/-- The error of `daemon_search`, if it is one. -/
def Outcome.text : Outcome → Option String
  | .unreachable e | .unsent e | .cutOff e | .undecodable e | .error e => some e
  | .endedEarly => some "daemon stream ended early"
  | .indexAck => some "unexpected IndexAck"
  | .done => none

lemma receive_error_iff {items : List StreamItem} {out : List (String × LiteMeta × MatchKind)}
    {lines : List LineHit} {msg : String} :
    receive items out lines = .error msg ↔ (streamOutcome items).text = some msg := by
  induction items generalizing out lines with
  | nil => simp [receive, streamOutcome, Outcome.text]
  | cons item items ih =>
      cases item with
      | readError e => simp [receive, streamOutcome, Outcome.text]
      | undecodable e => simp [receive, streamOutcome, Outcome.text]
      | frame f =>
          cases f with
          | batch paths lites kinds => exact ih
          | lines hits => exact ih
          | done total => simp [receive, streamOutcome, Outcome.text]
          | error message => simp [receive, streamOutcome, Outcome.text]
          | indexAck accepted message => simp [receive, streamOutcome, Outcome.text]

/-- `daemon_search` fails with the text of the outcome. -/
lemma daemonSearch_error_iff {x : Exchange} {msg : String} :
    daemonSearch x = .error msg ↔ x.outcome.text = some msg := by
  obtain ⟨connect, encoded, sent, items⟩ := x
  rcases connect with e | _
  · simp [daemonSearch, Exchange.outcome, Outcome.text, bind, Except.bind]
  rcases encoded with e | _
  · simp [daemonSearch, Exchange.outcome, Outcome.text, bind, Except.bind]
  rcases sent with (e | e) | _
  · simp [daemonSearch, Exchange.outcome, Outcome.text, bind, Except.bind]
  · simp [daemonSearch, Exchange.outcome, Outcome.text, bind, Except.bind]
  · simpa [daemonSearch, Exchange.outcome, bind, Except.bind] using receive_error_iff

lemma cmdSearch_of_text {x : Exchange} {msg : String} (h : x.outcome.text = some msg) :
    cmdSearch false x = if isDaemonUnreachable msg then .scan else .exit msg := by
  rw [cmdSearch, daemonSearch_error_iff.mpr h]
  rfl

lemma cmdSearch_of_done {x : Exchange} (h : x.outcome = .done) : cmdSearch false x ≠ .scan := by
  have hok : ∀ msg, daemonSearch x ≠ .error msg := fun msg herr => by
    have htext := daemonSearch_error_iff.mp herr
    rw [h] at htext
    cases htext
  unfold cmdSearch
  cases hsearch : daemonSearch x with
  | ok r => simp
  | error msg => exact absurd hsearch (hok msg)

/-- The direct scan stands in for the daemon exactly on a transport failure, and an error of the
daemon ends the search, exactly when the scan was asked for or the text of the outcome tells the
truth. -/
theorem fallback_iff (direct : Bool) (x : Exchange) :
    (direct = false → (cmdSearch direct x = .scan ↔ x.outcome.TransportFailure) ∧
        ∀ message, x.outcome = .error message → cmdSearch direct x = .exit message) ↔
      direct = true ∨ x.outcome.RightlyTold := by
  cases direct with
  | true => simp
  | false =>
      simp only [true_imp_iff, Bool.false_eq_true, false_or]
      have htold : ∀ {msg : String}, x.outcome.text = some msg →
          (cmdSearch false x = .scan ↔ isDaemonUnreachable msg = true) := by
        intro msg h
        rw [cmdSearch_of_text h]
        cases isDaemonUnreachable msg <;> simp
      cases h : x.outcome with
      | unreachable e | cutOff e =>
          have htext := @htold e (by rw [h]; rfl)
          simp [htext, Outcome.TransportFailure, Outcome.RightlyTold]
      | unsent e | undecodable e =>
          have htext := @htold e (by rw [h]; rfl)
          simp [htext, Outcome.TransportFailure, Outcome.RightlyTold]
      | endedEarly =>
          have htext := @htold "daemon stream ended early" (by rw [h]; rfl)
          have hfar : isDaemonUnreachable "daemon stream ended early" = false := by decide +kernel
          simp [htext, hfar, Outcome.TransportFailure, Outcome.RightlyTold]
      | indexAck =>
          have htext := @htold "unexpected IndexAck" (by rw [h]; rfl)
          have hfar : isDaemonUnreachable "unexpected IndexAck" = false := by decide +kernel
          simp [htext, hfar, Outcome.TransportFailure, Outcome.RightlyTold]
      | done => simp [cmdSearch_of_done h, Outcome.TransportFailure, Outcome.RightlyTold]
      | error message =>
          have htext : x.outcome.text = some message := by rw [h]; rfl
          rw [cmdSearch_of_text htext]
          cases hfar : isDaemonUnreachable message <;>
            simp [hfar, Outcome.TransportFailure, Outcome.RightlyTold]

/-- A database called `connect` that is not registered is an error of the daemon, and the search
goes on without the daemon; a stream that just ends is a transport failure, and the search ends. -/
theorem error_frame_falls_back :
    cmdSearch false ⟨.ok (), .ok (), .ok (),
        [.frame (.error "no registered DB named 'connect'; available: home")]⟩ = .scan ∧
      cmdSearch false ⟨.ok (), .ok (), .ok (), []⟩ = .exit "daemon stream ended early" := by
  decide +kernel

/-! ## Served by the daemon -/

/-- The exchange with a daemon that sends these frames and closes the connection. -/
def Exchange.served (log : ConnLog) : Exchange where
  connect := .ok ()
  encoded := .ok ()
  sent := .ok ()
  items := log.sent.map StreamItem.frame

lemma isDaemonUnreachable_of_connect {msg : String} (h : "connect".toList <:+: msg.toList) :
    isDaemonUnreachable msg = true := by
  have hbytes : containsSub (utf8 msg) (utf8 "connect") = true := containsSub_iff.mpr (infix_utf8 h)
  simp [isDaemonUnreachable, hbytes]

lemma infix_unknownDbMessage {entries : List DbEntry} {name : String} (h : entries ≠ []) :
    name.toList <:+: (unknownDbMessage entries name).toList := by
  rw [unknownDbMessage, if_neg h]
  simp only [String.toList_append, List.append_assoc]
  exact ⟨_, _, by rw [List.append_assoc]⟩

/-- A search of a database that is not registered, and whose name has `connect` in it, goes on
without the daemon. -/
theorem unknown_db_falls_back {W : WireCodec} {env : ConnEnv} {entries : List DbEntry}
    {req : SearchRequest} {plan : SearchPlan} {name : String} {log : ConnLog}
    (hplan : searchPlan env req = .ok plan) (hdb : req.db = some name)
    (hnames : selectedNames entries req = []) (hentries : entries ≠ [])
    (hname : "connect".toList <:+: name.toList)
    (hfits : W.fits (.error (unknownDbMessage entries name)) = true)
    (hconn : handleConn W env entries (.search req) = .ok log) :
    cmdSearch false (Exchange.served log) = .scan := by
  rw [handleConn, handleSearch_unknown hplan hdb hnames] at hconn
  obtain rfl := Except.ok.inj hconn
  obtain ⟨v, hv⟩ := WireCodec.fits_eq_true.mp hfits
  have htext : (Exchange.served (sendFrames W
      [.error (unknownDbMessage entries name)])).outcome.text =
      some (unknownDbMessage entries name) := by
    simp [Exchange.served, Exchange.outcome, sendFrames, hv, streamOutcome, Outcome.text]
  rw [cmdSearch_of_text htext,
    if_pos (isDaemonUnreachable_of_connect (hname.trans (infix_unknownDbMessage hentries)))]

end DeepFinder
