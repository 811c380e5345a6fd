import DeepFinder.Content.Bincode
import DeepFinder.Lib.Run

/-!
# WAL persistence of the overlay

`OverlayStore` writes WAL frames to one append-mode file; `replay` reads the file back at
startup.  A run interleaves opening the store, appends that succeed, appends whose `write_all`
fails part-way, crashes inside an append, process exits and truncations (`StoreOp`), and the
state remembers which records were acknowledged since the last truncation.

`decode_records` stops at the first incomplete frame, and nothing removes an incomplete frame
when the store is reopened: a frame appended behind one is never reached.  So replay returns
the acknowledged records as long as nothing is written behind an incomplete frame
(`replay_eq_acked`), and loses an acknowledged record otherwise
(`replay_loses_record_behind_torn_frame`).
-/

namespace DeepFinder

open ByteString

variable (B : Bincode)

/-! ## The store's functions on the file -/

namespace OverlayStore

/-- `OverlayStore::open`: `create(true).append(true)` keeps whatever the file holds. -/
def openFile (file : Option Bytes) : Bytes := file.getD []

/-- `OverlayStore::append`.  `stop = some k` is a `write_all` that ends after `k` bytes. -/
def append (file : Bytes) (rec : WalRecord) (stop : Option ℕ) : Bytes × Res Unit :=
  match encodeRecord B rec with
  | .error f => (file, .error f)
  | .ok bytes =>
      match stop with
      | none => (file ++ bytes, .ok ())
      | some k => (file ++ bytes.take k, .error (.err (.io "write_all")))

/-- `OverlayStore::truncate`: `set_len(0)`. -/
def truncate (_file : Bytes) : Bytes := []

end OverlayStore

/-- `replay`: a missing file is an empty log. -/
def replay : Option Bytes → Res (List WalRecord)
  | none => .ok []
  | some bytes => decodeRecords B bytes

/-! ## Runs of the store -/

/-- One event in the life of the WAL file. -/
inductive StoreOp where
  /-- `OverlayStore::open` at daemon start. -/
  | openStore
  /-- `append` whose `write_all` is not interrupted. -/
  | append (rec : WalRecord)
  /-- `append` whose `write_all` returns `Err` after `k` bytes of the frame. -/
  | appendFails (rec : WalRecord) (k : ℕ)
  /-- The process dies in `append` after `k` bytes of the frame. -/
  | crash (rec : WalRecord) (k : ℕ)
  /-- The process ends outside `append`. -/
  | exit
  | truncate
  deriving DecidableEq, Repr

/-- The file, whether a store is open on it, and what the run did so far. -/
structure StoreState where
  file : Option Bytes
  isOpen : Bool
  /-- The records whose `append` returned `Ok` since the last `truncate`, in order. -/
  acked : List WalRecord
  /-- An interrupted write left bytes that no `truncate` has removed. -/
  torn : Bool
  deriving DecidableEq, Repr

def StoreState.initial : StoreState := ⟨none, false, [], false⟩

/-- An interrupted `append`: the frame exists and `k` stops short of its end. -/
def StoreState.tear (s : StoreState) (rec : WalRecord) (k : ℕ) : Option StoreState :=
  match s.file, encodeRecord B rec with
  | some file, .ok frame =>
      if s.isOpen ∧ k < frame.length then
        some { s with
          file := some (OverlayStore.append B file rec (some k)).1
          torn := s.torn || decide (0 < k) }
      else none
  | _, _ => none

/-- One step of the run; `none` when the event cannot happen. -/
def storeStep (s : StoreState) : StoreOp → Option StoreState
  | .openStore => some { s with file := some (OverlayStore.openFile s.file), isOpen := true }
  | .append rec =>
      match s.isOpen, s.file with
      | true, some file =>
          match OverlayStore.append B file rec none with
          | (file, .ok ()) => some { s with file := some file, acked := s.acked ++ [rec] }
          | (file, .error _) => some { s with file := some file }
      | _, _ => none
  | .appendFails rec k => s.tear B rec k
  | .crash rec k => (s.tear B rec k).map fun s' => { s' with isOpen := false }
  | .exit => some { s with isOpen := false }
  | .truncate =>
      match s.isOpen, s.file with
      | true, some file =>
          some { s with file := some (OverlayStore.truncate file), acked := [], torn := false }
      | _, _ => none

def StoreOp.written : StoreOp → Option WalRecord
  | .append rec | .appendFails rec _ | .crash rec _ => some rec
  | _ => none

/-- The step writes nothing behind an incomplete frame, and the length of the body it writes
fits the frame's `u32` length field. -/
def WritesOnFrameBoundary (s : StoreState) (op : StoreOp) : Prop :=
  match op.written with
  | none => True
  | some rec => s.torn = false ∧
      match B.encodeToVec rec with
      | .ok body => body.length < 2 ^ 32
      | .error _ => True

instance (s : StoreState) (op : StoreOp) : Decidable (WritesOnFrameBoundary B s op) := by
  unfold WritesOnFrameBoundary
  split
  · infer_instance
  · exact @instDecidableAnd _ _ inferInstance (by split <;> infer_instance)

/-! ## The invariant -/

/-- The file is the acknowledged frames, then at most one incomplete frame, which is there only
if a write was interrupted since the last truncation. -/
def StoreInv (s : StoreState) : Prop :=
  ∃ bytes tail, s.file.getD [] = bytes ++ tail ∧ Frames B s.acked bytes ∧
    (tail = [] ∨ IsTornFrame B tail ∧ s.torn = true)

variable {B}

lemma WritesOnFrameBoundary.written {s : StoreState} {op : StoreOp} {rec : WalRecord}
    (h : WritesOnFrameBoundary B s op) (hrec : op.written = some rec) :
    s.torn = false ∧ ∀ body, B.encodeToVec rec = .ok body → body.length < 2 ^ 32 := by
  rw [WritesOnFrameBoundary, hrec] at h
  exact ⟨h.1, fun body hbody => by simpa [hbody] using h.2⟩

lemma StoreInv.of_not_torn {s : StoreState} (h : StoreInv B s) (ht : s.torn = false) :
    Frames B s.acked (s.file.getD []) := by
  obtain ⟨bytes, tail, hfile, hframes, rfl | ⟨-, htorn⟩⟩ := h
  · simpa [hfile] using hframes
  · simp [ht] at htorn

lemma isFrame_of_encodeRecord {rec : WalRecord} {frame : Bytes}
    (h : encodeRecord B rec = .ok frame)
    (hlen : ∀ body, B.encodeToVec rec = .ok body → body.length < 2 ^ 32) :
    IsFrame B rec frame := by
  obtain ⟨body, hbody, rfl⟩ := encodeRecord_eq_ok h
  exact ⟨body, hbody, hlen body hbody, rfl⟩

/-- Everything an interrupted append can do. -/
lemma StoreState.tear_eq_some {s t : StoreState} {rec : WalRecord} {k : ℕ}
    (h : s.tear B rec k = some t) :
    ∃ file frame, s.file = some file ∧ encodeRecord B rec = .ok frame ∧ k < frame.length ∧
      t = { s with file := some (file ++ frame.take k), torn := s.torn || decide (0 < k) } := by
  unfold StoreState.tear at h
  split at h
  · rename_i file frame hfile hframe
    split at h
    · rename_i hk
      refine ⟨file, frame, hfile, hframe, hk.2, ?_⟩
      simpa [OverlayStore.append, hframe] using (Option.some.inj h).symm
    · cases h
  · cases h

/-- Everything a completed append can do: grow the file by the frame and acknowledge the
record, or report that bincode refused it and change nothing. -/
lemma storeStep_append {s t : StoreState} {rec : WalRecord}
    (h : storeStep B s (.append rec) = some t) :
    ∃ file, s.file = some file ∧
      ((∃ frame, encodeRecord B rec = .ok frame ∧
          t = { s with file := some (file ++ frame), acked := s.acked ++ [rec] }) ∨ t = s) := by
  unfold storeStep at h
  dsimp only at h
  split at h
  · rename_i file hopen hfile
    refine ⟨file, hfile, ?_⟩
    cases henc : encodeRecord B rec with
    | ok frame =>
        left
        refine ⟨frame, rfl, ?_⟩
        simpa [OverlayStore.append, henc] using h.symm
    | error f =>
        right
        simp only [OverlayStore.append, henc, Option.some.injEq] at h
        rw [← h, ← hfile]
  · cases h

lemma StoreInv.tear {s t : StoreState} {rec : WalRecord} {k : ℕ} (hs : StoreInv B s)
    (htorn : s.torn = false)
    (hlen : ∀ body, B.encodeToVec rec = .ok body → body.length < 2 ^ 32)
    (h : s.tear B rec k = some t) : StoreInv B t := by
  obtain ⟨file, frame, hfile, hframe, hk, rfl⟩ := StoreState.tear_eq_some h
  have hframes := hs.of_not_torn htorn
  rw [hfile, Option.getD_some] at hframes
  refine ⟨file, frame.take k, rfl, hframes, ?_⟩
  rcases Nat.eq_zero_or_pos k with rfl | hpos
  · exact Or.inl (List.take_zero)
  · refine Or.inr ⟨⟨rec, frame, isFrame_of_encodeRecord hframe hlen, ?_,
      List.take_prefix _ _⟩, by simp [hpos]⟩
    rw [List.length_take]
    omega

/-- Every step on a frame boundary keeps the invariant. -/
lemma StoreInv.step {s t : StoreState} {op : StoreOp} (hop : WritesOnFrameBoundary B s op)
    (hs : StoreInv B s) (h : storeStep B s op = some t) : StoreInv B t := by
  cases op with
  | openStore =>
      obtain rfl := Option.some.inj h
      obtain ⟨bytes, tail, hfile, hrest⟩ := hs
      exact ⟨bytes, tail, by simpa [OverlayStore.openFile] using hfile, hrest⟩
  | exit =>
      obtain rfl := Option.some.inj h
      exact hs
  | append rec =>
      obtain ⟨htorn, hlen⟩ := hop.written rfl
      obtain ⟨file, hfile, ⟨frame, hframe, rfl⟩ | rfl⟩ := storeStep_append h
      · have hframes := hs.of_not_torn htorn
        rw [hfile, Option.getD_some] at hframes
        exact ⟨file ++ frame, [], by simp,
          hframes.snoc (isFrame_of_encodeRecord hframe hlen), Or.inl rfl⟩
      · exact hs
  | appendFails rec k =>
      obtain ⟨htorn, hlen⟩ := hop.written rfl
      exact hs.tear htorn hlen h
  | crash rec k =>
      obtain ⟨htorn, hlen⟩ := hop.written rfl
      obtain ⟨t', ht', rfl⟩ := Option.map_eq_some_iff.mp h
      have htear := hs.tear htorn hlen ht'
      exact htear
  | truncate =>
      unfold storeStep at h
      dsimp only at h
      split at h
      · obtain rfl := Option.some.inj h
        exact ⟨[], [], rfl, .nil, Or.inl rfl⟩
      · cases h

lemma StoreInv.replay (hB : B.Lawful) {s : StoreState} (h : StoreInv B s) :
    replay B s.file = .ok s.acked := by
  obtain ⟨bytes, tail, hfile, hframes, htail⟩ := h
  have hdec := decodeRecords_frames hB hframes (htail.imp_right And.left)
  rw [← hfile] at hdec
  cases hf : s.file with
  | none =>
      rw [hf] at hdec
      exact hdec
  | some file =>
      rw [hf] at hdec
      exact hdec

/-! ## Durability -/

/-- In every run that writes only on frame boundaries, replaying the file gives exactly the records
acknowledged since the last truncation, in order.  A crash or a failing write may tear the last
frame; what the guard rules out is an append behind such a frame, which would be read as a part of
it. -/
theorem replay_eq_acked (hB : B.Lawful) {ops : List StoreOp} {s : StoreState}
    (hops : Run.Guarded (storeStep B) (WritesOnFrameBoundary B) StoreState.initial ops)
    (hrun : Run.exec (storeStep B) StoreState.initial ops = some s) :
    replay B s.file = .ok s.acked := by
  have hinit : StoreInv B StoreState.initial := ⟨[], [], rfl, .nil, Or.inl rfl⟩
  exact (Run.exec_invariant_of_guarded (storeStep B)
    (fun _ _ _ hop hs hstep => hs.step hop hstep) hinit hops hrun).replay hB

/-- A run with a crash after three bytes of a frame, cleaned up by a truncation. -/
theorem replay_eq_acked_after_truncate :
    let ops : List StoreOp := [.openStore, .append (.delete "/a"), .crash (.delete "/b") 3,
      .openStore, .truncate, .append (.delete "/c")]
    ∃ s, Run.exec (storeStep standardBincode) .initial ops = some s ∧
      s.acked = [.delete "/c"] ∧ replay standardBincode s.file = .ok s.acked := by
  refine ⟨⟨some (toLE 4 4 ++ [1, 2, 47, 99]), true, [.delete "/c"], false⟩, by decide, rfl, ?_⟩
  exact @replay_eq_acked standardBincode standardBincode_lawful [.openStore, .append (.delete "/a"),
    .crash (.delete "/b") 3, .openStore, .truncate, .append (.delete "/c")] _ (by decide) (by decide)

/-- A frame appended behind an incomplete one is not replayed: after a crash three bytes into
the second frame and a restart, the third record's `append` returns `Ok` and replay drops it. -/
theorem replay_loses_record_behind_torn_frame :
    ∃ s, Run.exec (storeStep standardBincode) .initial
        [.openStore, .append (.delete "/a"), .crash (.delete "/b") 3,
          .openStore, .append (.delete "/c")] = some s ∧
      s.acked = [.delete "/a", .delete "/c"] ∧
      replay standardBincode s.file = .ok [.delete "/a"] := by
  refine ⟨⟨some (toLE 4 4 ++ [1, 2, 47, 97] ++ [4, 0, 0] ++ (toLE 4 4 ++ [1, 2, 47, 99])), true,
    [.delete "/a", .delete "/c"], true⟩, by decide, rfl, by decide⟩

end DeepFinder
