import DeepFinder.Core.Basic

/-!
# WAL records and their framing

`WalRecord` and the two framing functions of `df-content::overlay`.  A frame is the body length
as a `u32` followed by the bincode body; `decode_records` walks frames from the front and stops
at the first one that is cut off or that bincode rejects.

The bincode crate is not part of the repository.  `Bincode` is its two entry points as the
framing uses them, and `Bincode.Lawful` is what the framing relies on: decoding the encoding of
a record gives the record back.
-/

namespace DeepFinder

open ByteString

/-- One persisted overlay operation. -/
inductive WalRecord where
  | upsert (path : String) (lite : LiteMeta) (content : Option Bytes)
  | delete (path : String)
  deriving DecidableEq, Repr

def WalRecord.path : WalRecord → String
  | .upsert path _ _ => path
  | .delete path => path

/-- `bincode::serde::encode_to_vec` and `decode_from_slice` at `WalRecord`.  The decoder also
returns how many bytes it read, which the framing ignores. -/
structure Bincode where
  encodeToVec : WalRecord → Except String Bytes
  decodeFromSlice : Bytes → Except String (WalRecord × ℕ)

/-- Decoding an encoded body gives the record back.  How many of the bytes were read does not
matter, since a frame is cut out before it is decoded. -/
def Bincode.Lawful (B : Bincode) : Prop :=
  ∀ r body, B.encodeToVec r = .ok body → ∃ n, B.decodeFromSlice body = .ok (r, n)

variable (B : Bincode)

/-! ## The framing functions -/

/-- `encode_record`. -/
def encodeRecord (r : WalRecord) : Res Bytes :=
  match B.encodeToVec r with
  | .ok body => .ok (toLE 4 body.length ++ body)
  | .error e => .error (.err (.codec s!"wal encode: {e}"))

/-- The loop of `decode_records` from position `p`; `out` is what was decoded so far. -/
def decodeLoop (bytes : Bytes) : ℕ → ℕ → List WalRecord → Res (List WalRecord)
  | 0, _, _ => .error .diverged
  | fuel + 1, p, out =>
      if p + 4 ≤ bytes.length then do
        let n ← leU32 bytes p
        let p := p + 4
        -- truncated tail
        if p + n > bytes.length then pure out
        else do
          let body ← sliceAt bytes p n
          match B.decodeFromSlice body with
          | .ok (rec, _) => decodeLoop bytes fuel (p + n) (out ++ [rec])
          -- corrupt frame: prior records stand
          | .error _ => pure out
      else pure out

/-- `decode_records`.  Every iteration advances by at least the four length bytes. -/
def decodeRecords (bytes : Bytes) : Res (List WalRecord) :=
  decodeLoop B bytes (bytes.length / 4 + 1) 0 []

/-! ## Frames -/

/-- `frame` is the frame `encode_record` writes for `r`, and its length field is exact. -/
def IsFrame (r : WalRecord) (frame : Bytes) : Prop :=
  ∃ body, B.encodeToVec r = .ok body ∧ body.length < 2 ^ 32 ∧
    frame = toLE 4 body.length ++ body

/-- `bytes` is the concatenation of the frames of `recs`. -/
inductive Frames : List WalRecord → Bytes → Prop where
  | nil : Frames [] []
  | snoc {recs : List WalRecord} {bytes frame : Bytes} {r : WalRecord} :
      Frames recs bytes → IsFrame B r frame → Frames (recs ++ [r]) (bytes ++ frame)

/-- A frame cut short: what a crash inside `write_all` leaves behind. -/
def IsTornFrame (tail : Bytes) : Prop :=
  ∃ r frame, IsFrame B r frame ∧ tail.length < frame.length ∧ tail <+: frame

variable {B}

lemma encodeRecord_eq_ok {r : WalRecord} {frame : Bytes} (h : encodeRecord B r = .ok frame) :
    ∃ body, B.encodeToVec r = .ok body ∧ frame = toLE 4 body.length ++ body := by
  unfold encodeRecord at h
  split at h
  · rename_i body hbody
    exact ⟨body, hbody, (Except.ok.inj h).symm⟩
  · cases h

lemma IsFrame.four_le {r : WalRecord} {frame : Bytes} (h : IsFrame B r frame) :
    4 ≤ frame.length := by
  obtain ⟨body, -, -, rfl⟩ := h
  simp

lemma Frames.four_mul_length_le {recs : List WalRecord} {bytes : Bytes}
    (h : Frames B recs bytes) : 4 * recs.length ≤ bytes.length := by
  induction h with
  | nil => simp
  | snoc _ hr ih =>
      have := hr.four_le
      simp only [List.length_append, List.length_singleton]
      omega

/-! ## Decoding -/

/-- One complete frame at position `p` is decoded and skipped. -/
lemma decodeLoop_frame (hB : B.Lawful) {pre post frame : Bytes} {r : WalRecord}
    (hr : IsFrame B r frame) (fuel : ℕ) (out : List WalRecord) :
    decodeLoop B (pre ++ (frame ++ post)) (fuel + 1) pre.length out =
      decodeLoop B (pre ++ (frame ++ post)) fuel (pre ++ frame).length (out ++ [r]) := by
  obtain ⟨body, hbody, hlen, rfl⟩ := hr
  obtain ⟨k, hdec⟩ := hB r body hbody
  have hhead : leU32 (pre ++ (toLE 4 body.length ++ body ++ post)) pre.length =
      .ok body.length := by
    rw [List.append_assoc]
    exact leU32_mid _ hlen _
  have hbodyAt : sliceAt (pre ++ (toLE 4 body.length ++ body ++ post)) (pre.length + 4)
      body.length = .ok body := by
    have h := sliceAt_mid (pre ++ toLE 4 body.length) body post
    simpa using h
  rw [decodeLoop, if_pos (by simp), hhead]
  simp only [bind_ok]
  rw [if_neg (by simp; omega), hbodyAt]
  simp only [bind_ok, hdec]
  congr 1
  simp only [List.length_append, length_toLE]
  omega

/-- A torn frame at the end stops the loop without adding a record. -/
lemma decodeLoop_torn {pre tail : Bytes} (htail : IsTornFrame B tail) (fuel : ℕ)
    (out : List WalRecord) :
    decodeLoop B (pre ++ tail) (fuel + 1) pre.length out = .ok out := by
  obtain ⟨r, frame, ⟨body, -, hlen, rfl⟩, hlt, hpre⟩ := htail
  rw [decodeLoop]
  by_cases hfour : tail.length < 4
  · rw [if_neg (by simp; omega)]
    rfl
  · -- the length field is complete and promises more bytes than are left
    have htail : tail = toLE 4 body.length ++ tail.drop 4 := by
      have hfield : tail.take 4 = toLE 4 body.length := by
        have h4 : tail.take 4 <+: toLE 4 body.length ++ body :=
          (List.take_prefix 4 tail).trans hpre
        have hle : tail.take 4 <+: toLE 4 body.length :=
          List.prefix_of_prefix_length_le h4 (List.prefix_append _ _) (by simp)
        exact hle.eq_of_length (by simp; omega)
      rw [← hfield, List.take_append_drop]
    have hhead : leU32 (pre ++ tail) pre.length = .ok body.length := by
      rw [htail]
      exact leU32_mid _ hlen _
    rw [if_pos (by simp; omega), hhead]
    simp only [bind_ok]
    rw [if_pos (by simp at hlt ⊢; omega)]
    rfl

/-- The loop over complete frames, started anywhere. -/
lemma decodeLoop_frames (hB : B.Lawful) {recs : List WalRecord} {bytes : Bytes}
    (h : Frames B recs bytes) (post : Bytes) (fuel : ℕ) :
    decodeLoop B (bytes ++ post) (fuel + recs.length) 0 [] =
      decodeLoop B (bytes ++ post) fuel bytes.length recs := by
  induction h generalizing post fuel with
  | nil => rfl
  | @snoc recs bytes frame r _ hr ih =>
      have hfuel : fuel + (recs ++ [r]).length = (fuel + 1) + recs.length := by
        simp only [List.length_append, List.length_singleton]
        omega
      rw [List.append_assoc, hfuel, ih (frame ++ post) (fuel + 1)]
      exact decodeLoop_frame hB hr fuel recs

/-- Complete frames followed by at most one torn frame decode to exactly the complete ones. -/
theorem decodeRecords_frames (hB : B.Lawful) {recs : List WalRecord} {bytes tail : Bytes}
    (h : Frames B recs bytes) (htail : tail = [] ∨ IsTornFrame B tail) :
    decodeRecords B (bytes ++ tail) = .ok recs := by
  have hfuel : ∃ fuel, (bytes ++ tail).length / 4 + 1 = (fuel + 1) + recs.length := by
    have h4 := h.four_mul_length_le
    refine ⟨(bytes ++ tail).length / 4 - recs.length, ?_⟩
    simp only [List.length_append]
    omega
  obtain ⟨fuel, hfuel⟩ := hfuel
  rw [decodeRecords, hfuel, decodeLoop_frames hB h]
  rcases htail with rfl | htorn
  · rw [decodeLoop, if_neg (by simp)]
    rfl
  · exact decodeLoop_torn htorn fuel recs

end DeepFinder
