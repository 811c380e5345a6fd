import DeepFinder.Content.Bincode
import DeepFinder.Ipc.Proto

/-!
# Messages on the wire

`encode_request` and `encode_frame` make a message with bincode's standard configuration, and
`framed` puts the message on the stream with tokio-util's `LengthDelimitedCodec`.

## What is assumed of the two crates

Neither crate is part of the repository.  `WireCodec` is their entry points as the protocol uses
them, and every theorem about frames, replies and sessions takes it as a parameter, with one or both
of these hypotheses:

- `WireCodec.Sizes`: a frame is encoded to the number of bytes that the encoding is specified to
  take (`ResponseFrame.size`), and the codec takes a message exactly when it is no longer than its
  default maximum frame length, 8 MiB;
- `WireCodec.RoundTrips`: decoding the encoding of a frame or a request gives it back.

`standardWire` of `Ipc/StandardWire.lean` has both; concrete runs are evaluated with it.
-/

namespace DeepFinder

open ByteString

/-! ## The messages -/

/-- `Request`, with the `direct` flag among the options of a search. -/
inductive WireRequest where
  | search (direct : Bool) (req : SearchRequest)
  | index (req : IndexRequest)

def WireRequest.request : WireRequest → Request
  | .search _ req => .search req
  | .index req => .index req

/-- The numbers of a frame are as long as the types of its fields.  In the source their types see to
it; here they are natural numbers. -/
def ResponseFrame.Typed : ResponseFrame → Prop
  | .lines hits => ∀ hit ∈ hits, hit.lineNo < 2 ^ 32
  | .done total => total < 2 ^ 32
  | _ => True

/-- `bincode::serde::encode_to_vec` and `decode_from_slice` at `ResponseFrame` and `Request`, and
the encoder of `LengthDelimitedCodec`.  The decoders ignore what stands behind the value; errors are
their texts. -/
structure WireCodec where
  frameToVec : ResponseFrame → Except String Bytes
  frameFromSlice : Bytes → Except String ResponseFrame
  requestToVec : WireRequest → Except String Bytes
  requestFromSlice : Bytes → Except String WireRequest
  delimit : Bytes → Except String Bytes

variable (W : WireCodec)

/-- `encode_request` and `encode_index_request`. -/
def encodeRequest (r : WireRequest) : Except String Bytes :=
  (W.requestToVec r).mapError fun e => "encode request: " ++ e

/-- `decode_request`. -/
def decodeRequest (bytes : Bytes) : Except String WireRequest :=
  (W.requestFromSlice bytes).mapError fun e => "decode request: " ++ e

/-- `encode_frame`. -/
def encodeFrame (f : ResponseFrame) : Except String Bytes :=
  (W.frameToVec f).mapError fun e => "encode frame: " ++ e

/-- `decode_frame`. -/
def decodeFrame (bytes : Bytes) : Except String ResponseFrame :=
  (W.frameFromSlice bytes).mapError fun e => "decode frame: " ++ e

/-- `f.send(encode_frame(&frame)?)`: what is put on the stream for a frame. -/
def sendFrame (f : ResponseFrame) : Except String Bytes := do
  let bytes ← encodeFrame W f
  W.delimit bytes

/-- What the codec writes for a message, if it takes it. -/
def WireCodec.delimited (data : Bytes) : Option Bytes := (W.delimit data).toOption

def WireCodec.fits (f : ResponseFrame) : Bool := (sendFrame W f).isOk

/-! ## The size of a frame

The sizes follow the specification of the encoding: an integer takes one byte below 251, and
otherwise a mark and the two, four or eight bytes it fits in; a sequence is its length and its
elements; a `bool` and the number of a variant take one byte.

A number that is longer than 64 bits has no encoding.  It counts as itself, which is more than any
frame takes, so that one formula says both whether a frame encodes and how long it is.
-/

def varintSize (n : ℕ) : ℕ :=
  if n < 251 then 1 else if n < 2 ^ 16 then 3 else if n < 2 ^ 32 then 5
  else if n < 2 ^ 64 then 9 else n

/-- The bytes of `n` bytes with their length before them. -/
def blobSize (n : ℕ) : ℕ := varintSize n + n

/-- The bytes of a `String`. -/
def stringSize (s : String) : ℕ := blobSize (utf8 s).length

/-- The bytes of a `LiteMeta`. -/
def liteSize (lite : LiteMeta) : ℕ :=
  1 + (varintSize (zigzag lite.size.toInt) + varintSize (zigzag lite.mtime.toInt))

/-- The bytes of a `LineHit`. -/
def lineHitSize (hit : LineHit) : ℕ :=
  stringSize hit.path + (varintSize hit.lineNo + stringSize hit.text)

/-- The bytes of a vector whose elements take these bytes. -/
def vecSize (sizes : List ℕ) : ℕ := varintSize sizes.length + sizes.sum

def linesSize (hits : List LineHit) : ℕ := 1 + vecSize (hits.map lineHitSize)

def batchSize (paths : List String) (lites : List LiteMeta) (kinds : List MatchKind) : ℕ :=
  1 + (vecSize (paths.map stringSize) +
    (vecSize (lites.map liteSize) + vecSize (kinds.map fun _ => 1)))

/-- The bytes of an encoded frame. -/
def ResponseFrame.size : ResponseFrame → ℕ
  | .batch paths lites kinds => batchSize paths lites kinds
  | .lines hits => linesSize hits
  | .done total => 1 + varintSize total
  | .error message => 1 + stringSize message
  | .indexAck _ message => 1 + (1 + stringSize message)

lemma varintSize_le {n : ℕ} (h : n < 2 ^ 64) : varintSize n ≤ 9 := by
  unfold varintSize
  split_ifs <;> omega

lemma varintSize_le_three {n : ℕ} (h : n < 2 ^ 16) : varintSize n ≤ 3 := by
  unfold varintSize
  split_ifs <;> omega

lemma varintSize_le_five {n : ℕ} (h : n < 2 ^ 32) : varintSize n ≤ 5 := by
  unfold varintSize
  split_ifs <;> omega

lemma zigzag_lt (x : Int64) : zigzag x.toInt < 2 ^ 64 := by
  have hlt := x.toInt_lt
  have hle := x.le_toInt
  unfold zigzag
  split <;> omega

/-! ## The hypotheses -/

/-- The maximum frame length of `LengthDelimitedCodec::new()`. -/
def maxFrameLength : ℕ := 8 * 1024 * 1024

/-- Frames are encoded to their size, and the codec takes the messages up to its maximum.  The size
is that of bincode's documented format, and the maximum the default of the codec that `framed`
makes. -/
structure WireCodec.Sizes : Prop where
  encodes : ∀ {f : ResponseFrame}, f.size < 2 ^ 64 → ∃ bytes, W.frameToVec f = .ok bytes
  size : ∀ {f : ResponseFrame} {bytes}, W.frameToVec f = .ok bytes → bytes.length = f.size
  delimits : ∀ {bytes}, (∃ v, W.delimit bytes = .ok v) ↔ bytes.length ≤ maxFrameLength

/-- What has been encoded is decoded.  The frame's numbers have to fit their fields, since others
have no encoding in the source. -/
structure WireCodec.RoundTrips : Prop where
  frame : ∀ {f : ResponseFrame} {bytes}, f.Typed → W.frameToVec f = .ok bytes →
    W.frameFromSlice bytes = .ok f
  request : ∀ {r bytes}, W.requestToVec r = .ok bytes → W.requestFromSlice bytes = .ok r

variable {W}

lemma encodeFrame_eq_ok {f : ResponseFrame} {bytes : Bytes} :
    encodeFrame W f = .ok bytes ↔ W.frameToVec f = .ok bytes := by
  unfold encodeFrame
  cases W.frameToVec f <;> simp [Except.mapError]

lemma encodeRequest_eq_ok {r : WireRequest} {bytes : Bytes} :
    encodeRequest W r = .ok bytes ↔ W.requestToVec r = .ok bytes := by
  unfold encodeRequest
  cases W.requestToVec r <;> simp [Except.mapError]

lemma sendFrame_eq_ok {f : ResponseFrame} {v : Bytes} :
    sendFrame W f = .ok v ↔ ∃ bytes, W.frameToVec f = .ok bytes ∧ W.delimit bytes = .ok v := by
  unfold sendFrame
  constructor
  · intro h
    cases henc : encodeFrame W f with
    | error e =>
        rw [henc] at h
        cases h
    | ok bytes =>
        rw [henc] at h
        exact ⟨bytes, encodeFrame_eq_ok.mp henc, h⟩
  · rintro ⟨bytes, henc, hv⟩
    rw [encodeFrame_eq_ok.mpr henc]
    exact hv

lemma WireCodec.fits_eq_true {f : ResponseFrame} :
    W.fits f = true ↔ ∃ v, sendFrame W f = .ok v := by
  unfold WireCodec.fits
  cases sendFrame W f <;> simp [Except.isOk, Except.toBool]

lemma sendFrame_of_not_fits {f : ResponseFrame} (h : W.fits f = false) :
    ∃ e, sendFrame W f = .error e := by
  cases hf : sendFrame W f with
  | error e => exact ⟨e, rfl⟩
  | ok v =>
      rw [WireCodec.fits_eq_true.mpr ⟨v, hf⟩] at h
      cases h

/-- A frame can be sent exactly when its size is at most the largest frame. -/
lemma WireCodec.Sizes.fits_iff (hW : W.Sizes) (f : ResponseFrame) :
    W.fits f = true ↔ f.size ≤ maxFrameLength := by
  rw [WireCodec.fits_eq_true]
  constructor
  · rintro ⟨v, hv⟩
    obtain ⟨bytes, henc, hdelimit⟩ := sendFrame_eq_ok.mp hv
    rw [← hW.size henc]
    exact hW.delimits.mp ⟨v, hdelimit⟩
  · intro hsize
    obtain ⟨bytes, henc⟩ := hW.encodes (f := f) (hsize.trans_lt (by decide))
    obtain ⟨v, hv⟩ := hW.delimits.mpr (hW.size henc ▸ hsize)
    exact ⟨v, sendFrame_eq_ok.mpr ⟨bytes, henc, hv⟩⟩

end DeepFinder
