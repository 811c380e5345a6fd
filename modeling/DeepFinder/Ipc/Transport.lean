import DeepFinder.Core.Basic
import DeepFinder.Lib.Framed

/-!
# The transport

A side of a connection reads the stream in pieces, as they arrive, and takes messages off them.  The
decoder is that of tokio-util's codec, which is not part of the repository: here it is any decoder
`D`, of which the lemmas ask that it reads back what is written (`Decoder.Reads`).

The pieces are any division of the stream, and the stream may end at any place, by its end or by an
error.  A message is handed on as soon as it is complete, and what is left in the buffer at the end
is no message.
-/

namespace DeepFinder

open ByteString

/-- Why there is nothing more to read. -/
inductive StreamEnd where
  /-- the other side has closed the stream -/
  | closed
  | failed (e : String)
  deriving DecidableEq, Repr

section Reading

variable {σ : Type} (D : Framed.Decoder σ UInt8 Bytes String) (s₀ : σ)

/-- The messages that are read from a stream that arrives in these pieces and then ends, and the
error that is read after them. -/
def received (pieces : List Bytes) (ending : StreamEnd) : List Bytes × Option String :=
  let d := D.feed (.waiting s₀ []) pieces
  (d.1, match d.2, ending with
    | .failed e, _ => some e
    | .waiting _ _, .failed e => some e
    | .waiting _ [], .closed => none
    | .waiting _ (_ :: _), .closed => some "bytes remaining on stream")

variable {D s₀} {enc : Bytes → Option Bytes} {msgs vs pieces : List Bytes} (ending : StreamEnd)

lemma received_flatten (h : D.Reads s₀ enc)
    (hvs : List.Forall₂ (fun m v => enc m = some v) msgs vs)
    (hpieces : pieces.flatten = vs.flatten) : (received D s₀ pieces ending).1 = msgs := by
  have hfeed := Framed.feed_eq_drain h.settled pieces
  rw [List.nil_append, hpieces, Framed.drain_flatten h hvs] at hfeed
  simp [received, hfeed]

lemma received_cut (h : D.Reads s₀ enc)
    (hvs : List.Forall₂ (fun m v => enc m = some v) msgs vs)
    (hpieces : pieces.flatten <+: vs.flatten) (hne : pieces.flatten ≠ vs.flatten) :
    ∃ j, j < msgs.length ∧ (received D s₀ pieces ending).1 = msgs.take j := by
  obtain ⟨j, s, rest, hj, hdrain⟩ := Framed.drain_cut h hvs hpieces hne
  have hfeed := Framed.feed_eq_drain h.settled pieces
  rw [List.nil_append, hdrain] at hfeed
  exact ⟨j, hj, by simp [received, hfeed]⟩

end Reading

end DeepFinder
