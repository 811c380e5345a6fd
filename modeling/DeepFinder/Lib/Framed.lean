import DeepFinder.Lib.Codec

/-!
# Streams cut into frames

A decoder is called on a buffer whenever something has been read into it.  It takes a frame off the
front, or asks for more, or fails.  What it asks for may depend on a state, in which it remembers
what it has already taken off a frame that is not complete.

A `Decoder` is incremental: what it says of a buffer it says of a longer one.  So the frames of a
stream do not depend on the pieces in which it is read (`feed_eq_drain`).  If it reads back what an
encoder writes (`Decoder.Reads`), a stream of encoded frames is cut into these frames
(`drain_flatten`), and what is left of it after a cut into the frames before the cut (`drain_cut`).
-/

namespace Framed

/-! ## Decoders -/

/-- What one call of a decoder makes of the buffer. -/
inductive Decoded (σ β φ ε : Type) where
  /-- a frame, and the buffer behind it -/
  | frame (f : φ) (s : σ) (rest : List β)
  /-- there is no whole frame in the buffer -/
  | more (s : σ) (rest : List β)
  | failed (e : ε)
  deriving DecidableEq

/-- An incremental decoder with its states `σ`. -/
structure Decoder (σ β φ ε : Type) where
  decode : σ → List β → Decoded σ β φ ε
  /-- how many frames can be taken off the buffer, at most -/
  size : σ → List β → ℕ
  size_frame : ∀ {s buf f s' rest}, decode s buf = .frame f s' rest → size s' rest < size s buf
  frame_append : ∀ {s buf f s' rest} (x : List β), decode s buf = .frame f s' rest →
    decode s (buf ++ x) = .frame f s' (rest ++ x)
  more_append : ∀ {s buf s' rest} (x : List β), decode s buf = .more s' rest →
    decode s (buf ++ x) = decode s' (rest ++ x)
  failed_append : ∀ {s buf e} (x : List β), decode s buf = .failed e →
    decode s (buf ++ x) = .failed e

/-- Where a stream is when its decoder has no further frame. -/
inductive Rest (σ β ε : Type) where
  | waiting (s : σ) (buf : List β)
  | failed (e : ε)
  deriving DecidableEq

variable {σ β φ ε : Type} (D : Decoder σ β φ ε)

/-- The decoder called until it has no further frame, on fuel for the frames. -/
def Decoder.drainLoop : ℕ → σ → List β → List φ × Rest σ β ε
  | 0, s, buf => ([], .waiting s buf)
  | fuel + 1, s, buf =>
      match D.decode s buf with
      | .frame f s' rest => (f :: (drainLoop fuel s' rest).1, (drainLoop fuel s' rest).2)
      | .more s' rest => ([], .waiting s' rest)
      | .failed e => ([], .failed e)

def Decoder.drain (s : σ) (buf : List β) : List φ × Rest σ β ε :=
  D.drainLoop (D.size s buf + 1) s buf

/-- The stream read in pieces. -/
def Decoder.feed : Rest σ β ε → List (List β) → List φ × Rest σ β ε
  | r, [] => ([], r)
  | .failed e, _ :: _ => ([], .failed e)
  | .waiting s buf, piece :: pieces =>
      let d := D.drain s (buf ++ piece)
      (d.1 ++ (feed d.2 pieces).1, (feed d.2 pieces).2)

variable {D}

/-! ## The pieces of a stream -/

lemma drainLoop_eq {n m : ℕ} {s : σ} {buf : List β} (hn : D.size s buf < n)
    (hm : D.size s buf < m) : D.drainLoop n s buf = D.drainLoop m s buf := by
  induction n generalizing m s buf with
  | zero => omega
  | succ n ih =>
      obtain ⟨m, rfl⟩ : ∃ k, m = k + 1 := ⟨m - 1, by omega⟩
      rw [Decoder.drainLoop, Decoder.drainLoop]
      cases hd : D.decode s buf with
      | frame f s' rest =>
          have hlt := D.size_frame hd
          have hrest : D.drainLoop n s' rest = D.drainLoop m s' rest := ih (by omega) (by omega)
          simp only [hrest]
      | more s' rest => rfl
      | failed e => rfl

lemma drain_of_frame {s s' : σ} {buf rest : List β} {f : φ}
    (h : D.decode s buf = .frame f s' rest) :
    D.drain s buf = (f :: (D.drain s' rest).1, (D.drain s' rest).2) := by
  have hrest : D.drainLoop (D.size s buf) s' rest = D.drain s' rest :=
    drainLoop_eq (D.size_frame h) (Nat.lt_succ_self _)
  rw [Decoder.drain, Decoder.drainLoop, h]
  simp only [hrest]

lemma drain_of_more {s s' : σ} {buf rest : List β} (h : D.decode s buf = .more s' rest) :
    D.drain s buf = ([], .waiting s' rest) := by
  rw [Decoder.drain, Decoder.drainLoop, h]

lemma drain_of_failed {s : σ} {buf : List β} {e : ε} (h : D.decode s buf = .failed e) :
    D.drain s buf = ([], .failed e) := by
  rw [Decoder.drain, Decoder.drainLoop, h]

/-- What a longer buffer yields: the frames of the shorter one, and then those of what is left of
it together with the rest. -/
def Decoder.resume (D : Decoder σ β φ ε) (x : List β) : Rest σ β ε → List φ × Rest σ β ε
  | .waiting s rest => D.drain s (rest ++ x)
  | .failed e => ([], .failed e)

lemma drain_append (s : σ) (buf x : List β) :
    D.drain s (buf ++ x) = ((D.drain s buf).1 ++ (D.resume x (D.drain s buf).2).1,
      (D.resume x (D.drain s buf).2).2) := by
  induction hsize : D.size s buf using Nat.strongRecOn generalizing s buf with
  | ind n ih =>
      cases hd : D.decode s buf with
      | frame f s' rest =>
          have hrest := ih _ (hsize ▸ D.size_frame hd) s' rest rfl
          rw [drain_of_frame hd, drain_of_frame (D.frame_append x hd), hrest]
          rfl
      | more s' rest =>
          have hsame : D.drain s (buf ++ x) = D.drain s' (rest ++ x) := by
            have happend := D.more_append x hd
            cases hd' : D.decode s' (rest ++ x) with
            | frame f t l => rw [drain_of_frame hd', drain_of_frame (happend.trans hd')]
            | more t l => rw [drain_of_more hd', drain_of_more (happend.trans hd')]
            | failed e => rw [drain_of_failed hd', drain_of_failed (happend.trans hd')]
          rw [drain_of_more hd, hsame]
          rfl
      | failed e =>
          rw [drain_of_failed hd, drain_of_failed (D.failed_append x hd)]
          rfl

/-- The frames of a stream, and what is left of it, do not depend on its pieces. -/
theorem feed_eq_drain {s : σ} {buf : List β} (h : D.drain s buf = ([], .waiting s buf))
    (pieces : List (List β)) :
    D.feed (.waiting s buf) pieces = D.drain s (buf ++ pieces.flatten) := by
  have hfeed : ∀ r : Rest σ β ε, (∀ t l, r = .waiting t l → D.drain t l = ([], r)) →
      D.feed r pieces = D.resume pieces.flatten r := by
    induction pieces with
    | nil =>
        intro r hr
        cases r with
        | waiting t l =>
            rw [List.flatten_nil, Decoder.resume, List.append_nil, hr t l rfl, Decoder.feed]
        | failed e => rfl
    | cons piece pieces ih =>
        intro r hr
        cases r with
        | failed e => rfl
        | waiting t l =>
            have hsettled : ∀ t' l', (D.drain t (l ++ piece)).2 = .waiting t' l' →
                D.drain t' l' = ([], (D.drain t (l ++ piece)).2) := by
              intro t' l' hwait
              have happend := drain_append (D := D) t (l ++ piece) []
              rw [hwait, List.append_nil, Decoder.resume, List.append_nil] at happend
              have hfst := congrArg Prod.fst happend
              have hsnd := congrArg Prod.snd happend
              have hnil : (D.drain t' l').1 = [] := by simpa using hfst
              exact Prod.ext hnil hsnd.symm
            rw [Decoder.feed, ih _ hsettled, List.flatten_cons, Decoder.resume,
              ← List.append_assoc, drain_append t (l ++ piece)]
  exact hfeed _ fun t l ht => by cases ht; exact h

/-! ## Encoded frames -/

/-- The decoder, in the state `s₀`, reads back what the encoder writes, and waits for the rest of
what has been cut off. -/
structure Decoder.Reads (D : Decoder σ β φ ε) (s₀ : σ) (enc : φ → Option (List β)) : Prop where
  nil : D.decode s₀ [] = .more s₀ []
  frame : ∀ {f v}, enc f = some v → D.decode s₀ v = .frame f s₀ []
  cut : ∀ {f v p}, enc f = some v → p <+: v → p ≠ v → ∃ s rest, D.decode s₀ p = .more s rest

section Reads

variable {s₀ : σ} {enc : φ → Option (List β)}

lemma Decoder.Reads.settled (h : D.Reads s₀ enc) : D.drain s₀ [] = ([], .waiting s₀ []) :=
  drain_of_more h.nil

/-- A stream of encoded frames is cut into these frames. -/
theorem drain_flatten (h : D.Reads s₀ enc) {fs : List φ} {vs : List (List β)}
    (hvs : List.Forall₂ (fun f v => enc f = some v) fs vs) :
    D.drain s₀ vs.flatten = (fs, .waiting s₀ []) := by
  induction hvs with
  | nil => exact h.settled
  | cons hv _ ih =>
      rename_i f v fs vs hvs
      have hframe := D.frame_append vs.flatten (h.frame hv)
      rw [List.flatten_cons, drain_of_frame hframe, List.nil_append, ih]

/-- A stream of encoded frames that is cut off holds the frames before the cut. -/
theorem drain_cut (h : D.Reads s₀ enc) {fs : List φ} {vs : List (List β)}
    (hvs : List.Forall₂ (fun f v => enc f = some v) fs vs) {p : List β} (hp : p <+: vs.flatten)
    (hne : p ≠ vs.flatten) :
    ∃ j s rest, j < fs.length ∧ D.drain s₀ p = (fs.take j, .waiting s rest) := by
  induction hvs generalizing p with
  | nil => exact absurd (List.prefix_nil.mp hp) hne
  | cons hv hvs ih =>
      rename_i f v fs vs
      rw [List.flatten_cons] at hp hne
      rcases Codec.cut_append hp hne with ⟨hcut, hnev⟩ | ⟨q, rfl, hq, hneq⟩
      · obtain ⟨s, rest, hmore⟩ := h.cut hv hcut hnev
        exact ⟨0, s, rest, Nat.succ_pos _, drain_of_more hmore⟩
      · obtain ⟨j, s, rest, hj, hdrain⟩ := ih hq hneq
        refine ⟨j + 1, s, rest, Nat.succ_lt_succ hj, ?_⟩
        have hframe := D.frame_append q (h.frame hv)
        rw [drain_of_frame hframe, List.nil_append, hdrain, List.take_succ_cons]

end Reads

end Framed
