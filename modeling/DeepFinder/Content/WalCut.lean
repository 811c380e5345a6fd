import DeepFinder.Content.Bincode
import Mathlib.Data.List.Forall2
import Mathlib.Data.Nat.Find

/-!
# A log cut anywhere

A crash can cut the log at any byte.  `decode_records` returns the records whose frames are
complete in what is left, and no others (`decode_cut`); on bytes that are no log it stops too.

Frames are what `encode_record` writes: four bytes with the length of the body, and the body, which
bincode encodes (`Bincode`, with `Bincode.Lawful` for its round trip).  A body of `2 ^ 32` bytes or
more would not fit its length field, and `append` refuses no record for that, so the bound on the
bodies is named.
-/

namespace DeepFinder

open ByteString

/-- How many of the frames lie within the first `k` bytes of the log. -/
def completeFrames (frames : List Bytes) (k : ℕ) : ℕ :=
  Nat.findGreatest (fun m => (frames.take m).flatten.length ≤ k) frames.length

/-- The loop stops on every byte string, whatever bincode makes of it. -/
lemma decodeLoop_stops (B : Bincode) (bytes : Bytes) {fuel p : ℕ} (out : List WalRecord)
    (h : (bytes.length - p) / 4 < fuel) : ∃ recs, decodeLoop B bytes fuel p out = .ok recs := by
  induction fuel generalizing p out with
  | zero => exact absurd h (Nat.not_lt_zero _)
  | succ fuel ih =>
      rw [decodeLoop]
      by_cases hp : p + 4 ≤ bytes.length
      · rw [if_pos hp, leU32, leAt, sliceAt_eq_ok (subslice_eq_some hp), bind_ok, pure_bind]
        generalize ofLE ((bytes.drop p).take 4) = n
        by_cases hcut : p + 4 + n > bytes.length
        · exact ⟨out, by rw [if_pos hcut]; rfl⟩
        · rw [if_neg hcut, sliceAt_eq_ok (subslice_eq_some (Nat.le_of_not_gt hcut)), bind_ok]
          cases B.decodeFromSlice ((bytes.drop (p + 4)).take n) with
          | error e => exact ⟨out, rfl⟩
          | ok r => exact ih _ (by omega)
      · exact ⟨out, by rw [if_neg hp]; rfl⟩

/-- `decode_records` returns on every byte string. -/
theorem decodeRecords_returns (B : Bincode) (bytes : Bytes) :
    ∃ recs, decodeRecords B bytes = .ok recs :=
  decodeLoop_stops B bytes [] (Nat.lt_succ_self _)

section Cut

variable {B : Bincode} {recs : List WalRecord} {frames : List Bytes}

/-- Frames one after the other. -/
lemma frames_of_forall₂ (h : List.Forall₂ (IsFrame B) recs frames) :
    Frames B recs frames.flatten := by
  induction frames using List.reverseRecOn generalizing recs with
  | nil =>
      rw [List.forall₂_nil_right_iff.mp h]
      exact .nil
  | append_singleton frames frame ih =>
      have htake := List.forall₂_take_append _ _ _ h
      have hdrop := List.forall₂_drop_append _ _ _ h
      obtain ⟨r, rs, hr, hnil, hrecs⟩ := List.forall₂_cons_right_iff.mp hdrop
      rw [← List.take_append_drop frames.length recs, hrecs, List.forall₂_nil_right_iff.mp hnil,
        List.flatten_append, List.flatten_singleton]
      exact .snoc (ih htake) hr

/-- What the cut leaves behind the complete frames is nothing, or a torn frame. -/
lemma cut_tail (h : List.Forall₂ (IsFrame B) recs frames) (k : ℕ) :
    ∃ tail, frames.flatten.take k = (frames.take (completeFrames frames k)).flatten ++ tail ∧
      (tail = [] ∨ IsTornFrame B tail) := by
  have hfits : (frames.take (completeFrames frames k)).flatten.length ≤ k :=
    @Nat.findGreatest_spec 0 (fun m => (frames.take m).flatten.length ≤ k) _ _
      (Nat.zero_le _) (by simp)
  have hle : completeFrames frames k ≤ frames.length := Nat.findGreatest_le _
  rcases hle.eq_or_lt with hall | hlt
  · refine ⟨[], ?_, Or.inl rfl⟩
    rw [hall, List.take_length] at hfits ⊢
    rw [List.take_of_length_le hfits, List.append_nil]
  · -- the next frame would overrun the cut
    have hnext : ¬ (frames.take (completeFrames frames k + 1)).flatten.length ≤ k :=
      @Nat.findGreatest_is_greatest _ (fun m => (frames.take m).flatten.length ≤ k) _ _
        (Nat.lt_succ_self _) hlt
    generalize completeFrames frames k = m at *
    rw [List.take_succ_eq_append_getElem hlt, List.flatten_append, List.flatten_singleton,
      List.length_append] at hnext
    have hsplit : frames.flatten =
        (frames.take m).flatten ++ (frames[m] ++ (frames.drop (m + 1)).flatten) := by
      rw [← List.flatten_cons, ← List.drop_eq_getElem_cons hlt, ← List.flatten_append,
        List.take_append_drop]
    have hcut : k - (frames.take m).flatten.length < frames[m].length := by omega
    refine ⟨frames[m].take (k - (frames.take m).flatten.length), ?_, Or.inr ?_⟩
    · rw [hsplit, List.take_append, List.take_of_length_le hfits,
        List.take_append_of_le_length hcut.le]
    · have hlen := h.length_eq
      refine ⟨recs[m], frames[m], h.get (by omega) hlt, ?_, List.take_prefix _ _⟩
      rw [List.length_take]
      omega

/-- A log cut at any byte decodes to the records whose frames are complete, and decoding ends on
every byte string.  The frames are those that `encode_record` made of the records, and the cut may
fall on a boundary between them, into a length or into a body. -/
theorem decode_cut (B : Bincode) :
    (∀ bytes, ∃ recs, decodeRecords B bytes = .ok recs) ∧
      (B.Lawful → ∀ recs frames,
        List.Forall₂ (fun r frame => encodeRecord B r = .ok frame) recs frames →
        (∀ r ∈ recs, ∀ body, B.encodeToVec r = .ok body → body.length < 2 ^ 32) →
        ∀ k, decodeRecords B (frames.flatten.take k) =
          .ok (recs.take (completeFrames frames k))) := by
  refine ⟨decodeRecords_returns B, fun hB recs frames hencode hshort k => ?_⟩
  have hframes : List.Forall₂ (IsFrame B) recs frames := by
    refine List.forall₂_iff_get.mpr ⟨hencode.length_eq, fun i hi hi' => ?_⟩
    obtain ⟨body, hbody, hframe⟩ := encodeRecord_eq_ok (hencode.get hi hi')
    exact ⟨body, hbody, hshort _ (List.get_mem recs ⟨i, hi⟩) body hbody, hframe⟩
  obtain ⟨tail, hcut, htail⟩ := cut_tail hframes k
  rw [hcut]
  exact decodeRecords_frames hB (frames_of_forall₂ (List.forall₂_take _ hframes)) htail

/-- A log of two records, cut inside the second frame. -/
theorem decode_cut_second_frame :
    (∀ bytes, ∃ recs, decodeRecords standardBincode bytes = .ok recs) ∧
      decodeRecords standardBincode
        ([[3, 0, 0, 0, 1, 1, 97], [3, 0, 0, 0, 1, 1, 98]].flatten.take 13) =
          .ok [.delete "a"] := by
  have hcut := decode_cut standardBincode
  refine ⟨hcut.1, ?_⟩
  have hencode : List.Forall₂ (fun r frame => encodeRecord standardBincode r = .ok frame)
      [.delete "a", .delete "b"] [[3, 0, 0, 0, 1, 1, 97], [3, 0, 0, 0, 1, 1, 98]] :=
    .cons (by decide +kernel) (.cons (by decide +kernel) .nil)
  have hshort : ∀ r ∈ [WalRecord.delete "a", .delete "b"], ∀ body,
      standardBincode.encodeToVec r = .ok body → body.length < 2 ^ 32 := by
    intro r hr body hbody
    rcases List.mem_pair.mp hr with rfl | rfl
    · rw [← Except.ok.inj hbody]
      decide +kernel
    · rw [← Except.ok.inj hbody]
      decide +kernel
  exact hcut.2 standardBincode_lawful _ _ hencode hshort 13

end Cut

end DeepFinder
