import DeepFinder.Core.HashTable

/-!
# The posting codec never overflows

`encode` writes the width of a block, its exception count, the positions of the exceptions and
the number of deltas through narrowing casts, shifts values by up to 31 and sets single bits of
a frame.  `encodeChecked` is the same encoder with every one of these as an operation that can
fail; `encodeChecked_eq` says that none does.  `decodeAt` is `decode` with its final position.

`turbopfor_round_trip` puts the two together with the round trip.

Values and counts are below `2 ^ 32`, as `Vec<u32>` makes sure of, and a list has fewer than `2 ^
32` of them, as a posting of 32-bit document numbers has.  Nothing else is asked, so blocks may hold
any values in any order; only the second half, on prefix sums, is about ascending lists.
-/

namespace DeepFinder

open ByteString Chunks

namespace TurboPFor

/-! ## The encoder with checked operations -/

/-- A cast to `w` bits, which must keep its value. -/
def castTo (w n : ℕ) : Res ℕ := if n < 2 ^ w then .ok n else .error .panicked

/-- `v >> s` on 32-bit words, which overflows from 32 on. -/
def shr32 (v s : ℕ) : Res ℕ := if s < 32 then .ok (v >>> s) else .error .panicked

/-- `out[j / 8] |= 1u8 << (j % 8)`. -/
def orBitAt (out : Bytes) (j : ℕ) : Res Bytes := do
  let _byte ← byteAt out (j / 8)
  pure (orBit out j)

/-- `b < 32 && (v >> b) != 0`; the shift is only reached below 32. -/
def needsMoreChecked (b v : ℕ) : Res Bool :=
  if b < 32 then do
    let high ← shr32 v b
    pure (high != 0)
  else pure false

/-- `n as u64 * b as u64 + exc as u64 * 32` for one candidate width. -/
def costChecked (vals : List ℕ) (b : ℕ) : Res ℕ := do
  let wide ← vals.mapM (needsMoreChecked b)
  castTo 64 (vals.length * b + wide.count true * 32)

/-- The loop over the planes. -/
def frameChecked (b : ℕ) (vals : List ℕ) : Res Bytes :=
  let n := vals.length
  (List.range b).foldlM
    (fun out p => vals.zipIdx.foldlM
      (fun out vi => do
        let low ← shr32 vi.1 p
        if low &&& 1 = 1 then orBitAt out (p * n + vi.2) else pure out) out)
    (List.replicate ((n * b + 7) / 8) 0)

def exceptionChecked (b : ℕ) (vi : ℕ × ℕ) : Res Bytes := do
  if ← needsMoreChecked b vi.1 then
    let pos ← castTo 16 vi.2
    pure (toLE 2 pos ++ toLE 4 vi.1)
  else pure []

/-- `encode_block`. -/
def encodeBlockChecked (vals : List ℕ) : Res Bytes := do
  let _costs ← (candidateWidths vals).mapM (costChecked vals)
  let b ← castTo 8 (bestWidth vals)
  let exc ← castTo 16 (excCount b vals)
  let fr ← frameChecked b vals
  let recs ← vals.zipIdx.mapM (exceptionChecked b)
  pure ([UInt8.ofNat b] ++ toLE 2 exc ++ fr ++ recs.flatten)

/-- `encode`. -/
def encodeChecked (deltas : List ℕ) : Res Bytes := do
  let n ← castTo 32 deltas.length
  let blocks ← (chunks blockLen deltas).mapM encodeBlockChecked
  pure ([1] ++ toLE 4 n ++ blocks.flatten)

/-! ## No check fails -/

lemma castTo_eq {w n : ℕ} (h : n < 2 ^ w) : castTo w n = .ok n := if_pos h

lemma shr32_eq {s : ℕ} (h : s < 32) (v : ℕ) : shr32 v s = .ok (v >>> s) := if_pos h

lemma orBitAt_eq {out : Bytes} {j : ℕ} (h : j / 8 < out.length) :
    orBitAt out j = .ok (orBit out j) := by
  rw [orBitAt, byteAt_eq_ok h]
  rfl

lemma needsMoreChecked_eq (b v : ℕ) : needsMoreChecked b v = .ok (needsMore b v) := by
  unfold needsMoreChecked needsMore
  by_cases hb : b < 32
  · rw [if_pos hb, shr32_eq hb, decide_eq_true hb, Bool.true_and]
    rfl
  · rw [if_neg hb, decide_eq_false hb, Bool.false_and]
    rfl

lemma excCount_eq_count (b : ℕ) (vals : List ℕ) :
    (vals.map (needsMore b)).count true = excCount b vals := by
  rw [excCount, List.count, List.countP_map]
  refine List.countP_congr fun v _ => ?_
  simp

lemma costChecked_eq {vals : List ℕ} (hlen : vals.length ≤ blockLen) {b : ℕ} (hb : b ≤ 32) :
    costChecked vals b = .ok (cost vals b) := by
  have hexc := excCount_le b vals
  have hmul : vals.length * b ≤ blockLen * 32 := Nat.mul_le_mul hlen hb
  have h128 : blockLen = 128 := rfl
  rw [costChecked, mapM_eq_ok fun v _ => needsMoreChecked_eq b v, bind_ok, excCount_eq_count]
  exact castTo_eq (by omega)

lemma foldlM_eq_ok {α β : Type} {f : β → α → Res β} {g : β → α → β} {I : β → Prop} {l : List α}
    (hstep : ∀ acc x, I acc → x ∈ l → f acc x = .ok (g acc x) ∧ I (g acc x)) {acc : β}
    (hacc : I acc) : l.foldlM f acc = .ok (l.foldl g acc) ∧ I (l.foldl g acc) := by
  induction l generalizing acc with
  | nil => exact ⟨rfl, hacc⟩
  | cons x l ih =>
      obtain ⟨hx, hI⟩ := hstep acc x hacc (List.mem_cons_self ..)
      rw [List.foldlM_cons, hx, bind_ok, List.foldl_cons]
      exact ih (fun acc y h hy => hstep acc y h (List.mem_cons_of_mem _ hy)) hI

/-- Every bit of a plane lies inside the frame. -/
lemma frameChecked_eq {b : ℕ} (hb : b ≤ 32) (vals : List ℕ) :
    frameChecked b vals = .ok (frame b vals) := by
  have hlen : ∀ out : Bytes, ∀ p i, out.length = (vals.length * b + 7) / 8 → p < b →
      i < vals.length → (p * vals.length + i) / 8 < out.length := by
    intro out p i hout hp hi
    have := plane_index_lt hp hi
    omega
  refine (@foldlM_eq_ok _ _ _ _ (fun out : Bytes => out.length = (vals.length * b + 7) / 8) _ ?_ _ ?_).1
  · intro out p hout hp
    have hpb := List.mem_range.mp hp
    refine @foldlM_eq_ok _ _ _ _ (fun out : Bytes => out.length = (vals.length * b + 7) / 8) _ ?_ _ hout
    rintro out ⟨v, i⟩ hout hmem
    obtain ⟨hi, -⟩ := List.getElem?_eq_some_iff.mp (List.mem_zipIdx_iff_getElem?.mp hmem)
    rw [shr32_eq (by omega), bind_ok]
    dsimp only
    split
    · exact ⟨orBitAt_eq (hlen out p i hout hpb hi), (length_orBit ..).trans hout⟩
    · exact ⟨rfl, hout⟩
  · exact List.length_replicate ..

lemma exceptionChecked_eq {b : ℕ} {vi : ℕ × ℕ} (hi : vi.2 < 2 ^ 16) :
    exceptionChecked b vi =
      .ok (if needsMore b vi.1 then toLE 2 vi.2 ++ toLE 4 vi.1 else []) := by
  rw [exceptionChecked, needsMoreChecked_eq, bind_ok]
  split
  · rw [castTo_eq hi]
    rfl
  · rfl

lemma encodeBlockChecked_eq {vals : List ℕ} (hlen : vals.length ≤ blockLen)
    (hv : ∀ v ∈ vals, v < 2 ^ 32) : encodeBlockChecked vals = .ok (encodeBlock vals) := by
  obtain ⟨-, hb⟩ := bestWidth_bounds hlen hv
  have hexc := excCount_le (bestWidth vals) vals
  have h128 : blockLen = 128 := rfl
  have hcosts : (candidateWidths vals).mapM (costChecked vals) =
      .ok ((candidateWidths vals).map (cost vals)) := by
    refine mapM_eq_ok fun b hmem => costChecked_eq hlen ?_
    have := maxBits_le hv
    rcases mem_candidateWidths.mp hmem with h | h <;> omega
  have hrecs : vals.zipIdx.mapM (exceptionChecked (bestWidth vals)) =
      .ok (vals.zipIdx.map fun vi =>
        if needsMore (bestWidth vals) vi.1 then toLE 2 vi.2 ++ toLE 4 vi.1 else []) := by
    refine mapM_eq_ok fun vi hmem => exceptionChecked_eq ?_
    obtain ⟨hi, -⟩ := List.getElem?_eq_some_iff.mp (List.mem_zipIdx_iff_getElem?.mp hmem)
    omega
  rw [encodeBlockChecked, hcosts, bind_ok, castTo_eq (by omega), bind_ok, castTo_eq (by omega),
    bind_ok, frameChecked_eq hb, bind_ok, hrecs, bind_ok]
  rw [encodeBlock, exceptions, List.flatMap]
  rfl

/-- The encoder never truncates a value, shifts too far or leaves its frame. -/
theorem encodeChecked_eq {deltas : List ℕ} (hlen : deltas.length < 2 ^ 32)
    (hv : ∀ v ∈ deltas, v < 2 ^ 32) : encodeChecked deltas = .ok (encode deltas) := by
  have hblocks : (chunks blockLen deltas).mapM encodeBlockChecked =
      .ok ((chunks blockLen deltas).map encodeBlock) := by
    refine mapM_eq_ok fun block hmem => ?_
    refine encodeBlockChecked_eq (length_le_of_mem_chunks (by decide) deltas block hmem) ?_
    intro v hvb
    refine hv v ?_
    rw [← flatten_chunks (show 0 < blockLen by decide) deltas]
    exact List.mem_flatten.mpr ⟨block, hmem, hvb⟩
  rw [encodeChecked, castTo_eq hlen, bind_ok, hblocks, bind_ok, encode, List.flatMap]
  rfl

/-! ## The round trip -/

/-- Encoding and decoding gives a list of deltas back: nothing is truncated, no shift or index is
out of range, and the decoder stops exactly at the end of the encoding.  So an ascending posting
list comes back from its deltas, and its prefix sums do not overflow. -/
theorem turbopfor_round_trip :
    (∀ ds : List ℕ, ds.length < 2 ^ 32 → (∀ v ∈ ds, v < 2 ^ 32) →
      encodeChecked ds = .ok (encode ds) ∧
        decode (encode ds) ds.length = .ok ds ∧
        (ds ≠ [] → ∀ post,
          decodeAt (encode ds ++ post) ds.length = .ok (ds, (encode ds).length))) ∧
    ∀ docids : List ℕ, docids.Pairwise (· < ·) → (∀ d ∈ docids, d < 2 ^ 32) →
      (decode (encode (deltas 0 docids)) docids.length >>= prefixSums 0) = .ok docids := by
  refine ⟨fun ds hlen hv => ⟨encodeChecked_eq hlen hv, decode_encode hv, decodeAt_encode hv⟩, ?_⟩
  intro docids hasc hlt
  have hdec := decode_encode (deltas_lt hlt 0)
  rw [length_deltas] at hdec
  rw [hdec, bind_ok]
  exact prefixSums_deltas hasc 0 fun d hd => ⟨Nat.zero_le d, hlt d hd⟩

/-- Two deltas, one of them an exception, and the posting list they come from. -/
theorem turbopfor_round_trip_exception :
    decode (encode [3, 4294967292]) 2 = .ok [3, 4294967292] ∧
      (decode (encode (deltas 0 [3, 4294967295])) 2 >>= prefixSums 0) = .ok [3, 4294967295] :=
  ⟨(turbopfor_round_trip.1 [3, 4294967292] (by decide) (by decide)).2.1,
    turbopfor_round_trip.2 [3, 4294967295] (by decide) (by decide)⟩

end TurboPFor

end DeepFinder
