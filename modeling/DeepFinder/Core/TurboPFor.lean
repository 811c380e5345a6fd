import DeepFinder.Core.Basic
import DeepFinder.Lib.Bits
import DeepFinder.Lib.Chunks
import Mathlib.Algebra.BigOperators.Ring.List
import Mathlib.Algebra.Order.BigOperators.Group.List

/-!
# The posting codec

A posting list is a strictly ascending list of document ids; its deltas are written in blocks of
128 as a bit-plane frame of the low `b` bits of each delta, followed by the deltas that need more
than `b` bits.  The width `b` minimises `n * b + 32 * exceptions`.

The main results are the round trip `decode_encode` and the size bound `length_encode_lt`, which
keeps the `as u32` cast of an encoded posting's length lossless.
-/

namespace DeepFinder

open ByteString Chunks

namespace TurboPFor

/-- `BLOCK`. -/
def blockLen : ℕ := 128

/-! ## Encoding -/

/-- `if v == 0 { 1 } else { 32 - v.leading_zeros() }`. -/
def bitWidth (v : ℕ) : ℕ := if v = 0 then 1 else v.log2 + 1

/-- `b < 32 && (v >> b) != 0`. -/
def needsMore (b v : ℕ) : Bool := decide (b < 32) && (v >>> b != 0)

/-- The width needed by the largest value of a block, at least 1. -/
def maxBits (vals : List ℕ) : ℕ :=
  vals.foldl (fun m v => if m < bitWidth v then bitWidth v else m) 1

/-- The candidate widths `1..=max_bits`, plus 32 when it is not among them. -/
def candidateWidths (vals : List ℕ) : List ℕ :=
  let bs := List.range' 1 (maxBits vals)
  if 32 ∈ bs then bs else bs ++ [32]

/-- The number of values that do not fit in `b` bits. -/
def excCount (b : ℕ) (vals : List ℕ) : ℕ := vals.countP (needsMore b)

/-- `n * b + exc * 32`. -/
def cost (vals : List ℕ) (b : ℕ) : ℕ := vals.length * b + excCount b vals * 32

/-- The width chosen for a block: the first candidate of least cost. -/
def bestWidth (vals : List ℕ) : ℕ :=
  ((candidateWidths vals).foldl
    (fun best b => if cost vals b < best.2 then (b, cost vals b) else best)
    (32, 2 ^ 64 - 1)).1

/-- The packed frame: bit `p` of value `i` is bit `p * n + i`. -/
def frame (b : ℕ) (vals : List ℕ) : Bytes :=
  let n := vals.length
  (List.range b).foldl
    (fun out p => vals.zipIdx.foldl
      (fun out vi => if vi.1 >>> p &&& 1 = 1 then orBit out (p * n + vi.2) else out) out)
    (List.replicate ((n * b + 7) / 8) 0)

/-- The `(pos, value)` records of the values from index `i` on that do not fit in `b` bits. -/
def exceptions (b : ℕ) (vals : List ℕ) (i : ℕ) : Bytes :=
  (vals.zipIdx i).flatMap fun vi =>
    if needsMore b vi.1 then toLE 2 vi.2 ++ toLE 4 vi.1 else []

/-- `encode_block`. -/
def encodeBlock (vals : List ℕ) : Bytes :=
  let b := bestWidth vals
  [UInt8.ofNat b] ++ toLE 2 (excCount b vals) ++ frame b vals ++ exceptions b vals 0

/-- `encode`: the version byte, the count and the blocks. -/
def encode (deltas : List ℕ) : Bytes :=
  [1] ++ toLE 4 deltas.length ++ (chunks blockLen deltas).flatMap encodeBlock

/-! ## Decoding -/

/-- One plane: `if (frame[j / 8] >> (j % 8)) & 1 == 1 { *val |= 1 << p }`, where the shift
overflows from 32 on. -/
def decodePlane (fr : Bytes) (n p : ℕ) (vals : List ℕ) : Res (List ℕ) :=
  vals.zipIdx.mapM fun vi => do
    let byte ← byteAt fr ((p * n + vi.2) / 8)
    if byte.toNat.testBit ((p * n + vi.2) % 8) then
      if p < 32 then pure (vi.1 ||| 1 <<< p) else .error .panicked
    else pure vi.1

/-- Read `count` exceptions at `pos` and overwrite the values they name. -/
def decodeExceptions (buf : Bytes) : ℕ → ℕ → List ℕ → Res (List ℕ × ℕ)
  | 0, pos, vals => pure (vals, pos)
  | count + 1, pos, vals => do
      let p ← leAt buf pos 2
      let v ← leAt buf (pos + 2) 4
      if p < vals.length then decodeExceptions buf count (pos + 6) (vals.set p v)
      else .error .panicked

/-- `decode_block`: the `n` values at `pos` and the position behind them. -/
def decodeBlock (buf : Bytes) (pos n : ℕ) : Res (List ℕ × ℕ) := do
  let b ← byteAt buf pos
  let exc ← leAt buf (pos + 1) 2
  let fr ← sliceAt buf (pos + 3) ((n * b.toNat + 7) / 8)
  let vals ← (List.range b.toNat).foldlM (fun vals p => decodePlane fr n p vals)
    (List.replicate n 0)
  decodeExceptions buf exc (pos + 3 + (n * b.toNat + 7) / 8) vals

/-- `while remaining > 0`. -/
def decodeLoop (buf : Bytes) : ℕ → ℕ → ℕ → List ℕ → Res (List ℕ)
  | 0, _, _, out => pure out
  | fuel + 1, pos, remaining, out =>
      if remaining = 0 then pure out
      else do
        let (vals, pos) ← decodeBlock buf pos (min remaining blockLen)
        decodeLoop buf fuel pos (remaining - min remaining blockLen) (out ++ vals)

/-- `decode`: exactly `count` deltas.  Each pass takes at least one, so `count` passes do. -/
def decode (buf : Bytes) (count : ℕ) : Res (List ℕ) :=
  if count = 0 then pure [] else decodeLoop buf count 5 count []

/-! ## The chosen width -/

lemma lt_two_pow_bitWidth (v : ℕ) : v < 2 ^ bitWidth v := by
  unfold bitWidth
  split
  · omega
  · exact Nat.lt_log2_self

lemma bitWidth_le {v : ℕ} (hv : v < 2 ^ 32) : bitWidth v ≤ 32 := by
  unfold bitWidth
  split
  · omega
  · rename_i hne
    exact (Nat.log2_lt hne).mpr hv

lemma foldl_maxBits (vals : List ℕ) (m : ℕ) :
    m ≤ vals.foldl (fun m v => if m < bitWidth v then bitWidth v else m) m ∧
      (∀ v ∈ vals,
        bitWidth v ≤ vals.foldl (fun m v => if m < bitWidth v then bitWidth v else m) m) ∧
      ((∀ v ∈ vals, v < 2 ^ 32) → m ≤ 32 →
        vals.foldl (fun m v => if m < bitWidth v then bitWidth v else m) m ≤ 32) := by
  induction vals generalizing m with
  | nil => simp
  | cons v vals ih =>
      obtain ⟨hm, hall, hbound⟩ := ih (if m < bitWidth v then bitWidth v else m)
      simp only [List.foldl_cons]
      refine ⟨le_trans (by split <;> omega) hm, fun w hw => ?_, fun h32 hm32 => ?_⟩
      · rcases List.mem_cons.mp hw with rfl | hw
        · exact le_trans (by split <;> omega) hm
        · exact hall w hw
      · refine hbound (fun w hw => h32 w (List.mem_cons_of_mem _ hw)) ?_
        have := bitWidth_le (h32 v (List.mem_cons_self ..))
        split <;> omega

lemma one_le_maxBits (vals : List ℕ) : 1 ≤ maxBits vals := (foldl_maxBits vals 1).1

lemma bitWidth_le_maxBits {vals : List ℕ} {v : ℕ} (hv : v ∈ vals) :
    bitWidth v ≤ maxBits vals := (foldl_maxBits vals 1).2.1 v hv

lemma maxBits_le {vals : List ℕ} (h : ∀ v ∈ vals, v < 2 ^ 32) : maxBits vals ≤ 32 :=
  (foldl_maxBits vals 1).2.2 h (by omega)

lemma mem_candidateWidths {vals : List ℕ} {b : ℕ} :
    b ∈ candidateWidths vals ↔ (1 ≤ b ∧ b ≤ maxBits vals) ∨ b = 32 := by
  have hrange : b ∈ List.range' 1 (maxBits vals) ↔ 1 ≤ b ∧ b ≤ maxBits vals := by
    rw [List.mem_range'_1]
    omega
  unfold candidateWidths
  dsimp only
  split
  · rename_i h32
    rw [hrange]
    constructor
    · exact Or.inl
    · rintro (h | rfl)
      · exact h
      · rw [List.mem_range'_1] at h32
        omega
  · rw [List.mem_append, hrange, List.mem_singleton]

/-- The loop over the candidates ends at one of least cost, or where it started. -/
lemma foldl_best (f : ℕ → ℕ) (bs : List ℕ) (best : ℕ × ℕ) :
    let r := bs.foldl (fun best b => if f b < best.2 then (b, f b) else best) best
    (r = best ∨ (r.1 ∈ bs ∧ r.2 = f r.1)) ∧ r.2 ≤ best.2 ∧ ∀ b ∈ bs, r.2 ≤ f b := by
  induction bs generalizing best with
  | nil => simp
  | cons b bs ih =>
      obtain ⟨hr, hle, hall⟩ := ih (if f b < best.2 then (b, f b) else best)
      simp only [List.foldl_cons]
      have hstep : (if f b < best.2 then (b, f b) else best).2 ≤ best.2 ∧
          (if f b < best.2 then (b, f b) else best).2 ≤ f b := by
        by_cases hlt : f b < best.2
        · rw [if_pos hlt]
          exact ⟨hlt.le, le_rfl⟩
        · rw [if_neg hlt]
          exact ⟨le_rfl, Nat.le_of_not_lt hlt⟩
      refine ⟨?_, hle.trans hstep.1, fun x hx => ?_⟩
      · rcases hr with heq | ⟨hmem, hval⟩
        · rw [heq]
          split
          · exact Or.inr ⟨List.mem_cons_self .., rfl⟩
          · exact Or.inl rfl
        · exact Or.inr ⟨List.mem_cons_of_mem _ hmem, hval⟩
      · rcases List.mem_cons.mp hx with rfl | hx
        · exact hle.trans hstep.2
        · exact hall x hx

lemma cost_32 (vals : List ℕ) : cost vals 32 = vals.length * 32 := by
  have h : excCount 32 vals = 0 := by
    rw [excCount, List.countP_eq_zero]
    simp [needsMore]
  rw [cost, h]
  omega

lemma bestWidth_spec {vals : List ℕ} (hlen : vals.length ≤ blockLen) :
    bestWidth vals ∈ candidateWidths vals ∧
      ∀ b ∈ candidateWidths vals, cost vals (bestWidth vals) ≤ cost vals b := by
  obtain ⟨hr, -, hall⟩ := foldl_best (cost vals) (candidateWidths vals) (32, 2 ^ 64 - 1)
  have h32 := hall 32 (mem_candidateWidths.mpr (Or.inr rfl))
  rw [cost_32] at h32
  have hlen' : vals.length ≤ 128 := hlen
  rcases hr with heq | ⟨hmem, hval⟩
  · rw [heq] at h32
    dsimp only at h32
    omega
  · exact ⟨hmem, fun b hb => by
      rw [bestWidth, ← hval]
      exact hall b hb⟩

lemma bestWidth_bounds {vals : List ℕ} (hlen : vals.length ≤ blockLen)
    (hv : ∀ v ∈ vals, v < 2 ^ 32) : 1 ≤ bestWidth vals ∧ bestWidth vals ≤ 32 := by
  have hmax := maxBits_le hv
  rcases mem_candidateWidths.mp (bestWidth_spec hlen).1 with h | h <;> omega

/-! ## The frame -/

/-- The positions of the set bits of the frame, in the order they are written. -/
def setBits (b : ℕ) (vals : List ℕ) : List ℕ :=
  (List.range b).flatMap fun p =>
    (vals.zipIdx.filter fun vi => vi.1.testBit p).map fun vi => p * vals.length + vi.2

lemma and_one_eq_one_iff (v p : ℕ) : v >>> p &&& 1 = 1 ↔ v.testBit p = true := by
  rw [Nat.testBit, Nat.and_comm]
  have h : 1 &&& v >>> p = v >>> p % 2 := by rw [Nat.and_comm, Nat.and_one_is_mod]
  rw [h, bne_iff_ne]
  omega

lemma foldl_plane (n p : ℕ) (vis : List (ℕ × ℕ)) (out : Bytes) :
    vis.foldl (fun out vi => if vi.1 >>> p &&& 1 = 1 then orBit out (p * n + vi.2) else out) out =
      ((vis.filter fun vi => vi.1.testBit p).map fun vi => p * n + vi.2).foldl orBit out := by
  induction vis generalizing out with
  | nil => rfl
  | cons vi vis ih =>
      rw [List.foldl_cons, ih]
      simp only [and_one_eq_one_iff, List.filter_cons]
      split <;> rfl

lemma frame_eq (b : ℕ) (vals : List ℕ) :
    frame b vals = (setBits b vals).foldl orBit
      (List.replicate ((vals.length * b + 7) / 8) 0) := by
  rw [setBits, List.foldl_flatMap]
  unfold frame
  dsimp only
  simp only [foldl_plane]

lemma length_foldl_orBit (js : List ℕ) (bs : Bytes) :
    (js.foldl orBit bs).length = bs.length := by
  induction js generalizing bs with
  | nil => rfl
  | cons j js ih => rw [List.foldl_cons, ih, length_orBit]

@[simp] lemma length_frame (b : ℕ) (vals : List ℕ) :
    (frame b vals).length = (vals.length * b + 7) / 8 := by
  rw [frame_eq, length_foldl_orBit, List.length_replicate]

lemma mem_setBits {b : ℕ} {vals : List ℕ} {k : ℕ} :
    k ∈ setBits b vals ↔
      ∃ p < b, ∃ i, ∃ v, vals[i]? = some v ∧ v.testBit p = true ∧ k = p * vals.length + i := by
  simp only [setBits, List.mem_flatMap, List.mem_range, List.mem_map, List.mem_filter]
  constructor
  · rintro ⟨p, hp, ⟨v, i⟩, ⟨hmem, hbit⟩, rfl⟩
    exact ⟨p, hp, i, v, List.mem_zipIdx_iff_getElem?.mp hmem, hbit, rfl⟩
  · rintro ⟨p, hp, i, v, hv, hbit, rfl⟩
    exact ⟨p, hp, (v, i), ⟨List.mem_zipIdx_iff_getElem?.mpr hv, hbit⟩, rfl⟩

lemma plane_index_lt {b n p i : ℕ} (hp : p < b) (hi : i < n) : p * n + i < n * b := by
  have h : (p + 1) * n ≤ b * n := Nat.mul_le_mul_right n hp
  rw [Nat.add_mul, Nat.one_mul, Nat.mul_comm b n] at h
  omega

/-- Bit `p` of value `i` stands at position `p * n + i` of the frame. -/
lemma getBit_frame {b : ℕ} {vals : List ℕ} {p i v : ℕ} (hp : p < b) (hv : vals[i]? = some v) :
    getBit (frame b vals) (p * vals.length + i) = v.testBit p := by
  have hlt : ∀ k ∈ setBits b vals,
      k / 8 < (List.replicate ((vals.length * b + 7) / 8) (0 : UInt8)).length := by
    intro k hk
    obtain ⟨q, hq, j, w, hw, -, rfl⟩ := mem_setBits.mp hk
    obtain ⟨hj, -⟩ := List.getElem?_eq_some_iff.mp hw
    have := plane_index_lt hq hj
    rw [List.length_replicate]
    omega
  rw [frame_eq, getBit_foldl_orBit hlt, getBit_replicate_zero, Bool.false_or]
  obtain ⟨hi, -⟩ := List.getElem?_eq_some_iff.mp hv
  cases hbit : v.testBit p with
  | true => exact decide_eq_true (mem_setBits.mpr ⟨p, hp, i, v, hv, hbit, rfl⟩)
  | false =>
      refine decide_eq_false fun hmem => ?_
      obtain ⟨q, -, j, w, hw, hset, heq⟩ := mem_setBits.mp hmem
      obtain ⟨hj, -⟩ := List.getElem?_eq_some_iff.mp hw
      -- plane and index are the quotient and remainder of the position
      have hpos : 0 < vals.length := by omega
      have hdiv : ∀ r k, k < vals.length → (r * vals.length + k) / vals.length = r := by
        intro r k hk
        rw [Nat.mul_comm, Nat.mul_add_div hpos, Nat.div_eq_of_lt hk, Nat.add_zero]
      have hq : p = q := by rw [← hdiv p i hi, heq, hdiv q j hj]
      subst hq
      have hij : i = j := by omega
      subst hij
      rw [hv] at hw
      obtain rfl := Option.some.inj hw
      rw [hbit] at hset
      cases hset

/-! ## Reading a block back -/

/-- Adding the bit of plane `p` to the low `p` bits gives the low `p + 1` bits. -/
lemma or_bit_eq_mod (v p : ℕ) :
    (if v.testBit p then v % 2 ^ p ||| 1 <<< p else v % 2 ^ p) = v % 2 ^ (p + 1) := by
  apply Nat.eq_of_testBit_eq
  intro k
  rw [Nat.testBit_mod_two_pow]
  rcases Nat.lt_trichotomy k p with hk | rfl | hk
  · have h1 : decide (p = k) = false := decide_eq_false (by omega)
    have h2 : decide (k < p + 1) = true := decide_eq_true (by omega)
    rw [h2]
    split <;> simp [Nat.testBit_mod_two_pow, Nat.one_shiftLeft, Nat.testBit_two_pow, h1, hk]
  · split <;> simp_all [Nat.testBit_mod_two_pow, Nat.one_shiftLeft]
  · have h1 : decide (p = k) = false := decide_eq_false (by omega)
    have h2 : decide (k < p + 1) = false := decide_eq_false (by omega)
    have h3 : decide (k < p) = false := decide_eq_false (by omega)
    rw [h2]
    split <;> simp [Nat.testBit_mod_two_pow, Nat.one_shiftLeft, Nat.testBit_two_pow, h1, h3]

lemma byteAt_eq_ok {buf : Bytes} {pos : ℕ} (h : pos < buf.length) :
    byteAt buf pos = .ok ((buf[pos]?).getD 0) := by
  rw [byteAt, List.getElem?_eq_getElem h]
  rfl

lemma decodePlane_frame {b p : ℕ} {vals : List ℕ} (hp : p < b) (hb : b ≤ 32) :
    decodePlane (frame b vals) vals.length p (vals.map (· % 2 ^ p)) =
      .ok (vals.map (· % 2 ^ (p + 1))) := by
  have hstep : ∀ vi ∈ (vals.map (· % 2 ^ p)).zipIdx,
      (do
        let byte ← byteAt (frame b vals) ((p * vals.length + vi.2) / 8)
        if byte.toNat.testBit ((p * vals.length + vi.2) % 8) then
          if p < 32 then pure (vi.1 ||| 1 <<< p) else (.error .panicked : Res ℕ)
        else pure vi.1) = .ok ((vals[vi.2]?).getD 0 % 2 ^ (p + 1)) := by
    rintro ⟨w, i⟩ hmem
    have hw := List.mem_zipIdx_iff_getElem?.mp hmem
    rw [List.getElem?_map, Option.map_eq_some_iff] at hw
    obtain ⟨v, hv, rfl⟩ := hw
    obtain ⟨hi, -⟩ := List.getElem?_eq_some_iff.mp hv
    have hlt := plane_index_lt hp hi
    have hbit := getBit_frame hp hv
    rw [byteAt_eq_ok (by rw [length_frame]; omega), bind_ok]
    dsimp only
    unfold getBit at hbit
    rw [hbit, hv, Option.getD_some, ← or_bit_eq_mod v p, if_pos (show p < 32 by omega)]
    split <;> rfl
  rw [decodePlane, mapM_eq_ok hstep]
  congr 1
  apply List.ext_getElem?
  intro i
  simp only [List.getElem?_map, List.getElem?_zipIdx]
  cases hv : vals[i]? <;> simp [hv]

/-- After the planes below `m`, every value holds its low `m` bits. -/
lemma foldlM_decodePlane {b : ℕ} {vals : List ℕ} (hb : b ≤ 32) :
    ∀ m ≤ b, (List.range m).foldlM (fun acc p => decodePlane (frame b vals) vals.length p acc)
      (List.replicate vals.length 0) = .ok (vals.map (· % 2 ^ m)) := by
  intro m
  induction m with
  | zero =>
      intro _
      have h : List.replicate vals.length 0 = vals.map (· % 2 ^ 0) := by
        simp [Nat.mod_one, List.map_const']
      rw [h]
      rfl
  | succ m ih =>
      intro hm
      rw [List.range_succ, List.foldlM_append, ih (by omega), bind_ok, List.foldlM_cons,
        decodePlane_frame (by omega) hb]
      rfl

lemma mod_eq_of_not_needsMore {b v : ℕ} (hv : v < 2 ^ 32) (h : needsMore b v = false) :
    v % 2 ^ b = v := by
  refine Nat.mod_eq_of_lt ?_
  rcases Nat.lt_or_ge b 32 with hb | hb
  · have hzero : v >>> b = 0 := by simpa [needsMore, hb] using h
    rw [Nat.shiftRight_eq_div_pow] at hzero
    exact (Nat.div_eq_zero_iff_lt (Nat.two_pow_pos b)).mp hzero
  · exact lt_of_lt_of_le hv (Nat.pow_le_pow_right (by omega) hb)

lemma exceptions_cons (b v : ℕ) (rest : List ℕ) (i : ℕ) :
    exceptions b (v :: rest) i =
      (if needsMore b v then toLE 2 i ++ toLE 4 v else []) ++ exceptions b rest (i + 1) := by
  simp [exceptions, List.zipIdx_cons]

/-- The exceptions of `rest` restore its values, whatever stands before and behind them. -/
lemma decodeExceptions_exceptions {b : ℕ} (rest : List ℕ) (post : Bytes)
    (hv : ∀ v ∈ rest, v < 2 ^ 32) :
    ∀ (pre : Bytes) (done : List ℕ), done.length + rest.length ≤ 2 ^ 16 →
      decodeExceptions (pre ++ (exceptions b rest done.length ++ post)) (excCount b rest)
          pre.length (done ++ rest.map (· % 2 ^ b)) =
        .ok (done ++ rest, pre.length + (exceptions b rest done.length).length) := by
  induction rest with
  | nil =>
      intro pre done _
      simp [excCount, exceptions, decodeExceptions]
      rfl
  | cons v rest ih =>
      intro pre done hlen
      have hv32 := hv v (List.mem_cons_self ..)
      have hrest := ih (fun w hw => hv w (List.mem_cons_of_mem _ hw))
      rw [List.length_cons] at hlen
      rw [exceptions_cons, excCount, List.countP_cons]
      cases hneed : needsMore b v with
      | false =>
          have h := hrest pre (done ++ [v]) (by simp; omega)
          simpa [mod_eq_of_not_needsMore hv32 hneed, excCount] using h
      | true =>
          have h := hrest (pre ++ (toLE 2 done.length ++ toLE 4 v)) (done ++ [v])
            (by simp; omega)
          have hpos : leAt (pre ++ (toLE 2 done.length ++ (toLE 4 v ++
              (exceptions b rest (done.length + 1) ++ post)))) pre.length 2 =
              .ok done.length := by
            rw [leAt_mid, Nat.mod_eq_of_lt (by omega)]
          have hval : leAt (pre ++ (toLE 2 done.length ++ (toLE 4 v ++
              (exceptions b rest (done.length + 1) ++ post)))) (pre.length + 2) 4 = .ok v := by
            have := leAt_mid (pre ++ toLE 2 done.length) 4 v
              (exceptions b rest (done.length + 1) ++ post)
            rw [Nat.mod_eq_of_lt (show v < 256 ^ 4 by omega)] at this
            simpa using this
          simp only [if_true, List.append_assoc, decodeExceptions]
          rw [hpos, bind_ok, hval, bind_ok, if_pos (by simp)]
          have hsix : ∀ x : ℕ, 2 + (4 + x) = 6 + x := fun x => by omega
          simpa [List.set_append_right, excCount, Nat.add_assoc, hsix] using h

lemma excCount_le (b : ℕ) (vals : List ℕ) : excCount b vals ≤ vals.length :=
  List.countP_le_length

/-- A block reads back, wherever it stands in the buffer. -/
lemma decodeBlock_encodeBlock {vals : List ℕ} (hlen : vals.length ≤ blockLen)
    (hv : ∀ v ∈ vals, v < 2 ^ 32) (pre post : Bytes) :
    decodeBlock (pre ++ (encodeBlock vals ++ post)) pre.length vals.length =
      .ok (vals, pre.length + (encodeBlock vals).length) := by
  obtain ⟨-, hb⟩ := bestWidth_bounds hlen hv
  have hlen128 : vals.length ≤ 128 := hlen
  have hexc := excCount_le (bestWidth vals) vals
  set b := bestWidth vals with hbdef
  set exc := excCount b vals with hexcdef
  have hbyte : (UInt8.ofNat b).toNat = b := by
    rw [UInt8.toNat_ofNat', Nat.mod_eq_of_lt (by omega)]
  have hbuf : pre ++ (encodeBlock vals ++ post) =
      pre ++ ([UInt8.ofNat b] ++ (toLE 2 exc ++ (frame b vals ++ (exceptions b vals 0 ++ post)))) := by
    simp [encodeBlock, ← hbdef, ← hexcdef]
  rw [hbuf]
  have h1 : byteAt (pre ++ ([UInt8.ofNat b] ++ (toLE 2 exc ++ (frame b vals ++
      (exceptions b vals 0 ++ post))))) pre.length = .ok (UInt8.ofNat b) := by
    simp [byteAt]
  have h2 : leAt (pre ++ ([UInt8.ofNat b] ++ (toLE 2 exc ++ (frame b vals ++
      (exceptions b vals 0 ++ post))))) (pre.length + 1) 2 = .ok exc := by
    have := leAt_mid (pre ++ [UInt8.ofNat b]) 2 exc (frame b vals ++ (exceptions b vals 0 ++ post))
    rw [Nat.mod_eq_of_lt (by omega)] at this
    simpa using this
  have h3 : sliceAt (pre ++ ([UInt8.ofNat b] ++ (toLE 2 exc ++ (frame b vals ++
      (exceptions b vals 0 ++ post))))) (pre.length + 3) ((vals.length * b + 7) / 8) =
      .ok (frame b vals) := by
    have := sliceAt_mid (pre ++ ([UInt8.ofNat b] ++ toLE 2 exc)) (frame b vals)
      (exceptions b vals 0 ++ post)
    rw [length_frame] at this
    simpa [Nat.add_assoc] using this
  have h4 := decodeExceptions_exceptions (b := b) vals post hv
    (pre ++ ([UInt8.ofNat b] ++ (toLE 2 exc ++ frame b vals))) [] (by simp; omega)
  rw [decodeBlock, h1, bind_ok, h2, bind_ok, hbyte, h3, bind_ok, foldlM_decodePlane hb b le_rfl,
    bind_ok]
  have hpre : (pre ++ ([UInt8.ofNat b] ++ (toLE 2 exc ++ frame b vals))).length =
      pre.length + 3 + (vals.length * b + 7) / 8 := by
    simp only [List.length_append, List.length_singleton, length_toLE, length_frame]
    omega
  have hend : pre.length + 3 + (vals.length * b + 7) / 8 + (exceptions b vals 0).length =
      pre.length + (encodeBlock vals).length := by
    simp only [encodeBlock, ← hbdef, List.length_append, List.length_singleton, length_toLE,
      length_frame]
    omega
  rw [hpre, List.length_nil, hend] at h4
  simpa using h4

/-! ## Where the decoder ends -/

/-- The loop of `decode` together with the position it ends at. -/
def decodeLoopAt (buf : Bytes) : ℕ → ℕ → ℕ → List ℕ → Res (List ℕ × ℕ)
  | 0, pos, _, out => pure (out, pos)
  | fuel + 1, pos, remaining, out =>
      if remaining = 0 then pure (out, pos)
      else do
        let (vals, pos) ← decodeBlock buf pos (min remaining blockLen)
        decodeLoopAt buf fuel pos (remaining - min remaining blockLen) (out ++ vals)

/-- `decode` and the value of `pos` after its last block. -/
def decodeAt (buf : Bytes) (count : ℕ) : Res (List ℕ × ℕ) :=
  if count = 0 then pure ([], 0) else decodeLoopAt buf count 5 count []

lemma decodeLoop_eq_map (buf : Bytes) (fuel pos remaining : ℕ) (out : List ℕ) :
    decodeLoop buf fuel pos remaining out =
      Prod.fst <$> decodeLoopAt buf fuel pos remaining out := by
  induction fuel generalizing pos remaining out with
  | zero => rfl
  | succ fuel ih =>
      rw [decodeLoop, decodeLoopAt]
      split
      · rfl
      · cases decodeBlock buf pos (min remaining blockLen) with
        | error f => rfl
        | ok r => exact ih r.2 _ _

lemma decode_eq_map (buf : Bytes) (count : ℕ) :
    decode buf count = Prod.fst <$> decodeAt buf count := by
  unfold decode decodeAt
  split
  · rfl
  · exact decodeLoop_eq_map ..

/-- The loop over the blocks of `deltas` ends right behind them. -/
lemma decodeLoopAt_blocks (deltas : List ℕ) (hv : ∀ v ∈ deltas, v < 2 ^ 32) (post : Bytes) :
    ∀ (fuel : ℕ) (pre : Bytes) (out : List ℕ), deltas.length ≤ fuel →
      decodeLoopAt (pre ++ ((chunks blockLen deltas).flatMap encodeBlock ++ post)) fuel pre.length
        deltas.length out =
        .ok (out ++ deltas, pre.length + ((chunks blockLen deltas).flatMap encodeBlock).length) := by
  have hblock : 0 < blockLen := by decide
  induction deltas using chunk_induction hblock with
  | nil =>
      intro fuel pre out _
      cases fuel <;> simp [decodeLoopAt] <;> rfl
  | step deltas hne ih =>
      intro fuel pre out hfuel
      have hpos : 0 < deltas.length := List.length_pos_iff.mpr hne
      obtain ⟨fuel, rfl⟩ : ∃ f, fuel = f + 1 := ⟨fuel - 1, by omega⟩
      have htake : (deltas.take blockLen).length = min deltas.length blockLen := by
        rw [List.length_take, Nat.min_comm]
      have hdrop : (deltas.drop blockLen).length = deltas.length - min deltas.length blockLen := by
        rw [List.length_drop]
        omega
      have hle : (deltas.take blockLen).length ≤ blockLen := by omega
      have hfirst := decodeBlock_encodeBlock hle (fun v h => hv v (List.mem_of_mem_take h)) pre
        ((chunks blockLen (deltas.drop blockLen)).flatMap encodeBlock ++ post)
      have hrest := ih (fun v h => hv v (List.mem_of_mem_drop h)) fuel
        (pre ++ encodeBlock (deltas.take blockLen)) (out ++ deltas.take blockLen)
        (by rw [hdrop]; omega)
      rw [htake] at hfirst
      rw [chunks_of_ne_nil hblock hne, List.flatMap_cons, List.append_assoc, decodeLoopAt,
        if_neg (by omega), hfirst, bind_ok]
      dsimp only
      rw [← hdrop]
      simpa [List.append_assoc, List.take_append_drop, Nat.add_assoc] using hrest

lemma decodeAt_encode {deltas : List ℕ} (hv : ∀ v ∈ deltas, v < 2 ^ 32) (hne : deltas ≠ [])
    (post : Bytes) :
    decodeAt (encode deltas ++ post) deltas.length = .ok (deltas, (encode deltas).length) := by
  have hpos : deltas.length ≠ 0 := fun h => hne (List.length_eq_zero_iff.mp h)
  have h := decodeLoopAt_blocks deltas hv post deltas.length ([1] ++ toLE 4 deltas.length) [] le_rfl
  rw [decodeAt, if_neg hpos, encode, List.append_assoc, List.length_append]
  simpa using h

/-- `decode` inverts `encode`. -/
theorem decode_encode {deltas : List ℕ} (hv : ∀ v ∈ deltas, v < 2 ^ 32) :
    decode (encode deltas) deltas.length = .ok deltas := by
  by_cases hne : deltas = []
  · rw [hne]
    rfl
  · have hend := decodeAt_encode hv hne []
    rw [List.append_nil] at hend
    rw [decode_eq_map, hend]
    rfl

/-! ## The size of an encoded posting -/

lemma cost_eq_sum (vals : List ℕ) (b : ℕ) :
    cost vals b = (vals.map fun v => b + if needsMore b v then 32 else 0).sum := by
  induction vals with
  | nil => simp [cost, excCount]
  | cons v vals ih =>
      rw [List.map_cons, List.sum_cons, ← ih, cost, cost, excCount, excCount, List.countP_cons,
        List.length_cons]
      split <;> simp [*, Nat.add_mul] <;> omega

/-- A width of at most 5 bits costs at most 5 for each unit of the values. -/
lemma cost_bestWidth_le {vals : List ℕ} (hlen : vals.length ≤ blockLen) :
    cost vals (bestWidth vals) ≤ 5 * (vals.map (max 1)).sum := by
  have hmem : min 5 (maxBits vals) ∈ candidateWidths vals := by
    have := one_le_maxBits vals
    exact mem_candidateWidths.mpr (Or.inl (by omega))
  refine ((bestWidth_spec hlen).2 _ hmem).trans ?_
  rw [cost_eq_sum, ← List.sum_map_mul_left]
  refine List.sum_le_sum fun v hv => ?_
  by_cases hneed : needsMore (min 5 (maxBits vals)) v = true
  · -- a value wider than the width: the width is 5 and the value at least 32
    rw [if_pos hneed]
    have hshift : v >>> min 5 (maxBits vals) ≠ 0 := by
      have := (Bool.and_eq_true _ _).mp hneed
      simpa using this.2
    rw [Nat.shiftRight_eq_div_pow] at hshift
    have hge : 2 ^ min 5 (maxBits vals) ≤ v := by
      by_contra hlt
      exact hshift (Nat.div_eq_of_lt (Nat.lt_of_not_le hlt))
    rcases Nat.le_total 5 (maxBits vals) with h5 | h5
    · rw [Nat.min_eq_left h5] at hge ⊢
      have hmax : v ≤ max 1 v := Nat.le_max_right _ _
      omega
    · rw [Nat.min_eq_right h5] at hge
      have hlt := lt_of_lt_of_le (lt_two_pow_bitWidth v)
        (Nat.pow_le_pow_right (by omega) (bitWidth_le_maxBits hv))
      omega
  · rw [if_neg hneed]
    have hmax : 1 ≤ max 1 v := Nat.le_max_left _ _
    have hmin : min 5 (maxBits vals) ≤ 5 := Nat.min_le_left _ _
    omega

lemma length_exceptions (b : ℕ) (vals : List ℕ) (i : ℕ) :
    (exceptions b vals i).length = 6 * excCount b vals := by
  induction vals generalizing i with
  | nil => rfl
  | cons v vals ih =>
      rw [exceptions_cons, List.length_append, ih, excCount, excCount, List.countP_cons]
      split
      · simp
        omega
      · simp

lemma length_encodeBlock_le {vals : List ℕ} (hlen : vals.length ≤ blockLen) :
    16 * (encodeBlock vals).length ≤ 62 + 15 * (vals.map (max 1)).sum := by
  have hcost := cost_bestWidth_le hlen
  rw [cost] at hcost
  have hlength : (encodeBlock vals).length =
      3 + (vals.length * bestWidth vals + 7) / 8 + 6 * excCount (bestWidth vals) vals := by
    simp [encodeBlock, length_exceptions]
    omega
  omega

lemma length_blocks_le {blocks : List (List ℕ)} (hlen : ∀ b ∈ blocks, b.length ≤ blockLen) :
    16 * (blocks.flatMap encodeBlock).length ≤
      62 * blocks.length + 15 * (blocks.flatten.map (max 1)).sum := by
  induction blocks with
  | nil => simp
  | cons b blocks ih =>
      have hb := length_encodeBlock_le (hlen b (List.mem_cons_self ..))
      have hrest := ih fun c hc => hlen c (List.mem_cons_of_mem _ hc)
      simp only [List.flatMap_cons, List.length_append, List.length_cons, List.flatten_cons,
        List.map_append, List.sum_append]
      omega

/-- The encoding of deltas that sum to less than `2 ^ 32` is shorter than `2 ^ 32` bytes. -/
theorem length_encode_lt {deltas : List ℕ} (hsum : (deltas.map (max 1)).sum < 2 ^ 32) :
    (encode deltas).length < 2 ^ 32 := by
  have hk : 0 < blockLen := by decide
  have hblocks := length_blocks_le (length_le_of_mem_chunks hk deltas)
  rw [flatten_chunks hk, length_chunks hk] at hblocks
  have hlen : deltas.length ≤ (deltas.map (max 1)).sum := by
    have h := List.card_nsmul_le_sum (deltas.map (max 1)) 1 (by simp)
    simpa using h
  have h128 : blockLen = 128 := rfl
  rw [h128] at hblocks
  simp only [encode, h128, List.length_append, length_toLE, List.length_singleton]
  omega

end TurboPFor

end DeepFinder
