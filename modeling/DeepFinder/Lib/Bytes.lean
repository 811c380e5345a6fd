import Mathlib.Data.List.Infix
import Mathlib.Data.List.TakeDrop
import Mathlib.Tactic.Ring
import Mathlib.Tactic.Common

/-!
# Byte strings

A byte string is a `List UInt8`.  This file fixes the three operations every on-disk format
needs and proves how they compose:

* `toLE k n` and `ofLE bs`, the little-endian digits of a natural number and back;
* `subslice bs i n`, the `n` bytes of `bs` from offset `i`, or `none` when they overrun `bs`;
* `windows k bs`, the overlapping windows of length `k`, and substring search over them.

Offsets into a concatenation are resolved by `subslice_append_left`, `subslice_append_right`
and `subslice_mid`, so a reader's proof never has to unfold a concatenation of sections.
-/

namespace ByteString

abbrev Bytes := List UInt8

/-! ## Little-endian integers -/

/-- The `k` low little-endian base-256 digits of `n`. -/
def toLE : ℕ → ℕ → Bytes
  | 0, _ => []
  | k + 1, n => UInt8.ofNat n :: toLE k (n / 256)

/-- The natural number whose little-endian base-256 digits are `bs`. -/
def ofLE : Bytes → ℕ
  | [] => 0
  | b :: bs => b.toNat + 256 * ofLE bs

@[simp] lemma length_toLE (k n : ℕ) : (toLE k n).length = k := by
  induction k generalizing n with
  | zero => rfl
  | succ k ih => simp [toLE, ih]

lemma ofLE_toLE (k n : ℕ) : ofLE (toLE k n) = n % 256 ^ k := by
  induction k generalizing n with
  | zero => simp [toLE, ofLE, Nat.mod_one]
  | succ k ih =>
      have hmod : n % 256 ^ (k + 1) = n % 256 + 256 * (n / 256 % 256 ^ k) := by
        rw [pow_succ, Nat.mul_comm, Nat.mod_mul]
      rw [toLE, ofLE, ih, hmod]
      simp

lemma ofLE_toLE_of_lt {k n : ℕ} (h : n < 256 ^ k) : ofLE (toLE k n) = n := by
  rw [ofLE_toLE, Nat.mod_eq_of_lt h]

lemma ofLE_lt (bs : Bytes) : ofLE bs < 256 ^ bs.length := by
  induction bs with
  | nil => simp [ofLE]
  | cons b bs ih =>
      have hb : b.toNat < 256 := b.toNat_lt
      simp only [ofLE, List.length_cons, pow_succ]
      omega

/-! ## Slices -/

/-- The `n` bytes of `bs` from offset `i`; `none` when the range overruns `bs`. -/
def subslice (bs : Bytes) (i n : ℕ) : Option Bytes :=
  if i + n ≤ bs.length then some ((bs.drop i).take n) else none

lemma subslice_eq_some {bs : Bytes} {i n : ℕ} (h : i + n ≤ bs.length) :
    subslice bs i n = some ((bs.drop i).take n) := if_pos h

lemma subslice_eq_none {bs : Bytes} {i n : ℕ} (h : bs.length < i + n) :
    subslice bs i n = none := if_neg (by omega)

lemma length_of_subslice {bs out : Bytes} {i n : ℕ} (h : subslice bs i n = some out) :
    out.length = n := by
  unfold subslice at h
  split at h
  · obtain rfl := Option.some.inj h
    simp only [List.length_take, List.length_drop]
    omega
  · cases h

lemma subslice_append_left {a b : Bytes} {i n : ℕ} (h : i + n ≤ a.length) :
    subslice (a ++ b) i n = subslice a i n := by
  rw [subslice_eq_some (by simp; omega), subslice_eq_some h,
    List.drop_append_of_le_length (by omega), List.take_append_of_le_length (by simp; omega)]

lemma subslice_append_right {a b : Bytes} {i n : ℕ} (h : a.length ≤ i) :
    subslice (a ++ b) i n = subslice b (i - a.length) n := by
  unfold subslice
  have hiff : i + n ≤ (a ++ b).length ↔ i - a.length + n ≤ b.length := by simp; omega
  simp only [hiff, List.drop_append, List.drop_eq_nil_of_le h, List.nil_append]

lemma subslice_self (a : Bytes) : subslice a 0 a.length = some a := by
  simp [subslice]

lemma subslice_mid (a b c : Bytes) : subslice (a ++ (b ++ c)) a.length b.length = some b := by
  rw [subslice_append_right le_rfl, Nat.sub_self, subslice_append_left (by simp),
    subslice_self]

lemma subslice_subslice {bs s : Bytes} {i w o n : ℕ} (h : subslice bs i w = some s)
    (hon : o + n ≤ w) : subslice bs (i + o) n = subslice s o n := by
  unfold subslice at h
  split at h
  · obtain rfl := Option.some.inj h
    rw [subslice_eq_some (by omega), subslice_eq_some (by simp; omega), List.drop_take,
      List.take_take, List.drop_drop, Nat.min_eq_left (by omega)]
  · cases h

/-! ## Records of fixed width -/

section Records

variable {α : Type*} {f : α → Bytes} {w : ℕ}

lemma length_flatMap_of_width (hw : ∀ a, (f a).length = w) (l : List α) :
    (l.flatMap f).length = l.length * w := by
  induction l with
  | nil => simp
  | cons a l ih => rw [List.flatMap_cons, List.length_append, hw, ih, List.length_cons,
      Nat.succ_mul, Nat.add_comm]

lemma flatMap_eq_mid {l : List α} {i : ℕ} {a : α} (h : l[i]? = some a) :
    l.flatMap f = (l.take i).flatMap f ++ (f a ++ (l.drop (i + 1)).flatMap f) := by
  obtain ⟨hi, rfl⟩ := List.getElem?_eq_some_iff.mp h
  conv_lhs => rw [← List.take_append_drop i l, List.drop_eq_getElem_cons hi]
  rw [List.flatMap_append, List.flatMap_cons]

lemma length_take_flatMap (hw : ∀ a, (f a).length = w) {l : List α} {i : ℕ} (hi : i < l.length) :
    ((l.take i).flatMap f).length = i * w := by
  rw [length_flatMap_of_width hw, List.length_take, Nat.min_eq_left hi.le]

lemma subslice_record (hw : ∀ a, (f a).length = w) {l : List α} {i : ℕ} {a : α}
    (h : l[i]? = some a) : subslice (l.flatMap f) (i * w) w = some (f a) := by
  obtain ⟨hi, -⟩ := List.getElem?_eq_some_iff.mp h
  have hmid := subslice_mid ((l.take i).flatMap f) (f a) ((l.drop (i + 1)).flatMap f)
  rwa [← flatMap_eq_mid h, length_take_flatMap hw hi, hw] at hmid

/-- Overwrite the bytes from `pos` on by `new`. -/
def overwrite (bs : Bytes) (pos : ℕ) (new : Bytes) : Bytes :=
  bs.take pos ++ (new ++ bs.drop (pos + new.length))

/-- Overwriting the `i`-th record replaces that record. -/
lemma overwrite_record (hw : ∀ a, (f a).length = w) {l : List α} {i : ℕ} (hi : i < l.length)
    (a : α) : overwrite (l.flatMap f) (i * w) (f a) = (l.set i a).flatMap f := by
  have hget : (l.set i a)[i]? = some a := by simp [hi]
  have hlen := length_take_flatMap hw hi
  have hnext : (f l[i]).length = w := hw _
  have hbefore : ((l.take i).flatMap f).drop (i * w + w) = [] :=
    List.drop_eq_nil_of_le (by omega)
  have hat : (f l[i]).drop w = [] := List.drop_eq_nil_of_le (by omega)
  rw [flatMap_eq_mid hget, overwrite, flatMap_eq_mid (List.getElem?_eq_getElem hi), ← hlen,
    List.take_left, hw, List.drop_append, List.drop_append]
  simp [hnext, List.take_set_of_le, List.drop_set_of_lt, hlen, hbefore, hat]

end Records

/-! ## Where a piece stands -/

/-- `x` stands at offset `off` of `bs`. -/
def StandsAt (bs : Bytes) (off : ℕ) (x : Bytes) : Prop :=
  ∃ pre post, bs = pre ++ (x ++ post) ∧ pre.length = off

lemma StandsAt.refl (bs : Bytes) : StandsAt bs 0 bs := ⟨[], [], by simp, rfl⟩

lemma StandsAt.left {bs x y : Bytes} {off : ℕ} (h : StandsAt bs off (x ++ y)) :
    StandsAt bs off x := by
  obtain ⟨pre, post, rfl, rfl⟩ := h
  exact ⟨pre, y ++ post, by simp, rfl⟩

lemma StandsAt.right {bs x y : Bytes} {off : ℕ} (h : StandsAt bs off (x ++ y)) :
    StandsAt bs (off + x.length) y := by
  obtain ⟨pre, post, rfl, rfl⟩ := h
  exact ⟨pre ++ x, post, by simp, by simp⟩

lemma StandsAt.trans {bs x y : Bytes} {off o : ℕ} (h : StandsAt bs off x) (hy : StandsAt x o y) :
    StandsAt bs (off + o) y := by
  obtain ⟨pre, post, rfl, rfl⟩ := h
  obtain ⟨pre', post', rfl, rfl⟩ := hy
  exact ⟨pre ++ pre', post' ++ post, by simp, by simp⟩

lemma StandsAt.le_length {bs x : Bytes} {off : ℕ} (h : StandsAt bs off x) :
    off + x.length ≤ bs.length := by
  obtain ⟨pre, post, rfl, rfl⟩ := h
  simp

lemma StandsAt.subslice {bs x : Bytes} {off : ℕ} (h : StandsAt bs off x) :
    subslice bs off x.length = some x := by
  obtain ⟨pre, post, rfl, rfl⟩ := h
  exact subslice_mid pre x post

lemma standsAt_of_subslice {bs x : Bytes} {i n : ℕ} (h : ByteString.subslice bs i n = some x) :
    StandsAt bs i x := by
  unfold ByteString.subslice at h
  split at h
  · obtain rfl := Option.some.inj h
    refine ⟨bs.take i, (bs.drop i).drop n, ?_, by simp; omega⟩
    rw [List.take_append_drop, List.take_append_drop]
  · cases h

/-- What stands before a cut. -/
lemma standsAt_take_iff {bs x : Bytes} {off n : ℕ} :
    StandsAt (bs.take n) off x ↔ StandsAt bs off x ∧ off + x.length ≤ (bs.take n).length := by
  constructor
  · intro h
    refine ⟨?_, h.le_length⟩
    obtain ⟨pre, post, hsplit, rfl⟩ := h
    refine ⟨pre, post ++ bs.drop n, ?_, rfl⟩
    rw [← List.append_assoc x, ← List.append_assoc, ← hsplit, List.take_append_drop]
  · rintro ⟨⟨pre, post, rfl, rfl⟩, hle⟩
    refine ⟨pre, post.take (n - pre.length - x.length), ?_, rfl⟩
    have hn : pre.length + x.length ≤ n := by
      rw [List.length_take] at hle
      omega
    rw [List.take_append, List.take_append, List.take_of_length_le (by omega),
      List.take_of_length_le (by omega)]

lemma standsAt_nil {bs : Bytes} {off : ℕ} (h : off ≤ bs.length) : StandsAt bs off [] :=
  ⟨bs.take off, bs.drop off, (List.take_append_drop off bs).symm, by simpa using h⟩

/-- The byte at a place, and what stands behind it. -/
lemma standsAt_cons_iff {bs x : Bytes} {b : UInt8} {off : ℕ} :
    StandsAt bs off (b :: x) ↔ bs[off]? = some b ∧ StandsAt bs (off + 1) x := by
  constructor
  · rintro ⟨pre, post, rfl, rfl⟩
    exact ⟨by simp, pre ++ [b], post, by simp, by simp⟩
  · rintro ⟨hat, pre, post, rfl, hlen⟩
    have hpre : pre.drop off = [b] := by
      have hget : pre[off]? = some b := by
        rwa [List.getElem?_append_left (by omega)] at hat
      obtain ⟨hlt, rfl⟩ := List.getElem?_eq_some_iff.mp hget
      rw [List.drop_eq_getElem_cons hlt, List.drop_eq_nil_of_le (by omega)]
    have hsplit : pre = pre.take off ++ [b] := by rw [← hpre, List.take_append_drop]
    refine ⟨pre.take off, post, ?_, by simp; omega⟩
    conv_lhs => rw [hsplit]
    simp

section Pieces

variable {α ρ : Type*} (enc : α → Bytes) (ref : α → ℕ → ρ)

/-- What a loop records about the pieces it writes back to back from offset `base` on: each
piece with its own offset. -/
def pieceRefs (base : ℕ) : List α → List ρ
  | [] => []
  | a :: l => ref a base :: pieceRefs (base + (enc a).length) l

lemma foldl_pieces (base : ℕ) (l : List α) (acc : List ρ × Bytes) :
    l.foldl (fun acc a => (acc.1 ++ [ref a (base + acc.2.length)], acc.2 ++ enc a)) acc =
      (acc.1 ++ pieceRefs enc ref (base + acc.2.length) l, acc.2 ++ l.flatMap enc) := by
  induction l generalizing acc with
  | nil => simp [pieceRefs]
  | cons a l ih =>
      rw [List.foldl_cons, ih]
      simp [pieceRefs, Nat.add_assoc]

lemma length_pieceRefs (base : ℕ) (l : List α) : (pieceRefs enc ref base l).length = l.length := by
  induction l generalizing base with
  | nil => rfl
  | cons a l ih => rw [pieceRefs, List.length_cons, ih, List.length_cons]

lemma getElem?_pieceRefs (base : ℕ) (l : List α) (i : ℕ) :
    (pieceRefs enc ref base l)[i]? =
      l[i]?.map fun a => ref a (base + ((l.take i).flatMap enc).length) := by
  induction l generalizing base i with
  | nil => simp [pieceRefs]
  | cons a l ih =>
      cases i with
      | zero => simp [pieceRefs]
      | succ i => simp [pieceRefs, ih, Nat.add_assoc]

lemma pieceRefs_snoc (base : ℕ) (l : List α) (a : α) :
    pieceRefs enc ref base (l ++ [a]) =
      pieceRefs enc ref base l ++ [ref a (base + (l.flatMap enc).length)] := by
  induction l generalizing base with
  | nil => simp [pieceRefs]
  | cons b l ih => simp [pieceRefs, ih, Nat.add_assoc]

lemma StandsAt.piece {bs : Bytes} {off : ℕ} {l : List α} (h : StandsAt bs off (l.flatMap enc))
    {i : ℕ} {a : α} (ha : l[i]? = some a) :
    StandsAt bs (off + ((l.take i).flatMap enc).length) (enc a) := by
  rw [flatMap_eq_mid ha] at h
  exact h.right.left

lemma StandsAt.record {w : ℕ} (hw : ∀ a, (enc a).length = w) {bs : Bytes} {off : ℕ} {l : List α}
    (h : StandsAt bs off (l.flatMap enc)) {i : ℕ} {a : α} (ha : l[i]? = some a) :
    StandsAt bs (off + i * w) (enc a) := by
  obtain ⟨hi, -⟩ := List.getElem?_eq_some_iff.mp ha
  rw [← length_take_flatMap hw hi]
  exact h.piece enc ha

end Pieces

/-! ## Windows and substring search -/

/-- The overlapping windows of length `k`, left to right. -/
def windows (k : ℕ) (bs : Bytes) : List Bytes :=
  (List.range (bs.length + 1 - k)).map fun i => (bs.drop i).take k

/-- Whether `needle` occurs in `hay` as a contiguous substring. -/
def containsSub (hay needle : Bytes) : Bool :=
  (windows needle.length hay).any (· == needle)

lemma mem_windows {k : ℕ} {w bs : Bytes} :
    w ∈ windows k bs ↔ w.length = k ∧ w <:+: bs := by
  simp only [windows, List.mem_map, List.mem_range]
  constructor
  · rintro ⟨i, hi, rfl⟩
    refine ⟨by simp only [List.length_take, List.length_drop]; omega, ?_⟩
    exact (List.take_prefix _ _).isInfix.trans (List.drop_suffix _ _).isInfix
  · rintro ⟨rfl, s, t, rfl⟩
    exact ⟨s.length, by simp; omega, by simp⟩

lemma containsSub_iff {hay needle : Bytes} :
    containsSub hay needle = true ↔ needle <:+: hay := by
  simp only [containsSub, List.any_eq_true, beq_iff_eq]
  constructor
  · rintro ⟨w, hw, rfl⟩
    exact (mem_windows.mp hw).2
  · intro h
    exact ⟨needle, mem_windows.mpr ⟨rfl, h⟩, rfl⟩

@[simp] lemma containsSub_nil (hay : Bytes) : containsSub hay [] = true :=
  containsSub_iff.mpr List.nil_infix

lemma windows_subset_of_infix {k : ℕ} {a b : Bytes} (h : a <:+: b) :
    windows k a ⊆ windows k b := by
  intro w hw
  obtain ⟨hlen, hinf⟩ := mem_windows.mp hw
  exact mem_windows.mpr ⟨hlen, hinf.trans h⟩

end ByteString
