import DeepFinder.Core.HashTable
import DeepFinder.Core.Records

/-!
# Calls that return

A call returns when it yields `Ok` or `Err`; a panic and an endless loop are neither.  This file
says when the pieces shared by both index readers return on arbitrary bytes: the accessors, the
posting decoder (`decode_returns_iff`) and the walk over the hash table (`findRef_returns_iff`).

Errors are told from panics by the type `Res`, so that a call that returns is one that is not a
panic; that a loop ends is shown where the loop is modelled, since definitions are total.
-/

namespace DeepFinder

open ByteString

/-- The call returns `Ok` or `Err`: where it fails, it does so with an error of the source's, and
neither by a panic nor by a loop that does not end. -/
def Res.Returns {α : Type} (r : Res α) : Prop := ∀ f, r = .error f → ∃ e, f = .err e

/-- The call returns `Ok` or panics; it has no error of its own. -/
def Res.OnlyPanics {α : Type} (r : Res α) : Prop := ∀ f, r = .error f → f = .panicked

section Calculus

variable {α β : Type}

@[simp] lemma returns_ok (a : α) : Res.Returns (.ok a : Res α) := fun _ h => by cases h

@[simp] lemma returns_pure (a : α) : Res.Returns (pure a : Res α) := returns_ok a

@[simp] lemma returns_err (e : CoreError) : Res.Returns (.error (.err e) : Res α) :=
  fun _ h => ⟨e, (Except.error.inj h).symm⟩

@[simp] lemma not_returns_panicked : ¬ Res.Returns (.error .panicked : Res α) := by
  intro h
  obtain ⟨e, he⟩ := h _ rfl
  cases he

@[simp] lemma not_returns_diverged : ¬ Res.Returns (.error .diverged : Res α) := by
  intro h
  obtain ⟨e, he⟩ := h _ rfl
  cases he

/-- A sequence returns when its first call does and, after an `Ok`, the second one does. -/
lemma returns_bind {r : Res α} {f : α → Res β} :
    (r >>= f).Returns ↔ r.Returns ∧ ∀ a, r = .ok a → (f a).Returns := by
  rcases r with e | a
  · rw [bind_error]
    constructor
    · intro h
      refine ⟨fun g hg => h g ?_, fun a ha => by cases ha⟩
      rw [Except.error.inj hg]
    · rintro ⟨h, -⟩ g hg
      exact h g (by rw [Except.error.inj hg])
  · rw [bind_ok]
    constructor
    · intro h
      refine ⟨returns_ok a, fun b hb => ?_⟩
      obtain rfl := Except.ok.inj hb
      exact h
    · rintro ⟨-, h⟩
      exact h a rfl

lemma returns_ite {c : Prop} [Decidable c] {r s : Res α} :
    (if c then r else s).Returns ↔ (c → r.Returns) ∧ (¬ c → s.Returns) := by
  by_cases h : c
  · simp [h]
  · simp [h]

lemma onlyPanics_ok (a : α) : Res.OnlyPanics (.ok a : Res α) := fun _ h => by cases h

lemma onlyPanics_panicked : Res.OnlyPanics (.error .panicked : Res α) :=
  fun _ h => (Except.error.inj h).symm

lemma Res.OnlyPanics.bind {r : Res α} {f : α → Res β} (hr : r.OnlyPanics)
    (hf : ∀ a, (f a).OnlyPanics) : (r >>= f).OnlyPanics := by
  rcases r with e | a
  · intro g hg
    exact hr g (by rw [bind_error] at hg; rw [Except.error.inj hg])
  · exact hf a

lemma Res.OnlyPanics.returns_iff {r : Res α} (h : r.OnlyPanics) :
    r.Returns ↔ ∃ a, r = .ok a := by
  rcases r with e | a
  · obtain rfl := h e rfl
    simp
  · simp

lemma onlyPanics_mapM {f : α → Res β} {l : List α} (h : ∀ x ∈ l, (f x).OnlyPanics) :
    (l.mapM f).OnlyPanics := by
  induction l with
  | nil => exact onlyPanics_ok _
  | cons x l ih =>
      rw [List.mapM_cons]
      refine (h x (List.mem_cons_self ..)).bind fun y => ?_
      exact (ih fun z hz => h z (List.mem_cons_of_mem _ hz)).bind fun ys => onlyPanics_ok _

lemma onlyPanics_foldlM {f : β → α → Res β} {l : List α} (h : ∀ acc x, (f acc x).OnlyPanics)
    (acc : β) : (l.foldlM f acc).OnlyPanics := by
  induction l generalizing acc with
  | nil => exact onlyPanics_ok _
  | cons x l ih =>
      rw [List.foldlM_cons]
      exact (h acc x).bind fun acc' => ih acc'

lemma length_of_mapM {f : α → Res β} {l : List α} {out : List β} (h : l.mapM f = .ok out) :
    out.length = l.length := by
  induction l generalizing out with
  | nil =>
      obtain rfl := Except.ok.inj h
      rfl
  | cons x l ih =>
      rw [List.mapM_cons] at h
      cases hx : f x with
      | error e => rw [hx] at h; cases h
      | ok y =>
          cases hl : l.mapM f with
          | error e => rw [hx, hl] at h; cases h
          | ok ys =>
              rw [hx, hl] at h
              obtain rfl := Except.ok.inj h
              rw [List.length_cons, List.length_cons, ih hl]

/-- A `map` is `Ok` exactly when every call is. -/
lemma mapM_ok_iff {f : α → Res β} {l : List α} :
    (∃ out, l.mapM f = .ok out) ↔ ∀ x ∈ l, ∃ y, f x = .ok y := by
  induction l with
  | nil => exact ⟨fun _ x hx => absurd hx List.not_mem_nil, fun _ => ⟨[], rfl⟩⟩
  | cons x l ih =>
      rw [List.mapM_cons, List.forall_mem_cons, ← ih]
      cases hx : f x with
      | error e => simp
      | ok y =>
          cases hl : l.mapM f with
          | error e => simp
          | ok ys => simp

/-- A loop is `Ok` exactly when every round is, for rounds that keep an invariant and whose
success does not depend on the accumulator. -/
lemma foldlM_ok_iff {f : β → α → Res β} {I : β → Prop} {P : α → Prop} {l : List α}
    (hstep : ∀ acc x, I acc → x ∈ l →
      ((∃ out, f acc x = .ok out) ↔ P x) ∧ ∀ out, f acc x = .ok out → I out)
    {acc : β} (hacc : I acc) : (∃ out, l.foldlM f acc = .ok out ∧ I out) ↔ ∀ x ∈ l, P x := by
  induction l generalizing acc with
  | nil =>
      exact ⟨fun _ x hx => absurd hx List.not_mem_nil, fun _ => ⟨acc, rfl, hacc⟩⟩
  | cons x l ih =>
      obtain ⟨hiff, hkeep⟩ := hstep acc x hacc (List.mem_cons_self ..)
      have hrest : ∀ acc y, I acc → y ∈ l →
          ((∃ out, f acc y = .ok out) ↔ P y) ∧ ∀ out, f acc y = .ok out → I out :=
        fun acc y h hy => hstep acc y h (List.mem_cons_of_mem _ hy)
      rw [List.foldlM_cons, List.forall_mem_cons, ← hiff]
      cases hx : f acc x with
      | error e => simp
      | ok out =>
          rw [bind_ok, ih hrest (hkeep out hx)]
          simp

end Calculus

/-! ## Accessors -/

/-- The `k`-byte little-endian field at `pos`. -/
def fieldAt (buf : Bytes) (pos k : ℕ) : ℕ := ofLE ((buf.drop pos).take k)

lemma sliceAt_eq (buf : Bytes) (pos n : ℕ) :
    sliceAt buf pos n =
      if pos + n ≤ buf.length then .ok ((buf.drop pos).take n) else .error .panicked := by
  unfold sliceAt subslice
  by_cases h : pos + n ≤ buf.length
  · rw [if_pos h, if_pos h]
  · rw [if_neg h, if_neg h]

lemma leAt_eq (buf : Bytes) (pos k : ℕ) :
    leAt buf pos k =
      if pos + k ≤ buf.length then .ok (fieldAt buf pos k) else .error .panicked := by
  rw [leAt, sliceAt_eq]
  split <;> rfl

lemma byteAt_eq (buf : Bytes) (pos : ℕ) :
    byteAt buf pos =
      if pos < buf.length then .ok ((buf[pos]?).getD 0) else .error .panicked := by
  split
  · exact TurboPFor.byteAt_eq_ok ‹_›
  · rw [byteAt, List.getElem?_eq_none (by omega)]

lemma onlyPanics_sliceAt (buf : Bytes) (pos n : ℕ) : (sliceAt buf pos n).OnlyPanics := by
  rw [sliceAt_eq]
  split
  · exact onlyPanics_ok _
  · exact onlyPanics_panicked

lemma onlyPanics_leAt (buf : Bytes) (pos k : ℕ) : (leAt buf pos k).OnlyPanics := by
  rw [leAt_eq]
  split
  · exact onlyPanics_ok _
  · exact onlyPanics_panicked

lemma onlyPanics_byteAt (buf : Bytes) (pos : ℕ) : (byteAt buf pos).OnlyPanics := by
  rw [byteAt_eq]
  split
  · exact onlyPanics_ok _
  · exact onlyPanics_panicked

@[simp] lemma returns_sliceAt {buf : Bytes} {pos n : ℕ} :
    (sliceAt buf pos n).Returns ↔ pos + n ≤ buf.length := by
  rw [sliceAt_eq, returns_ite]
  simp

@[simp] lemma returns_leAt {buf : Bytes} {pos k : ℕ} :
    (leAt buf pos k).Returns ↔ pos + k ≤ buf.length := by
  rw [leAt_eq, returns_ite]
  simp

lemma leAt_eq_ok {buf : Bytes} {pos k : ℕ} (h : pos + k ≤ buf.length) :
    leAt buf pos k = .ok (fieldAt buf pos k) := by
  rw [leAt_eq, if_pos h]

lemma leAt_eq_ok_iff {buf : Bytes} {pos k n : ℕ} :
    leAt buf pos k = .ok n ↔ pos + k ≤ buf.length ∧ fieldAt buf pos k = n := by
  rw [leAt_eq]
  split <;> simp [*]

lemma sliceAt_eq_ok_iff {buf s : Bytes} {pos n : ℕ} :
    sliceAt buf pos n = .ok s ↔ pos + n ≤ buf.length ∧ (buf.drop pos).take n = s := by
  rw [sliceAt_eq]
  split <;> simp [*]

lemma byteAt_eq_ok_iff {buf : Bytes} {pos : ℕ} {b : UInt8} :
    byteAt buf pos = .ok b ↔ pos < buf.length ∧ (buf[pos]?).getD 0 = b := by
  rw [byteAt_eq]
  split <;> simp [*]

lemma fieldAt_take {src : Bytes} {w o k : ℕ} (h : o + k ≤ w) :
    fieldAt (src.take w) o k = fieldAt src o k := by
  rw [fieldAt, fieldAt, List.drop_take, List.take_take, Nat.min_eq_left (by omega)]

lemma returns_add64 {a b : ℕ} : (add64 a b).Returns ↔ a + b < 2 ^ 64 := by
  rw [add64, returns_ite]
  simp

lemma slotsOfLog2_cases {log2 slots : ℕ} (h : slotsOfLog2 log2 = .ok slots) :
    slots = 0 ∨ ∃ k, slots = 2 ^ k := by
  unfold slotsOfLog2 at h
  split at h
  · exact Or.inl (Except.ok.inj h).symm
  · split at h
    · exact Or.inr ⟨log2, by rw [← Except.ok.inj h, Nat.one_shiftLeft]⟩
    · cases h

lemma slotsOfLog2_returns_iff {log2 : ℕ} : (slotsOfLog2 log2).Returns ↔ log2 < 64 := by
  unfold slotsOfLog2
  by_cases h : log2 = 0
  · simp [h]
  · rw [if_neg h]
    by_cases h64 : log2 < 64
    · simp [h64]
    · simp [h64]

lemma returns_readMeta {rec : Bytes} (h : rec.length = metaRecLen) : (readMeta rec).Returns := by
  have h17 : rec.length = 17 := h
  have h64 : ∀ pos, pos + 8 ≤ 17 → (leI64 rec pos).Returns := by
    intro pos hpos
    rw [leI64, returns_bind, returns_leAt]
    exact ⟨by omega, fun n _ => returns_ok _⟩
  rw [readMeta, byteAt_eq, if_pos (by omega), bind_ok, returns_bind]
  refine ⟨h64 1 (by omega), fun size _ => ?_⟩
  rw [returns_bind]
  exact ⟨h64 9 (by omega), fun mtime _ => returns_ok _⟩

/-- The scan for a path checks every length before it reads. -/
lemma returns_scanPath (truncated overruns : String) (buf : Bytes) (index p : ℕ) :
    (scanPath truncated overruns buf index p).Returns := by
  induction index generalizing p with
  | zero =>
      rw [scanPath, returns_ite]
      refine ⟨fun _ => returns_err _, fun hp => ?_⟩
      rw [leU32, leAt_eq_ok (by omega), bind_ok, returns_ite]
      refine ⟨fun _ => returns_err _, fun hlen => ?_⟩
      rw [sliceAt_eq, if_pos (by omega)]
      dsimp only [bind_ok]
      split
      · exact returns_ok _
      · exact returns_err _
  | succ index ih =>
      rw [scanPath, returns_ite]
      refine ⟨fun _ => returns_err _, fun hp => ?_⟩
      rw [leU32, leAt_eq_ok (by omega), bind_ok, returns_ite]
      exact ⟨fun _ => returns_err _, fun _ => ih _⟩

lemma returns_prefixSums (prev : ℕ) (ds : List ℕ) : (prefixSums prev ds).Returns := by
  induction ds generalizing prev with
  | nil => exact returns_ok _
  | cons d ds ih =>
      rw [prefixSums, returns_ite]
      refine ⟨fun _ => ?_, fun _ => returns_err _⟩
      rw [returns_bind]
      exact ⟨ih _, fun _ _ => returns_ok _⟩

/-! ## The posting decoder -/

namespace TurboPFor

/-- The width byte of the block at `pos`. -/
def widthAt (buf : Bytes) (pos : ℕ) : ℕ := ((buf[pos]?).getD 0).toNat

/-- Where the exceptions of the block of `n` values at `pos` begin. -/
def excStart (buf : Bytes) (pos n : ℕ) : ℕ := pos + 3 + (n * widthAt buf pos + 7) / 8

/-- Where the block of `n` values at `pos` ends. -/
def blockEnd (buf : Bytes) (pos n : ℕ) : ℕ :=
  excStart buf pos n + 6 * fieldAt buf (pos + 1) 2

/-- The block of `n` values at `pos` lies inside the buffer, sets no bit above the 32nd plane and
places every exception inside the block. -/
structure BlockFits (buf : Bytes) (pos n : ℕ) : Prop where
  inside : blockEnd buf pos n ≤ buf.length
  narrow : ∀ p, 32 ≤ p → p < widthAt buf pos → ∀ i < n,
    getBit (buf.drop (pos + 3)) (p * n + i) = false
  placed : ∀ j < fieldAt buf (pos + 1) 2, fieldAt buf (excStart buf pos n + 6 * j) 2 < n

/-- The blocks of `remaining` values from `pos` on all fit. -/
def BlocksFit (buf : Bytes) : ℕ → ℕ → ℕ → Prop
  | 0, _, _ => True
  | fuel + 1, pos, remaining => remaining ≠ 0 →
      BlockFits buf pos (min remaining blockLen) ∧
        BlocksFit buf fuel (blockEnd buf pos (min remaining blockLen))
          (remaining - min remaining blockLen)

/-- `count` values can be decoded from the buffer. -/
def DecodeFits (buf : Bytes) (count : ℕ) : Prop := BlocksFit buf count 5 count

lemma onlyPanics_decodePlane (fr : Bytes) (n p : ℕ) (vals : List ℕ) :
    (decodePlane fr n p vals).OnlyPanics := by
  refine onlyPanics_mapM fun vi _ => (onlyPanics_byteAt _ _).bind fun byte => ?_
  split
  · split
    · exact onlyPanics_ok _
    · exact onlyPanics_panicked
  · exact onlyPanics_ok _

lemma onlyPanics_decodeExceptions (buf : Bytes) (count pos : ℕ) (vals : List ℕ) :
    (decodeExceptions buf count pos vals).OnlyPanics := by
  induction count generalizing pos vals with
  | zero => exact onlyPanics_ok _
  | succ count ih =>
      refine (onlyPanics_leAt _ _ _).bind fun p => (onlyPanics_leAt _ _ _).bind fun v => ?_
      split
      · exact ih _ _
      · exact onlyPanics_panicked

lemma onlyPanics_decodeBlock (buf : Bytes) (pos n : ℕ) : (decodeBlock buf pos n).OnlyPanics :=
  (onlyPanics_byteAt _ _).bind fun _ => (onlyPanics_leAt _ _ _).bind fun _ =>
    (onlyPanics_sliceAt _ _ _).bind fun _ =>
      (onlyPanics_foldlM (fun _ _ => onlyPanics_decodePlane _ _ _ _) _).bind fun _ =>
        onlyPanics_decodeExceptions _ _ _ _

lemma onlyPanics_decodeLoop (buf : Bytes) (fuel pos remaining : ℕ) (out : List ℕ) :
    (decodeLoop buf fuel pos remaining out).OnlyPanics := by
  induction fuel generalizing pos remaining out with
  | zero => exact onlyPanics_ok _
  | succ fuel ih =>
      rw [decodeLoop]
      split
      · exact onlyPanics_ok _
      · exact (onlyPanics_decodeBlock _ _ _).bind fun _ => ih _ _ _

lemma onlyPanics_decode (buf : Bytes) (count : ℕ) : (decode buf count).OnlyPanics := by
  unfold decode
  split
  · exact onlyPanics_ok _
  · exact onlyPanics_decodeLoop _ _ _ _ _

/-- A plane reads when it is below the 32nd or clear. -/
lemma decodePlane_ok_iff {fr : Bytes} {n b p : ℕ} {vals : List ℕ} (hvals : vals.length = n)
    (hfr : fr.length = (n * b + 7) / 8) (hp : p < b) :
    (∃ out, decodePlane fr n p vals = .ok out) ↔
      (32 ≤ p → ∀ i < n, getBit fr (p * n + i) = false) := by
  have hbyte : ∀ i < n, byteAt fr ((p * n + i) / 8) = .ok ((fr[(p * n + i) / 8]?).getD 0) := by
    intro i hi
    have := plane_index_lt hp hi
    exact byteAt_eq_ok (by omega)
  rw [decodePlane, mapM_ok_iff]
  constructor
  · intro h h32 i hi
    obtain ⟨v, hv⟩ : ∃ v, vals[i]? = some v := ⟨_, List.getElem?_eq_getElem (by omega)⟩
    obtain ⟨y, hy⟩ := h (v, i) (List.mem_zipIdx_iff_getElem?.mpr hv)
    rw [hbyte i hi, bind_ok] at hy
    dsimp only at hy
    unfold getBit
    by_contra hset
    rw [if_pos (by simpa using hset), if_neg (by omega)] at hy
    cases hy
  · rintro h ⟨v, i⟩ hmem
    obtain ⟨hi, -⟩ := List.getElem?_eq_some_iff.mp (List.mem_zipIdx_iff_getElem?.mp hmem)
    rw [hbyte i (by omega), bind_ok]
    dsimp only
    by_cases hset : ((fr[(p * n + i) / 8]?).getD 0).toNat.testBit ((p * n + i) % 8) = true
    · have h32 : p < 32 := by
        by_contra hge
        have := h (by omega) i (by omega)
        rw [getBit, hset] at this
        cases this
      rw [if_pos hset, if_pos h32]
      exact ⟨_, rfl⟩
    · rw [if_neg hset]
      exact ⟨_, rfl⟩

lemma length_of_decodePlane {fr : Bytes} {n p : ℕ} {vals out : List ℕ}
    (h : decodePlane fr n p vals = .ok out) : out.length = vals.length := by
  rw [length_of_mapM h, List.length_zipIdx]

lemma length_of_planes {fr : Bytes} {n : ℕ} {ps out : List ℕ}
    (h : ps.foldlM (fun vals p => decodePlane fr n p vals) (List.replicate n 0) = .ok out) :
    out.length = n := by
  have hfold : ∀ (ps acc out : List ℕ), acc.length = n →
      ps.foldlM (fun vals p => decodePlane fr n p vals) acc = .ok out → out.length = n := by
    intro ps
    induction ps with
    | nil =>
        intro acc out hacc h
        obtain rfl := Except.ok.inj h
        exact hacc
    | cons p ps ih =>
        intro acc out hacc h
        rw [List.foldlM_cons] at h
        obtain ⟨mid, hmid, h⟩ := bind_eq_ok_iff.mp h
        exact ih mid out ((length_of_decodePlane hmid).trans hacc) h
  exact hfold ps _ out List.length_replicate h

/-- The exceptions read when each lies inside the buffer and names a value of the block. -/
lemma decodeExceptions_ok_iff {buf : Bytes} {count pos : ℕ} {vals : List ℕ} :
    (∃ out, decodeExceptions buf count pos vals = .ok out) ↔
      ∀ j < count, pos + 6 * j + 6 ≤ buf.length ∧
        fieldAt buf (pos + 6 * j) 2 < vals.length := by
  induction count generalizing pos vals with
  | zero => exact ⟨fun _ j hj => absurd hj (Nat.not_lt_zero j), fun _ => ⟨_, rfl⟩⟩
  | succ count ih =>
      have hshift : ∀ j, pos + 6 + 6 * j = pos + 6 * (j + 1) := fun j => by omega
      rw [decodeExceptions]
      by_cases hin : pos + 6 ≤ buf.length
      · rw [leAt_eq_ok (by omega), bind_ok, leAt_eq_ok (by omega), bind_ok]
        by_cases hp : fieldAt buf pos 2 < vals.length
        · rw [if_pos hp, ih, List.length_set]
          constructor
          · intro h j hj
            rcases j with _ | j
            · exact ⟨hin, hp⟩
            · rw [← hshift]
              exact h j (by omega)
          · intro h j hj
            rw [hshift]
            exact h (j + 1) (by omega)
        · rw [if_neg hp]
          refine ⟨fun h => ?_, fun h => absurd (h 0 (by omega)).2 hp⟩
          obtain ⟨_, h⟩ := h
          cases h
      · refine ⟨fun hok => ?_, fun h => absurd (h 0 (by omega)).1 hin⟩
        obtain ⟨out, h⟩ := hok
        rw [leAt_eq] at h
        split at h
        · rw [bind_ok, leAt_eq, if_neg (by omega)] at h
          cases h
        · cases h

lemma snd_of_decodeExceptions {buf : Bytes} {count pos : ℕ} {vals : List ℕ} {out : List ℕ × ℕ}
    (h : decodeExceptions buf count pos vals = .ok out) : out.2 = pos + 6 * count := by
  induction count generalizing pos vals with
  | zero =>
      obtain rfl := Except.ok.inj h
      rfl
  | succ count ih =>
      rw [decodeExceptions, leAt_eq, leAt_eq] at h
      split at h
      · split at h
        · simp only [bind_ok] at h
          split at h
          · rw [ih h]
            omega
          · cases h
        · cases h
      · cases h

lemma getBit_take {bs : Bytes} {w j : ℕ} (h : j / 8 < w) :
    getBit (bs.take w) j = getBit bs j := by
  rw [getBit, getBit, List.getElem?_take_of_lt h]

/-- The planes read when none from the 32nd on has a bit set. -/
lemma planes_ok_iff {fr : Bytes} {n b : ℕ} (hfr : fr.length = (n * b + 7) / 8) :
    (∃ out, (List.range b).foldlM (fun vals p => decodePlane fr n p vals)
      (List.replicate n 0) = .ok out ∧ out.length = n) ↔
      ∀ p, 32 ≤ p → p < b → ∀ i < n, getBit fr (p * n + i) = false := by
  rw [@foldlM_ok_iff _ _ _ (fun out : List ℕ => out.length = n)
    (fun p => 32 ≤ p → ∀ i < n, getBit fr (p * n + i) = false)]
  · refine ⟨fun h p h32 hp => h p (List.mem_range.mpr hp) h32, fun h p hp h32 => ?_⟩
    exact h p h32 (List.mem_range.mp hp)
  · intro acc p hacc hp
    exact ⟨decodePlane_ok_iff hacc hfr (List.mem_range.mp hp),
      fun out h => (length_of_decodePlane h).trans hacc⟩
  · exact List.length_replicate

lemma getBit_frameSlice {buf : Bytes} {pos n b p i : ℕ} (hp : p < b) (hi : i < n) :
    getBit ((buf.drop (pos + 3)).take ((n * b + 7) / 8)) (p * n + i) =
      getBit (buf.drop (pos + 3)) (p * n + i) := by
  have := plane_index_lt hp hi
  exact getBit_take (by omega)

lemma length_frameSlice {buf : Bytes} {pos w : ℕ} (h : pos + 3 + w ≤ buf.length) :
    ((buf.drop (pos + 3)).take w).length = w := by
  simp only [List.length_take, List.length_drop]
  omega

/-- A block that decodes fits, and ends where it says. -/
lemma blockFits_of_decodeBlock {buf : Bytes} {pos n : ℕ} {out : List ℕ × ℕ}
    (h : decodeBlock buf pos n = .ok out) :
    BlockFits buf pos n ∧ out.2 = blockEnd buf pos n := by
  obtain ⟨b, hb, h₁⟩ := bind_eq_ok_iff.mp h
  obtain ⟨-, rfl⟩ := byteAt_eq_ok_iff.mp hb
  obtain ⟨exc, hexc, h₂⟩ := bind_eq_ok_iff.mp h₁
  obtain ⟨-, rfl⟩ := leAt_eq_ok_iff.mp hexc
  obtain ⟨fr, hfr, h₃⟩ := bind_eq_ok_iff.mp h₂
  obtain ⟨hframe, rfl⟩ := sliceAt_eq_ok_iff.mp hfr
  obtain ⟨vals, hvals, hread⟩ := bind_eq_ok_iff.mp h₃
  have hplanes := planes_ok_iff (length_frameSlice hframe)
  have hlen : vals.length = n := length_of_planes hvals
  have hexcs := decodeExceptions_ok_iff.mp ⟨out, hread⟩
  refine ⟨⟨?_, ?_, ?_⟩, snd_of_decodeExceptions hread⟩
  · rcases Nat.eq_zero_or_pos (fieldAt buf (pos + 1) 2) with hzero | hpos
    · rw [blockEnd, hzero]
      exact hframe
    · have := (hexcs (fieldAt buf (pos + 1) 2 - 1) (by omega)).1
      rw [blockEnd, excStart, widthAt]
      omega
  · intro p h32 hp i hi
    rw [← getBit_frameSlice hp hi]
    exact hplanes.mp ⟨vals, hvals, hlen⟩ p h32 hp i hi
  · intro j hj
    exact lt_of_lt_of_eq (hexcs j hj).2 hlen

/-- A block that fits decodes. -/
lemma BlockFits.decodeBlock {buf : Bytes} {pos n : ℕ} (h : BlockFits buf pos n) :
    ∃ out, TurboPFor.decodeBlock buf pos n = .ok out := by
  have hinside := h.inside
  have hframe : pos + 3 + (n * widthAt buf pos + 7) / 8 ≤ buf.length := by
    rw [blockEnd, excStart] at hinside
    omega
  obtain ⟨vals, hvals, hlen⟩ := (planes_ok_iff (length_frameSlice hframe)).mpr
    fun p h32 hp i hi => (getBit_frameSlice hp hi).trans (h.narrow p h32 hp i hi)
  have hexcs : ∀ j < fieldAt buf (pos + 1) 2,
      excStart buf pos n + 6 * j + 6 ≤ buf.length ∧
        fieldAt buf (excStart buf pos n + 6 * j) 2 < vals.length := by
    intro j hj
    rw [blockEnd] at hinside
    exact ⟨by omega, hlen.symm ▸ h.placed j hj⟩
  obtain ⟨out, hout⟩ := decodeExceptions_ok_iff.mpr hexcs
  refine ⟨out, ?_⟩
  rw [TurboPFor.decodeBlock, byteAt_eq_ok (by omega), bind_ok, leAt_eq_ok (by omega), bind_ok]
  exact bind_eq_ok_iff.mpr ⟨_, sliceAt_eq_ok_iff.mpr ⟨hframe, rfl⟩,
    bind_eq_ok_iff.mpr ⟨vals, hvals, hout⟩⟩

/-- The loop over the blocks decodes exactly when they all fit. -/
lemma decodeLoop_ok_iff {buf : Bytes} {fuel pos remaining : ℕ} {out : List ℕ} :
    (∃ ds, decodeLoop buf fuel pos remaining out = .ok ds) ↔
      BlocksFit buf fuel pos remaining := by
  induction fuel generalizing pos remaining out with
  | zero => exact ⟨fun _ => trivial, fun _ => ⟨out, rfl⟩⟩
  | succ fuel ih =>
      rw [decodeLoop, BlocksFit]
      split
      · rename_i hzero
        exact ⟨fun _ h => absurd hzero h, fun _ => ⟨out, rfl⟩⟩
      · rename_i hne
        constructor
        · rintro ⟨ds, h⟩ -
          obtain ⟨blk, hblk, hrest⟩ := bind_eq_ok_iff.mp h
          obtain ⟨hfits, hend⟩ := blockFits_of_decodeBlock hblk
          rw [← hend]
          exact ⟨hfits, ih.mp ⟨ds, hrest⟩⟩
        · intro h
          obtain ⟨hfits, hrest⟩ := h hne
          obtain ⟨blk, hblk⟩ := hfits.decodeBlock
          rw [← (blockFits_of_decodeBlock hblk).2] at hrest
          rw [hblk, bind_ok]
          exact ih.mpr hrest

/-- Decoding arbitrary bytes returns exactly when all blocks fit. -/
theorem decode_returns_iff {buf : Bytes} {count : ℕ} :
    (decode buf count).Returns ↔ DecodeFits buf count := by
  rw [(onlyPanics_decode buf count).returns_iff, DecodeFits, decode]
  split
  · rename_i hzero
    subst hzero
    exact ⟨fun _ => trivial, fun _ => ⟨[], rfl⟩⟩
  · exact decodeLoop_ok_iff

end TurboPFor

/-! ## The walk over the hash table -/

/-- How far slot `idx` lies behind the home slot of `key`. -/
def theirProbe (slots idx key : ℕ) : ℕ := (idx + slots - (hash key &&& (slots - 1))) &&& (slots - 1)

/-- The walk for `trig` comes to slot `idx` after `pr` steps: every slot before it is read, is
not empty, holds another key and is not closer to its home than the walk is long. -/
inductive Visits (slots : ℕ) (readSlot : ℕ → Res Bytes) (trig : ℕ) : ℕ → ℕ → Prop
  | home : Visits slots readSlot trig (hash trig &&& (slots - 1)) 0
  | step {idx pr : ℕ} {slot : Bytes} : Visits slots readSlot trig idx pr →
      readSlot idx = .ok slot → fieldAt slot 0 4 ≠ emptyKey →
      pr ≤ theirProbe slots idx (fieldAt slot 0 4) → fieldAt slot 0 4 ≠ trig →
      Visits slots readSlot trig ((idx + 1) &&& (slots - 1)) (pr + 1)

/-- The walk for `trig` comes to a slot that holds it, with the payload `ref`. -/
def FindsRef (slots : ℕ) (readSlot : ℕ → Res Bytes) (trig : ℕ) (ref : PostingRef) : Prop :=
  ∃ idx pr slot, Visits slots readSlot trig idx pr ∧ readSlot idx = .ok slot ∧
    fieldAt slot 0 4 = trig ∧ trig ≠ emptyKey ∧ pr ≤ theirProbe slots idx trig ∧
    ref = ⟨fieldAt slot 4 4, fieldAt slot 8 8, fieldAt slot 16 4⟩

section Walk

variable {slots k trig : ℕ} {readSlot : ℕ → Res Bytes}

lemma theirProbe_lt (hslots : slots = 2 ^ k) (idx key : ℕ) : theirProbe slots idx key < slots := by
  rw [theirProbe, and_mask hslots, hslots]
  exact Nat.mod_lt _ (Nat.two_pow_pos k)

lemma Visits.le (hslots : slots = 2 ^ k) {idx pr : ℕ} (h : Visits slots readSlot trig idx pr) :
    pr ≤ slots := by
  rcases h with _ | @⟨idx, pr, slot, -, -, -, hle, -⟩
  · exact Nat.zero_le _
  · exact lt_of_le_of_lt hle (theirProbe_lt hslots _ _)

variable (hlen : ∀ idx slot, readSlot idx = .ok slot → slot.length = slotLen)
include hlen

/-- One round of the walk on a slot that was read. -/
lemma findRefLoop_of_read {fuel idx pr : ℕ} {slot : Bytes} (h : readSlot idx = .ok slot) :
    findRefLoop hash slots (slots - 1) trig readSlot (fuel + 1) idx pr =
      if fieldAt slot 0 4 = emptyKey then .ok none
      else if theirProbe slots idx (fieldAt slot 0 4) < pr then .ok none
      else if fieldAt slot 0 4 = trig then
        .ok (some ⟨fieldAt slot 4 4, fieldAt slot 8 8, fieldAt slot 16 4⟩)
      else findRefLoop hash slots (slots - 1) trig readSlot fuel ((idx + 1) &&& (slots - 1))
        (pr + 1) := by
  have h20 : slot.length = 20 := hlen idx slot h
  have hfield : ∀ o n, o + n ≤ 20 → leAt slot o n = .ok (fieldAt slot o n) :=
    fun o n hon => leAt_eq_ok (by omega)
  rw [findRefLoop, h, bind_ok, leU32, hfield 0 4 (by decide), bind_ok, leU32, leU64, leU32,
    hfield 4 4 (by decide), hfield 8 8 (by decide), hfield 16 4 (by decide)]
  rfl

/-- From every slot it visits the walk goes on as the loop does. -/
lemma Visits.findRef_eq (hslots : slots = 2 ^ k) {idx pr : ℕ}
    (h : Visits slots readSlot trig idx pr) :
    ∃ fuel, fuel + 1 + pr = slots + 1 ∧ findRef hash slots (slots - 1) trig readSlot =
      findRefLoop hash slots (slots - 1) trig readSlot (fuel + 1) idx pr := by
  induction h with
  | home => exact ⟨slots, rfl, rfl⟩
  | @step idx pr slot _ hread hne hle hkey ih =>
      obtain ⟨fuel, hfuel, heq⟩ := ih
      have hlt := theirProbe_lt hslots idx (fieldAt slot 0 4)
      obtain ⟨fuel, rfl⟩ : ∃ f, fuel = f + 1 := ⟨fuel - 1, by omega⟩
      refine ⟨fuel, by omega, ?_⟩
      rw [heq, findRefLoop_of_read hlen hread, if_neg hne, if_neg (Nat.not_lt.mpr hle),
        if_neg hkey]

/-- Along slots that are read or rejected the loop returns, and what it finds is found by the
walk. -/
lemma findRefLoop_returns (hslots : slots = 2 ^ k)
    (hreads : ∀ idx pr, Visits slots readSlot trig idx pr → (readSlot idx).Returns) :
    ∀ (fuel : ℕ) {idx pr : ℕ}, Visits slots readSlot trig idx pr → fuel + pr = slots + 1 →
      (findRefLoop hash slots (slots - 1) trig readSlot fuel idx pr).Returns := by
  intro fuel
  induction fuel with
  | zero =>
      intro idx pr hv hfuel
      have := hv.le hslots
      omega
  | succ fuel ih =>
      intro idx pr hv hfuel
      have hret := hreads idx pr hv
      cases hread : readSlot idx with
      | error f =>
          rw [findRefLoop, hread]
          rw [hread] at hret
          obtain ⟨e, rfl⟩ := hret f rfl
          exact returns_err e
      | ok slot =>
          rw [findRefLoop_of_read hlen hread]
          refine returns_ite.mpr ⟨fun _ => returns_ok _, fun hne => ?_⟩
          refine returns_ite.mpr ⟨fun _ => returns_ok _, fun hle => ?_⟩
          refine returns_ite.mpr ⟨fun _ => returns_ok _, fun hkey => ?_⟩
          exact ih (hv.step hread hne (Nat.le_of_not_lt hle) hkey) (by omega)

lemma findsRef_of_findRefLoop {ref : PostingRef} :
    ∀ (fuel : ℕ) {idx pr : ℕ}, Visits slots readSlot trig idx pr →
      findRefLoop hash slots (slots - 1) trig readSlot fuel idx pr = .ok (some ref) →
      FindsRef slots readSlot trig ref := by
  intro fuel
  induction fuel with
  | zero => intro idx pr _ h; cases h
  | succ fuel ih =>
      intro idx pr hv h
      cases hread : readSlot idx with
      | error f =>
          rw [findRefLoop, hread] at h
          cases h
      | ok slot =>
          rw [findRefLoop_of_read hlen hread] at h
          by_cases hne : fieldAt slot 0 4 = emptyKey
          · rw [if_pos hne] at h
            cases h
          · rw [if_neg hne] at h
            by_cases hle : theirProbe slots idx (fieldAt slot 0 4) < pr
            · rw [if_pos hle] at h
              cases h
            · rw [if_neg hle] at h
              by_cases hkey : fieldAt slot 0 4 = trig
              · rw [if_pos hkey] at h
                refine ⟨idx, pr, slot, hv, hread, hkey, hkey ▸ hne, ?_, ?_⟩
                · rw [← hkey]
                  exact Nat.le_of_not_lt hle
                · exact (Option.some.inj (Except.ok.inj h)).symm
              · rw [if_neg hkey] at h
                exact ih (hv.step hread hne (Nat.le_of_not_lt hle) hkey) h

lemma findRef_returns_iff (hslots : slots = 2 ^ k) :
    (findRef hash slots (slots - 1) trig readSlot).Returns ↔
      ∀ idx pr, Visits slots readSlot trig idx pr → (readSlot idx).Returns := by
  constructor
  · intro h idx pr hv
    obtain ⟨fuel, -, heq⟩ := hv.findRef_eq hlen hslots
    rw [heq, findRefLoop, returns_bind] at h
    exact h.1
  · intro h
    exact findRefLoop_returns hlen hslots h (slots + 1) Visits.home rfl

lemma findRef_eq_some_iff (hslots : slots = 2 ^ k) {ref : PostingRef} :
    findRef hash slots (slots - 1) trig readSlot = .ok (some ref) ↔
      FindsRef slots readSlot trig ref := by
  constructor
  · exact findsRef_of_findRefLoop hlen (slots + 1) Visits.home
  · rintro ⟨idx, pr, slot, hv, hread, hkey, hne, hle, rfl⟩
    obtain ⟨fuel, -, heq⟩ := hv.findRef_eq hlen hslots
    rw [heq, findRefLoop_of_read hlen hread, hkey, if_neg hne, if_neg (Nat.not_lt.mpr hle),
      if_pos rfl]

/-- The posting at `ref` is read or rejected, and decodes when it is read. -/
def RefFits (readEnc : ℕ → ℕ → Res Bytes) (ref : PostingRef) : Prop :=
  (readEnc ref.off ref.len).Returns ∧
    ∀ enc, readEnc ref.off ref.len = .ok enc → TurboPFor.DecodeFits enc ref.count

omit hlen in
lemma decodeRef_returns_iff {readEnc : ℕ → ℕ → Res Bytes} {ref : PostingRef} :
    (decodeRef readEnc ref).Returns ↔ RefFits readEnc ref := by
  rw [decodeRef, returns_bind, RefFits]
  refine and_congr_right fun _ => forall_congr' fun enc => imp_congr_right fun _ => ?_
  rw [returns_bind, TurboPFor.decode_returns_iff]
  refine and_iff_left_of_imp fun _ ds _ => ?_
  rw [returns_bind]
  exact ⟨returns_prefixSums 0 ds, fun _ _ => returns_ok _⟩

/-- A lookup returns exactly when every slot its walk visits is read or rejected and the posting
it finds fits. -/
theorem probe_returns_iff (hslots : slots = 2 ^ k) {readEnc : ℕ → ℕ → Res Bytes} :
    (probe slots (slots - 1) trig readSlot readEnc).Returns ↔
      (∀ idx pr, Visits slots readSlot trig idx pr → (readSlot idx).Returns) ∧
        ∀ ref, FindsRef slots readSlot trig ref → RefFits readEnc ref := by
  rw [probe_eq_findRef, returns_bind, findRef_returns_iff hlen hslots]
  refine and_congr_right fun _ => ?_
  constructor
  · intro h ref href
    exact decodeRef_returns_iff.mp (h (some ref) ((findRef_eq_some_iff hlen hslots).mpr href))
  · intro h found hfound
    cases found with
    | none => exact returns_ok _
    | some ref =>
        exact decodeRef_returns_iff.mpr (h ref ((findRef_eq_some_iff hlen hslots).mp hfound))

end Walk

end DeepFinder
