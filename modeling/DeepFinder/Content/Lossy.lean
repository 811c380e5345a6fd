import DeepFinder.Content.Lines
import DeepFinder.Lib.Lines
import Mathlib.Data.Char

/-!
# Lines and lossy decoding

A newline byte belongs to no other character and cuts off what stands before it as the end of the
text does.  So `from_utf8_lossy` decodes a text line by line (`splitOn_fromUtf8Lossy`): no invalid
sequence runs over the end of a line, and no other byte decodes to a newline.
-/

namespace DeepFinder

open ByteString

/-! ## The front of a text -/

lemma isContinuation_newline : isContinuation (some newline) = false := by decide

lemma secondByteOk_newline (b : UInt8) : secondByteOk b (some newline) = false := by
  unfold secondByteOk
  dsimp only
  split_ifs <;> decide

lemma utf8Front_append_newline {bs : Bytes} (hne : bs ≠ []) (rest : Bytes) :
    utf8Front (bs ++ newline :: rest) = utf8Front bs := by
  have hcont := isContinuation_newline
  have hsecond := secondByteOk_newline
  have hnone : isContinuation none = false := rfl
  have hnone' : ∀ b, secondByteOk b none = false := fun _ => rfl
  rcases bs with _ | ⟨b₀, _ | ⟨b₁, _ | ⟨b₂, _ | ⟨b₃, bs⟩⟩⟩⟩
  · exact absurd rfl hne
  all_goals simp [utf8Front, payload, hcont, hsecond, hnone, hnone']

lemma utf8Front_le {bs : Bytes} (hne : bs ≠ []) :
    0 < (utf8Front bs).2 ∧ (utf8Front bs).2 ≤ bs.length := by
  have hnone : isContinuation none = false := rfl
  have hnone' : ∀ b, secondByteOk b none = false := fun _ => rfl
  rcases bs with _ | ⟨b₀, _ | ⟨b₁, _ | ⟨b₂, _ | ⟨b₃, bs⟩⟩⟩⟩
  · exact absurd rfl hne
  all_goals
    simp only [utf8Front, List.getElem?_cons_zero, List.getElem?_cons_succ, List.getElem?_nil, hnone,
      hnone', Bool.not_false, if_true, List.length_cons, List.length_nil]
    split_ifs <;> simp

/-! ## Which characters are newlines -/

lemma ofNat_eq_newline {n : ℕ} (h : Char.ofNat n = '\n') : n = 10 := by
  by_cases hvalid : n.isValidChar
  · rw [Char.ofNat, dif_pos hvalid] at h
    have hval : n = '\n'.toNat := congrArg Char.toNat h
    exact hval
  · rw [Char.ofNat, dif_neg hvalid] at h
    exact absurd (congrArg Char.toNat h) (by decide)

lemma toNat_and_31 (b : UInt8) : (b &&& 0x1F).toNat = b.toNat % 32 :=
  (UInt8.toNat_and ..).trans (Nat.and_two_pow_sub_one_eq_mod b.toNat 5)

lemma toNat_and_15 (b : UInt8) : (b &&& 0x0F).toNat = b.toNat % 16 :=
  (UInt8.toNat_and ..).trans (Nat.and_two_pow_sub_one_eq_mod b.toNat 4)

lemma toNat_and_7 (b : UInt8) : (b &&& 0x07).toNat = b.toNat % 8 :=
  (UInt8.toNat_and ..).trans (Nat.and_two_pow_sub_one_eq_mod b.toNat 3)

lemma toNat_and_63 (b : UInt8) : (b &&& 0x3F).toNat = b.toNat % 64 :=
  (UInt8.toNat_and ..).trans (Nat.and_two_pow_sub_one_eq_mod b.toNat 6)

/-- Behind a first byte without payload bits, the second byte has some. -/
lemma payload_of_secondByteOk {b : UInt8} {bs : Bytes} (hb : b = 0xE0 ∨ b = 0xF0)
    (h : secondByteOk b bs[1]? = true) : 16 ≤ payload bs 1 := by
  rw [payload]
  cases hc : bs[1]? with
  | none =>
      rw [hc] at h
      cases h
  | some c =>
      rw [hc] at h
      rw [Option.getD_some, toNat_and_63]
      rcases hb with rfl | rfl
      · have h : ((0xA0 ≤ c : Bool) && (c ≤ 0xBF : Bool)) = true := h
        rw [Bool.and_eq_true, decide_eq_true_eq, decide_eq_true_eq, UInt8.le_iff_toNat_le,
          UInt8.le_iff_toNat_le] at h
        have h₁ : 160 ≤ c.toNat := h.1
        have h₂ : c.toNat ≤ 191 := h.2
        omega
      · have h : ((0x90 ≤ c : Bool) && (c ≤ 0xBF : Bool)) = true := h
        rw [Bool.and_eq_true, decide_eq_true_eq, decide_eq_true_eq, UInt8.le_iff_toNat_le,
          UInt8.le_iff_toNat_le] at h
        have h₁ : 144 ≤ c.toNat := h.1
        have h₂ : c.toNat ≤ 191 := h.2
        omega

/-- No other byte starts a newline. -/
lemma utf8Front_ne_newline {b : UInt8} {bs : Bytes} (hb : b ≠ newline) :
    (utf8Front (b :: bs)).1.getD '\uFFFD' ≠ '\n' := by
  intro h
  unfold utf8Front at h
  dsimp only at h
  split at h
  · have hten := ofNat_eq_newline h
    exact hb (UInt8.toNat_inj.mp hten)
  · split at h
    · rename_i hrange
      rw [UInt8.le_iff_toNat_le, UInt8.le_iff_toNat_le] at hrange
      have h₁ : 194 ≤ b.toNat := hrange.1
      have h₂ : b.toNat ≤ 223 := hrange.2
      split at h
      · exact absurd h (by decide)
      · have hten := ofNat_eq_newline h
        rw [toNat_and_31] at hten
        omega
    · split at h
      · rename_i hrange
        rw [UInt8.le_iff_toNat_le, UInt8.le_iff_toNat_le] at hrange
        have h₁ : 224 ≤ b.toNat := hrange.1
        have h₂ : b.toNat ≤ 239 := hrange.2
        split at h
        · exact absurd h (by decide)
        · rename_i hsecond
          split at h
          · exact absurd h (by decide)
          · have hten := ofNat_eq_newline h
            rw [toNat_and_15] at hten
            have hb : b = 0xE0 := UInt8.toNat_inj.mp (show b.toNat = 224 by omega)
            rw [Bool.not_eq_true, Bool.not_eq_false'] at hsecond
            have hpay := payload_of_secondByteOk (Or.inl hb) hsecond
            omega
      · split at h
        · rename_i hrange
          rw [UInt8.le_iff_toNat_le, UInt8.le_iff_toNat_le] at hrange
          have h₁ : 240 ≤ b.toNat := hrange.1
          have h₂ : b.toNat ≤ 244 := hrange.2
          split at h
          · exact absurd h (by decide)
          · rename_i hsecond
            split at h
            · exact absurd h (by decide)
            · split at h
              · exact absurd h (by decide)
              · have hten := ofNat_eq_newline h
                rw [toNat_and_7] at hten
                have hb : b = 0xF0 := UInt8.toNat_inj.mp (show b.toNat = 240 by omega)
                rw [Bool.not_eq_true, Bool.not_eq_false'] at hsecond
                have hpay := payload_of_secondByteOk (Or.inr hb) hsecond
                omega
        · exact absurd h (by decide)

/-! ## The characters of a text -/

/-- The characters of `from_utf8_lossy`. -/
def lossyChars (bs : Bytes) : List Char := lossyLoop bs.length bs

lemma toList_fromUtf8Lossy (bs : Bytes) : (fromUtf8Lossy bs).toList = lossyChars bs :=
  String.toList_ofList

/-- More fuel than bytes changes nothing. -/
lemma lossyLoop_fuel {fuel : ℕ} {bs : Bytes} (h : bs.length ≤ fuel) :
    lossyLoop fuel bs = lossyChars bs := by
  have hall : ∀ (n m : ℕ) (bs : Bytes), bs.length ≤ n → bs.length ≤ m →
      lossyLoop n bs = lossyLoop m bs := by
    intro n
    induction n with
    | zero =>
        intro m bs hn _
        rw [List.eq_nil_of_length_eq_zero (Nat.le_zero.mp hn)]
        cases m <;> rfl
    | succ n ih =>
        intro m bs hn hm
        cases bs with
        | nil => cases m <;> rfl
        | cons b bs =>
            obtain ⟨m, rfl⟩ := Nat.exists_eq_succ_of_ne_zero (show m ≠ 0 by
              rw [List.length_cons] at hm
              omega)
            have hpos := (utf8Front_le (List.cons_ne_nil b bs)).1
            simp only [List.length_cons] at hn hm
            rw [lossyLoop, lossyLoop]
            refine congrArg _ (ih m _ ?_ ?_) <;>
              · rw [List.length_drop, List.length_cons]
                omega
  exact hall _ _ _ h le_rfl

lemma lossyChars_of_ne_nil {bs : Bytes} (hne : bs ≠ []) :
    lossyChars bs =
      (utf8Front bs).1.getD '\uFFFD' :: lossyChars (bs.drop (utf8Front bs).2) := by
  obtain ⟨b, bs, rfl⟩ := List.exists_cons_of_ne_nil hne
  have hpos := (utf8Front_le hne).1
  rw [lossyChars, List.length_cons, lossyLoop, lossyLoop_fuel]
  rw [List.length_drop, List.length_cons]
  omega

/-- A text without newlines decodes to one without. -/
lemma notMem_lossyChars {bs : Bytes} (h : newline ∉ bs) : '\n' ∉ lossyChars bs := by
  induction hn : bs.length using Nat.strong_induction_on generalizing bs with
  | _ n ih =>
      rcases bs with _ | ⟨b, bs⟩
      · exact List.not_mem_nil
      · have hpos := (utf8Front_le (List.cons_ne_nil b bs)).1
        rw [lossyChars_of_ne_nil (List.cons_ne_nil b bs), List.mem_cons, not_or]
        refine ⟨fun heq => utf8Front_ne_newline (fun hb => h (hb ▸ List.mem_cons_self ..)) heq.symm,
          ih _ ?_ (fun hmem => h (List.mem_of_mem_drop hmem)) rfl⟩
        rw [List.length_drop, ← hn, List.length_cons]
        omega

/-- A newline is decoded where it stands. -/
lemma lossyChars_append_newline (bs rest : Bytes) :
    lossyChars (bs ++ newline :: rest) = lossyChars bs ++ '\n' :: lossyChars rest := by
  induction hn : bs.length using Nat.strong_induction_on generalizing bs with
  | _ n ih =>
      by_cases hne : bs = []
      · subst hne
        rw [List.nil_append, lossyChars_of_ne_nil (List.cons_ne_nil _ _)]
        rfl
      · obtain ⟨hpos, hle⟩ := utf8Front_le hne
        have hlen := List.length_pos_iff.mpr hne
        rw [lossyChars_of_ne_nil (by simp), utf8Front_append_newline hne,
          List.drop_append_of_le_length hle, lossyChars_of_ne_nil hne, List.cons_append]
        refine congrArg _ (ih _ ?_ _ rfl)
        rw [List.length_drop]
        omega

/-- Lossy decoding goes line by line. -/
theorem splitOn_lossyChars (bs : Bytes) :
    (lossyChars bs).splitOn '\n' = (bs.splitOn newline).map lossyChars := by
  induction hn : bs.length using Nat.strong_induction_on generalizing bs with
  | _ n ih =>
      obtain ⟨line, post, rfl, hline, rfl | ⟨rest, rfl⟩⟩ := @Lines.exists_first _ newline bs
      · rw [List.append_nil, List.splitOn_eq_singleton hline,
          List.splitOn_eq_singleton (notMem_lossyChars hline), List.map_singleton]
      · have hrest := ih _ (by rw [← hn]; simp; omega) rest rfl
        rw [lossyChars_append_newline,
          List.splitOn_append_cons_self_of_not_mem (notMem_lossyChars hline), hrest,
          List.splitOn_append_cons_self_of_not_mem hline, List.map_cons]

end DeepFinder
