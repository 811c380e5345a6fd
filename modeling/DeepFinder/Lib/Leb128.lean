import DeepFinder.Lib.Bytes

/-!
# LEB128 numerals

A numeral is a run of bytes whose last one, and only that, is below 128; it denotes the number whose
base-128 digits, low ones first, are the low seven bits of its bytes.  At a place of a byte string
stands at most one numeral (`Numeral.unique`).
-/

namespace Leb128

open ByteString

/-- A byte string that is one numeral. -/
inductive Numeral : Bytes → Prop where
  | last {b : UInt8} : b.toNat < 128 → Numeral [b]
  | more {b : UInt8} {bs : Bytes} : 128 ≤ b.toNat → Numeral bs → Numeral (b :: bs)

def value : Bytes → ℕ
  | [] => 0
  | b :: bs => b.toNat % 128 + 128 * value bs

lemma Numeral.length_pos {bs : Bytes} (h : Numeral bs) : 0 < bs.length := by
  cases h <;> exact Nat.zero_lt_succ _

lemma Numeral.ne_nil {bs : Bytes} (h : Numeral bs) : bs ≠ [] :=
  List.ne_nil_of_length_pos h.length_pos

/-- A byte that goes on is no numeral of its own, and one that ends is no more than that. -/
lemma numeral_cons_iff {b : UInt8} {bs : Bytes} :
    Numeral (b :: bs) ↔ b.toNat < 128 ∧ bs = [] ∨ 128 ≤ b.toNat ∧ Numeral bs := by
  constructor
  · rintro (hlast | ⟨hmore, hbs⟩)
    · exact Or.inl ⟨hlast, rfl⟩
    · exact Or.inr ⟨hmore, hbs⟩
  · rintro (⟨hlast, rfl⟩ | ⟨hmore, hbs⟩)
    · exact .last hlast
    · exact .more hmore hbs

lemma value_lt (bs : Bytes) : value bs < 2 ^ (7 * bs.length) := by
  induction bs with
  | nil => simp [value]
  | cons b bs ih =>
      have hdigit : b.toNat % 128 < 128 := Nat.mod_lt _ (by omega)
      rw [value, List.length_cons, Nat.mul_succ, pow_add]
      omega

lemma value_append (bs cs : Bytes) :
    value (bs ++ cs) = value bs + 2 ^ (7 * bs.length) * value cs := by
  induction bs with
  | nil => simp [value]
  | cons b bs ih =>
      rw [List.cons_append, value, ih, value, List.length_cons, Nat.mul_succ, pow_add]
      ring

lemma Numeral.exists_last {bs : Bytes} (h : Numeral bs) :
    ∃ init b, bs = init ++ [b] ∧ b.toNat < 128 := by
  induction h with
  | last hlast => exact ⟨[], _, rfl, hlast⟩
  | @more b bs _ _ ih =>
      obtain ⟨init, c, rfl, hc⟩ := ih
      exact ⟨b :: init, c, rfl, hc⟩

/-- Whether a numeral denotes more than its bytes but the last and `k` more bits can hold. -/
lemma le_value_concat_iff {init : Bytes} {b : UInt8} {k : ℕ} (hlast : b.toNat < 128) :
    2 ^ (7 * init.length + k) ≤ value (init ++ [b]) ↔ 2 ^ k ≤ b.toNat := by
  have hinit := value_lt init
  have hvalue : value (init ++ [b]) = value init + 2 ^ (7 * init.length) * b.toNat := by
    rw [value_append, value, value, Nat.mod_eq_of_lt hlast, Nat.mul_zero, Nat.add_zero]
  rw [hvalue, pow_add]
  constructor
  · intro hle
    by_contra hlt
    have hmul := Nat.mul_le_mul_left (2 ^ (7 * init.length)) (Nat.not_le.mp hlt)
    rw [Nat.mul_succ] at hmul
    omega
  · intro hle
    have hmul := Nat.mul_le_mul_left (2 ^ (7 * init.length)) hle
    omega

/-- A place of a byte string has one numeral at most. -/
lemma Numeral.unique {buf bs cs : Bytes} {pos : ℕ} (hb : Numeral bs) (hc : Numeral cs)
    (hbs : StandsAt buf pos bs) (hcs : StandsAt buf pos cs) : bs = cs := by
  induction hb generalizing pos cs with
  | @last b hlast =>
      obtain ⟨c, cs, rfl⟩ := List.exists_cons_of_ne_nil hc.ne_nil
      obtain ⟨hat, -⟩ := standsAt_cons_iff.mp hbs
      obtain ⟨hat', -⟩ := standsAt_cons_iff.mp hcs
      obtain rfl := Option.some.inj (hat.symm.trans hat')
      rcases numeral_cons_iff.mp hc with ⟨-, rfl⟩ | ⟨hmore, -⟩
      · rfl
      · omega
  | @more b bs hmore _ ih =>
      obtain ⟨c, cs, rfl⟩ := List.exists_cons_of_ne_nil hc.ne_nil
      obtain ⟨hat, hrest⟩ := standsAt_cons_iff.mp hbs
      obtain ⟨hat', hrest'⟩ := standsAt_cons_iff.mp hcs
      obtain rfl := Option.some.inj (hat.symm.trans hat')
      rcases numeral_cons_iff.mp hc with ⟨hlast, -⟩ | ⟨-, hcs'⟩
      · omega
      · rw [ih hcs' hrest hrest']

end Leb128
