import DeepFinder.Lib.Bytes
import Mathlib.Data.Nat.Bitwise

/-!
# Bit strings in byte strings

Bit `j` of a byte string is bit `j % 8` of byte `j / 8`.  `orBit` sets one bit and
`getBit_orBit` says what every bit reads afterwards; `getBit_foldl_orBit` is the same for a loop
that sets any list of bits.
-/

namespace ByteString

/-- Bit `j` of `bs`; bits past the end are clear. -/
def getBit (bs : Bytes) (j : ℕ) : Bool := ((bs[j / 8]?).getD 0).toNat.testBit (j % 8)

/-- Set bit `j`. -/
def orBit (bs : Bytes) (j : ℕ) : Bytes :=
  bs.modify (j / 8) fun b => b ||| UInt8.ofNat (1 <<< (j % 8))

@[simp] lemma length_orBit (bs : Bytes) (j : ℕ) : (orBit bs j).length = bs.length := by
  simp [orBit]

lemma testBit_or_shift {b : UInt8} {i k : ℕ} (hi : i < 8) :
    (b ||| UInt8.ofNat (1 <<< i)).toNat.testBit k = (b.toNat.testBit k || decide (i = k)) := by
  have hlt : 1 <<< i < 256 := by
    rw [Nat.one_shiftLeft]
    exact Nat.pow_lt_pow_right (by omega) hi
  rw [UInt8.toNat_or, UInt8.toNat_ofNat', Nat.mod_eq_of_lt hlt, Nat.testBit_or,
    Nat.one_shiftLeft, Nat.testBit_two_pow]

/-- Reading after setting a bit that lies in the string. -/
lemma getBit_orBit {bs : Bytes} {j : ℕ} (hj : j / 8 < bs.length) (k : ℕ) :
    getBit (orBit bs j) k = (getBit bs k || decide (j = k)) := by
  unfold getBit orBit
  rw [List.getElem?_modify]
  by_cases hbyte : j / 8 = k / 8
  · have hiff : j % 8 = k % 8 ↔ j = k := by omega
    rw [← hbyte, List.getElem?_eq_getElem hj]
    simp only [Option.map_eq_map, Option.map_some, Option.getD_some, if_true]
    rw [testBit_or_shift (Nat.mod_lt _ (by omega))]
    simp only [hiff]
  · have hne : j ≠ k := fun h => hbyte (by rw [h])
    simp [hbyte, hne]

@[simp] lemma getBit_replicate_zero (n k : ℕ) : getBit (List.replicate n 0) k = false := by
  unfold getBit
  rw [List.getElem?_replicate]
  split <;> simp

/-- A loop that sets the bits `js`. -/
lemma getBit_foldl_orBit {js : List ℕ} {bs : Bytes} (hjs : ∀ j ∈ js, j / 8 < bs.length) (k : ℕ) :
    getBit (js.foldl orBit bs) k = (getBit bs k || decide (k ∈ js)) := by
  induction js generalizing bs with
  | nil => simp
  | cons j js ih =>
      have hj := hjs j (List.mem_cons_self ..)
      rw [List.foldl_cons, ih fun i hi => by
        rw [length_orBit]
        exact hjs i (List.mem_cons_of_mem _ hi), getBit_orBit hj]
      have hmem : decide (k ∈ j :: js) = (decide (j = k) || decide (k ∈ js)) := by
        simp [eq_comm]
      rw [hmem, Bool.or_assoc]

end ByteString
