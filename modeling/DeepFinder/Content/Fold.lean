import DeepFinder.Core.Basic

/-!
# ASCII folding and substring search

The content layer folds `A`–`Z` to lowercase and leaves every other byte alone.  Substring search
is `memchr::memmem`: `find` is the first occurrence and `find_iter` the occurrences from left to
right that do not overlap.

Bytes that are part of a longer character are never in the folded range, so that folding neither
makes nor breaks characters; it does not fold letters outside of ASCII, which is what sets it apart
from `Core/Lowercase.lean`.
-/

namespace DeepFinder

open ByteString

def foldByte (b : UInt8) : UInt8 := if 65 ≤ b ∧ b ≤ 90 then b ||| 0x20 else b

/-- `fold`. -/
def fold (bytes : Bytes) : Bytes := bytes.map foldByte

/-- `memmem::find`: the first offset at which the needle occurs. -/
def memmemFind (hay needle : Bytes) : Option ℕ :=
  (List.range (hay.length + 1 - needle.length)).find? fun i =>
    (hay.drop i).take needle.length == needle

/-- The loop of `memmem::find_iter`: after a match the search resumes behind it. -/
def findIterLoop (needle : Bytes) : ℕ → ℕ → Bytes → List ℕ
  | 0, _, _ => []
  | fuel + 1, base, hay =>
      match memmemFind hay needle with
      | none => []
      | some i =>
          (base + i) ::
            findIterLoop needle fuel (base + i + needle.length) (hay.drop (i + needle.length))

/-- `memmem::find_iter` for a nonempty needle. -/
def memmemFindIter (hay needle : Bytes) : List ℕ := findIterLoop needle (hay.length + 1) 0 hay

@[simp] lemma length_fold (bs : Bytes) : (fold bs).length = bs.length := by simp [fold]

lemma foldByte_idem (b : UInt8) : foldByte (foldByte b) = foldByte b := by
  have hall : ∀ n < 256, foldByte (foldByte (UInt8.ofNat n)) = foldByte (UInt8.ofNat n) := by
    decide +kernel
  simpa using hall b.toNat b.toNat_lt

@[simp] lemma fold_fold (bs : Bytes) : fold (fold bs) = fold bs := by
  simp [fold, Function.comp_def, foldByte_idem]

lemma fold_mono {a b : Bytes} (h : a <:+: b) : fold a <:+: fold b := h.map foldByte

lemma isSome_memmemFind (hay needle : Bytes) :
    (memmemFind hay needle).isSome = containsSub hay needle := by
  rw [Bool.eq_iff_iff, memmemFind, List.find?_isSome]
  simp [containsSub, windows]

lemma memmemFindIter_ne_nil {hay needle : Bytes} :
    memmemFindIter hay needle ≠ [] ↔ needle <:+: hay := by
  rw [← containsSub_iff, ← isSome_memmemFind, memmemFindIter, findIterLoop]
  cases memmemFind hay needle <;> simp

end DeepFinder
