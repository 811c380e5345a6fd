import DeepFinder.Core.Basic
import DeepFinder.Core.UnicodeTables

/-!
# Lowercasing

`str::to_lowercase`: every character maps by the Unicode tables, `İ` to two characters, and a
capital sigma to its final form at the end of a word.
-/

namespace DeepFinder

open ByteString

/-- Membership of a code point in a table of ranges. -/
def inRanges (ranges : List (ℕ × ℕ)) (c : Char) : Bool :=
  ranges.any fun r => r.1 ≤ c.toNat && c.toNat ≤ r.2

/-- `char::is_whitespace`. -/
def isWhitespace (c : Char) : Bool := inRanges whiteSpaceRanges c

/-- `case_ignorable_then_cased`. -/
def caseIgnorableThenCased (cs : List Char) : Bool :=
  match cs.dropWhile (inRanges caseIgnorableRanges) with
  | [] => false
  | c :: _ => inRanges casedRanges c

/-- `map_uppercase_sigma`: `before` is the text before the sigma, last character first. -/
def mapUppercaseSigma (before rest : List Char) : Char :=
  if caseIgnorableThenCased before && !caseIgnorableThenCased rest then 'ς' else 'σ'

/-- The lowercase mapping of a character other than the capital sigma. -/
def lowerChar (c : Char) : List Char :=
  if c = 'İ' then ['i', Char.ofNat 0x307]
  else
    match lowerRanges.find? fun r =>
        r.1 ≤ c.toNat && c.toNat ≤ r.2.1 && (c.toNat - r.1) % r.2.2.1 == 0 with
    | some r => [Char.ofNat (r.2.2.2 + (c.toNat - r.1))]
    | none => [c]

/-- The loop of `to_lowercase`; `before` holds the characters already read, last one first. -/
def lowerLoop (before : List Char) : List Char → List Char
  | [] => []
  | c :: rest =>
      (if c = 'Σ' then [mapUppercaseSigma before rest] else lowerChar c) ++
        lowerLoop (c :: before) rest

/-- `str::to_lowercase`. -/
def toLowercase (s : String) : String := String.ofList (lowerLoop [] s.toList)

/-- `str::to_lowercase` followed by `as_bytes`. -/
abbrev lowerBytes (s : String) : Bytes := utf8 (toLowercase s)

example : toLowercase "ΟΔΟΣ İ É A" = "οδος i\u0307 é a" := by decide +kernel

lemma lowerChar_ne_nil (c : Char) : lowerChar c ≠ [] := by
  unfold lowerChar
  split
  · exact List.cons_ne_nil _ _
  · split <;> exact List.cons_ne_nil _ _

/-- Only the empty string lowercases to the empty string. -/
lemma toLowercase_ne_empty {s : String} (h : s ≠ "") : toLowercase s ≠ "" := by
  intro hlower
  have hnil : lowerLoop [] s.toList = [] := by
    have hlist := congrArg String.toList hlower
    rwa [toLowercase, String.toList_ofList] at hlist
  cases hs : s.toList with
  | nil => exact h (String.toList_inj.mp hs)
  | cons c cs =>
      rw [hs, lowerLoop, List.append_eq_nil_iff] at hnil
      have hfirst := hnil.1
      split at hfirst
      · exact List.cons_ne_nil _ _ hfirst
      · exact lowerChar_ne_nil c hfirst

/-! ## Lowercasing a word of a text -/

/-- A character that no casing context looks across or counts as a letter. -/
def endsWord (c : Char) : Bool := !inRanges caseIgnorableRanges c && !inRanges casedRanges c

/-- The text is empty or starts with a character that ends a word. -/
def AtWordEnd (cs : List Char) : Prop := ∀ c ∈ cs.head?, endsWord c = true

lemma endsWord_of_isWhitespace {c : Char} (h : isWhitespace c = true) : endsWord c = true := by
  have hmem : c.toNat ∈ whiteSpaceRanges.flatMap fun r => List.range' r.1 (r.2 + 1 - r.1) := by
    obtain ⟨r, hr, hc⟩ := List.any_eq_true.mp h
    refine List.mem_flatMap.mpr ⟨r, hr, List.mem_range'_1.mpr ?_⟩
    simp only [Bool.and_eq_true, decide_eq_true_eq] at hc
    omega
  have hall : ∀ n ∈ whiteSpaceRanges.flatMap fun r => List.range' r.1 (r.2 + 1 - r.1),
      (!(caseIgnorableRanges.any fun r => r.1 ≤ n && n ≤ r.2) &&
        !(casedRanges.any fun r => r.1 ≤ n && n ≤ r.2)) = true := by decide +kernel
  exact hall _ hmem

/-- What lies behind the end of a word does not change a casing context. -/
lemma caseIgnorableThenCased_append {cs rest : List Char} (h : AtWordEnd rest) :
    caseIgnorableThenCased (cs ++ rest) = caseIgnorableThenCased cs := by
  induction cs with
  | nil =>
      cases rest with
      | nil => rfl
      | cons c rest =>
          have hc := h c rfl
          rw [endsWord, Bool.and_eq_true, Bool.not_eq_true', Bool.not_eq_true'] at hc
          simp [caseIgnorableThenCased, hc.1, hc.2]
  | cons c cs ih =>
      cases hc : inRanges caseIgnorableRanges c with
      | false => simp [caseIgnorableThenCased, hc]
      | true => simpa [caseIgnorableThenCased, hc] using ih

/-- A word lowercases the same way inside a text. -/
lemma lowerLoop_word {a b : List Char} (ha : AtWordEnd a) (hb : AtWordEnd b)
    (before w : List Char) :
    lowerLoop (before ++ a) (w ++ b) =
      lowerLoop before w ++ lowerLoop (w.reverse ++ (before ++ a)) b := by
  induction w generalizing before with
  | nil => rfl
  | cons c w ih =>
      have hc := ih (c :: before)
      rw [List.cons_append] at hc
      rw [List.cons_append, lowerLoop, lowerLoop, hc, mapUppercaseSigma, mapUppercaseSigma,
        caseIgnorableThenCased_append ha, caseIgnorableThenCased_append hb]
      simp

lemma lowerLoop_suffix (a cs before : List Char) :
    lowerLoop (a.reverse ++ before) cs <:+ lowerLoop before (a ++ cs) := by
  induction a generalizing before with
  | nil => exact List.suffix_refl _
  | cons c a ih =>
      have hc := ih (c :: before)
      rw [List.reverse_cons, List.append_assoc, List.singleton_append]
      rw [List.cons_append, lowerLoop]
      exact hc.trans (List.suffix_append _ _)

lemma lowerLoop_mono {a b : List Char} (ha : AtWordEnd a.reverse) (hb : AtWordEnd b)
    (w : List Char) : lowerLoop [] w <:+: lowerLoop [] (a ++ (w ++ b)) := by
  have hsuf := lowerLoop_suffix a (w ++ b) []
  have hword := lowerLoop_word ha hb [] w
  rw [List.nil_append] at hword
  rw [List.append_nil, hword] at hsuf
  exact (List.prefix_append _ _).isInfix.trans hsuf.isInfix

end DeepFinder
