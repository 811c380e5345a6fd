import Mathlib.Data.List.Basic
import Mathlib.Tactic.Common

/-!
# Quoted texts

Texts between quotation marks, with a backslash before a mark or a backslash of their own.  Scanning
a content for its quoted texts finds the ones that were written into it, whatever stands between
them (`quotedTexts_quote`, `quotedTexts_plain`).
-/

namespace QuotedText

def escape (c : Char) : List Char := if c = '"' ∨ c = '\\' then ['\\', c] else [c]

def quote (s : String) : List Char := '"' :: (s.toList.flatMap escape ++ ['"'])

/-- The quoted texts of a content: what has been read of the open one, and what is to come. -/
def quotedTexts : Option (List Char) → List Char → List String
  | _, [] => []
  | none, c :: cs => quotedTexts (if c = '"' then some [] else none) cs
  | some s, '\\' :: c :: cs => quotedTexts (some (s ++ [c])) cs
  | some s, c :: cs =>
      if c = '"' then String.ofList s :: quotedTexts none cs else quotedTexts (some (s ++ [c])) cs

lemma quotedTexts_plain {cs : List Char} (h : '"' ∉ cs) (rest : List Char) :
    quotedTexts none (cs ++ rest) = quotedTexts none rest := by
  induction cs with
  | nil => rfl
  | cons c cs ih =>
      obtain ⟨hc, hcs⟩ := not_or.mp (mt List.mem_cons.mpr h)
      rw [List.cons_append, quotedTexts, if_neg (Ne.symm hc), ih hcs]

lemma quotedTexts_escape (s cs rest : List Char) :
    quotedTexts (some s) (cs.flatMap escape ++ '"' :: rest) =
      String.ofList (s ++ cs) :: quotedTexts none rest := by
  induction cs generalizing s with
  | nil => simp [quotedTexts]
  | cons c cs ih =>
      have hnext := ih (s ++ [c])
      rw [List.append_assoc, List.singleton_append] at hnext
      by_cases hc : c = '"' ∨ c = '\\'
      · have hescape : escape c = ['\\', c] := if_pos hc
        simp [hescape, quotedTexts, hnext]
      · have hescape : escape c = [c] := if_neg hc
        obtain ⟨hquote, hslash⟩ := not_or.mp hc
        simp [hescape, quotedTexts, hnext, hquote, hslash]

lemma quotedTexts_quote (s : String) (rest : List Char) :
    quotedTexts none (quote s ++ rest) = s :: quotedTexts none rest := by
  simp [quote, quotedTexts, quotedTexts_escape]

lemma quotedTexts_flatMap {α : Type} {print : α → List Char} {texts : α → List String}
    (h : ∀ a rest, quotedTexts none (print a ++ rest) = texts a ++ quotedTexts none rest)
    (items : List α) (rest : List Char) : quotedTexts none (items.flatMap print ++ rest) =
      items.flatMap texts ++ quotedTexts none rest := by
  induction items with
  | nil => rfl
  | cons a items ih => simp only [List.flatMap_cons, List.append_assoc, h, ih]

lemma quotedTexts_nil_of_plain {cs : List Char} (h : '"' ∉ cs) : quotedTexts none cs = [] := by
  simpa [quotedTexts] using quotedTexts_plain h []

end QuotedText
