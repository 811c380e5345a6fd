import Mathlib.Computability.Language

/-!
# Regexes

The regexes of the `regex` crate that are built from literals, escapes, `.`, character classes,
groups, alternation and quantifiers: a tree, the text it is written as (`Rx.render`), and the words
it matches with and without `(?i)` (`Rx.lang`).  What the crate's tables decide is a parameter: its
simple case folding (`CaseFolding`), of which the facts that are used are its fields, and the
characters of an escape or a class (`CharSet`).
-/

namespace DeepFinder

/-! ## Characters -/

/-- Simple case folding: which characters `(?i)` takes for each other. -/
structure CaseFolding where
  rel : Char → Char → Prop
  equiv : Equivalence rel
  newline_alone : ∀ c, rel '\n' c → c = '\n'
  dotted_alone : ∀ c, rel 'İ' c → c = 'İ'
  sigma : rel 'Σ' 'σ'
  final_sigma : rel 'ς' 'σ'

/-- The characters that a literal stands for, without and with `(?i)`. -/
def CaseFolding.Reads (E : CaseFolding) (ci : Bool) (c d : Char) : Prop :=
  if ci then E.rel c d else d = c

/-- The characters of an escape or a class, without and with `(?i)`. -/
structure CharSet (E : CaseFolding) where
  mem : Bool → Char → Prop
  closed : ∀ c d, E.rel c d → mem true c → mem true d

/-- The characters that do not stand for themselves. -/
def metaChars : List Char := ['\\', '.', '+', '*', '?', '(', ')', '|', '[', '\x7b', '^', '$']

/-- The characters that stand for themselves behind a backslash: ASCII punctuation, but no angle
brackets, which are word boundaries there. -/
def Escapable (c : Char) : Prop := c.toNat < 128 ∧ ¬c.isAlphanum ∧ c ≠ '<' ∧ c ≠ '>'

/-- What matches one character: a literal, an escaped punctuation character, `.`, another escape
with what belongs to it, and a class. -/
inductive CharItem (E : CaseFolding) where
  | lit (c : Char) (h : c ∉ metaChars)
  | punct (c : Char) (h : Escapable c)
  | dot
  | escape (c : Char) (arg : List Char) (set : CharSet E)
  | bracket (body : List Char) (set : CharSet E)

namespace CharItem

variable {E : CaseFolding}

/-- How it is written. -/
def render : CharItem E → List Char
  | lit c _ => [c]
  | punct c _ => ['\\', c]
  | dot => ['.']
  | escape c arg _ => '\\' :: c :: arg
  | bracket body _ => '[' :: body ++ [']']

/-- The characters it matches. -/
def mem (ci : Bool) : CharItem E → Char → Prop
  | lit c _, d => E.Reads ci c d
  | punct c _, d => E.Reads ci c d
  | dot, d => d ≠ '\n'
  | escape _ _ set, d => set.mem ci d
  | bracket _ set, d => set.mem ci d

lemma mem_of_rel {i : CharItem E} {c d : Char} (h : E.rel c d) (hc : i.mem true c) :
    i.mem true d := by
  cases i with
  | lit c' h' => exact E.equiv.trans hc h
  | punct c' h' => exact E.equiv.trans hc h
  | dot =>
      rintro rfl
      exact hc (E.newline_alone c (E.equiv.symm h))
  | escape c' arg set => exact set.closed c d h hc
  | bracket body set => exact set.closed c d h hc

end CharItem

/-! ## Trees -/

/-- The kinds of groups. -/
inductive GroupKind where
  | capture
  | nonCapture
  | named (p : Bool) (name : List Char)

def GroupKind.render : GroupKind → List Char
  | capture => ['(']
  | nonCapture => ['(', '?', ':']
  | named p name => '(' :: '?' :: (if p then ['P'] else []) ++ '<' :: name ++ ['>']

/-- The quantifiers; a range whose bounds are out of order does not compile. -/
inductive Quantifier where
  | opt
  | star
  | plus
  | exactly (m : ℕ)
  | atLeast (m : ℕ)
  | between (m n : ℕ) (h : m ≤ n)

namespace Quantifier

/-- How it is written. -/
def render : Quantifier → List Char
  | opt => ['?']
  | star => ['*']
  | plus => ['+']
  | exactly m => '\x7b' :: (toString m).toList ++ ['\x7d']
  | atLeast m => '\x7b' :: (toString m).toList ++ [',', '\x7d']
  | between m n _ => '\x7b' :: (toString m).toList ++ ',' :: (toString n).toList ++ ['\x7d']

/-- The numbers of repetitions. -/
def Allows : Quantifier → ℕ → Prop
  | opt, k => k ≤ 1
  | star, _ => True
  | plus, k => 1 ≤ k
  | exactly m, k => k = m
  | atLeast m, k => m ≤ k
  | between m n _, k => m ≤ k ∧ k ≤ n

end Quantifier

/-- The places of the grammar: what a quantifier binds, what is set in sequence, a sequence, and the
alternatives. -/
inductive Level where
  | item
  | piece
  | seq
  | alt

/-- The regexes; the place in the grammar keeps a tree from needing parentheses that it does not
have. -/
inductive Rx (E : CaseFolding) : Level → Type where
  | char (i : CharItem E) : Rx E .item
  | group (k : GroupKind) (r : Rx E .alt) : Rx E .item
  | one (r : Rx E .item) : Rx E .piece
  | repeated (r : Rx E .item) (q : Quantifier) (lazy : Bool) : Rx E .piece
  | nil : Rx E .seq
  | cons (r : Rx E .piece) (s : Rx E .seq) : Rx E .seq
  | last (r : Rx E .seq) : Rx E .alt
  | or (r : Rx E .seq) (s : Rx E .alt) : Rx E .alt

namespace Rx

variable {E : CaseFolding}

/-- How it is written. -/
def render {l : Level} : Rx E l → List Char
  | char i => i.render
  | group k r => k.render ++ r.render ++ [')']
  | one r => r.render
  | repeated r q lazy => r.render ++ q.render ++ if lazy then ['?'] else []
  | nil => []
  | cons r s => r.render ++ s.render
  | last r => r.render
  | or r s => r.render ++ '|' :: s.render

/-- The words it matches. -/
def lang (ci : Bool) {l : Level} : Rx E l → Language Char
  | char i => {w | ∃ d, i.mem ci d ∧ w = [d]}
  | group _ r => r.lang ci
  | one r => r.lang ci
  | repeated r q _ => {w | ∃ k, q.Allows k ∧ w ∈ r.lang ci ^ k}
  | nil => 1
  | cons r s => r.lang ci * s.lang ci
  | last r => r.lang ci
  | or r s => r.lang ci + s.lang ci

/-- `is_match`: a word of the regex stands in the text. -/
def IsMatch (ci : Bool) (r : Rx E .alt) (t : List Char) : Prop :=
  ∃ w ∈ r.lang ci, w <:+: t

/-! ## Letter case -/

lemma map_mem_pow {f : Char → Char} {l : Language Char} (h : ∀ w ∈ l, w.map f ∈ l) {k : ℕ}
    {w : List Char} (hw : w ∈ l ^ k) : w.map f ∈ l ^ k := by
  induction k generalizing w with
  | zero =>
      rw [pow_zero, Language.mem_one] at hw ⊢
      rw [hw, List.map_nil]
  | succ k ih =>
      rw [pow_succ', Language.mem_mul] at hw
      obtain ⟨a, ha, b, hb, rfl⟩ := hw
      rw [List.map_append, pow_succ']
      exact Language.append_mem_mul (h a ha) (ih hb)

/-- With `(?i)` a character of a word may be put in another letter case. -/
lemma map_mem_lang {f : Char → Char} (hf : ∀ c, E.rel c (f c)) {l : Level} {r : Rx E l}
    {w : List Char} (hw : w ∈ r.lang true) : w.map f ∈ r.lang true := by
  induction r generalizing w with
  | char i =>
      obtain ⟨d, hd, rfl⟩ := hw
      exact ⟨f d, CharItem.mem_of_rel (hf d) hd, rfl⟩
  | group k r ih => exact ih hw
  | one r ih => exact ih hw
  | repeated r q lazy ih =>
      obtain ⟨k, hk, hw⟩ := hw
      exact ⟨k, hk, map_mem_pow (fun w hw => ih hw) hw⟩
  | nil =>
      rw [lang, Language.mem_one] at hw ⊢
      rw [hw, List.map_nil]
  | cons r s ihr ihs =>
      rw [lang, Language.mem_mul] at hw
      obtain ⟨a, ha, b, hb, rfl⟩ := hw
      rw [List.map_append]
      exact Language.append_mem_mul (ihr ha) (ihs hb)
  | last r ih => exact ih hw
  | or r s ihr ihs =>
      rw [lang, Language.mem_add] at hw ⊢
      exact hw.imp ihr ihs

end Rx

end DeepFinder
