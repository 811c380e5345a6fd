import DeepFinder.Core.BoolQuery
import DeepFinder.Lib.OperatorGrammar

/-!
# The grammar of boolean queries

`or := and (OR and)*`, `and := factor ([AND] factor)*` and
`factor := NOT factor | '(' or ')' | word`: an operator grammar over the tokens, whose atoms are
single words (`boolGrammar`).  Its parsing functions descend along it (`parsePhrase_descends`), so
the parser finds the derivation of its input whenever there is one (`parse_eq_some_iff`), and it
reads the fully parenthesised text of every tree back.
-/

namespace DeepFinder

/-! ## Derivations -/

/-- The grammar of boolean queries. -/
def boolGrammar : OperatorGrammar.Grammar Tok Node where
  IsOr t := t = .or
  IsAnd t := t = .and
  IsNot t := t = .not
  Opens t := t = .lparen
  Closes t := t = .rparen
  Atom ts n := ∃ w, ts = [.word w] ∧ n = .term w
  or := .or
  and := .and
  not := .not

abbrev Phrase := OperatorGrammar.Phrase Node

/-- The tokens are a phrase, and the tree is its meaning. -/
abbrev Derives : Phrase → List Tok → Node → Prop := OperatorGrammar.Derives boolGrammar

def Tok.StartsFactor : Tok → Prop
  | .word _ | .not | .lparen => True
  | _ => False

lemma predicts_boolGrammar : OperatorGrammar.Predicts boolGrammar Tok.StartsFactor where
  not := by rintro t rfl; trivial
  opens := by rintro t rfl; trivial
  atom := by rintro ts n ⟨w, rfl, rfl⟩; exact ⟨.word w, [], rfl, trivial⟩
  not_isOr := by rintro t ht rfl; exact ht
  not_isAnd := by rintro t ht rfl; exact ht
  or_not_isAnd := by rintro t rfl h; cases h
  closes := by rintro t rfl; exact ⟨id, by rintro ⟨⟩, by rintro ⟨⟩⟩

/-! ## The parsing functions -/

/-- The parsing function of a phrase. -/
def parsePhrase (fuel : ℕ) : Phrase → List Tok → Parsed
  | .or, ts => parseOr fuel ts
  | .orRest left, ts => orLoop fuel left ts
  | .and, ts => parseAnd fuel ts
  | .andRest left, ts => andLoop fuel left ts
  | .factor, ts => parseFactor fuel ts

/-- A parsing function that goes on behind another one. -/
lemma parsed_bind_iff {r : Parsed} {k : Node → List Tok → Parsed} {n : Node} {rest : List Tok} :
    (match r with
      | some (some (a, ts)) => k a ts
      | r => r) = some (some (n, rest)) ↔
    ∃ a ts, r = some (some (a, ts)) ∧ k a ts = some (some (n, rest)) := by
  rcases r with _ | _ | ⟨a, ts⟩
  · simp
  · simp
  · simp only [Option.some.injEq, Prod.mk.injEq]
    constructor
    · exact fun h => ⟨a, ts, ⟨rfl, rfl⟩, h⟩
    · rintro ⟨_, _, ⟨rfl, rfl⟩, h⟩
      exact h

lemma parsed_eq_iff {left n : Node} {ts rest : List Tok} :
    (some (some (left, ts)) : Parsed) = some (some (n, rest)) ↔ n = left ∧ rest = ts := by
  simp only [Option.some.injEq, Prod.mk.injEq]
  exact and_congr eq_comm eq_comm

lemma orLoop_stop {fuel : ℕ} {left : Node} {ts : List Tok} (h : ∀ t ∈ ts.head?, t ≠ .or) :
    orLoop (fuel + 1) left ts = some (some (left, ts)) := by
  cases ts with
  | nil => rfl
  | cons t ts =>
      cases t with
      | or => exact absurd rfl (h _ rfl)
      | _ => rfl

/-- A conjunction stops where neither an `AND` nor a factor stands. -/
lemma nextFactor_eq_none {ts : List Tok} (h : ∀ t ∈ ts.head?, t ≠ .and ∧ ¬t.StartsFactor) :
    nextFactor ts = none := by
  cases ts with
  | nil => rfl
  | cons t ts =>
      obtain ⟨hand, hstarts⟩ := h t rfl
      cases t with
      | and => exact absurd rfl hand
      | or => rfl
      | rparen => rfl
      | _ => exact absurd trivial hstarts

lemma nextFactor_of_starts {t : Tok} (h : t.StartsFactor) (ts : List Tok) :
    nextFactor (t :: ts) = some (t :: ts) := by
  cases t with
  | word w => rfl
  | not => rfl
  | lparen => rfl
  | _ => exact h.elim

/-- A factor in parentheses. -/
lemma parseFactor_paren {fuel : ℕ} {ts rest : List Tok} {n : Node} :
    parseFactor (fuel + 1) (.lparen :: ts) = some (some (n, rest)) ↔
      parseOr fuel ts = some (some (n, .rparen :: rest)) := by
  rw [parseFactor]
  constructor
  · intro h
    split at h
    · rename_i hor
      obtain ⟨rfl, rfl⟩ := parsed_eq_iff.mp h
      exact hor
    · cases h
    · rename_i hnode
      exact absurd h (hnode _)
  · intro h
    rw [h]

/-- What the parsing functions return, one case for each function and each way it can go. -/
lemma parsePhrase_descends : OperatorGrammar.Descends boolGrammar Tok.StartsFactor
    fun fuel p ts n rest => parsePhrase fuel p ts = some (some (n, rest)) where
  zero {p ts rest n} h := by cases p <;> cases h
  or {fuel ts rest n} := by
    rw [parsePhrase, parseOr]
    exact parsed_bind_iff
  orMore {fuel t ts rest left n} ht := by
    obtain rfl : t = .or := ht
    rw [parsePhrase, orLoop]
    exact parsed_bind_iff
  orStop {fuel ts rest left n} h := by
    rw [parsePhrase, orLoop_stop h]
    exact parsed_eq_iff
  and {fuel ts rest n} := by
    rw [parsePhrase, parseAnd]
    exact parsed_bind_iff
  andMore {fuel t ts rest left n} ht := by
    obtain rfl : t = .and := ht
    rw [parsePhrase, andLoop, nextFactor]
    exact parsed_bind_iff
  adjacent {fuel t ts rest left n} ht := by
    rw [parsePhrase, andLoop, nextFactor_of_starts ht]
    exact parsed_bind_iff
  andStop {fuel ts rest left n} h := by
    rw [parsePhrase, andLoop, nextFactor_eq_none h]
    exact parsed_eq_iff
  factor {fuel ts rest n} := by
    rw [parsePhrase]
    constructor
    · intro h
      cases ts with
      | nil => cases h
      | cons t ts =>
          cases t with
          | word w =>
              obtain ⟨rfl, rfl⟩ := parsed_eq_iff.mp h
              exact Or.inr (Or.inr ⟨[.word w], rfl, w, rfl, rfl⟩)
          | not =>
              rw [parseFactor] at h
              obtain ⟨f, us, hfactor, hdone⟩ := parsed_bind_iff.mp h
              obtain ⟨rfl, rfl⟩ := parsed_eq_iff.mp hdone
              exact Or.inl ⟨.not, ts, f, rfl, rfl, hfactor, rfl⟩
          | lparen =>
              exact Or.inr (Or.inl ⟨.lparen, ts, .rparen, rfl, rfl, rfl, parseFactor_paren.mp h⟩)
          | and => cases h
          | or => cases h
          | rparen => cases h
    · rintro (⟨t, us, f, rfl, ht, hfactor, rfl⟩ | ⟨o, us, c, rfl, ho, hc, hor⟩ |
        ⟨used, rfl, w, rfl, rfl⟩)
      · obtain rfl : t = .not := ht
        rw [parseFactor]
        exact parsed_bind_iff.mpr ⟨f, rest, hfactor, rfl⟩
      · obtain rfl : o = .lparen := ho
        obtain rfl : c = .rparen := hc
        exact parseFactor_paren.mpr hor
      · rfl

/-- The parser accepts exactly what the grammar derives, with the tree of the derivation. -/
theorem parse_eq_some_iff {s : String} {n : Node} :
    parse s = some n ↔ Derives .or (tokenize s) n := by
  have hfuel : 3 * (tokenize s).length + 2 < parseFuel (tokenize s) := Nat.lt_succ_self _
  rw [Derives, ← parsePhrase_descends.or_iff predicts_boolGrammar hfuel, parsePhrase]
  unfold parse
  dsimp only
  constructor
  · intro h
    split at h
    · rename_i node hparse
      obtain rfl := Option.some.inj h
      exact hparse
    · cases h
  · intro h
    rw [h]

/-! ## Reading a tree back -/

/-- A term that the tokenizer reads as one word. -/
structure PlainWord (w : String) : Prop where
  ne_empty : w ≠ ""
  plain : ∀ c ∈ w.toList, isWhitespace c = false ∧ c ≠ '(' ∧ c ≠ ')'
  ne_and : w ≠ "AND"
  ne_or : w ≠ "OR"
  ne_not : w ≠ "NOT"

def Node.render : Node → String
  | .term t => t
  | .and a b => "(" ++ a.render ++ " AND " ++ b.render ++ ")"
  | .or a b => "(" ++ a.render ++ " OR " ++ b.render ++ ")"
  | .not a => "(NOT " ++ a.render ++ ")"

def Node.tokens : Node → List Tok
  | .term t => [.word t]
  | .and a b => .lparen :: (a.tokens ++ .and :: b.tokens ++ [.rparen])
  | .or a b => .lparen :: (a.tokens ++ .or :: b.tokens ++ [.rparen])
  | .not a => .lparen :: (.not :: a.tokens ++ [.rparen])

lemma derives_paren {ts : List Tok} {n : Node} (h : Derives .or ts n) :
    Derives .factor (.lparen :: (ts ++ [.rparen])) n := by
  have hopens : boolGrammar.Opens .lparen := rfl
  have hcloses : boolGrammar.Closes .rparen := rfl
  exact .brackets hopens hcloses h

/-- The tokens of a tree are a factor, and its meaning is the tree. -/
lemma Node.derives_tokens (n : Node) : Derives .factor n.tokens n := by
  induction n with
  | term t => exact .atom ⟨t, rfl, rfl⟩
  | and a b iha ihb =>
      have hop : boolGrammar.IsAnd .and := rfl
      have hand : Derives .and (a.tokens ++ .and :: (b.tokens ++ [])) (.and a b) :=
        .and iha (.andMore hop ihb (.andDone _))
      have hor : Derives .or _ (.and a b) := .or hand (.orDone _)
      simpa [Node.tokens] using derives_paren hor
  | or a b iha ihb =>
      have hop : boolGrammar.IsOr .or := rfl
      have ha : Derives .and (a.tokens ++ []) a := .and iha (.andDone _)
      have hb : Derives .and (b.tokens ++ []) b := .and ihb (.andDone _)
      have hor : Derives .or _ (.or a b) := .or ha (.orMore hop hb (.orDone _))
      simpa [Node.tokens] using derives_paren hor
  | not a ih =>
      have hop : boolGrammar.IsNot .not := rfl
      have hand : Derives .and (.not :: a.tokens ++ []) (.not a) := .and (.not hop ih) (.andDone _)
      have hor : Derives .or _ (.not a) := .or hand (.orDone _)
      simpa [Node.tokens] using derives_paren hor

def separates (c : Char) : Bool := c = '(' || c = ')' || isWhitespace c

/-- A pending word is flushed at a separator and at the end. -/
lemma tokenizeLoop_flush {rest : List Char} (h : ∀ c ∈ rest.head?, separates c = true)
    (cur : List Char) : tokenizeLoop rest cur = flushWord cur ++ tokenizeLoop rest [] := by
  have hnil : flushWord [] = [] := rfl
  cases rest with
  | nil => exact (List.append_nil _).symm
  | cons c rest =>
      have hc := h c rfl
      simp only [tokenizeLoop, hnil, List.nil_append]
      unfold separates at hc
      split_ifs with h₁ h₂ h₃
      · rfl
      · rfl
      · rfl
      · simp [h₁, h₂, h₃] at hc

lemma tokenizeLoop_word {w : List Char} (h : ∀ c ∈ w, isWhitespace c = false ∧ c ≠ '(' ∧ c ≠ ')')
    (rest cur : List Char) : tokenizeLoop (w ++ rest) cur = tokenizeLoop rest (cur ++ w) := by
  induction w generalizing cur with
  | nil => rw [List.nil_append, List.append_nil]
  | cons c w ih =>
      obtain ⟨hspace, hopen, hclose⟩ := h c (List.mem_cons_self ..)
      rw [List.cons_append, tokenizeLoop, if_neg hopen, if_neg hclose, hspace,
        if_neg Bool.false_ne_true, ih (fun d hd => h d (List.mem_cons_of_mem _ hd)),
        List.append_assoc, List.singleton_append]

lemma PlainWord.flush {w : String} (h : PlainWord w) : flushWord w.toList = [.word w] := by
  unfold flushWord
  rw [if_neg (fun hnil => h.ne_empty (String.toList_eq_nil_iff.mp hnil)), String.ofList_toList]
  split
  · exact absurd rfl h.ne_and
  · exact absurd rfl h.ne_or
  · exact absurd rfl h.ne_not
  · rfl

lemma tokenizeLoop_operator (rest : List Char) :
    tokenizeLoop (" AND ".toList ++ rest) [] = .and :: tokenizeLoop rest [] ∧
      tokenizeLoop (" OR ".toList ++ rest) [] = .or :: tokenizeLoop rest [] ∧
      tokenizeLoop ("NOT ".toList ++ rest) [] = .not :: tokenizeLoop rest [] := by
  exact ⟨rfl, rfl, rfl⟩

/-- The text of a tree, before a separator, is read as its tokens. -/
lemma Node.tokenizeLoop_render {n : Node} (h : ∀ t ∈ n.terms, PlainWord t) {rest : List Char}
    (hrest : ∀ c ∈ rest.head?, separates c = true) :
    tokenizeLoop (n.render.toList ++ rest) [] = n.tokens ++ tokenizeLoop rest [] := by
  have hopen : ∀ cs, tokenizeLoop ('(' :: cs) [] = .lparen :: tokenizeLoop cs [] := fun _ => rfl
  have hclose : ∀ cs, tokenizeLoop (')' :: cs) [] = .rparen :: tokenizeLoop cs [] := fun _ => rfl
  have hspace : separates ' ' = true := by decide +kernel
  have hparen : separates ')' = true := rfl
  induction n generalizing rest with
  | term t =>
      have hword := h t (List.mem_singleton.mpr rfl)
      rw [Node.render, tokenizeLoop_word hword.plain, tokenizeLoop_flush hrest, List.nil_append,
        hword.flush]
      rfl
  | and a b iha ihb =>
      have htext : (Node.and a b).render.toList ++ rest = '(' :: (a.render.toList ++
          (" AND ".toList ++ (b.render.toList ++ ')' :: rest))) := by simp [Node.render]
      rw [htext, hopen, iha (fun t ht => h t (List.mem_append_left _ ht)) (by simpa using hspace),
        (tokenizeLoop_operator _).1,
        ihb (fun t ht => h t (List.mem_append_right _ ht)) (by simpa using hparen), hclose]
      simp [Node.tokens]
  | or a b iha ihb =>
      have htext : (Node.or a b).render.toList ++ rest = '(' :: (a.render.toList ++
          (" OR ".toList ++ (b.render.toList ++ ')' :: rest))) := by simp [Node.render]
      rw [htext, hopen, iha (fun t ht => h t (List.mem_append_left _ ht)) (by simpa using hspace),
        (tokenizeLoop_operator _).2.1,
        ihb (fun t ht => h t (List.mem_append_right _ ht)) (by simpa using hparen), hclose]
      simp [Node.tokens]
  | not a ih =>
      have htext : (Node.not a).render.toList ++ rest =
          '(' :: ("NOT ".toList ++ (a.render.toList ++ ')' :: rest)) := by simp [Node.render]
      rw [htext, hopen, (tokenizeLoop_operator _).2.2, ih h (by simpa using hparen), hclose]
      simp [Node.tokens]

lemma parse_render {n : Node} (h : ∀ t ∈ n.terms, PlainWord t) : parse n.render = some n := by
  have htokens : tokenize n.render = n.tokens := by
    have hloop := @Node.tokenizeLoop_render n h [] (by simp)
    rw [List.append_nil] at hloop
    rw [tokenize, hloop]
    exact List.append_nil _
  rw [parse_eq_some_iff, htokens]
  have hand : Derives .and (n.tokens ++ []) n := .and n.derives_tokens (.andDone _)
  have hor : Derives .or _ n := .or hand (.orDone _)
  simpa using hor

/-- Parsing accepts exactly the grammar, and the fully parenthesised text of a tree of plain words
is parsed to the tree.  Words are plain when none is empty or an operator, or has white space or a
parenthesis in it; no text reads as any other word. -/
theorem parse_exact :
    (∀ s n, parse s = some n ↔ Derives .or (tokenize s) n) ∧
      ∀ n : Node, (∀ t ∈ n.terms, PlainWord t) → parse n.render = some n :=
  ⟨fun _ _ => parse_eq_some_iff, fun _ => parse_render⟩

/-- A disjunction below a conjunction needs its parentheses. -/
theorem parse_exact_nested :
    parse "((readme OR go) AND (NOT main))" =
      some (.and (.or (.term "readme") (.term "go")) (.not (.term "main"))) := by
  refine parse_exact.2 (.and (.or (.term "readme") (.term "go")) (.not (.term "main"))) ?_
  have hwords : ∀ t ∈ ["readme", "go", "main"], PlainWord t := by
    intro t ht
    simp only [List.mem_cons, List.not_mem_nil, or_false] at ht
    rcases ht with rfl | rfl | rfl <;>
      exact ⟨by decide, @of_decide_eq_true _ (List.decidableBAll _ _) (by decide +kernel),
        by decide, by decide, by decide⟩
  exact hwords

end DeepFinder
