import DeepFinder.Core.Lowercase
import Mathlib.Data.List.Infix

/-!
# Boolean queries

The tokenizer and the recursive-descent parser of boolean queries: `NOT` binds tighter than
`AND`, which binds tighter than `OR`, and adjacent factors are an implicit `AND`.

The parser's mutual recursion runs on fuel; `parse_terminates` says that it never runs out, so
`parse q = none` means that the query is malformed.
-/

namespace DeepFinder

open ByteString

/-- The abstract syntax of a query. -/
inductive Node where
  | term (t : String)
  | and (a b : Node)
  | or (a b : Node)
  | not (a : Node)
  deriving DecidableEq, Repr

/-- A token. -/
inductive Tok where
  | word (w : String)
  | and
  | or
  | not
  | lparen
  | rparen
  deriving DecidableEq, Repr

/-! ## The tokenizer -/

/-- `flush`: the pending word, if any, as an operator or a word. -/
def flushWord (cur : List Char) : List Tok :=
  if cur = [] then []
  else
    match String.ofList cur with
    | "AND" => [.and]
    | "OR" => [.or]
    | "NOT" => [.not]
    | w => [.word w]

/-- The loop of `tokenize`; `cur` is the pending word. -/
def tokenizeLoop : List Char → List Char → List Tok
  | [], cur => flushWord cur
  | c :: cs, cur =>
      if c = '(' then flushWord cur ++ .lparen :: tokenizeLoop cs []
      else if c = ')' then flushWord cur ++ .rparen :: tokenizeLoop cs []
      else if isWhitespace c then flushWord cur ++ tokenizeLoop cs []
      else tokenizeLoop cs (cur ++ [c])

/-- `tokenize`. -/
def tokenize (s : String) : List Tok := tokenizeLoop s.toList []

/-! ## The parser -/

/-- How a parsing function ends: the outer `none` is running out of fuel, the inner one is
malformed input; otherwise a node and the tokens behind it. -/
abbrev Parsed := Option (Option (Node × List Tok))

/-- Where the next factor of a conjunction starts: behind an `AND`, or here when one starts
here; `none` ends the conjunction. -/
def nextFactor : List Tok → Option (List Tok)
  | .and :: ts => some ts
  | .word w :: ts => some (.word w :: ts)
  | .not :: ts => some (.not :: ts)
  | .lparen :: ts => some (.lparen :: ts)
  | _ => none

mutual

/-- `parse_or`. -/
def parseOr : ℕ → List Tok → Parsed
  | 0, _ => none
  | fuel + 1, ts =>
      match parseAnd fuel ts with
      | some (some (left, ts)) => orLoop fuel left ts
      | r => r

/-- The loop of `parse_or`. -/
def orLoop : ℕ → Node → List Tok → Parsed
  | 0, _, _ => none
  | fuel + 1, left, .or :: ts =>
      match parseAnd fuel ts with
      | some (some (right, ts)) => orLoop fuel (.or left right) ts
      | r => r
  | _ + 1, left, ts => some (some (left, ts))

/-- `parse_and`. -/
def parseAnd : ℕ → List Tok → Parsed
  | 0, _ => none
  | fuel + 1, ts =>
      match parseFactor fuel ts with
      | some (some (left, ts)) => andLoop fuel left ts
      | r => r

/-- The loop of `parse_and`. -/
def andLoop : ℕ → Node → List Tok → Parsed
  | 0, _, _ => none
  | fuel + 1, left, ts =>
      match nextFactor ts with
      | none => some (some (left, ts))
      | some ts =>
          match parseFactor fuel ts with
          | some (some (right, ts)) => andLoop fuel (.and left right) ts
          | r => r

/-- `parse_factor`. -/
def parseFactor : ℕ → List Tok → Parsed
  | 0, _ => none
  | fuel + 1, .not :: ts =>
      match parseFactor fuel ts with
      | some (some (f, ts)) => some (some (.not f, ts))
      | r => r
  | fuel + 1, .lparen :: ts =>
      match parseOr fuel ts with
      | some (some (e, .rparen :: ts)) => some (some (e, ts))
      | some (some _) => some none
      | r => r
  | _ + 1, .word w :: ts => some (some (.term w, ts))
  | _ + 1, _ => some none

end

/-- Fuel that no parse of `ts` exhausts. -/
def parseFuel (ts : List Tok) : ℕ := 3 * ts.length + 3

/-- `parse`: trailing tokens are malformed. -/
def parse (s : String) : Option Node :=
  let ts := tokenize s
  match parseOr (parseFuel ts) ts with
  | some (some (node, [])) => some node
  | _ => none

example : parse "(readme OR go) NOT main" =
    some (.and (.or (.term "readme") (.term "go")) (.not (.term "main"))) := by decide +kernel

/-! ## Terms -/

def Node.terms : Node → List String
  | .term t => [t]
  | .and a b => a.terms ++ b.terms
  | .or a b => a.terms ++ b.terms
  | .not a => a.terms

/-- A parsing function's outcome on `ts`: it does not run out of fuel, and a node it returns has
consumed at least one token and has only words of `ts` as terms. -/
def ParsedFrom (ts : List Tok) (r : Parsed) : Prop :=
  ∃ o, r = some o ∧ ∀ n rest, o = some (n, rest) →
    rest.length < ts.length ∧ rest <:+ ts ∧ ∀ t ∈ n.terms, Tok.word t ∈ ts

/-- The same for a loop, which may stop at once with the node it was given. -/
def ContinuedFrom (left : Node) (ts : List Tok) (r : Parsed) : Prop :=
  ∃ o, r = some o ∧ ∀ n rest, o = some (n, rest) →
    rest <:+ ts ∧ ∀ t ∈ n.terms, t ∈ left.terms ∨ Tok.word t ∈ ts

lemma ParsedFrom.malformed (ts : List Tok) : ParsedFrom ts (some none) :=
  ⟨none, rfl, fun _ _ h => nomatch h⟩

lemma ContinuedFrom.stop (left : Node) (ts : List Tok) :
    ContinuedFrom left ts (some (some (left, ts))) := by
  refine ⟨_, rfl, fun n rest h => ?_⟩
  obtain ⟨rfl, rfl⟩ := Prod.mk.inj (Option.some.inj h)
  exact ⟨List.suffix_refl _, fun t ht => Or.inl ht⟩

/-- A first operand, then the loop over the others. -/
lemma ParsedFrom.continue {ts : List Tok} {r : Parsed} {loop : Node → List Tok → Parsed}
    (h : ParsedFrom ts r)
    (hloop : ∀ left rest, rest.length < ts.length → ContinuedFrom left rest (loop left rest)) :
    ParsedFrom ts (match r with
      | some (some (left, rest)) => loop left rest
      | r => r) := by
  obtain ⟨o, rfl, ho⟩ := h
  cases o with
  | none => exact ParsedFrom.malformed ts
  | some res =>
      obtain ⟨left, rest⟩ := res
      obtain ⟨hlt, hsuf, hterms⟩ := ho left rest rfl
      obtain ⟨o', hr, ho'⟩ := hloop left rest hlt
      refine ⟨o', hr, fun n rest' hn => ?_⟩
      obtain ⟨hsuf', hterms'⟩ := ho' n rest' hn
      refine ⟨lt_of_le_of_lt hsuf'.length_le hlt, hsuf'.trans hsuf, fun t ht => ?_⟩
      rcases hterms' t ht with hleft | hword
      · exact hterms t hleft
      · exact hsuf.subset hword

/-- One more operand in a loop, combined by `f`. -/
lemma ContinuedFrom.step {left : Node} {ts ts' : List Tok} {r : Parsed}
    {f : Node → Node → Node} {loop : Node → List Tok → Parsed} (hts : ts' <:+ ts)
    (hf : ∀ a b t, t ∈ (f a b).terms → t ∈ a.terms ∨ t ∈ b.terms) (h : ParsedFrom ts' r)
    (hloop : ∀ left rest, rest.length < ts'.length → ContinuedFrom left rest (loop left rest)) :
    ContinuedFrom left ts (match r with
      | some (some (right, rest)) => loop (f left right) rest
      | r => r) := by
  obtain ⟨o, rfl, ho⟩ := h
  cases o with
  | none => exact ⟨none, rfl, fun _ _ h => nomatch h⟩
  | some res =>
      obtain ⟨right, rest⟩ := res
      obtain ⟨hlt, hsuf, hterms⟩ := ho right rest rfl
      obtain ⟨o', hr, ho'⟩ := hloop (f left right) rest hlt
      refine ⟨o', hr, fun n rest' hn => ?_⟩
      obtain ⟨hsuf', hterms'⟩ := ho' n rest' hn
      refine ⟨(hsuf'.trans hsuf).trans hts, fun t ht => ?_⟩
      rcases hterms' t ht with hcomb | hword
      · rcases hf left right t hcomb with hl | hr
        · exact Or.inl hl
        · exact Or.inr (hts.subset (hterms t hr))
      · exact Or.inr (hts.subset (hsuf.subset hword))

lemma nextFactor_suffix {ts ts' : List Tok} (h : nextFactor ts = some ts') : ts' <:+ ts := by
  unfold nextFactor at h
  split at h <;> first | cases h; done | (obtain rfl := Option.some.inj h; simp)

/-- With fuel for the tokens, every parsing function ends. -/
lemma parse_outcome (fuel : ℕ) :
    (∀ ts, 3 * ts.length + 3 ≤ fuel → ParsedFrom ts (parseOr fuel ts)) ∧
    (∀ left ts, 3 * ts.length + 1 ≤ fuel → ContinuedFrom left ts (orLoop fuel left ts)) ∧
    (∀ ts, 3 * ts.length + 2 ≤ fuel → ParsedFrom ts (parseAnd fuel ts)) ∧
    (∀ left ts, 3 * ts.length + 2 ≤ fuel → ContinuedFrom left ts (andLoop fuel left ts)) ∧
    ∀ ts, 3 * ts.length + 1 ≤ fuel → ParsedFrom ts (parseFactor fuel ts) := by
  -- The five functions call one another on the same tokens three deep at most before one is taken,
  -- which is where the factor 3 comes from.
  induction fuel with
  | zero => simp
  | succ fuel ih =>
      obtain ⟨ihOr, ihOrLoop, ihAnd, ihAndLoop, ihFactor⟩ := ih
      refine ⟨fun ts h => ?_, fun left ts h => ?_, fun ts h => ?_, fun left ts h => ?_,
        fun ts h => ?_⟩
      · rw [parseOr]
        exact (ihAnd ts (by omega)).continue fun left rest hlt => ihOrLoop left rest (by omega)
      · cases ts with
        | nil => exact ContinuedFrom.stop left []
        | cons t ts =>
            cases t with
            | or =>
                rw [orLoop]
                simp only [List.length_cons] at h
                exact ContinuedFrom.step (List.suffix_cons _ _)
                  (fun a b t ht => List.mem_append.mp ht) (ihAnd ts (by omega))
                  fun left rest hlt => ihOrLoop left rest (by omega)
            | _ => exact ContinuedFrom.stop left _
      · rw [parseAnd]
        exact (ihFactor ts (by omega)).continue fun left rest hlt => ihAndLoop left rest (by omega)
      · rw [andLoop]
        cases hnext : nextFactor ts with
        | none => exact ContinuedFrom.stop left ts
        | some ts' =>
            have hsuf := nextFactor_suffix hnext
            have hle := hsuf.length_le
            exact ContinuedFrom.step hsuf (fun a b t ht => List.mem_append.mp ht)
              (ihFactor ts' (by omega)) fun left rest hlt => ihAndLoop left rest (by omega)
      · cases ts with
        | nil => exact ParsedFrom.malformed []
        | cons t ts =>
            simp only [List.length_cons] at h
            cases t with
            | not =>
                obtain ⟨o, ho, hspec⟩ := ihFactor ts (by omega)
                rw [parseFactor, ho]
                cases o with
                | none => exact ParsedFrom.malformed _
                | some res =>
                    obtain ⟨f, rest⟩ := res
                    obtain ⟨hlt, hsuf, hterms⟩ := hspec f rest rfl
                    refine ⟨_, rfl, fun n rest' hn => ?_⟩
                    obtain ⟨rfl, rfl⟩ := Prod.mk.inj (Option.some.inj hn)
                    exact ⟨by simp only [List.length_cons]; omega,
                      hsuf.trans (List.suffix_cons _ _),
                      fun t ht => List.mem_cons_of_mem _ (hterms t ht)⟩
            | lparen =>
                obtain ⟨o, ho, hspec⟩ := ihOr ts (by omega)
                rw [parseFactor, ho]
                cases o with
                | none => exact ParsedFrom.malformed _
                | some res =>
                    obtain ⟨e, rest⟩ := res
                    obtain ⟨hlt, hsuf, hterms⟩ := hspec e rest rfl
                    cases rest with
                    | nil => exact ParsedFrom.malformed _
                    | cons t rest =>
                        cases t with
                        | rparen =>
                            refine ⟨_, rfl, fun n rest' hn => ?_⟩
                            obtain ⟨rfl, rfl⟩ := Prod.mk.inj (Option.some.inj hn)
                            simp only [List.length_cons] at hlt ⊢
                            exact ⟨by omega,
                              ((List.suffix_cons _ _).trans hsuf).trans (List.suffix_cons _ _),
                              fun t ht => List.mem_cons_of_mem _ (hterms t ht)⟩
                        | _ => exact ParsedFrom.malformed _
            | word w =>
                refine ⟨_, rfl, fun n rest hn => ?_⟩
                obtain ⟨rfl, rfl⟩ := Prod.mk.inj (Option.some.inj hn)
                exact ⟨by simp, List.suffix_cons _ _, fun t ht => by
                  rw [List.mem_singleton.mp ht]
                  exact List.mem_cons_self ..⟩
            | _ => exact ParsedFrom.malformed _

/-- Parsing ends for every query: the fuel never runs out. -/
theorem parse_terminates (q : String) :
    parseOr (parseFuel (tokenize q)) (tokenize q) ≠ none := by
  obtain ⟨o, ho, -⟩ := (parse_outcome (parseFuel (tokenize q))).1 (tokenize q) le_rfl
  rw [ho]
  simp

lemma word_of_parse {q : String} {n : Node} (h : parse q = some n) :
    ∀ t ∈ n.terms, Tok.word t ∈ tokenize q := by
  obtain ⟨o, ho, hspec⟩ := (parse_outcome (parseFuel (tokenize q))).1 (tokenize q) le_rfl
  simp only [parse, ho] at h
  split at h
  · rename_i node heq
    obtain rfl := Option.some.inj h
    exact (hspec _ _ (Option.some.inj heq)).2.2
  · cases h

lemma mem_flushWord {w : String} {cur : List Char} (h : Tok.word w ∈ flushWord cur) :
    w = String.ofList cur ∧ cur ≠ [] := by
  unfold flushWord at h
  split at h
  · cases h
  · rename_i hne
    refine ⟨?_, hne⟩
    split at h <;> simp_all

/-- A word of the text stands between its ends, parentheses and white space. -/
lemma split_of_mem_tokenizeLoop {w : String} {cs cur : List Char}
    (h : Tok.word w ∈ tokenizeLoop cs cur) :
    w.toList ≠ [] ∧ ∃ a b, cur ++ cs = a ++ (w.toList ++ b) ∧ AtWordEnd a.reverse ∧
      AtWordEnd b := by
  have hflush : ∀ {cur rest : List Char}, AtWordEnd rest → Tok.word w ∈ flushWord cur →
      w.toList ≠ [] ∧ ∃ a b, cur ++ rest = a ++ (w.toList ++ b) ∧ AtWordEnd a.reverse ∧
        AtWordEnd b := by
    intro cur rest hrest hw
    obtain ⟨rfl, hne⟩ := mem_flushWord hw
    rw [String.toList_ofList]
    exact ⟨hne, [], rest, rfl, (fun _ hc => nomatch hc), hrest⟩
  induction cs generalizing cur with
  | nil => exact hflush (fun _ hc => nomatch hc) h
  | cons c cs ih =>
      -- a separator: the word was pending before it or comes behind it
      have hsep : endsWord c = true →
          Tok.word w ∈ flushWord cur ∨ Tok.word w ∈ tokenizeLoop cs [] →
          w.toList ≠ [] ∧ ∃ a b, cur ++ c :: cs = a ++ (w.toList ++ b) ∧ AtWordEnd a.reverse ∧
            AtWordEnd b := by
        rintro hend (hw | hw)
        · refine hflush (fun d hd => ?_) hw
          obtain rfl := Option.some.inj hd
          exact hend
        · obtain ⟨hne, a, b, hcs, ha, hb⟩ := ih hw
          refine ⟨hne, cur ++ c :: a, b, by rw [List.nil_append] at hcs; simp [hcs], ?_, hb⟩
          intro d hd
          cases hrev : a.reverse with
          | nil =>
              simp only [List.reverse_append, List.reverse_cons, hrev] at hd
              obtain rfl := Option.some.inj hd
              exact hend
          | cons x xs =>
              simp only [List.reverse_append, List.reverse_cons, hrev] at hd
              exact ha d (by rw [hrev]; exact hd)
      rw [tokenizeLoop] at h
      split at h
      · rename_i hc
        exact hsep (by rw [hc]; decide +kernel) (by simpa using h)
      · split at h
        · rename_i hc
          exact hsep (by rw [hc]; decide +kernel) (by simpa using h)
        · split at h
          · rename_i hc
            exact hsep (endsWord_of_isWhitespace hc) (List.mem_append.mp h)
          · simpa using ih h

lemma infix_of_parse {q : String} {n : Node} (h : parse q = some n) {t : String}
    (ht : t ∈ n.terms) : t.toList <:+: q.toList ∧ t.toList ≠ [] := by
  obtain ⟨hne, a, b, hq, -, -⟩ := split_of_mem_tokenizeLoop (word_of_parse h t ht)
  rw [List.nil_append] at hq
  exact ⟨⟨a, b, by rw [hq, List.append_assoc]⟩, hne⟩

lemma lowerBytes_infix_of_parse {q : String} {n : Node} (h : parse q = some n) {t : String}
    (ht : t ∈ n.terms) : lowerBytes t <:+: lowerBytes q := by
  obtain ⟨-, a, b, hq, ha, hb⟩ := split_of_mem_tokenizeLoop (word_of_parse h t ht)
  rw [List.nil_append] at hq
  refine infix_utf8 ?_
  rw [toLowercase, toLowercase, String.toList_ofList, String.toList_ofList, hq]
  exact lowerLoop_mono ha hb t.toList

end DeepFinder
