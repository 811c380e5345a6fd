import DeepFinder.Lib.OperatorGrammar
import DeepFinder.Core.StrSlice
import DeepFinder.Ipc.SizeArg

/-!
# The grammar of `--expr`

The expressions are an operator grammar over the whitespace-separated tokens, whose atoms are a
predicate and its argument (`exprGrammar`).  An argument may be any token, one that looks like an
operator too, because a predicate always takes the token behind it.

`expr_exact` says that the parser accepts exactly this grammar.  Its quotes are stripped from the
argument of `-size` as from the others, before `parse_size` sees it; `quoted_size_accepted` is a
quoted size.

`Unquoted` fixes what may stand between the quotes of an argument.  The theorem has four parts: what
is accepted, that a text has one tree at most, that the parser comes to an end on every input (its
fuel is the length of the input, three for a token), and that its slices never cut a character.
-/

namespace DeepFinder

open ByteString OperatorGrammar

namespace Bfs

/-! ## The grammar -/

/-- A token and what is left of it without one layer of matching quotes.  Only the same mark at both
ends makes a layer, and a mark alone is none. -/
def Unquoted (t arg : String) : Prop :=
  (∃ q, (q = '\'' ∨ q = '"') ∧ t.toList = q :: (arg.toList ++ [q])) ∨
    arg = t ∧ ∀ q, (q = '\'' ∨ q = '"') → ∀ body, t.toList ≠ q :: (body ++ [q])

/-- The tokens are a primary; `SizeArg` says which text `parse_size` is given for a token. -/
inductive PrimTokens (SizeArg : String → String → Prop) : List String → Expr → Prop
  | name {t arg : String} : Unquoted t arg → PrimTokens SizeArg ["-name", t] (.prim (.name arg))
  | path {t arg : String} : Unquoted t arg → PrimTokens SizeArg ["-path", t] (.prim (.path arg))
  | newer {t arg : String} : Unquoted t arg → PrimTokens SizeArg ["-newer", t] (.prim (.newer arg))
  | size {t arg : String} {r : Cmp × Int64} : SizeArg t arg → parseSize arg = .ok r →
      PrimTokens SizeArg ["-size", t] (.prim (.size r.1 r.2))

/-- `or := and ((-o|-or) and)*`, `and := factor ((-a|-and)? factor)*` and
`factor := (!|-not) factor | ( or ) | prim`. -/
def exprGrammar (SizeArg : String → String → Prop) : Grammar String Expr where
  IsOr t := t = "-o" ∨ t = "-or"
  IsAnd t := t = "-a" ∨ t = "-and"
  IsNot t := t = "!" ∨ t = "-not"
  Opens t := t = "("
  Closes t := t = ")"
  Atom := PrimTokens SizeArg
  or := .or
  and := .and
  not := .not

/-- A factor is told by its first token, in the parser's way. -/
lemma predicts_exprGrammar (SizeArg : String → String → Prop) :
    Predicts (exprGrammar SizeArg) (isFactorStart · = true) where
  not := by rintro t (rfl | rfl) <;> rfl
  opens := by rintro t rfl; rfl
  atom := by rintro ts e (h | h | h | h) <;> exact ⟨_, _, rfl, rfl⟩
  not_isOr := by rintro t h (rfl | rfl) <;> exact absurd h (by decide)
  not_isAnd := by rintro t h (rfl | rfl) <;> exact absurd h (by decide)
  or_not_isAnd := by rintro t (rfl | rfl) (h | h) <;> exact absurd h (by decide)
  closes := by
    rintro t rfl
    have hclose : ")" ≠ "-o" ∧ ")" ≠ "-or" ∧ ")" ≠ "-a" ∧ ")" ≠ "-and" := by decide
    exact ⟨by decide, fun h => h.elim hclose.1 hclose.2.1,
      fun h => h.elim hclose.2.2.1 hclose.2.2.2⟩

/-! ## Arguments -/

lemma stripQuotes_eq_iff {t arg : String} : stripQuotes t = arg ↔ Unquoted t arg := by
  unfold stripQuotes Unquoted
  rcases ht : t.toList with _ | ⟨q, rest⟩
  · simpa using eq_comm
  · have hquoted : ∀ body, rest = body ++ [q] ↔ rest.getLast? = some q ∧ rest.dropLast = body := by
      intro body
      constructor
      · rintro rfl
        simp
      · rintro ⟨hlast, rfl⟩
        exact (List.dropLast_append_getLast? q hlast).symm
    dsimp only
    split_ifs with h
    · constructor
      · rintro rfl
        refine Or.inl ⟨q, h.1, ?_⟩
        rw [String.toList_ofList, ← (hquoted _).mpr ⟨h.2, rfl⟩]
      · rintro (⟨q', -, heq⟩ | ⟨-, hno⟩)
        · obtain ⟨rfl, hrest⟩ := List.cons.inj heq
          rw [((hquoted _).mp hrest).2, String.ofList_toList]
        · exact absurd (congrArg _ ((hquoted _).mpr ⟨h.2, rfl⟩)) (hno q h.1 _)
    · constructor
      · rintro rfl
        refine Or.inr ⟨rfl, fun q' hq' body heq => h ?_⟩
        obtain ⟨rfl, hrest⟩ := List.cons.inj heq
        exact ⟨hq', ((hquoted _).mp hrest).1⟩
      · rintro (⟨q', hq', heq⟩ | ⟨rfl, -⟩)
        · obtain ⟨rfl, hrest⟩ := List.cons.inj heq
          exact absurd ⟨hq', ((hquoted _).mp hrest).1⟩ h
        · rfl

/-- `parse_prim` reads a predicate and the token behind it. -/
lemma parsePrim_eq_ok_iff {head : String} {ts rest : List String} {e : Expr} :
    parsePrim head ts = .ok (e, rest) ↔
      ∃ t, ts = t :: rest ∧ PrimTokens Unquoted [head, t] e := by
  rcases ts with _ | ⟨raw, ts⟩
  · simp [parsePrim]
  · have hraw : Unquoted raw (stripQuotes raw) := stripQuotes_eq_iff.mp rfl
    constructor
    · intro h
      unfold parsePrim at h
      dsimp only at h
      split at h
      · obtain ⟨rfl, rfl⟩ := Prod.mk.inj (Except.ok.inj h)
        exact ⟨raw, rfl, .name hraw⟩
      · obtain ⟨rfl, rfl⟩ := Prod.mk.inj (Except.ok.inj h)
        exact ⟨raw, rfl, .path hraw⟩
      · rcases hsize : parseSize (stripQuotes raw) with err | r
        · rw [hsize] at h
          cases h
        · rw [hsize] at h
          obtain ⟨rfl, rfl⟩ := Prod.mk.inj (Except.ok.inj h)
          exact ⟨raw, rfl, .size hraw hsize⟩
      · obtain ⟨rfl, rfl⟩ := Prod.mk.inj (Except.ok.inj h)
        exact ⟨raw, rfl, .newer hraw⟩
      · cases h
    · rintro ⟨t, hts, hprim⟩
      obtain ⟨rfl, rfl⟩ := List.cons.inj hts
      cases hprim with
      | name harg => rw [parsePrim, stripQuotes_eq_iff.mpr harg]
      | path harg => rw [parsePrim, stripQuotes_eq_iff.mpr harg]
      | newer harg => rw [parsePrim, stripQuotes_eq_iff.mpr harg]
      | size harg hsize =>
          rw [parsePrim, stripQuotes_eq_iff.mpr harg, hsize]
          rfl

/-! ## The parser descends -/

/-- The parsing function of a phrase. -/
def parsePhrase (fuel : ℕ) : OperatorGrammar.Phrase Expr → List String → Parsed
  | .or, ts => parseOr fuel ts
  | .orRest left, ts => orLoop fuel left ts
  | .and, ts => parseAnd fuel ts
  | .andRest left, ts => andLoop fuel left ts
  | .factor, ts => parseFactor fuel ts

def Returns (fuel : ℕ) (p : OperatorGrammar.Phrase Expr) (ts : List String) (e : Expr)
    (rest : List String) : Prop := parsePhrase fuel p ts = some (.ok (e, rest))

/-- A parsing function that goes on behind another one. -/
def andThen (r : Parsed) (k : Expr → List String → Parsed) : Parsed :=
  match r with
  | some (.ok (e, ts)) => k e ts
  | r => r

lemma andThen_returns_iff {r : Parsed} {k : Expr → List String → Parsed} {e : Expr}
    {rest : List String} : andThen r k = some (.ok (e, rest)) ↔
      ∃ a ts, r = some (.ok (a, ts)) ∧ k a ts = some (.ok (e, rest)) := by
  rcases r with _ | _ | ⟨a, ts⟩ <;> simp [andThen]

lemma andThen_ends {r : Parsed} {k : Expr → List String → Parsed} (hr : ∃ o, r = some o)
    (hk : ∀ a ts, r = some (.ok (a, ts)) → ∃ o, k a ts = some o) : ∃ o, andThen r k = some o := by
  obtain ⟨o, rfl⟩ := hr
  rcases o with err | ⟨a, ts⟩
  · exact ⟨_, rfl⟩
  · exact hk a ts rfl

lemma parseOr_succ (fuel : ℕ) (ts : List String) :
    parseOr (fuel + 1) ts = andThen (parseAnd fuel ts) (orLoop fuel) := by
  rw [parseOr]
  rfl

lemma parseAnd_succ (fuel : ℕ) (ts : List String) :
    parseAnd (fuel + 1) ts = andThen (parseFactor fuel ts) (andLoop fuel) := by
  rw [parseAnd]
  rfl

lemma orLoop_more {fuel : ℕ} {left : Expr} {t : String} {ts : List String}
    (h : (exprGrammar Unquoted).IsOr t) : orLoop (fuel + 1) left (t :: ts) =
      andThen (parseAnd fuel ts) fun right => orLoop fuel (.or left right) := by
  have hmem : t ∈ ["-o", "-or"] := by simpa [exprGrammar] using h
  rw [orLoop, if_pos hmem]
  rfl

lemma orLoop_stop {fuel : ℕ} {left : Expr} {ts : List String}
    (h : ∀ t ∈ ts.head?, ¬(exprGrammar Unquoted).IsOr t) :
    orLoop (fuel + 1) left ts = some (.ok (left, ts)) := by
  rcases ts with _ | ⟨t, ts⟩
  · rw [orLoop]
  · have hmem : t ∉ ["-o", "-or"] := by simpa [exprGrammar] using h t rfl
    rw [orLoop, if_neg hmem]

lemma andLoop_succ {fuel : ℕ} {left : Expr} {ts us : List String} (h : nextFactor ts = some us) :
    andLoop (fuel + 1) left ts =
      andThen (parseFactor fuel us) fun right => andLoop fuel (.and left right) := by
  rw [andLoop, h]
  rfl

lemma nextFactor_and {t : String} {ts : List String} (h : (exprGrammar Unquoted).IsAnd t) :
    nextFactor (t :: ts) = some ts := by
  have hmem : t ∈ ["-a", "-and"] := by simpa [exprGrammar] using h
  rw [nextFactor, if_pos hmem]

lemma nextFactor_starts {t : String} {ts : List String} (h : isFactorStart t = true) :
    nextFactor (t :: ts) = some (t :: ts) := by
  have hmem : t ∉ ["-a", "-and"] := by
    simpa [exprGrammar] using (predicts_exprGrammar Unquoted).not_isAnd h
  rw [nextFactor, if_neg hmem, if_pos h]

lemma andLoop_stop {fuel : ℕ} {left : Expr} {ts : List String}
    (h : ∀ t ∈ ts.head?, ¬(exprGrammar Unquoted).IsAnd t ∧ ¬isFactorStart t = true) :
    andLoop (fuel + 1) left ts = some (.ok (left, ts)) := by
  have hnext : nextFactor ts = none := by
    rcases ts with _ | ⟨t, ts⟩
    · rfl
    · obtain ⟨hand, hstarts⟩ := h t rfl
      have hmem : t ∉ ["-a", "-and"] := by simpa [exprGrammar] using hand
      rw [nextFactor, if_neg hmem, if_neg hstarts]
  rw [andLoop, hnext]

def closeParen : Parsed → Parsed
  | some (.ok (e, ")" :: ts)) => some (.ok (e, ts))
  | some (.ok (_, ts)) => some (.error (.expectedParen ts.head?))
  | r => r

lemma closeParen_returns_iff {r : Parsed} {e : Expr} {rest : List String} :
    closeParen r = some (.ok (e, rest)) ↔ r = some (.ok (e, ")" :: rest)) := by
  unfold closeParen
  split
  · simp
  · rename_i hclose
    simp only [Option.some.injEq, reduceCtorEq, Except.ok.injEq, Prod.mk.injEq, false_iff, not_and]
    intro _ hts
    exact hclose rest hts
  · rename_i hok
    exact iff_of_false (fun h => hok _ _ h) (fun h => hok _ _ h)

lemma parseFactor_cons (fuel : ℕ) (t : String) (ts : List String) :
    parseFactor (fuel + 1) (t :: ts) =
      if t = "!" ∨ t = "-not" then
        andThen (parseFactor fuel ts) fun f us => some (.ok (.not f, us))
      else if t = "(" then closeParen (parseOr fuel ts)
      else if startsWithDash t then some (parsePrim t ts)
      else some (.error (.unexpectedToken t)) := by
  rw [parseFactor]
  rfl

lemma PrimTokens.head {SizeArg : String → String → Prop} {head t : String} {e : Expr}
    (h : PrimTokens SizeArg [head, t] e) :
    startsWithDash head = true ∧ head ≠ "!" ∧ head ≠ "-not" ∧ head ≠ "(" := by
  cases h <;> decide

lemma parseFactor_returns_iff {fuel : ℕ} {ts rest : List String} {e : Expr} :
    parseFactor (fuel + 1) ts = some (.ok (e, rest)) ↔
      (∃ t us b, ts = t :: us ∧ (t = "!" ∨ t = "-not") ∧
          parseFactor fuel us = some (.ok (b, rest)) ∧ e = .not b) ∨
        (∃ o us c, ts = o :: us ∧ o = "(" ∧ c = ")" ∧
          parseOr fuel us = some (.ok (e, c :: rest))) ∨
        ∃ used, ts = used ++ rest ∧ PrimTokens Unquoted used e := by
  rcases ts with _ | ⟨t, ts⟩
  · rw [parseFactor]
    refine iff_of_false (by simp) ?_
    rintro (⟨t, us, b, hcons, -⟩ | ⟨o, us, c, hcons, -⟩ | ⟨used, hused, hprim⟩)
    · cases hcons
    · cases hcons
    · obtain ⟨rfl, rfl⟩ := List.append_eq_nil_iff.mp hused.symm
      cases hprim
  · have hatom : (∃ used, t :: ts = used ++ rest ∧ PrimTokens Unquoted used e) ↔
        parsePrim t ts = .ok (e, rest) := by
      rw [parsePrim_eq_ok_iff]
      constructor
      · rintro ⟨used, hused, hprim⟩
        obtain ⟨head, arg, rfl⟩ : ∃ head arg, used = [head, arg] := by
          cases hprim <;> exact ⟨_, _, rfl⟩
        obtain ⟨rfl, rfl⟩ := List.cons.inj hused
        exact ⟨arg, rfl, hprim⟩
      · rintro ⟨arg, rfl, hprim⟩
        exact ⟨[t, arg], rfl, hprim⟩
    have hhead : parsePrim t ts = .ok (e, rest) →
        startsWithDash t = true ∧ t ≠ "!" ∧ t ≠ "-not" ∧ t ≠ "(" := by
      intro h
      obtain ⟨arg, -, hprim⟩ := parsePrim_eq_ok_iff.mp h
      exact hprim.head
    rw [parseFactor_cons, hatom]
    by_cases hnot : t = "!" ∨ t = "-not"
    · have hopen : t ≠ "(" := by rcases hnot with rfl | rfl <;> decide
      have hprim : ¬parsePrim t ts = .ok (e, rest) := fun h => by
        obtain ⟨-, h₁, h₂, -⟩ := hhead h
        exact hnot.elim h₁ h₂
      rw [if_pos hnot, andThen_returns_iff]
      simp [hnot, hopen, hprim, eq_comm, and_comm]
    · rw [if_neg hnot]
      by_cases hopen : t = "("
      · have hprim : ¬parsePrim t ts = .ok (e, rest) := fun h => (hhead h).2.2.2 hopen
        rw [if_pos hopen, closeParen_returns_iff]
        subst hopen
        simp [hprim]
      · rw [if_neg hopen]
        by_cases hdash : startsWithDash t = true
        · rw [if_pos hdash]
          simp [hnot, hopen]
        · have hprim : ¬parsePrim t ts = .ok (e, rest) := fun h => hdash (hhead h).1
          rw [if_neg hdash]
          simp [hnot, hopen, hprim]

/-- The parser is a recursive descent of the grammar. -/
lemma descends : Descends (exprGrammar Unquoted) (isFactorStart · = true) Returns where
  zero {p ts rest e} h := by cases p <;> cases h
  or := by
    intro fuel ts rest e
    rw [Returns, parsePhrase, parseOr_succ, andThen_returns_iff]
    rfl
  orMore := by
    intro fuel t ts rest left e hor
    rw [Returns, parsePhrase, orLoop_more hor, andThen_returns_iff]
    rfl
  orStop := by
    intro fuel ts rest left e hstop
    rw [Returns, parsePhrase, orLoop_stop hstop]
    simp [eq_comm]
  and := by
    intro fuel ts rest e
    rw [Returns, parsePhrase, parseAnd_succ, andThen_returns_iff]
    rfl
  andMore := by
    intro fuel t ts rest left e hand
    rw [Returns, parsePhrase, andLoop_succ (nextFactor_and hand), andThen_returns_iff]
    rfl
  adjacent := by
    intro fuel t ts rest left e hstarts
    rw [Returns, parsePhrase, andLoop_succ (nextFactor_starts hstarts), andThen_returns_iff]
    rfl
  andStop := by
    intro fuel ts rest left e hstop
    rw [Returns, parsePhrase, andLoop_stop hstop]
    simp [eq_comm]
  factor := by
    intro fuel ts rest e
    rw [Returns, parsePhrase, parseFactor_returns_iff]
    rfl

/-- A parsing function ends when the functions it calls do. -/
lemma halts : Halts (exprGrammar Unquoted) (isFactorStart · = true) Returns
    fun fuel p ts => ∃ o, parsePhrase fuel p ts = some o where
  or {fuel ts} hand hloop := by
    rw [parsePhrase, parseOr_succ]
    exact andThen_ends hand hloop
  orMore {fuel t ts left} hor hand hloop := by
    rw [parsePhrase, orLoop_more hor]
    exact andThen_ends hand hloop
  orStop hstop := ⟨_, orLoop_stop hstop⟩
  and {fuel ts} hfactor hloop := by
    rw [parsePhrase, parseAnd_succ]
    exact andThen_ends hfactor hloop
  andMore {fuel t ts left} hand hfactor hloop := by
    rw [parsePhrase, andLoop_succ (nextFactor_and hand)]
    exact andThen_ends hfactor hloop
  adjacent {fuel t ts left} hstarts hfactor hloop := by
    rw [parsePhrase, andLoop_succ (nextFactor_starts hstarts)]
    exact andThen_ends hfactor hloop
  andStop hstop := ⟨_, andLoop_stop hstop⟩
  factor {fuel ts} hnot hopen := by
    rw [parsePhrase]
    rcases ts with _ | ⟨t, ts⟩
    · exact ⟨_, rfl⟩
    · rw [parseFactor_cons]
      split_ifs with h₁ h₂
      · exact andThen_ends (hnot t ts rfl h₁) fun _ _ _ => ⟨_, rfl⟩
      · obtain ⟨o, ho⟩ := hopen t ts rfl h₂
        have hor : parseOr fuel ts = some o := ho
        rw [hor]
        unfold closeParen
        split <;> exact ⟨_, rfl⟩
      · exact ⟨_, rfl⟩
      · exact ⟨_, rfl⟩

/-! ## Slices of the arguments -/

/-- `strip_quotes`, with the bytes that it looks at and the slice that it takes. -/
def stripQuotesSliced (s : String) : Res String :=
  let b := utf8 s
  if 2 ≤ b.length ∧ (b[0]? = some 0x27 ∨ b[0]? = some 0x22) ∧ b[0]? = b[b.length - 1]? then
    strSlice s 1 (b.length - 1)
  else .ok s

/-- The comparison of `parse_size`, and the slice behind its sign. -/
def sizeCmpSliced (s : String) : Res (Cmp × String) :=
  let b := utf8 s
  if b.head? = some 0x2B then do .ok (.gt, ← strSlice s 1 b.length)
  else if b.head? = some 0x2D then do .ok (.lt, ← strSlice s 1 b.length)
  else .ok (.eq, s)

/-- The factor of `parse_size`, and the slice before its unit. -/
def sizeUnitSliced (rest : String) : Res (String × ℤ) :=
  let b := utf8 rest
  if b.getLast? = some 0x63 then do .ok (← strSlice rest 0 (b.length - 1), 1)
  else if b.getLast? = some 0x6B then do .ok (← strSlice rest 0 (b.length - 1), 1024)
  else if b.getLast? = some 0x4D then do .ok (← strSlice rest 0 (b.length - 1), 1024 * 1024)
  else if b.getLast? = some 0x47 then do .ok (← strSlice rest 0 (b.length - 1), 1024 * 1024 * 1024)
  else .ok (rest, 1)

/-- `parse_size`, with its slices. -/
def parseSizeSliced (s : String) : Res (Except ParseError (Cmp × Int64)) := do
  let (cmp, rest) ← sizeCmpSliced s
  let (numPart, mult) ← sizeUnitSliced rest
  match parseI64 numPart.toList with
  | none => .ok (.error (.badSize s))
  | some n =>
      let bytes := n.toInt * mult
      .ok (.ok (cmp,
        if -2 ^ 63 ≤ bytes ∧ bytes < 2 ^ 63 then Int64.ofInt bytes else Int64.maxValue))

/-- `parse_prim`, with the slices that it takes of the argument. -/
def parsePrimSliced (head : String) : List String → Res (Except ParseError (Expr × List String))
  | [] => .ok (.error (.missingArgument head))
  | raw :: ts => do
      let arg ← stripQuotesSliced raw
      match head with
      | "-name" => .ok (.ok (.prim (.name arg), ts))
      | "-path" => .ok (.ok (.prim (.path arg), ts))
      | "-size" => do .ok ((← parseSizeSliced arg).map fun r => (.prim (.size r.1 r.2), ts))
      | "-newer" => .ok (.ok (.prim (.newer arg), ts))
      | other => .ok (.error (.unknownPredicate other))

lemma strSlice_tail {s : String} {c : Char} {cs : List Char} (hc : c.utf8Size = 1)
    (hs : s.toList = c :: cs) : strSlice s 1 (utf8 s).length = .ok (String.ofList cs) := by
  obtain rfl : s = String.ofList [c] ++ (String.ofList cs ++ "") := by
    rw [← String.toList_inj, hs]
    simp
  refine strSlice_eq_ok_iff.mpr ⟨_, _, rfl, ?_, ?_⟩
  · simp [length_utf8, hc]
  · simp [utf8_append, length_utf8]

lemma strSlice_dropLast {s : String} {c : Char} {cs : List Char} (hc : c.utf8Size = 1)
    (hs : s.toList = cs ++ [c]) :
    strSlice s 0 ((utf8 s).length - 1) = .ok (String.ofList cs) := by
  obtain rfl : s = "" ++ (String.ofList cs ++ String.ofList [c]) := by
    rw [← String.toList_inj, hs]
    simp
  refine strSlice_eq_ok_iff.mpr ⟨_, _, rfl, ?_, ?_⟩
  · simp [length_utf8]
  · simp [length_utf8, hc]

/-- The bytes that `strip_quotes` compares are its first and its last character. -/
lemma quote_bytes_iff {s : String} {q : Char} (hq : q.utf8Size = 1) :
    (2 ≤ (utf8 s).length ∧ (utf8 s)[0]? = some q.val.toUInt8 ∧
        (utf8 s)[(utf8 s).length - 1]? = some q.val.toUInt8) ↔
      ∃ body, s.toList = q :: (body ++ [q]) := by
  rw [← List.head?_eq_getElem?, ← List.getLast?_eq_getElem?, head?_utf8_iff hq,
    getLast?_utf8_iff hq]
  constructor
  · rintro ⟨hlen, hhead, hlast⟩
    obtain ⟨rest, hrest⟩ := List.head?_eq_some_iff.mp hhead
    have hne : rest ≠ [] := by
      rintro rfl
      rw [length_utf8, hrest, List.map_singleton, List.sum_singleton, hq] at hlen
      omega
    rw [hrest, List.getLast?_cons_of_ne_nil hne] at hlast
    exact ⟨rest.dropLast, by rw [List.dropLast_append_getLast? q hlast, hrest]⟩
  · rintro ⟨body, hbody⟩
    refine ⟨?_, by simp [hbody], by simp [hbody, List.getLast?_cons]⟩
    rw [length_utf8, hbody]
    simp only [List.map_cons, List.map_append, List.map_nil, List.sum_cons, List.sum_append,
      List.sum_nil, hq]
    omega

/-- `strip_quotes` slices between characters. -/
lemma stripQuotesSliced_eq (s : String) : stripQuotesSliced s = .ok (stripQuotes s) := by
  have hsingle := @quote_bytes_iff s '\'' rfl
  have hdouble := @quote_bytes_iff s '"' rfl
  have hcond : (2 ≤ (utf8 s).length ∧ ((utf8 s)[0]? = some 0x27 ∨ (utf8 s)[0]? = some 0x22) ∧
      (utf8 s)[0]? = (utf8 s)[(utf8 s).length - 1]?) ↔
        ∃ q body, (q = '\'' ∨ q = '"') ∧ s.toList = q :: (body ++ [q]) := by
    constructor
    · rintro ⟨hlen, hquote | hquote, hlast⟩
      · obtain ⟨body, hbody⟩ := hsingle.mp ⟨hlen, hquote, hlast.symm.trans hquote⟩
        exact ⟨'\'', body, Or.inl rfl, hbody⟩
      · obtain ⟨body, hbody⟩ := hdouble.mp ⟨hlen, hquote, hlast.symm.trans hquote⟩
        exact ⟨'"', body, Or.inr rfl, hbody⟩
    · rintro ⟨q, body, rfl | rfl, hbody⟩
      · obtain ⟨hlen, hfirst, hlast⟩ := hsingle.mpr ⟨body, hbody⟩
        exact ⟨hlen, Or.inl hfirst, hfirst.trans hlast.symm⟩
      · obtain ⟨hlen, hfirst, hlast⟩ := hdouble.mpr ⟨body, hbody⟩
        exact ⟨hlen, Or.inr hfirst, hfirst.trans hlast.symm⟩
  unfold stripQuotesSliced
  dsimp only
  split_ifs with h
  · obtain ⟨q, body, hq, hs⟩ := hcond.mp h
    have hsize : q.utf8Size = 1 := by rcases hq with rfl | rfl <;> rfl
    have harg : stripQuotes s = String.ofList body :=
      stripQuotes_eq_iff.mpr (Or.inl ⟨q, hq, by rw [String.toList_ofList, hs]⟩)
    obtain rfl : s = String.ofList [q] ++ (String.ofList body ++ String.ofList [q]) := by
      rw [← String.toList_inj, hs]
      simp
    rw [harg]
    refine strSlice_eq_ok_iff.mpr ⟨_, _, rfl, ?_, ?_⟩
    · simp [length_utf8, hsize]
    · simp [length_utf8, hsize]
      omega
  · have harg : stripQuotes s = s :=
      stripQuotes_eq_iff.mpr (Or.inr ⟨rfl, fun q hq body hs => h (hcond.mpr ⟨q, body, hq, hs⟩)⟩)
    rw [harg]

/-- `parse_size` slices behind its sign. -/
lemma sizeCmpSliced_eq (s : String) :
    sizeCmpSliced s = .ok ((sizeCmp s.toList).1, String.ofList (sizeCmp s.toList).2) := by
  have hplus : (utf8 s).head? = some 0x2B ↔ s.toList.head? = some '+' :=
    @head?_utf8_iff s '+' rfl
  have hminus : (utf8 s).head? = some 0x2D ↔ s.toList.head? = some '-' :=
    @head?_utf8_iff s '-' rfl
  unfold sizeCmpSliced
  dsimp only
  split_ifs with h₁ h₂
  · obtain ⟨cs, hs⟩ := List.head?_eq_some_iff.mp (hplus.mp h₁)
    rw [strSlice_tail rfl hs, hs]
    rfl
  · obtain ⟨cs, hs⟩ := List.head?_eq_some_iff.mp (hminus.mp h₂)
    rw [strSlice_tail rfl hs, hs]
    rfl
  · have hcmp : sizeCmp s.toList = (.eq, s.toList) := by
      refine sizeCmp_eq_iff.mpr ⟨[], rfl, .none, fun _ c hc => ⟨?_, ?_⟩⟩
      · rintro rfl
        exact h₁ (hplus.mpr hc)
      · rintro rfl
        exact h₂ (hminus.mpr hc)
    rw [hcmp, String.ofList_toList]

/-- `parse_size` slices before its unit. -/
lemma sizeUnitSliced_eq (s : String) :
    sizeUnitSliced s = .ok (String.ofList (sizeUnit s.toList).1, (sizeUnit s.toList).2) := by
  have hlast : ∀ {c : Char}, c.utf8Size = 1 → (utf8 s).getLast? = some c.val.toUInt8 →
      s.toList.getLast? = some c ∧
        strSlice s 0 ((utf8 s).length - 1) = .ok (String.ofList s.toList.dropLast) := by
    intro c hc h
    have hchar := (getLast?_utf8_iff hc).mp h
    exact ⟨hchar, strSlice_dropLast hc (List.dropLast_append_getLast? c hchar).symm⟩
  unfold sizeUnitSliced
  dsimp only
  split_ifs with h₁ h₂ h₃ h₄
  · obtain ⟨hchar, hslice⟩ := @hlast 'c' rfl h₁
    rw [hslice, sizeUnit, hchar]
    rfl
  · obtain ⟨hchar, hslice⟩ := @hlast 'k' rfl h₂
    rw [hslice, sizeUnit, hchar]
    rfl
  · obtain ⟨hchar, hslice⟩ := @hlast 'M' rfl h₃
    rw [hslice, sizeUnit, hchar]
    rfl
  · obtain ⟨hchar, hslice⟩ := @hlast 'G' rfl h₄
    rw [hslice, sizeUnit, hchar]
    rfl
  · have hunit : sizeUnit s.toList = (s.toList, 1) := by
      refine sizeUnit_eq_iff.mpr ⟨[], by simp, .none, fun _ c hc hmem => ?_⟩
      simp only [List.mem_cons, List.not_mem_nil, or_false] at hmem
      rcases hmem with rfl | rfl | rfl | rfl
      · exact h₁ (@getLast?_utf8_iff s 'c' rfl |>.mpr hc)
      · exact h₂ (@getLast?_utf8_iff s 'k' rfl |>.mpr hc)
      · exact h₃ (@getLast?_utf8_iff s 'M' rfl |>.mpr hc)
      · exact h₄ (@getLast?_utf8_iff s 'G' rfl |>.mpr hc)
    rw [hunit, String.ofList_toList]

lemma parseSizeSliced_eq (s : String) : parseSizeSliced s = .ok (parseSize s) := by
  rw [parseSizeSliced, sizeCmpSliced_eq, bind_ok]
  dsimp only
  rw [sizeUnitSliced_eq, bind_ok, String.toList_ofList, parseSize]
  dsimp only
  rw [String.toList_ofList]
  cases parseI64 (sizeUnit (sizeCmp s.toList).2).1 <;> rfl

/-- No argument makes `parse_prim` panic. -/
lemma parsePrimSliced_eq (head : String) (ts : List String) :
    parsePrimSliced head ts = .ok (parsePrim head ts) := by
  rcases ts with _ | ⟨raw, ts⟩
  · rfl
  · unfold parsePrimSliced
    dsimp only
    rw [stripQuotesSliced_eq, bind_ok]
    split
    · rfl
    · rfl
    · rw [parseSizeSliced_eq]
      rfl
    · rfl
    · rename_i hname hpath hsize hnewer
      rw [parsePrim]
      · exact hname
      · exact hpath
      · exact hsize
      · exact hnewer

/-! ## Exactness -/

/-- An expression is what the grammar derives from the tokens. -/
theorem parse_eq_ok_iff {s : String} {e : Expr} :
    parse s = .ok e ↔
      OperatorGrammar.Derives (exprGrammar Unquoted) .or (splitWhitespace s) e := by
  have hfuel : 3 * (splitWhitespace s).length + 2 < 3 * (splitWhitespace s).length + 3 :=
    Nat.lt_succ_self _
  rw [← descends.or_iff (predicts_exprGrammar Unquoted) hfuel, Returns, parsePhrase, parse]
  split <;> simp_all

/-- `parse` accepts exactly what the grammar derives from the whitespace-separated tokens, with the
one tree of the derivation; on every input the parser comes to an end, and where it looks into a
token it slices between characters. -/
theorem expr_exact :
    (∀ s e, parse s = .ok e ↔
        OperatorGrammar.Derives (exprGrammar Unquoted) .or (splitWhitespace s) e) ∧
      (∀ ts e e', OperatorGrammar.Derives (exprGrammar Unquoted) .or ts e →
        OperatorGrammar.Derives (exprGrammar Unquoted) .or ts e' → e = e') ∧
      (∀ s, ∃ r, parseOr (3 * (splitWhitespace s).length + 3) (splitWhitespace s) = some r) ∧
      ∀ head ts, parsePrimSliced head ts = .ok (parsePrim head ts) := by
  refine ⟨fun _ _ => parse_eq_ok_iff, fun ts e e' h h' => ?_, fun s => ?_, parsePrimSliced_eq⟩
  · refine h.unique (predicts_exprGrammar Unquoted) descends (fun {n ts a b} ha hb => ?_) h'
    exact (Prod.mk.inj (Except.ok.inj (Option.some.inj (ha.symm.trans hb)))).1
  · exact @Halts.of_fuel _ _ _ _ _ _ halts descends (predicts_exprGrammar Unquoted) .or _ _
      (Nat.lt_succ_self _)

/-- Behind a predicate an operator is an argument. -/
theorem expr_exact_operator_argument : parse "-name -o" = .ok (.prim (.name "-o")) := by
  refine (expr_exact.1 _ _).mpr ?_
  have harg : Unquoted "-o" "-o" := stripQuotes_eq_iff.mp (by decide +kernel)
  have hand : OperatorGrammar.Derives (exprGrammar Unquoted) .and (["-name", "-o"] ++ [])
      (.prim (.name "-o")) :=
    .and (.atom (.name harg)) (.andDone _)
  have hsplit : splitWhitespace "-name -o" = ["-name", "-o"] ++ [] ++ [] := by decide +kernel
  rw [hsplit]
  exact .or hand (.orDone _)

/-- The quotes of `'1k'` are stripped before `parse_size`, which does not accept them. -/
theorem quoted_size_accepted :
    parse "-size '1k'" = .ok (.prim (.size .eq 1024)) ∧
      ∀ e, ¬OperatorGrammar.Derives (exprGrammar Eq) .or (splitWhitespace "-size '1k'") e := by
  refine ⟨by decide +kernel, fun e h => ?_⟩
  obtain ⟨us, vs, a, htokens, hfactor⟩ := h.exists_factor
  have hsplit : splitWhitespace "-size '1k'" = ["-size", "'1k'"] := by decide +kernel
  rw [hsplit] at htokens
  cases hfactor with
  | not hnot =>
      obtain ⟨rfl, -⟩ := List.cons.inj htokens
      exact hnot.elim (by decide) (by decide)
  | brackets hopen =>
      obtain ⟨rfl, -⟩ := List.cons.inj htokens
      exact absurd hopen (show "-size" ≠ "(" by decide)
  | atom hatom =>
      rcases hatom with _ | _ | _ | ⟨hsize, haccepted⟩
      · simp at htokens
      · simp at htokens
      · simp at htokens
      · obtain ⟨rfl, -⟩ := List.cons.inj (List.cons.inj htokens).2
        obtain rfl := hsize
        have hrefused : parseSize "'1k'" = .error (.badSize "'1k'") := by decide +kernel
        rw [hrefused] at haccepted
        cases haccepted

end Bfs

end DeepFinder
