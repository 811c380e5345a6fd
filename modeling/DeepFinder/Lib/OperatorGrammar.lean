import Mathlib.Data.List.Infix

/-!
# Operator grammars

`or := and (OR and)*`, `and := factor (AND? factor)*` and `factor := NOT factor | '(' or ')' | atom`
over any tokens, with any trees.  The repetitions carry the tree of what stands left of them, which
makes both connectives associate to the left.

A recursive-descent parser of such a grammar is known here by what its functions return
(`Descends`): nothing is said of its errors or of how it represents running out of fuel.  It finds
the derivation of its input whenever there is one (`Descends.or_iff`), so a grammar that has such a
parser is unambiguous (`Derives.unique`), and fuel in proportion to the tokens is enough for it
(`Halts.of_fuel`).
-/

namespace OperatorGrammar

/-- The tokens, the atoms and the trees of an operator grammar. -/
structure Grammar (τ α : Type) where
  IsOr : τ → Prop
  IsAnd : τ → Prop
  IsNot : τ → Prop
  Opens : τ → Prop
  Closes : τ → Prop
  Atom : List τ → α → Prop
  or : α → α → α
  and : α → α → α
  not : α → α

/-- The phrases of a grammar; a repetition stands behind the tree of what it continues. -/
inductive Phrase (α : Type) where
  | or
  | orRest (left : α)
  | and
  | andRest (left : α)
  | factor

variable {τ α : Type} {G : Grammar τ α}

/-- The tokens are a phrase, and the tree is its meaning.  The repetitions carry the tree that
stands to their left, so that both connectives associate to the left as the parser's loops do. -/
inductive Derives (G : Grammar τ α) : Phrase α → List τ → α → Prop where
  | or {ts us : List τ} {left a : α} :
      Derives G .and ts left → Derives G (.orRest left) us a → Derives G .or (ts ++ us) a
  | orDone (left : α) : Derives G (.orRest left) [] left
  | orMore {t : τ} {ts us : List τ} {left right a : α} : G.IsOr t → Derives G .and ts right →
      Derives G (.orRest (G.or left right)) us a → Derives G (.orRest left) (t :: (ts ++ us)) a
  | and {ts us : List τ} {left a : α} :
      Derives G .factor ts left → Derives G (.andRest left) us a → Derives G .and (ts ++ us) a
  | andDone (left : α) : Derives G (.andRest left) [] left
  | andMore {t : τ} {ts us : List τ} {left right a : α} : G.IsAnd t → Derives G .factor ts right →
      Derives G (.andRest (G.and left right)) us a → Derives G (.andRest left) (t :: (ts ++ us)) a
  | adjacent {ts us : List τ} {left right a : α} : Derives G .factor ts right →
      Derives G (.andRest (G.and left right)) us a → Derives G (.andRest left) (ts ++ us) a
  | not {t : τ} {ts : List τ} {a : α} :
      G.IsNot t → Derives G .factor ts a → Derives G .factor (t :: ts) (G.not a)
  | brackets {o c : τ} {ts : List τ} {a : α} : G.Opens o → G.Closes c → Derives G .or ts a →
      Derives G .factor (o :: (ts ++ [c])) a
  | atom {ts : List τ} {a : α} : G.Atom ts a → Derives G .factor ts a

lemma Derives.exists_factor {ts : List τ} {a : α} (h : Derives G .or ts a) :
    ∃ us vs b, ts = us ++ vs ∧ Derives G .factor us b := by
  cases h with
  | or hand _ =>
      cases hand with
      | and hfactor _ => exact ⟨_, _, _, List.append_assoc .., hfactor⟩

/-! ## Parsers -/

/-- By its first token a parser tells whether a factor starts: `Starts` holds of the first token of
every factor, and of no connective and no closing bracket. -/
structure Predicts (G : Grammar τ α) (Starts : τ → Prop) : Prop where
  not {t : τ} : G.IsNot t → Starts t
  opens {t : τ} : G.Opens t → Starts t
  atom {ts : List τ} {a : α} : G.Atom ts a → ∃ t us, ts = t :: us ∧ Starts t
  not_isOr {t : τ} : Starts t → ¬G.IsOr t
  not_isAnd {t : τ} : Starts t → ¬G.IsAnd t
  or_not_isAnd {t : τ} : G.IsOr t → ¬G.IsAnd t
  closes {t : τ} : G.Closes t → ¬Starts t ∧ ¬G.IsOr t ∧ ¬G.IsAnd t

/-- `R n p ts a rest` says that the parsing function of the phrase `p`, on `ts` and with the fuel
`n`, returns `a` and leaves `rest`. -/
structure Descends (G : Grammar τ α) (Starts : τ → Prop)
    (R : ℕ → Phrase α → List τ → α → List τ → Prop) : Prop where
  zero {p : Phrase α} {ts rest : List τ} {a : α} : ¬R 0 p ts a rest
  or {n : ℕ} {ts rest : List τ} {a : α} : R (n + 1) .or ts a rest ↔
    ∃ left us, R n .and ts left us ∧ R n (.orRest left) us a rest
  orMore {n : ℕ} {t : τ} {ts rest : List τ} {left a : α} : G.IsOr t →
    (R (n + 1) (.orRest left) (t :: ts) a rest ↔
      ∃ right us, R n .and ts right us ∧ R n (.orRest (G.or left right)) us a rest)
  orStop {n : ℕ} {ts rest : List τ} {left a : α} : (∀ t ∈ ts.head?, ¬G.IsOr t) →
    (R (n + 1) (.orRest left) ts a rest ↔ a = left ∧ rest = ts)
  and {n : ℕ} {ts rest : List τ} {a : α} : R (n + 1) .and ts a rest ↔
    ∃ left us, R n .factor ts left us ∧ R n (.andRest left) us a rest
  andMore {n : ℕ} {t : τ} {ts rest : List τ} {left a : α} : G.IsAnd t →
    (R (n + 1) (.andRest left) (t :: ts) a rest ↔
      ∃ right us, R n .factor ts right us ∧ R n (.andRest (G.and left right)) us a rest)
  adjacent {n : ℕ} {t : τ} {ts rest : List τ} {left a : α} : Starts t →
    (R (n + 1) (.andRest left) (t :: ts) a rest ↔
      ∃ right us, R n .factor (t :: ts) right us ∧ R n (.andRest (G.and left right)) us a rest)
  andStop {n : ℕ} {ts rest : List τ} {left a : α} :
    (∀ t ∈ ts.head?, ¬G.IsAnd t ∧ ¬Starts t) →
      (R (n + 1) (.andRest left) ts a rest ↔ a = left ∧ rest = ts)
  factor {n : ℕ} {ts rest : List τ} {a : α} : R (n + 1) .factor ts a rest ↔
    (∃ t us b, ts = t :: us ∧ G.IsNot t ∧ R n .factor us b rest ∧ a = G.not b) ∨
      (∃ o us c, ts = o :: us ∧ G.Opens o ∧ G.Closes c ∧ R n .or us a (c :: rest)) ∨
        ∃ used, ts = used ++ rest ∧ G.Atom used a

variable {Starts : τ → Prop} {R : ℕ → Phrase α → List τ → α → List τ → Prop}

/-- The tokens that a parsing function has consumed are the phrase it parses. -/
theorem Descends.derives (hR : Descends G Starts R) {n : ℕ} {p : Phrase α} {ts rest : List τ}
    {a : α} (h : R n p ts a rest) : ∃ used, ts = used ++ rest ∧ Derives G p used a := by
  induction n generalizing p ts rest a with
  | zero => exact absurd h hR.zero
  | succ n ih =>
      cases p with
      | or =>
          obtain ⟨left, us, hand, hloop⟩ := hR.or.mp h
          obtain ⟨x, rfl, hx⟩ := ih hand
          obtain ⟨y, rfl, hy⟩ := ih hloop
          exact ⟨x ++ y, (List.append_assoc ..).symm, .or hx hy⟩
      | orRest left =>
          by_cases hor : ∀ t ∈ ts.head?, ¬G.IsOr t
          · obtain ⟨rfl, rfl⟩ := (hR.orStop hor).mp h
            exact ⟨[], rfl, .orDone _⟩
          · push Not at hor
            obtain ⟨t, ht, hor⟩ := hor
            obtain ⟨us, rfl⟩ := List.head?_eq_some_iff.mp ht
            obtain ⟨right, vs, hand, hloop⟩ := (hR.orMore hor).mp h
            obtain ⟨x, rfl, hx⟩ := ih hand
            obtain ⟨y, rfl, hy⟩ := ih hloop
            exact ⟨t :: (x ++ y), by simp, .orMore hor hx hy⟩
      | and =>
          obtain ⟨left, us, hfactor, hloop⟩ := hR.and.mp h
          obtain ⟨x, rfl, hx⟩ := ih hfactor
          obtain ⟨y, rfl, hy⟩ := ih hloop
          exact ⟨x ++ y, (List.append_assoc ..).symm, .and hx hy⟩
      | andRest left =>
          by_cases hstop : ∀ t ∈ ts.head?, ¬G.IsAnd t ∧ ¬Starts t
          · obtain ⟨rfl, rfl⟩ := (hR.andStop hstop).mp h
            exact ⟨[], rfl, .andDone _⟩
          · push Not at hstop
            obtain ⟨t, ht, hnext⟩ := hstop
            obtain ⟨us, rfl⟩ := List.head?_eq_some_iff.mp ht
            by_cases hand : G.IsAnd t
            · obtain ⟨right, vs, hfactor, hloop⟩ := (hR.andMore hand).mp h
              obtain ⟨x, rfl, hx⟩ := ih hfactor
              obtain ⟨y, rfl, hy⟩ := ih hloop
              exact ⟨t :: (x ++ y), by simp, .andMore hand hx hy⟩
            · obtain ⟨right, vs, hfactor, hloop⟩ := (hR.adjacent (hnext hand)).mp h
              obtain ⟨x, hts, hx⟩ := ih hfactor
              obtain ⟨y, rfl, hy⟩ := ih hloop
              exact ⟨x ++ y, hts.trans (List.append_assoc ..).symm, .adjacent hx hy⟩
      | factor =>
          obtain ⟨t, us, b, rfl, hnot, hfactor, rfl⟩ | ⟨o, us, c, rfl, ho, hc, hor⟩ |
            ⟨used, rfl, hatom⟩ := hR.factor.mp h
          · obtain ⟨x, rfl, hx⟩ := ih hfactor
            exact ⟨t :: x, rfl, .not hnot hx⟩
          · obtain ⟨x, rfl, hx⟩ := ih hor
            exact ⟨o :: (x ++ [c]), by simp, .brackets ho hc hx⟩
          · exact ⟨used, rfl, .atom hatom⟩

/-! ## What is derived is parsed -/

/-- What may stand behind a phrase that a parser takes whole. -/
def Phrase.EndsAt (G : Grammar τ α) (Starts : τ → Prop) : Phrase α → List τ → Prop
  | .or, rest | .orRest _, rest => ∀ t ∈ rest.head?, (¬G.IsAnd t ∧ ¬Starts t) ∧ ¬G.IsOr t
  | .and, rest | .andRest _, rest => ∀ t ∈ rest.head?, ¬G.IsAnd t ∧ ¬Starts t
  | .factor, _ => True

/-- A parse of a phrase in a list of so many tokens nests less than this. -/
def Phrase.fuel : Phrase α → ℕ → ℕ
  | .or, len => 3 * len + 2
  | .orRest _, len => 3 * len
  | .and, len | .andRest _, len => 3 * len + 1
  | .factor, len => 3 * len

/-- A factor, and what begins with one, starts as a factor does. -/
lemma Derives.exists_starts (hG : Predicts G Starts) {p : Phrase α} {ts : List τ} {a : α}
    (h : Derives G p ts a) (hp : p = .or ∨ p = .and ∨ p = .factor) :
    ∃ t us, ts = t :: us ∧ Starts t := by
  induction h with
  | or _ _ hand _ =>
      obtain ⟨t, us, rfl, ht⟩ := hand (by simp)
      exact ⟨t, _, rfl, ht⟩
  | and _ _ hfactor _ =>
      obtain ⟨t, us, rfl, ht⟩ := hfactor (by simp)
      exact ⟨t, _, rfl, ht⟩
  | not hnot => exact ⟨_, _, rfl, hG.not hnot⟩
  | brackets ho => exact ⟨_, _, rfl, hG.opens ho⟩
  | atom hatom => exact hG.atom hatom
  | orDone | orMore | andDone | andMore | adjacent => simp at hp

lemma Derives.length_pos (hG : Predicts G Starts) {ts : List τ} {a : α}
    (h : Derives G .factor ts a) : 0 < ts.length := by
  obtain ⟨t, us, rfl, -⟩ := h.exists_starts hG (by simp)
  exact Nat.zero_lt_succ _

lemma Derives.orRest_ends (hG : Predicts G Starts) {us rest : List τ} {left a : α}
    (h : Derives G (.orRest left) us a) (hrest : ∀ t ∈ rest.head?, ¬G.IsAnd t ∧ ¬Starts t) :
    ∀ t ∈ (us ++ rest).head?, ¬G.IsAnd t ∧ ¬Starts t := by
  cases h with
  | orDone => exact hrest
  | orMore hor =>
      intro t ht
      obtain rfl := Option.some.inj ht
      exact ⟨hG.or_not_isAnd hor, fun hstarts => hG.not_isOr hstarts hor⟩

/-- A parser takes a derived phrase whole and stops behind it. -/
theorem Derives.parsed (hG : Predicts G Starts) (hR : Descends G Starts R) {p : Phrase α}
    {ts : List τ} {a : α} (h : Derives G p ts a) {rest : List τ} (hrest : p.EndsAt G Starts rest)
    {n : ℕ} (hn : p.fuel (ts ++ rest).length < n) : R n p (ts ++ rest) a rest := by
  -- By induction on the derivation.  Every constructor takes one unit of fuel, and what its parts
  -- leave behind them ends the part before (`orRest_ends`, `EndsAt`).
  induction h generalizing rest n with
  | @or ts us left a hand horest ihAnd ihRest =>
      obtain ⟨n, rfl⟩ := Nat.exists_eq_add_one_of_ne_zero (Nat.ne_zero_of_lt hn)
      rw [List.append_assoc] at hn ⊢
      simp only [Phrase.fuel, List.length_append] at hn ihAnd ihRest
      have hleft : R n .and (ts ++ (us ++ rest)) left (us ++ rest) :=
        ihAnd (horest.orRest_ends hG fun t ht => (hrest t ht).1)
          (by simp only [List.length_append]; omega)
      exact hR.or.mpr ⟨left, _, hleft, ihRest hrest (by omega)⟩
  | orDone left =>
      obtain ⟨n, rfl⟩ := Nat.exists_eq_add_one_of_ne_zero (Nat.ne_zero_of_lt hn)
      exact (hR.orStop fun t ht => (hrest t ht).2).mpr ⟨rfl, rfl⟩
  | @orMore t ts us left right a hor hand horest ihAnd ihRest =>
      obtain ⟨n, rfl⟩ := Nat.exists_eq_add_one_of_ne_zero (Nat.ne_zero_of_lt hn)
      rw [List.cons_append, List.append_assoc] at hn ⊢
      simp only [Phrase.fuel, List.length_append, List.length_cons] at hn ihAnd ihRest
      have hright : R n .and (ts ++ (us ++ rest)) right (us ++ rest) :=
        ihAnd (horest.orRest_ends hG fun t ht => (hrest t ht).1)
          (by simp only [List.length_append]; omega)
      exact (hR.orMore hor).mpr ⟨right, _, hright, ihRest hrest (by omega)⟩
  | @and ts us left a hfactor _ ihFactor ihRest =>
      obtain ⟨n, rfl⟩ := Nat.exists_eq_add_one_of_ne_zero (Nat.ne_zero_of_lt hn)
      have hpos := hfactor.length_pos hG
      rw [List.append_assoc] at hn ⊢
      simp only [Phrase.fuel, List.length_append] at hn ihFactor ihRest
      have hleft : R n .factor (ts ++ (us ++ rest)) left (us ++ rest) :=
        ihFactor trivial (by simp only [List.length_append]; omega)
      exact hR.and.mpr ⟨left, _, hleft, ihRest hrest (by omega)⟩
  | andDone left =>
      obtain ⟨n, rfl⟩ := Nat.exists_eq_add_one_of_ne_zero (Nat.ne_zero_of_lt hn)
      exact (hR.andStop hrest).mpr ⟨rfl, rfl⟩
  | @andMore t ts us left right a hand hfactor _ ihFactor ihRest =>
      obtain ⟨n, rfl⟩ := Nat.exists_eq_add_one_of_ne_zero (Nat.ne_zero_of_lt hn)
      rw [List.cons_append, List.append_assoc] at hn ⊢
      simp only [Phrase.fuel, List.length_append, List.length_cons] at hn ihFactor ihRest
      have hright : R n .factor (ts ++ (us ++ rest)) right (us ++ rest) :=
        ihFactor trivial (by simp only [List.length_append]; omega)
      exact (hR.andMore hand).mpr ⟨right, _, hright, ihRest hrest (by omega)⟩
  | @adjacent ts us left right a hfactor _ ihFactor ihRest =>
      obtain ⟨n, rfl⟩ := Nat.exists_eq_add_one_of_ne_zero (Nat.ne_zero_of_lt hn)
      have hpos := hfactor.length_pos hG
      obtain ⟨t, vs, rfl, hstarts⟩ := hfactor.exists_starts hG (by simp)
      rw [List.append_assoc] at hn ⊢
      simp only [Phrase.fuel, List.length_append] at hn ihFactor ihRest
      have hright : R n .factor (t :: vs ++ (us ++ rest)) right (us ++ rest) :=
        ihFactor trivial (by simp only [List.length_append]; omega)
      exact (hR.adjacent hstarts).mpr ⟨right, _, hright, ihRest hrest (by omega)⟩
  | @not t ts a hnot _ ih =>
      obtain ⟨n, rfl⟩ := Nat.exists_eq_add_one_of_ne_zero (Nat.ne_zero_of_lt hn)
      rw [List.cons_append] at hn ⊢
      simp only [Phrase.fuel, List.length_append, List.length_cons] at hn ih
      have hinner : R n .factor (ts ++ rest) a rest := ih trivial (by omega)
      exact hR.factor.mpr (Or.inl ⟨t, _, a, rfl, hnot, hinner, rfl⟩)
  | @brackets o c ts a ho hc _ ih =>
      obtain ⟨n, rfl⟩ := Nat.exists_eq_add_one_of_ne_zero (Nat.ne_zero_of_lt hn)
      rw [List.cons_append, List.append_assoc, List.singleton_append] at hn ⊢
      simp only [Phrase.fuel, List.length_append, List.length_cons] at hn ih
      have hends : Phrase.or.EndsAt G Starts (c :: rest) := by
        intro t ht
        obtain rfl := Option.some.inj ht
        obtain ⟨hstarts, hor, hand⟩ := hG.closes hc
        exact ⟨⟨hand, hstarts⟩, hor⟩
      have hinner : R n .or (ts ++ c :: rest) a (c :: rest) :=
        ih hends (by simp only [List.length_cons]; omega)
      exact hR.factor.mpr (Or.inr (Or.inl ⟨o, _, c, rfl, ho, hc, hinner⟩))
  | @atom ts a hatom =>
      obtain ⟨n, rfl⟩ := Nat.exists_eq_add_one_of_ne_zero (Nat.ne_zero_of_lt hn)
      exact hR.factor.mpr (Or.inr (Or.inr ⟨ts, rfl, hatom⟩))

/-- With enough fuel a parser takes exactly the token lists that the grammar derives, with the tree
of the derivation. -/
theorem Descends.or_iff (hR : Descends G Starts R) (hG : Predicts G Starts) {ts : List τ} {a : α}
    {n : ℕ} (hn : 3 * ts.length + 2 < n) : R n .or ts a [] ↔ Derives G .or ts a := by
  constructor
  · intro h
    obtain ⟨used, rfl, hderives⟩ := hR.derives h
    rwa [List.append_nil]
  · intro h
    have hparsed : R n .or (ts ++ []) a [] :=
      h.parsed hG hR (by simp [Phrase.EndsAt]) (by simpa [Phrase.fuel] using hn)
    rwa [List.append_nil] at hparsed

/-- A grammar with a parser that returns one tree at most is unambiguous. -/
theorem Derives.unique (hG : Predicts G Starts) (hR : Descends G Starts R)
    (hone : ∀ {n ts a b}, R n .or ts a [] → R n .or ts b [] → a = b) {ts : List τ} {a b : α}
    (ha : Derives G .or ts a) (hb : Derives G .or ts b) : a = b :=
  have hn : 3 * ts.length + 2 < 3 * ts.length + 3 := Nat.lt_succ_self _
  hone ((hR.or_iff hG hn).mpr ha) ((hR.or_iff hG hn).mpr hb)

/-! ## Enough fuel -/

/-- `H n p ts` says that the parsing function of `p` ends on `ts` with the fuel `n`; it does when
the functions it calls do. -/
structure Halts (G : Grammar τ α) (Starts : τ → Prop)
    (R : ℕ → Phrase α → List τ → α → List τ → Prop) (H : ℕ → Phrase α → List τ → Prop) : Prop where
  or {n : ℕ} {ts : List τ} : H n .and ts →
    (∀ left us, R n .and ts left us → H n (.orRest left) us) → H (n + 1) .or ts
  orMore {n : ℕ} {t : τ} {ts : List τ} {left : α} : G.IsOr t → H n .and ts →
    (∀ right us, R n .and ts right us → H n (.orRest (G.or left right)) us) →
      H (n + 1) (.orRest left) (t :: ts)
  orStop {n : ℕ} {ts : List τ} {left : α} : (∀ t ∈ ts.head?, ¬G.IsOr t) →
    H (n + 1) (.orRest left) ts
  and {n : ℕ} {ts : List τ} : H n .factor ts →
    (∀ left us, R n .factor ts left us → H n (.andRest left) us) → H (n + 1) .and ts
  andMore {n : ℕ} {t : τ} {ts : List τ} {left : α} : G.IsAnd t → H n .factor ts →
    (∀ right us, R n .factor ts right us → H n (.andRest (G.and left right)) us) →
      H (n + 1) (.andRest left) (t :: ts)
  adjacent {n : ℕ} {t : τ} {ts : List τ} {left : α} : Starts t → H n .factor (t :: ts) →
    (∀ right us, R n .factor (t :: ts) right us → H n (.andRest (G.and left right)) us) →
      H (n + 1) (.andRest left) (t :: ts)
  andStop {n : ℕ} {ts : List τ} {left : α} : (∀ t ∈ ts.head?, ¬G.IsAnd t ∧ ¬Starts t) →
    H (n + 1) (.andRest left) ts
  factor {n : ℕ} {ts : List τ} : (∀ t us, ts = t :: us → G.IsNot t → H n .factor us) →
    (∀ o us, ts = o :: us → G.Opens o → H n .or us) → H (n + 1) .factor ts

variable {H : ℕ → Phrase α → List τ → Prop}

lemma Descends.length_lt (hR : Descends G Starts R) (hG : Predicts G Starts) {n : ℕ} {p : Phrase α}
    {ts rest : List τ} {a : α} (h : R n p ts a rest) (hp : p = .and ∨ p = .factor) :
    rest.length < ts.length := by
  obtain ⟨used, rfl, hused⟩ := hR.derives h
  obtain ⟨t, us, rfl, -⟩ := hused.exists_starts hG (Or.inr hp)
  simp only [List.cons_append, List.length_cons, List.length_append]
  omega

/-- No parsing function runs out of the fuel that its phrase needs. -/
theorem Halts.of_fuel (hH : Halts G Starts R H) (hR : Descends G Starts R) (hG : Predicts G Starts)
    {p : Phrase α} {ts : List τ} {n : ℕ} (hn : p.fuel ts.length < n) : H n p ts := by
  induction n generalizing p ts with
  | zero => exact absurd hn (Nat.not_lt_zero _)
  | succ n ih =>
      cases p with
      | or =>
          simp only [Phrase.fuel] at hn
          refine hH.or (ih (by simp only [Phrase.fuel]; omega)) fun left us h => ih ?_
          have hlt := hR.length_lt hG h (by simp)
          simp only [Phrase.fuel]
          omega
      | orRest left =>
          by_cases hor : ∀ t ∈ ts.head?, ¬G.IsOr t
          · exact hH.orStop hor
          · push Not at hor
            obtain ⟨t, ht, hor⟩ := hor
            obtain ⟨us, rfl⟩ := List.head?_eq_some_iff.mp ht
            simp only [Phrase.fuel, List.length_cons] at hn
            refine hH.orMore hor (ih (by simp only [Phrase.fuel]; omega)) fun right vs h => ih ?_
            have hlt := hR.length_lt hG h (by simp)
            simp only [Phrase.fuel]
            omega
      | and =>
          simp only [Phrase.fuel] at hn
          refine hH.and (ih (by simp only [Phrase.fuel]; omega)) fun left us h => ih ?_
          have hlt := hR.length_lt hG h (by simp)
          simp only [Phrase.fuel]
          omega
      | andRest left =>
          by_cases hstop : ∀ t ∈ ts.head?, ¬G.IsAnd t ∧ ¬Starts t
          · exact hH.andStop hstop
          · push Not at hstop
            obtain ⟨t, ht, hnext⟩ := hstop
            obtain ⟨us, rfl⟩ := List.head?_eq_some_iff.mp ht
            simp only [Phrase.fuel, List.length_cons] at hn
            by_cases hand : G.IsAnd t
            · refine hH.andMore hand (ih (by simp only [Phrase.fuel]; omega))
                fun right vs h => ih ?_
              have hlt := hR.length_lt hG h (by simp)
              simp only [Phrase.fuel]
              omega
            · refine hH.adjacent (hnext hand)
                (ih (by simp only [Phrase.fuel, List.length_cons]; omega)) fun right vs h => ih ?_
              have hlt := hR.length_lt hG h (by simp)
              simp only [Phrase.fuel, List.length_cons] at hlt ⊢
              omega
      | factor =>
          simp only [Phrase.fuel] at hn
          refine hH.factor (fun t us hts _ => ih ?_) (fun o us hts _ => ih ?_)
          · subst hts
            simp only [Phrase.fuel, List.length_cons] at hn ⊢
            omega
          · subst hts
            simp only [Phrase.fuel, List.length_cons] at hn ⊢
            omega

end OperatorGrammar
