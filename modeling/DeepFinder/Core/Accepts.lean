import DeepFinder.Core.Query

/-!
# The paths a filename query accepts

The search of a query looks at one path at a time: it evaluates the parsed tree of a compound
query and looks for the raw text of every other one.  `queryDocids_found` says so of every
database: a text counts where the index finds it (`indexAccepts`).  For paths that keep the
searched texts that is where they contain it (`coldAccepts`, `queryDocids_eq_accepts`).

With regard to case the index is asked for trigrams of the lowercased text and the path for the text
itself, and the two can come apart on a capital sigma; without regard to case both are about the
lowercased path.
-/

namespace DeepFinder

open ByteString

/-- The tree of a query that the boolean evaluator runs; every other query is searched by its raw
text. -/
def compound (q : String) : Option Node :=
  match parse q with
  | some (.term _) => none
  | p => p

/-- Whether the index's search accepts a path. -/
def coldAccepts (caseSensitive : Bool) (q path : String) : Bool :=
  if q = "" then false
  else
    match compound q with
    | some n => n.holds caseSensitive path
    | none => termMatches caseSensitive q path

/-- Whether the search of a query returns a path of the index. -/
def indexAccepts (docs : List (String × LiteMeta)) (caseSensitive : Bool) (q path : String) :
    Bool :=
  if q = "" then false
  else
    match compound q with
    | some n => n.eval fun t => found docs caseSensitive t path
    | none => found docs caseSensitive q path

def searchTexts (q : String) : List String :=
  match compound q with
  | some n => n.terms
  | none => [q]

/-- The paths keep what the query is searched by, or letter case does not count: a path that
contains a searched text has the trigrams of its lowercased form as well. -/
def ColdKeeps (caseSensitive : Bool) (q : String) (docs : List (String × LiteMeta)) : Prop :=
  ∀ t ∈ searchTexts q, ∀ f ∈ docs, KeepsTrigrams caseSensitive t f.1

lemma coldKeeps_false (q : String) (docs : List (String × LiteMeta)) : ColdKeeps false q docs :=
  fun t _ f _ => keepsTrigrams_false t f.1

lemma parse_of_compound {q : String} {n : Node} (h : compound q = some n) :
    parse q = some n ∧ ∀ w, n ≠ .term w := by
  unfold compound at h
  split at h
  · cases h
  · rename_i hterm
    refine ⟨h, ?_⟩
    rintro w rfl
    exact hterm w h

lemma exists_term_of_not_compound {q : String} {n : Node} (hq : parse q = some n)
    (h : compound q = none) : ∃ w, n = .term w := by
  rw [compound, hq] at h
  cases n with
  | term w => exact ⟨w, rfl⟩
  | _ => cases h

lemma queryDocids_of_not_compound {q : String} (hne : q ≠ "") (h : compound q = none)
    (db : FilenameDb) (caseSensitive : Bool) (limit : Option ℕ) :
    queryDocids db q caseSensitive limit = singleDocids db q caseSensitive limit := by
  cases hq : parse q with
  | none => rw [queryDocids, if_neg hne, hq]
  | some n =>
      obtain ⟨w, rfl⟩ := exists_term_of_not_compound hq h
      exact queryDocids_term hq db caseSensitive limit

/-- A search returns the first `limit` documents that the index accepts. -/
theorem FilenameDb.Indexes.queryDocids_found {db : FilenameDb} {docs : List (String × LiteMeta)}
    (h : db.Indexes docs) (q : String) (caseSensitive : Bool) (limit : Option ℕ) :
    queryDocids db q caseSensitive limit =
      .ok (takeOpt limit (docsWhere docs (indexAccepts docs caseSensitive q))) := by
  by_cases hne : q = ""
  · have hnone : docsWhere docs (indexAccepts docs caseSensitive q) = [] := by
      refine List.filter_eq_nil_iff.mpr fun d _ => ?_
      cases docs[d]? <;> simp [indexAccepts, hne]
    rw [queryDocids, if_pos hne, hnone]
    cases limit with
    | none => rfl
    | some n => rw [takeOpt, List.take_nil]
  · cases hcompound : compound q with
    | none =>
        have haccept : indexAccepts docs caseSensitive q = found docs caseSensitive q := by
          funext path
          rw [indexAccepts, if_neg hne, hcompound]
        rw [queryDocids_of_not_compound hne hcompound, haccept, h.singleDocids_found]
    | some n =>
        obtain ⟨hq, hn⟩ := parse_of_compound hcompound
        have haccept : indexAccepts docs caseSensitive q =
            fun path => n.eval fun t => found docs caseSensitive t path := by
          funext path
          rw [indexAccepts, if_neg hne, hcompound]
        rw [queryDocids_compound hq hn, haccept, h.booleanDocids_found caseSensitive]
        exact fun t ht hnil => (infix_of_parse hq ht).2 (by simp [hnil])

/-- On a path that keeps the searched texts the index looks for the texts themselves. -/
lemma indexAccepts_eq {docs : List (String × LiteMeta)} {caseSensitive : Bool} {q path : String}
    (h : ∀ t ∈ searchTexts q, KeepsTrigrams caseSensitive t path) :
    indexAccepts docs caseSensitive q path = coldAccepts caseSensitive q path := by
  rw [indexAccepts, coldAccepts]
  rw [searchTexts] at h
  cases hcompound : compound q with
  | none =>
      rw [hcompound] at h
      dsimp only
      rw [found_of_keeps (h q (List.mem_singleton.mpr rfl))]
  | some n =>
      rw [hcompound] at h
      dsimp only
      rw [Node.holds_eq_eval, Node.eval_congr fun t ht => found_of_keeps (h t ht) docs]

lemma FilenameDb.Indexes.queryDocids_eq_accepts {db : FilenameDb} {docs : List (String × LiteMeta)}
    (h : db.Indexes docs) {q : String} {caseSensitive : Bool}
    (hkeep : ColdKeeps caseSensitive q docs)
    (limit : Option ℕ) :
    queryDocids db q caseSensitive limit =
      .ok (takeOpt limit (docsWhere docs (coldAccepts caseSensitive q))) := by
  rw [h.queryDocids_found, docsWhere_congr fun f hf => indexAccepts_eq fun t ht => hkeep t ht f hf]

/-- A limit cuts one fixed list of documents. -/
theorem FilenameDb.Indexes.queryDocids_take {db : FilenameDb} {docs : List (String × LiteMeta)}
    (h : db.Indexes docs) (q : String) (caseSensitive : Bool) :
    ∃ ds : List ℕ, ds.Nodup ∧ (∀ d ∈ ds, d < docs.length) ∧
      (∀ limit, queryDocids db q caseSensitive limit = .ok (takeOpt limit ds)) ∧
      (ColdKeeps caseSensitive q docs → ds = docsWhere docs (coldAccepts caseSensitive q)) := by
  refine ⟨docsWhere docs (indexAccepts docs caseSensitive q),
    (docsWhere_pairwise _).imp fun hlt => hlt.ne, fun d hd => lt_of_mem_docsWhere hd,
    h.queryDocids_found q caseSensitive, fun hkeep => ?_⟩
  exact docsWhere_congr fun f hf => indexAccepts_eq fun t ht => hkeep t ht f hf

end DeepFinder
