import DeepFinder.Core.Query
import DeepFinder.Core.StrSlice

/-!
# Case-sensitive search of one word

A case-sensitive query is verified byte for byte, but its candidates come from the trigrams of its
lowercased text among those of the lowercased paths.  A capital sigma lowercases by its context,
so the lowercased query need not be a substring of the lowercased path that contains the query.

`case_sensitive_exact_iff` says exactly when the search is exact; `no_sigma_walked` that it is
for every query without a capital sigma.

The database is any that `finish` wrote of documents that fit the format (`Fits`), with a compressor
that decodes what it has encoded (`Zstd.Lawful`).  `PathsWalked` is about the trigram that candidate
generation picks, the rarest one of the lowercased query in this database: only its posting is gone
through, with regard to case or without.
-/

namespace DeepFinder

open ByteString

/-! ## Lowercasing without a capital sigma -/

lemma lowerLoop_eq_flatMap {w : List Char} (h : 'Σ' ∉ w) (before rest : List Char) :
    lowerLoop before (w ++ rest) = w.flatMap lowerChar ++ lowerLoop (w.reverse ++ before) rest := by
  induction w generalizing before with
  | nil => rfl
  | cons c w ih =>
      have hne : c ≠ 'Σ' := fun heq => h (heq ▸ List.mem_cons_self ..)
      rw [List.cons_append, lowerLoop, if_neg hne, ih fun hw => h (List.mem_cons_of_mem _ hw),
        List.flatMap_cons, List.append_assoc, List.reverse_cons, List.append_assoc]
      rfl

/-- A text without a capital sigma lowercases to a substring of every lowercased text that
contains it. -/
lemma lowerBytes_infix_of_contains {q path : String} (h : 'Σ' ∉ q.toList)
    (hin : utf8 q <:+: utf8 path) :
    lowerBytes q <:+: lowerBytes path := by
  obtain ⟨a, b, hab⟩ := toList_infix_of_utf8 hin
  refine infix_utf8 ?_
  rw [toLowercase, toLowercase, String.toList_ofList, String.toList_ofList, ← hab,
    List.append_assoc]
  have hq : lowerLoop [] q.toList = q.toList.flatMap lowerChar := by
    have hself := lowerLoop_eq_flatMap h [] []
    rwa [List.append_nil, lowerLoop, List.append_nil] at hself
  have hsuf := lowerLoop_suffix a (q.toList ++ b) []
  rw [lowerLoop_eq_flatMap h] at hsuf
  rw [hq]
  exact (List.prefix_append _ _).isInfix.trans hsuf.isInfix

/-! ## Queries of one word -/

/-- A query without whitespace, parentheses or operator words. -/
structure PlainQuery (q : String) : Prop where
  plain : ∀ c ∈ q.toList, isWhitespace c = false ∧ c ≠ '(' ∧ c ≠ ')'
  not_operator : q ≠ "AND" ∧ q ≠ "OR" ∧ q ≠ "NOT"

/-- The characters are checked one by one. -/
instance (q : String) : Decidable (PlainQuery q) :=
  decidable_of_iff ((q.toList.all fun c => !isWhitespace c && c != '(' && c != ')') = true ∧
      q ≠ "AND" ∧ q ≠ "OR" ∧ q ≠ "NOT") <| by
    have hchars : (q.toList.all fun c => !isWhitespace c && c != '(' && c != ')') = true ↔
        ∀ c ∈ q.toList, isWhitespace c = false ∧ c ≠ '(' ∧ c ≠ ')' := by
      simp [List.all_eq_true, and_assoc]
    rw [hchars]
    exact ⟨fun h => ⟨h.1, h.2⟩, fun h => ⟨h.plain, h.not_operator⟩⟩

lemma tokenizeLoop_plain {cs : List Char}
    (h : ∀ c ∈ cs, isWhitespace c = false ∧ c ≠ '(' ∧ c ≠ ')') (cur : List Char) :
    tokenizeLoop cs cur = flushWord (cur ++ cs) := by
  induction cs generalizing cur with
  | nil => rw [tokenizeLoop, List.append_nil]
  | cons c cs ih =>
      obtain ⟨hspace, hopen, hclose⟩ := h c (List.mem_cons_self ..)
      rw [tokenizeLoop, if_neg hopen, if_neg hclose, hspace, if_neg (by decide),
        ih fun d hd => h d (List.mem_cons_of_mem _ hd), List.append_assoc, List.singleton_append]

lemma PlainQuery.parse_eq {q : String} (h : PlainQuery q) (hne : q ≠ "") :
    parse q = some (.term q) := by
  have hcs : q.toList ≠ [] := fun hnil => hne (String.toList_inj.mp hnil)
  have htok : tokenize q = [.word q] := by
    rw [tokenize, tokenizeLoop_plain h.plain, List.nil_append, flushWord, if_neg hcs,
      String.ofList_toList]
    obtain ⟨hand, hor, hnot⟩ := h.not_operator
    split
    · exact absurd rfl hand
    · exact absurd rfl hor
    · exact absurd rfl hnot
    · rfl
  rw [parse, htok]
  rfl

/-- A path that contains the query has, lowercased, the query's rarest trigram among the
lowercased paths. -/
def PathsWalked (docs : List (String × LiteMeta)) (q : String) : Prop :=
  ∀ f ∈ docs, termMatches true q f.1 = true →
    walked (loweredPaths docs) (lowerBytes q) (lowerBytes f.1) = true

lemma no_sigma_walked {q : String} (h : 'Σ' ∉ q.toList) (docs : List (String × LiteMeta)) :
    PathsWalked docs q := by
  intro f _ hm
  refine walked_of_subset fun _ => trigrams_mono (lowerBytes_infix_of_contains h ?_)
  exact termMatches_true_iff.mp hm

/-! ## When the search is exact -/

section Indexes

variable {db : FilenameDb} {docs : List (String × LiteMeta)} {q : String}

/-- The search is exact when every path that contains the query is walked, and only then. -/
lemma FilenameDb.Indexes.queryDocids_exact_iff (h : db.Indexes docs) (hq : PlainQuery q)
    (hne : q ≠ "") :
    queryDocids db q true none = .ok (docsWhere docs (termMatches true q)) ↔
      PathsWalked docs q := by
  rw [queryDocids_term (hq.parse_eq hne), h.singleDocids_found]
  constructor
  · intro heq f hf hm
    obtain ⟨d, hd, hget⟩ := List.mem_iff_getElem.mp hf
    have hdoc : docs[d]? = some f := by rw [List.getElem?_eq_getElem hd, hget]
    have hmem := mem_docsWhere.mpr ⟨f, hdoc, hm⟩
    rw [← Except.ok.inj heq] at hmem
    obtain ⟨g, hg, hfound⟩ := mem_docsWhere.mp hmem
    rw [hdoc] at hg
    obtain rfl := Option.some.inj hg
    exact (Bool.and_eq_true_iff.mp hfound).2
  · intro hwalked
    refine congrArg Except.ok (docsWhere_congr fun f hf => ?_)
    cases hm : termMatches true q f.1 with
    | false => rw [found, hm, Bool.false_and]
    | true => rw [found, hm, Bool.true_and, hwalked f hf hm]

/-- The empty query finds nothing, and every path contains it. -/
lemma queryDocids_empty_exact_iff (db : FilenameDb) :
    queryDocids db "" true none = .ok (docsWhere docs (termMatches true "")) ↔ docs = [] := by
  have hall : docsWhere docs (termMatches true "") = List.range docs.length := by
    refine List.filter_eq_self.mpr fun d hd => ?_
    rw [List.getElem?_eq_getElem (List.mem_range.mp hd), Option.map_some, Option.getD_some]
    exact termMatches_empty true _
  rw [hall, queryDocids, if_pos rfl]
  constructor
  · intro heq
    exact List.length_eq_zero_iff.mp (List.range_eq_nil.mp (Except.ok.inj heq).symm)
  · rintro rfl
    rfl

end Indexes

/-- A case-sensitive search for one word returns exactly the paths that contain it when every such
path has, lowercased, the rarest trigram of the lowercased word, and only then; the empty word is
not searched.  A word without a capital sigma is always found. -/
theorem case_sensitive_exact_iff {z : Zstd} (hz : z.Lawful) {docs : List (String × LiteMeta)}
    {buildTime : ℕ} (hb : (DbBuilder.ofFiles docs buildTime).Fits z)
    (hlen : docs.length < 2 ^ 32) :
    ∃ bytes r, (DbBuilder.ofFiles docs buildTime).finish z = .ok bytes ∧
      DbReader.open bytes = .ok r ∧
      ∀ q, PlainQuery q →
        (queryDocids (r.view z) q true none = .ok (docsWhere docs (termMatches true q)) ↔
          (q = "" → docs = []) ∧ PathsWalked docs q) ∧
        ('Σ' ∉ q.toList → PathsWalked docs q) := by
  obtain ⟨bytes, r, hfinish, hopen, hindex⟩ := DbBuilder.finish_indexes hz hb hlen
  refine ⟨bytes, r, hfinish, hopen, fun q hq => ⟨?_, fun hs => no_sigma_walked hs docs⟩⟩
  by_cases hne : q = ""
  · subst hne
    rw [queryDocids_empty_exact_iff]
    constructor
    · exact fun hnil => ⟨fun _ => hnil, no_sigma_walked (by decide) docs⟩
    · exact fun h => h.1 rfl
  · rw [hindex.queryDocids_exact_iff hq hne]
    constructor
    · exact fun hwalked => ⟨fun heq => absurd heq hne, hwalked⟩
    · exact fun h => h.2

/-- A case-sensitive search over three paths. -/
theorem case_sensitive_exact_three :
    let docs : List (String × LiteMeta) :=
      [("/src/Main.rs", ⟨false, 10, 1⟩), ("/src/main.rs", ⟨false, 20, 2⟩),
        ("/ΣΑΣ", ⟨false, 30, 3⟩)]
    ∃ bytes r, (DbBuilder.ofFiles docs 0).finish .stored = .ok bytes ∧
      DbReader.open bytes = .ok r ∧
      queryDocids (r.view .stored) "Main" true none = .ok [0] := by
  obtain ⟨bytes, r, hfinish, hopen, hexact⟩ := @case_sensitive_exact_iff .stored
    Zstd.stored_lawful [("/src/Main.rs", ⟨false, 10, 1⟩), ("/src/main.rs", ⟨false, 20, 2⟩),
      ("/ΣΑΣ", ⟨false, 30, 3⟩)] 0
    (by decide +kernel) (by decide)
  refine ⟨bytes, r, hfinish, hopen, ?_⟩
  obtain ⟨hiff, hwalked⟩ := hexact "Main" (by decide +kernel)
  rw [hiff.mpr ⟨fun h => absurd h (by decide), hwalked (by decide)⟩]
  decide +kernel

/-- A capital sigma that ends the query but not the word in the path hides the path. -/
theorem final_sigma_not_found :
    ∃ bytes r, (DbBuilder.ofFiles [("xΣA", ⟨false, 3, 1⟩)] 0).finish .stored = .ok bytes ∧
      DbReader.open bytes = .ok r ∧ PlainQuery "xΣ" ∧
      docsWhere [("xΣA", ⟨false, 3, 1⟩)] (termMatches true "xΣ") = [0] ∧
      queryDocids (r.view .stored) "xΣ" true none = .ok [] := by
  obtain ⟨bytes, r, hfinish, hopen, hindex⟩ := @DbBuilder.stored_indexes
    [("xΣA", ⟨false, 3, 1⟩)] (by decide +kernel)
  have hplain : PlainQuery "xΣ" := by decide +kernel
  refine ⟨bytes, r, hfinish, hopen, hplain, by decide +kernel, ?_⟩
  rw [queryDocids_term (hplain.parse_eq (by decide)), hindex.singleDocids_found]
  decide +kernel

end DeepFinder
