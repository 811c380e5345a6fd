import DeepFinder.Core.BoolQuery
import DeepFinder.Core.Candidate
import DeepFinder.Core.DbRoundTrip
import Mathlib.Data.Finset.Sort

/-!
# Filename queries

`query_docids` sends a lone term down the single-substring path and every other query to the
boolean evaluator, which combines one set of documents per term.

The meaning of a query is `Node.holds`, and `answer` lists the documents it holds of.
`booleanDocids_eq` and `singleDocids_eq` say what each path computes; `query_eq_answer_iff` says
for which queries that is the answer.  The single-substring path searches the raw text of the
query, so a lone term in parentheses is searched with its parentheses.

Two conditions stand behind `QueryKeeps`.  Texts: a path that contains a term of the query has to
contain the text that is searched for it, which only a lone term in parentheses can fail.  Trigrams:
with regard to case it has to keep the trigrams of the lowercased text, which a capital sigma can
lose.  Without regard to case the condition is exact on every database.  With regard to case it is
exact for a lone term over all databases; for compound queries it is enough, since another term can
hide what one has lost.
-/

namespace DeepFinder

open ByteString

/-! ## The database seen by a search -/

/-- What a search sees of a filename database. -/
structure FilenameDb where
  numDocs : ℕ
  docPath : ℕ → Res String
  docMeta : ℕ → Res LiteMeta
  posting : ℕ → Res (Option (List ℕ))

def DbReader.view (z : Zstd) (r : DbReader) : FilenameDb where
  numDocs := r.numDocs
  docPath := r.docPath z
  docMeta := r.docMeta
  posting := r.posting

/-- `cs_verify`. -/
def FilenameDb.verify (db : FilenameDb) (docid : ℕ) (needle : Bytes) (caseSensitive : Bool) :
    Res Bool :=
  if needle = [] then .ok true
  else do
    let p ← db.docPath docid
    let hay := if caseSensitive then p else toLowercase p
    pure (containsSub (utf8 hay) needle)

def FilenameDb.source (db : FilenameDb) : CandidateSource where
  csPosting := db.posting
  csVerify := db.verify
  csNumDocs := db.numDocs

/-- `single_docids`. -/
def singleDocids (db : FilenameDb) (q : String) (caseSensitive : Bool) (limit : Option ℕ) :
    Res (List ℕ) :=
  candidates db.source (lowerBytes q) (utf8 q) caseSensitive limit

/-! ## The boolean evaluator -/

/-- The closure `matches` of `term_docids`. -/
def termMatches (caseSensitive : Bool) (term path : String) : Bool :=
  if caseSensitive then containsSub (utf8 path) (utf8 term)
  else containsSub (lowerBytes path) (lowerBytes term)

lemma termMatches_true_iff {term path : String} :
    termMatches true term path = true ↔ utf8 term <:+: utf8 path := by
  rw [termMatches, if_pos rfl, containsSub_iff]

lemma termMatches_false_iff {term path : String} :
    termMatches false term path = true ↔ lowerBytes term <:+: lowerBytes path := by
  rw [termMatches, if_neg Bool.false_ne_true, containsSub_iff]

lemma termMatches_empty (caseSensitive : Bool) (path : String) :
    termMatches caseSensitive "" path = true := by
  cases caseSensitive with
  | true => exact termMatches_true_iff.mpr List.nil_infix
  | false => exact termMatches_false_iff.mpr List.nil_infix

/-- The loop that inserts the documents whose path matches. -/
def termLoop (db : FilenameDb) (term : String) (caseSensitive : Bool) :
    List ℕ → Finset ℕ → Res (Finset ℕ)
  | [], set => pure set
  | d :: ds, set => do
      let p ← db.docPath d
      termLoop db term caseSensitive ds
        (if termMatches caseSensitive term p then insert d set else set)

/-- `term_docids`. -/
def termDocids (db : FilenameDb) (term : String) (caseSensitive : Bool) : Res (Finset ℕ) :=
  let lower := lowerBytes term
  if term = "" then pure ∅
  else if lower.length < 3 then termLoop db term caseSensitive (List.range db.numDocs) ∅
  else do
    match ← rarest db.posting (trigrams lower) none with
    | none => pure ∅
    | some cands => termLoop db term caseSensitive cands ∅

/-- `evaluate`. -/
def evaluate (db : FilenameDb) (caseSensitive : Bool) : Node → Res (Finset ℕ)
  | .term t => termDocids db t caseSensitive
  | .not inner => do
      let excl ← evaluate db caseSensitive inner
      pure ((Finset.range db.numDocs).filter (· ∉ excl))
  | .and a b => do
      let sa ← evaluate db caseSensitive a
      let sb ← evaluate db caseSensitive b
      pure (sa ∩ sb)
  | .or a b => do
      let sa ← evaluate db caseSensitive a
      let sb ← evaluate db caseSensitive b
      pure (sa ∪ sb)

/-- `boolean_docids`. -/
def booleanDocids (db : FilenameDb) (parsed : Node) (caseSensitive : Bool) (limit : Option ℕ) :
    Res (List ℕ) := do
  let docids ← evaluate db caseSensitive parsed
  pure (takeOpt limit (docids.sort (· ≤ ·)))

/-- `query_docids`. -/
def queryDocids (db : FilenameDb) (q : String) (caseSensitive : Bool) (limit : Option ℕ) :
    Res (List ℕ) :=
  if q = "" then .ok []
  else
    match parse q with
    | some (.term _) => singleDocids db q caseSensitive limit
    | some node => booleanDocids db node caseSensitive limit
    | none => singleDocids db q caseSensitive limit

/-! ## The meaning of a query -/

/-- A query holds of a path: a term when the path contains it, and the connectives as such. -/
def Node.holds (caseSensitive : Bool) (path : String) : Node → Bool
  | .term t => termMatches caseSensitive t path
  | .and a b => a.holds caseSensitive path && b.holds caseSensitive path
  | .or a b => a.holds caseSensitive path || b.holds caseSensitive path
  | .not a => !a.holds caseSensitive path

/-- A query holds when each of its terms does as `p` says. -/
def Node.eval (p : String → Bool) : Node → Bool
  | .term t => p t
  | .and a b => a.eval p && b.eval p
  | .or a b => a.eval p || b.eval p
  | .not a => !a.eval p

lemma Node.holds_eq_eval (caseSensitive : Bool) (path : String) (n : Node) :
    n.holds caseSensitive path = n.eval fun t => termMatches caseSensitive t path := by
  induction n with
  | term t => rfl
  | and a b iha ihb => rw [holds, eval, iha, ihb]
  | or a b iha ihb => rw [holds, eval, iha, ihb]
  | not a ih => rw [holds, eval, ih]

/-- Only the terms of a query matter. -/
lemma Node.eval_congr {p p' : String → Bool} {n : Node} (h : ∀ t ∈ n.terms, p t = p' t) :
    n.eval p = n.eval p' := by
  induction n with
  | term t => exact h t (List.mem_singleton.mpr rfl)
  | and a b iha ihb =>
      rw [eval, eval, iha fun t ht => h t (List.mem_append_left _ ht),
        ihb fun t ht => h t (List.mem_append_right _ ht)]
  | or a b iha ihb =>
      rw [eval, eval, iha fun t ht => h t (List.mem_append_left _ ht),
        ihb fun t ht => h t (List.mem_append_right _ ht)]
  | not a ih => rw [eval, eval, ih h]

/-- The documents whose path has a property, in ascending order. -/
def docsWhere (docs : List (String × LiteMeta)) (p : String → Bool) : List ℕ :=
  (List.range docs.length).filter fun d => ((docs[d]?).map fun f => p f.1).getD false

/-- The first `limit` documents a query holds of. -/
def answer (docs : List (String × LiteMeta)) (n : Node) (caseSensitive : Bool)
    (limit : Option ℕ) : List ℕ :=
  takeOpt limit (docsWhere docs (n.holds caseSensitive))

section DocsWhere

variable {docs : List (String × LiteMeta)}

lemma mem_docsWhere {p : String → Bool} {d : ℕ} :
    d ∈ docsWhere docs p ↔ ∃ f, docs[d]? = some f ∧ p f.1 = true := by
  rw [docsWhere, List.mem_filter, List.mem_range]
  constructor
  · rintro ⟨hd, hp⟩
    rw [List.getElem?_eq_getElem hd] at hp
    exact ⟨_, List.getElem?_eq_getElem hd, hp⟩
  · rintro ⟨f, hf, hp⟩
    exact ⟨(List.getElem?_eq_some_iff.mp hf).1, by simp [hf, hp]⟩

lemma lt_of_mem_docsWhere {p : String → Bool} {d : ℕ} (h : d ∈ docsWhere docs p) :
    d < docs.length :=
  List.mem_range.mp (List.mem_filter.mp h).1

lemma docsWhere_pairwise (p : String → Bool) : (docsWhere docs p).Pairwise (· < ·) :=
  List.Pairwise.filter _ List.pairwise_lt_range

lemma sort_docsWhere (p : String → Bool) :
    (docsWhere docs p).toFinset.sort (· ≤ ·) = docsWhere docs p :=
  (List.toFinset_sort (· ≤ ·) ((docsWhere_pairwise p).imp fun h => h.ne)).mpr
    ((docsWhere_pairwise p).imp fun h => h.le)

lemma compl_docsWhere (p : String → Bool) :
    (Finset.range docs.length).filter (· ∉ (docsWhere docs p).toFinset) =
      (docsWhere docs fun x => !p x).toFinset := by
  ext d
  rw [Finset.mem_filter, Finset.mem_range, List.mem_toFinset, List.mem_toFinset]
  constructor
  · rintro ⟨hd, hnot⟩
    refine mem_docsWhere.mpr ⟨_, List.getElem?_eq_getElem hd, ?_⟩
    rw [Bool.not_eq_true', Bool.eq_false_iff]
    exact fun hp => hnot (mem_docsWhere.mpr ⟨_, List.getElem?_eq_getElem hd, hp⟩)
  · intro hmem
    refine ⟨lt_of_mem_docsWhere hmem, fun hp => ?_⟩
    obtain ⟨f, hf, hnot⟩ := mem_docsWhere.mp hmem
    obtain ⟨g, hg, hp⟩ := mem_docsWhere.mp hp
    obtain rfl := Option.some.inj (hf.symm.trans hg)
    rw [hp] at hnot
    cases hnot

lemma inter_docsWhere (p q : String → Bool) :
    (docsWhere docs p).toFinset ∩ (docsWhere docs q).toFinset =
      (docsWhere docs fun x => p x && q x).toFinset := by
  ext d
  simp only [Finset.mem_inter, List.mem_toFinset, mem_docsWhere, Bool.and_eq_true]
  constructor
  · rintro ⟨⟨f, hf, hp⟩, g, hg, hq⟩
    obtain rfl := Option.some.inj (hf.symm.trans hg)
    exact ⟨f, hf, hp, hq⟩
  · rintro ⟨f, hf, hp, hq⟩
    exact ⟨⟨f, hf, hp⟩, f, hf, hq⟩

lemma union_docsWhere (p q : String → Bool) :
    (docsWhere docs p).toFinset ∪ (docsWhere docs q).toFinset =
      (docsWhere docs fun x => p x || q x).toFinset := by
  ext d
  simp only [Finset.mem_union, List.mem_toFinset, mem_docsWhere, Bool.or_eq_true]
  constructor
  · rintro (⟨f, hf, hp⟩ | ⟨f, hf, hq⟩)
    · exact ⟨f, hf, Or.inl hp⟩
    · exact ⟨f, hf, Or.inr hq⟩
  · rintro ⟨f, hf, hp | hq⟩
    · exact Or.inl ⟨f, hf, hp⟩
    · exact Or.inr ⟨f, hf, hq⟩

lemma docsWhere_congr {p q : String → Bool} (h : ∀ f ∈ docs, p f.1 = q f.1) :
    docsWhere docs p = docsWhere docs q := by
  refine List.filter_congr fun d hd => ?_
  have hget := List.getElem?_eq_getElem (List.mem_range.mp hd)
  rw [hget]
  exact h _ (List.getElem_mem _)

end DocsWhere

/-! ## What each path computes -/

/-- The database holds exactly `docs`, and its postings index their lowercased paths.
`DbBuilder.stored_indexes` and `filename_db_reads_back` provide it; the searches above know nothing
else of a database. -/
structure FilenameDb.Indexes (db : FilenameDb) (docs : List (String × LiteMeta)) : Prop where
  numDocs_eq : db.numDocs = docs.length
  path_eq : ∀ d f, docs[d]? = some f → db.docPath d = .ok f.1
  meta_eq : ∀ d f, docs[d]? = some f → db.docMeta d = .ok f.2
  posting_eq : PostingsOf db.posting (loweredPaths docs)

/-- A path keeps a text: when it contains the text it has, lowercased, the text's trigrams. -/
def KeepsTrigrams (caseSensitive : Bool) (text path : String) : Prop :=
  termMatches caseSensitive text path = true → 3 ≤ (lowerBytes text).length →
    trigrams (lowerBytes text) ⊆ trigrams (lowerBytes path)

lemma keepsTrigrams_false (text path : String) : KeepsTrigrams false text path :=
  fun h _ => trigrams_mono (termMatches_false_iff.mp h)

/-- Whether the index finds a path by a text: the path contains it, and candidate generation looks
at the path. -/
def found (docs : List (String × LiteMeta)) (caseSensitive : Bool) (text path : String) : Bool :=
  termMatches caseSensitive text path &&
    walked (loweredPaths docs) (lowerBytes text) (lowerBytes path)

lemma found_of_keeps {caseSensitive : Bool} {text path : String}
    (h : KeepsTrigrams caseSensitive text path) (docs : List (String × LiteMeta)) :
    found docs caseSensitive text path = termMatches caseSensitive text path := by
  cases hm : termMatches caseSensitive text path with
  | false => rw [found, hm, Bool.false_and]
  | true => rw [found, hm, Bool.true_and, walked_of_subset (h hm)]

section Indexes

variable {db : FilenameDb} {docs : List (String × LiteMeta)}

lemma length_loweredPaths : (loweredPaths docs).length = docs.length := List.length_map _

lemma FilenameDb.Indexes.verify_eq (h : db.Indexes docs) {d : ℕ} {f : String × LiteMeta}
    (hd : docs[d]? = some f) (text : String) (caseSensitive : Bool) :
    db.verify d (if caseSensitive then utf8 text else lowerBytes text) caseSensitive =
      .ok (termMatches caseSensitive text f.1) := by
  unfold FilenameDb.verify termMatches
  rw [h.path_eq d f hd, bind_ok]
  cases caseSensitive with
  | true =>
      by_cases hnil : utf8 text = []
      · simp [hnil]
      · simp [hnil]
        rfl
  | false =>
      by_cases hnil : lowerBytes text = []
      · simp [hnil]
      · simp [hnil]
        rfl

lemma candidateDocs_found (caseSensitive : Bool) (text : String) :
    candidateDocs (loweredPaths docs) (lowerBytes text)
        (fun d => ((docs[d]?).map fun f => termMatches caseSensitive text f.1).getD false) =
      docsWhere docs (found docs caseSensitive text) := by
  rw [candidateDocs, docsWhere, length_loweredPaths]
  refine List.filter_congr fun d hd => ?_
  have hget := List.getElem?_eq_getElem (List.mem_range.mp hd)
  rw [loweredPaths, List.getElem?_map, hget]
  rfl

/-- The single-substring path returns the paths found by the raw text. -/
lemma FilenameDb.Indexes.singleDocids_found (h : db.Indexes docs) (q : String)
    (caseSensitive : Bool) (limit : Option ℕ) :
    singleDocids db q caseSensitive limit =
      .ok (takeOpt limit (docsWhere docs (found docs caseSensitive q))) := by
  rw [← candidateDocs_found]
  refine candidates_eq_docs (h.numDocs_eq.trans length_loweredPaths.symm) h.posting_eq ?_ limit
  intro d hd
  rw [length_loweredPaths] at hd
  have hget := List.getElem?_eq_getElem hd
  rw [hget]
  exact h.verify_eq hget q caseSensitive

lemma FilenameDb.Indexes.singleDocids_eq (h : db.Indexes docs) {q : String} {caseSensitive : Bool}
    (hkeep : ∀ f ∈ docs, KeepsTrigrams caseSensitive q f.1) (limit : Option ℕ) :
    singleDocids db q caseSensitive limit =
      .ok (takeOpt limit (docsWhere docs (termMatches caseSensitive q))) := by
  rw [h.singleDocids_found, docsWhere_congr fun f hf => found_of_keeps (hkeep f hf) docs]

/-- The loop inserts the documents it walks whose path matches. -/
lemma FilenameDb.Indexes.termLoop_eq (h : db.Indexes docs) (term : String) (caseSensitive : Bool)
    {ds : List ℕ} (hds : ∀ d ∈ ds, d < docs.length) (set : Finset ℕ) :
    termLoop db term caseSensitive ds set =
      .ok (set ∪ (ds.filter fun d =>
        ((docs[d]?).map fun f => termMatches caseSensitive term f.1).getD false).toFinset) := by
  induction ds generalizing set with
  | nil => simp [termLoop]; rfl
  | cons d ds ih =>
      obtain ⟨f, hget⟩ : ∃ f, docs[d]? = some f :=
        ⟨_, List.getElem?_eq_getElem (hds d (List.mem_cons_self ..))⟩
      rw [termLoop, h.path_eq d f hget, bind_ok, ih fun x hx => hds x (List.mem_cons_of_mem _ hx)]
      cases hm : termMatches caseSensitive term f.1 with
      | false => simp [hget, hm]
      | true => simp [hget, hm]

/-- The set of a term is the set of the paths found by it. -/
lemma FilenameDb.Indexes.termDocids_found (h : db.Indexes docs) {term : String} (hne : term ≠ "")
    (caseSensitive : Bool) : termDocids db term caseSensitive =
      .ok (docsWhere docs (found docs caseSensitive term)).toFinset := by
  unfold termDocids
  dsimp only
  rw [if_neg hne]
  by_cases hlen : (lowerBytes term).length < 3
  · have hfound : found docs caseSensitive term = termMatches caseSensitive term := by
      funext path
      rw [found, walked, if_pos hlen, Bool.and_true]
    rw [if_pos hlen, h.termLoop_eq term caseSensitive (fun d hd => ?_), Finset.empty_union,
      h.numDocs_eq, hfound]
    · rfl
    · rw [← h.numDocs_eq]
      exact List.mem_range.mp hd
  · rw [if_neg hlen]
    have hlong := Nat.le_of_not_lt hlen
    rcases rarest_trigrams h.posting_eq.sets hlong with
      ⟨hnone, t, -, hmin, hnil⟩ | ⟨t, l, hl, hmin, -, hperm⟩
    · rw [hnone, bind_ok, ← candidateDocs_found, ← filter_docsWith_rarest hlong hmin, hnil]
      rfl
    · have hlt : ∀ d ∈ l, d < docs.length := by
        intro d hd
        rw [← length_loweredPaths]
        exact lt_of_mem_docsWith (hperm.subset hd)
      rw [hl, bind_ok]
      dsimp only
      rw [h.termLoop_eq term caseSensitive hlt, Finset.empty_union, ← candidateDocs_found,
        ← filter_docsWith_rarest hlong hmin]
      exact congrArg Except.ok (List.toFinset_eq_of_perm _ _ (hperm.filter _))

/-- The evaluator computes the set of the documents for which the query holds of what the terms
find. -/
lemma FilenameDb.Indexes.evaluate_found (h : db.Indexes docs) (caseSensitive : Bool) {n : Node}
    (hterms : ∀ t ∈ n.terms, t ≠ "") : evaluate db caseSensitive n =
      .ok (docsWhere docs fun path =>
        n.eval fun t => found docs caseSensitive t path).toFinset := by
  induction n with
  | term t => exact h.termDocids_found (hterms t (List.mem_singleton.mpr rfl)) caseSensitive
  | not a ih =>
      rw [evaluate, ih hterms, bind_ok, h.numDocs_eq]
      exact congrArg Except.ok (compl_docsWhere _)
  | and a b iha ihb =>
      rw [evaluate, iha fun t ht => hterms t (List.mem_append_left _ ht), bind_ok,
        ihb fun t ht => hterms t (List.mem_append_right _ ht), bind_ok]
      exact congrArg Except.ok (inter_docsWhere _ _)
  | or a b iha ihb =>
      rw [evaluate, iha fun t ht => hterms t (List.mem_append_left _ ht), bind_ok,
        ihb fun t ht => hterms t (List.mem_append_right _ ht), bind_ok]
      exact congrArg Except.ok (union_docsWhere _ _)

lemma FilenameDb.Indexes.booleanDocids_found (h : db.Indexes docs) (caseSensitive : Bool) {n : Node}
    (hterms : ∀ t ∈ n.terms, t ≠ "") (limit : Option ℕ) :
    booleanDocids db n caseSensitive limit = .ok (takeOpt limit
      (docsWhere docs fun path => n.eval fun t => found docs caseSensitive t path)) := by
  rw [booleanDocids, h.evaluate_found caseSensitive hterms, bind_ok, sort_docsWhere]
  rfl

lemma FilenameDb.Indexes.booleanDocids_eq (h : db.Indexes docs) {caseSensitive : Bool} {n : Node}
    (hterms : ∀ t ∈ n.terms, t ≠ "" ∧ ∀ f ∈ docs, KeepsTrigrams caseSensitive t f.1)
    (limit : Option ℕ) :
    booleanDocids db n caseSensitive limit = .ok (answer docs n caseSensitive limit) := by
  rw [h.booleanDocids_found caseSensitive fun t ht => (hterms t ht).1, answer]
  congr 2
  refine docsWhere_congr fun f hf => ?_
  rw [Node.holds_eq_eval]
  exact Node.eval_congr fun t ht => found_of_keeps ((hterms t ht).2 f hf) docs

end Indexes

/-! ## Databases that index a list of documents -/

/-- The database that answers straight from a list of documents. -/
def FilenameDb.ofDocs (docs : List (String × LiteMeta)) : FilenameDb where
  numDocs := docs.length
  docPath d := ((docs[d]?).map fun f => .ok f.1).getD (.error (.err (.query "out of range")))
  docMeta d := ((docs[d]?).map fun f => .ok f.2).getD (.error (.err (.query "out of range")))
  posting t := .ok (if docsWith (loweredPaths docs) t = [] then none
    else some (docsWith (loweredPaths docs) t))

lemma FilenameDb.ofDocs_indexes (docs : List (String × LiteMeta)) :
    (FilenameDb.ofDocs docs).Indexes docs where
  numDocs_eq := rfl
  path_eq d f hd := by simp [FilenameDb.ofDocs, hd]
  meta_eq d f hd := by simp [FilenameDb.ofDocs, hd]
  posting_eq _ := rfl

/-- A finished file, reopened, indexes the documents that were inserted. -/
theorem DbBuilder.finish_indexes {z : Zstd} (hz : z.Lawful) {docs : List (String × LiteMeta)}
    {buildTime : ℕ} (hb : (DbBuilder.ofFiles docs buildTime).Fits z)
    (hlen : docs.length < 2 ^ 32) :
    ∃ bytes r, (DbBuilder.ofFiles docs buildTime).finish z = .ok bytes ∧
      DbReader.open bytes = .ok r ∧ (r.view z).Indexes docs := by
  obtain ⟨bytes, r, hfinish, -, hopen, hnum, -, hdocs, -, -, hposting⟩ :=
    DbBuilder.finish_round_trip hz hb hlen
  exact ⟨bytes, r, hfinish, hopen, hnum, fun d f hd => (hdocs d f hd).1,
    fun d f hd => (hdocs d f hd).2, hposting⟩

lemma DbBuilder.stored_indexes {docs : List (String × LiteMeta)}
    (h : (DbBuilder.ofFiles docs 0).Fits .stored ∧ docs.length < 2 ^ 32) :
    ∃ bytes r, (DbBuilder.ofFiles docs 0).finish .stored = .ok bytes ∧
      DbReader.open bytes = .ok r ∧ (r.view .stored).Indexes docs :=
  DbBuilder.finish_indexes Zstd.stored_lawful h.1 h.2

lemma DbBuilder.empty_indexes :
    ∃ bytes r, (DbBuilder.ofFiles [] 0).finish .stored = .ok bytes ∧
      DbReader.open bytes = .ok r ∧ (r.view .stored).Indexes [] :=
  DbBuilder.stored_indexes (by decide +kernel)

/-! ## When the result is the answer -/

/-- The text searched for a term: a lone term is searched by the raw text of the query. -/
def searched (q : String) : Node → String → String
  | .term _, _ => q
  | _, t => t

/-- Every path that contains a term of the query contains the text searched for it, and keeps
that text. -/
def QueryKeeps (caseSensitive : Bool) (q : String) (n : Node)
    (docs : List (String × LiteMeta)) : Prop :=
  ∀ t ∈ n.terms, ∀ f ∈ docs, termMatches caseSensitive t f.1 = true →
    termMatches caseSensitive (searched q n t) f.1 = true ∧
      KeepsTrigrams caseSensitive (searched q n t) f.1

lemma termMatches_of_parse {q : String} {n : Node} (hq : parse q = some n) {t : String}
    (ht : t ∈ n.terms) {caseSensitive : Bool} {path : String}
    (h : termMatches caseSensitive q path = true) : termMatches caseSensitive t path = true := by
  cases caseSensitive with
  | true =>
      have hterm := infix_utf8 (infix_of_parse hq ht).1
      exact termMatches_true_iff.mpr (hterm.trans (termMatches_true_iff.mp h))
  | false =>
      have hterm := lowerBytes_infix_of_parse hq ht
      exact termMatches_false_iff.mpr (hterm.trans (termMatches_false_iff.mp h))

lemma ne_empty_of_parse {q : String} {n : Node} (hq : parse q = some n) : q ≠ "" := by
  rintro rfl
  have hnone : parse "" = none := by decide
  rw [hnone] at hq
  cases hq

lemma queryDocids_term {q w : String} (hq : parse q = some (.term w)) (db : FilenameDb)
    (caseSensitive : Bool) (limit : Option ℕ) :
    queryDocids db q caseSensitive limit = singleDocids db q caseSensitive limit := by
  rw [queryDocids, if_neg (ne_empty_of_parse hq), hq]

lemma queryDocids_compound {q : String} {n : Node} (hq : parse q = some n)
    (hn : ∀ w, n ≠ .term w) (db : FilenameDb) (caseSensitive : Bool) (limit : Option ℕ) :
    queryDocids db q caseSensitive limit = booleanDocids db n caseSensitive limit := by
  rw [queryDocids, if_neg (ne_empty_of_parse hq), hq]
  cases n with
  | term w => exact absurd rfl (hn w)
  | _ => rfl

section Answer

variable {db : FilenameDb} {docs : List (String × LiteMeta)} {q : String} {n : Node}
  {caseSensitive : Bool}

/-- When the paths keep the query, its result is its answer. -/
lemma FilenameDb.Indexes.queryDocids_eq (h : db.Indexes docs) (hq : parse q = some n)
    (hkeep : QueryKeeps caseSensitive q n docs) (limit : Option ℕ) :
    queryDocids db q caseSensitive limit = .ok (answer docs n caseSensitive limit) := by
  by_cases hn : ∃ w, n = .term w
  · obtain ⟨w, rfl⟩ := hn
    have hw : w ∈ (Node.term w).terms := List.mem_singleton.mpr rfl
    rw [queryDocids_term hq, h.singleDocids_eq, answer,
      docsWhere_congr (p := termMatches caseSensitive q)]
    · intro f hf
      rw [Bool.eq_iff_iff]
      exact ⟨termMatches_of_parse hq hw, fun hm => (hkeep w hw f hf hm).1⟩
    · exact fun f hf hm => (hkeep w hw f hf (termMatches_of_parse hq hw hm)).2 hm
  · have hn : ∀ w, n ≠ .term w := fun w hw => hn ⟨w, hw⟩
    rw [queryDocids_compound hq hn, h.booleanDocids_eq]
    intro t ht
    refine ⟨fun hnil => (infix_of_parse hq ht).2 (by simp [hnil]), fun f hf hm => ?_⟩
    have hkept := (hkeep t ht f hf hm).2
    cases n with
    | term w => exact absurd rfl (hn w)
    | _ => exact hkept hm

/-- Without regard to case the result is the answer exactly when the paths keep the query. -/
lemma FilenameDb.Indexes.queryKeeps_of_eq (h : db.Indexes docs) (hq : parse q = some n)
    (heq : queryDocids db q false none = .ok (answer docs n false none)) :
    QueryKeeps false q n docs := by
  intro t ht f hf hm
  refine ⟨?_, keepsTrigrams_false _ _⟩
  cases n with
  | term w =>
      obtain rfl := List.mem_singleton.mp ht
      rw [queryDocids_term hq, h.singleDocids_eq fun f _ => keepsTrigrams_false q f.1] at heq
      have hlists : docsWhere docs (termMatches false q) = docsWhere docs (termMatches false t) :=
        Except.ok.inj heq
      obtain ⟨d, hd, hget⟩ := List.mem_iff_getElem.mp hf
      have hmem : d ∈ docsWhere docs (termMatches false t) :=
        mem_docsWhere.mpr ⟨f, by rw [List.getElem?_eq_getElem hd, hget], hm⟩
      rw [← hlists] at hmem
      obtain ⟨g, hg, hmg⟩ := mem_docsWhere.mp hmem
      rw [List.getElem?_eq_getElem hd, hget] at hg
      obtain rfl := Option.some.inj hg
      exact hmg
  | _ => exact hm

/-- On a database of one document, the result of a lone term is its answer only when the path
keeps the query. -/
lemma FilenameDb.Indexes.queryKeeps_of_eq_single {f : String × LiteMeta} (h : db.Indexes [f])
    {w : String} (hq : parse q = some (.term w))
    (heq : queryDocids db q caseSensitive none = .ok (answer [f] (.term w) caseSensitive none)) :
    QueryKeeps caseSensitive q (.term w) [f] := by
  intro t ht g hg hm
  obtain rfl := List.mem_singleton.mp ht
  obtain rfl := List.mem_singleton.mp hg
  have hans : answer [g] (.term t) caseSensitive none = [0] := by
    simp [answer, takeOpt, docsWhere, Node.holds, hm]
  rw [queryDocids_term hq, hans] at heq
  have hkept : KeepsTrigrams caseSensitive q g.1 := by
    intro _ hlen t' ht'
    by_contra habs
    have hnil : docsWith (loweredPaths [g]) t' = [] := by
      simpa [docsWith, loweredPaths] using habs
    have hpost : PostingSetsOf db.source.csPosting (loweredPaths [g]) := h.posting_eq.sets
    rw [singleDocids, candidates_of_absent hpost hlen ⟨t', ht', hnil⟩] at heq
    cases heq
  refine ⟨?_, hkept⟩
  rw [h.singleDocids_eq fun f hf => by rw [List.mem_singleton.mp hf]; exact hkept] at heq
  have hmem : 0 ∈ docsWhere [g] (termMatches caseSensitive q) := by
    have hlist : docsWhere [g] (termMatches caseSensitive q) = [0] := Except.ok.inj heq
    rw [hlist]
    exact List.mem_singleton.mpr rfl
  obtain ⟨f, hf, hmf⟩ := mem_docsWhere.mp hmem
  obtain rfl := Option.some.inj hf
  exact hmf

end Answer

/-- For which queries the result is the answer.  Without regard to case, on every database: when
the paths that contain the terms contain the searched texts.  With regard to case: also when they
have the trigrams of the searched texts, exactly so for a lone term. -/
theorem query_eq_answer_iff {q : String} {n : Node} (hq : parse q = some n) :
    (∀ (db : FilenameDb) docs, db.Indexes docs →
      ((∀ limit, queryDocids db q false limit = .ok (answer docs n false limit)) ↔
        QueryKeeps false q n docs)) ∧
    (∀ (db : FilenameDb) docs, db.Indexes docs → QueryKeeps true q n docs →
      ∀ limit, queryDocids db q true limit = .ok (answer docs n true limit)) ∧
    ((∃ w, n = .term w) →
      ((∀ (db : FilenameDb) docs, db.Indexes docs →
        ∀ limit, queryDocids db q true limit = .ok (answer docs n true limit)) ↔
        ∀ docs, QueryKeeps true q n docs)) := by
  refine ⟨fun db docs h => ⟨fun heq => h.queryKeeps_of_eq hq (heq none), fun hkeep =>
    h.queryDocids_eq hq hkeep⟩, fun db docs h hkeep => h.queryDocids_eq hq hkeep, ?_⟩
  rintro ⟨w, rfl⟩
  refine ⟨fun heq docs t ht f hf => ?_, fun hkeep db docs h => h.queryDocids_eq hq (hkeep docs)⟩
  have hone := FilenameDb.ofDocs_indexes [f]
  exact hone.queryKeeps_of_eq_single hq (heq _ _ hone none) t ht f (List.mem_singleton.mpr rfl)

/-- A compound query over a database of two files. -/
theorem query_eq_answer_two :
    let docs : List (String × LiteMeta) :=
      [("/src/Main.rs", ⟨false, 10, 1⟩), ("/src/readme", ⟨false, 20, 2⟩)]
    ∃ bytes r, (DbBuilder.ofFiles docs 0).finish .stored = .ok bytes ∧
      DbReader.open bytes = .ok r ∧
      queryDocids (r.view .stored) "src NOT main" false none = .ok [1] := by
  obtain ⟨bytes, r, hfinish, hopen, hindex⟩ := @DbBuilder.stored_indexes
    [("/src/Main.rs", ⟨false, 10, 1⟩), ("/src/readme", ⟨false, 20, 2⟩)] (by decide +kernel)
  refine ⟨bytes, r, hfinish, hopen, ?_⟩
  have hq : parse "src NOT main" = some (.and (.term "src") (.not (.term "main"))) := by
    decide +kernel
  rw [((query_eq_answer_iff hq).1 _ _ hindex).mpr fun t _ f _ hm => ⟨hm, keepsTrigrams_false _ _⟩]
  decide +kernel

/-- A lone term in parentheses is not found, although it parses to the term. -/
theorem parenthesized_term_not_found :
    ∃ bytes r, (DbBuilder.ofFiles [("foo", ⟨false, 3, 1⟩)] 0).finish .stored = .ok bytes ∧
      DbReader.open bytes = .ok r ∧ parse "(foo)" = some (.term "foo") ∧
      parse "foo" = some (.term "foo") ∧
      answer [("foo", ⟨false, 3, 1⟩)] (.term "foo") false none = [0] ∧
      queryDocids (r.view .stored) "foo" false none = .ok [0] ∧
      queryDocids (r.view .stored) "(foo)" false none = .ok [] := by
  obtain ⟨bytes, r, hfinish, hopen, hindex⟩ := @DbBuilder.stored_indexes
    [("foo", ⟨false, 3, 1⟩)] (by decide +kernel)
  have hparens : parse "(foo)" = some (.term "foo") := by decide +kernel
  have hplain : parse "foo" = some (.term "foo") := by decide +kernel
  refine ⟨bytes, r, hfinish, hopen, hparens, hplain, by decide +kernel, ?_, ?_⟩
  · rw [queryDocids_term hplain, hindex.singleDocids_eq fun _ _ => keepsTrigrams_false _ _]
    decide +kernel
  · rw [queryDocids_term hparens, hindex.singleDocids_eq fun _ _ => keepsTrigrams_false _ _]
    decide +kernel

end DeepFinder
