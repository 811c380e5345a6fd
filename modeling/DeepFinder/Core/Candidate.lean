import DeepFinder.Core.HashTable
import Mathlib.Data.List.MinMax

/-!
# Rarest-trigram candidates

`candidates` looks up every trigram of the folded query, walks the shortest posting list and
verifies each document on it; queries without a trigram scan all documents.

`candidates_eq` is the one fact the searches rest on: when the verified property implies that the
document's indexed text has all trigrams of the folded query, the result is the first `limit`
documents with the property.
-/

namespace DeepFinder

open ByteString

/-- `CandidateSource`. -/
structure CandidateSource where
  /-- the posting list of a trigram, `none` when it is absent -/
  csPosting : ℕ → Res (Option (List ℕ))
  /-- whether a document contains the needle, exactly or case-folded -/
  csVerify : ℕ → Bytes → Bool → Res Bool
  csNumDocs : ℕ

/-- `limit.map(|l| l as usize).unwrap_or(usize::MAX)` followed by `take`: no vector is longer
than `usize::MAX`. -/
def takeOpt {α : Type} (limit : Option ℕ) (l : List α) : List α :=
  match limit with
  | none => l
  | some n => l.take n

/-- `out.len() >= cap`. -/
def capReached (limit : Option ℕ) (len : ℕ) : Bool :=
  match limit with
  | none => false
  | some n => decide (n ≤ len)

/-- The loop over the query's trigrams that keeps the shortest posting list seen; a trigram that
is absent ends it with no list. -/
def rarest (posting : ℕ → Res (Option (List ℕ))) :
    List ℕ → Option (List ℕ) → Res (Option (List ℕ))
  | [], best => pure best
  | t :: ts, best => do
      match ← posting t with
      | none => pure none
      | some post =>
          rarest posting ts (some (match best with
            | none => post
            | some b => if post.length < b.length then post else b))

/-- The loop that verifies documents until the cap is reached. -/
def verifyLoop (verify : ℕ → Res Bool) (limit : Option ℕ) : List ℕ → List ℕ → Res (List ℕ)
  | [], out => pure out
  | d :: ds, out =>
      if capReached limit out.length then pure out
      else do
        let hit ← verify d
        verifyLoop verify limit ds (if hit then out ++ [d] else out)

/-- `candidates`. -/
def candidates (src : CandidateSource) (folded original : Bytes) (caseSensitive : Bool)
    (limit : Option ℕ) : Res (List ℕ) :=
  let needle := if caseSensitive then original else folded
  let verify := fun d => src.csVerify d needle caseSensitive
  if folded.length < 3 then verifyLoop verify limit (List.range src.csNumDocs) []
  else do
    match ← rarest src.csPosting (trigrams folded) none with
    | none => pure []
    | some cands => verifyLoop verify limit cands []

/-! ## The verify loop -/

lemma takeOpt_of_capReached {α : Type} {limit : Option ℕ} {out rest : List α}
    (h : capReached limit out.length = true) :
    takeOpt limit (out ++ rest) = takeOpt limit out := by
  cases limit with
  | none => cases h
  | some n =>
      have hn : n ≤ out.length := of_decide_eq_true h
      rw [takeOpt, takeOpt, List.take_append_of_le_length hn]

lemma takeOpt_of_le {α : Type} {limit : Option ℕ} {l : List α}
    (h : ∀ n, limit = some n → l.length ≤ n) : takeOpt limit l = l := by
  cases limit with
  | none => rfl
  | some n => exact List.take_of_length_le (h n rfl)

lemma takeOpt_filterMap_of_isSome {α β : Type} {g : α → Option β} {l : List α}
    (h : ∀ a ∈ l, (g a).isSome = true) (limit : Option ℕ) :
    (takeOpt limit l).filterMap g = takeOpt limit (l.filterMap g) := by
  cases limit with
  | none => rfl
  | some n =>
      rw [takeOpt, takeOpt]
      induction l generalizing n with
      | nil => simp
      | cons a l ih =>
          obtain ⟨b, hb⟩ := Option.isSome_iff_exists.mp (h a (List.mem_cons_self ..))
          cases n with
          | zero => simp
          | succ n =>
              rw [List.take_succ_cons, List.filterMap_cons_some hb, List.filterMap_cons_some hb,
                List.take_succ_cons, ih fun x hx => h x (List.mem_cons_of_mem _ hx)]

/-- The loop returns the verified documents in order, up to the cap. -/
lemma verifyLoop_eq {verify : ℕ → Res Bool} {limit : Option ℕ} {v : ℕ → Bool} {ds : List ℕ}
    (hv : ∀ d ∈ ds, verify d = .ok (v d)) {out : List ℕ}
    (hout : ∀ n, limit = some n → out.length ≤ n) :
    verifyLoop verify limit ds out = .ok (takeOpt limit (out ++ ds.filter v)) := by
  induction ds generalizing out with
  | nil =>
      rw [List.filter_nil, List.append_nil, takeOpt_of_le hout]
      rfl
  | cons d ds ih =>
      rw [verifyLoop]
      by_cases hcap : capReached limit out.length = true
      · rw [if_pos hcap, takeOpt_of_capReached hcap, takeOpt_of_le hout]
        rfl
      · have hroom : ∀ n, limit = some n → out.length + 1 ≤ n := by
          rintro n rfl
          have : ¬ n ≤ out.length := fun h => hcap (decide_eq_true h)
          omega
        rw [if_neg hcap, hv d (List.mem_cons_self ..), bind_ok,
          ih (fun x hx => hv x (List.mem_cons_of_mem _ hx))]
        · cases hd : v d <;> simp [hd]
        · intro n hn
          have := hroom n hn
          split <;> simp <;> omega

/-! ## The posting lists -/

/-- The source's postings are an index of `texts`. -/
def PostingsOf (posting : ℕ → Res (Option (List ℕ))) (texts : List Bytes) : Prop :=
  ∀ t, posting t = .ok (if docsWith texts t = [] then none else some (docsWith texts t))

/-- The source's postings hold the documents of every trigram, each list in some order. -/
def PostingSetsOf (posting : ℕ → Res (Option (List ℕ))) (texts : List Bytes) : Prop :=
  ∀ t, (docsWith texts t = [] ∧ posting t = .ok none) ∨
    (docsWith texts t ≠ [] ∧ ∃ l, posting t = .ok (some l) ∧ l.Perm (docsWith texts t))

lemma PostingsOf.sets {posting : ℕ → Res (Option (List ℕ))} {texts : List Bytes}
    (h : PostingsOf posting texts) : PostingSetsOf posting texts := by
  intro t
  rw [h t]
  by_cases hnil : docsWith texts t = []
  · exact Or.inl ⟨hnil, by rw [if_pos hnil]⟩
  · exact Or.inr ⟨hnil, docsWith texts t, by rw [if_neg hnil], List.Perm.refl _⟩

/-- A trigram that is in no text ends the loop with no list. -/
lemma rarest_of_absent {posting : ℕ → Res (Option (List ℕ))} {texts : List Bytes}
    (hp : PostingSetsOf posting texts) {ts : List ℕ} (habs : ∃ t ∈ ts, docsWith texts t = [])
    (best : Option (List ℕ)) : rarest posting ts best = .ok none := by
  induction ts generalizing best with
  | nil =>
      obtain ⟨t, ht, -⟩ := habs
      cases ht
  | cons t ts ih =>
      rcases hp t with ⟨-, hnone⟩ | ⟨hne, l, hl, -⟩
      · rw [rarest, hnone]
        rfl
      · obtain ⟨x, hx, hnil⟩ := habs
        rw [rarest, hl, bind_ok]
        rcases List.mem_cons.mp hx with rfl | hx
        · exact absurd hnil hne
        · exact ih ⟨x, hx, hnil⟩ _

/-- The trigram of the query with the fewest documents, the first of these. -/
def rarestTrigram (texts : List Bytes) (folded : Bytes) : Option ℕ :=
  (trigrams folded).argmin fun t => (docsWith texts t).length

/-- Whether candidate generation looks at a text: the query has no trigram, or the text has the
rarest one. -/
def walked (texts : List Bytes) (folded x : Bytes) : Bool :=
  if folded.length < 3 then true
  else
    match rarestTrigram texts folded with
    | none => false
    | some t => t ∈ trigrams x

lemma rarestTrigram_mem {texts : List Bytes} {folded : Bytes} {t : ℕ}
    (h : rarestTrigram texts folded = some t) : t ∈ trigrams folded := List.argmin_mem h

lemma exists_rarestTrigram (texts : List Bytes) {folded : Bytes} (hlen : 3 ≤ folded.length) :
    ∃ t, rarestTrigram texts folded = some t := by
  refine Option.ne_none_iff_exists'.mp fun hnone => trigrams_ne_nil hlen ?_
  exact List.argmin_eq_none.mp hnone

lemma walked_of_subset {texts : List Bytes} {folded x : Bytes}
    (h : 3 ≤ folded.length → trigrams folded ⊆ trigrams x) : walked texts folded x = true := by
  unfold walked
  split
  · rfl
  · rename_i hlen
    have hlen := Nat.le_of_not_lt hlen
    obtain ⟨t, ht⟩ := exists_rarestTrigram texts hlen
    rw [ht]
    exact decide_eq_true (h hlen (rarestTrigram_mem ht))

/-- Alone in a corpus, a text is walked only when it has every trigram of the query. -/
lemma subset_of_walked_self {folded x : Bytes} (h : walked [x] folded x = true)
    (hlen : 3 ≤ folded.length) : trigrams folded ⊆ trigrams x := by
  obtain ⟨t, ht⟩ := exists_rarestTrigram [x] hlen
  rw [walked, if_neg (Nat.not_lt.mpr hlen), ht] at h
  intro y hy
  by_contra habs
  -- a missing trigram is the rarest, and no document is walked for it
  have hle := List.le_of_mem_argmin hy ht
  have hnil : docsWith [x] y = [] := by simpa [docsWith] using habs
  have hlisted : docsWith [x] t = [0] := by simpa [docsWith] using h
  rw [hnil, hlisted] at hle
  exact Nat.not_succ_le_zero 0 hle

/-- When every trigram has a list, the loop keeps the list of the trigram of the least weight. -/
lemma rarest_of_present {posting : ℕ → Res (Option (List ℕ))} {lists : ℕ → List ℕ} {w : ℕ → ℕ}
    {ts : List ℕ} (hts : ∀ t ∈ ts, posting t = .ok (some (lists t)) ∧ (lists t).length = w t)
    {best : Option ℕ} (hbest : ∀ b ∈ best, (lists b).length = w b) :
    rarest posting ts (best.map lists) =
      .ok ((ts.foldl (List.argAux fun b c => w b < w c) best).map lists) := by
  induction ts generalizing best with
  | nil => rfl
  | cons t ts ih =>
      obtain ⟨hpost, hlen⟩ := hts t (List.mem_cons_self ..)
      have hnext : ∀ b ∈ List.argAux (fun b c => w b < w c) best t, (lists b).length = w b := by
        intro b hb
        cases best with
        | none => exact Option.some.inj hb ▸ hlen
        | some c =>
            simp only [List.argAux] at hb
            split at hb
            · exact Option.some.inj hb ▸ hlen
            · exact Option.some.inj hb ▸ hbest c rfl
      rw [rarest, hpost, bind_ok, List.foldl_cons,
        ← ih (fun x hx => hts x (List.mem_cons_of_mem _ hx)) hnext]
      dsimp only
      congr 1
      cases best with
      | none => rfl
      | some c =>
          simp only [Option.map_some, List.argAux, hlen, hbest c rfl]
          split <;> rfl

/-- The loop over the trigrams of a query looks for the list of the rarest one, and returns none
when that trigram is in no text. -/
lemma rarest_trigrams {posting : ℕ → Res (Option (List ℕ))} {texts : List Bytes}
    (hp : PostingSetsOf posting texts) {folded : Bytes} (hlen : 3 ≤ folded.length) :
    (rarest posting (trigrams folded) none = .ok none ∧
      ∃ t ∈ trigrams folded, rarestTrigram texts folded = some t ∧ docsWith texts t = []) ∨
    ∃ t l, rarest posting (trigrams folded) none = .ok (some l) ∧
      rarestTrigram texts folded = some t ∧ posting t = .ok (some l) ∧
        l.Perm (docsWith texts t) := by
  obtain ⟨t, ht⟩ := exists_rarestTrigram texts hlen
  have hmem := rarestTrigram_mem ht
  by_cases habs : ∃ t ∈ trigrams folded, docsWith texts t = []
  · obtain ⟨x, hx, hnil⟩ := habs
    refine Or.inl ⟨rarest_of_absent hp ⟨x, hx, hnil⟩ none, t, hmem, ht, ?_⟩
    have hle := List.le_of_mem_argmin hx ht
    rw [hnil, List.length_nil] at hle
    exact List.length_eq_zero_iff.mp (Nat.le_zero.mp hle)
  · -- the lists of the present trigrams, as long as those of the texts
    have hlist : ∀ t, ∃ l, t ∈ trigrams folded →
        posting t = .ok (some l) ∧ l.Perm (docsWith texts t) := by
      intro t
      rcases hp t with ⟨hnil, -⟩ | ⟨-, l, hl, hperm⟩
      · exact ⟨[], fun ht => absurd ⟨t, ht, hnil⟩ habs⟩
      · exact ⟨l, fun _ => ⟨hl, hperm⟩⟩
    choose lists hlists using hlist
    have hrarest := @rarest_of_present posting lists (fun t => (docsWith texts t).length) _
      (fun t ht => ⟨(hlists t ht).1, (hlists t ht).2.length_eq⟩) none (fun b hb => nomatch hb)
    have hargmin : (trigrams folded).foldl
        (List.argAux fun b c => (docsWith texts b).length < (docsWith texts c).length) none =
          some t := ht
    rw [hargmin] at hrarest
    exact Or.inr ⟨t, lists t, hrarest, ht, (hlists t hmem).1, (hlists t hmem).2⟩

section Candidates

variable {src : CandidateSource} {texts : List Bytes} {folded original : Bytes}
  {caseSensitive : Bool} {v : ℕ → Bool}

def candidateDocs (texts : List Bytes) (folded : Bytes) (v : ℕ → Bool) : List ℕ :=
  (List.range texts.length).filter fun d => v d && walked texts folded ((texts[d]?).getD [])

lemma filter_docsWith_rarest {t : ℕ} (hlen : 3 ≤ folded.length)
    (ht : rarestTrigram texts folded = some t) :
    (docsWith texts t).filter v = candidateDocs texts folded v := by
  rw [docsWith, candidateDocs, List.filter_filter]
  refine List.filter_congr fun d _ => ?_
  rw [walked, if_neg (Nat.not_lt.mpr hlen), ht]

/-- For posting lists in any order, `candidates` returns the first `limit` of the documents that
are walked and verify, in some order. -/
theorem candidates_perm (hnum : src.csNumDocs = texts.length)
    (hp : PostingSetsOf src.csPosting texts)
    (hv : ∀ d < texts.length, src.csVerify d (if caseSensitive then original else folded)
      caseSensitive = .ok (v d)) :
    ∃ ds, (∀ limit, candidates src folded original caseSensitive limit = .ok (takeOpt limit ds)) ∧
      ds.Perm (candidateDocs texts folded v) ∧
      (PostingsOf src.csPosting texts → ds = candidateDocs texts folded v) := by
  have hverify : ∀ (limit : Option ℕ) (ds : List ℕ), (∀ d ∈ ds, d < texts.length) →
      verifyLoop (fun d => src.csVerify d (if caseSensitive then original else folded)
        caseSensitive) limit ds [] = .ok (takeOpt limit (ds.filter v)) :=
    fun limit ds hds => verifyLoop_eq (fun d hd => hv d (hds d hd)) fun n _ => Nat.zero_le n
  by_cases hlen : folded.length < 3
  · have hdocs : (List.range texts.length).filter v = candidateDocs texts folded v := by
      refine List.filter_congr fun d _ => ?_
      rw [walked, if_pos hlen, Bool.and_true]
    refine ⟨(List.range texts.length).filter v, fun limit => ?_, by rw [hdocs], fun _ => hdocs⟩
    rw [candidates, if_pos hlen, hnum]
    exact hverify limit _ fun d hd => List.mem_range.mp hd
  · have hlong : 3 ≤ folded.length := Nat.le_of_not_lt hlen
    rcases rarest_trigrams hp hlong with ⟨hnone, t, ht, hmin, hnil⟩ | ⟨t, l, hl, hmin, hpost, hperm⟩
    · have hdocs : [] = candidateDocs texts folded v := by
        rw [← filter_docsWith_rarest hlong hmin, hnil, List.filter_nil]
      refine ⟨[], fun limit => ?_, by rw [hdocs], fun _ => hdocs⟩
      rw [candidates, if_neg hlen, hnone, bind_ok]
      cases limit with
      | none => rfl
      | some n => rw [takeOpt, List.take_nil]; rfl
    · refine ⟨l.filter v, fun limit => ?_, ?_, fun hexact => ?_⟩
      · rw [candidates, if_neg hlen, hl, bind_ok]
        exact hverify limit l fun d hd => lt_of_mem_docsWith (hperm.subset hd)
      · rw [← filter_docsWith_rarest hlong hmin]
        exact hperm.filter v
      · have heq := Except.ok.inj ((hexact t).symm.trans hpost)
        split at heq
        · cases heq
        · rw [← filter_docsWith_rarest hlong hmin, Option.some.inj heq]

/-- Over an index of the texts, `candidates` returns the first `limit` of these documents. -/
theorem candidates_eq_docs (hnum : src.csNumDocs = texts.length)
    (hp : PostingsOf src.csPosting texts)
    (hv : ∀ d < texts.length, src.csVerify d (if caseSensitive then original else folded)
      caseSensitive = .ok (v d)) (limit : Option ℕ) :
    candidates src folded original caseSensitive limit =
      .ok (takeOpt limit (candidateDocs texts folded v)) := by
  obtain ⟨ds, hds, -, heq⟩ := candidates_perm hnum hp.sets hv
  rw [hds, heq hp]

lemma mem_candidateDocs {d : ℕ} : d ∈ candidateDocs texts folded v ↔
    v d = true ∧ ∃ x, texts[d]? = some x ∧ walked texts folded x = true := by
  rw [candidateDocs, List.mem_filter, List.mem_range, Bool.and_eq_true]
  constructor
  · rintro ⟨hd, hv, hw⟩
    rw [List.getElem?_eq_getElem hd] at hw
    exact ⟨hv, _, List.getElem?_eq_getElem hd, hw⟩
  · rintro ⟨hv, x, hx, hw⟩
    obtain ⟨hd, -⟩ := List.getElem?_eq_some_iff.mp hx
    rw [hx]
    exact ⟨hd, hv, hw⟩

lemma lt_of_mem_candidateDocs {d : ℕ} (h : d ∈ candidateDocs texts folded v) : d < texts.length :=
  List.mem_range.mp (List.mem_filter.mp h).1

lemma nodup_candidateDocs : (candidateDocs texts folded v).Nodup := List.nodup_range.filter _

/-- When every hit's text has all trigrams of the folded query, the candidate documents are the
hits. -/
lemma candidateDocs_eq (hsound : 3 ≤ folded.length → ∀ d x, texts[d]? = some x → v d = true →
      trigrams folded ⊆ trigrams x) :
    candidateDocs texts folded v = (List.range texts.length).filter v := by
  refine List.filter_congr fun d hd => ?_
  have hget := List.getElem?_eq_getElem (List.mem_range.mp hd)
  cases hv : v d with
  | false => rfl
  | true =>
      rw [hget, Option.getD_some, walked_of_subset fun hlen => hsound hlen d _ hget hv]
      rfl

/-- When every hit's indexed text has all trigrams of the folded query, `candidates` returns the
first `limit` hits. -/
theorem candidates_eq (hnum : src.csNumDocs = texts.length)
    (hp : PostingsOf src.csPosting texts)
    (hv : ∀ d < texts.length, src.csVerify d (if caseSensitive then original else folded)
      caseSensitive = .ok (v d))
    (hsound : 3 ≤ folded.length → ∀ d x, texts[d]? = some x → v d = true →
      trigrams folded ⊆ trigrams x) (limit : Option ℕ) :
    candidates src folded original caseSensitive limit =
      .ok (takeOpt limit ((List.range texts.length).filter v)) := by
  rw [candidates_eq_docs hnum hp hv, candidateDocs_eq hsound]

lemma candidates_of_absent (hp : PostingSetsOf src.csPosting texts) (hlen : 3 ≤ folded.length)
    (habs : ∃ t ∈ trigrams folded, docsWith texts t = []) (original : Bytes)
    (caseSensitive : Bool) (limit : Option ℕ) :
    candidates src folded original caseSensitive limit = .ok [] := by
  rw [candidates, if_neg (by omega), rarest_of_absent hp habs]
  rfl

end Candidates

end DeepFinder
