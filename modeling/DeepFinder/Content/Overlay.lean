import DeepFinder.Content.Fold
import DeepFinder.Content.Shard
import DeepFinder.Content.Wal
import DeepFinder.Core.Query
import Mathlib.Data.Finset.Basic

/-!
# The hot overlay

`Overlay` absorbs file changes between compactions: one slot a path, an inverted index of the
folded contents, and a set of tombstones.  `apply_record` updates all of them in place.

A replaced or deleted document leaves the posting lists it was on and joins others at their
ends, so these lists hold the right documents but not in ascending order (`IndexedSets`).
-/

namespace DeepFinder

open ByteString

/-- `Overlay`. -/
structure Overlay where
  byPath : List (String × ℕ) := []
  paths : List String := []
  metas : List LiteMeta := []
  contents : List (Option Bytes) := []
  tryMap : OrderedMap ℕ (List ℕ) := []
  docTrigrams : List (List ℕ) := []
  tombstones : Finset String := ∅

/-! ## Applying records -/

/-- `v.retain(|x| *x != d)`. -/
def retainOther (d : ℕ) (v : List ℕ) : List ℕ := v.filter (· ≠ d)

/-- The loop body of `remove_doc_postings`: a list that becomes empty is removed. -/
def removePosting (d : ℕ) (m : OrderedMap ℕ (List ℕ)) (t : ℕ) : OrderedMap ℕ (List ℕ) :=
  match m.find? t with
  | none => m
  | some v =>
      if retainOther d v = [] then m.erase t else m.modify t fun _ => retainOther d v

/-- `remove_doc_postings`. -/
def Overlay.removeDocPostings (o : Overlay) (d : ℕ) : Overlay :=
  match o.docTrigrams[d]? with
  | none => o
  | some tris => { o with tryMap := tris.foldl (removePosting d) o.tryMap }

/-- The first half of an upsert: the path's old slot, without its postings, or a new one. -/
def Overlay.writeSlot (o : Overlay) (path : String) (lite : LiteMeta) (content : Option Bytes) :
    Overlay :=
  match o.byPath.lookup path with
  | some d =>
      let o := o.removeDocPostings d
      { o with metas := o.metas.set d lite, contents := o.contents.set d content }
  | none =>
      { o with
        paths := o.paths ++ [path]
        metas := o.metas ++ [lite]
        contents := o.contents ++ [content]
        docTrigrams := o.docTrigrams ++ [[]]
        byPath := (path, o.paths.length % 2 ^ 32) :: o.byPath }

/-- The second half of an upsert: the postings of the new content. -/
def Overlay.indexSlot (o : Overlay) (d : ℕ) (content : Option Bytes) : Overlay :=
  match content with
  | some c =>
      let tris := trigrams (fold c)
      { o with tryMap := addPostings o.tryMap d tris, docTrigrams := o.docTrigrams.set d tris }
  | none => { o with docTrigrams := o.docTrigrams.set d [] }

/-- `apply_record`. -/
def Overlay.applyRecord (o : Overlay) : WalRecord → Overlay
  | .upsert path lite content =>
      let o := { o with tombstones := o.tombstones.erase path }
      let o := o.writeSlot path lite content
      match o.byPath.lookup path with
      | some d => o.indexSlot d content
      | none => o
  | .delete path =>
      let o := match o.byPath.lookup path with
        | some d =>
            let o := o.removeDocPostings d
            { o with
              contents := o.contents.set d none
              docTrigrams := o.docTrigrams.set d [] }
        | none => o
      { o with tombstones := insert path o.tombstones }

/-- `apply_records`. -/
def Overlay.applyRecords (o : Overlay) (recs : List WalRecord) : Overlay :=
  recs.foldl Overlay.applyRecord o

/-! ## Queries -/

/-- `len`. -/
def Overlay.len (o : Overlay) : ℕ := o.paths.length

/-- `shadows_anything`. -/
def Overlay.shadowsAnything (o : Overlay) : Bool := !o.paths.isEmpty || decide (o.tombstones ≠ ∅)

/-- `suppresses`. -/
def Overlay.suppresses (o : Overlay) (path : String) : Bool :=
  (o.byPath.lookup path).isSome || decide (path ∈ o.tombstones)

/-- `content`. -/
def Overlay.content (o : Overlay) (docid : ℕ) : Option Bytes := (o.contents[docid]?).join

/-- `cs_verify` of the overlay. -/
def Overlay.verify (o : Overlay) (docid : ℕ) (needle : Bytes) (caseSensitive : Bool) : Res Bool :=
  match o.content docid with
  | none => .ok false
  | some content =>
      if needle = [] then .ok true
      else if caseSensitive then .ok (memmemFind content needle).isSome
      else .ok (memmemFind (fold content) needle).isSome

/-- `OverlayReader`: the overlay as a source of candidates. -/
def Overlay.source (o : Overlay) : CandidateSource where
  csPosting t := .ok (o.tryMap.find? t)
  csVerify := o.verify
  csNumDocs := o.paths.length % 2 ^ 32

/-- `content_query`. -/
def Overlay.contentQuery (o : Overlay) (folded original : Bytes) (caseSensitive : Bool)
    (limit : Option ℕ) : Res (List (String × LiteMeta)) := do
  let docids ← (candidates o.source folded original caseSensitive limit).unwrapOr []
  pure (docids.filterMap fun d =>
    (o.paths[d]?).bind fun path =>
      if path ∈ o.tombstones then none else some (path, (o.metas[d]?).getD default))

/-- The linear scan over the paths that `filename_query` and `content_regex_hits` share. -/
def Overlay.scanDocs (o : Overlay) (limit : Option ℕ) (hit : ℕ → String → Bool) :
    List (String × ℕ) → List (String × LiteMeta) → List (String × LiteMeta)
  | [], out => out
  | (path, d) :: rest, out =>
      if capReached limit out.length then out
      else if path ∈ o.tombstones then o.scanDocs limit hit rest out
      else if hit d path then
        o.scanDocs limit hit rest (out ++ [(path, (o.metas[d]?).getD default)])
      else o.scanDocs limit hit rest out

/-- `content_regex_hits`. -/
def Overlay.contentRegexHits (o : Overlay) (isMatch : Bytes → Bool) (limit : Option ℕ) :
    List (String × LiteMeta) :=
  o.scanDocs limit (fun d _ => ((o.content d).map isMatch).getD false) o.paths.zipIdx []

/-- `path.rsplit('/').next()`: what follows the last slash. -/
def baseName (path : String) : String :=
  String.ofList (path.toList.reverse.takeWhile (· ≠ '/')).reverse

/-- `filename_query`. -/
def Overlay.filenameQuery (o : Overlay) (needle : String) (caseSensitive basenameOnly : Bool)
    (limit : Option ℕ) : List (String × LiteMeta) :=
  o.scanDocs limit
    (fun _ path => termMatches caseSensitive needle (if basenameOnly then baseName path else path))
    o.paths.zipIdx []

/-! ## Posting lists under replacement -/

/-- `m` holds, for every trigram, the documents whose text contains it, in some order. -/
structure IndexedSets (m : OrderedMap ℕ (List ℕ)) (texts : List Bytes) : Prop where
  ascending : m.Ascending
  find?_perm : ∀ t, (docsWith texts t = [] ∧ m.find? t = none) ∨
    (docsWith texts t ≠ [] ∧ ∃ l, m.find? t = some l ∧ l.Perm (docsWith texts t))

section IndexedSets

variable {m : OrderedMap ℕ (List ℕ)} {texts : List Bytes}

lemma IndexedSets.nil : IndexedSets [] [] := ⟨OrderedMap.Ascending.nil, fun _ => Or.inl ⟨rfl, rfl⟩⟩

lemma IndexedSets.perm (h : IndexedSets m texts) (t : ℕ) :
    ((m.find? t).getD []).Perm (docsWith texts t) := by
  rcases h.find?_perm t with ⟨hnil, hnone⟩ | ⟨-, l, hl, hperm⟩
  · rw [hnil, hnone]
    exact List.Perm.refl _
  · rw [hl]
    exact hperm

/-- A posting list without a document, or none when that was its last one. -/
def dropDoc (d : ℕ) : Option (List ℕ) → Option (List ℕ)
  | none => none
  | some v => if retainOther d v = [] then none else some (retainOther d v)

lemma find?_removePosting (hm : m.Ascending) (d t x : ℕ) :
    (removePosting d m t).find? x = if x = t then dropDoc d (m.find? t) else m.find? x := by
  cases hfind : m.find? t with
  | none =>
      simp only [removePosting, hfind, dropDoc]
      split
      · rename_i hx
        rw [hx, hfind]
      · rfl
  | some v =>
      simp only [removePosting, hfind, dropDoc]
      split
      · rw [OrderedMap.find?_erase]
      · rw [OrderedMap.find?_modify hm]

lemma ascending_removePosting (hm : m.Ascending) (d t : ℕ) : (removePosting d m t).Ascending := by
  unfold removePosting
  split
  · exact hm
  · split
    · exact hm.erase t
    · exact hm.modify t _

lemma dropDoc_dropDoc (d : ℕ) (o : Option (List ℕ)) : dropDoc d (dropDoc d o) = dropDoc d o := by
  have hidem : ∀ v, retainOther d (retainOther d v) = retainOther d v := by
    intro v
    simp [retainOther]
  cases o with
  | none => rfl
  | some v =>
      by_cases hnil : retainOther d v = []
      · simp only [dropDoc, if_pos hnil]
      · simp only [dropDoc, if_neg hnil, hidem]

/-- Exactly the posting lists of the removed trigrams lose the document. -/
lemma find?_removePostings (hm : m.Ascending) (d : ℕ) (tris : List ℕ) (t : ℕ) :
    (tris.foldl (removePosting d) m).find? t =
      if t ∈ tris then dropDoc d (m.find? t) else m.find? t := by
  induction tris generalizing m with
  | nil => simp
  | cons x tris ih =>
      rw [List.foldl_cons, ih (ascending_removePosting hm d x), find?_removePosting hm]
      by_cases htx : t = x
      · subst htx
        by_cases hmem : t ∈ tris <;> simp [hmem, dropDoc_dropDoc]
      · by_cases hmem : t ∈ tris <;> simp [hmem, htx]

lemma ascending_removePostings (hm : m.Ascending) (d : ℕ) (tris : List ℕ) :
    (tris.foldl (removePosting d) m).Ascending := by
  induction tris generalizing m with
  | nil => exact hm
  | cons x tris ih => exact ih (ascending_removePosting hm d x)

lemma trigrams_nil : trigrams [] = [] := by decide

lemma mem_docsWith_set {d : ℕ} (hd : d < texts.length) (y : Bytes) (t e : ℕ) :
    e ∈ docsWith (texts.set d y) t ↔
      (e = d ∧ t ∈ trigrams y) ∨ (e ≠ d ∧ e ∈ docsWith texts t) := by
  rw [mem_docsWith, mem_docsWith]
  by_cases he : e = d
  · subst he
    simp [hd]
  · simp [Ne.symm he, he]

lemma docsWith_nodup (texts : List Bytes) (t : ℕ) : (docsWith texts t).Nodup :=
  (docsWith_pairwise texts t).imp fun h => h.ne

lemma docsWith_ext {texts' : List Bytes} {t : ℕ} {l : List ℕ} (hl : l.Pairwise (· < ·))
    (h : ∀ e, e ∈ docsWith texts' t ↔ e ∈ l) : docsWith texts' t = l := by
  have hperm : (docsWith texts' t).Perm l :=
    (List.perm_ext_iff_of_nodup (docsWith_nodup _ t) (hl.imp fun h => h.ne)).mpr h
  exact hperm.eq_of_pairwise (fun a b _ _ hab hba => absurd hab hba.asymm) (docsWith_pairwise _ t) hl

lemma docsWith_set_nil {d : ℕ} (hd : d < texts.length) (t : ℕ) :
    docsWith (texts.set d []) t = retainOther d (docsWith texts t) := by
  refine docsWith_ext ((docsWith_pairwise texts t).filter _) fun e => ?_
  rw [mem_docsWith_set hd, retainOther, List.mem_filter, trigrams_nil]
  simp [and_comm]

/-- Removing a document's postings unlists it. -/
lemma IndexedSets.remove (h : IndexedSets m texts) {d : ℕ} {x : Bytes}
    (hx : texts[d]? = some x) :
    IndexedSets ((trigrams x).foldl (removePosting d) m) (texts.set d []) := by
  obtain ⟨hd, -⟩ := List.getElem?_eq_some_iff.mp hx
  refine ⟨ascending_removePostings h.ascending d _, fun t => ?_⟩
  rw [docsWith_set_nil hd, find?_removePostings h.ascending]
  by_cases ht : t ∈ trigrams x
  · rw [if_pos ht]
    rcases h.find?_perm t with ⟨hnil, hnone⟩ | ⟨-, l, hl, hperm⟩
    · rw [hnil, hnone]
      exact Or.inl ⟨rfl, rfl⟩
    · have hfilter : (retainOther d l).Perm (retainOther d (docsWith texts t)) := hperm.filter _
      rw [hl]
      by_cases hnil : retainOther d l = []
      · rw [hnil] at hfilter
        exact Or.inl ⟨hfilter.symm.eq_nil, by rw [dropDoc, if_pos hnil]⟩
      · refine Or.inr ⟨fun hdocs => hnil ?_, retainOther d l, by rw [dropDoc, if_neg hnil], hfilter⟩
        rw [hdocs] at hfilter
        exact hfilter.eq_nil
  · rw [if_neg ht]
    have hnot : d ∉ docsWith texts t := by
      intro hmem
      obtain ⟨y, hy, hty⟩ := mem_docsWith.mp hmem
      rw [hx] at hy
      obtain rfl := Option.some.inj hy
      exact ht hty
    have hself : retainOther d (docsWith texts t) = docsWith texts t :=
      List.filter_eq_self.mpr fun e he => decide_eq_true fun hed => hnot (hed ▸ he)
    rw [hself]
    exact h.find?_perm t

/-- Adding the postings of an unlisted document lists it with its new text. -/
lemma IndexedSets.replace {d : ℕ} (hd : d < texts.length)
    (h : IndexedSets m (texts.set d [])) (x : Bytes) :
    IndexedSets (addPostings m d (trigrams x)) (texts.set d x) := by
  refine ⟨ascending_addPostings h.ascending d _, fun t => ?_⟩
  have hnot : d ∉ docsWith (texts.set d []) t := by
    rw [docsWith_set_nil hd, retainOther, List.mem_filter]
    simp
  have hdocs : ∀ e, e ∈ docsWith (texts.set d x) t ↔
      (e = d ∧ t ∈ trigrams x) ∨ e ∈ docsWith (texts.set d []) t := by
    intro e
    rw [mem_docsWith_set hd, docsWith_set_nil hd, retainOther, List.mem_filter]
    simp [and_comm]
  rw [find?_addPostings h.ascending]
  by_cases ht : t ∈ trigrams x
  · rw [if_pos ht]
    have hperm := h.perm t
    have hpush : pushPosting d ((m.find? t).getD []) = (m.find? t).getD [] ++ [d] := by
      refine if_neg fun hlast => hnot ?_
      exact hperm.subset (List.mem_of_getLast? hlast)
    have hne : docsWith (texts.set d x) t ≠ [] := by
      apply List.ne_nil_of_mem
      exact (hdocs d).mpr (Or.inl ⟨rfl, ht⟩)
    refine Or.inr ⟨hne, _, rfl, ?_⟩
    rw [hpush]
    refine (List.perm_ext_iff_of_nodup ?_ (docsWith_nodup _ t)).mpr fun e => ?_
    · apply List.Nodup.append (hperm.nodup_iff.mpr (docsWith_nodup _ t)) (List.nodup_singleton d)
      intro e he hed
      rw [List.mem_singleton.mp hed] at he
      exact hnot (hperm.subset he)
    · rw [List.mem_append, List.mem_singleton, hperm.mem_iff, hdocs]
      simp [ht, or_comm]
  · rw [if_neg ht]
    have hsame : docsWith (texts.set d x) t = docsWith (texts.set d []) t := by
      refine docsWith_ext (docsWith_pairwise _ t) fun e => ?_
      rw [hdocs]
      simp [ht]
    rw [hsame]
    exact h.find?_perm t

lemma IndexedSets.append_nil (h : IndexedSets m texts) : IndexedSets m (texts ++ [[]]) := by
  refine ⟨h.ascending, fun t => ?_⟩
  have hnil : t ∉ trigrams [] := by
    rw [trigrams_nil]
    exact List.not_mem_nil
  rw [docsWith_append, if_neg hnil, List.append_nil]
  exact h.find?_perm t

end IndexedSets

end DeepFinder
