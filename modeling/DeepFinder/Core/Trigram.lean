import DeepFinder.Core.Basic
import DeepFinder.Lib.OrderedMap
import Mathlib.Data.List.Sort

/-!
# Byte trigrams

`trigrams` packs every 3-byte window of a folded byte string into a 24-bit key, sorted and
without duplicates.  The one fact the index rests on is `trigrams_mono`: the keys of
a substring are keys of the whole.

`addPostings` is the loop both builders and the overlay run over a document's trigrams.

Documents are numbered in the order in which they are added, so that lists of documents ascend in
the builders.  In the overlay a document can be added to lists again, which is why
`Content/Overlay.lean` speaks of sets.
-/

namespace DeepFinder

open ByteString

/-- The key of a 3-byte window: `w[0] << 16 | w[1] << 8 | w[2]`. -/
def trigramKey : Bytes → ℕ
  | [a, b, c] => a.toNat <<< 16 ||| b.toNat <<< 8 ||| c.toNat
  | _ => 0

/-- `Vec::dedup`: drop consecutive repetitions. -/
def dedupAdjacent : List ℕ → List ℕ
  | [] => []
  | [a] => [a]
  | a :: b :: l => if a = b then dedupAdjacent (b :: l) else a :: dedupAdjacent (b :: l)

/-- `trigrams`: sorted, duplicate-free keys of the 3-byte windows. -/
def trigrams (lowercased : Bytes) : List ℕ :=
  if lowercased.length < 3 then []
  else dedupAdjacent (((windows 3 lowercased).map trigramKey).insertionSort (· ≤ ·))

lemma mem_dedupAdjacent {a : ℕ} {l : List ℕ} : a ∈ dedupAdjacent l ↔ a ∈ l := by
  induction l using dedupAdjacent.induct with
  | case1 => rfl
  | case2 => rfl
  | case3 b l ih =>
      rw [dedupAdjacent, if_pos rfl, ih]
      simp
  | case4 b c l hne ih =>
      rw [dedupAdjacent, if_neg hne, List.mem_cons, ih, List.mem_cons (a := a) (b := b)]

lemma pairwise_lt_dedupAdjacent {l : List ℕ} (h : l.Pairwise (· ≤ ·)) :
    (dedupAdjacent l).Pairwise (· < ·) := by
  induction l using dedupAdjacent.induct with
  | case1 => exact List.Pairwise.nil
  | case2 a => exact List.pairwise_singleton _ _
  | case3 b l ih =>
      rw [dedupAdjacent, if_pos rfl]
      exact ih (List.pairwise_cons.mp h).2
  | case4 a b l hne ih =>
      rw [dedupAdjacent, if_neg hne]
      obtain ⟨hle, hrest⟩ := List.pairwise_cons.mp h
      refine List.pairwise_cons.mpr ⟨fun x hx => ?_, ih hrest⟩
      have hax := hle x (mem_dedupAdjacent.mp hx)
      have hab : a < b := lt_of_le_of_ne (hle b (List.mem_cons_self ..)) hne
      rcases List.mem_cons.mp (mem_dedupAdjacent.mp hx) with rfl | hxl
      · exact hab
      · exact lt_of_lt_of_le hab ((List.pairwise_cons.mp hrest).1 x hxl)

lemma mem_trigrams {t : ℕ} {bs : Bytes} :
    t ∈ trigrams bs ↔ ∃ w ∈ windows 3 bs, trigramKey w = t := by
  unfold trigrams
  split
  · rename_i hlt
    have hnil : windows 3 bs = [] := by
      rw [windows, show bs.length + 1 - 3 = 0 by omega]
      rfl
    simp [hnil]
  · rw [mem_dedupAdjacent, List.mem_insertionSort, List.mem_map]

lemma trigrams_pairwise (bs : Bytes) : (trigrams bs).Pairwise (· < ·) := by
  unfold trigrams
  split
  · exact List.Pairwise.nil
  · exact pairwise_lt_dedupAdjacent (List.pairwise_insertionSort (· ≤ ·) _)

lemma trigrams_nodup (bs : Bytes) : (trigrams bs).Nodup :=
  (trigrams_pairwise bs).imp fun h => ne_of_lt h

lemma trigrams_mono {a b : Bytes} (h : a <:+: b) : trigrams a ⊆ trigrams b := by
  intro t ht
  obtain ⟨w, hw, rfl⟩ := mem_trigrams.mp ht
  exact mem_trigrams.mpr ⟨w, windows_subset_of_infix h hw, rfl⟩

lemma trigrams_ne_nil {bs : Bytes} (h : 3 ≤ bs.length) : trigrams bs ≠ [] := by
  have hw : bs.take 3 ∈ windows 3 bs :=
    mem_windows.mpr ⟨by simp; omega, (List.take_prefix 3 bs).isInfix⟩
  exact List.ne_nil_of_mem (mem_trigrams.mpr ⟨_, hw, rfl⟩)

lemma trigramKey_lt (w : Bytes) : trigramKey w < 2 ^ 24 := by
  match w with
  | [] | [_] | [_, _] | _ :: _ :: _ :: _ :: _ => simp [trigramKey]
  | [a, b, c] =>
      have ha : a.toNat < 2 ^ 8 := a.toNat_lt
      have hb : b.toNat < 2 ^ 8 := b.toNat_lt
      have hc : c.toNat < 2 ^ 8 := c.toNat_lt
      refine Nat.or_lt_two_pow (Nat.or_lt_two_pow ?_ ?_) (by omega) <;>
        rw [Nat.shiftLeft_eq] <;> omega

lemma lt_of_mem_trigrams {t : ℕ} {bs : Bytes} (h : t ∈ trigrams bs) : t < 2 ^ 24 := by
  obtain ⟨w, -, rfl⟩ := mem_trigrams.mp h
  exact trigramKey_lt w

/-! ## Posting lists under construction -/

/-- Append `docid` unless it is already the last entry. -/
def pushPosting (docid : ℕ) (v : List ℕ) : List ℕ :=
  if v.getLast? = some docid then v else v ++ [docid]

/-- `for t in tris { let v = try_map.entry(t).or_default(); if v.last() != Some(&id) {..} }`. -/
def addPostings (tryMap : OrderedMap ℕ (List ℕ)) (docid : ℕ) (tris : List ℕ) :
    OrderedMap ℕ (List ℕ) :=
  tris.foldl (fun m t => OrderedMap.modify m t fun v => pushPosting docid (v.getD [])) tryMap

lemma pushPosting_idem (docid : ℕ) (v : List ℕ) :
    pushPosting docid (pushPosting docid v) = pushPosting docid v := by
  unfold pushPosting
  split
  · rfl
  · rw [if_pos (by simp)]

lemma ascending_addPostings {m : OrderedMap ℕ (List ℕ)} (hm : m.Ascending) (docid : ℕ)
    (tris : List ℕ) : (addPostings m docid tris).Ascending := by
  induction tris generalizing m with
  | nil => exact hm
  | cons t tris ih => exact ih (hm.modify t _)

/-- Exactly the posting lists of the document's trigrams gain the document. -/
lemma find?_addPostings {m : OrderedMap ℕ (List ℕ)} (hm : m.Ascending) (docid : ℕ)
    (tris : List ℕ) (t : ℕ) :
    (addPostings m docid tris).find? t =
      if t ∈ tris then some (pushPosting docid ((m.find? t).getD [])) else m.find? t := by
  induction tris generalizing m with
  | nil => simp [addPostings]
  | cons x tris ih =>
      have hstep : addPostings m docid (x :: tris) =
          addPostings (m.modify x fun v => pushPosting docid (v.getD [])) docid tris := rfl
      rw [hstep, ih (hm.modify x _), OrderedMap.find?_modify hm]
      by_cases htx : t = x
      · subst htx
        by_cases hmem : t ∈ tris <;> simp [hmem, pushPosting_idem]
      · by_cases hmem : t ∈ tris <;> simp [hmem, htx]

/-! ## What a builder collects -/

/-- The documents whose folded text contains trigram `t`, in ascending order. -/
def docsWith (texts : List Bytes) (t : ℕ) : List ℕ :=
  (List.range texts.length).filter fun d => decide (t ∈ trigrams ((texts[d]?).getD []))

lemma mem_docsWith {texts : List Bytes} {t d : ℕ} :
    d ∈ docsWith texts t ↔ ∃ x, texts[d]? = some x ∧ t ∈ trigrams x := by
  simp only [docsWith, List.mem_filter, List.mem_range, decide_eq_true_eq]
  constructor
  · rintro ⟨hd, ht⟩
    rw [List.getElem?_eq_getElem hd, Option.getD_some] at ht
    exact ⟨_, List.getElem?_eq_getElem hd, ht⟩
  · rintro ⟨x, hx, ht⟩
    obtain ⟨hd, -⟩ := List.getElem?_eq_some_iff.mp hx
    exact ⟨hd, by rwa [hx, Option.getD_some]⟩

lemma docsWith_pairwise (texts : List Bytes) (t : ℕ) : (docsWith texts t).Pairwise (· < ·) :=
  List.pairwise_lt_range.filter _

lemma lt_of_mem_docsWith {texts : List Bytes} {t d : ℕ} (h : d ∈ docsWith texts t) :
    d < texts.length := List.mem_range.mp (List.mem_filter.mp h).1

lemma docsWith_append (texts : List Bytes) (x : Bytes) (t : ℕ) :
    docsWith (texts ++ [x]) t =
      docsWith texts t ++ if t ∈ trigrams x then [texts.length] else [] := by
  have hold : ∀ d ∈ List.range texts.length,
      decide (t ∈ trigrams (((texts ++ [x])[d]?).getD [])) =
        decide (t ∈ trigrams ((texts[d]?).getD [])) := by
    intro d hd
    rw [List.getElem?_append_left (List.mem_range.mp hd)]
  rw [docsWith, List.length_append, List.length_singleton, List.range_succ, List.filter_append,
    List.filter_congr hold, docsWith]
  congr 1
  by_cases ht : t ∈ trigrams x <;> simp [ht]

/-- `m` holds, for every trigram, the documents whose text contains it. -/
structure Indexed (m : OrderedMap ℕ (List ℕ)) (texts : List Bytes) : Prop where
  ascending : m.Ascending
  find?_eq : ∀ t, m.find? t = if docsWith texts t = [] then none else some (docsWith texts t)

/-- What a builder holds of the documents it has taken, it holds of all of them, if it does so of
one more while there are docids left. -/
lemma foldl_holds {α β : Type} {holds : β → List α → Prop} {insert : β → α → β} {bound : ℕ}
    (hinsert : ∀ {b docs}, holds b docs → docs.length < bound → ∀ x,
      holds (insert b x) (docs ++ [x]))
    {b : β} {docs : List α} (h : holds b docs) (more : List α)
    (hlen : (docs ++ more).length ≤ bound) : holds (more.foldl insert b) (docs ++ more) := by
  induction more generalizing docs b with
  | nil => simpa using h
  | cons x more ih =>
      have hlt : docs.length < bound := by
        simp only [List.length_append, List.length_cons] at hlen
        omega
      have hnext := ih (hinsert h hlt x) (by simpa using hlen)
      simpa using hnext

lemma Indexed.nil : Indexed [] [] := ⟨OrderedMap.Ascending.nil, fun _ => rfl⟩

lemma pushPosting_docsWith (texts : List Bytes) (t : ℕ) :
    pushPosting texts.length (docsWith texts t) = docsWith texts t ++ [texts.length] := by
  refine if_neg fun hlast => ?_
  have := lt_of_mem_docsWith (List.mem_of_getLast? hlast)
  omega

/-- Adding a document keeps the map an index. -/
lemma Indexed.add {m : OrderedMap ℕ (List ℕ)} {texts : List Bytes} (h : Indexed m texts)
    (x : Bytes) : Indexed (addPostings m texts.length (trigrams x)) (texts ++ [x]) := by
  refine ⟨ascending_addPostings h.ascending _ _, fun t => ?_⟩
  have hold : (m.find? t).getD [] = docsWith texts t := by
    rw [h.find?_eq t]
    split
    · rename_i hnil
      rw [hnil, Option.getD_none]
    · rfl
  rw [find?_addPostings h.ascending, hold, docsWith_append, pushPosting_docsWith, h.find?_eq t]
  by_cases ht : t ∈ trigrams x <;> simp [ht]

lemma Indexed.eq_docsWith {m : OrderedMap ℕ (List ℕ)} {texts : List Bytes} (h : Indexed m texts)
    {b : ℕ × List ℕ} (hb : b ∈ m) : b.2 = docsWith texts b.1 ∧ docsWith texts b.1 ≠ [] := by
  have hfind := OrderedMap.find?_of_mem h.ascending (k := b.1) (v := b.2) hb
  rw [h.find?_eq] at hfind
  split at hfind
  · cases hfind
  · rename_i hne
    exact ⟨(Option.some.inj hfind).symm, hne⟩

end DeepFinder
