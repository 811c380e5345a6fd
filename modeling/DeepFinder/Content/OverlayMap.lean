import DeepFinder.Content.OverlayVersion
import DeepFinder.Content.ShardRoundTrip
import Mathlib.Data.List.Dedup
import Mathlib.Data.Nat.Digits.Defs

/-!
# The overlay as a last-writer-wins map

`Overlay.Inv` says which documents a posting list holds.  The order of the list is that of the last
records of their paths, so that applying the end of a log once more gives the overlay it was
applied to (`Overlay.applyRecords_suffix`).

`overlay_last_writer_wins` is the whole contract: after any records the overlay is the map in which
the last record of each path wins, seen through each of its fields and queries.

The bound is on the paths that records write, since only they take a slot: a slot number is a `u32`,
and at `2 ^ 32` of them the next one would be cut off.  Deletions are tombstones by path and need no
slot, so they are not counted.  Nothing is asked of the records themselves, neither valid paths nor
an order.
-/

namespace DeepFinder

open ByteString

/-! ## The order of the last occurrences -/

section Dedup

variable {α : Type} [DecidableEq α]

lemma dedup_concat (l : List α) (a : α) :
    (l ++ [a]).dedup = l.dedup.filter (· ≠ a) ++ [a] := by
  induction l with
  | nil => rfl
  | cons b l ih =>
      rw [List.cons_append]
      by_cases hb : b ∈ l
      · rw [List.dedup_cons_of_mem (List.mem_append_left _ hb), List.dedup_cons_of_mem hb, ih]
      · rw [List.dedup_cons_of_notMem hb, List.filter_cons]
        by_cases hba : b = a
        · rw [List.dedup_cons_of_mem (by simp [hba]), ih, if_neg (by simp [hba])]
        · rw [List.dedup_cons_of_notMem (by simp [hb, hba]), ih, if_pos (by simp [hba]),
            List.cons_append]

lemma dedup_append_suffix {l s : List α} (h : s <:+ l) : (l ++ s).dedup = l.dedup := by
  obtain ⟨p, rfl⟩ := h
  rw [List.append_assoc, List.dedup_append, List.dedup_append p,
    List.Subset.dedup_append_right (List.Subset.refl s)]

/-- A sublist of a list without duplicates is given by its elements. -/
lemma filter_mem_of_sublist {l L : List α} (h : l.Sublist L) (hL : L.Nodup) :
    L.filter (fun x => decide (x ∈ l)) = l := by
  induction h with
  | slnil => rfl
  | cons a hsub ih =>
      obtain ⟨ha, hL⟩ := List.nodup_cons.mp hL
      rw [List.filter_cons_of_neg, ih hL]
      rw [decide_eq_true_eq]
      exact fun hmem => ha (hsub.subset hmem)
  | cons_cons a hsub ih =>
      obtain ⟨ha, hL⟩ := List.nodup_cons.mp hL
      rw [List.filter_cons_of_pos (by simp)]
      refine congrArg (List.cons a) ((List.filter_congr fun x hx => ?_).trans (ih hL))
      have hne : x ≠ a := fun heq => ha (heq ▸ hx)
      simp [hne]

lemma eq_of_sublist {l l' L : List α} (h : l.Sublist L) (h' : l'.Sublist L) (hL : L.Nodup)
    (hmem : ∀ x, x ∈ l ↔ x ∈ l') : l = l' := by
  rw [← filter_mem_of_sublist h hL, ← filter_mem_of_sublist h' hL]
  exact List.filter_congr fun x _ => decide_eq_decide.mpr (hmem x)

end Dedup

/-! ## What the last records leave -/

def recordOrder (recs : List WalRecord) : List String := (recs.map WalRecord.path).dedup

def WalRecord.liteFor (path : String) : WalRecord → Option LiteMeta
  | .upsert p lite _ => if p = path then some lite else none
  | .delete _ => none

/-- The metadata of the last upsert of a path; a deletion keeps it in the slot. -/
def lastLite (recs : List WalRecord) (path : String) : Option LiteMeta :=
  recs.reverse.findSome? (WalRecord.liteFor path)

lemma recordOrder_concat (recs : List WalRecord) (r : WalRecord) :
    recordOrder (recs ++ [r]) = (recordOrder recs).filter (· ≠ r.path) ++ [r.path] := by
  rw [recordOrder, List.map_append, List.map_singleton, dedup_concat]
  rfl

lemma lastLite_concat (recs : List WalRecord) (r : WalRecord) (p : String) :
    lastLite (recs ++ [r]) p = (r.liteFor p).or (lastLite recs p) := by
  rw [lastLite, List.reverse_append, List.reverse_singleton, List.singleton_append,
    List.findSome?_cons]
  cases r.liteFor p with
  | none => rfl
  | some lite => rfl

section Suffix

variable {recs suf : List WalRecord}

lemma recordOrder_suffix (h : suf <:+ recs) : recordOrder (recs ++ suf) = recordOrder recs := by
  rw [recordOrder, List.map_append]
  exact dedup_append_suffix (h.map WalRecord.path)

lemma lastLite_suffix (h : suf <:+ recs) (p : String) :
    lastLite (recs ++ suf) p = lastLite recs p := by
  obtain ⟨pre, rfl⟩ := h
  rw [lastLite, lastLite, List.reverse_append, List.reverse_append, List.findSome?_append,
    List.findSome?_append]
  cases List.findSome? _ suf.reverse with
  | none => rfl
  | some lite => rfl

lemma hotVersion_suffix (h : suf <:+ recs) (p : String) :
    hotVersion (recs ++ suf) p = hotVersion recs p := by
  obtain ⟨pre, rfl⟩ := h
  rw [hotVersion, hotVersion, List.reverse_append, List.reverse_append, List.find?_append,
    List.find?_append]
  cases List.find? _ suf.reverse with
  | none => rfl
  | some r => rfl

end Suffix

/-! ## What one record does to the lists -/

lemma retainOther_eq_self {d : ℕ} {l : List ℕ} (h : d ∉ l) : retainOther d l = l :=
  List.filter_eq_self.mpr fun _ he => decide_eq_true fun hed => h (hed ▸ he)

lemma pushPosting_retainOther (d : ℕ) (l : List ℕ) :
    pushPosting d (retainOther d l) = retainOther d l ++ [d] := by
  refine if_neg fun hlast => ?_
  have hmem := List.mem_of_getLast? hlast
  rw [retainOther, List.mem_filter] at hmem
  simp at hmem

lemma getD_dropDoc (d : ℕ) (v : Option (List ℕ)) :
    (dropDoc d v).getD [] = retainOther d (v.getD []) := by
  cases v with
  | none => rfl
  | some v =>
      by_cases hnil : retainOther d v = []
      · rw [dropDoc, if_pos hnil, Option.getD_some, hnil]
        rfl
      · rw [dropDoc, if_neg hnil]
        rfl

section Step

variable {o : Overlay} {known : Finset String} {recs : List WalRecord}

/-- The list of a trigram, empty when there is none. -/
def Overlay.postings (o : Overlay) (t : ℕ) : List ℕ := (o.tryMap.find? t).getD []

lemma Overlay.Inv.mem_postings (h : o.Inv known) {t d : ℕ} :
    d ∈ o.postings t ↔ ∃ x, o.texts[d]? = some x ∧ t ∈ trigrams x := by
  rw [Overlay.postings, (h.indexed.perm t).mem_iff, mem_docsWith]

lemma Overlay.Inv.lt_of_mem_postings (h : o.Inv known) {t d : ℕ} (hd : d ∈ o.postings t) :
    d < o.paths.length := by
  obtain ⟨x, hx, -⟩ := h.mem_postings.mp hd
  have hlt := (List.getElem?_eq_some_iff.mp hx).1
  rwa [Overlay.texts, List.length_map, h.length_contents] at hlt

/-- Removing a slot's postings takes it off every list. -/
lemma Overlay.Inv.postings_removed (h : o.Inv known) {d : ℕ} (hd : d < o.paths.length) (t : ℕ) :
    (o.removeDocPostings d).postings t = retainOther d (o.postings t) := by
  have hlen : d < o.texts.length := by
    rw [Overlay.texts, List.length_map, h.length_contents]
    exact hd
  have htext := List.getElem?_eq_getElem hlen
  rw [Overlay.removeDocPostings, h.docTrigrams_eq, List.getElem?_map, htext]
  change ((List.foldl (removePosting d) o.tryMap (trigrams o.texts[d])).find? t).getD [] = _
  rw [find?_removePostings h.indexed.ascending]
  by_cases ht : t ∈ trigrams o.texts[d]
  · rw [if_pos ht, getD_dropDoc]
    rfl
  · rw [if_neg ht]
    refine (retainOther_eq_self fun hmem => ht ?_).symm
    obtain ⟨x, hx, htx⟩ := h.mem_postings.mp hmem
    rw [htext] at hx
    obtain rfl := Option.some.inj hx
    exact htx

lemma getD_addPostings {m : OrderedMap ℕ (List ℕ)} (hm : m.Ascending) {d : ℕ} {l : List ℕ}
    {t : ℕ} (hl : (m.find? t).getD [] = retainOther d l) (tris : List ℕ) :
    ((addPostings m d tris).find? t).getD [] =
      retainOther d l ++ if t ∈ tris then [d] else [] := by
  rw [find?_addPostings hm]
  by_cases ht : t ∈ tris
  · rw [if_pos ht, if_pos ht, Option.getD_some, hl, pushPosting_retainOther]
  · rw [if_neg ht, if_neg ht, hl, List.append_nil]

/-- An upsert fills the path's slot, and moves it to the end of the lists of its trigrams. -/
lemma Overlay.Inv.applyRecord_upsert (h : o.Inv known) {path : String} (lite : LiteMeta)
    (content : Option Bytes) (hpath : path ∈ known) (hcard : known.card < 2 ^ 32) :
    ∃ d more, (o.applyRecord (.upsert path lite content)).paths = o.paths ++ more ∧
      (∀ p ∈ more, p = path) ∧ (o.paths ++ more)[d]? = some path ∧ (path ∈ o.paths → more = [] ∧
        (o.applyRecord (.upsert path lite content)).byPath = o.byPath) ∧
      (∀ e p, (o.paths ++ more)[e]? = some p →
        (o.applyRecord (.upsert path lite content)).metas[e]? =
          if e = d then some lite else o.metas[e]?) ∧
      ∀ t, (o.applyRecord (.upsert path lite content)).postings t =
        retainOther d (o.postings t) ++ if t ∈ trigrams (foldedText content) then [d] else [] := by
  rw [Overlay.applyRecord]
  unfold Overlay.writeSlot
  dsimp only
  cases hlook : o.byPath.lookup path with
  | some d =>
      have hd := (h.lookup_iff path d).mp hlook
      obtain ⟨hlt, -⟩ := List.getElem?_eq_some_iff.mp hd
      have hltm : d < o.metas.length := by rw [h.length_metas]; exact hlt
      have herased := h.eraseTombstone path
      obtain ⟨m, hremove, hindexed⟩ := herased.removeDocPostings hlt
      have hpost := herased.postings_removed hlt
      rw [hremove] at hpost
      dsimp only
      rw [hremove]
      dsimp only
      rw [hlook]
      dsimp only
      rw [Overlay.indexSlot_eq]
      refine ⟨d, [], (List.append_nil _).symm, List.forall_mem_nil _, ?_, fun _ => ⟨rfl, rfl⟩,
        fun e p he => ?_, fun t => ?_⟩
      · rw [List.append_nil]
        exact hd
      · by_cases hed : e = d
        · rw [if_pos hed, hed]
          exact List.getElem?_set_self hltm
        · rw [if_neg hed]
          exact List.getElem?_set_ne (Ne.symm hed)
      · exact getD_addPostings hindexed.ascending (hpost t) _
  | none =>
      have hnew := h.lookup_eq_none.mp hlook
      have hlt := h.length_lt hpath hnew
      have hmod : o.paths.length % 2 ^ 32 = o.paths.length := Nat.mod_eq_of_lt (by omega)
      dsimp only
      rw [hmod, List.lookup_cons_self]
      dsimp only
      rw [Overlay.indexSlot_eq]
      refine ⟨o.paths.length, [path], rfl, fun p hp => List.mem_singleton.mp hp, by simp,
        fun hp => absurd hp hnew, fun e p he => ?_, fun t => ?_⟩
      · have hle : e < o.paths.length + 1 := by
          have := (List.getElem?_eq_some_iff.mp he).1
          rwa [List.length_append, List.length_singleton] at this
        dsimp only
        by_cases hed : e = o.paths.length
        · rw [if_pos hed, hed, ← h.length_metas]
          simp
        · rw [if_neg hed, List.getElem?_append_left (by rw [h.length_metas]; omega)]
      · refine getD_addPostings h.indexed.ascending (retainOther_eq_self fun hmem => ?_).symm _
        exact absurd (h.lt_of_mem_postings hmem) (Nat.lt_irrefl _)

/-- A deletion takes the path's slot off every list. -/
lemma Overlay.Inv.applyRecord_delete (h : o.Inv known) (path : String) :
    (o.applyRecord (.delete path)).paths = o.paths ∧
      (o.applyRecord (.delete path)).byPath = o.byPath ∧
      (o.applyRecord (.delete path)).metas = o.metas ∧
      ∀ t, (o.applyRecord (.delete path)).postings t =
        (o.postings t).filter fun d => decide (o.paths[d]? ≠ some path) := by
  rw [Overlay.applyRecord]
  dsimp only
  cases hlook : o.byPath.lookup path with
  | some d =>
      have hd := (h.lookup_iff path d).mp hlook
      obtain ⟨hlt, -⟩ := List.getElem?_eq_some_iff.mp hd
      obtain ⟨m, hremove, -⟩ := h.removeDocPostings hlt
      have hpost := h.postings_removed hlt
      rw [hremove] at hpost
      dsimp only
      rw [hremove]
      refine ⟨rfl, rfl, rfl, fun t => (hpost t).trans (List.filter_congr fun e _ => ?_)⟩
      refine decide_eq_decide.mpr (not_congr ⟨?_, fun he => h.index_unique he hd⟩)
      rintro rfl
      exact hd
  | none =>
      have hnew := h.lookup_eq_none.mp hlook
      refine ⟨rfl, rfl, rfl, fun t => (List.filter_eq_self.mpr fun e _ => ?_).symm⟩
      exact decide_eq_true fun he => hnew (List.mem_of_getElem? he)

/-! ## Slots and lists follow the last records -/

/-- The metadata of a slot is that of the last upsert of its path, and each posting list follows
the order of the last records. -/
structure Overlay.Recent (o : Overlay) (recs : List WalRecord) : Prop where
  metas_eq : ∀ (d : ℕ) (p : String), o.paths[d]? = some p → o.metas[d]? = lastLite recs p
  ordered : ∀ t, ((o.postings t).map fun d => o.paths[d]?).Sublist ((recordOrder recs).map some)

lemma filter_recordOrder (recs : List WalRecord) (path : String) :
    ((recordOrder recs).map some).filter (· ≠ some path) =
      ((recordOrder recs).filter (· ≠ path)).map some := by
  rw [List.filter_map]
  refine congrArg (List.map some) (List.filter_congr fun p _ => ?_)
  simp

lemma Overlay.Recent.filter (h : o.Recent recs) (path : String) (t : ℕ) :
    (((o.postings t).filter fun d => decide (o.paths[d]? ≠ some path)).map
      fun d => o.paths[d]?).Sublist (((recordOrder recs).filter (· ≠ path)).map some) := by
  have hfilter := (h.ordered t).filter (· ≠ some path)
  rwa [filter_recordOrder, List.filter_map] at hfilter

lemma Overlay.Inv.recent_applyRecord (h : o.Inv known)
    (hrec : o.Recent recs) {r : WalRecord} (hr : ∀ p ∈ r.upserted, p ∈ known)
    (hcard : known.card < 2 ^ 32) :
    (o.applyRecord r).Recent (recs ++ [r]) := by
  cases r with
  | upsert path lite content =>
      have hknown : path ∈ known := hr path rfl
      obtain ⟨d, more, hpaths, hmore, hd, -, hmetas, hpost⟩ :=
        h.applyRecord_upsert lite content hknown hcard
      obtain ⟨hinv, -⟩ := h.applyRecord hr hcard
      rw [← hpaths] at hd
      -- the other slots are old ones
      have hother : ∀ e p, (o.paths ++ more)[e]? = some p → e ≠ d →
          p ≠ path ∧ o.paths[e]? = some p := by
        intro e p he hne
        have hp : p ≠ path := by
          rintro rfl
          rw [← hpaths] at he
          exact hne (hinv.index_unique he hd)
        refine ⟨hp, ?_⟩
        rcases Nat.lt_or_ge e o.paths.length with hlt | hge
        · rwa [List.getElem?_append_left hlt] at he
        · rw [List.getElem?_append_right hge] at he
          exact absurd (hmore p (List.mem_of_getElem? he)) hp
      constructor
      · intro e p he
        rw [hpaths] at he
        rw [hmetas e p he, lastLite_concat, WalRecord.liteFor]
        by_cases hed : e = d
        · rw [hpaths, ← hed, he] at hd
          rw [if_pos hed, if_pos (Option.some.inj hd).symm]
          rfl
        · obtain ⟨hp, hslot⟩ := hother e p he hed
          rw [if_neg hed, if_neg (Ne.symm hp), hrec.metas_eq e p hslot]
          rfl
      · intro t
        have hkept : (retainOther d (o.postings t)).map (fun e => (o.paths ++ more)[e]?) =
            ((o.postings t).filter fun e => decide (o.paths[e]? ≠ some path)).map
              fun e => o.paths[e]? := by
          have hslot : ∀ e ∈ o.postings t, (o.paths ++ more)[e]? = o.paths[e]? :=
            fun e he => List.getElem?_append_left (h.lt_of_mem_postings he)
          have hfilter : retainOther d (o.postings t) =
              (o.postings t).filter fun e => decide (o.paths[e]? ≠ some path) := by
            refine List.filter_congr fun e he => decide_eq_decide.mpr (not_congr ?_)
            rw [← hslot e he, ← hpaths]
            exact ⟨fun hed => hed ▸ hd, fun hp => hinv.index_unique hp hd⟩
          rw [hfilter]
          exact List.map_congr_left fun e he => hslot e (List.mem_of_mem_filter he)
        rw [hpost, hpaths, recordOrder_concat, List.map_append, List.map_append, hkept]
        refine List.Sublist.append (hrec.filter path t) ?_
        split
        · rw [List.map_singleton, List.map_singleton, ← hpaths, hd]
          exact List.Sublist.refl _
        · exact List.nil_sublist _
  | delete path =>
      obtain ⟨hpaths, -, hmetas, hpost⟩ := h.applyRecord_delete path
      constructor
      · intro d p hd
        rw [hpaths] at hd
        rw [hmetas, hrec.metas_eq d p hd, lastLite_concat]
        rfl
      · intro t
        rw [hpost, hpaths, recordOrder_concat, List.map_append]
        exact (hrec.filter path t).trans (List.sublist_append_left _ _)

end Step

/-! ## The last records determine the overlay -/

section Replay

variable {o o' : Overlay} {known : Finset String} {recs suf : List WalRecord}

/-- The tombstones are the paths that the overlay calls deleted. -/
lemma Overlay.Inv.mem_tombstones (p : String) :
    p ∈ o.tombstones ↔ o.version p = some none := by
  by_cases hp : p ∈ o.tombstones
  · rw [Overlay.version, if_pos hp]
    exact iff_of_true hp rfl
  · refine iff_of_false hp fun hv => ?_
    rw [Overlay.version, if_neg hp] at hv
    obtain ⟨d, -, hv⟩ := Option.bind_eq_some_iff.mp hv
    obtain ⟨lite, -, hv⟩ := Option.bind_eq_some_iff.mp hv
    obtain ⟨content, -, hv⟩ := Option.map_eq_some_iff.mp hv
    cases hv

lemma Overlay.Inv.content_of_slot (h : o.Inv known) {d : ℕ} {p : String}
    (hd : o.paths[d]? = some p) :
    o.contents[d]? = some ((o.version p).join.bind FileVersion.content) := by
  by_cases hp : p ∈ o.tombstones
  · rw [(Overlay.Inv.mem_tombstones p).mp hp]
    exact h.deleted d p hd hp
  · obtain ⟨v, hv, -, hc⟩ := h.live_of_slot hd hp
    rw [hv, hc]
    rfl

lemma Overlay.Inv.find?_eq (h : o.Inv known) (t : ℕ) :
    o.tryMap.find? t = if o.postings t = [] then none else some (o.postings t) := by
  unfold Overlay.postings
  rcases h.indexed.find?_perm t with ⟨-, hnone⟩ | ⟨hne, l, hl, hperm⟩
  · rw [hnone]
    rfl
  · rw [hl, Option.getD_some, if_neg]
    rintro rfl
    exact hne hperm.symm.eq_nil

lemma Overlay.Inv.nodup_postings (h : o.Inv known) (t : ℕ) : (o.postings t).Nodup :=
  (h.indexed.perm t).nodup_iff.mpr (docsWith_nodup _ t)

/-- The texts and the order of the last records determine the posting lists. -/
lemma Overlay.Inv.postings_eq (h : o.Inv known) (h' : o'.Inv known) (hrec : o.Recent recs)
    (hrec' : o'.Recent recs) (hpaths : o'.paths = o.paths) (htexts : o'.texts = o.texts) (t : ℕ) :
    o'.postings t = o.postings t := by
  have hslots : (o'.postings t).map (fun d => o.paths[d]?) =
      (o.postings t).map fun d => o.paths[d]? := by
    have hordered := hrec'.ordered t
    rw [hpaths] at hordered
    have hnodup : ((recordOrder recs).map some).Nodup :=
      (List.nodup_dedup _).map (Option.some_injective _)
    refine eq_of_sublist hordered (hrec.ordered t) hnodup fun x => ?_
    rw [List.mem_map, List.mem_map]
    refine exists_congr fun d => and_congr_left fun _ => ?_
    rw [h'.mem_postings, h.mem_postings, htexts]
  -- the number of a slot is read back from its path
  have hback : ∀ l : List ℕ, (∀ d ∈ l, d < o.paths.length) →
      (l.map fun d => o.paths[d]?).map (fun p => (p.bind fun q => o.byPath.lookup q).getD 0) =
        l := by
    intro l hl
    rw [List.map_map]
    refine (List.map_congr_left fun d hd => ?_).trans (List.map_id l)
    have hget := List.getElem?_eq_getElem (hl d hd)
    rw [Function.comp_apply, hget, Option.bind_some, (h.lookup_iff _ d).mpr hget]
    rfl
  have hlt : ∀ d ∈ o'.postings t, d < o.paths.length := by
    intro d hd
    rw [← hpaths]
    exact h'.lt_of_mem_postings hd
  rw [← hback _ fun d hd => h.lt_of_mem_postings hd, ← hslots, hback _ hlt]

lemma eq_of_slots {α : Type} {l l' : List α} {paths : List String}
    (hl : l.length = paths.length) (hl' : l'.length = paths.length)
    (h : ∀ (d : ℕ) (p : String), paths[d]? = some p → l[d]? = l'[d]?) : l = l' := by
  refine List.ext_getElem? fun d => ?_
  cases hd : paths[d]? with
  | some p => exact h d p hd
  | none =>
      have hge : paths.length ≤ d := List.getElem?_eq_none_iff.mp hd
      rw [List.getElem?_eq_none (hl ▸ hge), List.getElem?_eq_none (hl' ▸ hge)]

/-- The slots and what the last records say determine the overlay. -/
lemma Overlay.Inv.ext (h : o.Inv known) (h' : o'.Inv known) (hrec : o.Recent recs)
    (hrec' : o'.Recent recs) (hby : o'.byPath = o.byPath) (hpaths : o'.paths = o.paths)
    (hversion : ∀ p, o'.version p = o.version p) : o' = o := by
  have hslot : ∀ (d : ℕ) (p : String), o.paths[d]? = some p → o'.paths[d]? = some p := by
    intro d p hd
    rw [hpaths]
    exact hd
  have hmetas : o'.metas = o.metas := by
    refine eq_of_slots (hpaths ▸ h'.length_metas) h.length_metas fun d p hd => ?_
    rw [hrec'.metas_eq d p (hslot d p hd), hrec.metas_eq d p hd]
  have hcontents : o'.contents = o.contents := by
    refine eq_of_slots (hpaths ▸ h'.length_contents) h.length_contents fun d p hd => ?_
    rw [h'.content_of_slot (hslot d p hd), h.content_of_slot hd, hversion]
  have htexts : o'.texts = o.texts := by rw [Overlay.texts, Overlay.texts, hcontents]
  have hdocs : o'.docTrigrams = o.docTrigrams := by
    rw [h'.docTrigrams_eq, h.docTrigrams_eq, htexts]
  have htombs : o'.tombstones = o.tombstones := by
    refine Finset.ext fun p => ?_
    rw [Overlay.Inv.mem_tombstones, Overlay.Inv.mem_tombstones, hversion]
  have htry : o'.tryMap = o.tryMap := by
    refine OrderedMap.ext h'.indexed.ascending h.indexed.ascending fun t => ?_
    rw [h'.find?_eq, h.find?_eq, h.postings_eq h' hrec hrec' hpaths htexts]
  calc o' = ⟨o'.byPath, o'.paths, o'.metas, o'.contents, o'.tryMap, o'.docTrigrams,
        o'.tombstones⟩ := rfl
    _ = o := by rw [hby, hpaths, hmetas, hcontents, htry, hdocs, htombs]

lemma Overlay.recent_applyRecords (hrecs : ∀ r ∈ recs, ∀ p ∈ r.upserted, p ∈ known)
    (hcard : known.card < 2 ^ 32) : (({} : Overlay).applyRecords recs).Recent recs := by
  induction recs using List.reverseRecOn with
  | nil => exact ⟨fun d p hd => (nomatch hd), fun t => List.Sublist.refl _⟩
  | append_singleton recs r ih =>
      have hinit : ∀ x ∈ recs, ∀ p ∈ x.upserted, p ∈ known :=
        fun x hx => hrecs x (List.mem_append_left _ hx)
      have hinv := (Overlay.version_applyUpserts hinit hcard).1
      rw [Overlay.applyRecords_concat]
      exact hinv.recent_applyRecord (ih hinit)
        (hrecs r (List.mem_append_right _ (List.mem_singleton.mpr rfl))) hcard

/-- Every path that was written has a slot. -/
lemma Overlay.mem_paths_applyRecords (hrecs : ∀ r ∈ recs, ∀ p ∈ r.upserted, p ∈ known)
    (hcard : known.card < 2 ^ 32) {path : String} {lite : LiteMeta} {content : Option Bytes}
    (hmem : .upsert path lite content ∈ recs) :
    path ∈ (({} : Overlay).applyRecords recs).paths := by
  induction recs using List.reverseRecOn with
  | nil => cases hmem
  | append_singleton recs r ih =>
      have hinit : ∀ x ∈ recs, ∀ p ∈ x.upserted, p ∈ known :=
        fun x hx => hrecs x (List.mem_append_left _ hx)
      have hinv := (Overlay.version_applyUpserts hinit hcard).1
      have hr := hrecs r (List.mem_append_right _ (List.mem_singleton.mpr rfl))
      rw [Overlay.applyRecords_concat]
      rcases List.mem_append.mp hmem with hold | hlast
      · have hpath := ih hinit hold
        cases r with
        | upsert p l c =>
            obtain ⟨d, more, hpaths, -⟩ := hinv.applyRecord_upsert l c (hr p rfl) hcard
            rw [hpaths]
            exact List.mem_append_left _ hpath
        | delete p =>
            rw [(hinv.applyRecord_delete p).1]
            exact hpath
      · obtain rfl := List.mem_singleton.mp hlast
        obtain ⟨d, more, hpaths, -, hd, -⟩ :=
          hinv.applyRecord_upsert lite content (hr path rfl) hcard
        rw [hpaths]
        exact List.mem_of_getElem? hd

/-- Records about paths that have slots keep the slots. -/
lemma Overlay.Inv.slots_applyRecords (h : o.Inv known)
    (hrecs : ∀ r ∈ recs, ∀ p ∈ r.upserted, p ∈ known) (hcard : known.card < 2 ^ 32)
    (hslots : ∀ path lite content, .upsert path lite content ∈ recs → path ∈ o.paths) :
    (o.applyRecords recs).byPath = o.byPath ∧ (o.applyRecords recs).paths = o.paths := by
  induction recs generalizing o with
  | nil => exact ⟨rfl, rfl⟩
  | cons r recs ih =>
      have hr := hrecs r (List.mem_cons_self ..)
      have hstep : (o.applyRecord r).byPath = o.byPath ∧ (o.applyRecord r).paths = o.paths := by
        cases r with
        | upsert path lite content =>
            obtain ⟨d, more, hpaths, -, -, hold, -⟩ :=
              h.applyRecord_upsert lite content (hr path rfl) hcard
            obtain ⟨hmore, hby⟩ := hold (hslots path lite content (List.mem_cons_self ..))
            rw [hmore, List.append_nil] at hpaths
            exact ⟨hby, hpaths⟩
        | delete path =>
            obtain ⟨hpaths, hby, -⟩ := h.applyRecord_delete path
            exact ⟨hby, hpaths⟩
      obtain ⟨hby, hpaths⟩ := ih (h.applyRecord hr hcard).1
        (fun x hx => hrecs x (List.mem_cons_of_mem _ hx)) fun path lite content hmem => by
          rw [hstep.2]
          exact hslots path lite content (List.mem_cons_of_mem _ hmem)
      exact ⟨hby.trans hstep.1, hpaths.trans hstep.2⟩

/-- Applying the end of a log once more changes nothing. -/
theorem Overlay.applyRecords_suffix (hsuf : suf <:+ recs)
    (hrecs : ∀ r ∈ recs, ∀ p ∈ r.upserted, p ∈ known) (hcard : known.card < 2 ^ 32) :
    ({} : Overlay).applyRecords (recs ++ suf) = ({} : Overlay).applyRecords recs := by
  have hboth : ∀ r ∈ recs ++ suf, ∀ p ∈ r.upserted, p ∈ known := by
    intro r hr
    rcases List.mem_append.mp hr with hr | hr
    · exact hrecs r hr
    · exact hrecs r (hsuf.subset hr)
  obtain ⟨hinv, hversion⟩ := Overlay.version_applyUpserts hrecs hcard
  obtain ⟨hinv', hversion'⟩ := Overlay.version_applyUpserts hboth hcard
  have hrec := Overlay.recent_applyRecords hrecs hcard
  have hrec' : (({} : Overlay).applyRecords (recs ++ suf)).Recent recs := by
    obtain ⟨hmetas, hordered⟩ := Overlay.recent_applyRecords hboth hcard
    rw [recordOrder_suffix hsuf] at hordered
    refine ⟨fun d p hd => ?_, hordered⟩
    rw [hmetas d p hd, lastLite_suffix hsuf]
  have hslots : (({} : Overlay).applyRecords (recs ++ suf)) =
      (({} : Overlay).applyRecords recs).applyRecords suf := List.foldl_append
  have hkept := hinv.slots_applyRecords (fun r hr => hrecs r (hsuf.subset hr)) hcard
    fun path lite content hmem => Overlay.mem_paths_applyRecords hrecs hcard (hsuf.subset hmem)
  rw [← hslots] at hkept
  refine hinv.ext hinv' hrec hrec' hkept.1 hkept.2 fun p => ?_
  rw [hversion', hversion, hotVersion_suffix hsuf]

end Replay

/-! ## The contract -/

/-- `hits` lists the files that hit, each of them once and with its metadata. -/
structure ListsHits (files : List (String × FileVersion)) (hit : String → FileVersion → Bool)
    (hits : List (String × LiteMeta)) : Prop where
  nodup : (hits.map Prod.fst).Nodup
  mem_iff : ∀ (p : String) (lite : LiteMeta), (p, lite) ∈ hits ↔
    ∃ v, files.lookup p = some v ∧ v.lite = lite ∧ hit p v = true

/-- The overlay is the map of the files that the last records leave.  Its tables name each slot once
and each path once, a posting list holds the slots of live contents with the trigram, without
repetitions and in any order, and the queries answer from that map; which hits a limit keeps depends
on the order of the slots alone. -/
structure Overlay.LastWriterWins (o : Overlay) (recs : List WalRecord) : Prop where
  slot_iff : ∀ (p : String) (d : ℕ), o.byPath.lookup p = some d ↔ o.paths[d]? = some p
  postings_ne_nil : ∀ (t : ℕ) (l : List ℕ), o.tryMap.find? t = some l → l ≠ []
  nodup_postings : ∀ t, (o.postings t).Nodup
  mem_postings : ∀ t d, d ∈ o.postings t ↔ ∃ p v c, o.paths[d]? = some p ∧
    (currentFiles [] recs).lookup p = some v ∧ v.content = some c ∧ t ∈ trigrams (fold c)
  suppresses_iff : ∀ p, o.suppresses p = true ↔ ∃ r ∈ recs, r.path = p
  filenameQuery_eq : ∀ needle caseSensitive basenameOnly, ∃ hits,
    ListsHits (currentFiles [] recs) (fun p _ =>
      termMatches caseSensitive needle (if basenameOnly then baseName p else p)) hits ∧
    ∀ limit, o.filenameQuery needle caseSensitive basenameOnly limit = takeOpt limit hits
  contentQuery_eq : ∀ q caseSensitive, ∃ hits,
    ListsHits (currentFiles [] recs) (fun _ v =>
      (v.content.map (contentMatches (fold q) q caseSensitive)).getD false) hits ∧
    ∀ limit, o.contentQuery (fold q) q caseSensitive limit = .ok (takeOpt limit hits)

section Contract

variable {recs : List WalRecord}

lemma hotVersion_ne_none_iff (recs : List WalRecord) (p : String) :
    hotVersion recs p ≠ none ↔ ∃ r ∈ recs, r.path = p := by
  rw [hotVersion, ne_eq, Option.map_eq_none_iff, List.find?_eq_none]
  simp

lemma currentFiles_lookup_eq_some {p : String} {v : FileVersion} :
    (currentFiles [] recs).lookup p = some v ↔ hotVersion recs p = some (some v) := by
  rw [lookup_currentFiles]
  rcases hotVersion recs p with _ | w
  · simp
  · simp

/-- What holds of the overlay after records, in terms of their last ones. -/
lemma Overlay.Inv.lastWriterWins {o : Overlay} {known : Finset String} (h : o.Inv known)
    (hcard : known.card < 2 ^ 32) (hversion : ∀ p, o.version p = hotVersion recs p) :
    o.LastWriterWins recs where
  slot_iff := h.lookup_iff
  postings_ne_nil t l hl := by
    rw [h.find?_eq] at hl
    split at hl
    · cases hl
    · rename_i hne
      obtain rfl := Option.some.inj hl
      exact hne
  nodup_postings := h.nodup_postings
  mem_postings t d := by
    -- A slot is on the list of a trigram when its text has the trigram; slots without a content
    -- have the empty text, which has none.
    rw [h.mem_postings]
    constructor
    · rintro ⟨x, hx, ht⟩
      rw [Overlay.texts, List.getElem?_map, Option.map_eq_some_iff] at hx
      obtain ⟨content, hcontent, rfl⟩ := hx
      cases content with
      | none =>
          rw [foldedText, Option.map_none, Option.getD_none, trigrams_nil] at ht
          cases ht
      | some c =>
          have hc : o.content d = some c := by rw [Overlay.content, hcontent, Option.join_some]
          obtain ⟨p, v, hp, -, hv, -, hvc⟩ := h.slot_of_content hc
          rw [hversion] at hv
          exact ⟨p, v, c, hp, currentFiles_lookup_eq_some.mpr hv, hvc, ht⟩
    · rintro ⟨p, v, c, hp, hv, hvc, ht⟩
      rw [currentFiles_lookup_eq_some, ← hversion] at hv
      refine ⟨fold c, ?_, ht⟩
      rw [Overlay.texts, List.getElem?_map, h.content_of_slot hp, hv, Option.join_some,
        Option.bind_some, hvc]
      rfl
  suppresses_iff p := by rw [h.suppresses_iff, hversion, hotVersion_ne_none_iff]
  filenameQuery_eq needle caseSensitive basenameOnly := by
    refine ⟨_, ⟨h.nodup_filenameQuery needle caseSensitive basenameOnly, fun p lite => ?_⟩,
      o.filenameQuery_eq_takeOpt needle caseSensitive basenameOnly⟩
    rw [h.mem_filenameQuery, hversion]
    constructor
    · rintro ⟨⟨v, hv, hlite⟩, hhit⟩
      exact ⟨v, currentFiles_lookup_eq_some.mpr hv, hlite, hhit⟩
    · rintro ⟨v, hv, hlite, hhit⟩
      exact ⟨⟨v, currentFiles_lookup_eq_some.mp hv, hlite⟩, hhit⟩
  contentQuery_eq q caseSensitive := by
    obtain ⟨found, hnodup, hfound, hmem⟩ := h.contentQuery_eq hcard (fold q) q caseSensitive
    refine ⟨found, ⟨hnodup, fun p lite => ?_⟩, hfound⟩
    rw [hmem, hversion]
    constructor
    · rintro ⟨v, c, hv, hlite, hvc, hmatch, -⟩
      refine ⟨v, currentFiles_lookup_eq_some.mpr hv, hlite, ?_⟩
      rw [hvc]
      exact hmatch
    · rintro ⟨v, hv, hlite, hhit⟩
      cases hvc : v.content with
      | none =>
          rw [hvc] at hhit
          cases hhit
      | some c =>
          rw [hvc] at hhit
          exact ⟨v, c, currentFiles_lookup_eq_some.mp hv, hlite, hvc, hhit,
            walked_of_subset fun _ => trigrams_subset_of_contentMatches hhit⟩

/-- After any records that write fewer than `2 ^ 32` paths the overlay is the map in which the last
record of each path wins, and applying the end of the log once more leaves the same overlay.  The
second part is what a crash between the truncation of the log and the publication of a build asks
for: a replay repeats records that were already applied. -/
theorem overlay_last_writer_wins (recs : List WalRecord)
    (hcard : (recs.filterMap WalRecord.upserted).toFinset.card < 2 ^ 32) :
    (({} : Overlay).applyRecords recs).LastWriterWins recs ∧
      ∀ suf, suf <:+ recs →
        ({} : Overlay).applyRecords (recs ++ suf) = ({} : Overlay).applyRecords recs := by
  have hrecs : ∀ r ∈ recs, ∀ p ∈ r.upserted,
      p ∈ (recs.filterMap WalRecord.upserted).toFinset :=
    fun r hr p hp => List.mem_toFinset.mpr (List.mem_filterMap.mpr ⟨r, hr, hp⟩)
  obtain ⟨hinv, hversion⟩ := Overlay.version_applyUpserts hrecs hcard
  exact ⟨hinv.lastWriterWins hcard hversion,
    fun suf hsuf => Overlay.applyRecords_suffix hsuf hrecs hcard⟩

/-- A file that is written, deleted and written again, and one that stays deleted. -/
def recreatedLog : List WalRecord :=
  [.upsert "/a" ⟨false, 3, 0⟩ (some [97, 98, 99]), .upsert "/b" ⟨false, 3, 0⟩ none, .delete "/a",
    .delete "/b", .upsert "/a" ⟨false, 4, 1⟩ (some [98, 99, 100, 101])]

theorem overlay_last_writer_wins_recreated :
    (({} : Overlay).applyRecords recreatedLog).LastWriterWins recreatedLog ∧
      ({} : Overlay).applyRecords (recreatedLog ++ recreatedLog.drop 2) =
        ({} : Overlay).applyRecords recreatedLog := by
  obtain ⟨hwins, hreplay⟩ := overlay_last_writer_wins recreatedLog (by decide)
  exact ⟨hwins, hreplay _ (List.drop_suffix 2 _)⟩

end Contract

/-! ## Too many paths -/

/-- An upsert of a new path fills the next slot. -/
lemma Overlay.applyRecord_new {o : Overlay} {path : String} (lite : LiteMeta)
    (content : Option Bytes) (hnew : o.byPath.lookup path = none) :
    (o.applyRecord (.upsert path lite content)).paths = o.paths ++ [path] ∧
      (o.applyRecord (.upsert path lite content)).byPath =
        (path, o.paths.length % 2 ^ 32) :: o.byPath ∧
      (o.applyRecord (.upsert path lite content)).tombstones = o.tombstones.erase path := by
  have hwrite : ({ o with tombstones := o.tombstones.erase path } : Overlay).writeSlot path lite
      content =
      { o with
        tombstones := o.tombstones.erase path
        paths := o.paths ++ [path]
        metas := o.metas ++ [lite]
        contents := o.contents ++ [content]
        docTrigrams := o.docTrigrams ++ [[]]
        byPath := (path, o.paths.length % 2 ^ 32) :: o.byPath } := by
    unfold Overlay.writeSlot
    dsimp only
    rw [hnew]
  rw [Overlay.applyRecord, hwrite]
  dsimp only
  rw [List.lookup_cons_self]
  dsimp only
  rw [Overlay.indexSlot_eq]
  exact ⟨rfl, rfl, rfl⟩

/-- Upserts of different paths fill one slot each. -/
lemma Overlay.paths_applyRecords_upserts (lite : LiteMeta) (content : Option Bytes)
    {paths : List String} (hpaths : paths.Nodup) :
    (({} : Overlay).applyRecords (paths.map fun p => .upsert p lite content)).paths = paths ∧
      ∀ p, p ∉ paths →
        (({} : Overlay).applyRecords (paths.map fun p => .upsert p lite content)).byPath.lookup p =
          none := by
  induction paths using List.reverseRecOn with
  | nil => exact ⟨rfl, fun _ _ => rfl⟩
  | append_singleton paths path ih =>
      obtain ⟨hinit, -, hnew⟩ := List.nodup_append.mp hpaths
      obtain ⟨hslots, hnone⟩ := ih hinit
      have hpath : path ∉ paths := fun h => hnew path h path (List.mem_singleton.mpr rfl) rfl
      obtain ⟨hslots', hby, -⟩ := Overlay.applyRecord_new lite content (hnone path hpath)
      rw [List.map_append, List.map_singleton, Overlay.applyRecords_concat]
      refine ⟨by rw [hslots', hslots], fun p hp => ?_⟩
      have hmem : p ∉ paths ∧ p ≠ path := by simpa using hp
      rw [hby, List.lookup_cons, beq_eq_false_iff_ne.mpr hmem.2]
      exact hnone p hmem.1

/-- The path of the `i`-th new file: `/f` and the digits of `i`, the lowest first. -/
def newPath (i : ℕ) : String :=
  String.ofList ('/' :: 'f' :: (Nat.digits 10 i).map fun d => Char.ofNat (48 + d))

lemma newPath_injective : Function.Injective newPath := by
  intro i j hij
  have hread : ∀ k, (((newPath k).toList.drop 2).map fun c => c.toNat - 48) = Nat.digits 10 k := by
    intro k
    have hdigit : ∀ d < 10, (Char.ofNat (48 + d)).toNat - 48 = d := by decide
    rw [newPath, String.toList_ofList]
    change ((Nat.digits 10 k).map fun d => Char.ofNat (48 + d)).map (fun c => c.toNat - 48) = _
    rw [List.map_map]
    refine (List.map_congr_left fun d hd => ?_).trans (List.map_id _)
    exact hdigit d (Nat.digits_lt_base (by norm_num) hd)
  apply Nat.digits_inj_iff.mp
  rw [← hread i, ← hread j, hij]

/-- The records of `n` new files with the same content. -/
def newFiles (n : ℕ) (lite : LiteMeta) (content : Bytes) : List WalRecord :=
  ((List.range n).map newPath).map fun p => .upsert p lite (some content)

/-- The last record of a new file is its upsert. -/
lemma hotVersion_newFiles {n i : ℕ} (hi : i < n) (lite : LiteMeta) (content : Bytes) :
    hotVersion (newFiles n lite content) (newPath i) = some (some ⟨lite, some content⟩) := by
  induction n with
  | zero => cases hi
  | succ n ih =>
      have hsplit : newFiles (n + 1) lite content =
          newFiles n lite content ++ [.upsert (newPath n) lite (some content)] := by
        rw [newFiles, List.range_succ, List.map_append, List.map_append]
        rfl
      rw [hsplit, hotVersion_concat]
      split
      · rfl
      · rename_i hne
        apply ih
        refine lt_of_le_of_ne (Nat.lt_succ_iff.mp hi) ?_
        rintro rfl
        exact hne rfl

/-- An overlay whose number of slots wraps to zero finds no content shorter than a trigram. -/
lemma Overlay.contentQuery_newFiles {n : ℕ} (hn : n % 2 ^ 32 = 0) (lite : LiteMeta)
    (content : Bytes) {folded : Bytes} (hfolded : folded.length < 3) (original : Bytes)
    (caseSensitive : Bool) (limit : Option ℕ) :
    (({} : Overlay).applyRecords (newFiles n lite content)).contentQuery folded original
      caseSensitive limit = .ok [] := by
  obtain ⟨hslots, -⟩ := Overlay.paths_applyRecords_upserts lite (some content)
    (List.nodup_range.map newPath_injective : ((List.range n).map newPath).Nodup)
  have hnum : (({} : Overlay).applyRecords (newFiles n lite content)).source.csNumDocs = 0 := by
    change (({} : Overlay).applyRecords (newFiles n lite content)).paths.length % 2 ^ 32 = 0
    rw [newFiles, hslots, List.length_map, List.length_range, hn]
  rw [Overlay.contentQuery, candidates, if_pos hfolded, hnum]
  rfl

/-- With `2 ^ 32` new files of one byte the query for that byte finds none of them. -/
theorem full_overlay_not_last_writer_wins :
    (({} : Overlay).applyRecords (newFiles (2 ^ 32) ⟨false, 1, 0⟩ [97])).contentQuery
        (fold [97]) [97] true none = .ok [] ∧
      (currentFiles [] (newFiles (2 ^ 32) ⟨false, 1, 0⟩ [97])).lookup (newPath 7) =
        some ⟨⟨false, 1, 0⟩, some [97]⟩ ∧
      ¬ (({} : Overlay).applyRecords (newFiles (2 ^ 32) ⟨false, 1, 0⟩ [97])).LastWriterWins
        (newFiles (2 ^ 32) ⟨false, 1, 0⟩ [97]) := by
  have hnone := Overlay.contentQuery_newFiles (Nat.mod_self (2 ^ 32)) ⟨false, 1, 0⟩ [97]
    (show (fold [97]).length < 3 by decide) [97] true none
  have hfile : (currentFiles [] (newFiles (2 ^ 32) ⟨false, 1, 0⟩ [97])).lookup (newPath 7) =
      some ⟨⟨false, 1, 0⟩, some [97]⟩ :=
    currentFiles_lookup_eq_some.mpr (hotVersion_newFiles (by norm_num) _ _)
  refine ⟨hnone, hfile, fun h => ?_⟩
  obtain ⟨hits, hlists, hquery⟩ := h.contentQuery_eq [97] true
  have hmem := (hlists.mem_iff (newPath 7) ⟨false, 1, 0⟩).mpr ⟨_, hfile, rfl, by decide⟩
  obtain rfl : [] = hits := Except.ok.inj (hnone.symm.trans (hquery none))
  cases hmem

end DeepFinder
