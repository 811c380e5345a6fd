import DeepFinder.Content.Overlay
import DeepFinder.Lib.AssocMap

/-!
# The overlay as a map of versions

What the overlay is for is said by `hotVersion`: the last record of a path decides whether the
path is shadowed, deleted, or present in a version.  `Overlay.Inv` ties the seven fields
together, and `Overlay.version_applyRecords` is the refinement: after any records, the overlay
says about every path what the last record about it says.  The queries are characterised over
that abstract state (`mem_filenameQuery`, `candidates_eq`).
-/

namespace DeepFinder

open ByteString

/-! ## The abstract overlay -/

/-- A version of a file: its metadata, and its content when that is indexed. -/
structure FileVersion where
  lite : LiteMeta
  content : Option Bytes
  deriving DecidableEq, Repr

def WalRecord.version : WalRecord → Option FileVersion
  | .upsert _ lite content => some ⟨lite, content⟩
  | .delete _ => none

/-- The path that a record writes; a deletion takes no slot. -/
def WalRecord.upserted : WalRecord → Option String
  | .upsert path _ _ => some path
  | .delete _ => none

lemma WalRecord.path_of_upserted {r : WalRecord} {p : String} (h : p ∈ r.upserted) :
    r.path = p := by
  cases r with
  | upsert path lite content => exact Option.some.inj h
  | delete path => cases h

/-- What records say about a path: `none` when none is about it, and otherwise the version that
the last one leaves. -/
def hotVersion (recs : List WalRecord) (path : String) : Option (Option FileVersion) :=
  (recs.reverse.find? fun r => decide (r.path = path)).map WalRecord.version

def Overlay.version (o : Overlay) (path : String) : Option (Option FileVersion) :=
  if path ∈ o.tombstones then some none
  else
    (o.byPath.lookup path).bind fun d =>
      (o.metas[d]?).bind fun lite => (o.contents[d]?).map fun content => some ⟨lite, content⟩

lemma hotVersion_concat (recs : List WalRecord) (r : WalRecord) (path : String) :
    hotVersion (recs ++ [r]) path =
      if path = r.path then some r.version else hotVersion recs path := by
  unfold hotVersion
  rw [List.reverse_append, List.reverse_singleton, List.singleton_append, List.find?_cons]
  by_cases h : path = r.path
  · simp [h]
  · simp [h, Ne.symm h]

/-! ## The files and what records make of them -/

def applyToVersions (files : List (String × FileVersion)) : WalRecord → List (String × FileVersion)
  | .upsert path lite content => AssocMap.put path (fun _ => ⟨lite, content⟩) files
  | .delete path => files.filter fun f => decide (f.1 ≠ path)

def currentFiles (files : List (String × FileVersion)) (recs : List WalRecord) :
    List (String × FileVersion) := recs.foldl applyToVersions files

/-- Files that are kept up to date record by record hold what the last record of a path says, and
otherwise what they held. -/
lemma lookup_foldl_records {V : Type} {view : FileVersion → V}
    {step : List (String × V) → WalRecord → List (String × V)}
    (hstep : ∀ files r x, (step files r).lookup x =
      if x = r.path then r.version.map view else files.lookup x)
    (files : List (String × V)) (recs : List WalRecord) (x : String) :
    (recs.foldl step files).lookup x = match hotVersion recs x with
      | none => files.lookup x
      | some v => v.map view := by
  induction recs using List.reverseRecOn with
  | nil => rfl
  | append_singleton recs r ih =>
      rw [List.foldl_append, List.foldl_cons, List.foldl_nil, hstep, hotVersion_concat, ih]
      by_cases hx : x = r.path
      · rw [if_pos hx, if_pos hx]
      · rw [if_neg hx, if_neg hx]

lemma lookup_applyToVersions (files : List (String × FileVersion)) (r : WalRecord) (x : String) :
    (applyToVersions files r).lookup x =
      if x = r.path then r.version.map id else files.lookup x := by
  cases r with
  | upsert path lite content => exact AssocMap.lookup_put ..
  | delete path => exact AssocMap.lookup_without ..

/-- The current files hold what the last record of a path says, and otherwise what they held. -/
lemma lookup_currentFiles (files : List (String × FileVersion)) (recs : List WalRecord)
    (x : String) :
    (currentFiles files recs).lookup x = match hotVersion recs x with
      | none => files.lookup x
      | some v => v := by
  refine (lookup_foldl_records lookup_applyToVersions files recs x).trans ?_
  match hotVersion recs x with
  | none => rfl
  | some none => rfl
  | some (some v) => rfl

/-! ## The invariant -/

def foldedText (content : Option Bytes) : Bytes := (content.map fold).getD []

def Overlay.texts (o : Overlay) : List Bytes := o.contents.map foldedText

/-- The path table numbers the slots, all of whose paths are `known`, and a slot of a deleted path
has no content. -/
structure Overlay.Slots (o : Overlay) (known : Finset String) : Prop where
  length_metas : o.metas.length = o.paths.length
  length_contents : o.contents.length = o.paths.length
  nodup : o.paths.Nodup
  lookup_iff : ∀ (p : String) (d : ℕ), o.byPath.lookup p = some d ↔ o.paths[d]? = some p
  paths_known : ∀ p ∈ o.paths, p ∈ known
  deleted : ∀ (d : ℕ) (p : String), o.paths[d]? = some p → p ∈ o.tombstones →
    o.contents[d]? = some none

/-- The fields agree: the index is an index of the slots' texts. -/
structure Overlay.Inv (o : Overlay) (known : Finset String) : Prop extends o.Slots known where
  docTrigrams_eq : o.docTrigrams = o.texts.map trigrams
  indexed : IndexedSets o.tryMap o.texts

/-- The state between the two halves of an upsert: slot `d` holds the new content, which is not
indexed yet. -/
structure Overlay.Written (o : Overlay) (known : Finset String) (d : ℕ) (content : Option Bytes) :
    Prop extends o.Slots known where
  docTrigrams_set : o.docTrigrams.set d (trigrams (foldedText content)) = o.texts.map trigrams
  indexed : IndexedSets o.tryMap (o.texts.set d [])
  content_eq : o.contents[d]? = some content

section Inv

variable {o : Overlay} {known : Finset String} {d : ℕ} {content : Option Bytes}

lemma Overlay.inv_empty (known : Finset String) : ({} : Overlay).Inv known where
  length_metas := rfl
  length_contents := rfl
  nodup := List.nodup_nil
  lookup_iff _ _ := by simp
  paths_known _ h := nomatch h
  deleted _ _ h := nomatch h
  docTrigrams_eq := rfl
  indexed := IndexedSets.nil

lemma Overlay.indexSlot_eq (o : Overlay) (d : ℕ) (content : Option Bytes) :
    o.indexSlot d content =
      { o with
        tryMap := addPostings o.tryMap d (trigrams (foldedText content))
        docTrigrams := o.docTrigrams.set d (trigrams (foldedText content)) } := by
  cases content with
  | none => simp [Overlay.indexSlot, foldedText, trigrams_nil, addPostings]
  | some c => rfl

/-- The second half of an upsert restores the invariant. -/
lemma Overlay.Written.indexSlot (h : o.Written known d content) :
    (o.indexSlot d content).Inv known := by
  have htext : o.texts[d]? = some (foldedText content) := by
    rw [Overlay.texts, List.getElem?_map, h.content_eq]
    rfl
  obtain ⟨hd, hget⟩ := List.getElem?_eq_some_iff.mp htext
  rw [Overlay.indexSlot_eq]
  refine ⟨⟨h.length_metas, h.length_contents, h.nodup, h.lookup_iff, h.paths_known, h.deleted⟩,
    h.docTrigrams_set, ?_⟩
  have hset : o.texts.set d (foldedText content) = o.texts := by
    rw [← hget]
    exact List.set_getElem_self hd
  have hreplace := h.indexed.replace hd (foldedText content)
  rw [hset] at hreplace
  exact hreplace

lemma Overlay.Inv.removeDocPostings (h : o.Inv known) (hd : d < o.paths.length) :
    ∃ m, o.removeDocPostings d = { o with tryMap := m } ∧ IndexedSets m (o.texts.set d []) := by
  have hlen : d < o.texts.length := by
    rw [Overlay.texts, List.length_map, h.length_contents]
    exact hd
  have htext := List.getElem?_eq_getElem hlen
  refine ⟨(trigrams o.texts[d]).foldl (removePosting d) o.tryMap, ?_, h.indexed.remove htext⟩
  rw [Overlay.removeDocPostings, h.docTrigrams_eq, List.getElem?_map, htext]
  rfl

lemma Overlay.Inv.eraseTombstone (h : o.Inv known) (path : String) :
    ({ o with tombstones := o.tombstones.erase path } : Overlay).Inv known where
  length_metas := h.length_metas
  length_contents := h.length_contents
  nodup := h.nodup
  lookup_iff := h.lookup_iff
  paths_known := h.paths_known
  deleted d p hp ht := h.deleted d p hp (Finset.mem_of_mem_erase ht)
  docTrigrams_eq := h.docTrigrams_eq
  indexed := h.indexed

lemma Overlay.Inv.index_unique (h : o.Inv known) {p : String} {d e : ℕ}
    (hd : o.paths[d]? = some p) (he : o.paths[e]? = some p) : d = e := by
  rw [← h.lookup_iff] at hd he
  rw [hd] at he
  exact Option.some.inj he

lemma Overlay.Inv.lookup_eq_none (h : o.Inv known) {p : String} :
    o.byPath.lookup p = none ↔ p ∉ o.paths := by
  rw [← not_iff_not, not_not, ← ne_eq, Option.ne_none_iff_exists']
  constructor
  · rintro ⟨d, hd⟩
    exact List.mem_of_getElem? ((h.lookup_iff p d).mp hd)
  · intro hp
    obtain ⟨d, hd⟩ := List.mem_iff_getElem?.mp hp
    exact ⟨d, (h.lookup_iff p d).mpr hd⟩

lemma Overlay.Inv.length_lt (h : o.Inv known) {path : String} (hpath : path ∈ known)
    (hnew : path ∉ o.paths) : o.paths.length < known.card := by
  have hsub : (path :: o.paths).toFinset ⊆ known := by
    intro p hp
    rcases List.mem_cons.mp (List.mem_toFinset.mp hp) with rfl | hp
    · exact hpath
    · exact h.paths_known p hp
  have hcard := Finset.card_le_card hsub
  rw [List.toFinset_card_of_nodup (List.nodup_cons.mpr ⟨hnew, h.nodup⟩)] at hcard
  exact hcard

/-- A new path is looked up in the slot behind the last one. -/
lemma Overlay.Inv.lookup_concat (h : o.Inv known) {path : String} (hnew : path ∉ o.paths)
    (p : String) (e : ℕ) : ((path, o.paths.length) :: o.byPath).lookup p = some e ↔
      (o.paths ++ [path])[e]? = some p := by
  rw [List.lookup_cons]
  by_cases hp : p = path
  · subst hp
    have hnone : ∀ k : ℕ, o.paths[k]? ≠ some p := fun k hk => hnew (List.mem_of_getElem? hk)
    rw [beq_self_eq_true]
    constructor
    · intro he
      obtain rfl := Option.some.inj he
      simp
    · intro he
      rcases Nat.lt_trichotomy e o.paths.length with hlt | rfl | hgt
      · rw [List.getElem?_append_left hlt] at he
        exact absurd he (hnone e)
      · rfl
      · rw [List.getElem?_eq_none (by simp; omega)] at he
        cases he
  · rw [beq_eq_false_iff_ne.mpr hp]
    dsimp only
    rw [h.lookup_iff]
    rcases Nat.lt_trichotomy e o.paths.length with hlt | rfl | hgt
    · rw [List.getElem?_append_left hlt]
    · simp [Ne.symm hp]
    · rw [List.getElem?_eq_none (by omega), List.getElem?_eq_none (by simp; omega)]

/-- A path that has a slot is written into it. -/
lemma Overlay.Inv.rewriteSlot (h : o.Inv known) {path : String} (lite : LiteMeta)
    (content : Option Bytes) (hlive : path ∉ o.tombstones)
    (hlook : o.byPath.lookup path = some d) :
    (o.writeSlot path lite content).Written known d content ∧
      (o.writeSlot path lite content).byPath.lookup path = some d ∧
      (o.writeSlot path lite content).metas[d]? = some lite ∧
      (o.writeSlot path lite content).tombstones = o.tombstones ∧
      ∀ p ≠ path, (o.writeSlot path lite content).version p = o.version p := by
  have hd := (h.lookup_iff path d).mp hlook
  obtain ⟨hlt, -⟩ := List.getElem?_eq_some_iff.mp hd
  obtain ⟨m, hremove, hindexed⟩ := h.removeDocPostings hlt
  have hltc : d < o.contents.length := by rw [h.length_contents]; exact hlt
  have hltm : d < o.metas.length := by rw [h.length_metas]; exact hlt
  unfold Overlay.writeSlot
  rw [hlook]
  dsimp only
  rw [hremove]
  refine ⟨⟨⟨?_, ?_, h.nodup, h.lookup_iff, h.paths_known, ?_⟩, ?_, ?_, ?_⟩, hlook, ?_, rfl, ?_⟩
  · rw [List.length_set]
    exact h.length_metas
  · rw [List.length_set]
    exact h.length_contents
  · intro e p he hp
    have hne : d ≠ e := by
      rintro rfl
      rw [hd] at he
      exact hlive (Option.some.inj he ▸ hp)
    rw [List.getElem?_set_ne hne]
    exact h.deleted e p he hp
  · rw [Overlay.texts, List.map_set, List.map_set, h.docTrigrams_eq]
    rfl
  · rw [Overlay.texts, List.map_set, List.set_set]
    exact hindexed
  · exact List.getElem?_set_self hltc
  · exact List.getElem?_set_self hltm
  · intro p hp
    unfold Overlay.version
    dsimp only
    cases hpl : o.byPath.lookup p with
    | none => rfl
    | some e =>
        have hne : d ≠ e := by
          rintro rfl
          rw [(h.lookup_iff p d).mp hpl] at hd
          exact hp (Option.some.inj hd)
        rw [Option.bind_some, Option.bind_some, List.getElem?_set_ne hne,
          List.getElem?_set_ne hne]

/-- A path without a slot is written into a new one. -/
lemma Overlay.Inv.pushSlot (h : o.Inv known) {path : String} (lite : LiteMeta)
    (content : Option Bytes) (hpath : path ∈ known) (hcard : known.card < 2 ^ 32)
    (hlive : path ∉ o.tombstones) (hnew : path ∉ o.paths) :
    (o.writeSlot path lite content).Written known o.paths.length content ∧
      (o.writeSlot path lite content).byPath.lookup path = some o.paths.length ∧
      (o.writeSlot path lite content).metas[o.paths.length]? = some lite ∧
      (o.writeSlot path lite content).tombstones = o.tombstones ∧
      ∀ p ≠ path, (o.writeSlot path lite content).version p = o.version p := by
  -- The path is known and has no slot, so that the slots are fewer than the known paths and the
  -- number of the new one is not cut to 32 bits.
  have hlt := h.length_lt hpath hnew
  have hmod : o.paths.length % 2 ^ 32 = o.paths.length := Nat.mod_eq_of_lt (by omega)
  unfold Overlay.writeSlot
  rw [h.lookup_eq_none.mpr hnew]
  dsimp only
  rw [hmod]
  have htexts : o.texts.length = o.paths.length := by
    rw [Overlay.texts, List.length_map, h.length_contents]
  refine ⟨⟨⟨?_, ?_, ?_, h.lookup_concat hnew, ?_, ?_⟩, ?_, ?_, ?_⟩, ?_, ?_, rfl, ?_⟩
  · simp [h.length_metas]
  · simp [h.length_contents]
  · apply List.Nodup.append h.nodup (List.nodup_singleton path)
    intro p hp hmem
    rw [List.mem_singleton.mp hmem] at hp
    exact hnew hp
  · intro p hp
    rcases List.mem_append.mp hp with hp | hp
    · exact h.paths_known p hp
    · rw [List.mem_singleton.mp hp]
      exact hpath
  · intro e p he hp
    rcases Nat.lt_or_ge e o.paths.length with hlt | hge
    · rw [List.getElem?_append_left hlt] at he
      rw [List.getElem?_append_left (by rw [h.length_contents]; exact hlt)]
      exact h.deleted e p he hp
    · have hmem : p ∈ [path] := by
        rw [List.getElem?_append_right hge] at he
        exact List.mem_of_getElem? he
      rw [List.mem_singleton.mp hmem] at hp
      exact absurd hp hlive
  · have hlen : o.docTrigrams.length = o.paths.length := by
      rw [h.docTrigrams_eq, List.length_map, htexts]
    have hdocs : (o.docTrigrams ++ [[]]).set o.paths.length (trigrams (foldedText content)) =
        o.texts.map trigrams ++ [trigrams (foldedText content)] := by
      rw [← hlen, List.set_append_right _ _ le_rfl, Nat.sub_self, h.docTrigrams_eq]
      rfl
    refine hdocs.trans ?_
    rw [Overlay.texts, Overlay.texts, List.map_append, List.map_append]
    rfl
  · rw [Overlay.texts, List.map_append, ← htexts, Overlay.texts,
      List.set_append_right _ _ le_rfl, Nat.sub_self]
    exact h.indexed.append_nil
  · rw [← h.length_contents]
    simp
  · exact (h.lookup_concat hnew path _).mpr (by simp)
  · rw [← h.length_metas]
    simp
  · intro p hp
    unfold Overlay.version
    dsimp only
    rw [List.lookup_cons, beq_eq_false_iff_ne.mpr hp]
    dsimp only
    cases hpl : o.byPath.lookup p with
    | none => rfl
    | some e =>
        obtain ⟨he, -⟩ := List.getElem?_eq_some_iff.mp ((h.lookup_iff p e).mp hpl)
        rw [Option.bind_some, Option.bind_some,
          List.getElem?_append_left (by rw [h.length_metas]; exact he),
          List.getElem?_append_left (by rw [h.length_contents]; exact he)]

/-- What the first half of an upsert does: it fills slot `d`, the path's old one or the next
free one. -/
lemma Overlay.Inv.writeSlot (h : o.Inv known) {path : String} (lite : LiteMeta)
    (content : Option Bytes) (hpath : path ∈ known) (hcard : known.card < 2 ^ 32)
    (hlive : path ∉ o.tombstones) :
    ∃ d, (o.writeSlot path lite content).Written known d content ∧
      (o.writeSlot path lite content).byPath.lookup path = some d ∧
      (o.writeSlot path lite content).metas[d]? = some lite ∧
      (o.writeSlot path lite content).tombstones = o.tombstones ∧
      ∀ p ≠ path, (o.writeSlot path lite content).version p = o.version p := by
  cases hlook : o.byPath.lookup path with
  | some d => exact ⟨d, h.rewriteSlot lite content hlive hlook⟩
  | none => exact ⟨_, h.pushSlot lite content hpath hcard hlive (h.lookup_eq_none.mp hlook)⟩

/-! ## One record, and a whole log -/

lemma Overlay.version_indexSlot (o : Overlay) (d : ℕ) (content : Option Bytes) (p : String) :
    (o.indexSlot d content).version p = o.version p := by
  rw [Overlay.indexSlot_eq]
  rfl

/-- A record keeps the invariant, and changes what the overlay says about its path only. -/
theorem Overlay.Inv.applyRecord (h : o.Inv known) {r : WalRecord}
    (hr : ∀ p ∈ r.upserted, p ∈ known) (hcard : known.card < 2 ^ 32) :
    (o.applyRecord r).Inv known ∧
      ∀ p, (o.applyRecord r).version p = if p = r.path then some r.version else o.version p := by
  cases r with
  | upsert path lite content =>
      have hknown : path ∈ known := hr path rfl
      have hlive : path ∉ o.tombstones.erase path := Finset.notMem_erase path _
      obtain ⟨d, hwritten, hlook, hmeta, htombs, hother⟩ :=
        (h.eraseTombstone path).writeSlot lite content hknown hcard hlive
      rw [Overlay.applyRecord, hlook]
      refine ⟨hwritten.indexSlot, fun p => ?_⟩
      have hrpath : (WalRecord.upsert path lite content).path = path := rfl
      rw [Overlay.version_indexSlot, hrpath]
      by_cases hp : p = path
      · subst hp
        rw [if_pos rfl, Overlay.version, htombs, if_neg hlive, hlook, Option.bind_some, hmeta,
          Option.bind_some, hwritten.content_eq]
        rfl
      · rw [if_neg hp, hother p hp]
        unfold Overlay.version
        dsimp only
        simp only [Finset.mem_erase, ne_eq, hp, not_false_eq_true, true_and]
  | delete path =>
      rw [Overlay.applyRecord]
      dsimp only
      -- Whether the path has a slot or not, its tombstone is all that says what it is; a slot that
      -- it has is emptied, and no other path's slot is touched.
      have hversion : ∀ o' : Overlay, o'.byPath = o.byPath → o'.tombstones = o.tombstones →
          (∀ (p : String) (e : ℕ), p ≠ path → o.byPath.lookup p = some e →
            o'.metas[e]? = o.metas[e]? ∧ o'.contents[e]? = o.contents[e]?) →
          ∀ p, ({ o' with tombstones := insert path o'.tombstones } : Overlay).version p =
            if p = path then some none else o.version p := by
        intro o' hby htombs hsame p
        unfold Overlay.version
        dsimp only
        by_cases hp : p = path
        · rw [if_pos hp, hp, if_pos (Finset.mem_insert_self ..)]
        · simp only [if_neg hp, Finset.mem_insert, or_iff_right hp, htombs, hby]
          cases hpl : o.byPath.lookup p with
          | none => rfl
          | some e =>
              obtain ⟨hm, hc⟩ := hsame p e hp hpl
              rw [Option.bind_some, Option.bind_some, hm, hc]
      cases hlook : o.byPath.lookup path with
      | none =>
          have hnew := h.lookup_eq_none.mp hlook
          refine ⟨⟨⟨h.length_metas, h.length_contents, h.nodup, h.lookup_iff, h.paths_known, ?_⟩,
            h.docTrigrams_eq, h.indexed⟩, hversion o rfl rfl fun _ _ _ _ => ⟨rfl, rfl⟩⟩
          intro d p hd hp
          rcases Finset.mem_insert.mp hp with rfl | hp
          · exact absurd (List.mem_of_getElem? hd) hnew
          · exact h.deleted d p hd hp
      | some d =>
          have hd := (h.lookup_iff path d).mp hlook
          obtain ⟨hlt, -⟩ := List.getElem?_eq_some_iff.mp hd
          have hltc : d < o.contents.length := by rw [h.length_contents]; exact hlt
          obtain ⟨m, hremove, hindexed⟩ := h.removeDocPostings hlt
          dsimp only
          rw [hremove]
          refine ⟨⟨⟨h.length_metas, ?_, h.nodup, h.lookup_iff, h.paths_known, ?_⟩, ?_, ?_⟩,
            hversion { o with
              tryMap := m
              contents := o.contents.set d none
              docTrigrams := o.docTrigrams.set d [] } rfl rfl ?_⟩
          · rw [List.length_set]
            exact h.length_contents
          · intro e p he hp
            by_cases hde : d = e
            · rw [← hde]
              exact List.getElem?_set_self hltc
            · rw [List.getElem?_set_ne hde]
              rcases Finset.mem_insert.mp hp with rfl | hp
              · exact absurd (h.index_unique hd he) hde
              · exact h.deleted e p he hp
          · rw [Overlay.texts, List.map_set, List.map_set, h.docTrigrams_eq]
            rfl
          · rw [Overlay.texts, List.map_set]
            exact hindexed
          · intro p e hp hpl
            refine ⟨rfl, List.getElem?_set_ne ?_⟩
            rintro rfl
            rw [(h.lookup_iff p d).mp hpl] at hd
            exact hp (Option.some.inj hd)

lemma Overlay.applyRecords_concat (o : Overlay) (recs : List WalRecord) (r : WalRecord) :
    o.applyRecords (recs ++ [r]) = (o.applyRecords recs).applyRecord r := by
  rw [Overlay.applyRecords, List.foldl_append]
  rfl

/-- After any records that write known paths, the invariant holds and the overlay says about every
path what the last record about it says. -/
theorem Overlay.version_applyUpserts {recs : List WalRecord}
    (hrecs : ∀ r ∈ recs, ∀ p ∈ r.upserted, p ∈ known) (hcard : known.card < 2 ^ 32) :
    (({} : Overlay).applyRecords recs).Inv known ∧
      ∀ p, (({} : Overlay).applyRecords recs).version p = hotVersion recs p := by
  induction recs using List.reverseRecOn with
  | nil => exact ⟨Overlay.inv_empty known, fun _ => rfl⟩
  | append_singleton recs r ih =>
      obtain ⟨hinv, hversion⟩ := ih fun x hx => hrecs x (List.mem_append_left _ hx)
      obtain ⟨hinv', hversion'⟩ :=
        hinv.applyRecord (hrecs r (List.mem_append_right _ (List.mem_singleton.mpr rfl))) hcard
      rw [Overlay.applyRecords_concat]
      refine ⟨hinv', fun p => ?_⟩
      rw [hversion', hotVersion_concat, hversion]

theorem Overlay.version_applyRecords {recs : List WalRecord}
    (hrecs : ∀ r ∈ recs, r.path ∈ known) (hcard : known.card < 2 ^ 32) :
    (({} : Overlay).applyRecords recs).Inv known ∧
      ∀ p, (({} : Overlay).applyRecords recs).version p = hotVersion recs p :=
  Overlay.version_applyUpserts (fun r hr _ hp => WalRecord.path_of_upserted hp ▸ hrecs r hr) hcard

/-! ## What the queries see -/

/-- The live slots and the versions agree. -/
lemma Overlay.Inv.version_eq_some (h : o.Inv known) {p : String} {v : FileVersion} :
    o.version p = some (some v) ↔ ∃ d : ℕ, o.paths[d]? = some p ∧ p ∉ o.tombstones ∧
      o.metas[d]? = some v.lite ∧ o.contents[d]? = some v.content := by
  unfold Overlay.version
  constructor
  · intro hv
    split at hv
    · cases hv
    · rename_i hlive
      obtain ⟨d, hd, hv⟩ := Option.bind_eq_some_iff.mp hv
      obtain ⟨lite, hlite, hv⟩ := Option.bind_eq_some_iff.mp hv
      obtain ⟨content, hcontent, hv⟩ := Option.map_eq_some_iff.mp hv
      obtain rfl := Option.some.inj hv
      exact ⟨d, (h.lookup_iff p d).mp hd, hlive, hlite, hcontent⟩
  · rintro ⟨d, hd, hlive, hlite, hcontent⟩
    rw [if_neg hlive, (h.lookup_iff p d).mpr hd, Option.bind_some, hlite, Option.bind_some,
      hcontent]
    rfl

lemma Overlay.Inv.live_of_slot (h : o.Inv known) {p : String} {d : ℕ} (hd : o.paths[d]? = some p)
    (hlive : p ∉ o.tombstones) : ∃ v, o.version p = some (some v) ∧ o.metas[d]? = some v.lite ∧
      o.contents[d]? = some v.content := by
  obtain ⟨hlt, -⟩ := List.getElem?_eq_some_iff.mp hd
  have hm := List.getElem?_eq_getElem (show d < o.metas.length by rw [h.length_metas]; exact hlt)
  have hc := List.getElem?_eq_getElem
    (show d < o.contents.length by rw [h.length_contents]; exact hlt)
  exact ⟨⟨_, _⟩, h.version_eq_some.mpr ⟨d, hd, hlive, hm, hc⟩, hm, hc⟩

/-- The overlay shadows the paths it says something about. -/
lemma Overlay.Inv.suppresses_iff (h : o.Inv known) (p : String) :
    o.suppresses p = true ↔ o.version p ≠ none := by
  rw [Overlay.suppresses, Bool.or_eq_true, decide_eq_true_eq]
  by_cases hp : p ∈ o.tombstones
  · simp [hp, Overlay.version]
  · rw [or_iff_left hp]
    constructor
    · intro hsome
      obtain ⟨d, hd⟩ := Option.isSome_iff_exists.mp hsome
      obtain ⟨v, hv, -⟩ := h.live_of_slot ((h.lookup_iff p d).mp hd) hp
      rw [hv]
      simp
    · intro hne
      cases hlook : o.byPath.lookup p with
      | none => simp [Overlay.version, hp, hlook] at hne
      | some d => rfl

lemma Overlay.Inv.suppresses_eq_false (h : o.Inv known) (hnone : o.shadowsAnything = false)
    (p : String) : o.suppresses p = false := by
  rw [Overlay.shadowsAnything, Bool.or_eq_false_iff, Bool.not_eq_false', List.isEmpty_iff,
    decide_eq_false_iff_not, not_not] at hnone
  obtain ⟨hpaths, htombs⟩ := hnone
  have hlook : o.byPath.lookup p = none := by
    rw [h.lookup_eq_none, hpaths]
    exact List.not_mem_nil
  simp [Overlay.suppresses, hlook, htombs]

def Overlay.scanHits (o : Overlay) (hit : ℕ → String → Bool) (l : List (String × ℕ)) :
    List (String × LiteMeta) :=
  (l.filter fun e => decide (e.1 ∉ o.tombstones) && hit e.2 e.1).map fun e =>
    (e.1, (o.metas[e.2]?).getD default)

/-- The scan returns the live documents that hit, up to the limit. -/
lemma Overlay.scanDocs_eq (o : Overlay) {limit : Option ℕ} {hit : ℕ → String → Bool}
    {l : List (String × ℕ)} {out : List (String × LiteMeta)}
    (hout : ∀ n, limit = some n → out.length ≤ n) :
    o.scanDocs limit hit l out = takeOpt limit (out ++ o.scanHits hit l) := by
  induction l generalizing out with
  | nil =>
      rw [Overlay.scanHits, List.filter_nil, List.map_nil, List.append_nil, takeOpt_of_le hout]
      rfl
  | cons e l ih =>
      obtain ⟨path, d⟩ := e
      rw [Overlay.scanDocs]
      by_cases hcap : capReached limit out.length = true
      · rw [if_pos hcap, takeOpt_of_capReached hcap, takeOpt_of_le hout]
      · have hroom : ∀ n, limit = some n → out.length + 1 ≤ n := by
          rintro n rfl
          have : ¬ n ≤ out.length := fun h => hcap (decide_eq_true h)
          omega
        rw [if_neg hcap, Overlay.scanHits, List.filter_cons]
        by_cases hdead : path ∈ o.tombstones
        · rw [if_pos hdead, ih hout, if_neg (by simp [hdead])]
          rfl
        · rw [if_neg hdead]
          by_cases hhit : hit d path = true
          · rw [if_pos hhit, if_pos (by simp [hdead, hhit]), ih, List.append_assoc]
            · rfl
            · intro n hn
              have := hroom n hn
              rw [List.length_append, List.length_singleton]
              omega
          · rw [if_neg hhit, if_neg (by simp [hhit]), ih hout]
            rfl

lemma Overlay.scanDocs_nil (o : Overlay) (limit : Option ℕ) (hit : ℕ → String → Bool)
    (l : List (String × ℕ)) : o.scanDocs limit hit l [] = takeOpt limit (o.scanHits hit l) :=
  Overlay.scanDocs_eq o fun n _ => Nat.zero_le n

lemma Overlay.mem_scanHits {hit : ℕ → String → Bool} {l : List (String × ℕ)}
    {x : String × LiteMeta} :
    x ∈ o.scanHits hit l ↔ ∃ d, (x.1, d) ∈ l ∧ x.1 ∉ o.tombstones ∧ hit d x.1 = true ∧
      x.2 = (o.metas[d]?).getD default := by
  rw [Overlay.scanHits, List.mem_map]
  constructor
  · rintro ⟨⟨path, d⟩, he, rfl⟩
    obtain ⟨hmem, hlive⟩ := List.mem_filter.mp he
    obtain ⟨hlive, hhit⟩ := Bool.and_eq_true_iff.mp hlive
    exact ⟨d, hmem, of_decide_eq_true hlive, hhit, rfl⟩
  · rintro ⟨d, hmem, hlive, hhit, hlite⟩
    refine ⟨(x.1, d), List.mem_filter.mpr ⟨hmem, ?_⟩, Prod.ext rfl hlite.symm⟩
    rw [hhit, Bool.and_true]
    exact decide_eq_true hlive

lemma Overlay.Inv.nodup_scanHits (h : o.Inv known) (hit : ℕ → String → Bool) :
    ((o.scanHits hit o.paths.zipIdx).map Prod.fst).Nodup := by
  have hfst : (o.scanHits hit o.paths.zipIdx).map Prod.fst =
      (o.paths.zipIdx.filter fun e => decide (e.1 ∉ o.tombstones) && hit e.2 e.1).map Prod.fst := by
    rw [Overlay.scanHits, List.map_map]
    rfl
  rw [hfst]
  refine List.Nodup.sublist (List.filter_sublist.map Prod.fst) ?_
  rw [List.zipIdx_map_fst]
  exact h.nodup

/-- The filename query returns the live paths that contain the needle, with their metadata. -/
lemma Overlay.Inv.mem_filenameQuery (h : o.Inv known) {needle : String}
    {caseSensitive basenameOnly : Bool} {p : String} {lite : LiteMeta} :
    (p, lite) ∈ o.filenameQuery needle caseSensitive basenameOnly none ↔
      (∃ v, o.version p = some (some v) ∧ v.lite = lite) ∧
        termMatches caseSensitive needle (if basenameOnly then baseName p else p) = true := by
  rw [Overlay.filenameQuery, Overlay.scanDocs_nil, takeOpt, Overlay.mem_scanHits]
  constructor
  · rintro ⟨d, hd, hlive, hhit, hm⟩
    obtain ⟨v, hv, hlite, -⟩ := h.live_of_slot (List.mem_zipIdx_iff_getElem?.mp hd) hlive
    refine ⟨⟨v, hv, ?_⟩, hhit⟩
    rw [hlite, Option.getD_some] at hm
    exact hm.symm
  · rintro ⟨⟨v, hv, rfl⟩, hhit⟩
    obtain ⟨d, hd, hlive, hlite, -⟩ := h.version_eq_some.mp hv
    exact ⟨d, List.mem_zipIdx_iff_getElem?.mpr hd, hlive, hhit, by rw [hlite, Option.getD_some]⟩

lemma Overlay.Inv.length_paths_lt (h : o.Inv known) (hcard : known.card < 2 ^ 32) :
    o.paths.length < 2 ^ 32 := by
  have hsub : o.paths.toFinset ⊆ known := fun p hp => h.paths_known p (List.mem_toFinset.mp hp)
  have hle := Finset.card_le_card hsub
  rw [List.toFinset_card_of_nodup h.nodup] at hle
  omega

/-- A slot with content belongs to a live path. -/
lemma Overlay.Inv.slot_of_content (h : o.Inv known) {d : ℕ} {c : Bytes}
    (hc : o.content d = some c) : ∃ p v, o.paths[d]? = some p ∧ p ∉ o.tombstones ∧
      o.version p = some (some v) ∧ o.metas[d]? = some v.lite ∧ v.content = some c := by
  have hcontent : o.contents[d]? = some (some c) := Option.join_eq_some_iff.mp hc
  obtain ⟨hd, -⟩ := List.getElem?_eq_some_iff.mp hcontent
  rw [h.length_contents] at hd
  have hp := List.getElem?_eq_getElem hd
  have hlive : o.paths[d] ∉ o.tombstones := by
    intro hdead
    rw [h.deleted d _ hp hdead] at hcontent
    cases hcontent
  obtain ⟨v, hv, hlite, hc'⟩ := h.live_of_slot hp hlive
  rw [hcontent] at hc'
  exact ⟨_, v, hp, hlive, hv, hlite, (Option.some.inj hc').symm⟩

/-- Candidate generation over the overlay returns the first `limit` of the slots whose content
matches and is walked. -/
lemma Overlay.Inv.candidates_eq (h : o.Inv known) (hcard : known.card < 2 ^ 32)
    (folded original : Bytes) (caseSensitive : Bool) :
    ∃ ds : List ℕ, ds.Nodup ∧
      (∀ limit, candidates o.source folded original caseSensitive limit =
        .ok (takeOpt limit ds)) ∧
      ∀ d, d ∈ ds ↔ ∃ c, o.content d = some c ∧
        contentMatches folded original caseSensitive c = true ∧
          walked o.texts folded (fold c) = true := by
  have htexts : o.texts.length = o.paths.length := by
    rw [Overlay.texts, List.length_map, h.length_contents]
  -- what verification answers for a slot
  have hverify : ∀ d, o.verify d (if caseSensitive then original else folded) caseSensitive =
      .ok (((o.content d).map (contentMatches folded original caseSensitive)).getD false) := by
    intro d
    unfold Overlay.verify contentMatches
    cases o.content d with
    | none => rfl
    | some c => cases caseSensitive <;> simp [isSome_memmemFind] <;> rintro rfl <;> simp
  have hposting : PostingSetsOf o.source.csPosting o.texts := by
    intro t
    rcases h.indexed.find?_perm t with ⟨hnil, hnone⟩ | ⟨hne, l, hl, hperm⟩
    · exact Or.inl ⟨hnil, congrArg Except.ok hnone⟩
    · exact Or.inr ⟨hne, l, congrArg Except.ok hl, hperm⟩
  have hnum : o.source.csNumDocs = o.texts.length := by
    rw [htexts]
    exact Nat.mod_eq_of_lt (h.length_paths_lt hcard)
  obtain ⟨ds, hds, hperm, -⟩ := candidates_perm hnum hposting (fun d _ => hverify d)
  refine ⟨ds, hperm.nodup_iff.mpr nodup_candidateDocs, hds, fun d => ?_⟩
  rw [hperm.mem_iff, mem_candidateDocs]
  constructor
  · rintro ⟨hhit, x, hx, hwalked⟩
    cases hc : o.content d with
    | none =>
        rw [hc] at hhit
        cases hhit
    | some c =>
        rw [hc] at hhit
        have hcontent : o.contents[d]? = some (some c) := Option.join_eq_some_iff.mp hc
        rw [Overlay.texts, List.getElem?_map, hcontent] at hx
        obtain rfl := Option.some.inj hx
        exact ⟨c, rfl, hhit, hwalked⟩
  · rintro ⟨c, hc, hmatch, hwalked⟩
    have hcontent : o.contents[d]? = some (some c) := Option.join_eq_some_iff.mp hc
    refine ⟨by rw [hc]; exact hmatch, fold c, ?_, hwalked⟩
    rw [Overlay.texts, List.getElem?_map, hcontent]
    rfl

lemma Overlay.filenameQuery_eq_takeOpt (o : Overlay) (needle : String)
    (caseSensitive basenameOnly : Bool) (limit : Option ℕ) :
    o.filenameQuery needle caseSensitive basenameOnly limit =
      takeOpt limit (o.filenameQuery needle caseSensitive basenameOnly none) := by
  rw [filenameQuery, filenameQuery, scanDocs_nil, scanDocs_nil]
  rfl

lemma Overlay.Inv.nodup_filenameQuery (h : o.Inv known) (needle : String)
    (caseSensitive basenameOnly : Bool) :
    ((o.filenameQuery needle caseSensitive basenameOnly none).map Prod.fst).Nodup := by
  rw [Overlay.filenameQuery, Overlay.scanDocs_nil, takeOpt]
  exact h.nodup_scanHits _

/-- What a content query finds before a limit cuts it: every path once, the live versions whose
content matches and is walked. -/
lemma Overlay.Inv.contentQuery_eq (h : o.Inv known) (hcard : known.card < 2 ^ 32)
    (folded original : Bytes) (caseSensitive : Bool) :
    ∃ found : List (String × LiteMeta), (found.map Prod.fst).Nodup ∧
      (∀ limit, o.contentQuery folded original caseSensitive limit = .ok (takeOpt limit found)) ∧
      ∀ x, x ∈ found ↔ ∃ v c, o.version x.1 = some (some v) ∧ v.lite = x.2 ∧
        v.content = some c ∧ contentMatches folded original caseSensitive c = true ∧
          walked o.texts folded (fold c) = true := by
  obtain ⟨ds, hnodup, hds, hmem⟩ := h.candidates_eq hcard folded original caseSensitive
  -- the entry of a slot
  have hslot : ∀ d ∈ ds, ∃ p v c, o.paths[d]? = some p ∧ o.version p = some (some v) ∧
      v.content = some c ∧ contentMatches folded original caseSensitive c = true ∧
      walked o.texts folded (fold c) = true ∧
      ((o.paths[d]?).bind fun path => if path ∈ o.tombstones then none
        else some (path, (o.metas[d]?).getD default)) = some (p, v.lite) := by
    intro d hd
    obtain ⟨c, hc, hmatch, hwalked⟩ := (hmem d).mp hd
    obtain ⟨p, v, hp, hlive, hversion, hmeta, hvc⟩ := h.slot_of_content hc
    refine ⟨p, v, c, hp, hversion, hvc, hmatch, hwalked, ?_⟩
    rw [hp, Option.bind_some, if_neg hlive, hmeta]
    rfl
  refine ⟨ds.filterMap fun d => (o.paths[d]?).bind fun path => if path ∈ o.tombstones then none
    else some (path, (o.metas[d]?).getD default), ?_, fun limit => ?_, fun x => ?_⟩
  · rw [List.map_filterMap]
    refine List.Nodup.filterMap (fun d d' p hd hd' => ?_) hnodup
    have hpath : ∀ e : ℕ, p ∈ ((o.paths[e]?).bind fun path => if path ∈ o.tombstones then none
        else some (path, (o.metas[e]?).getD default)).map Prod.fst → o.paths[e]? = some p := by
      intro e he
      obtain ⟨x, hx, rfl⟩ := Option.map_eq_some_iff.mp he
      obtain ⟨path, hpath, hx⟩ := Option.bind_eq_some_iff.mp hx
      split at hx
      · cases hx
      · obtain rfl := Option.some.inj hx
        exact hpath
    exact h.index_unique (hpath d hd) (hpath d' hd')
  · rw [Overlay.contentQuery, hds, Res.unwrapOr_ok, bind_ok, takeOpt_filterMap_of_isSome]
    · rfl
    · intro d hd
      obtain ⟨p, v, c, -, -, -, -, -, hsome⟩ := hslot d hd
      rw [hsome]
      rfl
  · rw [List.mem_filterMap]
    constructor
    · rintro ⟨d, hd, hx⟩
      obtain ⟨p, v, c, -, hversion, hvc, hmatch, hwalked, hsome⟩ := hslot d hd
      obtain rfl := Option.some.inj (hsome.symm.trans hx)
      exact ⟨v, c, hversion, rfl, hvc, hmatch, hwalked⟩
    · rintro ⟨v, c, hversion, hlite, hvc, hmatch, hwalked⟩
      obtain ⟨d, hd, hlive, hmeta, hcontent⟩ := h.version_eq_some.mp hversion
      have hc : o.content d = some c := by
        rw [Overlay.content, hcontent, hvc]
        rfl
      refine ⟨d, (hmem d).mpr ⟨c, hc, hmatch, hwalked⟩, ?_⟩
      rw [hd, Option.bind_some, if_neg hlive, hmeta, hlite]
      rfl

end Inv

end DeepFinder
