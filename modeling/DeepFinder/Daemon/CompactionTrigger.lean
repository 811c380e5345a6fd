import DeepFinder.Content.OverlayMap
import DeepFinder.Ipc.Bfs
import Mathlib.Data.Set.Card

/-!
# The compaction trigger

The watch loop compacts when the overlay has `compaction_threshold()` slots.  A slot is taken by an
upsert alone, while a deletion shadows its path by a tombstone, so that the deletions of paths that
only the cold layers know are not counted: `compaction_trigger_iff`.

The records may be any, since a compaction is all that clears the overlay, and the threshold is read
from the environment at each batch.  The condition says which sequences of records leave slots and
shadowed paths in step: those in which no path is only ever deleted.
-/

namespace DeepFinder

open ByteString

/-- `str::parse::<usize>`: digits behind an optional plus sign. -/
def parseUsize (cs : List Char) : Option ℕ :=
  let digits := match cs with
    | '+' :: cs => Bfs.parseDigits cs
    | cs => Bfs.parseDigits cs
  digits.filter fun n => n < 2 ^ 64

/-- `compaction_threshold`, of the value of `DEEPFIND_COMPACTION_THRESHOLD`. -/
def compactionThreshold (var : Option String) : ℕ :=
  ((var.bind fun s => parseUsize s.toList).filter fun n => 0 < n).getD 2000

/-- One batch of the loop of `watch::run`: the records are applied, and a compaction starts when
the overlay has grown to the threshold. -/
def watchBatch (threshold : ℕ) (o : Overlay) (recs : List WalRecord) : Overlay × Bool :=
  let o := o.applyRecords recs
  (o, decide (threshold ≤ o.len))

lemma compactionThreshold_pos (var : Option String) : 0 < compactionThreshold var := by
  unfold compactionThreshold
  cases h : (var.bind fun s => parseUsize s.toList).filter fun n => decide (0 < n) with
  | none => exact Nat.zero_lt_succ _
  | some n => exact of_decide_eq_true (Option.filter_eq_some_iff.mp h).2

/-! ## What the overlay keeps of its records -/

def upsertedPaths (recs : List WalRecord) : Finset String :=
  (recs.filterMap WalRecord.upserted).toFinset

def recordedPaths (recs : List WalRecord) : Finset String := (recs.map WalRecord.path).toFinset

/-- The slots are the written paths, and the shadowed paths are the recorded ones. -/
structure Overlay.Tracks (o : Overlay) (recs : List WalRecord) : Prop where
  nodup : o.paths.Nodup
  paths_eq : o.paths.toFinset = upsertedPaths recs
  lookup_iff : ∀ p, (o.byPath.lookup p).isSome = true ↔ p ∈ o.paths
  tombstones_sub : o.tombstones ⊆ recordedPaths recs
  recorded_sub : recordedPaths recs ⊆ o.paths.toFinset ∪ o.tombstones

section Tracks

variable {o : Overlay} {recs : List WalRecord}

lemma Overlay.removeDocPostings_keys (o : Overlay) (d : ℕ) :
    (o.removeDocPostings d).paths = o.paths ∧ (o.removeDocPostings d).byPath = o.byPath ∧
      (o.removeDocPostings d).tombstones = o.tombstones := by
  unfold Overlay.removeDocPostings
  split <;> exact ⟨rfl, rfl, rfl⟩

lemma Overlay.writeSlot_known (o : Overlay) {path : String} (lite : LiteMeta)
    (content : Option Bytes) {d : ℕ} (hold : o.byPath.lookup path = some d) :
    (o.writeSlot path lite content).paths = o.paths ∧
      (o.writeSlot path lite content).byPath = o.byPath ∧
      (o.writeSlot path lite content).tombstones = o.tombstones := by
  unfold Overlay.writeSlot
  rw [hold]
  exact o.removeDocPostings_keys d

/-- An upsert of a path that has a slot. -/
lemma Overlay.applyRecord_known {path : String} (lite : LiteMeta) (content : Option Bytes)
    {d : ℕ} (hold : o.byPath.lookup path = some d) :
    (o.applyRecord (.upsert path lite content)).paths = o.paths ∧
      (o.applyRecord (.upsert path lite content)).byPath = o.byPath ∧
      (o.applyRecord (.upsert path lite content)).tombstones = o.tombstones.erase path := by
  obtain ⟨hpaths, hby, htomb⟩ :=
    ({ o with tombstones := o.tombstones.erase path } : Overlay).writeSlot_known lite content hold
  have hfound := (congrArg (List.lookup path) hby).trans hold
  rw [Overlay.applyRecord, hfound]
  dsimp only
  rw [Overlay.indexSlot_eq]
  exact ⟨hpaths, hby, htomb⟩

/-- A deletion. -/
lemma Overlay.applyRecord_delete (o : Overlay) (path : String) :
    (o.applyRecord (.delete path)).paths = o.paths ∧
      (o.applyRecord (.delete path)).byPath = o.byPath ∧
      (o.applyRecord (.delete path)).tombstones = insert path o.tombstones := by
  rw [Overlay.applyRecord]
  cases o.byPath.lookup path with
  | none => exact ⟨rfl, rfl, rfl⟩
  | some d =>
      obtain ⟨hpaths, hby, htomb⟩ := o.removeDocPostings_keys d
      dsimp only
      exact ⟨hpaths, hby, by rw [htomb]⟩

lemma upsertedPaths_concat (recs : List WalRecord) (r : WalRecord) :
    upsertedPaths (recs ++ [r]) = upsertedPaths recs ∪ r.upserted.toFinset := by
  rw [upsertedPaths, List.filterMap_append, List.toFinset_append, ← upsertedPaths]
  cases r <;> rfl

lemma recordedPaths_concat (recs : List WalRecord) (r : WalRecord) :
    recordedPaths (recs ++ [r]) = insert r.path (recordedPaths recs) := by
  rw [recordedPaths, List.map_append, List.toFinset_append, ← recordedPaths, Finset.union_comm]
  rfl

/-- A deletion adds a tombstone. -/
lemma Overlay.Tracks.delete (h : o.Tracks recs) (path : String) :
    (o.applyRecord (.delete path)).Tracks (recs ++ [.delete path]) := by
  obtain ⟨hpaths, hby, htomb⟩ := o.applyRecord_delete path
  refine ⟨by rw [hpaths]; exact h.nodup, ?_, fun p => by rw [hpaths, hby]; exact h.lookup_iff p,
    ?_, ?_⟩
  · rw [hpaths, h.paths_eq, upsertedPaths_concat]
    exact (Finset.union_empty _).symm
  · rw [htomb, recordedPaths_concat]
    exact Finset.insert_subset_insert _ h.tombstones_sub
  · rw [hpaths, htomb, recordedPaths_concat, Finset.union_insert]
    exact Finset.insert_subset_insert _ h.recorded_sub

/-- An upsert takes the tombstone of its path away, and that one only. -/
lemma Overlay.Tracks.erase_tombstone (h : o.Tracks recs) (path : String) (lite : LiteMeta)
    (content : Option Bytes) :
    o.tombstones.erase path ⊆ recordedPaths (recs ++ [.upsert path lite content]) ∧
      recordedPaths (recs ++ [.upsert path lite content]) ⊆
        insert path (o.paths.toFinset ∪ o.tombstones.erase path) := by
  rw [recordedPaths_concat]
  constructor
  · exact ((Finset.erase_subset _ _).trans h.tombstones_sub).trans (Finset.subset_insert _ _)
  · intro p hp
    by_cases hpp : p = path
    · exact hpp ▸ Finset.mem_insert_self ..
    · have hold := h.recorded_sub ((Finset.mem_insert.mp hp).resolve_left hpp)
      refine Finset.mem_insert_of_mem (Finset.mem_union.mpr ?_)
      exact (Finset.mem_union.mp hold).imp_right fun ht => Finset.mem_erase.mpr ⟨hpp, ht⟩

/-- An upsert of a path with a slot takes no other. -/
lemma Overlay.Tracks.upsert_known (h : o.Tracks recs) {path : String} {d : ℕ} (lite : LiteMeta)
    (content : Option Bytes) (hby : o.byPath.lookup path = some d) :
    (o.applyRecord (.upsert path lite content)).Tracks (recs ++ [.upsert path lite content]) := by
  obtain ⟨hpaths, hkeys, htomb⟩ := Overlay.applyRecord_known lite content hby
  obtain ⟨htombs, hsub⟩ := h.erase_tombstone path lite content
  have hmem : path ∈ o.paths := (h.lookup_iff path).mp (by rw [hby]; rfl)
  refine ⟨by rw [hpaths]; exact h.nodup, ?_,
    fun p => by rw [hpaths, hkeys]; exact h.lookup_iff p, by rw [htomb]; exact htombs, ?_⟩
  · rw [hpaths, h.paths_eq, upsertedPaths_concat]
    refine (Finset.union_eq_left.mpr ?_).symm
    rw [← h.paths_eq]
    exact Finset.singleton_subset_iff.mpr (List.mem_toFinset.mpr hmem)
  · rw [hpaths, htomb]
    refine hsub.trans (Finset.insert_subset ?_ (Finset.Subset.refl _))
    exact Finset.mem_union_left _ (List.mem_toFinset.mpr hmem)

/-- An upsert of any other path takes a new slot. -/
lemma Overlay.Tracks.upsert_new (h : o.Tracks recs) {path : String} (lite : LiteMeta)
    (content : Option Bytes) (hby : o.byPath.lookup path = none) :
    (o.applyRecord (.upsert path lite content)).Tracks (recs ++ [.upsert path lite content]) := by
  obtain ⟨hpaths, hkeys, htomb⟩ := Overlay.applyRecord_new lite content hby
  obtain ⟨htombs, hsub⟩ := h.erase_tombstone path lite content
  have hmem : path ∉ o.paths := by
    rw [← h.lookup_iff, hby]
    exact Bool.false_ne_true
  refine ⟨?_, ?_, fun p => ?_, by rw [htomb]; exact htombs, ?_⟩
  · rw [hpaths]
    exact List.concat_eq_append ▸ h.nodup.concat hmem
  · rw [hpaths, List.toFinset_append, h.paths_eq, upsertedPaths_concat]
    rfl
  · rw [hpaths, hkeys, List.mem_append, List.mem_singleton, ← h.lookup_iff p,
      AssocMap.lookup_cons]
    by_cases hp : p = path
    · simp [hp]
    · simp [hp]
  · rw [hpaths, htomb, List.toFinset_append]
    refine hsub.trans (Finset.insert_subset (by simp) ?_)
    exact Finset.union_subset_union_left Finset.subset_union_left

lemma Overlay.Tracks.applyRecord (h : o.Tracks recs) (r : WalRecord) :
    (o.applyRecord r).Tracks (recs ++ [r]) := by
  cases r with
  | delete path => exact h.delete path
  | upsert path lite content =>
      cases hby : o.byPath.lookup path with
      | some d => exact h.upsert_known lite content hby
      | none => exact h.upsert_new lite content hby

lemma Overlay.tracks_applyRecords (recs : List WalRecord) :
    (({} : Overlay).applyRecords recs).Tracks recs := by
  induction recs using List.reverseRecOn with
  | nil =>
      exact ⟨List.nodup_nil, rfl, fun p => by simp [Overlay.applyRecords], Finset.empty_subset _,
        Finset.empty_subset _⟩
  | append_singleton recs r ih =>
      rw [Overlay.applyRecords_concat]
      exact ih.applyRecord r

lemma mem_upsertedPaths {p : String} :
    p ∈ upsertedPaths recs ↔ ∃ lite content, .upsert p lite content ∈ recs := by
  rw [upsertedPaths, List.mem_toFinset, List.mem_filterMap]
  constructor
  · rintro ⟨r, hr, hp⟩
    cases r with
    | upsert path lite content =>
        obtain rfl := Option.some.inj hp
        exact ⟨lite, content, hr⟩
    | delete path => cases hp
  · rintro ⟨lite, content, hr⟩
    exact ⟨_, hr, rfl⟩

lemma upsertedPaths_subset (recs : List WalRecord) : upsertedPaths recs ⊆ recordedPaths recs := by
  intro p hp
  obtain ⟨lite, content, hr⟩ := mem_upsertedPaths.mp hp
  exact List.mem_toFinset.mpr (List.mem_map_of_mem hr)

/-- The shadowed paths are the recorded ones. -/
lemma Overlay.Tracks.suppresses_iff (h : o.Tracks recs) (p : String) :
    o.suppresses p = true ↔ p ∈ recordedPaths recs := by
  rw [Overlay.suppresses, Bool.or_eq_true, h.lookup_iff, decide_eq_true_eq]
  constructor
  · rintro (hp | hp)
    · exact upsertedPaths_subset recs (h.paths_eq ▸ List.mem_toFinset.mpr hp)
    · exact h.tombstones_sub hp
  · intro hp
    rcases Finset.mem_union.mp (h.recorded_sub hp) with hp | hp
    · exact Or.inl (List.mem_toFinset.mp hp)
    · exact Or.inr hp

lemma Overlay.Tracks.len_eq (h : o.Tracks recs) : o.len = (upsertedPaths recs).card := by
  rw [← h.paths_eq, List.toFinset_card_of_nodup h.nodup, Overlay.len]

end Tracks

/-! ## The trigger -/

noncomputable def Overlay.shadowed (o : Overlay) : ℕ := {p | o.suppresses p = true}.ncard

lemma Overlay.Tracks.shadowed_eq {o : Overlay} {recs : List WalRecord} (h : o.Tracks recs) :
    o.shadowed = (recordedPaths recs).card := by
  have hset : {p | o.suppresses p = true} = ↑(recordedPaths recs) :=
    Set.ext fun p => (h.suppresses_iff p).trans Finset.mem_coe.symm
  rw [Overlay.shadowed, hset, Set.ncard_coe_finset]

/-- Deletions alone shadow their paths and take no slot. -/
lemma shadowed_deletions (paths : List String) :
    (({} : Overlay).applyRecords (paths.map .delete)).shadowed = paths.toFinset.card ∧
      (({} : Overlay).applyRecords (paths.map .delete)).len = 0 := by
  have h := Overlay.tracks_applyRecords (paths.map .delete)
  have hpaths : (paths.map WalRecord.delete).map WalRecord.path = paths := by
    rw [List.map_map]
    exact List.map_id _
  refine ⟨by rw [h.shadowed_eq, recordedPaths, hpaths], ?_⟩
  rw [h.len_eq, Finset.card_eq_zero, Finset.eq_empty_iff_forall_notMem]
  intro p hp
  obtain ⟨lite, content, hr⟩ := mem_upsertedPaths.mp hp
  obtain ⟨q, -, hq⟩ := List.mem_map.mp hr
  cases hq

/-- After a batch, the length of the overlay is the number of the paths that it shadows, and
shadowing as many as the threshold starts a compaction, exactly when every deleted path has also
been written since the last compaction. -/
theorem compaction_trigger_iff (recs batch : List WalRecord) :
    ((({} : Overlay).applyRecords (recs ++ batch)).len =
        (({} : Overlay).applyRecords (recs ++ batch)).shadowed ∧
      ∀ var, compactionThreshold var ≤ (({} : Overlay).applyRecords (recs ++ batch)).shadowed →
        (watchBatch (compactionThreshold var) (({} : Overlay).applyRecords recs) batch).2 = true) ↔
      ∀ path, .delete path ∈ recs ++ batch →
        ∃ lite content, .upsert path lite content ∈ recs ++ batch := by
  have h := Overlay.tracks_applyRecords (recs ++ batch)
  have hbatch : (({} : Overlay).applyRecords recs).applyRecords batch =
      ({} : Overlay).applyRecords (recs ++ batch) := List.foldl_append.symm
  rw [h.shadowed_eq, h.len_eq]
  have hcard : (upsertedPaths (recs ++ batch)).card = (recordedPaths (recs ++ batch)).card ↔
      ∀ path, .delete path ∈ recs ++ batch →
        ∃ lite content, .upsert path lite content ∈ recs ++ batch := by
    constructor
    · intro heq path hpath
      refine mem_upsertedPaths.mp ?_
      rw [Finset.eq_of_subset_of_card_le (upsertedPaths_subset _) heq.ge]
      exact List.mem_toFinset.mpr (List.mem_map_of_mem hpath)
    · intro hdeleted
      refine congrArg Finset.card ((upsertedPaths_subset _).antisymm fun path hpath => ?_)
      obtain ⟨r, hr, rfl⟩ := List.mem_map.mp (List.mem_toFinset.mp hpath)
      cases r with
      | upsert path lite content => exact mem_upsertedPaths.mpr ⟨lite, content, hr⟩
      | delete path => exact mem_upsertedPaths.mpr (hdeleted path hr)
  rw [← hcard]
  refine and_iff_left_of_imp fun heq var hvar => decide_eq_true ?_
  rw [hbatch, h.len_eq, heq]
  exact hvar

/-- Two deletions of files that only the cold layers know: both are shadowed, and no compaction
starts at a threshold of two. -/
theorem deletions_not_counted :
    compactionThreshold (some "2") = 2 ∧
      (({} : Overlay).applyRecords [.delete "/a", .delete "/b"]).shadowed = 2 ∧
      (({} : Overlay).applyRecords [.delete "/a", .delete "/b"]).len = 0 ∧
      (watchBatch (compactionThreshold (some "2")) {} [.delete "/a", .delete "/b"]).2 = false := by
  have h := shadowed_deletions ["/a", "/b"]
  exact ⟨by decide +kernel, h.1, h.2, by decide +kernel⟩

end DeepFinder
