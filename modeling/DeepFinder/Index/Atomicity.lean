import DeepFinder.Index.Publish
import Mathlib.Data.List.Perm.Basic
import Mathlib.Data.Nat.Digits.Lemmas

/-!
# Where a build may stop

A build stops after any of its writes.  Publication should be all or nothing, but a build reuses the
names of the shards it replaces, and writes the filename database before the manifest:
`publication_atomic_iff` says between which indexes every stop leaves a complete one.

The build is over an index whose files are all whole, and its own index is whole once it has ended:
what can go wrong lies between them.  `PublishSafe` is a condition on the documents and on the
groups of files that the two indexes put into their shards, and it mentions no write.  When only
contents differ, every mixture of old and new shard files has to amount to one of the two; when the
documents differ, the contents may not.
-/

namespace DeepFinder

open ByteString

/-! ## Slot names -/

lemma ofDigits_paddedDigits (n : ℕ) : Nat.ofDigits 10 (paddedDigits n) = n := by
  rw [paddedDigits, Nat.ofDigits_append_replicate_zero, Nat.ofDigits_digits]

lemma paddedDigits_lt {n d : ℕ} (h : d ∈ paddedDigits n) : d < 10 := by
  rcases List.mem_append.mp h with h | h
  · exact Nat.digits_lt_base (by norm_num) h
  · rw [List.eq_of_mem_replicate h]
    norm_num

lemma toList_shardName (id : ℕ) :
    (shardName id).toList = "shard-".toList ++
      ((paddedDigits id).reverse.map fun d => Char.ofNat (48 + d)) ++ ".dfcs".toList := by
  simp only [shardName, String.toList_append, String.toList_ofList]

lemma shardName_injective : Function.Injective shardName := by
  intro i j hij
  have hchars := congrArg String.toList hij
  rw [toList_shardName, toList_shardName] at hchars
  have hmap := List.append_cancel_left (List.append_cancel_right hchars)
  have hread : ∀ k, (((paddedDigits k).reverse.map fun d => Char.ofNat (48 + d)).map
      fun c => c.toNat - 48) = (paddedDigits k).reverse := by
    intro k
    have hdigit : ∀ d < 10, (Char.ofNat (48 + d)).toNat - 48 = d := by decide
    rw [List.map_map]
    refine (List.map_congr_left fun d hd => ?_).trans (List.map_id _)
    exact hdigit d (paddedDigits_lt (List.mem_reverse.mp hd))
  have hdigits := congrArg (List.map fun c : Char => c.toNat - 48) hmap
  rw [hread i, hread j, List.reverse_inj] at hdigits
  rw [← ofDigits_paddedDigits i, hdigits, ofDigits_paddedDigits]

lemma shardName_ne_manifest (id : ℕ) : IndexFile.content (shardName id) ≠ manifestFile := by
  intro h
  have hchars := congrArg String.toList (IndexFile.content.inj h)
  rw [toList_shardName] at hchars
  exact absurd (congrArg List.head? hchars) (by simp)

lemma length_shardWrites (id : ℕ) (shards : List Bytes) :
    (shardWrites id shards).length = shards.length := by
  induction shards generalizing id with
  | nil => rfl
  | cons s shards ih => rw [shardWrites, List.length_cons, ih, List.length_cons]

lemma getElem?_shardWrites (id i : ℕ) (shards : List Bytes) :
    (shardWrites id shards)[i]? =
      (shards[i]?).map fun s => (IndexFile.content (shardName (id + i)), s) := by
  induction shards generalizing id i with
  | nil => rfl
  | cons s shards ih =>
      cases i with
      | zero => rfl
      | succ i =>
          rw [shardWrites, List.getElem?_cons_succ, ih, List.getElem?_cons_succ]
          have hslot : id + 1 + i = id + (i + 1) := by omega
          rw [hslot]

lemma length_finishShards {buildTime id base : ℕ} {groups : List (List ShardFile)}
    {shards : List Bytes} (h : finishShards buildTime id base groups = .ok shards) :
    shards.length = groups.length := by
  induction groups generalizing id base shards with
  | nil =>
      obtain rfl := Except.ok.inj h
      rfl
  | cons g groups ih =>
      obtain ⟨sbytes, -, h⟩ := bind_eq_ok_iff.mp h
      obtain ⟨rest, hrest, h⟩ := bind_eq_ok_iff.mp h
      obtain rfl := Except.ok.inj h
      rw [List.length_cons, List.length_cons, ih hrest]

lemma name_of_mem_shardWrites {shards : List Bytes} {id : ℕ} {n : IndexFile}
    (h : n ∈ (shardWrites id shards).map Prod.fst) :
    ∃ i, i < shards.length ∧ n = .content (shardName (id + i)) := by
  obtain ⟨w, hw, rfl⟩ := List.mem_map.mp h
  obtain ⟨i, hi⟩ := List.mem_iff_getElem?.mp hw
  rw [getElem?_shardWrites, Option.map_eq_some_iff] at hi
  obtain ⟨s, hs, rfl⟩ := hi
  exact ⟨i, (List.getElem?_eq_some_iff.mp hs).1, rfl⟩

lemma nodup_shardWrites (id : ℕ) (shards : List Bytes) :
    ((shardWrites id shards).map Prod.fst).Nodup := by
  induction shards generalizing id with
  | nil => exact List.nodup_nil
  | cons s shards ih =>
      rw [shardWrites, List.map_cons, List.nodup_cons]
      refine ⟨fun hmem => ?_, ih _⟩
      obtain ⟨i, -, hi⟩ := name_of_mem_shardWrites hmem
      have hslot := shardName_injective (IndexFile.content.inj hi)
      omega

def publishWrites (shards : List Bytes) (fnBytes manifest : Bytes) : List (IndexFile × Bytes) :=
  shardWrites 0 shards ++ [(.db, fnBytes), (manifestFile, manifest)]

lemma nodup_publishWrites (shards : List Bytes) (fnBytes manifest : Bytes) :
    ((publishWrites shards fnBytes manifest).map Prod.fst).Nodup := by
  rw [publishWrites, List.map_append, List.nodup_append]
  refine ⟨nodup_shardWrites _ _, by simp [manifestFile], fun n hn m hm => ?_⟩
  obtain ⟨i, -, rfl⟩ := name_of_mem_shardWrites hn
  have hlast : m = .db ∨ m = manifestFile := by simpa using hm
  rcases hlast with rfl | rfl
  · exact IndexFile.noConfusion
  · exact shardName_ne_manifest _

/-- Values read slot by slot, as many as there are slots. -/
lemma forall₂_filterMap_range {α β : Type} {R : α → β → Prop} {read : ℕ → Option α} {l : List β}
    (h : ∀ k b, l[k]? = some b → ∃ a, read k = some a ∧ R a b) :
    List.Forall₂ R ((List.range l.length).filterMap read) l := by
  induction l using List.reverseRecOn with
  | nil => exact List.Forall₂.nil
  | append_singleton l b ih =>
      obtain ⟨a, hread, ha⟩ := h l.length b (by simp)
      rw [List.length_append, List.length_singleton, List.range_succ, List.filterMap_append,
        List.filterMap_cons_some hread, List.filterMap_nil]
      refine List.rel_append (ih fun k b' hb' => h k b' ?_) (.cons ha .nil)
      rw [List.getElem?_append_left (List.getElem?_eq_some_iff.mp hb').1]
      exact hb'

/-! ## What an index on disk holds -/

/-- The disk holds an index: its database opens as `docs`, and its manifest lists shards, slot by
slot, that open as `groups`. -/
structure HoldsIndex (z : Zstd) (d : Disk) (docs : List (String × LiteMeta))
    (groups : List (List ShardFile)) : Prop where
  db_opens : ∃ bytes r, d .db = some bytes ∧ DbReader.open bytes = .ok r ∧ (r.view z).Indexes docs
  manifest_lists : ∃ bytes m, d manifestFile = some bytes ∧ Manifest.decode bytes = some m ∧
    m.shards.map ShardEntry.file = (List.range groups.length).map shardName
  slots_open : ∀ k files, groups[k]? = some files → ∃ bytes r,
    d (.content (shardName k)) = some bytes ∧ ShardReader.open bytes = .ok r ∧
      r.view.Indexes files

/-- Reopening the disk through `DbReader::open` and `load_shard_set` gives these documents in the
database and these contents in the shards. -/
def Reopens (z : Zstd) (d : Disk) (docs : List (String × LiteMeta))
    (groups : List (List ShardFile)) : Prop :=
  (∃ bytes r, d .db = some bytes ∧ DbReader.open bytes = .ok r ∧ (r.view z).Indexes docs) ∧
    ShardSetIndexes (loadShardSet d) groups

/-- Reopening the disk gives exactly these documents and these contents, in whatever order.  Queries
do not see how contents are divided among shards, so only the contents of all shards together count.
-/
def ReopensAs (z : Zstd) (d : Disk) (docs : List (String × LiteMeta)) (files : List ShardFile) :
    Prop :=
  ∃ docs' groups, Reopens z d docs' groups ∧ docs'.Perm docs ∧ groups.flatten.Perm files

section Reopens

variable {z : Zstd} {d : Disk} {docs docs' : List (String × LiteMeta)}
  {groups groups' : List (List ShardFile)}

lemma HoldsIndex.reopens (h : HoldsIndex z d docs groups) : Reopens z d docs groups := by
  refine ⟨h.db_opens, ?_⟩
  obtain ⟨bytes, m, hread, hdecode, hlists⟩ := h.manifest_lists
  have hset : loadShardSet d =
      (List.range groups.length).filterMap fun k => d (.content (shardName k)) := by
    have hnames := congrArg (List.filterMap fun n => d (.content n)) hlists
    rw [List.filterMap_map, List.filterMap_map] at hnames
    rw [loadShardSet, hread, Option.bind_some, hdecode]
    exact hnames
  rw [hset]
  apply forall₂_filterMap_range
  intro k files hk
  obtain ⟨src, r, hsrc, hopen⟩ := h.slots_open k files hk
  exact ⟨src, hsrc, r, hopen⟩

lemma FilenameDb.Indexes.unique {db : FilenameDb} (h : db.Indexes docs) (h' : db.Indexes docs') :
    docs = docs' := by
  have hlen : docs.length = docs'.length := h.numDocs_eq.symm.trans h'.numDocs_eq
  refine List.ext_getElem hlen fun i hi hi' => ?_
  have hat := List.getElem?_eq_getElem hi
  have hat' := List.getElem?_eq_getElem hi'
  have hpath := (h.path_eq i _ hat).symm.trans (h'.path_eq i _ hat')
  have hmeta := (h.meta_eq i _ hat).symm.trans (h'.meta_eq i _ hat')
  exact Prod.ext (Except.ok.inj hpath) (Except.ok.inj hmeta)

lemma ShardView.Indexes.unique {v : ShardView} {files files' : List ShardFile}
    (h : v.Indexes files) (h' : v.Indexes files') : files = files' := by
  have hlen : files.length = files'.length := h.numDocs_eq.symm.trans h'.numDocs_eq
  refine List.ext_getElem hlen fun i hi hi' => ?_
  have hat := List.getElem?_eq_getElem hi
  have hat' := List.getElem?_eq_getElem hi'
  have hpath := Except.ok.inj ((h.path_eq i _ hat).symm.trans (h'.path_eq i _ hat'))
  have hlite := Except.ok.inj ((h.lite_eq i _ hat).symm.trans (h'.lite_eq i _ hat'))
  have hcontent := Except.ok.inj ((h.content_eq i _ hat).symm.trans (h'.content_eq i _ hat'))
  generalize files[i] = f at *
  generalize files'[i] = f' at *
  cases f
  cases f'
  simp_all

lemma ShardSetIndexes.unique {shards : List Bytes} (h : ShardSetIndexes shards groups)
    (h' : ShardSetIndexes shards groups') : groups = groups' := by
  induction h generalizing groups' with
  | nil =>
      cases h'
      rfl
  | cons hopen _ ih =>
      cases h' with
      | cons hopen' hrest' =>
          obtain ⟨r, hr, hindex⟩ := hopen
          obtain ⟨r', hr', hindex'⟩ := hopen'
          obtain rfl := Except.ok.inj (hr.symm.trans hr')
          rw [hindex.unique hindex', ih hrest']

/-- A disk that holds an index reopens as nothing else. -/
lemma HoldsIndex.reopensAs_iff (h : HoldsIndex z d docs groups) {docs₁ : List (String × LiteMeta)}
    {files₁ : List ShardFile} :
    ReopensAs z d docs₁ files₁ ↔ docs.Perm docs₁ ∧ groups.flatten.Perm files₁ := by
  constructor
  · rintro ⟨docs', groups', ⟨⟨bytes', r', hread', hopen', hindex'⟩, hset'⟩, hdocs, hfiles⟩
    obtain ⟨⟨bytes, r, hread, hopen, hindex⟩, hset⟩ := h.reopens
    obtain rfl := Option.some.inj (hread.symm.trans hread')
    obtain rfl := Except.ok.inj (hopen.symm.trans hopen')
    obtain rfl := hindex.unique hindex'
    obtain rfl := hset.unique hset'
    exact ⟨hdocs, hfiles⟩
  · rintro ⟨hdocs, hfiles⟩
    exact ⟨docs, groups, h.reopens, hdocs, hfiles⟩

end Reopens

/-! ## The disk after a stop -/

/-- The contents of the listed slots when the first `k` of them have been rewritten. -/
def mixedGroups (groups groups' : List (List ShardFile)) (k : ℕ) : List (List ShardFile) :=
  groups'.take (min k groups.length) ++ groups.drop k

/-- A build that may stop after any write leaves the old documents and contents or the new ones. -/
def AllOrNothing (z : Zstd) (old : Disk) (ws : List (IndexFile × Bytes))
    (docs docs' : List (String × LiteMeta)) (files files' : List ShardFile) : Prop :=
  ∀ k, ReopensAs z (Writes.apply (ws.take k) old) docs files ∨
    ReopensAs z (Writes.apply (ws.take k) old) docs' files'

section Stop

variable {groups groups' : List (List ShardFile)}

lemma getElem?_mixedGroups {k : ℕ} (hk : k ≤ groups'.length) (j : ℕ) :
    (mixedGroups groups groups' k)[j]? =
      if j < k ∧ j < groups.length then groups'[j]? else groups[j]? := by
  have hlen : (groups'.take (min k groups.length)).length = min k groups.length := by
    rw [List.length_take]
    omega
  rw [mixedGroups, List.getElem?_append, hlen]
  by_cases hj : j < min k groups.length
  · rw [if_pos hj, if_pos (lt_min_iff.mp hj), List.getElem?_take_of_lt hj]
  · rw [if_neg hj, if_neg fun h => hj (lt_min_iff.mpr h), List.getElem?_drop]
    by_cases hkn : k ≤ groups.length
    · have hidx : k + (j - min k groups.length) = j := by omega
      rw [hidx]
    · rw [List.getElem?_eq_none (by omega), List.getElem?_eq_none (by omega)]

lemma length_mixedGroups {k : ℕ} (hk : k ≤ groups'.length) :
    (mixedGroups groups groups' k).length = groups.length := by
  rw [mixedGroups, List.length_append, List.length_take, List.length_drop]
  omega

variable {z : Zstd} {old : Disk} {docs docs' : List (String × LiteMeta)} {shards : List Bytes}
  {fnBytes manifest : Bytes}

lemma apply_take_slot (j k : ℕ) :
    Writes.apply ((publishWrites shards fnBytes manifest).take k) old (.content (shardName j)) =
      if j < k ∧ j < shards.length then shards[j]? else old (.content (shardName j)) := by
  by_cases hj : j < shards.length
  · have hat : (publishWrites shards fnBytes manifest)[j]? =
        some (.content (shardName j), shards[j]) := by
      rw [publishWrites, List.getElem?_append_left (by rw [length_shardWrites]; exact hj),
        getElem?_shardWrites, List.getElem?_eq_getElem hj, Nat.zero_add]
      rfl
    rw [Writes.apply_take (nodup_publishWrites ..) hat, List.getElem?_eq_getElem hj]
    exact if_congr (by simp [hj]) rfl rfl
  · rw [if_neg fun h => hj h.2]
    apply Writes.apply_of_notMem
    intro hmem
    have hall : IndexFile.content (shardName j) ∈
        (publishWrites shards fnBytes manifest).map Prod.fst :=
      ((List.take_sublist _ _).map Prod.fst).subset hmem
    rw [publishWrites, List.map_append, List.mem_append] at hall
    rcases hall with hslot | hlast
    · obtain ⟨i, hi, hname⟩ := name_of_mem_shardWrites hslot
      have hslot := shardName_injective (IndexFile.content.inj hname)
      omega
    · have hlast : IndexFile.content (shardName j) = .db ∨
          IndexFile.content (shardName j) = manifestFile := by simpa using hlast
      rcases hlast with hdb | hmanifest
      · cases hdb
      · exact shardName_ne_manifest j hmanifest

lemma apply_take_db (k : ℕ) :
    Writes.apply ((publishWrites shards fnBytes manifest).take k) old .db =
      if shards.length < k then some fnBytes else old .db := by
  have hat : (publishWrites shards fnBytes manifest)[shards.length]? = some (.db, fnBytes) := by
    rw [publishWrites, List.getElem?_append_right (by rw [length_shardWrites]),
      length_shardWrites, Nat.sub_self]
    rfl
  exact Writes.apply_take (nodup_publishWrites ..) hat k old

lemma apply_take_manifest (k : ℕ) :
    Writes.apply ((publishWrites shards fnBytes manifest).take k) old manifestFile =
      if shards.length + 1 < k then some manifest else old manifestFile := by
  have hat : (publishWrites shards fnBytes manifest)[shards.length + 1]? =
      some (manifestFile, manifest) := by
    rw [publishWrites, List.getElem?_append_right (by rw [length_shardWrites]; omega),
      length_shardWrites, Nat.add_sub_cancel_left]
    rfl
  exact Writes.apply_take (nodup_publishWrites ..) hat k old

lemma length_publishWrites : (publishWrites shards fnBytes manifest).length = shards.length + 2 := by
  rw [publishWrites, List.length_append, length_shardWrites]
  rfl

section Prefixes

variable (hold : HoldsIndex z old docs groups) (hlen : shards.length = groups'.length)
  (hnew : HoldsIndex z (Writes.apply (publishWrites shards fnBytes manifest) old) docs' groups')

include hlen hnew in
lemma holdsIndex_at_end {k : ℕ} (hk : groups'.length + 2 ≤ k) :
    HoldsIndex z (Writes.apply ((publishWrites shards fnBytes manifest).take k) old) docs'
      groups' := by
  rw [List.take_of_length_le (by rw [length_publishWrites, hlen]; exact hk)]
  exact hnew

include hold hlen hnew in
/-- The slots of the old manifest, read after the first `k` shards. -/
lemma slots_open_mixed {k k' : ℕ} (hk : k ≤ groups'.length) (hk' : min k' groups'.length = k)
    {j : ℕ} {files : List ShardFile} (hj : (mixedGroups groups groups' k)[j]? = some files) :
    ∃ bytes r, Writes.apply ((publishWrites shards fnBytes manifest).take k') old
        (.content (shardName j)) = some bytes ∧ ShardReader.open bytes = .ok r ∧
      r.view.Indexes files := by
  have hend := @apply_take_slot old shards fnBytes manifest j (groups'.length + 2)
  rw [List.take_of_length_le (by rw [length_publishWrites, hlen])] at hend
  rw [getElem?_mixedGroups hk] at hj
  rw [apply_take_slot]
  by_cases hnewSlot : j < k ∧ j < groups.length
  · rw [if_pos hnewSlot] at hj
    rw [if_pos (by omega)] at hend ⊢
    rw [← hend]
    exact hnew.slots_open j files hj
  · rw [if_neg hnewSlot] at hj
    have hlt := (List.getElem?_eq_some_iff.mp hj).1
    rw [if_neg (by omega)]
    exact hold.slots_open j files hj

include hold hlen hnew in
lemma holdsIndex_in_shards {k : ℕ} (hk : k ≤ groups'.length) :
    HoldsIndex z (Writes.apply ((publishWrites shards fnBytes manifest).take k) old) docs
      (mixedGroups groups groups' k) where
  db_opens := by
    rw [apply_take_db, if_neg (by omega)]
    exact hold.db_opens
  manifest_lists := by
    rw [apply_take_manifest, if_neg (by omega), length_mixedGroups hk]
    exact hold.manifest_lists
  slots_open _ _ hj := slots_open_mixed hold hlen hnew hk (min_eq_left hk) hj

include hold hlen hnew in
/-- Before the manifest the disk holds the new database over slots of both builds. -/
lemma holdsIndex_after_db :
    HoldsIndex z (Writes.apply ((publishWrites shards fnBytes manifest).take
      (groups'.length + 1)) old) docs' (mixedGroups groups groups' groups'.length) where
  db_opens := by
    have hend := @apply_take_db old shards fnBytes manifest (groups'.length + 2)
    rw [List.take_of_length_le (by rw [length_publishWrites, hlen]), if_pos (by omega)] at hend
    rw [apply_take_db, if_pos (by omega), ← hend]
    exact hnew.db_opens
  manifest_lists := by
    rw [apply_take_manifest, if_neg (by omega), length_mixedGroups le_rfl]
    exact hold.manifest_lists
  slots_open _ _ hj := slots_open_mixed hold hlen hnew le_rfl (min_eq_right (by omega)) hj

include hold hlen hnew in
/-- Wherever a build stops, the disk holds an index: the old database over slots of both builds, the
new one over them, or the new index. -/
lemma holdsIndex_stop (k : ℕ) :
    (∃ j ≤ groups'.length, HoldsIndex z
      (Writes.apply ((publishWrites shards fnBytes manifest).take k) old) docs
      (mixedGroups groups groups' j)) ∨
    HoldsIndex z (Writes.apply ((publishWrites shards fnBytes manifest).take k) old) docs'
      (mixedGroups groups groups' groups'.length) ∨
    HoldsIndex z (Writes.apply ((publishWrites shards fnBytes manifest).take k) old) docs'
      groups' := by
  rcases Nat.lt_or_ge groups'.length k with hk | hk
  · rcases Nat.eq_or_lt_of_le hk with rfl | hk
    · exact .inr (.inl (holdsIndex_after_db hold hlen hnew))
    · exact .inr (.inr (holdsIndex_at_end hlen hnew hk))
  · exact .inl ⟨k, hk, holdsIndex_in_shards hold hlen hnew hk⟩

end Prefixes

/-! ## Slots that agree -/

/-- The slots that both indexes use hold the same files. -/
def SlotsAgree (groups groups' : List (List ShardFile)) : Prop :=
  ∀ (k : ℕ) (files files' : List ShardFile), groups[k]? = some files → groups'[k]? = some files' →
    files'.Perm files

lemma SlotsAgree.mixedGroups_perm (h : SlotsAgree groups groups') {k : ℕ}
    (hk : k ≤ groups'.length) : (mixedGroups groups groups' k).flatten.Perm groups.flatten := by
  have hdrop : groups.drop k = groups.drop (min k groups.length) := by
    rcases le_total k groups.length with hk | hk
    · rw [min_eq_left hk]
    · rw [min_eq_right hk, List.drop_of_length_le hk, List.drop_length]
  have hsplit := List.take_append_drop (min k groups.length) groups
  conv_rhs => rw [← hsplit]
  rw [mixedGroups, hdrop, List.flatten_append, List.flatten_append]
  apply List.Perm.append_right
  apply List.Perm.flatten_congr
  refine List.forall₂_iff_get.mpr ⟨by simp only [List.length_take]; omega, fun i hi hi' => ?_⟩
  have hlt : i < min k groups.length := by simpa using hi'
  rw [List.get_eq_getElem, List.get_eq_getElem, List.getElem_take, List.getElem_take]
  exact h i _ _ (List.getElem?_eq_getElem (by omega)) (List.getElem?_eq_getElem (by omega))

/-- Slots whose files stay the same one by one agree. -/
lemma slotsAgree_of_mixedGroups_perm
    (h : ∀ k ≤ groups'.length, (mixedGroups groups groups' k).flatten.Perm groups.flatten) :
    SlotsAgree groups groups' := by
  intro k files files' hfiles hfiles'
  obtain ⟨hk, rfl⟩ := List.getElem?_eq_some_iff.mp hfiles
  obtain ⟨hk', rfl⟩ := List.getElem?_eq_some_iff.mp hfiles'
  have hstep := (h (k + 1) hk').trans (h k (Nat.le_of_lt hk')).symm
  rw [mixedGroups, mixedGroups, min_eq_left (Nat.le_of_lt hk), min_eq_left hk,
    List.drop_eq_getElem_cons hk, ← List.take_concat_get' _ _ hk'] at hstep
  simp only [List.flatten_append, List.flatten_cons, List.flatten_nil, List.append_nil,
    List.append_assoc] at hstep
  exact (List.perm_append_right_iff _).mp ((List.perm_append_left_iff _).mp hstep)

end Stop

/-! ## A complete build -/

section Complete

lemma length_utf8_le (s : String) : (utf8 s).length ≤ 4 * s.toList.length := by
  obtain ⟨l, rfl⟩ : ∃ l, s = String.ofList l := ⟨s.toList, (String.ofList_toList ..).symm⟩
  rw [utf8, String.toByteArray_ofList, String.toList_ofList]
  change l.utf8Encode.size ≤ _
  induction l with
  | nil => exact Nat.zero_le _
  | cons c l ih =>
      have hchar : [c].utf8Encode.size = c.utf8Size := by
        rw [List.utf8Encode_singleton]
        simp
      have hsize := c.utf8Size_le_four
      rw [List.utf8Encode_cons, ByteArray.size_append, hchar, List.length_cons]
      omega

lemma length_utf8_shardName {id : ℕ} (h : id < 2 ^ 32) : (utf8 (shardName id)).length < 2 ^ 32 := by
  have hdigits : (Nat.digits 10 id).length ≤ 10 :=
    (Nat.digits_length_le_iff (by norm_num) id).mpr (h.trans (by norm_num))
  have hchars : (shardName id).toList.length ≤ 21 := by
    rw [toList_shardName, List.length_append, List.length_append, List.length_map,
      List.length_reverse, paddedDigits, List.length_append, List.length_replicate]
    have hends : "shard-".toList.length = 6 ∧ ".dfcs".toList.length = 5 := by decide
    omega
  have hbytes := length_utf8_le (shardName id)
  omega

lemma foldl_addFile_ids (files : List ShardFile) (b : ShardBuilder) (id base : ℕ) :
    files.foldl ShardBuilder.addFile { b with shardId := id, baseDocid := base } =
      { files.foldl ShardBuilder.addFile b with shardId := id, baseDocid := base } := by
  induction files generalizing b with
  | nil => rfl
  | cons f files ih => exact ih (b.addFile f)

lemma fileSize_ofFiles (id base : ℕ) (files : List ShardFile) :
    (ShardBuilder.ofFiles id base files).fileSize = (ShardBuilder.ofFiles 0 0 files).fileSize := by
  have hids := foldl_addFile_ids files { shardId := 0, baseDocid := 0 } id base
  rw [ShardBuilder.ofFiles, hids]
  rfl

lemma flatten_shardGroups (cur files : List ShardFile) :
    (shardGroups cur files).flatten = cur ++ files := by
  induction files generalizing cur with
  | nil =>
      rw [shardGroups]
      by_cases hcur : cur = []
      · rw [if_pos hcur, hcur]
        rfl
      · rw [if_neg hcur]
        simp
  | cons f files ih =>
      rw [shardGroups]
      split
      · rw [List.flatten_cons, ih]
        simp
      · rw [ih]
        simp

lemma length_shardGroups_le (cur files : List ShardFile) :
    (shardGroups cur files).length ≤ cur.length + files.length := by
  induction files generalizing cur with
  | nil =>
      rw [shardGroups]
      by_cases hcur : cur = []
      · rw [if_pos hcur]
        exact Nat.zero_le _
      · rw [if_neg hcur]
        exact List.length_pos_iff.mpr hcur
  | cons f files ih =>
      rw [shardGroups]
      split
      · have hrest := ih []
        rw [List.length_nil] at hrest
        simp only [List.length_cons]
        omega
      · have hrest := ih (cur ++ [f])
        rw [List.length_append, List.length_singleton] at hrest
        rw [List.length_cons]
        omega

variable {buildTime : ℕ} {groups : List (List ShardFile)}

lemma finishShards_ok (htime : buildTime < 2 ^ 64)
    (hsize : ∀ g ∈ groups, (ShardBuilder.ofFiles 0 0 g).fileSize < 2 ^ 32) {id base : ℕ}
    (hid : id + groups.length ≤ 2 ^ 32) (hbase : base + groups.flatten.length < 2 ^ 32) :
    ∃ shards, finishShards buildTime id base groups = .ok shards ∧
      ∀ (k : ℕ) (g : List ShardFile), groups[k]? = some g → ∃ src r, shards[k]? = some src ∧
        ShardReader.open src = .ok r ∧ r.view.Indexes g := by
  induction groups generalizing id base with
  | nil => exact ⟨[], rfl, fun k g h => by cases h⟩
  | cons g groups ih =>
      rw [List.length_cons] at hid
      rw [List.flatten_cons, List.length_append] at hbase
      have hfirst := hsize g (List.mem_cons_self ..)
      rw [← fileSize_ofFiles id base] at hfirst
      obtain ⟨src, r, hfinish, -, hopen, hindex⟩ :=
        @ShardBuilder.ofFiles_indexes g id base buildTime (by omega) (by omega) htime hfirst
      obtain ⟨rest, hrest, hall⟩ := @ih (fun g' hg' => hsize g' (List.mem_cons_of_mem _ hg'))
        (id + 1) (base + g.length) (by omega) (by omega)
      refine ⟨src :: rest, by rw [finishShards, hfinish, bind_ok, hrest]; rfl, fun k g' hk => ?_⟩
      rcases k with _ | k
      · obtain rfl := Option.some.inj hk
        exact ⟨src, r, rfl, hopen, hindex⟩
      · exact hall k g' hk

lemma map_file_shardEntries (id base : ℕ) :
    (shardEntries id base groups).map ShardEntry.file =
      (List.range' id groups.length).map shardName := by
  induction groups generalizing id base with
  | nil => rfl
  | cons g groups ih =>
      rw [shardEntries, List.map_cons, ih, List.length_cons, List.range'_succ, List.map_cons]

lemma length_shardEntries (id base : ℕ) :
    (shardEntries id base groups).length = groups.length := by
  have hmap := congrArg List.length (@map_file_shardEntries groups id base)
  simpa using hmap

lemma shardEntries_fit {id base : ℕ} (hid : id + groups.length ≤ 2 ^ 32)
    (hbase : base + groups.flatten.length < 2 ^ 32) : ∀ e ∈ shardEntries id base groups, e.Fits := by
  induction groups generalizing id base with
  | nil => exact fun e he => by cases he
  | cons g groups ih =>
      rw [List.length_cons] at hid
      rw [List.flatten_cons, List.length_append] at hbase
      intro e he
      rcases List.mem_cons.mp he with rfl | he
      · have hid' : id < 2 ^ 32 := by omega
        have hbase' : base < 2 ^ 32 := by omega
        have hnum : g.length < 2 ^ 32 := by omega
        exact ⟨hid', hbase', hnum, length_utf8_shardName hid'⟩
      · exact ih (by omega) (by omega) e he

variable {z : Zstd} {recs : List BuildRec}

/-- What a build finds fits its files: the numbers of records and the sizes of database and shards
are within the widths of the formats.  A build of a tree of ordinary size meets it with room to
spare. -/
structure BuildFits (z : Zstd) (buildTime : ℕ) (recs : List BuildRec) : Prop where
  time_lt : buildTime < 2 ^ 64
  recs_lt : recs.length < 2 ^ 32
  db_fits : (DbBuilder.ofFiles (recDocs recs) buildTime).Fits z
  shards_fit : ∀ g ∈ recGroups recs, (ShardBuilder.ofFiles 0 0 g).fileSize < 2 ^ 32

lemma BuildFits.length_files_lt (h : BuildFits z buildTime recs) :
    (recs.filterMap BuildRec.file?).length < 2 ^ 32 :=
  (List.length_filterMap_le _ _).trans_lt h.recs_lt

lemma length_flatten_recGroups :
    (recGroups recs).flatten.length = (recs.filterMap BuildRec.file?).length := by
  rw [recGroups, flatten_shardGroups, List.nil_append]

lemma length_recGroups_le :
    (recGroups recs).length ≤ (recs.filterMap BuildRec.file?).length := by
  have hle := length_shardGroups_le [] (recs.filterMap BuildRec.file?)
  rwa [List.length_nil, Nat.zero_add] at hle

lemma BuildFits.manifest_fits (h : BuildFits z buildTime recs) :
    (recManifest buildTime recs).Fits := by
  have hfiles := h.length_files_lt
  have hflat := @length_flatten_recGroups recs
  have hgroups := @length_recGroups_le recs
  refine ⟨h.time_lt, hfiles, ?_, shardEntries_fit (by omega) (by omega)⟩
  rw [recManifest, length_shardEntries]
  omega

/-- A build that fits its files leaves, over any disk, the index of what it found. -/
theorem BuildFits.holdsIndex (hz : z.Lawful) (h : BuildFits z buildTime recs) :
    ∃ ws, buildWrites z buildTime recs = .ok ws ∧
      ∀ old, HoldsIndex z (Writes.apply ws old) (recDocs recs) (recGroups recs) := by
  have hfiles := h.length_files_lt
  have hflat := @length_flatten_recGroups recs
  have hgroups := @length_recGroups_le recs
  obtain ⟨fnBytes, rdb, hdb, hopen, hindex⟩ := DbBuilder.finish_indexes hz h.db_fits
    (by rw [recDocs, List.length_map]; exact h.recs_lt)
  obtain ⟨shards, hshards, hslots⟩ := @finishShards_ok buildTime (recGroups recs) h.time_lt
    h.shards_fit 0 0 (by omega) (by omega)
  have hlen := length_finishShards hshards
  refine ⟨publishWrites shards fnBytes (recManifest buildTime recs).encode, ?_, fun old => ?_⟩
  · rw [buildWrites, buildWrites_eq z hfiles, hshards, bind_ok, hdb]
    rfl
  have hall : ∀ f, Writes.apply (publishWrites shards fnBytes
      (recManifest buildTime recs).encode) old f = Writes.apply ((publishWrites shards fnBytes
      (recManifest buildTime recs).encode).take (shards.length + 2)) old f := by
    intro f
    rw [List.take_of_length_le (by rw [length_publishWrites])]
  constructor
  · rw [hall, apply_take_db, if_pos (by omega)]
    exact ⟨fnBytes, rdb, rfl, hopen, hindex⟩
  · rw [hall, apply_take_manifest, if_pos (by omega)]
    refine ⟨_, _, rfl, Manifest.decode_encode h.manifest_fits, ?_⟩
    rw [List.range_eq_range']
    exact map_file_shardEntries 0 0
  · intro k g hk
    obtain ⟨src, r, hsrc, hr⟩ := hslots k g hk
    have hlt := (List.getElem?_eq_some_iff.mp hk).1
    rw [hall, apply_take_slot, if_pos (by omega)]
    exact ⟨src, r, hsrc, hr⟩

end Complete

/-! ## Publication -/

/-- The indexes between which a build may stop anywhere.  When the filename documents change, the
contents must be the same as before, slot by slot where both indexes use the slot; when they stay,
the slots rewritten so far must always amount to the old contents or the new ones. -/
structure PublishSafe (docs docs' : List (String × LiteMeta))
    (groups groups' : List (List ShardFile)) : Prop where
  docs_change : ¬ docs.Perm docs' →
    SlotsAgree groups groups' ∧ groups.flatten.Perm groups'.flatten
  docs_stay : docs.Perm docs' → ∀ k ≤ groups'.length,
    (mixedGroups groups groups' k).flatten.Perm groups.flatten ∨
      (mixedGroups groups groups' k).flatten.Perm groups'.flatten

section Publication

variable {z : Zstd} {old : Disk} {docs : List (String × LiteMeta)}
  {groups : List (List ShardFile)} {buildTime : ℕ} {recs : List BuildRec}
  {ws : List (IndexFile × Bytes)}

lemma exists_publishWrites {z : Zstd} (h : buildWrites z buildTime recs = .ok ws) :
    ∃ shards fnBytes, finishShards buildTime 0 0 (recGroups recs) = .ok shards ∧
      ws = publishWrites shards fnBytes (recManifest buildTime recs).encode := by
  obtain ⟨c, hrun, -⟩ := bind_eq_ok_iff.mp h
  rw [buildWrites, buildWrites_eq z (length_files_of_run hrun)] at h
  obtain ⟨shards, hshards, h⟩ := bind_eq_ok_iff.mp h
  obtain ⟨fnBytes, -, h⟩ := bind_eq_ok_iff.mp h
  exact ⟨shards, fnBytes, hshards, (Except.ok.inj h).symm⟩

/-- Over an index, a build leaves the old documents and contents or its own wherever it stops,
exactly if the two indexes are safe to publish over each other.  Each write is atomic, so a build
can stop between two writes only; `hnew` is that its own index can be read once it is complete. -/
theorem publication_atomic_iff (hold : HoldsIndex z old docs groups)
    (hbuild : buildWrites z buildTime recs = .ok ws)
    (hnew : HoldsIndex z (Writes.apply ws old) (recDocs recs) (recGroups recs)) :
    AllOrNothing z old ws docs (recDocs recs) groups.flatten (recs.filterMap BuildRec.file?) ↔
      PublishSafe docs (recDocs recs) groups (recGroups recs) := by
  have hfiles : recs.filterMap BuildRec.file? = (recGroups recs).flatten := by
    rw [recGroups, flatten_shardGroups, List.nil_append]
  -- Where the build stops, the disk holds an index: among the shard writes, with the old documents
  -- over slots of both builds; behind the database, with the new documents over the same slots; and
  -- behind the manifest, its own.
  obtain ⟨shards, fnBytes, hfinish, rfl⟩ := exists_publishWrites hbuild
  have hlen := length_finishShards hfinish
  have hshards : ∀ k ≤ (recGroups recs).length, _ :=
    fun k hk => holdsIndex_in_shards hold hlen hnew hk
  have hdb := holdsIndex_after_db hold hlen hnew
  rw [hfiles]
  constructor
  · intro hall
    have hin : ∀ k ≤ (recGroups recs).length, _ := fun k hk => by
      have hk' := hall k
      rw [(hshards k hk).reopensAs_iff, (hshards k hk).reopensAs_iff] at hk'
      exact hk'
    have hafter := hall ((recGroups recs).length + 1)
    rw [hdb.reopensAs_iff, hdb.reopensAs_iff] at hafter
    constructor
    · intro hchange
      have hold' : ∀ k ≤ (recGroups recs).length,
          (mixedGroups groups (recGroups recs) k).flatten.Perm groups.flatten := by
        intro k hk
        rcases hin k hk with h | h
        · exact h.2
        · exact absurd h.1 hchange
      refine ⟨slotsAgree_of_mixedGroups_perm hold', ?_⟩
      rcases hafter with h | h
      · exact absurd h.1.symm hchange
      · exact (hold' _ le_rfl).symm.trans h.2
    · intro _ k hk
      rcases hin k hk with h | h
      · exact .inl h.2
      · exact .inr h.2
  · intro hsafe k
    rcases holdsIndex_stop hold hlen hnew k with ⟨j, hj, hstop⟩ | hstop | hstop
    · rw [hstop.reopensAs_iff, hstop.reopensAs_iff]
      by_cases hdocs : docs.Perm (recDocs recs)
      · rcases hsafe.docs_stay hdocs j hj with h | h
        · exact .inl ⟨List.Perm.refl _, h⟩
        · exact .inr ⟨hdocs, h⟩
      · exact .inl ⟨List.Perm.refl _, (hsafe.docs_change hdocs).1.mixedGroups_perm hj⟩
    · rw [hstop.reopensAs_iff, hstop.reopensAs_iff]
      by_cases hdocs : docs.Perm (recDocs recs)
      · rcases hsafe.docs_stay hdocs _ le_rfl with h | h
        · exact .inl ⟨hdocs.symm, h⟩
        · exact .inr ⟨List.Perm.refl _, h⟩
      · obtain ⟨hslots, hsame⟩ := hsafe.docs_change hdocs
        exact .inr ⟨List.Perm.refl _, (hslots.mixedGroups_perm le_rfl).trans hsame⟩
    · exact .inr (hstop.reopensAs_iff.mpr ⟨List.Perm.refl _, List.Perm.refl _⟩)

end Publication

lemma shardGroups_singleton {f : ShardFile} (h : f.content.length < shardFlushBytes) :
    shardGroups [] [f] = [[f]] := by
  rw [shardGroups, if_neg (by simpa using h)]
  rfl

/-- A build that finds one more directory over the index without it. -/
theorem publication_atomic_iff_new_directory :
    ∃ old ws, HoldsIndex .stored old [("/a", ⟨false, 1, 1⟩)] [[⟨"/a", ⟨false, 1, 1⟩, [97]⟩]] ∧
      buildWrites .stored 2 [⟨"/a", false, 1, 1, some [97]⟩, ⟨"/d", true, 0, 2, none⟩] = .ok ws ∧
      AllOrNothing .stored old ws [("/a", ⟨false, 1, 1⟩)]
        [("/a", ⟨false, 1, 1⟩), ("/d", ⟨true, 0, 2⟩)]
        [⟨"/a", ⟨false, 1, 1⟩, [97]⟩] [⟨"/a", ⟨false, 1, 1⟩, [97]⟩] := by
  have hgroups : recGroups [⟨"/a", false, 1, 1, some [97]⟩] =
      [[⟨"/a", ⟨false, 1, 1⟩, [97]⟩]] :=
    shardGroups_singleton (by decide)
  have hgroups' : recGroups [⟨"/a", false, 1, 1, some [97]⟩, ⟨"/d", true, 0, 2, none⟩] =
      [[⟨"/a", ⟨false, 1, 1⟩, [97]⟩]] :=
    shardGroups_singleton (by decide)
  obtain ⟨ws₀, -, hold⟩ := @BuildFits.holdsIndex 1 .stored
    [⟨"/a", false, 1, 1, some [97]⟩] Zstd.stored_lawful
    ⟨by decide, by decide, by decide +kernel,
      by rw [hgroups]; decide +kernel⟩
  obtain ⟨ws, hbuild, hnew⟩ := @BuildFits.holdsIndex 2 .stored
    [⟨"/a", false, 1, 1, some [97]⟩, ⟨"/d", true, 0, 2, none⟩] Zstd.stored_lawful
    ⟨by decide, by decide, by decide +kernel,
      by rw [hgroups']; decide +kernel⟩
  have hold := hold fun _ => none
  rw [hgroups] at hold
  refine ⟨Writes.apply ws₀ fun _ => none, ws, hold, hbuild, ?_⟩
  have hiff := publication_atomic_iff hold hbuild (hnew _)
  rw [hgroups'] at hiff
  have hslots : SlotsAgree [[(⟨"/a", ⟨false, 1, 1⟩, [97]⟩ : ShardFile)]]
      [[⟨"/a", ⟨false, 1, 1⟩, [97]⟩]] := by
    intro k files files' h h'
    rw [Option.some.inj (h.symm.trans h')]
  exact hiff.mpr ⟨fun _ => ⟨hslots, List.Perm.refl _⟩, fun _ k hk =>
    .inl (hslots.mixedGroups_perm hk)⟩

/-- Stopped after its shard, a build of an edited file leaves the old document paired with the new
content. -/
theorem stopped_build_mixes_generations :
    ∃ old ws, buildWrites .stored 2 [⟨"/a", false, 1, 2, some [98]⟩] = .ok ws ∧
      HoldsIndex .stored old [("/a", ⟨false, 1, 1⟩)] [[⟨"/a", ⟨false, 1, 1⟩, [97]⟩]] ∧
      HoldsIndex .stored (Writes.apply ws old) [("/a", ⟨false, 1, 2⟩)]
        [[⟨"/a", ⟨false, 1, 2⟩, [98]⟩]] ∧
      ReopensAs .stored (Writes.apply (ws.take 1) old) [("/a", ⟨false, 1, 1⟩)]
        [⟨"/a", ⟨false, 1, 2⟩, [98]⟩] ∧
      ¬ AllOrNothing .stored old ws [("/a", ⟨false, 1, 1⟩)] [("/a", ⟨false, 1, 2⟩)]
        [⟨"/a", ⟨false, 1, 1⟩, [97]⟩] [⟨"/a", ⟨false, 1, 2⟩, [98]⟩] := by
  have hgroups : recGroups [⟨"/a", false, 1, 1, some [97]⟩] =
      [[⟨"/a", ⟨false, 1, 1⟩, [97]⟩]] :=
    shardGroups_singleton (by decide)
  have hgroups' : recGroups [⟨"/a", false, 1, 2, some [98]⟩] =
      [[⟨"/a", ⟨false, 1, 2⟩, [98]⟩]] :=
    shardGroups_singleton (by decide)
  obtain ⟨ws₀, -, hold⟩ := @BuildFits.holdsIndex 1 .stored
    [⟨"/a", false, 1, 1, some [97]⟩] Zstd.stored_lawful
    ⟨by decide, by decide, by decide +kernel,
      by rw [hgroups]; decide +kernel⟩
  obtain ⟨ws, hbuild, hnew⟩ := @BuildFits.holdsIndex 2 .stored
    [⟨"/a", false, 1, 2, some [98]⟩] Zstd.stored_lawful
    ⟨by decide, by decide, by decide +kernel,
      by rw [hgroups']; decide +kernel⟩
  have hold := hold fun _ => none
  have hnew := hnew (Writes.apply ws₀ fun _ => none)
  rw [hgroups] at hold
  rw [hgroups'] at hnew
  obtain ⟨shards, fnBytes, hfinish, rfl⟩ := exists_publishWrites hbuild
  have hlen := length_finishShards hfinish
  rw [hgroups'] at hlen
  have hstop : HoldsIndex .stored (Writes.apply ((publishWrites shards fnBytes _).take 1)
      (Writes.apply ws₀ fun _ => none)) [("/a", ⟨false, 1, 1⟩)]
      [[⟨"/a", ⟨false, 1, 2⟩, [98]⟩]] := holdsIndex_in_shards hold hlen hnew le_rfl
  refine ⟨_, _, hbuild, hold, hnew, hstop.reopensAs_iff.mpr ⟨List.Perm.refl _, List.Perm.refl _⟩,
    fun hall => ?_⟩
  have hmixed := hall 1
  rw [hstop.reopensAs_iff, hstop.reopensAs_iff] at hmixed
  rcases hmixed with ⟨-, hfiles⟩ | ⟨hdocs, -⟩
  · have hfile := congrArg ShardFile.content (List.singleton_perm_singleton.mp hfiles)
    exact absurd hfile (by decide)
  · have hdoc := congrArg (fun f => f.2.mtime) (List.singleton_perm_singleton.mp hdocs)
    exact absurd hdoc (by decide)

end DeepFinder
