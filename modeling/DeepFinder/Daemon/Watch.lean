import DeepFinder.Index.Walk

/-!
# Change events

df-watch turns a change event on a path into a record of the overlay, which should leave the path
as a full rebuild would.  It looks at the path alone, where the build walk prunes directories, drops
hidden files and does not follow links: `event_matches_rebuild_iff` says when the two agree.

The three parts of `EventFaithful` are about the tree and the event.  An event that is dropped must
find the path as a build would record it.  One that is not dropped must be on a path that exists,
with links followed, exactly when a build admits it, and it must not be a link to a file with other
metadata.  What a build admits is the walk's own notion (`Admitted`), settings and hidden
directories included.
-/

namespace DeepFinder

open ByteString

/-! ## From events to records -/

/-- Where a watcher sees its root, and the data directory of the daemon. -/
structure WatchEnv where
  canonRoot : List Bytes
  dataDir : List Bytes

/-- `is_self_write`. -/
def isSelfWrite (paths : List (List Bytes)) (dataDir : List Bytes) : Bool :=
  paths.any fun p => dataDir.isPrefixOf p

/-- `path_ignored`. -/
def pathIgnored (matcher : Option Gitignore) (fs : FileSystem) (p : List Bytes) : Bool :=
  match matcher with
  | none => false
  | some m => isIgnored m p (((fs.target p).map fun t => t.metadata.isDir).getD false)

def Target.version (t : Target) (maxFileSize : ℕ) : FileVersion :=
  ⟨⟨t.metadata.isDir, t.metadata.stat.size, t.metadata.stat.mtime⟩,
    if t.metadata.isDir then none else (classify (some t) maxFileSize).bytes?⟩

/-- `build_record`. -/
def buildRecord (fs : FileSystem) (p : List Bytes) (maxFileSize : ℕ) : WalRecord :=
  let path := toStringLossy (pathBytes fs.root p)
  match fs.target p with
  | none => .delete path
  | some t => .upsert path (t.version maxFileSize).lite (t.version maxFileSize).content

/-- The records of one event of a watcher, whose paths `lexify` has put below the build root. -/
def watchEvent (w : WatchEnv) (matcher : Option Gitignore) (fs : FileSystem) (maxFileSize : ℕ)
    (event : List (List Bytes)) : List WalRecord :=
  if isSelfWrite (event.map (w.canonRoot ++ ·)) w.dataDir then []
  else (event.filter fun p => !pathIgnored matcher fs p).map fun p => buildRecord fs p maxFileSize

/-! ## Events against rebuilds -/

section Rebuild

variable {w : WatchEnv} {env : WalkEnv} {fs : FileSystem} {p : List Bytes}
  {files : List (String × FileVersion)} {recs : List WalRecord}

def indexedName (fs : FileSystem) (p : List Bytes) : String := toStringLossy (pathBytes fs.root p)

/-- After an event on a path, the index shows it as a rebuild of the same files would.  `files` and
`recs` are what the index was built of and what has been recorded since; the event is a batch of its
own. -/
def EventMatchesRebuild (w : WatchEnv) (env : WalkEnv) (fs : FileSystem) (p : List Bytes)
    (files : List (String × FileVersion)) (recs : List WalRecord) : Prop :=
  (currentFiles files (recs ++
      watchEvent w env.ignoreMatcher fs defaultMaxFileSize [p])).lookup (indexedName fs p) =
    (buildRecAt env {} fs p).map BuildRec.version

/-- A build records the entry: its path is text, neither the settings nor the skip list drop it, and
the walk comes to it. -/
structure Admitted (env : WalkEnv) (fs : FileSystem) (p : List Bytes) (u : FileNode) : Prop
    extends Listed env {} fs p u where
  unskipped : (nodeIsDir u && defaultSkip.contains (toStringLossy (fs.entryName p))) = false
  unignored : env.ignores p (nodeIsDir u) = false
  text : (fromUtf8 (pathBytes fs.root p)).isSome = true

def eventDropped (w : WatchEnv) (env : WalkEnv) (fs : FileSystem) (p : List Bytes) : Bool :=
  isSelfWrite [w.canonRoot ++ p] w.dataDir || pathIgnored env.ignoreMatcher fs p

def nodeVersion (u : FileNode) : FileVersion := (buildRecOf {} "" u).version

/-- When an event serves a path well.  The clauses for an event that makes a record compare one look
at the path, links followed, with what the walk of a build does on its way down to it. -/
structure EventFaithful (w : WatchEnv) (env : WalkEnv) (fs : FileSystem) (p : List Bytes)
    (before : Option FileVersion) : Prop where
  /-- a dropped event finds the path as a build records it -/
  dropped : eventDropped w env fs p = true →
    (∃ u, Admitted env fs p u ∧ before = some (nodeVersion u)) ∨
      ((¬ ∃ u, Admitted env fs p u) ∧ before = none)
  /-- otherwise the path exists, links followed, exactly when a build admits it -/
  present : eventDropped w env fs p = false →
    ((fs.target p).isSome = true ↔ ∃ u, Admitted env fs p u)
  /-- and it is no link to a file with other metadata -/
  same : eventDropped w env fs p = false → ∀ u t, Admitted env fs p u → nodeTarget u = some t →
    (nodeVersion u).lite = (t.version defaultMaxFileSize).lite

lemma nodeVersion_eq {u : FileNode} {t : Target} (ht : nodeTarget u = some t)
    (hlite : (nodeVersion u).lite = (t.version defaultMaxFileSize).lite) :
    nodeVersion u = t.version defaultMaxFileSize := by
  have hdir : nodeIsDir u = t.metadata.isDir := congrArg LiteMeta.isDir hlite
  have hcontent : (nodeVersion u).content = (t.version defaultMaxFileSize).content := by
    change (if nodeIsDir u then none else (classify (nodeTarget u) _).bytes?) = _
    rw [hdir, ht]
    rfl
  calc nodeVersion u = ⟨(nodeVersion u).lite, (nodeVersion u).content⟩ := rfl
    _ = t.version defaultMaxFileSize := by rw [hlite, hcontent]

/-- What a rebuild shows of a path. -/
lemma buildRecAt_version :
    (∃ u, Admitted env fs p u ∧
      (buildRecAt env {} fs p).map BuildRec.version = some (nodeVersion u)) ∨
    ((¬ ∃ u, Admitted env fs p u) ∧ (buildRecAt env {} fs p).map BuildRec.version = none) := by
  cases hat : buildRecAt env {} fs p with
  | some r =>
      obtain ⟨u, hlisted, hvisit⟩ := buildRecAt_eq_some.mp hat
      obtain ⟨hskip, hignored, path, hpath, rfl⟩ := visitEntry_snd.mp hvisit
      exact Or.inl ⟨u, ⟨hlisted, hskip, hignored, by rw [hpath]; rfl⟩, rfl⟩
  | none =>
      refine Or.inr ⟨?_, rfl⟩
      rintro ⟨u, h⟩
      obtain ⟨path, hpath⟩ := Option.isSome_iff_exists.mp h.text
      have hvisit : (visitEntry env {} fs p u).2 = some (buildRecOf {} path u) :=
        visitEntry_snd.mpr ⟨h.unskipped, h.unignored, path, hpath, rfl⟩
      rw [buildRecAt_eq_some.mpr ⟨u, h.toListed, hvisit⟩] at hat
      cases hat

lemma watchEvent_dropped (h : eventDropped w env fs p = true) (maxFileSize : ℕ) :
    watchEvent w env.ignoreMatcher fs maxFileSize [p] = [] := by
  rw [eventDropped, Bool.or_eq_true] at h
  rw [watchEvent, List.map_singleton]
  split
  · rfl
  · rename_i hself
    have hignored := h.resolve_left hself
    rw [List.filter_cons_of_neg (by rw [hignored]; decide), List.filter_nil, List.map_nil]

lemma watchEvent_recorded (h : eventDropped w env fs p = false) (maxFileSize : ℕ) :
    watchEvent w env.ignoreMatcher fs maxFileSize [p] = [buildRecord fs p maxFileSize] := by
  rw [eventDropped, Bool.or_eq_false_iff] at h
  rw [watchEvent, List.map_singleton, h.1, if_neg Bool.false_ne_true,
    List.filter_cons_of_pos (by rw [h.2]; decide), List.filter_nil, List.map_singleton]

/-- A recorded event leaves what `fs::metadata` and the text gate say of the path. -/
lemma lookup_recorded (h : eventDropped w env fs p = false) :
    (currentFiles files (recs ++
        watchEvent w env.ignoreMatcher fs defaultMaxFileSize [p])).lookup (indexedName fs p) =
      (fs.target p).map fun t => t.version defaultMaxFileSize := by
  have hpath : (buildRecord fs p defaultMaxFileSize).path = indexedName fs p := by
    unfold buildRecord
    dsimp only
    split
    · rfl
    · rfl
  rw [watchEvent_recorded h, lookup_currentFiles, hotVersion_concat, hpath, if_pos rfl]
  dsimp only
  unfold buildRecord
  dsimp only
  cases fs.target p with
  | none => rfl
  | some t => rfl

/-- An event on a path has the effect of a rebuild exactly when the watcher's look at the path alone
agrees with the walk's.  The tree, the settings and the files before the event are any; what the
path had before matters only where the event is dropped. -/
theorem event_matches_rebuild_iff :
    EventMatchesRebuild w env fs p files recs ↔
      EventFaithful w env fs p ((currentFiles files recs).lookup (indexedName fs p)) := by
  unfold EventMatchesRebuild
  -- A dropped event leaves the path as it was; one that is not dropped records what `fs::metadata`
  -- and the gate say of it.  Either is compared with the record of a build, or with there being
  -- none.
  by_cases hdrop : eventDropped w env fs p = true
  · rw [watchEvent_dropped hdrop, List.append_nil]
    have hkept : ∀ h : eventDropped w env fs p = false, False := fun h =>
      absurd (hdrop.symm.trans h) (by decide)
    rcases @buildRecAt_version env fs p with ⟨u, hu, hversion⟩ | ⟨hno, hversion⟩
    · rw [hversion]
      constructor
      · intro h
        exact ⟨fun _ => Or.inl ⟨u, hu, h⟩, fun h => (hkept h).elim, fun h => (hkept h).elim⟩
      · intro h
        rcases h.dropped hdrop with ⟨v, hv, hbefore⟩ | ⟨hno, -⟩
        · have huv := hu.resolves
          rw [hv.resolves] at huv
          rw [hbefore, Option.some.inj huv]
        · exact absurd ⟨u, hu⟩ hno
    · rw [hversion]
      constructor
      · intro h
        exact ⟨fun _ => Or.inr ⟨hno, h⟩, fun h => (hkept h).elim, fun h => (hkept h).elim⟩
      · intro h
        rcases h.dropped hdrop with ⟨v, hv, -⟩ | ⟨-, hbefore⟩
        · exact absurd ⟨v, hv⟩ hno
        · exact hbefore
  · rw [Bool.not_eq_true] at hdrop
    have hkept : ∀ h : eventDropped w env fs p = true, False := fun h =>
      absurd (hdrop.symm.trans h) (by decide)
    rw [lookup_recorded hdrop]
    have htarget : ∀ u, Admitted env fs p u → fs.target p = nodeTarget u := by
      intro u hu
      rw [FileSystem.target, hu.resolves, Option.bind_some]
    rcases @buildRecAt_version env fs p with ⟨u, hu, hversion⟩ | ⟨hno, hversion⟩
    · rw [hversion]
      constructor
      · intro h
        obtain ⟨t, ht, hsame⟩ := Option.map_eq_some_iff.mp h
        refine ⟨fun h => (hkept h).elim, fun _ => ⟨fun _ => ⟨u, hu⟩, fun _ => by rw [ht]; rfl⟩, ?_⟩
        intro _ v t' hv ht'
        have huv := hu.resolves
        rw [hv.resolves] at huv
        obtain rfl := Option.some.inj huv
        rw [htarget _ hv, ht'] at ht
        rw [← Option.some.inj ht] at hsame
        rw [← hsame]
      · intro h
        obtain ⟨t, ht⟩ := Option.isSome_iff_exists.mp ((h.present hdrop).mpr ⟨u, hu⟩)
        have hu' : nodeTarget u = some t := htarget u hu ▸ ht
        rw [ht, Option.map_some, nodeVersion_eq hu' (h.same hdrop u t hu hu')]
    · rw [hversion, Option.map_eq_none_iff]
      constructor
      · intro h
        refine ⟨fun h => (hkept h).elim, fun _ => ?_, fun _ u _ hu => (hno ⟨u, hu⟩).elim⟩
        rw [h]
        exact iff_of_false Bool.false_ne_true hno
      · intro h
        have hnot := mt (h.present hdrop).mp hno
        rwa [Bool.not_eq_true, Option.isSome_eq_false_iff, Option.isNone_iff_eq_none] at hnot

end Rebuild

/-- A change in a directory that the settings ignore puts the file into the overlay, although no
build records it. -/
theorem event_in_ignored_directory_recorded :
    let w : WatchEnv := ⟨[utf8 "proj"], [utf8 "root", utf8 ".deep-find"]⟩
    let env : WalkEnv := {
      standard := fun _ _ _ => true
      otherDevice := fun _ => false
      ignoreMatcher := some ⟨fun p _ =>
        if p.getLast? = some (utf8 "secret") then .ignore else .none⟩ }
    let fs : FileSystem := {
      root := utf8 "/proj"
      rootName := utf8 "proj"
      tree := .dir ⟨64, some 1⟩ [(utf8 "secret", .dir ⟨64, some 1⟩
        [(utf8 "key.txt", .leaf (.file ⟨2, some 1⟩ (some [107, 10])))])]
      names_nodup := by simp [FileTree.NamesNodup, FileTree.EntriesNodup]
      names_valid := by simp [FileTree.AllNames, FileTree.EntriesAllNames]; decide }
    watchEvent w env.ignoreMatcher fs defaultMaxFileSize [[utf8 "secret", utf8 "key.txt"]] =
        [.upsert "/proj/secret/key.txt" ⟨false, 2, 1⟩ (some [107, 10])] ∧
      buildRecs env {} fs = [⟨"/proj", true, 64, 1, none⟩] ∧
      ¬ EventMatchesRebuild w env fs [utf8 "secret", utf8 "key.txt"] [] [] := by
  intro w env fs
  refine ⟨by decide +kernel, by decide +kernel, ?_⟩
  unfold EventMatchesRebuild
  decide +kernel

end DeepFinder
