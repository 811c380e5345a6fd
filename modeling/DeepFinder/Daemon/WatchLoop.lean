import DeepFinder.Daemon.CompactionTrigger
import DeepFinder.Daemon.Watch
import DeepFinder.Lib.ChangeFeed

/-!
# The watch loop

`watch::run` collects the paths of change events, waits for a burst to end, looks at each path and
publishes what it found as one batch; at the threshold it compacts, on its own thread.  Files change
while it does any of this, also between the calls of `fs::metadata` and `fs::read` about one path.

The loop starts with what the daemon has replayed of the log, which may be out of date: nobody
watched while the daemon was down.  `watch_settles`: left alone, the loop deals with its events in a
bounded number of moves, whatever their order, and then the overlay shows a path as it is, whatever
the loop saw on the way.  That is so for a path that some event named, and for one that the overlay
showed rightly at the start.  `EventsOn` is what is asked of the events: a change of the path is told
by one that the callback lets through, and no event is on another path with the same lossy name.
Records of 2^32 paths would overflow the overlay's ids, so their number is bounded, in the log and
at rest.
-/

namespace DeepFinder

open ByteString ChangeFeed

/-! ## Events -/

/-- `notify::Event`, its paths below the root; `access` is `EventKind::Access`. -/
structure NotifyEvent where
  access : Bool
  paths : List (List Bytes)

/-- The callback of the watcher lets the event through. -/
def NotifyEvent.sent (w : WatchEnv) (e : NotifyEvent) : Bool :=
  !e.access && !isSelfWrite (e.paths.map (w.canonRoot ++ ·)) w.dataDir

/-- The paths that the callback of the watcher sends. -/
def notified (w : WatchEnv) (events : List NotifyEvent) : List (List Bytes) :=
  (events.filter (·.sent w)).flatMap NotifyEvent.paths

lemma mem_notified {w : WatchEnv} {events : List NotifyEvent} {p : List Bytes} :
    p ∈ notified w events ↔ ∃ e ∈ events, e.sent w = true ∧ p ∈ e.paths := by
  simp [notified, and_assoc]

/-! ## Looking at a path -/

/-- `path_ignored`, with its call of `fs::metadata`. -/
def ignoreProbe (matcher : Option Gitignore) (p : List Bytes) : Probe (Option Target) Bool :=
  match matcher with
  | none => .done false
  | some m => .look fun t => .done (isIgnored m p ((t.map fun t => t.metadata.isDir).getD false))

/-- `classify`, with its calls of `fs::metadata` and `fs::read`. -/
def classifyProbe (maxFileSize : ℕ) : Probe (Option Target) ContentDecision :=
  .look fun stat => .look fun read =>
    .done (classify (stat.map fun t => ⟨t.metadata, read.bind Target.data⟩) maxFileSize)

/-- `build_record`, with its call of `fs::metadata` and those of `classify`. -/
def recordProbe (path : String) (maxFileSize : ℕ) : Probe (Option Target) WalRecord :=
  .look fun
    | none => .done (.delete path)
    | some t =>
        let lite : LiteMeta :=
          ⟨t.metadata.isDir, t.metadata.stat.size, t.metadata.stat.mtime⟩
        if t.metadata.isDir then .done (.upsert path lite none)
        else (classifyProbe maxFileSize).bind fun d => .done (.upsert path lite d.bytes?)

/-- The name by which the overlay knows a path below `root`. -/
def watchedName (root : Bytes) (p : List Bytes) : String := toStringLossy (pathBytes root p)

def eventProbe (root : Bytes) (maxFileSize : ℕ) (matcher : Option Gitignore) (p : List Bytes) :
    Probe (Option Target) (Option WalRecord) :=
  (ignoreProbe matcher p).bind fun ignored =>
    if ignored then .done none
    else (recordProbe (watchedName root p) maxFileSize).bind fun r => .done (some r)

lemma classifyProbe_run (maxFileSize : ℕ) (t : Option Target) :
    (classifyProbe maxFileSize).run t = classify t maxFileSize := by
  cases t <;> rfl

/-- A path that nobody changes meanwhile gives the record of `build_record`. -/
lemma eventProbe_run (fs : FileSystem) (maxFileSize : ℕ) (matcher : Option Gitignore)
    (p : List Bytes) :
    (eventProbe fs.root maxFileSize matcher p).run (fs.target p) =
      if pathIgnored matcher fs p then none else some (buildRecord fs p maxFileSize) := by
  have hignore : (ignoreProbe matcher p).run (fs.target p) = pathIgnored matcher fs p := by
    cases matcher <;> rfl
  have hrecord : (recordProbe (watchedName fs.root p) maxFileSize).run (fs.target p) =
      buildRecord fs p maxFileSize := by
    unfold recordProbe buildRecord
    cases ht : fs.target p with
    | none => rfl
    | some t =>
        cases hdir : t.metadata.isDir with
        | true => simp [Target.version, watchedName, hdir]
        | false => simp [Target.version, watchedName, hdir, classifyProbe_run]
  rw [eventProbe, Probe.run_bind, hignore]
  by_cases h : pathIgnored matcher fs p = true
  · rw [if_pos h, if_pos h, Probe.run_done]
  · rw [if_neg h, if_neg h, Probe.run_bind, hrecord, Probe.run_done]

/-- What comes of a look at a path, with nothing changed meanwhile. -/
lemma eventProbe_version (root : Bytes) (fs : FileSystem) (maxFileSize : ℕ)
    (matcher : Option Gitignore) (p : List Bytes) :
    match (eventProbe root maxFileSize matcher p).run (fs.target p) with
    | none => pathIgnored matcher fs p = true
    | some rec => rec.version = (fs.target p).map fun t => t.version maxFileSize := by
  have hrun : (eventProbe root maxFileSize matcher p).run (fs.target p) =
      if pathIgnored matcher fs p then none
      else some (buildRecord { fs with root := root } p maxFileSize) :=
    eventProbe_run { fs with root := root } maxFileSize matcher p
  rw [hrun]
  by_cases h : pathIgnored matcher fs p = true
  · rw [if_pos h]
    exact h
  · rw [if_neg h]
    have htarget : FileSystem.target { fs with root := root } p = fs.target p := rfl
    show (buildRecord { fs with root := root } p maxFileSize).version = _
    unfold buildRecord
    rw [htarget]
    cases fs.target p with
    | none => rfl
    | some t => rfl

/-- A record is about the path looked at. -/
lemma eventProbe_path (root : Bytes) (maxFileSize : ℕ) (matcher : Option Gitignore)
    (p : List Bytes) :
    (eventProbe root maxFileSize matcher p).All
      fun r => ∀ rec ∈ r, rec.path = watchedName root p := by
  have hrecord : (recordProbe (watchedName root p) maxFileSize).All
      fun rec => rec.path = watchedName root p := by
    intro t
    cases t with
    | none => rfl
    | some t =>
        dsimp only
        split
        · rfl
        · exact (Probe.all_true _).bind fun d _ => rfl
  refine (Probe.all_true _).bind fun ignored _ => ?_
  split
  · intro rec hrec
    cases hrec
  · refine hrecord.bind fun r hr => ?_
    rintro rec ⟨⟩
    exact hr

/-! ## The loop -/

/-- What the notes of the loop come to: the records passed to `record_and_apply`. -/
def notedRecs (notes : List (List Bytes × Option WalRecord)) : List WalRecord :=
  notes.filterMap Prod.snd

def watchedOverlay (notes : List (List Bytes × Option WalRecord)) : Overlay :=
  ({} : Overlay).applyRecords (notedRecs notes)

/-- `watch::run`; a batch is gone through under the ignore matcher of the settings then read. -/
def watchLoop (root : Bytes) (maxFileSize threshold : ℕ) :
    Follower FileSystem (Option Gitignore) (List Bytes) (Option Target) (Option WalRecord) where
  view := FileSystem.target
  probe := eventProbe root maxFileSize
  full notes := decide (threshold ≤ (watchedOverlay notes).len)

/-- The loop, its events and the files below its root. -/
abbrev WatchState :=
  State FileSystem (Option Gitignore) (List Bytes) (Option Target) (Option WalRecord)

abbrev WatchMove := Move FileSystem (Option Gitignore) (List Bytes)

/-- The watcher starts on files whose index was built of `built`.  The daemon has replayed the log
of an earlier watcher, records of paths that were not ignored then; nobody watched in between. -/
def watchStart (built fs : FileSystem) (matcher : Option Gitignore)
    (replayed : List (List Bytes × WalRecord)) : WatchState :=
  ⟨fs, matcher, [], [], .waiting, replayed.map fun n => (n.1, some n.2), built, [none]⟩

section Start

variable {built fs : FileSystem} {matcher : Option Gitignore}
  {replayed : List (List Bytes × WalRecord)}

@[simp] lemma notedRecs_watchStart :
    notedRecs (watchStart built fs matcher replayed).notes = replayed.map Prod.snd := by
  simp [notedRecs, watchStart, List.filterMap_map]

lemma confined_watchStart {C : List Bytes → Prop} {Q : List Bytes → Option WalRecord → Prop}
    (h : ∀ n ∈ replayed, C n.1 ∧ Q n.1 (some n.2)) :
    Confined C Q (watchStart built fs matcher replayed) where
  reported := by simp [watchStart]
  queue := by simp [watchStart]
  notes n hn := by
    obtain ⟨m, hm, rfl⟩ := List.mem_map.mp hn
    exact h m hm
  phase := trivial

lemma worlds_watchStart {P : FileSystem → Prop} (hbuilt : P built) (h : P fs) :
    Worlds P (watchStart built fs matcher replayed) where
  world := h
  base := hbuilt
  since := by simp [watchStart]

end Start

/-- A batch that the loop publishes is one `record_and_apply` of its records: the overlay that the
notes leave is the one that the batch makes of the overlay before it, and the loop compacts when that
has grown to the threshold. -/
lemma watchedOverlay_append (root : Bytes) (maxFileSize threshold : ℕ)
    (notes found : List (List Bytes × Option WalRecord)) :
    watchBatch threshold (watchedOverlay notes) (notedRecs found) =
      (watchedOverlay (notes ++ found),
        (watchLoop root maxFileSize threshold).full (notes ++ found)) := by
  have happend : watchedOverlay (notes ++ found) =
      (watchedOverlay notes).applyRecords (notedRecs found) := by
    simp [watchedOverlay, notedRecs, Overlay.applyRecords, List.foldl_append]
  simp [watchBatch, watchLoop, happend]

/-! ## Once the events are dealt with -/

/-- A change of the files gives events; those on paths that the callback lets through do not clash
with the name of `p`, and if `p` changes, one of them is on `p`. -/
def EventsOn (w : WatchEnv) (root : Bytes) (p : List Bytes) (s : WatchState) : WatchMove → Prop
  | .change fs keys => ∃ events, keys = notified w events ∧
      (∀ q ∈ keys, watchedName root q = watchedName root p → q = p) ∧
      (fs.target p ≠ s.world.target p → ∃ e ∈ events, e.sent w = true ∧ p ∈ e.paths)
  | _ => True

/-- The overlay shows the path as it is now, or does not know of it and the last compaction found
it so, or the settings of some batch have the path ignored. -/
def ShownNow (root : Bytes) (maxFileSize : ℕ) (s : WatchState) (p : List Bytes) : Prop :=
  (∃ m ∈ s.seen, pathIgnored m s.world p = true) ∨
    (watchedOverlay s.notes).version (watchedName root p) =
      some ((s.world.target p).map fun t => t.version maxFileSize) ∨
    ((watchedOverlay s.notes).version (watchedName root p) = none ∧
      s.world.target p = s.base.target p)

section Settles

variable {w : WatchEnv} {root : Bytes} {maxFileSize threshold : ℕ} {p : List Bytes}

/-- The last note on a path is the last record on its name. -/
lemma hotVersion_notedRecs {notes : List (List Bytes × Option WalRecord)}
    (h : ∀ n ∈ notes, (watchedName root n.1 = watchedName root p → n.1 = p) ∧
      ∀ rec ∈ n.2, rec.path = watchedName root n.1) :
    match lastNote notes p with
    | none => hotVersion (notedRecs notes) (watchedName root p) = none
    | some none => True
    | some (some rec) => hotVersion (notedRecs notes) (watchedName root p) = some rec.version := by
  induction notes using List.reverseRecOn with
  | nil => rfl
  | append_singleton notes n ih =>
      have hrest := ih fun m hm => h m (List.mem_append_left _ hm)
      obtain ⟨hclash, hpath⟩ := h n (by simp)
      obtain ⟨q, r⟩ := n
      rw [lastNote_concat]
      by_cases hq : q = p
      · rw [if_pos hq]
        cases r with
        | none => trivial
        | some rec =>
            have hname : rec.path = watchedName root p := hq ▸ hpath rec rfl
            show hotVersion (notedRecs (notes ++ [(q, some rec)])) _ = _
            rw [notedRecs, List.filterMap_append, ← notedRecs]
            exact (hotVersion_concat _ rec _).trans (if_pos hname.symm)
      · rw [if_neg hq]
        have hsame : hotVersion (notedRecs (notes ++ [(q, r)])) (watchedName root p) =
            hotVersion (notedRecs notes) (watchedName root p) := by
          rw [notedRecs, List.filterMap_append, ← notedRecs]
          cases r with
          | none => simp
          | some rec =>
              have hname : watchedName root p ≠ rec.path := by
                rw [hpath rec rfl]
                exact fun habs => hq (hclash habs.symm)
              exact (hotVersion_concat _ rec _).trans (if_neg hname)
        rw [hsame]
        exact hrest

lemma version_watchedOverlay {notes : List (List Bytes × Option WalRecord)}
    (hcard : (upsertedPaths (notedRecs notes)).card < 2 ^ 32) (name : String) :
    (watchedOverlay notes).version name = hotVersion (notedRecs notes) name := by
  refine (Overlay.version_applyUpserts ?_ hcard).2 name
  intro r hr q hq
  exact List.mem_toFinset.mpr (List.mem_filterMap.mpr ⟨r, hr, hq⟩)

/-- What the last note on a path says of the overlay. -/
lemma shownNow_of_fresh {s : WatchState}
    (hfresh : Fresh (watchLoop root maxFileSize threshold) s s.notes p)
    (hnotes : ∀ n ∈ s.notes, (watchedName root n.1 = watchedName root p → n.1 = p) ∧
      ∀ rec ∈ n.2, rec.path = watchedName root n.1)
    (hcard : (upsertedPaths (notedRecs s.notes)).card < 2 ^ 32) :
    ShownNow root maxFileSize s p := by
  have hlast := hotVersion_notedRecs hnotes
  unfold Fresh at hfresh
  unfold ShownNow
  rw [version_watchedOverlay hcard]
  cases hnote : lastNote s.notes p with
  | none =>
      rw [hnote] at hfresh hlast
      exact Or.inr (Or.inr ⟨hlast, hfresh⟩)
  | some r =>
      rw [hnote] at hfresh hlast
      obtain ⟨m, hm, hr⟩ := hfresh
      have hlook := eventProbe_version root s.world maxFileSize m p
      have hr' : (eventProbe root maxFileSize m p).run (s.world.target p) = r := hr.symm
      rw [hr'] at hlook
      cases r with
      | none => exact Or.inl ⟨m, hm, hlook⟩
      | some rec => exact Or.inr (Or.inl (hlast.trans (congrArg some hlook)))

/-- A record of a path that has its present version is the one a look would give. -/
lemma eventProbe_of_version {fs : FileSystem} {rec : WalRecord}
    (hpath : rec.path = watchedName root p)
    (hversion : rec.version = (fs.target p).map fun t => t.version maxFileSize) :
    (eventProbe root maxFileSize none p).run (fs.target p) = some rec := by
  have hrun : (eventProbe root maxFileSize none p).run (fs.target p) =
      some (buildRecord { fs with root := root } p maxFileSize) :=
    eventProbe_run { fs with root := root } maxFileSize none p
  have htarget : FileSystem.target { fs with root := root } p = fs.target p := rfl
  rw [hrun, buildRecord, htarget]
  cases ht : fs.target p with
  | none =>
      rw [ht] at hversion
      cases rec with
      | upsert path lite content => cases hversion
      | delete path => exact congrArg (some ∘ WalRecord.delete) hpath.symm
  | some t =>
      rw [ht] at hversion
      cases rec with
      | delete path => cases hversion
      | upsert path lite content =>
          obtain rfl : path = watchedName root p := hpath
          have hfields : (⟨lite, content⟩ : FileVersion) = t.version maxFileSize :=
            Option.some.inj hversion
          dsimp only
          rw [← hfields]
          rfl

/-- What the replayed records show as it is, a look at the start would give. -/
lemma fresh_watchStart {built fs : FileSystem} {matcher : Option Gitignore}
    {replayed : List (List Bytes × WalRecord)}
    (hlog : ∀ n ∈ replayed, (watchedName root n.1 = watchedName root p → n.1 = p) ∧
      n.2.path = watchedName root n.1)
    (hcard : (upsertedPaths (replayed.map Prod.snd)).card < 2 ^ 32)
    (hshown : ShownNow root maxFileSize (watchStart built fs matcher replayed) p) :
    Fresh (watchLoop root maxFileSize threshold) (watchStart built fs matcher replayed)
      (watchStart built fs matcher replayed).notes p := by
  have hnotes : ∀ n ∈ (watchStart built fs matcher replayed).notes,
      (watchedName root n.1 = watchedName root p → n.1 = p) ∧
        ∀ rec ∈ n.2, rec.path = watchedName root n.1 := by
    intro n hn
    obtain ⟨m, hm, rfl⟩ := List.mem_map.mp hn
    refine ⟨(hlog m hm).1, ?_⟩
    rintro rec ⟨⟩
    exact (hlog m hm).2
  have hlast := hotVersion_notedRecs hnotes
  have hversion := @version_watchedOverlay (watchStart built fs matcher replayed).notes
    (by rw [notedRecs_watchStart]; exact hcard) (watchedName root p)
  unfold ShownNow at hshown
  rw [hversion] at hshown
  unfold Fresh
  -- a path without a note is as the index has it, one with a note has a record
  cases hnote : lastNote (watchStart built fs matcher replayed).notes p with
  | none =>
      rw [hnote] at hlast
      dsimp only at hlast ⊢
      rcases hshown with ⟨m, hm, hignored⟩ | hshown | ⟨-, hsame⟩
      · obtain rfl := List.mem_singleton.mp hm
        cases hignored
      · rw [hlast] at hshown
        cases hshown
      · exact hsame
  | some r =>
      rw [hnote] at hlast
      obtain ⟨n, hn, hkey, hrec⟩ := exists_of_lastNote hnote
      obtain ⟨m, hm, rfl⟩ := List.mem_map.mp hn
      obtain rfl : some m.2 = r := hrec
      obtain rfl : m.1 = p := hkey
      dsimp only at hlast
      refine ⟨none, List.mem_singleton_self _, ?_⟩
      rcases hshown with ⟨m, hm, hignored⟩ | hshown | ⟨hshown, -⟩
      · obtain rfl := List.mem_singleton.mp hm
        cases hignored
      · rw [hlast] at hshown
        exact (eventProbe_of_version (hlog m hm).2 (Option.some.inj hshown)).symm
      · rw [hlast] at hshown
        cases hshown

section Followed

variable {w : WatchEnv} {built fs : FileSystem} {matcher : Option Gitignore}
  {replayed : List (List Bytes × WalRecord)} {moves : List WatchMove} {s : WatchState}

/-- A path is tracked from the start when the index and the log show it as it is, and otherwise from
the change on whose report names it. -/
lemma tracks_watched (hlog : ∀ n ∈ replayed, (watchedName root n.1 = watchedName root p → n.1 = p) ∧
      n.2.path = watchedName root n.1)
    (hcard : (upsertedPaths (replayed.map Prod.snd)).card < 2 ^ 32)
    (hstart : ShownNow root maxFileSize (watchStart built fs matcher replayed) p ∨
      ∃ fs' keys, Move.change fs' keys ∈ moves ∧ p ∈ keys)
    (hreports : Run.Guarded (step (watchLoop root maxFileSize threshold))
      (Reports (watchLoop root maxFileSize threshold) p) (watchStart built fs matcher replayed)
      moves)
    (hrun : Run.exec (step (watchLoop root maxFileSize threshold))
      (watchStart built fs matcher replayed) moves = some s) :
    Tracks (watchLoop root maxFileSize threshold) p s := by
  rcases hstart with hshown | ⟨fs', keys, hchange, hp⟩
  · have hheeded : Tracks (watchLoop root maxFileSize threshold) p
        (watchStart built fs matcher replayed) :=
      Or.inr (Or.inr (fresh_watchStart hlog hcard hshown))
    exact hheeded.exec hreports hrun
  · exact .of_reported hchange hp hreports hrun

/-- If the log and the reports are on paths of one kind only, so are the notes, and each record is
on the path that it was made for. -/
lemma confined_watched {C : List Bytes → Prop}
    (hlog : ∀ n ∈ replayed, C n.1 ∧ n.2.path = watchedName root n.1)
    (honly : Run.Guarded (step (watchLoop root maxFileSize threshold)) (fun _ => ReportsOnly C)
      (watchStart built fs matcher replayed) moves)
    (hrun : Run.exec (step (watchLoop root maxFileSize threshold))
      (watchStart built fs matcher replayed) moves = some s) :
    Confined C (fun q r => ∀ rec ∈ r, rec.path = watchedName root q) s := by
  refine Confined.exec (fun m q => eventProbe_path root maxFileSize m q)
    (confined_watchStart fun n hn => ⟨(hlog n hn).1, ?_⟩) honly hrun
  rintro rec ⟨⟩
  exact (hlog n hn).2

end Followed

/-- The watch loop, left alone by changes, makes finitely many moves, however they fall, and does
not stop before it has dealt with every event there is; then the overlay shows the path as it is, if
the path was shown so at the start or some event named it. -/
theorem watch_settles {built fs : FileSystem} {matcher : Option Gitignore}
    {replayed : List (List Bytes × WalRecord)} {moves : List WatchMove} {s : WatchState}
    (hlog : ∀ n ∈ replayed, (watchedName root n.1 = watchedName root p → n.1 = p) ∧
      n.2.path = watchedName root n.1)
    (hcard : (upsertedPaths (replayed.map Prod.snd)).card < 2 ^ 32)
    (hstart : ShownNow root maxFileSize (watchStart built fs matcher replayed) p ∨
      ∃ fs' keys, Move.change fs' keys ∈ moves ∧ p ∈ keys)
    (hevents : Run.Guarded (step (watchLoop root maxFileSize threshold)) (EventsOn w root p)
      (watchStart built fs matcher replayed) moves)
    (hrun : Run.exec (step (watchLoop root maxFileSize threshold))
      (watchStart built fs matcher replayed) moves = some s) :
    ∀ rest s', (∀ m ∈ rest, m.Inner) →
      Run.exec (step (watchLoop root maxFileSize threshold)) s rest = some s' →
      rest.length ≤ s.weight (watchLoop root maxFileSize threshold) ∧
        (s'.Quiet ∨ ∃ m s'', m.Inner ∧
          step (watchLoop root maxFileSize threshold) s' m = some s'') ∧
        (s'.Quiet → (upsertedPaths (notedRecs s'.notes)).card < 2 ^ 32 →
          s'.world = s.world ∧ ShownNow root maxFileSize s' p) := by
  intro rest s' hinner hrest
  refine ⟨length_le_weight hinner hrest, quiet_or_moves _ s', fun hquiet hcard' => ?_⟩
  have hleads : Leads (watchLoop root maxFileSize threshold) s s' := ⟨rest, hinner, hrest⟩
  refine ⟨hleads.world_eq, ?_⟩
  have hreports : Run.Guarded (step (watchLoop root maxFileSize threshold))
      (Reports (watchLoop root maxFileSize threshold) p) (watchStart built fs matcher replayed)
      moves := by
    refine hevents.mono _ fun s m hm => ?_
    cases m with
    | change fs' keys =>
        obtain ⟨events, rfl, -, hreported⟩ := hm
        exact fun hne => mem_notified.mpr (hreported hne)
    | _ => trivial
  have htracks := tracks_watched hlog hcard hstart hreports hrun
  have hconfined : Confined (fun q => watchedName root q = watchedName root p → q = p)
      (fun q r => ∀ rec ∈ r, rec.path = watchedName root q) s := by
    refine confined_watched hlog (hevents.mono _ fun s m hm => ?_) hrun
    cases m with
    | change fs' keys =>
        obtain ⟨events, rfl, hclash, -⟩ := hm
        exact hclash
    | _ => trivial
  -- what holds of the path behind the changes still holds when the loop has come to rest
  have hnotes := (hconfined.leads (fun m q => eventProbe_path root maxFileSize m q) hleads).notes
  exact shownNow_of_fresh ((htracks.leads hleads).fresh hquiet) hnotes hcard'

end Settles

/-- A file `/r/a`, or none. -/
def oneFile (data : Option Bytes) : FileSystem where
  root := utf8 "/r"
  rootName := utf8 "r"
  tree := .dir ⟨64, some 1⟩ (match data with
    | some bytes => [(utf8 "a", .leaf (.file ⟨UInt64.ofNat bytes.length, some 1⟩ (some bytes)))]
    | none => [])
  names_nodup := by cases data <;> simp [FileTree.NamesNodup, FileTree.EntriesNodup]
  names_valid := by
    cases data
    · simp [FileTree.AllNames, FileTree.EntriesAllNames]
    · simp [FileTree.AllNames, FileTree.EntriesAllNames]; decide

/-- The log has a file with content, but it is gone.  It is written again, and deleted between the
calls about it: the loop notes it without content first, and then its deletion. -/
theorem watch_settles_deleted :
    let key : List Bytes := [utf8 "a"]
    let replayed := [(key, WalRecord.upsert "/r/a" ⟨false, 3, 1⟩ (some (utf8 "old")))]
    let moves : List WatchMove := [.change (oneFile (some [104, 10])) [key], .deliver 0, .receive,
      .pause, .begin, .take, .look, .change (oneFile none) [key], .look, .look, .look, .note, .rest,
      .deliver 0, .receive, .pause, .begin, .take, .look, .look, .note, .rest]
    ∃ s, Run.exec (step (watchLoop (utf8 "/r") defaultMaxFileSize 2000))
        (watchStart (oneFile none) (oneFile none) none replayed) moves = some s ∧
      notedRecs s.notes = [.upsert "/r/a" ⟨false, 3, 1⟩ (some (utf8 "old")),
        .upsert "/r/a" ⟨false, 2, 1⟩ none, .delete "/r/a"] ∧
      ShownNow (utf8 "/r") defaultMaxFileSize s key := by
  intro key replayed moves
  let w : WatchEnv := ⟨[utf8 "r"], [utf8 "home", utf8 ".deep-find"]⟩
  refine ⟨_, rfl, by decide +kernel, ?_⟩
  have hlog : ∀ n ∈ replayed,
      (watchedName (utf8 "/r") n.1 = watchedName (utf8 "/r") key → n.1 = key) ∧
        n.2.path = watchedName (utf8 "/r") n.1 := by
    intro n hn
    obtain rfl := List.mem_singleton.mp hn
    exact ⟨fun _ => rfl, by decide +kernel⟩
  have hevents : ∀ moves : List WatchMove,
      (∀ m ∈ moves, ∀ fs keys, m = .change fs keys → keys = [key]) →
      Run.Guarded (step (watchLoop (utf8 "/r") defaultMaxFileSize 2000))
        (EventsOn w (utf8 "/r") key) (watchStart (oneFile none) (oneFile none) none replayed)
        moves := by
    intro moves hmoves
    refine (Run.guarded_of_forall _ hmoves _).mono _ ?_
    intro s m hm
    cases m with
    | change fs keys =>
        obtain rfl := hm fs keys rfl
        exact ⟨[⟨false, [key]⟩], by decide, fun q hq _ => List.mem_singleton.mp hq,
          fun _ => ⟨⟨false, [key]⟩, by simp, by decide, by simp⟩⟩
    | _ => trivial
  have hnamed : ∃ fs' keys, Move.change fs' keys ∈ moves ∧ key ∈ keys :=
    ⟨_, [key], List.mem_cons_self .., List.mem_singleton_self _⟩
  have hsettled := @watch_settles w (utf8 "/r") defaultMaxFileSize 2000 key (oneFile none)
    (oneFile none) none replayed moves _ hlog (by decide +kernel) (Or.inr hnamed)
    (hevents moves (by simp [moves])) rfl [] _ (by simp) rfl
  exact (hsettled.2.2 ⟨rfl, rfl, rfl⟩ (by decide +kernel)).2

end DeepFinder
