import DeepFinder.Daemon.Scan
import DeepFinder.Daemon.WatchLoop

/-!
# Searching watched files

An index is built, files change, the daemon replays what an earlier watcher wrote, the watch loop
records what it is told of, and somebody searches.  `watched_search` follows the whole way: once the
events are dealt with, the reply is what a look at the files reports that a build would find now.

It rests on what the operating system tells (`FilesReported`), on the index with the replayed
records showing what no event names as it is at the start (the daemon does not look at files then),
and on the two looks at a file, that of the watcher and that of a walk, agreeing on what changed
(`LooksAlike`): a file that a pattern excludes from the walk alone would come back as hot.
-/

namespace DeepFinder

open ByteString ChangeFeed

/-- A path below a root that a build can record.  Others are passed over by the walk of a build. -/
structure TextPath (root : Bytes) (p : List Bytes) : Prop where
  names : ∀ name ∈ p, name ≠ [] ∧ slash ∉ name
  text : (fromUtf8 (pathBytes root p)).isSome = true

/-- Every change of a file is told, and by events on paths that can be recorded.  Which events the
callback sends is `NotifyEvent.sent`; an event may name other paths as well, and may come for no
change. -/
def FilesReported (w : WatchEnv) (root : Bytes) (s : WatchState) : WatchMove → Prop
  | .change fs keys => ∃ events, keys = notified w events ∧ fs.root = root ∧
      (∀ q ∈ keys, TextPath root q) ∧
      ∀ p, TextPath root p → fs.target p ≠ s.world.target p →
        ∃ e ∈ events, e.sent w = true ∧ p ∈ e.paths
  | _ => True

/-- A walk finds a path that the events spared as it was, and one that they named as the loop
does. -/
structure LooksAlike (env : WalkEnv) (root : Bytes) (s : WatchState) : Prop where
  spared : ∀ p, TextPath root p → s.world.target p = s.base.target p →
    (buildRecAt env {} s.world p).map BuildRec.version =
      (buildRecAt env {} s.base p).map BuildRec.version
  named : ∀ n ∈ s.notes, (∀ m ∈ s.seen, pathIgnored m s.world n.1 = false) ∧
    (buildRecAt env {} s.world n.1).map BuildRec.version =
      (s.world.target n.1).map fun t => t.version defaultMaxFileSize

section Names

variable {root : Bytes} {p q : List Bytes}

lemma TextPath.fromUtf8_eq (h : TextPath root p) :
    fromUtf8 (pathBytes root p) = some (watchedName root p) := by
  obtain ⟨path, hpath⟩ := Option.isSome_iff_exists.mp h.text
  rw [watchedName, toStringLossy, hpath, Option.getD_some]

lemma TextPath.name_inj (hp : TextPath root p) (hq : TextPath root q)
    (h : watchedName root q = watchedName root p) : q = p := by
  have hbytes : pathBytes root q = pathBytes root p := by
    rw [← utf8_of_fromUtf8 hq.fromUtf8_eq, ← utf8_of_fromUtf8 hp.fromUtf8_eq, h]
  exact pathBytes_inj hq.names hp.names hbytes

variable {env : WalkEnv} {opts : ContentBuildOptions} {fs : FileSystem}

/-- What a build finds at a path. -/
lemma lookup_builtFiles (hroot : fs.root = root) (hp : TextPath root p) :
    (builtFiles env opts fs).lookup (watchedName root p) =
      (buildRecAt env opts fs p).map BuildRec.version := by
  have hname := hp.fromUtf8_eq
  rw [← hroot] at hname
  ext v
  rw [AssocMap.lookup_eq_some nodup_builtFiles, builtFiles, List.mem_map, Option.map_eq_some_iff]
  constructor
  · rintro ⟨r, hr, heq⟩
    obtain ⟨hpath, hversion⟩ := Prod.ext_iff.mp heq
    refine ⟨r, (mem_buildRecs_iff hp.names hname).mp ⟨hr, ?_⟩, hversion⟩
    rw [hroot]
    exact hpath
  · rintro ⟨r, hr, rfl⟩
    obtain ⟨hmem, hpath⟩ := (mem_buildRecs_iff hp.names hname).mpr hr
    rw [hroot] at hpath
    exact ⟨r, hmem, by rw [hpath]⟩

/-- What a build finds is at such a path. -/
lemma textPath_of_lookup (hroot : fs.root = root) {x : String} {v : FileVersion}
    (h : (builtFiles env opts fs).lookup x = some v) :
    ∃ p, TextPath root p ∧ x = watchedName root p := by
  obtain ⟨r, hr, heq⟩ := List.mem_map.mp ((AssocMap.lookup_eq_some nodup_builtFiles).mp h)
  obtain ⟨⟨p, u⟩, hmem, hvisit⟩ := List.mem_filterMap.mp hr
  have hresolves := (mem_buildWalk.mp hmem).resolves
  obtain ⟨-, -, path, hpath, rfl⟩ := visitEntry_snd.mp hvisit
  rw [hroot] at hpath
  have htext : TextPath root p := ⟨fs.names_valid.of_resolve hresolves, by rw [hpath]; rfl⟩
  refine ⟨p, htext, ?_⟩
  rw [htext.fromUtf8_eq] at hpath
  have hx : (buildRecOf opts path u).path = x := (Prod.ext_iff.mp heq).1
  rw [← hx, Option.some.inj hpath]
  rfl

end Names

section Search

variable {w : WatchEnv} {root : Bytes} {threshold : ℕ} {env : WalkEnv} {s : WatchState}

/-- The index and the records on it show the files as a build would find them now. -/
lemma lookup_watched (hworld : s.world.root = root) (hbase : s.base.root = root)
    (hfresh : ∀ p, TextPath root p →
      Fresh (watchLoop root defaultMaxFileSize threshold) s s.notes p)
    (hnotes : ∀ n ∈ s.notes, TextPath root n.1 ∧ ∀ rec ∈ n.2, rec.path = watchedName root n.1)
    (halike : LooksAlike env root s) (x : String) :
    (currentFiles (builtFiles env {} s.base) (notedRecs s.notes)).lookup x =
      (builtFiles env {} s.world).lookup x := by
  rw [lookup_currentFiles]
  by_cases hx : ∃ p, TextPath root p ∧ x = watchedName root p
  · obtain ⟨p, hp, rfl⟩ := hx
    have hlast := @hotVersion_notedRecs root p s.notes fun n hn =>
      ⟨fun hname => hp.name_inj (hnotes n hn).1 hname, (hnotes n hn).2⟩
    have hlook := hfresh p hp
    unfold Fresh at hlook
    rw [lookup_builtFiles hbase hp, lookup_builtFiles hworld hp]
    cases hnote : lastNote s.notes p with
    | none =>
        rw [hnote] at hlast hlook
        rw [hlast]
        exact (halike.spared p hp hlook).symm
    | some r =>
        rw [hnote] at hlast hlook
        obtain ⟨m, hm, hr⟩ := hlook
        obtain ⟨n, hn, hkey, -⟩ := exists_of_lastNote hnote
        obtain ⟨hignored, hsame⟩ := halike.named n hn
        rw [hkey] at hignored hsame
        have hversion := eventProbe_version root s.world defaultMaxFileSize m p
        have hr' : (eventProbe root defaultMaxFileSize m p).run (s.world.target p) = r := hr.symm
        rw [hr'] at hversion
        cases r with
        | none =>
            rw [hignored m hm] at hversion
            cases hversion
        | some rec =>
            dsimp only at hlast hversion
            rw [hlast, hsame]
            exact hversion
  · have hnone : ∀ {fs : FileSystem}, fs.root = root → (builtFiles env {} fs).lookup x = none := by
      intro fs hroot
      cases hlook : (builtFiles env {} fs).lookup x with
      | none => rfl
      | some v => exact absurd (textPath_of_lookup hroot hlook) hx
    have hhot : hotVersion (notedRecs s.notes) x = none := by
      unfold hotVersion
      rw [Option.map_eq_none_iff, List.find?_eq_none]
      intro rec hrec hpath
      obtain ⟨n, hn, hn2⟩ := List.mem_filterMap.mp (List.mem_reverse.mp hrec)
      obtain ⟨htext, hname⟩ := hnotes n hn
      refine hx ⟨n.1, htext, ?_⟩
      rw [← hname rec hn2]
      exact (of_decide_eq_true hpath).symm
    rw [hhot]
    exact (hnone hbase).trans (hnone hworld).symm

section Run

variable {built fs : FileSystem} {matcher : Option Gitignore}
  {replayed : List (List Bytes × WalRecord)} {moves : List WatchMove}

/-- What a run of the loop that has come to rest leaves behind. -/
lemma watched_at_rest (hbuilt : built.root = root) (hfs : fs.root = root)
    (hlog : ∀ n ∈ replayed, TextPath root n.1 ∧ n.2.path = watchedName root n.1)
    (hcard : (upsertedPaths (replayed.map Prod.snd)).card < 2 ^ 32)
    (hstart : ∀ p, TextPath root p →
      ShownNow root defaultMaxFileSize (watchStart built fs matcher replayed) p ∨
        ∃ fs' keys, Move.change fs' keys ∈ moves ∧ p ∈ keys)
    (hreported : Run.Guarded (step (watchLoop root defaultMaxFileSize threshold))
      (FilesReported w root) (watchStart built fs matcher replayed) moves)
    (hrun : Run.exec (step (watchLoop root defaultMaxFileSize threshold))
      (watchStart built fs matcher replayed) moves = some s) (hquiet : s.Quiet) :
    (s.world.root = root ∧ s.base.root = root) ∧
      (∀ p, TextPath root p → Fresh (watchLoop root defaultMaxFileSize threshold) s s.notes p) ∧
      ∀ n ∈ s.notes, TextPath root n.1 ∧ ∀ rec ∈ n.2, rec.path = watchedName root n.1 := by
  refine ⟨?_, ?_, ?_⟩
  · have hworlds : Worlds (fun fs : FileSystem => fs.root = root) s := by
      refine Worlds.exec (worlds_watchStart hbuilt hfs) (hreported.mono _ fun s m hm => ?_) hrun
      cases m with
      | change fs' keys =>
          obtain ⟨events, -, hroot', -, -⟩ := hm
          exact hroot'
      | _ => trivial
    exact ⟨hworlds.world, hworlds.base⟩
  -- Every path is tracked, from the start when the index and the log show it as it is, and
  -- otherwise from the change that is reported later.
  · intro p hp
    have hreports : Run.Guarded (step (watchLoop root defaultMaxFileSize threshold))
        (Reports (watchLoop root defaultMaxFileSize threshold) p)
        (watchStart built fs matcher replayed) moves := by
      refine hreported.mono _ fun s m hm => ?_
      cases m with
      | change fs' keys =>
          obtain ⟨events, rfl, -, -, htold⟩ := hm
          exact fun hne => mem_notified.mpr (htold p hp hne)
      | _ => trivial
    have htracks := tracks_watched (fun n hn => ⟨fun hname => hp.name_inj (hlog n hn).1 hname,
      (hlog n hn).2⟩) hcard (hstart p hp) hreports hrun
    exact htracks.fresh hquiet
  · have hconfined := confined_watched hlog (hreported.mono _ fun s m hm => by
      cases m with
      | change fs' keys =>
          obtain ⟨events, rfl, -, htext, -⟩ := hm
          exact htext
      | _ => trivial) hrun
    exact hconfined.notes

/-- After any changes, however they fell between the looks of the loop and its compactions: once
the events are dealt with, a literal search of the index, which was built of the files as they were
before the start or when the last compaction began, delivers what a look at the files reports that a
build would find now. -/
theorem watched_search {z : Zstd} (hz : z.Lawful) (hbuilt : built.root = root)
    (hfs : fs.root = root)
    (hlog : ∀ n ∈ replayed, TextPath root n.1 ∧ n.2.path = watchedName root n.1)
    (hreplayed : (upsertedPaths (replayed.map Prod.snd)).card < 2 ^ 32)
    (hstart : ∀ p, TextPath root p →
      ShownNow root defaultMaxFileSize (watchStart built fs matcher replayed) p ∨
        ∃ fs' keys, Move.change fs' keys ∈ moves ∧ p ∈ keys)
    (hreported : Run.Guarded (step (watchLoop root defaultMaxFileSize threshold))
      (FilesReported w root) (watchStart built fs matcher replayed) moves)
    (hrun : Run.exec (step (watchLoop root defaultMaxFileSize threshold))
      (watchStart built fs matcher replayed) moves = some s) (hquiet : s.Quiet)
    (halike : LooksAlike env root s)
    {buildTime : ℕ} {recs : List BuildRec} (hrecs : recs.Perm (buildRecs env {} s.base))
    (hfits : BuildFits z buildTime recs)
    (hcard : ((notedRecs s.notes).map WalRecord.path).toFinset.card < 2 ^ 32) (cenv : ConnEnv)
    {req : SearchRequest} (hreq : req.LiteralPaths) (hdb : req.db = none)
    (hagree : (literalCtx req).AgreesOn (notedRecs s.notes)) (name : String) :
    ∃ ws, buildWrites z buildTime recs = .ok ws ∧ ∀ old, ∃ bytes r frames,
      Writes.apply ws old .db = some bytes ∧ DbReader.open bytes = .ok r ∧
      handleSearch cenv [⟨name, r.view z, loadShardSet (Writes.apply ws old),
        watchedOverlay s.notes⟩] req = .ok (.ok frames) ∧
      ((frames.flatMap ResponseFrame.batchHits).map Prod.fst).Nodup ∧
      ∀ h : Hit, h ∈ frames.flatMap ResponseFrame.batchHits ↔
        ((builtFiles env {} s.world).lookup h.1).bind ((literalCtx req).scanFile h.1) = some h.2 ∧
          passesAll cenv req (literalPlan req.query req.opts.case) h = true := by
  obtain ⟨⟨hworld, hbase⟩, hfresh, hnotes⟩ :=
    watched_at_rest hbuilt hfs hlog hreplayed hstart hreported hrun hquiet
  obtain ⟨ws, hws, hopens⟩ := reopens_of_perm hz hrecs hfits
  refine ⟨ws, hws, fun old => ?_⟩
  obtain ⟨bytes, r, frames, hbytes, hopen, hhandle, hnodup, hmem⟩ :=
    search_reopened (hopens old) hcard cenv hreq hdb hagree name
  refine ⟨bytes, r, frames, hbytes, hopen, hhandle, hnodup, fun h => ?_⟩
  rw [hmem, lookup_watched hworld hbase hfresh hnotes halike]

end Run

end Search

/-! ## One file -/

/-- Below the root there is the file or nothing. -/
lemma oneFile_resolve {p : List Bytes} (hroot : p ≠ []) (hfile : p ≠ [utf8 "a"])
    (data : Option Bytes) : (oneFile data).tree.resolve p = none := by
  cases p with
  | nil => exact absurd rfl hroot
  | cons name rest =>
      unfold oneFile
      rw [FileTree.resolve]
      cases data with
      | none => rfl
      | some bytes =>
          by_cases hname : name = utf8 "a"
          · cases rest with
            | nil => exact absurd (by rw [hname]) hfile
            | cons next rest => simp [hname, FileTree.resolve]
          · refine Option.bind_eq_none_iff.mpr fun t ht => ?_
            have hmem := AssocMap.mem_of_lookup ht
            exact absurd hmem (by simp [hname])

lemma oneFile_target {p : List Bytes} (hfile : p ≠ [utf8 "a"]) (data : Option Bytes) :
    (oneFile data).target p = (oneFile none).target p := by
  by_cases hroot : p = []
  · subst hroot
    rfl
  · rw [FileSystem.target, FileSystem.target, oneFile_resolve hroot hfile,
      oneFile_resolve hroot hfile]

def plainWalk : WalkEnv where
  standard _ _ _ := true
  otherDevice _ := false
  ignoreMatcher := none

lemma buildRecAt_of_unresolved {env : WalkEnv} {opts : ContentBuildOptions} {fs : FileSystem}
    {p : List Bytes} (h : fs.tree.resolve p = none) : buildRecAt env opts fs p = none := by
  rw [Option.eq_none_iff_forall_ne_some]
  intro r hr
  obtain ⟨u, hlisted, -⟩ := buildRecAt_eq_some.mp hr
  rw [hlisted.resolves] at h
  cases h

lemma textPath_oneFile : TextPath (utf8 "/r") [utf8 "a"] where
  names := by decide
  text := by decide +kernel

/-- The file is told of when it changes. -/
lemma filesReported_oneFile {w : WatchEnv} {s : WatchState} {old new : Option Bytes}
    (hsent : NotifyEvent.sent w ⟨false, [[utf8 "a"]]⟩ = true) (hworld : s.world = oneFile old) :
    FilesReported w (utf8 "/r") s (.change (oneFile new) [[utf8 "a"]]) := by
  refine ⟨[⟨false, [[utf8 "a"]]⟩], by simp [notified, hsent], rfl, ?_, ?_⟩
  · intro q hq
    obtain rfl := List.mem_singleton.mp hq
    exact textPath_oneFile
  · intro p _ hne
    have hp : p = [utf8 "a"] := by
      by_contra hp
      rw [hworld, oneFile_target hp, oneFile_target hp old] at hne
      exact hne rfl
    exact ⟨⟨false, [[utf8 "a"]]⟩, by simp, hsent, by simp [hp]⟩

/-- A walk sees the file as the loop does. -/
lemma looksAlike_written {s : WatchState} (hworld : s.world = oneFile (some (utf8 "key")))
    (hbase : s.base = oneFile none) (hseen : ∀ m ∈ s.seen, m = none)
    (hnotes : ∀ n ∈ s.notes, n.1 = [utf8 "a"]) : LooksAlike plainWalk (utf8 "/r") s where
  spared p _ hsame := by
    rw [hworld, hbase] at hsame ⊢
    by_cases hfile : p = [utf8 "a"]
    · rw [hfile] at hsame
      exact absurd hsame (by decide +kernel)
    · by_cases hroot : p = []
      · rw [hroot]
        decide +kernel
      · rw [buildRecAt_of_unresolved (oneFile_resolve hroot hfile _),
          buildRecAt_of_unresolved (oneFile_resolve hroot hfile _)]
  named n hn := by
    rw [hworld, hnotes n hn]
    refine ⟨fun m hm => ?_, by decide +kernel⟩
    rw [hseen m hm]
    rfl

lemma buildFits_oneFile : BuildFits .stored 5 (buildRecs plainWalk {} (oneFile none)) := by
  have hrecs : buildRecs plainWalk {} (oneFile none) = [⟨"/r", true, 64, 1, none⟩] := by
    decide +kernel
  have hgroups : recGroups (buildRecs plainWalk {} (oneFile none)) = [] := by
    rw [hrecs, recGroups]
    exact shardGroups.eq_1 [] |>.trans (if_pos rfl)
  refine ⟨by decide, by rw [hrecs]; decide, by rw [hrecs]; decide +kernel, ?_⟩
  rw [hgroups]
  simp

/-- The index was built without the file, and the log has it with other content. -/
def logOld : List (List Bytes × WalRecord) :=
  [([utf8 "a"], .upsert "/r/a" ⟨false, 3, 1⟩ (some (utf8 "old")))]

lemma logOld_text : ∀ n ∈ logOld, TextPath (utf8 "/r") n.1 ∧
    n.2.path = watchedName (utf8 "/r") n.1 := by
  intro n hn
  obtain rfl := List.mem_singleton.mp hn
  exact ⟨textPath_oneFile, by decide +kernel⟩

lemma shownNow_logOld {p : List Bytes} (hp : TextPath (utf8 "/r") p) (hfile : p ≠ [utf8 "a"]) :
    ShownNow (utf8 "/r") defaultMaxFileSize
      (watchStart (oneFile none) (oneFile (some (utf8 "old"))) none logOld) p := by
  refine Or.inr (Or.inr ⟨?_, oneFile_target hfile _⟩)
  rw [version_watchedOverlay (by decide +kernel), notedRecs_watchStart]
  have hname : "/r/a" ≠ watchedName (utf8 "/r") p := by
    intro hname
    have hsame := (logOld_text _ (List.mem_singleton_self _)).2.symm.trans hname
    exact hfile (hp.name_inj textPath_oneFile hsame).symm
  simp [logOld, hotVersion, WalRecord.path, hname]

/-- A file that was written after the build, and again after the daemon had come up, is found by the
content it has now. -/
theorem watched_search_written :
    let key : List Bytes := [utf8 "a"]
    let moves : List WatchMove := [.change (oneFile (some (utf8 "key"))) [key], .deliver 0,
      .receive, .pause, .begin, .take, .look, .look, .look, .look, .note, .rest]
    ∃ s, Run.exec (step (watchLoop (utf8 "/r") defaultMaxFileSize 2000))
        (watchStart (oneFile none) (oneFile (some (utf8 "old"))) none logOld) moves = some s ∧
      ∃ ws, buildWrites .stored 5 (buildRecs plainWalk {} (oneFile none)) = .ok ws ∧
      ∃ bytes r frames, Writes.apply ws (fun _ => none) .db = some bytes ∧
        DbReader.open bytes = .ok r ∧
        handleSearch plainEnv [⟨"default", r.view .stored,
          loadShardSet (Writes.apply ws fun _ => none), watchedOverlay s.notes⟩]
          { query := "key" } = .ok (.ok frames) ∧
        ("/r/a", ⟨false, 3, 1⟩, .content) ∈ frames.flatMap ResponseFrame.batchHits := by
  intro key moves
  let w : WatchEnv := ⟨[utf8 "r"], [utf8 "home", utf8 ".deep-find"]⟩
  obtain ⟨s, hrun, hquiet, hworld, hbase, hseen, hnotes⟩ :
      ∃ s, Run.exec (step (watchLoop (utf8 "/r") defaultMaxFileSize 2000))
          (watchStart (oneFile none) (oneFile (some (utf8 "old"))) none logOld) moves = some s ∧
        s.Quiet ∧ s.world = oneFile (some (utf8 "key")) ∧ s.base = oneFile none ∧
        s.seen = [none, none] ∧
        s.notes = [(key, some (.upsert "/r/a" ⟨false, 3, 1⟩ (some (utf8 "old")))),
          (key, some (.upsert "/r/a" ⟨false, 3, 1⟩ (some (utf8 "key"))))] :=
    ⟨_, rfl, ⟨rfl, rfl, rfl⟩, rfl, rfl, rfl, by decide +kernel⟩
  have hreported : Run.Guarded (step (watchLoop (utf8 "/r") defaultMaxFileSize 2000))
      (FilesReported w (utf8 "/r"))
      (watchStart (oneFile none) (oneFile (some (utf8 "old"))) none logOld) moves := by
    have hwritten := @filesReported_oneFile w
      (watchStart (oneFile none) (oneFile (some (utf8 "old"))) none logOld) (some (utf8 "old"))
      (some (utf8 "key")) (by decide) rfl
    refine ⟨hwritten, guarded_inner ?_ (by simp [Move.Inner]) _⟩
    intro s m hm
    cases m with
    | change fs keys => exact hm.elim
    | _ => trivial
  have hstart : ∀ p, TextPath (utf8 "/r") p →
      ShownNow (utf8 "/r") defaultMaxFileSize
          (watchStart (oneFile none) (oneFile (some (utf8 "old"))) none logOld) p ∨
        ∃ fs' keys, Move.change fs' keys ∈ moves ∧ p ∈ keys := by
    intro p hp
    by_cases hfile : p = key
    · exact Or.inr ⟨_, [key], List.mem_cons_self .., List.mem_singleton.mpr hfile⟩
    · exact Or.inl (shownNow_logOld hp hfile)
  have hrecs : (buildRecs plainWalk {} (oneFile none)).Perm (buildRecs plainWalk {} s.base) := by
    rw [hbase]
  have halike : LooksAlike plainWalk (utf8 "/r") s :=
    looksAlike_written hworld hbase (by simp [hseen]) (by simp [hnotes, key])
  have hcard : ((notedRecs s.notes).map WalRecord.path).toFinset.card < 2 ^ 32 := by
    rw [hnotes]
    decide
  have hagree : (literalCtx { query := "key" }).AgreesOn (notedRecs s.notes) := agreesOn_key _
  obtain ⟨ws, hws, hdisk⟩ := @watched_search w (utf8 "/r") 2000 plainWalk s (oneFile none)
    (oneFile (some (utf8 "old"))) none logOld moves .stored Zstd.stored_lawful rfl rfl logOld_text
    (by decide +kernel) hstart hreported hrun hquiet halike 5 _ hrecs buildFits_oneFile hcard
    plainEnv { query := "key" } literalPaths_key rfl hagree "default"
  obtain ⟨bytes, r, frames, hbytes, hopen, hhandle, -, hmem⟩ := hdisk fun _ => none
  refine ⟨s, hrun, ws, hws, bytes, r, frames, hbytes, hopen, hhandle, (hmem _).mpr ?_⟩
  rw [hworld]
  exact ⟨by decide +kernel, by decide +kernel⟩

end DeepFinder
