import DeepFinder.Daemon.Effects
import DeepFinder.Daemon.Reads

/-!
# A rebuild after missed changes

A full build reads the files as they are, so it should make up for changes that no watcher reported.
What it stores is read through an overlay, and the log, the batches of watchers and the sets of
other reloads can all hold something older.  `rebuild_heals` says that nothing else stands in the
way, and `rebuild_keeps_stale_record` is a rebuild after which a deleted file is still found.

`NothingOlder` is about the moment when the rebuild stores its set: no overlay, log or batch of a
watcher has an older version of the path, no other reload in flight holds one, and the shards that a
rebuild has reloaded are those that its set carries on.  Before and after it the path stays as the
build finds it: no build in progress has begun before its last change (`BeforeRebuild.seeing`), and
there is no other change until the query is over.
-/

namespace DeepFinder

/-! ## What is recorded of a path -/

/-- The records say nothing of the path, or this version of it. -/
def Told (recs : List WalRecord) (path : String) (v : Option FileVersion) : Prop :=
  ∀ w ∈ hotVersion recs path, w = v

instance (recs : List WalRecord) (path : String) (v : Option FileVersion) :
    Decidable (Told recs path v) := inferInstanceAs (Decidable (∀ w ∈ _, _))

lemma told_nil (path : String) (v : Option FileVersion) : Told [] path v := fun _ h => by cases h

lemma told_concat {recs : List WalRecord} {r : WalRecord} {path : String} {v : Option FileVersion}
    (h : Told recs path v) (hr : path = r.path → r.version = v) : Told (recs ++ [r]) path v := by
  intro w hw
  rw [hotVersion_concat] at hw
  split at hw
  · rename_i hpath
    rw [← Option.some.inj hw]
    exact hr hpath
  · exact h w hw

lemma hotVersion_append (recs recs' : List WalRecord) (path : String) :
    hotVersion (recs ++ recs') path = (hotVersion recs' path).or (hotVersion recs path) := by
  induction recs' using List.reverseRecOn with
  | nil => rw [List.append_nil]; rfl
  | append_singleton recs' r ih =>
      rw [← List.append_assoc, hotVersion_concat, hotVersion_concat]
      split
      · rfl
      · exact ih

lemma Told.append {recs recs' : List WalRecord} {path : String} {v : Option FileVersion}
    (h : Told recs path v) (h' : Told recs' path v) : Told (recs ++ recs') path v := by
  intro w hw
  rw [hotVersion_append, Option.mem_def, Option.or_eq_some_iff] at hw
  rcases hw with hw | ⟨-, hw⟩
  · exact h' w hw
  · exact h w hw

lemma recordOf_path (files : String → Option FileVersion) (path : String) :
    (recordOf files path).path = path := by
  unfold recordOf
  split <;> rfl

lemma recordOf_version (files : String → Option FileVersion) (path : String) :
    (recordOf files path).version = files path := by
  unfold recordOf
  split
  · rename_i v hv
    rw [hv]
    rfl
  · rename_i hv
    rw [hv]
    rfl

lemma told_observed {files : String → Option FileVersion} {path : String} {v : Option FileVersion}
    (h : files path = v) (paths : List String) : Told (paths.map (recordOf files)) path v := by
  induction paths using List.reverseRecOn with
  | nil => exact told_nil _ _
  | append_singleton paths p ih =>
      rw [List.map_append, List.map_singleton]
      refine told_concat ih fun hp => ?_
      rw [recordOf_path] at hp
      rw [recordOf_version, ← hp, h]

/-! ## Nothing older -/

def ServerState.ShardsHold (s : ServerState) (d path : String) (v : Option FileVersion) (n : ℕ) :
    Prop :=
  ∃ c ∈ s.shards d n, c.docs path = v

/-- The entry has this version in its reader and its shards, and nothing older in its overlay.  The
overlay may have the version itself: a watcher can have been told of the change after all. -/
structure LiveEntry.Holds (s : ServerState) (path : String) (v : Option FileVersion)
    (e : LiveEntry) : Prop where
  db : e.db.docs path = v
  shards : s.ShardsHold e.dbPath path v e.shards
  overlay : Told (s.overlays e.dbPath e.overlay) path v

/-- Every build of the database that is in progress began after the last change of the path. -/
structure Seeing (s : ServerState) (d path : String) (v : Option FileVersion) : Prop where
  files_eq : s.files d path = v
  seen : ∀ t ∈ s.workers, ∀ b ∈ t.building, b.dbPath = d → ∀ files ∈ b.seen, files path = v

def ServerState.DiskHolds (s : ServerState) (d path : String) (v : Option FileVersion) : Prop :=
  ∃ c ∈ s.disk d, c.docs path = v

/-- Nothing older is recorded, or read by a watcher and not yet applied. -/
structure NothingRecorded (s : ServerState) (d path : String) (v : Option FileVersion) : Prop where
  wal : Told (s.wal d) path v
  pending : ∀ x ∈ s.watchers, x.dbPath = d → ∀ recs ∈ x.pending, Told recs path v

/-- Nothing older of the path is left anywhere. -/
structure Healed (s : ServerState) (d path : String) (v : Option FileVersion) : Prop where
  seeing : Seeing s d path v
  disk : s.DiskHolds d path v
  recorded : NothingRecorded s d path v
  published : ∀ e ∈ s.published, e.dbPath = d → e.Holds s path v
  fresh : ∀ t ∈ s.workers, ∀ e ∈ t.fresh, e.dbPath = d → e.Holds s path v
  old : ∀ t ∈ s.workers, ∀ e ∈ t.old, e.dbPath = d → e.Holds s path v

section Steps

variable {s s' : ServerState} {ev : ServerEvent} {d path : String} {v : Option FileVersion}

lemma Seeing.step (h : Seeing s d path v) (hev : ∀ w, ev ≠ .change d path w)
    (hstep : s.step ev = some s') : Seeing s' d path v := by
  refine ⟨(files_step hstep hev).trans h.files_eq, fun t ht b hb hd files hf => ?_⟩
  rcases building_step hstep ht hb with hseen | ⟨u, hu, b', hb', hd', hseen⟩
  · rw [hseen] at hf
    cases hf
  · rcases hseen files hf with hf | hf
    · exact h.seen u hu b' hb' (hd'.trans hd) files hf
    · rw [hf, hd]
      exact h.files_eq

lemma Seeing.diskHolds_step (h : Seeing s d path v) (hdisk : s.DiskHolds d path v)
    (hstep : s.step ev = some s') : s'.DiskHolds d path v := by
  rcases disk_step hstep d with heq | ⟨t, ht, b, hb, hd, build, pick, heq⟩
  · rw [ServerState.DiskHolds, heq]
    exact hdisk
  · exact ⟨_, heq, RunningBuild.docs_of_seen (h.seen t ht b hb hd) h.files_eq pick⟩

lemma shardsHold_step (hdisk : s.DiskHolds d path v) {n : ℕ} (h : s.ShardsHold d path v n)
    (hstep : s.step ev = some s') : s'.ShardsHold d path v n := by
  unfold ServerState.ShardsHold
  rcases shards_step hstep d n with heq | heq
  · rw [heq]
    exact h
  · rw [heq]
    exact hdisk

lemma Told.records (hpending : ∀ x ∈ s.watchers, x.dbPath = d → ∀ recs ∈ x.pending,
    Told recs path v) {recs recs' : List WalRecord} (h : Told recs path v)
    (hrecs : Records s d recs recs') : Told recs' path v := by
  rcases hrecs with rfl | rfl | ⟨x, hx, hd, batch, hbatch, rfl⟩
  · exact h
  · exact told_nil _ _
  · exact h.append (hpending x hx hd batch hbatch)

lemma NothingRecorded.overlays_step (h : NothingRecorded s d path v) {o : ℕ}
    (htold : Told (s.overlays d o) path v) (hstep : s.step ev = some s') :
    Told (s'.overlays d o) path v := by
  rcases DeepFinder.overlays_step hstep d o with heq | hrecs
  · rw [heq]
    exact h.wal
  · exact htold.records h.pending hrecs

lemma NothingRecorded.step (h : NothingRecorded s d path v) (hfiles : s.files d path = v)
    (hstep : s.step ev = some s') : NothingRecorded s' d path v := by
  refine ⟨h.wal.records h.pending (wal_step hstep d), fun x hx hd batch hbatch => ?_⟩
  rcases pending_step hstep hx hbatch with ⟨y, hy, hyd, hbatch⟩ | ⟨paths, rfl⟩
  · exact h.pending y hy (hyd.trans hd) batch hbatch
  · rw [hd]
    exact told_observed hfiles paths

lemma Opened.docs_eq {e : LiveEntry} (h : Opened s s' e) (hdisk : s.DiskHolds d path v)
    (hd : e.dbPath = d) : e.db.docs path = v := by
  obtain ⟨c, hc, hdocs⟩ := hdisk
  have hdb := h.db
  rw [hd, hc] at hdb
  obtain rfl := Option.some.inj hdb
  exact hdocs

lemma Healed.holds_step (h : Healed s d path v) (hstep : s.step ev = some s') {e : LiveEntry}
    (hd : e.dbPath = d) (he : e.Holds s path v) : e.Holds s' path v := by
  obtain ⟨hdb, hshards, hoverlay⟩ := he
  rw [hd] at hshards hoverlay
  refine ⟨hdb, ?_, ?_⟩
  · rw [hd]
    exact shardsHold_step h.disk hshards hstep
  · rw [hd]
    exact h.recorded.overlays_step hoverlay hstep

/-- An entry that takes the reader of one that holds and the handles of another. -/
lemma holds_of_reused {fresh old : DbSet} {e : LiveEntry}
    (hfresh : ∀ e ∈ fresh, e.dbPath = d → e.Holds s path v)
    (hold : ∀ e ∈ old, e.dbPath = d → e.Holds s path v) (he : e ∈ reuseHandlesFrom fresh old)
    (hd : e.dbPath = d) : e.Holds s path v := by
  obtain ⟨f, hf, hfd, hdb, hhandles⟩ := mem_reuseHandlesFrom he
  obtain ⟨hread, hshards, hoverlay⟩ := hfresh f hf (hfd.trans hd)
  rcases hhandles with ⟨hn, ho⟩ | ⟨o, ho, hod, hn, hov⟩
  · rw [hfd, hn] at hshards
    rw [hfd, ho] at hoverlay
    exact ⟨hdb ▸ hread, hshards, hoverlay⟩
  · obtain ⟨-, hshards, hoverlay⟩ := hold o ho (hod.trans hd)
    rw [hod, hn] at hshards
    rw [hod, hov] at hoverlay
    exact ⟨hdb ▸ hread, hshards, hoverlay⟩

/-- Nothing older comes back. -/
theorem Healed.step (h : Healed s d path v) (hev : ∀ w, ev ≠ .change d path w)
    (hstep : s.step ev = some s') : Healed s' d path v := by
  have hheld : ∀ e : LiveEntry, e.dbPath = d → e.Holds s path v → e.Holds s' path v :=
    fun e hd he => h.holds_step hstep hd he
  refine
    { seeing := h.seeing.step hev hstep
      disk := h.seeing.diskHolds_step h.disk hstep
      recorded := h.recorded.step h.seeing.files_eq hstep
      published := fun e he hd => ?_
      fresh := fun t ht e he hd => ?_
      old := fun t ht e he hd => ?_ }
  · apply hheld e hd
    rcases published_step hstep he with he | ⟨u, hu, he⟩
    · exact h.published e he hd
    · exact h.fresh u hu e he hd
  · rcases fresh_step hstep ht he with ⟨u, hu, he⟩ | hopened | ⟨u, hu, he⟩
    · exact hheld e hd (h.fresh u hu e he hd)
    · have hdocs := hopened.docs_eq h.disk hd
      refine ⟨hdocs, ⟨_, hopened.shards, hdocs⟩, ?_⟩
      rw [hopened.overlay, hd]
      exact h.recorded.wal
    · exact hheld e hd (holds_of_reused (h.fresh u hu) (h.old u hu) he hd)
  · apply hheld e hd
    rcases old_step hstep ht he with he | ⟨u, hu, he⟩
    · exact h.published e he hd
    · exact h.old u hu e he hd

end Steps

/-! ## The rebuild -/

/-- A thread is about to begin a background build or a rebuild of a database, and no build of it in
progress began before the last change of the path. -/
structure BeforeRebuild (s : ServerState) (i : ℕ) (d : String) (job : Job)
    (jobs : List (String × Job)) (path : String) : Prop where
  kind : job = .spawnBuild ∨ ∃ n, job = .rebuildAndSwap n
  thread : ∃ t ∈ s.workers[i]?, t.jobs = (d, job) :: jobs ∧ t.building = none ∧ t.todo = []
  seeing : Seeing s d path (s.files d path)

/-- The thread has built the database, with the version of the path, and taken some of the steps
that follow. -/
structure Rebuilt (s : ServerState) (d : String) (job : Job) (path : String)
    (v : Option FileVersion) (t : Worker) : Prop where
  building_none : t.building = none
  todo : t.todo <:+ job.after d
  disk : s.DiskHolds d path v
  fresh : ∀ e ∈ t.fresh, e.dbPath = d → e.db.docs path = v
  fresh_shards : job = .spawnBuild → ∀ e ∈ t.fresh, e.dbPath = d → s.ShardsHold d path v e.shards
  reloaded : ∀ n, job = .rebuildAndSwap n → .reloadShards d n ∉ t.todo → s.ShardsHold d path v n

/-- Where the thread is: before the build, in it or without it, after it, or at a later job. -/
structure RebuildInv (s : ServerState) (i : ℕ) (d : String) (job : Job)
    (jobs : List (String × Job)) (path : String) (v : Option FileVersion) : Prop where
  seeing : Seeing s d path v
  thread : ∃ t ∈ s.workers[i]?,
    (t.jobs = (d, job) :: jobs ∧ t.building = none ∧ t.todo = []) ∨
    (t.jobs = jobs ∧ t.todo = [] ∧ ∀ b ∈ t.building, b.dbPath = d ∧ b.job = job) ∨
    (t.jobs = jobs ∧ Rebuilt s d job path v t) ∨ t.jobs.length < jobs.length

section Rebuild

variable {s s' : ServerState} {ev : ServerEvent} {i : ℕ} {d path : String} {job : Job}
  {jobs : List (String × Job)} {v : Option FileVersion} {t t' : Worker}

/-- A step of the program that follows the build. -/
lemma Rebuilt.execute (h : Rebuilt s d job path v t) (hseeing : Seeing s d path v) {instr : Instr}
    {todo : List Instr} (htodo : t.todo = instr :: todo)
    (hstep : s.step ev = some (s.execute i t todo instr))
    (hexec : Executed s (s.execute i t todo instr) t instr todo t') :
    Rebuilt (s.execute i t todo instr) d job path v t' := by
  have htail : t'.todo = todo ∨ t'.todo = t.todo := hexec.todo_eq.imp_right And.right
  have hsuffix : t'.todo <:+ job.after d := by
    rcases htail with heq | heq
    · rw [heq]
      exact (List.suffix_cons instr todo).trans (htodo ▸ h.todo)
    · rw [heq]
      exact h.todo
  refine ⟨hexec.building_eq.trans h.building_none, hsuffix, hseeing.diskHolds_step h.disk hstep,
    fun e he hd => ?_, fun hjob e he hd => ?_, fun n hjob hn => ?_⟩
  · rcases hexec.fresh e he with he | hopened | ⟨-, he⟩
    · exact h.fresh e he hd
    · exact hopened.docs_eq h.disk hd
    · obtain ⟨f, hf, hfd, hdb, -⟩ := mem_reuseHandlesFrom he
      rw [← hdb]
      exact h.fresh f hf (hfd.trans hd)
  · rcases hexec.fresh e he with he | hopened | ⟨hreuse, he⟩
    · exact shardsHold_step h.disk (h.fresh_shards hjob e he hd) hstep
    · exact ⟨e.db, hd ▸ hopened.shards, hopened.docs_eq h.disk hd⟩
    · -- no handles are carried over after a background build
      have hmem : instr ∈ job.after d := h.todo.subset (by rw [htodo]; exact List.mem_cons_self ..)
      rw [hjob, hreuse] at hmem
      simp [Job.after] at hmem
  · by_cases hpending : .reloadShards d n ∈ t.todo
    · obtain rfl : instr = .reloadShards d n := by
        rcases htail with heq | heq
        · rw [htodo] at hpending
          rcases List.mem_cons.mp hpending with hpending | hpending
          · exact hpending.symm
          · exact absurd (heq ▸ hpending) hn
        · exact absurd (heq ▸ hpending) hn
      change ∃ c ∈ (s.setShards d n (s.disk d)).shards d n, c.docs path = v
      rw [shards_setShards, if_pos ⟨rfl, rfl⟩]
      exact h.disk
    · exact shardsHold_step h.disk (h.reloaded n hjob hpending) hstep

/-- Another thread takes a step. -/
lemma Rebuilt.sameWork (h : Rebuilt s d job path v t) (hseeing : Seeing s d path v)
    (hstep : s.step ev = some s') (hsame : SameWork t t') : Rebuilt s' d job path v t' where
  building_none := by
    cases hb : t'.building with
    | none => rfl
    | some b =>
        obtain ⟨b', hb', -⟩ := hsame.building b hb
        rw [h.building_none] at hb'
        cases hb'
  todo := hsame.todo_eq ▸ h.todo
  disk := hseeing.diskHolds_step h.disk hstep
  fresh := hsame.fresh_eq ▸ h.fresh
  fresh_shards hjob e he hd :=
    shardsHold_step h.disk (h.fresh_shards hjob e (hsame.fresh_eq ▸ he) hd) hstep
  reloaded n hjob hn :=
    shardsHold_step h.disk (h.reloaded n hjob (hsame.todo_eq ▸ hn)) hstep

lemma BeforeRebuild.rebuildInv (h : BeforeRebuild s i d job jobs path) :
    RebuildInv s i d job jobs path (s.files d path) := by
  obtain ⟨t, hi, ht⟩ := h.thread
  exact ⟨h.seeing, t, hi, .inl ht⟩

/-- The build is over, and its index is on disk. -/
lemma rebuilt_finish (hseeing : Seeing s d path v) (hi : s.workers[i]? = some t)
    {b : RunningBuild} (hb : t.building = some b) (hd : b.dbPath = d) (hjob : b.job = job)
    (pick : String → ℕ) : ∃ t' ∈ (s.finishBuild i t b pick).workers[i]?, t'.jobs = t.jobs ∧
      Rebuilt (s.finishBuild i t b pick) d job path v t' := by
  subst hd hjob
  refine ⟨_, List.getElem?_set_self (List.getElem?_eq_some_iff.mp hi).1, rfl, ?_⟩
  exact
    { building_none := rfl
      todo := List.suffix_refl _
      disk := ⟨_, Function.update_self .., RunningBuild.docs_of_seen
        (hseeing.seen t (List.mem_of_getElem? hi) b hb rfl) hseeing.files_eq pick⟩
      fresh := fun e he => by cases he
      fresh_shards := fun _ e he => by cases he
      reloaded := fun n hn hmem => absurd (by rw [hn]; simp [Job.after]) hmem }

/-- A step keeps the thread where it can be. -/
theorem RebuildInv.step (h : RebuildInv s i d job jobs path v) (hcrash : ev ≠ .crash)
    (hev : ∀ w, ev ≠ .change d path w) (hstep : s.step ev = some s') :
    RebuildInv s' i d job jobs path v := by
  obtain ⟨hseeing, t, hi, hwhere⟩ := h
  -- The thread is before its build, in it, behind it with the sets of the rebuild, or done with the
  -- job; a step of another thread leaves it where it is.
  refine ⟨hseeing.step hev hstep, ?_⟩
  have hlt := (List.getElem?_eq_some_iff.mp hi).1
  rcases worker_step hstep hcrash hi with ⟨t', hi', hsame⟩ | rfl | ⟨pick, rfl⟩ | rfl
  · -- the thread stays
    refine ⟨t', hi', ?_⟩
    rw [hsame.jobs_eq, hsame.todo_eq]
    rcases hwhere with ⟨hjobs, hnone, htodo⟩ | ⟨hjobs, htodo, hb⟩ | ⟨hjobs, hbuilt⟩ | hlater
    · refine .inl ⟨hjobs, ?_, htodo⟩
      cases hb : t'.building with
      | none => rfl
      | some b =>
          obtain ⟨b', hb', -⟩ := hsame.building b hb
          rw [hnone] at hb'
          cases hb'
    · refine .inr (.inl ⟨hjobs, htodo, fun b hb' => ?_⟩)
      obtain ⟨b', hb', hd, hjob⟩ := hsame.building b hb'
      rw [← hd, ← hjob]
      exact hb b' hb'
    · exact .inr (.inr (.inl ⟨hjobs, hbuilt.sameWork hseeing hstep hsame⟩))
    · exact .inr (.inr (.inr hlater))
  · -- the thread takes a step
    obtain ⟨t₀, hi₀, hrun⟩ := Option.bind_eq_some_iff.mp hstep
    obtain rfl := Option.some.inj (hi.symm.trans hi₀)
    obtain ⟨hnone, ⟨instr, todo, htodo, rfl⟩ | ⟨d', job', rest, htodo, hjobs', rfl⟩⟩ :=
      runWorker_cases hrun
    · obtain ⟨t', hwork, hexec⟩ := execute_workers s i t instr todo
      refine ⟨t', ?_, ?_⟩
      · rw [hwork]
        exact List.getElem?_set_self hlt
      · rw [hexec.jobs_eq]
        rcases hwhere with ⟨-, -, hnil⟩ | ⟨-, hnil, -⟩ | ⟨hjobs, hbuilt⟩ | hlater
        · rw [hnil] at htodo
          cases htodo
        · rw [hnil] at htodo
          cases htodo
        · exact .inr (.inr (.inl ⟨hjobs, hbuilt.execute hseeing htodo hstep hexec⟩))
        · exact .inr (.inr (.inr hlater))
    · obtain ⟨t', hbegin, hrest, hnil, hb⟩ := beginJob_eq s i t d' job' rest
      rw [hbegin]
      refine ⟨t', List.getElem?_set_self hlt, ?_⟩
      rw [hrest, hnil]
      rcases hwhere with ⟨hjobs, -, -⟩ | ⟨hjobs, -, -⟩ | ⟨hjobs, -⟩ | hlater
      · rw [hjobs] at hjobs'
        obtain ⟨hhead, rfl⟩ := List.cons.inj hjobs'
        obtain ⟨rfl, rfl⟩ := Prod.mk.inj hhead
        refine .inr (.inl ⟨rfl, htodo, fun b hb' => ?_⟩)
        rcases hb with hb | hb
        · rw [hb, hnone] at hb'
          cases hb'
        · rw [hb] at hb'
          obtain rfl := Option.some.inj hb'
          exact ⟨rfl, rfl⟩
      · refine .inr (.inr (.inr ?_))
        rw [← hjobs, hjobs']
        exact Nat.lt_succ_self _
      · refine .inr (.inr (.inr ?_))
        rw [← hjobs, hjobs']
        exact Nat.lt_succ_self _
      · refine .inr (.inr (.inr ?_))
        rw [hjobs'] at hlater
        exact Nat.lt_of_succ_lt hlater
  · -- the build completes
    obtain ⟨t₀, hi₀, hfinish⟩ := Option.bind_eq_some_iff.mp hstep
    obtain rfl := Option.some.inj (hi.symm.trans hi₀)
    obtain ⟨b, hb, rfl⟩ := Option.map_eq_some_iff.mp hfinish
    rcases hwhere with ⟨-, hnone, -⟩ | ⟨hjobs, -, hbuild⟩ | ⟨-, hbuilt⟩ | hlater
    · rw [hnone] at hb
      cases hb
    · obtain ⟨hd, hjob⟩ := hbuild b hb
      obtain ⟨t', ht', hjobs', hbuilt⟩ := rebuilt_finish hseeing hi hb hd hjob pick
      exact ⟨t', ht', .inr (.inr (.inl ⟨hjobs'.trans hjobs, hbuilt⟩))⟩
    · rw [hbuilt.building_none] at hb
      cases hb
    · exact ⟨_, List.getElem?_set_self hlt, .inr (.inr (.inr hlater))⟩
  · -- the build fails
    obtain ⟨t₀, hi₀, hfail⟩ := Option.bind_eq_some_iff.mp hstep
    obtain rfl := Option.some.inj (hi.symm.trans hi₀)
    obtain ⟨b, hb, rfl⟩ := Option.map_eq_some_iff.mp hfail
    refine ⟨_, List.getElem?_set_self hlt, ?_⟩
    rcases hwhere with ⟨-, hnone, -⟩ | ⟨hjobs, htodo, -⟩ | ⟨-, hbuilt⟩ | hlater
    · rw [hnone] at hb
      cases hb
    · exact .inr (.inl ⟨hjobs, htodo, fun b hb => by cases hb⟩)
    · rw [hbuilt.building_none] at hb
      cases hb
    · exact .inr (.inr (.inr hlater))

/-- The thread is about to store the set that follows the build.  `NothingOlder` is asked of this
moment. -/
def StoresNext (s : ServerState) (i : ℕ) (jobs : List (String × Job)) : Prop :=
  ∃ t ∈ s.workers[i]?, t.jobs = jobs ∧ t.todo.head? = some .store

/-- When the thread stores its set, nothing older is recorded, no other reload holds anything older,
and a rebuild has carried over the shards that it reloaded. -/
structure NothingOlder (s : ServerState) (i : ℕ) (d : String) (job : Job) (path : String)
    (v : Option FileVersion) : Prop where
  recorded : NothingRecorded s d path v
  overlays : ∀ t ∈ s.workers[i]?, ∀ e ∈ t.fresh, e.dbPath = d → Told (s.overlays d e.overlay) path v
  carried : ∀ t ∈ s.workers[i]?, ∀ e ∈ t.fresh, e.dbPath = d →
    job = .spawnBuild ∨ job = .rebuildAndSwap e.shards
  others : ∀ u ∈ s.workers.eraseIdx i, ∀ e ∈ u.fresh ++ u.old, e.dbPath = d → e.Holds s path v

/-- The set that the thread stores has nothing older, and nothing older comes back. -/
lemma RebuildInv.healed_store (h : RebuildInv s i d job jobs path v)
    (hstores : StoresNext s i jobs) (hclean : NothingOlder s i d job path v)
    (hstep : s.step (.run i) = some s') : Healed s' d path v := by
  obtain ⟨hseeing, t, hi, hwhere⟩ := h
  obtain ⟨t₀, hi₀, hjobs, hhead⟩ := hstores
  obtain rfl := Option.some.inj (hi.symm.trans hi₀)
  obtain ⟨todo, htodo⟩ : ∃ todo, t.todo = .store :: todo := by
    cases htodo : t.todo with
    | nil =>
        rw [htodo] at hhead
        cases hhead
    | cons instr todo =>
        rw [htodo] at hhead
        exact ⟨todo, by rw [Option.some.inj hhead]⟩
  have hbuilt : Rebuilt s d job path v t := by
    rcases hwhere with ⟨-, -, hnil⟩ | ⟨-, hnil, -⟩ | ⟨-, hbuilt⟩ | hlater
    · rw [hnil] at htodo
      cases htodo
    · rw [hnil] at htodo
      cases htodo
    · exact hbuilt
    · rw [hjobs] at hlater
      exact absurd hlater (Nat.lt_irrefl _)
  -- What the guard asks of the moment before the store is still so behind it, since the path does
  -- not change and the store writes neither overlay nor log.
  have hrecorded := hclean.recorded.step hseeing.files_eq hstep
  have hseeing' := hseeing.step (fun w => by simp) hstep
  have hdisk' := hseeing.diskHolds_step hbuilt.disk hstep
  obtain ⟨t₁, hi₁, hrun⟩ := Option.bind_eq_some_iff.mp hstep
  obtain rfl := Option.some.inj (hi.symm.trans hi₁)
  obtain ⟨-, ⟨instr, rest, hcons, rfl⟩ | ⟨_, _, _, hnil, -⟩⟩ := runWorker_cases hrun
  · rw [htodo] at hcons
    obtain ⟨rfl, rfl⟩ := List.cons.inj hcons
    have hothers : ∀ (u : Worker), u ∈ (s.execute i t todo .store).workers →
        ∀ e ∈ u.fresh ++ u.old, e.dbPath = d → e.Holds s path v := by
      apply workers_setWorker_at
      · exact fun e he => by cases he
      · intro j u hij hj
        exact hclean.others u (List.mem_eraseIdx_iff_getElem?.mpr ⟨j, hij, hj⟩)
    refine ⟨hseeing', hdisk', hrecorded, fun e he hd => ?_, fun u hu e he hd => ?_,
      fun u hu e he hd => ?_⟩
    · refine ⟨hbuilt.fresh e he hd, ?_, ?_⟩
      · rw [hd]
        rcases hclean.carried t hi e he hd with hjob | hjob
        · exact hbuilt.fresh_shards hjob e he hd
        · refine hbuilt.reloaded _ hjob ?_
          have hsuffix := hbuilt.todo
          rw [htodo, hjob] at hsuffix
          obtain rfl : todo = [.release] := by
            simpa [Job.after, reloadReusing, List.suffix_cons_iff] using hsuffix
          rw [htodo]
          simp
      · rw [hd]
        exact hclean.overlays t hi e he hd
    · obtain ⟨hdb, hshards, hoverlay⟩ := hothers u hu e (List.mem_append_left _ he) hd
      exact ⟨hdb, hshards, hoverlay⟩
    · obtain ⟨hdb, hshards, hoverlay⟩ := hothers u hu e (List.mem_append_right _ he) hd
      exact ⟨hdb, hshards, hoverlay⟩
  · rw [hnil] at htodo
    cases htodo

/-- Nothing older comes back in a run, nor into handles that had nothing older. -/
theorem Healed.run (h : Healed s d path v) {evs : List ServerEvent}
    (hquiet : ∀ ev ∈ evs, ∀ w, ev ≠ .change d path w)
    (hrun : Run.exec ServerState.step s evs = some s') :
    Healed s' d path v ∧ ∀ e : LiveEntry, e.dbPath = d → e.Holds s path v → e.Holds s' path v := by
  apply @Run.exec_invariant_of_guarded _ _ ServerState.step
    (fun _ ev => ∀ w, ev ≠ .change d path w)
    (fun t => Healed t d path v ∧ ∀ e : LiveEntry, e.dbPath = d → e.Holds s path v →
      e.Holds t path v) ?_ s s' evs ⟨h, fun _ _ he => he⟩
    (Run.guarded_of_forall ServerState.step hquiet s) hrun
  rintro t ev t' hev ⟨hhealed, hheld⟩ hstep
  exact ⟨hhealed.step hev hstep, fun e hd he => hhealed.holds_step hstep hd (hheld e hd he)⟩

/-- A query that reads such handles has this version. -/
lemma LiveEntry.Holds.serves {s₁ s₂ : ServerState} {e : LiveEntry} (h₁ : e.Holds s₁ path v)
    (h₂ : e.Holds s₂ path v) : (e.reads s₁ s₂).Serves path v := by
  cases hhot : hotVersion (e.reads s₁ s₂).overlay path with
  | some w =>
      obtain rfl := h₂.overlay w hhot
      exact QueryReads.serves_of_hot hhot
  | none =>
      obtain ⟨c, hc, hdocs⟩ := h₁.shards
      rw [QueryReads.serves_iff_of_cold hhot, LiveEntry.reads, Option.mem_def.mp hc]
      refine ⟨?_, ?_⟩
      · change (e.db.docs path).map FileVersion.lite = _
        rw [h₁.db]
      · change (c.docs path).bind FileVersion.indexed = _
        rw [hdocs]

end Rebuild

/-- Once a background build or a rebuild that began after the last change of a path has stored its
set, every later query has the path as it is on disk, when nothing older was recorded or held by
another reload at that time. -/
theorem rebuild_heals {s s₁ s₂ s₃ s₄ : ServerState} {i : ℕ} {d path : String} {job : Job}
    {jobs : List (String × Job)} {as bs cs ds : List ServerEvent} {e : LiveEntry}
    (h : BeforeRebuild s i d job jobs path)
    (hbuild : Run.exec ServerState.step s as = some s₁)
    (halive : ∀ ev ∈ as, ev ≠ .crash) (hstores : StoresNext s₁ i jobs)
    (hclean : NothingOlder s₁ i d job path (s.files d path))
    (hconnect : Run.exec ServerState.step s₁ (.run i :: bs) = some s₂) (he : e ∈ s₂.published)
    (hd : e.dbPath = d) (hshards : Run.exec ServerState.step s₂ cs = some s₃)
    (hoverlay : Run.exec ServerState.step s₃ ds = some s₄)
    (hquiet : ∀ ev ∈ as ++ bs ++ cs ++ ds, ∀ w, ev ≠ .change d path w) :
    (e.reads s₃ s₄).Serves path (s₄.files d path) := by
  -- Up to the store the run keeps the place of the thread and what it has read of the path.
  have hinv : RebuildInv s₁ i d job jobs path (s.files d path) :=
    @Run.exec_invariant_of_guarded _ _ ServerState.step
      (fun _ ev => ev ≠ .crash ∧ ∀ w, ev ≠ .change d path w)
      (fun t => RebuildInv t i d job jobs path (s.files d path))
      (fun _ _ _ hev hinv hstep => hinv.step hev.1 hev.2 hstep) _ _ _ h.rebuildInv
      (Run.guarded_of_forall ServerState.step
        (fun ev hev => ⟨halive ev hev, hquiet ev (by simp [hev])⟩) s) hbuild
  -- The store makes the published set one that has nothing older, and from there on nothing older
  -- comes back, in the set that the query takes and in the handles that it reads through later.
  obtain ⟨t, hstore, hrest⟩ := Option.bind_eq_some_iff.mp hconnect
  have hstored := hinv.healed_store hstores hclean hstore
  obtain ⟨hhealed₂, -⟩ := hstored.run (fun ev hev => hquiet ev (by simp [hev])) hrest
  have hentry := hhealed₂.published e he hd
  obtain ⟨hhealed₃, hheld₃⟩ := hhealed₂.run (fun ev hev => hquiet ev (by simp [hev])) hshards
  obtain ⟨hhealed₄, hheld₄⟩ := hhealed₃.run (fun ev hev => hquiet ev (by simp [hev])) hoverlay
  rw [hhealed₄.seeing.files_eq]
  exact (hheld₃ e hd hentry).serves (hheld₄ e hd (hheld₃ e hd hentry))

/-! ## Two rebuilds -/

instance (s : ServerState) (i : ℕ) (d : String) (n : ℕ) (jobs : List (String × Job))
    (path : String) : Decidable (BeforeRebuild s i d (.rebuildAndSwap n) jobs path) :=
  decidable_of_iff ((∃ t ∈ s.workers[i]?, t.jobs = (d, .rebuildAndSwap n) :: jobs ∧
      t.building = none ∧ t.todo = []) ∧
      ∀ t ∈ s.workers, ∀ b ∈ t.building, b.dbPath = d → ∀ files ∈ b.seen,
        files path = s.files d path)
    ⟨fun h => ⟨.inr ⟨n, rfl⟩, h.1, rfl, h.2⟩, fun h => ⟨h.thread, h.seeing.seen⟩⟩

instance (s : ServerState) (i : ℕ) (jobs : List (String × Job)) : Decidable (StoresNext s i jobs) :=
  inferInstanceAs (Decidable (∃ t ∈ _, _))

instance (s : ServerState) (d path : String) (v : Option FileVersion) :
    Decidable (NothingRecorded s d path v) :=
  decidable_of_iff (Told (s.wal d) path v ∧
      ∀ x ∈ s.watchers, x.dbPath = d → ∀ recs ∈ x.pending, Told recs path v)
    ⟨fun h => ⟨h.1, h.2⟩, fun h => ⟨h.wal, h.pending⟩⟩

instance (s : ServerState) (path : String) (v : Option FileVersion) (e : LiveEntry) :
    Decidable (e.Holds s path v) :=
  decidable_of_iff (e.db.docs path = v ∧ (∃ c ∈ s.shards e.dbPath e.shards, c.docs path = v) ∧
      Told (s.overlays e.dbPath e.overlay) path v)
    ⟨fun h => ⟨h.1, h.2.1, h.2.2⟩, fun h => ⟨h.db, h.shards, h.overlay⟩⟩

instance (s : ServerState) (i : ℕ) (d : String) (job : Job) (path : String)
    (v : Option FileVersion) : Decidable (NothingOlder s i d job path v) :=
  decidable_of_iff (NothingRecorded s d path v ∧
      (∀ t ∈ s.workers[i]?, ∀ e ∈ t.fresh, e.dbPath = d → Told (s.overlays d e.overlay) path v) ∧
      (∀ t ∈ s.workers[i]?, ∀ e ∈ t.fresh, e.dbPath = d →
        job = .spawnBuild ∨ job = .rebuildAndSwap e.shards) ∧
      ∀ u ∈ s.workers.eraseIdx i, ∀ e ∈ u.fresh ++ u.old, e.dbPath = d → e.Holds s path v)
    ⟨fun h => ⟨h.1, h.2.1, h.2.2.1, h.2.2.2⟩,
      fun h => ⟨h.recorded, h.overlays, h.carried, h.others⟩⟩

def someVersion : FileVersion := ⟨⟨false, 1, 1⟩, some [104]⟩

/-- The start over one database, a new file that no watcher reports, and the safety net. -/
def missedEvents : List ServerEvent :=
  startEvents 1 ++ [.change "a" "/a/f" (some someVersion), .safetyNet]

/-- The start over one database, a new file that its watcher applies, its deletion, which is not
reported, and the safety net. -/
def deletedEvents : List ServerEvent :=
  startEvents 1 ++ [.change "a" "/a/f" (some someVersion), .observe 0 ["/a/f"], .apply 0,
    .change "a" "/a/f" none, .safetyNet]

def rebuildEventsOf (i : ℕ) : List ServerEvent :=
  .run i :: .finish i (fun _ => 0) :: List.replicate 6 (.run i)

lemma rebuildEventsOf_quiet (i : ℕ) : ∀ ev ∈ rebuildEventsOf i,
    ev ≠ .crash ∧ ∀ d path w, ev ≠ .change d path w := by
  intro ev hev
  rw [rebuildEventsOf, List.mem_cons, List.mem_cons] at hev
  rcases hev with rfl | rfl | hev
  · exact ⟨by simp, by simp⟩
  · exact ⟨by simp, by simp⟩
  · rw [List.eq_of_mem_replicate hev]
    exact ⟨by simp, by simp⟩

/-- The safety net finds a new file that no watcher reported. -/
theorem rebuild_heals_missed_file : ∃ s s₂ e,
    Run.exec ServerState.step (downServer ["a"] fun _ => none) missedEvents = some s ∧
      Run.exec ServerState.step s (rebuildEventsOf 1 ++ [.run 1]) = some s₂ ∧ e ∈ s₂.published ∧
      e.dbPath = "a" ∧ s₂.files "a" "/a/f" = some someVersion ∧
      (e.reads s₂ s₂).Serves "/a/f" (s₂.files "a" "/a/f") := by
  have hbefore : (Run.exec ServerState.step (downServer ["a"] fun _ => none) missedEvents).map
      (fun s => (decide (BeforeRebuild s 1 "a" (.rebuildAndSwap 0) [] "/a/f"),
        s.files "a" "/a/f")) = some (true, some someVersion) := by decide +kernel
  have hclean : (Run.exec ServerState.step (downServer ["a"] fun _ => none)
      (missedEvents ++ rebuildEventsOf 1)).map (fun s => decide (StoresNext s 1 [] ∧
        NothingOlder s 1 "a" (.rebuildAndSwap 0) "/a/f" (some someVersion))) = some true := by
    decide +kernel
  have hstored : (Run.exec ServerState.step (downServer ["a"] fun _ => none)
      (missedEvents ++ rebuildEventsOf 1 ++ [.run 1])).map (fun s =>
        (s.files "a" "/a/f", s.published.map LiveEntry.handles)) =
      some (some someVersion, [("a", 0, 0)]) := by decide +kernel
  obtain ⟨s, hs, hat⟩ := Option.map_eq_some_iff.mp hbefore
  obtain ⟨hbegin, hfiles⟩ := Prod.mk.inj hat
  rw [Run.exec_append, hs, Option.bind_some] at hclean
  obtain ⟨s₁, hs₁, hat₁⟩ := Option.map_eq_some_iff.mp hclean
  obtain ⟨hstores, holder⟩ := of_decide_eq_true hat₁
  rw [List.append_assoc, Run.exec_append, hs, Option.bind_some] at hstored
  obtain ⟨s₂, hs₂, hat₂⟩ := Option.map_eq_some_iff.mp hstored
  obtain ⟨hfiles₂, hpublished⟩ := Prod.mk.inj hat₂
  have hstep : Run.exec ServerState.step s₁ [.run 1] = some s₂ := by
    rw [Run.exec_append, hs₁, Option.bind_some] at hs₂
    exact hs₂
  obtain ⟨e, he, hhandles⟩ : ∃ e ∈ s₂.published, e.handles = ("a", 0, 0) := by
    rw [← List.mem_map, hpublished]
    exact List.mem_singleton.mpr rfl
  have hd : e.dbPath = "a" := congrArg Prod.fst hhandles
  refine ⟨s, s₂, e, hs, hs₂, he, hd, hfiles₂, ?_⟩
  rw [← hfiles] at holder
  have hquiet : ∀ ev ∈ rebuildEventsOf 1 ++ [] ++ [] ++ [],
      ∀ w, ev ≠ ServerEvent.change "a" "/a/f" w := fun ev hev =>
    (rebuildEventsOf_quiet 1 ev (by simpa using hev)).2 "a" "/a/f"
  exact rebuild_heals (of_decide_eq_true hbegin) hs₁
    (fun ev hev => (rebuildEventsOf_quiet 1 ev hev).1) hstores holder hstep he hd rfl rfl hquiet

/-- The overlay still has a deleted file after a rebuild, and a query finds it. -/
theorem rebuild_keeps_stale_record : ∃ s s₂ e,
    Run.exec ServerState.step (downServer ["a"] fun _ => none) deletedEvents = some s ∧
      BeforeRebuild s 1 "a" (.rebuildAndSwap 0) [] "/a/f" ∧
      Run.exec ServerState.step s (rebuildEventsOf 1 ++ [.run 1]) = some s₂ ∧ e ∈ s₂.published ∧
      e.db.build = 1 ∧ s₂.files "a" "/a/f" = none ∧
      (e.reads s₂ s₂).name "/a/f" = some someVersion.lite := by
  have hbefore : (Run.exec ServerState.step (downServer ["a"] fun _ => none) deletedEvents).map
      (fun s => decide (BeforeRebuild s 1 "a" (.rebuildAndSwap 0) [] "/a/f")) = some true := by
    decide +kernel
  have hstored : (Run.exec ServerState.step (downServer ["a"] fun _ => none)
      (deletedEvents ++ (rebuildEventsOf 1 ++ [.run 1]))).map (fun s =>
        (s.files "a" "/a/f", hotVersion (s.overlays "a" 0) "/a/f")) =
      some (none, some (some someVersion)) := by decide +kernel
  have hrebuilt : (Run.exec ServerState.step (downServer ["a"] fun _ => none)
      (deletedEvents ++ (rebuildEventsOf 1 ++ [.run 1]))).map (fun s =>
        s.published.map fun e => (e.handles, e.db.build)) = some [(("a", 0, 0), 1)] := by
    decide +kernel
  obtain ⟨s, hs, hbegin⟩ := Option.map_eq_some_iff.mp hbefore
  rw [Run.exec_append, hs, Option.bind_some] at hstored hrebuilt
  obtain ⟨s₂, hs₂, hat⟩ := Option.map_eq_some_iff.mp hstored
  obtain ⟨hfiles, hhot⟩ := Prod.mk.inj hat
  rw [hs₂] at hrebuilt
  have hpublished : (s₂.published.map fun e => (e.handles, e.db.build)) = [(("a", 0, 0), 1)] :=
    Option.some.inj hrebuilt
  obtain ⟨e, he, hentry⟩ : ∃ e ∈ s₂.published, (e.handles, e.db.build) = (("a", 0, 0), 1) := by
    rw [← List.mem_map, hpublished]
    exact List.mem_singleton.mpr rfl
  obtain ⟨hhandles, hbuild⟩ := Prod.mk.inj hentry
  have hd : e.dbPath = "a" := congrArg Prod.fst hhandles
  have ho : e.overlay = 0 := congrArg (fun h => h.2.2) hhandles
  refine ⟨s, s₂, e, hs, of_decide_eq_true hbegin, hs₂, he, hbuild, hfiles, ?_⟩
  have hread : (e.reads s₂ s₂).overlay = s₂.overlays "a" 0 := by rw [LiveEntry.reads, hd, ho]
  rw [QueryReads.name, hread, hhot]
  rfl

end DeepFinder
