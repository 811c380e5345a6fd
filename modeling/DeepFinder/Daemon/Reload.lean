import DeepFinder.Daemon.Effects

/-!
# Reloads of the published set

A reload opens the indexes, takes handles over from the set that it loaded, and stores the result,
in steps between which builds complete and other reloads store.  Once all of them are done, what is
published should be of the last build of each database (`published_current`); a reload that opened
before a build and stores after the build's own reload takes it back (`stale_reload_published`).

`KeepsCurrent` is a condition on the steps of a run, read off the state before each of them.  It
rules out that a reload stores what it opened before a build that has completed since, and that a
build of the command line, which tells the daemon nothing, completes for a database that is
published or being reloaded.  Kills and restarts are allowed, and so are any number of reloads and
builds at a time.
-/

namespace DeepFinder

/-! ## What is current -/

def ServerState.lastBuild (s : ServerState) (d : String) : Option ℕ := (s.disk d).map Cold.build

/-- The number of the build that shards were loaded from. -/
def ServerState.shardsBuild (s : ServerState) (d : String) (n : ℕ) : Option ℕ :=
  (s.shards d n).map Cold.build

/-- The reader and the shards of the entry are of the last build.  The shards are shared by all
entries with the handle, and so may be newer than the entry's reader. -/
def LiveEntry.Current (s : ServerState) (e : LiveEntry) : Prop :=
  s.lastBuild e.dbPath = some e.db.build ∧ s.shardsBuild e.dbPath e.shards = s.lastBuild e.dbPath

instance (s : ServerState) (e : LiveEntry) : Decidable (e.Current s) :=
  inferInstanceAs (Decidable (_ ∧ _))

/-- The thread's next step takes nothing back.  It stores an entry of a database that it did not
itself build only if the entry is current or the reload of the last build is still to store; and
when a compaction or rebuild loads the published set to carry its handles on, the set still holds
the shards that it has reloaded. -/
def Worker.KeepsCurrent (t : Worker) (s : ServerState) : Prop :=
  match t.building, t.todo with
  | none, .store :: _ => ∀ e ∈ t.fresh, t.built ≠ some e.dbPath →
      e.Current s ∨ ∃ u ∈ s.workers, u.built = some e.dbPath
  | none, .load :: _ => ∀ e ∈ s.published, t.built = some e.dbPath → t.reloaded = some e.shards
  | _, _ => True

/-- The step takes nothing back, and no build of the command line completes for a database that is
published or about to be reloaded. -/
def KeepsCurrent (s : ServerState) : ServerEvent → Prop
  | .run i => ∀ t ∈ s.workers[i]?, t.KeepsCurrent s
  | .finish i _ => ∀ t ∈ s.workers[i]?, ∀ b ∈ t.building, b.job.guarded = false →
      (∀ e ∈ s.published, e.dbPath ≠ b.dbPath) ∧ ∀ u ∈ s.workers, u.built ≠ some b.dbPath
  | _ => True

/-! ## The invariant -/

/-- What holds of a thread: a build holds its marker until its set is stored, and what it has opened
and reloaded since is current. -/
structure Worker.FreshInv (s : ServerState) (t : Worker) : Prop where
  building_marker : ∀ b, t.building = some b → b.job.guarded = true → t.marker = some b.dbPath
  building_built : ∀ b, t.building = some b → t.built = none
  built_marker : ∀ d, t.built = some d → t.marker = some d
  built_stores : ∀ d, t.built = some d → Instr.store ∈ t.todo
  release_last : ∀ rest, .release :: rest <:+ t.todo → Instr.store ∉ rest
  reload_built : ∀ d n, Instr.reloadShards d n ∈ t.todo → ∀ d', t.built = some d' → d' = d
  fresh_current : ∀ e ∈ t.fresh, t.built = some e.dbPath → e.Current s
  old_current : ∀ e ∈ t.old, t.built = some e.dbPath →
    s.shardsBuild e.dbPath e.shards = s.lastBuild e.dbPath
  reloaded_current : ∀ d n, t.built = some d → t.reloaded = some n →
    s.shardsBuild d n = s.lastBuild d

def Apart (t u : Worker) : Prop := ∀ d, t.marker = some d → u.marker ≠ some d

/-- Every published entry is current, unless the reload of the last build is still to store. -/
structure FreshInv (s : ServerState) : Prop where
  published_current : ∀ e ∈ s.published, e.Current s ∨ ∃ u ∈ s.workers, u.built = some e.dbPath
  workers_fresh : ∀ t ∈ s.workers, t.FreshInv s
  workers_apart : s.workers.Pairwise Apart

/-- The indexes are as they were, and shards that were current still are. -/
structure KeepsBuilds (s s' : ServerState) : Prop where
  lastBuild_eq : ∀ d, s'.lastBuild d = s.lastBuild d
  shards_current : ∀ d n, s.shardsBuild d n = s.lastBuild d → s'.shardsBuild d n = s'.lastBuild d

section Steps

variable {s s' : ServerState} {i : ℕ} {t t' : Worker}

lemma KeepsBuilds.current (h : KeepsBuilds s s') {e : LiveEntry} (he : e.Current s) :
    e.Current s' :=
  ⟨(h.lastBuild_eq _).trans he.1, h.shards_current _ _ he.2⟩

lemma Worker.FreshInv.mono (ht : t.FreshInv s) (h : KeepsBuilds s s') : t.FreshInv s' where
  building_marker := ht.building_marker
  building_built := ht.building_built
  built_marker := ht.built_marker
  built_stores := ht.built_stores
  release_last := ht.release_last
  reload_built := ht.reload_built
  fresh_current e he hb := h.current (ht.fresh_current e he hb)
  old_current e he hb := h.shards_current _ _ (ht.old_current e he hb)
  reloaded_current d n hb hn := h.shards_current _ _ (ht.reloaded_current d n hb hn)

lemma keepsBuilds_of_same (hdisk : s'.disk = s.disk) (hshards : s'.shards = s.shards) :
    KeepsBuilds s s' := by
  refine ⟨fun d => ?_, fun d n hcur => ?_⟩
  · rw [ServerState.lastBuild, hdisk]
    rfl
  · rw [ServerState.shardsBuild, ServerState.lastBuild, hdisk, hshards]
    exact hcur

lemma keepsBuilds_setShards (s : ServerState) (d : String) (n : ℕ) :
    KeepsBuilds s (s.setShards d n (s.disk d)) := by
  refine ⟨fun _ => rfl, fun d' n' hcur => ?_⟩
  rw [ServerState.shardsBuild, shards_setShards]
  split
  · rename_i h
    rw [h.1]
    rfl
  · exact hcur

/-- A thread that has nothing to publish. -/
lemma Worker.freshInv_of_unbuilt (hbuilt : t.built = none)
    (hmarker : ∀ b, t.building = some b → b.job.guarded = true → t.marker = some b.dbPath)
    (hlast : ∀ rest, .release :: rest <:+ t.todo → Instr.store ∉ rest) : t.FreshInv s := by
  have hnone : ∀ d, t.built ≠ some d := by
    rw [hbuilt]
    exact fun d hd => by cases hd
  exact
    { building_marker := hmarker
      building_built := fun _ _ => hbuilt
      built_marker := fun d hd => absurd hd (hnone d)
      built_stores := fun d hd => absurd hd (hnone d)
      release_last := hlast
      reload_built := fun _ _ _ d hd => absurd hd (hnone d)
      fresh_current := fun e _ hd => absurd hd (hnone e.dbPath)
      old_current := fun e _ hd => absurd hd (hnone e.dbPath)
      reloaded_current := fun d _ hd => absurd hd (hnone d) }

lemma Worker.freshInv_of_idle (hbuilding : t.building = none) (hbuilt : t.built = none)
    (hlast : ∀ rest, .release :: rest <:+ t.todo → Instr.store ∉ rest) : t.FreshInv s := by
  refine Worker.freshInv_of_unbuilt hbuilt (fun b hb => ?_) hlast
  rw [hbuilding] at hb
  cases hb

lemma apart_symm {t u : Worker} (h : Apart t u) : Apart u t := fun d hu ht => h d ht hu

lemma apart_of_marker_none (h : t.marker = none) (u : Worker) : Apart t u := by
  intro d hd
  rw [h] at hd
  cases hd

/-- One thread of several that are apart changes. -/
lemma pairwise_apart_set (h : s.workers.Pairwise Apart)
    (ht' : ∀ j u, j ≠ i → s.workers[j]? = some u → Apart t' u) :
    (s.setWorker i t').workers.Pairwise Apart := by
  rw [List.pairwise_iff_getElem] at h ⊢
  intro j k hj hk hjk
  have hj' : j < s.workers.length := by simpa [ServerState.setWorker] using hj
  have hk' : k < s.workers.length := by simpa [ServerState.setWorker] using hk
  simp only [ServerState.setWorker, List.getElem_set]
  by_cases hij : i = j
  · rw [if_pos hij, if_neg (by omega)]
    exact ht' k _ (by omega) (List.getElem?_eq_getElem hk')
  · rw [if_neg hij]
    split
    · exact apart_symm (ht' j _ (Ne.symm hij) (List.getElem?_eq_getElem hj'))
    · exact h j k hj' hk' hjk

lemma apart_of_ne (h : s.workers.Pairwise Apart) {j k : ℕ} {u : Worker} (hjk : j ≠ k)
    (hj : s.workers[j]? = some t) (hk : s.workers[k]? = some u) : Apart t u := by
  rw [List.pairwise_iff_getElem] at h
  obtain ⟨hjl, rfl⟩ := List.getElem?_eq_some_iff.mp hj
  obtain ⟨hkl, rfl⟩ := List.getElem?_eq_some_iff.mp hk
  rcases Nat.lt_or_gt_of_ne hjk with hlt | hlt
  · exact h j k hjl hkl hlt
  · exact apart_symm (h k j hkl hjl hlt)

/-- A thread changes, but not what it has built; nothing is published. -/
lemma FreshInv.setWorker (h : FreshInv s) (hkeep : KeepsBuilds s s') (hi : s.workers[i]? = some t)
    (hpub : s'.published = s.published) (hwork : s'.workers = (s.setWorker i t').workers)
    (hbuilt : t'.built = t.built)
    (hapart : ∀ j u, j ≠ i → s.workers[j]? = some u → Apart t' u) (ht' : t'.FreshInv s') :
    FreshInv s' where
  published_current e he := by
    rw [hpub] at he
    rcases h.published_current e he with hcur | ⟨u, hu, hub⟩
    · exact .inl (hkeep.current hcur)
    · right
      rw [hwork]
      obtain ⟨j, hj⟩ := List.mem_iff_getElem?.mp hu
      by_cases hij : j = i
      · subst hij
        obtain rfl := Option.some.inj (hi.symm.trans hj)
        exact ⟨t', mem_setWorker_self hi, hbuilt.trans hub⟩
      · exact ⟨u, mem_setWorker_of_ne hij hj, hub⟩
  workers_fresh := by
    rw [hwork]
    exact workers_setWorker ht' fun u hu => (h.workers_fresh u hu).mono hkeep
  workers_apart := by
    rw [hwork]
    exact pairwise_apart_set h.workers_apart hapart

lemma FreshInv.apart (h : FreshInv s) (hi : s.workers[i]? = some t)
    (hmarker : t'.marker = t.marker) :
    ∀ j u, j ≠ i → s.workers[j]? = some u → Apart t' u := by
  intro j u hij hj d hd
  rw [hmarker] at hd
  exact apart_of_ne h.workers_apart (Ne.symm hij) hi hj d hd

/-- What the invariant says of the rest of a program. -/
lemma Worker.FreshInv.tail (ht : t.FreshInv s) {instr : Instr} {todo : List Instr}
    (htodo : t.todo = instr :: todo) (hstore : instr ≠ .store) :
    (∀ d, t.built = some d → Instr.store ∈ todo) ∧
      (∀ rest, .release :: rest <:+ todo → Instr.store ∉ rest) ∧
      ∀ d n, Instr.reloadShards d n ∈ todo → ∀ d', t.built = some d' → d' = d := by
  refine ⟨fun d hd => ?_, fun rest hrest => ht.release_last rest ?_, fun d n hn => ?_⟩
  · have hmem := ht.built_stores d hd
    rw [htodo] at hmem
    rcases List.mem_cons.mp hmem with h | h
    · exact absurd h.symm hstore
    · exact h
  · rw [htodo]
    exact hrest.trans (List.suffix_cons ..)
  · apply ht.reload_built d n
    rw [htodo]
    exact List.mem_cons_of_mem _ hn

lemma FreshInv.openEntry (h : FreshInv s) (hi : s.workers[i]? = some t) (d : String)
    (root : Option String) (hbuilt : t'.built = t.built) (hmarker : t'.marker = t.marker)
    (ht' : t'.FreshInv s) : FreshInv (s.openEntry i t' d root) := by
  unfold ServerState.openEntry
  cases hd : s.disk d with
  | none =>
      exact h.setWorker (keepsBuilds_of_same rfl rfl) hi rfl rfl hbuilt (h.apart hi hmarker)
        (ht'.mono (keepsBuilds_of_same rfl rfl))
  | some c =>
      have hshards : KeepsBuilds s (s.setShards d s.next (some c)) := by
        rw [← hd]
        exact keepsBuilds_setShards s d s.next
      have hkeep : KeepsBuilds s { ((s.setShards d s.next (some c)).setOverlay d s.next
          (s.wal d)).setWorker i { t' with
            fresh := t'.fresh ++ [⟨d, root, c, s.next, s.next⟩], reused := false } with
          next := s.next + 1 } := ⟨hshards.lastBuild_eq, hshards.shards_current⟩
      refine h.setWorker hkeep hi rfl rfl hbuilt (h.apart hi hmarker) ?_
      have hmono := ht'.mono hkeep
      refine { hmono with fresh_current := fun e he hb => ?_ }
      rcases List.mem_append.mp he with he | he
      · exact hmono.fresh_current e he hb
      · obtain rfl := List.mem_singleton.mp he
        have hlast : s.lastBuild d = some c.build := by rw [ServerState.lastBuild, hd]; rfl
        have hload : (s.setShards d s.next (some c)).shardsBuild d s.next = some c.build := by
          rw [ServerState.shardsBuild, shards_setShards, if_pos ⟨rfl, rfl⟩]
          rfl
        have hbuild := (hkeep.lastBuild_eq d).trans hlast
        refine ⟨hbuild, ?_⟩
        dsimp only
        rw [hbuild]
        exact hload

/-- A step of a thread's program. -/
lemma FreshInv.execute (h : FreshInv s) (hi : s.workers[i]? = some t) (hbuilding : t.building = none)
    {instr : Instr} {todo : List Instr} (htodo : t.todo = instr :: todo)
    (hkeep : t.KeepsCurrent s) : FreshInv (s.execute i t todo instr) := by
  have ht := h.workers_fresh t (List.mem_of_getElem? hi)
  have hapart := fun t' => @FreshInv.apart s i t t' h hi
  cases instr with
  | openSet =>
      rw [ServerState.execute]
      cases hopening : t.opening with
      | none =>
          refine h.openEntry hi _ _ rfl rfl { ht with fresh_current := fun e he => ?_ }
          cases he
      | some targets =>
          cases targets with
          | nil =>
              obtain ⟨hstores, hlast, hreload⟩ := ht.tail htodo (by decide)
              exact h.setWorker (keepsBuilds_of_same rfl rfl) hi rfl rfl rfl (hapart _ rfl)
                { ht.mono (keepsBuilds_of_same rfl rfl) with
                    built_stores := hstores, release_last := hlast, reload_built := hreload }
          | cons target rest => exact h.openEntry hi _ _ rfl rfl { ht with }
  | load =>
      obtain ⟨hstores, hlast, hreload⟩ := ht.tail htodo (by decide)
      refine h.setWorker (keepsBuilds_of_same rfl rfl) hi rfl rfl rfl (hapart _ rfl)
        { ht.mono (keepsBuilds_of_same rfl rfl) with
            built_stores := hstores, release_last := hlast, reload_built := hreload,
            old_current := fun e he hb => ?_ }
      -- The set that is loaded has the shards which this thread has reloaded after its build.
      have hload : ∀ e ∈ s.published, t.built = some e.dbPath → t.reloaded = some e.shards := by
        simpa only [Worker.KeepsCurrent, hbuilding, htodo] using hkeep
      exact ht.reloaded_current _ _ hb (hload e he hb)
  | reuse =>
      obtain ⟨hstores, hlast, hreload⟩ := ht.tail htodo (by decide)
      refine h.setWorker (keepsBuilds_of_same rfl rfl) hi rfl rfl rfl (hapart _ rfl)
        { ht.mono (keepsBuilds_of_same rfl rfl) with
            built_stores := hstores, release_last := hlast, reload_built := hreload,
            fresh_current := fun e he hb => ?_ }
      -- An entry keeps what was opened of the files, and takes the shards of the old set or keeps
      -- its own; both are of the last build.
      obtain ⟨f, hf, hpath, hdb, hshards⟩ := mem_reuseHandlesFrom he
      have hcur := ht.fresh_current f hf (by rw [hpath]; exact hb)
      rw [LiveEntry.Current, hpath, hdb] at hcur
      refine ⟨hcur.1, ?_⟩
      rcases hshards with ⟨hshards, -⟩ | ⟨o, ho, hopath, hshards, -⟩
      · rw [← hshards]
        exact hcur.2
      · have hold := ht.old_current o ho (by rw [hopath]; exact hb)
        rw [hopath, hshards] at hold
        exact hold
  | store =>
      -- Entries of the database that the thread has built are current; of the others the guard says
      -- that they are, or that the thread which has built theirs is still to store its set.
      have hstore : ∀ e ∈ t.fresh, t.built ≠ some e.dbPath →
          e.Current s ∨ ∃ u ∈ s.workers, u.built = some e.dbPath := by
        simpa only [Worker.KeepsCurrent, hbuilding, htodo] using hkeep
      constructor
      · intro e he
        by_cases hb : t.built = some e.dbPath
        · exact .inl (ht.fresh_current e he hb)
        · rcases hstore e he hb with hcur | ⟨u, hu, hub⟩
          · exact .inl hcur
          · obtain ⟨j, hj⟩ := List.mem_iff_getElem?.mp hu
            have hij : j ≠ i := by
              rintro rfl
              obtain rfl := Option.some.inj (hi.symm.trans hj)
              exact hb hub
            exact .inr ⟨u, mem_setWorker_of_ne hij hj, hub⟩
      · refine workers_setWorker (Worker.freshInv_of_idle hbuilding rfl fun rest hrest => ?_)
          fun u hu => (h.workers_fresh u hu).mono (keepsBuilds_of_same rfl rfl)
        apply ht.release_last rest
        rw [htodo]
        exact hrest.trans (List.suffix_cons ..)
      · exact pairwise_apart_set h.workers_apart (hapart _ rfl)
  | attach d =>
      obtain ⟨hstores, hlast, hreload⟩ := ht.tail htodo (fun h => by cases h)
      refine h.setWorker (keepsBuilds_of_same rfl rfl) hi rfl rfl rfl (hapart _ rfl)
        { ht.mono (keepsBuilds_of_same rfl rfl) with
            built_stores := hstores, release_last := hlast, reload_built := hreload,
            old_current := fun e he => ?_ }
      cases he
  | reloadShards d n =>
      obtain ⟨hstores, hlast, hreload⟩ := ht.tail htodo (fun h => by cases h)
      have hshards := keepsBuilds_setShards s d n
      refine h.setWorker ⟨hshards.lastBuild_eq, hshards.shards_current⟩ hi rfl rfl rfl (hapart _ rfl)
        { ht.mono hshards with
            built_stores := hstores, release_last := hlast, reload_built := hreload,
            reloaded_current := fun d' n' hb hn => ?_ }
      obtain rfl := Option.some.inj hn
      obtain rfl := ht.reload_built d n (by rw [htodo]; exact List.mem_cons_self ..) d' hb
      change (s.setShards d' n (s.disk d')).shardsBuild d' n = s.lastBuild d'
      rw [ServerState.shardsBuild, shards_setShards, if_pos ⟨rfl, rfl⟩]
      rfl
  | clearOverlay d n =>
      obtain ⟨hstores, hlast, hreload⟩ := ht.tail htodo (fun h => by cases h)
      exact h.setWorker (keepsBuilds_of_same rfl rfl) hi rfl rfl rfl (hapart _ rfl)
        { ht.mono (keepsBuilds_of_same rfl rfl) with
            built_stores := hstores, release_last := hlast, reload_built := hreload }
  | release =>
      -- A thread that has built something has its store still ahead of it, and no store comes
      -- behind the release.
      have hbuilt : t.built = none := by
        cases hb : t.built with
        | none => rfl
        | some d =>
            have hstores := (ht.tail htodo (by decide)).1 d hb
            have hlast := ht.release_last todo (by rw [htodo])
            exact absurd hstores hlast
      refine h.setWorker (keepsBuilds_of_same rfl rfl) hi rfl rfl rfl
        (fun j u _ _ => apart_of_marker_none rfl u)
        (Worker.freshInv_of_idle hbuilding hbuilt (ht.tail htodo (by decide)).2.1)

lemma store_mem_after {d : String} {job : Job} (h : job.guarded = true) :
    Instr.store ∈ job.after d := by
  cases job with
  | foreground => cases h
  | spawnBuild => simp [Job.after]
  | compactAndSwap shards overlay => simp [Job.after, reloadReusing]
  | rebuildAndSwap shards => simp [Job.after, reloadReusing]

/-- The marker is dropped last. -/
lemma release_last_after {d : String} {job : Job} {rest : List Instr}
    (h : .release :: rest <:+ job.after d) : Instr.store ∉ rest := by
  have hnil : rest = [] := by
    cases job with
    | foreground => simp [Job.after] at h
    | spawnBuild => simpa [Job.after, List.suffix_cons_iff] using h
    | compactAndSwap shards overlay =>
        simpa [Job.after, reloadReusing, List.suffix_cons_iff] using h
    | rebuildAndSwap shards => simpa [Job.after, reloadReusing, List.suffix_cons_iff] using h
  rw [hnil]
  exact List.not_mem_nil

lemma reloadShards_mem_after {d d' : String} {job : Job} {n : ℕ}
    (h : Instr.reloadShards d' n ∈ job.after d) : d' = d := by
  cases job with
  | foreground => cases h
  | spawnBuild => simp [Job.after] at h
  | compactAndSwap shards overlay =>
      simp [Job.after, reloadReusing] at h
      exact h.1
  | rebuildAndSwap shards =>
      simp [Job.after, reloadReusing] at h
      exact h.1

/-- A build completes: its own reload is still to come. -/
lemma FreshInv.finishBuild (h : FreshInv s) {pick : String → ℕ} {b : RunningBuild}
    (hi : s.workers[i]? = some t) (hb : t.building = some b)
    (hkeep : KeepsCurrent s (.finish i pick)) : FreshInv (s.finishBuild i t b pick) := by
  have ht := h.workers_fresh t (List.mem_of_getElem? hi)
  have hother : ∀ d, d ≠ b.dbPath → (s.finishBuild i t b pick).lastBuild d = s.lastBuild d := by
    intro d hd
    rw [ServerState.lastBuild, ServerState.finishBuild]
    simp only [Function.update_of_ne hd]
    rfl
  -- nobody else is waiting to publish the database
  have halone : ∀ j u, j ≠ i → s.workers[j]? = some u → u.built ≠ some b.dbPath := by
    intro j u hij hj hub
    cases hguarded : b.job.guarded with
    | true =>
        have hmarker := ht.building_marker b hb hguarded
        have hu := (h.workers_fresh u (List.mem_of_getElem? hj)).built_marker _ hub
        exact apart_of_ne h.workers_apart (Ne.symm hij) hi hj _ hmarker hu
    | false => exact (hkeep t hi b hb hguarded).2 u (List.mem_of_getElem? hj) hub
  constructor
  · intro e he
    by_cases hd : e.dbPath = b.dbPath
    · cases hguarded : b.job.guarded with
      | true =>
          refine .inr ⟨_, mem_setWorker_self hi, ?_⟩
          rw [hguarded, hd]
          rfl
      | false => exact absurd hd ((hkeep t hi b hb hguarded).1 e he)
    · rcases h.published_current e he with hcur | ⟨u, hu, hub⟩
      · exact .inl ⟨(hother _ hd).trans hcur.1, hcur.2.trans (hother _ hd).symm⟩
      · obtain ⟨j, hj⟩ := List.mem_iff_getElem?.mp hu
        have hij : j ≠ i := by
          rintro rfl
          obtain rfl := Option.some.inj (hi.symm.trans hj)
          rw [ht.building_built b hb] at hub
          cases hub
        exact .inr ⟨u, mem_setWorker_of_ne hij hj, hub⟩
  · refine workers_setWorker_at ?_ fun j u hij hj => ?_
    · have hbuilt : ∀ d, (if b.job.guarded then some b.dbPath else none) = some d →
          b.job.guarded = true ∧ b.dbPath = d := fun d hd => by simpa using hd
      constructor
      · exact fun b' hb' => by cases hb'
      · exact fun b' hb' => by cases hb'
      · intro d hd
        obtain ⟨hguarded, rfl⟩ := hbuilt d hd
        exact ht.building_marker b hb hguarded
      · exact fun d hd => store_mem_after (hbuilt d hd).1
      · exact fun rest hrest => release_last_after hrest
      · intro d n hn d' hd'
        rw [← (hbuilt d' hd').2, reloadShards_mem_after hn]
      · exact fun e he => by cases he
      · exact fun e he => by cases he
      · exact fun d n _ hn => by cases hn
    · have hu := h.workers_fresh u (List.mem_of_getElem? hj)
      have hne : ∀ d, u.built = some d → d ≠ b.dbPath := by
        rintro d hub rfl
        exact halone j u hij hj hub
      refine { hu with fresh_current := fun e he hub => ?_, old_current := fun e he hub => ?_,
                       reloaded_current := fun d n hub hn => ?_ }
      · have hcur := hu.fresh_current e he hub
        have heq := hother _ (hne _ hub)
        exact ⟨heq.trans hcur.1, hcur.2.trans heq.symm⟩
      · exact (hu.old_current e he hub).trans (hother _ (hne _ hub)).symm
      · exact (hu.reloaded_current d n hub hn).trans (hother _ (hne _ hub)).symm
  · exact pairwise_apart_set h.workers_apart (h.apart hi rfl)

lemma freshInv_new {jobs : List (String × Job)} {todo : List Instr} {outside : Bool}
    (htodo : todo = [] ∨ todo = startup ∨ todo = registryReload) :
    Worker.FreshInv s { jobs := jobs, todo := todo, outside := outside } := by
  refine Worker.freshInv_of_idle rfl rfl fun rest hrest => ?_
  have hmem : Instr.release ∈ todo := hrest.subset (List.mem_cons_self ..)
  rcases htodo with rfl | rfl | rfl
  · cases hmem
  · exact absurd hmem (by decide)
  · exact absurd hmem (by decide)

lemma FreshInv.spawn (h : FreshInv s) (ht' : t'.FreshInv s) (hmarker : t'.marker = none) :
    FreshInv (s.spawn t') where
  published_current e he := by
    rcases h.published_current e he with hcur | ⟨u, hu, hub⟩
    · exact .inl hcur
    · exact .inr ⟨u, List.mem_append_left _ hu, hub⟩
  workers_fresh := workers_spawn (ht'.mono (keepsBuilds_of_same rfl rfl)) fun u hu =>
    (h.workers_fresh u hu).mono (keepsBuilds_of_same rfl rfl)
  workers_apart := by
    refine List.pairwise_append.mpr ⟨h.workers_apart, List.pairwise_singleton .., ?_⟩
    intro u _ v hv
    rw [List.mem_singleton.mp hv]
    exact apart_symm (apart_of_marker_none hmarker u)

/-- The invariant is about the published set, the indexes, the shards and the threads. -/
lemma FreshInv.congr (h : FreshInv s) (hdisk : s'.disk = s.disk) (hshards : s'.shards = s.shards)
    (hpub : s'.published = s.published) (hwork : s'.workers = s.workers) : FreshInv s' where
  published_current e he := by
    rw [hpub] at he
    rw [hwork]
    exact (h.published_current e he).imp_left (keepsBuilds_of_same hdisk hshards).current
  workers_fresh := by
    rw [hwork]
    exact fun u hu => (h.workers_fresh u hu).mono (keepsBuilds_of_same hdisk hshards)
  workers_apart := by
    rw [hwork]
    exact h.workers_apart

lemma Worker.FreshInv.witness (ht : t.FreshInv s) (d : String)
    (files : String → Option FileVersion) : (t.witness d files).FreshInv s := by
  have hback : ∀ b', (t.witness d files).building = some b' →
      ∃ b, t.building = some b ∧ b.dbPath = b'.dbPath ∧ b.job = b'.job := by
    intro b' hb'
    obtain ⟨b, hb, rfl⟩ := Option.map_eq_some_iff.mp hb'
    refine ⟨b, hb, ?_⟩
    split <;> exact ⟨rfl, rfl⟩
  refine { ht with building_marker := fun b' hb' hguarded => ?_, building_built := fun b' hb' => ?_ }
  · obtain ⟨b, hb, hdb, hjob⟩ := hback b' hb'
    rw [← hdb]
    exact ht.building_marker b hb (by rw [hjob]; exact hguarded)
  · obtain ⟨b, hb, -⟩ := hback b' hb'
    exact ht.building_built b hb

/-- A step takes nothing back. -/
theorem FreshInv.step (h : FreshInv s) {ev : ServerEvent} (hkeep : KeepsCurrent s ev)
    (hstep : s.step ev = some s') : FreshInv s' := by
  cases moves_of_step hstep with
  | change d path version =>
      have hsame : ∀ u ∈ s.workers.map (Worker.witness d (s.files d)), ∃ t ∈ s.workers,
          t.witness d (s.files d) = u := fun u hu => List.mem_map.mp hu
      constructor
      · intro e he
        rcases h.published_current e he with hcur | ⟨u, hu, hub⟩
        · exact .inl hcur
        · exact .inr ⟨_, List.mem_map_of_mem hu, hub⟩
      · intro u hu
        obtain ⟨t, ht, rfl⟩ := hsame u hu
        exact ((h.workers_fresh t ht).witness _ _).mono (keepsBuilds_of_same rfl rfl)
      · exact List.pairwise_map.mpr h.workers_apart
  | register records => exact h.congr rfl rfl rfl rfl
  | crash =>
      constructor
      · exact fun e he => by cases he
      · exact fun u hu => (h.workers_fresh u (List.mem_of_mem_filter hu)).mono
          (keepsBuilds_of_same rfl rfl)
      · exact h.workers_apart.filter _
  | spawn ev jobs todo outside htodo => exact h.spawn (freshInv_new htodo) rfl
  | compact w x hx => exact (h.spawn (freshInv_new (.inl rfl)) rfl).congr rfl rfl rfl rfl
  | execute i t instr todo hi hbuilding htodo => exact h.execute hi hbuilding htodo (hkeep t hi)
  | skip i t jobs hi =>
      exact h.setWorker (keepsBuilds_of_same rfl rfl) hi rfl rfl rfl (h.apart hi rfl)
        { (h.workers_fresh t (List.mem_of_getElem? hi)).mono (keepsBuilds_of_same rfl rfl) with }
  | start i t d job jobs hi hbuilding htodo hmarker =>
      have ht := (h.workers_fresh t (List.mem_of_getElem? hi))
      have hbuilt : t.built = none := by
        cases hb : t.built with
        | none => rfl
        | some d' =>
            have hstores := ht.built_stores d' hb
            rw [htodo] at hstores
            cases hstores
      refine h.setWorker (keepsBuilds_of_same rfl rfl) hi rfl rfl rfl (fun j u _ hj d' hd' => ?_) ?_
      · have hboth : job.guarded = true ∧ d = d' := by simpa using hd'
        rw [← hboth.2]
        exact hmarker hboth.1 u (List.mem_of_getElem? hj)
      · refine Worker.freshInv_of_unbuilt hbuilt (fun b hb hguarded => ?_) ht.release_last
        obtain rfl := Option.some.inj hb
        exact if_pos hguarded
  | finish i pick t b hi hb => exact h.finishBuild hi hb hkeep
  | fail i t b hi hb =>
      have ht := (h.workers_fresh t (List.mem_of_getElem? hi))
      exact h.setWorker (keepsBuilds_of_same rfl rfl) hi rfl rfl rfl
        (fun j u _ _ => apart_of_marker_none rfl u)
        (Worker.freshInv_of_idle rfl (ht.building_built b hb) ht.release_last)
  | observe w paths x hx => exact h.congr rfl rfl rfl rfl
  | apply w x recs hx hrecs => exact h.congr rfl rfl rfl rfl

lemma ServerState.Down.freshInv (h : s.Down) : FreshInv s := by
  constructor
  · rw [h.published_eq]
    exact fun e he => by cases he
  · rw [h.workers_eq]
    exact fun t ht => by cases ht
  · rw [h.workers_eq]
    exact List.Pairwise.nil

end Steps

/-- In every run whose steps take nothing back, once no build or reload is in flight every published
entry has a reader and shards of the last build of its database.  Builds are numbered as they
complete; the invariant that the run carries (`FreshInv`) says of each entry that is not current
which thread is going to store a current one. -/
theorem published_current {s t : ServerState} {evs : List ServerEvent} (hs : s.Down)
    (hok : Run.Guarded ServerState.step KeepsCurrent s evs)
    (hrun : Run.exec ServerState.step s evs = some t) (hdone : ∀ u ∈ t.workers, u.todo = [])
    {e : LiveEntry} (he : e ∈ t.published) : e.Current t := by
  have hinv : FreshInv t := Run.exec_invariant_of_guarded ServerState.step
    (fun s ev s' hk hi hs' => FreshInv.step hi hk hs') hs.freshInv hok hrun
  -- An entry that is not current waits for the store of a thread, and no thread has anything to do.
  rcases hinv.published_current e he with hcur | ⟨u, hu, hub⟩
  · exact hcur
  · have hstores := (hinv.workers_fresh u hu).built_stores _ hub
    rw [hdone u hu] at hstores
    cases hstores

instance (t : Worker) (s : ServerState) : Decidable (t.KeepsCurrent s) := by
  unfold Worker.KeepsCurrent
  rcases t.building with _ | b
  · rcases t.todo with _ | ⟨instr, todo⟩
    · exact instDecidableTrue
    · cases instr <;> dsimp only <;> infer_instance
  · exact instDecidableTrue

instance (s : ServerState) (ev : ServerEvent) : Decidable (KeepsCurrent s ev) :=
  match ev with
  | .run i => inferInstanceAs (Decidable (∀ t ∈ s.workers[i]?, t.KeepsCurrent s))
  | .finish i _ => inferInstanceAs (Decidable (∀ t ∈ s.workers[i]?, ∀ b ∈ t.building,
      b.job.guarded = false → (∀ e ∈ s.published, e.dbPath ≠ b.dbPath) ∧
        ∀ u ∈ s.workers, u.built ≠ some b.dbPath))
  | .change .. | .register _ | .serve | .crash | .registryChanged | .spawnBuild _ | .foreground _
  | .safetyNet | .compact _ | .fail _ | .observe .. | .apply _ => instDecidableTrue

/-- A background build of the database, up to the end of its thread. -/
def rebuiltEvents (i : ℕ) : List ServerEvent :=
  .spawnBuild "a" :: .run i :: .finish i (fun _ => 0) :: List.replicate 7 (.run i)

/-- What a run leaves: the programs, the published builds and the last build of the database. -/
def ServerState.summary (s : ServerState) : List (List Instr) × List (String × ℕ) × Option ℕ :=
  (s.workers.map Worker.todo, s.published.map fun e => (e.dbPath, e.db.build), s.lastBuild "a")

/-- The registry is reloaded, and then the database is built again. -/
theorem published_current_rebuilt :
    ∃ t e, Run.exec ServerState.step (downServer ["a"] fun _ => none)
        (startEvents 1 ++ (.registryChanged :: List.replicate 6 (.run 1)) ++ rebuiltEvents 2) =
          some t ∧
      e ∈ t.published ∧ t.lastBuild "a" = some 1 ∧ e.Current t := by
  have hsees : (Run.exec ServerState.step (downServer ["a"] fun _ => none)
      (startEvents 1 ++ (.registryChanged :: List.replicate 6 (.run 1)) ++
        rebuiltEvents 2)).map ServerState.summary =
      some ([[], [], []], [("a", 1)], some 1) := by decide +kernel
  have hguard : Run.Guarded ServerState.step KeepsCurrent (downServer ["a"] fun _ => none)
      (startEvents 1 ++ (.registryChanged :: List.replicate 6 (.run 1)) ++ rebuiltEvents 2) := by
    decide +kernel
  obtain ⟨t, hrun, ht⟩ := Option.map_eq_some_iff.mp hsees
  obtain ⟨htodo, ht⟩ := Prod.mk.inj ht
  obtain ⟨hpublished, hlast⟩ := Prod.mk.inj ht
  have hdone : ∀ u ∈ t.workers, u.todo = [] := by
    intro u hu
    have hmem : u.todo ∈ t.workers.map Worker.todo := List.mem_map_of_mem hu
    rw [htodo] at hmem
    simpa using hmem
  obtain ⟨e, he, -⟩ : ∃ e ∈ t.published, (e.dbPath, e.db.build) = ("a", 1) := by
    rw [← List.mem_map, hpublished]
    exact List.mem_singleton.mpr rfl
  exact ⟨t, e, hrun, he, hlast,
    published_current (downServer_down ["a"] fun _ => none) hguard hrun hdone he⟩

/-- A reload opens the database, which is then built again and published; the reload stores last. -/
theorem stale_reload_published :
    ∃ t e, Run.exec ServerState.step (downServer ["a"] fun _ => none)
        (startEvents 1 ++ (.registryChanged :: List.replicate 3 (.run 1)) ++ rebuiltEvents 2 ++
          List.replicate 3 (.run 1)) = some t ∧
      (∀ u ∈ t.workers, u.todo = []) ∧ e ∈ t.published ∧ e.dbPath = "a" ∧
      t.lastBuild "a" = some 1 ∧ e.db.build = 0 := by
  have hsees : (Run.exec ServerState.step (downServer ["a"] fun _ => none)
      (startEvents 1 ++ (.registryChanged :: List.replicate 3 (.run 1)) ++ rebuiltEvents 2 ++
        List.replicate 3 (.run 1))).map ServerState.summary =
      some ([[], [], []], [("a", 0)], some 1) := by decide +kernel
  obtain ⟨t, hrun, ht⟩ := Option.map_eq_some_iff.mp hsees
  obtain ⟨htodo, ht⟩ := Prod.mk.inj ht
  obtain ⟨hpublished, hlast⟩ := Prod.mk.inj ht
  obtain ⟨e, he, hbuild⟩ : ∃ e ∈ t.published, (e.dbPath, e.db.build) = ("a", 0) := by
    rw [← List.mem_map, hpublished]
    exact List.mem_singleton.mpr rfl
  refine ⟨t, e, hrun, fun u hu => ?_, he, (Prod.mk.inj hbuild).1, hlast, (Prod.mk.inj hbuild).2⟩
  have hmem : u.todo ∈ t.workers.map Worker.todo := List.mem_map_of_mem hu
  rw [htodo] at hmem
  simpa using hmem

end DeepFinder
