import DeepFinder.Content.OverlayVersion
import DeepFinder.Index.Registry
import DeepFinder.Lib.Run
import Mathlib.Logic.Function.Basic

/-!
# The daemon and its handles

The published `DbSet` is one shared pointer that several threads replace: the registry watcher,
background builds, compactions, the safety net.  A set holds a reader on each index file, and shares
the shards and the overlay of each database behind handles, which watchers also hold.

The threads run short programs of steps that interleave freely.  What a build finds, the registry
and the files themselves change at any time.
-/

namespace DeepFinder

/-! ## What the threads share -/

/-- An index as it was opened: the number of its build and the documents that it found. -/
structure Cold where
  build : ℕ
  docs : String → Option FileVersion

/-- `DbEntry`, with its `Arc<ContentShards>` and its `Arc<OverlayHandle>` by number. -/
structure LiveEntry where
  dbPath : String
  root : Option String
  db : Cold
  shards : ℕ
  overlay : ℕ

/-- `DbSet`. -/
abbrev DbSet := List LiveEntry

/-- What a daemon or command line build is for. -/
inductive Job where
  | spawnBuild
  | compactAndSwap (shards overlay : ℕ)
  | rebuildAndSwap (shards : ℕ)
  | foreground
  deriving DecidableEq, Repr

/-- A step of a thread on what it shares with others. -/
inductive Instr where
  /-- `DbSet::open` -/
  | openSet
  /-- `dbset.load_full()` -/
  | load
  /-- `reuse_handles_from` -/
  | reuse
  /-- `dbset.store` -/
  | store
  /-- `watch::spawn` for the entry of a database, or for every rooted entry -/
  | attach (dbPath : Option String)
  /-- `shards.reload()` -/
  | reloadShards (dbPath : String) (shards : ℕ)
  /-- `overlay.clear()` -/
  | clearOverlay (dbPath : String) (overlay : ℕ)
  /-- the marker guard is dropped -/
  | release
  deriving DecidableEq, Repr

/-- A build in progress, with the states of the files that it has seen pass by. -/
structure RunningBuild where
  dbPath : String
  job : Job
  seen : List (String → Option FileVersion)

/-- A thread.  `built`, `reloaded` and `reused` say what it has done: the database that it has built
and not yet published, the shards that it has reloaded since, and whether its set carries handles. -/
structure Worker where
  jobs : List (String × Job) := []
  building : Option RunningBuild := none
  todo : List Instr := []
  opening : Option (List (String × Option String)) := none
  old : DbSet := []
  fresh : DbSet := []
  marker : Option String := none
  outside : Bool := false
  reused : Bool := false
  built : Option String := none
  reloaded : Option ℕ := none

/-- A df-watch thread with the handles it captured, the records that it has read and not yet
applied, and its last compaction. -/
structure Watcher where
  dbPath : String
  shards : ℕ
  overlay : ℕ
  pending : Option (List WalRecord) := none
  compaction : Option ℕ := none
  deriving DecidableEq, Repr

/-- The files, the indexes and logs on disk, and the daemon.  `files` gives for each database the
version that a build of it records of each path. -/
structure ServerState where
  files : String → String → Option FileVersion
  disk : String → Option Cold
  wal : String → List WalRecord
  registry : List DbRecord
  defaultDb : String
  serving : Bool
  published : DbSet
  shards : String → ℕ → Option Cold
  overlays : String → ℕ → List WalRecord
  next : ℕ
  workers : List Worker
  watchers : List Watcher

/-- What happens next. -/
inductive ServerEvent where
  /-- a path changes on disk -/
  | change (dbPath path : String) (version : Option FileVersion)
  /-- `dbs.toml` is rewritten -/
  | register (records : List DbRecord)
  /-- `serve` starts -/
  | serve
  /-- the daemon dies -/
  | crash
  /-- `registry_watcher` sees a change -/
  | registryChanged
  /-- an index request, or `spawn_if_missing` -/
  | spawnBuild (dbPath : String)
  /-- a build of the command line -/
  | foreground (dbPath : String)
  /-- a cycle of `spawn_safety_net` -/
  | safetyNet
  /-- a watcher reaches the compaction threshold -/
  | compact (watcher : ℕ)
  /-- a thread takes its next step -/
  | run (worker : ℕ)
  /-- a build completes; it has read each path at some time since it began -/
  | finish (worker : ℕ) (pick : String → ℕ)
  /-- a build fails -/
  | fail (worker : ℕ)
  /-- a watcher reads the paths of a batch -/
  | observe (watcher : ℕ) (paths : List String)
  /-- `record_and_apply` -/
  | apply (watcher : ℕ)

/-! ## The programs -/

/-- `reload_dbset_reusing_handles`. -/
def reloadReusing : List Instr := [.load, .openSet, .reuse, .store]

/-- The reload of `registry_watcher::run`. -/
def registryReload : List Instr := [.openSet, .load, .reuse, .store]

/-- The start of `serve`. -/
def startup : List Instr := [.openSet, .store, .load, .attach none]

/-- What follows a successful build. -/
def Job.after (dbPath : String) : Job → List Instr
  | .spawnBuild => [.openSet, .store, .load, .attach (some dbPath), .release]
  | .compactAndSwap shards overlay =>
      .reloadShards dbPath shards :: .clearOverlay dbPath overlay :: reloadReusing ++ [.release]
  | .rebuildAndSwap shards => .reloadShards dbPath shards :: reloadReusing ++ [.release]
  | .foreground => []

def Job.guarded : Job → Bool
  | .foreground => false
  | _ => true

/-- `reuse_handles_from`. -/
def reuseHandlesFrom (fresh old : DbSet) : DbSet :=
  fresh.map fun e =>
    match old.find? fun o => o.dbPath = e.dbPath with
    | some o => { e with shards := o.shards, overlay := o.overlay }
    | none => e

/-- The watcher that `watch::spawn` starts for an entry. -/
def LiveEntry.watcher (e : LiveEntry) : Watcher :=
  { dbPath := e.dbPath, shards := e.shards, overlay := e.overlay }

def attached (dbPath : Option String) (snap : DbSet) : List Watcher :=
  match dbPath with
  | none => (snap.filter fun e => e.root.isSome).map LiveEntry.watcher
  | some d => ((snap.find? fun e => e.dbPath = d).filter fun e => e.root.isSome).toList.map
      LiveEntry.watcher

def recordOf (files : String → Option FileVersion) (path : String) : WalRecord :=
  match files path with
  | some v => .upsert path v.lite v.content
  | none => .delete path

/-! ## Steps -/

def ServerState.setWorker (s : ServerState) (i : ℕ) (t : Worker) : ServerState :=
  { s with workers := s.workers.set i t }

def ServerState.spawn (s : ServerState) (t : Worker) : ServerState :=
  { s with workers := s.workers ++ [t] }

def ServerState.setShards (s : ServerState) (d : String) (n : ℕ) (c : Option Cold) : ServerState :=
  { s with shards := Function.update s.shards d (Function.update (s.shards d) n c) }

def ServerState.setOverlay (s : ServerState) (d : String) (n : ℕ) (recs : List WalRecord) :
    ServerState :=
  { s with overlays := Function.update s.overlays d (Function.update (s.overlays d) n recs) }

/-- `open_entry`: new handles on the shards and on the replayed log. -/
def ServerState.openEntry (s : ServerState) (i : ℕ) (t : Worker) (d : String)
    (root : Option String) : ServerState :=
  match s.disk d with
  | none => s.setWorker i t
  | some c =>
      { ((s.setShards d s.next (some c)).setOverlay d s.next (s.wal d)).setWorker i
          { t with fresh := t.fresh ++ [⟨d, root, c, s.next, s.next⟩], reused := false } with
        next := s.next + 1 }

/-- One step of a thread's program; `openSet` takes a step for each database. -/
def ServerState.execute (s : ServerState) (i : ℕ) (t : Worker) (todo : List Instr) :
    Instr → ServerState
  | .openSet =>
      match t.opening with
      | none =>
          s.openEntry i { t with
            fresh := []
            opening := some (s.registry.map fun r => (r.dbPath, some r.root)) } s.defaultDb none
      | some ((d, root) :: rest) => s.openEntry i { t with opening := some rest } d root
      | some [] => s.setWorker i { t with opening := none, todo := todo }
  | .load => s.setWorker i { t with old := s.published, reused := false, todo := todo }
  | .reuse =>
      s.setWorker i { t with fresh := reuseHandlesFrom t.fresh t.old, reused := true, todo := todo }
  | .store =>
      { s.setWorker i { t with
          fresh := []
          old := []
          reused := false
          built := none
          reloaded := none
          todo := todo } with published := t.fresh }
  | .attach d =>
      { s.setWorker i { t with old := [], todo := todo } with
        watchers := s.watchers ++ attached d t.old
        serving := true }
  | .reloadShards d n =>
      (s.setShards d n (s.disk d)).setWorker i { t with reloaded := some n, todo := todo }
  | .clearOverlay d n =>
      { (s.setOverlay d n []).setWorker i { t with todo := todo } with
        wal := Function.update s.wal d [] }
  | .release => s.setWorker i { t with marker := none, todo := todo }

/-- The next job of a thread: skipped when the marker of the database is taken. -/
def ServerState.beginJob (s : ServerState) (i : ℕ) (t : Worker) (d : String) (job : Job)
    (jobs : List (String × Job)) : ServerState :=
  if job.guarded = true ∧ ∃ u ∈ s.workers, u.marker = some d then
    s.setWorker i { t with jobs := jobs }
  else s.setWorker i { t with
    jobs := jobs
    building := some ⟨d, job, []⟩
    marker := if job.guarded then some d else none }

/-- The next step of a thread that is not building. -/
def ServerState.runWorker (s : ServerState) (i : ℕ) (t : Worker) : Option ServerState :=
  match t.building, t.todo, t.jobs with
  | some _, _, _ => none
  | none, instr :: todo, _ => some (s.execute i t todo instr)
  | none, [], (d, job) :: jobs => some (s.beginJob i t d job jobs)
  | none, [], [] => none

/-- What a build found: each path as it stood at one of the times it has seen. -/
def RunningBuild.docs (b : RunningBuild) (files : String → Option FileVersion)
    (pick : String → ℕ) (path : String) : Option FileVersion :=
  (b.seen[pick path]?.getD files) path

lemma RunningBuild.docs_of_seen {b : RunningBuild} {files : String → Option FileVersion}
    {path : String} {v : Option FileVersion} (hseen : ∀ f ∈ b.seen, f path = v)
    (hfiles : files path = v) (pick : String → ℕ) : b.docs files pick path = v := by
  unfold RunningBuild.docs
  cases hget : b.seen[pick path]? with
  | none => exact hfiles
  | some f => exact hseen f (List.mem_of_getElem? hget)

/-- A build completes: its index is on disk. -/
def ServerState.finishBuild (s : ServerState) (i : ℕ) (t : Worker) (b : RunningBuild)
    (pick : String → ℕ) : ServerState :=
  { s.setWorker i { t with
      building := none
      todo := b.job.after b.dbPath
      opening := none
      fresh := []
      old := []
      reused := false
      reloaded := none
      built := if b.job.guarded then some b.dbPath else none } with
    disk := Function.update s.disk b.dbPath
      (some ⟨(s.disk b.dbPath).elim 0 fun c => c.build + 1, b.docs (s.files b.dbPath) pick⟩) }

def Worker.witness (d : String) (files : String → Option FileVersion) (t : Worker) : Worker :=
  { t with building := t.building.map fun b =>
      if b.dbPath = d then { b with seen := b.seen ++ [files] } else b }

def Worker.finished (t : Worker) : Bool := t.building.isNone && t.todo.isEmpty && t.jobs.isEmpty

/-- The watcher waits for changes: it has no batch, and is not compacting. -/
def Watcher.waiting (x : Watcher) (workers : List Worker) : Bool :=
  x.pending.isNone && (x.compaction.bind fun i => workers[i]?).all Worker.finished

/-- The step of an event, if it is enabled. -/
def ServerState.step (s : ServerState) : ServerEvent → Option ServerState
  | .change d path version =>
      some { s with
        files := Function.update s.files d (Function.update (s.files d) path version)
        workers := s.workers.map (Worker.witness d (s.files d)) }
  | .register records => some { s with registry := records }
  | .serve =>
      if s.serving = false ∧ ∀ t ∈ s.workers, t.outside = true then
        some (s.spawn { todo := startup })
      else none
  | .crash =>
      some { s with
        serving := false
        published := []
        watchers := []
        workers := s.workers.filter Worker.outside }
  | .registryChanged => if s.serving then some (s.spawn { todo := registryReload }) else none
  | .spawnBuild d => if s.serving then some (s.spawn { jobs := [(d, .spawnBuild)] }) else none
  | .foreground d => some (s.spawn { jobs := [(d, .foreground)], outside := true })
  | .safetyNet =>
      if s.serving then
        some (s.spawn { jobs := (s.published.filter fun e => e.root.isSome).map fun e =>
          (e.dbPath, .rebuildAndSwap e.shards) })
      else none
  | .compact w =>
      (s.watchers[w]?).bind fun x =>
        if x.waiting s.workers then
          some { s.spawn { jobs := [(x.dbPath, .compactAndSwap x.shards x.overlay)] } with
            watchers := s.watchers.set w { x with compaction := some s.workers.length } }
        else none
  | .run i => (s.workers[i]?).bind (s.runWorker i)
  | .finish i pick =>
      (s.workers[i]?).bind fun t => t.building.map fun b => s.finishBuild i t b pick
  | .fail i =>
      (s.workers[i]?).bind fun t => t.building.map fun _ =>
        s.setWorker i { t with building := none, marker := none }
  | .observe w paths =>
      (s.watchers[w]?).bind fun x =>
        if x.waiting s.workers then
          some { s with watchers := s.watchers.set w { x with
            pending := some (paths.map (recordOf (s.files x.dbPath))) } }
        else none
  | .apply w =>
      (s.watchers[w]?).bind fun x => x.pending.map fun recs =>
        { (s.setOverlay x.dbPath x.overlay (s.overlays x.dbPath x.overlay ++ recs)) with
          wal := Function.update s.wal x.dbPath (s.wal x.dbPath ++ recs)
          watchers := s.watchers.set w { x with pending := none } }

/-! ## What a step can do -/

/-- The moves of the daemon and of what is around it. -/
inductive ServerState.Moves (s : ServerState) : ServerEvent → ServerState → Prop where
  | change (d path : String) (version : Option FileVersion) :
      s.Moves (.change d path version) { s with
        files := Function.update s.files d (Function.update (s.files d) path version)
        workers := s.workers.map (Worker.witness d (s.files d)) }
  | register (records : List DbRecord) : s.Moves (.register records) { s with registry := records }
  | crash : s.Moves .crash { s with
      serving := false
      published := []
      watchers := []
      workers := s.workers.filter Worker.outside }
  | spawn (ev : ServerEvent) (jobs : List (String × Job)) (todo : List Instr) (outside : Bool)
      (htodo : todo = [] ∨ todo = startup ∨ todo = registryReload) :
      s.Moves ev (s.spawn { jobs := jobs, todo := todo, outside := outside })
  | compact (w : ℕ) (x : Watcher) (hx : s.watchers[w]? = some x) :
      s.Moves (.compact w)
        { s.spawn { jobs := [(x.dbPath, .compactAndSwap x.shards x.overlay)] } with
          watchers := s.watchers.set w { x with compaction := some s.workers.length } }
  | execute (i : ℕ) (t : Worker) (instr : Instr) (todo : List Instr) (hi : s.workers[i]? = some t)
      (hbuilding : t.building = none) (htodo : t.todo = instr :: todo) :
      s.Moves (.run i) (s.execute i t todo instr)
  | skip (i : ℕ) (t : Worker) (jobs : List (String × Job)) (hi : s.workers[i]? = some t)
      (hbuilding : t.building = none) (htodo : t.todo = []) :
      s.Moves (.run i) (s.setWorker i { t with jobs := jobs })
  | start (i : ℕ) (t : Worker) (d : String) (job : Job) (jobs : List (String × Job))
      (hi : s.workers[i]? = some t) (hbuilding : t.building = none) (htodo : t.todo = [])
      (hmarker : job.guarded = true → ∀ u ∈ s.workers, u.marker ≠ some d) :
      s.Moves (.run i) (s.setWorker i { t with
        jobs := jobs
        building := some ⟨d, job, []⟩
        marker := if job.guarded then some d else none })
  | finish (i : ℕ) (pick : String → ℕ) (t : Worker) (b : RunningBuild)
      (hi : s.workers[i]? = some t) (hb : t.building = some b) :
      s.Moves (.finish i pick) (s.finishBuild i t b pick)
  | fail (i : ℕ) (t : Worker) (b : RunningBuild) (hi : s.workers[i]? = some t)
      (hb : t.building = some b) :
      s.Moves (.fail i) (s.setWorker i { t with building := none, marker := none })
  | observe (w : ℕ) (paths : List String) (x : Watcher) (hx : s.watchers[w]? = some x) :
      s.Moves (.observe w paths) { s with watchers := s.watchers.set w { x with
        pending := some (paths.map (recordOf (s.files x.dbPath))) } }
  | apply (w : ℕ) (x : Watcher) (recs : List WalRecord) (hx : s.watchers[w]? = some x)
      (hrecs : x.pending = some recs) :
      s.Moves (.apply w)
        { (s.setOverlay x.dbPath x.overlay (s.overlays x.dbPath x.overlay ++ recs)) with
          wal := Function.update s.wal x.dbPath (s.wal x.dbPath ++ recs)
          watchers := s.watchers.set w { x with pending := none } }

section Moves

variable {s s' : ServerState} {i : ℕ} {t : Worker}

/-- A thread that takes a step is not building; it goes on with its program, or begins a job. -/
lemma runWorker_cases (h : s.runWorker i t = some s') : t.building = none ∧
    ((∃ instr todo, t.todo = instr :: todo ∧ s' = s.execute i t todo instr) ∨
      ∃ d job jobs, t.todo = [] ∧ t.jobs = (d, job) :: jobs ∧ s' = s.beginJob i t d job jobs) := by
  unfold ServerState.runWorker at h
  split at h
  · cases h
  · rename_i instr todo hbuilding htodo
    exact ⟨hbuilding, .inl ⟨instr, todo, htodo, (Option.some.inj h).symm⟩⟩
  · rename_i d job jobs hbuilding htodo hjobs
    exact ⟨hbuilding, .inr ⟨d, job, jobs, htodo, hjobs, (Option.some.inj h).symm⟩⟩
  · cases h

lemma moves_of_run (hi : s.workers[i]? = some t) (h : s.runWorker i t = some s') :
    s.Moves (.run i) s' := by
  obtain ⟨hbuilding, ⟨instr, todo, htodo, rfl⟩ | ⟨d, job, jobs, htodo, -, rfl⟩⟩ :=
    runWorker_cases h
  · exact .execute i t instr todo hi hbuilding htodo
  · unfold ServerState.beginJob
    split
    · exact .skip i t jobs hi hbuilding htodo
    · rename_i hfree
      refine .start i t d job jobs hi hbuilding htodo fun hguarded u hu hmarker => ?_
      exact hfree ⟨hguarded, u, hu, hmarker⟩

/-- Every step is one of the moves. -/
theorem moves_of_step {ev : ServerEvent} (h : s.step ev = some s') : s.Moves ev s' := by
  cases ev with
  | change d path version =>
      obtain rfl := Option.some.inj h
      exact .change d path version
  | register records =>
      obtain rfl := Option.some.inj h
      exact .register records
  | serve =>
      obtain ⟨-, h⟩ := Option.ite_none_right_eq_some.mp h
      obtain rfl := Option.some.inj h
      exact .spawn _ [] startup false (.inr (.inl rfl))
  | crash =>
      obtain rfl := Option.some.inj h
      exact .crash
  | registryChanged =>
      obtain ⟨-, h⟩ := Option.ite_none_right_eq_some.mp h
      obtain rfl := Option.some.inj h
      exact .spawn _ [] registryReload false (.inr (.inr rfl))
  | spawnBuild d =>
      obtain ⟨-, h⟩ := Option.ite_none_right_eq_some.mp h
      obtain rfl := Option.some.inj h
      exact .spawn _ _ [] false (.inl rfl)
  | foreground d =>
      obtain rfl := Option.some.inj h
      exact .spawn _ _ [] true (.inl rfl)
  | safetyNet =>
      obtain ⟨-, h⟩ := Option.ite_none_right_eq_some.mp h
      obtain rfl := Option.some.inj h
      exact .spawn _ _ [] false (.inl rfl)
  | compact w =>
      obtain ⟨x, hx, h⟩ := Option.bind_eq_some_iff.mp h
      obtain ⟨-, h⟩ := Option.ite_none_right_eq_some.mp h
      obtain rfl := Option.some.inj h
      exact .compact w x hx
  | run i =>
      obtain ⟨t, hi, h⟩ := Option.bind_eq_some_iff.mp h
      exact moves_of_run hi h
  | finish i pick =>
      obtain ⟨t, hi, h⟩ := Option.bind_eq_some_iff.mp h
      obtain ⟨b, hb, rfl⟩ := Option.map_eq_some_iff.mp h
      exact .finish i pick t b hi hb
  | fail i =>
      obtain ⟨t, hi, h⟩ := Option.bind_eq_some_iff.mp h
      obtain ⟨b, hb, rfl⟩ := Option.map_eq_some_iff.mp h
      exact .fail i t b hi hb
  | observe w paths =>
      obtain ⟨x, hx, h⟩ := Option.bind_eq_some_iff.mp h
      obtain ⟨-, h⟩ := Option.ite_none_right_eq_some.mp h
      obtain rfl := Option.some.inj h
      exact .observe w paths x hx
  | apply w =>
      obtain ⟨x, hx, h⟩ := Option.bind_eq_some_iff.mp h
      obtain ⟨recs, hrecs, rfl⟩ := Option.map_eq_some_iff.mp h
      exact .apply w x recs hx hrecs

lemma shards_setShards (d : String) (n : ℕ) (c : Option Cold) (d' : String) (n' : ℕ) :
    (s.setShards d n c).shards d' n' = if d' = d ∧ n' = n then c else s.shards d' n' := by
  unfold ServerState.setShards
  by_cases hd : d' = d
  · subst hd
    by_cases hn : n' = n <;> simp [hn]
  · simp [hd]

lemma overlays_setOverlay (d : String) (n : ℕ) (recs : List WalRecord) (d' : String) (n' : ℕ) :
    (s.setOverlay d n recs).overlays d' n' =
      if d' = d ∧ n' = n then recs else s.overlays d' n' := by
  unfold ServerState.setOverlay
  by_cases hd : d' = d
  · subst hd
    by_cases hn : n' = n <;> simp [hn]
  · simp [hd]

/-- Only one worker changes. -/
lemma workers_setWorker_at {t' : Worker} {P : Worker → Prop} (hset : P t')
    (hrest : ∀ j u, j ≠ i → s.workers[j]? = some u → P u) :
    ∀ u ∈ (s.setWorker i t').workers, P u := by
  intro u hu
  obtain ⟨j, hj⟩ := List.mem_iff_getElem?.mp hu
  rw [ServerState.setWorker, List.getElem?_set] at hj
  by_cases hij : i = j
  · rw [if_pos hij] at hj
    split at hj
    · rw [← Option.some.inj hj]
      exact hset
    · cases hj
  · rw [if_neg hij] at hj
    exact hrest j u (Ne.symm hij) hj

lemma workers_setWorker {t' : Worker} {P : Worker → Prop} (hset : P t')
    (hrest : ∀ u ∈ s.workers, P u) : ∀ u ∈ (s.setWorker i t').workers, P u :=
  workers_setWorker_at hset fun _ u _ hj => hrest u (List.mem_of_getElem? hj)

lemma mem_setWorker_of_ne {t' u : Worker} {j : ℕ} (hij : j ≠ i) (hj : s.workers[j]? = some u) :
    u ∈ (s.setWorker i t').workers := by
  apply List.mem_of_getElem?
  rw [ServerState.setWorker, List.getElem?_set_ne (Ne.symm hij)]
  exact hj

lemma mem_setWorker_self {t' : Worker} (hi : s.workers[i]? = some t) :
    t' ∈ (s.setWorker i t').workers := by
  apply List.mem_of_getElem?
  rw [ServerState.setWorker, List.getElem?_set_self (List.getElem?_eq_some_iff.mp hi).1]

lemma workers_spawn {t' : Worker} {P : Worker → Prop} (hnew : P t')
    (hrest : ∀ u ∈ s.workers, P u) : ∀ u ∈ (s.spawn t').workers, P u := by
  intro u hu
  rcases List.mem_append.mp hu with hu | hu
  · exact hrest u hu
  · rw [List.mem_singleton.mp hu]
    exact hnew

end Moves

/-- The daemon is down: there are no threads, no watchers and no published set.  Files, logs and
indexes on disk may be any. -/
structure ServerState.Down (s : ServerState) : Prop where
  serving_eq : s.serving = false
  published_eq : s.published = []
  watchers_eq : s.watchers = []
  workers_eq : s.workers = []

/-- A daemon that is down, with registered databases whose files are indexed as they are. -/
def downServer (dbPaths : List String) (files : String → Option FileVersion) : ServerState where
  files := fun _ => files
  disk := fun d => if d ∈ dbPaths then some ⟨0, files⟩ else none
  wal := fun _ => []
  registry := dbPaths.map fun d => ⟨d, "/" ++ d, d, d ++ "/content"⟩
  defaultDb := "default"
  serving := false
  published := []
  shards := fun _ _ => none
  overlays := fun _ _ => []
  next := 0
  workers := []
  watchers := []

lemma downServer_down (dbPaths : List String) (files : String → Option FileVersion) :
    (downServer dbPaths files).Down := ⟨rfl, rfl, rfl, rfl⟩

/-- An entry as a watcher sees it: its database and its handles. -/
def LiveEntry.handles (e : LiveEntry) : String × ℕ × ℕ := (e.dbPath, e.shards, e.overlay)

/-- The start of a daemon over `n` registered databases. -/
def startEvents (n : ℕ) : List ServerEvent := .serve :: List.replicate (n + 5) (.run 0)

end DeepFinder
