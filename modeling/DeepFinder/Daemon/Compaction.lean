import DeepFinder.Daemon.Reads
import DeepFinder.Daemon.Reload

/-!
# A query across a compaction

A compaction replaces the index on disk, reloads the shards, clears the overlay, and only then
publishes a set that reads the new filename index.  What the overlay had of a path should never go
missing from a query on the way: `compaction_serves_iff` says in which order of its snapshots and
the steps it does not.

The query takes three snapshots, of the published set, the shards and the overlay, in this order and
anywhere between the steps of the compaction; the condition relates each of them to the step that
would take something away from it.  Any other threads may run, as long as none of them touches this
database and the path is not changed meanwhile (`CompactionStep`); before the compaction its latest
version is in the overlay (`BeforeCompaction`).
-/

namespace DeepFinder

/-! ## The steps of a compaction -/

/-- A step of the compaction, or a change of another path.  The path that the query is about stays
as it is, and no other thread touches the database. -/
inductive CompactionStep (i : ℕ) (d path : String) : ServerEvent → Prop where
  | run : CompactionStep i d path (.run i)
  | finish (pick : String → ℕ) : CompactionStep i d path (.finish i pick)
  | fail : CompactionStep i d path (.fail i)
  | change (d' path' : String) (v : Option FileVersion) (h : ¬ (d' = d ∧ path' = path)) :
      CompactionStep i d path (.change d' path' v)

/-- A thread is about to compact a published database, and the latest change of the path is in the
overlay. -/
structure BeforeCompaction (s : ServerState) (i : ℕ) (d : String) (shards overlay : ℕ)
    (path : String) : Prop where
  thread : ∃ t, s.workers[i]? = some t ∧ t.jobs = [(d, .compactAndSwap shards overlay)] ∧
    t.building = none ∧ t.todo = []
  published : ∃ e ∈ s.published, e.dbPath = d
  handles : ∀ e ∈ s.published, e.dbPath = d → e.shards = shards ∧ e.overlay = overlay
  recorded : hotVersion (s.overlays d overlay) path = some (s.files d path)

/-- Since `s₀` the thread has built the database and taken this step of its program.  What is no
longer in the program of the thread has been taken. -/
def ServerState.Done (s₀ s : ServerState) (i : ℕ) (d : String) (instr : Instr) : Prop :=
  s.lastBuild d ≠ s₀.lastBuild d ∧ ∀ t ∈ s.workers[i]?, instr ∉ t.todo

/-- The compaction has not built the database: nothing has changed. -/
structure Unbuilt (s₀ s : ServerState) (d : String) (n o : ℕ) (path : String) (t : Worker) :
    Prop where
  disk_eq : s.disk d = s₀.disk d
  shards_eq : s.shards d n = s₀.shards d n
  overlay_eq : s.overlays d o = s₀.overlays d o
  published_eq : s.published = s₀.published
  todo_nil : t.todo = []
  jobs : t.jobs = [(d, .compactAndSwap n o)] ∧ t.building = none ∨ t.jobs = []
  building : ∀ b ∈ t.building, b.dbPath = d ∧ b.job = .compactAndSwap n o ∧
    ∀ files ∈ b.seen, files path = s₀.files d path

/-- The shards and the overlay, when these steps of a compaction are still to come. -/
structure Layers (s₀ s : ServerState) (d : String) (n o : ℕ) (path : String) (todo : List Instr) :
    Prop where
  shards_kept : .reloadShards d n ∈ todo → s.shards d n = s₀.shards d n
  shards_reloaded : .reloadShards d n ∉ todo →
    ∃ c, s.shards d n = some c ∧ c.docs path = s₀.files d path
  overlay_kept : .clearOverlay d o ∈ todo → s.overlays d o = s₀.overlays d o
  overlay_cleared : .clearOverlay d o ∉ todo → s.overlays d o = [] ∧ s.wal d = []

/-- The compaction has built the database, with the version of the path, and taken some of the
steps that follow. -/
structure Built (s₀ s : ServerState) (d : String) (n o : ℕ) (path : String) (t : Worker) :
    Prop where
  build_ne : s.lastBuild d ≠ s₀.lastBuild d
  disk : ∃ c, s.disk d = some c ∧ c.docs path = s₀.files d path
  jobs_nil : t.jobs = []
  building_none : t.building = none
  todo : t.todo <:+ (Job.compactAndSwap n o).after d
  layers : Layers s₀ s d n o path t.todo
  published_kept : .store ∈ t.todo → s.published = s₀.published
  published_stored : .store ∉ t.todo → ∀ e ∈ s.published, e.dbPath = d →
    e.db.docs path = s₀.files d path ∧ e.shards = n ∧ e.overlay = o
  old_loaded : .load ∉ t.todo → .store ∈ t.todo → t.old = s₀.published
  fresh_opened : ∀ e ∈ t.fresh, e.dbPath = d → e.db.docs path = s₀.files d path
  fresh_reused : .reuse ∉ t.todo → ∀ e ∈ t.fresh, e.dbPath = d → e.shards = n ∧ e.overlay = o

/-- Where the compaction is. -/
structure CompactInv (s₀ s : ServerState) (i : ℕ) (d : String) (n o : ℕ) (path : String) :
    Prop where
  files_eq : s.files d path = s₀.files d path
  thread : ∃ t, s.workers[i]? = some t ∧
    (Unbuilt s₀ s d n o path t ∨ Built s₀ s d n o path t)

section Steps

variable {s₀ s s' : ServerState} {i : ℕ} {d path : String} {n o : ℕ} {t t' : Worker}

lemma compact_program {instr : Instr} {todo : List Instr}
    (h : instr :: todo <:+ (Job.compactAndSwap n o).after d) :
    (instr = .reloadShards d n ∧ todo = .clearOverlay d o :: reloadReusing ++ [.release]) ∨
    (instr = .clearOverlay d o ∧ todo = reloadReusing ++ [.release]) ∨
    (instr = .load ∧ todo = [.openSet, .reuse, .store, .release]) ∨
    (instr = .openSet ∧ todo = [.reuse, .store, .release]) ∨
    (instr = .reuse ∧ todo = [.store, .release]) ∨
    (instr = .store ∧ todo = [.release]) ∨ (instr = .release ∧ todo = []) := by
  simpa [Job.after, reloadReusing, List.suffix_cons_iff] using h

lemma Layers.tail {instr : Instr} {todo rest : List Instr} (h : Layers s₀ s d n o path todo)
    (htodo : todo = instr :: rest) (hreload : instr ≠ .reloadShards d n)
    (hclear : instr ≠ .clearOverlay d o) : Layers s₀ s d n o path rest := by
  have hreload' : .reloadShards d n ∈ todo ↔ .reloadShards d n ∈ rest := by
    rw [htodo, List.mem_cons, or_iff_right (Ne.symm hreload)]
  have hclear' : .clearOverlay d o ∈ todo ↔ .clearOverlay d o ∈ rest := by
    rw [htodo, List.mem_cons, or_iff_right (Ne.symm hclear)]
  obtain ⟨hkept, hreloaded, hkept', hcleared⟩ := h
  rw [hreload'] at hkept hreloaded
  rw [hclear'] at hkept' hcleared
  exact ⟨hkept, hreloaded, hkept', hcleared⟩

lemma BeforeCompaction.compactInv (h : BeforeCompaction s i d n o path) :
    CompactInv s s i d n o path := by
  obtain ⟨t, hi, hjobs, hbuilding, htodo⟩ := h.thread
  refine ⟨rfl, t, hi, .inl ⟨rfl, rfl, rfl, rfl, htodo, .inl ⟨hjobs, hbuilding⟩, fun b hb => ?_⟩⟩
  rw [hbuilding] at hb
  cases hb

lemma Unbuilt.begin (h : Unbuilt s₀ s d n o path t) (hwork : t'.todo = []) (hjobs : t'.jobs = [])
    (hbuilding : ∀ b ∈ t'.building, b = ⟨d, .compactAndSwap n o, []⟩) :
    Unbuilt s₀ (s.setWorker i t') d n o path t' := by
  refine ⟨h.disk_eq, h.shards_eq, h.overlay_eq, h.published_eq, hwork, .inr hjobs, fun b hb => ?_⟩
  obtain rfl := hbuilding b hb
  exact ⟨rfl, rfl, fun files hf => by cases hf⟩

/-- The build completes. -/
lemma Unbuilt.finish (h : Unbuilt s₀ s d n o path t) (hfiles : s.files d path = s₀.files d path)
    (hi : s.workers[i]? = some t) {b : RunningBuild} (hb : t.building = some b)
    (pick : String → ℕ) : CompactInv s₀ (s.finishBuild i t b pick) i d n o path := by
  obtain ⟨rfl, hjob, hseen⟩ := h.building b hb
  have hjobs : t.jobs = [] := by
    rcases h.jobs with ⟨-, hnone⟩ | hjobs
    · rw [hb] at hnone
      cases hnone
    · exact hjobs
  have hdisk : (s.finishBuild i t b pick).disk b.dbPath = some
      ⟨(s.disk b.dbPath).elim 0 fun c => c.build + 1, b.docs (s.files b.dbPath) pick⟩ :=
    Function.update_self ..
  refine ⟨hfiles, _, List.getElem?_set_self (List.getElem?_eq_some_iff.mp hi).1, .inr ?_⟩
  exact
    { build_ne := by
        rw [ServerState.lastBuild, hdisk, ServerState.lastBuild, ← h.disk_eq]
        cases s.disk b.dbPath with
        | none => simp
        | some c => simp
      disk := ⟨_, hdisk, RunningBuild.docs_of_seen hseen hfiles pick⟩
      jobs_nil := hjobs
      building_none := rfl
      todo := by rw [hjob]
      layers := by
        refine ⟨fun _ => h.shards_eq, fun hn => absurd ?_ hn, fun _ => h.overlay_eq,
          fun hn => absurd ?_ hn⟩
        · rw [hjob]
          simp [Job.after]
        · rw [hjob]
          simp [Job.after]
      published_kept := fun _ => h.published_eq
      published_stored := fun hn => absurd (by rw [hjob]; simp [Job.after, reloadReusing]) hn
      old_loaded := fun hn => absurd (by rw [hjob]; simp [Job.after, reloadReusing]) hn
      fresh_opened := fun e he => by cases he
      fresh_reused := fun _ e he => by cases he }

/-- Handles carried over from a set whose entries of a database all have the same. -/
lemma handles_reuseHandlesFrom {fresh old : DbSet} {e : LiveEntry}
    (hpub : ∃ o' ∈ old, o'.dbPath = d)
    (hhandles : ∀ o' ∈ old, o'.dbPath = d → o'.shards = n ∧ o'.overlay = o)
    (he : e ∈ reuseHandlesFrom fresh old) (hed : e.dbPath = d) :
    e.shards = n ∧ e.overlay = o := by
  obtain ⟨f, -, rfl⟩ := List.mem_map.mp he
  obtain ⟨o', ho', hd⟩ := hpub
  cases hfind : old.find? fun o => o.dbPath = f.dbPath with
  | none =>
      simp only [hfind] at hed
      exact absurd (hd.trans hed.symm) (by simpa using List.find?_eq_none.mp hfind o' ho')
  | some found =>
      simp only [hfind] at hed ⊢
      have hfound : found.dbPath = f.dbPath := by simpa using List.find?_some hfind
      exact hhandles found (List.mem_of_find?_eq_some hfind) (hfound.trans hed)

/-- A database is opened, once its shards are reloaded and its overlay is cleared. -/
lemma Built.openEntry (h : Built s₀ s d n o path t) (hi : s.workers[i]? = some t)
    (hfiles : s.files d path = s₀.files d path)
    (htodo : t.todo = .openSet :: [.reuse, .store, .release]) (fresh : DbSet)
    (hfresh : ∀ e ∈ fresh, e ∈ t.fresh) (opening : Option (List (String × Option String)))
    (d' : String) (root : Option String) :
    CompactInv s₀ (s.openEntry i { t with fresh := fresh, opening := opening } d' root) i d n o
      path := by
  have hshards := h.layers.shards_reloaded (by simp [htodo])
  have hoverlay := h.layers.overlay_cleared (by simp [htodo])
  have hlt := (List.getElem?_eq_some_iff.mp hi).1
  unfold ServerState.openEntry
  cases hd : s.disk d' with
  | none =>
      refine ⟨hfiles, _, List.getElem?_set_self hlt, .inr
        { h with
          layers := { h.layers with }
          fresh_opened := fun e he => h.fresh_opened e (hfresh e he)
          fresh_reused := fun hn => absurd (by simp [htodo]) hn }⟩
  | some c =>
      refine ⟨hfiles, _, List.getElem?_set_self hlt, .inr
        { h with
          layers := ⟨fun hn => absurd hn (by simp [htodo]), fun _ => ?_,
            fun hn => absurd hn (by simp [htodo]), fun _ => ⟨?_, hoverlay.2⟩⟩
          fresh_opened := fun e he hed => ?_
          fresh_reused := fun hn => absurd (by simp [htodo]) hn }⟩
      · change ∃ c', ((s.setShards d' s.next (some c)).shards d n) = some c' ∧ _
        rw [shards_setShards]
        split
        · rename_i hat
          obtain ⟨c', hc', hdocs⟩ := h.disk
          refine ⟨c', ?_, hdocs⟩
          rw [← hd, ← hat.1]
          exact hc'
        · exact hshards
      · change ((s.setOverlay d' s.next (s.wal d')).overlays d o) = []
        rw [overlays_setOverlay]
        split
        · rename_i hat
          rw [← hat.1]
          exact hoverlay.2
        · exact hoverlay.1
      · rcases List.mem_append.mp he with he | he
        · exact h.fresh_opened e (hfresh e he) hed
        · obtain rfl := List.mem_singleton.mp he
          obtain rfl : d' = d := hed
          obtain ⟨c', hc', hdocs⟩ := h.disk
          obtain rfl := Option.some.inj (hd.symm.trans hc')
          exact hdocs

/-- A step that follows the build. -/
lemma Built.execute (h : Built s₀ s d n o path t) (hi : s.workers[i]? = some t)
    (hfiles : s.files d path = s₀.files d path) (hpub : ∃ e ∈ s₀.published, e.dbPath = d)
    (hhandles : ∀ e ∈ s₀.published, e.dbPath = d → e.shards = n ∧ e.overlay = o)
    {instr : Instr} {todo : List Instr} (htodo : t.todo = instr :: todo) :
    CompactInv s₀ (s.execute i t todo instr) i d n o path := by
  have hlt := (List.getElem?_eq_some_iff.mp hi).1
  have hsuffix : todo <:+ (Job.compactAndSwap n o).after d :=
    (List.suffix_cons instr todo).trans (htodo ▸ h.todo)
  rcases compact_program (htodo ▸ h.todo) with ⟨rfl, rfl⟩ | ⟨rfl, rfl⟩ | ⟨rfl, rfl⟩ | ⟨rfl, rfl⟩ |
    ⟨rfl, rfl⟩ | ⟨rfl, rfl⟩ | ⟨rfl, rfl⟩
  · -- the shards are reloaded
    refine ⟨hfiles, _, List.getElem?_set_self hlt, .inr
      { h with
        todo := hsuffix
        layers := ⟨fun hn => absurd hn (by simp [reloadReusing]), fun _ => ?_,
          fun _ => h.layers.overlay_kept (by simp [htodo]), fun hn => absurd (by simp) hn⟩
        published_kept := fun _ => h.published_kept (by simp [htodo, reloadReusing])
        published_stored := fun hn => absurd (by simp [reloadReusing]) hn
        old_loaded := fun hn => absurd (by simp [reloadReusing]) hn
        fresh_reused := fun hn => absurd (by simp [reloadReusing]) hn }⟩
    obtain ⟨c, hc, hdocs⟩ := h.disk
    refine ⟨c, ?_, hdocs⟩
    change (s.setShards d n (s.disk d)).shards d n = some c
    rw [shards_setShards, if_pos ⟨rfl, rfl⟩, hc]
  · -- the overlay is cleared
    refine ⟨hfiles, _, List.getElem?_set_self hlt, .inr
      { h with
        todo := hsuffix
        layers := ⟨fun hn => absurd hn (by simp [reloadReusing]),
          fun _ => h.layers.shards_reloaded (by simp [htodo, reloadReusing]),
          fun hn => absurd hn (by simp [reloadReusing]),
          fun _ => ⟨?_, Function.update_self ..⟩⟩
        published_kept := fun _ => h.published_kept (by simp [htodo, reloadReusing])
        published_stored := fun hn => absurd (by simp [reloadReusing]) hn
        old_loaded := fun hn => absurd (by simp [reloadReusing]) hn
        fresh_reused := fun hn => absurd (by simp [reloadReusing]) hn }⟩
    change (s.setOverlay d o []).overlays d o = []
    rw [overlays_setOverlay, if_pos ⟨rfl, rfl⟩]
  · -- the published set is loaded
    refine ⟨hfiles, _, List.getElem?_set_self hlt, .inr
      { h with
        todo := hsuffix
        layers := { h.layers.tail htodo (by simp) (by simp) with }
        published_kept := fun _ => h.published_kept (by simp [htodo])
        published_stored := fun hn => absurd (by simp) hn
        old_loaded := fun _ _ => h.published_kept (by simp [htodo])
        fresh_reused := fun hn => absurd (by simp) hn }⟩
  · -- the databases are opened one by one
    rw [ServerState.execute]
    rcases hopening : t.opening with _ | _ | ⟨⟨d', root⟩, rest⟩
    · exact h.openEntry hi hfiles htodo [] (fun e he => by cases he) _ _ _
    · refine ⟨hfiles, _, List.getElem?_set_self hlt, .inr
        { h with
          todo := hsuffix
          layers := { h.layers.tail htodo (by simp) (by simp) with }
          published_kept := fun _ => h.published_kept (by simp [htodo])
          published_stored := fun hn => absurd (by simp) hn
          old_loaded := fun _ _ => h.old_loaded (by simp [htodo]) (by simp [htodo])
          fresh_reused := fun hn => absurd (by simp) hn }⟩
    · exact h.openEntry hi hfiles htodo t.fresh (fun _ he => he) _ _ _
  · -- the handles are carried over
    have hold := h.old_loaded (by simp [htodo]) (by simp [htodo])
    refine ⟨hfiles, _, List.getElem?_set_self hlt, .inr
      { h with
        todo := hsuffix
        layers := { h.layers.tail htodo (by simp) (by simp) with }
        published_kept := fun _ => h.published_kept (by simp [htodo])
        published_stored := fun hn => absurd (by simp) hn
        old_loaded := fun _ _ => hold
        fresh_opened := fun e he hed => ?_
        fresh_reused := fun _ e he hed => ?_ }⟩
    · obtain ⟨f, hf, hpath, hdb, -⟩ := mem_reuseHandlesFrom he
      rw [← hdb]
      exact h.fresh_opened f hf (hpath.trans hed)
    · rw [hold] at he
      exact handles_reuseHandlesFrom hpub hhandles he hed
  · -- the set is published
    refine ⟨hfiles, _, List.getElem?_set_self hlt, .inr
      { h with
        todo := hsuffix
        layers := { h.layers.tail htodo (by simp) (by simp) with }
        published_kept := fun hn => absurd hn (by simp)
        published_stored := fun _ e he hed =>
          ⟨h.fresh_opened e he hed, h.fresh_reused (by simp [htodo]) e he hed⟩
        old_loaded := fun _ hn => absurd hn (by simp)
        fresh_opened := fun e he => by cases he
        fresh_reused := fun _ e he => by cases he }⟩
  · -- the marker is released
    refine ⟨hfiles, _, List.getElem?_set_self hlt, .inr
      { h with
        todo := hsuffix
        layers := { h.layers.tail htodo (by simp) (by simp) with }
        published_kept := fun hn => absurd hn (by simp)
        published_stored := fun _ => h.published_stored (by simp [htodo])
        old_loaded := fun _ hn => absurd hn (by simp)
        fresh_reused := fun _ => h.fresh_reused (by simp [htodo]) }⟩

/-- A step of the compaction keeps it where it can be. -/
theorem CompactInv.step (h : CompactInv s₀ s i d n o path)
    (hpub : ∃ e ∈ s₀.published, e.dbPath = d)
    (hhandles : ∀ e ∈ s₀.published, e.dbPath = d → e.shards = n ∧ e.overlay = o)
    {ev : ServerEvent} (hev : CompactionStep i d path ev) (hstep : s.step ev = some s') :
    CompactInv s₀ s' i d n o path := by
  obtain ⟨hfiles, t, hi, hwhere⟩ := h
  have hlt := (List.getElem?_eq_some_iff.mp hi).1
  cases hev with
  | run =>
      obtain ⟨t', hi', hrun⟩ := Option.bind_eq_some_iff.mp hstep
      obtain rfl := Option.some.inj (hi.symm.trans hi')
      unfold ServerState.runWorker at hrun
      rcases hwhere with h | h
      · rw [h.todo_nil] at hrun
        rcases h.jobs with ⟨hjobs, hbuilding⟩ | hjobs
        · simp only [hjobs, hbuilding] at hrun
          obtain rfl := Option.some.inj hrun
          unfold ServerState.beginJob
          split
          · refine ⟨hfiles, _, List.getElem?_set_self hlt,
              .inl (h.begin h.todo_nil rfl fun b hb => ?_)⟩
            rw [hbuilding] at hb
            cases hb
          · refine ⟨hfiles, _, List.getElem?_set_self hlt,
              .inl (h.begin h.todo_nil rfl fun b hb => ?_)⟩
            exact (Option.some.inj hb).symm
        · rw [hjobs] at hrun
          cases hbuilding : t.building with
          | none => simp [hbuilding] at hrun
          | some b => simp [hbuilding] at hrun
      · rw [h.building_none, h.jobs_nil] at hrun
        cases htodo : t.todo with
        | nil => simp [htodo] at hrun
        | cons instr todo =>
            simp only [htodo] at hrun
            obtain rfl := Option.some.inj hrun
            exact h.execute hi hfiles hpub hhandles htodo
  | finish pick =>
      obtain ⟨t', hi', hfinish⟩ := Option.bind_eq_some_iff.mp hstep
      obtain rfl := Option.some.inj (hi.symm.trans hi')
      obtain ⟨b, hb, rfl⟩ := Option.map_eq_some_iff.mp hfinish
      rcases hwhere with h | h
      · exact h.finish hfiles hi hb pick
      · rw [h.building_none] at hb
        cases hb
  | fail =>
      obtain ⟨t', hi', hfail⟩ := Option.bind_eq_some_iff.mp hstep
      obtain rfl := Option.some.inj (hi.symm.trans hi')
      obtain ⟨b, hb, rfl⟩ := Option.map_eq_some_iff.mp hfail
      rcases hwhere with h | h
      · refine ⟨hfiles, _, List.getElem?_set_self hlt, .inl (h.begin h.todo_nil ?_ fun b hb => ?_)⟩
        · rcases h.jobs with ⟨-, hnone⟩ | hjobs
          · rw [hb] at hnone
            cases hnone
          · exact hjobs
        · cases hb
      · rw [h.building_none] at hb
        cases hb
  | change d' path' v hne =>
      obtain rfl := Option.some.inj hstep
      -- Another path changes, or another database; the build in progress, if there is one, has seen
      -- only files in which this path is as before.
      have hfiles' : (Function.update s.files d' (Function.update (s.files d') path' v)) d path =
          s₀.files d path := by
        by_cases hd : d = d'
        · subst hd
          rw [Function.update_self, Function.update_of_ne fun hp => hne ⟨rfl, hp.symm⟩]
          exact hfiles
        · rw [Function.update_of_ne hd]
          exact hfiles
      refine ⟨hfiles', t.witness d' (s.files d'), ?_, ?_⟩
      · rw [List.getElem?_map, hi]
        rfl
      · rcases hwhere with h | h
        · left
          refine ⟨h.disk_eq, h.shards_eq, h.overlay_eq, h.published_eq, h.todo_nil, ?_, ?_⟩
          · rcases h.jobs with ⟨hjobs, hnone⟩ | hjobs
            · refine .inl ⟨hjobs, ?_⟩
              rw [Worker.witness, hnone]
              rfl
            · exact .inr hjobs
          · intro b hb
            obtain ⟨b₀, hb₀, rfl⟩ := Option.map_eq_some_iff.mp hb
            obtain ⟨hbd, hjob, hseen⟩ := h.building b₀ hb₀
            split
            · rename_i hat
              refine ⟨hbd, hjob, fun files hf => ?_⟩
              rcases List.mem_append.mp hf with hf | hf
              · exact hseen files hf
              · rw [List.mem_singleton.mp hf, ← hat, hbd]
                exact hfiles
            · exact ⟨hbd, hjob, hseen⟩
        · right
          exact { h with
            layers := { h.layers with }
            building_none := by rw [Worker.witness, h.building_none]; rfl }

end Steps

/-- A run of the compaction. -/
theorem CompactInv.run {s₀ s s' : ServerState} {i : ℕ} {d path : String} {n o : ℕ}
    (hbefore : BeforeCompaction s₀ i d n o path) (h : CompactInv s₀ s i d n o path)
    {as : List ServerEvent} (hsteps : ∀ ev ∈ as, CompactionStep i d path ev)
    (hrun : Run.exec ServerState.step s as = some s') : CompactInv s₀ s' i d n o path :=
  @Run.exec_invariant_of_guarded _ _ ServerState.step (fun _ ev => CompactionStep i d path ev)
    (fun s => CompactInv s₀ s i d n o path)
    (fun _ _ _ hev hinv hstep => hinv.step hbefore.published hbefore.handles hev hstep) _ _ _ h
    (Run.guarded_of_forall ServerState.step hsteps s) hrun

/-! ## The answer of a query -/

/-- Until the overlay is cleared it has the latest version; once it is, it has nothing. -/
lemma CompactInv.overlay {s₀ s : ServerState} {i : ℕ} {d path : String} {n o : ℕ}
    (h : CompactInv s₀ s i d n o path) :
    (¬ ServerState.Done s₀ s i d (.clearOverlay d o) ∧ s.overlays d o = s₀.overlays d o) ∨
      (ServerState.Done s₀ s i d (.clearOverlay d o) ∧ s.overlays d o = []) := by
  obtain ⟨-, t, hi, h | h⟩ := h
  · refine .inl ⟨fun hdone => hdone.1 ?_, h.overlay_eq⟩
    rw [ServerState.lastBuild, h.disk_eq, ServerState.lastBuild]
  · by_cases hclear : .clearOverlay d o ∈ t.todo
    · exact .inl ⟨fun hdone => hdone.2 t hi hclear, h.layers.overlay_kept hclear⟩
    · refine .inr ⟨⟨h.build_ne, fun t' ht' => ?_⟩, (h.layers.overlay_cleared hclear).1⟩
      obtain rfl := Option.some.inj (hi.symm.trans ht')
      exact hclear

/-- Until the shards are reloaded they are the older ones; then they have the latest version. -/
lemma CompactInv.shards {s₀ s : ServerState} {i : ℕ} {d path : String} {n o : ℕ}
    (h : CompactInv s₀ s i d n o path) :
    (¬ ServerState.Done s₀ s i d (.reloadShards d n) ∧ s.shards d n = s₀.shards d n) ∨
      (ServerState.Done s₀ s i d (.reloadShards d n) ∧
        ∃ c, s.shards d n = some c ∧ c.docs path = s₀.files d path) := by
  obtain ⟨-, t, hi, h | h⟩ := h
  · refine .inl ⟨fun hdone => hdone.1 ?_, h.shards_eq⟩
    rw [ServerState.lastBuild, h.disk_eq, ServerState.lastBuild]
  · by_cases hreload : .reloadShards d n ∈ t.todo
    · exact .inl ⟨fun hdone => hdone.2 t hi hreload, h.layers.shards_kept hreload⟩
    · refine .inr ⟨⟨h.build_ne, fun t' ht' => ?_⟩, h.layers.shards_reloaded hreload⟩
      obtain rfl := Option.some.inj (hi.symm.trans ht')
      exact hreload

/-- An entry of the published set has the handles of the compaction, and once the new set is stored
it has the latest version. -/
lemma CompactInv.entry {s₀ s : ServerState} {i : ℕ} {d path : String} {n o : ℕ}
    (hbefore : BeforeCompaction s₀ i d n o path) (h : CompactInv s₀ s i d n o path)
    {e : LiveEntry} (he : e ∈ s.published) (hd : e.dbPath = d) :
    e.shards = n ∧ e.overlay = o ∧
      (ServerState.Done s₀ s i d .store → e.db.docs path = s₀.files d path) := by
  obtain ⟨-, t, hi, h | h⟩ := h
  · rw [h.published_eq] at he
    obtain ⟨hn, ho⟩ := hbefore.handles e he hd
    refine ⟨hn, ho, fun hdone => absurd ?_ hdone.1⟩
    rw [ServerState.lastBuild, h.disk_eq, ServerState.lastBuild]
  · by_cases hstore : .store ∈ t.todo
    · rw [h.published_kept hstore] at he
      obtain ⟨hn, ho⟩ := hbefore.handles e he hd
      exact ⟨hn, ho, fun hdone => absurd hstore (hdone.2 t hi)⟩
    · obtain ⟨hdocs, hn, ho⟩ := h.published_stored hstore e he hd
      exact ⟨hn, ho, fun _ => hdocs⟩

/-- A query that takes its snapshots before, during or after a compaction has the latest version of
the path exactly when its snapshot of the overlay precedes the clearing, or when each of the other
two follows the reload of its layer or finds the latest version in the older one. -/
theorem compaction_serves_iff {s s₀ s₁ s₂ : ServerState} {i : ℕ} {d path : String} {n o : ℕ}
    {as₀ as₁ as₂ : List ServerEvent} {e : LiveEntry} (h : BeforeCompaction s i d n o path)
    (hsteps : ∀ ev ∈ as₀ ++ as₁ ++ as₂, CompactionStep i d path ev)
    (hconnect : Run.exec ServerState.step s as₀ = some s₀) (he : e ∈ s₀.published)
    (hd : e.dbPath = d) (hshards : Run.exec ServerState.step s₀ as₁ = some s₁)
    (hoverlay : Run.exec ServerState.step s₁ as₂ = some s₂) :
    (e.reads s₁ s₂).Serves path (s₂.files d path) ↔
      ¬ ServerState.Done s s₂ i d (.clearOverlay d o) ∨
        ((ServerState.Done s s₀ i d .store ∨
            (e.db.docs path).map FileVersion.lite = (s.files d path).map FileVersion.lite) ∧
          (ServerState.Done s s₁ i d (.reloadShards d n) ∨
            ((e.reads s s).shards path).bind FileVersion.indexed =
              (s.files d path).bind FileVersion.indexed)) := by
  have hinv₀ := h.compactInv.run h (fun ev hev => hsteps ev (by simp [hev])) hconnect
  have hinv₁ := hinv₀.run h (fun ev hev => hsteps ev (by simp [hev])) hshards
  have hinv₂ := hinv₁.run h (fun ev hev => hsteps ev (by simp [hev])) hoverlay
  obtain ⟨hn, ho, hstored⟩ := hinv₀.entry h he hd
  have hread : (e.reads s₁ s₂).overlay = s₂.overlays d o := by rw [LiveEntry.reads, hd, ho]
  rw [hinv₂.files_eq]
  rcases hinv₂.overlay with ⟨hclear, hkept⟩ | ⟨hclear, hempty⟩
  · have hhot : hotVersion (e.reads s₁ s₂).overlay path = some (s.files d path) := by
      rw [hread, hkept]
      exact h.recorded
    exact ⟨fun _ => .inl hclear, fun _ => QueryReads.serves_of_hot hhot⟩
  · have hcold : hotVersion (e.reads s₁ s₂).overlay path = none := by
      rw [hread, hempty]
      rfl
    rw [QueryReads.serves_iff_of_cold hcold, or_iff_right (not_not_intro hclear)]
    have hname : (ServerState.Done s s₀ i d .store ∨ (e.db.docs path).map FileVersion.lite =
        (s.files d path).map FileVersion.lite) ↔
        ((e.reads s₁ s₂).db path).map FileVersion.lite =
          (s.files d path).map FileVersion.lite := by
      refine or_iff_right_of_imp fun hdone => ?_
      rw [hstored hdone]
    have hcontent : (ServerState.Done s s₁ i d (.reloadShards d n) ∨
        ((e.reads s s).shards path).bind FileVersion.indexed =
          (s.files d path).bind FileVersion.indexed) ↔
        ((e.reads s₁ s₂).shards path).bind FileVersion.indexed =
          (s.files d path).bind FileVersion.indexed := by
      rw [LiveEntry.reads, LiveEntry.reads, hd, hn]
      rcases hinv₁.shards with ⟨hreload, heq⟩ | ⟨hreload, c, hc, hdocs⟩
      · rw [or_iff_right hreload, heq]
      · refine ⟨fun _ => ?_, fun _ => .inl hreload⟩
        rw [hc]
        change (c.docs path).bind FileVersion.indexed = _
        rw [hdocs]
    rw [hname, hcontent]

instance (s : ServerState) (i : ℕ) (d : String) (n o : ℕ) (path : String) :
    Decidable (BeforeCompaction s i d n o path) :=
  decidable_of_iff ((∃ t ∈ s.workers[i]?, t.jobs = [(d, .compactAndSwap n o)] ∧
      t.building = none ∧ t.todo = []) ∧ (∃ e ∈ s.published, e.dbPath = d) ∧
      (∀ e ∈ s.published, e.dbPath = d → e.shards = n ∧ e.overlay = o) ∧
      hotVersion (s.overlays d o) path = some (s.files d path))
    ⟨fun h => ⟨h.1, h.2.1, h.2.2.1, h.2.2.2⟩, fun h => ⟨h.1, h.2, h.3, h.4⟩⟩

/-- The start over one database, a new file, and the beginning of a compaction. -/
def newFileEvents : List ServerEvent :=
  startEvents 1 ++ [.change "a" "/a/new" (some ⟨⟨false, 1, 1⟩, some [104]⟩), .observe 0 ["/a/new"],
    .apply 0, .compact 0]

/-- The compaction, up to the clearing of the overlay. -/
def clearEvents : List ServerEvent := [.run 1, .finish 1 fun _ => 0, .run 1, .run 1]

lemma newFileEvents_before : ∃ s, Run.exec ServerState.step (downServer ["a"] fun _ => none)
    newFileEvents = some s ∧ BeforeCompaction s 1 "a" 0 0 "/a/new" := by
  have hbefore : (Run.exec ServerState.step (downServer ["a"] fun _ => none) newFileEvents).map
      (fun s => decide (BeforeCompaction s 1 "a" 0 0 "/a/new")) = some true := by decide +kernel
  obtain ⟨s, hrun, hs⟩ := Option.map_eq_some_iff.mp hbefore
  exact ⟨s, hrun, of_decide_eq_true hs⟩

lemma clearEvents_steps : ∀ ev ∈ clearEvents, CompactionStep 1 "a" "/a/new" ev := by
  simp only [clearEvents, List.forall_mem_cons, List.not_mem_nil, false_implies, implies_true,
    and_true]
  exact ⟨.run, .finish _, .run, .run⟩

/-- A query that connects before the compaction, takes its snapshot of the shards once they are
reloaded, and that of the overlay before it is cleared. -/
theorem compaction_serves_iff_reloaded : ∃ s s₁ e,
    Run.exec ServerState.step (downServer ["a"] fun _ => none) newFileEvents = some s ∧
      e ∈ s.published ∧ e.dbPath = "a" ∧
      Run.exec ServerState.step s (clearEvents.take 3) = some s₁ ∧
      s₁.files "a" "/a/new" = some ⟨⟨false, 1, 1⟩, some [104]⟩ ∧
      (e.reads s₁ s₁).Serves "/a/new" (s₁.files "a" "/a/new") := by
  obtain ⟨s, hs, hbefore⟩ := newFileEvents_before
  have hsees : (Run.exec ServerState.step (downServer ["a"] fun _ => none)
      (newFileEvents ++ clearEvents.take 3)).map (fun s => (s.files "a" "/a/new",
        decide (∀ t ∈ s.workers[1]?, Instr.clearOverlay "a" 0 ∉ t.todo))) =
      some (some ⟨⟨false, 1, 1⟩, some [104]⟩, false) := by decide +kernel
  obtain ⟨s₁, hrun, hs₁⟩ := Option.map_eq_some_iff.mp hsees
  obtain ⟨hfiles, hclear⟩ := Prod.mk.inj hs₁
  rw [Run.exec_append, hs, Option.bind_some] at hrun
  obtain ⟨e, he, hd⟩ := hbefore.published
  refine ⟨s, s₁, e, hs, he, hd, hrun, hfiles, ?_⟩
  have hsteps : ∀ ev ∈ [] ++ clearEvents.take 3 ++ [], CompactionStep 1 "a" "/a/new" ev :=
    fun ev hev => clearEvents_steps ev (List.mem_of_mem_take (by simpa using hev))
  apply (compaction_serves_iff hbefore hsteps rfl he hd hrun rfl).mpr
  exact .inl fun hdone => of_decide_eq_false hclear hdone.2

/-- A query between the clearing of the overlay and the store of the new set finds no file of that
name. -/
theorem cleared_overlay_hides_file : ∃ s s₀ e,
    Run.exec ServerState.step (downServer ["a"] fun _ => none) newFileEvents = some s ∧
      BeforeCompaction s 1 "a" 0 0 "/a/new" ∧
      (∀ ev ∈ clearEvents, CompactionStep 1 "a" "/a/new" ev) ∧
      Run.exec ServerState.step s clearEvents = some s₀ ∧ e ∈ s₀.published ∧ e.dbPath = "a" ∧
      s₀.files "a" "/a/new" = some ⟨⟨false, 1, 1⟩, some [104]⟩ ∧
      (e.reads s₀ s₀).name "/a/new" = none := by
  obtain ⟨s, hs, hbefore⟩ := newFileEvents_before
  have hsees : (Run.exec ServerState.step (downServer ["a"] fun _ => none)
      (newFileEvents ++ clearEvents)).map (fun s => (s.files "a" "/a/new", s.overlays "a" 0)) =
      some (some ⟨⟨false, 1, 1⟩, some [104]⟩, []) := by decide +kernel
  have hserves : (Run.exec ServerState.step (downServer ["a"] fun _ => none)
      (newFileEvents ++ clearEvents)).map (fun s =>
        s.published.map fun e => (e.handles, e.db.docs "/a/new")) =
      some [(("a", 0, 0), none)] := by decide +kernel
  obtain ⟨s₀, hrun, hs₀⟩ := Option.map_eq_some_iff.mp hsees
  obtain ⟨hfiles, hoverlay⟩ := Prod.mk.inj hs₀
  rw [hrun] at hserves
  have hpublished : (s₀.published.map fun e => (e.handles, e.db.docs "/a/new")) =
      [(("a", 0, 0), none)] := Option.some.inj hserves
  rw [Run.exec_append, hs, Option.bind_some] at hrun
  obtain ⟨e, he, hat⟩ : ∃ e ∈ s₀.published, (e.handles, e.db.docs "/a/new") =
      (("a", 0, 0), none) := by
    rw [← List.mem_map, hpublished]
    exact List.mem_singleton.mpr rfl
  obtain ⟨hhandles, hdocs⟩ := Prod.mk.inj hat
  have hd : e.dbPath = "a" := congrArg Prod.fst hhandles
  have ho : e.overlay = 0 := congrArg (fun h => h.2.2) hhandles
  refine ⟨s, s₀, e, hs, hbefore, clearEvents_steps, hrun, he, hd, hfiles, ?_⟩
  have hread : (e.reads s₀ s₀).overlay = [] := by rw [LiveEntry.reads, hd, ho, hoverlay]
  have hcold : (e.reads s₀ s₀).db "/a/new" = none := hdocs
  rw [QueryReads.name, hread, hcold]
  rfl

end DeepFinder
