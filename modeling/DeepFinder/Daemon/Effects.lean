import DeepFinder.Daemon.Server

/-!
# What a step does to each part of the daemon

Where the shards and the overlay behind a handle come from, the log and the index of a database, the
entries of the published set and of the sets that threads have opened and loaded.

The results are inversions: each says of one part of the state after a step where it came from,
whatever the step was, so that an invariant of one part need not go through all steps again.
-/

namespace DeepFinder

section Effects

variable {s s' : ServerState} {ev : ServerEvent}

/-! ## Opening a set -/

@[simp] lemma openEntry_files (i : ℕ) (t : Worker) (d : String) (root : Option String) :
    (s.openEntry i t d root).files = s.files := by
  unfold ServerState.openEntry
  cases s.disk d <;> rfl

@[simp] lemma openEntry_disk (i : ℕ) (t : Worker) (d : String) (root : Option String) :
    (s.openEntry i t d root).disk = s.disk := by
  unfold ServerState.openEntry
  cases s.disk d <;> rfl

@[simp] lemma openEntry_wal (i : ℕ) (t : Worker) (d : String) (root : Option String) :
    (s.openEntry i t d root).wal = s.wal := by
  unfold ServerState.openEntry
  cases s.disk d <;> rfl

@[simp] lemma openEntry_published (i : ℕ) (t : Worker) (d : String) (root : Option String) :
    (s.openEntry i t d root).published = s.published := by
  unfold ServerState.openEntry
  cases s.disk d <;> rfl

@[simp] lemma openEntry_watchers (i : ℕ) (t : Worker) (d : String) (root : Option String) :
    (s.openEntry i t d root).watchers = s.watchers := by
  unfold ServerState.openEntry
  cases s.disk d <;> rfl

/-- An entry with new handles on what is on disk. -/
structure Opened (s s' : ServerState) (e : LiveEntry) : Prop where
  db : s.disk e.dbPath = some e.db
  shards : s'.shards e.dbPath e.shards = some e.db
  overlay : s'.overlays e.dbPath e.overlay = s.wal e.dbPath

/-- Only the thread changes, which has opened at most one entry more. -/
lemma openEntry_workers (i : ℕ) (t : Worker) (d : String) (root : Option String) :
    ∃ opened reused, (∀ e ∈ opened, Opened s (s.openEntry i t d root) e) ∧
      (s.openEntry i t d root).workers =
        (s.setWorker i { t with fresh := t.fresh ++ opened, reused := reused }).workers := by
  unfold ServerState.openEntry
  cases hd : s.disk d with
  | none =>
      refine ⟨[], t.reused, ⟨fun e he => ?_, ?_⟩⟩
      · cases he
      · rw [List.append_nil]
  | some c =>
      refine ⟨[⟨d, root, c, s.next, s.next⟩], false, fun e he => ?_, rfl⟩
      obtain rfl := List.mem_singleton.mp he
      refine ⟨hd, ?_, ?_⟩
      · change (s.setShards d s.next (some c)).shards d s.next = some c
        rw [shards_setShards, if_pos ⟨rfl, rfl⟩]
      · change (s.setOverlay d s.next (s.wal d)).overlays d s.next = s.wal d
        rw [overlays_setOverlay, if_pos ⟨rfl, rfl⟩]

lemma openSet_eq (s : ServerState) (i : ℕ) (t : Worker) (todo : List Instr) :
    (∃ fresh opening d root, (∀ e ∈ fresh, e ∈ t.fresh) ∧ s.execute i t todo .openSet =
      s.openEntry i { t with fresh := fresh, opening := opening } d root) ∨
    s.execute i t todo .openSet = s.setWorker i { t with opening := none, todo := todo } := by
  rw [ServerState.execute]
  rcases t.opening with _ | _ | ⟨⟨d, root⟩, rest⟩
  · exact .inl ⟨[], _, _, _, fun e he => (by cases he), rfl⟩
  · exact .inr rfl
  · exact .inl ⟨t.fresh, _, _, _, fun _ he => he, rfl⟩

/-- An entry of a set that took handles over: the reader is as opened, and so are the handles or
they are those of an older entry of the database. -/
lemma mem_reuseHandlesFrom {fresh old : DbSet} {e : LiveEntry}
    (he : e ∈ reuseHandlesFrom fresh old) :
    ∃ f ∈ fresh, f.dbPath = e.dbPath ∧ f.db = e.db ∧
      ((f.shards = e.shards ∧ f.overlay = e.overlay) ∨
        ∃ o ∈ old, o.dbPath = e.dbPath ∧ o.shards = e.shards ∧ o.overlay = e.overlay) := by
  obtain ⟨f, hf, rfl⟩ := List.mem_map.mp he
  cases hfind : old.find? fun o => o.dbPath = f.dbPath with
  | none => exact ⟨f, hf, rfl, rfl, .inl ⟨rfl, rfl⟩⟩
  | some o =>
      have hdb : o.dbPath = f.dbPath := by simpa using List.find?_some hfind
      exact ⟨f, hf, rfl, rfl, .inr ⟨o, List.mem_of_find?_eq_some hfind, hdb, rfl, rfl⟩⟩

/-! ## What is behind the handles -/

lemma shards_openEntry (i : ℕ) (t : Worker) (d' : String) (root : Option String) (d : String)
    (n : ℕ) : (s.openEntry i t d' root).shards d n = s.shards d n ∨
      (s.openEntry i t d' root).shards d n = s.disk d := by
  unfold ServerState.openEntry
  cases hd : s.disk d' with
  | none => exact .inl rfl
  | some c =>
      change (s.setShards d' s.next (some c)).shards d n = _ ∨
        (s.setShards d' s.next (some c)).shards d n = _
      rw [shards_setShards]
      split
      · rename_i hat
        rw [hat.1, hd]
        exact .inr rfl
      · exact .inl rfl

/-- The shards behind a handle stay, or become those of the index on disk. -/
theorem shards_step (h : s.step ev = some s') (d : String) (n : ℕ) :
    s'.shards d n = s.shards d n ∨ s'.shards d n = s.disk d := by
  cases moves_of_step h with
  | execute i t instr todo =>
      cases instr with
      | openSet =>
          obtain ⟨_, _, _, _, -, heq⟩ | heq := openSet_eq s i t todo
          · rw [heq]
            exact shards_openEntry ..
          · rw [heq]
            exact .inl rfl
      | reloadShards d' n' =>
          change (s.setShards d' n' (s.disk d')).shards d n = _ ∨
            (s.setShards d' n' (s.disk d')).shards d n = _
          rw [shards_setShards]
          split
          · rename_i hat
            rw [hat.1]
            exact .inr rfl
          · exact .inl rfl
      | _ => exact .inl rfl
  | _ => exact .inl rfl

lemma overlays_openEntry (i : ℕ) (t : Worker) (d' : String) (root : Option String) (d : String)
    (o : ℕ) : (s.openEntry i t d' root).overlays d o = s.overlays d o ∨
      (s.openEntry i t d' root).overlays d o = s.wal d := by
  unfold ServerState.openEntry
  cases hd : s.disk d' with
  | none => exact .inl rfl
  | some c =>
      change (s.setOverlay d' s.next (s.wal d')).overlays d o = _ ∨
        (s.setOverlay d' s.next (s.wal d')).overlays d o = _
      rw [overlays_setOverlay]
      split
      · rename_i hat
        rw [hat.1]
        exact .inr rfl
      · exact .inl rfl

/-- The records that a step can leave where some were: the same, none, or those of the batch that a
watcher applies besides. -/
def Records (s : ServerState) (d : String) (recs recs' : List WalRecord) : Prop :=
  recs' = recs ∨ recs' = [] ∨
    ∃ x ∈ s.watchers, x.dbPath = d ∧ ∃ batch ∈ x.pending, recs' = recs ++ batch

/-- The overlay behind a handle gets other records, or those of the log. -/
theorem overlays_step (h : s.step ev = some s') (d : String) (o : ℕ) :
    s'.overlays d o = s.wal d ∨ Records s d (s.overlays d o) (s'.overlays d o) := by
  cases moves_of_step h with
  | execute i t instr todo =>
      cases instr with
      | openSet =>
          obtain ⟨_, _, _, _, -, heq⟩ | heq := openSet_eq s i t todo
          · rw [heq]
            exact (overlays_openEntry ..).symm.imp_right .inl
          · rw [heq]
            exact .inr (.inl rfl)
      | clearOverlay d' o' =>
          right
          change Records s d _ ((s.setOverlay d' o' []).overlays d o)
          rw [overlays_setOverlay]
          split
          · exact .inr (.inl rfl)
          · exact .inl rfl
      | _ => exact .inr (.inl rfl)
  | apply w x recs hx hrecs =>
      right
      change Records s d _
        ((s.setOverlay x.dbPath x.overlay (s.overlays x.dbPath x.overlay ++ recs)).overlays d o)
      rw [overlays_setOverlay]
      split
      · rename_i hat
        rw [hat.1, hat.2]
        exact .inr (.inr ⟨x, List.mem_of_getElem? hx, rfl, recs, hrecs, rfl⟩)
      · exact .inl rfl
  | _ => exact .inr (.inl rfl)

/-! ## What is on disk -/

/-- The log of a database gets other records. -/
theorem wal_step (h : s.step ev = some s') (d : String) : Records s d (s.wal d) (s'.wal d) := by
  cases moves_of_step h with
  | execute i t instr todo =>
      cases instr with
      | openSet =>
          obtain ⟨_, _, _, _, -, heq⟩ | heq := openSet_eq s i t todo
          · rw [heq, openEntry_wal]
            exact .inl rfl
          · rw [heq]
            exact .inl rfl
      | clearOverlay d' o' =>
          by_cases hd : d = d'
          · rw [hd]
            exact .inr (.inl (Function.update_self ..))
          · exact .inl (Function.update_of_ne hd ..)
      | _ => exact .inl rfl
  | apply w x recs hx hrecs =>
      by_cases hd : d = x.dbPath
      · rw [hd]
        exact .inr (.inr ⟨x, List.mem_of_getElem? hx, rfl, recs, hrecs, Function.update_self ..⟩)
      · exact .inl (Function.update_of_ne hd ..)
  | _ => exact .inl rfl

/-- A new watcher is one of an entry. -/
lemma mem_attached {d : Option String} {snap : DbSet} {x : Watcher} (hx : x ∈ attached d snap) :
    ∃ e ∈ snap, e.watcher = x := by
  unfold attached at hx
  cases d with
  | none =>
      obtain ⟨e, he, rfl⟩ := List.mem_map.mp hx
      exact ⟨e, List.mem_of_mem_filter he, rfl⟩
  | some d =>
      obtain ⟨e, he, rfl⟩ := List.mem_map.mp hx
      have hfound := (Option.filter_eq_some_iff.mp (Option.mem_toList.mp he)).1
      exact ⟨e, List.mem_of_find?_eq_some hfound, rfl⟩

/-- A batch that a watcher has after a step: it had it, or it has just read it. -/
theorem pending_step (h : s.step ev = some s') {x : Watcher} (hx : x ∈ s'.watchers)
    {batch : List WalRecord} (hbatch : batch ∈ x.pending) :
    (∃ y ∈ s.watchers, y.dbPath = x.dbPath ∧ batch ∈ y.pending) ∨
      ∃ paths : List String, batch = paths.map (recordOf (s.files x.dbPath)) := by
  cases moves_of_step h with
  | crash => cases hx
  | compact w z hz =>
      rcases List.mem_or_eq_of_mem_set hx with hx | rfl
      · exact .inl ⟨x, hx, rfl, hbatch⟩
      · exact .inl ⟨z, List.mem_of_getElem? hz, rfl, hbatch⟩
  | observe w paths z hz =>
      rcases List.mem_or_eq_of_mem_set hx with hx | rfl
      · exact .inl ⟨x, hx, rfl, hbatch⟩
      · exact .inr ⟨paths, (Option.some.inj hbatch).symm⟩
  | apply w z recs hz =>
      rcases List.mem_or_eq_of_mem_set hx with hx | rfl
      · exact .inl ⟨x, hx, rfl, hbatch⟩
      · cases hbatch
  | execute i t instr todo =>
      cases instr with
      | openSet =>
          obtain ⟨_, _, _, _, -, heq⟩ | heq := openSet_eq s i t todo
          · rw [heq, openEntry_watchers] at hx
            exact .inl ⟨x, hx, rfl, hbatch⟩
          · rw [heq] at hx
            exact .inl ⟨x, hx, rfl, hbatch⟩
      | attach d =>
          rcases List.mem_append.mp hx with hx | hx
          · exact .inl ⟨x, hx, rfl, hbatch⟩
          · obtain ⟨e, -, rfl⟩ := mem_attached hx
            cases hbatch
      | _ => exact .inl ⟨x, hx, rfl, hbatch⟩
  | _ => exact .inl ⟨x, hx, rfl, hbatch⟩

/-- A path changes only by a change of it. -/
theorem files_step (h : s.step ev = some s') {d path : String}
    (hev : ∀ v, ev ≠ .change d path v) : s'.files d path = s.files d path := by
  cases moves_of_step h with
  | change d' path' version =>
      by_cases hd : d = d'
      · subst hd
        by_cases hp : path = path'
        · subst hp
          exact absurd rfl (hev version)
        · change Function.update s.files d (Function.update (s.files d) path' version) d path = _
          rw [Function.update_self, Function.update_of_ne hp]
      · change Function.update s.files d' (Function.update (s.files d') path' version) d path = _
        rw [Function.update_of_ne hd]
  | execute i t instr todo =>
      cases instr with
      | openSet =>
          obtain ⟨_, _, _, _, -, heq⟩ | heq := openSet_eq s i t todo
          · rw [heq, openEntry_files]
          · rw [heq]
            rfl
      | _ => rfl
  | _ => rfl

/-- The index of a database on disk changes only when a build completes. -/
theorem disk_step (h : s.step ev = some s') (d : String) : s'.disk d = s.disk d ∨
    ∃ t ∈ s.workers, ∃ b ∈ t.building, b.dbPath = d ∧ ∃ build pick,
      s'.disk d = some ⟨build, b.docs (s.files d) pick⟩ := by
  cases moves_of_step h with
  | execute i t instr todo =>
      cases instr with
      | openSet =>
          obtain ⟨_, _, _, _, -, heq⟩ | heq := openSet_eq s i t todo
          · rw [heq, openEntry_disk]
            exact .inl rfl
          · rw [heq]
            exact .inl rfl
      | _ => exact .inl rfl
  | finish i pick t b hi hb =>
      by_cases hd : d = b.dbPath
      · subst hd
        exact .inr ⟨t, List.mem_of_getElem? hi, b, hb, rfl, _, pick, Function.update_self ..⟩
      · exact .inl (Function.update_of_ne hd ..)
  | _ => exact .inl rfl

/-! ## What the threads hold -/

/-- What a step of its program makes of a thread. -/
structure Executed (s s' : ServerState) (t : Worker) (instr : Instr) (todo : List Instr)
    (t' : Worker) : Prop where
  building_eq : t'.building = t.building
  jobs_eq : t'.jobs = t.jobs
  todo_eq : t'.todo = todo ∨ instr = .openSet ∧ t'.todo = t.todo
  fresh : ∀ e ∈ t'.fresh, e ∈ t.fresh ∨ Opened s s' e ∨
    instr = .reuse ∧ e ∈ reuseHandlesFrom t.fresh t.old
  old : ∀ e ∈ t'.old, e ∈ t.old ∨ e ∈ s.published

/-- A step of a thread's program changes that thread only. -/
lemma execute_workers (s : ServerState) (i : ℕ) (t : Worker) (instr : Instr) (todo : List Instr) :
    ∃ t', (s.execute i t todo instr).workers = (s.setWorker i t').workers ∧
      Executed s (s.execute i t todo instr) t instr todo t' := by
  cases instr with
  | openSet =>
      obtain ⟨fresh, opening, d, root, hfresh, heq⟩ | heq := openSet_eq s i t todo
      · rw [heq]
        obtain ⟨opened, reused, hopened, hwork⟩ :=
          @openEntry_workers s i { t with fresh := fresh, opening := opening } d root
        refine ⟨_, hwork, rfl, rfl, .inr ⟨rfl, rfl⟩, fun e he => ?_, fun e he => .inl he⟩
        rcases List.mem_append.mp he with he | he
        · exact .inl (hfresh e he)
        · exact .inr (.inl (hopened e he))
      · rw [heq]
        exact ⟨_, rfl, rfl, rfl, .inl rfl, fun e he => .inl he, fun e he => .inl he⟩
  | load => exact ⟨_, rfl, rfl, rfl, .inl rfl, fun e he => .inl he, fun e he => .inr he⟩
  | reuse =>
      exact ⟨_, rfl, rfl, rfl, .inl rfl, fun e he => .inr (.inr ⟨rfl, he⟩), fun e he => .inl he⟩
  | store =>
      exact ⟨_, rfl, rfl, rfl, .inl rfl, fun e he => (by cases he), fun e he => (by cases he)⟩
  | attach d =>
      exact ⟨_, rfl, rfl, rfl, .inl rfl, fun e he => .inl he, fun e he => (by cases he)⟩
  | reloadShards d n =>
      exact ⟨_, rfl, rfl, rfl, .inl rfl, fun e he => .inl he, fun e he => .inl he⟩
  | clearOverlay d n =>
      exact ⟨_, rfl, rfl, rfl, .inl rfl, fun e he => .inl he, fun e he => .inl he⟩
  | release => exact ⟨_, rfl, rfl, rfl, .inl rfl, fun e he => .inl he, fun e he => .inl he⟩

lemma beginJob_eq (s : ServerState) (i : ℕ) (t : Worker) (d : String) (job : Job)
    (jobs : List (String × Job)) : ∃ t', s.beginJob i t d job jobs = s.setWorker i t' ∧
      t'.jobs = jobs ∧ t'.todo = t.todo ∧
      (t'.building = t.building ∨ t'.building = some ⟨d, job, []⟩) := by
  unfold ServerState.beginJob
  split
  · exact ⟨_, rfl, rfl, rfl, .inl rfl⟩
  · exact ⟨_, rfl, rfl, rfl, .inr rfl⟩

/-- Another thread, or one that only sees files change. -/
structure SameWork (t t' : Worker) : Prop where
  jobs_eq : t'.jobs = t.jobs
  todo_eq : t'.todo = t.todo
  fresh_eq : t'.fresh = t.fresh
  old_eq : t'.old = t.old
  building : ∀ b' ∈ t'.building, ∃ b ∈ t.building, b.dbPath = b'.dbPath ∧ b.job = b'.job

lemma sameWork_refl (t : Worker) : SameWork t t :=
  ⟨rfl, rfl, rfl, rfl, fun b hb => ⟨b, hb, rfl, rfl⟩⟩

/-- A thread takes a step of its own, or stays, unless the daemon dies. -/
theorem worker_step (h : s.step ev = some s') (hcrash : ev ≠ .crash) {i : ℕ} {t : Worker}
    (hi : s.workers[i]? = some t) :
    (∃ t', s'.workers[i]? = some t' ∧ SameWork t t') ∨ ev = .run i ∨ (∃ pick, ev = .finish i pick) ∨
      ev = .fail i := by
  have hstay : ∀ j t', j ≠ i → (s.setWorker j t').workers[i]? = some t :=
    fun j t' hji => (List.getElem?_set_ne hji).trans hi
  have hspawn : ∀ t', (s.spawn t').workers[i]? = some t :=
    fun t' => (List.getElem?_append_left (List.getElem?_eq_some_iff.mp hi).1).trans hi
  cases moves_of_step h with
  | change d path version =>
      refine .inl ⟨t.witness d (s.files d), ?_, rfl, rfl, rfl, rfl, fun b' hb' => ?_⟩
      · rw [List.getElem?_map, hi]
        rfl
      · obtain ⟨b, hb, rfl⟩ := Option.map_eq_some_iff.mp hb'
        refine ⟨b, hb, ?_⟩
        split
        · exact ⟨rfl, rfl⟩
        · exact ⟨rfl, rfl⟩
  | crash => exact absurd rfl hcrash
  | spawn ev jobs todo outside => exact .inl ⟨t, hspawn _, sameWork_refl t⟩
  | compact w x => exact .inl ⟨t, hspawn _, sameWork_refl t⟩
  | execute j u instr todo =>
      by_cases hji : j = i
      · exact .inr (.inl (by rw [hji]))
      · obtain ⟨t', hwork, -⟩ := execute_workers s j u instr todo
        rw [hwork]
        exact .inl ⟨t, hstay j t' hji, sameWork_refl t⟩
  | skip j u jobs =>
      by_cases hji : j = i
      · exact .inr (.inl (by rw [hji]))
      · exact .inl ⟨t, hstay j _ hji, sameWork_refl t⟩
  | start j u d job jobs =>
      by_cases hji : j = i
      · exact .inr (.inl (by rw [hji]))
      · exact .inl ⟨t, hstay j _ hji, sameWork_refl t⟩
  | finish j pick u b =>
      by_cases hji : j = i
      · exact .inr (.inr (.inl ⟨pick, by rw [hji]⟩))
      · exact .inl ⟨t, hstay j _ hji, sameWork_refl t⟩
  | fail j u b =>
      by_cases hji : j = i
      · exact .inr (.inr (.inr (by rw [hji])))
      · exact .inl ⟨t, hstay j _ hji, sameWork_refl t⟩
  | _ => exact .inl ⟨t, hi, sameWork_refl t⟩

/-- A build in progress has just begun, or was in progress, and has seen the change that the step
is. -/
theorem building_step (h : s.step ev = some s') {t : Worker} (ht : t ∈ s'.workers)
    {b : RunningBuild} (hb : b ∈ t.building) :
    b.seen = [] ∨ ∃ u ∈ s.workers, ∃ b' ∈ u.building, b'.dbPath = b.dbPath ∧
      ∀ files ∈ b.seen, files ∈ b'.seen ∨ files = s.files b.dbPath := by
  have hsame : ∀ u ∈ s.workers, b ∈ u.building → b.seen = [] ∨ ∃ u ∈ s.workers,
      ∃ b' ∈ u.building, b'.dbPath = b.dbPath ∧
        ∀ files ∈ b.seen, files ∈ b'.seen ∨ files = s.files b.dbPath :=
    fun u hu hub => .inr ⟨u, hu, b, hub, rfl, fun _ hf => .inl hf⟩
  have hrest : ∀ (i : ℕ) (t' : Worker), t ∈ (s.setWorker i t').workers → t ∈ s.workers ∨ t = t' :=
    fun i t' hmem => List.mem_or_eq_of_mem_set hmem
  cases moves_of_step h with
  | change d path version =>
      obtain ⟨u, hu, rfl⟩ := List.mem_map.mp ht
      obtain ⟨b', hb', rfl⟩ := Option.map_eq_some_iff.mp hb
      refine .inr ⟨u, hu, b', hb', ?_, ?_⟩
      · split <;> rfl
      · split
        · rename_i hd
          rw [← hd]
          intro files hf
          rcases List.mem_append.mp hf with hf | hf
          · exact .inl hf
          · exact .inr (List.mem_singleton.mp hf)
        · exact fun files hf => .inl hf
  | register records => exact hsame t ht hb
  | crash => exact hsame t (List.mem_of_mem_filter ht) hb
  | spawn ev jobs todo outside =>
      rcases List.mem_append.mp ht with ht | ht
      · exact hsame t ht hb
      · obtain rfl := List.mem_singleton.mp ht
        cases hb
  | compact w x hx =>
      rcases List.mem_append.mp ht with ht | ht
      · exact hsame t ht hb
      · obtain rfl := List.mem_singleton.mp ht
        cases hb
  | execute i u instr todo hi hbuilding =>
      obtain ⟨t', hwork, hexec⟩ := execute_workers s i u instr todo
      rw [hwork] at ht
      rcases hrest i t' ht with ht | rfl
      · exact hsame t ht hb
      · rw [hexec.building_eq, hbuilding] at hb
        cases hb
  | skip i u jobs hi hbuilding =>
      rcases hrest i _ ht with ht | rfl
      · exact hsame t ht hb
      · exact hsame u (List.mem_of_getElem? hi) hb
  | start i u d job jobs =>
      rcases hrest i _ ht with ht | rfl
      · exact hsame t ht hb
      · obtain rfl := Option.some.inj hb
        exact .inl rfl
  | finish i pick u b' =>
      rcases hrest i _ ht with ht | rfl
      · exact hsame t ht hb
      · cases hb
  | fail i u b' =>
      rcases hrest i _ ht with ht | rfl
      · exact hsame t ht hb
      · cases hb
  | observe w paths x => exact hsame t ht hb
  | apply w x recs => exact hsame t ht hb

/-- The sets of a thread are as they were for some thread, but where a step of a program changes
them. -/
lemma sets_step (h : s.step ev = some s') {t : Worker} (ht : t ∈ s'.workers) :
    (∃ u ∈ s.workers, t.fresh = u.fresh ∧ t.old = u.old) ∨ (t.fresh = [] ∧ t.old = []) ∨
      ∃ u ∈ s.workers, (∀ e ∈ t.fresh, e ∈ u.fresh ∨ Opened s s' e ∨
        e ∈ reuseHandlesFrom u.fresh u.old) ∧ ∀ e ∈ t.old, e ∈ u.old ∨ e ∈ s.published := by
  have hrest : ∀ (i : ℕ) (t' : Worker), t ∈ (s.setWorker i t').workers → t ∈ s.workers ∨ t = t' :=
    fun i t' hmem => List.mem_or_eq_of_mem_set hmem
  cases moves_of_step h with
  | change d path version =>
      obtain ⟨u, hu, rfl⟩ := List.mem_map.mp ht
      exact .inl ⟨u, hu, rfl, rfl⟩
  | register records => exact .inl ⟨t, ht, rfl, rfl⟩
  | crash => exact .inl ⟨t, List.mem_of_mem_filter ht, rfl, rfl⟩
  | spawn ev jobs todo outside =>
      rcases List.mem_append.mp ht with ht | ht
      · exact .inl ⟨t, ht, rfl, rfl⟩
      · obtain rfl := List.mem_singleton.mp ht
        exact .inr (.inl ⟨rfl, rfl⟩)
  | compact w x hx =>
      rcases List.mem_append.mp ht with ht | ht
      · exact .inl ⟨t, ht, rfl, rfl⟩
      · obtain rfl := List.mem_singleton.mp ht
        exact .inr (.inl ⟨rfl, rfl⟩)
  | execute i u instr todo hi hbuilding =>
      obtain ⟨t', hwork, hexec⟩ := execute_workers s i u instr todo
      rw [hwork] at ht
      rcases hrest i t' ht with ht | rfl
      · exact .inl ⟨t, ht, rfl, rfl⟩
      · refine .inr (.inr ⟨u, List.mem_of_getElem? hi, fun e he => ?_, hexec.old⟩)
        exact (hexec.fresh e he).imp_right fun he => he.imp_right And.right
  | skip i u jobs hi hbuilding =>
      rcases hrest i _ ht with ht | rfl
      · exact .inl ⟨t, ht, rfl, rfl⟩
      · exact .inl ⟨u, List.mem_of_getElem? hi, rfl, rfl⟩
  | start i u d job jobs hi =>
      rcases hrest i _ ht with ht | rfl
      · exact .inl ⟨t, ht, rfl, rfl⟩
      · exact .inl ⟨u, List.mem_of_getElem? hi, rfl, rfl⟩
  | finish i pick u b' =>
      rcases hrest i _ ht with ht | rfl
      · exact .inl ⟨t, ht, rfl, rfl⟩
      · exact .inr (.inl ⟨rfl, rfl⟩)
  | fail i u b' hi =>
      rcases hrest i _ ht with ht | rfl
      · exact .inl ⟨t, ht, rfl, rfl⟩
      · exact .inl ⟨u, List.mem_of_getElem? hi, rfl, rfl⟩
  | observe w paths x => exact .inl ⟨t, ht, rfl, rfl⟩
  | apply w x recs => exact .inl ⟨t, ht, rfl, rfl⟩

/-- An entry that a thread has for its set: it had it, has opened it, or gives it older handles. -/
theorem fresh_step (h : s.step ev = some s') {t : Worker} (ht : t ∈ s'.workers)
    {e : LiveEntry} (he : e ∈ t.fresh) :
    (∃ u ∈ s.workers, e ∈ u.fresh) ∨ Opened s s' e ∨
      ∃ u ∈ s.workers, e ∈ reuseHandlesFrom u.fresh u.old := by
  rcases sets_step h ht with ⟨u, hu, hfresh, -⟩ | ⟨hfresh, -⟩ | ⟨u, hu, hfresh, -⟩
  · rw [hfresh] at he
    exact .inl ⟨u, hu, he⟩
  · rw [hfresh] at he
    cases he
  · rcases hfresh e he with he | he | he
    · exact .inl ⟨u, hu, he⟩
    · exact .inr (.inl he)
    · exact .inr (.inr ⟨u, hu, he⟩)

/-- An entry of the set that a thread has loaded. -/
theorem old_step (h : s.step ev = some s') {t : Worker} (ht : t ∈ s'.workers)
    {e : LiveEntry} (he : e ∈ t.old) : e ∈ s.published ∨ ∃ u ∈ s.workers, e ∈ u.old := by
  rcases sets_step h ht with ⟨u, hu, -, hold⟩ | ⟨-, hold⟩ | ⟨u, hu, -, hold⟩
  · rw [hold] at he
    exact .inr ⟨u, hu, he⟩
  · rw [hold] at he
    cases he
  · rcases hold e he with he | he
    · exact .inr ⟨u, hu, he⟩
    · exact .inl he

/-- An entry of the published set. -/
theorem published_step (h : s.step ev = some s') {e : LiveEntry} (he : e ∈ s'.published) :
    e ∈ s.published ∨ ∃ u ∈ s.workers, e ∈ u.fresh := by
  cases moves_of_step h with
  | crash => cases he
  | execute i t instr todo hi =>
      cases instr with
      | openSet =>
          obtain ⟨_, _, _, _, -, heq⟩ | heq := openSet_eq s i t todo
          · rw [heq, openEntry_published] at he
            exact .inl he
          · rw [heq] at he
            exact .inl he
      | store => exact .inr ⟨t, List.mem_of_getElem? hi, he⟩
      | _ => exact .inl he
  | _ => exact .inl he

end Effects

end DeepFinder
