import DeepFinder.Daemon.Server

/-!
# Handles of live watchers

A watcher records changes through the handles that it captured, so these should stay the ones that
the published set holds (`watched_handles_published`).  Reloads reuse the handles of the set that
they replace; a background build stores a set of new ones (`spawn_build_orphans_watcher`).

A run starts from a daemon that is down and takes steps of watchers, reloads, builds and restarts in
any order.  `KeepsHandles` asks of each store that the set it publishes holds the handles of the
live watchers, which is a condition on the set carried by the storing thread: a reload that reuses
handles meets it, a background build of a watched database does not.
-/

namespace DeepFinder

/-- The entries of the watcher's database in a set hold its handles. -/
def Watcher.Agrees (x : Watcher) (set : DbSet) : Prop :=
  ∀ e ∈ set, e.dbPath = x.dbPath → e.shards = x.shards ∧ e.overlay = x.overlay

instance (x : Watcher) (set : DbSet) : Decidable (x.Agrees set) :=
  inferInstanceAs (Decidable (∀ e ∈ set, _))

/-- The thread is about to publish a set with the handles of its older one. -/
def Worker.Carrying (t : Worker) : Prop := Instr.reuse ∈ t.todo ∨ t.reused = true

instance (t : Worker) : Decidable t.Carrying := inferInstanceAs (Decidable (_ ∨ _))

/-- The thread's next step parts no watcher from its database.  It stores a set only if it carries,
for each watched database in it, handles of an older set that holds the database too; and it starts
a watcher only with handles that the published set and the sets carried on still hold. -/
def Worker.KeepsHandles (t : Worker) (s : ServerState) : Prop :=
  match t.building, t.todo with
  | none, .store :: _ => ∀ x ∈ s.watchers, ∀ e ∈ t.fresh, e.dbPath = x.dbPath →
      t.reused = true ∧ ∃ o ∈ t.old, o.dbPath = x.dbPath
  | none, .attach d :: _ => ∀ x ∈ attached d t.old, x.Agrees s.published ∧
      ∀ u ∈ s.workers, u.Carrying → x.Agrees u.old
  | _, _ => True

/-- The step parts no watcher from its database.  Only the steps of the daemon's threads can do
that, and of these only the ones that store a set or spawn watchers (`Worker.KeepsHandles`). -/
def KeepsHandles (s : ServerState) : ServerEvent → Prop
  | .run i => ∀ t ∈ s.workers[i]?, t.KeepsHandles s
  | _ => True

/-- Every set that is published, or carried on to be published, holds the handles of the watchers. -/
structure HandlesInv (s : ServerState) : Prop where
  published_agree : ∀ x ∈ s.watchers, x.Agrees s.published
  old_agree : ∀ x ∈ s.watchers, ∀ t ∈ s.workers, t.Carrying → x.Agrees t.old
  reused_from : ∀ t ∈ s.workers, t.reused = true → ∀ e ∈ t.fresh, ∀ o,
    t.old.find? (fun o => o.dbPath = e.dbPath) = some o →
      e.shards = o.shards ∧ e.overlay = o.overlay

section Steps

variable {s s' : ServerState} {i : ℕ} {t : Worker}

/-- What the invariant says of a thread carries over to one that has the same sets. -/
def SameSets (t t' : Worker) : Prop :=
  t'.old = t.old ∧ t'.fresh = t.fresh ∧ t'.reused = t.reused ∧ (t'.Carrying → t.Carrying)

def Blank (t : Worker) : Prop := t.old = [] ∧ t.fresh = [] ∧ t.reused = false

/-- Steps that publish nothing, start no watcher and leave the sets of the threads alone. -/
lemma HandlesInv.of_sameSets (h : HandlesInv s)
    (hpub : s'.published = s.published ∨ s'.published = [])
    (hwatch : ∀ x' ∈ s'.watchers, ∃ x ∈ s.watchers,
      x'.dbPath = x.dbPath ∧ x'.shards = x.shards ∧ x'.overlay = x.overlay)
    (hwork : ∀ t' ∈ s'.workers, Blank t' ∨ ∃ t ∈ s.workers, SameSets t t') : HandlesInv s' := by
  constructor
  · intro x' hx' e he hpath
    obtain ⟨x, hx, hdb, hshards, hoverlay⟩ := hwatch x' hx'
    rcases hpub with hpub | hpub
    · rw [hpub] at he
      rw [hshards, hoverlay]
      exact h.published_agree x hx e he (hpath.trans hdb)
    · rw [hpub] at he
      cases he
  · intro x' hx' t' ht' hcarry e he hpath
    obtain ⟨x, hx, hdb, hshards, hoverlay⟩ := hwatch x' hx'
    rcases hwork t' ht' with hblank | ⟨t, ht, hold, -, -, hback⟩
    · rw [hblank.1] at he
      cases he
    · rw [hold] at he
      rw [hshards, hoverlay]
      exact h.old_agree x hx t ht (hback hcarry) e he (hpath.trans hdb)
  · intro t' ht' hreused e he o hfind
    rcases hwork t' ht' with hblank | ⟨t, ht, hold, hfresh, hreuse, -⟩
    · rw [hblank.2.2] at hreused
      cases hreused
    · rw [hfresh] at he
      rw [hold] at hfind
      rw [hreuse] at hreused
      exact h.reused_from t ht hreused e he o hfind

lemma SameSets.refl (t : Worker) : SameSets t t := ⟨rfl, rfl, rfl, id⟩

lemma HandlesInv.setWorker_of_sameSets (h : HandlesInv s) (ht : t ∈ s.workers) {t' : Worker}
    (hsame : SameSets t t') : HandlesInv (s.setWorker i t') := by
  refine h.of_sameSets (.inl rfl) (fun x hx => ⟨x, hx, rfl, rfl, rfl⟩) ?_
  exact workers_setWorker (.inr ⟨t, ht, hsame⟩) fun u hu => .inr ⟨u, hu, SameSets.refl u⟩

lemma HandlesInv.spawn_blank (h : HandlesInv s) {t' : Worker} (ht' : Blank t') :
    HandlesInv (s.spawn t') := by
  refine h.of_sameSets (.inl rfl) (fun x hx => ⟨x, hx, rfl, rfl, rfl⟩) ?_
  exact workers_spawn (.inl ht') fun u hu => .inr ⟨u, hu, SameSets.refl u⟩

/-- The set of a thread changes, and does not carry handles. -/
lemma HandlesInv.setWorker_fresh (h : HandlesInv s) (ht : t ∈ s.workers) {t' : Worker}
    (hold : t'.old = t.old) (hreused : t'.reused = false)
    (hcarry : t'.Carrying → t.Carrying) : HandlesInv (s.setWorker i t') where
  published_agree := h.published_agree
  old_agree x hx := by
    refine workers_setWorker (fun hc => ?_) (h.old_agree x hx)
    rw [hold]
    exact h.old_agree x hx t ht (hcarry hc)
  reused_from := by
    refine workers_setWorker (fun hc => ?_) h.reused_from
    rw [hreused] at hc
    cases hc

lemma HandlesInv.congr (h : HandlesInv s) (hpub : s'.published = s.published)
    (hwatch : s'.watchers = s.watchers) (hwork : s'.workers = s.workers) : HandlesInv s' := by
  refine h.of_sameSets (.inl hpub) ?_ ?_
  · rw [hwatch]
    exact fun x hx => ⟨x, hx, rfl, rfl, rfl⟩
  · rw [hwork]
    exact fun u hu => .inr ⟨u, hu, SameSets.refl u⟩

lemma HandlesInv.openEntry (h : HandlesInv s) (ht : t ∈ s.workers) {t' : Worker} (d : String)
    (root : Option String) (hold : t'.old = t.old) (htodo : t'.todo = t.todo)
    (hreused : t'.reused = t.reused) (hfresh : t'.fresh = [] ∨ t'.fresh = t.fresh) :
    HandlesInv (s.openEntry i t' d root) := by
  have hcarry : t'.Carrying → t.Carrying := by
    unfold Worker.Carrying
    rw [htodo, hreused]
    exact id
  unfold ServerState.openEntry
  cases s.disk d with
  | none =>
      rcases hfresh with hfresh | hfresh
      · refine ⟨h.published_agree, fun x hx => workers_setWorker (fun hc => ?_) (h.old_agree x hx),
          workers_setWorker (fun _ => ?_) h.reused_from⟩
        · rw [hold]
          exact h.old_agree x hx t ht (hcarry hc)
        · rw [hfresh]
          exact fun e he => by cases he
      · exact h.setWorker_of_sameSets ht ⟨hold, hfresh, hreused, hcarry⟩
  | some c =>
      have hnew : HandlesInv (s.setWorker i { t' with
          fresh := t'.fresh ++ [⟨d, root, c, s.next, s.next⟩], reused := false }) := by
        refine h.setWorker_fresh ht hold rfl fun hc => ?_
        rcases hc with hc | hc
        · exact hcarry (.inl hc)
        · cases hc
      exact hnew.congr rfl rfl rfl

/-- The entries of a reloaded set have the handles of the older set, where it has the database. -/
lemma reuseHandlesFrom_handles {fresh old : DbSet} {e o : LiveEntry}
    (he : e ∈ reuseHandlesFrom fresh old)
    (ho : old.find? (fun o => o.dbPath = e.dbPath) = some o) :
    e.shards = o.shards ∧ e.overlay = o.overlay := by
  obtain ⟨f, hf, rfl⟩ := List.mem_map.mp he
  cases hfind : old.find? fun o => o.dbPath = f.dbPath with
  | none =>
      rw [hfind] at ho
      dsimp only at ho
      rw [hfind] at ho
      cases ho
  | some o' =>
      rw [hfind] at ho
      dsimp only at ho ⊢
      rw [hfind] at ho
      obtain rfl := Option.some.inj ho
      exact ⟨rfl, rfl⟩

/-- A step of a thread's program. -/
lemma HandlesInv.execute (h : HandlesInv s) (hi : s.workers[i]? = some t)
    (hbuilding : t.building = none) {instr : Instr} {todo : List Instr}
    (htodo : t.todo = instr :: todo) (hkeep : t.KeepsHandles s) :
    HandlesInv (s.execute i t todo instr) := by
  have ht : t ∈ s.workers := List.mem_of_getElem? hi
  have htail : ∀ t' : Worker, t'.todo = todo → t'.reused = t.reused → t'.Carrying → t.Carrying := by
    intro t' ht' hr hc
    rcases hc with hc | hc
    · rw [ht'] at hc
      left
      rw [htodo]
      exact List.mem_cons_of_mem _ hc
    · right
      rw [← hr]
      exact hc
  cases instr with
  | openSet =>
      rw [ServerState.execute]
      cases t.opening with
      | none => exact h.openEntry ht _ _ rfl rfl rfl (.inl rfl)
      | some targets =>
          cases targets with
          | nil => exact h.setWorker_of_sameSets ht ⟨rfl, rfl, rfl, htail _ rfl rfl⟩
          | cons target rest => exact h.openEntry ht _ _ rfl rfl rfl (.inr rfl)
  | load =>
      refine ⟨h.published_agree, fun x hx => ?_, workers_setWorker ?_ h.reused_from⟩
      · exact workers_setWorker (fun _ => h.published_agree x hx) (h.old_agree x hx)
      · intro hc
        cases hc
  | reuse =>
      refine ⟨h.published_agree, fun x hx => ?_, workers_setWorker ?_ h.reused_from⟩
      · refine workers_setWorker (fun _ => h.old_agree x hx t ht (.inl ?_)) (h.old_agree x hx)
        rw [htodo]
        exact List.mem_cons_self ..
      · exact fun _ e he o ho => reuseHandlesFrom_handles he ho
  | store =>
      -- The guard says that the set to be stored was made by reuse from a set that has the
      -- watcher's database; so its entry has the old handles, and these are the watcher's.
      have hfresh : ∀ x ∈ s.watchers, x.Agrees t.fresh := by
        intro x hx e he hpath
        have hstore : ∀ x ∈ s.watchers, ∀ e ∈ t.fresh, e.dbPath = x.dbPath →
            t.reused = true ∧ ∃ o ∈ t.old, o.dbPath = x.dbPath := by
          simpa only [Worker.KeepsHandles, hbuilding, htodo] using hkeep
        obtain ⟨hreused, o, ho, hopath⟩ := hstore x hx e he hpath
        have hsome : (t.old.find? fun o => o.dbPath = e.dbPath).isSome = true := by
          rw [List.find?_isSome]
          exact ⟨o, ho, by simp [hopath, hpath]⟩
        obtain ⟨o', ho'⟩ := Option.isSome_iff_exists.mp hsome
        have hsame := h.reused_from t ht hreused e he o' ho'
        have hdb : o'.dbPath = x.dbPath := by
          have hmatch := List.find?_some ho'
          rw [decide_eq_true_eq] at hmatch
          exact hmatch.trans hpath
        have hagree := h.old_agree x hx t ht (.inr hreused) o' (List.mem_of_find?_eq_some ho') hdb
        exact ⟨hsame.1.trans hagree.1, hsame.2.trans hagree.2⟩
      refine ⟨hfresh, fun x hx => workers_setWorker (fun _ e he => ?_) (h.old_agree x hx),
        workers_setWorker (fun hc => ?_) h.reused_from⟩
      · cases he
      · cases hc
  | attach d =>
      have hattach : ∀ x ∈ attached d t.old, x.Agrees s.published ∧
          ∀ u ∈ s.workers, u.Carrying → x.Agrees u.old := by
        simpa only [Worker.KeepsHandles, hbuilding, htodo] using hkeep
      constructor
      · intro x hx
        rcases List.mem_append.mp hx with hx | hx
        · exact h.published_agree x hx
        · exact (hattach x hx).1
      · intro x hx
        have hold : ∀ u ∈ s.workers, u.Carrying → x.Agrees u.old := by
          rcases List.mem_append.mp hx with hx | hx
          · exact h.old_agree x hx
          · exact (hattach x hx).2
        exact workers_setWorker (fun _ e he => by cases he) hold
      · refine workers_setWorker (fun hc e he o ho => ?_) h.reused_from
        cases ho
  | reloadShards d n =>
      have hsame : HandlesInv (s.setWorker i { t with reloaded := some n, todo := todo }) :=
        h.setWorker_of_sameSets ht ⟨rfl, rfl, rfl, htail _ rfl rfl⟩
      exact hsame.congr rfl rfl rfl
  | clearOverlay d n =>
      have hsame : HandlesInv (s.setWorker i { t with todo := todo }) :=
        h.setWorker_of_sameSets ht ⟨rfl, rfl, rfl, htail _ rfl rfl⟩
      exact hsame.congr rfl rfl rfl
  | release => exact h.setWorker_of_sameSets ht ⟨rfl, rfl, rfl, htail _ rfl rfl⟩

lemma blank_new {jobs : List (String × Job)} {todo : List Instr} {outside : Bool} :
    Blank { jobs := jobs, todo := todo, outside := outside } := ⟨rfl, rfl, rfl⟩

lemma sameSets_witness (d : String) (files : String → Option FileVersion) (t : Worker) :
    SameSets t (t.witness d files) := ⟨rfl, rfl, rfl, id⟩

/-- A step keeps the handles of the watchers. -/
theorem HandlesInv.step (h : HandlesInv s) {ev : ServerEvent} (hkeep : KeepsHandles s ev)
    (hstep : s.step ev = some s') : HandlesInv s' := by
  have hself : ∀ x' ∈ s.watchers, ∃ x ∈ s.watchers,
      x'.dbPath = x.dbPath ∧ x'.shards = x.shards ∧ x'.overlay = x.overlay :=
    fun x hx => ⟨x, hx, rfl, rfl, rfl⟩
  have hsame : ∀ u ∈ s.workers, Blank u ∨ ∃ t ∈ s.workers, SameSets t u :=
    fun u hu => .inr ⟨u, hu, SameSets.refl u⟩
  have hset : ∀ (w : ℕ) (x y : Watcher), s.watchers[w]? = some x →
      y.dbPath = x.dbPath → y.shards = x.shards → y.overlay = x.overlay →
      ∀ x' ∈ s.watchers.set w y, ∃ x ∈ s.watchers,
        x'.dbPath = x.dbPath ∧ x'.shards = x.shards ∧ x'.overlay = x.overlay := by
    intro w x y hx hdb hshards hoverlay x' hx'
    rcases List.mem_or_eq_of_mem_set hx' with hx' | rfl
    · exact hself x' hx'
    · exact ⟨x, List.mem_of_getElem? hx, hdb, hshards, hoverlay⟩
  cases moves_of_step hstep with
  | change d path version =>
      refine h.of_sameSets (.inl rfl) hself fun u hu => ?_
      obtain ⟨t, ht, rfl⟩ := List.mem_map.mp hu
      exact .inr ⟨t, ht, sameSets_witness ..⟩
  | register records => exact h.congr rfl rfl rfl
  | crash =>
      refine h.of_sameSets (.inr rfl) (fun x hx => by cases hx) fun u hu => ?_
      exact .inr ⟨u, List.mem_of_mem_filter hu, SameSets.refl u⟩
  | spawn ev jobs todo outside htodo => exact h.spawn_blank blank_new
  | compact w x hx =>
      refine h.of_sameSets (.inl rfl) (hset w x _ hx rfl rfl rfl) ?_
      exact workers_spawn (.inl blank_new) hsame
  | execute i t instr todo hi hbuilding htodo =>
      exact h.execute hi hbuilding htodo (hkeep t hi)
  | skip i t jobs hi => exact h.setWorker_of_sameSets (List.mem_of_getElem? hi) ⟨rfl, rfl, rfl, id⟩
  | start i t d job jobs hi =>
      exact h.setWorker_of_sameSets (List.mem_of_getElem? hi) ⟨rfl, rfl, rfl, id⟩
  | finish i pick t b hi hb =>
      refine h.of_sameSets (.inl rfl) hself ?_
      exact workers_setWorker (.inl ⟨rfl, rfl, rfl⟩) hsame
  | fail i t b hi hb =>
      exact h.setWorker_of_sameSets (List.mem_of_getElem? hi) ⟨rfl, rfl, rfl, id⟩
  | observe w paths x hx => exact h.of_sameSets (.inl rfl) (hset w x _ hx rfl rfl rfl) hsame
  | apply w x recs hx hrecs => exact h.of_sameSets (.inl rfl) (hset w x _ hx rfl rfl rfl) hsame

lemma ServerState.Down.handlesInv (h : s.Down) : HandlesInv s := by
  constructor
  · rw [h.watchers_eq]
    exact fun x hx => by cases hx
  · rw [h.watchers_eq]
    exact fun x hx => by cases hx
  · rw [h.workers_eq]
    exact fun t ht => by cases ht

end Steps

/-- In every run whose steps part no watcher from its database, each watcher holds the handles of
the published entry of its database, and what it applies is in the overlay of that entry.  The
second part is about a batch that is pending now, and follows from the first: the overlay that the
watcher writes to is the one that queries read. -/
theorem watched_handles_published {s t : ServerState} {evs : List ServerEvent} (hs : s.Down)
    (hok : Run.Guarded ServerState.step KeepsHandles s evs)
    (hrun : Run.exec ServerState.step s evs = some t) {w : ℕ} {x : Watcher}
    (hx : t.watchers[w]? = some x) {e : LiveEntry} (he : e ∈ t.published)
    (hdb : e.dbPath = x.dbPath) :
    e.shards = x.shards ∧ e.overlay = x.overlay ∧
      ∀ recs t', x.pending = some recs → t.step (.apply w) = some t' →
        t'.overlays e.dbPath e.overlay = t.overlays e.dbPath e.overlay ++ recs := by
  have hinv : HandlesInv t := Run.exec_invariant_of_guarded ServerState.step
    (fun s ev s' hk hi hs' => HandlesInv.step hi hk hs') hs.handlesInv hok hrun
  obtain ⟨hshards, hoverlay⟩ := hinv.published_agree x (List.mem_of_getElem? hx) e he hdb
  refine ⟨hshards, hoverlay, fun recs t' hrecs hstep => ?_⟩
  obtain ⟨y, hy, hstep⟩ := Option.bind_eq_some_iff.mp hstep
  obtain rfl := Option.some.inj (hx.symm.trans hy)
  rw [hrecs] at hstep
  obtain rfl := Option.some.inj hstep
  rw [hdb, hoverlay]
  simp [ServerState.setOverlay]

instance (t : Worker) (s : ServerState) : Decidable (t.KeepsHandles s) := by
  unfold Worker.KeepsHandles
  split <;> infer_instance

instance (s : ServerState) (ev : ServerEvent) : Decidable (KeepsHandles s ev) := by
  unfold KeepsHandles
  split <;> infer_instance

/-- The start over one database, a reload of the registry, and a change. -/
def reloadEvents : List ServerEvent :=
  startEvents 1 ++ (.registryChanged :: List.replicate 6 (.run 1)) ++
    [.change "a" "/a/new" (some ⟨⟨false, 1, 1⟩, none⟩), .observe 0 ["/a/new"]]

/-- The registry changes while a database is watched, and then the watcher sees a new file. -/
theorem watched_handles_published_reload :
    ∃ t x e, Run.exec ServerState.step (downServer ["a"] fun _ => none) reloadEvents = some t ∧
      t.watchers[0]? = some x ∧ e ∈ t.published ∧ e.dbPath = x.dbPath ∧
      x.pending = some [.upsert "/a/new" ⟨false, 1, 1⟩ none] ∧ ∀ t', t.step (.apply 0) = some t' →
        t'.overlays e.dbPath e.overlay =
          t.overlays e.dbPath e.overlay ++ [.upsert "/a/new" ⟨false, 1, 1⟩ none] := by
  have hsees : (Run.exec ServerState.step (downServer ["a"] fun _ => none) reloadEvents).map
      (fun t => (t.watchers, t.published.map LiveEntry.handles)) =
      some ([⟨"a", 0, 0, some [.upsert "/a/new" ⟨false, 1, 1⟩ none], none⟩], [("a", 0, 0)]) := by
    decide +kernel
  obtain ⟨t, hrun, ht⟩ := Option.map_eq_some_iff.mp hsees
  obtain ⟨hwatchers, hpublished⟩ := Prod.mk.inj ht
  have hx : t.watchers[0]? =
      some ⟨"a", 0, 0, some [.upsert "/a/new" ⟨false, 1, 1⟩ none], none⟩ := by
    rw [hwatchers]
    rfl
  obtain ⟨e, he, hhandles⟩ : ∃ e ∈ t.published, e.handles = ("a", 0, 0) := by
    rw [← List.mem_map, hpublished]
    exact List.mem_singleton.mpr rfl
  have hdb : e.dbPath = "a" := congrArg Prod.fst hhandles
  have hguard : Run.Guarded ServerState.step KeepsHandles (downServer ["a"] fun _ => none)
      reloadEvents := by decide +kernel
  obtain ⟨-, -, hbatch⟩ := watched_handles_published (downServer_down ["a"] fun _ => none) hguard
    hrun hx he hdb
  exact ⟨t, _, e, hrun, hx, he, hdb, rfl, fun t' ht' => hbatch _ t' rfl ht'⟩

/-- The start over two databases, a background build of the second, and a change in the first. -/
def rebuildEvents : List ServerEvent :=
  startEvents 2 ++ (.spawnBuild "b" :: .run 1 :: .finish 1 (fun _ => 0) ::
    List.replicate 5 (.run 1)) ++
  [.change "a" "/a/new" (some ⟨⟨false, 1, 1⟩, none⟩), .observe 0 ["/a/new"], .apply 0]

/-- A background build of one database stores new handles for another, and what the watcher of that
one applies afterwards is in no published overlay. -/
theorem spawn_build_orphans_watcher :
    ∃ t x e, Run.exec ServerState.step (downServer ["a", "b"] fun _ => none) rebuildEvents =
        some t ∧
      t.watchers[0]? = some x ∧ e ∈ t.published ∧ e.dbPath = x.dbPath ∧ e.shards ≠ x.shards ∧
      e.overlay ≠ x.overlay ∧ t.overlays e.dbPath e.overlay = [] ∧
      t.overlays x.dbPath x.overlay = [.upsert "/a/new" ⟨false, 1, 1⟩ none] := by
  have hhandles : (Run.exec ServerState.step (downServer ["a", "b"] fun _ => none)
      rebuildEvents).map (fun t => (t.watchers[0]?, t.published.map LiveEntry.handles)) =
      some (some ⟨"a", 0, 0, none, none⟩, [("a", 2, 2), ("b", 3, 3)]) := by decide +kernel
  have hoverlays : (Run.exec ServerState.step (downServer ["a", "b"] fun _ => none)
      rebuildEvents).map (fun t => (t.overlays "a" 0, t.overlays "a" 2)) =
      some ([.upsert "/a/new" ⟨false, 1, 1⟩ none], []) := by decide +kernel
  obtain ⟨t, hrun, ht⟩ := Option.map_eq_some_iff.mp hhandles
  obtain ⟨hx, hpublished⟩ := Prod.mk.inj ht
  rw [hrun] at hoverlays
  obtain ⟨hold, hnew⟩ := Prod.mk.inj (Option.some.inj hoverlays)
  obtain ⟨e, he, hhandles⟩ : ∃ e ∈ t.published, e.handles = ("a", 2, 2) := by
    rw [← List.mem_map, hpublished]
    exact List.mem_cons_self ..
  have hdb : e.dbPath = "a" := congrArg Prod.fst hhandles
  have hshards : e.shards = 2 := congrArg (fun h => h.2.1) hhandles
  have hoverlay : e.overlay = 2 := congrArg (fun h => h.2.2) hhandles
  refine ⟨t, _, e, hrun, hx, he, hdb, ?_, ?_, ?_, hold⟩
  · rw [hshards]
    decide
  · rw [hoverlay]
    decide
  · rw [hdb, hoverlay]
    exact hnew

end DeepFinder
