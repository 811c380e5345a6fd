import DeepFinder.Lib.Run
import Mathlib.Logic.Function.Basic

/-!
# The build marker

The builds of one database, and the `.indexing` marker that is their lock.  A daemon build takes
the marker and holds a guard until it is over; a progress reporter meanwhile rewrites the marker; a
foreground build of the command line takes nothing; and the daemon sweeps the marker as it starts.

The marker should keep the builds apart (`builds_exclusive`) and be gone after the guard
(`marker_absent_after_release`).  Both fail: the sweep also takes the marker of a running build,
foreground builds ignore it, and the reporter of a build that panics is never stopped.

## The conditions

Both theorems are about all runs of the machine below, which takes the steps of daemon builds,
reporters, foreground builds, the sweep and kills in any order.  `RespectsMarker` and `Orderly` are
conditions on the state before a step, and rule out just what goes wrong: builds that begin beside a
foreground build, a sweep that takes a marker from its guard, and, for the second theorem, a panic
in a build whose reporter has been spawned.  A panic before that is harmless and allowed.
-/

namespace DeepFinder

/-! ## The machine -/

/-- Who builds in the daemon. -/
inductive BuildSource where
  | spawnBuild
  | compactAndSwap
  | rebuildAndSwap
  deriving DecidableEq, Repr

/-- Where a build is. -/
inductive BuildPc where
  | idle
  /-- `try_acquire` returned the guard -/
  | acquired
  /-- in `build_content_index_with_progress` -/
  | building
  /-- which returned, `Ok` or `Err` -/
  | returned
  /-- `stop` is set and the reporter is joined -/
  | joining
  /-- `tracked_build` is over, and the guard not yet dropped -/
  | holding
  | done
  /-- a foreground build of the command line -/
  | foreground
  deriving DecidableEq, Repr

/-- Where the progress reporter of a build is. -/
inductive ReporterPc where
  | unborn
  /-- at `while !stop` -/
  | checking
  /-- about to write the marker -/
  | writing
  /-- asleep between two writes -/
  | ticking
  | exited
  deriving DecidableEq, Repr

/-- A build, with its stop flag and its reporter. -/
structure Build where
  pc : BuildPc := .idle
  stop : Bool := false
  reporter : ReporterPc := .unborn
  deriving DecidableEq, Repr

/-- The daemon: watchers are spawned, then markers are swept, then everything else runs. -/
inductive DaemonPc where
  | down
  | starting
  | serving
  deriving DecidableEq, Repr

/-- The marker file of a database and the builds of it. -/
structure LockState where
  daemon : DaemonPc
  marker : Bool
  builds : ℕ → Build

/-- What happens next. -/
inductive LockEvent where
  | startDaemon
  /-- `sweep_stale_markers` -/
  | sweep
  /-- the daemon is killed -/
  | kill
  /-- `try_acquire` succeeds -/
  | acquire (source : BuildSource) (i : ℕ)
  /-- `tracked_build` spawns the reporter and starts to build -/
  | start (i : ℕ)
  | finish (i : ℕ)
  /-- the build unwinds -/
  | panic (i : ℕ)
  /-- `stop.store(true)` -/
  | stop (i : ℕ)
  /-- `reporter.join()` -/
  | join (i : ℕ)
  /-- the guard is dropped -/
  | release (i : ℕ)
  /-- the reporter takes its next step -/
  | report (i : ℕ)
  | openForeground (i : ℕ)
  | closeForeground (i : ℕ)
  deriving DecidableEq, Repr

def DaemonPc.runs : DaemonPc → BuildSource → Bool
  | .down, _ => false
  | .starting, source => decide (source = .compactAndSwap)
  | .serving, _ => true

def LockState.setBuild (s : LockState) (i : ℕ) (b : Build) : LockState :=
  { s with builds := Function.update s.builds i b }

/-- A killed daemon's build is over, its guard not dropped. -/
def Build.killed (b : Build) : Build :=
  if b.pc = .foreground then b else { b with pc := .done, reporter := .exited }

/-- One step. -/
def LockState.step (s : LockState) : LockEvent → Option LockState
  | .startDaemon => if s.daemon = .down then some { s with daemon := .starting } else none
  | .sweep =>
      if s.daemon = .starting then some { s with daemon := .serving, marker := false } else none
  | .kill =>
      if s.daemon = .down then none
      else some { s with daemon := .down, builds := fun i => (s.builds i).killed }
  | .acquire source i =>
      if (s.builds i).pc = .idle ∧ s.daemon.runs source = true ∧ s.marker = false then
        some ({ s with marker := true }.setBuild i { s.builds i with pc := .acquired })
      else none
  | .start i =>
      if (s.builds i).pc = .acquired then
        some (s.setBuild i { s.builds i with pc := .building, reporter := .checking })
      else none
  | .finish i =>
      if (s.builds i).pc = .building then some (s.setBuild i { s.builds i with pc := .returned })
      else none
  | .panic i =>
      if (s.builds i).pc = .acquired ∨ (s.builds i).pc = .building then
        some (s.setBuild i { s.builds i with pc := .holding })
      else none
  | .stop i =>
      if (s.builds i).pc = .returned then
        some (s.setBuild i { s.builds i with pc := .joining, stop := true })
      else none
  | .join i =>
      if (s.builds i).pc = .joining ∧ (s.builds i).reporter = .exited then
        some (s.setBuild i { s.builds i with pc := .holding })
      else none
  | .release i =>
      if (s.builds i).pc = .holding then
        some ({ s with marker := false }.setBuild i { s.builds i with pc := .done })
      else none
  | .report i =>
      match (s.builds i).reporter with
      | .checking => some (s.setBuild i { s.builds i with
          reporter := if (s.builds i).stop then .exited else .writing })
      | .writing =>
          some ({ s with marker := true }.setBuild i { s.builds i with reporter := .ticking })
      | .ticking => some (s.setBuild i { s.builds i with reporter := .checking })
      | _ => none
  | .openForeground i =>
      if (s.builds i).pc = .idle then some (s.setBuild i { s.builds i with pc := .foreground })
      else none
  | .closeForeground i =>
      if (s.builds i).pc = .foreground then some (s.setBuild i { s.builds i with pc := .done })
      else none

/-- The state before any build; a killed daemon may have left the marker. -/
def LockState.initial (daemon : DaemonPc) (marker : Bool) : LockState :=
  ⟨daemon, marker, fun _ => {}⟩

def Build.writes (b : Build) : Prop := b.pc = .building ∨ b.pc = .foreground

def Build.engaged (b : Build) : Prop := b.pc = .acquired ∨ b.writes

def Build.guarded (b : Build) : Prop :=
  b.pc = .acquired ∨ b.pc = .building ∨ b.pc = .returned ∨ b.pc = .joining ∨ b.pc = .holding

def Build.reports (b : Build) : Prop :=
  b.reporter = .checking ∨ b.reporter = .writing ∨ b.reporter = .ticking

/-- `is_indexing`. -/
def LockState.isIndexing (s : LockState) : Bool := s.marker

/-! ## One build changes -/

section Lock

variable {s s' : LockState} {i j : ℕ} {b : Build}

lemma builds_setBuild : (s.setBuild i b).builds j = if j = i then b else s.builds j :=
  Function.update_apply ..

/-- At most one build satisfies `P`. -/
def LockState.AtMostOne (P : Build → Prop) (s : LockState) : Prop :=
  ∀ i j, P (s.builds i) → P (s.builds j) → i = j

/-- A build may satisfy `P` if it did before, or nobody did. -/
lemma LockState.AtMostOne.setBuild {P : Build → Prop} (h : s.AtMostOne P)
    (hb : P b → P (s.builds i) ∨ ∀ j, ¬ P (s.builds j)) : (s.setBuild i b).AtMostOne P := by
  intro j k hj hk
  rw [builds_setBuild] at hj hk
  by_cases hji : j = i
  · by_cases hki : k = i
    · rw [hji, hki]
    · rw [if_pos hji] at hj
      rw [if_neg hki] at hk
      rcases hb hj with hi | hnone
      · rw [hji]
        exact h i k hi hk
      · exact absurd hk (hnone k)
  · rw [if_neg hji] at hj
    by_cases hki : k = i
    · rw [if_pos hki] at hk
      rcases hb hk with hi | hnone
      · rw [hki]
        exact h j i hj hi
      · exact absurd hj (hnone j)
    · rw [if_neg hki] at hk
      exact h j k hj hk

/-- At most one build has the guard, and then the marker is there. -/
structure LockState.Locked (s : LockState) : Prop where
  guard_unique : s.AtMostOne Build.guarded
  guard_marked : ∀ i, (s.builds i).guarded → s.marker = true

/-- A build that goes on under its guard, if it has one, keeps the lock. -/
lemma LockState.Locked.advance (h : s.Locked) {marker : Bool}
    (hmarker : s.marker = true → marker = true) (hguard : b.guarded → (s.builds i).guarded) :
    ({ s with marker := marker }.setBuild i b).Locked := by
  refine ⟨@LockState.AtMostOne.setBuild { s with marker := marker } i b _ h.guard_unique
    fun hb => Or.inl (hguard hb), fun j hj => ?_⟩
  rw [builds_setBuild] at hj
  apply hmarker
  by_cases hji : j = i
  · rw [if_pos hji] at hj
    exact h.guard_marked i (hguard hj)
  · rw [if_neg hji] at hj
    exact h.guard_marked j hj

lemma guarded_killed (b : Build) : ¬ b.killed.guarded := by
  unfold Build.killed Build.guarded
  split
  · rename_i h
    simp [h]
  · simp

/-- While the marker is not swept from a guard, it is a lock. -/
lemma LockState.Locked.step (h : s.Locked) {e : LockEvent}
    (hsweep : e = .sweep → ∀ j, ¬ (s.builds j).guarded) (hs : s.step e = some s') : s'.Locked := by
  cases e with
  | startDaemon =>
      obtain ⟨-, rfl⟩ := Run.of_enabled hs
      exact ⟨h.guard_unique, h.guard_marked⟩
  | sweep =>
      obtain ⟨-, rfl⟩ := Run.of_enabled hs
      exact ⟨h.guard_unique, fun i hi => absurd hi (hsweep rfl i)⟩
  | kill =>
      simp only [LockState.step, Option.ite_none_left_eq_some, Option.some.injEq] at hs
      obtain ⟨-, rfl⟩ := hs
      exact ⟨fun i _ hi => absurd hi (guarded_killed _), fun i hi => absurd hi (guarded_killed _)⟩
  | acquire source i =>
      obtain ⟨⟨-, -, hfree⟩, rfl⟩ := Run.of_enabled hs
      refine ⟨@LockState.AtMostOne.setBuild { s with marker := true } i _ _ h.guard_unique
        fun _ => Or.inr fun j hj => ?_, fun _ _ => rfl⟩
      rw [h.guard_marked j hj] at hfree
      cases hfree
  | start i =>
      obtain ⟨hpc, rfl⟩ := Run.of_enabled hs
      exact h.advance id fun _ => Or.inl hpc
  | finish i =>
      obtain ⟨hpc, rfl⟩ := Run.of_enabled hs
      exact h.advance id fun _ => Or.inr (Or.inl hpc)
  | panic i =>
      obtain ⟨hpc, rfl⟩ := Run.of_enabled hs
      exact h.advance id fun _ => hpc.imp id Or.inl
  | stop i =>
      obtain ⟨hpc, rfl⟩ := Run.of_enabled hs
      exact h.advance id fun _ => Or.inr (Or.inr (Or.inl hpc))
  | join i =>
      obtain ⟨⟨hpc, -⟩, rfl⟩ := Run.of_enabled hs
      exact h.advance id fun _ => Or.inr (Or.inr (Or.inr (Or.inl hpc)))
  | release i =>
      obtain ⟨hpc, rfl⟩ := Run.of_enabled hs
      have hnot : ¬ ({ s.builds i with pc := .done } : Build).guarded := by simp [Build.guarded]
      refine ⟨@LockState.AtMostOne.setBuild { s with marker := false } i _ _ h.guard_unique
        fun hb => absurd hb hnot, fun j hj => ?_⟩
      rw [builds_setBuild] at hj
      by_cases hji : j = i
      · rw [if_pos hji] at hj
        exact absurd hj hnot
      · rw [if_neg hji] at hj
        exact absurd (h.guard_unique j i hj (Or.inr (Or.inr (Or.inr (Or.inr hpc))))) hji
  | report i =>
      simp only [LockState.step] at hs
      split at hs
      · obtain rfl := Option.some.inj hs
        exact h.advance id id
      · obtain rfl := Option.some.inj hs
        exact h.advance (fun _ => rfl) id
      · obtain rfl := Option.some.inj hs
        exact h.advance id id
      · cases hs
  | openForeground i =>
      obtain ⟨hpc, rfl⟩ := Run.of_enabled hs
      refine h.advance id fun hb => ?_
      simp [Build.guarded] at hb
  | closeForeground i =>
      obtain ⟨hpc, rfl⟩ := Run.of_enabled hs
      refine h.advance id fun hb => ?_
      simp [Build.guarded] at hb

lemma LockState.locked_initial (daemon : DaemonPc) (marker : Bool) :
    (LockState.initial daemon marker).Locked := by
  refine ⟨fun i j hi => ?_, fun i hi => ?_⟩
  · simp [LockState.initial, Build.guarded] at hi
  · simp [LockState.initial, Build.guarded] at hi

/-! ## Mutual exclusion -/

/-- A step that leaves the lock in force: no build begins beside a foreground build, no foreground
build beside another build, and no marker is swept from a guard. -/
def LockState.RespectsMarker (s : LockState) : LockEvent → Prop
  | .acquire _ _ => ∀ j, (s.builds j).pc ≠ .foreground
  | .openForeground _ => ∀ j, ¬ (s.builds j).engaged
  | .sweep => ∀ j, ¬ (s.builds j).guarded
  | _ => True

lemma engaged_killed (h : b.killed.engaged) : b.engaged := by
  unfold Build.killed at h
  split at h
  · exact h
  · simp [Build.engaged, Build.writes] at h

/-- Under the lock, builds begin alone. -/
lemma LockState.Locked.engaged_step (hlock : s.Locked) (h : s.AtMostOne Build.engaged)
    {e : LockEvent} (hok : s.RespectsMarker e) (hs : s.step e = some s') :
    s'.AtMostOne Build.engaged := by
  cases e with
  | startDaemon =>
      obtain ⟨-, rfl⟩ := Run.of_enabled hs
      exact h
  | sweep =>
      obtain ⟨-, rfl⟩ := Run.of_enabled hs
      exact h
  | kill =>
      simp only [LockState.step, Option.ite_none_left_eq_some, Option.some.injEq] at hs
      obtain ⟨-, rfl⟩ := hs
      exact fun i j hi hj => h i j (engaged_killed hi) (engaged_killed hj)
  | acquire source i =>
      obtain ⟨⟨-, -, hfree⟩, rfl⟩ := Run.of_enabled hs
      -- The marker was absent, so no guarded build is under way; of foreground builds the guard of
      -- the run says so.
      have hnone : ∀ j, ¬ (s.builds j).guarded := by
        intro j hj
        rw [hlock.guard_marked j hj] at hfree
        cases hfree
      refine @LockState.AtMostOne.setBuild { s with marker := true } i _ _ h
        fun _ => Or.inr fun j hj => ?_
      rcases hj with hj | hj | hj
      · exact hnone j (Or.inl hj)
      · exact hnone j (Or.inr (Or.inl hj))
      · exact hok j hj
  | start i =>
      obtain ⟨hpc, rfl⟩ := Run.of_enabled hs
      exact h.setBuild fun _ => Or.inl (Or.inl hpc)
  | finish i =>
      obtain ⟨hpc, rfl⟩ := Run.of_enabled hs
      exact h.setBuild fun _ => Or.inl (Or.inr (Or.inl hpc))
  | panic i =>
      obtain ⟨hpc, rfl⟩ := Run.of_enabled hs
      exact h.setBuild fun _ => Or.inl (hpc.imp id Or.inl)
  | stop i =>
      obtain ⟨hpc, rfl⟩ := Run.of_enabled hs
      refine h.setBuild fun hb => ?_
      simp [Build.engaged, Build.writes] at hb
  | join i =>
      obtain ⟨⟨hpc, -⟩, rfl⟩ := Run.of_enabled hs
      refine h.setBuild fun hb => ?_
      simp [Build.engaged, Build.writes] at hb
  | release i =>
      obtain ⟨hpc, rfl⟩ := Run.of_enabled hs
      refine @LockState.AtMostOne.setBuild { s with marker := false } i _ _ h fun hb => ?_
      simp [Build.engaged, Build.writes] at hb
  | report i =>
      simp only [LockState.step] at hs
      split at hs
      · obtain rfl := Option.some.inj hs
        exact h.setBuild Or.inl
      · obtain rfl := Option.some.inj hs
        exact @LockState.AtMostOne.setBuild { s with marker := true } i _ _ h Or.inl
      · obtain rfl := Option.some.inj hs
        exact h.setBuild Or.inl
      · cases hs
  | openForeground i =>
      obtain ⟨hpc, rfl⟩ := Run.of_enabled hs
      exact h.setBuild fun _ => Or.inr hok
  | closeForeground i =>
      obtain ⟨hpc, rfl⟩ := Run.of_enabled hs
      refine h.setBuild fun hb => ?_
      simp [Build.engaged, Build.writes] at hb

/-- A request's build holds off a second one. -/
example : ((LockState.initial .serving false).step (.acquire .spawnBuild 0)).bind
    (fun s => s.step (.acquire .rebuildAndSwap 1)) = none := rfl

/-- In every run that leaves the lock in force, at most one build writes shards at any time.  The
run starts with a daemon at any point of its life and a marker that may be left over; the guard
`RespectsMarker` is on the state before each step, and what carries the induction is that at most
one build is engaged, which writes shards or has acquired the marker to do so. -/
theorem builds_exclusive {daemon : DaemonPc} {marker : Bool} {events : List LockEvent}
    {t : LockState}
    (hrun : Run.exec LockState.step (LockState.initial daemon marker) events = some t)
    (hok : Run.Guarded LockState.step LockState.RespectsMarker
      (LockState.initial daemon marker) events) : t.AtMostOne Build.writes := by
  have hstep : ∀ (s : LockState) (e : LockEvent) (s' : LockState), s.RespectsMarker e →
      s.Locked ∧ s.AtMostOne Build.engaged → s.step e = some s' →
        s'.Locked ∧ s'.AtMostOne Build.engaged := by
    rintro s e s' hok ⟨hlock, hengaged⟩ hs
    refine ⟨hlock.step (fun he => ?_) hs, hlock.engaged_step hengaged hok hs⟩
    subst he
    exact hok
  have hinit : (LockState.initial daemon marker).AtMostOne Build.engaged := by
    intro i j hi
    simp [LockState.initial, Build.engaged, Build.writes] at hi
  obtain ⟨-, ht⟩ := Run.exec_invariant_of_guarded LockState.step hstep
    ⟨LockState.locked_initial daemon marker, hinit⟩ hok hrun
  exact fun i j hi hj => ht i j (Or.inr hi) (Or.inr hj)

end Lock

/-- A build that a request starts after the sweep is alone. -/
theorem builds_exclusive_after_sweep :
    ∃ t, Run.exec LockState.step (LockState.initial .starting true)
        [.sweep, .acquire .spawnBuild 0, .start 0] = some t ∧
      (t.builds 0).writes ∧ ∀ j, (t.builds j).writes → 0 = j := by
  refine ⟨_, rfl, Or.inl rfl, fun j hj => ?_⟩
  refine @builds_exclusive .starting true [.sweep, .acquire .spawnBuild 0, .start 0] _ rfl
    ⟨fun j hj => ?_, fun j => ?_, trivial, trivial⟩ 0 j (Or.inl rfl) hj
  · simp [LockState.initial, Build.guarded] at hj
  · simp [LockState.initial]

/-- The sweep at startup takes the marker of a compaction that a watcher has begun, and a second
build of the database begins. -/
theorem sweep_admits_second_build :
    ∃ t, Run.exec LockState.step (LockState.initial .down false)
        [.startDaemon, .acquire .compactAndSwap 0, .start 0, .sweep, .acquire .spawnBuild 1,
          .start 1] = some t ∧
      (t.builds 0).writes ∧ (t.builds 1).writes :=
  ⟨_, rfl, Or.inl rfl, Or.inl rfl⟩

/-! ## The marker after the guard -/

section Lifecycle

variable {s s' : LockState} {i j : ℕ} {b : Build}

/-- A step that leaves the marker to its guard: no build panics that has a reporter, and no marker
is swept from a guard. -/
def LockState.Orderly (s : LockState) : LockEvent → Prop
  | .panic i => (s.builds i).pc = .acquired
  | .sweep => ∀ j, ¬ (s.builds j).guarded
  | _ => True

/-- The reporter runs only between the start of its build and the join. -/
def Build.Reported (b : Build) : Prop :=
  b.reports → b.pc = .building ∨ b.pc = .returned ∨ b.pc = .joining

/-- A build that is not between these points has no reporter that runs. -/
lemma Build.Reported.not_reports {pc : BuildPc} (h : b.Reported) (hpc : b.pc = pc)
    (hout : pc ≠ .building ∧ pc ≠ .returned ∧ pc ≠ .joining) : ¬ b.reports := by
  intro hr
  obtain ⟨hbuilding, hreturned, hjoining⟩ := hout
  rcases h hr with hb | hr | hj
  · exact hbuilding (hpc.symm.trans hb)
  · exact hreturned (hpc.symm.trans hr)
  · exact hjoining (hpc.symm.trans hj)

lemma Build.Reported.guarded (h : b.Reported) (hr : b.reports) : b.guarded := by
  rcases h hr with hpc | hpc | hpc
  · exact Or.inr (Or.inl hpc)
  · exact Or.inr (Or.inr (Or.inl hpc))
  · exact Or.inr (Or.inr (Or.inr (Or.inl hpc)))

lemma Build.Reported.killed (h : b.Reported) : b.killed.Reported := by
  unfold Build.killed
  split
  · exact h
  · intro hr
    simp [Build.reports] at hr

/-- Without a panic of a build that has one, every reporter is joined. -/
lemma LockState.reported_step (h : ∀ i, (s.builds i).Reported) {e : LockEvent}
    (hok : s.Orderly e) (hs : s.step e = some s') : ∀ i, (s'.builds i).Reported := by
  have hset : ∀ {t : LockState} {i : ℕ} {b : Build}, (∀ j, (t.builds j).Reported) → b.Reported →
      ∀ j, ((t.setBuild i b).builds j).Reported := by
    intro t i b ht hb j
    rw [builds_setBuild]
    split
    · exact hb
    · exact ht j
  cases e with
  | startDaemon =>
      obtain ⟨-, rfl⟩ := Run.of_enabled hs
      exact h
  | sweep =>
      obtain ⟨-, rfl⟩ := Run.of_enabled hs
      exact h
  | kill =>
      simp only [LockState.step, Option.ite_none_left_eq_some, Option.some.injEq] at hs
      obtain ⟨-, rfl⟩ := hs
      exact fun i => (h i).killed
  | acquire source i =>
      obtain ⟨⟨hpc, -, -⟩, rfl⟩ := Run.of_enabled hs
      exact @hset { s with marker := true } i _ h fun hr =>
        absurd hr ((h i).not_reports hpc (by decide))
  | start i =>
      obtain ⟨hpc, rfl⟩ := Run.of_enabled hs
      exact hset h fun _ => Or.inl rfl
  | finish i =>
      obtain ⟨hpc, rfl⟩ := Run.of_enabled hs
      exact hset h fun _ => Or.inr (Or.inl rfl)
  | panic i =>
      obtain ⟨-, rfl⟩ := Run.of_enabled hs
      -- Before `start` there is no reporter that the panic could leave behind.
      have hpc : (s.builds i).pc = .acquired := hok
      exact hset h fun hr => absurd hr ((h i).not_reports hpc (by decide))
  | stop i =>
      obtain ⟨hpc, rfl⟩ := Run.of_enabled hs
      exact hset h fun _ => Or.inr (Or.inr rfl)
  | join i =>
      obtain ⟨⟨-, hexited⟩, rfl⟩ := Run.of_enabled hs
      refine hset h fun hr => ?_
      simp [Build.reports, hexited] at hr
  | release i =>
      obtain ⟨hpc, rfl⟩ := Run.of_enabled hs
      exact @hset { s with marker := false } i _ h fun hr =>
        absurd hr ((h i).not_reports hpc (by decide))
  | report i =>
      simp only [LockState.step] at hs
      split at hs
      · rename_i hreporter
        obtain rfl := Option.some.inj hs
        exact hset h fun _ => h i (Or.inl hreporter)
      · rename_i hreporter
        obtain rfl := Option.some.inj hs
        exact @hset { s with marker := true } i _ h fun _ => h i (Or.inr (Or.inl hreporter))
      · rename_i hreporter
        obtain rfl := Option.some.inj hs
        exact hset h fun _ => h i (Or.inr (Or.inr hreporter))
      · cases hs
  | openForeground i =>
      obtain ⟨hpc, rfl⟩ := Run.of_enabled hs
      exact hset h fun hr => absurd hr ((h i).not_reports hpc (by decide))
  | closeForeground i =>
      obtain ⟨hpc, rfl⟩ := Run.of_enabled hs
      exact hset h fun hr => absurd hr ((h i).not_reports hpc (by decide))

lemma reports_of_killed (h : b.killed.reports) : b.reports := by
  unfold Build.killed at h
  split at h
  · exact h
  · simp [Build.reports] at h

/-- The marker is gone, and nobody is left to write it. -/
structure LockState.Unmarked (s : LockState) : Prop where
  marker_eq : s.marker = false
  unguarded : ∀ i, ¬ (s.builds i).guarded
  unreported : ∀ i, ¬ (s.builds i).reports

/-- When a guard is dropped in order, the marker is gone. -/
lemma LockState.Locked.release (hlock : s.Locked) (hrep : ∀ i, (s.builds i).Reported)
    (hs : s.step (.release i) = some s') : s'.Unmarked := by
  obtain ⟨hpc, rfl⟩ := Run.of_enabled hs
  have hi : (s.builds i).guarded := Or.inr (Or.inr (Or.inr (Or.inr hpc)))
  have hother : ∀ j, j ≠ i → ¬ (s.builds j).guarded := fun j hj hg =>
    hj (hlock.guard_unique j i hg hi)
  refine ⟨rfl, fun j hj => ?_, fun j hj => ?_⟩
  · rw [builds_setBuild] at hj
    by_cases hji : j = i
    · rw [if_pos hji] at hj
      simp [Build.guarded] at hj
    · rw [if_neg hji] at hj
      exact hother j hji hj
  · rw [builds_setBuild] at hj
    by_cases hji : j = i
    · rw [if_pos hji] at hj
      exact (hrep i).not_reports hpc (by decide) hj
    · rw [if_neg hji] at hj
      exact hother j hji ((hrep j).guarded hj)

/-- The marker stays away until the next `try_acquire`. -/
lemma LockState.Unmarked.step (h : s.Unmarked) {e : LockEvent}
    (hno : ∀ source i, e ≠ .acquire source i) (hs : s.step e = some s') : s'.Unmarked := by
  have hset : ∀ {i : ℕ} {b : Build}, ¬ b.guarded → ¬ b.reports → (s.setBuild i b).Unmarked := by
    intro i b hg hr
    refine ⟨h.marker_eq, fun j hj => ?_, fun j hj => ?_⟩
    · rw [builds_setBuild] at hj
      split at hj
      · exact hg hj
      · exact h.unguarded j hj
    · rw [builds_setBuild] at hj
      split at hj
      · exact hr hj
      · exact h.unreported j hj
  cases e with
  | startDaemon =>
      obtain ⟨-, rfl⟩ := Run.of_enabled hs
      exact ⟨h.marker_eq, h.unguarded, h.unreported⟩
  | sweep =>
      obtain ⟨-, rfl⟩ := Run.of_enabled hs
      exact ⟨rfl, h.unguarded, h.unreported⟩
  | kill =>
      simp only [LockState.step, Option.ite_none_left_eq_some, Option.some.injEq] at hs
      obtain ⟨-, rfl⟩ := hs
      exact ⟨h.marker_eq, fun i => guarded_killed _, fun i hi =>
        h.unreported i (reports_of_killed hi)⟩
  | acquire source i => exact absurd rfl (hno source i)
  | start i =>
      obtain ⟨hpc, -⟩ := Run.of_enabled hs
      exact absurd (Or.inl hpc) (h.unguarded i)
  | finish i =>
      obtain ⟨hpc, -⟩ := Run.of_enabled hs
      exact absurd (Or.inr (Or.inl hpc)) (h.unguarded i)
  | panic i =>
      obtain ⟨hpc, -⟩ := Run.of_enabled hs
      exact absurd (hpc.imp id Or.inl) (h.unguarded i)
  | stop i =>
      obtain ⟨hpc, -⟩ := Run.of_enabled hs
      exact absurd (Or.inr (Or.inr (Or.inl hpc))) (h.unguarded i)
  | join i =>
      obtain ⟨hpc, -⟩ := Run.of_enabled hs
      exact absurd (Or.inr (Or.inr (Or.inr (Or.inl hpc.1)))) (h.unguarded i)
  | release i =>
      obtain ⟨hpc, -⟩ := Run.of_enabled hs
      exact absurd (Or.inr (Or.inr (Or.inr (Or.inr hpc)))) (h.unguarded i)
  | report i =>
      simp only [LockState.step] at hs
      split at hs
      · rename_i hreporter
        exact absurd (Or.inl hreporter) (h.unreported i)
      · rename_i hreporter
        exact absurd (Or.inr (Or.inl hreporter)) (h.unreported i)
      · rename_i hreporter
        exact absurd (Or.inr (Or.inr hreporter)) (h.unreported i)
      · cases hs
  | openForeground i =>
      obtain ⟨hpc, rfl⟩ := Run.of_enabled hs
      exact hset (by simp [Build.guarded]) (h.unreported i)
  | closeForeground i =>
      obtain ⟨hpc, rfl⟩ := Run.of_enabled hs
      exact hset (by simp [Build.guarded]) (h.unreported i)

lemma LockState.Unmarked.exec {events : List LockEvent} (h : s.Unmarked)
    (hno : ∀ source i, .acquire source i ∉ events)
    (hrun : Run.exec LockState.step s events = some s') : s'.Unmarked := by
  induction events generalizing s with
  | nil =>
      obtain rfl := Option.some.inj hrun
      exact h
  | cons e events ih =>
      obtain ⟨s₁, hs₁, hrest⟩ := Option.bind_eq_some_iff.mp hrun
      refine ih (h.step (fun source i he => ?_) hs₁) (fun source i hmem => ?_) hrest
      · subst he
        exact hno source i (List.mem_cons_self ..)
      · exact hno source i (List.mem_cons_of_mem _ hmem)

/-- In every run in which no build panics that has a reporter and no guarded marker is swept, the
marker is absent from the drop of a guard to the next `try_acquire`, which then succeeds.  `later`
is any run behind the drop without an acquisition, so that reporters of other builds have had the
time to write. -/
theorem marker_absent_after_release {daemon : DaemonPc} {marker : Bool}
    {events later : List LockEvent} {t : LockState}
    (hrun : Run.exec LockState.step (LockState.initial daemon marker)
      (events ++ .release i :: later) = some t)
    (hok : Run.Guarded LockState.step LockState.Orderly (LockState.initial daemon marker)
      (events ++ .release i :: later))
    (hno : ∀ source j, .acquire source j ∉ later) :
    t.isIndexing = false ∧ ∀ source j, t.daemon.runs source = true → (t.builds j).pc = .idle →
      (t.step (.acquire source j)).isSome = true := by
  rw [Run.exec_append] at hrun
  obtain ⟨s, hs, hrun⟩ := Option.bind_eq_some_iff.mp hrun
  obtain ⟨s', hs', hrun⟩ := Option.bind_eq_some_iff.mp hrun
  have hstep : ∀ (s : LockState) (e : LockEvent) (s' : LockState), s.Orderly e →
      s.Locked ∧ (∀ i, (s.builds i).Reported) → s.step e = some s' →
        s'.Locked ∧ ∀ i, (s'.builds i).Reported := by
    rintro s e s' hok ⟨hlock, hrep⟩ hs
    refine ⟨hlock.step (fun he => ?_) hs, LockState.reported_step hrep hok hs⟩
    subst he
    exact hok
  have hinit : ∀ i, ((LockState.initial daemon marker).builds i).Reported := by
    intro i hi
    simp [LockState.initial, Build.reports] at hi
  obtain ⟨hlock, hrep⟩ := Run.exec_invariant_of_guarded LockState.step hstep
    ⟨LockState.locked_initial daemon marker, hinit⟩ (hok.left LockState.step) hs
  have ht := (hlock.release hrep hs').exec hno hrun
  refine ⟨ht.marker_eq, fun source j hruns hpc => ?_⟩
  rw [LockState.step, if_pos ⟨hpc, hruns, ht.marker_eq⟩]
  rfl

end Lifecycle

/-- A build that ends in order leaves no marker. -/
theorem marker_absent_after_build :
    ∃ t, Run.exec LockState.step (LockState.initial .serving false)
        [.acquire .rebuildAndSwap 0, .start 0, .report 0, .report 0, .finish 0, .stop 0, .report 0,
          .report 0, .join 0, .release 0] = some t ∧ t.isIndexing = false := by
  refine ⟨_, rfl, (@marker_absent_after_release 0 .serving false
    [.acquire .rebuildAndSwap 0, .start 0, .report 0, .report 0, .finish 0, .stop 0, .report 0,
      .report 0, .join 0] [] _ rfl ?_ (fun _ _ => List.not_mem_nil)).1⟩
  exact ⟨trivial, trivial, trivial, trivial, trivial, trivial, trivial, trivial, trivial, trivial,
    trivial⟩

/-- The reporter of a build that panics outlives it, and writes the marker when the guard is
gone. -/
theorem panic_leaves_marker :
    ∃ t, Run.exec LockState.step (LockState.initial .serving false)
        [.acquire .spawnBuild 0, .start 0, .panic 0, .release 0, .report 0, .report 0] = some t ∧
      t.isIndexing = true ∧ t.step (.acquire .spawnBuild 1) = none :=
  ⟨_, rfl, rfl, rfl⟩

end DeepFinder
