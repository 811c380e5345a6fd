import DeepFinder.Lib.FileLock

/-!
# One daemon a socket

`serve` locks `daemon.lock` beside its socket before anything else, and a daemon that finds it
locked gives up.  The socket file is not under the lock's protection by itself: a killed daemon
leaves it behind, and every daemon removes it before it binds and after it has drained.

`one_daemon`: over all runs of any number of daemons, killed anywhere, at most one is past the lock,
a client that connects to the path reaches the daemon that accepts and no other, and once nobody is
past the lock the next daemon comes to serve.

The file system is one lock file and one path for the socket; `Quiet` is what a killed daemon can
have left there, a socket that nobody listens on or nothing.  The lock is that of
`Lib/FileLock.lean`, which the kernel drops when its holder dies.  What a client sees is `connect`,
at any moment of a run.
-/

namespace DeepFinder

/-- Where a daemon is in `serve`, past `singleton::acquire`. -/
inductive ServePc where
  /-- the databases are opened, watchers and builds spawned, the socket's directory created -/
  | opening
  /-- about to remove a stale socket -/
  | clearing
  | binding
  /-- in the `accept` loop -/
  | accepting
  /-- the listener is dropped, the socket not yet removed -/
  | draining
  deriving DecidableEq, Repr

/-- The steps of `serve`, and whether each of its system calls succeeds. -/
inductive ServeStep where
  | createDir (ok : Bool)
  | removeStale (ok : Bool)
  | bind (ok : Bool)
  | accept
  | shutdown
  | removeSocket (ok : Bool)
  deriving DecidableEq, Repr

/-- The socket file, as the daemon whose listener it is, and who still listens. -/
structure SocketPath where
  socket : Option ℕ
  listening : ℕ → Bool

namespace SocketPath

/-- Which daemon a client that connects to the path reaches. -/
def connect (g : SocketPath) : Option ℕ :=
  g.socket.filter g.listening

def remove (g : SocketPath) (ok : Bool) : SocketPath :=
  if ok then { g with socket := none } else g

def listen (g : SocketPath) (i : ℕ) (on : Bool) : SocketPath :=
  { g with listening := Function.update g.listening i on }

/-- Nobody listens anywhere.  A socket that a killed daemon has left at the path may still stand
there, and is what the next daemon removes. -/
def Quiet (g : SocketPath) : Prop :=
  ∀ p, g.listening p = false

/-- Only daemon `i` listens, as long as it accepts, and then the socket is its own. -/
structure Owned (i : ℕ) (pc : ServePc) (g : SocketPath) : Prop where
  listening : ∀ p, g.listening p = true ↔ p = i ∧ pc = .accepting
  socket : pc = .accepting → g.socket = some i

end SocketPath

/-- `serve` at daemon `i`, from the lock to its return. -/
def serveStep (i : ℕ) (g : SocketPath) : ServePc → ServeStep → Option (SocketPath × Option ServePc)
  | .opening, .createDir ok => some (g, if ok then some .clearing else none)
  | .clearing, .removeStale ok => some (g.remove ok, some .binding)
  | .binding, .bind ok =>
      -- `bind` fails where the path exists
      if ok ∧ g.socket = none then
        some ({ g with socket := some i }.listen i true, some .accepting)
      else some (g, none)
  | .accepting, .accept => some (g, some .accepting)
  | .accepting, .shutdown => some (g.listen i false, some .draining)
  | .draining, .removeSocket ok => some (g.remove ok, none)
  | _, _ => none

def singleton : FileLock.Section SocketPath ServePc ServeStep where
  enter := .opening
  work := serveStep
  gone i g := g.listen i false

/-- What one step of `serve` does. -/
inductive ServeSteps (i : ℕ) (g : SocketPath) : ServePc → SocketPath → Option ServePc → Prop where
  | createDir : ServeSteps i g .opening g (some .clearing)
  | createDirFailed : ServeSteps i g .opening g none
  | removeStale (ok : Bool) : ServeSteps i g .clearing (g.remove ok) (some .binding)
  | bind (hfree : g.socket = none) :
      ServeSteps i g .binding ({ g with socket := some i }.listen i true) (some .accepting)
  | bindFailed : ServeSteps i g .binding g none
  | accept : ServeSteps i g .accepting g (some .accepting)
  | shutdown : ServeSteps i g .accepting (g.listen i false) (some .draining)
  | removeSocket (ok : Bool) : ServeSteps i g .draining (g.remove ok) none

lemma serveSteps_of_serveStep {i : ℕ} {g g' : SocketPath} {pc : ServePc} {pc' : Option ServePc}
    {a : ServeStep} (h : serveStep i g pc a = some (g', pc')) : ServeSteps i g pc g' pc' := by
  unfold serveStep at h
  split at h
  · rename_i ok
    obtain ⟨rfl, rfl⟩ := Prod.mk.inj (Option.some.inj h)
    cases ok with
    | true => exact .createDir
    | false => exact .createDirFailed
  · obtain ⟨rfl, rfl⟩ := Prod.mk.inj (Option.some.inj h)
    exact .removeStale _
  · split at h
    · rename_i hfree
      obtain ⟨rfl, rfl⟩ := Prod.mk.inj (Option.some.inj h)
      exact .bind hfree.2
    · obtain ⟨rfl, rfl⟩ := Prod.mk.inj (Option.some.inj h)
      exact .bindFailed
  · obtain ⟨rfl, rfl⟩ := Prod.mk.inj (Option.some.inj h)
    exact .accept
  · obtain ⟨rfl, rfl⟩ := Prod.mk.inj (Option.some.inj h)
    exact .shutdown
  · obtain ⟨rfl, rfl⟩ := Prod.mk.inj (Option.some.inj h)
    exact .removeSocket _
  · cases h

namespace SocketPath

variable {g : SocketPath} {i : ℕ} {pc : ServePc}

@[simp] lemma listening_remove (g : SocketPath) (ok : Bool) :
    (g.remove ok).listening = g.listening := by
  cases ok <;> rfl

lemma Owned.quiet (h : g.Owned i pc) (hpc : pc ≠ .accepting) : g.Quiet := by
  intro p
  have hnot : ¬ g.listening p = true := fun hp => hpc ((h.listening p).mp hp).2
  simpa using hnot

lemma Quiet.owned (h : g.Quiet) (hpc : pc ≠ .accepting) : g.Owned i pc where
  listening p := by simp [h p, hpc]
  socket hacc := absurd hacc hpc

lemma Quiet.remove (h : g.Quiet) (ok : Bool) : (g.remove ok).Quiet := by
  intro p
  rw [listening_remove]
  exact h p

lemma Quiet.listen_false (h : g.Quiet) (i : ℕ) : (g.listen i false).Quiet := by
  intro p
  show Function.update g.listening i false p = false
  rcases eq_or_ne p i with rfl | hp
  · exact Function.update_self ..
  · rw [Function.update_of_ne hp]
    exact h p

lemma Owned.listen_false (h : g.Owned i pc) : (g.listen i false).Quiet := by
  intro p
  show Function.update g.listening i false p = false
  rcases eq_or_ne p i with rfl | hp
  · exact Function.update_self ..
  · have hnot : ¬ g.listening p = true := fun hl => hp ((h.listening p).mp hl).1
    rw [Function.update_of_ne hp]
    simpa using hnot

lemma Quiet.bind (h : g.Quiet) (i : ℕ) :
    ({ g with socket := some i }.listen i true).Owned i .accepting where
  listening p := by
    show Function.update g.listening i true p = true ↔ _
    rcases eq_or_ne p i with rfl | hp
    · simp
    · simp [h p, hp]
  socket _ := rfl

lemma Owned.other {j : ℕ} (h : g.Owned j pc) (hij : i ≠ j) : (g.listen i false).Owned j pc where
  listening p := by
    show Function.update g.listening i false p = true ↔ _
    rcases eq_or_ne p i with rfl | hp
    · simp [hij]
    · rw [Function.update_of_ne hp]
      exact h.listening p
  socket := h.socket

lemma Quiet.connect (h : g.Quiet) : g.connect = none := by
  rw [SocketPath.connect, Option.filter_eq_none_iff]
  intro p _
  simp [h p]

lemma Owned.connect (h : g.Owned i .accepting) : g.connect = some i := by
  have hlisten : g.listening i = true := (h.listening i).mpr ⟨rfl, rfl⟩
  rw [SocketPath.connect, h.socket rfl, Option.filter_some, if_pos hlisten]

end SocketPath

open SocketPath in
/-- `serve` keeps the socket to itself. -/
lemma singleton_lawful : FileLock.Lawful singleton Quiet Owned where
  enter h := h.owned (by simp [singleton])
  work h hwork := by
    cases serveSteps_of_serveStep hwork with
    | createDir => exact (h.quiet (by simp)).owned (by simp)
    | removeStale ok => exact ((h.quiet (by simp)).remove ok).owned (by simp)
    | bind => exact (h.quiet (by simp)).bind _
    | accept => exact h
    | shutdown => exact h.listen_false.owned (by simp)
  leave h hwork := by
    cases serveSteps_of_serveStep hwork with
    | createDirFailed | bindFailed => exact h.quiet (by simp)
    | removeSocket ok => exact (h.quiet (by simp)).remove ok
  killed h := h.listen_false
  gone h := h.listen_false _
  other hij h := h.other hij

/-- A client reaches the daemon that accepts, and no other. -/
lemma connect_iff {s : FileLock.State SocketPath ServePc}
    (hs : FileLock.Sound SocketPath.Quiet SocketPath.Owned s) (i : ℕ) :
    s.shared.connect = some i ↔ s.At i .accepting := by
  refine ⟨fun h => ?_, fun h => (hs.held h).connect⟩
  by_cases hin : ∃ j, s.Inside j
  · obtain ⟨j, pc, hj⟩ := hin
    have howned := hs.held hj
    by_cases hpc : pc = .accepting
    · subst hpc
      obtain rfl := Option.some.inj (howned.connect.symm.trans h)
      exact hj
    · rw [(howned.quiet hpc).connect] at h
      cases h
  · rw [(hs.free fun j hj => hin ⟨j, hj⟩).connect] at h
    cases h

def untroubled : List ServeStep := [.createDir true, .removeStale true, .bind true]

lemma works_untroubled (i : ℕ) (g : SocketPath) :
    singleton.works i g .opening untroubled =
      some ({ g with socket := some i }.listen i true, .accepting) := by
  simp [FileLock.Section.works, singleton, untroubled, serveStep, SocketPath.remove]

/-- A daemon that begins while nobody is past the lock comes to serve. -/
lemma exists_serving {s : FileLock.State SocketPath ServePc}
    (hs : FileLock.Sound SocketPath.Quiet SocketPath.Owned s) (hout : ∀ j, ¬ s.Inside j) {i : ℕ}
    (hi : s.procs i = .unborn) :
    ∃ moves s', Run.exec (FileLock.step singleton) s moves = some s' ∧
      s'.shared.connect = some i := by
  obtain ⟨ino, s₁, hrun₁, hi₁, -⟩ := hs.exec_enter (P := singleton) hi hout
  obtain ⟨s₂, hrun₂, hi₂, -⟩ := FileLock.exec_works hi₁ (works_untroubled i s₁.shared)
  have hs₂ := (hs.exec singleton_lawful hrun₁).exec singleton_lawful hrun₂
  refine ⟨[.openFile i ino, .tryLock i] ++ untroubled.map (.work i), s₂, ?_,
    (connect_iff hs₂ i).mpr ⟨_, hi₂⟩⟩
  rw [Run.exec_append, hrun₁, Option.bind_some, hrun₂]

/-- Over all runs of any number of daemons, from whatever a killed one has left, at most one is past
the lock; a client reaches the daemon that accepts, and no other; and once nobody is past the lock,
a new daemon comes to serve. -/
theorem one_daemon {file : Option ℕ} {left : SocketPath} (hleft : left.Quiet)
    {moves : List (FileLock.Move ServeStep)} {s : FileLock.State SocketPath ServePc}
    (hrun : Run.exec (FileLock.step singleton) (FileLock.boot file left) moves = some s) :
    (∀ i j, s.Inside i → s.Inside j → i = j) ∧
      (∀ i, s.shared.connect = some i ↔ s.At i .accepting) ∧
      ((∀ j, ¬ s.Inside j) → ∀ i, s.procs i = .unborn →
        ∃ moves' s', Run.exec (FileLock.step singleton) s moves' = some s' ∧
          s'.shared.connect = some i) := by
  have hs := (FileLock.sound_boot hleft).exec singleton_lawful hrun
  exact ⟨fun i j => hs.exclusive, connect_iff hs, fun hout i hi => exists_serving hs hout hi⟩

/-- A first daemon is killed as it serves, with a second one refused, and a third comes. -/
def killedDaemon : List (FileLock.Move ServeStep) :=
  [.openFile 0 7, .tryLock 0] ++ untroubled.map (.work 0) ++
    [.openFile 1 8, .tryLock 1, .kill 0, .openFile 2 9, .tryLock 2, .work 2 (.createDir true)]

theorem one_daemon_killed :
    ∃ s, Run.exec (FileLock.step singleton) (FileLock.boot none ⟨none, fun _ => false⟩)
        killedDaemon = some s ∧
      s.shared.socket = some 0 ∧ s.procs 1 = .outside ∧ s.At 2 .clearing ∧
      s.shared.connect = none ∧ ∀ i, s.Inside i → i = 2 := by
  obtain ⟨s, hrun, hsocket, h₁, h₂⟩ :
      ∃ s, Run.exec (FileLock.step singleton) (FileLock.boot none ⟨none, fun _ => false⟩)
          killedDaemon = some s ∧
        s.shared.socket = some 0 ∧ s.procs 1 = .outside ∧ s.procs 2 = .inside 7 .clearing :=
    ⟨_, rfl, rfl, rfl, rfl⟩
  have hdaemon := one_daemon (fun _ => rfl) hrun
  refine ⟨s, hrun, hsocket, h₁, ⟨7, h₂⟩, ?_, fun i hi => hdaemon.1 i 2 hi ⟨_, 7, h₂⟩⟩
  rw [Option.eq_none_iff_forall_ne_some]
  intro i hi
  obtain ⟨ino, hat⟩ := (hdaemon.2.1 i).mp hi
  obtain rfl := hdaemon.1 i 2 ⟨_, ino, hat⟩ ⟨_, 7, h₂⟩
  cases h₂.symm.trans hat

end DeepFinder
