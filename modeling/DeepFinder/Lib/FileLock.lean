import DeepFinder.Lib.Run
import Mathlib.Logic.Function.Basic

/-!
# Sections under a file lock

Processes that share a state take an exclusive lock on a file before they work on it.  A process
opens the lock file, creating it if there is none, and tries to lock the inode that it got; where
the lock is taken it gives up.  The lock goes when its holder leaves the section or is killed.

`Lawful` is the rule of the section: an assertion that holds while nobody is inside, and one about
the process that is.  Then at most one process is inside and the assertions hold, after any run of
any number of processes (`Sound.exec`).
-/

namespace FileLock

/-- What a process does in the section: where it enters, its steps, the last of which leads to
`none`; and what its end does to the shared state. -/
structure Section (γ τ α : Type*) where
  enter : τ
  work : ℕ → γ → τ → α → Option (γ × Option τ)
  gone : ℕ → γ → γ

/-- Where a process is. -/
inductive Phase (τ : Type*) where
  | unborn
  /-- it has opened the lock file, which is this inode -/
  | opened (ino : ℕ)
  | inside (ino : ℕ) (t : τ)
  /-- it has released the lock, or did not get it -/
  | outside
  | ended
  deriving DecidableEq, Repr

/-- The inode of the lock file, who has locked an inode, the processes, and what they share. -/
structure State (γ τ : Type*) where
  file : Option ℕ
  lockedBy : ℕ → Option ℕ
  procs : ℕ → Phase τ
  shared : γ

/-- What happens next. -/
inductive Move (α : Type*) where
  /-- the lock file is opened; if it has to be created, it is inode `ino` -/
  | openFile (i ino : ℕ)
  | tryLock (i : ℕ)
  | work (i : ℕ) (a : α)
  /-- the process is over, or killed -/
  | kill (i : ℕ)
  deriving DecidableEq, Repr

variable {γ τ α : Type*}

def boot (file : Option ℕ) (g : γ) : State γ τ where
  file := file
  lockedBy _ := none
  procs _ := .unborn
  shared := g

def State.setProc (s : State γ τ) (i : ℕ) (phase : Phase τ) : State γ τ :=
  { s with procs := Function.update s.procs i phase }

@[simp] lemma State.setProc_self (s : State γ τ) (i : ℕ) (phase : Phase τ) :
    (s.setProc i phase).procs i = phase := by
  simp [State.setProc]

lemma State.setProc_of_ne (s : State γ τ) {i j : ℕ} (hij : j ≠ i) (phase : Phase τ) :
    (s.setProc i phase).procs j = s.procs j := by
  simp [State.setProc, hij]

/-- The process is inside the section, at `t`. -/
def State.At (s : State γ τ) (i : ℕ) (t : τ) : Prop :=
  ∃ ino, s.procs i = .inside ino t

def State.Inside (s : State γ τ) (i : ℕ) : Prop :=
  ∃ t, s.At i t

/-- The steps of a process that stays inside. -/
def Section.works (P : Section γ τ α) (i : ℕ) : γ → τ → List α → Option (γ × τ)
  | g, t, [] => some (g, t)
  | g, t, a :: as =>
      match P.work i g t a with
      | some (g', some t') => P.works i g' t' as
      | _ => none

variable (P : Section γ τ α)

/-- One step. -/
def step (s : State γ τ) : Move α → Option (State γ τ)
  | .openFile i ino =>
      match s.procs i with
      | .unborn =>
          some { s.setProc i (.opened (s.file.getD ino)) with file := some (s.file.getD ino) }
      | _ => none
  | .tryLock i =>
      match s.procs i with
      | .opened ino =>
          match s.lockedBy ino with
          | none =>
              some { s.setProc i (.inside ino P.enter) with
                lockedBy := Function.update s.lockedBy ino (some i) }
          | some _ => some (s.setProc i .outside)
      | _ => none
  | .work i a =>
      match s.procs i with
      | .inside ino t =>
          (P.work i s.shared t a).map fun out =>
            match out.2 with
            | some t' => { s.setProc i (.inside ino t') with shared := out.1 }
            | none =>
                { s.setProc i .outside with
                  shared := out.1
                  lockedBy := Function.update s.lockedBy ino none }
      | _ => none
  | .kill i =>
      match s.procs i with
      | .inside ino _ =>
          some { s.setProc i .ended with
            shared := P.gone i s.shared
            lockedBy := Function.update s.lockedBy ino none }
      | _ => some { s.setProc i .ended with shared := P.gone i s.shared }

/-! ## What a step does -/

/-- The steps that there are. -/
inductive Steps (s : State γ τ) : State γ τ → Prop where
  | openFile (i ino : ℕ) (hi : s.procs i = .unborn) :
      Steps s { s.setProc i (.opened (s.file.getD ino)) with file := some (s.file.getD ino) }
  | lock (i ino : ℕ) (hi : s.procs i = .opened ino) (hfree : s.lockedBy ino = none) :
      Steps s { s.setProc i (.inside ino P.enter) with
        lockedBy := Function.update s.lockedBy ino (some i) }
  | refuse (i ino j : ℕ) (hi : s.procs i = .opened ino) (htaken : s.lockedBy ino = some j) :
      Steps s (s.setProc i .outside)
  | work (i ino : ℕ) (t t' : τ) (a : α) (g : γ) (hi : s.procs i = .inside ino t)
      (hwork : P.work i s.shared t a = some (g, some t')) :
      Steps s { s.setProc i (.inside ino t') with shared := g }
  | leave (i ino : ℕ) (t : τ) (a : α) (g : γ) (hi : s.procs i = .inside ino t)
      (hwork : P.work i s.shared t a = some (g, none)) :
      Steps s { s.setProc i .outside with
        shared := g
        lockedBy := Function.update s.lockedBy ino none }
  | killInside (i ino : ℕ) (t : τ) (hi : s.procs i = .inside ino t) :
      Steps s { s.setProc i .ended with
        shared := P.gone i s.shared
        lockedBy := Function.update s.lockedBy ino none }
  | kill (i : ℕ) (hi : ∀ ino t, s.procs i ≠ .inside ino t) :
      Steps s { s.setProc i .ended with shared := P.gone i s.shared }

variable {P}

lemma steps_of_step {s s' : State γ τ} {m : Move α} (h : step P s m = some s') :
    Steps P s s' := by
  cases m with
  | openFile i ino =>
      simp only [step] at h
      split at h
      · rename_i hi
        obtain rfl := Option.some.inj h
        exact .openFile i ino hi
      · cases h
  | tryLock i =>
      simp only [step] at h
      split at h
      · rename_i ino hi
        split at h
        · rename_i hfree
          obtain rfl := Option.some.inj h
          exact .lock i ino hi hfree
        · rename_i j htaken
          obtain rfl := Option.some.inj h
          exact .refuse i ino j hi htaken
      · cases h
  | work i a =>
      simp only [step] at h
      split at h
      · rename_i ino t hi
        obtain ⟨⟨g, t'⟩, hwork, rfl⟩ := Option.map_eq_some_iff.mp h
        cases t' with
        | some t' => exact .work i ino t t' a g hi hwork
        | none => exact .leave i ino t a g hi hwork
      · cases h
  | kill i =>
      simp only [step] at h
      split at h
      · rename_i ino t hi
        obtain rfl := Option.some.inj h
        exact .killInside i ino t hi
      · rename_i hi
        obtain rfl := Option.some.inj h
        exact .kill i hi

/-- The steps of a process inside are a run. -/
lemma exec_works {s : State γ τ} {i ino : ℕ} {t t' : τ} {g' : γ} {as : List α}
    (hi : s.procs i = .inside ino t) (hworks : P.works i s.shared t as = some (g', t')) :
    ∃ s', Run.exec (step P) s (as.map (.work i)) = some s' ∧ s'.procs i = .inside ino t' ∧
      s'.shared = g' := by
  induction as generalizing s t with
  | nil =>
      obtain ⟨rfl, rfl⟩ := Prod.mk.inj (Option.some.inj hworks)
      exact ⟨s, rfl, hi, rfl⟩
  | cons a as ih =>
      simp only [Section.works] at hworks
      split at hworks
      · rename_i g₁ t₁ hwork
        have hstep : step P s (.work i a) =
            some { s.setProc i (.inside ino t₁) with shared := g₁ } := by
          simp only [step, hi, hwork, Option.map_some]
        obtain ⟨s', hrun, hs'⟩ := ih (s := { s.setProc i (.inside ino t₁) with shared := g₁ })
          (State.setProc_self s i _) hworks
        refine ⟨s', ?_, hs'⟩
        rw [List.map_cons, Run.exec_cons, hstep, Option.bind_some, hrun]
      · cases hworks

/-! ## The rule of the section -/

/-- `R` holds while nobody is inside, and `H i t` while process `i` is, at `t`.  A process that dies
inside leaves what `P.gone` makes of the state, and the next one has to be able to begin with that.
-/
structure Lawful (P : Section γ τ α) (R : γ → Prop) (H : ℕ → τ → γ → Prop) : Prop where
  enter : ∀ {i g}, R g → H i P.enter g
  work : ∀ {i t a g g' t'}, H i t g → P.work i g t a = some (g', some t') → H i t' g'
  leave : ∀ {i t a g g'}, H i t g → P.work i g t a = some (g', none) → R g'
  killed : ∀ {i t g}, H i t g → R (P.gone i g)
  gone : ∀ {i g}, R g → R (P.gone i g)
  other : ∀ {i j t g}, i ≠ j → H j t g → H j t (P.gone i g)

/-- Whoever has opened the lock file has the one inode that there is, whoever is inside has locked
it, and the assertions hold. -/
structure Sound (R : γ → Prop) (H : ℕ → τ → γ → Prop) (s : State γ τ) : Prop where
  opened : ∀ {i ino}, s.procs i = .opened ino → s.file = some ino
  inside : ∀ {i ino t}, s.procs i = .inside ino t → s.file = some ino ∧ s.lockedBy ino = some i
  locked : ∀ {i ino}, s.lockedBy ino = some i → ∃ t, s.procs i = .inside ino t
  free : (∀ i, ¬ s.Inside i) → R s.shared
  held : ∀ {i t}, s.At i t → H i t s.shared

section Sound

variable {R : γ → Prop} {H : ℕ → τ → γ → Prop}

lemma sound_boot {file : Option ℕ} {g : γ} (hg : R g) :
    Sound R H (boot file g : State γ τ) where
  opened h := by cases h
  inside h := by cases h
  locked h := by cases h
  free _ := hg
  held h := by
    obtain ⟨_, h⟩ := h
    cases h

lemma Sound.exclusive {s : State γ τ} (hs : Sound R H s) {i j : ℕ} (hi : s.Inside i)
    (hj : s.Inside j) : i = j := by
  obtain ⟨_, _, hi⟩ := hi
  obtain ⟨_, _, hj⟩ := hj
  obtain ⟨hfile, hlock⟩ := hs.inside hi
  obtain ⟨hfile', hlock'⟩ := hs.inside hj
  obtain rfl := Option.some.inj (hfile.symm.trans hfile')
  exact Option.some.inj (hlock.symm.trans hlock')

lemma Sound.not_inside {s : State γ τ} (hs : Sound R H s) {ino : ℕ} (hfile : s.file = some ino)
    (hfree : s.lockedBy ino = none) (i : ℕ) : ¬ s.Inside i := by
  rintro ⟨_, _, hi⟩
  obtain ⟨hfile', hlock⟩ := hs.inside hi
  obtain rfl := Option.some.inj (hfile.symm.trans hfile')
  rw [hfree] at hlock
  cases hlock

/-- A phase from which nothing of the lock is touched. -/
def Phase.Away : Phase τ → Prop
  | .opened _ => False
  | .inside _ _ => False
  | _ => True

/-- The process inside leaves, and the lock is free. -/
lemma Sound.leaving {s : State γ τ} (hs : Sound R H s) {i ino : ℕ} {t : τ} {phase : Phase τ}
    {g : γ} (hi : s.procs i = .inside ino t) (haway : phase.Away) (hg : R g) :
    Sound R H { s.setProc i phase with
      shared := g
      lockedBy := Function.update s.lockedBy ino none } := by
  obtain ⟨hfile, hlock⟩ := hs.inside hi
  -- the others were not inside before
  have hout : ∀ j k u, (s.setProc i phase).procs j ≠ .inside k u := by
    intro j k u hj
    rcases eq_or_ne j i with rfl | hji
    · rw [State.setProc_self] at hj
      subst hj
      exact haway
    · rw [State.setProc_of_ne s hji] at hj
      exact hji (hs.exclusive ⟨u, k, hj⟩ ⟨t, ino, hi⟩)
  refine ⟨fun {j k} hj => ?_, fun {j k u} hj => absurd hj (hout j k u), fun {j k} hj => ?_,
    fun _ => hg, fun {j u} hj => ?_⟩
  · rcases eq_or_ne j i with rfl | hji
    · have hj : (s.setProc j phase).procs j = .opened k := hj
      rw [State.setProc_self] at hj
      subst hj
      exact absurd haway id
    · exact hs.opened ((State.setProc_of_ne s hji phase).symm.trans hj)
  · have hj : Function.update s.lockedBy ino none k = some j := hj
    rcases eq_or_ne k ino with rfl | hk
    · rw [Function.update_self] at hj
      cases hj
    · rw [Function.update_of_ne hk] at hj
      obtain ⟨u, hu⟩ := hs.locked hj
      exact absurd (Option.some.inj ((hs.inside hu).1.symm.trans hfile)) hk
  · obtain ⟨k, hj⟩ := hj
    exact absurd hj (hout j k u)

/-- A process that is not inside goes away. -/
lemma Sound.away {s : State γ τ} (hs : Sound R H s) {i : ℕ} {phase : Phase τ} {g : γ}
    (hi : ∀ ino t, s.procs i ≠ .inside ino t) (haway : phase.Away) (hR : R s.shared → R g)
    (hH : ∀ j t, i ≠ j → H j t s.shared → H j t g) :
    Sound R H { s.setProc i phase with shared := g } := by
  have hin : ∀ {j k u}, (s.setProc i phase).procs j = .inside k u →
      i ≠ j ∧ s.procs j = .inside k u := by
    intro j k u hj
    rcases eq_or_ne j i with rfl | hji
    · rw [State.setProc_self] at hj
      subst hj
      exact absurd haway id
    · exact ⟨hji.symm, (State.setProc_of_ne s hji phase).symm.trans hj⟩
  refine ⟨fun {j k} hj => ?_, fun hj => hs.inside (hin hj).2, fun {j k} hj => ?_, fun hfree => ?_,
    fun {j u} hj => ?_⟩
  · rcases eq_or_ne j i with rfl | hji
    · have hj : (s.setProc j phase).procs j = .opened k := hj
      rw [State.setProc_self] at hj
      subst hj
      exact absurd haway id
    · exact hs.opened ((State.setProc_of_ne s hji phase).symm.trans hj)
  · obtain ⟨u, hu⟩ := hs.locked hj
    have hji : j ≠ i := fun h => hi k u (h ▸ hu)
    exact ⟨u, (State.setProc_of_ne s hji phase).trans hu⟩
  · refine hR (hs.free fun j hj => ?_)
    obtain ⟨u, k, hj⟩ := hj
    have hji : j ≠ i := fun h => hi k u (h ▸ hj)
    exact hfree j ⟨u, k, (State.setProc_of_ne s hji phase).trans hj⟩
  · obtain ⟨k, hj⟩ := hj
    obtain ⟨hij, hj⟩ := hin hj
    exact hH j u hij (hs.held ⟨k, hj⟩)

lemma Sound.openFile {s : State γ τ} (hs : Sound R H s) {i ino : ℕ}
    (hi : s.procs i = .unborn) :
    Sound R H { s.setProc i (.opened (s.file.getD ino)) with file := some (s.file.getD ino) } := by
  have hfile : ∀ {k}, s.file = some k → some (s.file.getD ino) = some k := by
    intro k hk
    rw [hk, Option.getD_some]
  have hprocs : ∀ {j k u}, (s.setProc i (.opened (s.file.getD ino))).procs j = .inside k u →
      s.procs j = .inside k u := by
    intro j k u hj
    rcases eq_or_ne j i with rfl | hji
    · rw [State.setProc_self] at hj
      cases hj
    · exact (State.setProc_of_ne s hji _).symm.trans hj
  have hback : ∀ {j k u}, s.procs j = .inside k u →
      (s.setProc i (.opened (s.file.getD ino))).procs j = .inside k u := by
    intro j k u hj
    have hji : j ≠ i := by
      rintro rfl
      rw [hi] at hj
      cases hj
    exact (State.setProc_of_ne s hji _).trans hj
  refine ⟨fun {j k} hj => ?_, fun hj => ?_, fun hj => ?_, fun hfree => ?_, fun hj => ?_⟩
  · rcases eq_or_ne j i with rfl | hji
    · have hj : (s.setProc j (.opened (s.file.getD ino))).procs j = .opened k := hj
      rw [State.setProc_self] at hj
      obtain rfl := Phase.opened.inj hj
      rfl
    · exact hfile (hs.opened ((State.setProc_of_ne s hji _).symm.trans hj))
  · obtain ⟨hk, hlock⟩ := hs.inside (hprocs hj)
    exact ⟨hfile hk, hlock⟩
  · obtain ⟨u, hu⟩ := hs.locked hj
    exact ⟨u, hback hu⟩
  · exact hs.free fun j hj => hfree j (hj.imp fun u hu => hu.imp fun k hk => hback hk)
  · exact hs.held (hj.imp fun k hk => hprocs hk)

lemma Sound.enter (hP : Lawful P R H) {s : State γ τ} (hs : Sound R H s) {i ino : ℕ}
    (hi : s.procs i = .opened ino) (hfree : s.lockedBy ino = none) :
    Sound R H { s.setProc i (.inside ino P.enter) with
      lockedBy := Function.update s.lockedBy ino (some i) } := by
  have hfile := hs.opened hi
  have hout := hs.not_inside hfile hfree
  have hprocs : ∀ {j k u}, (s.setProc i (.inside ino P.enter)).procs j = .inside k u →
      j = i ∧ k = ino ∧ u = P.enter := by
    intro j k u hj
    rcases eq_or_ne j i with rfl | hji
    · rw [State.setProc_self] at hj
      obtain ⟨rfl, rfl⟩ := Phase.inside.inj hj
      exact ⟨rfl, rfl, rfl⟩
    · rw [State.setProc_of_ne s hji] at hj
      exact absurd ⟨u, k, hj⟩ (hout j)
  refine ⟨fun {j k} hj => ?_, fun hj => ?_, fun {j k} hj => ?_, fun hfree => ?_, fun hj => ?_⟩
  · rcases eq_or_ne j i with rfl | hji
    · have hj : (s.setProc j (.inside ino P.enter)).procs j = .opened k := hj
      rw [State.setProc_self] at hj
      cases hj
    · exact hs.opened ((State.setProc_of_ne s hji _).symm.trans hj)
  · obtain ⟨rfl, rfl, rfl⟩ := hprocs hj
    exact ⟨hfile, Function.update_self ..⟩
  · have hj : Function.update s.lockedBy ino (some i) k = some j := hj
    rcases eq_or_ne k ino with rfl | hk
    · rw [Function.update_self] at hj
      obtain rfl := Option.some.inj hj
      exact ⟨_, State.setProc_self s i _⟩
    · rw [Function.update_of_ne hk] at hj
      obtain ⟨u, hu⟩ := hs.locked hj
      exact absurd (Option.some.inj ((hs.inside hu).1.symm.trans hfile)) hk
  · exact absurd ⟨_, ino, State.setProc_self s i _⟩ (hfree i)
  · obtain ⟨k, hj⟩ := hj
    obtain ⟨rfl, rfl, rfl⟩ := hprocs hj
    exact hP.enter (hs.free hout)

lemma Sound.working {s : State γ τ} (hs : Sound R H s) {i ino : ℕ} {t t' : τ} {g : γ}
    (hi : s.procs i = .inside ino t) (hg : H i t' g) :
    Sound R H { s.setProc i (.inside ino t') with shared := g } := by
  have hprocs : ∀ {j k u}, (s.setProc i (.inside ino t')).procs j = .inside k u →
      j = i ∧ k = ino ∧ u = t' := by
    intro j k u hj
    rcases eq_or_ne j i with rfl | hji
    · rw [State.setProc_self] at hj
      obtain ⟨rfl, rfl⟩ := Phase.inside.inj hj
      exact ⟨rfl, rfl, rfl⟩
    · rw [State.setProc_of_ne s hji] at hj
      exact absurd (hs.exclusive ⟨u, k, hj⟩ ⟨t, ino, hi⟩) hji
  refine ⟨fun {j k} hj => ?_, fun hj => ?_, fun {j k} hj => ?_, fun hfree => ?_, fun hj => ?_⟩
  · rcases eq_or_ne j i with rfl | hji
    · have hj : (s.setProc j (.inside ino t')).procs j = .opened k := hj
      rw [State.setProc_self] at hj
      cases hj
    · exact hs.opened ((State.setProc_of_ne s hji _).symm.trans hj)
  · obtain ⟨rfl, rfl, rfl⟩ := hprocs hj
    exact hs.inside hi
  · obtain ⟨u, hu⟩ := hs.locked hj
    obtain rfl := hs.exclusive ⟨u, k, hu⟩ ⟨t, ino, hi⟩
    obtain ⟨rfl, -⟩ := Phase.inside.inj (hi.symm.trans hu)
    exact ⟨t', State.setProc_self s j _⟩
  · exact absurd ⟨t', ino, State.setProc_self s i _⟩ (hfree i)
  · obtain ⟨k, hj⟩ := hj
    obtain ⟨rfl, rfl, rfl⟩ := hprocs hj
    exact hg

/-- Every step keeps the rule. -/
lemma Sound.step (hP : Lawful P R H) {s s' : State γ τ} (hs : Sound R H s) (h : Steps P s s') :
    Sound R H s' := by
  cases h with
  | openFile i ino hi => exact hs.openFile hi
  | lock i ino hi hfree => exact hs.enter hP hi hfree
  | refuse i ino j hi =>
      refine hs.away (fun k t h => ?_) trivial id fun _ _ _ => id
      rw [hi] at h
      cases h
  | work i ino t t' a g hi hwork => exact hs.working hi (hP.work (hs.held ⟨ino, hi⟩) hwork)
  | leave i ino t a g hi hwork =>
      exact hs.leaving hi trivial (hP.leave (hs.held ⟨ino, hi⟩) hwork)
  | killInside i ino t hi => exact hs.leaving hi trivial (hP.killed (hs.held ⟨ino, hi⟩))
  | kill i hi => exact hs.away hi trivial hP.gone fun _ _ hij => hP.other hij

/-- The rule for runs. -/
theorem Sound.exec (hP : Lawful P R H) {s s' : State γ τ} {moves : List (Move α)}
    (hs : Sound R H s) (hrun : Run.exec (FileLock.step P) s moves = some s') : Sound R H s' :=
  Run.exec_invariant (FileLock.step P)
    (fun _ _ _ hs h => hs.step hP (steps_of_step h)) hs hrun

/-- A process that has not begun comes in, if nobody is inside. -/
lemma Sound.exec_enter {s : State γ τ} (hs : Sound R H s) {i : ℕ} (hi : s.procs i = .unborn)
    (hout : ∀ j, ¬ s.Inside j) :
    ∃ ino s', Run.exec (FileLock.step P) s [.openFile i ino, .tryLock i] = some s' ∧
      s'.procs i = .inside (s.file.getD ino) P.enter ∧ s'.shared = s.shared := by
  have hfree : s.lockedBy (s.file.getD 0) = none := by
    cases hlock : s.lockedBy (s.file.getD 0) with
    | none => rfl
    | some j =>
        obtain ⟨t, hj⟩ := hs.locked hlock
        exact absurd ⟨t, _, hj⟩ (hout j)
  refine ⟨0, { ({ s.setProc i (.opened (s.file.getD 0)) with file := some (s.file.getD 0) } :
      State γ τ).setProc i (.inside (s.file.getD 0) P.enter) with
    lockedBy := Function.update s.lockedBy (s.file.getD 0) (some i) }, ?_, ?_, rfl⟩
  · have hopen : FileLock.step P s (.openFile i 0) = some
        { s.setProc i (.opened (s.file.getD 0)) with file := some (s.file.getD 0) } := by
      simp only [FileLock.step, hi]
    have hlock : FileLock.step P
        { s.setProc i (.opened (s.file.getD 0)) with file := some (s.file.getD 0) }
        (.tryLock i) = some
          { ({ s.setProc i (.opened (s.file.getD 0)) with file := some (s.file.getD 0) } :
            State γ τ).setProc i (.inside (s.file.getD 0) P.enter) with
          lockedBy := Function.update s.lockedBy (s.file.getD 0) (some i) } := by
      simp only [FileLock.step, State.setProc, Function.update_self, hfree]
    rw [Run.exec_cons, hopen, Option.bind_some, Run.exec_cons, hlock, Option.bind_some,
      Run.exec_nil]
  · exact State.setProc_self _ i _

end Sound

end FileLock
