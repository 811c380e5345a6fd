import Mathlib.Algebra.GroupWithZero.Nat
import Mathlib.Data.List.Perm.Basic
import DeepFinder.Lib.Run

/-!
# Following a changing world

A world changes, and the keys at which it changed are reported.  A follower collects the reports in
batches, looks at each key and notes what it sees; the world may change between any two looks, and
behind a key already looked at.  From time to time the follower starts over: what it noted before is
subsumed by the world as it was when it started over.

If every change is reported, then once all reports are dealt with the last note on a key is what a
look at the key would give now (`Tracks.exec`, `Tracks.fresh`).  A key that was out of date before
the changes began is one too as soon as a report names it (`Tracks.of_reported`).  A follower that
is left alone gets there, however it and its reports take turns: each move lowers the number of moves
left (`length_le_weight`), and with a report to deal with there is a move to make
(`quiet_or_moves`).
-/

namespace ChangeFeed

/-- A computation that looks at one thing, every time as it then is. -/
inductive Probe (V R : Type) where
  | done (r : R)
  | look (next : V → Probe V R)

def Probe.run {V R : Type} : Probe V R → V → R
  | .done r, _ => r
  | .look next, v => (next v).run v

def Probe.bind {V R T : Type} : Probe V R → (R → Probe V T) → Probe V T
  | .done r, f => f r
  | .look next, f => .look fun v => (next v).bind f

/-- Whatever there is to see, the outcome meets `Q`. -/
def Probe.All {V R : Type} (Q : R → Prop) : Probe V R → Prop
  | .done r => Q r
  | .look next => ∀ v, (next v).All Q

@[simp] lemma Probe.run_done {V R : Type} (r : R) (v : V) : (Probe.done r).run v = r := rfl

@[simp] lemma Probe.run_look {V R : Type} (next : V → Probe V R) (v : V) :
    (Probe.look next).run v = (next v).run v := rfl

@[simp] lemma Probe.run_bind {V R T : Type} (p : Probe V R) (f : R → Probe V T) (v : V) :
    (p.bind f).run v = (f (p.run v)).run v := by
  induction p with
  | done r => rfl
  | look next ih => exact ih v

lemma Probe.All.bind {V R T : Type} {P : R → Prop} {Q : T → Prop} {p : Probe V R}
    {f : R → Probe V T} (hp : p.All P) (hf : ∀ r, P r → (f r).All Q) : (p.bind f).All Q := by
  induction p with
  | done r => exact hf r hp
  | look next ih => exact fun v => ih v (hp v)

lemma Probe.all_true {V R : Type} (p : Probe V R) : p.All fun _ => True := by
  induction p with
  | done r => trivial
  | look next ih => exact ih

/-- What there is to see at a key, how the follower looks at it under the settings of the batch, and
whether its notes are enough to start over. -/
structure Follower (W S K V R : Type) where
  view : W → K → V
  probe : S → K → Probe V R
  full : List (K × R) → Bool

/-- What the follower is doing. -/
inductive Phase (W S K V R : Type) where
  | waiting
  /-- a batch is collected, before the pause or after it -/
  | draining (batch : List K) (paused : Bool)
  /-- a batch is gone through -/
  | probing (settings : S) (todo : List K) (now : Option (K × Probe V R)) (found : List (K × R))
  /-- a batch is noted -/
  | noted
  | rebuilding (since : W)

structure State (W S K V R : Type) where
  world : W
  settings : S
  /-- the reports on their way into the queue -/
  reported : List K
  queue : List K
  phase : Phase W S K V R
  notes : List (K × R)
  /-- the world that the notes started from -/
  base : W
  /-- the settings that batches were gone through under -/
  seen : List S

/-- What happens next. -/
inductive Move (W S K : Type) where
  | change (world : W) (keys : List K)
  | configure (settings : S)
  | deliver (i : ℕ)
  | receive
  /-- the queue is empty, for the first time in a batch -/
  | pause
  | begin
  | take
  | look
  | note
  | rest
  | rebuild
  | finish (ok : Bool)

def Move.Inner {W S K : Type} : Move W S K → Prop
  | .change _ _ | .configure _ => False
  | _ => True

variable {W S K V R : Type} (F : Follower W S K V R)

/-- One step. -/
def step (s : State W S K V R) : Move W S K → Option (State W S K V R)
  | .change world keys => some { s with world := world, reported := s.reported ++ keys }
  | .configure settings => some { s with settings := settings }
  | .deliver i =>
      (s.reported[i]?).map fun k =>
        { s with reported := s.reported.eraseIdx i, queue := s.queue ++ [k] }
  | .receive =>
      match s.phase, s.queue with
      | .waiting, k :: queue => some { s with queue := queue, phase := .draining [k] false }
      | .draining batch paused, k :: queue =>
          some { s with queue := queue, phase := .draining (batch ++ [k]) paused }
      | _, _ => none
  | .pause =>
      match s.phase, s.queue with
      | .draining batch false, [] => some { s with phase := .draining batch true }
      | _, _ => none
  | .begin =>
      match s.phase, s.queue with
      | .draining batch true, [] =>
          some { s with phase := .probing s.settings batch none [], seen := s.seen ++ [s.settings] }
      | _, _ => none
  | .take =>
      match s.phase with
      | .probing c (k :: todo) none found =>
          some { s with phase := .probing c todo (some (k, F.probe c k)) found }
      | _ => none
  | .look =>
      match s.phase with
      | .probing c todo (some (k, .look next)) found =>
          some { s with phase := .probing c todo (some (k, next (F.view s.world k))) found }
      | .probing c todo (some (k, .done r)) found =>
          some { s with phase := .probing c todo none (found ++ [(k, r)]) }
      | _ => none
  | .note =>
      match s.phase with
      | .probing _ [] none found => some { s with phase := .noted, notes := s.notes ++ found }
      | _ => none
  | .rest =>
      match s.phase with
      | .noted => some { s with phase := .waiting }
      | _ => none
  | .rebuild =>
      match s.phase with
      | .noted => if F.full s.notes then some { s with phase := .rebuilding s.world } else none
      | _ => none
  | .finish ok =>
      match s.phase with
      | .rebuilding since =>
          if ok then some { s with phase := .waiting, notes := [], base := since }
          else some { s with phase := .waiting }
      | _ => none

def Reports (k : K) (s : State W S K V R) : Move W S K → Prop
  | .change world keys => F.view world k ≠ F.view s.world k → k ∈ keys
  | _ => True

/-- Every report is dealt with: none is on its way or in the queue, and the follower waits for the
next one. -/
structure State.Quiet (s : State W S K V R) : Prop where
  reported : s.reported = []
  queue : s.queue = []
  phase : s.phase = .waiting

variable {F}

/-! ## What a step does -/

/-- The moves of a follower and its world. -/
inductive Moves (F : Follower W S K V R) (s : State W S K V R) :
    Move W S K → State W S K V R → Prop where
  | change (world : W) (keys : List K) :
      Moves F s (.change world keys) { s with world := world, reported := s.reported ++ keys }
  | configure (settings : S) : Moves F s (.configure settings) { s with settings := settings }
  | deliver (i : ℕ) (k : K) (hi : s.reported[i]? = some k) :
      Moves F s (.deliver i)
        { s with reported := s.reported.eraseIdx i, queue := s.queue ++ [k] }
  | receive (k : K) (queue batch : List K) (paused : Bool) (hqueue : s.queue = k :: queue)
      (hphase : s.phase = .waiting ∧ batch = [] ∨ s.phase = .draining batch paused) :
      Moves F s .receive { s with queue := queue, phase := .draining (batch ++ [k]) paused }
  | pause (batch : List K) (hphase : s.phase = .draining batch false) (hqueue : s.queue = []) :
      Moves F s .pause { s with phase := .draining batch true }
  | begin (batch : List K) (hphase : s.phase = .draining batch true) (hqueue : s.queue = []) :
      Moves F s .begin
        { s with phase := .probing s.settings batch none [], seen := s.seen ++ [s.settings] }
  | take (c : S) (k : K) (todo : List K) (found : List (K × R))
      (hphase : s.phase = .probing c (k :: todo) none found) :
      Moves F s .take { s with phase := .probing c todo (some (k, F.probe c k)) found }
  | look (c : S) (todo : List K) (k : K) (next : V → Probe V R) (found : List (K × R))
      (hphase : s.phase = .probing c todo (some (k, .look next)) found) :
      Moves F s .look
        { s with phase := .probing c todo (some (k, next (F.view s.world k))) found }
  | found (c : S) (todo : List K) (k : K) (r : R) (found : List (K × R))
      (hphase : s.phase = .probing c todo (some (k, .done r)) found) :
      Moves F s .look { s with phase := .probing c todo none (found ++ [(k, r)]) }
  | note (c : S) (found : List (K × R)) (hphase : s.phase = .probing c [] none found) :
      Moves F s .note { s with phase := .noted, notes := s.notes ++ found }
  | rest (hphase : s.phase = .noted) : Moves F s .rest { s with phase := .waiting }
  | rebuild (hphase : s.phase = .noted) (hfull : F.full s.notes = true) :
      Moves F s .rebuild { s with phase := .rebuilding s.world }
  | replaced (since : W) (hphase : s.phase = .rebuilding since) :
      Moves F s (.finish true) { s with phase := .waiting, notes := [], base := since }
  | kept (since : W) (hphase : s.phase = .rebuilding since) :
      Moves F s (.finish false) { s with phase := .waiting }

section Step

variable {s s' : State W S K V R} {m : Move W S K}

lemma moves_of_step (h : step F s m = some s') : Moves F s m s' := by
  cases m with
  | change world keys =>
      obtain rfl := Option.some.inj h
      exact .change world keys
  | configure settings =>
      obtain rfl := Option.some.inj h
      exact .configure settings
  | deliver i =>
      obtain ⟨k, hk, rfl⟩ := Option.map_eq_some_iff.mp h
      exact .deliver i k hk
  | receive =>
      simp only [step] at h
      split at h
      · rename_i k queue hphase hqueue
        obtain rfl := Option.some.inj h
        exact .receive k queue [] false hqueue (Or.inl ⟨hphase, rfl⟩)
      · rename_i batch paused k queue hphase hqueue
        obtain rfl := Option.some.inj h
        exact .receive k queue batch paused hqueue (Or.inr hphase)
      · cases h
  | pause =>
      simp only [step] at h
      split at h
      · rename_i batch hphase hqueue
        obtain rfl := Option.some.inj h
        exact .pause batch hphase hqueue
      · cases h
  | begin =>
      simp only [step] at h
      split at h
      · rename_i batch hphase hqueue
        obtain rfl := Option.some.inj h
        exact .begin batch hphase hqueue
      · cases h
  | take =>
      simp only [step] at h
      split at h
      · rename_i c k todo found hphase
        obtain rfl := Option.some.inj h
        exact .take c k todo found hphase
      · cases h
  | look =>
      simp only [step] at h
      split at h
      · rename_i c todo k next found hphase
        obtain rfl := Option.some.inj h
        exact .look c todo k next found hphase
      · rename_i c todo k r found hphase
        obtain rfl := Option.some.inj h
        exact .found c todo k r found hphase
      · cases h
  | note =>
      simp only [step] at h
      split at h
      · rename_i c found hphase
        obtain rfl := Option.some.inj h
        exact .note c found hphase
      · cases h
  | rest =>
      simp only [step] at h
      split at h
      · rename_i hphase
        obtain rfl := Option.some.inj h
        exact .rest hphase
      · cases h
  | rebuild =>
      simp only [step] at h
      split at h
      · rename_i hphase
        obtain ⟨hfull, rfl⟩ := Run.of_enabled h
        exact .rebuild hphase hfull
      · cases h
  | finish ok =>
      simp only [step] at h
      split at h
      · rename_i since hphase
        cases ok with
        | true =>
            obtain rfl := Option.some.inj h
            exact .replaced since hphase
        | false =>
            obtain rfl := Option.some.inj h
            exact .kept since hphase
      · cases h

end Step

/-! ## Nothing is overlooked -/

lemma mem_eraseIdx_or_eq {l : List K} {i : ℕ} {a k : K} (hi : l[i]? = some a) (h : k ∈ l) :
    k ∈ l.eraseIdx i ∨ k = a := by
  obtain ⟨j, hj⟩ := List.mem_iff_getElem?.mp h
  by_cases hij : j = i
  · rw [hij, hi] at hj
    exact Or.inr (Option.some.inj hj).symm
  · exact Or.inl (List.mem_eraseIdx_iff_getElem?.mpr ⟨j, hij, hj⟩)

section Fresh

variable [DecidableEq K]

def lastNote (notes : List (K × R)) (k : K) : Option R :=
  (notes.reverse.find? fun n => decide (n.1 = k)).map Prod.snd

@[simp] lemma lastNote_nil (k : K) : lastNote ([] : List (K × R)) k = none := rfl

lemma exists_of_lastNote {notes : List (K × R)} {k : K} {r : R} (h : lastNote notes k = some r) :
    ∃ n ∈ notes, n.1 = k ∧ n.2 = r := by
  obtain ⟨n, hn, rfl⟩ := Option.map_eq_some_iff.mp h
  exact ⟨n, List.mem_reverse.mp (List.mem_of_find?_eq_some hn), by simpa using List.find?_some hn,
    rfl⟩

lemma lastNote_concat (notes : List (K × R)) (a k : K) (r : R) :
    lastNote (notes ++ [(a, r)]) k = if a = k then some r else lastNote notes k := by
  unfold lastNote
  by_cases h : a = k <;> simp [h]

variable (F) in
/-- The last note is what a look at the key would give now, under settings that a batch was gone
through under; without a note, the key is as the notes started from. -/
def Fresh (s : State W S K V R) (notes : List (K × R)) (k : K) : Prop :=
  match lastNote notes k with
  | some r => ∃ c ∈ s.seen, r = (F.probe c k).run (F.view s.world k)
  | none => F.view s.world k = F.view s.base k

variable (F) in
/-- How the follower will come to know of a key, unless a report on it is still to come. -/
def Heeded (s : State W S K V R) (k : K) : Prop :=
  match s.phase with
  | .waiting | .noted => Fresh F s s.notes k
  | .draining batch _ => k ∈ batch ∨ Fresh F s s.notes k
  | .probing c todo none found => c ∈ s.seen ∧ (k ∈ todo ∨ Fresh F s (s.notes ++ found) k)
  | .probing c todo (some (a, p)) found =>
      c ∈ s.seen ∧ (k ∈ todo ∨
        (a = k ∧ p.run (F.view s.world k) = (F.probe c k).run (F.view s.world k)) ∨
        (a ≠ k ∧ Fresh F s (s.notes ++ found) k))
  | .rebuilding since =>
      F.view s.world k = F.view since k ∧ Fresh F s s.notes k

variable (F) in
/-- A key has a report to come, or the follower heeds it. -/
def Tracks (k : K) (s : State W S K V R) : Prop :=
  k ∈ s.reported ∨ k ∈ s.queue ∨ Heeded F s k

variable {s s' : State W S K V R} {k : K}

/-- What is fresh depends on the key alone. -/
lemma Fresh.congr {notes : List (K × R)} (h : Fresh F s notes k)
    (hview : F.view s'.world k = F.view s.world k) (hbase : s'.base = s.base)
    (hseen : ∀ c ∈ s.seen, c ∈ s'.seen) : Fresh F s' notes k := by
  unfold Fresh at h ⊢
  cases hlast : lastNote notes k with
  | none =>
      rw [hlast] at h
      dsimp only at h ⊢
      rw [hview, hbase, h]
  | some r =>
      rw [hlast] at h
      obtain ⟨c, hc, hr⟩ := h
      exact ⟨c, hseen c hc, by rw [hview, hr]⟩

lemma fresh_concat {notes : List (K × R)} {a : K} {r : R} :
    Fresh F s (notes ++ [(a, r)]) k ↔
      (a = k ∧ ∃ c ∈ s.seen, r = (F.probe c k).run (F.view s.world k)) ∨
        (a ≠ k ∧ Fresh F s notes k) := by
  unfold Fresh
  rw [lastNote_concat]
  by_cases h : a = k
  · simp [h]
  · simp [h]

/-- A step of the world that leaves the key as it is. -/
lemma Heeded.congr (h : Heeded F s k) (hphase : s'.phase = s.phase) (hnotes : s'.notes = s.notes)
    (hview : F.view s'.world k = F.view s.world k) (hbase : s'.base = s.base)
    (hseen : s'.seen = s.seen) : Heeded F s' k := by
  have hfresh : ∀ notes, Fresh F s notes k → Fresh F s' notes k := fun notes hf =>
    hf.congr hview hbase fun c hc => hseen ▸ hc
  unfold Heeded at h ⊢
  rw [hphase, hnotes, hview, hseen]
  cases hp : s.phase with
  | waiting =>
      rw [hp] at h
      exact hfresh _ h
  | noted =>
      rw [hp] at h
      exact hfresh _ h
  | draining batch paused =>
      rw [hp] at h
      exact h.imp_right (hfresh _)
  | rebuilding since =>
      rw [hp] at h
      exact ⟨h.1, hfresh _ h.2⟩
  | probing c todo now found =>
      rw [hp] at h
      cases now with
      | none => exact ⟨h.1, h.2.imp_right (hfresh _)⟩
      | some ap =>
          obtain ⟨a, p⟩ := ap
          exact ⟨h.1, h.2.imp_right fun h => h.imp_right fun h => ⟨h.1, hfresh _ h.2⟩⟩

/-- Every step whose change of the key, if it makes one, is reported. -/
lemma Tracks.moves {m : Move W S K} (h : Tracks F k s) (hrep : Reports F k s m)
    (hmove : Moves F s m s') : Tracks F k s' := by
  cases hmove with
  | change world keys =>
      -- The change of the key is reported, or it leaves the view of the key as it was.
      by_cases hview : F.view world k = F.view s.world k
      · refine h.imp (fun h => List.mem_append_left _ h) (Or.imp_right fun h => ?_)
        exact h.congr rfl rfl hview rfl rfl
      · exact Or.inl (List.mem_append_right _ (hrep hview))
  | configure settings =>
      exact h.imp_right (Or.imp_right fun h => h.congr rfl rfl rfl rfl rfl)
  | deliver i a hi =>
      rcases h with h | h | h
      · rcases mem_eraseIdx_or_eq hi h with h | rfl
        · exact Or.inl h
        · exact Or.inr (Or.inl (by simp))
      · exact Or.inr (Or.inl (List.mem_append_left _ h))
      · exact Or.inr (Or.inr (h.congr rfl rfl rfl rfl rfl))
  | receive a queue batch paused hqueue hphase =>
      -- The report in front moves from the queue into the batch, where it is heeded.
      rcases h with h | h | h
      · exact Or.inl h
      · rw [hqueue, List.mem_cons] at h
        rcases h with rfl | h
        · exact Or.inr (Or.inr (Or.inl (by simp)))
        · exact Or.inr (Or.inl h)
      · refine Or.inr (Or.inr ?_)
        rcases hphase with ⟨hphase, -⟩ | hphase
        · simp only [Heeded, hphase] at h
          exact Or.inr (h.congr rfl rfl fun _ hc => hc)
        · simp only [Heeded, hphase] at h
          exact h.imp (List.mem_append_left _) fun h => h.congr rfl rfl fun _ hc => hc
  | pause batch hphase hqueue =>
      refine h.imp_right (Or.imp_right fun h => ?_)
      simp only [Heeded, hphase] at h
      exact h.imp_right fun h => h.congr rfl rfl fun _ hc => hc
  | begin batch hphase hqueue =>
      refine h.imp_right (Or.imp_right fun h => ?_)
      simp only [Heeded, hphase] at h
      refine ⟨by simp, h.imp_right fun h => ?_⟩
      rw [List.append_nil]
      exact h.congr rfl rfl fun _ hc => List.mem_append_left _ hc
  | take c a todo found hphase =>
      -- The key that is taken is looked at now, and nothing has been found of it; another key
      -- leaves the reports on this one as they are.
      refine h.imp_right (Or.imp_right fun h => ?_)
      simp only [Heeded, hphase] at h
      obtain ⟨hc, h⟩ := h
      refine ⟨hc, ?_⟩
      by_cases ha : a = k
      · exact Or.inr (Or.inl ⟨ha, by rw [ha]⟩)
      · rcases h with h | h
        · exact Or.inl ((List.mem_cons.mp h).resolve_left (Ne.symm ha))
        · exact Or.inr (Or.inr ⟨ha, h.congr rfl rfl fun _ hc => hc⟩)
  | look c todo a next found hphase =>
      refine h.imp_right (Or.imp_right fun h => ?_)
      simp only [Heeded, hphase] at h
      refine ⟨h.1, h.2.imp_right (Or.imp ?_ ?_)⟩
      · rintro ⟨rfl, hrun⟩
        exact ⟨rfl, hrun⟩
      · rintro ⟨ha, h⟩
        exact ⟨ha, h.congr rfl rfl fun _ hc => hc⟩
  | found c todo a r found hphase =>
      -- What was found of the key is the outcome of its probe under settings that were read in this
      -- pass.
      refine h.imp_right (Or.imp_right fun h => ?_)
      simp only [Heeded, hphase] at h
      obtain ⟨hc, h⟩ := h
      refine ⟨hc, h.imp_right fun h => ?_⟩
      rw [← List.append_assoc]
      refine fresh_concat.mpr (h.imp ?_ ?_)
      · rintro ⟨rfl, hrun⟩
        exact ⟨rfl, c, hc, hrun⟩
      · rintro ⟨ha, h⟩
        exact ⟨ha, h.congr rfl rfl fun _ hc => hc⟩
  | note c found hphase =>
      refine h.imp_right (Or.imp_right fun h => ?_)
      simp only [Heeded, hphase] at h
      obtain ⟨-, h | h⟩ := h
      · cases h
      · exact h.congr rfl rfl fun _ hc => hc
  | rest hphase =>
      refine h.imp_right (Or.imp_right fun h => ?_)
      simp only [Heeded, hphase] at h
      exact h.congr rfl rfl fun _ hc => hc
  | rebuild hphase hfull =>
      refine h.imp_right (Or.imp_right fun h => ?_)
      simp only [Heeded, hphase] at h
      exact ⟨rfl, h.congr rfl rfl fun _ hc => hc⟩
  | replaced since hphase =>
      refine h.imp_right (Or.imp_right fun h => ?_)
      simp only [Heeded, hphase] at h
      exact h.1
  | kept since hphase =>
      refine h.imp_right (Or.imp_right fun h => ?_)
      simp only [Heeded, hphase] at h
      exact h.2.congr rfl rfl fun _ hc => hc

/-- After every run in which the changes of the key are reported. -/
theorem Tracks.exec {moves : List (Move W S K)} (h : Tracks F k s)
    (hrep : Run.Guarded (step F) (Reports F k) s moves)
    (hrun : Run.exec (step F) s moves = some s') : Tracks F k s' :=
  Run.exec_invariant_of_guarded (step F)
    (fun _ _ _ hrep h hstep => h.moves hrep (moves_of_step hstep)) h hrep hrun

/-- A key that some report of the run names, whatever was noted of it before. -/
theorem Tracks.of_reported {moves : List (Move W S K)} {world : W} {keys : List K}
    (hchange : .change world keys ∈ moves) (hk : k ∈ keys)
    (hrep : Run.Guarded (step F) (Reports F k) s moves)
    (hrun : Run.exec (step F) s moves = some s') : Tracks F k s' := by
  obtain ⟨before, after, rfl⟩ := List.append_of_mem hchange
  rw [Run.exec_append] at hrun
  obtain ⟨s₁, hbefore, hrest⟩ := Option.bind_eq_some_iff.mp hrun
  obtain ⟨s₂, hstep, hafter⟩ := Option.bind_eq_some_iff.mp hrest
  obtain rfl := Option.some.inj hstep
  have htracks : Tracks F k { s₁ with world := world, reported := s₁.reported ++ keys } :=
    Or.inl (List.mem_append_right _ hk)
  exact htracks.exec ((hrep.right (step F) hbefore).tail (step F) hstep) hafter

lemma Tracks.fresh (h : Tracks F k s) (hquiet : s.Quiet) : Fresh F s s.notes k := by
  rcases h with h | h | h
  · simp [hquiet.reported] at h
  · simp [hquiet.queue] at h
  · simpa only [Heeded, hquiet.phase] using h

end Fresh

/-! ## Nothing is made up -/

section Confined

variable {s s' : State W S K V R} {C : K → Prop} {Q : K → R → Prop}

/-- Only keys that meet `C` are about, and what is noted of them meets `Q`. -/
structure Confined (C : K → Prop) (Q : K → R → Prop) (s : State W S K V R) : Prop where
  reported : ∀ k ∈ s.reported, C k
  queue : ∀ k ∈ s.queue, C k
  notes : ∀ n ∈ s.notes, C n.1 ∧ Q n.1 n.2
  phase : match s.phase with
    | .draining batch _ => ∀ k ∈ batch, C k
    | .probing _ todo now found => (∀ k ∈ todo, C k) ∧ (∀ a ∈ now, C a.1 ∧ a.2.All (Q a.1)) ∧
        ∀ n ∈ found, C n.1 ∧ Q n.1 n.2
    | _ => True

/-- A change reports only keys that meet `C`. -/
def ReportsOnly (C : K → Prop) : Move W S K → Prop
  | .change _ keys => ∀ k ∈ keys, C k
  | _ => True

lemma Confined.moves {m : Move W S K} (hQ : ∀ c k, (F.probe c k).All (Q k))
    (h : Confined C Q s) (hrep : ReportsOnly C m) (hmove : Moves F s m s') : Confined C Q s' := by
  obtain ⟨hreported, hqueue, hnotes, hphase⟩ := h
  cases hmove with
  | change world keys =>
      refine ⟨?_, hqueue, hnotes, hphase⟩
      intro k hk
      exact (List.mem_append.mp hk).elim (hreported k) (hrep k)
  | configure settings => exact ⟨hreported, hqueue, hnotes, hphase⟩
  | deliver i a hi =>
      refine ⟨fun k hk => hreported k (List.mem_of_mem_eraseIdx hk), ?_, hnotes, hphase⟩
      intro k hk
      rcases List.mem_append.mp hk with hk | hk
      · exact hqueue k hk
      · obtain rfl := List.mem_singleton.mp hk
        exact hreported k (List.mem_of_getElem? hi)
  | receive a queue batch paused hq hp =>
      rw [hq] at hqueue
      refine ⟨hreported, fun k hk => hqueue k (List.mem_cons_of_mem _ hk), hnotes, ?_⟩
      intro k hk
      rcases List.mem_append.mp hk with hk | hk
      · rcases hp with ⟨-, rfl⟩ | hp
        · cases hk
        · rw [hp] at hphase
          exact hphase k hk
      · obtain rfl := List.mem_singleton.mp hk
        exact hqueue k (List.mem_cons_self ..)
  | pause batch hp hq =>
      rw [hp] at hphase
      exact ⟨hreported, hqueue, hnotes, hphase⟩
  | begin batch hp hq =>
      rw [hp] at hphase
      exact ⟨hreported, hqueue, hnotes, hphase, by simp, by simp⟩
  | take c k todo found hp =>
      rw [hp] at hphase
      obtain ⟨htodo, -, hfound⟩ := hphase
      refine ⟨hreported, hqueue, hnotes, fun a ha => htodo a (List.mem_cons_of_mem _ ha), ?_,
        hfound⟩
      rintro a ⟨⟩
      exact ⟨htodo k (List.mem_cons_self ..), hQ c k⟩
  | look c todo k next found hp =>
      rw [hp] at hphase
      obtain ⟨htodo, hnow, hfound⟩ := hphase
      refine ⟨hreported, hqueue, hnotes, htodo, ?_, hfound⟩
      rintro a ⟨⟩
      obtain ⟨hk, hall⟩ := hnow _ rfl
      exact ⟨hk, hall _⟩
  | found c todo k r found hp =>
      rw [hp] at hphase
      obtain ⟨htodo, hnow, hfound⟩ := hphase
      refine ⟨hreported, hqueue, hnotes, htodo, by simp, ?_⟩
      intro n hn
      rcases List.mem_append.mp hn with hn | hn
      · exact hfound n hn
      · obtain rfl := List.mem_singleton.mp hn
        exact hnow _ rfl
  | note c found hp =>
      rw [hp] at hphase
      refine ⟨hreported, hqueue, ?_, trivial⟩
      intro n hn
      exact (List.mem_append.mp hn).elim (hnotes n) (hphase.2.2 n)
  | rest hp => exact ⟨hreported, hqueue, hnotes, trivial⟩
  | rebuild hp hfull => exact ⟨hreported, hqueue, hnotes, trivial⟩
  | replaced since hp => exact ⟨hreported, hqueue, by simp, trivial⟩
  | kept since hp => exact ⟨hreported, hqueue, hnotes, trivial⟩

/-- After every run that reports no other key. -/
theorem Confined.exec {moves : List (Move W S K)} (hQ : ∀ c k, (F.probe c k).All (Q k))
    (h : Confined C Q s) (hrep : Run.Guarded (step F) (fun _ => ReportsOnly C) s moves)
    (hrun : Run.exec (step F) s moves = some s') : Confined C Q s' :=
  Run.exec_invariant_of_guarded (step F)
    (fun _ _ _ hrep h hstep => h.moves hQ hrep (moves_of_step hstep)) h hrep hrun

end Confined

/-! ## The worlds of a run -/

section Worlds

variable {s s' : State W S K V R} {P : W → Prop}

/-- The worlds that a state knows of meet `P`. -/
structure Worlds (P : W → Prop) (s : State W S K V R) : Prop where
  world : P s.world
  base : P s.base
  since : ∀ since, s.phase = .rebuilding since → P since

/-- A change leads to a world that meets `P`. -/
def ChangesTo (P : W → Prop) : Move W S K → Prop
  | .change world _ => P world
  | _ => True

lemma Worlds.moves {m : Move W S K} (h : Worlds P s) (hchange : ChangesTo P m)
    (hmove : Moves F s m s') : Worlds P s' := by
  obtain ⟨hworld, hbase, hsince⟩ := h
  cases hmove with
  | change world keys => exact ⟨hchange, hbase, hsince⟩
  | configure settings => exact ⟨hworld, hbase, hsince⟩
  | deliver i a hi => exact ⟨hworld, hbase, hsince⟩
  | rebuild hp hfull =>
      refine ⟨hworld, hbase, ?_⟩
      rintro since ⟨⟩
      exact hworld
  | replaced since hp => exact ⟨hworld, hsince since hp, by simp⟩
  | receive | pause | begin | take | look | found | note | rest | kept =>
      exact ⟨hworld, hbase, by simp⟩

/-- After every run that changes the world so. -/
theorem Worlds.exec {moves : List (Move W S K)} (h : Worlds P s)
    (hchange : Run.Guarded (step F) (fun _ => ChangesTo P) s moves)
    (hrun : Run.exec (step F) s moves = some s') : Worlds P s' :=
  Run.exec_invariant_of_guarded (step F)
    (fun _ _ _ hchange h hstep => h.moves hchange (moves_of_step hstep)) h hchange hrun

end Worlds

/-! ## The follower comes to rest -/

section Rest

variable {s s' : State W S K V R}

variable (F) in
/-- The follower and its reports can move from one state to another. -/
def Leads (s s' : State W S K V R) : Prop :=
  ∃ moves : List (Move W S K), (∀ m ∈ moves, m.Inner) ∧ Run.exec (step F) s moves = some s'

lemma guarded_inner {ok : State W S K V R → Move W S K → Prop}
    (hok : ∀ s (m : Move W S K), m.Inner → ok s m) {moves : List (Move W S K)}
    (hinner : ∀ m ∈ moves, m.Inner) (s : State W S K V R) : Run.Guarded (step F) ok s moves :=
  (Run.guarded_of_forall (step F) hinner s).mono (step F) hok

lemma Tracks.leads [DecidableEq K] {k : K} (h : Tracks F k s) (hleads : Leads F s s') :
    Tracks F k s' := by
  obtain ⟨moves, hinner, hrun⟩ := hleads
  refine h.exec (guarded_inner (fun s m hm => ?_) hinner s) hrun
  cases m with
  | change world keys => exact hm.elim
  | _ => trivial

lemma Confined.leads {C : K → Prop} {Q : K → R → Prop} (hQ : ∀ c k, (F.probe c k).All (Q k))
    (h : Confined C Q s) (hleads : Leads F s s') : Confined C Q s' := by
  obtain ⟨moves, hinner, hrun⟩ := hleads
  refine h.exec hQ (guarded_inner (fun s m hm => ?_) hinner s) hrun
  cases m with
  | change world keys => exact hm.elim
  | _ => trivial

/-- The looks that a computation makes at a thing that stays the same. -/
def Probe.steps : Probe V R → V → ℕ
  | .done _, _ => 0
  | .look next, v => (next v).steps v + 1

variable (F) in
/-- The moves that a key of a batch takes: it is taken up, looked at, and what was found kept. -/
def cost (world : W) (c : S) (k : K) : ℕ := (F.probe c k).steps (F.view world k) + 2

variable (F) in
/-- The moves that are left of a phase, at most. -/
def Phase.weight (world : W) (settings : S) : Phase W S K V R → ℕ
  | .waiting => 0
  | .draining batch false => (batch.map (cost F world settings)).sum + 5
  | .draining batch true => (batch.map (cost F world settings)).sum + 4
  | .probing c todo none _ => (todo.map (cost F world c)).sum + 3
  | .probing c todo (some (k, p)) _ =>
      (todo.map (cost F world c)).sum + (p.steps (F.view world k) + 1) + 3
  | .noted => 2
  | .rebuilding _ => 1

variable (F) in
/-- The moves that are left, at most.  A key in the queue may get a batch of its own: it is
received, and the batch pauses, begins, is noted and starts a rebuild, which ends; that makes six
moves beside those of the key.  A report has to be delivered first. -/
def State.weight (s : State W S K V R) : ℕ :=
  (s.reported.map fun k => cost F s.world s.settings k + 7).sum +
    (s.queue.map fun k => cost F s.world s.settings k + 6).sum + s.phase.weight F s.world s.settings

/-- Every move of the follower and its reports is one of those that were left. -/
lemma weight_lt {m : Move W S K} (hm : m.Inner) (h : Moves F s m s') :
    s'.weight F < s.weight F := by
  unfold State.weight
  cases h with
  | change world keys => exact hm.elim
  | configure settings => exact hm.elim
  | deliver i k hi =>
      obtain ⟨hlt, rfl⟩ := List.getElem?_eq_some_iff.mp hi
      have hsum := ((List.getElem_cons_eraseIdx_perm hlt).map
        fun k => cost F s.world s.settings k + 7).sum_nat
      simp only [List.map_cons, List.sum_cons] at hsum
      simp only [List.map_append, List.sum_append, List.map_cons, List.map_nil, List.sum_cons,
        List.sum_nil]
      omega
  | receive k queue batch paused hqueue hphase =>
      -- the key leaves the queue for the batch; a new batch has all its moves to make
      rw [hqueue, List.map_cons, List.sum_cons]
      rcases hphase with ⟨hphase, rfl⟩ | hphase <;> rw [hphase] <;> cases paused <;>
        simp only [Phase.weight, List.map_append, List.sum_append, List.map_cons, List.map_nil,
          List.sum_cons, List.sum_nil] <;> omega
  | pause batch hphase hqueue =>
      rw [hphase]
      simp [Phase.weight]
  | begin batch hphase hqueue =>
      rw [hphase]
      simp [Phase.weight]
  | take c k todo found hphase =>
      rw [hphase]
      simp only [Phase.weight, List.map_cons, List.sum_cons, cost]
      omega
  | look c todo k next found hphase =>
      rw [hphase]
      simp only [Phase.weight, Probe.steps]
      omega
  | found c todo k r found hphase =>
      rw [hphase]
      simp only [Phase.weight, Probe.steps]
      omega
  | note c found hphase =>
      rw [hphase]
      simp [Phase.weight]
  | rest hphase =>
      rw [hphase]
      simp [Phase.weight]
  | rebuild hphase hfull =>
      rw [hphase]
      simp [Phase.weight]
  | replaced since hphase =>
      rw [hphase]
      simp [Phase.weight]
  | kept since hphase =>
      rw [hphase]
      simp [Phase.weight]

/-- Left alone, the follower makes finitely many moves. -/
theorem length_le_weight {moves : List (Move W S K)} (hinner : ∀ m ∈ moves, m.Inner)
    (hrun : Run.exec (step F) s moves = some s') : moves.length ≤ s.weight F := by
  have hlen := Run.length_add_le (step F)
    (fun s m s' hm hstep => weight_lt (F := F) hm (moves_of_step hstep)) hinner hrun
  omega

variable (F) in
/-- It stops only once every report is dealt with. -/
theorem quiet_or_moves (s : State W S K V R) :
    s.Quiet ∨ ∃ m s', m.Inner ∧ step F s m = some s' := by
  obtain ⟨world, settings, reported, queue, phase, notes, base, seen⟩ := s
  cases reported with
  | cons k reported => exact Or.inr ⟨.deliver 0, _, trivial, rfl⟩
  | nil =>
      cases phase with
      | waiting =>
          cases queue with
          | nil => exact Or.inl ⟨rfl, rfl, rfl⟩
          | cons k queue => exact Or.inr ⟨.receive, _, trivial, rfl⟩
      | draining batch paused =>
          cases queue with
          | cons k queue => exact Or.inr ⟨.receive, _, trivial, rfl⟩
          | nil =>
              cases paused with
              | false => exact Or.inr ⟨.pause, _, trivial, rfl⟩
              | true => exact Or.inr ⟨.begin, _, trivial, rfl⟩
      | probing c todo now found =>
          cases now with
          | some kp =>
              obtain ⟨k, p⟩ := kp
              cases p with
              | done r => exact Or.inr ⟨.look, _, trivial, rfl⟩
              | look next => exact Or.inr ⟨.look, _, trivial, rfl⟩
          | none =>
              cases todo with
              | nil => exact Or.inr ⟨.note, _, trivial, rfl⟩
              | cons k todo => exact Or.inr ⟨.take, _, trivial, rfl⟩
      | noted => exact Or.inr ⟨.rest, _, trivial, rfl⟩
      | rebuilding since => exact Or.inr ⟨.finish false, _, trivial, rfl⟩

lemma Leads.world_eq (h : Leads F s s') : s'.world = s.world := by
  obtain ⟨moves, hinner, hrun⟩ := h
  have hstep : ∀ s₁ (m : Move W S K) s₂, m.Inner → s₁.world = s.world →
      step F s₁ m = some s₂ → s₂.world = s.world := by
    intro s₁ m s₂ hm hworld hstep
    cases moves_of_step hstep with
    | change world keys => exact hm.elim
    | _ => exact hworld
  exact Run.exec_invariant_of_guarded (step F) hstep rfl
    (Run.guarded_of_forall (step F) hinner s) hrun

end Rest

end ChangeFeed
