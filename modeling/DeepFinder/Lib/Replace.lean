import DeepFinder.Lib.Run
import DeepFinder.Lib.Writes
import Mathlib.Data.List.Induction
import Mathlib.Logic.Function.Basic

/-!
# Files replaced by renaming

A writer replaces a file by writing a temporary file beside it, piece by piece, and renaming it
over the file.  A reader opens the file by its name and reads it through the inode that it got,
whatever becomes of the name.

If no two writers of a path are under way at once, an inode that a reader holds never changes, and
the names stand for whole files, replaced one at a time, whatever writers die half-way
(`Sound.exec`).
-/

namespace Replace

/-! ## Names and inodes -/

/-- Where the temporary file of a path lies, and which paths are replaced. -/
structure Scheme (κ : Type) where
  tmp : κ → κ
  target : κ → Prop
  injective : ∀ {p q}, target p → target q → tmp p = tmp q → p = q
  apart : ∀ {p}, target p → ¬ target (tmp p)

/-- How far a writer is. -/
inductive Phase where
  | opening
  /-- the temporary file is open, and this much is written -/
  | writing (ino pos : ℕ)
  /-- the writer has returned, or has died -/
  | ended
  deriving DecidableEq, Repr

/-- A writer of a path. -/
structure Writer (κ β : Type) where
  path : κ
  data : List β
  phase : Phase := .opening
  deriving DecidableEq, Repr

/-- The names, what the inodes hold, the writers, and the inodes that readers hold, with the paths
under which they were opened. -/
structure State (κ β : Type) where
  names : κ → Option ℕ
  bytes : ℕ → List β
  next : ℕ
  writers : List (Writer κ β) := []
  opened : List (κ × ℕ) := []

/-- What happens next. -/
inductive Move (κ β : Type) where
  | start (path : κ) (data : List β)
  /-- the temporary file is created, or truncated if it exists -/
  | create (i : ℕ)
  /-- the next so many elements are written -/
  | write (i n : ℕ)
  | rename (i : ℕ)
  | crash (i : ℕ)
  /-- a reader opens the file -/
  | hold (path : κ)
  deriving DecidableEq, Repr

/-- A file with a piece written at an offset; a hole is filled up. -/
def writeAt {β : Type} [Inhabited β] (l : List β) (pos : ℕ) (piece : List β) : List β :=
  l.take pos ++ List.replicate (pos - l.length) default ++ piece ++ l.drop (pos + piece.length)

lemma writeAt_end {β : Type} [Inhabited β] {l : List β} {pos : ℕ} (h : l.length = pos)
    (piece : List β) : writeAt l pos piece = l ++ piece := by
  subst h
  simp [writeAt]

variable {κ β : Type} (S : Scheme κ)

def State.setPhase (s : State κ β) (i : ℕ) (w : Writer κ β) (phase : Phase) : State κ β :=
  { s with writers := s.writers.set i { w with phase := phase } }

/-- One step. -/
def step [DecidableEq κ] [Inhabited β] (s : State κ β) : Move κ β → Option (State κ β)
  | .start path data => some { s with writers := s.writers ++ [{ path := path, data := data }] }
  | .create i =>
      (s.writers[i]?).bind fun w =>
        if w.phase = .opening then
          match s.names (S.tmp w.path) with
          | some ino =>
              some { s.setPhase i w (.writing ino 0) with bytes := Function.update s.bytes ino [] }
          | none =>
              some { s.setPhase i w (.writing s.next 0) with
                names := Function.update s.names (S.tmp w.path) (some s.next)
                bytes := Function.update s.bytes s.next []
                next := s.next + 1 }
        else none
  | .write i n =>
      (s.writers[i]?).bind fun w =>
        match w.phase with
        | .writing ino pos =>
            let piece := (w.data.drop pos).take n
            some { s.setPhase i w (.writing ino (pos + piece.length)) with
              bytes := Function.update s.bytes ino (writeAt (s.bytes ino) pos piece) }
        | _ => none
  | .rename i =>
      (s.writers[i]?).bind fun w =>
        match w.phase with
        | .writing _ pos =>
            if pos = w.data.length then
              match s.names (S.tmp w.path) with
              | some ino =>
                  some { s.setPhase i w .ended with
                    names := Function.update (Function.update s.names (S.tmp w.path) none) w.path
                      (some ino) }
              | none => some (s.setPhase i w .ended)
            else none
        | _ => none
  | .crash i => (s.writers[i]?).map fun w => s.setPhase i w .ended
  | .hold path => (s.names path).map fun ino => { s with opened := s.opened ++ [(path, ino)] }

/-- No other writer of the path is under way when one starts, and only what is replaced is
written or opened. -/
def Exclusive (s : State κ β) : Move κ β → Prop
  | .start path _ => S.target path ∧ ∀ w ∈ s.writers, w.path = path → w.phase = .ended
  | .hold path => S.target path
  | _ => True

/-! ## What holds -/

variable {S}

/-- Every inode has one name at most; every writer that is writing has the inode of its temporary
file, and nobody else writes there; and no temporary file is open for reading. -/
structure Sound (S : Scheme κ) (s : State κ β) : Prop where
  name_unique : ∀ {p q i}, s.names p = some i → s.names q = some i → p = q
  name_lt : ∀ {p i}, s.names p = some i → i < s.next
  targets : ∀ w ∈ s.writers, S.target w.path
  alone : ∀ {i j : ℕ} {w v : Writer κ β}, s.writers[i]? = some w → s.writers[j]? = some v →
    w.path = v.path → w.phase ≠ .ended → v.phase ≠ .ended → i = j
  writing : ∀ w ∈ s.writers, ∀ ino pos, w.phase = .writing ino pos →
    s.names (S.tmp w.path) = some ino ∧ s.bytes ino = w.data.take pos ∧ pos ≤ w.data.length
  opened : ∀ e ∈ s.opened, S.target e.1 ∧ e.2 < s.next ∧
    ∀ q, S.target q → s.names (S.tmp q) ≠ some e.2

lemma sound_start {names : κ → Option ℕ} {bytes : ℕ → List β} {next : ℕ}
    (hunique : ∀ {p q i}, names p = some i → names q = some i → p = q)
    (hlt : ∀ {p i}, names p = some i → i < next) :
    Sound S { names := names, bytes := bytes, next := next } where
  name_unique := hunique
  name_lt := hlt
  targets := by simp
  alone := by simp
  writing := by simp
  opened := by simp

/-- The moves of writers and readers. -/
inductive Moves [DecidableEq κ] [Inhabited β] (S : Scheme κ) (s : State κ β) : State κ β → Prop where
  | start (path : κ) (data : List β) (htarget : S.target path)
      (halone : ∀ w ∈ s.writers, w.path = path → w.phase = .ended) :
      Moves S s { s with writers := s.writers ++ [{ path := path, data := data }] }
  | truncate (i : ℕ) (w : Writer κ β) (ino : ℕ) (hi : s.writers[i]? = some w)
      (hphase : w.phase = .opening) (htmp : s.names (S.tmp w.path) = some ino) :
      Moves S s { s.setPhase i w (.writing ino 0) with bytes := Function.update s.bytes ino [] }
  | create (i : ℕ) (w : Writer κ β) (hi : s.writers[i]? = some w) (hphase : w.phase = .opening)
      (htmp : s.names (S.tmp w.path) = none) :
      Moves S s { s.setPhase i w (.writing s.next 0) with
        names := Function.update s.names (S.tmp w.path) (some s.next)
        bytes := Function.update s.bytes s.next []
        next := s.next + 1 }
  | write (i : ℕ) (w : Writer κ β) (ino pos n : ℕ) (hi : s.writers[i]? = some w)
      (hphase : w.phase = .writing ino pos) :
      Moves S s { s.setPhase i w (.writing ino (pos + ((w.data.drop pos).take n).length)) with
        bytes := Function.update s.bytes ino
          (writeAt (s.bytes ino) pos ((w.data.drop pos).take n)) }
  | rename (i : ℕ) (w : Writer κ β) (ino ino' : ℕ) (hi : s.writers[i]? = some w)
      (hphase : w.phase = .writing ino w.data.length) (htmp : s.names (S.tmp w.path) = some ino') :
      Moves S s { s.setPhase i w .ended with
        names := Function.update (Function.update s.names (S.tmp w.path) none) w.path (some ino') }
  | stop (i : ℕ) (w : Writer κ β) (hi : s.writers[i]? = some w) : Moves S s (s.setPhase i w .ended)
  | hold (path : κ) (ino : ℕ) (htarget : S.target path) (hname : s.names path = some ino) :
      Moves S s { s with opened := s.opened ++ [(path, ino)] }

lemma moves_of_step [DecidableEq κ] [Inhabited β] {s s' : State κ β} {m : Move κ β}
    (hok : Exclusive S s m) (h : step S s m = some s') : Moves S s s' := by
  cases m with
  | start path data =>
      obtain rfl := Option.some.inj h
      exact .start path data hok.1 hok.2
  | create i =>
      obtain ⟨w, hi, h⟩ := Option.bind_eq_some_iff.mp h
      split at h
      · rename_i hphase
        split at h
        · rename_i ino htmp
          obtain rfl := Option.some.inj h
          exact .truncate i w ino hi hphase htmp
        · rename_i htmp
          obtain rfl := Option.some.inj h
          exact .create i w hi hphase htmp
      · cases h
  | write i n =>
      obtain ⟨w, hi, h⟩ := Option.bind_eq_some_iff.mp h
      split at h
      · rename_i ino pos hphase
        obtain rfl := Option.some.inj h
        exact .write i w ino pos n hi hphase
      · cases h
  | rename i =>
      obtain ⟨w, hi, h⟩ := Option.bind_eq_some_iff.mp h
      split at h
      · rename_i ino pos hphase
        split at h
        · rename_i hpos
          subst hpos
          split at h
          · rename_i ino' htmp
            obtain rfl := Option.some.inj h
            exact .rename i w ino ino' hi hphase htmp
          · obtain rfl := Option.some.inj h
            exact .stop i w hi
        · cases h
      · cases h
  | crash i =>
      obtain ⟨w, hi, rfl⟩ := Option.map_eq_some_iff.mp h
      exact .stop i w hi
  | hold path =>
      obtain ⟨ino, hname, rfl⟩ := Option.map_eq_some_iff.mp h
      exact .hold path ino hok hname

section Moves

variable {s s' : State κ β} {i : ℕ} {w : Writer κ β} {phase : Phase}

/-- A writer that goes on. -/
lemma getElem?_setPhase {j : ℕ} {v : Writer κ β}
    (h : (s.setPhase i w phase).writers[j]? = some v) :
    (j = i ∧ v = { w with phase := phase }) ∨ (j ≠ i ∧ s.writers[j]? = some v) := by
  rw [State.setPhase, List.getElem?_set] at h
  by_cases hj : i = j
  · rw [if_pos hj] at h
    split at h
    · exact Or.inl ⟨hj.symm, (Option.some.inj h).symm⟩
    · cases h
  · rw [if_neg hj] at h
    exact Or.inr ⟨fun heq => hj heq.symm, h⟩

/-- A writer that goes on leaves every other path alone. -/
lemma Sound.alone_setPhase (h : Sound S s) (hi : s.writers[i]? = some w)
    (hlive : phase = .ended ∨ w.phase ≠ .ended) {j k : ℕ} {v u : Writer κ β}
    (hj : (s.setPhase i w phase).writers[j]? = some v)
    (hk : (s.setPhase i w phase).writers[k]? = some u) (hpath : v.path = u.path)
    (hv : v.phase ≠ .ended) (hu : u.phase ≠ .ended) : j = k := by
  have hwas : ∀ {l : ℕ} {x : Writer κ β}, (s.setPhase i w phase).writers[l]? = some x →
      x.phase ≠ .ended → ∃ y, s.writers[l]? = some y ∧ y.path = x.path ∧ y.phase ≠ .ended := by
    intro l x hl hx
    rcases getElem?_setPhase hl with ⟨rfl, rfl⟩ | ⟨-, hl⟩
    · exact ⟨w, hi, rfl, hlive.resolve_left hx⟩
    · exact ⟨x, hl, rfl, hx⟩
  obtain ⟨y, hy, hypath, hyphase⟩ := hwas hj hv
  obtain ⟨z, hz, hzpath, hzphase⟩ := hwas hk hu
  exact h.alone hy hz (hypath.trans (hpath.trans hzpath.symm)) hyphase hzphase

lemma mem_setPhase {v : Writer κ β} (h : v ∈ (s.setPhase i w phase).writers) :
    v = { w with phase := phase } ∨ ∃ j, j ≠ i ∧ s.writers[j]? = some v := by
  obtain ⟨j, hj⟩ := List.mem_iff_getElem?.mp h
  rcases getElem?_setPhase hj with ⟨-, hv⟩ | ⟨hne, hv⟩
  · exact Or.inl hv
  · exact Or.inr ⟨j, hne, hv⟩

lemma Sound.targets_setPhase (h : Sound S s) (hi : s.writers[i]? = some w) :
    ∀ v ∈ (s.setPhase i w phase).writers, S.target v.path := by
  intro v hv
  rcases mem_setPhase hv with rfl | ⟨j, -, hj⟩
  · exact h.targets w (List.mem_of_getElem? hi)
  · exact h.targets v (List.mem_of_getElem? hj)

lemma Sound.tmp_ne (h : Sound S s) {j : ℕ} {v : Writer κ β} (hi : s.writers[i]? = some w)
    (hj : s.writers[j]? = some v) (hij : j ≠ i) (hw : w.phase ≠ .ended) (hv : v.phase ≠ .ended) :
    S.tmp v.path ≠ S.tmp w.path := by
  intro htmp
  have hpath := S.injective (h.targets v (List.mem_of_getElem? hj))
    (h.targets w (List.mem_of_getElem? hi)) htmp
  exact hij (h.alone hj hi hpath hv hw)

lemma Sound.ne_of_opened (h : Sound S s) (hi : s.writers[i]? = some w) {ino : ℕ}
    (htmp : s.names (S.tmp w.path) = some ino) {e : κ × ℕ} (he : e ∈ s.opened) : e.2 ≠ ino := by
  rintro rfl
  exact (h.opened e he).2.2 w.path (h.targets w (List.mem_of_getElem? hi)) htmp

end Moves

/-! ## Every run -/

section Runs

variable [DecidableEq κ] [Inhabited β] {s s' : State κ β}

lemma Sound.moves (h : Sound S s) (hmove : Moves S s s') : Sound S s' := by
  cases hmove with
  | start path data htarget halone =>
      -- A new writer has no file yet; that it is alone on its path is asked of the move.
      refine ⟨h.name_unique, h.name_lt, ?_, ?_, ?_, h.opened⟩
      · intro w hw
        rcases List.mem_append.mp hw with hw | hw
        · exact h.targets w hw
        · obtain rfl := List.mem_singleton.mp hw
          exact htarget
      · intro i j w v hi hj hpath hw hv
        have hplace : ∀ {k : ℕ} {x : Writer κ β},
            (s.writers ++ [({ path := path, data := data } : Writer κ β)])[k]? = some x →
            s.writers[k]? = some x ∨ (k = s.writers.length ∧ x.path = path) := by
          intro k x hk
          rw [List.getElem?_append] at hk
          split at hk
          · exact Or.inl hk
          · rename_i hlen
            obtain ⟨hlt, hx⟩ := List.getElem?_eq_some_iff.mp hk
            simp at hlt hx
            exact Or.inr ⟨by omega, by rw [← hx]⟩
        rcases hplace hi with hi | ⟨rfl, hwpath⟩
        · rcases hplace hj with hj | ⟨rfl, hvpath⟩
          · exact h.alone hi hj hpath hw hv
          · exact absurd (halone w (List.mem_of_getElem? hi) (hpath.trans hvpath)) hw
        · rcases hplace hj with hj | ⟨rfl, hvpath⟩
          · exact absurd (halone v (List.mem_of_getElem? hj) (hpath.symm.trans hwpath)) hv
          · rfl
      · intro w hw ino pos hphase
        rcases List.mem_append.mp hw with hw | hw
        · exact h.writing w hw ino pos hphase
        · obtain rfl := List.mem_singleton.mp hw
          cases hphase
  | truncate i w ino hi hphase htmp =>
      -- What an earlier writer of the path has left behind is emptied; by `tmp_ne` no other writer
      -- that is under way has its inode.
      have hlive : w.phase ≠ .ended := by simp [hphase]
      refine ⟨h.name_unique, h.name_lt, h.targets_setPhase hi,
        h.alone_setPhase hi (Or.inr hlive), ?_, h.opened⟩
      intro v hv ino' pos hv'
      rcases mem_setPhase hv with rfl | ⟨j, hj, hjv⟩
      · obtain ⟨rfl, rfl⟩ := Phase.writing.inj hv'
        exact ⟨htmp, by simp, Nat.zero_le _⟩
      · obtain ⟨hname, hbytes, hpos⟩ := h.writing v (List.mem_of_getElem? hjv) ino' pos hv'
        have hne : ino' ≠ ino := by
          rintro rfl
          exact h.tmp_ne hi hjv hj hlive (by simp [hv']) (h.name_unique hname htmp)
        exact ⟨hname, by simp [hne, hbytes], hpos⟩
  | create i w hi hphase htmp =>
      have hlive : w.phase ≠ .ended := by simp [hphase]
      -- Inodes are handed out in order, so that nobody has heard of the new one.
      have hold : ∀ {p ino}, s.names p = some ino → ino ≠ s.next :=
        fun hp => Nat.ne_of_lt (h.name_lt hp)
      have hnames : ∀ {p ino}, Function.update s.names (S.tmp w.path) (some s.next) p = some ino →
          (p = S.tmp w.path ∧ ino = s.next) ∨ (p ≠ S.tmp w.path ∧ s.names p = some ino) := by
        intro p ino hp
        by_cases hpath : p = S.tmp w.path
        · subst hpath
          simp at hp
          exact Or.inl ⟨rfl, hp.symm⟩
        · rw [Function.update_of_ne hpath] at hp
          exact Or.inr ⟨hpath, hp⟩
      refine ⟨?_, ?_, h.targets_setPhase hi, h.alone_setPhase hi (Or.inr hlive), ?_, ?_⟩
      · intro p q ino hp hq
        rcases hnames hp with ⟨rfl, rfl⟩ | ⟨hpne, hp⟩
        · rcases hnames hq with ⟨rfl, -⟩ | ⟨-, hq⟩
          · rfl
          · exact absurd rfl (hold hq)
        · rcases hnames hq with ⟨rfl, rfl⟩ | ⟨-, hq⟩
          · exact absurd rfl (hold hp)
          · exact h.name_unique hp hq
      · intro p ino hp
        rcases hnames hp with ⟨-, rfl⟩ | ⟨-, hp⟩
        · exact Nat.lt_succ_self _
        · exact Nat.lt_succ_of_lt (h.name_lt hp)
      · intro v hv ino' pos hv'
        rcases mem_setPhase hv with rfl | ⟨j, hj, hjv⟩
        · obtain ⟨rfl, rfl⟩ := Phase.writing.inj hv'
          exact ⟨by simp, by simp, Nat.zero_le _⟩
        · obtain ⟨hname, hbytes, hpos⟩ := h.writing v (List.mem_of_getElem? hjv) ino' pos hv'
          have hne := h.tmp_ne hi hjv hj hlive (by simp [hv'])
          refine ⟨?_, ?_, hpos⟩
          · simp only [Function.update_of_ne hne]
            exact hname
          · simp only [Function.update_of_ne (hold hname)]
            exact hbytes
      · intro e he
        obtain ⟨hpath, hlt, hfree⟩ := h.opened e he
        refine ⟨hpath, Nat.lt_succ_of_lt hlt, fun q hq htmp => ?_⟩
        rcases hnames htmp with ⟨-, heq⟩ | ⟨-, htmp⟩
        · exact absurd heq (Nat.ne_of_lt hlt)
        · exact hfree q hq htmp
  | write i w ino pos n hi hphase =>
      have hlive : w.phase ≠ .ended := by simp [hphase]
      obtain ⟨htmp, hwritten, hle⟩ := h.writing w (List.mem_of_getElem? hi) ino pos hphase
      refine ⟨h.name_unique, h.name_lt, h.targets_setPhase hi,
        h.alone_setPhase hi (Or.inr hlive), ?_, h.opened⟩
      intro v hv ino' pos' hv'
      rcases mem_setPhase hv with rfl | ⟨j, hj, hjv⟩
      · obtain ⟨rfl, rfl⟩ := Phase.writing.inj hv'
        have hlength : (s.bytes ino).length = pos := by simp [hwritten, hle]
        refine ⟨htmp, ?_, by simp; omega⟩
        have hpiece : writeAt (s.bytes ino) pos ((w.data.drop pos).take n) =
            w.data.take (pos + ((w.data.drop pos).take n).length) := by
          rw [writeAt_end hlength, hwritten, List.take_add]
          simp
        simpa using hpiece
      · obtain ⟨hname, hbytes, hpos⟩ := h.writing v (List.mem_of_getElem? hjv) ino' pos' hv'
        have hne : ino' ≠ ino := by
          rintro rfl
          exact h.tmp_ne hi hjv hj hlive (by simp [hv']) (h.name_unique hname htmp)
        exact ⟨hname, by simp [hne, hbytes], hpos⟩
  | rename i w ino ino' hi hphase htmp =>
      have hlive : w.phase ≠ .ended := by simp [hphase]
      have htarget := h.targets w (List.mem_of_getElem? hi)
      -- The inode moves from the temporary name to the target; no other name changes hands, since
      -- no target is spelled like a temporary name.
      have hapart : ∀ {q}, S.target q → S.tmp q ≠ w.path := by
        intro q hq heq
        exact S.apart hq (heq ▸ htarget)
      have hnames : ∀ {p k}, Function.update (Function.update s.names (S.tmp w.path) none) w.path
          (some ino') p = some k → (p = w.path ∧ k = ino') ∨
            (p ≠ w.path ∧ p ≠ S.tmp w.path ∧ s.names p = some k) := by
        intro p k hp
        by_cases hpath : p = w.path
        · subst hpath
          simp at hp
          exact Or.inl ⟨rfl, hp.symm⟩
        · rw [Function.update_of_ne hpath] at hp
          by_cases htmpp : p = S.tmp w.path
          · subst htmpp
            simp at hp
          · rw [Function.update_of_ne htmpp] at hp
            exact Or.inr ⟨hpath, htmpp, hp⟩
      refine ⟨?_, ?_, h.targets_setPhase hi, h.alone_setPhase hi (Or.inl rfl), ?_, ?_⟩
      · intro p q k hp hq
        rcases hnames hp with ⟨rfl, rfl⟩ | ⟨-, hptmp, hpold⟩
        · rcases hnames hq with ⟨rfl, -⟩ | ⟨-, hqtmp, hqold⟩
          · rfl
          · exact absurd (h.name_unique hqold htmp) hqtmp
        · rcases hnames hq with ⟨rfl, rfl⟩ | ⟨-, -, hqold⟩
          · exact absurd (h.name_unique hpold htmp) hptmp
          · exact h.name_unique hpold hqold
      · intro p k hp
        rcases hnames hp with ⟨-, rfl⟩ | ⟨-, -, hp⟩
        · exact h.name_lt htmp
        · exact h.name_lt hp
      · intro v hv k pos hv'
        rcases mem_setPhase hv with rfl | ⟨j, hj, hjv⟩
        · cases hv'
        · obtain ⟨hname, hbytes, hpos⟩ := h.writing v (List.mem_of_getElem? hjv) k pos hv'
          refine ⟨?_, hbytes, hpos⟩
          have hvtarget := h.targets v (List.mem_of_getElem? hjv)
          have hne := h.tmp_ne hi hjv hj hlive (by simp [hv'])
          simp only [Function.update_of_ne (hapart hvtarget), Function.update_of_ne hne]
          exact hname
      · intro k hk
        obtain ⟨hpath, hlt, hfree⟩ := h.opened k hk
        refine ⟨hpath, hlt, fun q hq htmpq => ?_⟩
        rcases hnames htmpq with ⟨heq, -⟩ | ⟨-, -, hold⟩
        · exact hapart hq heq
        · exact hfree q hq hold
  | stop i w hi =>
      refine ⟨h.name_unique, h.name_lt, h.targets_setPhase hi, h.alone_setPhase hi (Or.inl rfl),
        ?_, h.opened⟩
      intro v hv ino pos hv'
      rcases mem_setPhase hv with rfl | ⟨j, -, hjv⟩
      · cases hv'
      · exact h.writing v (List.mem_of_getElem? hjv) ino pos hv'
  | hold path ino htarget hname =>
      refine ⟨h.name_unique, h.name_lt, h.targets, h.alone, h.writing, fun k hk => ?_⟩
      rcases List.mem_append.mp hk with hk | hk
      · exact h.opened k hk
      · obtain rfl := List.mem_singleton.mp hk
        refine ⟨htarget, h.name_lt hname, fun q hq htmp => ?_⟩
        exact S.apart hq (h.name_unique htmp hname ▸ htarget)

/-- What a reader holds does not change. -/
lemma Sound.held_moves (h : Sound S s) (hmove : Moves S s s') {e : κ × ℕ} (he : e ∈ s.opened) :
    e ∈ s'.opened ∧ s'.bytes e.2 = s.bytes e.2 := by
  cases hmove with
  | start path data htarget halone => exact ⟨he, rfl⟩
  | truncate i w k hi hphase htmp =>
      exact ⟨he, Function.update_of_ne (h.ne_of_opened hi htmp he) _ _⟩
  | create i w hi hphase htmp =>
      exact ⟨he, Function.update_of_ne (Nat.ne_of_lt (h.opened e he).2.1) _ _⟩
  | write i w k pos n hi hphase =>
      obtain ⟨htmp, -, -⟩ := h.writing w (List.mem_of_getElem? hi) k pos hphase
      exact ⟨he, Function.update_of_ne (h.ne_of_opened hi htmp he) _ _⟩
  | rename i w k k' hi hphase htmp => exact ⟨he, rfl⟩
  | stop i w hi => exact ⟨he, rfl⟩
  | hold path k htarget hname => exact ⟨List.mem_append_left _ he, rfl⟩

def State.contents (s : State κ β) (p : κ) : Option (List β) := (s.names p).map s.bytes

/-- The files under the paths that are replaced do not change, or one is replaced by all that one
of its writers had to write. -/
lemma Sound.contents_moves (h : Sound S s) (hmove : Moves S s s') :
    (∀ p, S.target p → s'.contents p = s.contents p) ∨
      ∃ w ∈ s.writers, ∀ p, S.target p →
        s'.contents p = Writes.apply [(w.path, w.data)] s.contents p := by
  -- the file of a path is not a temporary file
  have hpath : ∀ {i : ℕ} {w : Writer κ β} {p : κ}, s.writers[i]? = some w → S.target p →
      p ≠ S.tmp w.path := by
    rintro i w p hi hp rfl
    exact S.apart (h.targets w (List.mem_of_getElem? hi)) hp
  have hbytes : ∀ {i : ℕ} {w : Writer κ β} {p : κ} {k : ℕ} {l : List β}, s.writers[i]? = some w →
      S.target p → s.names (S.tmp w.path) = some k →
      (s.names p).map (Function.update s.bytes k l) = (s.names p).map s.bytes := by
    intro i w p k l hi hp htmp
    refine Option.map_congr fun ino hname => Function.update_of_ne ?_ _ _
    rintro rfl
    exact hpath hi hp (h.name_unique hname htmp)
  cases hmove with
  | start path data htarget halone => exact Or.inl fun _ _ => rfl
  | truncate i w k hi hphase htmp => exact Or.inl fun p hp => hbytes hi hp htmp
  | create i w hi hphase htmp =>
      refine Or.inl fun p hp => ?_
      have hname : Function.update s.names (S.tmp w.path) (some s.next) p = s.names p :=
        Function.update_of_ne (hpath hi hp) _ _
      refine (congrArg (Option.map _) hname).trans (Option.map_congr fun ino hino => ?_)
      exact Function.update_of_ne (Nat.ne_of_lt (h.name_lt hino)) _ _
  | write i w k pos n hi hphase =>
      obtain ⟨htmp, -, -⟩ := h.writing w (List.mem_of_getElem? hi) k pos hphase
      exact Or.inl fun p hp => hbytes hi hp htmp
  | rename i w k k' hi hphase htmp =>
      obtain ⟨htmp', hwhole, -⟩ := h.writing w (List.mem_of_getElem? hi) k _ hphase
      obtain rfl : k = k' := Option.some.inj (htmp'.symm.trans htmp)
      rw [List.take_length] at hwhole
      refine Or.inr ⟨w, List.mem_of_getElem? hi, fun p hp => ?_⟩
      by_cases hp' : p = w.path
      · subst hp'
        simp [State.contents, Writes.apply, State.setPhase, hwhole]
      · simp [State.contents, Writes.apply, State.setPhase, hp', hpath hi hp]
  | stop i w hi => exact Or.inl fun _ _ => rfl
  | hold path k htarget hpath => exact Or.inl fun _ _ => rfl

/-- A writer keeps its path and its data. -/
lemma writers_moves (hmove : Moves S s s') {p : κ} {l : List β}
    (h : ∃ w ∈ s.writers, w.path = p ∧ w.data = l) :
    ∃ w ∈ s'.writers, w.path = p ∧ w.data = l := by
  have hset : ∀ {i : ℕ} {w : Writer κ β} {phase : Phase}, s.writers[i]? = some w →
      ∃ v ∈ (s.setPhase i w phase).writers, v.path = p ∧ v.data = l := by
    intro i w phase hi
    obtain ⟨v, hv, hpath, hdata⟩ := h
    obtain ⟨j, hj⟩ := List.mem_iff_getElem?.mp hv
    by_cases hij : j = i
    · subst hij
      obtain rfl := Option.some.inj (hj.symm.trans hi)
      obtain ⟨hlt, -⟩ := List.getElem?_eq_some_iff.mp hj
      exact ⟨_, List.mem_of_getElem? (List.getElem?_set_self hlt), hpath, hdata⟩
    · refine ⟨v, List.mem_of_getElem? (i := j) ?_, hpath, hdata⟩
      rw [State.setPhase, List.getElem?_set_ne fun heq => hij heq.symm]
      exact hj
  cases hmove with
  | start path data htarget halone =>
      obtain ⟨v, hv, hdata⟩ := h
      exact ⟨v, List.mem_append_left _ hv, hdata⟩
  | truncate i w k hi hphase htmp => exact hset hi
  | create i w hi hphase htmp => exact hset hi
  | write i w k pos n hi hphase => exact hset hi
  | rename i w k k' hi hphase htmp => exact hset hi
  | stop i w hi => exact hset hi
  | hold path k htarget hpath => exact h

/-- These files have been replaced, one after the other, each by all that one of its writers had
to write. -/
def Replaced (S : Scheme κ) (s₀ s : State κ β) (ws : List (κ × List β)) : Prop :=
  (∀ e ∈ ws, ∃ w ∈ s.writers, w.path = e.1 ∧ w.data = e.2) ∧
    ∀ p, S.target p → s.contents p = Writes.apply ws s₀.contents p

lemma Sound.replaced_moves (h : Sound S s) (hmove : Moves S s s') {s₀ : State κ β}
    (hall : ∃ ws, Replaced S s₀ s ws) : ∃ ws, Replaced S s₀ s' ws := by
  obtain ⟨ws, hwriters, hcontents⟩ := hall
  have hkeep := fun e he => writers_moves hmove (hwriters e he)
  rcases h.contents_moves hmove with hsame | ⟨w, hw, hnext⟩
  · exact ⟨ws, hkeep, fun p hp => (hsame p hp).trans (hcontents p hp)⟩
  · refine ⟨ws ++ [(w.path, w.data)], fun e he => ?_, fun p hp => ?_⟩
    · rcases List.mem_append.mp he with he | he
      · exact hkeep e he
      · obtain rfl := List.mem_singleton.mp he
        exact writers_moves hmove ⟨w, hw, rfl, rfl⟩
    · rw [hnext p hp, Writes.apply_append]
      by_cases hp' : p = w.path
      · simp [Writes.apply, hp']
      · simpa [Writes.apply, hp'] using hcontents p hp

/-- What the readers since then hold is what stood under its path at first, or all that one of its
writers had to write. -/
def HeldWhole (s₀ s : State κ β) : Prop :=
  ∀ e ∈ s.opened, e ∈ s₀.opened ∨ s₀.contents e.1 = some (s.bytes e.2) ∨
    ∃ w ∈ s.writers, w.path = e.1 ∧ w.data = s.bytes e.2

omit [Inhabited β] in
/-- Whole replacements leave what was there, or what one of the writers had to write. -/
lemma Replaced.contents_eq {s₀ : State κ β} {ws : List (κ × List β)} (h : Replaced S s₀ s ws)
    {p : κ} (hp : S.target p) {l : List β} (hl : s.contents p = some l) :
    s₀.contents p = some l ∨ ∃ w ∈ s.writers, w.path = p ∧ w.data = l := by
  obtain ⟨hwriters, hcontents⟩ := h
  rw [hcontents p hp] at hl
  clear hcontents
  induction ws using List.reverseRecOn with
  | nil => exact Or.inl hl
  | append_singleton ws e ih =>
      rw [Writes.apply_append] at hl
      by_cases hpath : p = e.1
      · subst hpath
        obtain rfl : e.2 = l := by simpa [Writes.apply] using hl
        exact Or.inr (hwriters e (List.mem_append_right _ (List.mem_singleton_self e)))
      · have hbefore : Writes.apply ws s₀.contents p = some l := by
          simpa [Writes.apply, hpath] using hl
        exact ih hbefore fun d hd => hwriters d (List.mem_append_left _ hd)

lemma Sound.heldWhole_moves (h : Sound S s) (hmove : Moves S s s') {s₀ : State κ β}
    {ws : List (κ × List β)} (hall : Replaced S s₀ s ws) (hheld : HeldWhole s₀ s) :
    HeldWhole s₀ s' := by
  have hold : ∀ e ∈ s.opened, e ∈ s₀.opened ∨ s₀.contents e.1 = some (s'.bytes e.2) ∨
      ∃ w ∈ s'.writers, w.path = e.1 ∧ w.data = s'.bytes e.2 := by
    intro e he
    rw [(h.held_moves hmove he).2]
    exact (hheld e he).imp_right (Or.imp_right (writers_moves hmove))
  intro e he
  cases hmove with
  | start path data htarget halone => exact hold e he
  | truncate i w k hi hphase htmp => exact hold e he
  | create i w hi hphase htmp => exact hold e he
  | write i w k pos n hi hphase => exact hold e he
  | rename i w k k' hi hphase htmp => exact hold e he
  | stop i w hi => exact hold e he
  | hold path ino htarget hname =>
      rcases List.mem_append.mp he with he | he
      · exact hold e he
      · obtain rfl := List.mem_singleton.mp he
        have hcontents : s.contents path = some (s.bytes ino) := by
          rw [State.contents, hname, Option.map_some]
        exact Or.inr (hall.contents_eq htarget hcontents)

/-- After every run without two writers of a path at once: what readers hold is as it was when they
opened it, and whole; and the files under the paths are those of a sequence of whole
replacements. -/
theorem Sound.exec (h : Sound S s) {moves : List (Move κ β)}
    (hok : Run.Guarded (step S) (Exclusive S) s moves)
    (hrun : Run.exec (step S) s moves = some s') :
    Sound S s' ∧ (∀ e ∈ s.opened, e ∈ s'.opened ∧ s'.bytes e.2 = s.bytes e.2) ∧
      HeldWhole s s' ∧ ∃ ws, Replaced S s s' ws := by
  refine @Run.exec_invariant_of_guarded _ _ (step S) (Exclusive S)
    (fun t => Sound S t ∧ (∀ e ∈ s.opened, e ∈ t.opened ∧ t.bytes e.2 = s.bytes e.2) ∧
      HeldWhole s t ∧ ∃ ws, Replaced S s t ws) ?_ _ _ _
    ⟨h, fun e he => ⟨he, rfl⟩, fun e he => Or.inl he, [], by simp, fun p hp => rfl⟩ hok hrun
  rintro t m t' hmok ⟨ht, hheld, hwhole, hall⟩ hstep
  have hmove := moves_of_step hmok hstep
  refine ⟨ht.moves hmove, fun e he => ?_, ?_, ht.replaced_moves hmove hall⟩
  · obtain ⟨hstill, hbytes⟩ := hheld e he
    obtain ⟨hnext, hkept⟩ := ht.held_moves hmove hstill
    exact ⟨hnext, hkept.trans hbytes⟩
  · obtain ⟨ws, hws⟩ := hall
    exact ht.heldWhole_moves hmove hws hwhole

/-- A writer is an earlier one that has gone on, or has just started. -/
lemma writers_of_step {m : Move κ β} (h : step S s m = some s') {w : Writer κ β}
    (hw : w ∈ s'.writers) :
    (∃ v ∈ s.writers, v.path = w.path ∧ v.data = w.data) ∨ m = .start w.path w.data := by
  have hset : ∀ {i : ℕ} {u : Writer κ β} {phase : Phase}, s.writers[i]? = some u →
      w ∈ (s.setPhase i u phase).writers → ∃ v ∈ s.writers, v.path = w.path ∧ v.data = w.data := by
    intro i u phase hi hmem
    rcases mem_setPhase hmem with rfl | ⟨j, -, hj⟩
    · exact ⟨u, List.mem_of_getElem? hi, rfl, rfl⟩
    · exact ⟨w, List.mem_of_getElem? hj, rfl, rfl⟩
  cases m with
  | start path data =>
      obtain rfl := Option.some.inj h
      rcases List.mem_append.mp hw with hw | hw
      · exact Or.inl ⟨w, hw, rfl, rfl⟩
      · obtain rfl := List.mem_singleton.mp hw
        exact Or.inr rfl
  | create i =>
      obtain ⟨u, hi, h⟩ := Option.bind_eq_some_iff.mp h
      split at h
      · split at h
        · obtain rfl := Option.some.inj h
          exact Or.inl (hset hi hw)
        · obtain rfl := Option.some.inj h
          exact Or.inl (hset hi hw)
      · cases h
  | write i n =>
      obtain ⟨u, hi, h⟩ := Option.bind_eq_some_iff.mp h
      split at h
      · obtain rfl := Option.some.inj h
        exact Or.inl (hset hi hw)
      · cases h
  | rename i =>
      obtain ⟨u, hi, h⟩ := Option.bind_eq_some_iff.mp h
      split at h
      · split at h
        · split at h
          · obtain rfl := Option.some.inj h
            exact Or.inl (hset hi hw)
          · obtain rfl := Option.some.inj h
            exact Or.inl (hset hi hw)
        · cases h
      · cases h
  | crash i =>
      obtain ⟨u, hi, rfl⟩ := Option.map_eq_some_iff.mp h
      exact Or.inl (hset hi hw)
  | hold path =>
      obtain ⟨ino, -, rfl⟩ := Option.map_eq_some_iff.mp h
      exact Or.inl ⟨w, hw, rfl, rfl⟩

/-- What is true of all that is written. -/
lemma writers_exec {P : κ → List β → Prop} {moves : List (Move κ β)}
    (hs : ∀ w ∈ s.writers, P w.path w.data) (hmoves : ∀ p l, .start p l ∈ moves → P p l)
    (hrun : Run.exec (step S) s moves = some s') : ∀ w ∈ s'.writers, P w.path w.data := by
  have hok : Run.Guarded (step S) (fun _ m => ∀ p l, m = .start p l → P p l) s moves := by
    refine Run.guarded_of_forall (step S) ?_ s
    rintro m hm p l rfl
    exact hmoves p l hm
  refine @Run.exec_invariant_of_guarded _ _ (step S) _
    (fun t => ∀ w ∈ t.writers, P w.path w.data) ?_ _ _ _ hs hok hrun
  intro t m t' hm ht hstep w hw
  rcases writers_of_step hstep hw with ⟨v, hv, hpath, hdata⟩ | hstart
  · exact hpath ▸ hdata ▸ ht v hv
  · exact hm _ _ hstart

end Runs

end Replace
