import DeepFinder.Lib.Run

/-!
# Calls that interleave

Threads over a shared state `γ`.  A thread is born with a call, in the state `enter` gives it, and
`move` is its next atomic step on the shared state; `none` says that it has returned.  A schedule is
a list of `Turn`s, and its runs are those of the transition system `step`.

An assertion on the shared state and one on each thread that every single step keeps hold after
every schedule (`Keeps.exec`), since no step touches another thread.  A bound on the steps of one
thread is a bound on its turns in any schedule (`Bounded.exec`).
-/

namespace Interleaving

/-- The state in which a thread starts on a call, and its next atomic step. -/
structure Program (γ τ ι : Type*) where
  enter : ι → τ
  move : γ → τ → Option (γ × τ)

/-- The shared state, and the threads in the order of their birth. -/
structure Pool (γ τ : Type*) where
  shared : γ
  threads : List τ
  deriving DecidableEq

/-- A new thread starts on a call, or a thread takes its next step. -/
inductive Turn (ι : Type*) where
  | call (c : ι)
  | advance (i : ℕ)

variable {γ τ ι : Type*}

def calls (turns : List (Turn ι)) : List ι :=
  turns.filterMap fun
    | .call c => some c
    | .advance _ => none

variable (P : Program γ τ ι)

def step (s : Pool γ τ) : Turn ι → Option (Pool γ τ)
  | .call c => some ⟨s.shared, s.threads ++ [P.enter c]⟩
  | .advance i =>
      s.threads[i]?.bind fun t => (P.move s.shared t).map fun out => ⟨out.1, s.threads.set i out.2⟩

variable {P}

lemma step_advance {s s' : Pool γ τ} {i : ℕ} (h : step P s (.advance i) = some s') :
    ∃ t g t', s.threads[i]? = some t ∧ P.move s.shared t = some (g, t') ∧
      s' = ⟨g, s.threads.set i t'⟩ := by
  obtain ⟨t, ht, hrest⟩ := Option.bind_eq_some_iff.mp h
  obtain ⟨⟨g, t'⟩, hmove, rfl⟩ := Option.map_eq_some_iff.mp hrest
  exact ⟨t, g, t', ht, hmove, rfl⟩

lemma step_advance_of_move {s : Pool γ τ} {i : ℕ} {t t' : τ} {g : γ}
    (ht : s.threads[i]? = some t) (hmove : P.move s.shared t = some (g, t')) :
    step P s (.advance i) = some ⟨g, s.threads.set i t'⟩ := by
  simp [step, ht, hmove]

/-! ## Assertions -/

/-- Every step keeps an assertion on the shared state and one on the thread that takes it. -/
structure Keeps (P : Program γ τ ι) (I : γ → Prop) (T : τ → Prop) : Prop where
  enter : ∀ c, T (P.enter c)
  move : ∀ {g t g' t'}, I g → T t → P.move g t = some (g', t') → I g' ∧ T t'

def Holds (I : γ → Prop) (T : τ → Prop) (s : Pool γ τ) : Prop :=
  I s.shared ∧ ∀ t ∈ s.threads, T t

section Keeps

variable {I : γ → Prop} {T : τ → Prop}

lemma Keeps.turn (h : Keeps P I T) {s s' : Pool γ τ} {a : Turn ι} (hs : Holds I T s)
    (hstep : step P s a = some s') : Holds I T s' := by
  cases a with
  | call c =>
      obtain rfl := Option.some.inj hstep
      refine ⟨hs.1, fun t ht => ?_⟩
      rcases List.mem_append.mp ht with ht | ht
      · exact hs.2 t ht
      · obtain rfl := List.mem_singleton.mp ht
        exact h.enter c
  | advance i =>
      obtain ⟨t, g, t', ht, hmove, rfl⟩ := step_advance hstep
      obtain ⟨hg, ht'⟩ := h.move hs.1 (hs.2 t (List.mem_of_getElem? ht)) hmove
      refine ⟨hg, fun u hu => ?_⟩
      rcases List.mem_or_eq_of_mem_set hu with hu | rfl
      · exact hs.2 u hu
      · exact ht'

/-- The rule for schedules. -/
theorem Keeps.exec (h : Keeps P I T) {s s' : Pool γ τ} {turns : List (Turn ι)} (hs : Holds I T s)
    (hrun : Run.exec (step P) s turns = some s') : Holds I T s' :=
  Run.exec_invariant (step P) (fun _ _ _ hs hstep => h.turn hs hstep) hs hrun

end Keeps

/-! ## Calls and turns -/

section Calls

variable {label : τ → ι}

/-- The threads stand for the calls of the schedule, if each carries its own. -/
theorem map_threads (henter : ∀ c, label (P.enter c) = c)
    (hmove : ∀ {g t g' t'}, P.move g t = some (g', t') → label t' = label t)
    {s s' : Pool γ τ} {turns : List (Turn ι)} (hrun : Run.exec (step P) s turns = some s') :
    s'.threads.map label = s.threads.map label ++ calls turns := by
  induction turns generalizing s with
  | nil =>
      obtain rfl := Option.some.inj hrun
      simp [calls]
  | cons a turns ih =>
      obtain ⟨s₁, hstep, hrest⟩ := Option.bind_eq_some_iff.mp hrun
      rw [ih hrest]
      cases a with
      | call c =>
          obtain rfl := Option.some.inj hstep
          simp [calls, henter]
      | advance i =>
          obtain ⟨t, g, t', ht, hgt, rfl⟩ := step_advance hstep
          obtain ⟨hlt, hi⟩ := List.getElem?_eq_some_iff.mp ht
          have hlt' : i < (s.threads.map label).length := by simpa using hlt
          have hlabel : label t' = (s.threads.map label)[i] := by
            rw [List.getElem_map, hi, hmove hgt]
          rw [List.map_set, hlabel, List.set_getElem_self]
          simp [calls]

end Calls

section Bounded

/-- The turns of thread `i` in a schedule. -/
def turnsOf (i : ℕ) (turns : List (Turn ι)) : ℕ :=
  turns.countP fun
    | .call _ => false
    | .advance j => j == i

/-- Every step of a thread leaves it fewer. -/
structure Bounded (P : Program γ τ ι) (left : τ → ℕ) (bound : ℕ) : Prop where
  enter : ∀ c, left (P.enter c) ≤ bound
  move : ∀ {g t g' t'}, P.move g t = some (g', t') → left t' < left t

variable {left : τ → ℕ} {bound : ℕ}

/-- The turns `taken` come off the bound of each thread, and there are none of a thread yet to be
born. -/
def Spent (left : τ → ℕ) (bound : ℕ) (taken : ℕ → ℕ) (s : Pool γ τ) : Prop :=
  ∀ i, (∀ t, s.threads[i]? = some t → left t + taken i ≤ bound) ∧
    (s.threads[i]? = none → taken i = 0)

lemma Bounded.turn (h : Bounded P left bound) {taken : ℕ → ℕ} {s s' : Pool γ τ} {a : Turn ι}
    (hs : Spent left bound taken s) (hstep : step P s a = some s') :
    Spent left bound (fun i => taken i + turnsOf i [a]) s' := by
  intro i
  obtain ⟨hsome, hnone⟩ := hs i
  cases a with
  | call c =>
      obtain rfl := Option.some.inj hstep
      rcases Nat.lt_trichotomy i s.threads.length with hlt | rfl | hgt
      · rw [List.getElem?_append_left hlt]
        exact ⟨hsome, hnone⟩
      · have htaken := hnone (List.getElem?_eq_none (Nat.le_refl _))
        refine ⟨fun t ht => ?_, fun _ => htaken⟩
        rw [List.getElem?_concat_length] at ht
        obtain rfl := Option.some.inj ht
        simpa [turnsOf, htaken] using h.enter c
      · have htaken := hnone (List.getElem?_eq_none (Nat.le_of_lt hgt))
        refine ⟨fun t ht => ?_, fun _ => htaken⟩
        rw [List.getElem?_eq_none (by simpa using Nat.succ_le_of_lt hgt)] at ht
        cases ht
  | advance j =>
      obtain ⟨t, g, t', ht, hmove, rfl⟩ := step_advance hstep
      have hlt := (List.getElem?_eq_some_iff.mp ht).1
      by_cases hj : j = i
      · subst hj
        rw [List.getElem?_set_self hlt]
        refine ⟨fun u hu => ?_, nofun⟩
        obtain rfl := Option.some.inj hu
        have hbefore := hsome t ht
        have hless := h.move hmove
        simp only [turnsOf, List.countP_singleton, beq_self_eq_true, if_true]
        omega
      · rw [List.getElem?_set_ne hj]
        simpa [turnsOf, hj] using hs i

lemma Bounded.spent (h : Bounded P left bound) {taken : ℕ → ℕ} {s s' : Pool γ τ}
    {turns : List (Turn ι)} (hs : Spent left bound taken s)
    (hrun : Run.exec (step P) s turns = some s') :
    Spent left bound (fun i => taken i + turnsOf i turns) s' := by
  induction turns generalizing taken s with
  | nil =>
      obtain rfl := Option.some.inj hrun
      exact hs
  | cons a turns ih =>
      obtain ⟨s₁, hstep, hrest⟩ := Option.bind_eq_some_iff.mp hrun
      have hsum : ∀ i, turnsOf i [a] + turnsOf i turns = turnsOf i (a :: turns) :=
        fun i => by rw [turnsOf, turnsOf, ← List.countP_append, List.singleton_append]; rfl
      simpa only [Nat.add_assoc, hsum] using ih (h.turn hs hstep) hrest

/-- What a thread can still do and the turns it has taken stay within its bound. -/
theorem Bounded.exec (h : Bounded P left bound) {g : γ} {s : Pool γ τ} {turns : List (Turn ι)}
    (hrun : Run.exec (step P) ⟨g, []⟩ turns = some s) {i : ℕ} {t : τ}
    (ht : s.threads[i]? = some t) : left t + turnsOf i turns ≤ bound := by
  have hnone : Spent left bound (fun _ => 0) (⟨g, []⟩ : Pool γ τ) :=
    fun i => ⟨nofun, fun _ => rfl⟩
  simpa using (h.spent hnone hrun i).1 t ht

/-- From any pool, a thread comes to its end by its own steps. -/
theorem Bounded.exists_exec_alone (h : Bounded P left bound) {s : Pool γ τ} {i : ℕ} {t : τ}
    (ht : s.threads[i]? = some t) : ∃ k, k ≤ left t ∧ ∃ s' t',
      Run.exec (step P) s (List.replicate k (.advance i)) = some s' ∧
        s'.threads[i]? = some t' ∧ P.move s'.shared t' = none := by
  induction hv : left t using Nat.strongRecOn generalizing s t with
  | ind v ih =>
      cases hmove : P.move s.shared t with
      | none => exact ⟨0, Nat.zero_le _, s, t, rfl, ht, hmove⟩
      | some out =>
          have hless := h.move hmove
          have hlt := (List.getElem?_eq_some_iff.mp ht).1
          have hnext : (s.threads.set i out.2)[i]? = some out.2 := List.getElem?_set_self hlt
          obtain ⟨k, hk, s', t', hrun, ht', hend⟩ :=
            @ih (left out.2) (hv ▸ hless) ⟨out.1, s.threads.set i out.2⟩ out.2 hnext rfl
          refine ⟨k + 1, by omega, s', t', ?_, ht', hend⟩
          rw [List.replicate_succ, Run.exec_cons, step_advance_of_move ht hmove]
          exact hrun

end Bounded

end Interleaving
