import Mathlib.Tactic.Common

/-!
# Runs of a labelled transition system

A system is a partial step function `step : σ → α → Option σ`: the label `α` names the action
and everything the environment chooses about it, and `none` says the action is not enabled.
`exec` folds it over a list of labels.

An invariant that every step preserves under a side condition on the action and on the state it
starts from holds at the end of every run whose steps meet that condition: `Guarded` collects
the condition along a run and `exec_invariant_of_guarded` is the rule.
-/

namespace Run

variable {σ α : Type*} (step : σ → α → Option σ)

lemma of_enabled {c : Prop} [Decidable c] {s t : σ} (h : (if c then some s else none) = some t) :
    c ∧ s = t := by
  obtain ⟨hc, ht⟩ := Option.ite_none_right_eq_some.mp h
  exact ⟨hc, Option.some.inj ht⟩

/-- The state reached from `s` by the labels of `as`, if each is enabled in turn. -/
def exec : σ → List α → Option σ
  | s, [] => some s
  | s, a :: as => (step s a).bind fun s' => exec s' as

@[simp] lemma exec_nil (s : σ) : exec step s [] = some s := rfl

lemma exec_cons (s : σ) (a : α) (as : List α) :
    exec step s (a :: as) = (step s a).bind fun s' => exec step s' as := rfl

lemma exec_append (s : σ) (as bs : List α) :
    exec step s (as ++ bs) = (exec step s as).bind fun s' => exec step s' bs := by
  induction as generalizing s with
  | nil => rfl
  | cons a as ih =>
      rw [List.cons_append, exec_cons, exec_cons, Option.bind_assoc]
      exact congrArg _ (funext ih)

/-- Every step of the run from `s` along `as` starts in a state that meets `ok`.  Behind a label
that is not enabled there is no run, and nothing is asked. -/
def Guarded (ok : σ → α → Prop) : σ → List α → Prop
  | _, [] => True
  | s, a :: as => ok s a ∧ match step s a with
      | some s' => Guarded ok s' as
      | none => True

instance Guarded.decidable (ok : σ → α → Prop) [∀ s a, Decidable (ok s a)] :
    ∀ s as, Decidable (Guarded step ok s as)
  | _, [] => inferInstanceAs (Decidable True)
  | s, a :: as => by
      have hrest : Decidable (match step s a with
          | some s' => Guarded step ok s' as
          | none => True) :=
        match step s a with
        | some s' => Guarded.decidable ok s' as
        | none => inferInstanceAs (Decidable True)
      exact inferInstanceAs (Decidable (_ ∧ _))

lemma Guarded.tail {ok : σ → α → Prop} {s s' : σ} {a : α} {as : List α}
    (h : Guarded step ok s (a :: as)) (hs' : step s a = some s') : Guarded step ok s' as := by
  have hrest := h.2
  rwa [hs'] at hrest

lemma Guarded.left {ok : σ → α → Prop} {s : σ} {as bs : List α}
    (h : Guarded step ok s (as ++ bs)) : Guarded step ok s as := by
  induction as generalizing s with
  | nil => trivial
  | cons a as ih =>
      refine ⟨h.1, ?_⟩
      cases hs : step s a with
      | none => trivial
      | some s' => exact ih (h.tail step hs)

lemma Guarded.right {ok : σ → α → Prop} {s s' : σ} {as bs : List α}
    (h : Guarded step ok s (as ++ bs)) (hs : exec step s as = some s') :
    Guarded step ok s' bs := by
  induction as generalizing s with
  | nil =>
      obtain rfl := Option.some.inj hs
      exact h
  | cons a as ih =>
      obtain ⟨s₁, hs₁, hrest⟩ := Option.bind_eq_some_iff.mp hs
      exact ih (h.tail step hs₁) hrest

lemma guarded_of_forall {ok : α → Prop} {as : List α} (h : ∀ a ∈ as, ok a) (s : σ) :
    Guarded step (fun _ a => ok a) s as := by
  induction as generalizing s with
  | nil => trivial
  | cons a as ih =>
      refine ⟨h a (List.mem_cons_self ..), ?_⟩
      cases step s a with
      | none => trivial
      | some s' => exact ih (fun b hb => h b (List.mem_cons_of_mem _ hb)) s'

lemma Guarded.mono {ok ok' : σ → α → Prop} (hok : ∀ s a, ok s a → ok' s a) {s : σ} {as : List α}
    (h : Guarded step ok s as) : Guarded step ok' s as := by
  induction as generalizing s with
  | nil => trivial
  | cons a as ih =>
      refine ⟨hok s a h.1, ?_⟩
      cases hs : step s a with
      | none => trivial
      | some s' => exact ih (h.tail step hs)

lemma Guarded.and_forall {ok : σ → α → Prop} {c : α → Prop} {s : σ} {as : List α}
    (h : Guarded step ok s as) (hc : ∀ a ∈ as, c a) :
    Guarded step (fun s a => ok s a ∧ c a) s as := by
  induction as generalizing s with
  | nil => trivial
  | cons a as ih =>
      refine ⟨⟨h.1, hc a (List.mem_cons_self ..)⟩, ?_⟩
      cases hs : step s a with
      | none => trivial
      | some s' => exact ih (h.tail step hs) fun b hb => hc b (List.mem_cons_of_mem _ hb)

lemma guarded_of_invariant {ok : σ → α → Prop} {I : σ → Prop} {c : α → Prop}
    (hok : ∀ s a, I s → c a → ok s a) (hstep : ∀ s a s', I s → step s a = some s' → I s')
    {s : σ} {as : List α} (hs : I s) (has : ∀ a ∈ as, c a) : Guarded step ok s as := by
  induction as generalizing s with
  | nil => trivial
  | cons a as ih =>
      refine ⟨hok s a hs (has a (List.mem_cons_self ..)), ?_⟩
      cases hs' : step s a with
      | none => trivial
      | some s' => exact ih (hstep s a s' hs hs') fun b hb => has b (List.mem_cons_of_mem _ hb)

/-- The invariant rule, for steps that preserve `I` when they meet `ok`. -/
theorem exec_invariant_of_guarded {ok : σ → α → Prop} {I : σ → Prop}
    (hstep : ∀ s a s', ok s a → I s → step s a = some s' → I s')
    {s t : σ} {as : List α} (hs : I s) (hok : Guarded step ok s as)
    (hrun : exec step s as = some t) : I t := by
  induction as generalizing s with
  | nil =>
      obtain rfl := Option.some.inj hrun
      exact hs
  | cons a as ih =>
      obtain ⟨s', hs', hrest⟩ := Option.bind_eq_some_iff.mp hrun
      exact ih (hstep s a s' hok.1 hs hs') (hok.tail step hs') hrest

/-- The invariant rule, for steps that preserve `I` in any case. -/
theorem exec_invariant {I : σ → Prop} (hstep : ∀ s a s', I s → step s a = some s' → I s')
    {s t : σ} {as : List α} (hs : I s) (hrun : exec step s as = some t) : I t :=
  exec_invariant_of_guarded step (fun s a s' _ => hstep s a s') hs
    (guarded_of_forall step (fun _ _ => trivial) s) hrun

/-- Where every step lowers a number, the run and what is left of the number make up no more than
there was of it. -/
theorem length_add_le {c : α → Prop} {left : σ → ℕ}
    (hstep : ∀ s a s', c a → step s a = some s' → left s' < left s) {s t : σ} {as : List α}
    (has : ∀ a ∈ as, c a) (hrun : exec step s as = some t) : as.length + left t ≤ left s := by
  induction as generalizing s with
  | nil =>
      obtain rfl := Option.some.inj hrun
      simp
  | cons a as ih =>
      obtain ⟨s', hs', hrest⟩ := Option.bind_eq_some_iff.mp hrun
      have hlt := hstep s a s' (has a (List.mem_cons_self ..)) hs'
      have hle := ih (fun b hb => has b (List.mem_cons_of_mem _ hb)) hrest
      rw [List.length_cons]
      omega

end Run
