import Mathlib.Data.List.Basic
import Mathlib.Data.List.Induction
import Mathlib.Tactic.Common

/-!
# Rules of which the last one wins

A list of rules decides by the last rule that has something to say.  Two readings of the same rules
come to the same verdict when they agree on the last rule that either of them has decide, or when
the one that passes over it finds the verdict further up (`verdict_eq_iff`).
-/

namespace LastMatch

variable {α β γ : Type*}

def decision (rule : α → Option β) : List α → Option β
  | [] => none
  | a :: l => (decision rule l).or (rule a)

variable {rule r s : α → Option β}

@[simp] lemma decision_nil : decision rule [] = none := rfl

lemma decision_append (l m : List α) :
    decision rule (l ++ m) = (decision rule m).or (decision rule l) := by
  induction l with
  | nil => simp
  | cons a l ih => rw [List.cons_append, decision, ih, decision, Option.or_assoc]

lemma decision_concat (l : List α) (a : α) :
    decision rule (l ++ [a]) = (rule a).or (decision rule l) := by
  rw [decision_append]
  rfl

lemma decision_eq_none_iff {l : List α} : decision rule l = none ↔ ∀ a ∈ l, rule a = none := by
  induction l with
  | nil => simp
  | cons a l ih => simp [decision, ih, and_comm]

lemma decision_of_last {init rest : List α} {a : α} (h : ∀ b ∈ rest, rule b = none) :
    decision rule (init ++ a :: rest) = (rule a).or (decision rule init) := by
  have hrest : decision rule (a :: rest) = rule a := by
    rw [decision, decision_eq_none_iff.mpr h, Option.none_or]
  rw [decision_append, hrest]

lemma decision_filterMap (f : γ → Option α) (l : List γ) :
    decision rule (l.filterMap f) = decision (fun c => (f c).bind rule) l := by
  induction l with
  | nil => rfl
  | cons c l ih =>
      cases h : f c with
      | none => simp [decision, h, ih]
      | some a => simp [decision, h, ih]

/-- Rules that have nothing to say may be left out. -/
lemma decision_filter {p : α → Bool} {l : List α} (h : ∀ a ∈ l, p a = false → rule a = none) :
    decision rule (l.filter p) = decision rule l := by
  induction l with
  | nil => rfl
  | cons a l ih =>
      have hl := ih fun b hb => h b (List.mem_cons_of_mem _ hb)
      cases ha : p a with
      | true => rw [List.filter_cons_of_pos ha, decision, hl, decision]
      | false =>
          rw [List.filter_cons_of_neg (by simp [ha]), hl, decision,
            h a (List.mem_cons_self ..) ha, Option.or_none]

/-! ## Two readings -/

variable {δ : Type*} (v : Option β → δ)

/-- A rule, behind the rules `init`, has the same verdict in both readings; a reading that passes
over it has the verdict of `init`. -/
def AgreeAt (r s : α → Option β) (init : List α) (a : α) : Prop :=
  match r a, s a with
  | some x, some y => v (some x) = v (some y)
  | some x, none => v (some x) = v (decision s init)
  | none, some y => v (decision r init) = v (some y)
  | none, none => True

/-- The readings agree at the last rule that one of them has decide. -/
def AgreeAtLast (r s : α → Option β) (l : List α) : Prop :=
  ∀ init a rest, l = init ++ a :: rest → (∀ b ∈ rest, r b = none ∧ s b = none) →
    AgreeAt v r s init a

/-- Two readings come to the same verdict when they agree at the last rule that one of them has
decide. -/
theorem verdict_eq_iff {l : List α} :
    v (decision r l) = v (decision s l) ↔ AgreeAtLast v r s l := by
  have hstep : ∀ {init rest : List α} {a : α}, (∀ b ∈ rest, r b = none ∧ s b = none) →
      (r a ≠ none ∨ s a ≠ none) →
        (v (decision r (init ++ a :: rest)) = v (decision s (init ++ a :: rest)) ↔
          AgreeAt v r s init a) := by
    intro init rest a hrest ha
    rw [decision_of_last fun b hb => (hrest b hb).1, decision_of_last fun b hb => (hrest b hb).2,
      AgreeAt]
    cases hr : r a <;> cases hs : s a
    · simp [hr, hs] at ha
    all_goals simp
  constructor
  · rintro h init a rest rfl hrest
    by_cases ha : r a ≠ none ∨ s a ≠ none
    · exact (hstep hrest ha).mp h
    · rw [not_or, not_not, not_not] at ha
      rw [AgreeAt, ha.1, ha.2]
      trivial
  · intro h
    induction l using List.reverseRecOn with
    | nil => rfl
    | append_singleton l a ih =>
        by_cases ha : r a ≠ none ∨ s a ≠ none
        · have hat := h l a [] rfl (by simp)
          exact (hstep (by simp) ha).mpr hat
        · rw [not_or, not_not, not_not] at ha
          rw [decision_concat, decision_concat, ha.1, ha.2, Option.none_or, Option.none_or]
          refine ih ?_
          rintro init b rest rfl hrest
          refine h init b (rest ++ [a]) (by simp) fun c hc => ?_
          rcases List.mem_append.mp hc with hc | hc
          · exact hrest c hc
          · obtain rfl := List.mem_singleton.mp hc
            exact ha

end LastMatch
