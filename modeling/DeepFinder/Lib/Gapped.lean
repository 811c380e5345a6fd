import Mathlib.Data.List.Infix

/-!
# Patterns with gaps

A pattern is a list of places.  A place that names something stands for one related letter of a
word, and a gap for any letters at all (`Gapped.Fits`).  Patterns are put together as their words
are (`Fits.append`), and what a pattern names without a gap stands in each of its words in one
piece (`Fits.exists_piece`).
-/

namespace Gapped

variable {α β : Type*} {R : α → β → Prop}

/-- The words of a pattern: a named place stands for one related letter, and a gap for any word. -/
inductive Fits (R : α → β → Prop) : List (Option α) → List β → Prop
  | nil : Fits R [] []
  | here {x : α} {y : β} {p : List (Option α)} {w : List β} (hxy : R x y) (h : Fits R p w) :
      Fits R (some x :: p) (y :: w)
  | gap {p : List (Option α)} {w : List β} (u : List β) (h : Fits R p w) :
      Fits R (none :: p) (u ++ w)

variable {p q : List (Option α)} {w v : List β}

lemma Fits.append (hp : Fits R p w) (hq : Fits R q v) : Fits R (p ++ q) (w ++ v) := by
  induction hp with
  | nil => exact hq
  | here hxy _ ih => exact .here hxy ih
  | gap u _ ih =>
      rw [List.append_assoc]
      exact .gap u ih

/-- Gaps alone fit every word. -/
lemma fits_of_gaps (hne : p ≠ []) (h : ∀ x ∈ p, x = none) (w : List β) : Fits R p w := by
  induction p generalizing w with
  | nil => exact absurd rfl hne
  | cons x p ih =>
      obtain rfl := h x List.mem_cons_self
      cases p with
      | nil =>
          rw [← List.append_nil w]
          exact .gap w .nil
      | cons y p =>
          exact .gap [] (ih (List.cons_ne_nil y p) (fun z hz => h z (List.mem_cons_of_mem _ hz)) w)

/-- A word of two patterns in a row is cut between them. -/
lemma Fits.split (h : Fits R (p ++ q) w) : ∃ u v, w = u ++ v ∧ Fits R p u ∧ Fits R q v := by
  induction p generalizing w with
  | nil => exact ⟨[], w, rfl, .nil, h⟩
  | cons x p ih =>
      cases h with
      | here hxy h =>
          obtain ⟨u, v, rfl, hu, hv⟩ := ih h
          exact ⟨_ :: u, v, rfl, .here hxy hu, hv⟩
      | gap t h =>
          obtain ⟨u, v, rfl, hu, hv⟩ := ih h
          exact ⟨t ++ u, v, (List.append_assoc t u v).symm, .gap t hu, hv⟩

lemma Fits.forall₂ {xs : List α} (h : Fits R (xs.map some) w) : List.Forall₂ R xs w := by
  induction xs generalizing w with
  | nil =>
      cases h
      exact .nil
  | cons x xs ih =>
      cases h with
      | here hxy h => exact .cons hxy (ih h)

/-- What the pattern names without a gap stands in the word. -/
theorem Fits.exists_piece {xs : List α} (h : Fits R p w) (hxs : xs.map some <:+: p) :
    ∃ v, v <:+: w ∧ List.Forall₂ R xs v := by
  obtain ⟨before, after, rfl⟩ := hxs
  obtain ⟨u, v, rfl, hu, -⟩ := h.split
  obtain ⟨u, v', rfl, -, hv'⟩ := hu.split
  exact ⟨v', ⟨u, v, rfl⟩, hv'.forall₂⟩

end Gapped
