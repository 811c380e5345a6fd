import Mathlib.Data.List.Basic
import Mathlib.Order.Basic

/-!
# One element a key

A list cut down to the first element of each key, as a loop with a set of the keys seen does it.  In
an ascending list the elements kept are the least of each key (`mem_keepFirst`), and they ascend
strictly (`keepFirst_ascending`).

Of the keys nothing is needed but a decidable equality.
-/

namespace Keyed

variable {α κ : Type*} [DecidableEq κ]

/-- The first element of each key that was not seen before. -/
def keepFirst (key : α → κ) : List α → List κ → List α
  | [], _ => []
  | a :: l, seen =>
      if key a ∈ seen then keepFirst key l seen else a :: keepFirst key l (key a :: seen)

variable {key : α → κ}

lemma keepFirst_sublist (l : List α) (seen : List κ) : (keepFirst key l seen).Sublist l := by
  induction l generalizing seen with
  | nil => exact List.Sublist.refl _
  | cons a l ih =>
      rw [keepFirst]
      split
      · exact (ih seen).cons a
      · exact (ih _).cons_cons a

lemma key_notMem_of_mem_keepFirst {l : List α} {seen : List κ} {a : α}
    (h : a ∈ keepFirst key l seen) : key a ∉ seen := by
  induction l generalizing seen with
  | nil => cases h
  | cons b l ih =>
      rw [keepFirst] at h
      split at h
      · exact ih h
      · rcases List.mem_cons.mp h with rfl | h
        · assumption
        · exact fun hseen => ih h (List.mem_cons_of_mem _ hseen)

lemma pairwise_keepFirst (l : List α) (seen : List κ) :
    (keepFirst key l seen).Pairwise fun a b => key a ≠ key b := by
  induction l generalizing seen with
  | nil => exact List.Pairwise.nil
  | cons a l ih =>
      rw [keepFirst]
      split
      · exact ih seen
      · refine List.Pairwise.cons (fun b hb heq => ?_) (ih _)
        exact key_notMem_of_mem_keepFirst hb (heq ▸ List.mem_cons_self ..)

lemma exists_mem_keepFirst {l : List α} {seen : List κ} {a : α} (ha : a ∈ l)
    (hseen : key a ∉ seen) : ∃ b ∈ keepFirst key l seen, key b = key a := by
  induction l generalizing seen with
  | nil => cases ha
  | cons c l ih =>
      rw [keepFirst]
      by_cases hc : key c ∈ seen
      · rw [if_pos hc]
        rcases List.mem_cons.mp ha with rfl | ha
        · exact absurd hc hseen
        · exact ih ha hseen
      · rw [if_neg hc]
        by_cases hkey : key c = key a
        · exact ⟨c, List.mem_cons_self .., hkey⟩
        · obtain ⟨b, hb, hba⟩ := ih ((List.mem_cons.mp ha).resolve_left fun h => hkey (h ▸ rfl))
            (fun h => (List.mem_cons.mp h).elim (fun h => hkey h.symm) hseen)
          exact ⟨b, List.mem_cons_of_mem _ hb, hba⟩

section Ascending

variable [PartialOrder α] {l : List α} {seen : List κ} {a b : α}

lemma le_of_mem_keepFirst (hsorted : l.Pairwise (· ≤ ·)) (ha : a ∈ keepFirst key l seen)
    (hb : b ∈ l) (hkey : key b = key a) : a ≤ b := by
  induction l generalizing seen with
  | nil => cases hb
  | cons c l ih =>
      obtain ⟨hc, hl⟩ := List.pairwise_cons.mp hsorted
      rw [keepFirst] at ha
      by_cases hseen : key c ∈ seen
      · rw [if_pos hseen] at ha
        rcases List.mem_cons.mp hb with rfl | hb
        · exact absurd (hkey ▸ hseen) (key_notMem_of_mem_keepFirst ha)
        · exact ih hl ha hb
      · rw [if_neg hseen] at ha
        rcases List.mem_cons.mp ha with rfl | ha
        · rcases List.mem_cons.mp hb with rfl | hb
          · exact le_rfl
          · exact hc b hb
        · rcases List.mem_cons.mp hb with rfl | hb
          · exact absurd (hkey ▸ List.mem_cons_self ..) (key_notMem_of_mem_keepFirst ha)
          · exact ih hl ha hb

lemma mem_keepFirst (hsorted : l.Pairwise (· ≤ ·)) :
    a ∈ keepFirst key l [] ↔ a ∈ l ∧ ∀ b ∈ l, key b = key a → a ≤ b := by
  constructor
  · intro ha
    exact ⟨(keepFirst_sublist l []).subset ha, fun b hb => le_of_mem_keepFirst hsorted ha hb⟩
  · rintro ⟨ha, hleast⟩
    obtain ⟨b, hb, hkey⟩ := exists_mem_keepFirst ha (@List.not_mem_nil _ (key a))
    have hab : a ≤ b := hleast b ((keepFirst_sublist l []).subset hb) hkey
    rwa [le_antisymm hab (le_of_mem_keepFirst hsorted hb ha hkey.symm)]

lemma keepFirst_ascending (hsorted : l.Pairwise (· ≤ ·)) (seen : List κ) :
    (keepFirst key l seen).Pairwise (· < ·) := by
  refine List.Pairwise.imp₂ ?_ (hsorted.sublist (keepFirst_sublist l seen))
    (pairwise_keepFirst l seen)
  intro a b hle hkey
  exact lt_of_le_of_ne hle fun h => hkey (congrArg key h)

end Ascending

end Keyed
