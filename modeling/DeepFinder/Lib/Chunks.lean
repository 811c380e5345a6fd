import Mathlib.Data.List.Basic
import Mathlib.Tactic.Common

/-!
# Splitting a list into chunks

`chunks k l` is the list of consecutive pieces of length `k` of `l`, the last one possibly
shorter.  A loop over chunks is reasoned about with `chunks_of_ne_nil`, which peels the first
chunk off, and `flatten_chunks`.
-/

namespace Chunks

variable {α : Type*}

/-- The first `fuel` chunks of length `k`. -/
def take (k : ℕ) : ℕ → List α → List (List α)
  | 0, _ => []
  | _ + 1, [] => []
  | fuel + 1, a :: l => (a :: l).take k :: take k fuel ((a :: l).drop k)

/-- The consecutive pieces of length `k`. -/
def chunks (k : ℕ) (l : List α) : List (List α) := take k l.length l

@[simp] lemma chunks_nil (k : ℕ) : chunks k ([] : List α) = [] := rfl

lemma take_eq_of_le {k : ℕ} (hk : 0 < k) {fuel : ℕ} {l : List α} (h : l.length ≤ fuel) :
    take k fuel l = chunks k l := by
  induction fuel using Nat.strongRecOn generalizing l with
  | ind fuel ih =>
      cases l with
      | nil => cases fuel <;> rfl
      | cons a l =>
          obtain ⟨fuel, rfl⟩ : ∃ f, fuel = f + 1 := ⟨fuel - 1, by simp at h; omega⟩
          have hdrop : ((a :: l).drop k).length ≤ l.length := by simp; omega
          have hfuel : l.length ≤ fuel := by simpa using h
          rw [chunks, take, List.length_cons, take,
            ih fuel (Nat.lt_succ_self _) (Nat.le_trans hdrop hfuel),
            ih l.length (Nat.lt_succ_of_le hfuel) hdrop]

lemma chunks_of_ne_nil {k : ℕ} (hk : 0 < k) {l : List α} (h : l ≠ []) :
    chunks k l = l.take k :: chunks k (l.drop k) := by
  cases l with
  | nil => exact absurd rfl h
  | cons a l =>
      have hdrop : ((a :: l).drop k).length ≤ l.length := by simp; omega
      rw [chunks, List.length_cons, take, take_eq_of_le hk hdrop]

/-- Induction over the chunks of a list. -/
theorem chunk_induction {k : ℕ} (hk : 0 < k) {P : List α → Prop} (nil : P [])
    (step : ∀ l, l ≠ [] → P (l.drop k) → P l) (l : List α) : P l := by
  generalize hn : l.length = n
  induction n using Nat.strongRecOn generalizing l with
  | ind n ih =>
      by_cases hl : l = []
      · exact hl ▸ nil
      · have hpos : 0 < l.length := List.length_pos_iff.mpr hl
        exact step l hl (ih (l.drop k).length (by simp; omega) _ rfl)

lemma flatten_chunks {k : ℕ} (hk : 0 < k) (l : List α) : (chunks k l).flatten = l := by
  induction l using chunk_induction hk with
  | nil => rfl
  | step l hl ih => rw [chunks_of_ne_nil hk hl, List.flatten_cons, ih, List.take_append_drop]

lemma length_chunks {k : ℕ} (hk : 0 < k) (l : List α) :
    (chunks k l).length = (l.length + k - 1) / k := by
  induction l using chunk_induction hk with
  | nil =>
      simp only [chunks_nil, List.length_nil]
      exact (Nat.div_eq_of_lt (by omega)).symm
  | step l hl ih =>
      have hpos : 0 < l.length := List.length_pos_iff.mpr hl
      rw [chunks_of_ne_nil hk hl, List.length_cons, ih, List.length_drop]
      rcases Nat.lt_or_ge l.length k with hlt | hge
      · rw [Nat.div_eq_of_lt (by omega),
          Nat.div_eq_of_lt_le (k := 1) (by omega) (by omega)]
      · rw [show l.length + k - 1 = (l.length - k + k - 1) + k by omega,
          Nat.add_div_right _ hk]

/-- The `i`-th chunk. -/
lemma getElem?_chunks {k : ℕ} (hk : 0 < k) (l : List α) (i : ℕ) (h : i * k < l.length) :
    (chunks k l)[i]? = some ((l.drop (i * k)).take k) := by
  induction i generalizing l with
  | zero =>
      have hl : l ≠ [] := by
        rintro rfl
        simp at h
      simp [chunks_of_ne_nil hk hl]
  | succ i ih =>
      have hl : l ≠ [] := by
        rintro rfl
        simp at h
      rw [chunks_of_ne_nil hk hl, List.getElem?_cons_succ,
        ih (l.drop k) (by rw [List.length_drop]; rw [Nat.succ_mul] at h; omega),
        List.drop_drop, Nat.succ_mul, Nat.add_comm k]

lemma length_le_of_mem_chunks {k : ℕ} (hk : 0 < k) (l : List α) :
    ∀ c ∈ chunks k l, c.length ≤ k := by
  induction l using chunk_induction hk with
  | nil => simp
  | step l hl ih =>
      rw [chunks_of_ne_nil hk hl]
      intro c hc
      rcases List.mem_cons.mp hc with rfl | hc
      · rw [List.length_take]
        omega
      · exact ih c hc

/-- What holds of every piece of length `k`, the empty ones behind the end included. -/
lemma forall_mem_chunks_iff {k : ℕ} (hk : 0 < k) {P : List α → Prop} (hnil : P []) (l : List α) :
    (∀ c ∈ chunks k l, P c) ↔ ∀ i, P ((l.drop (i * k)).take k) := by
  constructor
  · intro h i
    rcases Nat.lt_or_ge (i * k) l.length with hlt | hge
    · exact h _ (List.mem_of_getElem? (getElem?_chunks hk l i hlt))
    · rw [List.drop_eq_nil_of_le hge, List.take_nil]
      exact hnil
  · intro h
    induction l using chunk_induction hk with
    | nil => exact fun c hc => nomatch hc
    | step l hl ih =>
        rw [chunks_of_ne_nil hk hl]
        refine List.forall_mem_cons.mpr ⟨?_, ih fun i => ?_⟩
        · have hfirst := h 0
          rwa [Nat.zero_mul, List.drop_zero] at hfirst
        · have hnext := h (i + 1)
          rwa [Nat.succ_mul, Nat.add_comm, ← List.drop_drop] at hnext

end Chunks
