import Mathlib.Data.List.Nodup
import Mathlib.Logic.Function.Basic

/-!
# Sequences of atomic writes

A store of named values, and a list of writes that replace one value each.  A crash leaves a prefix
of the list applied: `apply_take` reads what it left.

Nothing is assumed of the names but that they can be told apart, and nothing of the values.  A name
may be written more than once; `apply_take` is about lists in which none is.
-/

namespace Writes

variable {κ ν : Type*} [DecidableEq κ]

def apply (ws : List (κ × ν)) (d : κ → Option ν) : κ → Option ν :=
  ws.foldl (fun d w => Function.update d w.1 (some w.2)) d

lemma apply_append (ws vs : List (κ × ν)) (d : κ → Option ν) :
    apply (ws ++ vs) d = apply vs (apply ws d) := List.foldl_append ..

lemma apply_of_notMem {ws : List (κ × ν)} {k : κ} (h : k ∉ ws.map Prod.fst) (d : κ → Option ν) :
    apply ws d k = d k := by
  induction ws generalizing d with
  | nil => rfl
  | cons w ws ih =>
      rw [List.map_cons, List.mem_cons, not_or] at h
      have hrest := ih h.2 (Function.update d w.1 (some w.2))
      rw [Function.update_of_ne h.1] at hrest
      exact hrest

/-- With one write a name, a prefix of the writes leaves the values of the writes in it. -/
lemma apply_take {ws : List (κ × ν)} (hws : (ws.map Prod.fst).Nodup) {i : ℕ} {k : κ} {v : ν}
    (h : ws[i]? = some (k, v)) (n : ℕ) (d : κ → Option ν) :
    apply (ws.take n) d k = if i < n then some v else d k := by
  obtain ⟨hi, hget⟩ := List.getElem?_eq_some_iff.mp h
  have hsplit : ws = ws.take i ++ (k, v) :: ws.drop (i + 1) := by
    rw [← hget, List.getElem_cons_drop, List.take_append_drop]
  have hnames := hws
  rw [hsplit, List.map_append, List.map_cons, List.nodup_append] at hnames
  obtain ⟨-, hlater, hearlier⟩ := hnames
  by_cases hn : i < n
  · have htake : ws.take n = ws.take i ++ (k, v) :: (ws.drop (i + 1)).take (n - (i + 1)) := by
      have hlen : (ws.take i).length = i := List.length_take_of_le (Nat.le_of_lt hi)
      conv_lhs => rw [hsplit]
      rw [List.take_append, hlen, List.take_of_length_le (by omega)]
      have hsub : n - i = (n - (i + 1)) + 1 := by omega
      rw [hsub, List.take_succ_cons]
    have hfresh : k ∉ ((ws.drop (i + 1)).take (n - (i + 1))).map Prod.fst := by
      intro hmem
      apply (List.nodup_cons.mp hlater).1
      exact ((List.take_sublist _ _).map Prod.fst).subset hmem
    rw [if_pos hn, htake, apply_append]
    exact (apply_of_notMem hfresh _).trans (Function.update_self ..)
  · rw [if_neg hn]
    apply apply_of_notMem
    intro hmem
    have hsub : k ∈ (ws.take i).map Prod.fst :=
      ((List.take_sublist_take_left (Nat.le_of_not_lt hn)).map Prod.fst).subset hmem
    exact hearlier k hsub k (List.mem_cons_self ..) rfl

end Writes
