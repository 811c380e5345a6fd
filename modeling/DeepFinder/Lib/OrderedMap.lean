import Mathlib.Data.List.Basic
import Mathlib.Order.Lattice
import Mathlib.Tactic.Common

/-!
# Ordered association lists

`OrderedMap κ ν` is the list of bindings of a map in ascending key order: the iteration order of
a B-tree map.  `modify` is the entry API (update a binding, or create one), `find?` the lookup,
and `erase` removes a binding.  Lookup after an update is characterised by `find?_modify` and
`find?_erase`; `modify` and `erase` keep the keys ascending (`Ascending.modify`,
`Ascending.erase`), so every key occurs once, and a map is determined by its lookups (`ext`).
-/

abbrev OrderedMap (κ ν : Type*) := List (κ × ν)

namespace OrderedMap

variable {κ ν : Type*} [LinearOrder κ]

/-- The binding of `k`. -/
def find? (m : OrderedMap κ ν) (k : κ) : Option ν :=
  match m with
  | [] => none
  | (k', v) :: m => if k = k' then some v else find? m k

/-- Replace the binding of `k` by `f` of the old one; `none` stands for an absent binding. -/
def modify (m : OrderedMap κ ν) (k : κ) (f : Option ν → ν) : OrderedMap κ ν :=
  match m with
  | [] => [(k, f none)]
  | (k', v) :: m =>
      if k < k' then (k, f none) :: (k', v) :: m
      else if k = k' then (k, f (some v)) :: m
      else (k', v) :: modify m k f

/-- Remove the binding of `k`. -/
def erase (m : OrderedMap κ ν) (k : κ) : OrderedMap κ ν :=
  m.filter fun b => b.1 ≠ k

def Ascending (m : OrderedMap κ ν) : Prop := (m.map Prod.fst).Pairwise (· < ·)

lemma Ascending.nil : Ascending ([] : OrderedMap κ ν) := List.Pairwise.nil

lemma ascending_cons {k : κ} {v : ν} {m : OrderedMap κ ν} :
    Ascending ((k, v) :: m) ↔ (∀ b ∈ m, k < b.1) ∧ Ascending m := by
  simp [Ascending, List.pairwise_cons]

lemma Ascending.nodup_keys {m : OrderedMap κ ν} (h : Ascending m) :
    (m.map Prod.fst).Nodup := h.imp fun hlt => ne_of_lt hlt

lemma find?_eq_none {m : OrderedMap κ ν} {k : κ} (h : ∀ b ∈ m, b.1 ≠ k) : find? m k = none := by
  induction m with
  | nil => rfl
  | cons b m ih =>
      obtain ⟨k', v⟩ := b
      have hk : k ≠ k' := fun he => h (k', v) (List.mem_cons_self ..) he.symm
      rw [find?, if_neg hk, ih fun b hb => h b (List.mem_cons_of_mem _ hb)]

lemma mem_of_find? {m : OrderedMap κ ν} {k : κ} {v : ν} (h : find? m k = some v) :
    (k, v) ∈ m := by
  induction m with
  | nil => cases h
  | cons b m ih =>
      obtain ⟨k', v'⟩ := b
      rw [find?] at h
      split at h
      · rename_i hk
        obtain rfl := Option.some.inj h
        simp [hk]
      · exact List.mem_cons_of_mem _ (ih h)

lemma find?_of_mem {m : OrderedMap κ ν} (hm : Ascending m) {k : κ} {v : ν} (h : (k, v) ∈ m) :
    find? m k = some v := by
  induction m with
  | nil => cases h
  | cons b m ih =>
      obtain ⟨k', v'⟩ := b
      obtain ⟨hlt, hm⟩ := ascending_cons.mp hm
      rw [find?]
      rcases List.mem_cons.mp h with heq | hmem
      · obtain ⟨rfl, rfl⟩ := Prod.mk.inj heq
        rw [if_pos rfl]
      · rw [if_neg (hlt _ hmem).ne', ih hm hmem]

lemma mem_modify_fst {m : OrderedMap κ ν} {k : κ} {f : Option ν → ν} {b : κ × ν}
    (h : b ∈ modify m k f) : b.1 = k ∨ b ∈ m := by
  induction m with
  | nil =>
      obtain rfl : b = (k, f none) := by simpa [modify] using h
      exact Or.inl rfl
  | cons c m ih =>
      obtain ⟨k', v⟩ := c
      rw [modify] at h
      split at h
      · rcases List.mem_cons.mp h with rfl | h
        · exact Or.inl rfl
        · exact Or.inr h
      · split at h
        · rcases List.mem_cons.mp h with rfl | h
          · exact Or.inl rfl
          · exact Or.inr (List.mem_cons_of_mem _ h)
        · rcases List.mem_cons.mp h with rfl | h
          · exact Or.inr (List.mem_cons_self ..)
          · exact (ih h).imp_right (List.mem_cons_of_mem _)

lemma Ascending.modify {m : OrderedMap κ ν} (hm : Ascending m) (k : κ) (f : Option ν → ν) :
    Ascending (modify m k f) := by
  induction m with
  | nil => simp [OrderedMap.modify, Ascending]
  | cons c m ih =>
      obtain ⟨k', v⟩ := c
      have hcons := ascending_cons.mp hm
      rw [OrderedMap.modify]
      split
      · rename_i hlt
        refine ascending_cons.mpr ⟨fun b hb => ?_, hm⟩
        rcases List.mem_cons.mp hb with rfl | hb
        · exact hlt
        · exact hlt.trans (hcons.1 b hb)
      · rename_i hnlt
        split
        · rename_i heq
          exact ascending_cons.mpr ⟨fun b hb => heq ▸ hcons.1 b hb, hcons.2⟩
        · rename_i hne
          refine ascending_cons.mpr ⟨fun b hb => ?_, ih hcons.2⟩
          rcases mem_modify_fst hb with heq | hb
          · rw [heq]
            exact lt_of_le_of_ne (not_lt.mp hnlt) (Ne.symm hne)
          · exact hcons.1 b hb

/-- Lookup after an update. -/
lemma find?_modify {m : OrderedMap κ ν} (hm : Ascending m) (k : κ) (f : Option ν → ν) (x : κ) :
    find? (modify m k f) x = if x = k then some (f (find? m k)) else find? m x := by
  induction m with
  | nil => simp [modify, find?]
  | cons c m ih =>
      obtain ⟨k', v⟩ := c
      obtain ⟨hlt', hm'⟩ := ascending_cons.mp hm
      rw [modify]
      split
      · -- the key is below every key of the map, so it is new
        rename_i hlt
        have hnone : find? ((k', v) :: m) k = none := by
          refine find?_eq_none fun b hb => ?_
          rcases List.mem_cons.mp hb with rfl | hb
          · exact hlt.ne'
          · exact (hlt.trans (hlt' b hb)).ne'
        rw [hnone, find?]
      · split
        · rename_i heq
          subst heq
          by_cases hx : x = k <;> simp [find?, hx]
        · rename_i hne
          by_cases hx : x = k'
          · subst hx
            simp [find?, Ne.symm hne]
          · simp [find?, hx, hne, ih hm']

lemma Ascending.erase {m : OrderedMap κ ν} (hm : Ascending m) (k : κ) :
    Ascending (erase m k) := by
  unfold Ascending OrderedMap.erase
  exact List.Pairwise.sublist (List.Sublist.map _ List.filter_sublist) hm

/-- Lookup after a removal. -/
lemma find?_erase (m : OrderedMap κ ν) (k x : κ) :
    find? (erase m k) x = if x = k then none else find? m x := by
  induction m with
  | nil => simp [erase, find?]
  | cons c m ih =>
      obtain ⟨k', v⟩ := c
      unfold erase at ih ⊢
      by_cases hk : k' = k
      · subst hk
        by_cases hx : x = k' <;> simp_all [find?]
      · by_cases hx : x = k'
        · subst hx
          simp [find?, hk]
        · simpa [find?, hk, hx] using ih

lemma Ascending.pairwise {m : OrderedMap κ ν} (h : Ascending m) :
    m.Pairwise fun a b => a.1 < b.1 := List.pairwise_map.mp h

/-- Two maps with the same lookups are the same map. -/
lemma ext {m m' : OrderedMap κ ν} (hm : Ascending m) (hm' : Ascending m')
    (h : ∀ k, find? m k = find? m' k) : m = m' := by
  have hnodup : ∀ {l : OrderedMap κ ν}, Ascending l → l.Nodup :=
    fun hl => hl.pairwise.imp fun hlt heq => hlt.ne (congrArg Prod.fst heq)
  have hperm : m.Perm m' := by
    refine (List.perm_ext_iff_of_nodup (hnodup hm) (hnodup hm')).mpr fun b => ?_
    obtain ⟨k, v⟩ := b
    refine ⟨fun hb => mem_of_find? ?_, fun hb => mem_of_find? ?_⟩
    · rw [← h, find?_of_mem hm hb]
    · rw [h, find?_of_mem hm' hb]
  apply hperm.eq_of_pairwise _ hm.pairwise hm'.pairwise
  intro a b _ _ hab hba
  exact absurd hab (lt_asymm hba)

end OrderedMap
