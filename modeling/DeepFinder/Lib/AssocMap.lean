import Mathlib.Data.Finset.Card
import Mathlib.Data.List.Nodup
import Mathlib.Data.List.Perm.Basic

/-!
# Maps as association lists

An unordered map is a list of entries with distinct keys.  `put` updates the entry of a key, or
adds one at the end, so that bounding the size of a map keeps a prefix of it (`putAllCapped_eq`).
What a map holds for a key after many updates depends on the updates of that key alone
(`lookup_putAll`).
-/

namespace AssocMap

variable {κ ν : Type} [DecidableEq κ]

/-- The entry of `k` becomes `f` of what it was. -/
def put (k : κ) (f : Option ν → ν) : List (κ × ν) → List (κ × ν)
  | [] => [(k, f none)]
  | e :: m => if e.1 = k then (k, f (some e.2)) :: m else e :: put k f m

/-- A map in which `k` is new stays as it is when it is full. -/
def putCapped (full : ℕ → Bool) (k : κ) (f : Option ν → ν) (m : List (κ × ν)) : List (κ × ν) :=
  if full m.length ∧ m.lookup k = none then m else put k f m

def putAll (es : List (κ × (Option ν → ν))) (m : List (κ × ν)) : List (κ × ν) :=
  es.foldl (fun m e => put e.1 e.2 m) m

/-- One update after the other, on a map of bounded size. -/
def putAllCapped (full : ℕ → Bool) (es : List (κ × (Option ν → ν))) (m : List (κ × ν)) :
    List (κ × ν) :=
  es.foldl (fun m e => putCapped full e.1 e.2 m) m

/-! ## Lookups -/

lemma lookup_cons (e : κ × ν) (m : List (κ × ν)) (x : κ) :
    (e :: m).lookup x = if x = e.1 then some e.2 else m.lookup x := by
  rw [List.lookup_cons]
  by_cases h : x = e.1
  · simp [h]
  · simp [h, beq_false_of_ne h]

lemma lookup_eq_none {m : List (κ × ν)} {x : κ} : m.lookup x = none ↔ x ∉ m.map Prod.fst := by
  induction m with
  | nil => simp
  | cons e m ih =>
      rw [lookup_cons, List.map_cons, List.mem_cons, not_or, ← ih]
      by_cases h : x = e.1
      · simp [h]
      · simp [h]

lemma mem_of_lookup {m : List (κ × ν)} {x : κ} {v : ν} (h : m.lookup x = some v) : (x, v) ∈ m := by
  induction m with
  | nil => cases h
  | cons e m ih =>
      rw [lookup_cons] at h
      split at h
      · rename_i hx
        obtain rfl := Option.some.inj h
        rw [hx]
        exact List.mem_cons_self ..
      · exact List.mem_cons_of_mem _ (ih h)

lemma lookup_of_mem {m : List (κ × ν)} (hm : (m.map Prod.fst).Nodup) {x : κ} {v : ν}
    (h : (x, v) ∈ m) : m.lookup x = some v := by
  induction m with
  | nil => cases h
  | cons e m ih =>
      rw [List.map_cons, List.nodup_cons] at hm
      rw [lookup_cons]
      rcases List.mem_cons.mp h with rfl | h
      · rw [if_pos rfl]
      · rw [if_neg, ih hm.2 h]
        rintro rfl
        exact hm.1 (List.mem_map.mpr ⟨_, h, rfl⟩)

lemma lookup_eq_some {m : List (κ × ν)} (hm : (m.map Prod.fst).Nodup) {x : κ} {v : ν} :
    m.lookup x = some v ↔ (x, v) ∈ m :=
  ⟨mem_of_lookup, lookup_of_mem hm⟩

lemma lookup_perm {m m' : List (κ × ν)} (hm : (m.map Prod.fst).Nodup) (h : m'.Perm m) (x : κ) :
    m'.lookup x = m.lookup x := by
  have hm' : (m'.map Prod.fst).Nodup := (h.map Prod.fst).nodup_iff.mpr hm
  refine Option.ext fun v => ?_
  rw [lookup_eq_some hm', lookup_eq_some hm, h.mem_iff]

lemma lookup_filter {m : List (κ × ν)} (p : κ → Bool) (x : κ) :
    (m.filter fun e => p e.1).lookup x = if p x then m.lookup x else none := by
  induction m with
  | nil => simp
  | cons e m ih =>
      rw [List.filter_cons]
      cases hp : p e.1 with
      | true =>
          rw [if_pos rfl, lookup_cons, lookup_cons, ih]
          by_cases hx : x = e.1
          · rw [if_pos hx, if_pos hx, hx, hp, if_pos rfl]
          · rw [if_neg hx, if_neg hx]
      | false =>
          rw [if_neg (by simp), lookup_cons, ih]
          by_cases hx : x = e.1
          · simp [hx, hp]
          · rw [if_neg hx]

lemma lookup_without (m : List (κ × ν)) (k x : κ) :
    (m.filter fun e => decide (e.1 ≠ k)).lookup x = if x = k then none else m.lookup x := by
  rw [lookup_filter fun y => decide (y ≠ k)]
  by_cases hx : x = k
  · rw [if_pos hx, if_neg (by simp [hx])]
  · rw [if_neg hx, if_pos (by simp [hx])]

omit [DecidableEq κ] in
lemma nodup_filter {m : List (κ × ν)} (hm : (m.map Prod.fst).Nodup) (p : κ × ν → Bool) :
    ((m.filter p).map Prod.fst).Nodup :=
  hm.sublist (List.filter_sublist.map Prod.fst)

/-! ## Updates -/

lemma lookup_put (k : κ) (f : Option ν → ν) (m : List (κ × ν)) (x : κ) :
    (put k f m).lookup x = if x = k then some (f (m.lookup k)) else m.lookup x := by
  induction m with
  | nil => simp [put, lookup_cons]
  | cons e m ih =>
      rw [put, lookup_cons e m k]
      split
      · rename_i hk
        rw [lookup_cons, lookup_cons]
        by_cases hx : x = k
        · rw [if_pos hx, if_pos hx, if_pos hk.symm]
        · rw [if_neg hx, if_neg hx, if_neg (fun h => hx (h.trans hk))]
      · rename_i hk
        rw [lookup_cons, ih, if_neg (Ne.symm hk), lookup_cons]
        by_cases hx : x = k
        · rw [if_pos hx, if_neg (fun h => hk (h.symm.trans hx)), if_pos hx]
        · rw [if_neg hx, if_neg hx]

/-- Only the value of `f` at what the map holds matters. -/
lemma put_congr {k : κ} {f g : Option ν → ν} {m : List (κ × ν)}
    (h : f (m.lookup k) = g (m.lookup k)) : put k f m = put k g m := by
  induction m with
  | nil => exact congrArg (fun v => [(k, v)]) h
  | cons e m ih =>
      rw [lookup_cons] at h
      rw [put, put]
      by_cases hk : e.1 = k
      · rw [if_pos hk.symm] at h
        rw [if_pos hk, if_pos hk, h]
      · rw [if_neg (Ne.symm hk)] at h
        rw [if_neg hk, if_neg hk, ih h]

lemma map_fst_put (k : κ) (f : Option ν → ν) (m : List (κ × ν)) :
    (put k f m).map Prod.fst =
      if k ∈ m.map Prod.fst then m.map Prod.fst else m.map Prod.fst ++ [k] := by
  induction m with
  | nil => simp [put]
  | cons e m ih =>
      rw [put]
      by_cases hk : e.1 = k
      · rw [if_pos hk, if_pos (by simp [hk]), List.map_cons, List.map_cons, hk]
      · rw [if_neg hk, List.map_cons, ih, List.map_cons]
        by_cases hmem : k ∈ m.map Prod.fst
        · rw [if_pos hmem, if_pos (List.mem_cons_of_mem _ hmem)]
        · rw [if_neg hmem, if_neg (by rw [List.mem_cons, not_or]; exact ⟨Ne.symm hk, hmem⟩)]
          rfl

/-- An update that leaves the value of a key leaves the map. -/
lemma put_eq_self {k : κ} {f : Option ν → ν} {m : List (κ × ν)} {v : ν} (h : m.lookup k = some v)
    (hv : f (some v) = v) : put k f m = m := by
  induction m with
  | nil => cases h
  | cons e m ih =>
      rw [lookup_cons] at h
      rw [put]
      by_cases hk : e.1 = k
      · rw [if_pos hk.symm] at h
        obtain rfl := Option.some.inj h
        rw [if_pos hk, hv, ← hk]
      · rw [if_neg (Ne.symm hk)] at h
        rw [if_neg hk, ih h]

lemma forall_put {P : κ × ν → Prop} {k : κ} {f : Option ν → ν} {m : List (κ × ν)}
    (hm : ∀ e ∈ m, P e) (hf : P (k, f (m.lookup k))) : ∀ e ∈ put k f m, P e := by
  induction m with
  | nil => simpa [put] using hf
  | cons e m ih =>
      rw [lookup_cons] at hf
      rw [put]
      by_cases hk : e.1 = k
      · rw [if_pos hk.symm] at hf
        rw [if_pos hk]
        exact List.forall_mem_cons.mpr ⟨hf, fun x hx => hm x (List.mem_cons_of_mem _ hx)⟩
      · rw [if_neg (Ne.symm hk)] at hf
        rw [if_neg hk]
        exact List.forall_mem_cons.mpr ⟨hm e (List.mem_cons_self ..),
          ih (fun x hx => hm x (List.mem_cons_of_mem _ hx)) hf⟩

lemma nodup_put {m : List (κ × ν)} (hm : (m.map Prod.fst).Nodup) (k : κ) (f : Option ν → ν) :
    ((put k f m).map Prod.fst).Nodup := by
  rw [map_fst_put]
  split
  · exact hm
  · rename_i hk
    exact List.nodup_append'.mpr ⟨hm, List.nodup_singleton k, by simpa using hk⟩

lemma nodup_putAll {es : List (κ × (Option ν → ν))} {m : List (κ × ν)}
    (hm : (m.map Prod.fst).Nodup) : ((putAll es m).map Prod.fst).Nodup := by
  induction es generalizing m with
  | nil => exact hm
  | cons e es ih => exact ih (nodup_put hm e.1 e.2)

lemma forall_putAll {P : κ × ν → Prop} {es : List (κ × (Option ν → ν))} {m : List (κ × ν)}
    (hm : ∀ e ∈ m, P e)
    (hes : ∀ u ∈ es, ∀ v : Option ν, (∀ w, v = some w → P (u.1, w)) → P (u.1, u.2 v)) :
    ∀ e ∈ putAll es m, P e := by
  induction es generalizing m with
  | nil => exact hm
  | cons u es ih =>
      have hput := forall_put hm (hes u (List.mem_cons_self ..) (m.lookup u.1) fun w hw =>
        hm _ (mem_of_lookup hw))
      exact ih hput fun u' hu' => hes u' (List.mem_cons_of_mem _ hu')

def updates (es : List (κ × (Option ν → ν))) (x : κ) (v : Option ν) : Option ν :=
  es.foldl (fun v e => if x = e.1 then some (e.2 v) else v) v

theorem lookup_putAll (es : List (κ × (Option ν → ν))) (m : List (κ × ν)) (x : κ) :
    (putAll es m).lookup x = updates es x (m.lookup x) := by
  induction es generalizing m with
  | nil => rfl
  | cons e es ih =>
      rw [putAll, List.foldl_cons, ← putAll, ih, lookup_put, updates, updates, List.foldl_cons]
      by_cases hx : x = e.1
      · rw [if_pos hx, if_pos hx, hx]
      · rw [if_neg hx, if_neg hx]

/-- When every key has one update, it decides what the map holds. -/
lemma updates_of_nodup {es : List (κ × (Option ν → ν))} (h : (es.map Prod.fst).Nodup) (x : κ)
    (v : Option ν) :
    updates es x v = match es.lookup x with
      | some f => some (f v)
      | none => v := by
  induction es generalizing v with
  | nil => rfl
  | cons e es ih =>
      rw [List.map_cons, List.nodup_cons] at h
      rw [updates, List.foldl_cons, ← updates, ih h.2, lookup_cons]
      by_cases hx : x = e.1
      · rw [if_pos hx, if_pos hx, lookup_eq_none.mpr (hx ▸ h.1)]
      · rw [if_neg hx, if_neg hx]

lemma updates_filter (es : List (κ × (Option ν → ν))) (x : κ) (v : Option ν) :
    updates (es.filter fun e => e.1 = x) x v = updates es x v := by
  induction es generalizing v with
  | nil => rfl
  | cons e es ih =>
      have hcons : ∀ es : List (κ × (Option ν → ν)), updates (e :: es) x v =
          updates es x (if x = e.1 then some (e.2 v) else v) := fun _ => rfl
      by_cases hx : e.1 = x
      · rw [List.filter_cons_of_pos (by simpa using hx), hcons, hcons, ih]
      · rw [List.filter_cons_of_neg (by simpa using hx), hcons, ih, if_neg fun h => hx h.symm]

lemma lookup_map_snd {μ : Type} (g : κ → ν → μ) (m : List (κ × ν)) (x : κ) :
    (m.map fun e => (e.1, g e.1 e.2)).lookup x = (m.lookup x).map (g x) := by
  induction m with
  | nil => rfl
  | cons e m ih =>
      rw [List.map_cons, lookup_cons, lookup_cons, ih]
      by_cases hx : x = e.1
      · rw [if_pos hx, if_pos hx, hx]
        rfl
      · rw [if_neg hx, if_neg hx]

/-! ## Bounded maps -/

lemma putAll_append (es es' : List (κ × (Option ν → ν))) (m : List (κ × ν)) :
    putAll (es ++ es') m = putAll es' (putAll es m) :=
  List.foldl_append ..

lemma length_put (k : κ) (f : Option ν → ν) (m : List (κ × ν)) :
    m.length ≤ (put k f m).length ∧ (put k f m).length ≤ m.length + 1 := by
  have h := congrArg List.length (map_fst_put k f m)
  rw [List.length_map] at h
  rw [h]
  split <;> simp

/-- A key in the first `n` entries is updated there. -/
lemma put_take {k : κ} {f : Option ν → ν} {m : List (κ × ν)} {n : ℕ}
    (h : k ∈ (m.take n).map Prod.fst) : put k f (m.take n) = (put k f m).take n := by
  induction m generalizing n with
  | nil => simp at h
  | cons e m ih =>
      cases n with
      | zero => simp at h
      | succ n =>
          rw [List.take_succ_cons, put, put]
          by_cases hk : e.1 = k
          · rw [if_pos hk, if_pos hk, List.take_succ_cons]
          · rw [if_neg hk, if_neg hk, List.take_succ_cons, ih]
            rw [List.take_succ_cons, List.map_cons, List.mem_cons] at h
            exact h.resolve_left (Ne.symm hk)

/-- The first `n` entries stay when the key is not among them. -/
lemma take_put_of_notMem {k : κ} {f : Option ν → ν} {m : List (κ × ν)} {n : ℕ}
    (h : k ∉ (m.take n).map Prod.fst) (hlen : n ≤ m.length) :
    (put k f m).take n = m.take n := by
  induction m generalizing n with
  | nil =>
      obtain rfl : n = 0 := Nat.le_zero.mp hlen
      rfl
  | cons e m ih =>
      cases n with
      | zero => rfl
      | succ n =>
          rw [List.take_succ_cons, List.map_cons, List.mem_cons, not_or] at h
          rw [put, if_neg (Ne.symm h.1), List.take_succ_cons, List.take_succ_cons,
            ih h.2 (Nat.le_of_succ_le_succ hlen)]

/-- A map bounded by `n` is the first `n` entries of the unbounded one. -/
theorem putAllCapped_eq {full : ℕ → Bool} {n : ℕ} (hfull : ∀ l, full l = true ↔ n ≤ l)
    (es : List (κ × (Option ν → ν))) (m : List (κ × ν)) :
    putAllCapped full es (m.take n) = (putAll es m).take n := by
  induction es generalizing m with
  | nil => rfl
  | cons e es ih =>
      rw [putAllCapped, List.foldl_cons, ← putAllCapped, putAll, List.foldl_cons, ← putAll, ← ih]
      refine congrArg (putAllCapped full es) ?_
      rw [putCapped]
      by_cases hmem : e.1 ∈ (m.take n).map Prod.fst
      · rw [if_neg (fun h => lookup_eq_none.mp h.2 hmem), put_take hmem]
      · by_cases hlen : n ≤ m.length
        · have hcap : full (m.take n).length = true := by
            rw [hfull, List.length_take]
            omega
          rw [if_pos ⟨hcap, lookup_eq_none.mpr hmem⟩, take_put_of_notMem hmem hlen]
        · have htake : m.take n = m := List.take_of_length_le (by omega)
          rw [htake, if_neg (fun h => hlen ((hfull _).mp h.1)), List.take_of_length_le]
          have := (length_put e.1 e.2 m).2
          omega

/-- A map without a bound takes every update. -/
lemma putAllCapped_of_not_full {full : ℕ → Bool} (hfull : ∀ l, full l = false)
    (es : List (κ × (Option ν → ν))) (m : List (κ × ν)) :
    putAllCapped full es m = putAll es m := by
  have hput : ∀ (e : κ × (Option ν → ν)) (m : List (κ × ν)),
      putCapped full e.1 e.2 m = put e.1 e.2 m := by
    intro e m
    rw [putCapped, if_neg (by simp [hfull])]
  induction es generalizing m with
  | nil => rfl
  | cons e es ih =>
      rw [putAllCapped, List.foldl_cons, ← putAllCapped, putAll, List.foldl_cons, ← putAll, hput, ih]

/-! ## Which keys a bounded map keeps -/

lemma mem_map_fst_putAll {es : List (κ × (Option ν → ν))} {m : List (κ × ν)} {k : κ} :
    k ∈ (putAll es m).map Prod.fst ↔ k ∈ m.map Prod.fst ∨ k ∈ es.map Prod.fst := by
  induction es generalizing m with
  | nil => simp [putAll]
  | cons e es ih =>
      have hput : k ∈ (put e.1 e.2 m).map Prod.fst ↔ k ∈ m.map Prod.fst ∨ k = e.1 := by
        rw [map_fst_put]
        split
        · rename_i hmem
          exact ⟨Or.inl, fun h => h.elim id fun hk => hk ▸ hmem⟩
        · rw [List.mem_append, List.mem_singleton]
      rw [putAll, List.foldl_cons, ← putAll, ih, hput, List.map_cons, List.mem_cons, or_assoc]

/-- The keys of a map that updates have filled stand in the order of their first updates. -/
lemma map_fst_putAll (es : List (κ × (Option ν → ν))) (m : List (κ × ν)) :
    (putAll es m).map Prod.fst = m.map Prod.fst ++
      ((es.map Prod.fst).filter fun k => decide (k ∉ m.map Prod.fst)).eraseDups := by
  induction es generalizing m with
  | nil => simp [putAll]
  | cons e es ih =>
      rw [putAll, List.foldl_cons, ← putAll, ih, map_fst_put, List.map_cons]
      by_cases hmem : e.1 ∈ m.map Prod.fst
      · rw [if_pos hmem, List.filter_cons_of_neg (by simpa using hmem)]
      · rw [if_neg hmem, List.filter_cons_of_pos (by simpa using hmem), List.eraseDups_cons,
          List.append_assoc, List.filter_filter]
        refine congrArg (fun l : List κ => m.map Prod.fst ++ e.1 :: l.eraseDups) ?_
        refine List.filter_congr fun k _ => ?_
        rw [Bool.eq_iff_iff]
        simp only [decide_eq_true_eq, Bool.and_eq_true, Bool.not_eq_true', beq_eq_false_iff_ne,
          List.mem_append, List.mem_singleton, not_or]
        exact and_comm

lemma map_fst_prefix_putAll (es : List (κ × (Option ν → ν))) (m : List (κ × ν)) :
    m.map Prod.fst <+: (putAll es m).map Prod.fst := by
  induction es generalizing m with
  | nil => exact List.prefix_refl _
  | cons e es ih =>
      refine List.IsPrefix.trans ?_ (ih (put e.1 e.2 m))
      rw [map_fst_put]
      split
      · exact List.prefix_refl _
      · exact List.prefix_append _ _

lemma length_putAll_append (es : List (κ × (Option ν → ν))) {m : List (κ × ν)}
    (hm : (m.map Prod.fst).Nodup) :
    (putAll es m).length = (m.map Prod.fst ++ es.map Prod.fst).toFinset.card := by
  rw [← List.length_map Prod.fst, ← List.toFinset_card_of_nodup (nodup_putAll hm)]
  refine congrArg Finset.card (Finset.ext fun k => ?_)
  rw [List.mem_toFinset, List.mem_toFinset, mem_map_fst_putAll, List.mem_append]

lemma length_putAll (es : List (κ × (Option ν → ν))) :
    (putAll es []).length = (es.map Prod.fst).toFinset.card :=
  length_putAll_append es List.nodup_nil

section Take

variable {es es' : List (κ × (Option ν → ν))} {n : ℕ} {k : κ}

lemma mem_take_putAll (hk : k ∈ es.map Prod.fst) (hn : (es.map Prod.fst).toFinset.card ≤ n) :
    k ∈ ((putAll (es ++ es') []).take n).map Prod.fst := by
  have hmem : k ∈ (putAll es ([] : List (κ × ν))).map Prod.fst := mem_map_fst_putAll.mpr (Or.inr hk)
  obtain ⟨rest, hrest⟩ := map_fst_prefix_putAll es' (putAll es [])
  rw [List.map_take, putAll_append, ← hrest, List.take_append, List.mem_append,
    List.take_of_length_le]
  · exact Or.inl hmem
  · rw [List.length_map, length_putAll]
    exact hn

lemma notMem_take_putAll (hk : k ∉ es.map Prod.fst) (hn : n ≤ (es.map Prod.fst).toFinset.card) :
    k ∉ ((putAll (es ++ es') []).take n).map Prod.fst := by
  have hmem : k ∉ (putAll es ([] : List (κ × ν))).map Prod.fst := by
    rw [mem_map_fst_putAll]
    simpa using hk
  obtain ⟨rest, hrest⟩ := map_fst_prefix_putAll es' (putAll es [])
  rw [List.map_take, putAll_append, ← hrest, List.take_append_of_le_length]
  · exact fun h => hmem (List.mem_of_mem_take h)
  · rw [List.length_map, length_putAll]
    exact hn

end Take

end AssocMap
