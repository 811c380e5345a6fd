import Mathlib.Data.List.Basic
import Mathlib.Data.Nat.Basic
import Mathlib.Order.Basic
import Mathlib.Tactic.Common

/-!
# Robin Hood open addressing

A table is a list of slots, each empty or holding a key and a value.  Every key has a `home`
slot; `dist n i h` is how far slot `i` lies behind home slot `h`, cyclically.  Insertion walks
forward from the home slot and swaps with any entry that is closer to its own home than the
carried one; lookup walks the same way and gives up at an empty slot or at an entry closer to
its home than the walk is long.

The invariant that makes the early exit of the lookup sound is `WF.chain`: every slot that an
entry was carried past is occupied by an entry at least as far from its own home.  Insertion
keeps it (`insert_spec`), so a table built from entries with distinct keys that leave one slot
free answers every lookup as an association list would (`build_spec`, `lookup_of_occ`,
`lookup_of_absent`).
-/

namespace RobinHood

variable {κ ν : Type*}

abbrev Table (κ ν : Type*) := List (Option (κ × ν))

/-- How far slot `i` lies behind slot `h` in a table of `n` slots. -/
def dist (n i h : ℕ) : ℕ := (i + n - h) % n

/-- Slot `i` holds the entry `r`. -/
def Occ (t : Table κ ν) (i : ℕ) (r : κ × ν) : Prop := t[i]? = some (some r)

/-! ## Insertion and lookup -/

section Operations

variable (n : ℕ) (home : κ → ℕ)

/-- Carry `e` forward from slot `idx`, `probe` steps behind its home, until it finds a slot. -/
def insertLoop : ℕ → Table κ ν → ℕ → κ × ν → ℕ → Option (Table κ ν)
  | 0, _, _, _, _ => none
  | fuel + 1, t, idx, e, probe =>
      match t[idx]? with
      | none => none
      | some none => some (t.set idx (some e))
      | some (some r) =>
          if dist n idx (home r.1) < probe then
            insertLoop fuel (t.set idx (some e)) ((idx + 1) % n) r (dist n idx (home r.1) + 1)
          else insertLoop fuel t ((idx + 1) % n) e (probe + 1)

/-- Insert one entry.  A walk of `n` slots sees the whole table. -/
def insert (t : Table κ ν) (e : κ × ν) : Option (Table κ ν) :=
  insertLoop n home n t (home e.1) e 0

/-- Insert the entries in order into the empty table. -/
def build (entries : List (κ × ν)) : Option (Table κ ν) :=
  entries.foldlM (insert n home) (List.replicate n none)

variable [DecidableEq κ]

/-- Walk forward from slot `idx` in search of `k`; the outer `none` is running out of fuel. -/
def lookupLoop (t : Table κ ν) (k : κ) : ℕ → ℕ → ℕ → Option (Option ν)
  | 0, _, _ => none
  | fuel + 1, idx, probe =>
      match t[idx]? with
      | none => none
      | some none => some none
      | some (some r) =>
          if dist n idx (home r.1) < probe then some none
          else if r.1 = k then some (some r.2)
          else lookupLoop t k fuel ((idx + 1) % n) (probe + 1)

/-- Look `k` up; the walk visits no more than `n + 1` slots. -/
def lookup (t : Table κ ν) (k : κ) : Option (Option ν) :=
  lookupLoop n home t k (n + 1) (home k) 0

end Operations

/-! ## Cyclic distance -/

section Cyclic

variable {n h i p : ℕ}

lemma mod_of_lt_two_mul (hi : i < 2 * n) : i % n = if i < n then i else i - n := by
  split
  · exact Nat.mod_eq_of_lt ‹_›
  · rw [Nat.mod_eq_sub_mod (by omega), Nat.mod_eq_of_lt (by omega)]

lemma dist_lt (hn : 0 < n) : dist n i h < n := Nat.mod_lt _ hn

lemma dist_add (hh : h < n) (hp : p < n) : dist n ((h + p) % n) h = p := by
  rw [mod_of_lt_two_mul (show h + p < 2 * n by omega)]
  unfold dist
  split
  · rw [show h + p + n - h = p + n by omega, Nat.add_mod_right, Nat.mod_eq_of_lt hp]
  · rw [show h + p - n + n - h = p by omega, Nat.mod_eq_of_lt hp]

lemma add_dist (hh : h < n) (hi : i < n) : (h + dist n i h) % n = i := by
  unfold dist
  rw [mod_of_lt_two_mul (show i + n - h < 2 * n by omega)]
  split
  · rw [show h + (i + n - h) = i + n by omega, Nat.add_mod_right, Nat.mod_eq_of_lt hi]
  · rw [show h + (i + n - h - n) = i by omega, Nat.mod_eq_of_lt hi]

lemma dist_eq_zero (hh : h < n) (hi : i < n) (hd : dist n i h = 0) : i = h := by
  have hadd := add_dist hh hi
  rw [hd, Nat.add_zero, Nat.mod_eq_of_lt hh] at hadd
  exact hadd.symm

/-- One step forward is one step closer. -/
lemma dist_succ (hh : h < n) (hi : i < n) (hne : i ≠ h) :
    dist n i ((h + 1) % n) + 1 = dist n i h := by
  have hpos : dist n i h ≠ 0 := fun hd => hne (dist_eq_zero hh hi hd)
  have hlt : dist n i h < n := dist_lt (by omega)
  have hstep : ((h + 1) % n + (dist n i h - 1)) % n = i := by
    rw [Nat.mod_add_mod, show h + 1 + (dist n i h - 1) = h + dist n i h by omega,
      add_dist hh hi]
  have hd := dist_add (n := n) (h := (h + 1) % n) (p := dist n i h - 1)
    (Nat.mod_lt _ (by omega)) (by omega)
  rw [hstep] at hd
  omega

lemma succ_mod (h p : ℕ) : ((h + p) % n + 1) % n = (h + (p + 1)) % n := by
  rw [Nat.mod_add_mod, Nat.add_assoc]

end Cyclic

/-! ## The invariant -/

/-- The slots `home k, home k + 1, …` before offset `d` are occupied, each by an entry at least
as far from its own home as the offset. -/
def Chain (n : ℕ) (home : κ → ℕ) (t : Table κ ν) (k : κ) (d : ℕ) : Prop :=
  ∀ j < d, ∃ r, Occ t ((home k + j) % n) r ∧ j ≤ dist n ((home k + j) % n) (home r.1)

/-- A well-formed table: keys are distinct and every entry is reached by its own walk. -/
structure WF (n : ℕ) (home : κ → ℕ) (t : Table κ ν) : Prop where
  length_eq : t.length = n
  distinct : ∀ i j r r', Occ t i r → Occ t j r' → r.1 = r'.1 → i = j
  chain : ∀ i r, Occ t i r → Chain n home t r.1 (dist n i (home r.1))

/-- The state of the insertion walk: `e` is carried, and stands `probe` slots behind its home. -/
structure Carried (n : ℕ) (home : κ → ℕ) (t : Table κ ν) (e : κ × ν) (idx probe : ℕ) : Prop where
  idx_eq : idx = (home e.1 + probe) % n
  fresh : ∀ i r, Occ t i r → r.1 ≠ e.1
  chain : Chain n home t e.1 probe

def emptySlots (t : Table κ ν) : ℕ := t.countP Option.isNone

section Proofs

variable {n : ℕ} {home : κ → ℕ}

lemma Occ.lt_length {t : Table κ ν} {i : ℕ} {r : κ × ν} (h : Occ t i r) : i < t.length := by
  obtain ⟨hi, -⟩ := List.getElem?_eq_some_iff.mp h
  exact hi

lemma Occ.unique {t : Table κ ν} {i : ℕ} {r r' : κ × ν} (h : Occ t i r) (h' : Occ t i r') :
    r = r' := Option.some.inj (Option.some.inj (Eq.trans (Eq.symm h) h'))

lemma occ_set {t : Table κ ν} {i j : ℕ} {e r : κ × ν} (hj : j < t.length) :
    Occ (t.set j (some e)) i r ↔ (i = j ∧ r = e) ∨ (i ≠ j ∧ Occ t i r) := by
  unfold Occ
  rw [List.getElem?_set]
  by_cases hij : j = i
  · subst hij
    simp [hj, eq_comm]
  · simp [hij, Ne.symm hij]

lemma exists_empty_of_pos {t : Table κ ν} (h : 0 < emptySlots t) :
    ∃ z : ℕ, t[z]? = some none := by
  obtain ⟨s, hs, hnone⟩ := List.countP_pos_iff.mp h
  obtain ⟨z, hz, rfl⟩ := List.mem_iff_getElem.mp hs
  refine ⟨z, ?_⟩
  rw [List.getElem?_eq_getElem hz, Option.isNone_iff_eq_none.mp hnone]

lemma Chain.lt_of_empty (hhome : ∀ k, home k < n) {t : Table κ ν} {k : κ} {d z : ℕ}
    (h : Chain n home t k d) (hz : t[z]? = some none) (hzn : z < n) : d < n := by
  by_contra hd
  obtain ⟨r, hocc, -⟩ := h (dist n z (home k))
    (lt_of_lt_of_le (dist_lt (by omega)) (Nat.le_of_not_lt hd))
  rw [add_dist (hhome k) hzn] at hocc
  rw [Occ, hz] at hocc
  cases Option.some.inj hocc

/-- Replacing an entry by one farther from home, or filling an empty slot, keeps every chain. -/
lemma Chain.set {t : Table κ ν} {k : κ} {d idx : ℕ} {e : κ × ν} (hidx : idx < t.length)
    (h : Chain n home t k d)
    (hfar : ∀ r, Occ t idx r → dist n idx (home r.1) ≤ dist n idx (home e.1)) :
    Chain n home (t.set idx (some e)) k d := by
  intro j hj
  obtain ⟨r, hocc, hle⟩ := h j hj
  by_cases hat : (home k + j) % n = idx
  · rw [hat] at hocc hle ⊢
    exact ⟨e, (occ_set hidx).mpr (Or.inl ⟨rfl, rfl⟩), hle.trans (hfar r hocc)⟩
  · exact ⟨r, (occ_set hidx).mpr (Or.inr ⟨hat, hocc⟩), hle⟩

/-- Dropping the carried entry into slot `idx` keeps the table well formed, provided the slot
is empty or holds an entry closer to its home. -/
lemma WF.place (hhome : ∀ k, home k < n) {t : Table κ ν} {e : κ × ν} {idx probe : ℕ}
    (hwf : WF n home t) (hc : Carried n home t e idx probe) (hprobe : probe < n)
    (hfar : ∀ r, Occ t idx r → dist n idx (home r.1) ≤ probe) :
    WF n home (t.set idx (some e)) := by
  have hdist : dist n idx (home e.1) = probe := by
    rw [hc.idx_eq, dist_add (hhome _) hprobe]
  have hidx : idx < t.length := by
    rw [hwf.length_eq, hc.idx_eq]
    exact Nat.mod_lt _ (by omega)
  have hfar' : ∀ r, Occ t idx r → dist n idx (home r.1) ≤ dist n idx (home e.1) :=
    fun r hr => hdist ▸ hfar r hr
  refine ⟨by rw [List.length_set, hwf.length_eq], ?_, ?_⟩
  · intro i j r r' hi hj hkey
    rcases (occ_set hidx).mp hi with ⟨rfl, rfl⟩ | ⟨-, hi'⟩ <;>
      rcases (occ_set hidx).mp hj with ⟨rfl, rfl⟩ | ⟨-, hj'⟩
    · rfl
    · exact absurd hkey.symm (hc.fresh j r' hj')
    · exact absurd hkey (hc.fresh i r hi')
    · exact hwf.distinct i j r r' hi' hj' hkey
  · intro i r hi
    rcases (occ_set hidx).mp hi with ⟨rfl, rfl⟩ | ⟨-, hi⟩
    · rw [hdist]
      exact hc.chain.set hidx hfar'
    · exact (hwf.chain i r hi).set hidx hfar'

/-- Passing an entry that is at least as far from home extends the chain of the carried one. -/
lemma Carried.pass {t : Table κ ν} {e r : κ × ν} {idx probe : ℕ}
    (hc : Carried n home t e idx probe) (hr : Occ t idx r)
    (hle : probe ≤ dist n idx (home r.1)) :
    Carried n home t e ((idx + 1) % n) (probe + 1) := by
  refine ⟨by rw [hc.idx_eq, succ_mod], hc.fresh, fun j hj => ?_⟩
  rcases Nat.lt_or_ge j probe with hlt | hge
  · exact hc.chain j hlt
  · obtain rfl : j = probe := by omega
    rw [← hc.idx_eq]
    exact ⟨r, hr, hle⟩

/-- After a swap the evicted entry is carried, from one slot behind where it stood. -/
lemma Carried.swap (hhome : ∀ k, home k < n) {t : Table κ ν} {e r : κ × ν} {idx probe : ℕ}
    (hwf : WF n home t) (hc : Carried n home t e idx probe) (hprobe : probe < n)
    (hr : Occ t idx r) (hlt : dist n idx (home r.1) < probe) :
    Carried n home (t.set idx (some e)) r ((idx + 1) % n) (dist n idx (home r.1) + 1) := by
  have hidx : idx < t.length := hr.lt_length
  have hidxn : idx < n := hwf.length_eq ▸ hidx
  have hdist : dist n idx (home e.1) = probe := by
    rw [hc.idx_eq, dist_add (hhome _) hprobe]
  have hadd : (home r.1 + dist n idx (home r.1)) % n = idx := add_dist (hhome _) hidxn
  refine ⟨?_, ?_, ?_⟩
  · rw [← succ_mod (home r.1), hadd]
  · intro i x hx hkey
    rcases (occ_set hidx).mp hx with ⟨rfl, rfl⟩ | ⟨hne, hx⟩
    · exact hc.fresh _ r hr hkey.symm
    · exact hne (hwf.distinct i idx x r hx hr hkey)
  · intro j hj
    rcases Nat.lt_or_ge j (dist n idx (home r.1)) with hjlt | hjge
    · refine (hwf.chain idx r hr).set hidx (fun x hx => ?_) j hjlt
      obtain rfl := hx.unique hr
      omega
    · obtain rfl : j = dist n idx (home r.1) := by omega
      rw [hadd]
      exact ⟨e, (occ_set hidx).mpr (Or.inl ⟨rfl, rfl⟩), by omega⟩

lemma emptySlots_set_of_occ {t : Table κ ν} {i : ℕ} {e r : κ × ν} (h : Occ t i r) :
    emptySlots (t.set i (some e)) = emptySlots t := by
  have hi := h.lt_length
  have hval : t[i] = some r := by simpa [Occ, List.getElem?_eq_getElem hi] using h
  rw [emptySlots, List.countP_set hi, hval]
  simp [emptySlots]

lemma emptySlots_set_of_empty {t : Table κ ν} {i : ℕ} {e : κ × ν} (h : t[i]? = some none) :
    emptySlots (t.set i (some e)) + 1 = emptySlots t := by
  obtain ⟨hi, hval⟩ := List.getElem?_eq_some_iff.mp h
  have hpos : 0 < t.countP Option.isNone :=
    List.countP_pos_iff.mpr ⟨t[i], List.getElem_mem hi, by rw [hval]; rfl⟩
  rw [emptySlots, List.countP_set hi, hval]
  simp only [Option.isNone_none, Option.isNone_some, if_true, emptySlots, Bool.false_eq_true,
    if_false]
  omega

/-! ## Insertion -/

/-- The walk ends, and the table gains exactly the carried entry. -/
lemma insertLoop_spec (hhome : ∀ k, home k < n) {z : ℕ} (hz : z < n) :
    ∀ (fuel : ℕ) {t : Table κ ν} {e : κ × ν} {idx probe : ℕ}, WF n home t →
      Carried n home t e idx probe → t[z]? = some none → dist n z idx < fuel →
      ∃ t', insertLoop n home fuel t idx e probe = some t' ∧ WF n home t' ∧
        (∀ x, (∃ i, Occ t' i x) ↔ x = e ∨ ∃ i, Occ t i x) ∧
        emptySlots t' + 1 = emptySlots t := by
  intro fuel
  induction fuel with
  | zero => intro t e idx probe _ _ _ h; omega
  | succ fuel ih =>
      intro t e idx probe hwf hc hempty hfuel
      have hprobe : probe < n := hc.chain.lt_of_empty hhome hempty hz
      have hidxn : idx < n := by
        rw [hc.idx_eq]
        exact Nat.mod_lt _ (by omega)
      have hidx : idx < t.length := hwf.length_eq.symm ▸ hidxn
      rw [insertLoop, List.getElem?_eq_getElem hidx]
      cases hslot : t[idx] with
      | none =>
          -- an empty slot: the carried entry stays here
          have hnone : t[idx]? = some none := by rw [List.getElem?_eq_getElem hidx, hslot]
          refine ⟨_, rfl, hwf.place hhome hc hprobe fun r hr => ?_, fun x => ?_,
            emptySlots_set_of_empty hnone⟩
          · rw [Occ, hnone] at hr
            cases Option.some.inj hr
          · constructor
            · rintro ⟨i, hi⟩
              rcases (occ_set hidx).mp hi with ⟨-, rfl⟩ | ⟨-, hi⟩
              · exact Or.inl rfl
              · exact Or.inr ⟨i, hi⟩
            · rintro (rfl | ⟨i, hi⟩)
              · exact ⟨idx, (occ_set hidx).mpr (Or.inl ⟨rfl, rfl⟩)⟩
              · refine ⟨i, (occ_set hidx).mpr (Or.inr ⟨?_, hi⟩)⟩
                rintro rfl
                rw [Occ, hnone] at hi
                cases Option.some.inj hi
      | some r =>
          have hr : Occ t idx r := by rw [Occ, List.getElem?_eq_getElem hidx, hslot]
          have hzidx : z ≠ idx := by
            rintro rfl
            rw [Occ, hempty] at hr
            cases Option.some.inj hr
          have hcloser : dist n z ((idx + 1) % n) < fuel := by
            have := dist_succ hidxn hz hzidx
            omega
          dsimp only
          split
          · -- the resident is richer: swap and carry it on
            rename_i hlt
            have hempty' : (t.set idx (some e))[z]? = some none := by
              rw [List.getElem?_set_ne (Ne.symm hzidx), hempty]
            obtain ⟨t', hrun, hwf', hocc, hcount⟩ :=
              ih (hwf.place hhome hc hprobe fun x hx => by
                  obtain rfl := hx.unique hr
                  exact hlt.le)
                (hc.swap hhome hwf hprobe hr hlt) hempty' hcloser
            refine ⟨t', hrun, hwf', fun x => ?_, ?_⟩
            · rw [hocc x]
              constructor
              · rintro (rfl | ⟨i, hi⟩)
                · exact Or.inr ⟨idx, hr⟩
                · rcases (occ_set hidx).mp hi with ⟨-, rfl⟩ | ⟨-, hi⟩
                  · exact Or.inl rfl
                  · exact Or.inr ⟨i, hi⟩
              · rintro (rfl | ⟨i, hi⟩)
                · exact Or.inr ⟨idx, (occ_set hidx).mpr (Or.inl ⟨rfl, rfl⟩)⟩
                · by_cases hii : i = idx
                  · subst hii
                    exact Or.inl (hi.unique hr)
                  · exact Or.inr ⟨i, (occ_set hidx).mpr (Or.inr ⟨hii, hi⟩)⟩
            · rw [hcount, emptySlots_set_of_occ hr]
          · -- the resident is at least as far from home: step over it
            rename_i hge
            exact ih hwf (hc.pass hr (Nat.le_of_not_lt hge)) hempty hcloser

/-- Inserting a new key into a table with a free slot adds exactly that entry. -/
theorem insert_spec (hhome : ∀ k, home k < n) {t : Table κ ν} {e : κ × ν} (hwf : WF n home t)
    (hfree : 0 < emptySlots t) (hfresh : ∀ i r, Occ t i r → r.1 ≠ e.1) :
    ∃ t', insert n home t e = some t' ∧ WF n home t' ∧
      (∀ x, (∃ i, Occ t' i x) ↔ x = e ∨ ∃ i, Occ t i x) ∧
      emptySlots t' + 1 = emptySlots t := by
  obtain ⟨z, hz⟩ := exists_empty_of_pos hfree
  have hzn : z < n := by
    obtain ⟨hz', -⟩ := List.getElem?_eq_some_iff.mp hz
    exact hwf.length_eq ▸ hz'
  have hc : Carried n home t e (home e.1) 0 :=
    ⟨by rw [Nat.add_zero, Nat.mod_eq_of_lt (hhome _)], hfresh, fun j hj => absurd hj (by omega)⟩
  exact insertLoop_spec hhome hzn n hwf hc hz (dist_lt (by omega))

lemma wf_replicate : WF n home (List.replicate n (none : Option (κ × ν))) := by
  have hno : ∀ i (r : κ × ν), ¬ Occ (List.replicate n none) i r := by
    intro i r h
    rw [Occ, List.getElem?_replicate] at h
    split at h <;> cases h
  exact ⟨by simp, fun i _ r _ h => absurd h (hno i r), fun i r h => absurd h (hno i r)⟩

lemma foldlM_insert_spec (hhome : ∀ k, home k < n) (entries : List (κ × ν)) {t : Table κ ν}
    (hwf : WF n home t) (hnodup : (entries.map Prod.fst).Nodup)
    (hfree : entries.length < emptySlots t)
    (hfresh : ∀ i r, Occ t i r → ∀ e ∈ entries, r.1 ≠ e.1) :
    ∃ t', entries.foldlM (insert n home) t = some t' ∧ WF n home t' ∧
      ∀ x, (∃ i, Occ t' i x) ↔ x ∈ entries ∨ ∃ i, Occ t i x := by
  induction entries generalizing t with
  | nil => exact ⟨t, rfl, hwf, fun x => by simp⟩
  | cons e entries ih =>
      obtain ⟨hnot, hnodup⟩ := List.nodup_cons.mp hnodup
      obtain ⟨t₁, hins, hwf₁, hocc₁, hcount⟩ := insert_spec hhome hwf (by omega)
        (fun i r h => hfresh i r h e (List.mem_cons_self ..))
      have hfresh₁ : ∀ i r, Occ t₁ i r → ∀ x ∈ entries, r.1 ≠ x.1 := by
        intro i r h x hx
        rcases (hocc₁ r).mp ⟨i, h⟩ with rfl | ⟨j, hj⟩
        · exact fun heq => hnot (heq ▸ List.mem_map_of_mem hx)
        · exact hfresh j r hj x (List.mem_cons_of_mem _ hx)
      have hlen : entries.length < emptySlots t₁ := by
        simp only [List.length_cons] at hfree
        omega
      obtain ⟨t', hrun, hwf', hocc'⟩ := ih hwf₁ hnodup hlen hfresh₁
      refine ⟨t', by simp [List.foldlM_cons, hins, hrun], hwf', fun x => ?_⟩
      rw [hocc' x, hocc₁ x, List.mem_cons]
      tauto

/-- A table built from entries with distinct keys, with a slot to spare, holds exactly them. -/
theorem build_spec (hhome : ∀ k, home k < n) {entries : List (κ × ν)}
    (hnodup : (entries.map Prod.fst).Nodup) (hlen : entries.length < n) :
    ∃ t, build n home entries = some t ∧ WF n home t ∧
      ∀ x, (∃ i, Occ t i x) ↔ x ∈ entries := by
  have hno : ∀ (x : κ × ν), ¬ ∃ i, Occ (List.replicate n none) i x := by
    rintro x ⟨i, h⟩
    rw [Occ, List.getElem?_replicate] at h
    split at h <;> cases h
  have hfree : entries.length < emptySlots (List.replicate n (none : Option (κ × ν))) := by
    simpa [emptySlots, List.countP_replicate] using hlen
  obtain ⟨t, hrun, hwf, hocc⟩ := foldlM_insert_spec hhome entries wf_replicate hnodup hfree
    (fun i r h => absurd ⟨i, h⟩ (hno r))
  exact ⟨t, hrun, hwf, fun x => by rw [hocc x, or_iff_left (hno x)]⟩

/-! ## Lookup -/

variable [DecidableEq κ]

/-- From a point of the walk before the entry, the walk reaches it. -/
lemma lookupLoop_of_occ (hhome : ∀ k, home k < n) {t : Table κ ν} (hwf : WF n home t) {i : ℕ}
    {r : κ × ν} (hr : Occ t i r) :
    ∀ (fuel probe : ℕ), probe ≤ dist n i (home r.1) → dist n i (home r.1) < fuel + probe →
      lookupLoop n home t r.1 fuel ((home r.1 + probe) % n) probe = some (some r.2) := by
  have hin : i < n := hwf.length_eq ▸ hr.lt_length
  intro fuel
  induction fuel with
  | zero => intro probe hle hlt; omega
  | succ fuel ih =>
      intro probe hle hlt
      rcases Nat.lt_or_ge probe (dist n i (home r.1)) with hbefore | hthere
      · obtain ⟨x, hx, hxle⟩ := hwf.chain i r hr probe hbefore
        have hne : x.1 ≠ r.1 := by
          intro heq
          have hat := hwf.distinct _ _ _ _ hx hr heq
          have hd := dist_add (hhome r.1) (show probe < n by
            have := dist_lt (n := n) (i := i) (h := home r.1) (by omega)
            omega)
          rw [hat] at hd
          omega
        rw [lookupLoop, hx]
        simp only [if_neg (Nat.not_lt.mpr hxle), if_neg hne]
        rw [succ_mod]
        exact ih (probe + 1) hbefore (by omega)
      · obtain rfl : probe = dist n i (home r.1) := by omega
        rw [add_dist (hhome _) hin, lookupLoop, hr]
        simp

/-- An entry of the table is found. -/
theorem lookup_of_occ (hhome : ∀ k, home k < n) {t : Table κ ν} (hwf : WF n home t) {i : ℕ}
    {r : κ × ν} (hr : Occ t i r) : lookup n home t r.1 = some (some r.2) := by
  have hin : i < n := hwf.length_eq ▸ hr.lt_length
  have h := lookupLoop_of_occ hhome hwf hr (n + 1) 0 (Nat.zero_le _)
    (by have := dist_lt (n := n) (i := i) (h := home r.1) (by omega); omega)
  rwa [Nat.add_zero (home r.1), Nat.mod_eq_of_lt (hhome r.1)] at h

/-- The walk for a key that is not in the table ends without it. -/
lemma lookupLoop_of_absent {t : Table κ ν} (hlen : t.length = n) {k : κ}
    (habs : ∀ i r, Occ t i r → r.1 ≠ k) :
    ∀ (fuel probe idx : ℕ), idx < n → 0 < fuel → n < fuel + probe →
      lookupLoop n home t k fuel idx probe = some none := by
  intro fuel
  induction fuel with
  | zero => intro probe idx _ h _; omega
  | succ fuel ih =>
      intro probe idx hidx _ hfuel
      have hidx' : idx < t.length := hlen.symm ▸ hidx
      rw [lookupLoop, List.getElem?_eq_getElem hidx']
      cases hslot : t[idx] with
      | none => rfl
      | some r =>
          have hr : Occ t idx r := by rw [Occ, List.getElem?_eq_getElem hidx', hslot]
          dsimp only
          split
          · rfl
          · rename_i hge
            rw [if_neg (habs idx r hr)]
            have hd := dist_lt (n := n) (i := idx) (h := home r.1) (by omega)
            exact ih (probe + 1) _ (Nat.mod_lt _ (by omega)) (by omega) (by omega)

/-- A key that is not in the table is not found. -/
theorem lookup_of_absent (hhome : ∀ k, home k < n) {t : Table κ ν} (hlen : t.length = n) {k : κ}
    (habs : ∀ i r, Occ t i r → r.1 ≠ k) : lookup n home t k = some none :=
  lookupLoop_of_absent hlen habs (n + 1) 0 (home k) (hhome k) (by omega) (by omega)

end Proofs

end RobinHood
