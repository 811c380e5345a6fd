import DeepFinder.Ipc.Regex
import DeepFinder.Lib.Gapped

/-!
# Where the literals of a regex stand

A written regex has a place for each of its characters (`Rx.places`): a literal of the tree, or
syntax.  A literal is required when every match goes through it: it is in no alternative, and under
no quantifier that allows no repetition at all.  The required literals are a pattern with gaps that
every match fits (`Rx.fits_places`).

The other way round, a match need not have a character where some match can do without it.
`Rx.Avoids` says that every item can, `Rx.Once` that all but one can, and then a character that
every match has is required where it stands (`Rx.Once.of_forall`).
-/

namespace DeepFinder

open Gapped

/-! ## Repetitions -/

namespace Quantifier

/-- Whether at least one repetition is asked for. -/
def nonzero : Quantifier → Bool
  | opt => false
  | star => false
  | plus => true
  | exactly m => decide (0 < m)
  | atLeast m => decide (0 < m)
  | between m _ _ => decide (0 < m)

variable {q : Quantifier} {k : ℕ}

lemma Allows.pos (hk : q.Allows k) (h : q.nonzero = true) : 0 < k := by
  cases q with
  | opt => cases h
  | star => cases h
  | plus => exact hk
  | exactly m => exact hk ▸ of_decide_eq_true h
  | atLeast m => exact (of_decide_eq_true h).trans_le hk
  | between m n hmn => exact (of_decide_eq_true h).trans_le hk.1

lemma allows_zero (h : q.nonzero = false) : q.Allows 0 := by
  cases q with
  | opt => exact Nat.zero_le 1
  | star => trivial
  | plus => cases h
  | exactly m => exact (Nat.eq_zero_of_not_pos (of_decide_eq_false h)).symm
  | atLeast m => exact Nat.le_of_not_lt (of_decide_eq_false h)
  | between m n hmn => exact ⟨Nat.le_of_not_lt (of_decide_eq_false h), Nat.zero_le n⟩

lemma exists_allows (q : Quantifier) : ∃ k, q.Allows k := by
  cases q with
  | opt => exact ⟨0, Nat.zero_le 1⟩
  | star => exact ⟨0, trivial⟩
  | plus => exact ⟨1, le_rfl⟩
  | exactly m => exact ⟨m, rfl⟩
  | atLeast m => exact ⟨m, le_rfl⟩
  | between m n hmn => exact ⟨m, le_rfl, hmn⟩

lemma render_ne_nil (q : Quantifier) : q.render ≠ [] := by
  cases q <;> exact List.cons_ne_nil _ _

end Quantifier

/-! ## Places -/

/-- A place of a written regex: a literal of the tree and whether it is required, or syntax. -/
abbrev Place := Option (Char × Bool)

def Place.literal (p : Place) : Option Char := p.map Prod.fst

def Place.required : Place → Option Char
  | some (c, true) => some c
  | _ => none

def syntaxPlaces (cs : List Char) : List Place := cs.map fun _ => none

namespace Rx

variable {E : CaseFolding}

def itemPlaces : CharItem E → Bool → List Place
  | .lit c _, req => [some (c, req)]
  | i, _ => syntaxPlaces i.render

/-- The places of the regex as it is written, when it is itself required. -/
def places {l : Level} : Rx E l → Bool → List Place
  | char i, req => itemPlaces i req
  | group k r, req => syntaxPlaces k.render ++ r.places req ++ [none]
  | one r, req => r.places req
  | repeated r q lazy, req =>
      r.places (req && q.nonzero) ++ syntaxPlaces q.render ++
        syntaxPlaces (if lazy then ['?'] else [])
  | nil, _ => []
  | cons r s, req => r.places req ++ s.places req
  | last r, req => r.places req
  | or r s, _ => r.places false ++ none :: s.places false

variable {l : Level} {r : Rx E l} {c : Char} {b req ci : Bool}

lemma some_notMem_syntaxPlaces {cs : List Char} : some (c, b) ∉ syntaxPlaces cs := by
  simp [syntaxPlaces]

lemma mem_itemPlaces {i : CharItem E} (h : some (c, b) ∈ itemPlaces i req) :
    b = req ∧ ∃ hc, i = .lit c hc := by
  cases i with
  | lit c' hc =>
      obtain ⟨rfl, rfl⟩ := Prod.mk.inj (Option.some.inj (List.mem_singleton.mp h))
      exact ⟨rfl, hc, rfl⟩
  | punct c' hc => exact absurd h some_notMem_syntaxPlaces
  | dot => exact absurd h some_notMem_syntaxPlaces
  | escape c' arg set => exact absurd h some_notMem_syntaxPlaces
  | bracket body set => exact absurd h some_notMem_syntaxPlaces

lemma mem_places_group {k : GroupKind} {r : Rx E .alt} (h : some (c, b) ∈ (group k r).places req) :
    some (c, b) ∈ r.places req := by
  simpa [places, some_notMem_syntaxPlaces] using h

lemma mem_places_repeated {r : Rx E .item} {q : Quantifier} {lazy : Bool}
    (h : some (c, b) ∈ (repeated r q lazy).places req) :
    some (c, b) ∈ r.places (req && q.nonzero) := by
  simpa [places, some_notMem_syntaxPlaces] using h

/-- What is not required itself requires nothing. -/
lemma req_of_mem_places (h : some (c, true) ∈ r.places req) : req = true := by
  induction r generalizing req with
  | char i => exact (mem_itemPlaces h).1.symm
  | group k r ih => exact ih (mem_places_group h)
  | one r ih => exact ih h
  | repeated r q lazy ih => exact (Bool.and_eq_true_iff.mp (ih (mem_places_repeated h))).1
  | nil => cases h
  | cons r s ihr ihs => exact (List.mem_append.mp h).elim ihr ihs
  | last r ih => exact ih h
  | or r s ihr ihs =>
      obtain h | h := List.mem_append.mp h
      · exact absurd (ihr h) Bool.false_ne_true
      · exact absurd (ihs ((List.mem_cons.mp h).resolve_left (Option.some_ne_none _)))
          Bool.false_ne_true

lemma required_places_false : ∀ x ∈ (r.places false).map Place.required, x = none := by
  intro x hx
  obtain ⟨p, hp, rfl⟩ := List.mem_map.mp hx
  cases p with
  | none => rfl
  | some p =>
      obtain ⟨c, b⟩ := p
      cases b with
      | false => rfl
      | true => exact absurd (req_of_mem_places hp) Bool.false_ne_true

/-! ## Every match has what is required -/

lemma fits_syntaxPlaces {cs : List Char} (h : cs ≠ []) (w : List Char) :
    Fits (E.Reads ci) ((syntaxPlaces cs).map Place.required) w := by
  refine fits_of_gaps (by simpa [syntaxPlaces] using h) (fun x hx => ?_) w
  obtain ⟨p, hp, rfl⟩ := List.mem_map.mp hx
  obtain ⟨-, -, rfl⟩ := List.mem_map.mp hp
  rfl

lemma fits_syntaxPlaces_nil (cs : List Char) :
    Fits (E.Reads ci) ((syntaxPlaces cs).map Place.required) [] := by
  cases cs with
  | nil => exact .nil
  | cons c cs => exact fits_syntaxPlaces (List.cons_ne_nil c cs) []

lemma fits_itemPlaces {i : CharItem E} {d : Char} (h : i.mem ci d) :
    Fits (E.Reads ci) ((itemPlaces i req).map Place.required) [d] := by
  cases i with
  | lit c hc =>
      cases req with
      | false => exact .gap [d] .nil
      | true => exact .here h .nil
  | punct c hc => exact fits_syntaxPlaces (List.cons_ne_nil _ _) [d]
  | dot => exact fits_syntaxPlaces (List.cons_ne_nil _ _) [d]
  | escape c arg set => exact fits_syntaxPlaces (List.cons_ne_nil _ _) [d]
  | bracket body set => exact fits_syntaxPlaces (List.cons_ne_nil _ _) [d]

/-- Every word of the regex fits the pattern of what is required of it. -/
theorem fits_places {w : List Char} (hw : w ∈ r.lang ci) :
    Fits (E.Reads ci) ((r.places req).map Place.required) w := by
  induction r generalizing req w with
  | char i =>
      obtain ⟨d, hd, rfl⟩ := hw
      exact fits_itemPlaces hd
  | group k r ih =>
      rw [places, List.map_append, List.map_append]
      have hinner : Fits (E.Reads ci) ((syntaxPlaces k.render).map Place.required ++
          (r.places req).map Place.required) w := (fits_syntaxPlaces_nil k.render).append (ih hw)
      have hclose : Fits (E.Reads ci) (([none] : List Place).map Place.required) [] := .gap [] .nil
      rw [← List.append_nil w]
      exact hinner.append hclose
  | one r ih => exact ih hw
  | repeated r q lazy ih =>
      obtain ⟨k, hk, hw⟩ := hw
      rw [places, List.map_append, List.map_append]
      rw [← List.append_nil w]
      refine Fits.append ?_ (fits_syntaxPlaces_nil _)
      by_cases hreq : (req && q.nonzero) = true
      · -- the first repetition has what is required, and the others stand in the quantifier's gap
        obtain ⟨k, rfl⟩ := Nat.exists_eq_succ_of_ne_zero
          (hk.pos (Bool.and_eq_true_iff.mp hreq).2).ne'
        rw [pow_succ', Language.mem_mul] at hw
        obtain ⟨u, hu, v, -, rfl⟩ := hw
        exact (ih hu).append (fits_syntaxPlaces q.render_ne_nil v)
      · rw [Bool.not_eq_true] at hreq
        rw [hreq, ← List.map_append]
        refine fits_of_gaps (fun hnil => ?_) (fun x hx => ?_) w
        · have hq := (List.append_eq_nil_iff.mp (List.map_eq_nil_iff.mp hnil)).2
          exact q.render_ne_nil (List.map_eq_nil_iff.mp hq)
        · rw [List.map_append, List.mem_append] at hx
          obtain hx | hx := hx
          · exact required_places_false x hx
          · obtain ⟨p, hp, rfl⟩ := List.mem_map.mp hx
            obtain ⟨-, -, rfl⟩ := List.mem_map.mp hp
            rfl
  | nil =>
      rw [lang, Language.mem_one] at hw
      rw [hw]
      exact .nil
  | cons r s ihr ihs =>
      rw [lang, Language.mem_mul] at hw
      obtain ⟨u, hu, v, hv, rfl⟩ := hw
      rw [places, List.map_append]
      exact (ihr hu).append (ihs hv)
  | last r ih => exact ih hw
  | or r s _ _ =>
      -- nothing is required of one alternative
      rw [places, List.map_append, List.map_cons]
      refine fits_of_gaps (fun hnil => ?_) (fun x hx => ?_) w
      · exact List.cons_ne_nil _ _ (List.append_eq_nil_iff.mp hnil).2
      · rw [List.mem_append, List.mem_cons] at hx
        obtain hx | rfl | hx := hx
        · exact required_places_false x hx
        · rfl
        · exact required_places_false x hx

/-! ## A character that some match does without -/

/-- Every item can read a character without the property, with and without `(?i)`. -/
def Avoids (P : Char → Prop) {l : Level} : Rx E l → Prop
  | char i => ∀ ci, ∃ d, i.mem ci d ∧ ¬ P d
  | group _ r => r.Avoids P
  | one r => r.Avoids P
  | repeated r _ _ => r.Avoids P
  | nil => True
  | cons r s => r.Avoids P ∧ s.Avoids P
  | last r => r.Avoids P
  | or r s => r.Avoids P ∧ s.Avoids P

/-- Every item but one can. -/
def Once (P : Char → Prop) {l : Level} : Rx E l → Prop
  | char _ => True
  | group _ r => r.Once P
  | one r => r.Once P
  | repeated r _ _ => r.Once P
  | nil => True
  | cons r s => (r.Avoids P ∧ s.Once P) ∨ (r.Once P ∧ s.Avoids P)
  | last r => r.Once P
  | or r s => (r.Avoids P ∧ s.Once P) ∨ (r.Once P ∧ s.Avoids P)

variable {P : Char → Prop}

lemma exists_mem_pow {L : Language Char} {w : List Char} (hw : w ∈ L) (hP : ∀ d ∈ w, ¬ P d)
    (k : ℕ) : ∃ v ∈ L ^ k, ∀ d ∈ v, ¬ P d := by
  induction k with
  | zero => exact ⟨[], Language.nil_mem_one, fun d hd => absurd hd List.not_mem_nil⟩
  | succ k ih =>
      obtain ⟨v, hv, hvP⟩ := ih
      rw [pow_succ']
      exact ⟨w ++ v, Language.append_mem_mul hw hv,
        fun d hd => (List.mem_append.mp hd).elim (hP d) (hvP d)⟩

/-- What every item can avoid some match avoids. -/
lemma Avoids.exists_word (h : r.Avoids P) (ci : Bool) : ∃ w ∈ r.lang ci, ∀ d ∈ w, ¬ P d := by
  induction r with
  | char i =>
      obtain ⟨d, hd, hP⟩ := h ci
      exact ⟨[d], ⟨d, hd, rfl⟩, fun e he => List.mem_singleton.mp he ▸ hP⟩
  | group k r ih => exact ih h
  | one r ih => exact ih h
  | repeated r q lazy ih =>
      obtain ⟨w, hw, hP⟩ := ih h
      obtain ⟨k, hk⟩ := q.exists_allows
      obtain ⟨v, hv, hvP⟩ := exists_mem_pow hw hP k
      exact ⟨v, ⟨k, hk, hv⟩, hvP⟩
  | nil => exact ⟨[], Language.nil_mem_one, fun d hd => absurd hd List.not_mem_nil⟩
  | cons r s ihr ihs =>
      obtain ⟨u, hu, huP⟩ := ihr h.1
      obtain ⟨v, hv, hvP⟩ := ihs h.2
      exact ⟨u ++ v, Language.append_mem_mul hu hv,
        fun d hd => (List.mem_append.mp hd).elim (huP d) (hvP d)⟩
  | last r ih => exact ih h
  | or r s ihr _ =>
      obtain ⟨w, hw, hP⟩ := ihr h.1
      exact ⟨w, Or.inl hw, hP⟩

/-- It is none of the literals. -/
lemma Avoids.not_of_mem_places (h : r.Avoids P) (hc : some (c, b) ∈ r.places req) : ¬ P c := by
  induction r generalizing req with
  | char i =>
      obtain ⟨-, hmeta, rfl⟩ := mem_itemPlaces hc
      obtain ⟨d, hd, hP⟩ := h false
      exact (show d = c from hd) ▸ hP
  | group k r ih => exact ih h (mem_places_group hc)
  | one r ih => exact ih h hc
  | repeated r q lazy ih => exact ih h (mem_places_repeated hc)
  | nil => cases hc
  | cons r s ihr ihs => exact (List.mem_append.mp hc).elim (ihr h.1) (ihs h.2)
  | last r ih => exact ih h hc
  | or r s ihr ihs =>
      obtain hc | hc := List.mem_append.mp hc
      · exact ihr h.1 hc
      · exact ihs h.2 ((List.mem_cons.mp hc).resolve_left (Option.some_ne_none _))

/-- When every match has a character that one item alone cannot avoid, a literal that is one is
required where it stands, and so are its case variants. -/
theorem Once.of_forall (h : r.Once P) (hall : ∀ w ∈ r.lang ci, ∃ d ∈ w, P d)
    (hc : some (c, b) ∈ r.places req) (hP : P c) : b = req ∧ ∀ d, E.Reads ci c d → P d := by
  -- a part that can avoid the character has a word without it
  have havoid : ∀ {l : Level} {r : Rx E l}, r.Avoids P → ¬ ∀ w ∈ r.lang ci, ∃ d ∈ w, P d := by
    intro l r hr hall
    obtain ⟨w, hw, hwP⟩ := hr.exists_word ci
    obtain ⟨d, hd, hdP⟩ := hall w hw
    exact hwP d hd hdP
  induction r generalizing req with
  | char i =>
      obtain ⟨rfl, hmeta, rfl⟩ := mem_itemPlaces hc
      refine ⟨rfl, fun d hd => ?_⟩
      obtain ⟨e, he, heP⟩ := hall [d] ⟨d, hd, rfl⟩
      exact List.mem_singleton.mp he ▸ heP
  | group k r ih => exact ih h hall (mem_places_group hc)
  | one r ih => exact ih h hall hc
  | repeated r q lazy ih =>
      cases hq : q.nonzero with
      | false =>
          obtain ⟨d, hd, -⟩ := hall [] ⟨0, Quantifier.allows_zero hq, Language.nil_mem_one⟩
          exact absurd hd List.not_mem_nil
      | true =>
          have hplace := mem_places_repeated hc
          rw [hq, Bool.and_true] at hplace
          refine ih h (fun w hw => ?_) hplace
          by_contra hno
          push Not at hno
          obtain ⟨k, hk⟩ := q.exists_allows
          obtain ⟨v, hv, hvP⟩ := exists_mem_pow hw hno k
          obtain ⟨d, hd, hdP⟩ := hall v ⟨k, hk, hv⟩
          exact hvP d hd hdP
  | nil => cases hc
  | cons r s ihr ihs =>
      -- one of the two parts has the character in each of its words
      have hone : (∀ w ∈ r.lang ci, ∃ d ∈ w, P d) ∨ ∀ w ∈ s.lang ci, ∃ d ∈ w, P d := by
        by_contra hno
        push Not at hno
        obtain ⟨⟨u, hu, huP⟩, v, hv, hvP⟩ := hno
        obtain ⟨d, hd, hdP⟩ := hall (u ++ v) (Language.append_mem_mul hu hv)
        exact (List.mem_append.mp hd).elim (fun hd => huP d hd hdP) fun hd => hvP d hd hdP
      obtain ⟨hr, hs⟩ | ⟨hr, hs⟩ := h
      · have hall := hone.resolve_left (havoid hr)
        exact (List.mem_append.mp hc).elim (fun hc => absurd hP (hr.not_of_mem_places hc))
          (ihs hs hall)
      · have hall := hone.resolve_right (havoid hs)
        exact (List.mem_append.mp hc).elim (ihr hr hall)
          (fun hc => absurd hP (hs.not_of_mem_places hc))
  | last r ih => exact ih h hall hc
  | or r s _ _ =>
      have hleft : ∀ w ∈ r.lang ci, ∃ d ∈ w, P d := fun w hw => hall w (Or.inl hw)
      have hright : ∀ w ∈ s.lang ci, ∃ d ∈ w, P d := fun w hw => hall w (Or.inr hw)
      obtain ⟨hr, -⟩ | ⟨-, hs⟩ := h
      · exact absurd hleft (havoid hr)
      · exact absurd hright (havoid hs)

end Rx

end DeepFinder
