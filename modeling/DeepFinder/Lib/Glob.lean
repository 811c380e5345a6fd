import Mathlib.Data.List.Forall2
import Mathlib.Data.List.Infix
import Mathlib.Tactic.Common

/-!
# Glob patterns

A pattern is a list of symbols of which one, `star`, stands for any run of symbols, another, `one`,
for any single symbol, and every other one for itself.  A text matches a pattern when it can be cut
into pieces that the symbols of the pattern stand for in order (`Matches`).

`Reads` is the same meaning for a reader that takes a star of the pattern for the symbol `star`
itself whenever the text has that symbol there: its cuts are those in which such a star has just
that symbol (`reads_iff`).  For a reader that takes pattern and text symbol by symbol,
`Reads.aligned` and `Reads.cross` say what is left to read behind the part that it has taken.
-/

namespace Glob

variable {α : Type*} (star one : α)

/-! ## Cuts of a text -/

def Stands (p : α) (piece : List α) : Prop :=
  p = star ∨ (p = one ∧ piece.length = 1) ∨ piece = [p]

/-- The pieces make up the text, and the symbols of the pattern stand for them. -/
structure Cut (pat text : List α) (pieces : List (List α)) : Prop where
  flatten_eq : pieces.flatten = text
  stands : List.Forall₂ (Stands star one) pat pieces

def Matches (pat text : List α) : Prop := ∃ pieces, Cut star one pat text pieces

/-- A star that meets the symbol `star` in the text has that symbol alone.  This is what sets the
backtracking loop apart from the meaning of a pattern, and it says nothing of texts without that
symbol. -/
def StarsAlone (pat : List α) (pieces : List (List α)) : Prop :=
  ∀ i, pat[i]? = some star → (pieces.drop i).flatten.head? = some star →
    pieces[i]? = some [star]

/-! ## Reading symbol by symbol -/

/-- A symbol of the pattern takes one symbol of the text. -/
def Takes (p c : α) : Prop := p = one ∨ p = c

/-- How a pattern reads a text when a star that meets the symbol `star` takes only that. -/
inductive Reads : List α → List α → Prop where
  | nil : Reads [] []
  | take {p c : α} {ps cs : List α} : Takes one p c → Reads ps cs → Reads (p :: ps) (c :: cs)
  | run {ps t t' : List α} : t.head? ≠ some star → t' <:+ t → Reads ps t' → Reads (star :: ps) t

variable {star one}

lemma starsAlone_cons {p : α} {ps piece : List α} {pieces : List (List α)} :
    StarsAlone star (p :: ps) (piece :: pieces) ↔
      (p = star → (piece ++ pieces.flatten).head? = some star → piece = [star]) ∧
        StarsAlone star ps pieces := by
  constructor
  · intro h
    refine ⟨fun hp hhead => ?_, fun i hi hhead => h (i + 1) hi hhead⟩
    exact Option.some.inj (h 0 (by rw [hp]; rfl) hhead)
  · rintro ⟨hhead, htail⟩ i hi hstar
    cases i with
    | zero => exact congrArg some (hhead (Option.some.inj hi) hstar)
    | succ i => exact htail i hi hstar

/-- These readings are the cuts in which the stars that meet a star are alone. -/
theorem reads_iff {pat text : List α} :
    Reads star one pat text ↔
      ∃ pieces, Cut star one pat text pieces ∧ StarsAlone star pat pieces := by
  constructor
  · intro h
    induction h with
    | nil => exact ⟨[], ⟨rfl, .nil⟩, fun i hi => nomatch hi⟩
    | @take p c ps cs htake _ ih =>
        obtain ⟨pieces, ⟨hflat, hstands⟩, halone⟩ := ih
        have hpiece : Stands star one p [c] := by
          rcases htake with rfl | rfl
          · exact Or.inr (Or.inl ⟨rfl, rfl⟩)
          · exact Or.inr (Or.inr rfl)
        refine ⟨[c] :: pieces, ⟨by rw [← hflat]; rfl, .cons hpiece hstands⟩, ?_⟩
        refine starsAlone_cons.mpr ⟨fun _ hhead => ?_, halone⟩
        rw [show c = star from Option.some.inj hhead]
    | @run ps t t' hhead hsuffix _ ih =>
        obtain ⟨pieces, ⟨hflat, hstands⟩, halone⟩ := ih
        obtain ⟨piece, rfl⟩ := hsuffix
        refine ⟨piece :: pieces, ⟨by rw [← hflat]; rfl, .cons (Or.inl rfl) hstands⟩, ?_⟩
        exact starsAlone_cons.mpr ⟨fun _ h => absurd (hflat ▸ h) hhead, halone⟩
  · rintro ⟨pieces, ⟨rfl, hstands⟩, halone⟩
    induction hstands with
    | nil => exact .nil
    | @cons p piece ps pieces hpiece _ ih =>
        obtain ⟨hhead, htail⟩ := starsAlone_cons.mp halone
        have hrest := ih htail
        rw [List.flatten_cons]
        rcases hpiece with rfl | ⟨rfl, hlen⟩ | rfl
        · by_cases hstar : (piece ++ pieces.flatten).head? = some p
          · rw [hhead rfl hstar]
            exact .take (Or.inr rfl) hrest
          · exact .run hstar (List.suffix_append ..) hrest
        · obtain ⟨c, rfl⟩ := List.length_eq_one_iff.mp hlen
          exact .take (Or.inl rfl) hrest
        · exact .take (Or.inr rfl) hrest

lemma Reads.matches {pat text : List α} (h : Reads star one pat text) :
    Matches star one pat text := by
  obtain ⟨pieces, hcut, -⟩ := reads_iff.mp h
  exact ⟨pieces, hcut⟩

lemma reads_of_notMem {pat text : List α} (h : star ∉ text) :
    Reads star one pat text ↔ Matches star one pat text := by
  refine ⟨Reads.matches, fun ⟨pieces, hcut⟩ => reads_iff.mpr ⟨pieces, hcut, fun i _ hhead => ?_⟩⟩
  refine absurd ?_ h
  rw [← hcut.flatten_eq, ← List.take_append_drop i pieces, List.flatten_append]
  exact List.mem_append_right _ (List.mem_of_mem_head? hhead)

/-- At the end of the text only stars can be left. -/
lemma reads_nil {pat : List α} : Reads star one pat [] ↔ ∀ p ∈ pat, p = star := by
  constructor
  · intro h
    generalize htext : ([] : List α) = text at h
    induction h with
    | nil => exact fun p hp => nomatch hp
    | take => cases htext
    | run _ hsuffix _ ih =>
        subst htext
        intro p hp
        rcases List.mem_cons.mp hp with rfl | hp
        · rfl
        · exact ih (List.suffix_nil.mp hsuffix).symm p hp
  · intro h
    induction pat with
    | nil => exact .nil
    | cons p pat ih =>
        rw [h p (List.mem_cons_self ..)]
        exact .run (by simp) (List.suffix_refl _) (ih fun q hq => h q (List.mem_cons_of_mem _ hq))

section Taken

variable {qs us ps ts : List α}

/-- Only the rest is left to read when a symbol that is no proper star takes one of the text. -/
lemma reads_cons_iff (hne : star ≠ one) {p c : α} (h : Takes one p c) :
    Reads star one (p :: ps) (c :: ts) ↔ Reads star one ps ts := by
  refine ⟨fun hread => ?_, .take h⟩
  cases hread with
  | take _ hrest => exact hrest
  | run hhead =>
      rcases h with h | rfl
      · exact absurd h hne
      · exact absurd rfl hhead

lemma Reads.aligned (hne : star ≠ one) (h : List.Forall₂ (Takes one) qs us) :
    Reads star one (qs ++ ps) (us ++ ts) ↔ Reads star one ps ts := by
  induction h with
  | nil => rfl
  | cons htake _ ih => exact (reads_cons_iff hne htake).trans ih

/-- A reading that starts further on in the text has, where the pattern is past the part that was
taken, not fallen back behind the text of that part. -/
lemma Reads.cross (hne : star ≠ one) (h : List.Forall₂ (Takes one) qs us) {v : List α}
    (hv : v <:+ us ++ ts) (hread : Reads star one (qs ++ ps) v) :
    ∃ w, w <:+ ts ∧ Reads star one ps w := by
  induction h generalizing v with
  | nil => exact ⟨v, hv, hread⟩
  | @cons p c qs us htake _ ih =>
      rw [List.cons_append] at hv hread
      rcases List.suffix_cons_iff.mp hv with rfl | hv
      · exact ih (List.suffix_refl _) ((reads_cons_iff hne htake).mp hread)
      · cases hread with
        | take _ hrest => exact ih ((List.suffix_cons _ _).trans hv) hrest
        | run _ hsuffix hrest => exact ih (hsuffix.trans hv) hrest

lemma Reads.behind_star (h : Reads star one (star :: ps) ts) :
    ∃ w, w <:+ ts ∧ Reads star one ps w := by
  cases h with
  | take _ hrest => exact ⟨_, List.suffix_cons _ _, hrest⟩
  | run _ hsuffix hrest => exact ⟨_, hsuffix, hrest⟩

/-- A star that does not meet its own symbol reads what the pattern behind it reads from anywhere
on. -/
lemma reads_star_iff (hhead : ts.head? ≠ some star) :
    Reads star one (star :: ps) ts ↔ ∃ w, w <:+ ts ∧ Reads star one ps w :=
  ⟨Reads.behind_star, fun ⟨_, hw, hread⟩ => .run hhead hw hread⟩

end Taken

end Glob
