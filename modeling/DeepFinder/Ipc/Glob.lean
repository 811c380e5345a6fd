import DeepFinder.Ipc.Filter
import DeepFinder.Lib.Glob

/-!
# What a glob matches

`glob_impl` walks the pattern and the text with one finger each and goes back to the last star when
they part.  It tries equality before the star, so a star of the pattern that meets a literal `*` in
the text takes that byte alone and is no star to go back to: the loop computes `Glob.Reads`
(`globImpl_eq_reads`), which is the meaning of the pattern for texts without a literal `*`
(`glob_exact_of_no_star`), and `glob_exact_iff` says for which others.

The meaning of a pattern is that of the comment at the source, on bytes: `*` any bytes, `?` one
byte.  The exact condition asks whether the text has a cut along the pattern in which no star before
a literal `*` of the text takes more than that byte (`Glob.StarsAlone`); texts without a `*` always
have one.
-/

namespace DeepFinder

open ByteString

def GlobMeaning (pat text : Bytes) : Prop := Glob.Matches starByte questionByte pat text

/-- What the loop over the text reports, after the stars that are left. -/
def globAccepts (pat : Bytes) (r : Option (Option ℕ)) : Bool :=
  match r with
  | some (some pi) => (pat.drop pi).all (· == starByte)
  | _ => false

lemma globImpl_eq_accepts (pat text : Bytes) :
    globImpl pat text = globAccepts pat (globLoop pat text (globFuel pat text) 0 0 none) := rfl

lemma star_ne_question : starByte ≠ questionByte := by decide

/-- What is still to be found: a reading of the rest, or one behind the last star from anywhere on
where it stood. -/
def GlobGoal (pat text : Bytes) (pi ti : ℕ) : Option (ℕ × ℕ) → Prop
  | none => Glob.Reads starByte questionByte (pat.drop pi) (text.drop ti)
  | some (sp, st) => ∃ w, w <:+ text.drop st ∧
      Glob.Reads starByte questionByte (pat.drop (sp + 1)) w

/-- Behind the last star, the pattern has taken the text up to the fingers byte by byte. -/
def GlobInv (pat text : Bytes) (pi ti : ℕ) : Option (ℕ × ℕ) → Prop
  | none => True
  | some (sp, st) => sp < pat.length ∧ st ≤ ti ∧ ∃ qs us,
      List.Forall₂ (Glob.Takes questionByte) qs us ∧
        pat.drop (sp + 1) = qs ++ pat.drop pi ∧ text.drop st = us ++ text.drop ti

def starText : Option (ℕ × ℕ) → ℕ
  | none => 0
  | some (_, st) => st

/-- The steps that may still be taken: the last star moves on, or the pattern is walked. -/
def globRank (pat text : Bytes) (pi : ℕ) (star : Option (ℕ × ℕ)) : ℕ :=
  (text.length - starText star) * (pat.length + 1) + (pat.length - pi)

section Loop

variable {pat text : Bytes} {pi ti : ℕ} {star : Option (ℕ × ℕ)}

lemma drop_eq_cons {bs : Bytes} {i : ℕ} {b : UInt8} (h : bs[i]? = some b) :
    bs.drop i = b :: bs.drop (i + 1) := by
  rw [List.drop_eq_getElem?_toList_append, h]
  rfl

lemma takes_iff {p c : UInt8} :
    (p == questionByte || p == c) = true ↔ Glob.Takes questionByte p c := by
  rw [Bool.or_eq_true, beq_iff_eq, beq_iff_eq, Glob.Takes]

lemma any_takes_iff {c : UInt8} :
    ((pat[pi]?).any fun p => p == questionByte || p == c) = true ↔
      ∃ p, pat[pi]? = some p ∧ Glob.Takes questionByte p c := by
  rw [Option.any_eq_true]
  exact exists_congr fun p => and_congr_right fun _ => takes_iff

/-- A byte that the pattern takes. -/
lemma GlobInv.take {p c : UInt8} (h : GlobInv pat text pi ti star) (hp : pat[pi]? = some p)
    (hc : text[ti]? = some c) (htake : Glob.Takes questionByte p c) :
    GlobInv pat text (pi + 1) (ti + 1) star := by
  cases star with
  | none => trivial
  | some s =>
      obtain ⟨hsp, hst, qs, us, htakes, hpat, htext⟩ := h
      refine ⟨hsp, by omega, qs ++ [p], us ++ [c], ?_, ?_, ?_⟩
      · exact List.rel_append htakes (.cons htake .nil)
      · rw [hpat, drop_eq_cons hp, List.append_assoc, List.singleton_append]
      · rw [htext, drop_eq_cons hc, List.append_assoc, List.singleton_append]

lemma globInv_star {sp st : ℕ} (hsp : sp < pat.length) :
    GlobInv pat text (sp + 1) st (some (sp, st)) :=
  ⟨hsp, le_rfl, [], [], .nil, rfl, rfl⟩

lemma GlobInv.goal (h : GlobInv pat text pi ti star)
    (hread : Glob.Reads starByte questionByte (pat.drop pi) (text.drop ti)) :
    GlobGoal pat text pi ti star := by
  cases star with
  | none => exact hread
  | some s =>
      obtain ⟨-, -, qs, us, htakes, hpat, htext⟩ := h
      refine ⟨text.drop s.2, List.suffix_refl _, ?_⟩
      rw [hpat, htext]
      exact (Glob.Reads.aligned star_ne_question htakes).mpr hread

/-- Whatever is found, the pattern from its finger on reads the text from a place on that is not
before the text's finger. -/
lemma GlobInv.rest (h : GlobInv pat text pi ti star) (hgoal : GlobGoal pat text pi ti star) :
    ∃ w, w <:+ text.drop ti ∧ Glob.Reads starByte questionByte (pat.drop pi) w := by
  cases star with
  | none => exact ⟨_, List.suffix_refl _, hgoal⟩
  | some s =>
      obtain ⟨-, -, qs, us, htakes, hpat, htext⟩ := h
      obtain ⟨w, hw, hread⟩ := hgoal
      rw [htext] at hw
      rw [hpat] at hread
      exact Glob.Reads.cross star_ne_question htakes hw hread

/-- The text is used up. -/
lemma globGoal_end (h : GlobInv pat text pi ti star) (hend : text[ti]? = none) :
    GlobGoal pat text pi ti star ↔ (pat.drop pi).all (· == starByte) = true := by
  have hnil : text.drop ti = [] := List.drop_eq_nil_of_le (List.getElem?_eq_none_iff.mp hend)
  have hall : (pat.drop pi).all (· == starByte) = true ↔
      Glob.Reads starByte questionByte (pat.drop pi) [] := by
    simp [Glob.reads_nil]
  rw [hall]
  constructor
  · intro hgoal
    obtain ⟨w, hw, hread⟩ := h.rest hgoal
    rw [hnil] at hw
    rwa [List.suffix_nil.mp hw] at hread
  · intro hread
    exact h.goal (hnil ▸ hread)

lemma globGoal_take {p c : UInt8} (hp : pat[pi]? = some p) (hc : text[ti]? = some c)
    (htake : Glob.Takes questionByte p c) :
    GlobGoal pat text (pi + 1) (ti + 1) star ↔ GlobGoal pat text pi ti star := by
  cases star with
  | none =>
      rw [GlobGoal, GlobGoal, drop_eq_cons hp, drop_eq_cons hc]
      exact (Glob.reads_cons_iff star_ne_question htake).symm
  | some s => exact Iff.rfl

/-- A star that meets another byte becomes the one to go back to: it can do what any star before it
could have done. -/
lemma globGoal_star {c : UInt8} (h : GlobInv pat text pi ti star) (hp : pat[pi]? = some starByte)
    (hc : text[ti]? = some c) (hne : c ≠ starByte) :
    GlobGoal pat text (pi + 1) ti (some (pi, ti)) ↔ GlobGoal pat text pi ti star := by
  have hhead : (text.drop ti).head? ≠ some starByte := by
    rw [drop_eq_cons hc]
    exact fun heq => hne (Option.some.inj heq)
  have hstar := @Glob.reads_star_iff _ _ questionByte (pat.drop (pi + 1)) _ hhead
  rw [← drop_eq_cons hp] at hstar
  constructor
  · intro hgoal
    exact h.goal (hstar.mpr hgoal)
  · intro hgoal
    obtain ⟨w, hw, hread⟩ := h.rest hgoal
    rw [drop_eq_cons hp] at hread
    obtain ⟨w', hw', hread'⟩ := hread.behind_star
    exact ⟨w', hw'.trans hw, hread'⟩

/-- A pattern that neither takes the byte nor has a star there does not read the rest. -/
lemma not_reads_stuck {c : UInt8} (hc : text[ti]? = some c)
    (htake : ¬ ∃ p, pat[pi]? = some p ∧ Glob.Takes questionByte p c)
    (hstar : pat[pi]? ≠ some starByte) :
    ¬ Glob.Reads starByte questionByte (pat.drop pi) (text.drop ti) := by
  intro hread
  rw [drop_eq_cons hc] at hread
  cases hp : pat[pi]? with
  | none =>
      rw [List.drop_eq_nil_of_le (List.getElem?_eq_none_iff.mp hp)] at hread
      cases hread
  | some p =>
      rw [drop_eq_cons hp] at hread
      cases hread with
      | take ht _ => exact htake ⟨p, hp, ht⟩
      | run => exact hstar hp

/-- Where the fingers part, the last star moves on by one byte. -/
lemma globGoal_back {sp st : ℕ} {c : UInt8} (h : GlobInv pat text pi ti (some (sp, st)))
    (hc : text[ti]? = some c)
    (hstuck : ¬ Glob.Reads starByte questionByte (pat.drop pi) (text.drop ti)) :
    GlobGoal pat text (sp + 1) (st + 1) (some (sp, st + 1)) ↔
      GlobGoal pat text pi ti (some (sp, st)) := by
  obtain ⟨-, hst, qs, us, htakes, hpat, htext⟩ := h
  have hlt : st < text.length := by
    have := (List.getElem?_eq_some_iff.mp hc).1
    omega
  have hsplit := List.drop_eq_getElem_cons hlt
  constructor
  · rintro ⟨w, hw, hread⟩
    exact ⟨w, hw.trans (hsplit ▸ List.suffix_cons _ _), hread⟩
  · rintro ⟨w, hw, hread⟩
    rw [hsplit] at hw
    rcases List.suffix_cons_iff.mp hw with hfull | hw
    · rw [hfull, ← hsplit, hpat, htext] at hread
      exact absurd ((Glob.Reads.aligned star_ne_question htakes).mp hread) hstuck
    · exact ⟨w, hw, hread⟩

lemma GlobInv.starText_le (h : GlobInv pat text pi ti star) : starText star ≤ ti := by
  cases star with
  | none => exact Nat.zero_le _
  | some s => exact h.2.1

lemma globRank_star (h : GlobInv pat text pi ti star) (hpi : pi < pat.length) :
    globRank pat text (pi + 1) (some (pi, ti)) < globRank pat text pi star := by
  have hmul : (text.length - ti) * (pat.length + 1) ≤
      (text.length - starText star) * (pat.length + 1) :=
    Nat.mul_le_mul_right _ (Nat.sub_le_sub_left h.starText_le _)
  show (text.length - ti) * (pat.length + 1) + (pat.length - (pi + 1)) <
    (text.length - starText star) * (pat.length + 1) + (pat.length - pi)
  omega

lemma globRank_back {sp st : ℕ} (hst : st < text.length) :
    globRank pat text (sp + 1) (some (sp, st + 1)) < globRank pat text pi (some (sp, st)) := by
  have hmul : (text.length - st) * (pat.length + 1) =
      (text.length - (st + 1)) * (pat.length + 1) + (pat.length + 1) := by
    rw [← Nat.succ_mul]
    congr 1
    omega
  show (text.length - (st + 1)) * (pat.length + 1) + (pat.length - (sp + 1)) <
    (text.length - st) * (pat.length + 1) + (pat.length - pi)
  omega

end Loop

/-- The loop decides its goal, and its fuel lasts. -/
lemma globLoop_spec {pat text : Bytes} {fuel pi ti : ℕ} {star : Option (ℕ × ℕ)}
    (h : GlobInv pat text pi ti star) (hpi : pi ≤ pat.length)
    (hfuel : globRank pat text pi star < fuel) :
    globAccepts pat (globLoop pat text fuel pi ti star) = true ↔ GlobGoal pat text pi ti star := by
  induction fuel generalizing pi ti star with
  | zero => exact absurd hfuel (Nat.not_lt_zero _)
  | succ fuel ih =>
      unfold globLoop
      cases hc : text[ti]? with
      | none => exact (globGoal_end h hc).symm
      | some c =>
          dsimp only
          have hti := (List.getElem?_eq_some_iff.mp hc).1
          by_cases htake : ∃ p, pat[pi]? = some p ∧ Glob.Takes questionByte p c
          · obtain ⟨p, hp, htake⟩ := htake
            have hlt := (List.getElem?_eq_some_iff.mp hp).1
            rw [if_pos (any_takes_iff.mpr ⟨p, hp, htake⟩), ← globGoal_take hp hc htake]
            exact ih (h.take hp hc htake) hlt (by unfold globRank at hfuel ⊢; omega)
          · rw [if_neg fun hany => htake (any_takes_iff.mp hany)]
            by_cases hstar : pat[pi]? = some starByte
            · have hlt := (List.getElem?_eq_some_iff.mp hstar).1
              have hne : c ≠ starByte := fun hc => htake ⟨_, hstar, Or.inr hc.symm⟩
              rw [if_pos hstar, ← globGoal_star h hstar hc hne]
              exact ih (globInv_star hlt) hlt
                ((globRank_star h hlt).trans_le (Nat.le_of_lt_succ hfuel))
            · rw [if_neg hstar]
              have hstuck := not_reads_stuck hc htake hstar
              cases star with
              | none => exact iff_of_false Bool.false_ne_true hstuck
              | some s =>
                  obtain ⟨sp, st⟩ := s
                  dsimp only
                  rw [← globGoal_back h hc hstuck]
                  have hst := h.2.1
                  exact ih (globInv_star h.1) h.1
                    ((globRank_back (by omega)).trans_le (Nat.le_of_lt_succ hfuel))

/-- `glob_impl` is the reader that takes a star for a literal `*` whenever there is one. -/
theorem globImpl_eq_reads (pat text : Bytes) :
    globImpl pat text = true ↔ Glob.Reads starByte questionByte pat text := by
  have hfuel : globRank pat text 0 none < globFuel pat text := by
    have hmul : text.length * (pat.length + 1) + (pat.length + 1) ≤
        (text.length + 1) * (pat.length + text.length + 2) := by
      rw [← Nat.succ_mul]
      exact Nat.mul_le_mul_left _ (by omega)
    show text.length * (pat.length + 1) + pat.length < globFuel pat text
    unfold globFuel
    omega
  rw [globImpl_eq_accepts]
  exact globLoop_spec trivial (Nat.zero_le _) hfuel

/-- A text without a literal `*` matches exactly by the meaning of the pattern. -/
theorem glob_exact_of_no_star {pattern text : String} (h : starByte ∉ utf8 text) :
    globMatches pattern text = true ↔ GlobMeaning (utf8 pattern) (utf8 text) := by
  rw [globMatches, globImpl_eq_reads]
  exact Glob.reads_of_notMem h

/-- The matcher decides the meaning of a pattern exactly for the texts that do not match, and for
those that also match by a cut in which every star that stands before a literal `*` has just that
byte. -/
theorem glob_exact_iff (pattern text : String) :
    (globMatches pattern text = true ↔ GlobMeaning (utf8 pattern) (utf8 text)) ↔
      (GlobMeaning (utf8 pattern) (utf8 text) →
        ∃ pieces, Glob.Cut starByte questionByte (utf8 pattern) (utf8 text) pieces ∧
          Glob.StarsAlone starByte (utf8 pattern) pieces) := by
  rw [globMatches, globImpl_eq_reads, ← Glob.reads_iff]
  exact ⟨Iff.mpr, fun h => ⟨Glob.Reads.matches, h⟩⟩

/-- `*.log` does not match a log file whose name starts with a star. -/
theorem glob_star_before_star :
    globMatches "*.log" "*a.log" = false ∧ GlobMeaning (utf8 "*.log") (utf8 "*a.log") := by
  refine ⟨by decide +kernel, [[42, 97], [46], [108], [111], [103]], by decide +kernel, ?_⟩
  rw [show utf8 "*.log" = [42, 46, 108, 111, 103] by decide +kernel]
  refine .cons (Or.inl rfl) ?_
  repeat' first | exact .nil | refine .cons (Or.inr (Or.inr rfl)) ?_

end DeepFinder
