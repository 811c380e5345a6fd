import DeepFinder.Ipc.Glob
import DeepFinder.Lib.WhileLoop

/-!
# The loops of `glob_impl`

The two loops with the source's variables, indices that panic out of bounds and a count of the
iterations.  The finger in the text goes back at every backtrack, but the place the last star was
tried at never does, and between two moves of it the finger in the pattern only advances: that is
`globRank`, which every branch of the first loop decreases (`textLoop_iterates`).  What the first
loop leaves of it pays for the second one.
-/

namespace DeepFinder

open ByteString

/-- The variables of `glob_impl`. -/
structure GlobVars where
  pi : ℕ := 0
  ti : ℕ := 0
  starPi : Option ℕ := none
  starTi : ℕ := 0

/-- `pi < pat.len() && (pat[pi] == b'?' || pat[pi] == text[ti])`. -/
def takesHere (pat text : Bytes) (pi ti : ℕ) : Res Bool :=
  if pi < pat.length then do
    let p ← byteAt pat pi
    if p == questionByte then pure true
    else do
      let c ← byteAt text ti
      pure (p == c)
  else pure false

/-- `pi < pat.len() && pat[pi] == b'*'`. -/
def starHere (pat : Bytes) (pi : ℕ) : Res Bool :=
  if pi < pat.length then do
    let p ← byteAt pat pi
    pure (p == starByte)
  else pure false

/-- `while ti < text.len()`. -/
def textLoop (pat text : Bytes) : WhileLoop Fault GlobVars Bool where
  cond v := pure (decide (v.ti < text.length))
  body v := do
    if ← takesHere pat text v.pi v.ti then
      pure (.inl { v with pi := v.pi + 1, ti := v.ti + 1 })
    else if ← starHere pat v.pi then
      pure (.inl { v with starPi := some v.pi, starTi := v.ti, pi := v.pi + 1 })
    else
      match v.starPi with
      | some sp => pure (.inl { v with pi := sp + 1, starTi := v.starTi + 1, ti := v.starTi + 1 })
      | none => pure (.inr false)

/-- `while pi < pat.len() && pat[pi] == b'*'`. -/
def starsLoop (pat : Bytes) : WhileLoop Fault ℕ Bool where
  cond pi := starHere pat pi
  body pi := pure (.inl (pi + 1))

/-- `glob_impl` with a budget of iterations for its two loops together: how many it took and what
it returned. -/
def globRun (pat text : Bytes) (budget : ℕ) : Option (ℕ × Res Bool) :=
  match (textLoop pat text).run budget {} with
  | none => none
  | some (n, .error f) => some (n, .error f)
  | some (n, .ok (.inr b)) => some (n, .ok b)
  | some (n, .ok (.inl v)) =>
      match (starsLoop pat).run (budget - n) v.pi with
      | none => none
      | some (m, .error f) => some (n + m, .error f)
      | some (m, .ok (.inr b)) => some (n + m, .ok b)
      | some (m, .ok (.inl pi)) => some (n + m, .ok (pi == pat.length))

section Conditions

variable {pat text : Bytes} {pi ti : ℕ}

/-- The guard keeps the index inside the pattern, the loop's condition the one inside the text. -/
lemma takesHere_eq {c : UInt8} (hc : text[ti]? = some c) :
    takesHere pat text pi ti = .ok ((pat[pi]?).any fun p => p == questionByte || p == c) := by
  unfold takesHere
  split
  · rename_i hlt
    have hp : byteAt pat pi = .ok pat[pi] := by rw [byteAt, List.getElem?_eq_getElem hlt]
    have ht : byteAt text ti = .ok c := by rw [byteAt, hc]
    rw [hp, bind_ok, ht, List.getElem?_eq_getElem hlt, Option.any_some]
    cases pat[pi] == questionByte with
    | false => rfl
    | true => rfl
  · rename_i hge
    rw [List.getElem?_eq_none (Nat.le_of_not_lt hge)]
    rfl

lemma starHere_eq : starHere pat pi = .ok (decide (pat[pi]? = some starByte)) := by
  unfold starHere
  split
  · rename_i hlt
    have hp : byteAt pat pi = .ok pat[pi] := by rw [byteAt, List.getElem?_eq_getElem hlt]
    rw [hp, bind_ok, List.getElem?_eq_getElem hlt]
    show Except.ok (pat[pi] == starByte) = _
    simp [beq_eq_decide]
  · rename_i hge
    rw [List.getElem?_eq_none (Nat.le_of_not_lt hge)]
    rfl

end Conditions

/-! ## The loop over the text -/

def GlobVars.star (v : GlobVars) : Option (ℕ × ℕ) := v.starPi.map fun sp => (sp, v.starTi)

/-- The fingers are in their slices, and what is still to be found decides the whole match. -/
structure GlobVars.Sound (pat text : Bytes) (v : GlobVars) : Prop where
  inv : GlobInv pat text v.pi v.ti v.star
  pi_le : v.pi ≤ pat.length
  ti_le : v.ti ≤ text.length
  goal : GlobGoal pat text v.pi v.ti v.star ↔ Glob.Reads starByte questionByte pat text

section TextLoop

variable {pat text : Bytes} {v : GlobVars}

lemma GlobVars.sound_init : GlobVars.Sound pat text {} where
  inv := trivial
  pi_le := Nat.zero_le _
  ti_le := Nat.zero_le _
  goal := Iff.rfl

/-- Every branch keeps the fingers in their slices and decreases the rank; the loop returns only
where there is no match. -/
lemma textLoop_iterates (h : v.Sound pat text) (hcond : (textLoop pat text).cond v = .ok true) :
    WhileLoop.Iterates (GlobVars.Sound pat text) (fun v => globRank pat text v.pi v.star)
      (fun b => b = globImpl pat text) v ((textLoop pat text).body v) := by
  have hti : v.ti < text.length := of_decide_eq_true (Except.ok.inj hcond)
  have hc : text[v.ti]? = some text[v.ti] := List.getElem?_eq_getElem hti
  unfold textLoop
  dsimp only
  rw [takesHere_eq hc, bind_ok, starHere_eq]
  by_cases htake : ∃ p, pat[v.pi]? = some p ∧ Glob.Takes questionByte p text[v.ti]
  · obtain ⟨p, hp, htake⟩ := htake
    have hpi := (List.getElem?_eq_some_iff.mp hp).1
    rw [if_pos (any_takes_iff.mpr ⟨p, hp, htake⟩)]
    refine ⟨⟨h.inv.take hp hc htake, hpi, hti, ?_⟩, ?_⟩
    · exact (globGoal_take hp hc htake).trans h.goal
    · show globRank pat text (v.pi + 1) v.star < globRank pat text v.pi v.star
      unfold globRank
      omega
  · rw [if_neg fun hany => htake (any_takes_iff.mp hany), bind_ok]
    by_cases hstar : pat[v.pi]? = some starByte
    · have hpi := (List.getElem?_eq_some_iff.mp hstar).1
      have hne : text[v.ti] ≠ starByte := fun heq => htake ⟨_, hstar, Or.inr heq.symm⟩
      rw [if_pos (decide_eq_true hstar)]
      refine ⟨⟨globInv_star hpi, hpi, h.ti_le, ?_⟩, ?_⟩
      · exact (globGoal_star h.inv hstar hc hne).trans h.goal
      · exact globRank_star h.inv hpi
    · -- the fingers part: the last star moves on, or there is no match
      have hstuck := not_reads_stuck hc htake hstar
      rw [if_neg (by simpa using hstar)]
      have hinv := h.inv
      have hgoal := h.goal
      unfold GlobVars.star at hinv hgoal ⊢
      cases hsp : v.starPi with
      | none =>
          rw [hsp] at hgoal
          have hnot : ¬ globImpl pat text = true :=
            fun hm => hstuck (hgoal.mpr ((globImpl_eq_reads pat text).mp hm))
          exact (Bool.eq_false_of_not_eq_true hnot).symm
      | some sp =>
          rw [hsp] at hinv hgoal
          have hst : v.starTi ≤ v.ti := hinv.2.1
          refine ⟨⟨globInv_star hinv.1, hinv.1, ?_, ?_⟩, ?_⟩
          · show v.starTi + 1 ≤ text.length
            omega
          · exact (globGoal_back hinv hc hstuck).trans hgoal
          · show globRank pat text (sp + 1) (some (sp, v.starTi + 1)) <
              globRank pat text v.pi (v.starPi.map fun sp => (sp, v.starTi))
            rw [hsp]
            exact globRank_back (by omega)

end TextLoop

/-! ## The loop over the stars that are left -/

/-- The finger is in the pattern, and what it has passed were stars. -/
structure StarsSound (pat text : Bytes) (pi : ℕ) : Prop where
  pi_le : pi ≤ pat.length
  all_iff : (pat.drop pi).all (· == starByte) = globImpl pat text

lemma starsLoop_iterates {pat text : Bytes} {pi : ℕ} (h : StarsSound pat text pi)
    (hcond : (starsLoop pat).cond pi = .ok true) :
    WhileLoop.Iterates (StarsSound pat text) (pat.length - ·) (fun _ => False) pi
      ((starsLoop pat).body pi) := by
  have hstar : pat[pi]? = some starByte :=
    of_decide_eq_true (Except.ok.inj (starHere_eq.symm.trans hcond))
  have hpi := (List.getElem?_eq_some_iff.mp hstar).1
  refine ⟨⟨hpi, ?_⟩, ?_⟩
  · have hall := h.all_iff
    rwa [drop_eq_cons hstar, List.all_cons, beq_self_eq_true, Bool.true_and] at hall
  · show pat.length - (pi + 1) < pat.length - pi
    omega

/-- Where the loop stops, the rest of the pattern is empty or does not consist of stars. -/
lemma StarsSound.result {pat text : Bytes} {pi : ℕ} (h : StarsSound pat text pi)
    (hcond : (starsLoop pat).cond pi = .ok false) : (pi == pat.length) = globImpl pat text := by
  have hstar : pat[pi]? ≠ some starByte :=
    of_decide_eq_false (Except.ok.inj (starHere_eq.symm.trans hcond))
  rw [← h.all_iff]
  rcases h.pi_le.eq_or_lt with rfl | hlt
  · simp
  · rw [List.getElem?_eq_getElem hlt] at hstar
    have hne : pat[pi] ≠ starByte := fun heq => hstar (congrArg some heq)
    have hpi : (pi == pat.length) = false := by simp [hlt.ne]
    rw [List.drop_eq_getElem_cons hlt, List.all_cons, beq_false_of_ne hne, hpi, Bool.false_and]

/-- Behind the text, the rest of the match is that the rest of the pattern consists of stars. -/
lemma GlobVars.Sound.stars {pat text : Bytes} {v : GlobVars} (h : v.Sound pat text)
    (hcond : (textLoop pat text).cond v = .ok false) : StarsSound pat text v.pi where
  pi_le := h.pi_le
  all_iff := by
    have hge : ¬ v.ti < text.length := of_decide_eq_false (Except.ok.inj hcond)
    have hend : text[v.ti]? = none := List.getElem?_eq_none (Nat.le_of_not_lt hge)
    rw [Bool.eq_iff_iff, globImpl_eq_reads, ← h.goal]
    exact (globGoal_end h.inv hend).symm

/-- The first loop spends the rank it starts from at most, and one iteration if it returns; the
second one lives on what is left. -/
lemma exists_globRun (pat text : Bytes) :
    ∃ n, n ≤ (text.length + 1) * (pat.length + 1) ∧
      ∀ extra, globRun pat text (n + extra) = some (n, .ok (globImpl pat text)) := by
  have hrank : globRank pat text 0 none + 1 = (text.length + 1) * (pat.length + 1) := by
    show text.length * (pat.length + 1) + pat.length + 1 = _
    ring
  obtain ⟨n, out, hends, hrun⟩ := WhileLoop.exists_run (fun v _ => ⟨_, rfl⟩)
    (fun _ => textLoop_iterates) (@GlobVars.sound_init pat text)
  cases out with
  | inr b =>
      obtain ⟨rfl, hle⟩ := hends
      refine ⟨n, hle.trans hrank.le, fun extra => ?_⟩
      rw [globRun, hrun]
  | inl v =>
      obtain ⟨hv, hcond, hle⟩ := hends
      obtain ⟨m, out, hends', hrun'⟩ := WhileLoop.exists_run (fun pi _ => ⟨_, starHere_eq⟩)
        (fun _ => starsLoop_iterates) (hv.stars hcond)
      cases out with
      | inr b => exact hends'.1.elim
      | inl pi =>
          obtain ⟨hpi, hfalse, hle'⟩ := hends'
          refine ⟨n + m, ?_, fun extra => ?_⟩
          · have hfirst : n + globRank pat text v.pi v.star ≤ globRank pat text 0 none := hle
            have hleft : pat.length - v.pi ≤ globRank pat text v.pi v.star := Nat.le_add_left _ _
            have hsecond : m + (pat.length - pi) ≤ pat.length - v.pi := hle'
            omega
          · rw [globRun, Nat.add_assoc, hrun]
            dsimp only
            rw [Nat.add_sub_cancel_left, hrun']
            dsimp only
            rw [hpi.result hfalse]

/-- On every pattern and text, `glob_impl` ends in at most `(|text| + 1) * (|pat| + 1) + |text| +
|pat|` iterations and no index is out of bounds: it returns whether the text matches.  `globRun`
counts the rounds of both loops; with any more fuel the count is the same. -/
theorem glob_loops_bounded (pat text : Bytes) :
    ∃ n, n ≤ (text.length + 1) * (pat.length + 1) + text.length + pat.length ∧
      ∀ extra, globRun pat text (n + extra) = some (n, .ok (globImpl pat text)) := by
  obtain ⟨n, hle, hrun⟩ := exists_globRun pat text
  exact ⟨n, by omega, hrun⟩

-- `**a` on `ba`: two stars, one step back, one byte taken
example : globRun [42, 42, 97] [98, 97] 4 = some (4, .ok true) ∧
    globRun [42, 42, 97] [98, 97] 3 = none := by
  decide

end DeepFinder
