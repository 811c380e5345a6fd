import Mathlib.Data.List.Count
import Mathlib.Data.List.DropRight
import Mathlib.Data.List.Infix
import Mathlib.Tactic.Common

/-!
# Lines of a text

The lines of a text are what `List.splitOn` leaves between its separators; `fullLines` are the same
lines, each with its separator when it has one, and they make up the text.

`Around` cuts a text at an offset into the whole lines before it, the line that holds it, in two
parts, and the rest; `Around.line`, `Around.startOf_eq` and `Around.startOf_succ` say where these
stand among the lines.  A walk from line to line is reasoned about by the offsets at which the lines
start, `startOf`.
-/

namespace Lines

variable {α : Type*}

/-! ## Lines with their separators -/

section WithEnds

variable (sep : α)

/-- Every line but the last gets the separator behind it. -/
def withEnds : List (List α) → List (List α)
  | [] => []
  | [l] => [l]
  | l :: l' :: ls => (l ++ [sep]) :: withEnds (l' :: ls)

lemma withEnds_append (ps : List (List α)) {qs : List (List α)} (h : qs ≠ []) :
    withEnds sep (ps ++ qs) = ps.map (· ++ [sep]) ++ withEnds sep qs := by
  induction ps with
  | nil => rfl
  | cons p ps ih =>
      cases hps : ps ++ qs with
      | nil => exact absurd (List.append_eq_nil_iff.mp hps).2 h
      | cons r rs =>
          rw [List.cons_append, hps, withEnds, ← hps, ih]
          rfl

@[simp] lemma length_withEnds (ls : List (List α)) : (withEnds sep ls).length = ls.length := by
  induction ls with
  | nil => rfl
  | cons l ls ih =>
      cases ls with
      | nil => rfl
      | cons l' ls => exact congrArg (· + 1) ih

lemma withEnds_flatten {ls : List (List α)} (h : ls ≠ []) :
    (withEnds sep ls).flatten ++ [sep] = (ls.map (· ++ [sep])).flatten := by
  induction ls with
  | nil => exact absurd rfl h
  | cons l ls ih =>
      cases ls with
      | nil => simp [withEnds]
      | cons l' ls =>
          rw [withEnds, List.flatten_cons, List.append_assoc, ih (List.cons_ne_nil _ _)]
          rfl

end WithEnds

/-! ## The text around an offset -/

/-- A text cut at an offset: whole lines, the parts of the line that holds the offset, and the
rest, which is empty or starts with the separator of that line. -/
structure Around (sep : α) (l : List α) (off : ℕ) (pre a b post : List α) : Prop where
  split : l = pre ++ (a ++ (b ++ post))
  off_eq : off = pre.length + a.length
  pre_ends : pre = [] ∨ ∃ p, pre = p ++ [sep]
  notMem_left : sep ∉ a
  notMem_right : sep ∉ b
  post_starts : post = [] ∨ ∃ q, post = sep :: q

variable {sep : α}

/-- The end of a text behind its last separator. -/
lemma exists_last (l : List α) :
    ∃ pre a, l = pre ++ a ∧ (pre = [] ∨ ∃ p, pre = p ++ [sep]) ∧ sep ∉ a := by
  induction l using List.reverseRecOn with
  | nil => exact ⟨[], [], rfl, Or.inl rfl, List.not_mem_nil⟩
  | append_singleton l x ih =>
      by_cases hx : x = sep
      · exact ⟨l ++ [x], [], by simp, Or.inr ⟨l, by rw [hx]⟩, List.not_mem_nil⟩
      · obtain ⟨pre, a, rfl, hpre, ha⟩ := ih
        refine ⟨pre, a ++ [x], by simp, hpre, fun h => ?_⟩
        rcases List.mem_append.mp h with h | h
        · exact ha h
        · exact hx (List.mem_singleton.mp h).symm

/-- The start of a text before its first separator. -/
lemma exists_first (l : List α) :
    ∃ b post, l = b ++ post ∧ sep ∉ b ∧ (post = [] ∨ ∃ q, post = sep :: q) := by
  induction l with
  | nil => exact ⟨[], [], rfl, List.not_mem_nil, Or.inl rfl⟩
  | cons x l ih =>
      by_cases hx : x = sep
      · exact ⟨[], x :: l, rfl, List.not_mem_nil, Or.inr ⟨l, by rw [hx]⟩⟩
      · obtain ⟨b, post, rfl, hb, hpost⟩ := ih
        refine ⟨x :: b, post, rfl, fun h => ?_, hpost⟩
        rcases List.mem_cons.mp h with h | h
        · exact hx h.symm
        · exact hb h

lemma exists_around {l : List α} {off : ℕ} (h : off ≤ l.length) :
    ∃ pre a b post, Around sep l off pre a b post := by
  obtain ⟨pre, a, htake, hpre, ha⟩ := @exists_last _ sep (l.take off)
  obtain ⟨b, post, hdrop, hb, hpost⟩ := @exists_first _ sep (l.drop off)
  refine ⟨pre, a, b, post, ?_, ?_, hpre, ha, hb, hpost⟩
  · rw [← List.append_assoc, ← htake, ← hdrop, List.take_append_drop]
  · rw [← List.length_append, ← htake, List.length_take_of_le h]

section Cut

variable {l : List α} {off : ℕ} {pre a b post : List α}

lemma Around.take_eq (h : Around sep l off pre a b post) : l.take off = pre ++ a := by
  rw [h.split, h.off_eq, ← List.append_assoc, ← List.length_append, List.take_left]

lemma Around.drop_eq (h : Around sep l off pre a b post) : l.drop off = b ++ post := by
  rw [h.split, h.off_eq, ← List.append_assoc, ← List.length_append, List.drop_left]

end Cut

/-! ## The lines of a text -/

section Lines

variable [BEq α] (sep : α)

/-- The lines of a text, each with its separator when it has one. -/
def fullLines (l : List α) : List (List α) := withEnds sep (l.splitOn sep)

/-- The offset at which the line `i` starts; behind the last line, the end of the text. -/
def startOf (l : List α) (i : ℕ) : ℕ := ((fullLines sep l).take i).flatten.length

@[simp] lemma startOf_zero (l : List α) : startOf sep l 0 = 0 := rfl

lemma startOf_mono {sep : α} {l : List α} {i j : ℕ} (h : i ≤ j) :
    startOf sep l i ≤ startOf sep l j := by
  obtain ⟨t, ht⟩ := List.take_prefix_take_left (l := fullLines sep l) h
  rw [startOf, startOf, ← ht, List.flatten_append, List.length_append]
  exact Nat.le_add_right _ _

lemma length_splitOn (l : List α) : (l.splitOn sep).length = l.count sep + 1 := by
  induction l with
  | nil => simp
  | cons x l ih =>
      rw [List.splitOn_cons_eq_if_modifyHead, List.count_cons]
      split
      · rw [List.length_cons, ih]
      · rw [List.length_modifyHead, ih, Nat.add_zero]

lemma length_fullLines (l : List α) : (fullLines sep l).length = l.count sep + 1 := by
  rw [fullLines, length_withEnds, length_splitOn]

variable [LawfulBEq α]

/-- Closed by one more separator, a text is its lines with a separator each. -/
lemma flatten_map_splitOn (l : List α) :
    ((l.splitOn sep).map (· ++ [sep])).flatten = l ++ [sep] := by
  induction l with
  | nil => simp
  | cons x l ih =>
      rw [List.splitOn_cons_eq_if_modifyHead]
      split
      · rename_i hx
        rw [List.map_cons, List.flatten_cons, ih, eq_of_beq hx]
        rfl
      · cases hl : l.splitOn sep with
        | nil => exact (List.splitOn_ne_nil _ _ hl).elim
        | cons y ys =>
            rw [hl] at ih
            simpa using ih

section Around

variable {sep} {l : List α} {off : ℕ} {pre a b post : List α}

lemma Around.count_take (h : Around sep l off pre a b post) :
    (l.take off).count sep = pre.count sep := by
  rw [h.take_eq, List.count_append, List.count_eq_zero.mpr h.notMem_left, Nat.add_zero]

lemma Around.splitOn_eq (h : Around sep l off pre a b post) :
    ∃ ps, l.splitOn sep = ps ++ (a ++ (b ++ post)).splitOn sep ∧
      ps.length = pre.count sep ∧ (ps.map (· ++ [sep])).flatten = pre := by
  rw [h.split]
  rcases h.pre_ends with rfl | ⟨p, rfl⟩
  · exact ⟨[], rfl, rfl, rfl⟩
  · refine ⟨p.splitOn sep, ?_, ?_, flatten_map_splitOn sep p⟩
    · rw [List.append_assoc, List.singleton_append, List.splitOn_append_cons_self]
    · rw [length_splitOn, List.count_append, List.count_singleton_self]

/-- The line that holds the offset, and the lines behind it. -/
lemma Around.splitOn_line (h : Around sep l off pre a b post) :
    (post = [] ∧ (a ++ (b ++ post)).splitOn sep = [a ++ b]) ∨
      ∃ q, post = sep :: q ∧
        (a ++ (b ++ post)).splitOn sep = (a ++ b) :: q.splitOn sep := by
  have hline : sep ∉ a ++ b := by
    rw [List.mem_append, not_or]
    exact ⟨h.notMem_left, h.notMem_right⟩
  rcases h.post_starts with rfl | ⟨q, rfl⟩
  · refine Or.inl ⟨rfl, ?_⟩
    rw [List.append_nil, List.splitOn_eq_singleton hline]
  · refine Or.inr ⟨q, rfl, ?_⟩
    rw [← List.append_assoc, List.splitOn_append_cons_self_of_not_mem hline]

lemma Around.line (h : Around sep l off pre a b post) :
    (l.splitOn sep)[pre.count sep]? = some (a ++ b) := by
  obtain ⟨ps, hps, hlen, -⟩ := h.splitOn_eq
  rw [hps, ← hlen, List.getElem?_append_right le_rfl, Nat.sub_self]
  rcases h.splitOn_line with ⟨-, hline⟩ | ⟨q, -, hline⟩
  · rw [hline]
    rfl
  · rw [hline]
    rfl

/-- The lines with their separators, cut before and behind the line that holds the offset. -/
lemma Around.fullLines_eq (h : Around sep l off pre a b post) :
    ∃ ps rs, fullLines sep l = ps ++ (a ++ (b ++ post.take 1)) :: rs ∧
      ps.length = pre.count sep ∧ ps.flatten = pre := by
  obtain ⟨ps, hps, hlen, hflat⟩ := h.splitOn_eq
  have hne : (a ++ (b ++ post)).splitOn sep ≠ [] := List.splitOn_ne_nil _ _
  rw [fullLines, hps, withEnds_append sep ps hne]
  rcases h.splitOn_line with ⟨rfl, hline⟩ | ⟨q, rfl, hline⟩
  · refine ⟨ps.map (· ++ [sep]), [], ?_, by rw [List.length_map, hlen], hflat⟩
    rw [hline]
    simp [withEnds]
  · refine ⟨ps.map (· ++ [sep]), withEnds sep (q.splitOn sep), ?_, by rw [List.length_map, hlen],
      hflat⟩
    rw [hline]
    cases hq : q.splitOn sep with
    | nil => exact (List.splitOn_ne_nil _ _ hq).elim
    | cons r rs => simp [withEnds]

lemma Around.startOf_eq (h : Around sep l off pre a b post) :
    startOf sep l (pre.count sep) = pre.length := by
  obtain ⟨ps, rs, hfull, hlen, hflat⟩ := h.fullLines_eq
  rw [startOf, hfull, ← hlen, List.take_left, hflat]

lemma Around.startOf_succ (h : Around sep l off pre a b post) :
    startOf sep l (pre.count sep + 1) = off + b.length + (post.take 1).length := by
  obtain ⟨ps, rs, hfull, hlen, hflat⟩ := h.fullLines_eq
  rw [startOf, hfull, ← hlen, List.take_append, List.take_of_length_le (Nat.le_succ _),
    Nat.add_sub_cancel_left, List.take_succ_cons, List.take_zero, List.flatten_append, hflat,
    List.flatten_singleton, h.off_eq]
  simp only [List.length_append]
  omega

end Around

/-! ## Where the lines start -/

section Starts

variable {sep} {l : List α} {i j : ℕ}

lemma flatten_fullLines (l : List α) : (fullLines sep l).flatten = l := by
  have h := withEnds_flatten sep (List.splitOn_ne_nil sep l)
  rw [flatten_map_splitOn] at h
  exact List.append_cancel_right h

lemma flatten_take_append_drop (sep : α) (l : List α) (i : ℕ) :
    ((fullLines sep l).take i).flatten ++ ((fullLines sep l).drop i).flatten = l := by
  rw [← List.flatten_append, List.take_append_drop, flatten_fullLines]

lemma take_startOf (l : List α) (i : ℕ) :
    l.take (startOf sep l i) = ((fullLines sep l).take i).flatten :=
  (List.prefix_iff_eq_take.mp ⟨_, flatten_take_append_drop sep l i⟩).symm

lemma drop_take_startOf (l : List α) (h : i ≤ j) :
    (l.take (startOf sep l j)).drop (startOf sep l i) =
      (((fullLines sep l).take j).drop i).flatten := by
  have hsplit : (fullLines sep l).take j =
      (fullLines sep l).take i ++ ((fullLines sep l).take j).drop i := by
    conv_lhs => rw [← List.take_append_drop i ((fullLines sep l).take j)]
    rw [List.take_take, Nat.min_eq_left h]
  conv_lhs => rw [take_startOf, hsplit, List.flatten_append]
  rw [startOf, List.drop_left]

lemma startOf_le (l : List α) (i : ℕ) : startOf sep l i ≤ l.length :=
  List.IsPrefix.length_le ⟨_, flatten_take_append_drop sep l i⟩

lemma startOf_of_le (h : l.count sep < i) : startOf sep l i = l.length := by
  rw [startOf, List.take_of_length_le (by rw [length_fullLines]; exact h), flatten_fullLines]

/-- The text around the start of a line. -/
lemma exists_around_start (h : i ≤ l.count sep) :
    ∃ pre b post, Around sep l pre.length pre [] b post ∧ pre.count sep = i := by
  induction i with
  | zero =>
      obtain ⟨b, post, hl, hb, hpost⟩ := @exists_first _ sep l
      exact ⟨[], b, post, ⟨hl, rfl, Or.inl rfl, List.not_mem_nil, hb, hpost⟩, rfl⟩
  | succ i ih =>
      obtain ⟨pre, b, post, haround, hcount⟩ := ih (Nat.le_of_succ_le h)
      have hl := haround.split
      rcases haround.post_starts with rfl | ⟨q, rfl⟩
      · -- the line has a separator, or there would be no line behind it
        rw [hl, List.count_append, hcount, List.nil_append, List.append_nil,
          List.count_eq_zero.mpr haround.notMem_right] at h
        omega
      · obtain ⟨b', post', rfl, hb', hpost'⟩ := @exists_first _ sep q
        refine ⟨pre ++ (b ++ [sep]), b', post', ⟨by rw [hl]; simp, rfl,
          Or.inr ⟨pre ++ b, by simp⟩, List.not_mem_nil, hb', hpost'⟩, ?_⟩
        rw [List.count_append, hcount, List.count_append,
          List.count_eq_zero.mpr haround.notMem_right, List.count_singleton_self]

lemma count_take_startOf (h : i ≤ l.count sep) : (l.take (startOf sep l i)).count sep = i := by
  obtain ⟨pre, b, post, haround, rfl⟩ := exists_around_start h
  rw [haround.startOf_eq, haround.count_take]

/-- The separator before the start of a line belongs to the line before. -/
lemma count_take_startOf_succ (h : i + 1 ≤ l.count sep) :
    0 < startOf sep l (i + 1) ∧ (l.take (startOf sep l (i + 1) - 1)).count sep = i := by
  obtain ⟨pre, b, post, haround, rfl⟩ := exists_around_start (Nat.le_of_succ_le h)
  have hpost : post.take 1 = [sep] := by
    rcases haround.post_starts with rfl | ⟨q, rfl⟩
    · have hl := haround.split
      rw [hl, List.count_append, List.nil_append, List.append_nil,
        List.count_eq_zero.mpr haround.notMem_right] at h
      omega
    · rfl
  rw [haround.startOf_succ, hpost]
  refine ⟨Nat.succ_pos _, ?_⟩
  rw [List.length_singleton, Nat.add_sub_cancel, haround.split, ← List.length_append,
    List.nil_append, ← List.append_assoc, List.take_left, List.count_append,
    List.count_eq_zero.mpr haround.notMem_right, Nat.add_zero]

end Starts

/-! ## Runs of lines, and separators at the end -/

lemma splitOn_flatten_closed {ls : List (List α)} (h : ∀ l ∈ ls, sep ∉ l) :
    ((ls.map (· ++ [sep])).flatten).splitOn sep = ls ++ [[]] := by
  induction ls with
  | nil => simp
  | cons l ls ih =>
      rw [List.map_cons, List.flatten_cons, List.append_assoc, List.singleton_append,
        List.splitOn_append_cons_self_of_not_mem (h l (List.mem_cons_self ..)),
        ih fun l' hl' => h l' (List.mem_cons_of_mem _ hl')]
      rfl

lemma splitOn_flatten_withEnds {ls : List (List α)} (hne : ls ≠ []) (h : ∀ l ∈ ls, sep ∉ l) :
    ((withEnds sep ls).flatten).splitOn sep = ls := by
  have hclosed := splitOn_flatten_closed sep h
  rw [← withEnds_flatten sep hne, List.splitOn_append_cons_self] at hclosed
  exact List.append_cancel_right hclosed

lemma notMem_of_mem_splitOn {l line : List α} (h : line ∈ l.splitOn sep) : sep ∉ line := by
  induction hn : l.length using Nat.strong_induction_on generalizing l with
  | _ n ih =>
      obtain ⟨first, post, rfl, hfirst, rfl | ⟨rest, rfl⟩⟩ := @exists_first _ sep l
      · rw [List.append_nil, List.splitOn_eq_singleton hfirst, List.mem_singleton] at h
        exact h ▸ hfirst
      · rw [List.splitOn_append_cons_self_of_not_mem hfirst, List.mem_cons] at h
        rcases h with rfl | h
        · exact hfirst
        · exact ih _ (by rw [← hn]; simp; omega) h rfl

/-- A run of the lines of a text, as a text, has these lines, and one more when it is closed. -/
lemma splitOn_run (l : List α) {i j : ℕ} (hi : i < (l.splitOn sep).length) :
    ((((fullLines sep l).take j).drop i).flatten).splitOn sep =
        ((l.splitOn sep).take j).drop i ∨
      ((((fullLines sep l).take j).drop i).flatten).splitOn sep =
        ((l.splitOn sep).take j).drop i ++ [[]] := by
  have hrun : ∀ line ∈ ((l.splitOn sep).take j).drop i, sep ∉ line := fun line hline =>
    notMem_of_mem_splitOn sep (List.mem_of_mem_take (List.mem_of_mem_drop hline))
  by_cases hj : j < (l.splitOn sep).length
  · right
    have hrest : (l.splitOn sep).drop j ≠ [] := by
      rw [Ne, List.drop_eq_nil_iff]
      omega
    have hcut := withEnds_append sep ((l.splitOn sep).take j) hrest
    rw [List.take_append_drop] at hcut
    have hlen : (((l.splitOn sep).take j).map (· ++ [sep])).length = j := by
      rw [List.length_map, List.length_take, Nat.min_eq_left hj.le]
    have htake : (fullLines sep l).take j = ((l.splitOn sep).take j).map (· ++ [sep]) := by
      rw [fullLines, hcut, List.take_left' hlen]
    rw [htake, ← List.map_drop, splitOn_flatten_closed sep hrun]
  · left
    have hall : (fullLines sep l).take j = withEnds sep (l.splitOn sep) := by
      rw [fullLines, List.take_of_length_le (by rw [length_withEnds]; omega)]
    have hsame : (l.splitOn sep).take j = l.splitOn sep := List.take_of_length_le (by omega)
    rw [hsame] at hrun ⊢
    have hne : (l.splitOn sep).drop i ≠ [] := by
      rw [Ne, List.drop_eq_nil_iff]
      omega
    have hcut := withEnds_append sep ((l.splitOn sep).take i) hne
    rw [List.take_append_drop] at hcut
    have hlen : (((l.splitOn sep).take i).map (· ++ [sep])).length = i := by
      rw [List.length_map, List.length_take, Nat.min_eq_left hi.le]
    rw [hall, hcut, List.drop_left' hlen, splitOn_flatten_withEnds sep hne hrun]

end Lines

/-- Lines without the empty ones at their end; one line stays. -/
def trimLines (ls : List (List α)) : List (List α) :=
  if ls.rdropWhile List.isEmpty = [] then [[]] else ls.rdropWhile List.isEmpty

@[simp] lemma trimLines_concat_nil (ls : List (List α)) : trimLines (ls ++ [[]]) = trimLines ls := by
  rw [trimLines, List.rdropWhile_concat_pos _ _ _ rfl, trimLines]

/-- Without the separators at its end a text has its lines without the empty ones at their end. -/
lemma splitOn_rdropWhile [BEq α] [LawfulBEq α] (sep : α) (l : List α) :
    (l.rdropWhile (· == sep)).splitOn sep = trimLines (l.splitOn sep) := by
  induction l using List.reverseRecOn with
  | nil => simp [trimLines]
  | append_singleton l x ih =>
      by_cases hx : (x == sep) = true
      · rw [List.rdropWhile_concat_pos (· == sep) _ _ hx, ih, eq_of_beq hx, List.splitOn_append_cons_self,
          List.splitOn_nil, trimLines_concat_nil]
      · rw [List.rdropWhile_concat_neg (· == sep) _ _ hx]
        obtain ⟨pre, a, rfl, hpre, ha⟩ := @exists_last _ sep l
        have hline : sep ∉ a ++ [x] := by
          rw [List.mem_append, List.mem_singleton, not_or]
          exact ⟨ha, fun h => hx (beq_iff_eq.mpr h.symm)⟩
        -- the last line holds the last element
        obtain ⟨ps, hps⟩ : ∃ ps, (pre ++ a ++ [x]).splitOn sep = ps ++ [a ++ [x]] := by
          rw [List.append_assoc]
          rcases hpre with rfl | ⟨p, rfl⟩
          · exact ⟨[], List.splitOn_eq_singleton hline⟩
          · refine ⟨p.splitOn sep, ?_⟩
            rw [List.append_assoc, List.singleton_append, List.splitOn_append_cons_self,
              List.splitOn_eq_singleton hline]
        have hlast : (a ++ [x]).isEmpty = false := by simp
        rw [hps, trimLines, List.rdropWhile_concat_neg _ _ _ (by rw [hlast]; exact Bool.false_ne_true),
          if_neg (by simp)]

/-- Lines that are read one by one. -/
lemma trimLines_map {β : Type*} {f : List α → List β} (h : ∀ l, (f l).isEmpty = l.isEmpty)
    (ls : List (List α)) : trimLines (ls.map f) = (trimLines ls).map f := by
  have hnil : f [] = [] := by simpa using h []
  have hmap : ∀ ls : List (List α),
      (ls.map f).rdropWhile List.isEmpty = (ls.rdropWhile List.isEmpty).map f := by
    intro ls
    induction ls using List.reverseRecOn with
    | nil => rfl
    | append_singleton ls l ih =>
        rw [List.map_append, List.map_singleton]
        by_cases hl : l.isEmpty = true
        · rw [List.rdropWhile_concat_pos _ _ _ (by rw [h, hl]), ih,
            List.rdropWhile_concat_pos _ _ _ hl]
        · rw [List.rdropWhile_concat_neg _ _ _ (by rw [h]; exact hl),
            List.rdropWhile_concat_neg _ _ _ hl, List.map_append, List.map_singleton]
  rw [trimLines, trimLines, hmap]
  by_cases hls : ls.rdropWhile List.isEmpty = []
  · rw [if_pos hls, if_pos (by rw [hls, List.map_nil]), List.map_singleton, hnil]
  · rw [if_neg hls, if_neg (by rwa [List.map_eq_nil_iff])]

end Lines
