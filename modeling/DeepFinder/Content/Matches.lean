import DeepFinder.Content.ContextBlock

/-!
# Matches and their lines

`find_iter` finds occurrences that do not overlap, and one that covers every occurrence there is.
A needle without a newline occurs inside one line, and so in every line it covers: the lines on
which the offsets of `literal_match_offsets` stand are the lines that contain the needle
(`mem_offsetLines`).

A search with regard to case looks for the needle in the content, and one without in the folded
content (`foldUnless`); both have the same newlines in the same places, so that line numbers agree.
-/

namespace DeepFinder

open ByteString

/-! ## Occurrences -/

def OccursAt (hay needle : Bytes) (p : ℕ) : Prop := needle <+: hay.drop p

section Occurrences

variable {hay needle : Bytes} {p : ℕ}

lemma OccursAt.le_length (h : OccursAt hay needle p) (hne : needle ≠ []) :
    p + needle.length ≤ hay.length := by
  have hpos := List.length_pos_iff.mpr hne
  have hle := h.length_le
  rw [List.length_drop] at hle
  omega

lemma occursAt_drop (k : ℕ) : OccursAt (hay.drop k) needle p ↔ OccursAt hay needle (k + p) := by
  rw [OccursAt, OccursAt, List.drop_drop]

lemma take_drop_beq : ((hay.drop p).take needle.length == needle) = true ↔
    OccursAt hay needle p := by
  rw [beq_iff_eq, OccursAt, List.prefix_iff_eq_take, eq_comm]

lemma memmemFind_some {i : ℕ} (h : memmemFind hay needle = some i) :
    OccursAt hay needle i ∧ ∀ p < i, ¬OccursAt hay needle p := by
  rw [memmemFind, List.find?_range_eq_some] at h
  obtain ⟨hocc, -, hfirst⟩ := h
  refine ⟨take_drop_beq.mp hocc, fun p hp hat => ?_⟩
  have hnot := hfirst p hp
  rw [take_drop_beq.mpr hat] at hnot
  cases hnot

lemma memmemFind_none (hne : needle ≠ []) (h : memmemFind hay needle = none) (p : ℕ) :
    ¬OccursAt hay needle p := by
  intro hat
  have hle := hat.le_length hne
  rw [memmemFind, List.find?_range_eq_none] at h
  have hnot := h p (by omega)
  rw [take_drop_beq.mpr hat] at hnot
  cases hnot

lemma memmemFind_start (h : needle <+: hay) : memmemFind hay needle = some 0 := by
  have hle := h.length_le
  rw [memmemFind, List.find?_range_eq_some]
  refine ⟨take_drop_beq.mpr h, List.mem_range.mpr (by omega), fun p hp => absurd hp (by omega)⟩

/-- What `find_iter` finds are occurrences. -/
lemma occursAt_of_mem_findIterLoop {fuel base off : ℕ}
    (h : off ∈ findIterLoop needle fuel base hay) :
    ∃ p, off = base + p ∧ OccursAt hay needle p := by
  induction fuel generalizing base hay with
  | zero => cases h
  | succ fuel ih =>
      rw [findIterLoop] at h
      cases hfind : memmemFind hay needle with
      | none =>
          rw [hfind] at h
          cases h
      | some i =>
          rw [hfind] at h
          rcases List.mem_cons.mp h with rfl | h
          · exact ⟨i, rfl, (memmemFind_some hfind).1⟩
          · obtain ⟨p, rfl, hp⟩ := ih h
            exact ⟨i + needle.length + p, by omega, (occursAt_drop _).mp hp⟩

/-- The occurrences found do not overlap. -/
lemma pairwise_findIterLoop (fuel base : ℕ) :
    (findIterLoop needle fuel base hay).Pairwise fun a b => a + needle.length ≤ b := by
  induction fuel generalizing base hay with
  | zero => exact List.Pairwise.nil
  | succ fuel ih =>
      rw [findIterLoop]
      cases memmemFind hay needle with
      | none => exact List.Pairwise.nil
      | some i =>
          refine List.Pairwise.cons (fun off hoff => ?_) (ih _)
          obtain ⟨p, rfl, -⟩ := occursAt_of_mem_findIterLoop hoff
          exact Nat.le_add_right _ _

/-- Every occurrence starts inside one that is found. -/
lemma exists_mem_findIterLoop (hne : needle ≠ []) {fuel base : ℕ} (hfuel : hay.length < fuel)
    (h : OccursAt hay needle p) :
    ∃ i, base + i ∈ findIterLoop needle fuel base hay ∧ i ≤ p ∧ p < i + needle.length := by
  have hpos := List.length_pos_iff.mpr hne
  induction fuel generalizing base hay p with
  | zero => exact absurd hfuel (Nat.not_lt_zero _)
  | succ fuel ih =>
      rw [findIterLoop]
      cases hfind : memmemFind hay needle with
      | none => exact absurd h (memmemFind_none hne hfind p)
      | some i =>
          obtain ⟨hat, hfirst⟩ := memmemFind_some hfind
          have hle := hat.le_length hne
          have hip : i ≤ p := by
            by_contra hlt
            exact hfirst p (Nat.lt_of_not_le hlt) h
          by_cases hin : p < i + needle.length
          · exact ⟨i, List.mem_cons_self .., hip, hin⟩
          · -- the search goes on behind the occurrence at `i`, and `h` stands there
            obtain ⟨r, rfl⟩ := Nat.exists_eq_add_of_le (Nat.le_of_not_lt hin)
            have hrest : (hay.drop (i + needle.length)).length < fuel := by
              rw [List.length_drop]
              omega
            obtain ⟨j, hj, hjr, hrj⟩ := @ih _ _ (base + i + needle.length) hrest
              ((occursAt_drop _).mpr h)
            refine ⟨i + needle.length + j, List.mem_cons_of_mem _ ?_, by omega, by omega⟩
            rw [← Nat.add_assoc, ← Nat.add_assoc]
            exact hj

end Occurrences

/-! ## The text that is searched -/

def foldUnless (caseSensitive : Bool) (content : Bytes) : Bytes :=
  if caseSensitive then content else fold content

section Searched

variable {content needle : Bytes} {caseSensitive : Bool}

lemma literalMatchOffsets_eq (hne : needle ≠ []) :
    literalMatchOffsets content needle caseSensitive =
      memmemFindIter (foldUnless caseSensitive content) needle := by
  rw [literalMatchOffsets, if_neg hne, foldUnless]
  cases caseSensitive <;> rfl

lemma foldByte_eq_newline (b : UInt8) : foldByte b = newline ↔ b = newline := by
  have hall : ∀ n < 256, foldByte (UInt8.ofNat n) = newline ↔ UInt8.ofNat n = newline := by
    decide +kernel
  simpa using hall b.toNat b.toNat_lt

@[simp] lemma length_foldUnless (caseSensitive : Bool) (content : Bytes) :
    (foldUnless caseSensitive content).length = content.length := by
  cases caseSensitive
  · exact length_fold content
  · rfl

lemma splitOn_fold (content : Bytes) :
    (fold content).splitOn newline = (content.splitOn newline).map fold := by
  induction content with
  | nil => simp [fold]
  | cons b bs ih =>
      have hcons : fold (b :: bs) = foldByte b :: fold bs := rfl
      have hbeq : (foldByte b == newline) = (b == newline) := by
        rw [Bool.eq_iff_iff, beq_iff_eq, beq_iff_eq, foldByte_eq_newline]
      rw [hcons, List.splitOn_cons_eq_if_modifyHead, List.splitOn_cons_eq_if_modifyHead, hbeq, ih]
      split
      · rfl
      · cases bs.splitOn newline <;> rfl

lemma splitOn_foldUnless (caseSensitive : Bool) (content : Bytes) :
    (foldUnless caseSensitive content).splitOn newline =
      (content.splitOn newline).map (foldUnless caseSensitive) := by
  cases caseSensitive
  · exact splitOn_fold content
  · exact (List.map_id _).symm

lemma count_fold (content : Bytes) : (fold content).count newline = content.count newline := by
  have hlen := congrArg List.length (splitOn_fold content)
  rw [List.length_map, Lines.length_splitOn, Lines.length_splitOn] at hlen
  exact Nat.succ_injective hlen

lemma newlinesBefore_foldUnless (caseSensitive : Bool) (content : Bytes) (off : ℕ) :
    newlinesBefore (foldUnless caseSensitive content) off = newlinesBefore content off := by
  rw [newlinesBefore, newlinesBefore, length_foldUnless]
  cases caseSensitive
  · exact (congrArg _ (List.map_take ..).symm).trans (count_fold _)
  · rfl

end Searched

/-! ## Lines -/

/-- The lines on which the offsets stand, counted from one. -/
def offsetLines (content : Bytes) (offs : List ℕ) : List ℕ :=
  offs.map fun off => newlinesBefore content off + 1

/-- The line `k`, counted from one, without its newline. -/
def lineAt (content : Bytes) (k : ℕ) : Bytes := ((content.splitOn newline)[k - 1]?).getD []

/-- The lines that contain the needle, counted from one. -/
def matchingLines (content needle : Bytes) (caseSensitive : Bool) : List ℕ :=
  (List.range' 1 (content.splitOn newline).length).filter fun k =>
    containsSub (foldUnless caseSensitive (lineAt content k)) needle

section Lines

variable {content needle : Bytes} {p : ℕ}

lemma newlinesBefore_of_le (h : p ≤ content.length) :
    newlinesBefore content p = (content.take p).count newline := by
  rw [newlinesBefore, Nat.min_eq_left h]

lemma newlinesBefore_mono {p q : ℕ} (h : p ≤ q) :
    newlinesBefore content p ≤ newlinesBefore content q := by
  have hle : min p content.length ≤ min q content.length := by omega
  exact ((List.take_prefix_take_left hle).sublist).count_le _

lemma newlinesBefore_eq_of_covered {hay : Bytes} (hne : needle ≠ []) (hnl : newline ∉ needle)
    {off : ℕ} (hat : OccursAt hay needle off) (hle : off ≤ p) (hlt : p < off + needle.length) :
    newlinesBefore hay p = newlinesBefore hay off := by
  have hlen := hat.le_length hne
  obtain ⟨k, rfl⟩ := Nat.exists_eq_add_of_le hle
  obtain ⟨t, ht⟩ := hat
  rw [newlinesBefore_of_le (by omega), newlinesBefore_of_le (by omega), List.take_add,
    List.count_append, ← ht, List.take_append_of_le_length (by omega)]
  rw [List.count_eq_zero.mpr fun h => hnl (List.take_subset _ _ h), Nat.add_zero]

lemma prefix_of_notMem {b q : Bytes} (hnl : newline ∉ needle) (h : needle <+: b ++ newline :: q) :
    needle <+: b := by
  rcases List.prefix_or_prefix_of_prefix h (List.prefix_append b (newline :: q)) with hin | hout
  · exact hin
  · obtain ⟨t, rfl⟩ := hout
    cases t with
    | nil => rw [List.append_nil]
    | cons x t =>
        have hx := (List.cons_prefix_cons.mp ((List.prefix_append_right_inj b).mp h)).1
        exact absurd (List.mem_append_right b (List.mem_cons.mpr (Or.inl hx.symm))) hnl

/-- Where a needle without a newline occurs, the line contains it. -/
lemma infix_lineAt_of_occursAt {hay : Bytes} (hne : needle ≠ []) (hnl : newline ∉ needle)
    (h : OccursAt hay needle p) : needle <:+: lineAt hay (newlinesBefore hay p + 1) := by
  have hle := h.le_length hne
  obtain ⟨pre, a, b, post, haround⟩ :=
    @Lines.exists_around _ newline _ p (show p ≤ hay.length by omega)
  have hline := haround.line
  rw [newlinesBefore_of_le (by omega), haround.count_take, lineAt, Nat.add_sub_cancel, hline]
  have hb : needle <+: b := by
    have hpre : needle <+: b ++ post := by
      rw [← haround.drop_eq]
      exact h
    rcases haround.post_starts with rfl | ⟨q, rfl⟩
    · rwa [List.append_nil] at hpre
    · exact prefix_of_notMem hnl hpre
  exact hb.isInfix.trans (List.suffix_append a b).isInfix

lemma exists_around_line {hay : Bytes} {k : ℕ} (hk : k < (hay.splitOn newline).length) :
    ∃ pre post, Lines.Around newline hay pre.length pre [] (lineAt hay (k + 1)) post ∧
      pre.count newline = k := by
  rw [Lines.length_splitOn] at hk
  obtain ⟨pre, b, post, haround, hcount⟩ := Lines.exists_around_start (Nat.le_of_lt_succ hk)
  have hline := haround.line
  rw [hcount] at hline
  refine ⟨pre, post, ?_, hcount⟩
  rw [lineAt, Nat.add_sub_cancel, hline]
  exact haround

/-- A line that contains the needle has an occurrence. -/
lemma exists_occursAt_of_infix {hay : Bytes} {k : ℕ} (hk : k < (hay.splitOn newline).length)
    (h : needle <:+: lineAt hay (k + 1)) :
    ∃ p, OccursAt hay needle p ∧ newlinesBefore hay p = k := by
  obtain ⟨pre, post, haround, hcount⟩ := exists_around_line hk
  obtain ⟨x, y, hline⟩ := h
  have hline' : lineAt hay (k + 1) = x ++ (needle ++ y) := by rw [← hline, List.append_assoc]
  have hsplit : hay = (pre ++ x) ++ (needle ++ (y ++ post)) := by
    conv_lhs => rw [haround.split, List.nil_append, hline']
    simp only [List.append_assoc]
  have hx : newline ∉ x := by
    intro hmem
    exact haround.notMem_right (hline'.symm ▸ List.mem_append_left _ hmem)
  refine ⟨(pre ++ x).length, ?_, ?_⟩
  · rw [OccursAt, hsplit, List.drop_left]
    exact List.prefix_append _ _
  · rw [newlinesBefore_of_le (by rw [hsplit]; simp), hsplit, List.take_left, List.count_append,
      hcount, List.count_eq_zero.mpr hx, Nat.add_zero]

lemma lineAt_foldUnless (caseSensitive : Bool) (content : Bytes) (k : ℕ) :
    lineAt (foldUnless caseSensitive content) k = foldUnless caseSensitive (lineAt content k) := by
  rw [lineAt, lineAt, splitOn_foldUnless, List.getElem?_map]
  cases (content.splitOn newline)[k - 1]? with
  | none => cases caseSensitive <;> rfl
  | some l => rfl

lemma mem_matchingLines {caseSensitive : Bool} {k : ℕ} :
    k ∈ matchingLines content needle caseSensitive ↔
      (1 ≤ k ∧ k ≤ content.count newline + 1) ∧
        needle <:+: lineAt (foldUnless caseSensitive content) k := by
  rw [matchingLines, List.mem_filter, List.mem_range'_1, containsSub_iff, lineAt_foldUnless,
    Lines.length_splitOn, Nat.add_comm 1, Nat.lt_succ_iff]

lemma newlinesBefore_le (content : Bytes) (p : ℕ) :
    newlinesBefore content p ≤ content.count newline := (List.take_sublist _ _).count_le _

/-- The lines of the offsets of a needle without a newline are the lines that contain it. -/
theorem mem_offsetLines (hne : needle ≠ []) (hnl : newline ∉ needle) (caseSensitive : Bool)
    {k : ℕ} :
    k ∈ offsetLines content (literalMatchOffsets content needle caseSensitive) ↔
      k ∈ matchingLines content needle caseSensitive := by
  rw [mem_matchingLines, offsetLines, List.mem_map, literalMatchOffsets_eq hne]
  constructor
  · rintro ⟨off, hoff, rfl⟩
    obtain ⟨p, rfl, hat⟩ := occursAt_of_mem_findIterLoop hoff
    have hinfix := infix_lineAt_of_occursAt hne hnl hat
    rw [newlinesBefore_foldUnless] at hinfix
    rw [Nat.zero_add]
    exact ⟨⟨Nat.succ_pos _, Nat.succ_le_succ (newlinesBefore_le content p)⟩, hinfix⟩
  · rintro ⟨⟨hk, hle⟩, hinfix⟩
    obtain ⟨i, rfl⟩ := Nat.exists_eq_add_of_le' hk
    have hi : i < ((foldUnless caseSensitive content).splitOn newline).length := by
      rw [splitOn_foldUnless, List.length_map, Lines.length_splitOn]
      exact hle
    obtain ⟨p, hat, hp⟩ := exists_occursAt_of_infix hi hinfix
    obtain ⟨off, hoff, hle, hlt⟩ := @exists_mem_findIterLoop _ _ _ hne _ 0 (Nat.lt_succ_self _) hat
    obtain ⟨q, hq, hatq⟩ := occursAt_of_mem_findIterLoop hoff
    obtain rfl := Nat.add_left_cancel hq
    rw [Nat.zero_add] at hoff
    have hline := newlinesBefore_eq_of_covered hne hnl hatq hle hlt
    rw [newlinesBefore_foldUnless] at hp
    rw [newlinesBefore_foldUnless, newlinesBefore_foldUnless, hp] at hline
    exact ⟨off, hoff, congrArg (· + 1) hline.symm⟩

/-- The text shown for an offset is its whole line. -/
lemma lineText_eq (content : Bytes) (off : ℕ) :
    lineText content off = fromUtf8Lossy (lineAt content (newlinesBefore content off + 1)) := by
  have hup : min off content.length ≤ content.length := Nat.min_le_right _ _
  obtain ⟨pre, a, b, post, haround⟩ := @Lines.exists_around _ newline _ _ hup
  have hline := haround.line
  unfold lineText
  dsimp only
  rw [lineStart_eq haround, positionNewline_eq haround, lineAt, Nat.add_sub_cancel, newlinesBefore,
    haround.count_take, hline, Option.getD_some]
  have hstop : ((if post = [] then none else some b.length).map
      (min off content.length + ·)).getD content.length = (pre ++ (a ++ b)).length := by
    have hlen := congrArg List.length haround.split
    rw [haround.off_eq]
    rcases haround.post_starts with rfl | ⟨q, rfl⟩
    · simp only [List.length_append, List.length_nil] at hlen
      simp [hlen]
    · simp [Nat.add_assoc]
  have hsplit : content = (pre ++ (a ++ b)) ++ post := by
    rw [List.append_assoc, List.append_assoc]
    exact haround.split
  have htake : content.take (pre ++ (a ++ b)).length = pre ++ (a ++ b) := by
    conv_lhs => rw [hsplit, List.take_left]
  rw [hstop, htake, List.drop_left]

lemma pairwise_literalMatchOffsets (content needle : Bytes) (caseSensitive : Bool) :
    (literalMatchOffsets content needle caseSensitive).Pairwise (· ≤ ·) := by
  by_cases hne : needle = []
  · rw [literalMatchOffsets, if_pos hne]
    exact List.Pairwise.nil
  · rw [literalMatchOffsets_eq hne]
    exact (pairwise_findIterLoop _ _).imp fun h => (Nat.le_add_right _ _).trans h

end Lines

end DeepFinder
