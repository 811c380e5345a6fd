import Mathlib.Data.Finset.Union
import Mathlib.Order.Interval.Finset.Nat
import DeepFinder.Content.Matches
import DeepFinder.Daemon.Shards
import DeepFinder.Lib.Keyed

/-!
# The hits of a file

`query_lines` and `overlay_line_hits` show a hit for the first offset of each line number.  A hit
depends on the line of its offset only (`LineQuery.hitAt_eq`), so that the loop is one over lines
(`LineQuery.fileHits_eq`).

Without `-C` the number is the line's own, and the hits are the lines that contain the needle
(`line_hits_exact`).  With `-C` it is the number of the first line of the block, which all matches
among the first `n + 1` lines have in common: `context_cover_iff` says when the blocks shown still
cover the context of every match.

The bound on a content is that of `Content/ContextBlock.lean`.  A needle with a newline matches
across lines and is left out, as is the empty one, which line mode never searches for.  The exact
condition of `context_cover_iff` is stated twice: by what is hidden, for every content, and in terms
of line numbers for contents of fewer than `2 ^ 32` lines.
-/

namespace DeepFinder

open ByteString Keyed

/-! ## The hit of a line -/

/-- The number of the first line of the block around a line, as `u32`. -/
def blockFirst (n L : ℕ) : ℕ := (L - 1 - n) % 2 ^ 32 + 1

def LineQuery.verifyNeedle (q : LineQuery) : Bytes := if q.caseSensitive then q.needle else q.folded

/-- The hit shown for a match on the line `L`. -/
def LineQuery.lineHit (q : LineQuery) (path : String) (content : Bytes) (L : ℕ) : LineHit :=
  match q.context with
  | some n =>
      ⟨path, blockFirst n L, fromUtf8Lossy (linesFrom content (max 1 (L - n)) (L + n))⟩
  | none => ⟨path, (L - 1) % 2 ^ 32 + 1, fromUtf8Lossy (lineAt content L)⟩

def LineQuery.matchLines (q : LineQuery) (content : Bytes) : List ℕ :=
  offsetLines content (q.offsets content)

def LineQuery.shownLines (q : LineQuery) (path : String) (content : Bytes) : List ℕ :=
  keepFirst (fun L => (q.lineHit path content L).lineNo) (q.matchLines content) []

section Hits

variable {q : LineQuery} {path : String} {content : Bytes}

lemma LineQuery.matchLines_literal (hre : q.re = none) : q.matchLines content =
    offsetLines content (literalMatchOffsets content q.verifyNeedle q.caseSensitive) := by
  rw [LineQuery.matchLines, LineQuery.offsets, hre]
  rfl

/-- The hit of an offset is that of its line. -/
lemma LineQuery.hitAt_eq (q : LineQuery) (path : String) (content : Bytes) (off : ℕ) :
    q.hitAt path content off = q.lineHit path content (newlinesBefore content off + 1) := by
  rw [LineQuery.hitAt, LineQuery.lineHit]
  cases q.context with
  | none =>
      dsimp only
      rw [lineNumber_eq, lineText_eq, Nat.add_sub_cancel]
  | some n =>
      dsimp only
      rw [contextBlock_eq, blockFirst, linesFrom, Nat.add_sub_cancel,
        show max 1 (newlinesBefore content off + 1 - n) - 1 = newlinesBefore content off - n by
          omega]

lemma LineQuery.hitLoop_eq (q : LineQuery) (path : String) (content : Bytes) (offs seen : List ℕ) :
    q.hitLoop path content offs seen =
      (keepFirst (fun L => (q.lineHit path content L).lineNo) (offsetLines content offs) seen).map
        (q.lineHit path content) := by
  induction offs generalizing seen with
  | nil => rfl
  | cons off offs ih =>
      have hcons : offsetLines content (off :: offs) =
          (newlinesBefore content off + 1) :: offsetLines content offs := rfl
      rw [LineQuery.hitLoop, hcons, keepFirst, LineQuery.hitAt_eq]
      split
      · exact ih seen
      · rw [ih, List.map_cons]

/-- The hits of a file are those of the lines of its matches, one for each number shown. -/
theorem LineQuery.fileHits_eq (q : LineQuery) (path : String) (content : Bytes) :
    q.fileHits path content = (q.shownLines path content).map (q.lineHit path content) :=
  q.hitLoop_eq path content _ []

lemma LineQuery.pairwise_matchLines (hre : q.re = none) :
    (q.matchLines content).Pairwise (· ≤ ·) := by
  rw [LineQuery.matchLines_literal hre, offsetLines, List.pairwise_map]
  refine (pairwise_literalMatchOffsets content q.verifyNeedle q.caseSensitive).imp fun h => ?_
  exact Nat.succ_le_succ (newlinesBefore_mono h)

lemma LineQuery.mem_matchLines (hre : q.re = none) (hne : q.verifyNeedle ≠ [])
    (hnl : newline ∉ q.verifyNeedle) {L : ℕ} :
    L ∈ q.matchLines content ↔ L ∈ matchingLines content q.verifyNeedle q.caseSensitive := by
  rw [LineQuery.matchLines_literal hre]
  exact mem_offsetLines hne hnl _

lemma LineQuery.matchLines_bounds {L : ℕ} (hL : L ∈ q.matchLines content) :
    1 ≤ L ∧ L ≤ content.count newline + 1 := by
  obtain ⟨off, -, rfl⟩ := List.mem_map.mp hL
  exact ⟨Nat.succ_pos _, Nat.succ_le_succ (newlinesBefore_le content off)⟩

lemma matchingLines_ascending (content needle : Bytes) (caseSensitive : Bool) :
    (matchingLines content needle caseSensitive).Pairwise (· < ·) :=
  (List.pairwise_lt_range' _ Nat.one_pos).sublist List.filter_sublist

/-! ## Without a context -/

lemma LineQuery.lineHit_lineNo (hcontext : q.context = none) {L : ℕ}
    (hL : L ∈ q.matchLines content) (hlen : content.length < 2 ^ 32 - 1) :
    (q.lineHit path content L).lineNo = L := by
  obtain ⟨hpos, hle⟩ := LineQuery.matchLines_bounds hL
  have hcount := List.count_le_length (a := newline) (l := content)
  rw [LineQuery.lineHit, hcontext]
  dsimp only
  rw [Nat.mod_eq_of_lt (by omega), Nat.sub_add_cancel hpos]

/-- The lines shown are the lines that contain the needle. -/
lemma LineQuery.shownLines_eq (hlen : content.length < 2 ^ 32 - 1) (hre : q.re = none)
    (hcontext : q.context = none) (hne : q.verifyNeedle ≠ []) (hnl : newline ∉ q.verifyNeedle) :
    q.shownLines path content = matchingLines content q.verifyNeedle q.caseSensitive := by
  have hsorted := @LineQuery.pairwise_matchLines q content hre
  have hshown : (q.shownLines path content).Pairwise (· < ·) := keepFirst_ascending hsorted []
  have hmatching := matchingLines_ascending content q.verifyNeedle q.caseSensitive
  refine List.Perm.eq_of_pairwise' hshown hmatching ?_
  rw [List.perm_ext_iff_of_nodup (hshown.imp ne_of_lt) (hmatching.imp ne_of_lt)]
  intro L
  rw [← LineQuery.mem_matchLines hre hne hnl, LineQuery.shownLines, mem_keepFirst hsorted]
  refine ⟨And.left, fun hL => ⟨hL, fun b hb hkey => ?_⟩⟩
  rw [q.lineHit_lineNo hcontext hb hlen, q.lineHit_lineNo hcontext hL hlen] at hkey
  exact hkey.ge

/-- Without `-C` the hits are the lines that contain the needle, in ascending order and each once,
and the text of a hit is its line.  Lines are those of the content split at newlines, whether the
last one is closed or not. -/
theorem line_hits_exact (hlen : content.length < 2 ^ 32 - 1) (hre : q.re = none)
    (hcontext : q.context = none) (hne : q.verifyNeedle ≠ []) (hnl : newline ∉ q.verifyNeedle)
    (path : String) :
    q.fileHits path content =
        (matchingLines content q.verifyNeedle q.caseSensitive).map
          (fun L => ⟨path, L, fromUtf8Lossy (lineAt content L)⟩) ∧
      ((q.fileHits path content).map LineHit.lineNo).Pairwise (· < ·) := by
  have hhits : q.fileHits path content =
      (matchingLines content q.verifyNeedle q.caseSensitive).map
        (fun L => ⟨path, L, fromUtf8Lossy (lineAt content L)⟩) := by
    rw [LineQuery.fileHits_eq, LineQuery.shownLines_eq hlen hre hcontext hne hnl]
    refine List.map_congr_left fun L hL => ?_
    have hnumber : (q.lineHit path content L).lineNo = L :=
      q.lineHit_lineNo hcontext ((LineQuery.mem_matchLines hre hne hnl).mpr hL) hlen
    rw [LineQuery.lineHit, hcontext] at hnumber ⊢
    dsimp only at hnumber ⊢
    rw [hnumber]
  refine ⟨hhits, ?_⟩
  rw [hhits, List.map_map]
  exact (List.map_id _).symm ▸ matchingLines_ascending ..

/-- Two occurrences on a line show it once; the last line has no newline. -/
theorem line_hits_exact_at_end :
    LineQuery.fileHits ⟨utf8 "ab", utf8 "AB", false, none, none, none, none⟩ "/f"
        (utf8 "abaB\n\nb\nxAb") =
      [⟨"/f", 1, "abaB"⟩, ⟨"/f", 4, "xAb"⟩] := by
  have hexact := @line_hits_exact ⟨utf8 "ab", utf8 "AB", false, none, none, none, none⟩
    (utf8 "abaB\n\nb\nxAb") (by decide +kernel) rfl rfl (by decide +kernel) (by decide +kernel) "/f"
  rw [hexact.1]
  decide +kernel

/-! ## The lines that the blocks cover -/

def lastLine (content : Bytes) : ℕ := ((contentLines content).filter (· ≠ [])).length

/-- The lines up to `n` away from the line `L`. -/
def contextRange (content : Bytes) (n L : ℕ) : Finset ℕ :=
  Finset.Icc (max 1 (L - n)) (min (L + n) (lastLine content))

/-- The lines up to `n` away from one of the lines. -/
def coveredLines (content : Bytes) (n : ℕ) (lines : List ℕ) : Finset ℕ :=
  lines.toFinset.biUnion (contextRange content n)

/-- The block around the line starts with the same number as that around an earlier one.  Blocks are
told apart by that number alone, so the later one is dropped although it goes further. -/
def Hidden (n : ℕ) (lines : List ℕ) (L : ℕ) : Prop :=
  ∃ L' ∈ lines, L' < L ∧ blockFirst n L' = blockFirst n L

lemma mem_coveredLines {n k : ℕ} {lines : List ℕ} :
    k ∈ coveredLines content n lines ↔ ∃ L ∈ lines, k ∈ contextRange content n L := by
  rw [coveredLines, Finset.mem_biUnion]
  simp only [List.mem_toFinset]

lemma mem_contextRange {n L k : ℕ} : k ∈ contextRange content n L ↔
    (1 ≤ k ∧ L ≤ k + n) ∧ k ≤ L + n ∧ k ≤ lastLine content := by
  rw [contextRange, Finset.mem_Icc, max_le_iff, le_min_iff, Nat.sub_le_iff_le_add]

/-- With `-C` the block of a line is shown unless it is hidden. -/
lemma LineQuery.mem_shownLines {n : ℕ} (hre : q.re = none) (hcontext : q.context = some n) {L : ℕ} :
    L ∈ q.shownLines path content ↔
      L ∈ q.matchLines content ∧ ¬Hidden n (q.matchLines content) L := by
  have hkey : ∀ L, (q.lineHit path content L).lineNo = blockFirst n L := by
    intro L
    rw [LineQuery.lineHit, hcontext]
  rw [LineQuery.shownLines, mem_keepFirst (LineQuery.pairwise_matchLines hre)]
  simp only [hkey, Hidden, not_exists, not_and, and_congr_right_iff]
  refine fun _ => forall₂_congr fun L' _ => ⟨fun h hlt heq => ?_, fun h heq => ?_⟩
  · exact absurd (h heq) (Nat.not_le_of_lt hlt)
  · exact Nat.le_of_not_lt fun hlt => h hlt heq

/-- The lines shown cover the context of all if what is hidden adds nothing to it. -/
lemma coveredLines_eq_iff {n : ℕ} {shown lines : List ℕ} {hidden : ℕ → Prop}
    (hshown : ∀ L, L ∈ shown ↔ L ∈ lines ∧ ¬hidden L) :
    coveredLines content n shown = coveredLines content n lines ↔
      ∀ L ∈ lines, hidden L → ∀ k ∈ contextRange content n L,
        ∃ L' ∈ lines, ¬hidden L' ∧ k ∈ contextRange content n L' := by
  simp only [Finset.ext_iff, mem_coveredLines, hshown, and_assoc]
  constructor
  · intro h L hL _ k hk
    exact (h k).mpr ⟨L, hL, hk⟩
  · intro h k
    constructor
    · rintro ⟨L, hL, -, hk⟩
      exact ⟨L, hL, hk⟩
    · rintro ⟨L, hL, hk⟩
      by_cases hhidden : hidden L
      · exact h L hL hhidden k hk
      · exact ⟨L, hL, hhidden, hk⟩

/-- Among fewer than `2 ^ 32` lines the hidden ones are those of the first `n + 1` behind a
match. -/
lemma hidden_iff {n : ℕ} {lines : List ℕ} (hlines : ∀ L ∈ lines, 1 ≤ L ∧ L ≤ 2 ^ 32) {L : ℕ}
    (hL : L ∈ lines) : Hidden n lines L ↔ L ≤ n + 1 ∧ ∃ L' ∈ lines, L' < L := by
  have hfirst : ∀ L ∈ lines, blockFirst n L = L - 1 - n + 1 := by
    intro L hL
    have hbound := hlines L hL
    rw [blockFirst, Nat.mod_eq_of_lt (by omega)]
  constructor
  · rintro ⟨L', hL', hlt, heq⟩
    rw [hfirst L' hL', hfirst L hL] at heq
    have hpos := (hlines L' hL').1
    exact ⟨by omega, L', hL', hlt⟩
  · rintro ⟨hle, L', hL', hlt⟩
    refine ⟨L', hL', hlt, ?_⟩
    rw [hfirst L' hL', hfirst L hL]
    omega

/-- What is lost lies behind the context of the first match, and a match further down that stands
close enough brings it back. -/
lemma covered_iff_first {n : ℕ} {lines : List ℕ} :
    (∀ L ∈ lines, (L ≤ n + 1 ∧ ∃ L' ∈ lines, L' < L) → ∀ k ∈ contextRange content n L,
        ∃ L' ∈ lines, ¬(L' ≤ n + 1 ∧ ∃ L'' ∈ lines, L'' < L') ∧ k ∈ contextRange content n L') ↔
      ∀ first ∈ lines, (∀ L ∈ lines, first ≤ L) → ∀ top ∈ lines, first < top → top ≤ n + 1 →
        lastLine content ≤ first + n ∨ ∃ L ∈ lines, n + 1 < L ∧ L ≤ first + 2 * n + 1 := by
  simp only [mem_contextRange]
  constructor
  · intro h first hfirst _ top htop hlt hle
    by_cases hlast : lastLine content ≤ first + n
    · exact Or.inl hlast
    · -- the line behind the context of the first match is one of the context of `top`
      obtain ⟨L, hL, hshown, ⟨-, hlow⟩, hhigh, -⟩ := h top htop ⟨hle, first, hfirst, hlt⟩
        (first + n + 1) ⟨⟨by omega, by omega⟩, by omega, by omega⟩
      refine Or.inr ⟨L, hL, ?_, by omega⟩
      by_contra hsmall
      exact hshown ⟨by omega, first, hfirst, by omega⟩
  · rintro h L hL ⟨hle, L', hL', hlt⟩ k ⟨⟨hpos, hlow⟩, hhigh, hlast⟩
    obtain ⟨first, hfirst, hleast⟩ :=
      lines.toFinset.exists_min_image id ⟨L, List.mem_toFinset.mpr hL⟩
    simp only [List.mem_toFinset, id] at hfirst hleast
    by_cases hk : k ≤ first + n
    · refine ⟨first, hfirst, ?_, ⟨hpos, by have := hleast L hL; omega⟩, hk, hlast⟩
      rintro ⟨-, L'', hL'', hlt'⟩
      exact absurd (hleast L'' hL'') (Nat.not_le_of_lt hlt')
    · have hfirstL : first < L := (hleast L' hL').trans_lt hlt
      rcases h first hfirst hleast L hL hfirstL hle with hend | ⟨L₂, hL₂, hbelow, hclose⟩
      · omega
      · exact ⟨L₂, hL₂, fun hhidden => absurd hhidden.1 (Nat.not_le_of_lt hbelow),
          ⟨hpos, by omega⟩, by omega, hlast⟩

/-- With `-C n` a file shows one block for every line of a match that is not hidden, and these
blocks cover the context of all the matches exactly when what is hidden adds nothing to it.  In a
content with fewer than `2 ^ 32` lines this is the case unless two matches stand among the first
`n + 1` lines, the content goes on behind the context of the first match, and no match below line
`n + 1` has a context that reaches up to it. -/
theorem context_cover_iff {n : ℕ} (hre : q.re = none) (hcontext : q.context = some n)
    (path : String) (content : Bytes) :
    q.fileHits path content = (q.shownLines path content).map (fun L =>
        ⟨path, blockFirst n L, fromUtf8Lossy (linesFrom content (max 1 (L - n)) (L + n))⟩) ∧
      (q.verifyNeedle ≠ [] → newline ∉ q.verifyNeedle → ∀ L, L ∈ q.matchLines content ↔
        L ∈ matchingLines content q.verifyNeedle q.caseSensitive) ∧
      (coveredLines content n (q.shownLines path content) =
          coveredLines content n (q.matchLines content) ↔
        ∀ L ∈ q.matchLines content, Hidden n (q.matchLines content) L →
          ∀ k ∈ contextRange content n L, ∃ L' ∈ q.matchLines content,
            ¬Hidden n (q.matchLines content) L' ∧ k ∈ contextRange content n L') ∧
      (content.count newline < 2 ^ 32 →
        (coveredLines content n (q.shownLines path content) =
            coveredLines content n (q.matchLines content) ↔
          ∀ first ∈ q.matchLines content, (∀ L ∈ q.matchLines content, first ≤ L) →
            ∀ top ∈ q.matchLines content, first < top → top ≤ n + 1 →
              lastLine content ≤ first + n ∨
                ∃ L ∈ q.matchLines content, n + 1 < L ∧ L ≤ first + 2 * n + 1)) := by
  have hshown := fun L => @LineQuery.mem_shownLines q path content n hre hcontext L
  refine ⟨?_, fun hne hnl L => LineQuery.mem_matchLines hre hne hnl, coveredLines_eq_iff hshown,
    fun hcount => ?_⟩
  · rw [LineQuery.fileHits_eq]
    refine List.map_congr_left fun L _ => ?_
    rw [LineQuery.lineHit, hcontext]
  · have hbounds : ∀ L ∈ q.matchLines content, 1 ≤ L ∧ L ≤ 2 ^ 32 := fun L hL =>
      ⟨(LineQuery.matchLines_bounds hL).1, (LineQuery.matchLines_bounds hL).2.trans hcount⟩
    rw [← covered_iff_first]
    refine coveredLines_eq_iff fun L => ?_
    rw [hshown L, and_congr_right_iff]
    exact fun hL => not_congr (hidden_iff hbounds hL)

/-- Matches on the first two lines: the third line is not shown. -/
theorem context_cover_lost :
    LineQuery.fileHits ⟨utf8 "x", utf8 "x", true, none, none, none, some 1⟩ "/f"
        (utf8 "x\nx\ny\n") = [⟨"/f", 1, "x\nx\n"⟩] ∧
      2 ∈ matchingLines (utf8 "x\nx\ny\n") (utf8 "x") true ∧
      3 ∈ contextRange (utf8 "x\nx\ny\n") 1 2 ∧
      3 ∉ coveredLines (utf8 "x\nx\ny\n") 1
        (LineQuery.shownLines ⟨utf8 "x", utf8 "x", true, none, none, none, some 1⟩ "/f"
          (utf8 "x\nx\ny\n")) := by
  decide +kernel

/-- A third match brings the line back. -/
theorem context_cover_iff_three :
    coveredLines (utf8 "x\nx\ny\nx\n") 1
        (LineQuery.shownLines ⟨utf8 "x", utf8 "x", true, none, none, none, some 1⟩ "/f"
          (utf8 "x\nx\ny\nx\n")) =
      coveredLines (utf8 "x\nx\ny\nx\n") 1
        (LineQuery.matchLines ⟨utf8 "x", utf8 "x", true, none, none, none, some 1⟩
          (utf8 "x\nx\ny\nx\n")) := by
  have hcover := @context_cover_iff ⟨utf8 "x", utf8 "x", true, none, none, none, some 1⟩ 1 rfl rfl
    "/f" (utf8 "x\nx\ny\nx\n")
  rw [hcover.2.2.2 (by decide +kernel)]
  decide +kernel

end Hits

end DeepFinder
