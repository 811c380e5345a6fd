import DeepFinder.Content.Lines
import DeepFinder.Lib.Lines

/-!
# Context blocks

`context_block` finds the line that holds an offset and walks `n` lines back and `n` lines forward
from it.  Its offsets are the starts of lines (`blockStartLoop_eq`, `blockEndLoop_eq`), so that the
block is a run of whole lines (`contextBlock_eq`).

`contextBlockChecked` is the same computation with the panics of its slices and additions;
`context_block_exact` says that there are none, and which lines come out.

Offsets are given by matches in a folded copy of the content, which is as long as the content, but
nothing here depends on that: any offset is clamped.  The bound `2 ^ 32 - 1` on the length keeps
line numbers, which are `u32`, and the additions on them in range; a file of the default build is
far below it.
-/

namespace DeepFinder

open ByteString

/-- The lines of a content, each with its newline when it has one. -/
abbrev contentLines (content : Bytes) : List Bytes := Lines.fullLines newline content

/-- The number of newlines before an offset, which is clamped to the content. -/
def newlinesBefore (content : Bytes) (byteOff : ℕ) : ℕ :=
  (content.take (min byteOff content.length)).count newline

/-! ## Offsets of lines -/

section Offsets

variable {content : Bytes} {up : ℕ} {pre a b post : Bytes}

lemma countNewlines_eq (bs : Bytes) : countNewlines bs = bs.count newline % 2 ^ 32 := by
  rw [countNewlines, List.count_eq_length_filter]
  congr 3

lemma lineNumber_eq (content : Bytes) (byteOff : ℕ) :
    lineNumber content byteOff = newlinesBefore content byteOff % 2 ^ 32 + 1 := by
  rw [lineNumber, countNewlines_eq, newlinesBefore]

lemma findIdx?_of_notMem {bs : Bytes} (h : newline ∉ bs) :
    bs.findIdx? (· = newline) = none := by
  rw [List.findIdx?_eq_none_iff]
  intro x hx
  exact decide_eq_false fun heq => h (heq ▸ hx)

lemma lineStart_eq (h : Lines.Around newline content up pre a b post) :
    lineStart content up = pre.length := by
  have hleft : newline ∉ a.reverse := fun hm => h.notMem_left (List.mem_reverse.mp hm)
  rw [lineStart, rpositionNewline, h.take_eq, List.reverse_append, List.findIdx?_append,
    findIdx?_of_notMem hleft]
  rcases h.pre_ends with rfl | ⟨p, rfl⟩
  · rfl
  · rw [List.reverse_append, List.reverse_singleton, List.singleton_append, List.findIdx?_cons,
      if_pos (decide_eq_true rfl)]
    simp

lemma positionNewline_eq (h : Lines.Around newline content up pre a b post) :
    positionNewline (content.drop up) = if post = [] then none else some b.length := by
  rw [positionNewline, h.drop_eq, List.findIdx?_append, findIdx?_of_notMem h.notMem_right]
  rcases h.post_starts with rfl | ⟨q, rfl⟩
  · rfl
  · rw [List.findIdx?_cons, if_pos (decide_eq_true rfl), if_neg (List.cons_ne_nil _ _)]
    simp

lemma lineStart_eq_startOf (h : up ≤ content.length) :
    lineStart content up = Lines.startOf newline content ((content.take up).count newline) := by
  obtain ⟨pre, a, b, post, haround⟩ := @Lines.exists_around _ newline _ _ h
  rw [lineStart_eq haround, haround.count_take, haround.startOf_eq]

/-- The end of the line that holds an offset, its newline included. -/
lemma lineEnd_eq_startOf (h : up ≤ content.length) :
    ((positionNewline (content.drop up)).map fun i => up + i + 1).getD content.length =
      Lines.startOf newline content ((content.take up).count newline + 1) := by
  obtain ⟨pre, a, b, post, haround⟩ := @Lines.exists_around _ newline _ _ h
  rw [positionNewline_eq haround, haround.count_take, haround.startOf_succ]
  rcases haround.post_starts with rfl | ⟨q, rfl⟩
  · have hlen : content.length = up + b.length := by
      rw [haround.split, haround.off_eq]
      simp only [List.length_append, List.length_nil]
      omega
    rw [if_pos rfl]
    simp [hlen]
  · rw [if_neg (List.cons_ne_nil _ _)]
    simp

end Offsets

/-! ## The walks -/

lemma blockStartLoop_zero (content : Bytes) (n : ℕ) : blockStartLoop content n 0 = 0 := by
  cases n with
  | zero => rfl
  | succ n => rw [blockStartLoop, if_pos rfl]

/-- `n` lines back from the start of a line. -/
lemma blockStartLoop_eq {content : Bytes} (n : ℕ) {j : ℕ} (h : j ≤ content.count newline) :
    blockStartLoop content n (Lines.startOf newline content j) =
      Lines.startOf newline content (j - n) := by
  induction n generalizing j with
  | zero => rfl
  | succ n ih =>
      rw [blockStartLoop]
      cases j with
      | zero => rw [Nat.zero_sub, Lines.startOf_zero, if_pos rfl]
      | succ j =>
          obtain ⟨hpos, hcount⟩ := Lines.count_take_startOf_succ h
          have hle : Lines.startOf newline content (j + 1) - 1 ≤ content.length :=
            (Nat.sub_le _ _).trans (Lines.startOf_le _ _)
          have hstart := lineStart_eq_startOf hle
          rw [hcount, lineStart] at hstart
          rw [if_neg hpos.ne', Nat.succ_sub_succ, ← ih (Nat.le_of_succ_le h)]
          cases hnl : rpositionNewline
              (content.take (Lines.startOf newline content (j + 1) - 1)) with
          | none =>
              rw [hnl] at hstart
              rw [← hstart]
              exact (blockStartLoop_zero content n).symm
          | some i =>
              rw [hnl] at hstart
              dsimp only
              rw [← hstart]
              rfl

/-- `n` lines forward from the start of a line. -/
lemma blockEndLoop_eq (content : Bytes) (n j : ℕ) :
    blockEndLoop content n (Lines.startOf newline content j) =
      Lines.startOf newline content (j + n) := by
  induction n generalizing j with
  | zero => rfl
  | succ n ih =>
      have hmono : Lines.startOf newline content (j + 1) ≤
          Lines.startOf newline content (j + (n + 1)) := Lines.startOf_mono (by omega)
      have hle := @Lines.startOf_le _ _ newline _ content (j + (n + 1))
      rw [blockEndLoop]
      by_cases hend : content.length ≤ Lines.startOf newline content j
      · rw [if_pos hend]
        exact le_antisymm (Lines.startOf_mono (Nat.le_add_right _ _)) (hle.trans hend)
      · have hj : j ≤ content.count newline := by
          by_contra hj
          exact hend (Lines.startOf_of_le (Nat.lt_of_not_le hj)).ge
        have hnext := lineEnd_eq_startOf (@Lines.startOf_le _ _ newline _ content j)
        rw [Lines.count_take_startOf hj] at hnext
        rw [if_neg hend]
        cases hnl : positionNewline (content.drop (Lines.startOf newline content j)) with
        | none =>
            rw [hnl] at hnext
            exact le_antisymm (hnext.le.trans hmono) hle
        | some i =>
            rw [hnl] at hnext
            have hstep : Lines.startOf newline content j + (i + 1) =
                Lines.startOf newline content (j + 1) := hnext
            dsimp only
            rw [hstep, ih, Nat.add_assoc, Nat.add_comm 1 n]

/-- The block is a run of whole lines. -/
theorem contextBlock_eq (content : Bytes) (byteOff n : ℕ) :
    contextBlock content byteOff n =
      ((newlinesBefore content byteOff - n) % 2 ^ 32 + 1,
        fromUtf8Lossy (((contentLines content).take (newlinesBefore content byteOff + 1 + n)).drop
          (newlinesBefore content byteOff - n)).flatten) := by
  have hup : min byteOff content.length ≤ content.length := Nat.min_le_right _ _
  have hcount : newlinesBefore content byteOff ≤ content.count newline :=
    (List.take_sublist _ _).count_le _
  unfold contextBlock
  dsimp only
  rw [lineStart_eq_startOf hup, lineEnd_eq_startOf hup, ← newlinesBefore,
    blockStartLoop_eq n hcount, blockEndLoop_eq, countNewlines_eq,
    Lines.count_take_startOf ((Nat.sub_le _ _).trans hcount),
    Lines.drop_take_startOf content (by omega)]

/-! ## With the panics of the slices and additions -/

/-- `&bs[a..b]`: panics when the range is not one of the slice. -/
def sliceRange (bs : Bytes) (a b : ℕ) : Res Bytes :=
  if a ≤ b ∧ b ≤ bs.length then .ok ((bs.take b).drop a) else .error .panicked

/-- The walk back. -/
def blockStartChecked (content : Bytes) : ℕ → ℕ → Res ℕ
  | 0, start => pure start
  | n + 1, start =>
      if start = 0 then pure 0
      else do
        match rpositionNewline (← sliceRange content 0 (start - 1)) with
        | some i => blockStartChecked content n (← add64 i 1)
        | none => pure 0

/-- The walk forward. -/
def blockEndChecked (content : Bytes) : ℕ → ℕ → Res ℕ
  | 0, stop => pure stop
  | n + 1, stop =>
      if content.length ≤ stop then pure stop
      else do
        match positionNewline (← sliceRange content stop content.length) with
        | some i => blockEndChecked content n (← add64 stop (← add64 i 1))
        | none => pure content.length

/-- The start of the line that holds `up`. -/
def lineStartChecked (content : Bytes) (up : ℕ) : Res ℕ := do
  match rpositionNewline (← sliceRange content 0 up) with
  | some i => add64 i 1
  | none => pure 0

/-- The end of the line that holds `up`, its newline included. -/
def lineEndChecked (content : Bytes) (up : ℕ) : Res ℕ := do
  match positionNewline (← sliceRange content up content.length) with
  | some i => add64 (← add64 up i) 1
  | none => pure content.length

/-- `context_block`, before the decoding. -/
def contextBlockChecked (content : Bytes) (byteOff n : ℕ) : Res (ℕ × Bytes) := do
  let up := min byteOff content.length
  let lineStart ← lineStartChecked content up
  let lineEnd ← lineEndChecked content up
  let start ← blockStartChecked content n lineStart
  let stop ← blockEndChecked content n lineEnd
  let first ← add32 (countNewlines (← sliceRange content 0 start)) 1
  let block ← sliceRange content start stop
  pure (first, block)

section Checked

variable {content : Bytes}

lemma sliceRange_eq {a b : ℕ} (hab : a ≤ b) (hb : b ≤ content.length) :
    sliceRange content a b = .ok ((content.take b).drop a) := if_pos ⟨hab, hb⟩

lemma sliceRange_to {b : ℕ} (hb : b ≤ content.length) :
    sliceRange content 0 b = .ok (content.take b) := sliceRange_eq (Nat.zero_le _) hb

lemma sliceRange_from {a : ℕ} (ha : a ≤ content.length) :
    sliceRange content a content.length = .ok (content.drop a) := by
  rw [sliceRange_eq ha le_rfl, List.take_length]

lemma rpositionNewline_lt {bs : Bytes} {i : ℕ} (h : rpositionNewline bs = some i) :
    i < bs.length := by
  obtain ⟨k, hk, rfl⟩ := Option.map_eq_some_iff.mp h
  have hlt := (List.findIdx?_eq_some_iff_getElem.mp hk).1
  rw [List.length_reverse] at hlt
  omega

lemma positionNewline_lt {bs : Bytes} {i : ℕ} (h : positionNewline bs = some i) :
    i < bs.length := (List.findIdx?_eq_some_iff_getElem.mp h).1

/-- The walk back stays in the content. -/
lemma blockStartChecked_eq (hlen : content.length < 2 ^ 64) (n : ℕ) {start : ℕ}
    (h : start ≤ content.length) :
    blockStartChecked content n start = .ok (blockStartLoop content n start) := by
  induction n generalizing start with
  | zero => rfl
  | succ n ih =>
      rw [blockStartChecked, blockStartLoop]
      by_cases hzero : start = 0
      · rw [if_pos hzero, if_pos hzero]
        rfl
      · rw [if_neg hzero, if_neg hzero, sliceRange_to (by omega), bind_ok]
        cases hnl : rpositionNewline (content.take (start - 1)) with
        | none => rfl
        | some i =>
            have hlt := rpositionNewline_lt hnl
            rw [List.length_take] at hlt
            dsimp only
            rw [add64_eq (by omega), bind_ok, ih (by omega)]

/-- The walk forward stays in the content. -/
lemma blockEndChecked_eq (hlen : content.length < 2 ^ 64) (n : ℕ) {stop : ℕ}
    (h : stop ≤ content.length) :
    blockEndChecked content n stop = .ok (blockEndLoop content n stop) := by
  induction n generalizing stop with
  | zero => rfl
  | succ n ih =>
      rw [blockEndChecked, blockEndLoop]
      by_cases hend : content.length ≤ stop
      · rw [if_pos hend, if_pos hend]
        rfl
      · rw [if_neg hend, if_neg hend, sliceRange_from h, bind_ok]
        cases hnl : positionNewline (content.drop stop) with
        | none => rfl
        | some i =>
            have hlt := positionNewline_lt hnl
            rw [List.length_drop] at hlt
            dsimp only
            rw [add64_eq (by omega), bind_ok, add64_eq (by omega), bind_ok, ih (by omega)]

lemma lineStartChecked_eq {up : ℕ} (hlen : content.length < 2 ^ 64) (hup : up ≤ content.length) :
    lineStartChecked content up = .ok (lineStart content up) := by
  rw [lineStartChecked, sliceRange_to hup, bind_ok, lineStart]
  cases hnl : rpositionNewline (content.take up) with
  | none => rfl
  | some i =>
      have hlt := rpositionNewline_lt hnl
      rw [List.length_take] at hlt
      exact add64_eq (by omega)

lemma lineEndChecked_eq {up : ℕ} (hlen : content.length < 2 ^ 64) (hup : up ≤ content.length) :
    lineEndChecked content up =
      .ok (((positionNewline (content.drop up)).map fun i => up + i + 1).getD content.length) := by
  rw [lineEndChecked, sliceRange_from hup, bind_ok]
  cases hnl : positionNewline (content.drop up) with
  | none => rfl
  | some i =>
      have hlt := positionNewline_lt hnl
      rw [List.length_drop] at hlt
      dsimp only
      rw [add64_eq (by omega), bind_ok, add64_eq (by omega)]
      rfl

/-- Every slice and addition of `context_block` is in range. -/
lemma contextBlockChecked_eq (hlen : content.length < 2 ^ 32 - 1) (byteOff n : ℕ) :
    contextBlockChecked content byteOff n =
      .ok (newlinesBefore content byteOff - n + 1,
        (((contentLines content).take (newlinesBefore content byteOff + 1 + n)).drop
          (newlinesBefore content byteOff - n)).flatten) := by
  have hup : min byteOff content.length ≤ content.length := Nat.min_le_right _ _
  have hlarge : content.length < 2 ^ 64 := by omega
  have hcount : newlinesBefore content byteOff ≤ content.count newline :=
    (List.take_sublist _ _).count_le _
  have hcountLen := List.count_le_length (a := newline) (l := content)
  unfold contextBlockChecked
  dsimp only
  rw [lineStartChecked_eq hlarge hup, bind_ok, lineEndChecked_eq hlarge hup, bind_ok,
    lineStart_eq_startOf hup, lineEnd_eq_startOf hup,
    ← newlinesBefore, blockStartChecked_eq hlarge n (Lines.startOf_le _ _), bind_ok,
    blockEndChecked_eq hlarge n (Lines.startOf_le _ _), bind_ok, blockStartLoop_eq n hcount,
    blockEndLoop_eq, sliceRange_to (Lines.startOf_le _ _), bind_ok, countNewlines_eq,
    Lines.count_take_startOf ((Nat.sub_le _ _).trans hcount), Nat.mod_eq_of_lt (by omega),
    add32_eq (by omega), bind_ok,
    sliceRange_eq (Lines.startOf_mono (by omega)) (Lines.startOf_le _ _), bind_ok,
    Lines.drop_take_startOf content (by omega)]
  rfl

/-- The lines from the line `i` up to and including the line `j`, counted from one. -/
def linesFrom (content : Bytes) (i j : ℕ) : Bytes :=
  (((contentLines content).take j).drop (i - 1)).flatten

lemma linesFrom_eq (content : Bytes) (k n : ℕ) :
    linesFrom content (max 1 (k + 1 - n)) (min (k + 1 + n) (contentLines content).length) =
      (((contentLines content).take (k + 1 + n)).drop (k - n)).flatten := by
  rw [linesFrom, ← List.take_eq_take_min, show max 1 (k + 1 - n) - 1 = k - n by omega]

/-- Around an offset on line `L`, which is clamped to the content, the block starts with the line
`max 1 (L - n)`, and is the lines from there to `min (L + n)` the last one.  Nothing is indexed out
of range. -/
theorem context_block_exact (hlen : content.length < 2 ^ 32 - 1) (byteOff n : ℕ) :
    lineNumber content byteOff = newlinesBefore content byteOff + 1 ∧
      contextBlockChecked content byteOff n =
        .ok (max 1 (lineNumber content byteOff - n),
          linesFrom content (max 1 (lineNumber content byteOff - n))
            (min (lineNumber content byteOff + n) (contentLines content).length)) ∧
      contextBlock content byteOff n =
        (max 1 (lineNumber content byteOff - n),
          fromUtf8Lossy (linesFrom content (max 1 (lineNumber content byteOff - n))
            (min (lineNumber content byteOff + n) (contentLines content).length))) := by
  have hcount : newlinesBefore content byteOff ≤ content.length :=
    (List.count_le_length).trans (List.length_take_le' _ _)
  have hnumber : lineNumber content byteOff = newlinesBefore content byteOff + 1 := by
    rw [lineNumber_eq, Nat.mod_eq_of_lt (by omega)]
  have hfirst : max 1 (newlinesBefore content byteOff + 1 - n) =
      newlinesBefore content byteOff - n + 1 := by omega
  rw [hnumber, linesFrom_eq, hfirst]
  refine ⟨rfl, contextBlockChecked_eq hlen byteOff n, ?_⟩
  rw [contextBlock_eq, Nat.mod_eq_of_lt (by omega)]

/-- A block at the end of a content without a final newline. -/
theorem context_block_exact_at_end :
    contextBlockChecked (utf8 "alpha\nbeta\nGAMMA") 16 1 = .ok (2, utf8 "beta\nGAMMA") := by
  have hexact := @context_block_exact (utf8 "alpha\nbeta\nGAMMA") (by decide +kernel) 16 1
  rw [hexact.2.1]
  decide +kernel

end Checked

end DeepFinder
