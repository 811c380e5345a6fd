import DeepFinder.Cli.Highlight
import DeepFinder.Content.Lossy
import DeepFinder.Content.ShardRoundTrip
import DeepFinder.Daemon.LineHits
import DeepFinder.Daemon.Verbatim

/-!
# What a search prints

`print_results` sorts the line hits by path and line number, cuts the newlines at the end of each
text and prints its lines, numbered from the hit's line on.

The numbers are right: a row shows the line of the content that it names (`hitRows_lineHit`),
although the text was cut out of the content and decoded before it was split.  So `-C` prints the
blocks of the matches, without the empty lines at their ends (`printed_blocks`), and `-n` prints
every line of every file in scope that contains the needle, in order (`printed_matches`).

## What is assumed

Contents have fewer than `2 ^ 32 - 1` bytes, so that line numbers do not overflow (`LinesCounted`).
`printed_matches` is about the needle that the daemon makes of a request: it is not empty, has no
newline, there is no limit, and with regard to case it has the trigrams of the lowercased and folded
query that candidates are looked for by (`LineQuery.TrigramsKept`).
-/

namespace DeepFinder

open ByteString Keyed

/-- `Output`. -/
structure Output where
  long : Bool := false
  color : String := "auto"
  null : Bool := false
  count : Bool := false
  lineNumber : Bool := false
  context : Option ℕ := none
  caseSensitive : Bool := false
  deriving DecidableEq, Repr

/-- `println!("\x7b\x7d\x7b\x7d\x7b\x7d:\x7b\x7d", h.path, sep, h.line_no + i as u32, line)`. -/
def printRow (contextMode : Bool) (path : String) (lineNo : ℕ) (line : List Char) : String :=
  path ++ (if contextMode then "-" else ":") ++ toString lineNo ++ ":" ++ String.ofList line ++ "\n"

def hitRows (contextMode : Bool) (h : LineHit) : List String :=
  ((h.text.toList.rdropWhile (· == '\n')).splitOn '\n').zipIdx.map fun e =>
    printRow contextMode h.path ((h.lineNo + e.2) % 2 ^ 32) e.1

/-- The order of `sort_by_key(|h| (h.path.clone(), h.line_no))`. -/
def LineHit.le (a b : LineHit) : Bool :=
  if a.path = b.path then decide (a.lineNo ≤ b.lineNo) else decide (a.path ≤ b.path)

def printLines (contextMode : Bool) (lines : List LineHit) : List String :=
  (lines.mergeSort LineHit.le).flatMap (hitRows contextMode)

def kindMark : MatchKind → String
  | .filename => "[f]"
  | .content => "[c]"
  | .both => "[b]"

/-- `print_results`, on a terminal or not. -/
def printResults (isTerminal : Bool) (humansize : Int64 → String) (results : List Hit)
    (lines : List LineHit) (out : Output) (query : String) : Res String :=
  if (out.lineNumber || out.context.isSome) && !lines.isEmpty then
    if out.count then .ok (toString lines.length ++ "\n")
    else .ok (String.join (printLines out.context.isSome lines))
  else if out.count then .ok (toString results.length ++ "\n")
  else if out.null then .ok (String.join (results.map fun h => h.1 ++ "\x00"))
  else do
    let colorOn :=
      if out.color = "always" then true else if out.color = "never" then false else isTerminal
    let rows ← results.mapM fun h => do
      let shown ← highlight h.1 (toLowercase query) query out.caseSensitive colorOn
      .ok (if out.long then
        kindMark h.2.2 ++ "\t" ++ humansize h.2.1.size ++ "\t" ++ shown ++
          (if h.2.1.isDir then "/" else "") ++ "\n"
      else shown ++ "\n")
    .ok (String.join rows)

/-! ## The rows of a block -/

/-- The lines `i..=j` without the empty ones at the end; the line `i` stays. -/
def printedLines (content : Bytes) (i j : ℕ) : List ℕ :=
  let nos := (List.range' i (j + 1 - i)).rdropWhile fun M => (lineAt content M).isEmpty
  if nos = [] then [i] else nos

def lineRow (contextMode : Bool) (path : String) (content : Bytes) (M : ℕ) : String :=
  printRow contextMode path M (lossyChars (lineAt content M))

lemma isEmpty_lossyChars (bs : Bytes) : (lossyChars bs).isEmpty = bs.isEmpty := by
  by_cases hne : bs = []
  · subst hne
    rfl
  · rw [lossyChars_of_ne_nil hne, List.isEmpty_cons]
    exact (List.isEmpty_eq_false_iff.mpr hne).symm

lemma rdropWhile_map {α β : Type} (f : α → β) (p : β → Bool) (l : List α) :
    (l.map f).rdropWhile p = (l.rdropWhile (p ∘ f)).map f := by
  rw [List.rdropWhile, List.rdropWhile, ← List.map_reverse, List.dropWhile_map, List.map_reverse]

variable {content : Bytes} {i j : ℕ}

/-- The lines of a run, by their numbers. -/
lemma lines_run (hi : 1 ≤ i) (hj : j ≤ content.count newline + 1) :
    ((content.splitOn newline).take j).drop (i - 1) =
      (List.range' i (j + 1 - i)).map (lineAt content) := by
  have hlen := Lines.length_splitOn newline content
  refine List.ext_getElem? fun k => ?_
  rw [List.getElem?_drop, List.getElem?_map]
  by_cases hk : k < j + 1 - i
  · rw [List.getElem?_take_of_lt (by omega), List.getElem?_range' hk, Option.map_some, Nat.one_mul,
      lineAt, show i + k - 1 = i - 1 + k by omega, List.getElem?_eq_getElem (by omega),
      Option.getD_some]
  · have htake : (((content.splitOn newline).take j))[i - 1 + k]? = none :=
      List.getElem?_eq_none (by rw [List.length_take]; omega)
    have hrange : (List.range' i (j + 1 - i))[k]? = none :=
      List.getElem?_eq_none (by rw [List.length_range']; omega)
    rw [htake, hrange, Option.map_none]

lemma trimLines_numbers (hij : i ≤ j) :
    Lines.trimLines ((List.range' i (j + 1 - i)).map (lineAt content)) =
      (printedLines content i j).map (lineAt content) := by
  have hmap := rdropWhile_map (lineAt content) List.isEmpty (List.range' i (j + 1 - i))
  have hnos : (List.range' i (j + 1 - i)).rdropWhile (List.isEmpty ∘ lineAt content) =
      (List.range' i (j + 1 - i)).rdropWhile fun M => (lineAt content M).isEmpty := rfl
  rw [hnos] at hmap
  rw [Lines.trimLines, printedLines, hmap]
  by_cases hnil : (List.range' i (j + 1 - i)).rdropWhile (fun M => (lineAt content M).isEmpty) = []
  · have hfirst : (lineAt content i).isEmpty = true :=
      List.rdropWhile_eq_nil_iff.mp hnil i (List.mem_range'_1.mpr (by omega))
    rw [if_pos hnil, if_pos (by rw [hnil, List.map_nil]), List.map_singleton,
      List.isEmpty_iff.mp hfirst]
  · rw [if_neg hnil, if_neg (by rwa [List.map_eq_nil_iff])]

lemma notMem_lineAt (content : Bytes) (L : ℕ) : newline ∉ lineAt content L := by
  rw [lineAt]
  cases h : (content.splitOn newline)[L - 1]? with
  | none => exact List.not_mem_nil
  | some line => exact Lines.notMem_of_mem_splitOn newline (List.mem_of_getElem? h)

/-- The lines that a block is printed as. -/
lemma lines_of_block (hi : 1 ≤ i) (hij : i ≤ j) (hj : j ≤ content.count newline + 1) :
    ((fromUtf8Lossy (linesFrom content i j)).toList.rdropWhile (· == '\n')).splitOn '\n' =
      (printedLines content i j).map fun M => lossyChars (lineAt content M) := by
  have hlen := Lines.length_splitOn newline content
  have hrun := Lines.splitOn_run newline content (i := i - 1) (j := j) (by omega)
  have htrim : Lines.trimLines ((linesFrom content i j).splitOn newline) =
      (printedLines content i j).map (lineAt content) := by
    rw [← trimLines_numbers hij, ← lines_run hi hj]
    rcases hrun with hrun | hrun
    · rw [linesFrom, hrun]
    · rw [linesFrom, hrun, Lines.trimLines_concat_nil]
  rw [toList_fromUtf8Lossy, Lines.splitOn_rdropWhile, splitOn_lossyChars,
    Lines.trimLines_map isEmpty_lossyChars, htrim, List.map_map]
  rfl

/-- The lines printed are numbered one behind the other. -/
lemma printedLines_eq (content : Bytes) (hij : i ≤ j) :
    ∃ k, printedLines content i j = List.range' i k ∧ i + k ≤ j + 1 := by
  have hpre := List.rdropWhile_prefix (fun M => (lineAt content M).isEmpty)
    (List.range' i (j + 1 - i))
  have hle := hpre.length_le
  rw [List.length_range'] at hle
  rw [printedLines]
  split
  · exact ⟨1, rfl, by omega⟩
  · refine ⟨((List.range' i (j + 1 - i)).rdropWhile fun M => (lineAt content M).isEmpty).length,
      (List.prefix_iff_eq_take.mp hpre).trans ?_, by omega⟩
    rw [List.take_range'_of_length_ge hle]

lemma zipIdx_range' {β : Type} (f : ℕ → List Char → β) (g : ℕ → List Char) (i k : ℕ) :
    (((List.range' i k).map g).zipIdx.map fun e => f (i + e.2) e.1) =
      (List.range' i k).map fun M => f M (g M) := by
  refine List.ext_getElem? fun m => ?_
  by_cases hm : m < k
  · simp [List.getElem?_range' hm]
  · have hrange : (List.range' i k)[m]? = none :=
      List.getElem?_eq_none (by rw [List.length_range']; omega)
    simp [hrange]

/-- The numbers of the lines that the hit of the line `L` shows. -/
def LineQuery.blockLines (q : LineQuery) (content : Bytes) (L : ℕ) : List ℕ :=
  match q.context with
  | some n => printedLines content (max 1 (L - n)) (min (L + n) (content.count newline + 1))
  | none => [L]

lemma blockFirst_eq (n : ℕ) {L : ℕ} (hL : 1 ≤ L) (hlt : L ≤ 2 ^ 32) :
    blockFirst n L = max 1 (L - n) := by
  rw [blockFirst, Nat.mod_eq_of_lt (by omega)]
  omega

/-- A row shows the line that it names. -/
theorem hitRows_lineHit {q : LineQuery} (path : String) {L : ℕ}
    (hlen : content.length < 2 ^ 32 - 1) (hL : 1 ≤ L) (hle : L ≤ content.count newline + 1) :
    hitRows q.context.isSome (q.lineHit path content L) =
      (q.blockLines content L).map (lineRow q.context.isSome path content) := by
  have hcount := List.count_le_length (a := newline) (l := content)
  -- both kinds of hit are lines numbered from the first one
  have hrows : ∀ (first k : ℕ) (text : String), first + k ≤ 2 ^ 32 →
      (text.toList.rdropWhile (· == '\n')).splitOn '\n' =
        (List.range' first k).map (fun M => lossyChars (lineAt content M)) →
      hitRows q.context.isSome ⟨path, first, text⟩ =
        (List.range' first k).map (lineRow q.context.isSome path content) := by
    intro first k text hk htext
    rw [hitRows, htext]
    dsimp only
    rw [zipIdx_range' (fun M => printRow q.context.isSome path (M % 2 ^ 32))]
    refine List.map_congr_left fun M hM => ?_
    rw [List.mem_range'_1] at hM
    rw [Nat.mod_eq_of_lt (by omega)]
    rfl
  cases hcontext : q.context with
  | none =>
      rw [hcontext] at hrows
      have hnumber : (L - 1) % 2 ^ 32 + 1 = L := by
        rw [Nat.mod_eq_of_lt (by omega)]
        omega
      have hline : '\n' ∉ lossyChars (lineAt content L) := notMem_lossyChars (notMem_lineAt content L)
      have htrim : (fromUtf8Lossy (lineAt content L)).toList.rdropWhile (· == '\n') =
          lossyChars (lineAt content L) := by
        rw [toList_fromUtf8Lossy, List.rdropWhile_eq_self_iff]
        intro hne hlast
        exact hline (eq_of_beq hlast ▸ List.getLast_mem hne)
      rw [LineQuery.lineHit, LineQuery.blockLines, hcontext]
      dsimp only
      rw [hnumber]
      refine hrows L 1 _ (by omega) ?_
      rw [htrim, List.splitOn_eq_singleton hline]
      rfl
  | some n =>
      rw [hcontext] at hrows
      have hfirst : blockFirst n L = max 1 (L - n) := blockFirst_eq n hL (by omega)
      have hblock : linesFrom content (max 1 (L - n)) (L + n) =
          linesFrom content (max 1 (L - n)) (min (L + n) (content.count newline + 1)) := by
        rw [linesFrom, linesFrom, ← Lines.length_fullLines, ← List.take_eq_take_min]
      obtain ⟨k, hk, hle⟩ := printedLines_eq content (i := max 1 (L - n))
        (j := min (L + n) (content.count newline + 1)) (by omega)
      rw [LineQuery.lineHit, LineQuery.blockLines, hcontext]
      dsimp only
      rw [hfirst, hblock, hk]
      refine hrows _ k _ (by omega) ?_
      rw [lines_of_block (by omega) (by omega) (by omega), hk]

/-! ## The rows of a search -/

lemma mem_rdropWhile_range' {p : ℕ → Bool} {n M : ℕ} :
    M ∈ (List.range' i n).rdropWhile p ↔ i ≤ M ∧ ∃ M', M ≤ M' ∧ M' < i + n ∧ p M' = false := by
  induction n with
  | zero =>
      simp only [List.range'_zero, List.rdropWhile_nil, List.not_mem_nil, false_iff, not_and,
        not_exists]
      omega
  | succ n ih =>
      have hconcat : List.range' i (n + 1) = List.range' i n ++ [i + n] := by
        rw [List.range'_concat, Nat.one_mul]
      rw [hconcat]
      cases hp : p (i + n) with
      | true =>
          rw [List.rdropWhile_concat_pos _ _ _ hp, ih]
          refine and_congr_right fun _ => exists_congr fun M' => and_congr_right fun _ => ?_
          refine and_congr_left fun hM' => ⟨fun h => by omega, fun h => ?_⟩
          have hne : M' ≠ i + n := fun heq => by simp [heq, hp] at hM'
          omega
      | false =>
          rw [List.rdropWhile_concat_neg _ _ _ (by simp [hp]), ← hconcat, List.mem_range'_1]
          refine and_congr_right fun _ => ⟨fun h => ⟨i + n, by omega, by omega, hp⟩, ?_⟩
          rintro ⟨M', hle, hlt, -⟩
          omega

/-- The lines printed are those of the block up to the last one that is not empty, and the first
line always. -/
lemma mem_printedLines {M : ℕ} (hij : i ≤ j) :
    M ∈ printedLines content i j ↔
      M = i ∨ i ≤ M ∧ ∃ M', M ≤ M' ∧ M' ≤ j ∧ lineAt content M' ≠ [] := by
  have hmem : ∀ M, M ∈ ((List.range' i (j + 1 - i)).rdropWhile fun M => (lineAt content M).isEmpty) ↔
      i ≤ M ∧ ∃ M', M ≤ M' ∧ M' ≤ j ∧ lineAt content M' ≠ [] := by
    intro M
    rw [mem_rdropWhile_range']
    refine and_congr_right fun _ => exists_congr fun M' => and_congr_right fun _ => ?_
    rw [List.isEmpty_eq_false_iff]
    exact and_congr_left fun _ => by omega
  rw [printedLines]
  split
  · rename_i hnil
    rw [hnil] at hmem
    rw [List.mem_singleton, ← hmem M]
    simp
  · rename_i hne
    obtain ⟨M₀, hM₀⟩ := List.exists_mem_of_ne_nil _ hne
    obtain ⟨hle, M', hM', hj, hline⟩ := (hmem M₀).mp hM₀
    rw [hmem M]
    refine ⟨Or.inr, fun h => h.elim (fun heq => ?_) id⟩
    exact ⟨heq.ge, M', by omega, hj, hline⟩

lemma LineHit.le_iff {a b : LineHit} :
    a.le b = true ↔ a.path < b.path ∨ a.path = b.path ∧ a.lineNo ≤ b.lineNo := by
  unfold LineHit.le
  by_cases h : a.path = b.path
  · rw [if_pos h, decide_eq_true_eq, h]
    simp
  · rw [if_neg h, decide_eq_true_eq]
    refine ⟨fun hle => Or.inl ?_, fun hlt => hlt.elim (fun hlt => ?_) fun heq => absurd heq.1 h⟩
    · by_contra hlt
      exact h (String.le_antisymm hle (String.not_lt.mp hlt))
    · exact String.not_lt.mp (String.lt_asymm hlt)

lemma LineHit.le_total (a b : LineHit) : (a.le b || b.le a) = true := by
  unfold LineHit.le
  by_cases h : a.path = b.path
  · rw [if_pos h, if_pos h.symm]
    simpa using Nat.le_total a.lineNo b.lineNo
  · rw [if_neg h, if_neg (Ne.symm h)]
    simpa using String.le_total a.path b.path

lemma LineHit.le_trans (a b c : LineHit) (hab : a.le b = true) (hbc : b.le c = true) :
    a.le c = true := by
  rw [LineHit.le_iff] at hab hbc ⊢
  rcases hab with hab | ⟨hab, hab'⟩
  · rcases hbc with hbc | ⟨hbc, -⟩
    · exact Or.inl (String.lt_trans hab hbc)
    · exact Or.inl (hbc ▸ hab)
  · rcases hbc with hbc | ⟨hbc, hbc'⟩
    · exact Or.inl (hab ▸ hbc)
    · exact Or.inr ⟨hab.trans hbc, hab'.trans hbc'⟩

deriving instance DecidableEq for ShardFile

def LineQuery.hitOf (q : LineQuery) (s : ShardFile × ℕ) : LineHit :=
  q.lineHit s.1.path s.1.content s.2

lemma LineQuery.hitOf_path (q : LineQuery) (s : ShardFile × ℕ) : (q.hitOf s).path = s.1.path := by
  rw [LineQuery.hitOf, LineQuery.lineHit]
  cases q.context <;> rfl

def LineQuery.rowsOf (q : LineQuery) (s : ShardFile × ℕ) : List String :=
  (q.blockLines s.1.content s.2).map (lineRow q.context.isSome s.1.path s.1.content)

/-- The files that a query reports, each with the lines whose hits are shown. -/
def LineQuery.shownIn (q : LineQuery) (filess : List (List ShardFile)) : List (ShardFile × ℕ) :=
  filess.flatMap fun files => (q.keptFiles q.limit files).flatMap fun f =>
    (q.shownLines f.path f.content).map fun L => (f, L)

/-- The files in scope, each with the lines that contain the needle. -/
def LineQuery.matchesIn (q : LineQuery) (filess : List (List ShardFile)) : List (ShardFile × ℕ) :=
  filess.flatMap fun files => (files.filter fun f => inScope f.path q.scope).flatMap fun f =>
    (matchingLines f.content q.verifyNeedle q.caseSensitive).map fun L => (f, L)

/-- Contents whose lines `u32` counts. -/
def LinesCounted (filess : List (List ShardFile)) : Prop :=
  ∀ files ∈ filess, ∀ f ∈ files, f.content.length < 2 ^ 32 - 1

variable {q : LineQuery} {shards : List Bytes} {filess : List (List ShardFile)} {out : Output}

lemma queryLines_shownIn (h : ShardSetIndexes shards filess) :
    ContentShards.queryLines shards q = .ok ((q.shownIn filess).map q.hitOf) := by
  rw [queryLines_eq h, LineQuery.shownIn, List.map_flatMap]
  refine congrArg Except.ok (List.flatMap_congr fun files _ => ?_)
  rw [List.map_flatMap]
  refine List.flatMap_congr fun f _ => ?_
  rw [LineQuery.fileHits_eq, List.map_map]
  rfl

lemma mem_keptFiles {limit : Option ℕ} {files : List ShardFile} {f : ShardFile}
    (h : f ∈ q.keptFiles limit files) : f ∈ files :=
  List.mem_of_mem_filter (mem_takeOpt (List.mem_of_mem_filter h))

lemma mem_shownIn {s : ShardFile × ℕ} (hlen : LinesCounted filess) (hs : s ∈ q.shownIn filess) :
    s.1.content.length < 2 ^ 32 - 1 ∧ 1 ≤ s.2 ∧ s.2 ≤ s.1.content.count newline + 1 := by
  obtain ⟨files, hfiles, hs⟩ := List.mem_flatMap.mp hs
  obtain ⟨f, hf, hs⟩ := List.mem_flatMap.mp hs
  obtain ⟨L, hL, rfl⟩ := List.mem_map.mp hs
  exact ⟨hlen files hfiles f (mem_keptFiles hf),
    LineQuery.matchLines_bounds ((keepFirst_sublist _ []).subset hL)⟩

/-- The hits are sorted, and each is printed with its rows. -/
lemma printResults_lineHits (hmode : (out.lineNumber || out.context.isSome) = true)
    (hcontext : out.context = q.context) (hcount : out.count = false) {shown : List (ShardFile × ℕ)}
    (hlines : ∀ s ∈ shown, s.1.content.length < 2 ^ 32 - 1 ∧ 1 ≤ s.2 ∧
      s.2 ≤ s.1.content.count newline + 1) (isTerminal : Bool) (humansize : Int64 → String)
    (query : String) :
    ∃ order : List (ShardFile × ℕ), order.Perm shown ∧
      order.Pairwise (fun s t => (q.hitOf s).le (q.hitOf t) = true) ∧
      printResults isTerminal humansize [] (shown.map q.hitOf) out query =
        .ok (String.join (order.flatMap q.rowsOf)) := by
  have hperm := List.mergeSort_perm shown fun s t => (q.hitOf s).le (q.hitOf t)
  have hsorted := List.pairwise_mergeSort
    (fun a b c => LineHit.le_trans (q.hitOf a) (q.hitOf b) (q.hitOf c))
    (fun a b => LineHit.le_total (q.hitOf a) (q.hitOf b)) shown
  refine ⟨_, hperm, hsorted, ?_⟩
  have hrows : printLines q.context.isSome (shown.map q.hitOf) =
      (shown.mergeSort fun s t => (q.hitOf s).le (q.hitOf t)).flatMap q.rowsOf := by
    have hmap := @List.map_mergeSort _ _ (fun s t => (q.hitOf s).le (q.hitOf t)) LineHit.le q.hitOf
      shown fun s _ t _ => rfl
    rw [printLines, ← hmap, List.flatMap_map]
    refine List.flatMap_congr fun s hs => ?_
    obtain ⟨hlen, hL, hle⟩ := hlines s (hperm.mem_iff.mp hs)
    exact hitRows_lineHit s.1.path hlen hL hle
  rw [← hrows, printResults, hmode, hcount, hcontext, Bool.true_and]
  by_cases hnil : shown = []
  · subst hnil
    have hnone : printLines q.context.isSome [] = [] := by simp [printLines]
    rw [List.map_nil, hnone]
    cases out.null <;> rfl
  · rw [if_pos (by simpa using hnil), if_neg Bool.false_ne_true]

lemma le_of_lineAt_ne_nil {M : ℕ} (h : lineAt content M ≠ []) :
    M ≤ content.count newline + 1 := by
  by_contra hlt
  refine h ?_
  rw [lineAt, List.getElem?_eq_none (by rw [Lines.length_splitOn]; omega), Option.getD_none]

lemma isInfix_lineAt (content : Bytes) (L : ℕ) : lineAt content L <:+: content := by
  by_cases hlt : L - 1 < (content.splitOn newline).length
  · obtain ⟨pre, post, haround, -⟩ := exists_around_line hlt
    have hsplit := haround.split
    rw [List.nil_append, lineAt, Nat.add_sub_cancel, ← lineAt] at hsplit
    exact ⟨pre, post, by rw [List.append_assoc, ← hsplit]⟩
  · rw [lineAt, List.getElem?_eq_none (Nat.le_of_not_lt hlt)]
    exact List.nil_infix

lemma flatMap_filter_of_nil {α β : Type} {p r : α → Bool} {g : α → List β} {l : List α}
    (hpr : ∀ a ∈ l, p a = true → r a = true)
    (hnil : ∀ a ∈ l, r a = true → p a = false → g a = []) :
    (l.filter p).flatMap g = (l.filter r).flatMap g := by
  induction l with
  | nil => rfl
  | cons a l ih =>
      have ih := ih (fun b hb => hpr b (List.mem_cons_of_mem _ hb))
        fun b hb => hnil b (List.mem_cons_of_mem _ hb)
      have ha := hpr a (List.mem_cons_self ..)
      have hna := hnil a (List.mem_cons_self ..)
      rw [List.filter_cons, List.filter_cons]
      cases hp : p a with
      | true => rw [if_pos rfl, if_pos (ha hp), List.flatMap_cons, List.flatMap_cons, ih]
      | false =>
          rw [if_neg Bool.false_ne_true, ih]
          cases hr : r a with
          | true => rw [if_pos rfl, List.flatMap_cons, hna hr hp, List.nil_append]
          | false => rw [if_neg Bool.false_ne_true]

/-- With regard to case, the needle has the trigrams that candidates are looked for by.  They are
those of the lowercased query, which lowercasing beyond ASCII may change. -/
def LineQuery.TrigramsKept (q : LineQuery) : Prop :=
  q.caseSensitive = true → 3 ≤ q.folded.length → trigrams q.folded ⊆ trigrams (fold q.needle)

/-- A file with a line that contains the needle is found. -/
lemma found_of_mem_matchingLines (hkept : q.TrigramsKept) (hre : q.re = none) {L : ℕ}
    (hL : L ∈ matchingLines content q.verifyNeedle q.caseSensitive) (texts : List Bytes) :
    (q.prefilter content && walked texts q.folded (fold content)) = true := by
  have hinfix := (mem_matchingLines.mp hL).2.trans (isInfix_lineAt _ L)
  rw [LineQuery.verifyNeedle] at hinfix
  rw [LineQuery.prefilter, hre, Bool.and_eq_true]
  unfold contentMatches
  cases hcase : q.caseSensitive with
  | true =>
      rw [hcase] at hinfix
      exact ⟨containsSub_iff.mpr hinfix, walked_of_subset fun hlong =>
        List.Subset.trans (hkept hcase hlong) (trigrams_mono (fold_mono hinfix))⟩
  | false =>
      rw [hcase] at hinfix
      exact ⟨containsSub_iff.mpr hinfix, walked_of_subset fun _ => trigrams_mono hinfix⟩

/-- An unlimited literal search shows the lines that contain the needle. -/
lemma shownIn_eq (hlen : LinesCounted filess) (htrigrams : q.TrigramsKept) (hre : q.re = none)
    (hlimit : q.limit = none) (hcontext : q.context = none) (hne : q.verifyNeedle ≠ [])
    (hnl : newline ∉ q.verifyNeedle) : q.shownIn filess = q.matchesIn filess := by
  refine List.flatMap_congr fun files hfiles => ?_
  have hkept : q.keptFiles q.limit files = files.filter fun f =>
      (q.prefilter f.content && walked (files.map fun f => fold f.content) q.folded
        (fold f.content)) && inScope f.path q.scope := by
    rw [LineQuery.keptFiles, hlimit, takeOpt, LineQuery.foundFiles, List.filter_filter]
    refine List.filter_congr fun f _ => ?_
    rw [LineQuery.verifies, hre, Bool.true_and, Bool.and_comm]
  have hlines : ∀ f ∈ files, q.shownLines f.path f.content =
      matchingLines f.content q.verifyNeedle q.caseSensitive := fun f hf =>
    LineQuery.shownLines_eq (hlen files hfiles f hf) hre hcontext hne hnl
  rw [hkept, List.flatMap_congr fun f hf => by rw [hlines f (List.mem_of_mem_filter hf)]]
  refine flatMap_filter_of_nil (fun f _ hf => (Bool.and_eq_true_iff.mp hf).2)
    fun f hf hscope hnot => ?_
  rw [List.map_eq_nil_iff, List.eq_nil_iff_forall_not_mem]
  intro L hL
  rw [found_of_mem_matchingLines htrigrams hre hL, hscope] at hnot
  cases hnot

/-- With `-C n` the blocks of the hits are printed, sorted by path and first line, and every row
shows the line it names: those from the first of the block to its last one that is not empty. -/
theorem printed_blocks {n : ℕ} (h : ShardSetIndexes shards filess) (hlen : LinesCounted filess)
    (hcontext : q.context = some n) (hout : out.context = some n) (hcount : out.count = false)
    (isTerminal : Bool) (humansize : Int64 → String) (query : String) :
    ∃ hits, ContentShards.queryLines shards q = .ok hits ∧
      ∃ order : List (ShardFile × ℕ), order.Perm (q.shownIn filess) ∧
        order.Pairwise (fun s t => s.1.path < t.1.path ∨
          s.1.path = t.1.path ∧ max 1 (s.2 - n) ≤ max 1 (t.2 - n)) ∧
        printResults isTerminal humansize [] hits out query =
          .ok (String.join (order.flatMap fun s => (q.blockLines s.1.content s.2).map
            (lineRow true s.1.path s.1.content))) ∧
        ∀ s ∈ order, ∀ M, M ∈ q.blockLines s.1.content s.2 ↔
          M = max 1 (s.2 - n) ∨ max 1 (s.2 - n) ≤ M ∧
            ∃ M', M ≤ M' ∧ M' ≤ s.2 + n ∧ lineAt s.1.content M' ≠ [] := by
  obtain ⟨order, hperm, hsorted, hprint⟩ := @printResults_lineHits q out
    (by rw [hout, Option.isSome_some, Bool.or_true]) (hout.trans hcontext.symm) hcount _
    (fun s hs => mem_shownIn hlen hs) isTerminal humansize query
  have hlines : ∀ s ∈ order, s.1.content.length < 2 ^ 32 - 1 ∧ 1 ≤ s.2 ∧
      s.2 ≤ s.1.content.count newline + 1 := fun s hs => mem_shownIn hlen (hperm.mem_iff.mp hs)
  refine ⟨_, queryLines_shownIn h, order, hperm, ?_, ?_, fun s hs M => ?_⟩
  · have hfirst : ∀ s ∈ order, (q.hitOf s).lineNo = max 1 (s.2 - n) := by
      intro s hs
      have hcount := List.count_le_length (a := newline) (l := s.1.content)
      obtain ⟨hlen, hL, hle⟩ := hlines s hs
      rw [LineQuery.hitOf, LineQuery.lineHit, hcontext]
      exact blockFirst_eq n hL (by omega)
    refine hsorted.imp_of_mem fun {s t} hs ht hle => ?_
    rwa [LineHit.le_iff, q.hitOf_path, q.hitOf_path, hfirst s hs, hfirst t ht] at hle
  · rw [hprint]
    unfold LineQuery.rowsOf
    rw [hcontext, Option.isSome_some]
  · obtain ⟨-, hL, hle⟩ := hlines s hs
    rw [LineQuery.blockLines, hcontext]
    dsimp only
    rw [mem_printedLines (by omega)]
    refine or_congr_right (and_congr_right fun _ => exists_congr fun M' =>
      and_congr_right fun _ => ?_)
    refine and_congr_left fun hline => ?_
    have hin := le_of_lineAt_ne_nil hline
    omega

/-- The block of a match on the third line: the empty line before it is shown, those behind are
not. -/
theorem printed_blocks_one :
    ∃ shard hits, ContentShards.queryLines [shard]
        ⟨utf8 "needle", utf8 "needle", false, none, none, none, some 1⟩ = .ok hits ∧
      printResults false (fun _ => "") [] hits { context := some 1 } "needle" =
        .ok "/a-2:\n/a-3:Needle\n" := by
  obtain ⟨shard, r, -, -, hopen, hindex⟩ := @ShardBuilder.ofFiles_indexes
    [⟨"/a", ⟨false, 11, 4⟩, utf8 "ab\n\nNeedle\n\n\n"⟩] 0 0 0 (by decide) (by decide) (by decide)
    (by decide +kernel)
  obtain ⟨hits, hhits, order, hperm, -, hprint, -⟩ := @printed_blocks
    ⟨utf8 "needle", utf8 "needle", false, none, none, none, some 1⟩ [shard]
    [[⟨"/a", ⟨false, 11, 4⟩, utf8 "ab\n\nNeedle\n\n\n"⟩]] { context := some 1 } 1
    (List.Forall₂.cons ⟨r, hopen, hindex⟩ List.Forall₂.nil)
    (by simp only [LinesCounted]; decide +kernel) rfl rfl rfl false (fun _ => "") "needle"
  have hshown : LineQuery.shownIn ⟨utf8 "needle", utf8 "needle", false, none, none, none, some 1⟩
      [[⟨"/a", ⟨false, 11, 4⟩, utf8 "ab\n\nNeedle\n\n\n"⟩]] =
      [(⟨"/a", ⟨false, 11, 4⟩, utf8 "ab\n\nNeedle\n\n\n"⟩, 3)] := by decide +kernel
  rw [hshown] at hperm
  rw [List.perm_singleton.mp hperm] at hprint
  refine ⟨shard, hits, hhits, hprint.trans ?_⟩
  decide +kernel

/-- The needle of a literal request is empty only if its query is. -/
lemma verifyNeedle_ne_nil {env : ConnEnv} {req : SearchRequest} {plan : SearchPlan}
    (hplan : searchPlan env req = .ok plan) (hre : req.opts.regex = none)
    (hquery : req.query ≠ "") : (lineQuery req plan).verifyNeedle ≠ [] := by
  obtain rfl := Except.ok.inj ((searchPlan_literal env hre).symm.trans hplan)
  have hutf8 : ∀ {s : String}, s ≠ "" → utf8 s ≠ [] := fun hs hnil => hs (utf8_injective hnil)
  have hfolded : fold (lowerBytes req.query) ≠ [] := fun hnil =>
    hutf8 (toLowercase_ne_empty hquery) (List.map_eq_nil_iff.mp hnil)
  rw [LineQuery.verifyNeedle]
  split
  · exact hutf8 hquery
  · exact hfolded

/-- With `-n` an unlimited literal search prints every line of every file in scope that contains the
needle, each once with its number, in the order of path and number.  The needle is the query, or
without regard to case what lowercasing and folding leave of it. -/
theorem printed_matches {env : ConnEnv} {req : SearchRequest} {plan : SearchPlan}
    (hplan : searchPlan env req = .ok plan) (hre : req.opts.regex = none)
    (hlimit : req.limit = none) (hcontext : req.opts.context = none) (hquery : req.query ≠ "")
    (hnl : newline ∉ (lineQuery req plan).verifyNeedle) (hkept : (lineQuery req plan).TrigramsKept)
    (h : ShardSetIndexes shards filess) (hlen : LinesCounted filess)
    (hout : out.context = none) (hmode : out.lineNumber = true) (hcount : out.count = false)
    (isTerminal : Bool) (humansize : Int64 → String) (query : String) :
    ∃ hits, ContentShards.queryLines shards (lineQuery req plan) = .ok hits ∧
      ∃ order : List (ShardFile × ℕ), order.Perm ((lineQuery req plan).matchesIn filess) ∧
        order.Pairwise (fun s t => s.1.path < t.1.path ∨ s.1.path = t.1.path ∧ s.2 ≤ t.2) ∧
        printResults isTerminal humansize [] hits out query =
          .ok (String.join (order.map fun s => lineRow false s.1.path s.1.content s.2)) := by
  have hne := verifyNeedle_ne_nil hplan hre hquery
  have hq : (lineQuery req plan).re = none := by
    obtain rfl := Except.ok.inj ((searchPlan_literal env hre).symm.trans hplan)
    rfl
  have hnocontext : (lineQuery req plan).context = none := hcontext
  have hnolimit : (lineQuery req plan).limit = none := hlimit
  generalize lineQuery req plan = q at *
  obtain ⟨order, hperm, hsorted, hprint⟩ := @printResults_lineHits q out
    (by rw [hmode, Bool.true_or]) (hout.trans hnocontext.symm) hcount _
    (fun s hs => mem_shownIn hlen hs) isTerminal humansize query
  have hlines : ∀ s ∈ order, s.1.content.length < 2 ^ 32 - 1 ∧ 1 ≤ s.2 ∧
      s.2 ≤ s.1.content.count newline + 1 := fun s hs => mem_shownIn hlen (hperm.mem_iff.mp hs)
  have hshown := shownIn_eq hlen hkept hq hnolimit hnocontext hne hnl
  refine ⟨_, queryLines_shownIn h, order, hshown ▸ hperm, ?_, ?_⟩
  · have hline : ∀ s ∈ order, (q.hitOf s).lineNo = s.2 := by
      intro s hs
      have hcount := List.count_le_length (a := newline) (l := s.1.content)
      obtain ⟨hlen, hL, hle⟩ := hlines s hs
      rw [LineQuery.hitOf, LineQuery.lineHit, hnocontext]
      dsimp only
      rw [Nat.mod_eq_of_lt (by omega)]
      omega
    refine hsorted.imp_of_mem fun {s t} hs ht hle => ?_
    rwa [LineHit.le_iff, q.hitOf_path, q.hitOf_path, hline s hs, hline t ht] at hle
  · have hrow : ∀ s, q.rowsOf s = [lineRow false s.1.path s.1.content s.2] := by
      intro s
      rw [LineQuery.rowsOf, LineQuery.blockLines, hnocontext]
      rfl
    rw [hprint, List.map_eq_flatMap, List.flatMap_congr fun s _ => hrow s]

/-- One line of two contains the needle, in another letter case. -/
theorem printed_matches_one :
    ∃ shard hits, ContentShards.queryLines [shard]
        ⟨utf8 "needle", utf8 "needle", false, none, none, none, none⟩ = .ok hits ∧
      printResults false (fun _ => "") [] hits { lineNumber := true } "needle" =
        .ok "/a:2:xNeedle\n" := by
  obtain ⟨shard, r, -, -, hopen, hindex⟩ := @ShardBuilder.ofFiles_indexes
    [⟨"/a", ⟨false, 11, 4⟩, utf8 "ab\nxNeedle"⟩] 0 0 0 (by decide) (by decide) (by decide)
    (by decide +kernel)
  have hplan : searchPlan plainEnv { query := "needle" } =
      .ok (literalPlan "needle" .smart) := searchPlan_literal plainEnv rfl
  have hq : lineQuery { query := "needle" } (literalPlan "needle" .smart) =
      ⟨utf8 "needle", utf8 "needle", false, none, none, none, none⟩ := by
    have hfold : fold (lowerBytes "needle") = utf8 "needle" := by decide +kernel
    have hcase : CaseControl.smart.isSensitive "needle" = false := by decide +kernel
    simp only [lineQuery, literalPlan, hfold, hcase]
  have hprinted := @printed_matches [shard]
    [[⟨"/a", ⟨false, 11, 4⟩, utf8 "ab\nxNeedle"⟩]] { lineNumber := true } plainEnv
    { query := "needle" } _ hplan rfl rfl rfl (by decide) (by rw [hq]; decide +kernel)
    (by rw [hq]; exact fun hcase => absurd hcase Bool.false_ne_true)
    (List.Forall₂.cons ⟨r, hopen, hindex⟩ List.Forall₂.nil)
    (by simp only [LinesCounted]; decide +kernel) rfl rfl rfl false (fun _ => "") "needle"
  rw [hq] at hprinted
  obtain ⟨hits, hhits, order, hperm, -, hprint⟩ := hprinted
  have hmatches : LineQuery.matchesIn ⟨utf8 "needle", utf8 "needle", false, none, none, none, none⟩
      [[⟨"/a", ⟨false, 11, 4⟩, utf8 "ab\nxNeedle"⟩]] =
      [(⟨"/a", ⟨false, 11, 4⟩, utf8 "ab\nxNeedle"⟩, 2)] := by decide +kernel
  rw [hmatches] at hperm
  rw [List.perm_singleton.mp hperm] at hprint
  refine ⟨shard, hits, hhits, hprint.trans ?_⟩
  decide +kernel

end DeepFinder
