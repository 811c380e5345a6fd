import DeepFinder.Daemon.Layers
import DeepFinder.Index.ShardSizes

/-!
# Limited content regexes

`content_regex_docids` caps the candidates, which only contain the atom, and not the files that the
regex matches: `content_regex_docids_iff` says when the two caps come to the same.

That the atom is in every match is a hypothesis on the regex here; `Ipc/RegexAtom.lean` says when
`longest_literal_atom` is such an atom.  The shard is any that was finished and opened again.
-/

namespace DeepFinder

open ByteString

/-! ## Two caps -/

/-- A filter keeps all of the first `n` elements, or there is nothing to find behind them. -/
lemma filter_take_eq_iff {α : Type*} (p : α → Bool) (l : List α) (n : ℕ) :
    (l.take n).filter p = (l.filter p).take n ↔
      (∀ a ∈ l.take n, p a = true) ∨ ∀ a ∈ l.drop n, ¬p a = true := by
  have hsplit : l.filter p = (l.take n).filter p ++ (l.drop n).filter p := by
    rw [← List.filter_append, List.take_append_drop]
  have hlen : ((l.take n).filter p).length ≤ n :=
    (List.length_filter_le _ _).trans (List.length_take_le _ _)
  rw [hsplit, List.take_append, List.take_of_length_le hlen]
  constructor
  · intro h
    have hnil := List.append_right_eq_self.mp h.symm
    rcases List.take_eq_nil_iff.mp hnil with hfull | hrest
    · refine Or.inl (List.length_filter_eq_length_iff.mp ?_)
      refine le_antisymm (List.length_filter_le _ _) ?_
      have hle := List.length_take_le n l
      omega
    · exact Or.inr (List.filter_eq_nil_iff.mp hrest)
  · rintro (hall | hrest)
    · rw [List.filter_eq_self.mpr hall, List.length_take]
      rcases Nat.le_total n l.length with hn | hn
      · rw [Nat.min_eq_left hn, Nat.sub_self, List.take_zero, List.append_nil]
      · rw [List.drop_of_length_le hn, List.filter_nil, List.take_nil, List.append_nil]
    · rw [List.filter_eq_nil_iff.mpr hrest, List.take_nil, List.append_nil]

/-! ## The docids of a shard -/

/-- The files whose folded content contains the atom. -/
def atomDocs (files : List ShardFile) (atom : Bytes) : List ℕ :=
  matchingDocs files fun content => containsSub (fold content) atom

/-- Whether the regex matches the content of a document. -/
def matchesDoc (files : List ShardFile) (re : ByteRegex) (d : ℕ) : Bool :=
  ((files[d]?).map fun f => re.isMatch f.content).getD false

section Docids

variable {files : List ShardFile} {shardId baseDocid buildTime : ℕ} {bytes atom : Bytes}
  {r : ShardReader} {re : ByteRegex}

/-- A shard that was built and opens is an index of its files. -/
lemma ShardBuilder.indexes_of_open (hid : shardId < 2 ^ 32) (hbase : baseDocid < 2 ^ 32)
    (htime : buildTime < 2 ^ 64)
    (hfinish : (ShardBuilder.ofFiles shardId baseDocid files).finish buildTime = .ok bytes)
    (hopen : ShardReader.open bytes = .ok r) : r.view.Indexes files := by
  have hsize : (ShardBuilder.ofFiles shardId baseDocid files).fileSize < 2 ^ 32 + 8 := by
    by_contra hlong
    rw [ShardBuilder.open_of_finish (Nat.le_of_not_lt hlong) hfinish] at hopen
    cases hopen
  obtain ⟨bytes', r', hfinish', -, hopen', hindex⟩ :=
    ShardBuilder.ofFiles_opens hid hbase htime hsize
  obtain rfl := Except.ok.inj (hfinish.symm.trans hfinish')
  obtain rfl := Except.ok.inj (hopen.symm.trans hopen')
  exact hindex

/-- The regex is asked about the first `limit` files that contain the atom. -/
lemma contentRegexDocids_eq {v : ShardView} (h : v.Indexes files) (atom : Bytes) (re : ByteRegex)
    (limit : Option ℕ) : contentRegexDocids v atom re limit =
      .ok ((takeOpt limit (atomDocs files atom)).filter (matchesDoc files re)) := by
  have hsound : ∀ f ∈ files, contentMatches atom atom false f.content = true →
      trigrams atom ⊆ trigrams (fold f.content) := by
    intro f _ hmatch
    rw [contentMatches, if_neg Bool.false_ne_true] at hmatch
    exact trigrams_mono (containsSub_iff.mp hmatch)
  have hcands : candidates v.source atom atom false limit =
      .ok (takeOpt limit (atomDocs files atom)) := h.candidates_eq (fun _ => hsound) limit
  have hlt : ∀ d ∈ takeOpt limit (atomDocs files atom), d < files.length := fun d hd =>
    List.mem_range.mp (List.mem_filter.mp (mem_takeOpt hd)).1
  rw [contentRegexDocids, hcands, bind_ok, regexLoop_eq h re hlt]
  rfl

/-- What the regex matches is among the files that contain the atom. -/
lemma matchingDocs_eq_filter
    (hatom : ∀ f ∈ files, re.isMatch f.content = true → atom <:+: fold f.content) :
    matchingDocs files re.isMatch = (atomDocs files atom).filter (matchesDoc files re) := by
  rw [atomDocs, matchingDocs, matchingDocs, List.filter_filter]
  refine List.filter_congr fun d _ => ?_
  rw [matchesDoc]
  cases hd : files[d]? with
  | none => rfl
  | some f =>
      cases hmatch : re.isMatch f.content with
      | false => simp [hmatch]
      | true =>
          have hcontains := containsSub_iff.mpr (hatom f (List.mem_of_getElem? hd) hmatch)
          simp [hmatch, hcontains]

/-- With a limit the docids are the first files that the regex matches, in ascending order, exactly
when it matches each of the first `limit` files that contain the atom, or none of the others.  The
source cuts the candidates to the limit and verifies them afterwards; without a limit nothing is
cut, and both sides hold. -/
theorem content_regex_docids_iff (hid : shardId < 2 ^ 32) (hbase : baseDocid < 2 ^ 32)
    (htime : buildTime < 2 ^ 64)
    (hfinish : (ShardBuilder.ofFiles shardId baseDocid files).finish buildTime = .ok bytes)
    (hopen : ShardReader.open bytes = .ok r)
    (hatom : ∀ f ∈ files, re.isMatch f.content = true → atom <:+: fold f.content)
    (limit : Option ℕ) :
    contentRegexDocids r.view atom re limit =
        .ok (takeOpt limit (matchingDocs files re.isMatch)) ↔
      ∀ n, limit = some n →
        (∀ d ∈ (atomDocs files atom).take n, matchesDoc files re d = true) ∨
          ∀ d ∈ (atomDocs files atom).drop n, ¬matchesDoc files re d = true := by
  have hindex := ShardBuilder.indexes_of_open hid hbase htime hfinish hopen
  rw [contentRegexDocids_eq hindex, matchingDocs_eq_filter hatom, Except.ok.injEq]
  cases limit with
  | none =>
      refine iff_of_true rfl ?_
      rintro n ⟨⟩
  | some n =>
      have hcaps := filter_take_eq_iff (matchesDoc files re) (atomDocs files atom) n
      constructor
      · rintro h n' ⟨⟩
        exact hcaps.mp h
      · intro h
        exact hcaps.mpr (h n rfl)

/-- Whether `fn.main` matches the seven bytes. -/
def fnMainAt (w : Bytes) : Bool :=
  w.take 2 == utf8 "fn" && w[2]? != some newline && w.drop 3 == utf8 "main"

/-- The byte regex `fn.main`, of which `main` is the longest literal. -/
def fnMain : ByteRegex where
  isMatch content := (windows 7 content).any fnMainAt
  findIter content := (List.range content.length).filter fun i =>
    fnMainAt ((content.drop i).take 7)

/-- The first file contains the atom only, and uses up the limit. -/
theorem content_regex_docids_lost :
    let files : List ShardFile := [⟨"/a.rs", ⟨false, 4, 1⟩, utf8 "main"⟩,
      ⟨"/b.rs", ⟨false, 7, 2⟩, utf8 "fn main"⟩]
    ∃ bytes r, (ShardBuilder.ofFiles 0 0 files).finish 7 = .ok bytes ∧
      ShardReader.open bytes = .ok r ∧
      (∀ f ∈ files, fnMain.isMatch f.content = true → utf8 "main" <:+: fold f.content) ∧
      contentRegexDocids r.view (utf8 "main") fnMain (some 1) = .ok [] ∧
      takeOpt (some 1) (matchingDocs files fnMain.isMatch) = [1] := by
  intro files
  obtain ⟨bytes, r, hfinish, -, hopen, hindex⟩ := @ShardBuilder.ofFiles_indexes files 0 0 7
    (by decide) (by decide) (by decide) (by decide +kernel)
  refine ⟨bytes, r, hfinish, hopen, ?_, ?_, by decide +kernel⟩
  · simp only [← containsSub_iff]
    decide +kernel
  · rw [contentRegexDocids_eq hindex]
    decide +kernel

/-- Where the atom-only file comes last, the limit does no harm. -/
theorem content_regex_docids_iff_two :
    let files : List ShardFile := [⟨"/a.rs", ⟨false, 15, 1⟩, utf8 "FN main fn main"⟩,
      ⟨"/b.rs", ⟨false, 4, 2⟩, utf8 "main"⟩]
    ∃ bytes r, (ShardBuilder.ofFiles 0 0 files).finish 7 = .ok bytes ∧
      ShardReader.open bytes = .ok r ∧
      contentRegexDocids r.view (utf8 "main") fnMain (some 1) = .ok [0] := by
  intro files
  obtain ⟨bytes, r, hfinish, -, hopen, -⟩ := @ShardBuilder.ofFiles_indexes files 0 0 7
    (by decide) (by decide) (by decide) (by decide +kernel)
  have hatom : ∀ f ∈ files, fnMain.isMatch f.content = true → utf8 "main" <:+: fold f.content := by
    simp only [← containsSub_iff]
    decide +kernel
  have hexact := content_regex_docids_iff (by decide) (by decide) (by decide) hfinish hopen hatom
    (some 1)
  have hcond : ∀ n, some 1 = some n →
      (∀ d ∈ (atomDocs files (utf8 "main")).take n, matchesDoc files fnMain d = true) ∨
        ∀ d ∈ (atomDocs files (utf8 "main")).drop n, ¬matchesDoc files fnMain d = true := by
    rintro n ⟨⟩
    decide +kernel
  refine ⟨bytes, r, hfinish, hopen, (hexact.mpr hcond).trans ?_⟩
  decide +kernel

end Docids

end DeepFinder
