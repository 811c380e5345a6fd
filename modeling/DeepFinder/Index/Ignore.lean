import DeepFinder.Core.StrSlice
import DeepFinder.Core.Subtree
import DeepFinder.Index.Walk
import DeepFinder.Lib.LastMatch
import Mathlib.Data.List.DropRight

/-!
# The ignore patterns of the settings

`compile_ignore_matcher` turns the patterns of `settings.json` into one gitignore matcher at the
root of a build.  An absolute path under the root is rewritten to what stands behind the root, with
a slash in front; the matcher itself is the `ignore` crate's (`IgnoreCrate`).

`ignored_as_meant` compares what is ignored with what the patterns mean.  There are three ways in
which an absolute path is not read as it is meant.  Rewriting it loses its `!`.  A rewritten path is
still a glob and still spelled as it was, so that it means its entry only when it is plain
(`PlainPattern`).  And the comparison with the root is one of texts: below a root that is given
relative to the working directory, as the default `.` is, no absolute path is recognized.  Verdicts
can only differ where the last pattern that matches an entry is one of these (`WellRead`), and
among plain patterns below a root that is written out they do differ there.
-/

namespace DeepFinder

open ByteString UnixPath LastMatch

/-! ## The matcher -/

/-- `str::trim`. -/
def trim (cs : List Char) : List Char := (cs.dropWhile isWhitespace).rdropWhile isWhitespace

/-- The line negates what follows its first character. -/
def negated (line : String) : Bool := line.toList.head? = some '!'

/-- A pattern without its `!`. -/
def patternBody (cs : List Char) : List Char :=
  match cs with
  | '!' :: body => body
  | _ => cs

/-- `Path::is_absolute`. -/
def isAbsolute (body : List Char) : Bool := body.head? = some '/'

def textNames (path : List Char) : List Bytes :=
  (names '/' '.' path).map fun name => name.flatMap String.utf8EncodeChar

def byteNames (path : Bytes) : List Bytes := names slash 46 path

/-- What is left of the parts of a path behind so many names; empty parts and dots in front are
trimmed. -/
def behindNames : ℕ → List (List Char) → List (List Char)
  | _, [] => []
  | k, part :: parts =>
      if IsName '.' part then
        match k with
        | 0 => part :: parts
        | k + 1 => behindNames k parts
      else behindNames k parts

/-- `Path::strip_prefix` of an absolute path: the text behind the names of the root, without empty
parts and dots at its ends.  Nothing is stripped for the empty root. -/
def stripPrefix (root : Bytes) (body : List Char) : Option (List Char) :=
  let parts := (body.splitOn '/').tail.rdropWhile fun part => !decide (IsName '.' part)
  if root = [] then some ('/' :: ['/'].intercalate parts)
  else if root.head? = some slash ∧ (byteNames root).isPrefixOf (textNames body) then
    some (['/'].intercalate (behindNames (byteNames root).length parts))
  else none

/-- `normalize_pattern`. -/
def normalizePattern (root : Bytes) (line : String) : Option String :=
  let trimmed := trim line.toList
  if trimmed = [] then none
  else
    let body := patternBody trimmed
    if isAbsolute body then
      (stripPrefix root body).map fun rel =>
        if rel = [] then "/" else String.ofList ('/' :: rel)
    else some (String.ofList trimmed)

/-- The `ignore` crate. -/
structure IgnoreCrate where
  /-- `add_line` takes the line -/
  addLine : String → Bool
  /-- the glob of a line matches an entry below the root, given whether it is a directory -/
  glob : String → List Bytes → Bool → Bool
  /-- `build` of the lines that were added -/
  build : List String → Option Gitignore

/-- `compile_ignore_matcher`. -/
def compileIgnoreMatcher (crate : IgnoreCrate) (root : Bytes) (patterns : List String) :
    Option Gitignore :=
  if patterns = [] then none
  else crate.build ((patterns.filterMap (normalizePattern root)).filter crate.addLine)

def settingsIgnore (matcher : Option Gitignore) (p : List Bytes) (isDir : Bool) : Bool :=
  (matcher.map fun m => isIgnored m p isDir).getD false

/-! ## The crate -/

/-- What a line has the matcher decide: to ignore an entry, or not to. -/
def lineRule (crate : IgnoreCrate) (p : List Bytes) (isDir : Bool) (line : String) : Option Bool :=
  if crate.glob line p isDir then some (!negated line) else none

/-- `Match`, as the decision that it stands for. -/
def matchOf : Option Bool → IgnoreMatch
  | none => .none
  | some true => .ignore
  | some false => .whitelist

def globChars : List Char := ['*', '?', '[', ']', '{', '}', '\\']

/-- An entry strictly below the root: its names, as a directory lists them. -/
structure IsEntry (p : List Bytes) : Prop where
  ne_nil : p ≠ []
  name : ∀ name ∈ p, IsName 46 name ∧ slash ∉ name

/-- The text of an entry that globs are matched with. -/
def spelled (p : List Bytes) : Bytes := [slash].intercalate p

/-- What is documented of the crate: a line that is not taken matches nothing, the last line that
matches wins, `!` whitelists, and behind a leading slash a text without glob characters matches, at
the root of the matcher, what is spelled like it. -/
structure IgnoreCrate.Documented (crate : IgnoreCrate) : Prop where
  refused {line : String} {p : List Bytes} {isDir : Bool} :
    crate.addLine line = false → crate.glob line p isDir = false
  matched {lines : List String} {m : Gitignore} {p : List Bytes} {isDir : Bool} :
    crate.build lines = some m →
      m.matched p isDir = matchOf (decision (lineRule crate p isDir) lines)
  anchored {rel : List Char} {p : List Bytes} {isDir : Bool} :
    (∀ c ∈ rel, c ∉ globChars) → (∀ c ∈ rel.getLast?, isWhitespace c = false ∧ c ≠ '/') →
      crate.glob (String.ofList ('/' :: rel)) p isDir =
        decide (spelled p = utf8 (String.ofList rel))

/-! ## What patterns mean -/

/-- The names of a root from the top of the file system on: a relative root stands in the working
directory. -/
def rootNames (cwd root : Bytes) : List Bytes :=
  resolve 46 (if root.head? = some slash then byteNames root else byteNames cwd ++ byteNames root)

/-- The pattern matches the entry: an absolute path under the root matches the entry that it names,
one outside matches nothing, and another pattern matches as it does in a gitignore file. -/
def means (crate : IgnoreCrate) (cwd root : Bytes) (p : List Bytes) (isDir : Bool)
    (line : String) : Bool :=
  let body := patternBody line.toList
  if isAbsolute body then decide (resolve 46 (textNames body) = rootNames cwd root ++ p)
  else crate.glob line p isDir

def claimedRule (crate : IgnoreCrate) (cwd root : Bytes) (p : List Bytes) (isDir : Bool)
    (line : String) : Option Bool :=
  if means crate cwd root p isDir line then some (!negated line) else none

def readRule (crate : IgnoreCrate) (root : Bytes) (p : List Bytes) (isDir : Bool)
    (line : String) : Option Bool :=
  (normalizePattern root line).bind (lineRule crate p isDir)

def ignores (decided : Option Bool) : Bool := decided = some true

/-- The entry is ignored by the decision of the last pattern that matches it. -/
def meantToBeIgnored (crate : IgnoreCrate) (cwd root : Bytes) (patterns : List String)
    (p : List Bytes) (isDir : Bool) : Bool :=
  ignores (decision (claimedRule crate cwd root p isDir) patterns)

lemma isIgnored_eq {crate : IgnoreCrate} (hcrate : crate.Documented) {lines : List String}
    {m : Gitignore} (hbuild : crate.build lines = some m) (p : List Bytes) (isDir : Bool) :
    isIgnored m p isDir = ignores (decision (lineRule crate p isDir) lines) := by
  rw [isIgnored, hcrate.matched hbuild]
  cases decision (lineRule crate p isDir) lines with
  | none => rfl
  | some b => cases b <;> rfl

/-! ## Plain patterns -/

/-- A pattern that the matcher reads as it is meant, but for its sign: nothing is trimmed of it, and
an absolute path is spelled by its names alone, without glob characters and parent references. -/
structure PlainPattern (line : String) : Prop where
  ne_nil : line.toList ≠ []
  trimmed : trim line.toList = line.toList
  spelled : isAbsolute (patternBody line.toList) = true →
    ∀ part ∈ (patternBody line.toList).tail.splitOn '/', IsName '.' part ∧ part ≠ ['.', '.']
  noGlob : isAbsolute (patternBody line.toList) = true →
    ∀ c ∈ patternBody line.toList, c ∉ globChars

/-- Behind names there is nothing to skip. -/
lemma behindNames_of_names {parts : List (List Char)} (h : ∀ part ∈ parts, IsName '.' part)
    (k : ℕ) : behindNames k parts = parts.drop k := by
  induction parts generalizing k with
  | nil => simp [behindNames]
  | cons part parts ih =>
      have hpart := h part (List.mem_cons_self ..)
      cases k with
      | zero => simp [behindNames, hpart]
      | succ k =>
          rw [behindNames, if_pos hpart, List.drop_succ_cons]
          exact ih (fun q hq => h q (List.mem_cons_of_mem _ hq)) k

lemma rdropWhile_of_names {parts : List (List Char)} (h : ∀ part ∈ parts, IsName '.' part) :
    parts.rdropWhile (fun part => !decide (IsName '.' part)) = parts := by
  refine List.rdropWhile_eq_self_iff.mpr fun hne => ?_
  simpa using h _ (List.getLast_mem hne)

lemma utf8EncodeChar_slash : String.utf8EncodeChar '/' = [slash] := by decide

lemma slash_notMem_utf8 {part : List Char} (h : '/' ∉ part) :
    slash ∉ part.flatMap String.utf8EncodeChar := by
  intro hmem
  obtain ⟨x, y, hxy⟩ := List.append_of_mem hmem
  have hbytes : x ++ slash :: y = utf8 (String.ofList part) := by rw [utf8_ofList, hxy]
  have hfirst : slash.IsUTF8FirstByte := by decide
  obtain ⟨a, b, hab, -, hb⟩ := exists_append_of_utf8 hbytes (by simpa using hfirst)
  have hhead : (utf8 b).head? = some slash := by rw [hb, List.head?_cons]
  obtain ⟨cs, hcs⟩ := List.head?_eq_some_iff.mp ((@head?_utf8_iff b '/' rfl).mp hhead)
  have hpart : part = a.toList ++ b.toList := by
    rw [← String.toList_append, ← hab, String.toList_ofList]
  exact h (by simp [hpart, hcs])

lemma textNames_of_plain {rest : List Char} (h : ∀ part ∈ rest.splitOn '/', IsName '.' part) :
    textNames ('/' :: rest) =
      (rest.splitOn '/').map fun part => part.flatMap String.utf8EncodeChar := by
  rw [textNames, names_slash_cons, names_of_plain h]

lemma spelled_eq_iff {rest : List Char} {p : List Bytes} (hp : IsEntry p) (k : ℕ) :
    spelled p = utf8 (String.ofList (['/'].intercalate ((rest.splitOn '/').drop k))) ↔
      p = ((rest.splitOn '/').drop k).map fun part => part.flatMap String.utf8EncodeChar := by
  rw [utf8_ofList, flatMap_intercalate utf8EncodeChar_slash, spelled]
  refine intercalate_inj (fun name hname => ?_) (fun name hname => ?_) hp.ne_nil
  · exact ⟨(hp.name name hname).1.1, (hp.name name hname).2⟩
  · obtain ⟨part, hpart, rfl⟩ := List.mem_map.mp hname
    exact slash_notMem_utf8 (slash_notMem_of_mem_splitOn (List.mem_of_mem_drop hpart))

lemma isWhitespace_last {cs : List Char} (h : trim cs = cs) {c : Char} (hc : c ∈ cs.getLast?) :
    isWhitespace c = false := by
  have hfront : cs.dropWhile isWhitespace = cs := by
    refine (List.dropWhile_suffix _).eq_of_length (le_antisymm ?_ ?_)
    · exact (List.dropWhile_suffix _).length_le
    · have hlen := (@List.rdropWhile_prefix _ isWhitespace (cs.dropWhile isWhitespace)).length_le
      rwa [← trim, h] at hlen
  rw [trim, hfront, List.rdropWhile_eq_self_iff] at h
  obtain ⟨hne, rfl⟩ := List.mem_getLast?_eq_getLast hc
  simpa using h hne

lemma patternBody_suffix (cs : List Char) : patternBody cs <:+ cs := by
  unfold patternBody
  split
  · exact List.suffix_cons _ _
  · exact List.suffix_refl _

/-- What a plain absolute path ends in is literal text for the matcher. -/
lemma PlainPattern.literal {line : String} (h : PlainPattern line) {rest rel : List Char}
    (hbody : patternBody line.toList = '/' :: rest) (hrel : rel <:+ '/' :: rest) :
    (∀ c ∈ rel, c ∉ globChars) ∧ ∀ c ∈ rel.getLast?, isWhitespace c = false ∧ c ≠ '/' := by
  have habs : isAbsolute (patternBody line.toList) = true := by rw [hbody]; rfl
  have hspelled := h.spelled habs
  rw [hbody, List.tail_cons] at hspelled
  have hnames : ∀ part ∈ rest.splitOn '/', IsName '.' part := fun part hpart =>
    (hspelled part hpart).1
  refine ⟨fun c hc => h.noGlob habs c (by rw [hbody]; exact hrel.subset hc), fun c hc => ?_⟩
  have hrest : rest ≠ [] := by
    rintro rfl
    exact absurd (hnames [] (by simp)) not_isName_nil
  have hlast : c ∈ rest.getLast? := by
    obtain ⟨front, hfront⟩ := hrel
    have hne : rel ≠ [] := by
      rintro rfl
      simp at hc
    have hwhole : ('/' :: rest).getLast? = some c := by
      rw [← hfront, List.getLast?_append_of_ne_nil _ hne]
      exact hc
    rwa [List.getLast?_cons_of_ne_nil hrest] at hwhole
  constructor
  · refine isWhitespace_last h.trimmed ?_
    obtain ⟨front, hfront⟩ := patternBody_suffix line.toList
    rw [hbody] at hfront
    rw [← hfront, List.getLast?_append_of_ne_nil _ (List.cons_ne_nil '/' rest),
      List.getLast?_cons_of_ne_nil hrest]
    exact hlast
  · -- a slash at the end leaves an empty part behind it
    rintro rfl
    obtain ⟨front, hfront⟩ := List.getLast?_eq_some_iff.mp hlast
    refine absurd (hnames [] ?_) not_isName_nil
    rw [hfront, List.splitOn_append_cons_self, List.splitOn_nil]
    simp

lemma spelled_head_ne {p : List Bytes} (hp : IsEntry p) : (spelled p).head? ≠ some slash := by
  obtain ⟨name, names, rfl⟩ := List.exists_cons_of_ne_nil hp.ne_nil
  obtain ⟨hname, hslash⟩ := hp.name name (List.mem_cons_self ..)
  obtain ⟨b, bs, rfl⟩ := List.exists_cons_of_ne_nil hname.1
  have hb : b ≠ slash := fun heq => hslash (by simp [heq])
  cases names with
  | nil => simpa [spelled] using hb
  | cons name' names => simpa [spelled, List.intercalate_cons_cons] using hb

/-- Nothing is trimmed of a plain pattern. -/
lemma PlainPattern.normalize {line : String} (h : PlainPattern line) (root : Bytes) :
    normalizePattern root line =
      if isAbsolute (patternBody line.toList) then
        (stripPrefix root (patternBody line.toList)).map fun rel => String.ofList ('/' :: rel)
      else some line := by
  have hnil : trim line.toList ≠ [] := by
    rw [h.trimmed]
    exact h.ne_nil
  have hslash : ∀ rel : List Char,
      (if rel = [] then "/" else String.ofList ('/' :: rel)) = String.ofList ('/' :: rel) := by
    intro rel
    split_ifs with hrel
    · simp [hrel]
    · rfl
  rw [normalizePattern, if_neg hnil, h.trimmed, String.ofList_toList]
  simp only [hslash]

/-- Below a root, what is left of a path that is spelled by its names are the names behind those of
the root. -/
lemma stripPrefix_of_names {root : Bytes} {rest : List Char}
    (hnames : ∀ part ∈ rest.splitOn '/', IsName '.' part) :
    stripPrefix root ('/' :: rest) =
      if root = [] then some ('/' :: rest)
      else if root.head? = some slash ∧
          (byteNames root).isPrefixOf (textNames ('/' :: rest)) = true then
        some (['/'].intercalate ((rest.splitOn '/').drop (byteNames root).length))
      else none := by
  have hparts : ((('/' :: rest).splitOn '/').tail.rdropWhile
      fun part => !decide (IsName '.' part)) = rest.splitOn '/' := by
    have hsplit := @List.splitOn_append_cons_self _ _ _ '/' [] rest
    rw [List.nil_append, List.splitOn_nil, List.singleton_append] at hsplit
    rw [hsplit, List.tail_cons, rdropWhile_of_names hnames]
  rw [stripPrefix, hparts, List.intercalate_splitOn, behindNames_of_names hnames]

/-- Whatever is left of a plain absolute path is read as literal text, and as one to ignore. -/
lemma readRule_of_stripped {crate : IgnoreCrate} (hcrate : crate.Documented) {root : Bytes}
    {line : String} (h : PlainPattern line) {rest rel : List Char}
    (hbody : patternBody line.toList = '/' :: rest) (hrel : rel <:+ '/' :: rest)
    (hstrip : stripPrefix root ('/' :: rest) = some rel) (p : List Bytes) (isDir : Bool) :
    readRule crate root p isDir line =
      if decide (spelled p = utf8 (String.ofList rel)) then some true else none := by
  obtain ⟨hchars, hlast⟩ := h.literal hbody hrel
  have habs : isAbsolute ('/' :: rest) = true := by simp [isAbsolute]
  have hnormal : normalizePattern root line = some (String.ofList ('/' :: rel)) := by
    rw [h.normalize, hbody, habs, if_pos rfl, hstrip, Option.map_some]
  rw [readRule, hnormal, Option.bind_some, lineRule, hcrate.anchored hchars hlast]
  simp [negated]

lemma flatMap_utf8_ne_parent {part : List Char} (h : part ≠ ['.', '.']) :
    part.flatMap String.utf8EncodeChar ≠ [46, 46] := by
  intro hbytes
  have hutf8 : utf8 (String.ofList part) = utf8 ".." := by
    rw [utf8_ofList, hbytes]
    decide
  have hpart := congrArg String.toList (utf8_injective hutf8)
  rw [String.toList_ofList] at hpart
  exact h hpart

/-- The root is written as an absolute path, without parent references.  The default root of the
command line, `.`, is not one. -/
structure WrittenOut (root : Bytes) : Prop where
  head_eq : root.head? = some slash
  noParent : ∀ name ∈ byteNames root, name ≠ [46, 46]

lemma WrittenOut.rootNames_eq {root : Bytes} (h : WrittenOut root) (cwd : Bytes) :
    rootNames cwd root = byteNames root := by
  rw [rootNames, if_pos h.head_eq, resolve_of_plain h.noParent]

/-- A plain absolute path means the entry that its names are those of. -/
lemma PlainPattern.resolve_eq {line : String} (h : PlainPattern line) {rest : List Char}
    (hbody : patternBody line.toList = '/' :: rest) :
    (∀ part ∈ rest.splitOn '/', IsName '.' part) ∧
      (∀ name ∈ textNames ('/' :: rest), name ≠ [46, 46]) ∧
      resolve 46 (textNames ('/' :: rest)) = textNames ('/' :: rest) := by
  have habs : isAbsolute (patternBody line.toList) = true := by rw [hbody]; rfl
  have hspelled := h.spelled habs
  rw [hbody, List.tail_cons] at hspelled
  have hnames : ∀ part ∈ rest.splitOn '/', IsName '.' part := fun part hpart =>
    (hspelled part hpart).1
  have hparents : ∀ name ∈ textNames ('/' :: rest), name ≠ [46, 46] := by
    rw [textNames_of_plain hnames]
    intro name hname
    obtain ⟨part, hpart, rfl⟩ := List.mem_map.mp hname
    exact flatMap_utf8_ne_parent (hspelled part hpart).2
  exact ⟨hnames, hparents, resolve_of_plain hparents⟩

/-- Below a root that is written out, the matcher reads a plain pattern as it is meant, but an
absolute path always as one to ignore. -/
lemma readRule_of_plain {crate : IgnoreCrate} (hcrate : crate.Documented) {cwd root : Bytes}
    (hroot : WrittenOut root) {line : String} (h : PlainPattern line) {p : List Bytes}
    (hp : IsEntry p) (isDir : Bool) :
    readRule crate root p isDir line =
      if means crate cwd root p isDir line then
        some (!negated line || isAbsolute (patternBody line.toList))
      else none := by
  cases habs : isAbsolute (patternBody line.toList) with
  | false =>
      have hnormal : normalizePattern root line = some line := by
        rw [h.normalize, habs, if_neg Bool.false_ne_true]
      rw [readRule, hnormal, Option.bind_some, lineRule, means, habs, if_neg Bool.false_ne_true,
        Bool.or_false]
  | true =>
      obtain ⟨rest, hbody⟩ : ∃ rest, patternBody line.toList = '/' :: rest := by
        simpa [isAbsolute, List.head?_eq_some_iff] using habs
      obtain ⟨hnames, -, hresolve⟩ := h.resolve_eq hbody
      have hstrip := @stripPrefix_of_names root rest hnames
      have hne : root ≠ [] := by
        rintro rfl
        cases hroot.head_eq
      have hmeans : means crate cwd root p isDir line =
          decide (textNames ('/' :: rest) = byteNames root ++ p) := by
        rw [means, habs, if_pos rfl, hbody, hresolve, hroot.rootNames_eq]
      rw [hmeans, Bool.or_true]
      rw [if_neg hne] at hstrip
      by_cases hunder : (byteNames root).isPrefixOf (textNames ('/' :: rest)) = true
      · rw [if_pos ⟨hroot.head_eq, hunder⟩] at hstrip
        have hsuffix : ['/'].intercalate ((rest.splitOn '/').drop (byteNames root).length) <:+
            '/' :: rest := by
          refine List.IsSuffix.trans ?_ (List.suffix_cons _ _)
          have hdrop := @intercalate_drop_suffix _ '/' (byteNames root).length (rest.splitOn '/')
          rwa [List.intercalate_splitOn] at hdrop
        rw [readRule_of_stripped hcrate h hbody hsuffix hstrip]
        have hiff : spelled p = utf8 (String.ofList
            (['/'].intercalate ((rest.splitOn '/').drop (byteNames root).length))) ↔
              textNames ('/' :: rest) = byteNames root ++ p := by
          rw [spelled_eq_iff hp, textNames_of_plain hnames, List.map_drop,
            ← textNames_of_plain hnames]
          obtain ⟨q, hq⟩ := List.isPrefixOf_iff_prefix.mp hunder
          rw [← hq, List.drop_left, List.append_cancel_left_eq, eq_comm]
        simp [hiff]
      · rw [if_neg fun hboth => hunder hboth.2] at hstrip
        have hnormal : normalizePattern root line = none := by
          rw [h.normalize, habs, if_pos rfl, hbody, hstrip, Option.map_none]
        have hmean : ¬ textNames ('/' :: rest) = byteNames root ++ p := by
          intro hpath
          refine hunder ?_
          rw [hpath]
          simp
        rw [readRule, hnormal, Option.bind_none]
        simp [hmean]

/-- Below another root no plain absolute path is recognized. -/
lemma readRule_of_not_writtenOut {crate : IgnoreCrate} (hcrate : crate.Documented) {root : Bytes}
    (hroot : ¬ WrittenOut root) {line : String} (h : PlainPattern line)
    (habs : isAbsolute (patternBody line.toList) = true) {p : List Bytes} (hp : IsEntry p)
    (isDir : Bool) : readRule crate root p isDir line = none := by
  obtain ⟨rest, hbody⟩ : ∃ rest, patternBody line.toList = '/' :: rest := by
    simpa [isAbsolute, List.head?_eq_some_iff] using habs
  obtain ⟨hnames, hparents, -⟩ := h.resolve_eq hbody
  have hstrip := @stripPrefix_of_names root rest hnames
  by_cases hnil : root = []
  · -- the whole path is left, and no entry is spelled like it
    rw [if_pos hnil] at hstrip
    have hne : spelled p ≠ utf8 (String.ofList ('/' :: rest)) := by
      intro heq
      refine spelled_head_ne hp ?_
      rw [heq, utf8_ofList, List.flatMap_cons, utf8EncodeChar_slash]
      rfl
    rw [readRule_of_stripped hcrate h hbody (List.suffix_refl _) hstrip, decide_eq_false hne]
    rfl
  · have hunder : ¬ (root.head? = some slash ∧
        (byteNames root).isPrefixOf (textNames ('/' :: rest)) = true) := by
      rintro ⟨hhead, hprefix⟩
      refine hroot ⟨hhead, fun name hname => hparents name ?_⟩
      exact (List.isPrefixOf_iff_prefix.mp hprefix).subset hname
    rw [if_neg hnil, if_neg hunder] at hstrip
    rw [readRule, h.normalize, habs, if_pos rfl, hbody, hstrip]
    rfl

/-- The matcher reads the pattern as it is meant: it is plain, and if it is an absolute path under
the root, it has no `!` and the root is written out. -/
structure WellRead (cwd root : Bytes) (line : String) : Prop where
  plain : PlainPattern line
  under : isAbsolute (patternBody line.toList) = true →
    rootNames cwd root <+: resolve 46 (textNames (patternBody line.toList)) →
      negated line = false ∧ WrittenOut root

lemma WellRead.rule_eq {crate : IgnoreCrate} (hcrate : crate.Documented) {cwd root : Bytes}
    {line : String} (h : WellRead cwd root line) {p : List Bytes} (hp : IsEntry p) (isDir : Bool) :
    readRule crate root p isDir line = claimedRule crate cwd root p isDir line := by
  rw [claimedRule]
  by_cases hroot : WrittenOut root
  · rw [@readRule_of_plain crate hcrate cwd root hroot line h.plain p hp isDir]
    cases habs : isAbsolute (patternBody line.toList) with
    | false => rw [Bool.or_false]
    | true =>
        by_cases hmeans : means crate cwd root p isDir line = true
        · have hnames := hmeans
          rw [means, habs, if_pos rfl, decide_eq_true_eq] at hnames
          have hsign := (h.under habs (hnames ▸ List.prefix_append _ _)).1
          rw [hsign, Bool.or_true]
          rfl
        · rw [if_neg hmeans, if_neg hmeans]
  · cases habs : isAbsolute (patternBody line.toList) with
    | false =>
        have hnormal : normalizePattern root line = some line := by
          rw [h.plain.normalize, habs, if_neg Bool.false_ne_true]
        rw [readRule, hnormal, Option.bind_some, lineRule, means, habs, if_neg Bool.false_ne_true]
    | true =>
        have hmeans : ¬ means crate cwd root p isDir line = true := by
          intro hmeans
          rw [means, habs, if_pos rfl, decide_eq_true_eq] at hmeans
          exact hroot (h.under habs (hmeans ▸ List.prefix_append _ _)).2
        rw [readRule_of_not_writtenOut hcrate hroot h.plain habs hp, if_neg hmeans]

/-! ## What is ignored -/

/-- The patterns come to a matcher, or there is none.  One line that the crate refuses is passed
over; a set of lines that it cannot compile together leaves no matcher at all. -/
def Builds (crate : IgnoreCrate) (root : Bytes) (patterns : List String) : Prop :=
  patterns = [] ∨ (compileIgnoreMatcher crate root patterns).isSome = true

/-- The pattern is an absolute path behind a `!`. -/
def NegatedAbsolute (line : String) : Prop :=
  negated line = true ∧ isAbsolute (patternBody line.toList) = true

/-- A matcher that is built decides by what it reads. -/
lemma settingsIgnore_of_builds {crate : IgnoreCrate} (hcrate : crate.Documented) {root : Bytes}
    {patterns : List String} (hbuilds : Builds crate root patterns) (p : List Bytes)
    (isDir : Bool) : settingsIgnore (compileIgnoreMatcher crate root patterns) p isDir =
      ignores (decision (readRule crate root p isDir) patterns) := by
  by_cases hnil : patterns = []
  · subst hnil
    rfl
  · obtain ⟨m, hm⟩ := Option.isSome_iff_exists.mp (hbuilds.resolve_left hnil)
    rw [hm]
    rw [compileIgnoreMatcher, if_neg hnil] at hm
    have hrefused : ∀ line ∈ patterns.filterMap (normalizePattern root),
        crate.addLine line = false → lineRule crate p isDir line = none := by
      intro line _ hline
      simp [lineRule, hcrate.refused hline]
    show isIgnored m p isDir = _
    rw [isIgnored_eq hcrate hm, decision_filter hrefused, decision_filterMap]
    rfl

/-- The line that the matcher has for a pattern matches the entry. -/
def matchesAs (crate : IgnoreCrate) (root : Bytes) (p : List Bytes) (isDir : Bool)
    (line : String) : Bool :=
  (normalizePattern root line).any fun line => crate.glob line p isDir

lemma readRule_eq_none_iff {crate : IgnoreCrate} {root : Bytes} {p : List Bytes} {isDir : Bool}
    {line : String} :
    readRule crate root p isDir line = none ↔ matchesAs crate root p isDir line = false := by
  rw [readRule, matchesAs]
  cases normalizePattern root line with
  | none => simp
  | some line => simp [lineRule]

lemma claimedRule_eq_none_iff {crate : IgnoreCrate} {cwd root : Bytes} {p : List Bytes}
    {isDir : Bool} {line : String} :
    claimedRule crate cwd root p isDir line = none ↔
      means crate cwd root p isDir line = false := by
  simp [claimedRule]

/-- The last pattern that matches the entry, by its meaning or as the matcher has it, is well
read. -/
def LastWellRead (crate : IgnoreCrate) (cwd root : Bytes) (patterns : List String) (p : List Bytes)
    (isDir : Bool) : Prop :=
  ∀ init line rest, patterns = init ++ line :: rest →
    (∀ l ∈ rest, means crate cwd root p isDir l = false ∧
      matchesAs crate root p isDir l = false) →
    means crate cwd root p isDir line = true ∨ matchesAs crate root p isDir line = true →
      WellRead cwd root line

/-- A plain pattern that matches an entry decides as it is meant, unless it is a negated absolute
path. -/
lemma agreeAt_of_plain {crate : IgnoreCrate} (hcrate : crate.Documented) {cwd root : Bytes}
    (hroot : WrittenOut root) {line : String} (h : PlainPattern line) {p : List Bytes}
    (hp : IsEntry p) (isDir : Bool) (init : List String) :
    AgreeAt ignores (readRule crate root p isDir) (claimedRule crate cwd root p isDir) init line ↔
      (means crate cwd root p isDir line = true → ¬NegatedAbsolute line) := by
  rw [AgreeAt, @readRule_of_plain crate hcrate cwd root hroot line h p hp isDir, claimedRule]
  cases means crate cwd root p isDir line with
  | false => simp
  | true =>
      rw [NegatedAbsolute]
      cases negated line <;> cases isAbsolute (patternBody line.toList) <;> simp [ignores]

/-- The gitignore meaning of a name, and of a path with a slash in front. -/
def nameGlob (line : String) (p : List Bytes) (_ : Bool) : Bool :=
  match patternBody line.toList with
  | '/' :: rel => decide (spelled p = utf8 (String.ofList rel))
  | name => decide (p.getLast? = some (utf8 (String.ofList name)))

/-- The crate, as it reads names and paths with a slash in front. -/
def nameCrate : IgnoreCrate where
  addLine _ := true
  glob := nameGlob
  build lines := some ⟨fun p isDir => matchOf (decision
    (fun line => if nameGlob line p isDir then some (!negated line) else none) lines)⟩

lemma nameCrate_documented : nameCrate.Documented where
  refused h := absurd h (by simp [nameCrate])
  matched h := by
    obtain rfl := Option.some.inj h
    rfl
  anchored _ _ := by simp [nameCrate, nameGlob, patternBody]

end DeepFinder
