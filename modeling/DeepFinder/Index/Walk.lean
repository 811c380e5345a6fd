import DeepFinder.Content.Lines
import DeepFinder.Content.OverlayVersion
import DeepFinder.Index.Registry
import DeepFinder.Lib.FileTree
import Mathlib.Data.List.TakeWhile

/-!
# The walk of an index build

The file tree below an indexed root, the text gate, and the visitor that decides for every entry
of the walk whether it is recorded and whether the walk descends.  Which entries the `ignore` crate
lists at all, and what a compiled settings matcher says of a path, are parameters.

The walk is sequential here; the source's threads share the work, and only the order of the records
depends on that.  Of a file the walk reads what the tree has of it at one time.
-/

namespace DeepFinder

open ByteString

/-! ## Files -/

/-- The length of a file, and when it was last changed, in seconds since the epoch. -/
structure FileStat where
  len : UInt64
  modified : Option UInt64
  deriving DecidableEq, Repr

/-- `len() as i64`. -/
def FileStat.size (s : FileStat) : Int64 := s.len.toInt64

/-- The seconds `as i64`, 0 when there are none. -/
def FileStat.mtime (s : FileStat) : Int64 := (s.modified.map UInt64.toInt64).getD 0

/-- `fs::metadata`, which follows links. -/
structure Metadata where
  isDir : Bool
  isFile : Bool
  stat : FileStat
  deriving DecidableEq, Repr

/-- What `fs::metadata` and `fs::read` answer about a path. -/
structure Target where
  metadata : Metadata
  data : Option Bytes
  deriving DecidableEq, Repr

/-- An entry whose own entries, if any, cannot be listed. -/
inductive FileKind where
  | file (stat : FileStat) (data : Option Bytes)
  /-- a symbolic link, dangling when it has no target -/
  | link (own : FileStat) (target : Option Target)
  | special (stat : FileStat)
  /-- a directory that may not be read -/
  | lockedDir (stat : FileStat)
  /-- an entry of a directory that may be read but not searched -/
  | hiddenStat (isDir : Bool)
  deriving DecidableEq, Repr

abbrev FileNode := FileTree Bytes FileKind FileStat

/-- `entry.file_type()` is a directory. -/
def nodeIsDir : FileNode → Bool
  | .dir _ _ => true
  | .leaf (.lockedDir _) => true
  | .leaf (.hiddenStat isDir) => isDir
  | .leaf _ => false

/-- `entry.metadata()`, which does not follow links. -/
def nodeOwnStat : FileNode → Option FileStat
  | .dir stat _ => some stat
  | .leaf (.file stat _) => some stat
  | .leaf (.link own _) => some own
  | .leaf (.special stat) => some stat
  | .leaf (.lockedDir stat) => some stat
  | .leaf (.hiddenStat _) => none

/-- What `fs::metadata` and `fs::read` answer about the path of an entry. -/
def nodeTarget : FileNode → Option Target
  | .dir stat _ => some ⟨⟨true, false, stat⟩, none⟩
  | .leaf (.file stat data) => some ⟨⟨false, true, stat⟩, data⟩
  | .leaf (.link _ target) => target
  | .leaf (.special stat) => some ⟨⟨false, false, stat⟩, none⟩
  | .leaf (.lockedDir stat) => some ⟨⟨true, false, stat⟩, none⟩
  | .leaf (.hiddenStat _) => none

/-- `/`. -/
def slash : UInt8 := 47

/-- `Path::join` with a relative component. -/
def joinName (path name : Bytes) : Bytes :=
  if path = [] ∨ path.getLast? = some slash then path ++ name else path ++ slash :: name

def pathBytes (root : Bytes) (p : List Bytes) : Bytes := p.foldl joinName root

/-- `to_string_lossy`. -/
def toStringLossy (bs : Bytes) : String := (fromUtf8 bs).getD (fromUtf8Lossy bs)

/-- The files below a root. -/
structure FileSystem where
  root : Bytes
  /-- `file_name` of the root -/
  rootName : Bytes
  tree : FileNode
  names_nodup : tree.NamesNodup
  names_valid : tree.AllNames fun name => name ≠ [] ∧ slash ∉ name

/-- `file_name` of an entry. -/
def FileSystem.entryName (fs : FileSystem) (p : List Bytes) : Bytes := p.getLast?.getD fs.rootName

/-- `fs::metadata` and `fs::read` of a path below the root. -/
def FileSystem.target (fs : FileSystem) (p : List Bytes) : Option Target :=
  (fs.tree.resolve p).bind nodeTarget

/-! ## The text gate -/

/-- `ContentDecision`. -/
inductive ContentDecision where
  | text (bytes : Bytes)
  | binary
  | tooLarge
  | unreadable
  deriving DecidableEq, Repr

/-- `NUL_SCAN_BYTES`. -/
def nulScanBytes : ℕ := 8 * 1024

/-- `TRIGRAM_MAX`. -/
def trigramMax : ℕ := 20000

/-- `distinct_trigrams`. -/
def distinctTrigrams (bytes : Bytes) : ℕ := (trigrams (fold bytes)).length

/-- `classify`. -/
def classify (target : Option Target) (maxFileSize : ℕ) : ContentDecision :=
  match target with
  | none => .unreadable
  | some t =>
      if !t.metadata.isFile then .unreadable
      else if maxFileSize < t.metadata.stat.len.toNat then .tooLarge
      else match t.data with
        | none => .unreadable
        | some bytes =>
            let bytes := bytes.take maxFileSize
            if (bytes.take nulScanBytes).contains 0 then .binary
            else if 3 ≤ bytes.length ∧ trigramMax < distinctTrigrams bytes then .binary
            else .text bytes

def ContentDecision.bytes? : ContentDecision → Option Bytes
  | .text bytes => some bytes
  | _ => none

/-! ## The visitor -/

/-- `Match` of the ignore crate. -/
inductive IgnoreMatch where
  | none
  | ignore
  | whitelist
  deriving DecidableEq, Repr

/-- `Gitignore`: what `matched` says of a path below the root, given whether it is a directory. -/
structure Gitignore where
  matched : List Bytes → Bool → IgnoreMatch

/-- `is_ignored`. -/
def isIgnored (matcher : Gitignore) (p : List Bytes) (isDir : Bool) : Bool :=
  decide (matcher.matched p isDir = .ignore)

/-- What a walk asks of the ignore crate and of `settings.json`. -/
structure WalkEnv where
  /-- the walker's `standard_filters` let an entry through, given whether they skip hidden files -/
  standard : Bool → List Bytes → Bool → Bool
  /-- an entry lies on another device than the root -/
  otherDevice : List Bytes → Bool
  /-- `compile_ignore_matcher` of the settings -/
  ignoreMatcher : Option Gitignore

def WalkEnv.ignores (env : WalkEnv) (p : List Bytes) (isDir : Bool) : Bool :=
  (env.ignoreMatcher.map fun m => isIgnored m p isDir).getD false

/-- `DEFAULT_SKIP`. -/
def defaultSkip : List String :=
  ["node_modules", "target", "build", "dist", ".next", "__pycache__", ".venv"]

def ContentBuildOptions.skip (opts : ContentBuildOptions) : List String :=
  opts.extraSkip.foldl (fun skip e => if e ≠ "" ∧ e ∉ skip then skip ++ [e] else skip) defaultSkip

/-- `WalkState`, as far as the visitor returns it while its consumer listens. -/
inductive WalkState where
  | next
  | skip
  deriving DecidableEq, Repr

/-- `BuildRec`. -/
structure BuildRec where
  path : String
  isDir : Bool
  size : Int64
  mtime : Int64
  content : Option Bytes
  deriving DecidableEq, Repr

def BuildRec.version (r : BuildRec) : FileVersion := ⟨⟨r.isDir, r.size, r.mtime⟩, r.content⟩

/-- What the build records of an entry that it admits. -/
def buildRecOf (opts : ContentBuildOptions) (path : String) (u : FileNode) : BuildRec where
  path := path
  isDir := nodeIsDir u
  size := ((nodeOwnStat u).map FileStat.size).getD 0
  mtime := ((nodeOwnStat u).map FileStat.mtime).getD 0
  content := if nodeIsDir u then none else (classify (nodeTarget u) opts.maxFileSize).bytes?

/-- The visitor of the build walk: where the walk goes next, and the record it sends. -/
def visitEntry (env : WalkEnv) (opts : ContentBuildOptions) (fs : FileSystem) (p : List Bytes)
    (u : FileNode) : WalkState × Option BuildRec :=
  if nodeIsDir u && opts.skip.contains (toStringLossy (fs.entryName p)) then (.skip, none)
  else match fromUtf8 (pathBytes fs.root p) with
    | none => (.next, none)
    | some path =>
        if env.ignores p (nodeIsDir u) then (if nodeIsDir u then .skip else .next, none)
        else (.next, some (buildRecOf opts path u))

def buildWalk (env : WalkEnv) (opts : ContentBuildOptions) (fs : FileSystem) :
    List (List Bytes × FileNode) :=
  fs.tree.walk (fun p u => env.standard (!opts.hidden) p (nodeIsDir u))
    (fun p u => decide ((visitEntry env opts fs p u).1 = .next) &&
      !(opts.oneFileSystem && env.otherDevice p)) []

/-- The records that the build sends to its consumer. -/
def buildRecs (env : WalkEnv) (opts : ContentBuildOptions) (fs : FileSystem) : List BuildRec :=
  (buildWalk env opts fs).filterMap fun e => (visitEntry env opts fs e.1 e.2).2

/-! ## Paths -/

section Paths

variable {p q : List Bytes} {root : Bytes}

lemma joinName_ne_nil {path name : Bytes} (hname : name ≠ []) : joinName path name ≠ [] := by
  unfold joinName
  split
  · exact fun h => hname (List.append_eq_nil_iff.mp h).2
  · simp

lemma joinName_getLast {path name : Bytes} (hname : name ≠ [] ∧ slash ∉ name) :
    (joinName path name).getLast? ≠ some slash := by
  have hlast : name.getLast? ≠ some slash := fun h => hname.2 (List.mem_of_getLast? h)
  unfold joinName
  split
  · rw [List.getLast?_append_of_ne_nil _ hname.1]
    exact hlast
  · rw [List.getLast?_append_of_ne_nil _ (List.cons_ne_nil _ _)]
    obtain ⟨b, bs, hb⟩ := List.exists_cons_of_ne_nil hname.1
    rw [hb] at hlast ⊢
    rwa [List.getLast?_cons_cons]

lemma foldl_joinName {path : Bytes} (hpath : path ≠ []) (hlast : path.getLast? ≠ some slash)
    (hp : ∀ name ∈ p, name ≠ [] ∧ slash ∉ name) :
    p.foldl joinName path = path ++ p.flatMap fun name => slash :: name := by
  induction p generalizing path with
  | nil => simp
  | cons name p ih =>
      have hname := hp name (List.mem_cons_self ..)
      rw [List.foldl_cons, ih (joinName_ne_nil hname.1) (joinName_getLast hname)
        fun n hn => hp n (List.mem_cons_of_mem _ hn), joinName, if_neg (not_or.mpr ⟨hpath, hlast⟩)]
      simp

/-- Components are read back at the slashes. -/
lemma append_slashes_inj {name name' : Bytes} (hname : slash ∉ name) (hname' : slash ∉ name')
    (hp : ∀ n ∈ p, slash ∉ n) (hq : ∀ n ∈ q, slash ∉ n)
    (h : name ++ p.flatMap (fun n => slash :: n) = name' ++ q.flatMap fun n => slash :: n) :
    name :: p = name' :: q := by
  have hstop : ∀ (l : List Bytes), (l.flatMap fun n => slash :: n).takeWhile (· ≠ slash) = [] := by
    intro l
    cases l with
    | nil => rfl
    | cons n l => simp
  have hself : ∀ n : Bytes, slash ∉ n → n.takeWhile (· ≠ slash) = n := by
    intro n hn
    rw [List.takeWhile_eq_self_iff]
    intro b hb
    exact decide_eq_true fun hslash => hn (hslash ▸ hb)
  have hfirst : ∀ (n : Bytes) (l : List Bytes), slash ∉ n →
      (n ++ l.flatMap fun n => slash :: n).takeWhile (· ≠ slash) = n := by
    intro n l hn
    rw [List.takeWhile_append, hself n hn, if_pos rfl, hstop, List.append_nil]
  have hnames : name = name' := by
    rw [← hfirst name p hname, h, hfirst name' q hname']
  subst hnames
  refine congrArg _ ?_
  have htail := List.append_cancel_left h
  clear h hname hname'
  induction p generalizing q with
  | nil =>
      cases q with
      | nil => rfl
      | cons n q => simp at htail
  | cons n p ih =>
      cases q with
      | nil => simp at htail
      | cons m q =>
          rw [List.flatMap_cons, List.flatMap_cons, List.cons_append, List.cons_append] at htail
          have htail := (List.cons.inj htail).2
          have hn := hp n (List.mem_cons_self ..)
          have hm := hq m (List.mem_cons_self ..)
          have hnm : n = m := by
            rw [← hfirst n p hn, htail, hfirst m q hm]
          subst hnm
          refine congrArg _ (ih (fun x hx => hp x (List.mem_cons_of_mem _ hx))
            (fun x hx => hq x (List.mem_cons_of_mem _ hx)) (List.append_cancel_left htail))

/-- Different entries have different paths. -/
lemma pathBytes_inj (hp : ∀ name ∈ p, name ≠ [] ∧ slash ∉ name)
    (hq : ∀ name ∈ q, name ≠ [] ∧ slash ∉ name) (h : pathBytes root p = pathBytes root q) :
    p = q := by
  have hform : ∀ (n : Bytes) (l : List Bytes), (∀ name ∈ n :: l, name ≠ [] ∧ slash ∉ name) →
      ∃ sep : Bytes, pathBytes root (n :: l) =
          (root ++ sep) ++ (n ++ l.flatMap fun n => slash :: n) ∧
        sep = if root = [] ∨ root.getLast? = some slash then [] else [slash] := by
    intro n l hl
    have hn := hl n (List.mem_cons_self ..)
    refine ⟨_, ?_, rfl⟩
    rw [pathBytes, List.foldl_cons, foldl_joinName (joinName_ne_nil hn.1) (joinName_getLast hn)
      fun x hx => hl x (List.mem_cons_of_mem _ hx), joinName]
    split
    · simp
    · simp
  have hlonger : ∀ (n : Bytes) (l : List Bytes), (∀ name ∈ n :: l, name ≠ [] ∧ slash ∉ name) →
      pathBytes root (n :: l) ≠ root := by
    intro n l hl heq
    obtain ⟨sep, hpath, -⟩ := hform n l hl
    have hlen := congrArg List.length (hpath.symm.trans heq)
    have hn := List.length_pos_iff.mpr (hl n (List.mem_cons_self ..)).1
    simp only [List.length_append] at hlen
    omega
  cases p with
  | nil =>
      cases q with
      | nil => rfl
      | cons m q => exact absurd h.symm (hlonger m q hq)
  | cons n p =>
      cases q with
      | nil => exact absurd h (hlonger n p hp)
      | cons m q =>
          obtain ⟨sep, hpn, hsep⟩ := hform n p hp
          obtain ⟨sep', hqm, hsep'⟩ := hform m q hq
          rw [hpn, hqm, hsep, hsep'] at h
          exact append_slashes_inj (hp n (List.mem_cons_self ..)).2 (hq m (List.mem_cons_self ..)).2
            (fun x hx => (hp x (List.mem_cons_of_mem _ hx)).2)
            (fun x hx => (hq x (List.mem_cons_of_mem _ hx)).2) (List.append_cancel_left h)

end Paths

/-! ## What the build records -/

section Build

variable {env : WalkEnv} {opts : ContentBuildOptions} {fs : FileSystem} {p : List Bytes}
  {u : FileNode}

/-- The build walk comes to an entry: no directory above it is pruned, and the walker's own filters
drop neither it nor a directory above it. -/
structure Listed (env : WalkEnv) (opts : ContentBuildOptions) (fs : FileSystem) (p : List Bytes)
    (u : FileNode) : Prop where
  resolves : fs.tree.resolve p = some u
  entered : ∀ q r v, p = q ++ r → r ≠ [] → fs.tree.resolve q = some v →
    (visitEntry env opts fs q v).1 = .next ∧ (opts.oneFileSystem && env.otherDevice q) = false
  standard : ∀ q r v, p = q ++ r → q ≠ [] → fs.tree.resolve q = some v →
    env.standard (!opts.hidden) q (nodeIsDir v) = true

lemma mem_buildWalk : (p, u) ∈ buildWalk env opts fs ↔ Listed env opts fs p u := by
  rw [buildWalk, FileTree.mem_walk_iff fs.names_nodup]
  constructor
  · rintro ⟨hres, hent, hlist⟩
    refine ⟨hres, fun q r v hp hr hq => ?_, hlist⟩
    have henter := hent q r v hp hr hq
    rw [Bool.and_eq_true, Bool.not_eq_true'] at henter
    exact ⟨of_decide_eq_true henter.1, henter.2⟩
  · intro h
    refine ⟨h.resolves, fun q r v hp hr hq => ?_, h.standard⟩
    obtain ⟨hnext, hdevice⟩ := h.entered q r v hp hr hq
    rw [Bool.and_eq_true, Bool.not_eq_true']
    exact ⟨decide_eq_true hnext, hdevice⟩

/-- What the visitor records: an entry whose name is not skipped, whose path is text, and that the
settings do not ignore. -/
lemma visitEntry_snd {r : BuildRec} :
    (visitEntry env opts fs p u).2 = some r ↔
      (nodeIsDir u && opts.skip.contains (toStringLossy (fs.entryName p))) = false ∧
      env.ignores p (nodeIsDir u) = false ∧
      ∃ path, fromUtf8 (pathBytes fs.root p) = some path ∧ buildRecOf opts path u = r := by
  unfold visitEntry
  split
  · rename_i hskip
    exact iff_of_false (fun h => nomatch h) fun h => absurd (hskip.symm.trans h.1) (by decide)
  · rename_i hskip
    rw [Bool.not_eq_true] at hskip
    split
    · rename_i hpath
      refine iff_of_false (fun h => nomatch h) ?_
      rintro ⟨-, -, path, hsome, -⟩
      rw [hpath] at hsome
      cases hsome
    · rename_i path hpath
      split
      · rename_i hignored
        refine iff_of_false (fun h => nomatch h) ?_
        rintro ⟨-, hnot, -⟩
        rw [hnot] at hignored
        cases hignored
      · rename_i hignored
        rw [Bool.not_eq_true] at hignored
        constructor
        · intro h
          exact ⟨hskip, hignored, path, hpath, Option.some.inj h⟩
        · rintro ⟨-, -, path', hpath', rfl⟩
          rw [hpath] at hpath'
          rw [Option.some.inj hpath']

/-- The record that the build makes of an entry, if any. -/
def buildRecAt (env : WalkEnv) (opts : ContentBuildOptions) (fs : FileSystem) (p : List Bytes) :
    Option BuildRec :=
  ((buildWalk env opts fs).find? fun e => decide (e.1 = p)).bind fun e =>
    (visitEntry env opts fs p e.2).2

lemma buildRecAt_eq_some {r : BuildRec} :
    buildRecAt env opts fs p = some r ↔
      ∃ u, Listed env opts fs p u ∧ (visitEntry env opts fs p u).2 = some r := by
  rw [buildRecAt, Option.bind_eq_some_iff]
  constructor
  · rintro ⟨⟨q, u⟩, hfind, hvisit⟩
    have hq : q = p := by simpa using List.find?_some hfind
    subst hq
    exact ⟨u, mem_buildWalk.mp (List.mem_of_find?_eq_some hfind), hvisit⟩
  · rintro ⟨u, hlisted, hvisit⟩
    have hmem := mem_buildWalk.mpr hlisted
    cases hfind : (buildWalk env opts fs).find? fun e => decide (e.1 = p) with
    | none =>
        have hnot := List.find?_eq_none.mp hfind _ hmem
        exact absurd (decide_eq_true rfl) hnot
    | some e =>
        obtain ⟨q, v⟩ := e
        have hq : q = p := by simpa using List.find?_some hfind
        subst hq
        have hv := (mem_buildWalk.mp (List.mem_of_find?_eq_some hfind)).resolves
        rw [hlisted.resolves] at hv
        obtain rfl := Option.some.inj hv
        exact ⟨_, rfl, hvisit⟩

/-- The build sends the record of an entry, under the entry's path, and no other under that path. -/
theorem mem_buildRecs_iff {r : BuildRec} {path : String}
    (hp : ∀ name ∈ p, name ≠ [] ∧ slash ∉ name)
    (hpath : fromUtf8 (pathBytes fs.root p) = some path) :
    (r ∈ buildRecs env opts fs ∧ r.path = path) ↔ buildRecAt env opts fs p = some r := by
  rw [buildRecAt_eq_some, buildRecs, List.mem_filterMap]
  constructor
  · rintro ⟨⟨⟨q, v⟩, hmem, hvisit⟩, hsame⟩
    have hlisted := mem_buildWalk.mp hmem
    obtain ⟨-, -, path', hpath', hrec⟩ := visitEntry_snd.mp hvisit
    have hpq : pathBytes fs.root q = pathBytes fs.root p := by
      rw [← utf8_of_fromUtf8 hpath', ← utf8_of_fromUtf8 hpath, ← hsame, ← hrec]
      rfl
    obtain rfl := pathBytes_inj (fs.names_valid.of_resolve hlisted.resolves) hp hpq
    exact ⟨v, hlisted, hvisit⟩
  · rintro ⟨v, hlisted, hvisit⟩
    refine ⟨⟨(p, v), mem_buildWalk.mpr hlisted, hvisit⟩, ?_⟩
    obtain ⟨-, -, path', hpath', hrec⟩ := visitEntry_snd.mp hvisit
    rw [hpath] at hpath'
    rw [← hrec, Option.some.inj hpath']
    rfl

end Build

end DeepFinder
