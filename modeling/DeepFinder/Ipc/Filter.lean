import DeepFinder.Core.Scope
import DeepFinder.Ipc.Proto

/-!
# Post-query filters

Extension, type, glob and depth filters on a path, and the literal atom of a regex that drives
its candidate search.

The loop of `glob_impl` runs on fuel that no match exhausts, and the scan for the atom on fuel for
the characters of the regex.  `Ipc/Glob.lean` says what a pattern means, `Ipc/GlobLoop.lean` counts
the rounds of the loop in the source's own variables, and `Ipc/RegexAtom.lean` says which regexes
the atom is sound for.
-/

namespace DeepFinder

open ByteString

/-- `type_extensions`. -/
def typeExtensions (category : String) : Option (List String) :=
  match category with
  | "code" => some [
      "rs", "go", "py", "js", "mjs", "cjs", "ts", "jsx", "tsx", "c", "h", "cpp", "cc", "cxx",
      "hpp", "hh", "java", "kt", "kts", "scala", "rb", "pl", "pm", "php", "swift", "m", "mm",
      "sh", "bash", "zsh", "fish", "lua", "r", "jl", "ex", "exs", "erl", "hs", "lhs", "ml",
      "mli", "clj", "cljs", "cljc", "vim", "el", "lisp", "scm", "sql"]
  | "docs" => some ["md", "markdown", "rst", "txt", "tex", "adoc", "asciidoc", "org", "pdf"]
  | "config" => some [
      "toml", "yaml", "yml", "json", "json5", "ini", "cfg", "conf", "xml", "env"]
  | "web" => some ["html", "htm", "css", "scss", "sass", "less", "vue", "svelte"]
  | "archive" => some ["zip", "tar", "gz", "tgz", "bz2", "xz", "zst", "7z", "rar", "lz"]
  | "media" => some [
      "png", "jpg", "jpeg", "gif", "bmp", "tiff", "tif", "svg", "ico", "webp", "mp3", "wav",
      "flac", "aac", "ogg", "mp4", "mkv", "webm", "avi", "mov", "m4a", "m4v"]
  | _ => none

/-! ## Globs -/

/-- `*` and `?`. -/
def starByte : UInt8 := 42
def questionByte : UInt8 := 63

/-- The loop of `glob_impl`, with the last star and the text position it was tried at; the
outcome is `none` when fuel runs out, and otherwise where the loop over the text left the
pattern, if it did not fail. -/
def globLoop (pat text : Bytes) : ℕ → ℕ → ℕ → Option (ℕ × ℕ) → Option (Option ℕ)
  | 0, _, _, _ => none
  | fuel + 1, pi, ti, star =>
      match text[ti]? with
      | none => some (some pi)
      | some c =>
          if (pat[pi]?).any fun p => p == questionByte || p == c then
            globLoop pat text fuel (pi + 1) (ti + 1) star
          else if pat[pi]? = some starByte then
            globLoop pat text fuel (pi + 1) ti (some (pi, ti))
          else
            match star with
            | some (sp, st) => globLoop pat text fuel (sp + 1) (st + 1) (some (sp, st + 1))
            | none => some none

def globFuel (pat text : Bytes) : ℕ := (text.length + 1) * (pat.length + text.length + 2) + 1

/-- `glob_impl`: what is left of the pattern must be stars. -/
def globImpl (pat text : Bytes) : Bool :=
  match globLoop pat text (globFuel pat text) 0 0 none with
  | some (some pi) => (pat.drop pi).all (· == starByte)
  | _ => false

/-- `glob_matches`. -/
def globMatches (pattern text : String) : Bool := globImpl (utf8 pattern) (utf8 text)

example : globMatches "*src/*.r?" "./src/core/db.rs" = true ∧ globMatches "*.rs" "a.go" = false := by
  decide +kernel

/-! ## Filters -/

/-- `Path::file_name`. -/
def fileName (path : String) : Option (List Char) :=
  match (components path).getLast? with
  | some (.normal name) => some name
  | _ => none

/-- `ext_of`: what follows the last dot of the file name, unless the name starts with it. -/
def extOf (path : String) : String :=
  match fileName path with
  | none => ""
  | some name =>
      match (name.reverse.dropWhile (· ≠ '.')).drop 1 with
      | [] => ""
      | _ => String.ofList (name.reverse.takeWhile (· ≠ '.')).reverse

/-- `depth_of`: the number of slashes. -/
def depthOf (path : String) : ℕ := (stripDot path).toList.count '/' % 2 ^ 32

/-- `passes`. -/
def passes (path : String) (opts : SearchOptions) : Bool :=
  let ext := extOf path
  let gmatch := fun pat => globMatches pat path || globMatches pat (stripDot path)
  (opts.extensions.isEmpty || opts.extensions.any (· == ext)) &&
  (opts.types.isEmpty || opts.types.any fun t =>
    ((typeExtensions t).map fun exts => exts.contains ext).getD false) &&
  !opts.excludes.any gmatch &&
  (opts.globs.isEmpty || opts.globs.any gmatch) &&
  ((opts.maxDepth.map fun maxd => decide (depthOf path ≤ maxd)).getD true)

/-! ## The literal atom of a regex -/

/-- `flush_run`: the longer of the pending run and the best one. -/
def flushRun (cur best : List Char) : List Char := if best.length < cur.length then cur else best

/-- The loop of `longest_literal_atom`, on fuel for the characters; the answer is the longest run
of literals. -/
def atomLoop : ℕ → List Char → Bool → List Char → List Char → List Char
  | 0, _, _, _, best => best
  | _ + 1, [], _, cur, best => flushRun cur best
  | fuel + 1, c :: cs, true, cur, best =>
      if c = '\\' then atomLoop fuel (cs.drop 1) true [] (flushRun cur best)
      else atomLoop fuel cs (c ≠ ']') [] (flushRun cur best)
  | fuel + 1, c :: cs, false, cur, best =>
      if c = '\\' then atomLoop fuel (cs.drop 1) false [] (flushRun cur best)
      else if c = '[' then atomLoop fuel cs true [] (flushRun cur best)
      else if c ∈ ['(', ')', '|', '*', '+', '?', '^', '$', '.'] then
        atomLoop fuel cs false [] (flushRun cur best)
      else if c = '\x7b' then
        atomLoop fuel ((cs.dropWhile (· ≠ '\x7d')).drop 1) false [] (flushRun cur best)
      else atomLoop fuel cs false (cur ++ [c]) best

/-- `longest_literal_atom`. -/
def longestLiteralAtom (regex : String) : Option String :=
  match atomLoop (regex.toList.length + 1) regex.toList false [] [] with
  | [] => none
  | best => some (String.ofList best)

example : longestLiteralAtom "fn\\s+(main|test)_[a-z]+end" = some "main" := by decide +kernel

end DeepFinder
