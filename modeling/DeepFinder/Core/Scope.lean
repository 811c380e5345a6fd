import Mathlib.Data.List.Basic

/-!
# Scopes

A `--scope` restricts a search to a subtree, by comparing path components.  The scope arrives
deserialised from UTF-8, so `Path::to_str` never fails on it.

`Path::components` is modelled for Unix and for text: a component is a list of characters, and
repeated slashes and inner dots leave none, so that two spellings of a path can have the same
components.
-/

namespace DeepFinder

/-- `strip_dot`: one leading `./`. -/
def stripDot (s : String) : String :=
  match s.toList with
  | '.' :: '/' :: rest => String.ofList rest
  | _ => s

/-- `std::path::Component`, on Unix. -/
inductive Component where
  | rootDir
  | curDir
  | parentDir
  | normal (name : List Char)
  deriving DecidableEq, Repr

/-- A component behind the first: repeated slashes and `.` leave none. -/
def innerComponent (part : List Char) : Option Component :=
  if part = [] ∨ part = ['.'] then none
  else if part = ['.', '.'] then some .parentDir
  else some (.normal part)

/-- `Path::components`: `.` counts only at the start of a relative path. -/
def components (path : String) : List Component :=
  let parts := path.toList.splitOn '/'
  let first :=
    if path.toList.head? = some '/' then [.rootDir]
    else if parts.head? = some ['.'] then [.curDir]
    else []
  first ++ parts.filterMap innerComponent

/-- `in_scope`. -/
def inScope (path : String) (scope : Option String) : Bool :=
  match scope with
  | none => true
  | some scope =>
      let scope := stripDot scope
      if scope = "" then true
      else (components scope).isPrefixOf (components (stripDot path))

example : inScope "./src/lib.rs" (some "src/") = true ∧
    inScope "srcs/lib.rs" (some "src") = false := by
  decide

end DeepFinder
