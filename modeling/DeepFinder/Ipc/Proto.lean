import DeepFinder.Core.Basic

/-!
# Search requests

The part of the wire protocol that a search reads, and the kinds of its results.

Enumerations and records have the variants and fields of the source's, as far as the daemon and the
client read them, with the source's defaults.  Counts are natural numbers; where a width matters it
is named at the place that casts.  How requests and frames are encoded is a parameter of the model
(`Ipc/Wire.lean`).
-/

namespace DeepFinder

/-- `MatchKind`. -/
inductive MatchKind where
  | filename
  | content
  | both
  deriving DecidableEq, Repr

/-- `LineHit`. -/
structure LineHit where
  path : String
  lineNo : ℕ
  text : String
  deriving DecidableEq, Repr

/-- `LayerMask`. -/
structure LayerMask where
  filename : Bool := true
  content : Bool := true
  deriving DecidableEq, Repr

/-- `PathMode`. -/
inductive PathMode where
  | full
  | basename
  deriving DecidableEq, Repr

/-- `SortMode`. -/
inductive SortMode where
  | default
  | path
  | kind
  | none
  deriving DecidableEq, Repr

/-- `CaseControl`. -/
inductive CaseControl where
  | smart
  | insensitive
  | sensitive
  deriving DecidableEq, Repr

/-- `CaseControl::sensitive`: smart case looks for an ASCII capital. -/
def CaseControl.isSensitive (c : CaseControl) (pattern : String) : Bool :=
  match c with
  | .sensitive => true
  | .insensitive => false
  | .smart => (utf8 pattern).any fun b => 65 ≤ b && b ≤ 90

/-- `SearchOptions`, as far as the daemon and the direct scan read it. -/
structure SearchOptions where
  extensions : List String := []
  types : List String := []
  excludes : List String := []
  globs : List String := []
  maxDepth : Option ℕ := none
  regex : Option String := none
  case : CaseControl := .smart
  lineNumbers : Bool := false
  context : Option ℕ := none
  layers : LayerMask := {}
  pathMode : PathMode := .full
  hidden : Bool := false
  sort : SortMode := .default
  expr : Option String := none

/-- `SearchRequest`. -/
structure SearchRequest where
  query : String
  scope : Option String := none
  limit : Option ℕ := none
  opts : SearchOptions := {}
  db : Option String := none

/-- `IndexRequest`. -/
structure IndexRequest where
  root : Option String := none
  skip : List String := []
  maxFileSize : ℕ := 0
  oneFileSystem : Bool := false
  hidden : Bool := false
  db : Option String := none

/-- `Request`. -/
inductive Request where
  | search (req : SearchRequest)
  | index (req : IndexRequest)

/-- `ResponseFrame`. -/
inductive ResponseFrame where
  | batch (paths : List String) (lites : List LiteMeta) (kinds : List MatchKind)
  | lines (hits : List LineHit)
  | done (total : ℕ)
  | error (message : String)
  | indexAck (accepted : Bool) (message : String)
  deriving DecidableEq, Repr

end DeepFinder
