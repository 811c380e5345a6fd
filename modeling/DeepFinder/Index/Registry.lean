import Mathlib.Data.List.Basic

/-!
# Registered databases and build options

What the registry file records of a database, and the options of a build.

Of a record stands here what the daemon opens a database by; the options have the source's defaults.
How commands edit the registry file is the subject of `Index/ConfigEdits.lean`.
-/

namespace DeepFinder

/-- `DbRecord`. -/
structure DbRecord where
  name : String
  root : String
  dbPath : String
  contentDir : String
  deriving DecidableEq, Repr

/-- `DEFAULT_MAX_FILE_SIZE`. -/
def defaultMaxFileSize : ℕ := 1024 * 1024

/-- `ContentBuildOptions`. -/
structure ContentBuildOptions where
  maxFileSize : ℕ := defaultMaxFileSize
  extraSkip : List String := []
  oneFileSystem : Bool := false
  hidden : Bool := false
  ignorePatterns : List String := []

end DeepFinder
