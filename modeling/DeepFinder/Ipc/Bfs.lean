import DeepFinder.Core.Lowercase
import DeepFinder.Ipc.Filter

/-!
# `--expr` filters

The find-style expression language: the parser, on fuel for the tokens, and the evaluator over a
path and its metadata.
-/

namespace DeepFinder

open ByteString

namespace Bfs

/-- `Cmp`. -/
inductive Cmp where
  | eq
  | gt
  | lt
  deriving DecidableEq, Repr

/-- `Prim`. -/
inductive Prim where
  | name (pat : String)
  | path (pat : String)
  | size (cmp : Cmp) (bytes : Int64)
  | newer (file : String)
  deriving DecidableEq, Repr

/-- `Expr`. -/
inductive Expr where
  | prim (p : Prim)
  | and (a b : Expr)
  | or (a b : Expr)
  | not (a : Expr)
  deriving DecidableEq, Repr

/-- What the parser's error messages report. -/
inductive ParseError where
  | trailingToken (tok : String)
  | unexpectedEnd
  | expectedParen (got : Option String)
  | unexpectedToken (tok : String)
  | missingArgument (head : String)
  | badSize (arg : String)
  | unknownPredicate (head : String)
  deriving DecidableEq, Repr

/-! ## Arguments -/

/-- `split_whitespace`. -/
def splitWhitespace (s : String) : List String :=
  ((s.toList.splitOnP isWhitespace).filter (· ≠ [])).map String.ofList

/-- `strip_quotes`: one layer of matching quotes. -/
def stripQuotes (s : String) : String :=
  match s.toList with
  | q :: rest =>
      if (q = '\'' ∨ q = '"') ∧ rest.getLast? = some q then String.ofList rest.dropLast else s
  | [] => s

/-- The digits of a decimal number; `none` when there are none or another character. -/
def parseDigits (cs : List Char) : Option ℕ :=
  if cs ≠ [] ∧ cs.all Char.isDigit then
    some (cs.foldl (fun n c => n * 10 + (c.toNat - '0'.toNat)) 0)
  else none

/-- `str::parse::<i64>`: an optional sign, digits, and no overflow. -/
def parseI64 (cs : List Char) : Option Int64 :=
  let signed : Option ℤ :=
    match cs with
    | '-' :: cs => (parseDigits cs).map fun n => -(n : ℤ)
    | '+' :: cs => (parseDigits cs).map fun n => (n : ℤ)
    | cs => (parseDigits cs).map fun n => (n : ℤ)
  signed.bind fun n => if -2 ^ 63 ≤ n ∧ n < 2 ^ 63 then some (Int64.ofInt n) else none

/-- The comparison that the first character of a size argument asks for. -/
def sizeCmp : List Char → Cmp × List Char
  | '+' :: cs => (.gt, cs)
  | '-' :: cs => (.lt, cs)
  | cs => (.eq, cs)

/-- The factor that the last character of a size argument asks for. -/
def sizeUnit (cs : List Char) : List Char × ℤ :=
  match cs.getLast? with
  | some 'c' => (cs.dropLast, 1)
  | some 'k' => (cs.dropLast, 1024)
  | some 'M' => (cs.dropLast, 1024 * 1024)
  | some 'G' => (cs.dropLast, 1024 * 1024 * 1024)
  | _ => (cs, 1)

/-- `parse_size`: a product that overflows saturates. -/
def parseSize (s : String) : Except ParseError (Cmp × Int64) :=
  let (cmp, rest) := sizeCmp s.toList
  let (numPart, mult) := sizeUnit rest
  match parseI64 numPart with
  | none => .error (.badSize s)
  | some n =>
      let bytes := n.toInt * mult
      .ok (cmp, if -2 ^ 63 ≤ bytes ∧ bytes < 2 ^ 63 then Int64.ofInt bytes else Int64.maxValue)

/-! ## The parser -/

/-- How a parsing function ends: `none` is running out of fuel. -/
abbrev Parsed := Option (Except ParseError (Expr × List String))

def startsWithDash (t : String) : Bool := t.toList.head? = some '-'

/-- `is_factor_start`. -/
def isFactorStart (t : String) : Bool :=
  t ∈ ["(", "!", "-not"] || (startsWithDash t && !(t ∈ ["-a", "-and", "-o", "-or"]))

/-- Where the next factor of a conjunction starts; `none` ends the conjunction. -/
def nextFactor : List String → Option (List String)
  | [] => none
  | t :: ts =>
      if t ∈ ["-a", "-and"] then some ts
      else if isFactorStart t then some (t :: ts)
      else none

/-- `parse_prim`. -/
def parsePrim (head : String) : List String → Except ParseError (Expr × List String)
  | [] => .error (.missingArgument head)
  | raw :: ts =>
      let arg := stripQuotes raw
      match head with
      | "-name" => .ok (.prim (.name arg), ts)
      | "-path" => .ok (.prim (.path arg), ts)
      | "-size" => (parseSize arg).map fun r => (.prim (.size r.1 r.2), ts)
      | "-newer" => .ok (.prim (.newer arg), ts)
      | other => .error (.unknownPredicate other)

mutual

/-- `parse_or`. -/
def parseOr : ℕ → List String → Parsed
  | 0, _ => none
  | fuel + 1, ts =>
      match parseAnd fuel ts with
      | some (.ok (left, ts)) => orLoop fuel left ts
      | r => r

/-- The loop of `parse_or`. -/
def orLoop : ℕ → Expr → List String → Parsed
  | 0, _, _ => none
  | fuel + 1, left, t :: ts =>
      if t ∈ ["-o", "-or"] then
        match parseAnd fuel ts with
        | some (.ok (right, ts)) => orLoop fuel (.or left right) ts
        | r => r
      else some (.ok (left, t :: ts))
  | _ + 1, left, [] => some (.ok (left, []))

/-- `parse_and`. -/
def parseAnd : ℕ → List String → Parsed
  | 0, _ => none
  | fuel + 1, ts =>
      match parseFactor fuel ts with
      | some (.ok (left, ts)) => andLoop fuel left ts
      | r => r

/-- The loop of `parse_and`. -/
def andLoop : ℕ → Expr → List String → Parsed
  | 0, _, _ => none
  | fuel + 1, left, ts =>
      match nextFactor ts with
      | none => some (.ok (left, ts))
      | some ts =>
          match parseFactor fuel ts with
          | some (.ok (right, ts)) => andLoop fuel (.and left right) ts
          | r => r

/-- `parse_factor`. -/
def parseFactor : ℕ → List String → Parsed
  | 0, _ => none
  | _ + 1, [] => some (.error .unexpectedEnd)
  | fuel + 1, t :: ts =>
      if t = "!" ∨ t = "-not" then
        match parseFactor fuel ts with
        | some (.ok (f, ts)) => some (.ok (.not f, ts))
        | r => r
      else if t = "(" then
        match parseOr fuel ts with
        | some (.ok (e, ")" :: ts)) => some (.ok (e, ts))
        | some (.ok (_, ts)) => some (.error (.expectedParen ts.head?))
        | r => r
      else if startsWithDash t then some (parsePrim t ts)
      else some (.error (.unexpectedToken t))

end

/-- `parse`. -/
def parse (input : String) : Except ParseError Expr :=
  let toks := splitWhitespace input
  match parseOr (3 * toks.length + 3) toks with
  | some (.ok (node, [])) => .ok node
  | some (.ok (_, t :: _)) => .error (.trailingToken t)
  | some (.error e) => .error e
  | none => .error .unexpectedEnd

/-- `newer_files`. -/
def newerFiles : Expr → List String
  | .prim (.newer f) => [f]
  | .prim _ => []
  | .and a b => newerFiles a ++ newerFiles b
  | .or a b => newerFiles a ++ newerFiles b
  | .not e => newerFiles e

/-! ## The evaluator -/

/-- `eval_prim`. -/
def evalPrim (newerMtime : String → Option Int64) (path : String) (lite : LiteMeta) : Prim → Bool
  | .name pat => globMatches pat (((fileName path).map String.ofList).getD path)
  | .path pat => globMatches pat path
  | .size .eq n => lite.size = n
  | .size .gt n => n < lite.size
  | .size .lt n => lite.size < n
  | .newer file =>
      match newerMtime file with
      | some t => t < lite.mtime
      | none => false

/-- `eval`. -/
def eval (newerMtime : String → Option Int64) (path : String) (lite : LiteMeta) : Expr → Bool
  | .prim p => evalPrim newerMtime path lite p
  | .not e => !eval newerMtime path lite e
  | .and a b => eval newerMtime path lite a && eval newerMtime path lite b
  | .or a b => eval newerMtime path lite a || eval newerMtime path lite b

example : (parse "( -name '*.rs' -o -size +1k ) ! -path docs*").map
    (eval (fun _ => none) "/x/a.txt" ⟨false, 2000, 0⟩) = .ok true := by decide +kernel

end Bfs

end DeepFinder
