import DeepFinder.Content.Fold
import DeepFinder.Core.Utf8

/-!
# Lines

Line numbers, line texts and `-C` context blocks of the matches in a content, and the lossy
decoding of the bytes shown to the user.
-/

namespace DeepFinder

open ByteString

/-! ## Lossy decoding -/

/-- The loop of `from_utf8_lossy`, on fuel for the bytes. -/
def lossyLoop : ℕ → Bytes → List Char
  | 0, _ => []
  | _ + 1, [] => []
  | fuel + 1, b :: bs =>
      let front := utf8Front (b :: bs)
      front.1.getD '\uFFFD' :: lossyLoop fuel ((b :: bs).drop front.2)

/-- `String::from_utf8_lossy`: every cut-off or invalid sequence becomes U+FFFD. -/
def fromUtf8Lossy (bs : Bytes) : String := String.ofList (lossyLoop bs.length bs)

example : fromUtf8Lossy [0x61, 0xC3, 0xA9, 0xE2, 0x82, 0x62, 0xFF] = "aé\uFFFDb\uFFFD" := by
  decide +kernel

/-! ## Lines of a content -/

/-- `b'\n'`. -/
def newline : UInt8 := 10

/-- `literal_match_offsets`. -/
def literalMatchOffsets (content needle : Bytes) (caseSensitive : Bool) : List ℕ :=
  if needle = [] then []
  else if caseSensitive then memmemFindIter content needle
  else memmemFindIter (fold content) needle

/-- How many newlines there are, as `u32`. -/
def countNewlines (bs : Bytes) : ℕ := (bs.filter (· = newline)).length % 2 ^ 32

/-- `line_number`. -/
def lineNumber (content : Bytes) (byteOff : ℕ) : ℕ :=
  countNewlines (content.take (min byteOff content.length)) + 1

/-- `rposition(|&b| b == b'\n')`. -/
def rpositionNewline (bs : Bytes) : Option ℕ :=
  (bs.reverse.findIdx? (· = newline)).map fun i => bs.length - 1 - i

/-- `position(|&b| b == b'\n')`. -/
def positionNewline (bs : Bytes) : Option ℕ := bs.findIdx? (· = newline)

/-- The offset at which the line that holds `up` starts. -/
def lineStart (content : Bytes) (up : ℕ) : ℕ :=
  ((rpositionNewline (content.take up)).map (· + 1)).getD 0

/-- `line_text`. -/
def lineText (content : Bytes) (byteOff : ℕ) : String :=
  let up := min byteOff content.length
  let start := lineStart content up
  let stop := ((positionNewline (content.drop up)).map (up + ·)).getD content.length
  fromUtf8Lossy ((content.take stop).drop start)

/-- The loop of `context_block` that walks `n` lines back. -/
def blockStartLoop (content : Bytes) : ℕ → ℕ → ℕ
  | 0, start => start
  | n + 1, start =>
      if start = 0 then 0
      else
        match rpositionNewline (content.take (start - 1)) with
        | some i => blockStartLoop content n (i + 1)
        | none => 0

/-- The loop of `context_block` that walks `n` lines forward. -/
def blockEndLoop (content : Bytes) : ℕ → ℕ → ℕ
  | 0, stop => stop
  | n + 1, stop =>
      if content.length ≤ stop then stop
      else
        match positionNewline (content.drop stop) with
        | some i => blockEndLoop content n (stop + (i + 1))
        | none => content.length

/-- `context_block`. -/
def contextBlock (content : Bytes) (byteOff n : ℕ) : ℕ × String :=
  let up := min byteOff content.length
  let lineEnd := ((positionNewline (content.drop up)).map fun i => up + i + 1).getD content.length
  let start := blockStartLoop content n (lineStart content up)
  let stop := blockEndLoop content n lineEnd
  (countNewlines (content.take start) + 1, fromUtf8Lossy ((content.take stop).drop start))

example : contextBlock (utf8 "alpha\nbeta\nGAMMA\ndelta\nepsilon\n") 11 1 =
    (2, "beta\nGAMMA\ndelta\n") := by decide +kernel

lemma literalMatchOffsets_ne_nil {content needle : Bytes} {caseSensitive : Bool}
    (hne : needle ≠ []) : literalMatchOffsets content needle caseSensitive ≠ [] ↔
      needle <:+: if caseSensitive then content else fold content := by
  rw [literalMatchOffsets, if_neg hne]
  cases caseSensitive with
  | true => exact memmemFindIter_ne_nil
  | false => exact memmemFindIter_ne_nil

end DeepFinder
