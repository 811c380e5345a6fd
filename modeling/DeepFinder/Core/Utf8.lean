import DeepFinder.Core.Basic

/-!
# UTF-8

The front of a byte sequence, read as one character or as an invalid sequence, the way the standard
library splits bytes that are not UTF-8 for `from_utf8_lossy` and for the message of a `Utf8Error`.
-/

namespace DeepFinder

open ByteString

/-- Whether the byte, if there is one, continues a UTF-8 sequence. -/
def isContinuation (b : Option UInt8) : Bool := (b.map fun b => b &&& 0xC0 == 0x80).getD false

/-- Whether `c` may follow the first byte `b` of a sequence of three or four bytes. -/
def secondByteOk (b : UInt8) (c : Option UInt8) : Bool :=
  match c with
  | none => false
  | some c =>
      if b = 0xE0 then 0xA0 ≤ c && c ≤ 0xBF
      else if b = 0xED then 0x80 ≤ c && c ≤ 0x9F
      else if b = 0xF0 then 0x90 ≤ c && c ≤ 0xBF
      else if b = 0xF4 then 0x80 ≤ c && c ≤ 0x8F
      else 0x80 ≤ c && c ≤ 0xBF

/-- The six payload bits of the byte at `i`. -/
def payload (bs : Bytes) (i : ℕ) : ℕ := ((bs[i]?).getD 0 &&& 0x3F).toNat

/-- The character at the front of `bs`, or `none` when it is cut off or invalid, and how many
bytes belong to it. -/
def utf8Front (bs : Bytes) : Option Char × ℕ :=
  match bs with
  | [] => (none, 1)
  | b :: _ =>
      if b < 0x80 then (some (Char.ofNat b.toNat), 1)
      else if 0xC2 ≤ b ∧ b ≤ 0xDF then
        if !isContinuation bs[1]? then (none, 1)
        else (some (Char.ofNat ((b &&& 0x1F).toNat * 64 + payload bs 1)), 2)
      else if 0xE0 ≤ b ∧ b ≤ 0xEF then
        if !secondByteOk b bs[1]? then (none, 1)
        else if !isContinuation bs[2]? then (none, 2)
        else
          (some (Char.ofNat (((b &&& 0x0F).toNat * 64 + payload bs 1) * 64 + payload bs 2)), 3)
      else if 0xF0 ≤ b ∧ b ≤ 0xF4 then
        if !secondByteOk b bs[1]? then (none, 1)
        else if !isContinuation bs[2]? then (none, 2)
        else if !isContinuation bs[3]? then (none, 3)
        else
          (some (Char.ofNat ((((b &&& 0x07).toNat * 64 + payload bs 1) * 64 + payload bs 2) * 64 +
            payload bs 3)), 4)
      else (none, 1)

/-- Where the first invalid sequence starts, and its length unless the end of the bytes cuts it
off. -/
def utf8ErrorLoop : ℕ → ℕ → Bytes → Option (ℕ × Option ℕ)
  | 0, _, _ => none
  | _ + 1, _, [] => none
  | fuel + 1, index, b :: bs =>
      match utf8Front (b :: bs) with
      | (some _, n) => utf8ErrorLoop fuel (index + n) ((b :: bs).drop n)
      | (none, n) =>
          -- the first byte of a sequence of several bytes waits for the next one
          if bs.length + 1 = n ∧ 0xC2 ≤ b ∧ b ≤ 0xF4 then some (index, none)
          else some (index, some n)

/-- The text of the `Utf8Error` for bytes that are not UTF-8. -/
def utf8ErrorText (bs : Bytes) : String :=
  match utf8ErrorLoop (bs.length + 1) 0 bs with
  | some (index, some n) => s!"invalid utf-8 sequence of {n} bytes from index {index}"
  | some (index, none) => s!"incomplete utf-8 byte sequence from index {index}"
  | none => ""

example : utf8ErrorText [0x61, 0xE2, 0x82] = "incomplete utf-8 byte sequence from index 1" := by
  decide +kernel

end DeepFinder
