import DeepFinder.Content.Wal

/-!
# The `config::standard()` encoding of a WAL record

A concrete `Bincode` that follows the crate's documented standard configuration: little-endian
variable-length integers, zigzag for signed ones, one byte for `bool`, for the `Option` tag and
for each `u8`, a length before strings and vectors, and the variant index before an enum.

The framing is proved for every lawful codec; this one shows that such a codec exists
(`standardBincode_lawful`) and is what concrete runs are evaluated with.
-/

namespace DeepFinder

open ByteString

/-! ## Encoding -/

/-- A variable-length unsigned integer; no value of `2 ^ 64` or more exists to encode. -/
def encVarint (n : ℕ) : Option Bytes :=
  if n < 251 then some [UInt8.ofNat n]
  else if n < 2 ^ 16 then some (251 :: toLE 2 n)
  else if n < 2 ^ 32 then some (252 :: toLE 4 n)
  else if n < 2 ^ 64 then some (253 :: toLE 8 n)
  else none

def encBlob (bs : Bytes) : Option Bytes := do
  let len ← encVarint bs.length
  some (len ++ bs)

def zigzag (x : Int) : ℕ := if 0 ≤ x then 2 * x.toNat else 2 * (-x).toNat - 1

def unzigzag (n : ℕ) : Int := if n % 2 = 0 then (n / 2 : ℕ) else -((n + 1) / 2 : ℕ)

/-- An `Option<Vec<u8>>`. -/
def encContent : Option Bytes → Option Bytes
  | none => some [0]
  | some bs => (encBlob bs).map (1 :: ·)

/-- A record body. -/
def encBody : WalRecord → Option Bytes
  | .upsert path lite content => do
      let p ← encBlob (utf8 path)
      let s ← encVarint (zigzag lite.size.toInt)
      let t ← encVarint (zigzag lite.mtime.toInt)
      let c ← encContent content
      some (0 :: (p ++ ((if lite.isDir then 1 else 0) :: (s ++ (t ++ c)))))
  | .delete path => do
      let p ← encBlob (utf8 path)
      some (1 :: p)

/-! ## Decoding -/

/-- The next `k` bytes and the rest. -/
def takeBytes (k : ℕ) (bs : Bytes) : Option (Bytes × Bytes) :=
  if k ≤ bs.length then some (bs.take k, bs.drop k) else none

/-- A little-endian integer of `k` bytes and the rest. -/
def decLE (k : ℕ) (bs : Bytes) : Option (ℕ × Bytes) := do
  let (x, rest) ← takeBytes k bs
  some (ofLE x, rest)

def decVarint : Bytes → Option (ℕ × Bytes)
  | [] => none
  | b :: bs =>
      if b.toNat < 251 then some (b.toNat, bs)
      else if b = 251 then decLE 2 bs
      else if b = 252 then decLE 4 bs
      else if b = 253 then decLE 8 bs
      else none

def decBlob (bs : Bytes) : Option (Bytes × Bytes) := do
  let (n, rest) ← decVarint bs
  takeBytes n rest

def decString (bs : Bytes) : Option (String × Bytes) := do
  let (x, rest) ← decBlob bs
  some (← fromUtf8 x, rest)

/-- A byte that must be `0` or `1`. -/
def decBit : Bytes → Option (Bool × Bytes)
  | 0 :: bs => some (false, bs)
  | 1 :: bs => some (true, bs)
  | _ => none

def decI64 (bs : Bytes) : Option (Int64 × Bytes) := do
  let (n, rest) ← decVarint bs
  some (Int64.ofInt (unzigzag n), rest)

def decContent (bs : Bytes) : Option (Option Bytes × Bytes) := do
  let (tag, rest) ← decBit bs
  if tag then
    let (x, rest) ← decBlob rest
    some (some x, rest)
  else some (none, rest)

/-- A record body and the bytes after it. -/
def decBody : Bytes → Option (WalRecord × Bytes)
  | 0 :: bs => do
      let (path, bs) ← decString bs
      let (isDir, bs) ← decBit bs
      let (size, bs) ← decI64 bs
      let (mtime, bs) ← decI64 bs
      let (content, bs) ← decContent bs
      some (.upsert path ⟨isDir, size, mtime⟩ content, bs)
  | 1 :: bs => do
      let (path, bs) ← decString bs
      some (.delete path, bs)
  | _ => none

/-- bincode with `config::standard()`. -/
def standardBincode : Bincode where
  encodeToVec r := match encBody r with
    | some body => .ok body
    | none => .error "length does not fit in u64"
  decodeFromSlice bs := match decBody bs with
    | some (r, rest) => .ok (r, bs.length - rest.length)
    | none => .error "invalid encoding"

/-! ## Decoding inverts encoding -/

lemma takeBytes_append (a b : Bytes) : takeBytes a.length (a ++ b) = some (a, b) := by
  simp [takeBytes]

lemma decLE_toLE {k n : ℕ} (h : n < 256 ^ k) (post : Bytes) :
    decLE k (toLE k n ++ post) = some (n, post) := by
  have ht := takeBytes_append (toLE k n) post
  rw [length_toLE] at ht
  simp [decLE, ht, ofLE_toLE_of_lt h]

lemma decVarint_encVarint {n : ℕ} {v : Bytes} (h : encVarint n = some v) (post : Bytes) :
    decVarint (v ++ post) = some (n, post) := by
  unfold encVarint at h
  split at h
  · rename_i hn
    obtain rfl := Option.some.inj h
    have hb : (UInt8.ofNat n).toNat = n := by
      rw [UInt8.toNat_ofNat']
      exact Nat.mod_eq_of_lt (by omega)
    simp only [List.singleton_append, decVarint, hb, if_pos hn]
  · split at h
    · rename_i hn
      obtain rfl := Option.some.inj h
      exact decLE_toLE (by omega) post
    · split at h
      · rename_i hn
        obtain rfl := Option.some.inj h
        exact decLE_toLE (by omega) post
      · split at h
        · rename_i hn
          obtain rfl := Option.some.inj h
          exact decLE_toLE (by omega) post
        · cases h

lemma decBlob_encBlob {bs v : Bytes} (h : encBlob bs = some v) (post : Bytes) :
    decBlob (v ++ post) = some (bs, post) := by
  obtain ⟨len, hlen, hv⟩ := Option.bind_eq_some_iff.mp h
  obtain rfl := Option.some.inj hv
  simp [decBlob, decVarint_encVarint hlen (bs ++ post), takeBytes_append]

lemma decString_encBlob {s : String} {v : Bytes} (h : encBlob (utf8 s) = some v)
    (post : Bytes) : decString (v ++ post) = some (s, post) := by
  simp [decString, decBlob_encBlob h]

lemma unzigzag_zigzag (x : Int) : unzigzag (zigzag x) = x := by
  unfold zigzag unzigzag
  split_ifs <;> omega

lemma decI64_encVarint {x : Int64} {v : Bytes} (h : encVarint (zigzag x.toInt) = some v)
    (post : Bytes) : decI64 (v ++ post) = some (x, post) := by
  simp [decI64, decVarint_encVarint h, unzigzag_zigzag]

lemma decBit_cons (b : Bool) (post : Bytes) :
    decBit ((if b then 1 else 0) :: post) = some (b, post) := by
  cases b <;> rfl

lemma decContent_encContent {content : Option Bytes} {v : Bytes}
    (h : encContent content = some v) : decContent v = some (content, []) := by
  cases content with
  | none =>
      obtain rfl := Option.some.inj h
      rfl
  | some bs =>
      obtain ⟨w, hw, rfl⟩ := Option.map_eq_some_iff.mp h
      have hblob := decBlob_encBlob hw []
      rw [List.append_nil] at hblob
      simp [decContent, decBit, hblob]

lemma decBody_encBody {r : WalRecord} {body : Bytes} (h : encBody r = some body) :
    decBody body = some (r, []) := by
  cases r with
  | delete path =>
      obtain ⟨p, hp, hbody⟩ := Option.bind_eq_some_iff.mp h
      obtain rfl := Option.some.inj hbody
      have hpath := decString_encBlob hp []
      rw [List.append_nil] at hpath
      simp [decBody, hpath]
  | upsert path lite content =>
      obtain ⟨p, hp, h⟩ := Option.bind_eq_some_iff.mp h
      obtain ⟨s, hs, h⟩ := Option.bind_eq_some_iff.mp h
      obtain ⟨t, ht, h⟩ := Option.bind_eq_some_iff.mp h
      obtain ⟨c, hc, h⟩ := Option.bind_eq_some_iff.mp h
      obtain rfl := Option.some.inj h
      simp [decBody, decString_encBlob hp, decBit_cons, decI64_encVarint hs,
        decI64_encVarint ht, decContent_encContent hc]

theorem standardBincode_lawful : standardBincode.Lawful := by
  intro r body h
  cases henc : encBody r with
  | none => simp [standardBincode, henc] at h
  | some b =>
      obtain rfl : b = body := by simpa [standardBincode, henc] using h
      exact ⟨b.length, by simp [standardBincode, decBody_encBody henc]⟩

end DeepFinder
