import DeepFinder.Core.Utf8

/-!
# Path and metadata records

Both index formats store paths as length-prefixed UTF-8, read by a scan from the start, and
metadata as 17-byte records `is_dir | size | mtime` in docid order.

The two readers differ in the texts of their errors only, so that the scan takes these as arguments.
Nothing is assumed of the bytes it reads: each length is checked before it is used.
-/

namespace DeepFinder

open ByteString

/-- `META_REC_LEN`. -/
def metaRecLen : ℕ := 17

/-- A path as it is written: its length as `u32`, then its bytes. -/
def pathRecord (path : String) : Bytes := toLE 4 (utf8 path).length ++ utf8 path

def metaRecord (m : LiteMeta) : Bytes :=
  [if m.isDir then 1 else 0] ++ (i64LE m.size ++ i64LE m.mtime)

/-- The scan for the path with index `index`, from offset `p` on.  `truncated` and `overruns`
are the messages of the two readers. -/
def scanPath (truncated overruns : String) (buf : Bytes) : ℕ → ℕ → Res String
  | index, p =>
    if buf.length < p + 4 then .error (.err (.dbFormat truncated))
    else do
      let plen ← leU32 buf p
      if buf.length < p + 4 + plen then .error (.err (.dbFormat overruns))
      else
        match index with
        | 0 => do
            let bytes ← sliceAt buf (p + 4) plen
            match fromUtf8 bytes with
            | some path => pure path
            | none => .error (.err (.dbFormat ("non-utf8 path: " ++ utf8ErrorText bytes)))
        | index + 1 => scanPath truncated overruns buf index (p + 4 + plen)

/-- The metadata record at the start of `rec`. -/
def readMeta (rec : Bytes) : Res LiteMeta := do
  let b ← byteAt rec 0
  let size ← leI64 rec 1
  let mtime ← leI64 rec 9
  pure ⟨b != 0, size, mtime⟩

@[simp] lemma length_metaRecord (m : LiteMeta) : (metaRecord m).length = metaRecLen := by
  simp [metaRecord, metaRecLen]

lemma readMeta_metaRecord (m : LiteMeta) : readMeta (metaRecord m) = .ok m := by
  have hsize : leI64 (metaRecord m) 1 = .ok m.size := by
    rw [metaRecord, leI64_append_right (by simp)]
    exact leI64_i64LE _ _
  have hmtime : leI64 (metaRecord m) 9 = .ok m.mtime := by
    rw [metaRecord, leI64_append_right (by simp), leI64_append_right (by simp)]
    simpa using leI64_i64LE m.mtime []
  have hdir : byteAt (metaRecord m) 0 = .ok (if m.isDir then 1 else 0) := rfl
  rw [readMeta, hdir, bind_ok, hsize, bind_ok, hmtime, bind_ok]
  cases m with
  | mk isDir size mtime => cases isDir <;> rfl

/-- The scan finds the path with the given index among paths shorter than `2 ^ 32` bytes. -/
lemma scanPath_flatMap {truncated overruns : String} {buf : Bytes} {paths : List String}
    (hlen : ∀ p ∈ paths, (utf8 p).length < 2 ^ 32) {i : ℕ} {path : String}
    (hi : paths[i]? = some path) {p : ℕ} (h : StandsAt buf p (paths.flatMap pathRecord)) :
    scanPath truncated overruns buf i p = .ok path := by
  induction paths generalizing i p with
  | nil => cases hi
  | cons x paths ih =>
      rw [List.flatMap_cons, pathRecord, List.append_assoc] at h
      have hx : (utf8 x).length < 256 ^ 4 := hlen x (List.mem_cons_self ..)
      have hread := leAt_of_standsAt h.left hx
      have hbytes := h.right.left
      rw [length_toLE] at hbytes
      have hle := hbytes.le_length
      rw [scanPath, if_neg (by omega), leU32, hread, bind_ok, if_neg (by omega)]
      cases i with
      | zero =>
          obtain rfl := Option.some.inj hi
          dsimp only
          rw [sliceAt_eq_ok hbytes.subslice, bind_ok, fromUtf8_utf8]
          rfl
      | succ i =>
          have hrest := h.right.right
          rw [length_toLE] at hrest
          exact ih (fun y hy => hlen y (List.mem_cons_of_mem _ hy)) hi hrest

/-- A path that the scan returns is shorter than `2 ^ 32` bytes: its length was read from four. -/
lemma length_of_scanPath {truncated overruns : String} {buf : Bytes} {i p : ℕ} {path : String}
    (h : scanPath truncated overruns buf i p = .ok path) : (utf8 path).length < 2 ^ 32 := by
  induction i generalizing p with
  | zero =>
      rw [scanPath] at h
      split at h
      · cases h
      · cases hlen : leU32 buf p with
        | error f => rw [hlen] at h; cases h
        | ok plen =>
            rw [hlen, bind_ok] at h
            split at h
            · cases h
            · cases hs : sliceAt buf (p + 4) plen with
              | error f => rw [hs] at h; cases h
              | ok bytes =>
                  rw [hs, bind_ok] at h
                  cases hutf : fromUtf8 bytes with
                  | none => rw [hutf] at h; cases h
                  | some s =>
                      rw [hutf] at h
                      obtain rfl := Except.ok.inj h
                      rw [utf8_of_fromUtf8 hutf, length_of_sliceAt hs]
                      exact lt_of_leAt hlen
  | succ i ih =>
      rw [scanPath] at h
      split at h
      · cases h
      · cases hlen : leU32 buf p with
        | error f => rw [hlen] at h; cases h
        | ok plen =>
            rw [hlen, bind_ok] at h
            split at h
            · cases h
            · exact ih h

end DeepFinder
