import DeepFinder.Lib.Bytes

/-!
# Errors, panics, strings and raw byte access

Every fallible function of the source either returns `Ok`, returns `Err(CoreError)`, or
panics (a slice index out of range, an arithmetic overflow, an `unwrap` on `None`).  A loop
can also fail to end.  `Res` keeps the four apart: `?` propagates `Fault.err` and a panic
alike, but only `Fault.err` is what a caller's `unwrap_or_default` or `match` can catch.

A Rust `String` is a Lean `String`: both are UTF-8 byte arrays with a validity proof, so
`as_bytes` is `utf8` and `String::from_utf8` is `fromUtf8`.  Integers are natural numbers; an
`as u32` cast is written `% 2 ^ 32` (or disappears into the four digits of `toLE 4`).
-/

namespace DeepFinder

open ByteString

/-- `CoreError`, with the message each constructor carries. -/
inductive CoreError where
  | dbFormat (msg : String)
  | codec (msg : String)
  | query (msg : String)
  | io (msg : String)
  deriving DecidableEq, Repr

/-- How a computation can fail to return `Ok`. -/
inductive Fault where
  | err (e : CoreError)
  | panicked
  | diverged
  deriving DecidableEq, Repr

abbrev Res := Except Fault

/-- `Result::unwrap_or_default`: an `Err` becomes the default, a panic stays a panic. -/
def Res.unwrapOr {α : Type} (dflt : α) : Res α → Res α
  | .error (.err _) => .ok dflt
  | r => r

/-- `Result::ok`: an `Err` becomes `None`, a panic stays a panic. -/
def Res.toOption {α : Type} : Res α → Res (Option α)
  | .ok a => .ok (some a)
  | .error (.err _) => .ok none
  | .error f => .error f

@[simp] lemma Res.unwrapOr_ok {α : Type} (d a : α) :
    Res.unwrapOr d (.ok a) = .ok a := rfl

@[simp] lemma Res.toOption_ok {α : Type} (a : α) :
    Res.toOption (.ok a : Res α) = .ok (some a) := rfl

@[simp] lemma Res.toOption_err {α : Type} (e : CoreError) :
    Res.toOption (.error (.err e) : Res α) = .ok none := rfl

@[simp] lemma bind_ok {α β : Type} (a : α) (f : α → Res β) :
    (Except.ok a >>= f : Res β) = f a := rfl

@[simp] lemma bind_error {α β : Type} (e : Fault) (f : α → Res β) :
    (Except.error e >>= f : Res β) = .error e := rfl

lemma bind_eq_ok_iff {α β : Type} {r : Res α} {f : α → Res β} {b : β} :
    (r >>= f) = .ok b ↔ ∃ a, r = .ok a ∧ f a = .ok b := by
  rcases r with e | a
  · simp
  · simp

lemma mapM_eq_ok {α β : Type} {f : α → Res β} {g : α → β} {l : List α}
    (h : ∀ x ∈ l, f x = .ok (g x)) : l.mapM f = .ok (l.map g) := by
  induction l with
  | nil => rfl
  | cons a l ih =>
      rw [List.mapM_cons, h a (List.mem_cons_self ..),
        ih fun x hx => h x (List.mem_cons_of_mem _ hx)]
      rfl

lemma mem_of_mapM_eq_ok {α β : Type} {f : α → Res β} {l : List α} {bs : List β} {b : β}
    (h : l.mapM f = .ok bs) (hb : b ∈ bs) : ∃ a ∈ l, f a = .ok b := by
  induction l generalizing bs with
  | nil =>
      obtain rfl := Except.ok.inj h
      cases hb
  | cons a l ih =>
      rw [List.mapM_cons] at h
      obtain ⟨c, hc, h⟩ := bind_eq_ok_iff.mp h
      obtain ⟨cs, hcs, h⟩ := bind_eq_ok_iff.mp h
      obtain rfl := Except.ok.inj h
      rcases List.mem_cons.mp hb with rfl | hb
      · exact ⟨a, List.mem_cons_self .., hc⟩
      · obtain ⟨x, hx, hfx⟩ := ih hcs hb
        exact ⟨x, List.mem_cons_of_mem _ hx, hfx⟩

/-! ## Strings and metadata -/

/-- `str::as_bytes`. -/
def utf8 (s : String) : Bytes := s.toByteArray.data.toList

/-- `String::from_utf8`. -/
def fromUtf8 (bs : Bytes) : Option String := String.fromUTF8? ⟨bs.toArray⟩

@[simp] lemma fromUtf8_utf8 (s : String) : fromUtf8 (utf8 s) = some s := by
  have hvalid : (⟨s.toByteArray.data⟩ : ByteArray).IsValidUTF8 := s.isValidUTF8
  simp [fromUtf8, utf8, String.fromUTF8?, String.fromUTF8, hvalid]

lemma utf8_of_fromUtf8 {bs : Bytes} {s : String} (h : fromUtf8 bs = some s) : utf8 s = bs := by
  unfold fromUtf8 String.fromUTF8? at h
  split at h
  · obtain rfl := Option.some.inj h
    rfl
  · cases h

lemma utf8_injective : Function.Injective utf8 := fun a b h => by
  have hab : fromUtf8 (utf8 a) = fromUtf8 (utf8 b) := congrArg fromUtf8 h
  simpa using hab

lemma utf8_append (a b : String) : utf8 (a ++ b) = utf8 a ++ utf8 b := by
  simp [utf8, ByteArray.data_append]

lemma infix_utf8 {s t : String} (h : s.toList <:+: t.toList) : utf8 s <:+: utf8 t := by
  obtain ⟨a, b, hab⟩ := h
  have ht : t = String.ofList a ++ s ++ String.ofList b := by
    rw [← String.toList_inj, ← hab]
    simp
  rw [ht, utf8_append, utf8_append]
  exact ⟨_, _, rfl⟩

lemma utf8_eq_flatMap (s : String) : utf8 s = s.toList.flatMap String.utf8EncodeChar := by
  rw [utf8, ← String.utf8Encode_toList, List.utf8Encode, List.toList_data_toByteArray]

lemma length_le_utf8 (s : String) : s.toList.length ≤ (utf8 s).length := by
  rw [utf8_eq_flatMap]
  induction s.toList with
  | nil => exact Nat.le_refl 0
  | cons c cs ih =>
      have hc : 0 < (String.utf8EncodeChar c).length :=
        List.length_pos_iff.mpr String.utf8EncodeChar_ne_nil
      rw [List.flatMap_cons, List.length_append, List.length_cons]
      omega

/-- `LiteMeta`: what a result carries beside its path. -/
structure LiteMeta where
  isDir : Bool
  size : Int64
  mtime : Int64
  deriving DecidableEq, Repr

/-- `LiteMeta::default`. -/
instance : Inhabited LiteMeta := ⟨⟨false, 0, 0⟩⟩

/-! ## Indexing -/

/-- `&buf[at..at + n]`: panics when the range overruns the slice. -/
def sliceAt (buf : Bytes) (pos n : ℕ) : Res Bytes :=
  match subslice buf pos n with
  | some s => .ok s
  | none => .error .panicked

/-- `buf[at]`: panics when out of range. -/
def byteAt (buf : Bytes) (pos : ℕ) : Res UInt8 :=
  match buf[pos]? with
  | some b => .ok b
  | none => .error .panicked

/-- `uN::from_le_bytes(buf[at..at + k].try_into().unwrap())`. -/
def leAt (buf : Bytes) (pos k : ℕ) : Res ℕ := do
  let s ← sliceAt buf pos k
  pure (ofLE s)

/-- `a + b` in 64 bits: panics on overflow. -/
def add64 (a b : ℕ) : Res ℕ := if a + b < 2 ^ 64 then .ok (a + b) else .error .panicked

lemma add64_eq {a b : ℕ} (h : a + b < 2 ^ 64) : add64 a b = .ok (a + b) := if_pos h

/-- `a + b` on `u32`, where an overflow panics. -/
def add32 (a b : ℕ) : Res ℕ := if a + b < 2 ^ 32 then .ok (a + b) else .error .panicked

lemma add32_eq {a b : ℕ} (h : a + b < 2 ^ 32) : add32 a b = .ok (a + b) := if_pos h

lemma add32_eq_ok {a b c : ℕ} (h : add32 a b = .ok c) : c = a + b ∧ a + b < 2 ^ 32 := by
  unfold add32 at h
  split at h
  · exact ⟨(Except.ok.inj h).symm, ‹_›⟩
  · cases h

/-- What `+` does past the end of its type: a build with overflow checks panics there, as the debug
and test profiles have it, and one without wraps, as the release profile has it. -/
inductive Overflow where
  | panics
  | wraps
  deriving DecidableEq, Repr

/-- `a + b` on `u32` under either profile. -/
def Overflow.add32 : Overflow → ℕ → ℕ → Res ℕ
  | .panics, a, b => DeepFinder.add32 a b
  | .wraps, a, b => .ok ((a + b) % 2 ^ 32)

lemma Overflow.add32_eq {a b : ℕ} (ov : Overflow) (h : a + b < 2 ^ 32) :
    ov.add32 a b = .ok (a + b) := by
  cases ov with
  | panics => exact DeepFinder.add32_eq h
  | wraps => rw [Overflow.add32, Nat.mod_eq_of_lt h]

/-- `le_u32` / `rd_u32`. -/
abbrev leU32 (buf : Bytes) (pos : ℕ) : Res ℕ := leAt buf pos 4

/-- `le_u64` / `rd_u64`. -/
abbrev leU64 (buf : Bytes) (pos : ℕ) : Res ℕ := leAt buf pos 8

/-- `i64::from_le_bytes`. -/
def leI64 (buf : Bytes) (pos : ℕ) : Res Int64 := do
  let n ← leAt buf pos 8
  pure (UInt64.ofNat n).toInt64

/-- `i64::to_le_bytes`. -/
def i64LE (x : Int64) : Bytes := toLE 8 x.toUInt64.toNat

@[simp] lemma length_i64LE (x : Int64) : (i64LE x).length = 8 := by simp [i64LE]

lemma sliceAt_eq_ok {buf s : Bytes} {pos n : ℕ} (h : subslice buf pos n = some s) :
    sliceAt buf pos n = .ok s := by simp [sliceAt, h]

lemma sliceAt_mid (a b c : Bytes) : sliceAt (a ++ (b ++ c)) a.length b.length = .ok b :=
  sliceAt_eq_ok (subslice_mid a b c)

lemma sliceAt_append_right {a b : Bytes} {pos n : ℕ} (h : a.length ≤ pos) :
    sliceAt (a ++ b) pos n = sliceAt b (pos - a.length) n := by
  rw [sliceAt, subslice_append_right h, sliceAt]

lemma subslice_of_sliceAt {buf s : Bytes} {pos n : ℕ} (h : sliceAt buf pos n = .ok s) :
    subslice buf pos n = some s := by
  unfold sliceAt at h
  split at h
  · rename_i s' hs
    rw [hs]
    exact congrArg some (Except.ok.inj h)
  · cases h

lemma leAt_of_sliceAt {buf s : Bytes} {pos w o k : ℕ} (h : sliceAt buf pos w = .ok s)
    (hok : o + k ≤ w) : leAt buf (pos + o) k = leAt s o k := by
  rw [leAt, leAt, sliceAt, sliceAt, subslice_subslice (subslice_of_sliceAt h) hok]

lemma length_of_sliceAt {buf s : Bytes} {pos n : ℕ} (h : sliceAt buf pos n = .ok s) :
    s.length = n := length_of_subslice (subslice_of_sliceAt h)

lemma lt_of_leAt {buf : Bytes} {pos k n : ℕ} (h : leAt buf pos k = .ok n) : n < 256 ^ k := by
  unfold leAt at h
  cases hs : sliceAt buf pos k with
  | error f => rw [hs] at h; cases h
  | ok s =>
      rw [hs] at h
      obtain rfl := Except.ok.inj h
      have hlt := ofLE_lt s
      rwa [length_of_sliceAt hs] at hlt

lemma leAt_append_right {a b : Bytes} {pos k : ℕ} (h : a.length ≤ pos) :
    leAt (a ++ b) pos k = leAt b (pos - a.length) k := by
  rw [leAt, sliceAt_append_right h, leAt]

lemma leAt_toLE (k n : ℕ) (post : Bytes) : leAt (toLE k n ++ post) 0 k = .ok (n % 256 ^ k) := by
  have h : sliceAt (toLE k n ++ post) 0 k = .ok (toLE k n) := by
    simpa using sliceAt_mid [] (toLE k n) post
  rw [leAt, h]
  exact congrArg Except.ok (ofLE_toLE k n)

lemma leAt_of_standsAt {buf : Bytes} {off k n : ℕ} (h : StandsAt buf off (toLE k n))
    (hn : n < 256 ^ k) : leAt buf off k = .ok n := by
  have hs : subslice buf off k = some (toLE k n) := by
    have := h.subslice
    rwa [length_toLE] at this
  rw [leAt, sliceAt_eq_ok hs]
  exact congrArg Except.ok (ofLE_toLE_of_lt hn)

lemma leU32_toLE {n : ℕ} (hn : n < 2 ^ 32) (post : Bytes) :
    leU32 (toLE 4 n ++ post) 0 = .ok n := by
  rw [leU32, leAt_toLE, Nat.mod_eq_of_lt (by simpa using hn)]

lemma leU64_toLE {n : ℕ} (hn : n < 2 ^ 64) (post : Bytes) :
    leU64 (toLE 8 n ++ post) 0 = .ok n := by
  rw [leU64, leAt_toLE, Nat.mod_eq_of_lt (by simpa using hn)]

lemma leAt_mid (pre : Bytes) (k n : ℕ) (post : Bytes) :
    leAt (pre ++ (toLE k n ++ post)) pre.length k = .ok (n % 256 ^ k) := by
  rw [leAt_append_right le_rfl, Nat.sub_self, leAt_toLE]

lemma leU32_mid (pre : Bytes) {n : ℕ} (hn : n < 2 ^ 32) (post : Bytes) :
    leU32 (pre ++ (toLE 4 n ++ post)) pre.length = .ok n := by
  rw [leU32, leAt_mid, Nat.mod_eq_of_lt (by simpa using hn)]

lemma leI64_i64LE (x : Int64) (post : Bytes) : leI64 (i64LE x ++ post) 0 = .ok x := by
  have hx : x.toUInt64.toNat < 2 ^ 64 := x.toUInt64.toNat_lt
  rw [leI64, i64LE, show leAt (toLE 8 x.toUInt64.toNat ++ post) 0 8 = _ from
    leU64_toLE hx post]
  exact congrArg Except.ok (by rw [UInt64.ofNat_toNat, Int64.toInt64_toUInt64])

lemma leI64_append_right {a b : Bytes} {pos : ℕ} (h : a.length ≤ pos) :
    leI64 (a ++ b) pos = leI64 b (pos - a.length) := by
  rw [leI64, leAt_append_right h, leI64]

end DeepFinder
