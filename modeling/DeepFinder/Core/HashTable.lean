import DeepFinder.Core.Trigram
import DeepFinder.Core.TurboPFor
import DeepFinder.Lib.RobinHood
import DeepFinder.Lib.AssocMap
import Mathlib.Data.Nat.Log
import Mathlib.Data.Finset.Card

/-!
# The trigram table

Both index formats keep their posting lists in a Robin Hood table of 20-byte slots, keyed by
trigram, whose entries point at the encoded posting.  The byte-level builder is simulated by
`RobinHood.build` slot for slot (`buildRobinHoodWith_eq`), and the readers' walk by
`RobinHood.lookup` (`findRefLoop_eq`); neither depends on what the hash function does.  Together
they say that a table answers every key with its entry (`findRef_built`), and that one built from
a map of posting lists answers every trigram with its list (`probe_built`).
-/

namespace DeepFinder

open ByteString

/-- `EMPTY_KEY`. -/
def emptyKey : ℕ := 0xFFFFFFFF

/-- `SLOT_LEN`. -/
def slotLen : ℕ := 20

/-- `hash`: the splitmix-style avalanche, on wrapping 32-bit words. -/
def hash (x : ℕ) : ℕ :=
  let z : UInt32 := UInt32.ofNat x + 0x9E3779B9
  let z := (z ^^^ (z >>> 16)) * 0x85ebca6b
  let z := (z ^^^ (z >>> 13)) * 0xc2b2ae35
  (z ^^^ (z >>> 16)).toNat

/-- Where an encoded posting lies: the `count`, `off` and `len` of a slot. -/
structure PostingRef where
  count : ℕ
  off : ℕ
  len : ℕ
  deriving DecidableEq, Repr

/-! ## Building the table -/

/-- `u64::next_power_of_two`. -/
def nextPowerOfTwo (n : ℕ) : ℕ := 2 ^ Nat.clog 2 n

/-- `u64::trailing_zeros`. -/
def trailingZeros (n : ℕ) : ℕ := ((List.range 64).find? fun i => n.testBit i).getD 64

def slotBytes (key : ℕ) (r : PostingRef) : Bytes :=
  toLE 4 key ++ (toLE 4 r.count ++ (toLE 8 r.off ++ toLE 4 r.len))

/-- `write_slot`. -/
def writeSlot (table : Bytes) (idx key : ℕ) (r : PostingRef) : Res Bytes :=
  if idx * slotLen + slotLen ≤ table.length then
    .ok (overwrite table (idx * slotLen) (slotBytes key r))
  else .error .panicked

/-- The insertion loop of `build_robin_hood`. -/
def insertLoop (slots mask : ℕ) : ℕ → Bytes → ℕ → ℕ × PostingRef → ℕ → Res Bytes
  | 0, _, _, _, _ => .error .diverged
  | fuel + 1, table, idx, e, probe => do
      let slotKey ← leU32 table (idx * slotLen)
      if slotKey = emptyKey then writeSlot table idx e.1 e.2
      else
        let ideal := hash slotKey &&& mask
        let theirProbe := (idx + slots - ideal) &&& mask
        if theirProbe < probe then do
          let count ← leU32 table (idx * slotLen + 4)
          let off ← leU64 table (idx * slotLen + 8)
          let len ← leU32 table (idx * slotLen + 16)
          let table ← writeSlot table idx e.1 e.2
          insertLoop slots mask fuel table ((idx + 1) &&& mask) (slotKey, ⟨count, off, len⟩)
            (theirProbe + 1)
        else insertLoop slots mask fuel table ((idx + 1) &&& mask) e (probe + 1)

/-- `build_robin_hood`.  A walk that visits `slots` slots without finding an empty one never
will. -/
def buildRobinHood (entries : List (ℕ × PostingRef)) (slots : ℕ) : Res Bytes :=
  if slots = 0 then .ok []
  else
    let mask := slots - 1
    let table := (List.replicate slots ()).flatMap fun _ => slotBytes emptyKey ⟨0, 0, 0⟩
    entries.foldlM (fun table e => insertLoop slots mask slots table (hash e.1 &&& mask) e 0) table

/-- The number of slots for `n` entries. -/
def slotCount (n : ℕ) : ℕ := if n = 0 then 0 else max (nextPowerOfTwo (n * 2)) 1

/-- `slots_log2`. -/
def slotsLog2 (slots : ℕ) : ℕ := if slots = 0 then 0 else trailingZeros slots

/-- `slots` from `slots_log2`; the shift overflows from 64 on. -/
def slotsOfLog2 (log2 : ℕ) : Res ℕ :=
  if log2 = 0 then .ok 0 else if log2 < 64 then .ok (1 <<< log2) else .error .panicked

/-! ## Posting lists -/

def deltas : ℕ → List ℕ → List ℕ
  | _, [] => []
  | prev, d :: ds => (d - prev) :: deltas d ds

/-- The prefix sums of the deltas, `checked_add`ed in 32 bits. -/
def prefixSums : ℕ → List ℕ → Res (List ℕ)
  | _, [] => .ok []
  | prev, d :: ds =>
      if prev + d < 2 ^ 32 then do
        let rest ← prefixSums (prev + d) ds
        pure ((prev + d) :: rest)
      else .error (.err (.codec "docid overflow"))

/-- The loop over `try_map` that encodes the postings and records where each lies; `base` is
the offset of the posting section. -/
def encodePostings (base : ℕ) (tryMap : OrderedMap ℕ (List ℕ)) :
    List (ℕ × PostingRef) × Bytes :=
  tryMap.foldl
    (fun acc b =>
      let enc := TurboPFor.encode (deltas 0 b.2)
      (acc.1 ++ [(b.1, ⟨b.2.length, base + acc.2.length, enc.length⟩)], acc.2 ++ enc))
    ([], [])

/-! ## Probing -/

/-- The probe loop of the two `posting` methods: `readSlot` reads the 20 bytes of a slot and
`readEnc` the bytes of an encoded posting. -/
def probeLoop (slots mask trig : ℕ) (readSlot : ℕ → Res Bytes) (readEnc : ℕ → ℕ → Res Bytes) :
    ℕ → ℕ → ℕ → Res (Option (List ℕ))
  | 0, _, _ => .error .diverged
  | fuel + 1, idx, probe => do
      let slot ← readSlot idx
      let key ← leU32 slot 0
      if key = emptyKey then pure none
      else
        let ideal := hash key &&& mask
        let theirProbe := (idx + slots - ideal) &&& mask
        if theirProbe < probe then pure none
        else if key = trig then do
          let count ← leU32 slot 4
          let off ← leU64 slot 8
          let len ← leU32 slot 16
          let enc ← readEnc off len
          let ds ← TurboPFor.decode enc count
          let post ← prefixSums 0 ds
          pure (some post)
        else probeLoop slots mask trig readSlot readEnc fuel ((idx + 1) &&& mask) (probe + 1)

/-- The probe from the home slot.  After `slots` steps the walk is longer than any distance. -/
def probe (slots mask trig : ℕ) (readSlot : ℕ → Res Bytes) (readEnc : ℕ → ℕ → Res Bytes) :
    Res (Option (List ℕ)) :=
  probeLoop slots mask trig readSlot readEnc (slots + 1) (hash trig &&& mask) 0

/-! ## The table under any hash function -/

section AnyHash

variable (hashFn : ℕ → ℕ)

/-- The insertion loop of `build_robin_hood`, for any hash function. -/
def insertLoopWith (slots mask : ℕ) : ℕ → Bytes → ℕ → ℕ × PostingRef → ℕ → Res Bytes
  | 0, _, _, _, _ => .error .diverged
  | fuel + 1, table, idx, e, probe => do
      let slotKey ← leU32 table (idx * slotLen)
      if slotKey = emptyKey then writeSlot table idx e.1 e.2
      else
        let ideal := hashFn slotKey &&& mask
        let theirProbe := (idx + slots - ideal) &&& mask
        if theirProbe < probe then do
          let count ← leU32 table (idx * slotLen + 4)
          let off ← leU64 table (idx * slotLen + 8)
          let len ← leU32 table (idx * slotLen + 16)
          let table ← writeSlot table idx e.1 e.2
          insertLoopWith slots mask fuel table ((idx + 1) &&& mask) (slotKey, ⟨count, off, len⟩)
            (theirProbe + 1)
        else insertLoopWith slots mask fuel table ((idx + 1) &&& mask) e (probe + 1)

/-- `build_robin_hood`, for any hash function. -/
def buildRobinHoodWith (entries : List (ℕ × PostingRef)) (slots : ℕ) : Res Bytes :=
  if slots = 0 then .ok []
  else
    let mask := slots - 1
    let table := (List.replicate slots ()).flatMap fun _ => slotBytes emptyKey ⟨0, 0, 0⟩
    entries.foldlM
      (fun table e => insertLoopWith hashFn slots mask slots table (hashFn e.1 &&& mask) e 0) table

/-- The probe loop of the two `posting` methods, for any hash function, up to the slot that
holds the trigram. -/
def findRefLoop (slots mask trig : ℕ) (readSlot : ℕ → Res Bytes) :
    ℕ → ℕ → ℕ → Res (Option PostingRef)
  | 0, _, _ => .error .diverged
  | fuel + 1, idx, probe => do
      let slot ← readSlot idx
      let key ← leU32 slot 0
      if key = emptyKey then pure none
      else
        let ideal := hashFn key &&& mask
        let theirProbe := (idx + slots - ideal) &&& mask
        if theirProbe < probe then pure none
        else if key = trig then do
          let count ← leU32 slot 4
          let off ← leU64 slot 8
          let len ← leU32 slot 16
          pure (some ⟨count, off, len⟩)
        else findRefLoop slots mask trig readSlot fuel ((idx + 1) &&& mask) (probe + 1)

def findRef (slots mask trig : ℕ) (readSlot : ℕ → Res Bytes) : Res (Option PostingRef) :=
  findRefLoop hashFn slots mask trig readSlot (slots + 1) (hashFn trig &&& mask) 0

end AnyHash

def decodeRef (readEnc : ℕ → ℕ → Res Bytes) (r : PostingRef) : Res (Option (List ℕ)) := do
  let enc ← readEnc r.off r.len
  let ds ← TurboPFor.decode enc r.count
  let post ← prefixSums 0 ds
  pure (some post)

def decodeFound (readEnc : ℕ → ℕ → Res Bytes) : Option PostingRef → Res (Option (List ℕ))
  | none => pure none
  | some r => decodeRef readEnc r

lemma insertLoop_eq_with (slots mask fuel : ℕ) (table : Bytes) (idx : ℕ) (e : ℕ × PostingRef)
    (pr : ℕ) : insertLoop slots mask fuel table idx e pr =
      insertLoopWith hash slots mask fuel table idx e pr := by
  induction fuel generalizing table idx e pr with
  | zero => rfl
  | succ fuel ih => simp only [insertLoop, insertLoopWith, ih]

lemma buildRobinHood_eq_with (entries : List (ℕ × PostingRef)) (slots : ℕ) :
    buildRobinHood entries slots = buildRobinHoodWith hash entries slots := by
  simp only [buildRobinHood, buildRobinHoodWith, insertLoop_eq_with]

/-- The readers decode what the general walk finds at their own hash function. -/
lemma probeLoop_eq_findRef (slots mask trig : ℕ) (readSlot : ℕ → Res Bytes)
    (readEnc : ℕ → ℕ → Res Bytes) (fuel idx pr : ℕ) :
    probeLoop slots mask trig readSlot readEnc fuel idx pr =
      findRefLoop hash slots mask trig readSlot fuel idx pr >>= decodeFound readEnc := by
  induction fuel generalizing idx pr with
  | zero => rfl
  | succ fuel ih =>
      rw [probeLoop, findRefLoop]
      cases readSlot idx with
      | error f => rfl
      | ok slot =>
          rw [bind_ok, bind_ok]
          cases leU32 slot 0 with
          | error f => rfl
          | ok key =>
              rw [bind_ok, bind_ok, ih]
              split
              · rfl
              · dsimp only
                split
                · rfl
                · split
                  · cases leU32 slot 4 <;> cases leU64 slot 8 <;> cases leU32 slot 16 <;> rfl
                  · rfl

lemma probe_eq_findRef (slots mask trig : ℕ) (readSlot : ℕ → Res Bytes)
    (readEnc : ℕ → ℕ → Res Bytes) :
    probe slots mask trig readSlot readEnc =
      findRef hash slots mask trig readSlot >>= decodeFound readEnc :=
  probeLoop_eq_findRef ..

/-! ## Slots and masks -/

@[simp] lemma length_slotBytes (key : ℕ) (r : PostingRef) :
    (slotBytes key r).length = slotLen := by
  simp [slotBytes, slotLen]

lemma length_of_writeSlot {table out : Bytes} {idx key : ℕ} {r : PostingRef}
    (h : writeSlot table idx key r = .ok out) : out.length = table.length := by
  unfold writeSlot at h
  split at h
  · obtain rfl := Except.ok.inj h
    rw [overwrite, List.length_append, List.length_append, List.length_take, List.length_drop,
      length_slotBytes]
    omega
  · cases h

lemma length_of_insertLoop {slots mask fuel : ℕ} {table out : Bytes} {idx probe : ℕ}
    {e : ℕ × PostingRef} (h : insertLoop slots mask fuel table idx e probe = .ok out) :
    out.length = table.length := by
  induction fuel generalizing table idx e probe with
  | zero => cases h
  | succ fuel ih =>
      rw [insertLoop] at h
      obtain ⟨slotKey, -, h⟩ := bind_eq_ok_iff.mp h
      split at h
      · exact length_of_writeSlot h
      · dsimp only at h
        split at h
        · obtain ⟨count, -, h⟩ := bind_eq_ok_iff.mp h
          obtain ⟨off, -, h⟩ := bind_eq_ok_iff.mp h
          obtain ⟨len, -, h⟩ := bind_eq_ok_iff.mp h
          obtain ⟨table', htable', h⟩ := bind_eq_ok_iff.mp h
          rw [ih h, length_of_writeSlot htable']
        · exact ih h

/-- A table has the slots it was made with. -/
lemma length_of_buildRobinHood {entries : List (ℕ × PostingRef)} {slots : ℕ} {out : Bytes}
    (h : buildRobinHood entries slots = .ok out) : out.length = slots * slotLen := by
  unfold buildRobinHood at h
  split at h
  · rename_i hzero
    obtain rfl := Except.ok.inj h
    rw [hzero, Nat.zero_mul, List.length_nil]
  · dsimp only at h
    have hfold : ∀ (es : List (ℕ × PostingRef)) (table : Bytes), es.foldlM (fun table e =>
        insertLoop slots (slots - 1) slots table (hash e.1 &&& (slots - 1)) e 0) table = .ok out →
        out.length = table.length := by
      intro es
      induction es with
      | nil =>
          intro table hnil
          rw [Except.ok.inj hnil]
      | cons e es ih =>
          intro table hcons
          rw [List.foldlM_cons] at hcons
          obtain ⟨table', htable', hrest⟩ := bind_eq_ok_iff.mp hcons
          rw [ih table' hrest, length_of_insertLoop htable']
    rw [hfold entries _ h, length_flatMap_of_width fun _ => length_slotBytes _ _,
      List.length_replicate]

/-- An entry whose fields fit their slot and whose key is not the empty marker. -/
structure ValidEntry (e : ℕ × PostingRef) : Prop where
  key_lt : e.1 < emptyKey
  count_lt : e.2.count < 2 ^ 32
  off_lt : e.2.off < 2 ^ 64
  len_lt : e.2.len < 2 ^ 32

lemma leU32_slotBytes_key {key : ℕ} (h : key < 2 ^ 32) (r : PostingRef) :
    leU32 (slotBytes key r) 0 = .ok key := leU32_toLE h _

lemma leU32_slotBytes_count {e : ℕ × PostingRef} (h : ValidEntry e) :
    leU32 (slotBytes e.1 e.2) 4 = .ok e.2.count := by
  simpa [slotBytes] using
    leU32_mid (toLE 4 e.1) h.count_lt (toLE 8 e.2.off ++ toLE 4 e.2.len)

lemma leU64_slotBytes_off {e : ℕ × PostingRef} (h : ValidEntry e) :
    leU64 (slotBytes e.1 e.2) 8 = .ok e.2.off := by
  have hmid := leAt_mid (toLE 4 e.1 ++ toLE 4 e.2.count) 8 e.2.off (toLE 4 e.2.len)
  rw [Nat.mod_eq_of_lt (show e.2.off < 256 ^ 8 from h.off_lt)] at hmid
  simpa [slotBytes] using hmid

lemma leU32_slotBytes_len {e : ℕ × PostingRef} (h : ValidEntry e) :
    leU32 (slotBytes e.1 e.2) 16 = .ok e.2.len := by
  simpa [slotBytes] using
    leU32_mid (toLE 4 e.1 ++ (toLE 4 e.2.count ++ toLE 8 e.2.off)) h.len_lt []

def slotOf : Option (ℕ × PostingRef) → Bytes
  | none => slotBytes emptyKey ⟨0, 0, 0⟩
  | some e => slotBytes e.1 e.2

def tableBytes (t : RobinHood.Table ℕ PostingRef) : Bytes := t.flatMap slotOf

lemma length_slotOf (s : Option (ℕ × PostingRef)) : (slotOf s).length = slotLen := by
  cases s <;> exact length_slotBytes ..

@[simp] lemma length_tableBytes (t : RobinHood.Table ℕ PostingRef) :
    (tableBytes t).length = t.length * slotLen := length_flatMap_of_width length_slotOf t

def ValidTable (t : RobinHood.Table ℕ PostingRef) : Prop :=
  ∀ i e, RobinHood.Occ t i e → ValidEntry e

/-- The home slot of a key in a table of `slots` slots. -/
def homeWith (hashFn : ℕ → ℕ) (slots key : ℕ) : ℕ := hashFn key % slots

lemma and_mask {slots k : ℕ} (h : slots = 2 ^ k) (x : ℕ) : x &&& (slots - 1) = x % slots := by
  rw [h, Nat.and_two_pow_sub_one_eq_mod]

lemma homeWith_lt {slots : ℕ} (hashFn : ℕ → ℕ) (h : 0 < slots) (key : ℕ) :
    homeWith hashFn slots key < slots := Nat.mod_lt _ h

lemma theirProbe_eq {slots k : ℕ} (h : slots = 2 ^ k) (hashFn : ℕ → ℕ) (idx key : ℕ) :
    (idx + slots - (hashFn key &&& (slots - 1))) &&& (slots - 1) =
      RobinHood.dist slots idx (homeWith hashFn slots key) := by
  rw [and_mask h, and_mask h]
  rfl

lemma sliceAt_tableBytes {t : RobinHood.Table ℕ PostingRef} {idx : ℕ}
    {s : Option (ℕ × PostingRef)} (h : t[idx]? = some s) :
    sliceAt (tableBytes t) (idx * slotLen) slotLen = .ok (slotOf s) :=
  sliceAt_eq_ok (subslice_record length_slotOf h)

lemma writeSlot_tableBytes {t : RobinHood.Table ℕ PostingRef} {idx : ℕ} (h : idx < t.length)
    (e : ℕ × PostingRef) :
    writeSlot (tableBytes t) idx e.1 e.2 = .ok (tableBytes (t.set idx (some e))) := by
  have hle : (idx + 1) * slotLen ≤ t.length * slotLen := Nat.mul_le_mul_right _ h
  rw [Nat.succ_mul] at hle
  rw [writeSlot, length_tableBytes, if_pos hle]
  exact congrArg Except.ok (overwrite_record length_slotOf h (some e))

lemma ValidTable.set {t : RobinHood.Table ℕ PostingRef} (h : ValidTable t) {idx : ℕ}
    (hidx : idx < t.length) {e : ℕ × PostingRef} (he : ValidEntry e) :
    ValidTable (t.set idx (some e)) := by
  intro i r hr
  rcases (RobinHood.occ_set hidx).mp hr with ⟨-, rfl⟩ | ⟨-, hr⟩
  · exact he
  · exact h i r hr

lemma ValidEntry.key_ne {e : ℕ × PostingRef} (h : ValidEntry e) : e.1 ≠ emptyKey :=
  ne_of_lt h.key_lt

lemma ValidEntry.key_lt_two_pow {e : ℕ × PostingRef} (h : ValidEntry e) : e.1 < 2 ^ 32 :=
  h.key_lt.trans (by decide)

/-! ## The builder simulates the abstract table -/

section Simulation

variable {slots k : ℕ} (hashFn : ℕ → ℕ)

/-- Whatever the abstract insertion does, the byte-level one does to the bytes. -/
lemma insertLoopWith_eq (hslots : slots = 2 ^ k) :
    ∀ (fuel : ℕ) {t t' : RobinHood.Table ℕ PostingRef} {idx : ℕ} {e : ℕ × PostingRef} {pr : ℕ},
      ValidTable t → ValidEntry e →
      RobinHood.insertLoop slots (homeWith hashFn slots) fuel t idx e pr = some t' →
      insertLoopWith hashFn slots (slots - 1) fuel (tableBytes t) idx e pr = .ok (tableBytes t') ∧
        ValidTable t' := by
  intro fuel
  induction fuel with
  | zero => intro t t' idx e pr _ _ h; cases h
  | succ fuel ih =>
      intro t t' idx e pr ht he h
      rw [RobinHood.insertLoop] at h
      cases hslot : t[idx]? with
      | none => rw [hslot] at h; cases h
      | some s =>
          obtain ⟨hidx, -⟩ := List.getElem?_eq_some_iff.mp hslot
          have hread := sliceAt_tableBytes hslot
          have hfield : ∀ o n, o + n ≤ slotLen →
              leAt (tableBytes t) (idx * slotLen + o) n = leAt (slotOf s) o n :=
            fun o n hon => leAt_of_sliceAt hread hon
          have hkey : leU32 (tableBytes t) (idx * slotLen) = leU32 (slotOf s) 0 :=
            hfield 0 4 (by decide)
          rw [hslot] at h
          rw [insertLoopWith, hkey]
          cases s with
          | none =>
              obtain rfl := Option.some.inj h
              rw [slotOf, leU32_slotBytes_key (by decide), bind_ok,
                if_pos rfl]
              exact ⟨writeSlot_tableBytes hidx e, ht.set hidx he⟩
          | some r =>
              have hr : ValidEntry r := ht idx r hslot
              rw [slotOf, leU32_slotBytes_key hr.key_lt_two_pow, bind_ok, if_neg hr.key_ne]
              dsimp only at h ⊢
              rw [theirProbe_eq hslots, and_mask hslots]
              by_cases hlt : RobinHood.dist slots idx (homeWith hashFn slots r.1) < pr
              · rw [if_pos hlt] at h ⊢
                have hcount : leU32 (tableBytes t) (idx * slotLen + 4) = .ok r.2.count :=
                  (hfield 4 4 (by decide)).trans (leU32_slotBytes_count hr)
                have hoff : leU64 (tableBytes t) (idx * slotLen + 8) = .ok r.2.off :=
                  (hfield 8 8 (by decide)).trans (leU64_slotBytes_off hr)
                have hlen : leU32 (tableBytes t) (idx * slotLen + 16) = .ok r.2.len :=
                  (hfield 16 4 (by decide)).trans (leU32_slotBytes_len hr)
                rw [hcount, bind_ok, hoff, bind_ok, hlen, bind_ok, writeSlot_tableBytes hidx e,
                  bind_ok]
                exact ih (ht.set hidx he) hr h
              · rw [if_neg hlt] at h ⊢
                exact ih ht he h

lemma foldlM_insertLoopWith_eq (hslots : slots = 2 ^ k) (entries : List (ℕ × PostingRef))
    {t t' : RobinHood.Table ℕ PostingRef} (ht : ValidTable t)
    (hentries : ∀ e ∈ entries, ValidEntry e)
    (h : entries.foldlM (RobinHood.insert slots (homeWith hashFn slots)) t = some t') :
    entries.foldlM
        (fun table e =>
          insertLoopWith hashFn slots (slots - 1) slots table (hashFn e.1 &&& (slots - 1)) e 0)
        (tableBytes t) = .ok (tableBytes t') := by
  induction entries generalizing t with
  | nil =>
      obtain rfl := Option.some.inj h
      rfl
  | cons e entries ih =>
      rw [List.foldlM_cons] at h
      obtain ⟨t₁, hins, hrest⟩ := Option.bind_eq_some_iff.mp h
      obtain ⟨hbytes, ht₁⟩ := insertLoopWith_eq hashFn hslots slots ht
        (hentries e (List.mem_cons_self ..)) hins
      rw [List.foldlM_cons, and_mask hslots]
      rw [homeWith] at hbytes
      rw [hbytes, bind_ok]
      exact ih ht₁ (fun x hx => hentries x (List.mem_cons_of_mem _ hx)) hrest

/-- The byte-level table is the abstract one, slot for slot. -/
theorem buildRobinHoodWith_eq (hslots : slots = 2 ^ k) {entries : List (ℕ × PostingRef)}
    (hentries : ∀ e ∈ entries, ValidEntry e) {t : RobinHood.Table ℕ PostingRef}
    (h : RobinHood.build slots (homeWith hashFn slots) entries = some t) :
    buildRobinHoodWith hashFn entries slots = .ok (tableBytes t) := by
  have hempty : (List.replicate slots ()).flatMap (fun _ => slotBytes emptyKey ⟨0, 0, 0⟩) =
      tableBytes (List.replicate slots none) := by
    rw [tableBytes, List.flatMap_replicate, List.flatMap_replicate]
    rfl
  have hvalid : ValidTable (List.replicate slots none) := by
    intro i e he
    rw [RobinHood.Occ, List.getElem?_replicate] at he
    split at he <;> cases he
  rw [buildRobinHoodWith, if_neg (by rw [hslots]; exact (Nat.two_pow_pos k).ne')]
  dsimp only
  rw [hempty]
  exact foldlM_insertLoopWith_eq hashFn hslots entries hvalid hentries h

/-! ## The probe loop simulates the abstract lookup -/

/-- Whatever the abstract lookup finds, the byte-level walk finds. -/
lemma findRefLoop_eq (hslots : slots = 2 ^ k) {t : RobinHood.Table ℕ PostingRef} {trig : ℕ}
    {readSlot : ℕ → Res Bytes} (ht : ValidTable t)
    (hread : ∀ idx s, t[idx]? = some s → readSlot idx = .ok (slotOf s)) :
    ∀ (fuel : ℕ) {idx pr : ℕ} {found : Option PostingRef},
      RobinHood.lookupLoop slots (homeWith hashFn slots) t trig fuel idx pr = some found →
      findRefLoop hashFn slots (slots - 1) trig readSlot fuel idx pr = .ok found := by
  intro fuel
  induction fuel with
  | zero => intro idx pr found h; cases h
  | succ fuel ih =>
      intro idx pr found h
      rw [RobinHood.lookupLoop] at h
      cases hslot : t[idx]? with
      | none => rw [hslot] at h; cases h
      | some s =>
          rw [hslot] at h
          rw [findRefLoop, hread idx s hslot, bind_ok]
          cases s with
          | none =>
              obtain rfl := Option.some.inj h
              rw [slotOf, leU32_slotBytes_key (by decide), bind_ok,
                if_pos rfl]
              rfl
          | some r =>
              have hr : ValidEntry r := ht idx r hslot
              rw [slotOf, leU32_slotBytes_key hr.key_lt_two_pow, bind_ok, if_neg hr.key_ne]
              dsimp only at h ⊢
              rw [theirProbe_eq hslots, and_mask hslots]
              by_cases hlt : RobinHood.dist slots idx (homeWith hashFn slots r.1) < pr
              · rw [if_pos hlt] at h ⊢
                obtain rfl := Option.some.inj h
                rfl
              · rw [if_neg hlt] at h ⊢
                by_cases heq : r.1 = trig
                · rw [if_pos heq] at h ⊢
                  obtain rfl := Option.some.inj h
                  rw [leU32_slotBytes_count hr, bind_ok, leU64_slotBytes_off hr, bind_ok,
                    leU32_slotBytes_len hr, bind_ok]
                  rfl
                · rw [if_neg heq] at h ⊢
                  exact ih h

/-- A table of any entries with distinct keys that leave a slot free is built, and the walk over
it finds every key with its payload and no other key, whatever the hash function does. -/
theorem findRef_built (hslots : slots = 2 ^ k) {entries : List (ℕ × PostingRef)}
    (hvalid : ∀ e ∈ entries, ValidEntry e) (hnodup : (entries.map Prod.fst).Nodup)
    (hcount : entries.length < slots) :
    ∃ table, buildRobinHoodWith hashFn entries slots = .ok table ∧
      table.length = slots * slotLen ∧
      ∀ trig (readSlot : ℕ → Res Bytes),
        (∀ idx < slots, readSlot idx = sliceAt table (idx * slotLen) slotLen) →
        findRef hashFn slots (slots - 1) trig readSlot = .ok (entries.lookup trig) := by
  have hpos : 0 < slots := Nat.zero_lt_of_lt hcount
  have hhome : ∀ key, homeWith hashFn slots key < slots := homeWith_lt hashFn hpos
  obtain ⟨t, hbuild, hwf, hocc⟩ := RobinHood.build_spec hhome hnodup hcount
  have hvalidt : ValidTable t := fun i e he => hvalid e ((hocc e).mp ⟨i, he⟩)
  refine ⟨tableBytes t, buildRobinHoodWith_eq hashFn hslots hvalid hbuild, ?_, ?_⟩
  · rw [length_tableBytes, hwf.length_eq]
  · intro trig readSlot hslot
    have hread : ∀ idx s, t[idx]? = some s → readSlot idx = .ok (slotOf s) := by
      intro idx s hs
      obtain ⟨hidx, -⟩ := List.getElem?_eq_some_iff.mp hs
      rw [hslot idx (hwf.length_eq ▸ hidx), sliceAt_tableBytes hs]
    rw [findRef, and_mask hslots]
    refine findRefLoop_eq hashFn hslots hvalidt hread (slots + 1) ?_
    cases hfind : entries.lookup trig with
    | none =>
        have habs : ∀ i r, RobinHood.Occ t i r → r.1 ≠ trig := by
          intro i r hr heq
          have hmem := (hocc r).mp ⟨i, hr⟩
          exact AssocMap.lookup_eq_none.mp hfind (heq ▸ List.mem_map_of_mem hmem)
        exact RobinHood.lookup_of_absent hhome hwf.length_eq habs
    | some r =>
        obtain ⟨i, hi⟩ := (hocc (trig, r)).mpr (AssocMap.mem_of_lookup hfind)
        exact RobinHood.lookup_of_occ hhome hwf hi

end Simulation

/-! ## Posting lists as deltas -/

lemma length_deltas (prev : ℕ) (post : List ℕ) : (deltas prev post).length = post.length := by
  induction post generalizing prev with
  | nil => rfl
  | cons d ds ih => rw [deltas, List.length_cons, ih, List.length_cons]

lemma deltas_lt {post : List ℕ} {n : ℕ} (h : ∀ d ∈ post, d < n) (prev : ℕ) :
    ∀ x ∈ deltas prev post, x < n := by
  induction post generalizing prev with
  | nil => simp [deltas]
  | cons d ds ih =>
      intro x hx
      rcases List.mem_cons.mp hx with rfl | hx
      · exact lt_of_le_of_lt (Nat.sub_le _ _) (h d (List.mem_cons_self ..))
      · exact ih (fun y hy => h y (List.mem_cons_of_mem _ hy)) d x hx

/-- Summing the deltas of an ascending list gives the list back. -/
lemma prefixSums_deltas {post : List ℕ} (hasc : post.Pairwise (· < ·)) (prev : ℕ)
    (h : ∀ d ∈ post, prev ≤ d ∧ d < 2 ^ 32) : prefixSums prev (deltas prev post) = .ok post := by
  induction post generalizing prev with
  | nil => rfl
  | cons d ds ih =>
      obtain ⟨hlt, hasc⟩ := List.pairwise_cons.mp hasc
      obtain ⟨hle, hd⟩ := h d (List.mem_cons_self ..)
      have hsum : prev + (d - prev) = d := by omega
      have hrest := ih hasc d fun x hx =>
        ⟨(hlt x hx).le, (h x (List.mem_cons_of_mem _ hx)).2⟩
      rw [deltas, prefixSums, hsum, if_pos hd, hrest]
      rfl

/-- Behind the first entry every delta is positive, so the deltas sum to the last docid. -/
lemma sum_deltas_lt {post : List ℕ} (hasc : post.Pairwise (· < ·)) {prev n : ℕ} (hn : prev < n)
    (h : ∀ d ∈ post, prev < d ∧ d < n) :
    ((deltas prev post).map (max 1)).sum + prev < n := by
  induction post generalizing prev with
  | nil => simpa [deltas] using hn
  | cons d ds ih =>
      obtain ⟨hlt, hasc⟩ := List.pairwise_cons.mp hasc
      obtain ⟨hpd, hd⟩ := h d (List.mem_cons_self ..)
      have hrest := ih hasc hd fun x hx => ⟨hlt x hx, (h x (List.mem_cons_of_mem _ hx)).2⟩
      rw [deltas, List.map_cons, List.sum_cons, Nat.max_eq_right (by omega)]
      omega

lemma sum_deltas_le {post : List ℕ} (hasc : post.Pairwise (· < ·)) {n : ℕ}
    (h : ∀ d ∈ post, d < n) : ((deltas 0 post).map (max 1)).sum ≤ n := by
  cases post with
  | nil => simp [deltas]
  | cons d ds =>
      obtain ⟨hlt, hasc⟩ := List.pairwise_cons.mp hasc
      have hrest := sum_deltas_lt hasc (h d (List.mem_cons_self ..)) fun x hx =>
        ⟨hlt x hx, h x (List.mem_cons_of_mem _ hx)⟩
      have hmax : max 1 (d - 0) ≤ d + 1 := by omega
      rw [deltas, List.map_cons, List.sum_cons]
      omega

def encodePosting (post : List ℕ) : Bytes := TurboPFor.encode (deltas 0 post)

lemma length_encodePosting_lt {post : List ℕ} (hasc : post.Pairwise (· < ·)) {n : ℕ}
    (h : ∀ d ∈ post, d < n) (hn : n < 2 ^ 32) : (encodePosting post).length < 2 ^ 32 :=
  TurboPFor.length_encode_lt (lt_of_le_of_lt (sum_deltas_le hasc h) hn)

/-! ## The table of a map of posting lists -/

/-- What the builders collect: ascending 24-bit keys, each with an ascending list of the
documents, all below `n`. -/
structure PostingMap (m : OrderedMap ℕ (List ℕ)) (n : ℕ) : Prop where
  ascending : m.Ascending
  key_lt : ∀ b ∈ m, b.1 < 2 ^ 24
  docs_ascending : ∀ b ∈ m, b.2.Pairwise (· < ·)
  doc_lt : ∀ b ∈ m, ∀ d ∈ b.2, d < n

lemma Indexed.postingMap {m : OrderedMap ℕ (List ℕ)} {texts : List Bytes} (h : Indexed m texts) :
    PostingMap m texts.length where
  ascending := h.ascending
  key_lt b hb := by
    obtain ⟨-, hne⟩ := h.eq_docsWith hb
    obtain ⟨d, hd⟩ := List.exists_mem_of_ne_nil _ hne
    obtain ⟨x, -, ht⟩ := mem_docsWith.mp hd
    exact lt_of_mem_trigrams ht
  docs_ascending b hb := (h.eq_docsWith hb).1 ▸ docsWith_pairwise _ _
  doc_lt b hb d hd := lt_of_mem_docsWith ((h.eq_docsWith hb).1 ▸ hd)

/-- The entry of a posting list written at offset `off`. -/
def postingRef (b : ℕ × List ℕ) (off : ℕ) : ℕ × PostingRef :=
  (b.1, ⟨b.2.length, off, (encodePosting b.2).length⟩)

/-- The entries of the postings written from offset `base` on. -/
def postingRefs (base : ℕ) (m : OrderedMap ℕ (List ℕ)) : List (ℕ × PostingRef) :=
  pieceRefs (fun b => encodePosting b.2) postingRef base m

def postingBytes (m : OrderedMap ℕ (List ℕ)) : Bytes := m.flatMap fun b => encodePosting b.2

lemma encodePostings_eq (base : ℕ) (m : OrderedMap ℕ (List ℕ)) :
    encodePostings base m = (postingRefs base m, postingBytes m) :=
  foldl_pieces (fun b : ℕ × List ℕ => encodePosting b.2) postingRef base m ([], [])

lemma map_fst_postingRefs (base : ℕ) (m : OrderedMap ℕ (List ℕ)) :
    (postingRefs base m).map Prod.fst = m.map Prod.fst := by
  refine List.ext_getElem? fun i => ?_
  rw [List.getElem?_map, List.getElem?_map, postingRefs, getElem?_pieceRefs, Option.map_map]
  rfl

lemma mem_postingRefs {base : ℕ} {m : OrderedMap ℕ (List ℕ)} {e : ℕ × PostingRef}
    (h : e ∈ postingRefs base m) :
    ∃ b ∈ m, ∃ off, StandsAt (postingBytes m) off (encodePosting b.2) ∧
      e = postingRef b (base + off) := by
  obtain ⟨i, hi⟩ := List.mem_iff_getElem?.mp h
  rw [postingRefs, getElem?_pieceRefs] at hi
  obtain ⟨b, hb, rfl⟩ := Option.map_eq_some_iff.mp hi
  have hstands := (StandsAt.refl (postingBytes m)).piece (fun b : ℕ × List ℕ => encodePosting b.2) hb
  rw [Nat.zero_add] at hstands
  exact ⟨b, List.mem_of_getElem? hb, _, hstands, rfl⟩

lemma slotCount_eq {n : ℕ} (hn : n ≠ 0) : slotCount n = 2 ^ Nat.clog 2 (n * 2) := by
  rw [slotCount, if_neg hn, nextPowerOfTwo, Nat.max_eq_left (Nat.one_le_two_pow)]

lemma lt_slotCount {n : ℕ} (hn : n ≠ 0) : n < slotCount n := by
  have h : n * 2 ≤ 2 ^ Nat.clog 2 (n * 2) := Nat.le_pow_clog (by omega) _
  rw [slotCount_eq hn]
  omega

lemma trailingZeros_two_pow {k : ℕ} (hk : k < 64) : trailingZeros (2 ^ k) = k := by
  have h : (List.range 64).find? (fun i => (2 ^ k).testBit i) = some k := by
    rw [List.find?_range_eq_some]
    refine ⟨by simp, List.mem_range.mpr hk, fun j hj => ?_⟩
    simp [Nat.ne_of_gt hj]
  rw [trailingZeros, h, Option.getD_some]

/-- The header keeps the number of slots by its logarithm, which is 0 only for no slots. -/
lemma slotsLog2_slotCount {n : ℕ} (hn : n ≠ 0) (hle : n ≤ 2 ^ 24) :
    ∃ k, slotCount n = 2 ^ k ∧ slotsLog2 (slotCount n) = k ∧ 0 < k ∧ k < 64 := by
  have hclog : Nat.clog 2 (n * 2) ≤ 25 := Nat.clog_le_of_le_pow (by omega)
  have hpos : 0 < Nat.clog 2 (n * 2) := Nat.clog_pos (by omega) (by omega)
  have h := slotCount_eq hn
  refine ⟨Nat.clog 2 (n * 2), h, ?_, hpos, by omega⟩
  rw [slotsLog2, h, if_neg (Nat.two_pow_pos _).ne', trailingZeros_two_pow (by omega)]

lemma PostingMap.length_le {m : OrderedMap ℕ (List ℕ)} {n : ℕ} (h : PostingMap m n) :
    m.length ≤ 2 ^ 24 := by
  have hsub : m.map Prod.fst ⊆ List.range (2 ^ 24) := by
    intro k hk
    obtain ⟨b, hb, rfl⟩ := List.mem_map.mp hk
    exact List.mem_range.mpr (h.key_lt b hb)
  have hle := (h.ascending.nodup_keys.subperm hsub).length_le
  simpa using hle

/-- A table built from a map of posting lists answers every trigram with its list. -/
theorem probe_built {m : OrderedMap ℕ (List ℕ)} {n base : ℕ} (hm : PostingMap m n)
    (hne : m ≠ []) (hn : n < 2 ^ 32) (hlen : ∀ b ∈ m, (encodePosting b.2).length < 2 ^ 32)
    (hoff : base + (postingBytes m).length < 2 ^ 64) :
    ∃ table, buildRobinHood (postingRefs base m) (slotCount m.length) = .ok table ∧
      table.length = slotCount m.length * slotLen ∧
      ∀ trig (readSlot : ℕ → Res Bytes) (readEnc : ℕ → ℕ → Res Bytes),
        (∀ idx < slotCount m.length,
          readSlot idx = sliceAt table (idx * slotLen) slotLen) →
        (∀ off enc, StandsAt (postingBytes m) off enc →
          readEnc (base + off) enc.length = .ok enc) →
        probe (slotCount m.length) (slotCount m.length - 1) trig readSlot readEnc =
          .ok (m.find? trig) := by
  have hzero : m.length ≠ 0 := fun h => hne (List.length_eq_zero_iff.mp h)
  obtain ⟨k, hk, -, -, -⟩ := slotsLog2_slotCount hzero hm.length_le
  have hpos : 0 < slotCount m.length := by rw [hk]; exact Nat.two_pow_pos k
  set slots := slotCount m.length with hslotsdef
  have hdocs : ∀ b ∈ m, b.2.length < 2 ^ 32 := by
    intro b hb
    have hsub : b.2 ⊆ List.range n := fun d hd => List.mem_range.mpr (hm.doc_lt b hb d hd)
    have hnodup : b.2.Nodup := (hm.docs_ascending b hb).imp fun h => ne_of_lt h
    have hle := (hnodup.subperm hsub).length_le
    rw [List.length_range] at hle
    omega
  -- The entries fit the fields of a slot, have distinct keys, and leave a slot empty.
  have hvalid : ∀ e ∈ postingRefs base m, ValidEntry e := by
    intro e he
    obtain ⟨b, hb, off, hstands, rfl⟩ := mem_postingRefs he
    have hle := hstands.le_length
    exact ⟨(hm.key_lt b hb).trans (by decide), hdocs b hb, by dsimp only [postingRef]; omega,
      hlen b hb⟩
  have hnodup : ((postingRefs base m).map Prod.fst).Nodup := by
    rw [map_fst_postingRefs]
    exact hm.ascending.nodup_keys
  have hcount : (postingRefs base m).length < slots := by
    have h := congrArg List.length (map_fst_postingRefs base m)
    rw [List.length_map, List.length_map] at h
    rw [h]
    exact lt_slotCount hzero
  obtain ⟨table, hbuild, hlength, hfound⟩ := findRef_built hash hk hvalid hnodup hcount
  refine ⟨table, (buildRobinHood_eq_with ..).trans hbuild, hlength, ?_⟩
  intro trig readSlot readEnc hslot henc
  -- What is left is to read the posting that the entry found points at; the trigrams of the entries
  -- are those of the map.
  rw [probe_eq_findRef, hfound trig readSlot hslot, bind_ok]
  cases hfind : m.find? trig with
  | none =>
      have habs : trig ∉ (postingRefs base m).map Prod.fst := by
        rw [map_fst_postingRefs]
        intro hmem
        obtain ⟨b, hb, rfl⟩ := List.mem_map.mp hmem
        rw [OrderedMap.find?_of_mem hm.ascending hb] at hfind
        cases hfind
      rw [AssocMap.lookup_eq_none.mpr habs]
      rfl
  | some post =>
      have hkey : trig ∈ (postingRefs base m).map Prod.fst := by
        rw [map_fst_postingRefs]
        exact List.mem_map_of_mem (OrderedMap.mem_of_find? hfind)
      obtain ⟨e, he, rfl⟩ := List.mem_map.mp hkey
      rw [AssocMap.lookup_of_mem hnodup he]
      obtain ⟨b, hb, off, hstands, rfl⟩ := mem_postingRefs he
      have hpost : b.2 = post := by
        rw [postingRef, OrderedMap.find?_of_mem hm.ascending hb] at hfind
        exact Option.some.inj hfind
      have hlt := hm.doc_lt b hb
      have hdec := TurboPFor.decode_encode (deltas_lt (fun d hd => (hlt d hd).trans hn) 0)
      have hsums := prefixSums_deltas (hm.docs_ascending b hb) 0 fun d hd =>
        ⟨Nat.zero_le d, (hlt d hd).trans hn⟩
      rw [length_deltas] at hdec
      dsimp only [decodeFound, decodeRef, postingRef]
      rw [henc off _ hstands, bind_ok, encodePosting, hdec, bind_ok, hsums, bind_ok, hpost]
      rfl

/-- The table of a map of posting lists is built, has `slotCount` slots, and answers every
trigram; an empty map has no slots. -/
theorem table_built {m : OrderedMap ℕ (List ℕ)} {n base : ℕ} (hm : PostingMap m n)
    (hn : n < 2 ^ 32) (hlen : ∀ b ∈ m, (encodePosting b.2).length < 2 ^ 32)
    (hoff : base + (postingBytes m).length < 2 ^ 64) :
    ∃ table, buildRobinHood (postingRefs base m) (slotCount m.length) = .ok table ∧
      table.length = slotCount m.length * slotLen ∧
      ∀ trig (readSlot : ℕ → Res Bytes) (readEnc : ℕ → ℕ → Res Bytes),
        (∀ idx < slotCount m.length,
          readSlot idx = sliceAt table (idx * slotLen) slotLen) →
        (∀ off enc, StandsAt (postingBytes m) off enc →
          readEnc (base + off) enc.length = .ok enc) →
        (if slotCount m.length = 0 then .ok none
          else probe (slotCount m.length) (slotCount m.length - 1) trig readSlot readEnc) =
          .ok (m.find? trig) := by
  by_cases hne : m = []
  · subst hne
    exact ⟨[], rfl, rfl, fun _ _ _ _ _ => rfl⟩
  · obtain ⟨table, hbuild, hlength, hprobe⟩ := probe_built hm hne hn hlen hoff
    have hpos := lt_slotCount (n := m.length) fun h => hne (List.length_eq_zero_iff.mp h)
    refine ⟨table, hbuild, hlength, fun trig readSlot readEnc hslot henc => ?_⟩
    rw [if_neg (by omega)]
    exact hprobe trig readSlot readEnc hslot henc

lemma slotsLog2_lt {n : ℕ} (hle : n ≤ 2 ^ 24) : slotsLog2 (slotCount n) < 64 := by
  by_cases hn : n = 0
  · subst hn
    decide
  · obtain ⟨k, -, hk, -, hlt⟩ := slotsLog2_slotCount hn hle
    omega

lemma slotsOfLog2_slotsLog2 {n : ℕ} (hle : n ≤ 2 ^ 24) :
    slotsOfLog2 (slotsLog2 (slotCount n)) = .ok (slotCount n) := by
  by_cases hn : n = 0
  · subst hn
    rfl
  · obtain ⟨k, hk, hlog, hpos, hlt⟩ := slotsLog2_slotCount hn hle
    rw [slotsOfLog2, hlog, if_neg (by omega), if_pos hlt, Nat.one_shiftLeft, hk]

end DeepFinder
