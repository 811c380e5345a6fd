import DeepFinder.Content.ShardCorrupt
import DeepFinder.Core.DbCorrupt

/-!
# Walks over any table

The probe loops of `DbReader::posting` and `ShardReader::posting` have no bound of their own, and a
table read from a file need not have an empty slot.  Here the loop runs on any fuel, keeps the slots
it reads, and does its 64-bit arithmetic with operations that can fail.

What ends it is that a stored key lies less than `slots` steps behind its home slot, whatever the
table holds, while the walk is one step longer in every round: `walk_spec`.  `hash_walk_bounded`
says so for both readers.

The exponent is that of a table that fits a file at all, `1 ≤ k ≤ 62`.  The slots themselves may
hold anything: a key may stand where no insertion would have put it, twice, or without an end to its
cluster.  A walk that fails does so because a slot or a posting could not be read.
-/

namespace DeepFinder

open ByteString

/-- `a - b` on `u64`, where an underflow panics. -/
def sub64 (a b : ℕ) : Res ℕ := if b ≤ a then .ok (a - b) else .error .panicked

lemma sub64_eq {a b : ℕ} (h : b ≤ a) : sub64 a b = .ok (a - b) := if_pos h

/-! ## The loop -/

/-- One round of the probe loop: the entry it returns, or the slot and the probe count that it goes
on with.  Where a slot lies is for `readSlot` to say. -/
def walkRound (slots mask trig : ℕ) (readSlot : ℕ → Res Bytes) (idx probe : ℕ) :
    Res (Option PostingRef ⊕ ℕ × ℕ) := do
  let slot ← readSlot idx
  let key ← leU32 slot 0
  if key = emptyKey then pure (.inl none)
  else do
    let ideal := hash key &&& mask
    let around ← add64 idx slots
    let dist ← sub64 around ideal
    let theirProbe := dist &&& mask
    if theirProbe < probe then pure (.inl none)
    else if key = trig then do
      let count ← leU32 slot 4
      let off ← leU64 slot 8
      let len ← leU32 slot 16
      pure (.inl (some ⟨count, off, len⟩))
    else do
      let next ← add64 idx 1
      let probe ← add64 probe 1
      pure (.inr (next &&& mask, probe))

/-- The loop: the slots that it reads, in order, and how it ends. -/
def walk (slots mask trig : ℕ) (readSlot : ℕ → Res Bytes) :
    ℕ → ℕ → ℕ → List ℕ × Res (Option PostingRef)
  | 0, _, _ => ([], .error .diverged)
  | fuel + 1, idx, probe =>
      match walkRound slots mask trig readSlot idx probe with
      | .error f => ([idx], .error f)
      | .ok (.inl found) => ([idx], .ok found)
      | .ok (.inr (idx', probe')) =>
          let rest := walk slots mask trig readSlot fuel idx' probe'
          (idx :: rest.1, rest.2)

/-- The walk of a lookup, from the home slot of the trigram. -/
def lookupWalk (slots trig : ℕ) (readSlot : ℕ → Res Bytes) (fuel : ℕ) :
    List ℕ × Res (Option PostingRef) :=
  walk slots (slots - 1) trig readSlot fuel (hash trig &&& (slots - 1)) 0

/-! ## What ends it -/

/-- What a walk does from a slot on, when it may still be `left + 1` rounds long: it ends as the
loop on unbounded integers does, within these rounds and the slots of the table, and fails only where
reading a slot fails. -/
structure WalkEnds (slots left : ℕ) (readSlot : ℕ → Res Bytes) (result : Res (Option PostingRef))
    (w : List ℕ × Res (Option PostingRef)) : Prop where
  reads_le : w.1.length ≤ left + 1
  reads_lt : ∀ idx ∈ w.1, idx < slots
  result_eq : w.2 = result
  failed_read : ∀ f, w.2 = .error f → ∃ idx ∈ w.1, readSlot idx = .error f

section Walk

variable {slots k trig : ℕ} {readSlot : ℕ → Res Bytes}

lemma WalkEnds.here {left idx : ℕ} (hidx : idx < slots) (found : Option PostingRef) :
    WalkEnds slots left readSlot (.ok found) ([idx], .ok found) where
  reads_le := by simp
  reads_lt := by simpa using hidx
  result_eq := rfl
  failed_read f h := by cases h

lemma WalkEnds.failed {left idx : ℕ} {f : Fault} (hidx : idx < slots)
    (hread : readSlot idx = .error f) :
    WalkEnds slots left readSlot (.error f) ([idx], .error f) where
  reads_le := by simp
  reads_lt := by simpa using hidx
  result_eq := rfl
  failed_read g hg := ⟨idx, by simp, by rw [hread, Except.error.inj hg]⟩

lemma WalkEnds.further {left idx : ℕ} {result : Res (Option PostingRef)}
    {w : List ℕ × Res (Option PostingRef)} (hidx : idx < slots)
    (h : WalkEnds slots left readSlot result w) :
    WalkEnds slots (left + 1) readSlot result (idx :: w.1, w.2) where
  reads_le := by simpa using h.reads_le
  reads_lt := by simpa using ⟨hidx, h.reads_lt⟩
  result_eq := h.result_eq
  failed_read f hf := by
    obtain ⟨j, hj, hread⟩ := h.failed_read f hf
    exact ⟨j, List.mem_cons_of_mem _ hj, hread⟩

variable (hslots : slots = 2 ^ k) (hk : k ≤ 62)
  (hlen : ∀ idx slot, readSlot idx = .ok slot → slot.length = slotLen)
include hslots hk hlen

/-- A round on a slot that was read: none of its operations overflows. -/
lemma walkRound_of_read {idx probe : ℕ} (hidx : idx < slots) (hprobe : probe ≤ slots) {slot : Bytes}
    (h : readSlot idx = .ok slot) :
    walkRound slots (slots - 1) trig readSlot idx probe =
      if fieldAt slot 0 4 = emptyKey then .ok (.inl none)
      else if theirProbe slots idx (fieldAt slot 0 4) < probe then .ok (.inl none)
      else if fieldAt slot 0 4 = trig then
        .ok (.inl (some ⟨fieldAt slot 4 4, fieldAt slot 8 8, fieldAt slot 16 4⟩))
      else .ok (.inr ((idx + 1) &&& (slots - 1), probe + 1)) := by
  have h20 : slot.length = 20 := hlen idx slot h
  have hfield : ∀ o n, o + n ≤ 20 → leAt slot o n = .ok (fieldAt slot o n) :=
    fun o n hon => leAt_eq_ok (by omega)
  have hle : slots ≤ 2 ^ 62 := by
    rw [hslots]
    exact Nat.pow_le_pow_right (by omega) hk
  have hideal : hash (fieldAt slot 0 4) &&& (slots - 1) < slots := by
    rw [and_mask hslots]
    exact Nat.mod_lt _ (by omega)
  rw [walkRound, h, bind_ok, leU32, hfield 0 4 (by omega), bind_ok, leU32, leU64, leU32,
    hfield 4 4 (by omega), hfield 8 8 (by omega), hfield 16 4 (by omega)]
  dsimp only
  rw [add64_eq (by omega), bind_ok, sub64_eq (by omega), bind_ok, add64_eq (by omega),
    add64_eq (by omega)]
  rfl

/-- From any slot and any length the walk ends: when it is `slots` steps long, every key that it can
meet is closer to its home. -/
lemma walk_spec {left fuel idx probe : ℕ} (hidx : idx < slots) (hleft : left + probe = slots)
    (hfuel : left < fuel) :
    WalkEnds slots left readSlot
      (findRefLoop hash slots (slots - 1) trig readSlot (left + 1) idx probe)
      (walk slots (slots - 1) trig readSlot fuel idx probe) := by
  induction fuel generalizing left idx probe with
  | zero => omega
  | succ fuel ih =>
      rw [walk]
      cases hread : readSlot idx with
      | error f =>
          have hround : walkRound slots (slots - 1) trig readSlot idx probe = .error f := by
            rw [walkRound, hread, bind_error]
          rw [hround, findRefLoop, hread, bind_error]
          exact WalkEnds.failed hidx hread
      | ok slot =>
          rw [walkRound_of_read hslots hk hlen hidx (by omega) hread,
            findRefLoop_of_read hlen hread]
          by_cases hempty : fieldAt slot 0 4 = emptyKey
          · simpa only [if_pos hempty] using WalkEnds.here hidx none
          by_cases hclose : theirProbe slots idx (fieldAt slot 0 4) < probe
          · simpa only [if_neg hempty, if_pos hclose] using WalkEnds.here hidx none
          by_cases hkey : fieldAt slot 0 4 = trig
          · simpa only [if_neg hempty, if_neg hclose, if_pos hkey] using WalkEnds.here hidx _
          · -- the key lies `probe` or more steps behind its home, which is less than `slots`
            have hfar := theirProbe_lt hslots idx (fieldAt slot 0 4)
            obtain ⟨left, rfl⟩ := Nat.exists_eq_add_one_of_ne_zero (by omega : left ≠ 0)
            have hnext : (idx + 1) &&& (slots - 1) < slots := by
              rw [and_mask hslots]
              exact Nat.mod_lt _ (by omega)
            simpa only [if_neg hempty, if_neg hclose, if_neg hkey] using
              (ih hnext (by omega) (by omega)).further hidx

lemma lookupWalk_spec {fuel : ℕ} (hfuel : slots < fuel) :
    WalkEnds slots slots readSlot (findRef hash slots (slots - 1) trig readSlot)
      (lookupWalk slots trig readSlot fuel) := by
  have hhome : hash trig &&& (slots - 1) < slots := by
    rw [and_mask hslots]
    exact Nat.mod_lt _ (hslots ▸ Nat.two_pow_pos k)
  exact walk_spec hslots hk hlen hhome (Nat.add_zero _) hfuel

end Walk

/-! ## Both readers -/

/-- The walk of a reader is done after `2 ^ k + 1` slots, and `posting` decodes what it found.  The
first part is a bound on the fuel: with any more of it the walk has the same result, and that is not
running out. -/
def WalkBounded (k trig : ℕ) (readSlot : ℕ → Res Bytes) (readEnc : ℕ → ℕ → Res Bytes)
    (posting : Res (Option (List ℕ))) : Prop :=
  ∀ fuel, 2 ^ k < fuel →
    ∃ result, result ≠ .error .diverged ∧
      WalkEnds (2 ^ k) (2 ^ k) readSlot result (lookupWalk (2 ^ k) trig readSlot fuel) ∧
      posting = result >>= decodeFound readEnc

lemma slotAt_ne_diverged (r : DbReader) (idx : ℕ) : r.slotAt idx ≠ .error .diverged := by
  rw [DbReader.slotAt]
  unfold add64
  split
  · intro h
    obtain ⟨e, he⟩ := returns_readAt _ _ _ _ h
    cases he
  · intro h
    cases h

lemma length_of_slotAt {r : DbReader} {idx : ℕ} {slot : Bytes} (h : r.slotAt idx = .ok slot) :
    slot.length = slotLen := by
  rw [DbReader.slotAt] at h
  obtain ⟨off, -, hread⟩ := bind_eq_ok_iff.mp h
  exact length_of_readAt hread

/-- A walk whose reads end is bounded. -/
lemma walkBounded_of_reads {k trig : ℕ} (hk : k ≤ 62) {readSlot : ℕ → Res Bytes}
    {readEnc : ℕ → ℕ → Res Bytes} {posting : Res (Option (List ℕ))}
    (hlen : ∀ idx slot, readSlot idx = .ok slot → slot.length = slotLen)
    (hread : ∀ idx, readSlot idx ≠ .error .diverged)
    (hposting : posting = findRef hash (2 ^ k) (2 ^ k - 1) trig readSlot >>= decodeFound readEnc) :
    WalkBounded k trig readSlot readEnc posting := by
  intro fuel hfuel
  have hends := @lookupWalk_spec (2 ^ k) k trig readSlot rfl hk hlen fuel hfuel
  refine ⟨_, fun hdiverged => ?_, hends, hposting⟩
  rw [← hends.result_eq] at hdiverged
  obtain ⟨idx, -, hfail⟩ := hends.failed_read _ hdiverged
  exact hread idx hfail

/-- A reader of a full table of two slots, both with the same key. -/
def fullTable : DbReader where
  src := slotBytes 5 ⟨1, 0, 0⟩ ++ slotBytes 5 ⟨1, 0, 0⟩
  numDocs := 0
  buildTime := 0
  metaOff := 0
  tryOff := 0
  slots := 2
  dict := []
  blocks := []
  blockStart := []

/-- Whatever the tables hold and whatever the key is, the walks of both readers read `2 ^ k + 1`
slots at most, all of them slots of the table, and fail only where reading a slot fails, so that
none of their additions and subtractions on `u64` overflows. -/
theorem hash_walk_bounded {k : ℕ} (hk : 1 ≤ k ∧ k ≤ 62) (trig : ℕ) :
    (∀ r : DbReader, r.slots = 2 ^ k →
      WalkBounded k trig r.slotAt (readAt r.src) (r.posting trig)) ∧
    ∀ (r : ShardReader) (table postings : Bytes), r.slots = 2 ^ k →
      r.section "ctHash" = .ok table → r.section "ctPostings" = .ok postings →
      WalkBounded k trig (ctSlotAt table) (ctPostingAt postings) (r.posting trig) := by
  have hpos : 2 ^ k ≠ 0 := (Nat.two_pow_pos k).ne'
  refine ⟨fun r hslots => ?_, fun r table postings hslots htable hpostings => ?_⟩
  · have hposting := DbReader.posting_eq_findRef (hslots ▸ hpos) trig
    rw [hslots] at hposting
    exact walkBounded_of_reads hk.2 (fun _ _ => length_of_slotAt) (slotAt_ne_diverged r) hposting
  · have hposting := ShardReader.posting_eq_findRef (hslots ▸ hpos) htable hpostings trig
    rw [hslots] at hposting
    refine walkBounded_of_reads hk.2 (fun _ _ => length_of_ctSlotAt) (fun idx h => ?_) hposting
    obtain ⟨e, he⟩ := returns_ctSlotAt table idx _ h
    cases he

/-- The walk for another key in that table reads both slots, and the first one again. -/
theorem hash_walk_bounded_full :
    (lookupWalk 2 7 fullTable.slotAt 10).1.length ≤ 3 ∧ fullTable.posting 7 = .ok none := by
  obtain ⟨result, -, hends, -⟩ := (@hash_walk_bounded 1 ⟨by omega, by omega⟩ 7).1 fullTable rfl 10
    (by omega)
  exact ⟨hends.reads_le, by decide +kernel⟩

end DeepFinder
