import DeepFinder.Content.Shard
import DeepFinder.Core.Db

/-!
# The hash table under both readers

`DbReader::posting` and `ShardReader::posting` walk the table that `build_robin_hood` wrote, one
reading its slots from the database file, the other from the shard's hash section.  The table is
right for both whatever values the hash function takes: `robin_hood_table_correct`.

What is asked of the entries is what the builder of the postings makes sure of: distinct keys that
are no empty-slot marker, numbers that fit their fields (`ValidEntry`), and one free slot at least.
The hash function is any function on numbers, since the order in which probes collide is all that it
decides.
-/

namespace DeepFinder

open ByteString

/-- A reader whose file holds the table at `try_off` reads its slots. -/
lemma DbReader.slotAt_of_standsAt {r : DbReader} {table : Bytes} {slots : ℕ}
    (h : StandsAt r.src r.tryOff table) (hlen : table.length = slots * slotLen)
    (hsrc : r.src.length < 2 ^ 64) {idx : ℕ} (hidx : idx < slots) :
    r.slotAt idx = sliceAt table (idx * slotLen) slotLen := by
  have hle : idx * slotLen + slotLen ≤ table.length := by
    rw [hlen, ← Nat.succ_mul]
    exact Nat.mul_le_mul_right _ hidx
  have hsub := subslice_eq_some hle
  have hstands := h.trans (standsAt_of_subslice hsub)
  have hend := hstands.le_length
  have hread := hstands.subslice
  rw [length_of_subslice hsub] at hread hend
  rw [sliceAt_eq_ok hsub]
  apply DbReader.slotAt_eq
  rw [readAt, if_neg (by omega), hread]

lemma ctSlotAt_eq {table : Bytes} {slots : ℕ} (hlen : table.length = slots * slotLen) {idx : ℕ}
    (hidx : idx < slots) : ctSlotAt table idx = sliceAt table (idx * slotLen) slotLen := by
  have hle : idx * slotLen + slotLen ≤ table.length := by
    rw [hlen, ← Nat.succ_mul]
    exact Nat.mul_le_mul_right _ hidx
  rw [ctSlotAt, if_neg (by omega)]

/-- Whatever the hash function does, a table of any entries with distinct keys that leave a slot
free is built, and the walks of both readers over it end, find every key with its count, offset
and length, and find no other key. -/
theorem robin_hood_table_correct (hashFn : ℕ → ℕ) {k : ℕ} {entries : List (ℕ × PostingRef)}
    (hvalid : ∀ e ∈ entries, ValidEntry e) (hnodup : (entries.map Prod.fst).Nodup)
    (hcount : entries.length < 2 ^ k) :
    ∃ table, buildRobinHoodWith hashFn entries (2 ^ k) = .ok table ∧
      table.length = 2 ^ k * slotLen ∧
      (∀ r : DbReader, StandsAt r.src r.tryOff table → r.src.length < 2 ^ 64 → ∀ trig,
        findRef hashFn (2 ^ k) (2 ^ k - 1) trig r.slotAt = .ok (entries.lookup trig)) ∧
      ∀ trig, findRef hashFn (2 ^ k) (2 ^ k - 1) trig (ctSlotAt table) =
        .ok (entries.lookup trig) := by
  obtain ⟨table, hbuild, hlen, hfind⟩ := findRef_built hashFn rfl hvalid hnodup hcount
  refine ⟨table, hbuild, hlen, fun r hstands hsrc trig => ?_, fun trig => ?_⟩
  · exact hfind trig _ fun idx hidx => DbReader.slotAt_of_standsAt hstands hlen hsrc hidx
  · exact hfind trig _ fun idx hidx => ctSlotAt_eq hlen hidx

/-- Three keys that all hash to the last of four slots. -/
theorem robin_hood_table_correct_collision :
    ∃ table, buildRobinHoodWith (fun _ => 7) [(1, ⟨1, 0, 9⟩), (2, ⟨2, 9, 8⟩), (3, ⟨1, 17, 9⟩)] 4 =
        .ok table ∧
      findRef (fun _ => 7) 4 3 3 (ctSlotAt table) = .ok (some ⟨1, 17, 9⟩) ∧
      findRef (fun _ => 7) 4 3 4 (ctSlotAt table) = .ok none := by
  obtain ⟨table, hbuild, -, -, hfind⟩ := @robin_hood_table_correct (fun _ => 7) 2
    [(1, ⟨1, 0, 9⟩), (2, ⟨2, 9, 8⟩), (3, ⟨1, 17, 9⟩)]
    (by
      intro e he
      simp only [List.mem_cons, List.not_mem_nil, or_false] at he
      rcases he with rfl | rfl | rfl <;> exact ⟨by decide, by decide, by decide, by decide⟩)
    (by decide) (by decide)
  exact ⟨table, hbuild, hfind 3, hfind 4⟩

end DeepFinder
