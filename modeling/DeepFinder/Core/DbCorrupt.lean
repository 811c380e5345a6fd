import DeepFinder.Core.Query
import DeepFinder.Core.Returns

/-!
# Filename databases with arbitrary bytes

The reader checks the magic, the version and the range of every read, and trusts the rest of the
header, the counts of the block index and the slots of the hash table.  `DbFits` says what the
bytes must be for no call to panic; `db_reader_returns_iff` that this is exact.

The condition has a part for the header, which `open` reads, and one for each call on the reader
that `open` returned (`CallsFit`).  A database is checked more than a shard, so that fewer of its
bytes matter: the counts in the block index, which size a vector, the slots of the hash table, and
the postings.  The decompressor is any; that it fails on bytes that it did not write is an error and
no panic.
-/

namespace DeepFinder

open ByteString

/-! ## Opening -/

def readRange (src : Bytes) (off len : ℕ) : Option Bytes :=
  if off + len < 2 ^ 64 then subslice src off len else none

/-- The block index behind the front matter at `docsOff`, when that can be read: the number of
blocks and their records. -/
def blockIndexFrom (src : Bytes) (docsOff : ℕ) : Option (ℕ × Bytes) := do
  let lenBytes ← readRange src docsOff 4
  let _dict ← readRange src (docsOff + 4) (ofLE lenBytes)
  let countBytes ← readRange src (docsOff + 4 + ofLE lenBytes) 4
  let idxBytes ← readRange src (docsOff + 4 + ofLE lenBytes + 4) (ofLE countBytes * 16)
  pure (ofLE countBytes, idxBytes)

/-- The number of documents of the records `i, …, i + todo - 1` of a block index. -/
def blockCounts (idxBytes : Bytes) (todo i : ℕ) : ℕ :=
  ((List.range todo).map fun j => fieldAt idxBytes ((i + j) * 16 + 12) 4).sum

/-- A header that is accepted has a slot count of at most 63 binary digits, and the blocks hold
fewer than `2 ^ 32` documents. -/
def DbHeaderFits (src : Bytes) : Prop :=
  headerLen ≤ src.length → src.take 4 = dbMagic → fieldAt src 4 4 = dbVersion →
    fieldAt src 60 4 < 64 ∧
      ∀ index ∈ blockIndexFrom src (fieldAt src 20 8), blockCounts index.2 index.1 0 < 2 ^ 32

lemma readAt_eq_range (src : Bytes) (off len : ℕ) :
    (∃ s, readRange src off len = some s ∧ readAt src off len = .ok s) ∨
      (readRange src off len = none ∧ ∃ e, readAt src off len = .error (.err e)) := by
  unfold readRange readAt
  by_cases h : off + len < 2 ^ 64
  · rw [if_pos h, if_neg (by omega)]
    cases hs : subslice src off len with
    | none => exact Or.inr ⟨rfl, _, rfl⟩
    | some s => exact Or.inl ⟨s, rfl, rfl⟩
  · rw [if_neg h, if_pos (by omega)]
    exact Or.inr ⟨rfl, _, rfl⟩

lemma returns_readAt (src : Bytes) (off len : ℕ) : (readAt src off len).Returns := by
  rcases readAt_eq_range src off len with ⟨s, -, h⟩ | ⟨-, e, h⟩
  · rw [h]
    exact returns_ok s
  · rw [h]
    exact returns_err e

lemma length_of_readAt {src s : Bytes} {off len : ℕ} (h : readAt src off len = .ok s) :
    s.length = len := by
  unfold readAt at h
  split at h
  · cases h
  · split at h
    · rename_i s' hs
      rw [← Except.ok.inj h]
      exact length_of_subslice hs
    · cases h

lemma blockCounts_succ (idxBytes : Bytes) (todo i : ℕ) :
    blockCounts idxBytes (todo + 1) i =
      fieldAt idxBytes (i * 16 + 12) 4 + blockCounts idxBytes todo (i + 1) := by
  rw [blockCounts, List.range_succ_eq_map, List.map_cons, List.sum_cons, List.map_map, blockCounts]
  refine congrArg₂ (· + ·) rfl (congrArg List.sum (List.map_congr_left fun j _ => ?_))
  rw [Function.comp_apply, Nat.succ_eq_add_one, show i + (j + 1) = i + 1 + j by omega]

/-- The loop over the block index panics exactly when the documents are too many. -/
lemma readBlockIndex_returns_iff {idxBytes : Bytes} {todo i start : ℕ}
    (hlen : (i + todo) * 16 ≤ idxBytes.length) (hstart : start < 2 ^ 32) :
    (readBlockIndex idxBytes todo i start).Returns ↔
      start + blockCounts idxBytes todo i < 2 ^ 32 := by
  induction todo generalizing i start with
  | zero => simpa [readBlockIndex, blockCounts] using hstart
  | succ todo ih =>
      rw [readBlockIndex, leU64, leAt_eq_ok (by omega), bind_ok, leU32, leAt_eq_ok (by omega),
        bind_ok, leU32, leAt_eq_ok (by omega), bind_ok, blockCounts_succ]
      by_cases hsum : start + fieldAt idxBytes (i * 16 + 12) 4 < 2 ^ 32
      · rw [if_pos hsum, returns_bind, ih (by omega) hsum]
        constructor
        · rintro ⟨h, -⟩
          omega
        · intro h
          exact ⟨by omega, fun _ _ => returns_ok _⟩
      · rw [if_neg hsum]
        refine ⟨fun h => absurd h not_returns_panicked, fun h => ?_⟩
        omega

lemma lengths_of_readBlockIndex {idxBytes : Bytes} {todo i start : ℕ}
    {index : List BlockRef × List ℕ} (h : readBlockIndex idxBytes todo i start = .ok index) :
    index.1.length = todo ∧ index.2.length = todo := by
  induction todo generalizing i start index with
  | zero =>
      obtain rfl := Except.ok.inj h
      exact ⟨rfl, rfl⟩
  | succ todo ih =>
      obtain ⟨off, -, h⟩ := bind_eq_ok_iff.mp h
      obtain ⟨clen, -, h⟩ := bind_eq_ok_iff.mp h
      obtain ⟨count, -, h⟩ := bind_eq_ok_iff.mp h
      split at h
      · obtain ⟨rest, hrest, h⟩ := bind_eq_ok_iff.mp h
        obtain ⟨hblocks, hstarts⟩ := ih hrest
        obtain rfl := Except.ok.inj h
        exact ⟨by rw [List.length_cons, hblocks], by rw [List.length_cons, hstarts]⟩
      · cases h

/-- What `open` read. -/
structure DbReader.OpenedFrom (r : DbReader) (src : Bytes) : Prop where
  src_eq : r.src = src
  lengths : r.blocks.length = r.blockStart.length
  slots : r.slots = 0 ∨ ∃ k, r.slots = 2 ^ k

lemma leU32_of_length {bs : Bytes} (h : bs.length = 4) : leU32 bs 0 = .ok (ofLE bs) := by
  rw [leU32, leAt_eq_ok (by omega), fieldAt, List.drop_zero, List.take_of_length_le h.le]

/-- The front matter of the DOCS section, read from the offset the header names. -/
lemma frontMatter_returns_iff {src : Bytes} {docsOff : ℕ}
    {f : Bytes → List BlockRef × List ℕ → DbReader} :
    (do
      let lenBytes ← readAt src docsOff 4
      let dictLen ← leU32 lenBytes 0
      let dict ← readAt src (docsOff + 4) dictLen
      let countBytes ← readAt src (docsOff + 4 + dictLen) 4
      let numBlocks ← leU32 countBytes 0
      let idxBytes ← readAt src (docsOff + 4 + dictLen + 4) (numBlocks * 16)
      let index ← readBlockIndex idxBytes numBlocks 0 0
      pure (f dict index) : Res DbReader).Returns ↔
      ∀ index ∈ blockIndexFrom src docsOff, blockCounts index.2 index.1 0 < 2 ^ 32 := by
  unfold blockIndexFrom
  rcases readAt_eq_range src docsOff 4 with ⟨lenBytes, hr, h⟩ | ⟨hr, e, h⟩
  · rw [h, hr, bind_ok, leU32_of_length (length_of_readAt h), bind_ok, Option.bind_eq_bind,
      Option.bind_some]
    rcases readAt_eq_range src (docsOff + 4) (ofLE lenBytes) with ⟨dict, hr, h⟩ | ⟨hr, e, h⟩
    · rw [h, hr, bind_ok, Option.bind_some]
      rcases readAt_eq_range src (docsOff + 4 + ofLE lenBytes) 4 with
        ⟨countBytes, hr, h⟩ | ⟨hr, e, h⟩
      · rw [h, hr, bind_ok, leU32_of_length (length_of_readAt h), bind_ok, Option.bind_some]
        rcases readAt_eq_range src (docsOff + 4 + ofLE lenBytes + 4) (ofLE countBytes * 16) with
          ⟨idxBytes, hr, h⟩ | ⟨hr, e, h⟩
        · have hidx := length_of_readAt h
          rw [h, hr, bind_ok, returns_bind,
            readBlockIndex_returns_iff (by omega) (by decide), Nat.zero_add]
          simp
        · rw [h, hr]
          simp
      · rw [h, hr]
        simp
    · rw [h, hr]
      simp
  · rw [h, hr]
    simp

/-- Opening returns exactly when the header fits. -/
lemma DbReader.open_returns_iff {src : Bytes} : (DbReader.open src).Returns ↔ DbHeaderFits src := by
  unfold DbReader.open DbHeaderFits
  by_cases hlen : headerLen ≤ src.length
  · have h64 : headerLen = 64 := rfl
    have hread : readAt src 0 headerLen = .ok (src.take headerLen) := by
      rw [readAt, if_neg (by rw [h64]; decide), subslice_eq_some (by omega), List.drop_zero]
    have htake : (src.take headerLen).take 4 = src.take 4 := by
      rw [List.take_take, Nat.min_eq_left (by decide)]
    have hshort : ¬ (src.take headerLen).length < headerLen := by
      rw [List.length_take]
      omega
    have hfield : ∀ o k, o + k ≤ 64 →
        leAt (src.take headerLen) o k = .ok (fieldAt src o k) := by
      intro o k hok
      rw [leAt_eq_ok (by rw [List.length_take]; omega), fieldAt_take (by omega)]
    rw [hread, bind_ok, htake]
    by_cases hmagic : src.take 4 = dbMagic
    · rw [if_neg (not_or_intro hshort (not_not_intro hmagic)), leU32, hfield 4 4 (by decide), bind_ok]
      by_cases hversion : fieldAt src 4 4 = dbVersion
      · rw [if_neg (by simp [hversion]), leU32, hfield 8 4 (by decide), bind_ok, leU64,
          hfield 12 8 (by decide), bind_ok, leU64, hfield 20 8 (by decide), bind_ok, leU64,
          hfield 28 8 (by decide), bind_ok, leU64, hfield 44 8 (by decide), bind_ok, leU32,
          hfield 60 4 (by decide), bind_ok, returns_bind, slotsOfLog2_returns_iff]
        constructor
        · rintro ⟨hlog, hrest⟩ - - -
          refine ⟨hlog, ?_⟩
          obtain ⟨slots, hslots⟩ : ∃ slots, slotsOfLog2 (fieldAt src 60 4) = .ok slots := by
            unfold slotsOfLog2
            split
            · exact ⟨0, rfl⟩
            · exact ⟨1 <<< fieldAt src 60 4, rfl⟩
          exact frontMatter_returns_iff.mp (hrest slots hslots)
        · intro h
          obtain ⟨hlog, hcounts⟩ := h hlen hmagic hversion
          exact ⟨hlog, fun slots _ => frontMatter_returns_iff.mpr hcounts⟩
      · rw [if_pos hversion]
        exact ⟨fun _ _ _ h => absurd h hversion, fun _ => returns_err _⟩
    · rw [if_pos (Or.inr hmagic)]
      exact ⟨fun _ _ h => absurd h hmagic, fun _ => returns_err _⟩
  · have hread : readAt src 0 headerLen = .error (.err (.io "read beyond DB end")) := by
      have h64 : headerLen = 64 := rfl
      rw [readAt, if_neg (by rw [h64]; decide), subslice_eq_none (by omega)]
    rw [hread]
    exact ⟨fun _ h => absurd h hlen, fun _ => returns_err _⟩

lemma DbReader.openedFrom {src : Bytes} {r : DbReader} (h : DbReader.open src = .ok r) :
    r.OpenedFrom src := by
  obtain ⟨hdr, hhdr, h⟩ := bind_eq_ok_iff.mp h
  split at h
  · cases h
  · obtain ⟨version, -, h⟩ := bind_eq_ok_iff.mp h
    split at h
    · cases h
    · obtain ⟨numDocs, -, h⟩ := bind_eq_ok_iff.mp h
      obtain ⟨buildTime, -, h⟩ := bind_eq_ok_iff.mp h
      obtain ⟨docsOff, -, h⟩ := bind_eq_ok_iff.mp h
      obtain ⟨metaOff, -, h⟩ := bind_eq_ok_iff.mp h
      obtain ⟨tryOff, -, h⟩ := bind_eq_ok_iff.mp h
      obtain ⟨log2, -, h⟩ := bind_eq_ok_iff.mp h
      obtain ⟨slots, hslots, h⟩ := bind_eq_ok_iff.mp h
      obtain ⟨lenBytes, -, h⟩ := bind_eq_ok_iff.mp h
      obtain ⟨dictLen, -, h⟩ := bind_eq_ok_iff.mp h
      obtain ⟨dict, -, h⟩ := bind_eq_ok_iff.mp h
      obtain ⟨countBytes, -, h⟩ := bind_eq_ok_iff.mp h
      obtain ⟨numBlocks, -, h⟩ := bind_eq_ok_iff.mp h
      obtain ⟨idxBytes, -, h⟩ := bind_eq_ok_iff.mp h
      obtain ⟨index, hindex, h⟩ := bind_eq_ok_iff.mp h
      obtain rfl := Except.ok.inj h
      obtain ⟨hblocks, hstarts⟩ := lengths_of_readBlockIndex hindex
      exact ⟨rfl, hblocks.trans hstarts.symm, slotsOfLog2_cases hslots⟩

/-! ## Searching -/

section Searching

variable {db : FilenameDb}

/-- A loop whose every round returns returns. -/
lemma returns_rarest {posting : ℕ → Res (Option (List ℕ))} {ts : List ℕ}
    (h : ∀ t ∈ ts, (posting t).Returns) (best : Option (List ℕ)) :
    (rarest posting ts best).Returns := by
  induction ts generalizing best with
  | nil => exact returns_ok _
  | cons t ts ih =>
      rw [rarest, returns_bind]
      refine ⟨h t (List.mem_cons_self ..), fun post _ => ?_⟩
      cases post with
      | none => exact returns_ok _
      | some post => exact ih (fun x hx => h x (List.mem_cons_of_mem _ hx)) _

lemma returns_verifyLoop {verify : ℕ → Res Bool} (h : ∀ d, (verify d).Returns)
    (limit : Option ℕ) (ds out : List ℕ) : (verifyLoop verify limit ds out).Returns := by
  induction ds generalizing out with
  | nil => exact returns_ok _
  | cons d ds ih =>
      rw [verifyLoop, returns_ite]
      refine ⟨fun _ => returns_ok _, fun _ => ?_⟩
      rw [returns_bind]
      exact ⟨h d, fun _ _ => ih _⟩

/-- The candidate search returns when its source does. -/
lemma returns_candidates {src : CandidateSource} {folded original : Bytes} {caseSensitive : Bool}
    (hposting : ∀ t < 2 ^ 24, (src.csPosting t).Returns)
    (hverify : ∀ d needle cs, (src.csVerify d needle cs).Returns) (limit : Option ℕ) :
    (candidates src folded original caseSensitive limit).Returns := by
  rw [candidates, returns_ite]
  refine ⟨fun _ => returns_verifyLoop (fun d => hverify d _ _) _ _ _, fun _ => ?_⟩
  rw [returns_bind]
  refine ⟨returns_rarest (fun t ht => hposting t (lt_of_mem_trigrams ht)) _, fun best _ => ?_⟩
  cases best with
  | none => exact returns_ok _
  | some cands => exact returns_verifyLoop (fun d => hverify d _ _) _ _ _

lemma returns_termLoop (hpath : ∀ d, (db.docPath d).Returns) (term : String)
    (caseSensitive : Bool) (ds : List ℕ) (set : Finset ℕ) :
    (termLoop db term caseSensitive ds set).Returns := by
  induction ds generalizing set with
  | nil => exact returns_ok _
  | cons d ds ih =>
      rw [termLoop, returns_bind]
      exact ⟨hpath d, fun _ _ => ih _⟩

lemma returns_termDocids (hpath : ∀ d, (db.docPath d).Returns)
    (hposting : ∀ t < 2 ^ 24, (db.posting t).Returns) (term : String) (caseSensitive : Bool) :
    (termDocids db term caseSensitive).Returns := by
  rw [termDocids, returns_ite]
  refine ⟨fun _ => returns_ok _, fun _ => ?_⟩
  rw [returns_ite]
  refine ⟨fun _ => returns_termLoop hpath _ _ _ _, fun _ => ?_⟩
  rw [returns_bind]
  refine ⟨returns_rarest (fun t ht => hposting t (lt_of_mem_trigrams ht)) _, fun best _ => ?_⟩
  cases best with
  | none => exact returns_ok _
  | some cands => exact returns_termLoop hpath _ _ _ _

/-- The evaluator returns when the database does, one case a connective. -/
lemma returns_evaluate (hpath : ∀ d, (db.docPath d).Returns)
    (hposting : ∀ t < 2 ^ 24, (db.posting t).Returns) (caseSensitive : Bool) (n : Node) :
    (evaluate db caseSensitive n).Returns := by
  induction n with
  | term t => exact returns_termDocids hpath hposting t caseSensitive
  | not a ih =>
      rw [evaluate, returns_bind]
      exact ⟨ih, fun _ _ => returns_ok _⟩
  | and a b iha ihb =>
      rw [evaluate, returns_bind]
      refine ⟨iha, fun sa _ => ?_⟩
      rw [returns_bind]
      exact ⟨ihb, fun _ _ => returns_ok _⟩
  | or a b iha ihb =>
      rw [evaluate, returns_bind]
      refine ⟨iha, fun sa _ => ?_⟩
      rw [returns_bind]
      exact ⟨ihb, fun _ _ => returns_ok _⟩

/-- A query returns when the documents' paths and the posting lists of all trigrams do. -/
lemma returns_queryDocids (hpath : ∀ d, (db.docPath d).Returns)
    (hposting : ∀ t < 2 ^ 24, (db.posting t).Returns) (q : String) (caseSensitive : Bool)
    (limit : Option ℕ) : (queryDocids db q caseSensitive limit).Returns := by
  have hverify : ∀ d needle cs, (db.verify d needle cs).Returns := by
    intro d needle cs
    rw [FilenameDb.verify, returns_ite]
    refine ⟨fun _ => returns_ok _, fun _ => ?_⟩
    rw [returns_bind]
    exact ⟨hpath d, fun _ _ => returns_ok _⟩
  have hsingle : (singleDocids db q caseSensitive limit).Returns :=
    returns_candidates hposting hverify limit
  have hboolean : ∀ n, (booleanDocids db n caseSensitive limit).Returns := by
    intro n
    rw [booleanDocids, returns_bind]
    exact ⟨returns_evaluate hpath hposting caseSensitive n, fun _ _ => returns_ok _⟩
  rw [queryDocids, returns_ite]
  refine ⟨fun _ => returns_ok _, fun _ => ?_⟩
  rcases parse q with _ | n
  · exact hsingle
  · cases n with
    | term t => exact hsingle
    | _ => exact hboolean _

end Searching

/-! ## Calls on an opened reader -/

/-- Every call on the reader returns: paths on any cache, metadata, postings and queries. -/
structure DbReader.CallsReturn (z : Zstd) (r : DbReader) : Prop where
  path : ∀ cache d, (r.docPathWith z cache d).1.Returns
  lite : ∀ d, (r.docMeta d).Returns
  posting : ∀ trig < 2 ^ 32, (r.posting trig).Returns
  query : ∀ q caseSensitive limit, (queryDocids (r.view z) q caseSensitive limit).Returns

/-- The offsets of the metadata records and of the slots a walk visits fit 64 bits, and the
postings found decode. -/
structure DbReader.CallsFit (r : DbReader) : Prop where
  lite : ∀ d < r.numDocs, r.metaOff + d * metaRecLen < 2 ^ 64
  slot : r.slots ≠ 0 → ∀ trig < 2 ^ 32, ∀ idx pr, Visits r.slots r.slotAt trig idx pr →
    r.tryOff + idx * slotLen < 2 ^ 64
  posting : r.slots ≠ 0 → ∀ trig < 2 ^ 32, ∀ ref, FindsRef r.slots r.slotAt trig ref →
    ∀ enc, readRange r.src ref.off ref.len = some enc → TurboPFor.DecodeFits enc ref.count

section Calls

variable {r : DbReader} {src : Bytes}

lemma returns_zstdDecode (z : Zstd) (comp dict : Bytes) : (zstdDecode z comp dict).Returns := by
  unfold zstdDecode
  split
  · split
    · exact returns_ok _
    · exact returns_err _
  · split
    · exact returns_err _
    · split
      · exact returns_ok _
      · exact returns_err _

lemma DbReader.OpenedFrom.returns_locate (h : r.OpenedFrom src) (d : ℕ) :
    (r.locate d).Returns := by
  rw [DbReader.locate, returns_ite]
  refine ⟨fun _ => returns_err _, fun hne => ?_⟩
  have hpos : 0 < r.blockStart.length := List.length_pos_iff.mpr hne
  have htake := (List.takeWhile_prefix (p := fun s => decide (s ≤ d)) (l := r.blockStart)).length_le
  set i := (r.blockStart.takeWhile fun s => decide (s ≤ d)).length - 1 with hi
  have hstart : i < r.blockStart.length := by omega
  have hblock : i < r.blocks.length := by rw [h.lengths]; exact hstart
  dsimp only
  rw [List.getElem?_eq_getElem hstart, List.getElem?_eq_getElem hblock]
  refine returns_ite.mpr ⟨fun _ => returns_err _, fun _ => returns_ok _⟩

lemma DbReader.OpenedFrom.returns_docPathWith (h : r.OpenedFrom src) (z : Zstd)
    (cache : Option (ℕ × Bytes)) (d : ℕ) : (r.docPathWith z cache d).1.Returns := by
  have hloc := h.returns_locate d
  rw [DbReader.docPathWith]
  cases hl : r.locate d with
  | error f =>
      rw [hl] at hloc
      obtain ⟨e, rfl⟩ := hloc f rfl
      exact returns_err e
  | ok loc =>
      obtain ⟨i, block, index⟩ := loc
      have hextract : ∀ bytes, (extractPath bytes index).Returns :=
        fun bytes => returns_scanPath _ _ _ _ _
      have hread : (r.readBlock z block).Returns := by
        rw [DbReader.readBlock, returns_bind]
        exact ⟨returns_readAt _ _ _, fun _ _ => returns_zstdDecode z _ _⟩
      dsimp only
      split
      · exact hextract _
      · split
        · rename_i f hf
          rw [hf] at hread
          obtain ⟨e, rfl⟩ := hread f rfl
          exact returns_err e
        · rename_i bytes _
          have hpath := hextract bytes
          split
          · rename_i f hf
            rw [hf] at hpath
            obtain ⟨e, rfl⟩ := hpath f rfl
            exact returns_err e
          · exact returns_ok _

lemma DbReader.docMeta_returns_iff {d : ℕ} :
    (r.docMeta d).Returns ↔ (d < r.numDocs → r.metaOff + d * metaRecLen < 2 ^ 64) := by
  rw [DbReader.docMeta, returns_ite, returns_bind, returns_add64]
  constructor
  · intro h hd
    exact (h.2 (by omega)).1
  · intro h
    refine ⟨fun _ => returns_err _, fun hd => ⟨h (by omega), fun off _ => ?_⟩⟩
    rw [returns_bind]
    exact ⟨returns_readAt _ _ _, fun rec hrec => returns_readMeta (length_of_readAt hrec)⟩

lemma DbReader.length_of_slotAt {idx : ℕ} {slot : Bytes} (h : r.slotAt idx = .ok slot) :
    slot.length = slotLen := by
  obtain ⟨off, -, h⟩ := bind_eq_ok_iff.mp h
  exact length_of_readAt h

lemma DbReader.slotAt_returns_iff {idx : ℕ} :
    (r.slotAt idx).Returns ↔ r.tryOff + idx * slotLen < 2 ^ 64 := by
  rw [DbReader.slotAt, returns_bind, returns_add64]
  exact and_iff_left fun off _ => returns_readAt _ _ _

lemma refFits_readAt_iff {ref : PostingRef} :
    RefFits (readAt src) ref ↔
      ∀ enc, readRange src ref.off ref.len = some enc → TurboPFor.DecodeFits enc ref.count := by
  rw [RefFits, and_iff_right (returns_readAt _ _ _)]
  rcases readAt_eq_range src ref.off ref.len with ⟨s, hr, h⟩ | ⟨hr, e, h⟩
  · rw [h, hr]
    simp
  · rw [h, hr]
    simp

lemma DbReader.OpenedFrom.posting_returns_iff (h : r.OpenedFrom src) (hslots : r.slots ≠ 0)
    (trig : ℕ) :
    (r.posting trig).Returns ↔
      (∀ idx pr, Visits r.slots r.slotAt trig idx pr → r.tryOff + idx * slotLen < 2 ^ 64) ∧
        ∀ ref, FindsRef r.slots r.slotAt trig ref →
          ∀ enc, readRange r.src ref.off ref.len = some enc →
            TurboPFor.DecodeFits enc ref.count := by
  obtain ⟨k, hk⟩ := h.slots.resolve_left hslots
  rw [DbReader.posting, if_neg hslots, probe_returns_iff (fun _ _ => DbReader.length_of_slotAt) hk]
  simp only [DbReader.slotAt_returns_iff, refFits_readAt_iff]

/-- The calls on an opened reader return exactly when they fit. -/
lemma DbReader.OpenedFrom.callsReturn_iff (h : r.OpenedFrom src) (z : Zstd) :
    r.CallsReturn z ↔ r.CallsFit := by
  constructor
  · intro hc
    refine ⟨fun d hd => DbReader.docMeta_returns_iff.mp (hc.lite d) hd, fun hs trig ht => ?_,
      fun hs trig ht => ?_⟩
    · exact ((h.posting_returns_iff hs trig).mp (hc.posting trig ht)).1
    · exact ((h.posting_returns_iff hs trig).mp (hc.posting trig ht)).2
  · intro hf
    have hposting : ∀ trig < 2 ^ 32, (r.posting trig).Returns := by
      intro trig ht
      by_cases hs : r.slots = 0
      · rw [DbReader.posting, if_pos hs]
        exact returns_ok _
      · exact (h.posting_returns_iff hs trig).mpr ⟨hf.slot hs trig ht, hf.posting hs trig ht⟩
    refine ⟨h.returns_docPathWith z, fun d => DbReader.docMeta_returns_iff.mpr (hf.lite d),
      hposting, returns_queryDocids (h.returns_docPathWith z none) fun t ht => ?_⟩
    exact hposting t (ht.trans (by decide))

end Calls

/-! ## The condition -/

/-- Bytes on which no call of the reader panics: the header fits, and so do the calls on the
reader it opens. -/
def DbFits (src : Bytes) : Prop :=
  DbHeaderFits src ∧ ∀ r, DbReader.open src = .ok r → r.CallsFit

/-- On arbitrary bytes, opening the database and every call on the opened reader return `Ok` or
`Err` exactly when the bytes fit.  The decompressor may be any, lawful or not. -/
theorem db_reader_returns_iff (z : Zstd) (src : Bytes) :
    ((DbReader.open src).Returns ∧ ∀ r, DbReader.open src = .ok r → r.CallsReturn z) ↔
      DbFits src := by
  rw [DbFits, DbReader.open_returns_iff]
  refine and_congr_right fun _ => forall_congr' fun r => imp_congr_right fun hr => ?_
  exact (DbReader.openedFrom hr).callsReturn_iff z

/-- A database without documents whose two slots both hold the trigram of `abc`, with one
document in an empty posting. -/
def truncatedPostingDb : Bytes :=
  dbHeader 0 0 112 72 112 1 ++ (toLE 4 0 ++ (toLE 4 0 ++
    (slotBytes 0x616263 ⟨1, 112, 0⟩ ++ slotBytes 0x616263 ⟨1, 112, 0⟩)))

/-- The reader opens this database, and the lookup of the trigram reads behind the end of the
posting. -/
theorem truncated_posting_panics :
    ∃ r, DbReader.open truncatedPostingDb = .ok r ∧ r.posting 0x616263 = .error .panicked ∧
      ¬ r.CallsReturn .stored := by
  obtain ⟨r, hopen, hposting⟩ : ∃ r, DbReader.open truncatedPostingDb = .ok r ∧
      r.posting 0x616263 = .error .panicked := by
    have h : (DbReader.open truncatedPostingDb).map (fun r => r.posting 0x616263) =
        .ok (.error .panicked) := by decide +kernel
    rcases hr : DbReader.open truncatedPostingDb with f | r
    · rw [hr] at h
      cases h
    · rw [hr] at h
      exact ⟨r, rfl, Except.ok.inj h⟩
  refine ⟨r, hopen, hposting, fun h => ?_⟩
  have hret := h.posting 0x616263 (by decide)
  rw [hposting] at hret
  exact not_returns_panicked hret

end DeepFinder
