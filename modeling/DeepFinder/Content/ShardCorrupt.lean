import DeepFinder.Content.Shard
import DeepFinder.Core.Returns

/-!
# Shards with arbitrary bytes

`ShardReader::open` checks that the table of contents ends at the footer, and little else: the
entries of the table, the ranges of the sections, the slots of the hash table and the postings
are read as they are.  `ShardFits` says what the bytes must be for no call to panic;
`shard_reader_returns_iff` that this is exact.

The condition has a part for the header, which `open` reads, and one for each call on the reader
that `open` returned; each names the place where the call would leave the bytes: a section that ends
behind the file, an offset that runs backwards, a table whose slots lead outside of its section, a
posting whose counts ask for more than there is.
-/

namespace DeepFinder

open ByteString

/-! ## Opening -/

/-- Every entry of the table of contents whose tag length can be read lies inside the table. -/
def TocFits (toc : Bytes) : ℕ → ℕ → Prop
  | 0, _ => True
  | todo + 1, p => ∀ tagLen q, decodeU32 toc p = some (tagLen, q) →
      q + tagLen + 9 ≤ toc.length ∧ TocFits toc todo (q + tagLen + 9)

/-- The metaData section is long enough for its version, and for the rest of its fields when the
version is the reader's own; the slot count then has at most 63 binary digits. -/
def MetaDataFits (md : Bytes) : Prop :=
  2 ≤ md.length ∧ (fieldAt md 0 2 = shardVersion → 26 ≤ md.length ∧ fieldAt md 22 4 < 64)

def tocOf (bytes : Bytes) : Bytes :=
  (bytes.drop (fieldAt bytes (bytes.length - 8) 4)).take (fieldAt bytes (bytes.length - 4) 4)

/-- A footer that is accepted names a table of contents whose entries fit, and the metaData
section the table names lies in the file and fits. -/
def ShardHeaderFits (bytes : Bytes) : Prop :=
  8 ≤ bytes.length →
    fieldAt bytes (bytes.length - 8) 4 + fieldAt bytes (bytes.length - 4) 4 = bytes.length - 8 →
      4 ≤ (tocOf bytes).length ∧ TocFits (tocOf bytes) (fieldAt (tocOf bytes) 0 4) 4 ∧
        ∀ sect, readToc (tocOf bytes) (fieldAt (tocOf bytes) 0 4) 4 [] = .ok sect →
          ∀ off sz, sect.lookup "metaData" = some (off, sz) →
            off + sz < 2 ^ 32 ∧ off + sz ≤ bytes.length ∧
              MetaDataFits ((bytes.drop off).take sz)

lemma readToc_returns_iff {toc : Bytes} {todo p : ℕ} {sect : List (String × ℕ × ℕ)} :
    (readToc toc todo p sect).Returns ↔ TocFits toc todo p := by
  induction todo generalizing p sect with
  | zero => exact ⟨fun _ => trivial, fun _ => returns_ok _⟩
  | succ todo ih =>
      rw [readToc, TocFits]
      cases hdec : decodeU32 toc p with
      | none => exact ⟨fun _ _ _ h => (nomatch h), fun _ => returns_err _⟩
      | some tag =>
          obtain ⟨tagLen, q⟩ := tag
          constructor
          · rintro h _ _ heq
            obtain ⟨rfl, rfl⟩ := Prod.mk.inj (Option.some.inj heq)
            obtain ⟨htag, h⟩ := returns_bind.mp h
            obtain ⟨hkind, h⟩ := returns_bind.mp (h _ (sliceAt_eq_ok_iff.mpr
              ⟨returns_sliceAt.mp htag, rfl⟩))
            have hbyte : q + tagLen < toc.length := by
              rw [byteAt_eq, returns_ite] at hkind
              by_contra hge
              exact not_returns_panicked (hkind.2 hge)
            obtain ⟨hoff, h⟩ := returns_bind.mp (h _ (byteAt_eq_ok_iff.mpr ⟨hbyte, rfl⟩))
            obtain ⟨hsz, h⟩ := returns_bind.mp (h _ (leAt_eq_ok (returns_leAt.mp hoff)))
            have hend := returns_leAt.mp hsz
            refine ⟨by omega, ?_⟩
            have hrest := h _ (leAt_eq_ok hend)
            split at hrest
            · exact ih.mp hrest
            · exact ih.mp hrest
          · intro h
            obtain ⟨hlen, hrest⟩ := h tagLen q rfl
            dsimp only
            rw [sliceAt_eq_ok_iff.mpr ⟨by omega, rfl⟩, bind_ok,
              byteAt_eq_ok_iff.mpr ⟨by omega, rfl⟩, bind_ok, leU32, leAt_eq_ok (by omega), bind_ok,
              leU32, leAt_eq_ok (by omega), bind_ok]
            split
            · exact ih.mpr hrest
            · exact ih.mpr hrest

lemma returns_leAt_bind {α : Type} {buf : Bytes} {pos k : ℕ} {f : ℕ → Res α} :
    (leAt buf pos k >>= f).Returns ↔
      pos + k ≤ buf.length ∧ (f (fieldAt buf pos k)).Returns := by
  rw [returns_bind, returns_leAt]
  refine and_congr_right fun h => ?_
  rw [leAt_eq_ok h]
  exact ⟨fun hf => hf _ rfl, fun hf _ ha => Except.ok.inj ha ▸ hf⟩

lemma returns_sliceAt_bind {α : Type} {buf : Bytes} {pos n : ℕ} {f : Bytes → Res α} :
    (sliceAt buf pos n >>= f).Returns ↔
      pos + n ≤ buf.length ∧ (f ((buf.drop pos).take n)).Returns := by
  rw [returns_bind, returns_sliceAt]
  refine and_congr_right fun h => ?_
  rw [sliceAt_eq_ok_iff.mpr ⟨h, rfl⟩]
  exact ⟨fun hf => hf _ rfl, fun hf _ ha => Except.ok.inj ha ▸ hf⟩

/-- The metaData section at `off`. -/
lemma metaData_returns_iff {bytes : Bytes} {off sz : ℕ} {f : ℕ → ℕ → ℕ → ℕ → ℕ → ShardReader} :
    (do
      let md ← sliceAt bytes off sz
      let version ← leAt md 0 2
      if version ≠ shardVersion then
        .error (.err (.dbFormat s!"unsupported shard version {version}"))
      else do
        let buildTime ← leU64 md 2
        let shardId ← leU32 md 10
        let baseDocid ← leU32 md 14
        let numDocs ← leU32 md 18
        let log2 ← leU32 md 22
        let slots ← slotsOfLog2 log2
        pure (f buildTime shardId baseDocid numDocs slots) : Res ShardReader).Returns ↔
      off + sz ≤ bytes.length ∧ MetaDataFits ((bytes.drop off).take sz) := by
  rw [returns_sliceAt_bind]
  refine and_congr_right fun _ => ?_
  rw [returns_leAt_bind, MetaDataFits, Nat.zero_add]
  refine and_congr_right fun _ => ?_
  rw [returns_ite, and_iff_right fun _ => returns_err _, not_not]
  refine imp_congr_right fun _ => ?_
  rw [leU64, returns_leAt_bind, leU32, returns_leAt_bind, leU32, returns_leAt_bind, leU32,
    returns_leAt_bind, leU32, returns_leAt_bind, returns_bind, slotsOfLog2_returns_iff]
  constructor
  · rintro ⟨-, -, -, -, hlen, hlog, -⟩
    exact ⟨hlen, hlog⟩
  · rintro ⟨hlen, hlog⟩
    exact ⟨by omega, by omega, by omega, by omega, hlen, hlog, fun _ _ => returns_ok _⟩

/-- Opening returns exactly when the header fits. -/
lemma ShardReader.open_returns_iff {bytes : Bytes} :
    (ShardReader.open bytes).Returns ↔ ShardHeaderFits bytes := by
  unfold ShardReader.open ShardHeaderFits
  by_cases hlen : bytes.length < 8
  · rw [if_pos hlen]
    exact ⟨fun _ h => absurd h (by omega), fun _ => returns_err _⟩
  · rw [if_neg hlen]
    dsimp only
    have hlast : bytes.length - 8 + 4 = bytes.length - 4 := by omega
    rw [leU32, leAt_eq_ok (by omega), bind_ok, hlast, leU32, leAt_eq_ok (by omega), bind_ok]
    by_cases hfoot : fieldAt bytes (bytes.length - 8) 4 + fieldAt bytes (bytes.length - 4) 4 =
        bytes.length - 8
    · rw [if_neg (not_not_intro hfoot), sliceAt_eq_ok_iff.mpr ⟨by omega, rfl⟩, bind_ok]
      change (leU32 (tocOf bytes) 0 >>= _).Returns ↔ _
      rw [leU32, returns_leAt_bind, returns_bind, readToc_returns_iff, Nat.zero_add]
      constructor
      · rintro ⟨h4, htoc, hrest⟩ - -
        refine ⟨h4, htoc, fun sect hsect off sz hmd => ?_⟩
        have h := hrest sect hsect
        rw [hmd] at h
        dsimp only at h
        by_cases hover : 2 ^ 32 ≤ off + sz
        · rw [if_pos hover] at h
          exact absurd h not_returns_panicked
        · rw [if_neg hover] at h
          exact ⟨by omega, metaData_returns_iff.mp h⟩
      · intro h
        obtain ⟨h4, htoc, hmd⟩ := h (by omega) hfoot
        refine ⟨h4, htoc, fun sect hsect => ?_⟩
        rcases hlook : sect.lookup "metaData" with _ | ⟨off, sz⟩
        · exact returns_err _
        · obtain ⟨hover, hin⟩ := hmd sect hsect off sz hlook
          dsimp only
          rw [if_neg (by omega)]
          exact metaData_returns_iff.mpr hin
    · rw [if_pos hfoot]
      exact ⟨fun _ _ h => absurd h hfoot, fun _ => returns_err _⟩

/-- What `open` read. -/
structure ShardReader.OpenedFrom (r : ShardReader) (bytes : Bytes) : Prop where
  bytes_eq : r.bytes = bytes
  slots : r.slots = 0 ∨ ∃ k, r.slots = 2 ^ k

lemma ShardReader.openedFrom {bytes : Bytes} {r : ShardReader}
    (h : ShardReader.open bytes = .ok r) : r.OpenedFrom bytes := by
  rw [ShardReader.open] at h
  split at h
  · cases h
  · obtain ⟨tocOff, -, h⟩ := bind_eq_ok_iff.mp h
    obtain ⟨tocSz, -, h⟩ := bind_eq_ok_iff.mp h
    split at h
    · cases h
    · obtain ⟨toc, -, h⟩ := bind_eq_ok_iff.mp h
      obtain ⟨count, -, h⟩ := bind_eq_ok_iff.mp h
      obtain ⟨sect, -, h⟩ := bind_eq_ok_iff.mp h
      split at h
      · cases h
      · split at h
        · cases h
        · obtain ⟨md, -, h⟩ := bind_eq_ok_iff.mp h
          obtain ⟨version, -, h⟩ := bind_eq_ok_iff.mp h
          split at h
          · cases h
          · obtain ⟨buildTime, -, h⟩ := bind_eq_ok_iff.mp h
            obtain ⟨shardId, -, h⟩ := bind_eq_ok_iff.mp h
            obtain ⟨baseDocid, -, h⟩ := bind_eq_ok_iff.mp h
            obtain ⟨numDocs, -, h⟩ := bind_eq_ok_iff.mp h
            obtain ⟨log2, -, h⟩ := bind_eq_ok_iff.mp h
            obtain ⟨slots, hslots, h⟩ := bind_eq_ok_iff.mp h
            obtain rfl := Except.ok.inj h
            exact ⟨rfl, slotsOfLog2_cases hslots⟩

/-! ## Calls on an opened reader -/

/-- Every call on the reader returns, for every argument that its type admits: documents and
trigrams are `u32`, whether or not the shard has them. -/
structure ShardReader.CallsReturn (r : ShardReader) : Prop where
  path : ∀ d < 2 ^ 32, (r.path d).Returns
  lite : ∀ d < 2 ^ 32, (r.meta d).Returns
  content : ∀ d < 2 ^ 32, (r.content d).Returns
  posting : ∀ trig < 2 ^ 32, (r.posting trig).Returns
  verify : ∀ d < 2 ^ 32, ∀ needle caseSensitive, (r.view.verify d needle caseSensitive).Returns

/-- The section lies in the file, when the table of contents names it. -/
def ShardReader.InBounds (r : ShardReader) (tag : String) : Prop :=
  ∀ off sz, r.sect.lookup tag = some (off, sz) → off + sz ≤ r.bytes.length

def ShardReader.bytesOf (r : ShardReader) (tag : String) : Option Bytes :=
  (r.sect.lookup tag).map fun loc => (r.bytes.drop loc.1).take loc.2

/-- The sections the calls read lie in the file, the ranges of the contents and postings do not
overflow, and the postings found decode. -/
structure ShardReader.CallsFit (r : ShardReader) : Prop where
  names : r.InBounds "fileNames"
  lites : r.InBounds "fileMeta"
  offsets : r.InBounds "contentOffsets"
  corpus : ∀ co ∈ r.bytesOf "contentOffsets", 12 ≤ co.length → r.InBounds "contentCorpus"
  contents : ∀ co ∈ r.bytesOf "contentOffsets", (r.bytesOf "contentCorpus").isSome →
    ∀ d < 2 ^ 32, d * 12 + 12 ≤ co.length →
      fieldAt co (d * 12) 8 + fieldAt co (d * 12 + 8) 4 < 2 ^ 64
  table : r.slots ≠ 0 → r.InBounds "ctHash"
  postings : r.slots ≠ 0 → (r.bytesOf "ctHash").isSome → r.InBounds "ctPostings"
  found : r.slots ≠ 0 → ∀ table ∈ r.bytesOf "ctHash", ∀ posts ∈ r.bytesOf "ctPostings",
    ∀ trig < 2 ^ 32, ∀ ref, FindsRef r.slots (ctSlotAt table) trig ref →
      ref.off + ref.len < 2 ^ 64 ∧ (ref.off + ref.len ≤ posts.length →
        TurboPFor.DecodeFits ((posts.drop ref.off).take ref.len) ref.count)

section Calls

variable {r : ShardReader} {bytes : Bytes}

lemma returns_section_bind {α : Type} {tag : String} {f : Bytes → Res α} :
    (r.section tag >>= f).Returns ↔
      r.InBounds tag ∧ ∀ s ∈ r.bytesOf tag, (f s).Returns := by
  rw [ShardReader.section, ShardReader.InBounds, ShardReader.bytesOf]
  rcases r.sect.lookup tag with _ | ⟨off, sz⟩
  · exact ⟨fun _ => ⟨fun _ _ h => (nomatch h), fun _ h => (nomatch h)⟩, fun _ => returns_err _⟩
  · dsimp only
    rw [returns_sliceAt_bind]
    simp

lemma ShardReader.path_returns_iff {d : ℕ} : (r.path d).Returns ↔ r.InBounds "fileNames" := by
  rw [ShardReader.path, returns_section_bind]
  exact and_iff_left fun s _ => returns_scanPath _ _ _ _ _

lemma ShardReader.meta_returns_iff {d : ℕ} : (r.meta d).Returns ↔ r.InBounds "fileMeta" := by
  rw [ShardReader.meta, returns_section_bind]
  refine and_iff_left fun s _ => ?_
  rw [returns_ite]
  refine ⟨fun _ => returns_err _, fun hlen => ?_⟩
  rw [returns_sliceAt_bind]
  refine ⟨by omega, returns_readMeta ?_⟩
  have h17 : metaRecLen = 17 := rfl
  simp only [List.length_take, List.length_drop]
  omega

lemma ShardReader.content_returns_iff {d : ℕ} :
    (r.content d).Returns ↔ r.InBounds "contentOffsets" ∧
      ∀ co ∈ r.bytesOf "contentOffsets", d * 12 + 12 ≤ co.length →
        r.InBounds "contentCorpus" ∧ ((r.bytesOf "contentCorpus").isSome →
          fieldAt co (d * 12) 8 + fieldAt co (d * 12 + 8) 4 < 2 ^ 64) := by
  rw [ShardReader.content, returns_section_bind]
  refine and_congr_right fun _ => forall_congr' fun co => imp_congr_right fun _ => ?_
  rw [returns_ite, and_iff_right fun _ => returns_err _, Nat.not_lt]
  refine imp_congr_right fun hlen => ?_
  rw [leU64, returns_leAt_bind, and_iff_right (by omega), leU32, returns_leAt_bind,
    and_iff_right (by omega), returns_section_bind]
  refine and_congr_right fun _ => ?_
  have hread : ∀ corpus : Bytes, (do
      let stop ← add64 (fieldAt co (d * 12) 8) (fieldAt co (d * 12 + 8) 4)
      if corpus.length < stop then
        .error (.err (.dbFormat "content slice overruns corpus"))
      else sliceAt corpus (fieldAt co (d * 12) 8) (fieldAt co (d * 12 + 8) 4) :
        Res Bytes).Returns ↔
      fieldAt co (d * 12) 8 + fieldAt co (d * 12 + 8) 4 < 2 ^ 64 := by
    intro corpus
    rw [returns_bind, returns_add64]
    refine and_iff_left_of_imp fun hsum stop hstop => ?_
    rw [add64_eq hsum] at hstop
    obtain rfl := Except.ok.inj hstop
    rw [returns_ite, returns_sliceAt]
    exact ⟨fun _ => returns_err _, fun h => by omega⟩
  rcases r.bytesOf "contentCorpus" with _ | corpus
  · simp
  · simpa using hread corpus

lemma length_of_ctSlotAt {table slot : Bytes} {idx : ℕ} (h : ctSlotAt table idx = .ok slot) :
    slot.length = slotLen := by
  unfold ctSlotAt at h
  split at h
  · cases h
  · exact length_of_sliceAt h

lemma returns_ctSlotAt (table : Bytes) (idx : ℕ) : (ctSlotAt table idx).Returns := by
  rw [ctSlotAt, returns_ite, returns_sliceAt]
  exact ⟨fun _ => returns_err _, fun h => by omega⟩

/-- A posting whose range does not overflow is read or rejected. -/
lemma refFits_ctPostingAt_iff {posts : Bytes} {ref : PostingRef} :
    RefFits (ctPostingAt posts) ref ↔
      ref.off + ref.len < 2 ^ 64 ∧ (ref.off + ref.len ≤ posts.length →
        TurboPFor.DecodeFits ((posts.drop ref.off).take ref.len) ref.count) := by
  rw [RefFits, ctPostingAt, returns_bind, returns_add64, and_assoc]
  refine and_congr_right fun hsum => ?_
  rw [add64_eq hsum, bind_ok]
  by_cases hlen : posts.length < ref.off + ref.len
  · rw [if_pos hlen]
    refine ⟨fun _ h => absurd h (by omega), fun _ => ⟨fun stop hstop => ?_, fun enc henc => ?_⟩⟩
    · obtain rfl := Except.ok.inj hstop
      rw [if_pos hlen]
      exact returns_err _
    · cases henc
  · rw [if_neg hlen, sliceAt_eq_ok_iff.mpr ⟨by omega, rfl⟩]
    constructor
    · rintro ⟨-, h⟩ -
      exact h _ rfl
    · intro h
      refine ⟨fun stop hstop => ?_, fun enc henc => ?_⟩
      · obtain rfl := Except.ok.inj hstop
        rw [if_neg hlen]
        exact returns_ok _
      · obtain rfl := Except.ok.inj henc
        exact h (by omega)

lemma ShardReader.OpenedFrom.posting_returns_iff (h : r.OpenedFrom bytes) (hslots : r.slots ≠ 0)
    (trig : ℕ) :
    (r.posting trig).Returns ↔ r.InBounds "ctHash" ∧ ∀ table ∈ r.bytesOf "ctHash",
      r.InBounds "ctPostings" ∧ ∀ posts ∈ r.bytesOf "ctPostings",
        ∀ ref, FindsRef r.slots (ctSlotAt table) trig ref →
          ref.off + ref.len < 2 ^ 64 ∧ (ref.off + ref.len ≤ posts.length →
            TurboPFor.DecodeFits ((posts.drop ref.off).take ref.len) ref.count) := by
  obtain ⟨k, hk⟩ := h.slots.resolve_left hslots
  rw [ShardReader.posting, if_neg hslots, returns_section_bind]
  refine and_congr_right fun _ => forall_congr' fun table => imp_congr_right fun _ => ?_
  rw [returns_section_bind]
  refine and_congr_right fun _ => forall_congr' fun posts => imp_congr_right fun _ => ?_
  rw [probe_returns_iff (fun _ _ => length_of_ctSlotAt) hk,
    and_iff_right fun idx _ _ => returns_ctSlotAt table idx]
  simp only [refFits_ctPostingAt_iff]

lemma ShardReader.returns_verify {d : ℕ} (h : (r.content d).Returns) (needle : Bytes)
    (caseSensitive : Bool) : (r.view.verify d needle caseSensitive).Returns := by
  rw [ShardView.verify, returns_ite]
  refine ⟨fun _ => returns_ok _, fun _ => ?_⟩
  rw [returns_bind]
  refine ⟨h, fun content _ => ?_⟩
  split
  · exact returns_ok _
  · exact returns_ok _

/-- The calls on an opened reader return exactly when they fit. -/
lemma ShardReader.OpenedFrom.callsReturn_iff (h : r.OpenedFrom bytes) :
    r.CallsReturn ↔ r.CallsFit := by
  constructor
  · intro hc
    have hzero := ShardReader.content_returns_iff.mp (hc.content 0 (by decide))
    refine ⟨ShardReader.path_returns_iff.mp (hc.path 0 (by decide)),
      ShardReader.meta_returns_iff.mp (hc.lite 0 (by decide)), hzero.1, fun co hco hlen => ?_,
      fun co hco hcorpus d hd hlen => ?_, fun hs => ?_, fun hs htable => ?_,
      fun hs table htable posts hposts trig ht => ?_⟩
    · exact (hzero.2 co hco (by omega)).1
    · exact ((ShardReader.content_returns_iff.mp (hc.content d hd)).2 co hco hlen).2 hcorpus
    · exact ((h.posting_returns_iff hs 0).mp (hc.posting 0 (by decide))).1
    · obtain ⟨table, htable⟩ := Option.isSome_iff_exists.mp htable
      exact (((h.posting_returns_iff hs 0).mp (hc.posting 0 (by decide))).2 table htable).1
    · exact (((h.posting_returns_iff hs trig).mp (hc.posting trig ht)).2 table htable).2 posts hposts
  · intro hf
    have hcontent : ∀ d < 2 ^ 32, (r.content d).Returns := by
      intro d hd
      refine ShardReader.content_returns_iff.mpr ⟨hf.offsets, fun co hco hlen => ?_⟩
      exact ⟨hf.corpus co hco (by omega), fun hcorpus => hf.contents co hco hcorpus d hd hlen⟩
    refine ⟨fun d _ => ShardReader.path_returns_iff.mpr hf.names,
      fun d _ => ShardReader.meta_returns_iff.mpr hf.lites, hcontent, fun trig ht => ?_,
      fun d hd needle cs => ShardReader.returns_verify (hcontent d hd) needle cs⟩
    by_cases hs : r.slots = 0
    · rw [ShardReader.posting, if_pos hs]
      exact returns_ok _
    · refine (h.posting_returns_iff hs trig).mpr ⟨hf.table hs, fun table htable => ?_⟩
      exact ⟨hf.postings hs (Option.isSome_of_mem htable),
        fun posts hposts => hf.found hs table htable posts hposts trig ht⟩

end Calls

/-! ## The condition -/

/-- Bytes on which no call of the reader panics: the header fits, and so do the calls on the
reader it opens. -/
def ShardFits (bytes : Bytes) : Prop :=
  ShardHeaderFits bytes ∧ ∀ r, ShardReader.open bytes = .ok r → r.CallsFit

/-- On arbitrary bytes, opening the shard and every call on the opened reader return `Ok` or `Err`
exactly when the bytes fit.  Nothing is said about what they return: a file that fits need not be
one that `finish` wrote. -/
theorem shard_reader_returns_iff (bytes : Bytes) :
    ((ShardReader.open bytes).Returns ∧
      ∀ r, ShardReader.open bytes = .ok r → r.CallsReturn) ↔ ShardFits bytes := by
  rw [ShardFits, ShardReader.open_returns_iff]
  refine and_congr_right fun _ => forall_congr' fun r => imp_congr_right fun hr => ?_
  exact (ShardReader.openedFrom hr).callsReturn_iff

/-- Eight zero bytes are a footer that names an empty table of contents at offset 0, whose entry
count is then read past its end. -/
theorem zero_footer_panics :
    ShardReader.open (List.replicate 8 0) = .error .panicked ∧
      ¬ (ShardReader.open (List.replicate 8 0)).Returns := by
  have h : ShardReader.open (List.replicate 8 0) = .error .panicked := by rfl
  refine ⟨h, ?_⟩
  rw [h]
  exact not_returns_panicked

end DeepFinder
