import DeepFinder.Content.Fold
import DeepFinder.Core.Candidate
import DeepFinder.Core.Records
import DeepFinder.Core.Varint

/-!
# Content shards

A `.dfcs` shard is a sequence of sections, a table of contents naming each section's offset and
size, and an eight-byte footer that locates the table.  `ShardBuilder.add_file` collects paths,
metadata, the content corpus and an index of the folded contents; `ShardReader` reads them back.

What the builder casts to 32 bits is cut off here, as casts are; `Index/ShardSizes.lean` says when
none is.  The reader checks what the source checks and reads the rest as it is, so that bytes which
no builder wrote can make it panic (`Content/ShardCorrupt.lean`).
-/

namespace DeepFinder

open ByteString

/-! ## Building -/

/-- `SHARD_VERSION`. -/
def shardVersion : ℕ := 1

/-- The builder's state. -/
structure ShardBuilder where
  shardId : ℕ
  baseDocid : ℕ
  paths : List String := []
  lites : List LiteMeta := []
  corpus : Bytes := []
  offsets : List (ℕ × ℕ) := []
  tryMap : OrderedMap ℕ (List ℕ) := []

/-- A file as it is handed to the builder. -/
structure ShardFile where
  path : String
  lite : LiteMeta
  content : Bytes

/-- `add_file`. -/
def ShardBuilder.addFile (b : ShardBuilder) (f : ShardFile) : ShardBuilder :=
  { b with
    paths := b.paths ++ [f.path]
    lites := b.lites ++ [f.lite]
    corpus := b.corpus ++ f.content
    offsets := b.offsets ++ [(b.corpus.length, f.content.length)]
    tryMap := addPostings b.tryMap (b.paths.length % 2 ^ 32) (trigrams (fold f.content)) }

/-- `doc_count`. -/
def ShardBuilder.docCount (b : ShardBuilder) : ℕ := b.paths.length % 2 ^ 32

/-- `content_bytes`. -/
def ShardBuilder.contentBytes (b : ShardBuilder) : ℕ := b.corpus.length

def offsetRecord (o : ℕ × ℕ) : Bytes := toLE 8 o.1 ++ toLE 4 o.2

def metaData (buildTime shardId baseDocid numDocs slotsLog2 : ℕ) : Bytes :=
  toLE 2 shardVersion ++ (toLE 8 buildTime ++ (toLE 4 shardId ++ (toLE 4 baseDocid ++
    (toLE 4 numDocs ++ toLE 4 slotsLog2))))

/-- The sections, in file order, around a hash table and the postings. -/
def ShardBuilder.sections (b : ShardBuilder) (buildTime : ℕ) (table post : Bytes) :
    List (String × Bytes) :=
  [("metaData", metaData buildTime b.shardId b.baseDocid b.paths.length
      (slotsLog2 (slotCount b.tryMap.length))),
    ("fileNames", b.paths.flatMap pathRecord),
    ("fileMeta", b.lites.flatMap metaRecord),
    ("contentOffsets", b.offsets.flatMap offsetRecord),
    ("contentCorpus", b.corpus),
    ("ctHash", table),
    ("ctPostings", post)]

def tocEntry (loc : String × ℕ × ℕ) : Bytes :=
  encodeU32 (utf8 loc.1).length ++ (utf8 loc.1 ++ ([0] ++ (toLE 4 loc.2.1 ++ toLE 4 loc.2.2)))

/-- The loop over the sections that writes the body and records each section's location. -/
def layOutSections (sections : List (String × Bytes)) : List (String × ℕ × ℕ) × Bytes :=
  sections.foldl (fun acc s => (acc.1 ++ [(s.1, acc.2.length, s.2.length)], acc.2 ++ s.2)) ([], [])

/-- The end of `finish`: the table of contents behind the body, then the footer, whose fields are
32-bit values and whose `toc_sz` is a 32-bit subtraction. -/
def appendToc (body toc : Bytes) : Res Bytes :=
  let tocOff := body.length % 2 ^ 32
  let outLen := (body ++ toc).length % 2 ^ 32
  if outLen < tocOff then .error .panicked
  else .ok (body ++ (toc ++ (toLE 4 tocOff ++ toLE 4 (outLen - tocOff))))

/-- `finish`. -/
def ShardBuilder.finish (b : ShardBuilder) (buildTime : ℕ) : Res Bytes := do
  let post := encodePostings 0 b.tryMap
  let table ← buildRobinHood post.1 (slotCount b.tryMap.length)
  let body := layOutSections (b.sections buildTime table post.2)
  appendToc body.2 (toLE 4 body.1.length ++ body.1.flatMap tocEntry)

/-! ## Reading -/

/-- `ShardReader`. -/
structure ShardReader where
  bytes : Bytes
  buildTime : ℕ
  shardId : ℕ
  numDocs : ℕ
  baseDocid : ℕ
  slots : ℕ
  sect : List (String × ℕ × ℕ)

def knownTags : List String :=
  ["metaData", "fileNames", "fileMeta", "contentOffsets", "contentCorpus", "ctHash", "ctPostings"]

/-- The loop of `open` over the table of contents; an unknown tag is skipped. -/
def readToc (toc : Bytes) : ℕ → ℕ → List (String × ℕ × ℕ) → Res (List (String × ℕ × ℕ))
  | 0, _, sect => pure sect
  | todo + 1, p, sect =>
      match decodeU32 toc p with
      | none => .error (.err (.dbFormat "bad tag varint"))
      | some (tagLen, p) => do
          let tagBytes ← sliceAt toc p tagLen
          let _kind ← byteAt toc (p + tagLen)
          let off ← leU32 toc (p + tagLen + 1)
          let sz ← leU32 toc (p + tagLen + 5)
          match fromUtf8 tagBytes with
          | some tag =>
              readToc toc todo (p + tagLen + 9)
                (if tag ∈ knownTags then (tag, off, sz) :: sect else sect)
          | none => readToc toc todo (p + tagLen + 9) sect

/-- `ShardReader::open`. -/
def ShardReader.open (bytes : Bytes) : Res ShardReader := do
  if bytes.length < 8 then .error (.err (.dbFormat "shard too short"))
  else do
    let footer := bytes.length - 8
    let tocOff ← leU32 bytes footer
    let tocSz ← leU32 bytes (footer + 4)
    if tocOff + tocSz ≠ footer then .error (.err (.dbFormat "shard TOC/end mismatch"))
    else do
      let toc ← sliceAt bytes tocOff tocSz
      let count ← leU32 toc 0
      let sect ← readToc toc count 4 []
      match sect.lookup "metaData" with
      | none => .error (.err (.dbFormat "missing metaData"))
      | some (off, sz) =>
          if 2 ^ 32 ≤ off + sz then .error .panicked
          else do
            let md ← sliceAt bytes off sz
            let version ← leAt md 0 2
            if version ≠ shardVersion then
              .error (.err (.dbFormat s!"unsupported shard version {version}"))
            else do
              let buildTime ← leU64 md 2
              let shardId ← leU32 md 10
              let baseDocid ← leU32 md 14
              let numDocs ← leU32 md 18
              let log2 ← leU32 md 22
              let slots ← slotsOfLog2 log2
              pure ⟨bytes, buildTime, shardId, numDocs, baseDocid, slots, sect⟩

/-- `section`. -/
def ShardReader.section (r : ShardReader) (tag : String) : Res Bytes :=
  match r.sect.lookup tag with
  | none => .error (.err (.dbFormat s!"missing section {tag}"))
  | some (off, sz) => sliceAt r.bytes off sz

/-- `path`. -/
def ShardReader.path (r : ShardReader) (docid : ℕ) : Res String := do
  let fns ← r.section "fileNames"
  scanPath "fileNames truncated" "path overruns fileNames" fns docid 0

/-- `meta`. -/
def ShardReader.meta (r : ShardReader) (docid : ℕ) : Res LiteMeta := do
  let fm ← r.section "fileMeta"
  if fm.length < docid * 17 + 17 then .error (.err (.query "docid out of range"))
  else do
    let rec ← sliceAt fm (docid * 17) 17
    readMeta rec

/-- `content`. -/
def ShardReader.content (r : ShardReader) (docid : ℕ) : Res Bytes := do
  let co ← r.section "contentOffsets"
  if co.length < docid * 12 + 12 then .error (.err (.query "docid out of range"))
  else do
    let off ← leU64 co (docid * 12)
    let len ← leU32 co (docid * 12 + 8)
    let corpus ← r.section "contentCorpus"
    let stop ← add64 off len
    if corpus.length < stop then .error (.err (.dbFormat "content slice overruns corpus"))
    else sliceAt corpus off len

/-- The bytes of slot `idx` of the hash section. -/
def ctSlotAt (table : Bytes) (idx : ℕ) : Res Bytes :=
  if table.length < idx * slotLen + slotLen then .error (.err (.dbFormat "ctHash truncated"))
  else sliceAt table (idx * slotLen) slotLen

/-- The encoded posting at an offset of the posting section. -/
def ctPostingAt (postings : Bytes) (off len : ℕ) : Res Bytes := do
  let stop ← add64 off len
  if postings.length < stop then .error (.err (.dbFormat "posting overruns ctPostings"))
  else sliceAt postings off len

/-- `posting`. -/
def ShardReader.posting (r : ShardReader) (trig : ℕ) : Res (Option (List ℕ)) :=
  if r.slots = 0 then .ok none
  else do
    let table ← r.section "ctHash"
    let postings ← r.section "ctPostings"
    probe r.slots (r.slots - 1) trig (ctSlotAt table) (ctPostingAt postings)

lemma ShardReader.posting_eq_findRef {r : ShardReader} (h : r.slots ≠ 0) {table postings : Bytes}
    (ht : r.section "ctHash" = .ok table) (hp : r.section "ctPostings" = .ok postings)
    (trig : ℕ) :
    r.posting trig = findRef hash r.slots (r.slots - 1) trig (ctSlotAt table) >>=
      decodeFound (ctPostingAt postings) := by
  rw [ShardReader.posting, if_neg h, ht, bind_ok, hp, bind_ok, probe_eq_findRef]

/-! ## Searching -/

/-- What a search sees of a shard. -/
structure ShardView where
  numDocs : ℕ
  path : ℕ → Res String
  lite : ℕ → Res LiteMeta
  content : ℕ → Res Bytes
  posting : ℕ → Res (Option (List ℕ))

/-- The view of a reader. -/
def ShardReader.view (r : ShardReader) : ShardView where
  numDocs := r.numDocs
  path := r.path
  lite := r.meta
  content := r.content
  posting := r.posting

/-- `cs_verify`. -/
def ShardView.verify (v : ShardView) (docid : ℕ) (needle : Bytes) (caseSensitive : Bool) :
    Res Bool :=
  if needle = [] then .ok true
  else do
    let content ← v.content docid
    if caseSensitive then pure (memmemFind content needle).isSome
    else pure (memmemFind (fold content) needle).isSome

def ShardView.source (v : ShardView) : CandidateSource where
  csPosting := v.posting
  csVerify := v.verify
  csNumDocs := v.numDocs

/-- A compiled regex of the byte engine: whether it matches a content, and where its matches
start. -/
structure ByteRegex where
  isMatch : Bytes → Bool
  findIter : Bytes → List ℕ

/-- The loop of `content_regex_docids` over the candidates. -/
def regexLoop (v : ShardView) (re : ByteRegex) : List ℕ → Res (List ℕ)
  | [] => pure []
  | d :: ds => do
      let content ← v.content d
      let rest ← regexLoop v re ds
      pure (if re.isMatch content then d :: rest else rest)

/-- `content_regex_docids`. -/
def contentRegexDocids (v : ShardView) (atomFolded : Bytes) (re : ByteRegex)
    (limit : Option ℕ) : Res (List ℕ) := do
  let cands ← candidates v.source atomFolded atomFolded false limit
  regexLoop v re cands

/-- The shard holds exactly `files`, and its postings index their folded contents.  This is all that
the searches know of a shard, so that nothing above depends on its format. -/
structure ShardView.Indexes (v : ShardView) (files : List ShardFile) : Prop where
  numDocs_eq : v.numDocs = files.length
  path_eq : ∀ d f, files[d]? = some f → v.path d = .ok f.path
  lite_eq : ∀ d f, files[d]? = some f → v.lite d = .ok f.lite
  content_eq : ∀ d f, files[d]? = some f → v.content d = .ok f.content
  posting_eq : PostingsOf v.posting (files.map fun f => fold f.content)

/-- Whether a content matches a literal query: exactly, or folded against the folded query. -/
def contentMatches (folded original : Bytes) (caseSensitive : Bool) (content : Bytes) : Bool :=
  if caseSensitive then containsSub content original else containsSub (fold content) folded

variable {v : ShardView} {files : List ShardFile}

lemma ShardView.Indexes.verify_eq (h : v.Indexes files) {d : ℕ} {f : ShardFile}
    (hd : files[d]? = some f) (folded original : Bytes) (caseSensitive : Bool) :
    v.verify d (if caseSensitive then original else folded) caseSensitive =
      .ok (contentMatches folded original caseSensitive f.content) := by
  unfold ShardView.verify contentMatches
  rw [h.content_eq d f hd, bind_ok]
  cases caseSensitive with
  | true =>
      by_cases hnil : original = []
      · simp [hnil]
      · simp [hnil, isSome_memmemFind]
        rfl
  | false =>
      by_cases hnil : folded = []
      · simp [hnil]
      · simp [hnil, isSome_memmemFind]
        rfl

def matchingDocs (files : List ShardFile) (p : Bytes → Bool) : List ℕ :=
  (List.range files.length).filter fun d => ((files[d]?).map fun f => p f.content).getD false

/-- When a match implies that the folded content has the trigrams of `folded`, a search returns
the first `limit` matching documents. -/
theorem ShardView.Indexes.candidates_eq (h : v.Indexes files) {folded original : Bytes}
    {caseSensitive : Bool}
    (hsound : 3 ≤ folded.length → ∀ f ∈ files,
      contentMatches folded original caseSensitive f.content = true →
        trigrams folded ⊆ trigrams (fold f.content)) (limit : Option ℕ) :
    candidates v.source folded original caseSensitive limit =
      .ok (takeOpt limit (matchingDocs files (contentMatches folded original caseSensitive))) := by
  have hlen : (files.map fun f => fold f.content).length = files.length := List.length_map _
  rw [matchingDocs, ← hlen]
  refine DeepFinder.candidates_eq (h.numDocs_eq.trans hlen.symm) h.posting_eq ?_ ?_ limit
  · intro d hd
    rw [hlen] at hd
    have hget := List.getElem?_eq_getElem hd
    rw [hget]
    exact h.verify_eq hget folded original caseSensitive
  · intro h3 d x hx hv
    rw [List.getElem?_map, Option.map_eq_some_iff] at hx
    obtain ⟨f, hf, rfl⟩ := hx
    rw [hf] at hv
    exact hsound h3 f (List.mem_of_getElem? hf) hv

end DeepFinder
