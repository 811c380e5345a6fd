import DeepFinder.Ipc.Wire
import DeepFinder.Lib.Codec

/-!
# The standard encoding of messages

A concrete `WireCodec` that follows the documented standard configuration of the two crates: fields
in the order of the source, as the encoding of a WAL record writes them, and before every message
its length in four bytes, most significant byte first.

Frames, replies and sessions are proved about for every codec with the two hypotheses of
`Ipc/Wire.lean`; this module shows that there is such a codec (`standardWire_sizes`,
`standardWire_roundTrips`), and concrete runs are evaluated with it.

The options of the model leave out `direct`, which the daemon does not read; on the wire it has its
place before the other options.
-/

namespace DeepFinder

open ByteString

/-! ## Encoding frames -/

/-- A `Vec`: the number of elements, and then the elements. -/
def encVec {α : Type} (enc : α → Option Bytes) (l : List α) : Option Bytes := do
  let len ← encVarint l.length
  let elems ← l.mapM enc
  some (len ++ elems.flatten)

/-- A `String`. -/
def encString (s : String) : Option Bytes := encBlob (utf8 s)

/-- A `LiteMeta`. -/
def encLite (lite : LiteMeta) : Option Bytes := do
  let s ← encVarint (zigzag lite.size.toInt)
  let t ← encVarint (zigzag lite.mtime.toInt)
  some ((if lite.isDir then 1 else 0) :: (s ++ t))

/-- A `MatchKind`: the index of the variant. -/
def encKind : MatchKind → Option Bytes
  | .filename => some [0]
  | .content => some [1]
  | .both => some [2]

/-- A `LineHit`. -/
def encLineHit (hit : LineHit) : Option Bytes := do
  let p ← encString hit.path
  let n ← encVarint hit.lineNo
  let t ← encString hit.text
  some (p ++ (n ++ t))

/-- A `ResponseFrame`. -/
def encFrame : ResponseFrame → Option Bytes
  | .batch paths lites kinds => do
      let p ← encVec encString paths
      let m ← encVec encLite lites
      let k ← encVec encKind kinds
      some (0 :: (p ++ (m ++ k)))
  | .lines hits => do
      let h ← encVec encLineHit hits
      some (1 :: h)
  | .done total => do
      let n ← encVarint total
      some (2 :: n)
  | .error message => do
      let m ← encString message
      some (3 :: m)
  | .indexAck accepted message => do
      let m ← encString message
      some (4 :: ((if accepted then 1 else 0) :: m))

/-! ## The sizes of what is encoded -/

/-- The encoding has `n` bytes, or there is none and `n` does not fit in 64 bits. -/
def Sized (r : Option Bytes) (n : ℕ) : Prop :=
  (∃ bs, r = some bs ∧ bs.length = n) ∨ (r = none ∧ 2 ^ 64 ≤ n)

lemma Sized.of_length {bs : Bytes} {n : ℕ} (h : bs.length = n) : Sized (some bs) n :=
  Or.inl ⟨bs, rfl, h⟩

/-- A part that is encoded before the rest. -/
lemma Sized.bind {α : Type} {r : Option α} {g : α → Bytes} {f : α → Option Bytes} {n m : ℕ}
    (h : Sized (r.map g) n) (hm : n ≤ m) (hf : ∀ a, (g a).length = n → Sized (f a) m) :
    Sized (r.bind f) m := by
  cases r with
  | none =>
      rcases h with ⟨bs, hbs, -⟩ | ⟨-, hn⟩
      · cases hbs
      · exact Or.inr ⟨rfl, by omega⟩
  | some a =>
      rcases h with ⟨bs, hbs, hlen⟩ | ⟨hnone, -⟩
      · obtain rfl := Option.some.inj hbs
        exact hf a hlen
      · cases hnone

lemma Sized.bytes {r : Option Bytes} {f : Bytes → Option Bytes} {n m : ℕ} (h : Sized r n)
    (hm : n ≤ m) (hf : ∀ bs, bs.length = n → Sized (f bs) m) : Sized (r.bind f) m := by
  refine Sized.bind (g := id) ?_ hm hf
  rw [Option.map_id]
  exact h

lemma sized_encVarint (n : ℕ) : Sized (encVarint n) (varintSize n) := by
  unfold encVarint varintSize
  split
  · exact Sized.of_length rfl
  · split
    · exact Sized.of_length (by simp)
    · split
      · exact Sized.of_length (by simp)
      · split
        · exact Sized.of_length (by simp)
        · exact Or.inr ⟨rfl, by omega⟩

lemma sized_encString (s : String) : Sized (encString s) (stringSize s) := by
  refine (sized_encVarint _).bytes (Nat.le_add_right ..) fun len hlen => ?_
  exact Sized.of_length (by rw [List.length_append, hlen]; rfl)

lemma sized_encLite (lite : LiteMeta) : Sized (encLite lite) (liteSize lite) := by
  unfold liteSize
  refine (sized_encVarint _).bytes (by omega) fun s hs => ?_
  refine (sized_encVarint _).bytes (by omega) fun t ht => Sized.of_length ?_
  rw [List.length_cons, List.length_append, hs, ht, Nat.add_comm]

lemma sized_encKind (kind : MatchKind) : Sized (encKind kind) 1 := by
  cases kind <;> exact Sized.of_length rfl

lemma sized_encLineHit (hit : LineHit) : Sized (encLineHit hit) (lineHitSize hit) := by
  unfold lineHitSize
  refine (sized_encString _).bytes (by omega) fun p hp => ?_
  refine (sized_encVarint _).bytes (by omega) fun n hn => ?_
  refine (sized_encString _).bytes (by omega) fun t ht => Sized.of_length ?_
  rw [List.length_append, List.length_append, hp, hn, ht]

section Vector

variable {α : Type} {enc : α → Option Bytes} {size : α → ℕ}

lemma sized_mapM (h : ∀ a, Sized (enc a) (size a)) (l : List α) :
    Sized ((l.mapM enc).map List.flatten) (l.map size).sum := by
  induction l with
  | nil => exact Sized.of_length rfl
  | cons a l ih =>
      rw [List.mapM_cons, List.map_cons, List.sum_cons, Option.bind_eq_bind, Option.map_bind]
      refine (h a).bytes (Nat.le_add_right ..) fun x hx => ?_
      rw [Function.comp_apply, Option.bind_eq_bind, Option.map_bind]
      refine ih.bind (Nat.le_add_left ..) fun xs hxs => Sized.of_length ?_
      rw [List.flatten_cons, List.length_append, hx, hxs]

lemma sized_encVec (h : ∀ a, Sized (enc a) (size a)) (l : List α) :
    Sized (encVec enc l) (vecSize (l.map size)) := by
  unfold vecSize
  rw [List.length_map]
  refine (sized_encVarint _).bytes (Nat.le_add_right ..) fun len hlen => ?_
  refine (sized_mapM h l).bind (Nat.le_add_left ..) fun xs hxs => Sized.of_length ?_
  rw [List.length_append, hlen, hxs]

end Vector

lemma sized_lines (hits : List LineHit) : Sized (encFrame (.lines hits)) (linesSize hits) := by
  unfold linesSize
  refine (sized_encVec sized_encLineHit hits).bytes (by omega) fun h hh => Sized.of_length ?_
  rw [List.length_cons, hh, Nat.add_comm]

lemma sized_batch (paths : List String) (lites : List LiteMeta) (kinds : List MatchKind) :
    Sized (encFrame (.batch paths lites kinds)) (batchSize paths lites kinds) := by
  unfold batchSize
  refine (sized_encVec sized_encString paths).bytes (by omega) fun p hp => ?_
  refine (sized_encVec sized_encLite lites).bytes (by omega) fun m hm => ?_
  refine (sized_encVec sized_encKind kinds).bytes (by omega) fun k hk => Sized.of_length ?_
  rw [List.length_cons, List.length_append, List.length_append, hp, hm, hk, Nat.add_comm]

/-! ## Numbers -/

lemma decLE_cut {k n : ℕ} {p : Bytes} (hp : p <+: toLE k n) (hne : p ≠ toLE k n) :
    decLE k p = none := by
  have hlen : p.length < k := by
    have hle := hp.length_le
    rw [length_toLE] at hle
    refine lt_of_le_of_ne hle fun heq => hne (hp.eq_of_length ?_)
    rw [heq, length_toLE]
  have htake : takeBytes k p = none := if_neg (by omega)
  simp [decLE, htake]

/-- A number that does not fit in a byte is cut in the digits behind its mark. -/
lemma decVarint_cut {n : ℕ} {v p : Bytes} (h : encVarint n = some v) (hp : p <+: v)
    (hne : p ≠ v) : decVarint p = none := by
  unfold encVarint at h
  split at h
  · obtain rfl := Option.some.inj h
    rcases Codec.cut_cons hp hne with rfl | ⟨q, rfl, hq, hneq⟩
    · rfl
    · exact absurd (List.prefix_nil.mp hq) hneq
  · split at h
    · obtain rfl := Option.some.inj h
      rcases Codec.cut_cons hp hne with rfl | ⟨q, rfl, hq, hneq⟩
      · rfl
      · exact decLE_cut hq hneq
    · split at h
      · obtain rfl := Option.some.inj h
        rcases Codec.cut_cons hp hne with rfl | ⟨q, rfl, hq, hneq⟩
        · rfl
        · exact decLE_cut hq hneq
      · split at h
        · obtain rfl := Option.some.inj h
          rcases Codec.cut_cons hp hne with rfl | ⟨q, rfl, hq, hneq⟩
          · rfl
          · exact decLE_cut hq hneq
        · cases h

/-- A number of 32 bits; one that is written in 64 bits is refused. -/
def decU32 : Bytes → Option (ℕ × Bytes)
  | [] => none
  | b :: bs => if b = 253 then none else decVarint (b :: bs)

def encU32 (n : ℕ) : Option Bytes := if n < 2 ^ 32 then encVarint n else none

lemma encU32_eq {n : ℕ} (h : n < 2 ^ 32) : encU32 n = encVarint n := if_pos h

/-- The first byte of a number of 32 bits is not the mark of a longer one. -/
lemma encU32_head {n : ℕ} {v : Bytes} (h : encU32 n = some v) :
    ∃ b bs, v = b :: bs ∧ b ≠ 253 ∧ encVarint n = some v := by
  unfold encU32 at h
  split at h
  · have h' := h
    unfold encVarint at h'
    split at h'
    · obtain rfl := Option.some.inj h'
      refine ⟨_, _, rfl, fun heq => ?_, h⟩
      have hnat := congrArg UInt8.toNat heq
      rw [UInt8.toNat_ofNat'] at hnat
      simp at hnat
      omega
    · split at h'
      · obtain rfl := Option.some.inj h'
        exact ⟨_, _, rfl, by decide, h⟩
      · obtain rfl := Option.some.inj h'
        exact ⟨_, _, rfl, by decide, h⟩
  · cases h

/-- `u64` and `usize`. -/
def u64Codec : Codec UInt8 ℕ where
  enc := encVarint
  dec := decVarint
  dec_enc post h := decVarint_encVarint h post
  dec_cut := decVarint_cut

/-- `u32`, and the number of a variant. -/
def u32Codec : Codec UInt8 ℕ where
  enc := encU32
  dec := decU32
  dec_enc post h := by
    obtain ⟨b, bs, rfl, hb, henc⟩ := encU32_head h
    have hdec := decVarint_encVarint henc post
    rw [List.cons_append] at hdec ⊢
    rw [decU32, if_neg hb, hdec]
  dec_cut h hp hne := by
    obtain ⟨b, bs, rfl, hb, henc⟩ := encU32_head h
    rcases Codec.cut_cons hp hne with rfl | ⟨q, rfl, -, -⟩
    · rfl
    · rw [decU32, if_neg hb, decVarint_cut henc hp hne]

/-- `i64`. -/
def i64Codec : Codec UInt8 Int64 :=
  u64Codec.via (fun n => some (Int64.ofInt (unzigzag n))) (fun x => some (zigzag x.toInt))
    fun {x n} h => by
      obtain rfl := Option.some.inj h
      simp [unzigzag_zigzag]

/-- `bool`. -/
def boolCodec : Codec UInt8 Bool where
  enc b := some [if b then 1 else 0]
  dec := decBit
  dec_enc post h := by
    obtain rfl := Option.some.inj h
    exact decBit_cons _ post
  dec_cut h hp hne := by
    obtain rfl := Option.some.inj h
    rcases Codec.cut_cons hp hne with rfl | ⟨q, rfl, hq, hneq⟩
    · rfl
    · exact absurd (List.prefix_nil.mp hq) hneq

/-! ## Strings and vectors -/

/-- The bytes of a string, with their number before them. -/
def blobCodec : Codec UInt8 Bytes where
  enc := encBlob
  dec := decBlob
  dec_enc post h := decBlob_encBlob h post
  dec_cut h hp hne := by
    obtain ⟨len, hlen, h⟩ := Option.bind_eq_some_iff.mp h
    obtain rfl := Option.some.inj h
    rcases Codec.cut_append hp hne with ⟨hcut, hne⟩ | ⟨q, rfl, hq, hne⟩
    · simp [decBlob, decVarint_cut hlen hcut hne]
    · have hshort : q.length < _ := lt_of_le_of_ne hq.length_le fun h => hne (hq.eq_of_length h)
      have htake : takeBytes _ q = none := if_neg (Nat.not_le_of_lt hshort)
      simp [decBlob, decVarint_encVarint hlen q, htake]

/-- `String` and `PathBuf`. -/
def stringCodec : Codec UInt8 String :=
  blobCodec.via fromUtf8 (fun s => some (utf8 s)) fun {s bs} h => by
    obtain rfl := Option.some.inj h
    exact fromUtf8_utf8 s

/-- `Vec`. -/
def vecCodec {α : Type} (c : Codec UInt8 α) : Codec UInt8 (List α) := Codec.list u64Codec c

/-- `Option`. -/
def optionCodec {α : Type} (c : Codec UInt8 α) : Codec UInt8 (Option α) := Codec.option boolCodec c

/-- An `enum` without fields. -/
def enumCodec {α : Type} [DecidableEq α] (variants : List α) : Codec UInt8 α :=
  Codec.enum u32Codec variants

/-! ## Response frames -/

/-- `LiteMeta`. -/
def liteCodec : Codec UInt8 LiteMeta :=
  (boolCodec.pair (i64Codec.pair i64Codec)).via (fun x => some ⟨x.1, x.2.1, x.2.2⟩)
    (fun lite => some (lite.isDir, lite.size, lite.mtime)) fun {lite x} h => by
      obtain rfl := Option.some.inj h
      rfl

/-- `MatchKind`. -/
def kindCodec : Codec UInt8 MatchKind := enumCodec [.filename, .content, .both]

/-- `LineHit`. -/
def lineHitCodec : Codec UInt8 LineHit :=
  (stringCodec.pair (u32Codec.pair stringCodec)).via (fun x => some ⟨x.1, x.2.1, x.2.2⟩)
    (fun hit => some (hit.path, hit.lineNo, hit.text)) fun {hit x} h => by
      obtain rfl := Option.some.inj h
      rfl

/-- The number of a frame's variant. -/
def frameTag : ResponseFrame → ℕ
  | .batch .. => 0
  | .lines .. => 1
  | .done .. => 2
  | .error .. => 3
  | .indexAck .. => 4

/-- The fields of a frame's variant. -/
def frameBody : ℕ → Codec UInt8 ResponseFrame
  | 0 => ((vecCodec stringCodec).pair ((vecCodec liteCodec).pair (vecCodec kindCodec))).via
      (fun x => some (.batch x.1 x.2.1 x.2.2))
      (fun | .batch paths lites kinds => some (paths, lites, kinds) | _ => none)
      fun {f x} h => by
        obtain ⟨paths, lites, kinds⟩ := x
        cases f <;> simp_all
  | 1 => (vecCodec lineHitCodec).via (fun hits => some (.lines hits))
      (fun | .lines hits => some hits | _ => none) fun {f x} h => by cases f <;> simp_all
  | 2 => u32Codec.via (fun total => some (.done total))
      (fun | .done total => some total | _ => none) fun {f x} h => by cases f <;> simp_all
  | 3 => stringCodec.via (fun message => some (.error message))
      (fun | .error message => some message | _ => none) fun {f x} h => by cases f <;> simp_all
  | 4 => (boolCodec.pair stringCodec).via (fun x => some (.indexAck x.1 x.2))
      (fun | .indexAck accepted message => some (accepted, message) | _ => none)
      fun {f x} h => by
        obtain ⟨accepted, message⟩ := x
        cases f <;> simp_all
  | _ => Codec.void

/-- `ResponseFrame`. -/
def frameCodec : Codec UInt8 ResponseFrame := Codec.tagged u32Codec frameTag frameBody

def decFrame (bs : Bytes) : Option ResponseFrame := (frameCodec.dec bs).map Prod.fst

lemma enc_liteCodec (lite : LiteMeta) : liteCodec.enc lite = encLite lite := by
  simp [liteCodec, Codec.via, Codec.pair, boolCodec, i64Codec, u64Codec, encLite,
    Option.bind_assoc]

lemma enc_kindCodec (kind : MatchKind) : kindCodec.enc kind = encKind kind := by
  cases kind <;> rfl

lemma enc_lineHitCodec {hit : LineHit} (h : hit.lineNo < 2 ^ 32) :
    lineHitCodec.enc hit = encLineHit hit := by
  simp [lineHitCodec, Codec.via, Codec.pair, stringCodec, blobCodec, u32Codec, encU32_eq h,
    encLineHit, encString, Option.bind_assoc]

lemma enc_vecCodec {α : Type} {c : Codec UInt8 α} {enc : α → Option Bytes} {l : List α}
    (h : ∀ a ∈ l, c.enc a = enc a) : (vecCodec c).enc l = encVec enc l := by
  have hmap : l.mapM c.enc = l.mapM enc := by
    induction l with
    | nil => rfl
    | cons a l ih =>
        rw [List.mapM_cons, List.mapM_cons, h a (List.mem_cons_self ..),
          ih fun b hb => h b (List.mem_cons_of_mem _ hb)]
  simp [vecCodec, Codec.list, u64Codec, encVec, hmap]

lemma enc_frameTag (f : ResponseFrame) :
    u32Codec.enc (frameTag f) = some [UInt8.ofNat (frameTag f)] := by
  cases f <;> rfl

/-- The codec writes a frame as it is sent. -/
lemma enc_frameCodec {f : ResponseFrame} (h : f.Typed) : frameCodec.enc f = encFrame f := by
  simp only [frameCodec, Codec.tagged, enc_frameTag]
  cases f with
  | batch paths lites kinds =>
      have hpaths : (vecCodec stringCodec).enc paths = encVec encString paths :=
        enc_vecCodec fun _ _ => rfl
      have hlites : (vecCodec liteCodec).enc lites = encVec encLite lites :=
        enc_vecCodec fun a _ => enc_liteCodec a
      have hkinds : (vecCodec kindCodec).enc kinds = encVec encKind kinds :=
        enc_vecCodec fun a _ => enc_kindCodec a
      simp [frameTag, frameBody, Codec.via, Codec.pair, hpaths, hlites, hkinds, encFrame,
        Option.bind_assoc]
  | lines hits =>
      have hhits : (vecCodec lineHitCodec).enc hits = encVec encLineHit hits :=
        enc_vecCodec fun a ha => enc_lineHitCodec (h a ha)
      simp [frameTag, frameBody, Codec.via, hhits, encFrame]
  | done total =>
      have htotal : u32Codec.enc total = encVarint total := encU32_eq h
      simp [frameTag, frameBody, Codec.via, htotal, encFrame]
  | error message =>
      simp [frameTag, frameBody, Codec.via, stringCodec, blobCodec, encFrame, encString]
  | indexAck accepted message =>
      simp [frameTag, frameBody, Codec.via, Codec.pair, boolCodec, stringCodec, blobCodec,
        encFrame, encString, Option.bind_assoc]

/-! ## Requests -/

/-- `SearchOptions`, with `direct` before the others. -/
def optionsCodec : Codec UInt8 (Bool × SearchOptions) :=
  (boolCodec.pair <| (vecCodec stringCodec).pair <| (vecCodec stringCodec).pair <|
    (vecCodec stringCodec).pair <| (vecCodec stringCodec).pair <| (optionCodec u32Codec).pair <|
    (optionCodec stringCodec).pair <| (enumCodec [.smart, .insensitive, .sensitive]).pair <|
    boolCodec.pair <| (optionCodec u32Codec).pair <| (boolCodec.pair boolCodec).pair <|
    (enumCodec [.full, .basename]).pair <| boolCodec.pair <|
    (enumCodec [.default, .path, .kind, .none]).pair <| optionCodec stringCodec).via
    (fun (direct, extensions, types, excludes, globs, maxDepth, regex, control, lineNumbers,
        context, (filename, content), pathMode, hidden, sort, expr) =>
      some (direct, {
        extensions := extensions
        types := types
        excludes := excludes
        globs := globs
        maxDepth := maxDepth
        regex := regex
        case := control
        lineNumbers := lineNumbers
        context := context
        layers := ⟨filename, content⟩
        pathMode := pathMode
        hidden := hidden
        sort := sort
        expr := expr }))
    (fun (direct, o) =>
      some (direct, o.extensions, o.types, o.excludes, o.globs, o.maxDepth, o.regex, o.case,
        o.lineNumbers, o.context, (o.layers.filename, o.layers.content), o.pathMode, o.hidden,
        o.sort, o.expr))
    fun {o x} h => by
      obtain rfl := Option.some.inj h
      rfl

/-- `SearchRequest`. -/
def searchCodec : Codec UInt8 (Bool × SearchRequest) :=
  (stringCodec.pair <| (optionCodec stringCodec).pair <| (optionCodec u32Codec).pair <|
    optionsCodec.pair <| optionCodec stringCodec).via
    (fun (query, scope, limit, (direct, opts), db) =>
      some (direct, { query := query, scope := scope, limit := limit, opts := opts, db := db }))
    (fun (direct, req) => some (req.query, req.scope, req.limit, (direct, req.opts), req.db))
    fun {req x} h => by
      obtain rfl := Option.some.inj h
      rfl

/-- `IndexRequest`. -/
def indexCodec : Codec UInt8 IndexRequest :=
  ((optionCodec stringCodec).pair <| (vecCodec stringCodec).pair <| u64Codec.pair <|
    boolCodec.pair <| boolCodec.pair <| optionCodec stringCodec).via
    (fun (root, skip, maxFileSize, oneFileSystem, hidden, db) =>
      some {
        root := root
        skip := skip
        maxFileSize := maxFileSize
        oneFileSystem := oneFileSystem
        hidden := hidden
        db := db })
    (fun req => some (req.root, req.skip, req.maxFileSize, req.oneFileSystem, req.hidden, req.db))
    fun {req x} h => by
      obtain rfl := Option.some.inj h
      rfl

def requestTag : WireRequest → ℕ
  | .search .. => 0
  | .index .. => 1

/-- `Request`. -/
def requestCodec : Codec UInt8 WireRequest :=
  Codec.tagged u32Codec requestTag fun
    | 0 => searchCodec.via (fun x => some (.search x.1 x.2))
        (fun | .search direct req => some (direct, req) | _ => none)
        fun {r x} h => by
          obtain ⟨direct, req⟩ := x
          cases r <;> simp_all
    | 1 => indexCodec.via (fun req => some (.index req)) (fun | .index req => some req | _ => none)
        fun {r x} h => by cases r <;> simp_all
    | _ => Codec.void

/-- A `Request` as it is encoded. -/
def encRequest (r : WireRequest) : Option Bytes := requestCodec.enc r

def decRequest (bs : Bytes) : Option WireRequest := (requestCodec.dec bs).map Prod.fst

/-! ## The codec -/

/-- bincode with `config::standard()` and `LengthDelimitedCodec::new()`. -/
def standardWire : WireCodec where
  frameToVec f := (encFrame f).elim (.error "length does not fit in u64") .ok
  frameFromSlice bytes := (decFrame bytes).elim (.error "invalid encoding") .ok
  requestToVec r := (encRequest r).elim (.error "length does not fit in u64") .ok
  requestFromSlice bytes := (decRequest bytes).elim (.error "invalid encoding") .ok
  delimit data :=
    if data.length ≤ maxFrameLength then .ok ((toLE 4 data.length).reverse ++ data)
    else .error "frame size too big"

lemma elim_eq_ok {α : Type} {o : Option α} {e : String} {a : α} :
    o.elim (Except.error e : Except String α) .ok = .ok a ↔ o = some a := by
  cases o <;> simp

lemma sized_encFrame (f : ResponseFrame) : Sized (encFrame f) f.size := by
  cases f with
  | batch paths lites kinds => exact sized_batch paths lites kinds
  | lines hits => exact sized_lines hits
  | done total =>
      refine (sized_encVarint total).bytes (Nat.le_add_left ..) fun n hn => Sized.of_length ?_
      rw [List.length_cons, hn, Nat.add_comm]
      rfl
  | error message =>
      refine (sized_encString message).bytes (Nat.le_add_left ..) fun m hm => Sized.of_length ?_
      rw [List.length_cons, hm, Nat.add_comm]
      rfl
  | indexAck accepted message =>
      have hsize : (ResponseFrame.indexAck accepted message).size =
          1 + (1 + stringSize message) := rfl
      refine (sized_encString message).bytes (by omega) fun m hm => Sized.of_length ?_
      rw [List.length_cons, List.length_cons, hm, hsize]
      omega

theorem standardWire_sizes : standardWire.Sizes := by
  refine ⟨fun {f} hsize => ?_, fun {f bytes} h => ?_, fun {bytes} => ?_⟩
  · rcases sized_encFrame f with ⟨bs, hbs, -⟩ | ⟨-, hmax⟩
    · exact ⟨bs, elim_eq_ok.mpr hbs⟩
    · exact absurd hsize (Nat.not_lt.mpr hmax)
  · have h := elim_eq_ok.mp h
    rcases sized_encFrame f with ⟨bs, hbs, hlen⟩ | ⟨hnone, -⟩
    · obtain rfl := Option.some.inj (hbs.symm.trans h)
      exact hlen
    · cases hnone.symm.trans h
  · unfold standardWire
    dsimp only
    split <;> simp_all

theorem standardWire_roundTrips : standardWire.RoundTrips := by
  refine ⟨fun {f bytes} htyped h => ?_, fun {r bytes} h => ?_⟩
  · have henc : frameCodec.enc f = some bytes := (enc_frameCodec htyped).trans (elim_eq_ok.mp h)
    have hdec := frameCodec.dec_enc [] henc
    rw [List.append_nil] at hdec
    exact elim_eq_ok.mpr (by rw [decFrame, hdec, Option.map_some])
  · have hdec := requestCodec.dec_enc [] (elim_eq_ok.mp h)
    rw [List.append_nil] at hdec
    exact elim_eq_ok.mpr (by rw [decRequest, hdec, Option.map_some])

end DeepFinder
