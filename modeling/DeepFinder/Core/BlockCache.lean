import DeepFinder.Core.Query
import DeepFinder.Core.Returns
import DeepFinder.Lib.Interleaving

/-!
# The block cache under concurrent calls

`doc_path` looks into the cache, lets the lock go, reads and decompresses a block on a miss, and
takes the lock again to store it.  Any other call can run between the two acquisitions, so a call of
`doc_path` or `cs_verify` is a thread here that takes the steps of `docPathStep` one at a time, over
any source that answers `read_at` by its arguments.

The cache stays transparent because what it holds does not depend on who stored it and when: under
an index there is only ever what the file has there (`BlockCell.Ok`).  So a call owes from its first
step on what it returns on a fresh reader (`DocPathAt.owed`), and no step of another changes that.

Taken without interruption, the steps are the call of the sequential model (`docPathWith_alone`).
-/

namespace DeepFinder

open ByteString Interleaving

/-! ## The reader and its calls -/

/-- What `doc_path` reads of a `DbReader<S>`.  `readAt` is the source, and `partitionPoint` is
`partition_point(|&s| s <= docid)`, of which the standard library says nothing where the block
starts are not in order. -/
structure BlockReader where
  readAt : ℕ → ℕ → Res Bytes
  partitionPoint : List ℕ → ℕ → ℕ
  dict : Bytes
  blocks : List BlockRef
  blockStart : List ℕ

/-- `cached_block: Mutex<Option<(usize, Vec<u8>)>>`. -/
structure BlockCell where
  cached : Option (ℕ × Bytes) := none
  poisoned : Bool := false
  deriving DecidableEq

/-- Where a call of `doc_path` stands: it has not looked its block up yet, it is about to look into
the cache, it has let the lock go on a miss, or it is about to store the block. -/
inductive DocPathAt where
  | start (docid : ℕ)
  | check (i : ℕ) (block : BlockRef) (index : ℕ)
  | miss (i : ℕ) (block : BlockRef) (index : ℕ)
  | store (i : ℕ) (bytes : Bytes) (path : String)
  deriving DecidableEq

/-- The computation unwinds, which poisons a lock that it holds. -/
def Res.unwinds {α : Type} : Res α → Bool
  | .error .panicked => true
  | _ => false

section Reader

variable (z : Zstd) (r : BlockReader)

/-- The block that `doc_path` picks for `docid`, with the path's index inside it. -/
def BlockReader.locate (docid : ℕ) : Res (ℕ × BlockRef × ℕ) :=
  if r.blockStart = [] then .error (.err (.query "no docs indexed"))
  else
    let i := r.partitionPoint r.blockStart docid - 1
    match r.blocks[i]?, r.blockStart[i]? with
    | some block, some start =>
        if block.count ≤ docid - start then
          .error (.err (.query s!"docid {docid} out of range"))
        else .ok (i, block, docid - start)
    | _, _ => .error .panicked

def BlockReader.readBlock (block : BlockRef) : Res Bytes := do
  let comp ← r.readAt block.off block.clen
  zstdDecode z comp r.dict

/-- One atomic step of `doc_path`, which goes on or returns. -/
def BlockReader.docPathStep (cell : BlockCell) : DocPathAt → BlockCell × (DocPathAt ⊕ Res String)
  | .start docid =>
      match r.locate docid with
      | .error f => (cell, .inr (.error f))
      | .ok (i, block, index) => (cell, .inl (.check i block index))
  | .check i block index =>
      -- `lock().expect(..)`; a hit extracts the path under the lock
      if cell.poisoned then (cell, .inr (.error .panicked))
      else
        match cell.cached with
        | some (idx, bytes) =>
            if idx = i then
              let out := extractPath bytes index
              ({ cell with poisoned := out.unwinds }, .inr out)
            else (cell, .inl (.miss i block index))
        | none => (cell, .inl (.miss i block index))
  | .miss i block index =>
      match r.readBlock z block with
      | .error f => (cell, .inr (.error f))
      | .ok bytes =>
          match extractPath bytes index with
          | .error f => (cell, .inr (.error f))
          | .ok path => (cell, .inl (.store i bytes path))
  | .store i bytes path =>
      if cell.poisoned then (cell, .inr (.error .panicked))
      else ({ cell with cached := some (i, bytes) }, .inr (.ok path))

end Reader

/-- The calls that use the cache. -/
inductive DbCall where
  | docPath (docid : ℕ)
  | csVerify (docid : ℕ) (needle : Bytes) (caseSensitive : Bool)
  deriving DecidableEq

/-- What they return. -/
inductive DbAnswer where
  | path (out : Res String)
  | verified (out : Res Bool)
  deriving DecidableEq

/-- A call on its way, or back. -/
inductive DbThread where
  | running (call : DbCall) (pos : DocPathAt)
  | returned (call : DbCall) (answer : DbAnswer)
  deriving DecidableEq

/-- `cs_verify` behind its `self.doc_path(docid)?`. -/
def verifyPath (needle : Bytes) (caseSensitive : Bool) (out : Res String) : Res Bool := do
  let p ← out
  let hay := if caseSensitive then p else toLowercase p
  pure (containsSub (utf8 hay) needle)

/-- What a call makes of the result of `doc_path`. -/
def DbCall.answer : DbCall → Res String → DbAnswer
  | .docPath _, out => .path out
  | .csVerify _ needle caseSensitive, out => .verified (verifyPath needle caseSensitive out)

/-- `cs_verify` does not look at the path for an empty needle. -/
def DbCall.enter : DbCall → DbThread
  | .docPath docid => .running (.docPath docid) (.start docid)
  | .csVerify docid needle caseSensitive =>
      if needle = [] then .returned (.csVerify docid needle caseSensitive) (.verified (.ok true))
      else .running (.csVerify docid needle caseSensitive) (.start docid)

/-- Calls on a reader, one step at a time. -/
def BlockReader.program (z : Zstd) (r : BlockReader) : Program BlockCell DbThread DbCall where
  enter := DbCall.enter
  move cell
    | .returned _ _ => none
    | .running call pos =>
        match r.docPathStep z cell pos with
        | (cell', .inl pos') => some (cell', .running call pos')
        | (cell', .inr out) => some (cell', .returned call (call.answer out))

/-- A reader as `open` returns it, without calls. -/
def BlockReader.opened : Pool BlockCell DbThread := ⟨{}, []⟩

/-! ## A call on a fresh reader -/

section Fresh

variable (z : Zstd) (r : BlockReader)

/-- `doc_path` on a reader whose cache is empty. -/
def BlockReader.docPath (docid : ℕ) : Res String := do
  let loc ← r.locate docid
  let bytes ← r.readBlock z loc.2.1
  extractPath bytes loc.2.2

/-- What a call returns on a reader whose cache is empty. -/
def BlockReader.fresh : DbCall → DbAnswer
  | .docPath docid => .path (r.docPath z docid)
  | .csVerify docid needle caseSensitive =>
      .verified (if needle = [] then .ok true
        else verifyPath needle caseSensitive (r.docPath z docid))

end Fresh

/-- `DbReader` over a byte slice; its block starts are in order. -/
def DbReader.blockReader (r : DbReader) : BlockReader where
  readAt := readAt r.src
  partitionPoint starts docid := (starts.takeWhile (· ≤ docid)).length
  dict := r.dict
  blocks := r.blocks
  blockStart := r.blockStart

@[simp] lemma DbReader.locate_blockReader (r : DbReader) (docid : ℕ) :
    r.blockReader.locate docid = r.locate docid := rfl

@[simp] lemma DbReader.readBlock_blockReader (z : Zstd) (r : DbReader) (block : BlockRef) :
    r.blockReader.readBlock z block = r.readBlock z block := rfl

/-- Over a byte slice the fresh answers are those of the reader without a cache. -/
theorem DbReader.fresh_blockReader (z : Zstd) (r : DbReader) (call : DbCall) :
    r.blockReader.fresh z call = match call with
      | .docPath docid => .path (r.docPath z docid)
      | .csVerify docid needle caseSensitive =>
          .verified ((r.view z).verify docid needle caseSensitive) := by
  have hpath : ∀ docid, r.blockReader.docPath z docid = r.docPath z docid := by
    intro docid
    rw [BlockReader.docPath, DbReader.docPath, DbReader.docPathWith, DbReader.locate_blockReader]
    cases r.locate docid with
    | error f => rfl
    | ok loc =>
        rw [bind_ok, DbReader.readBlock_blockReader]
        simp only [Option.filter_none]
        cases r.readBlock z loc.2.1 with
        | error f => rfl
        | ok bytes =>
            rw [bind_ok]
            dsimp only
            cases extractPath bytes loc.2.2 with
            | error f => rfl
            | ok path => rfl
  cases call with
  | docPath docid => exact congrArg DbAnswer.path (hpath docid)
  | csVerify docid needle caseSensitive =>
      rw [BlockReader.fresh, hpath]
      rfl

/-! ## The invariant -/

section Steps

variable {z : Zstd} {r : BlockReader}

/-- Block `i` of the file decompresses to `bytes`. -/
def BlockReader.HasBlock (z : Zstd) (r : BlockReader) (i : ℕ) (bytes : Bytes) : Prop :=
  ∃ block, r.blocks[i]? = some block ∧ r.readBlock z block = .ok bytes

/-- The lock is sound, and a cached block is the one that the file has under its index.  This is the
invariant of the shared state; a thread may rely on it whenever it takes the lock. -/
structure BlockCell.Ok (z : Zstd) (r : BlockReader) (cell : BlockCell) : Prop where
  not_poisoned : cell.poisoned = false
  cached : ∀ c ∈ cell.cached, r.HasBlock z c.1 c.2

/-- The index at hand is the one of the block at hand. -/
def DocPathAt.Keyed (z : Zstd) (r : BlockReader) : DocPathAt → Prop
  | .start _ => True
  | .check i block _ => r.blocks[i]? = some block
  | .miss i block _ => r.blocks[i]? = some block
  | .store i bytes _ => r.HasBlock z i bytes

def DocPathAt.owed (z : Zstd) (r : BlockReader) : DocPathAt → Res String
  | .start docid => r.docPath z docid
  | .check _ block index => r.readBlock z block >>= fun bytes => extractPath bytes index
  | .miss _ block index => r.readBlock z block >>= fun bytes => extractPath bytes index
  | .store _ _ path => .ok path

/-- All that a step of `doc_path` can do to the cell: nothing, or what a call does that returns a
path. -/
def DocPathAt.Steps (z : Zstd) (r : BlockReader) (cell : BlockCell) (pos : DocPathAt) :
    BlockCell × (DocPathAt ⊕ Res String) → Prop
  | (cell', .inl pos') => cell' = cell ∧ pos'.Keyed z r ∧ pos'.owed z r = pos.owed z r
  | (cell', .inr out) =>
      out = pos.owed z r ∧ (cell' = cell ∨ cell'.Ok z r ∧ ∃ path, out = .ok path)

lemma BlockReader.blocks_of_locate {docid i index : ℕ} {block : BlockRef}
    (h : r.locate docid = .ok (i, block, index)) : r.blocks[i]? = some block := by
  unfold BlockReader.locate at h
  split at h
  · cases h
  · dsimp only at h
    split at h
    · rename_i b start hb _
      split at h
      · cases h
      · cases h
        exact hb
    · cases h

lemma extractPath_not_unwinds (bytes : Bytes) (index : ℕ) :
    (extractPath bytes index).unwinds = false := by
  have hreturns : (extractPath bytes index).Returns := returns_scanPath _ _ _ _ _
  cases hout : extractPath bytes index with
  | ok path => rfl
  | error f =>
      obtain ⟨e, rfl⟩ := hreturns f hout
      rfl

lemma BlockReader.docPathStep_steps {cell : BlockCell} {pos : DocPathAt} (hcell : cell.Ok z r)
    (hpos : pos.Keyed z r) : pos.Steps z r cell (r.docPathStep z cell pos) := by
  cases pos with
  | start docid =>
      rw [BlockReader.docPathStep]
      cases hloc : r.locate docid with
      | error f =>
          refine ⟨?_, .inl rfl⟩
          simp [DocPathAt.owed, BlockReader.docPath, hloc]
      | ok loc =>
          refine ⟨rfl, BlockReader.blocks_of_locate hloc, ?_⟩
          simp [DocPathAt.owed, BlockReader.docPath, hloc]
  | check i block index =>
      have hmiss : DocPathAt.Steps z r cell (.check i block index)
          (cell, .inl (.miss i block index)) := ⟨rfl, hpos, rfl⟩
      rw [BlockReader.docPathStep, if_neg (by simp [hcell.not_poisoned])]
      cases hcached : cell.cached with
      | none => exact hmiss
      | some c =>
          dsimp only
          split
          · -- a hit: the cached bytes are those that a miss would read
            rename_i hidx
            obtain ⟨b, hb, hread⟩ := hcell.cached c hcached
            rw [hidx, show r.blocks[i]? = some block from hpos] at hb
            obtain rfl := Option.some.inj hb
            rw [extractPath_not_unwinds, ← hcell.not_poisoned, ← hcached]
            refine ⟨?_, .inl rfl⟩
            simp [DocPathAt.owed, hread]
          · exact hmiss
  | miss i block index =>
      rw [BlockReader.docPathStep]
      cases hread : r.readBlock z block with
      | error f =>
          refine ⟨?_, .inl rfl⟩
          simp [DocPathAt.owed, hread]
      | ok bytes =>
          dsimp only
          cases hpath : extractPath bytes index with
          | error f =>
              refine ⟨?_, .inl rfl⟩
              simp [DocPathAt.owed, hread, hpath]
          | ok path =>
              refine ⟨rfl, ⟨block, hpos, hread⟩, ?_⟩
              simp [DocPathAt.owed, hread, hpath]
  | store i bytes path =>
      rw [BlockReader.docPathStep, if_neg (by simp [hcell.not_poisoned])]
      refine ⟨rfl, .inr ⟨⟨hcell.not_poisoned, ?_⟩, path, rfl⟩⟩
      intro c hc
      obtain rfl := Option.some.inj hc
      exact hpos

end Steps

/-! ## Schedules -/

def DbThread.call : DbThread → DbCall
  | .running call _ => call
  | .returned call _ => call

def DocPathAt.left : DocPathAt → ℕ
  | .start _ => 4
  | .check .. => 3
  | .miss .. => 2
  | .store .. => 1

def DbThread.left : DbThread → ℕ
  | .running _ pos => pos.left
  | .returned _ _ => 0

/-- The thread owes its call the answer of a fresh reader, or has given it. -/
def DbThread.Owes (z : Zstd) (r : BlockReader) : DbThread → Prop
  | .running call pos => pos.Keyed z r ∧ call.answer (pos.owed z r) = r.fresh z call
  | .returned call answer => answer = r.fresh z call

/-- The answer is `Ok`. -/
def DbAnswer.isOk : DbAnswer → Bool
  | .path out => out.isOk
  | .verified out => out.isOk

section Schedules

variable {z : Zstd} {r : BlockReader}

lemma DbCall.answer_ok (call : DbCall) (path : String) : (call.answer (.ok path)).isOk = true := by
  cases call with
  | docPath docid => rfl
  | csVerify docid needle caseSensitive => rfl

lemma DbCall.enter_owes (call : DbCall) : call.enter.Owes z r := by
  cases call with
  | docPath docid => exact ⟨trivial, rfl⟩
  | csVerify docid needle caseSensitive =>
      rw [DbCall.enter]
      by_cases hneedle : needle = []
      · simp [DbThread.Owes, BlockReader.fresh, hneedle]
      · rw [if_neg hneedle]
        refine ⟨trivial, ?_⟩
        simp [DbCall.answer, DocPathAt.owed, BlockReader.fresh, hneedle]

/-- All that a step of a thread can do: it leaves the cell alone, or it is the last one of a call
that returns `Ok`. -/
lemma BlockReader.move_spec {cell cell' : BlockCell} {t t' : DbThread} (hcell : cell.Ok z r)
    (ht : t.Owes z r) (hmove : (r.program z).move cell t = some (cell', t')) :
    t'.Owes z r ∧ (cell' = cell ∨
      cell'.Ok z r ∧ ∃ call answer, t' = .returned call answer ∧ answer.isOk = true) := by
  cases t with
  | returned call answer => cases hmove
  | running call pos =>
      obtain ⟨hkeyed, howed⟩ := ht
      have hsteps := BlockReader.docPathStep_steps hcell hkeyed
      rw [BlockReader.program] at hmove
      dsimp only at hmove
      cases hout : r.docPathStep z cell pos with
      | mk c out =>
          rw [hout] at hmove hsteps
          cases out with
          | inl pos' =>
              obtain ⟨rfl, hkeyed', howed'⟩ := hsteps
              obtain ⟨rfl, rfl⟩ := Prod.mk.inj (Option.some.inj hmove)
              exact ⟨⟨hkeyed', by rw [howed', howed]⟩, .inl rfl⟩
          | inr res =>
              obtain ⟨rfl, hchange⟩ := hsteps
              obtain ⟨rfl, rfl⟩ := Prod.mk.inj (Option.some.inj hmove)
              refine ⟨howed, hchange.imp_right ?_⟩
              rintro ⟨hok, path, hpath⟩
              exact ⟨hok, call, _, rfl, by rw [hpath]; exact call.answer_ok path⟩

lemma DocPathAt.left_pos (pos : DocPathAt) : 0 < pos.left := by
  cases pos <;> simp [DocPathAt.left]

lemma BlockReader.docPathStep_left {cell : BlockCell} {pos pos' : DocPathAt}
    (h : (r.docPathStep z cell pos).2 = .inl pos') : pos'.left < pos.left := by
  cases pos with
  | start docid =>
      rw [BlockReader.docPathStep] at h
      split at h
      · cases h
      · obtain rfl := Sum.inl.inj h
        simp [DocPathAt.left]
  | check i block index =>
      rw [BlockReader.docPathStep] at h
      split at h
      · cases h
      · split at h
        · split at h
          · cases h
          · obtain rfl := Sum.inl.inj h
            simp [DocPathAt.left]
        · obtain rfl := Sum.inl.inj h
          simp [DocPathAt.left]
  | miss i block index =>
      rw [BlockReader.docPathStep] at h
      split at h
      · cases h
      · split at h
        · cases h
        · obtain rfl := Sum.inl.inj h
          simp [DocPathAt.left]
  | store i bytes path =>
      rw [BlockReader.docPathStep] at h
      split at h
      · cases h
      · cases h

lemma BlockReader.move_eq_none_iff {cell : BlockCell} {t : DbThread} :
    (r.program z).move cell t = none ↔ ∃ call answer, t = .returned call answer := by
  cases t with
  | returned call answer => simp [BlockReader.program]
  | running call pos =>
      rw [BlockReader.program]
      dsimp only
      split
      · simp
      · simp

lemma BlockReader.move_call {cell cell' : BlockCell} {t t' : DbThread}
    (h : (r.program z).move cell t = some (cell', t')) :
    t'.call = t.call ∧ t'.left < t.left := by
  cases t with
  | returned call answer => cases h
  | running call pos =>
      rw [BlockReader.program] at h
      dsimp only at h
      split at h
      · rename_i hout
        obtain ⟨rfl, rfl⟩ := Prod.mk.inj (Option.some.inj h)
        exact ⟨rfl, BlockReader.docPathStep_left (congrArg Prod.snd hout)⟩
      · obtain ⟨rfl, rfl⟩ := Prod.mk.inj (Option.some.inj h)
        exact ⟨rfl, pos.left_pos⟩

lemma BlockReader.keeps (z : Zstd) (r : BlockReader) :
    Keeps (r.program z) (BlockCell.Ok z r) (DbThread.Owes z r) where
  enter := DbCall.enter_owes
  move hcell ht hmove := by
    obtain ⟨ht', hchange⟩ := BlockReader.move_spec hcell ht hmove
    refine ⟨?_, ht'⟩
    rcases hchange with rfl | ⟨hok, -⟩
    · exact hcell
    · exact hok

lemma BlockReader.bounded (z : Zstd) (r : BlockReader) :
    Bounded (r.program z) DbThread.left 4 where
  enter call := by
    cases call with
    | docPath docid => simp [BlockReader.program, DbCall.enter, DbThread.left, DocPathAt.left]
    | csVerify docid needle caseSensitive =>
        simp only [BlockReader.program, DbCall.enter]
        split <;> simp [DbThread.left, DocPathAt.left]
  move hmove := (BlockReader.move_call hmove).2

lemma DbCall.call_enter (call : DbCall) : call.enter.call = call := by
  cases call with
  | docPath docid => rfl
  | csVerify docid needle caseSensitive =>
      rw [DbCall.enter]
      split <;> rfl

lemma BlockReader.opened_holds :
    Holds (BlockCell.Ok z r) (DbThread.Owes z r) BlockReader.opened :=
  ⟨⟨rfl, nofun⟩, nofun⟩

/-- `fresh` is what a call returns that has a newly opened reader to itself. -/
theorem BlockReader.fresh_alone (z : Zstd) (r : BlockReader) (call : DbCall) :
    ∃ k, k ≤ 4 ∧ ∃ cell, Run.exec (step (r.program z)) BlockReader.opened
      (.call call :: List.replicate k (.advance 0)) =
        some ⟨cell, [.returned call (r.fresh z call)]⟩ := by
  have hborn : (⟨{}, [call.enter]⟩ : Pool BlockCell DbThread).threads[0]? = some call.enter := rfl
  obtain ⟨k, hk, s, t, hrun, ht, hend⟩ := (BlockReader.bounded z r).exists_exec_alone hborn
  have hexec : Run.exec (step (r.program z)) BlockReader.opened
      (.call call :: List.replicate k (.advance 0)) = some s := hrun
  have hcalls := map_threads DbCall.call_enter (fun h => (BlockReader.move_call h).1) hexec
  have hholds := (BlockReader.keeps z r).exec BlockReader.opened_holds hexec
  obtain ⟨call', answer, rfl⟩ := BlockReader.move_eq_none_iff.mp hend
  have hanswer : answer = r.fresh z call' := hholds.2 _ (List.mem_of_getElem? ht)
  have honly : s.threads.map DbThread.call = [call] := by
    simpa [BlockReader.opened, calls] using hcalls
  obtain ⟨t, hthreads, hcall⟩ := List.map_eq_singleton_iff.mp honly
  rw [hthreads] at ht
  obtain rfl := Option.some.inj ht
  obtain rfl : call' = call := hcall
  refine ⟨k, hk.trans ((BlockReader.bounded z r).enter call'), s.shared, ?_⟩
  rw [hexec, ← hanswer, ← hthreads]

/-! ## A call without interruption -/

lemma BlockReader.exec_goes_on {cell cell' : BlockCell} {pos pos' : DocPathAt} (call : DbCall)
    (h : r.docPathStep z cell pos = (cell', .inl pos')) (turns : List (Turn DbCall)) :
    Run.exec (step (r.program z)) ⟨cell, [.running call pos]⟩ (.advance 0 :: turns) =
      Run.exec (step (r.program z)) ⟨cell', [.running call pos']⟩ turns := by
  have hmove : (r.program z).move cell (.running call pos) = some (cell', .running call pos') := by
    simp [BlockReader.program, h]
  rw [Run.exec_cons, step_advance_of_move rfl hmove]
  rfl

lemma BlockReader.exec_returns {cell cell' : BlockCell} {pos : DocPathAt} {out : Res String}
    (call : DbCall) (h : r.docPathStep z cell pos = (cell', .inr out)) :
    Run.exec (step (r.program z)) ⟨cell, [.running call pos]⟩ [.advance 0] =
      some ⟨cell', [.returned call (call.answer out)]⟩ := by
  have hmove : (r.program z).move cell (.running call pos) =
      some (cell', .returned call (call.answer out)) := by
    simp [BlockReader.program, h]
  rw [Run.exec_cons, step_advance_of_move rfl hmove]
  rfl

/-- What follows a miss. -/
lemma BlockReader.miss_alone (call : DbCall) (cell : BlockCell) (hcell : cell.poisoned = false)
    (i : ℕ) (block : BlockRef) (index : ℕ) : ∃ k, k ≤ 2 ∧
      Run.exec (step (r.program z)) ⟨cell, [.running call (.miss i block index)]⟩
        (List.replicate k (.advance 0)) =
          match r.readBlock z block with
          | .error f => some ⟨cell, [.returned call (call.answer (.error f))]⟩
          | .ok bytes =>
              match extractPath bytes index with
              | .error f => some ⟨cell, [.returned call (call.answer (.error f))]⟩
              | .ok path => some ⟨{ cell with cached := some (i, bytes) },
                  [.returned call (call.answer (.ok path))]⟩ := by
  cases hread : r.readBlock z block with
  | error f =>
      have hfail : r.docPathStep z cell (.miss i block index) = (cell, .inr (.error f)) := by
        simp [BlockReader.docPathStep, hread]
      exact ⟨1, by simp, BlockReader.exec_returns call hfail⟩
  | ok bytes =>
      dsimp only
      cases hpath : extractPath bytes index with
      | error f =>
          have hfail : r.docPathStep z cell (.miss i block index) = (cell, .inr (.error f)) := by
            simp [BlockReader.docPathStep, hread, hpath]
          exact ⟨1, by simp, BlockReader.exec_returns call hfail⟩
      | ok path =>
          have hload : r.docPathStep z cell (.miss i block index) =
              (cell, .inl (.store i bytes path)) := by
            simp [BlockReader.docPathStep, hread, hpath]
          have hstore : r.docPathStep z cell (.store i bytes path) =
              ({ cell with cached := some (i, bytes) }, .inr (.ok path)) := by
            simp [BlockReader.docPathStep, hcell]
          refine ⟨2, le_rfl, ?_⟩
          exact (BlockReader.exec_goes_on call hload _).trans (BlockReader.exec_returns call hstore)

/-- The steps of `doc_path`, taken without interruption, are the call of the sequential model, on
any cache. -/
theorem DbReader.docPathWith_alone (z : Zstd) (r : DbReader) (cache : Option (ℕ × Bytes))
    (docid : ℕ) : ∃ k, k ≤ 4 ∧ Run.exec (step (r.blockReader.program z)) ⟨{ cached := cache }, []⟩
      (.call (.docPath docid) :: List.replicate k (.advance 0)) =
        some ⟨{ cached := (r.docPathWith z cache docid).2 },
          [.returned (.docPath docid) (.path (r.docPathWith z cache docid).1)]⟩ := by
  show ∃ k, k ≤ 4 ∧ Run.exec (step (r.blockReader.program z))
    ⟨{ cached := cache }, [.running (.docPath docid) (.start docid)]⟩
      (List.replicate k (.advance 0)) = _
  rw [DbReader.docPathWith]
  cases hloc : r.locate docid with
  | error f =>
      have hstart : r.blockReader.docPathStep z { cached := cache } (.start docid) =
          ({ cached := cache }, .inr (.error f)) := by
        simp [BlockReader.docPathStep, hloc]
      exact ⟨1, by simp, BlockReader.exec_returns _ hstart⟩
  | ok loc =>
      obtain ⟨i, block, index⟩ := loc
      have hstart : r.blockReader.docPathStep z { cached := cache } (.start docid) =
          ({ cached := cache }, .inl (.check i block index)) := by
        simp [BlockReader.docPathStep, hloc]
      dsimp only
      cases hhit : cache.filter (fun c => decide (c.1 = i)) with
      | some c =>
          obtain ⟨rfl, hi⟩ := Option.filter_eq_some_iff.mp hhit
          have hcheck : r.blockReader.docPathStep z { cached := some c } (.check i block index) =
              ({ cached := some c }, .inr (extractPath c.2 index)) := by
            simp [BlockReader.docPathStep, of_decide_eq_true hi, extractPath_not_unwinds]
          refine ⟨2, by simp, ?_⟩
          exact (BlockReader.exec_goes_on _ hstart _).trans (BlockReader.exec_returns _ hcheck)
      | none =>
          have hcheck : r.blockReader.docPathStep z { cached := cache } (.check i block index) =
              ({ cached := cache }, .inl (.miss i block index)) := by
            cases cache with
            | none => simp [BlockReader.docPathStep]
            | some c =>
                have hne : c.1 ≠ i := by simpa using hhit
                simp [BlockReader.docPathStep, hne]
          obtain ⟨k, hk, hrun⟩ := @BlockReader.miss_alone z r.blockReader (.docPath docid)
            { cached := cache } rfl i block index
          refine ⟨k + 2, by omega, ?_⟩
          rw [List.replicate_succ, List.replicate_succ, BlockReader.exec_goes_on _ hstart,
            BlockReader.exec_goes_on _ hcheck, hrun, DbReader.readBlock_blockReader]
          dsimp only
          cases r.readBlock z block with
          | error f => rfl
          | ok bytes =>
              dsimp only
              cases extractPath bytes index with
              | error f => rfl
              | ok path => rfl

/-- In every schedule of calls of `doc_path` and `cs_verify` on an opened reader, whatever docids
they name, each thread stands for its call and has returned what that call returns on a fresh
reader, or can take another of the at most four steps it needs.  The cache holds what the file has
under its index, and the only steps that change it are the last ones of calls that return `Ok`. -/
theorem BlockReader.block_cache_transparent (z : Zstd) (r : BlockReader)
    (turns : List (Turn DbCall)) (s : Pool BlockCell DbThread)
    (hrun : Run.exec (step (r.program z)) BlockReader.opened turns = some s) :
    s.threads.map DbThread.call = calls turns ∧
      (∀ i t, s.threads[i]? = some t →
        t = .returned t.call (r.fresh z t.call) ∨
          turnsOf i turns < 4 ∧ ∃ s', step (r.program z) s (.advance i) = some s') ∧
      s.shared.Ok z r ∧
      ∀ i s', step (r.program z) s (.advance i) = some s' → s'.shared = s.shared ∨
        ∃ call answer, s'.threads[i]? = some (.returned call answer) ∧ answer.isOk = true := by
  have hholds := (BlockReader.keeps z r).exec BlockReader.opened_holds hrun
  refine ⟨?_, fun i t ht => ?_, hholds.1, fun i s' hstep => ?_⟩
  · exact map_threads DbCall.call_enter (fun h => (BlockReader.move_call h).1) hrun
  · have howes := hholds.2 t (List.mem_of_getElem? ht)
    have hspent := (BlockReader.bounded z r).exec hrun ht
    cases t with
    | returned call answer => exact .inl (congrArg _ howes)
    | running call pos =>
        refine .inr ⟨?_, ?_⟩
        · have hleft := pos.left_pos
          change pos.left + _ ≤ 4 at hspent
          omega
        · cases hmove : (r.program z).move s.shared (.running call pos) with
          | none =>
              obtain ⟨_, _, habsurd⟩ := BlockReader.move_eq_none_iff.mp hmove
              cases habsurd
          | some out => exact ⟨_, step_advance_of_move ht hmove⟩
  · obtain ⟨t, cell, t', ht, hmove, rfl⟩ := step_advance hstep
    have howes := hholds.2 t (List.mem_of_getElem? ht)
    obtain ⟨-, hsame | ⟨-, call, answer, rfl, hok⟩⟩ := BlockReader.move_spec hholds.1 howes hmove
    · exact .inl hsame
    · have hlt := (List.getElem?_eq_some_iff.mp ht).1
      exact .inr ⟨call, answer, List.getElem?_set_self hlt, hok⟩

end Schedules

/-- Two calls that both miss before either stores its block, a third that hits the block stored
last, and a fourth for a docid out of range. -/
theorem BlockReader.block_cache_transparent_two_blocks :
    let r : BlockReader :=
      { readAt := DeepFinder.readAt [1, 0, 0, 0, 97, 1, 0, 0, 0, 98]
        partitionPoint := fun starts docid => (starts.takeWhile (· ≤ docid)).length
        dict := []
        blocks := [⟨0, 5, 1⟩, ⟨5, 5, 1⟩]
        blockStart := [0, 1] }
    let turns : List (Turn DbCall) :=
      [.call (.docPath 0), .call (.docPath 1), .call (.csVerify 1 [98] true), .call (.docPath 7),
        .advance 0, .advance 1, .advance 0, .advance 1, .advance 0, .advance 1, .advance 0,
        .advance 1, .advance 2, .advance 2, .advance 3]
    let s : Pool BlockCell DbThread :=
      { shared := { cached := some (1, [1, 0, 0, 0, 98]) }
        threads := [
          .returned (.docPath 0) (.path (.ok "a")), .returned (.docPath 1) (.path (.ok "b")),
          .returned (.csVerify 1 [98] true) (.verified (.ok true)),
          .returned (.docPath 7) (.path (.error (.err (.query "docid 7 out of range"))))] }
    Run.exec (step (r.program Zstd.stored)) BlockReader.opened turns = some s ∧
      s.threads.map DbThread.call = calls turns ∧
      (∀ i t, s.threads[i]? = some t →
        t = .returned t.call (r.fresh Zstd.stored t.call) ∨
          turnsOf i turns < 4 ∧
            ∃ s', step (r.program Zstd.stored) s (.advance i) = some s') ∧
      s.shared.Ok Zstd.stored r := by
  intro r turns s
  have hrun : Run.exec (step (r.program Zstd.stored)) BlockReader.opened turns = some s := by
    decide +kernel
  obtain ⟨hcalls, hanswers, hcell, -⟩ := BlockReader.block_cache_transparent _ r turns s hrun
  exact ⟨hrun, hcalls, hanswers, hcell⟩

end DeepFinder
