import DeepFinder.Core.Db
import DeepFinder.Lib.WhileLoop

/-!
# Reading through `pread`

The daemon reads the filename database through `FileSource`, whose `read_at` loops over a system
call that may transfer fewer bytes than asked for and may fail at any time; the tests and the other
readers have all bytes at hand.  `file_source_reads`: the loop ends, and what it returns is what
`read_at` of a slice returns.
-/

namespace DeepFinder

open ByteString

/-- `FileExt::read_at` on an open file: how many bytes a call of a given number transfers for an
offset and a buffer's length, none only without room or at the end of the file. -/
structure Pread (file : Bytes) where
  length_lt : file.length < 2 ^ 64
  call : ℕ → ℕ → ℕ → Except CoreError ℕ
  call_le : ∀ {i off len n}, call i off len = .ok n → n ≤ len ∧ n ≤ file.length - off
  call_pos : ∀ {i off len}, call i off len = .ok 0 → len = 0 ∨ file.length ≤ off

/-- The variables of `read_at`, and the number of the next system call. -/
structure ReadVars where
  calls : ℕ := 0
  buf : Bytes
  read : ℕ := 0

namespace FileSource

/-- What `read_at` fails with at the end of the file. -/
def eof : CoreError := .io "pread hit EOF before filling request"

variable {file : Bytes} (p : Pread file) (off len : ℕ)

/-- `while read < len`; the body returns from `read_at` in an error alone. -/
def readLoop : WhileLoop Fault ReadVars CoreError where
  cond v := .ok (decide (v.read < len))
  body v :=
    match p.call v.calls (off + v.read) (len - v.read) with
    | .error e => .ok (.inr e)
    | .ok n =>
        if n = 0 then .ok (.inr eof)
        else
          .ok (.inl {
            calls := v.calls + 1
            buf := v.buf.take v.read ++ ((file.drop (off + v.read)).take n ++
              v.buf.drop (v.read + n))
            read := v.read + n })

/-- `read_at`, with a budget of iterations. -/
def readAt (budget : ℕ) : Res Bytes :=
  match (readLoop p off len).run budget { buf := List.replicate len 0 } with
  | none => .error .diverged
  | some (_, .error f) => .error f
  | some (_, .ok (.inr e)) => .error (.err e)
  | some (_, .ok (.inl v)) => .ok v.buf

/-- The buffer holds what was read so far, which lies in the file. -/
structure Filled (file : Bytes) (off len : ℕ) (v : ReadVars) : Prop where
  length : v.buf.length = len
  read_le : v.read ≤ len
  inside : v.read = 0 ∨ off + v.read ≤ file.length
  taken : v.buf.take v.read = (file.drop off).take v.read

/-- Why `read_at` returns an error: the file ends before the range does, or a system call has
failed.  A call that transfers fewer bytes than asked for is no failure. -/
def Failed (e : CoreError) : Prop :=
  (e = eof ∧ file.length < off + len) ∨ ∃ i o l, p.call i o l = .error e

variable {p off len} {v : ReadVars}

lemma filled_start : Filled file off len { buf := List.replicate len 0 } where
  length := List.length_replicate
  read_le := Nat.zero_le _
  inside := Or.inl rfl
  taken := rfl

/-- The bytes of one more call. -/
lemma Filled.more (h : Filled file off len v) {n : ℕ} (hn : n ≤ len - v.read)
    (hfile : n ≤ file.length - (off + v.read)) :
    Filled file off len {
      calls := v.calls + 1
      buf := v.buf.take v.read ++ ((file.drop (off + v.read)).take n ++ v.buf.drop (v.read + n))
      read := v.read + n } := by
  have hread := h.read_le
  have hlen := h.length
  have hprefix : (v.buf.take v.read).length = v.read := by
    rw [List.length_take]
    omega
  have hchunk : ((file.drop (off + v.read)).take n).length = n := by
    rw [List.length_take, List.length_drop]
    omega
  refine ⟨?_, ?_, ?_, ?_⟩
  · simp only [List.length_append, hprefix, hchunk, List.length_drop]
    omega
  · show v.read + n ≤ len
    omega
  · show v.read + n = 0 ∨ off + (v.read + n) ≤ file.length
    have hinside := h.inside
    omega
  · show (v.buf.take v.read ++ _).take (v.read + n) = (file.drop off).take (v.read + n)
    have hsplit : (file.drop off).take (v.read + n) =
        (file.drop off).take v.read ++ (file.drop (off + v.read)).take n := by
      rw [List.take_add, List.drop_drop]
    have hcut : (v.buf.take v.read ++ ((file.drop (off + v.read)).take n ++
        v.buf.drop (v.read + n))).take (v.read + n) =
        v.buf.take v.read ++ (file.drop (off + v.read)).take n := by
      rw [← List.append_assoc]
      exact List.take_left' (by rw [List.length_append, hprefix, hchunk])
    rw [hcut, hsplit, h.taken]

/-- One iteration reads on, or returns for a reason. -/
lemma readLoop_iterates (h : Filled file off len v)
    (hcond : (readLoop p off len).cond v = .ok true) :
    WhileLoop.Iterates (Filled file off len) (fun v => len - v.read) (Failed p off len) v
      ((readLoop p off len).body v) := by
  have hlt : v.read < len := by simpa [readLoop] using hcond
  unfold readLoop
  dsimp only
  cases hcall : p.call v.calls (off + v.read) (len - v.read) with
  | error e => exact Or.inr ⟨_, _, _, hcall⟩
  | ok n =>
      obtain ⟨hn, hfile⟩ := p.call_le hcall
      by_cases hzero : n = 0
      · dsimp only
        rw [if_pos hzero]
        subst hzero
        refine Or.inl ⟨rfl, ?_⟩
        rcases p.call_pos hcall with hroom | hend
        · omega
        · have hinside := h.inside
          omega
      · dsimp only
        rw [if_neg hzero]
        refine ⟨h.more hn hfile, ?_⟩
        show len - (v.read + n) < len - v.read
        omega

/-- A buffer that is full. -/
lemma Filled.full (h : Filled file off len v) (hfull : len ≤ v.read)
    (hfile : file.length < 2 ^ 64) :
    DeepFinder.readAt file off len = .ok v.buf ∨ len = 0 ∧ v.buf = [] := by
  have hread : v.read = len := Nat.le_antisymm h.read_le hfull
  rcases Nat.eq_zero_or_pos len with hzero | hpos
  · exact Or.inr ⟨hzero, List.eq_nil_of_length_eq_zero (h.length.trans hzero)⟩
  · have hinside : off + len ≤ file.length := by
      have hin := h.inside
      omega
    have htaken := h.taken
    rw [hread, List.take_of_length_le h.length.le] at htaken
    left
    rw [DeepFinder.readAt, if_neg (by omega), subslice_eq_some hinside, htaken]

/-- Whatever the system calls transfer, `read_at` ends within one iteration a byte and one more; it
returns the bytes that a slice of the file has there, and fails where the slice ends or a call
fails.  Without bytes to read it does not ask where the slice ends. -/
theorem file_source_reads (p : Pread file) (off len : ℕ) :
    match readAt p off len (len + 1) with
    | .ok bytes => DeepFinder.readAt file off len = .ok bytes ∨ len = 0 ∧ bytes = []
    | .error f => ∃ e, f = .err e ∧ Failed p off len e := by
  obtain ⟨n, out, hends, hrun⟩ := WhileLoop.exists_run (L := readLoop p off len)
    (fun v _ => ⟨_, rfl⟩) (fun v hv hcond => readLoop_iterates hv hcond)
    (@filled_start file off len)
  have hbudget : n ≤ len + 1 := by
    cases out with
    | inl v =>
        obtain ⟨-, -, hle⟩ := hends
        simp only at hle
        omega
    | inr e =>
        obtain ⟨-, hle⟩ := hends
        simpa using hle
  have hread := hrun (len + 1 - n)
  rw [Nat.add_sub_cancel' hbudget] at hread
  unfold readAt
  rw [hread]
  cases out with
  | inl v =>
      obtain ⟨hfilled, hcond, -⟩ := hends
      have hfull : len ≤ v.read := by simpa [readLoop] using hcond
      exact hfilled.full hfull p.length_lt
  | inr e => exact ⟨e, rfl, hends.1⟩

/-- A file whose bytes come one by one. -/
def bytewise (file : Bytes) (h : file.length < 2 ^ 64) : Pread file where
  length_lt := h
  call _ off len := .ok (min 1 (min len (file.length - off)))
  call_le := by
    intro i off len n hn
    have hmin := Except.ok.inj hn
    omega
  call_pos := by
    intro i off len hzero
    have hmin := Except.ok.inj hzero
    omega

example : readAt (bytewise [1, 2, 3, 4] (by decide)) 1 2 3 = .ok [2, 3] ∧
    readAt (bytewise [1, 2, 3, 4] (by decide)) 3 2 3 = .error (.err eof) := by decide

end FileSource

end DeepFinder
