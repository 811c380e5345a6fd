import DeepFinder.Ipc.StandardWire
import DeepFinder.Lib.Framed

/-!
# A decoder of length-delimited messages

The decoder for the messages of `standardWire`: it first takes the length, and remembers it while it
waits for the message.  `lengthDelimited_reads` is what sessions ask of a decoder.

It is one decoder that the hypotheses on a decoder hold of, and the one that the sessions written
out in full are run with.  The proofs about sessions use those hypotheses alone.
-/

namespace DeepFinder

open ByteString

def decodeBody (n : ℕ) (buf : Bytes) : Framed.Decoded (Option ℕ) UInt8 Bytes String :=
  if buf.length < n then .more (some n) buf else .frame (buf.take n) none (buf.drop n)

/-- A decoder of the messages; its state is the length, once it has been taken off. -/
def decodeDelimited : Option ℕ → Bytes → Framed.Decoded (Option ℕ) UInt8 Bytes String
  | some n, buf => decodeBody n buf
  | none, buf =>
      if buf.length < 4 then .more none buf
      else
        let n := ofLE (buf.take 4).reverse
        if maxFrameLength < n then .failed "frame size too big" else decodeBody n (buf.drop 4)

section Incremental

variable {s s' : Option ℕ} {n : ℕ} {buf rest f : Bytes} {e : String} (x : Bytes)

lemma decodeBody_frame (h : decodeBody n buf = .frame f s' rest) :
    s' = none ∧ buf = f ++ rest ∧ decodeBody n (buf ++ x) = .frame f none (rest ++ x) := by
  unfold decodeBody at h
  split at h
  · cases h
  · rename_i hlen
    cases h
    have hlong : ¬ (buf ++ x).length < n := by simp; omega
    refine ⟨rfl, (List.take_append_drop n buf).symm, ?_⟩
    rw [decodeBody, if_neg hlong, List.take_append_of_le_length (by omega),
      List.drop_append_of_le_length (by omega)]

lemma decodeBody_more (h : decodeBody n buf = .more s' rest) : s' = some n ∧ rest = buf := by
  unfold decodeBody at h
  split at h
  · cases h
    exact ⟨rfl, rfl⟩
  · cases h

lemma decodeBody_ne_failed : decodeBody n buf ≠ .failed e := by
  unfold decodeBody
  split <;> simp

lemma decodeDelimited_head (h : 4 ≤ buf.length) : decodeDelimited none (buf ++ x) =
    if maxFrameLength < ofLE (buf.take 4).reverse then .failed "frame size too big"
    else decodeBody (ofLE (buf.take 4).reverse) (buf.drop 4 ++ x) := by
  have hlong : ¬ (buf ++ x).length < 4 := by simp; omega
  rw [decodeDelimited, if_neg hlong, List.take_append_of_le_length h,
    List.drop_append_of_le_length h]

end Incremental

/-- A decoder of the messages. -/
def lengthDelimited : Framed.Decoder (Option ℕ) UInt8 Bytes String where
  decode := decodeDelimited
  size s buf := buf.length + s.elim 0 fun _ => 1
  size_frame {s buf f s' rest} h := by
    cases s with
    | some n =>
        obtain ⟨rfl, rfl, -⟩ := decodeBody_frame [] h
        simp only [Option.elim_none, Option.elim_some, List.length_append]
        omega
    | none =>
        by_cases hlen : buf.length < 4
        · simp [decodeDelimited, hlen] at h
        · have hhead := decodeDelimited_head [] (Nat.not_lt.mp hlen)
          rw [List.append_nil, List.append_nil, h] at hhead
          split at hhead
          · cases hhead
          · obtain ⟨rfl, hbuf, -⟩ := decodeBody_frame [] hhead.symm
            have hlength := congrArg List.length hbuf
            simp at hlength ⊢
            omega
  frame_append {s buf f s' rest} x h := by
    cases s with
    | some n =>
        obtain ⟨rfl, -, happend⟩ := decodeBody_frame x h
        exact happend
    | none =>
        by_cases hlen : buf.length < 4
        · simp [decodeDelimited, hlen] at h
        · have hhead := decodeDelimited_head [] (Nat.not_lt.mp hlen)
          rw [List.append_nil, List.append_nil, h] at hhead
          rw [decodeDelimited_head x (Nat.not_lt.mp hlen)]
          split at hhead
          · cases hhead
          · rename_i hmax
            obtain ⟨rfl, -, happend⟩ := decodeBody_frame x hhead.symm
            rw [if_neg hmax, happend]
  more_append {s buf s' rest} x h := by
    cases s with
    | some n =>
        obtain ⟨rfl, rfl⟩ := decodeBody_more h
        rfl
    | none =>
        by_cases hlen : buf.length < 4
        · obtain ⟨rfl, rfl⟩ : s' = none ∧ rest = buf := by
            simpa [decodeDelimited, hlen, eq_comm] using h
          rfl
        · have hhead := decodeDelimited_head [] (Nat.not_lt.mp hlen)
          rw [List.append_nil, List.append_nil, h] at hhead
          rw [decodeDelimited_head x (Nat.not_lt.mp hlen)]
          split at hhead
          · cases hhead
          · rename_i hmax
            obtain ⟨rfl, rfl⟩ := decodeBody_more hhead.symm
            rw [if_neg hmax]
            rfl
  failed_append {s buf e} x h := by
    cases s with
    | some n => exact absurd h decodeBody_ne_failed
    | none =>
        by_cases hlen : buf.length < 4
        · simp [decodeDelimited, hlen] at h
        · have hhead := decodeDelimited_head [] (Nat.not_lt.mp hlen)
          rw [List.append_nil, List.append_nil, h] at hhead
          rw [decodeDelimited_head x (Nat.not_lt.mp hlen)]
          split at hhead
          · rename_i hmax
            rw [if_pos hmax, hhead]
          · exact absurd hhead.symm decodeBody_ne_failed

lemma decodeDelimited_length {n : ℕ} (h : n ≤ maxFrameLength) (buf : Bytes) :
    decodeDelimited none ((toLE 4 n).reverse ++ buf) = decodeBody n buf := by
  have hfour : (toLE 4 n).reverse.length = 4 := by simp
  have hn : ofLE (toLE 4 n) = n := ofLE_toLE_of_lt (lt_of_le_of_lt h (by decide))
  rw [decodeDelimited_head buf (by rw [hfour]), List.take_of_length_le (le_of_eq hfour),
    List.drop_of_length_le (le_of_eq hfour), List.reverse_reverse, hn,
    if_neg (Nat.not_lt.mpr h), List.nil_append]

lemma delimit_eq {data v : Bytes} (h : standardWire.delimited data = some v) :
    data.length ≤ maxFrameLength ∧ v = (toLE 4 data.length).reverse ++ data := by
  unfold WireCodec.delimited standardWire at h
  dsimp only at h
  split at h
  · rename_i hmax
    exact ⟨hmax, (Option.some.inj h).symm⟩
  · cases h

/-- The decoder reads back what is written. -/
lemma lengthDelimited_reads : lengthDelimited.Reads none standardWire.delimited := by
  refine ⟨rfl, fun {data v} h => ?_, fun {data v p} h hp hne => ?_⟩
  · obtain ⟨hmax, rfl⟩ := delimit_eq h
    have hbody : decodeBody data.length data = .frame data none [] := by simp [decodeBody]
    exact (decodeDelimited_length hmax data).trans hbody
  · obtain ⟨hmax, rfl⟩ := delimit_eq h
    rcases Codec.cut_append hp hne with ⟨hcut, hnehead⟩ | ⟨q, rfl, hq, hneq⟩
    · have hshort : p.length < 4 := by
        have hle : p.length ≤ 4 := by simpa using hcut.length_le
        have hne : p.length ≠ 4 := fun heq => hnehead (hcut.eq_of_length (by simp [heq]))
        omega
      exact ⟨none, p, if_pos hshort⟩
    · have hshort : q.length < data.length :=
        lt_of_le_of_ne hq.length_le fun heq => hneq (hq.eq_of_length heq)
      exact ⟨some data.length, q, (decodeDelimited_length hmax q).trans (if_pos hshort)⟩

end DeepFinder
