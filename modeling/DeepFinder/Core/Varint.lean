import DeepFinder.Core.Basic
import DeepFinder.Lib.Leb128

/-!
# LEB128 varints

Seven payload bits a byte, low bits first, with the high bit set on every byte but the last.

`decode_u32` reads the numeral at its place, up to five bytes of it, into 32 bits
(`decodeU32_eq_some_iff`), so that it reads what `encode_u32` wrote.  Four bits of a fifth byte fit;
`varint_exact_iff` says that it keeps what a numeral denotes unless the fifth byte has others.

`VarintExact` is about any bytes and any place in them, so that it covers what `encode_u32` wrote as
well as what a damaged file holds.  A numeral of five bytes whose last one has more than four bits
denotes a number of 33 bits or more; the decoder shifts these bits out instead of refusing them.
-/

namespace DeepFinder

open ByteString Leb128

/-- The loop of `encode_u32`; a `u32` takes at most five bytes. -/
def encodeVarint : ℕ → ℕ → Bytes
  | 0, _ => []
  | fuel + 1, v =>
      if v >>> 7 = 0 then [UInt8.ofNat (v % 128)]
      else UInt8.ofNat (v % 128 + 128) :: encodeVarint fuel (v >>> 7)

/-- `varint::encode_u32`. -/
def encodeU32 (v : ℕ) : Bytes := encodeVarint 5 v

/-- The loop of `decode_u32`, which gives up at shift 35. -/
def decodeVarint (buf : Bytes) : ℕ → ℕ → ℕ → ℕ → Option (ℕ × ℕ)
  | 0, _, _, _ => none
  | fuel + 1, pos, shift, result =>
      match buf[pos]? with
      | none => none
      | some b =>
          let result := result ||| (b.toNat % 128) <<< shift % 2 ^ 32
          if b.toNat < 128 then some (result, pos + 1)
          else decodeVarint buf fuel (pos + 1) (shift + 7) result

/-- `varint::decode_u32`: the value and the position behind it. -/
def decodeU32 (buf : Bytes) (pos : ℕ) : Option (ℕ × ℕ) := decodeVarint buf 5 pos 0 0

/-- A payload that is put above the bits read so far adds to them, up to 32 bits. -/
lemma or_shiftLeft_mod {r x s : ℕ} (hr : r < 2 ^ s) (hs : s ≤ 32) :
    r ||| x <<< s % 2 ^ 32 = (r + x * 2 ^ s) % 2 ^ 32 := by
  have hsplit : 2 ^ 32 = 2 ^ s * 2 ^ (32 - s) := by rw [← pow_add, Nat.add_sub_cancel' hs]
  have hhigh : x * 2 ^ s % 2 ^ 32 = 2 ^ s * (x % 2 ^ (32 - s)) := by
    rw [hsplit, Nat.mul_comm x, Nat.mul_mod_mul_left]
  have hlt : r + 2 ^ s * (x % 2 ^ (32 - s)) < 2 ^ 32 := by
    have hx : x % 2 ^ (32 - s) + 1 ≤ 2 ^ (32 - s) := Nat.mod_lt _ (Nat.two_pow_pos _)
    have hmul := Nat.mul_le_mul_left (2 ^ s) hx
    rw [← hsplit, Nat.mul_succ] at hmul
    omega
  rw [Nat.shiftLeft_eq, hhigh, Nat.or_comm, ← Nat.two_pow_add_eq_or_of_lt hr, Nat.add_comm,
    ← Nat.mod_eq_of_lt hlt, ← hhigh, Nat.add_mod_mod]

/-- The loop reads the numeral at its place, if that has no more bytes than it may read, and keeps
32 bits of what it denotes. -/
lemma decodeVarint_eq_some_iff {buf : Bytes} {fuel pos s r v p : ℕ} (hfuel : s + 7 * fuel = 35)
    (hr : r < 2 ^ s) :
    decodeVarint buf fuel pos s r = some (v, p) ↔
      ∃ bs, Numeral bs ∧ StandsAt buf pos bs ∧ bs.length ≤ fuel ∧
        (r + value bs * 2 ^ s) % 2 ^ 32 = v ∧ pos + bs.length = p := by
  -- By induction on the bytes that may still come: `s` is the shift of the next one, and `r` the
  -- value of those read, which is below `2 ^ s`.
  induction fuel generalizing pos s r with
  | zero =>
      refine iff_of_false (by simp [decodeVarint]) ?_
      rintro ⟨bs, hbs, -, hlen, -⟩
      exact absurd hbs.length_pos (by omega)
  | succ fuel ih =>
      rw [decodeVarint]
      cases hat : buf[pos]? with
      | none =>
          refine iff_of_false (by simp) ?_
          rintro ⟨bs, hbs, hstands, -⟩
          obtain ⟨b, bs, rfl⟩ := List.exists_cons_of_ne_nil hbs.ne_nil
          rw [(standsAt_cons_iff.mp hstands).1] at hat
          cases hat
      | some b =>
          dsimp only
          rw [or_shiftLeft_mod hr (by omega)]
          by_cases hlast : b.toNat < 128
          · rw [if_pos hlast]
            have hvalue : value [b] = b.toNat % 128 := by simp [value]
            constructor
            · intro h
              obtain ⟨rfl, rfl⟩ := Prod.mk.inj (Option.some.inj h)
              have hlt := (List.getElem?_eq_some_iff.mp hat).1
              exact ⟨[b], .last hlast, standsAt_cons_iff.mpr ⟨hat, standsAt_nil hlt⟩,
                Nat.succ_le_succ (Nat.zero_le _), by rw [hvalue], rfl⟩
            · rintro ⟨bs, hbs, hstands, -, rfl, rfl⟩
              obtain ⟨c, bs, rfl⟩ := List.exists_cons_of_ne_nil hbs.ne_nil
              obtain rfl := Option.some.inj (hat.symm.trans (standsAt_cons_iff.mp hstands).1)
              rcases numeral_cons_iff.mp hbs with ⟨-, rfl⟩ | ⟨hmore, -⟩
              · rw [hvalue]
                rfl
              · omega
          · rw [if_neg hlast]
            -- Seven more bits are read; what they leave above bit 31 is cut off now or at the end.
            have hpow : 2 ^ (s + 7) = 128 * 2 ^ s := by rw [pow_add, Nat.mul_comm]; rfl
            have hdigit : b.toNat % 128 * 2 ^ s ≤ 127 * 2 ^ s := Nat.mul_le_mul_right _ (by omega)
            have hr' : (r + b.toNat % 128 * 2 ^ s) % 2 ^ 32 < 2 ^ (s + 7) :=
              (Nat.mod_le _ _).trans_lt (by omega)
            have hvalue : ∀ bs, (r + value (b :: bs) * 2 ^ s) % 2 ^ 32 =
                ((r + b.toNat % 128 * 2 ^ s) % 2 ^ 32 + value bs * 2 ^ (s + 7)) % 2 ^ 32 := by
              intro bs
              rw [Nat.mod_add_mod, hpow, value]
              ring_nf
            rw [ih (by omega) hr']
            constructor
            · rintro ⟨bs, hbs, hstands, hlen, rfl, rfl⟩
              exact ⟨b :: bs, .more (by omega) hbs, standsAt_cons_iff.mpr ⟨hat, hstands⟩,
                Nat.succ_le_succ hlen, hvalue bs, by rw [List.length_cons]; omega⟩
            · rintro ⟨bs, hbs, hstands, hlen, rfl, rfl⟩
              obtain ⟨c, bs, rfl⟩ := List.exists_cons_of_ne_nil hbs.ne_nil
              obtain ⟨hat', hrest⟩ := standsAt_cons_iff.mp hstands
              obtain rfl := Option.some.inj (hat.symm.trans hat')
              rcases numeral_cons_iff.mp hbs with ⟨hend, -⟩ | ⟨-, hbs'⟩
              · omega
              · exact ⟨bs, hbs', hrest, Nat.le_of_succ_le_succ hlen, (hvalue bs).symm,
                  by rw [List.length_cons]; omega⟩

/-- `encode_u32` writes the numeral of a value. -/
lemma encodeVarint_spec {fuel v : ℕ} (hv : v < 2 ^ (7 * fuel)) (hfuel : 0 < fuel) :
    Numeral (encodeVarint fuel v) ∧ value (encodeVarint fuel v) = v ∧
      (encodeVarint fuel v).length ≤ fuel := by
  induction fuel generalizing v with
  | zero => omega
  | succ fuel ih =>
      have hshift : v >>> 7 = v / 128 := Nat.shiftRight_eq_div_pow v 7
      rw [encodeVarint, hshift]
      by_cases hlast : v / 128 = 0
      · have hbyte : (UInt8.ofNat (v % 128)).toNat = v := by
          rw [UInt8.toNat_ofNat']
          omega
        rw [if_pos hlast]
        refine ⟨.last (by omega), ?_, Nat.succ_le_succ (Nat.zero_le _)⟩
        rw [value, hbyte, value]
        omega
      · have hbyte : (UInt8.ofNat (v % 128 + 128)).toNat = v % 128 + 128 := by
          rw [UInt8.toNat_ofNat']
          omega
        rw [Nat.mul_succ, pow_add] at hv
        have hfuel' : 0 < fuel := by
          rcases Nat.eq_zero_or_pos fuel with rfl | h
          · omega
          · exact h
        obtain ⟨hnum, hval, hlen⟩ := @ih (v / 128) (by omega) hfuel'
        rw [if_neg hlast]
        refine ⟨.more (by omega) hnum, ?_, Nat.succ_le_succ hlen⟩
        rw [value, hbyte, hval]
        omega

lemma decodeU32_eq_some_iff {buf : Bytes} {pos v p : ℕ} :
    decodeU32 buf pos = some (v, p) ↔
      ∃ bs, Numeral bs ∧ StandsAt buf pos bs ∧ bs.length ≤ 5 ∧ value bs % 2 ^ 32 = v ∧
        pos + bs.length = p := by
  simpa [decodeU32] using
    @decodeVarint_eq_some_iff buf 5 pos 0 0 v p (by omega) (by omega)

lemma encodeU32_spec {v : ℕ} (hv : v < 2 ^ 32) :
    Numeral (encodeU32 v) ∧ value (encodeU32 v) = v ∧ (encodeU32 v).length ≤ 5 :=
  encodeVarint_spec (by omega) (by omega)

/-- `decode_u32` inverts `encode_u32`, at any position of any buffer. -/
theorem decodeU32_encodeU32 {buf : Bytes} {pos v : ℕ} (hv : v < 2 ^ 32)
    (h : StandsAt buf pos (encodeU32 v)) :
    decodeU32 buf pos = some (v, pos + (encodeU32 v).length) := by
  obtain ⟨hnum, hvalue, hlen⟩ := encodeU32_spec hv
  exact decodeU32_eq_some_iff.mpr
    ⟨encodeU32 v, hnum, h, hlen, by rw [hvalue, Nat.mod_eq_of_lt hv], rfl⟩

/-! ## What a numeral denotes -/

/-- `decode_u32` agrees with the unbounded integers at a place: what it returns is what the numeral
of at most five bytes there denotes, and it rejects a numeral of a larger number. -/
def VarintExact (buf : Bytes) (pos : ℕ) : Prop :=
  (∀ v p, decodeU32 buf pos = some (v, p) ↔
    v < 2 ^ 32 ∧ ∃ bs, Numeral bs ∧ StandsAt buf pos bs ∧ bs.length ≤ 5 ∧ value bs = v ∧
      pos + bs.length = p) ∧
  ∀ bs, Numeral bs → StandsAt buf pos bs → 2 ^ 32 ≤ value bs → decodeU32 buf pos = none

/-- A numeral of five bytes stands at the place, and its last byte has more than four bits.  Four
bytes hold 28 bits of a number, so that only four more fit into 32. -/
def FifthByteOverflows (buf : Bytes) (pos : ℕ) : Prop :=
  ∃ init b, Numeral (init ++ [b]) ∧ StandsAt buf pos (init ++ [b]) ∧ init.length = 4 ∧
    16 ≤ b.toNat

/-- A numeral that may be read denotes too much just when it has a fifth byte of more than four
bits. -/
lemma fifthByteOverflows_iff {buf : Bytes} {pos : ℕ} :
    FifthByteOverflows buf pos ↔
      ∃ bs, Numeral bs ∧ StandsAt buf pos bs ∧ bs.length ≤ 5 ∧ 2 ^ 32 ≤ value bs := by
  constructor
  · rintro ⟨init, b, hnum, hstands, hlen, hb⟩
    obtain ⟨init', b', hsplit, hlast⟩ := hnum.exists_last
    obtain ⟨rfl, rfl⟩ := List.append_inj' hsplit rfl |>.imp_right List.singleton_inj.mp
    have hvalue := (@le_value_concat_iff init b 4 hlast).mpr hb
    rw [hlen] at hvalue
    exact ⟨_, hnum, hstands, by rw [List.length_append, hlen]; rfl, hvalue⟩
  · rintro ⟨bs, hnum, hstands, hlen, hvalue⟩
    obtain ⟨init, b, rfl, hlast⟩ := hnum.exists_last
    rw [List.length_append, List.length_singleton] at hlen
    have hfull : init.length = 4 := by
      by_contra hne
      have hlt := value_lt (init ++ [b])
      have hpow : 2 ^ (7 * (init ++ [b]).length) ≤ 2 ^ 28 := by
        refine Nat.pow_le_pow_right (by omega) ?_
        rw [List.length_append, List.length_singleton]
        omega
      omega
    refine ⟨init, b, hnum, hstands, hfull, (@le_value_concat_iff init b 4 hlast).mp ?_⟩
    rw [hfull]
    exact hvalue

/-- `decode_u32` agrees with the unbounded integers except where a numeral has a fifth byte of more
than four bits; and it reads what `encode_u32` appended to any bytes, to its end.  So the encoder
never writes the numerals on which the decoder goes wrong. -/
theorem varint_exact_iff (buf : Bytes) (pos : ℕ) (v : UInt32) (before after : Bytes) :
    (VarintExact buf pos ↔ ¬ FifthByteOverflows buf pos) ∧
      decodeU32 (before ++ (encodeU32 v.toNat ++ after)) before.length =
        some (v.toNat, before.length + (encodeU32 v.toNat).length) := by
  refine ⟨?_, decodeU32_encodeU32 v.toNat_lt ⟨before, after, rfl, rfl⟩⟩
  rw [fifthByteOverflows_iff]
  constructor
  · rintro ⟨-, hrejects⟩ ⟨bs, hnum, hstands, hlen, hvalue⟩
    have hread := decodeU32_eq_some_iff.mpr ⟨bs, hnum, hstands, hlen, rfl, rfl⟩
    rw [hrejects bs hnum hstands hvalue] at hread
    cases hread
  · intro hsmall
    have hfits : ∀ bs, Numeral bs → StandsAt buf pos bs → bs.length ≤ 5 → value bs < 2 ^ 32 :=
      fun bs hnum hstands hlen =>
        Nat.lt_of_not_le fun hle => hsmall ⟨bs, hnum, hstands, hlen, hle⟩
    refine ⟨fun v p => ?_, fun bs hnum hstands hvalue => ?_⟩
    · rw [decodeU32_eq_some_iff]
      constructor
      · rintro ⟨bs, hnum, hstands, hlen, rfl, rfl⟩
        have hlt := hfits bs hnum hstands hlen
        rw [Nat.mod_eq_of_lt hlt]
        exact ⟨hlt, bs, hnum, hstands, hlen, rfl, rfl⟩
      · rintro ⟨hlt, bs, hnum, hstands, hlen, rfl, rfl⟩
        exact ⟨bs, hnum, hstands, hlen, Nat.mod_eq_of_lt hlt, rfl⟩
    · cases hread : decodeU32 buf pos with
      | none => rfl
      | some r =>
          obtain ⟨cs, hnum', hstands', hlen, -, -⟩ := decodeU32_eq_some_iff.mp hread
          rw [hnum'.unique hnum hstands' hstands] at hlen
          exact absurd (hfits bs hnum hstands hlen) (by omega)

/-- Five bytes that denote `2 ^ 35 - 1` are read as `2 ^ 32 - 1`. -/
theorem fifth_byte_truncated :
    decodeU32 [0xff, 0xff, 0xff, 0xff, 0x7f] 0 = some (2 ^ 32 - 1, 5) ∧
      Numeral [0xff, 0xff, 0xff, 0xff, 0x7f] ∧
      value [0xff, 0xff, 0xff, 0xff, 0x7f] = 2 ^ 35 - 1 ∧
      ¬ VarintExact [0xff, 0xff, 0xff, 0xff, 0x7f] 0 := by
  have hnum : Numeral [0xff, 0xff, 0xff, 0xff, 0x7f] :=
    .more (by decide) (.more (by decide) (.more (by decide) (.more (by decide)
      (.last (by decide)))))
  have hread : decodeU32 [0xff, 0xff, 0xff, 0xff, 0x7f] 0 = some (2 ^ 32 - 1, 5) := by decide
  have hvalue : value [0xff, 0xff, 0xff, 0xff, 0x7f] = 2 ^ 35 - 1 := by decide
  refine ⟨hread, hnum, hvalue, fun hexact => ?_⟩
  have hnone := hexact.2 _ hnum (StandsAt.refl _) (by rw [hvalue]; decide)
  rw [hread] at hnone
  cases hnone

end DeepFinder
