import DeepFinder.Ipc.Bfs
import Mathlib.Data.Nat.Digits.Defs

/-!
# Size arguments

The argument of `-size` is an optional sign, an integer and an optional unit.  `parse_size` reads
every such text whose integer fits an `i64` and no other (`parseSize_ok_iff`), and saturates the
product at the upper end of `i64`; `size_compare_iff` says when the comparison with what it returns
is the comparison with the product itself.

Integers are unbounded in the meaning of an argument and `i64` in the code.  The text of an argument
determines its sign, number and unit (`SizeText.unique`), so that the exact product is well defined;
`SaturationHidden` then compares it with the range and with the size of the file.  A negative number
whose product falls below the range saturates upwards as well, which is where the comparison goes
wrong.
-/

namespace DeepFinder

namespace Bfs

/-! ## What an argument says -/

def decimal (ds : List Char) : ℕ := Nat.ofDigits 10 (ds.reverse.map fun d => d.toNat - '0'.toNat)

/-- The text is an integer in decimal notation, possibly with a sign. -/
def IsInteger (cs : List Char) (n : ℤ) : Prop :=
  ∃ ds, ds ≠ [] ∧ (∀ d ∈ ds, d.isDigit = true) ∧
    (cs = '-' :: ds ∧ n = -(decimal ds : ℤ) ∨ (cs = '+' :: ds ∨ cs = ds) ∧ n = decimal ds)

/-- The number fits an `i64`. -/
def FitsI64 (n : ℤ) : Prop := -2 ^ 63 ≤ n ∧ n < 2 ^ 63

instance (n : ℤ) : Decidable (FitsI64 n) := inferInstanceAs (Decidable (_ ∧ _))

/-- A sign and the comparison that it asks for. -/
inductive SignOf : List Char → Cmp → Prop
  | plus : SignOf ['+'] .gt
  | minus : SignOf ['-'] .lt
  | none : SignOf [] .eq

/-- A unit and its factor. -/
inductive UnitOf : List Char → ℤ → Prop
  | bytes : UnitOf ['c'] 1
  | kilo : UnitOf ['k'] 1024
  | mega : UnitOf ['M'] (1024 * 1024)
  | giga : UnitOf ['G'] (1024 * 1024 * 1024)
  | none : UnitOf [] 1

/-- The argument is a sign, an integer and a unit; a sign in front is the comparison's, so that an
integer with its own sign follows one. -/
def SizeText (s : String) (cmp : Cmp) (n unit : ℤ) : Prop :=
  ∃ sign number letter, s.toList = sign ++ (number ++ letter) ∧ SignOf sign cmp ∧
    IsInteger number n ∧ UnitOf letter unit ∧
    (sign = [] → ∀ c ∈ number.head?, c ≠ '+' ∧ c ≠ '-')

/-- The comparison over the integers, which is what an argument asks for. -/
def Cmp.Holds : Cmp → ℤ → ℤ → Prop
  | .eq, size, n => size = n
  | .gt, size, n => n < size
  | .lt, size, n => size < n

/-! ## Reading an argument -/

/-- What is kept of a product: itself, or the largest `i64`. -/
def saturate (n : ℤ) : Int64 := if FitsI64 n then Int64.ofInt n else Int64.maxValue

lemma parseDigits_eq_some_iff {cs : List Char} {n : ℕ} :
    parseDigits cs = some n ↔ cs ≠ [] ∧ (∀ d ∈ cs, d.isDigit = true) ∧ decimal cs = n := by
  have hfold : ∀ (cs : List Char) (acc : ℕ),
      cs.foldl (fun n c => n * 10 + (c.toNat - '0'.toNat)) acc =
        decimal cs + acc * 10 ^ cs.length := by
    intro cs
    induction cs with
    | nil => simp [decimal]
    | cons c cs ih =>
        intro acc
        rw [List.foldl_cons, ih, decimal, decimal, List.reverse_cons, List.map_append,
          Nat.ofDigits_append, List.length_map, List.length_reverse, List.length_cons]
        simp only [List.map_cons, List.map_nil, Nat.ofDigits_singleton]
        ring
  unfold parseDigits
  rw [hfold, Nat.zero_mul, Nat.add_zero]
  simp only [List.all_eq_true]
  split_ifs with h
  · rw [Option.some.injEq]
    exact ⟨fun hn => ⟨h.1, h.2, hn⟩, fun hn => hn.2.2⟩
  · exact iff_of_false (by simp) fun hn => h ⟨hn.1, hn.2.1⟩

lemma not_isDigit_sign {c : Char} (h : c.isDigit = true) : c ≠ '+' ∧ c ≠ '-' := by
  constructor <;> rintro rfl <;> simp [Char.isDigit] at h

/-- What `parse::<i64>` reads before it looks at the range. -/
def integerOf : List Char → Option ℤ
  | '-' :: ds => (parseDigits ds).map fun n => -(n : ℤ)
  | '+' :: ds => (parseDigits ds).map fun n => (n : ℤ)
  | ds => (parseDigits ds).map fun n => (n : ℤ)

lemma integerOf_eq_some_iff {cs : List Char} {n : ℤ} : integerOf cs = some n ↔ IsInteger cs n := by
  have hcast : ∀ (ds : List Char) (m : ℤ),
      (do let a ← parseDigits ds; pure (a : ℤ)) = some m ↔
        ds ≠ [] ∧ (∀ d ∈ ds, d.isDigit = true) ∧ (decimal ds : ℤ) = m := by
    intro ds m
    simp only [Option.bind_eq_bind, Option.bind_eq_some_iff, Option.pure_def, Option.some.injEq,
      parseDigits_eq_some_iff]
    constructor
    · rintro ⟨n, ⟨hne, hdigits, rfl⟩, rfl⟩
      exact ⟨hne, hdigits, rfl⟩
    · rintro ⟨hne, hdigits, rfl⟩
      exact ⟨_, ⟨hne, hdigits, rfl⟩, rfl⟩
  constructor
  · intro h
    unfold integerOf at h
    split at h
    · obtain ⟨m, hm, rfl⟩ := Option.map_eq_some_iff.mp h
      obtain ⟨hne, hdigits, rfl⟩ := (hcast _ _).mp hm
      exact ⟨_, hne, hdigits, Or.inl ⟨rfl, rfl⟩⟩
    · obtain ⟨m, hm, rfl⟩ := Option.map_eq_some_iff.mp h
      obtain ⟨hne, hdigits, rfl⟩ := (hcast _ _).mp hm
      exact ⟨_, hne, hdigits, Or.inr ⟨Or.inl rfl, rfl⟩⟩
    · obtain ⟨m, hm, rfl⟩ := Option.map_eq_some_iff.mp h
      obtain ⟨hne, hdigits, rfl⟩ := (hcast _ _).mp hm
      exact ⟨_, hne, hdigits, Or.inr ⟨Or.inr rfl, rfl⟩⟩
  · rintro ⟨ds, hne, hdigits, hsigned⟩
    have hparsed := parseDigits_eq_some_iff.mpr ⟨hne, hdigits, rfl⟩
    rcases hsigned with ⟨rfl, rfl⟩ | ⟨rfl | rfl, rfl⟩
    · simp [integerOf, hparsed]
    · simp [integerOf, hparsed]
    · obtain ⟨d, ds, rfl⟩ := List.exists_cons_of_ne_nil hne
      have hd := not_isDigit_sign (hdigits d (List.mem_cons_self ..))
      unfold integerOf
      split
      · rename_i hcons
        exact absurd (List.cons.inj hcons).1 hd.2
      · rename_i hcons
        exact absurd (List.cons.inj hcons).1 hd.1
      · simp [hparsed]

/-- `parse::<i64>` reads the integers that fit. -/
lemma parseI64_eq_some_iff {cs : List Char} {x : Int64} :
    parseI64 cs = some x ↔ ∃ n, IsInteger cs n ∧ FitsI64 n ∧ Int64.ofInt n = x := by
  show ((integerOf cs).bind fun n =>
    if -2 ^ 63 ≤ n ∧ n < 2 ^ 63 then some (Int64.ofInt n) else none) = some x ↔ _
  rw [Option.bind_eq_some_iff]
  refine exists_congr fun n => ?_
  rw [integerOf_eq_some_iff, FitsI64]
  refine and_congr_right fun _ => ?_
  split_ifs with h
  · rw [Option.some.injEq, and_iff_right h]
  · exact iff_of_false (by simp) fun hn => h hn.1

/-- A text is the sign that `parse_size` takes, and the rest. -/
lemma sizeCmp_eq_iff {cs rest : List Char} {cmp : Cmp} :
    sizeCmp cs = (cmp, rest) ↔ ∃ sign, cs = sign ++ rest ∧ SignOf sign cmp ∧
      (sign = [] → ∀ c ∈ rest.head?, c ≠ '+' ∧ c ≠ '-') := by
  constructor
  · intro h
    unfold sizeCmp at h
    split at h <;> obtain ⟨rfl, rfl⟩ := Prod.mk.inj h
    · exact ⟨['+'], rfl, .plus, by simp⟩
    · exact ⟨['-'], rfl, .minus, by simp⟩
    · rename_i hplus hminus
      refine ⟨[], rfl, .none, fun _ c hc => ?_⟩
      obtain ⟨ds, rfl⟩ := List.head?_eq_some_iff.mp hc
      exact ⟨fun h => hplus ds (by rw [h]), fun h => hminus ds (by rw [h])⟩
  · rintro ⟨sign, rfl, hsign, hnone⟩
    cases hsign with
    | plus => rfl
    | minus => rfl
    | none =>
        unfold sizeCmp
        rw [List.nil_append]
        split
        · exact absurd rfl (hnone rfl '+' rfl).1
        · exact absurd rfl (hnone rfl '-' rfl).2
        · rfl

/-- A text is a number and the unit that `parse_size` takes. -/
lemma sizeUnit_eq_iff {cs number : List Char} {unit : ℤ} :
    sizeUnit cs = (number, unit) ↔ ∃ letter, cs = number ++ letter ∧ UnitOf letter unit ∧
      (letter = [] → ∀ c ∈ number.getLast?, c ∉ ['c', 'k', 'M', 'G']) := by
  constructor
  · intro h
    unfold sizeUnit at h
    have hsplit : ∀ c, cs.getLast? = some c → cs = cs.dropLast ++ [c] := fun c hc =>
      (List.dropLast_append_getLast? c hc).symm
    split at h <;> obtain ⟨rfl, rfl⟩ := Prod.mk.inj h
    · exact ⟨_, hsplit _ ‹_›, .bytes, by simp⟩
    · exact ⟨_, hsplit _ ‹_›, .kilo, by simp⟩
    · exact ⟨_, hsplit _ ‹_›, .mega, by simp⟩
    · exact ⟨_, hsplit _ ‹_›, .giga, by simp⟩
    · rename_i hbytes hkilo hmega hgiga
      refine ⟨[], (List.append_nil cs).symm, .none, fun _ c hc hmem => ?_⟩
      simp only [List.mem_cons, List.not_mem_nil, or_false] at hmem
      rcases hmem with rfl | rfl | rfl | rfl
      · exact hbytes hc
      · exact hkilo hc
      · exact hmega hc
      · exact hgiga hc
  · rintro ⟨letter, rfl, hunit, hnone⟩
    unfold sizeUnit
    cases hunit with
    | bytes => simp
    | kilo => simp
    | mega => simp
    | giga => simp
    | none =>
        rw [List.append_nil]
        split
        · exact absurd (hnone rfl 'c' ‹_›) (by simp)
        · exact absurd (hnone rfl 'k' ‹_›) (by simp)
        · exact absurd (hnone rfl 'M' ‹_›) (by simp)
        · exact absurd (hnone rfl 'G' ‹_›) (by simp)
        · rfl

lemma IsInteger.ne_nil {cs : List Char} {n : ℤ} (h : IsInteger cs n) : cs ≠ [] := by
  obtain ⟨ds, hne, -, ⟨rfl, -⟩ | ⟨rfl | rfl, -⟩⟩ := h
  · simp
  · simp
  · exact hne

lemma IsInteger.isDigit_last {cs : List Char} {n : ℤ} (h : IsInteger cs n) {c : Char}
    (hc : c ∈ cs.getLast?) : c.isDigit = true := by
  obtain ⟨ds, hne, hdigits, hcs⟩ := h
  have hlast : cs.getLast? = ds.getLast? := by
    rcases hcs with ⟨rfl, -⟩ | ⟨rfl | rfl, -⟩
    · exact List.getLast?_cons_of_ne_nil hne
    · exact List.getLast?_cons_of_ne_nil hne
    · rfl
  rw [hlast] at hc
  exact hdigits c (List.mem_of_getLast? hc)

lemma IsInteger.unique {cs : List Char} {n m : ℤ} (hn : IsInteger cs n) (hm : IsInteger cs m) :
    n = m := by
  rw [← integerOf_eq_some_iff] at hn hm
  exact Option.some.inj (hn.symm.trans hm)

/-- The parts that `parse_size` cuts an argument into. -/
lemma sizeText_iff {s : String} {cmp : Cmp} {n unit : ℤ} :
    SizeText s cmp n unit ↔ ∃ rest number, sizeCmp s.toList = (cmp, rest) ∧
      sizeUnit rest = (number, unit) ∧ IsInteger number n := by
  constructor
  · rintro ⟨sign, number, letter, hs, hsign, hint, hunit, hnone⟩
    refine ⟨number ++ letter, number, sizeCmp_eq_iff.mpr ⟨sign, hs, hsign, fun h c hc => ?_⟩,
      sizeUnit_eq_iff.mpr ⟨letter, rfl, hunit, fun _ c hc hmem => ?_⟩, hint⟩
    · rw [List.head?_append_of_ne_nil _ hint.ne_nil] at hc
      exact hnone h c hc
    · have hdigit := hint.isDigit_last hc
      simp only [List.mem_cons, List.not_mem_nil, or_false] at hmem
      rcases hmem with rfl | rfl | rfl | rfl <;> simp [Char.isDigit] at hdigit
  · rintro ⟨rest, number, hcmp, hunit, hint⟩
    obtain ⟨sign, hs, hsign, hnone⟩ := sizeCmp_eq_iff.mp hcmp
    obtain ⟨letter, rfl, hletter, -⟩ := sizeUnit_eq_iff.mp hunit
    refine ⟨sign, number, letter, hs, hsign, hint, hletter, fun h c hc => hnone h c ?_⟩
    rwa [List.head?_append_of_ne_nil _ hint.ne_nil]

lemma SizeText.unique {s : String} {cmp cmp' : Cmp} {n n' unit unit' : ℤ}
    (h : SizeText s cmp n unit) (h' : SizeText s cmp' n' unit') :
    cmp = cmp' ∧ n = n' ∧ unit = unit' := by
  obtain ⟨rest, number, hcmp, hunit, hint⟩ := sizeText_iff.mp h
  obtain ⟨rest', number', hcmp', hunit', hint'⟩ := sizeText_iff.mp h'
  obtain ⟨rfl, rfl⟩ := Prod.mk.inj (hcmp.symm.trans hcmp')
  obtain ⟨rfl, rfl⟩ := Prod.mk.inj (hunit.symm.trans hunit')
  exact ⟨rfl, hint.unique hint', rfl⟩

/-- `parse_size` accepts the arguments whose integer fits, and keeps the product as it saturates. -/
theorem parseSize_ok_iff {s : String} {cmp : Cmp} {b : Int64} :
    parseSize s = .ok (cmp, b) ↔
      ∃ n unit, SizeText s cmp n unit ∧ FitsI64 n ∧ saturate (n * unit) = b := by
  have hvalue : ∀ {n : ℤ}, FitsI64 n → (Int64.ofInt n).toInt = n := fun h =>
    Int64.toInt_ofInt_of_le (by simpa using h.1) (by simpa using h.2)
  constructor
  · intro h
    rcases hcmp : sizeCmp s.toList with ⟨cmp', rest⟩
    rcases hunit : sizeUnit rest with ⟨number, unit⟩
    rw [parseSize, hcmp] at h
    dsimp only at h
    rw [hunit] at h
    dsimp only at h
    cases hx : parseI64 number with
    | none =>
        rw [hx] at h
        cases h
    | some x =>
        rw [hx] at h
        obtain ⟨rfl, rfl⟩ := Prod.mk.inj (Except.ok.inj h)
        obtain ⟨n, hint, hfits, rfl⟩ := parseI64_eq_some_iff.mp hx
        refine ⟨n, unit, sizeText_iff.mpr ⟨rest, number, hcmp, hunit, hint⟩, hfits, ?_⟩
        rw [hvalue hfits, saturate]
        rfl
  · rintro ⟨n, unit, htext, hfits, rfl⟩
    obtain ⟨rest, number, hcmp, hunit, hint⟩ := sizeText_iff.mp htext
    rw [parseSize, hcmp]
    dsimp only
    rw [hunit]
    dsimp only
    rw [parseI64_eq_some_iff.mpr ⟨n, hint, hfits, rfl⟩]
    dsimp only
    rw [hvalue hfits, saturate]
    rfl

/-! ## Comparing -/

/-- Saturation does not show in a comparison: the product fits, or it lies above the range and the
file is not of the largest size unless it is to be larger, or it lies below the range and the file
is smaller than it just by being the largest, or equal to it by being the largest. -/
def SaturationHidden (cmp : Cmp) (n size : ℤ) : Prop :=
  FitsI64 n ∨ 2 ^ 63 ≤ n ∧ (cmp = .gt ∨ size ≠ 2 ^ 63 - 1) ∨
    n < -2 ^ 63 ∧ (cmp = .lt ∧ size = 2 ^ 63 - 1 ∨ cmp = .eq ∧ size ≠ 2 ^ 63 - 1)

lemma toInt_saturate (n : ℤ) : (saturate n).toInt = if FitsI64 n then n else 2 ^ 63 - 1 := by
  unfold saturate
  split_ifs with h
  · exact Int64.toInt_ofInt_of_le (by simpa using h.1) (by simpa using h.2)
  · exact Int64.toInt_maxValue

lemma evalPrim_size_iff (newerMtime : String → Option Int64) (path : String) (lite : LiteMeta)
    (cmp : Cmp) (b : Int64) :
    evalPrim newerMtime path lite (.size cmp b) = true ↔ cmp.Holds lite.size.toInt b.toInt := by
  cases cmp with
  | eq => simp [evalPrim, Cmp.Holds, Int64.toInt_inj]
  | gt => simp [evalPrim, Cmp.Holds, Int64.lt_iff_toInt_lt]
  | lt => simp [evalPrim, Cmp.Holds, Int64.lt_iff_toInt_lt]

/-- Every argument that `parse_size` accepts says one thing, and a file is compared with its product
over the integers exactly when saturation does not show.  The file's size and its other metadata may
be any. -/
theorem size_compare_iff {s : String} {r : Cmp × Int64} (h : parseSize s = .ok r) :
    ∃ cmp n unit, SizeText s cmp n unit ∧
      (∀ cmp' n' unit', SizeText s cmp' n' unit' → cmp' = cmp ∧ n' = n ∧ unit' = unit) ∧
      ∀ newerMtime path lite,
        (evalPrim newerMtime path lite (.size r.1 r.2) = true ↔
            cmp.Holds lite.size.toInt (n * unit)) ↔
          SaturationHidden cmp (n * unit) lite.size.toInt := by
  obtain ⟨n, unit, htext, -, hsaturate⟩ := parseSize_ok_iff.mp h
  refine ⟨r.1, n, unit, htext, fun _ _ _ h' => h'.unique htext, fun newerMtime path lite => ?_⟩
  have hsize := lite.size.toInt_lt
  have hsize' := lite.size.le_toInt
  rw [evalPrim_size_iff, ← hsaturate, toInt_saturate, SaturationHidden]
  by_cases hfits : FitsI64 (n * unit)
  · simp [hfits]
  · -- what is compared with is the largest `i64`
    rw [if_neg hfits]
    unfold FitsI64 at hfits ⊢
    cases r.1 <;> simp only [Cmp.Holds, reduceCtorEq, eq_self, true_or, false_or, or_false,
      true_and, false_and, and_false, and_true] <;> omega

/-- `-size -2G` asks for less than two gigabytes. -/
theorem size_compare_iff_two_giga : ∃ cmp n unit, SizeText "-2G" cmp n unit ∧
    ∀ newerMtime path lite,
      (evalPrim newerMtime path lite (.size .lt (2 * 1024 * 1024 * 1024)) = true ↔
          cmp.Holds lite.size.toInt (n * unit)) ↔
        SaturationHidden cmp (n * unit) lite.size.toInt := by
  obtain ⟨cmp, n, unit, htext, -, hcompare⟩ :=
    @size_compare_iff "-2G" (.lt, 2 * 1024 * 1024 * 1024) (by decide +kernel)
  exact ⟨cmp, n, unit, htext, hcompare⟩

/-- A file of no bytes is larger than -9007199254740993 kilobytes, and is not found. -/
theorem size_saturates_upwards : ∃ r, parseSize "+-9007199254740993k" = .ok r ∧
    SizeText "+-9007199254740993k" .gt (-9007199254740993) 1024 ∧
    evalPrim (fun _ => none) "a" ⟨false, 0, 0⟩ (.size r.1 r.2) = false ∧
    Cmp.Holds .gt (0 : Int64).toInt (-9007199254740993 * 1024) := by
  refine ⟨(.gt, Int64.maxValue), by decide +kernel, ?_, by decide, by simp [Cmp.Holds]⟩
  exact ⟨['+'], "-9007199254740993".toList, ['k'], rfl, .plus,
    ⟨"9007199254740993".toList, by decide, by simp, Or.inl ⟨rfl, by decide +kernel⟩⟩, .kilo,
    by simp⟩

end Bfs

end DeepFinder
