import DeepFinder.Core.Basic

/-!
# Slices of a string

`&s[i..j]` takes byte offsets and panics when one of them is not the offset of a character
(`strSlice`).  A byte that can start a character starts one wherever it occurs in UTF-8, so bytes
cut before such a byte are two strings (`exists_append_of_utf8`): an ASCII byte in front of a text
or at its end is a character of its own, and the bytes of a text inside another one are a substring.
-/

namespace DeepFinder

open ByteString

/-! ## Strings and their bytes -/

lemma utf8_ofList (cs : List Char) :
    utf8 (String.ofList cs) = cs.flatMap String.utf8EncodeChar := by
  rw [utf8_eq_flatMap, String.toList_ofList]

lemma length_utf8 (s : String) : (utf8 s).length = (s.toList.map Char.utf8Size).sum := by
  simp [utf8_eq_flatMap, List.length_flatMap]

lemma eq_empty_of_length_utf8 {s : String} (h : (utf8 s).length = 0) : s = "" :=
  utf8_injective (List.eq_nil_of_length_eq_zero h)

lemma append_inj_of_length_utf8 {a b x y : String} (h : a ++ x = b ++ y)
    (hlen : (utf8 a).length = (utf8 b).length) : a = b ∧ x = y := by
  have hbytes := congrArg utf8 h
  rw [utf8_append, utf8_append] at hbytes
  obtain ⟨hab, hxy⟩ := List.append_inj hbytes hlen
  exact ⟨utf8_injective hab, utf8_injective hxy⟩

/-! ## Character boundaries in UTF-8 -/

lemma prefix_of_utf8_append {s t : List Char} {y : Bytes}
    (h : s.flatMap String.utf8EncodeChar ++ y = t.flatMap String.utf8EncodeChar) : s <+: t := by
  refine List.isPrefix_of_utf8Encode_append_eq_utf8Encode y.toByteArray ?_
  rw [List.utf8Encode, List.utf8Encode, ← List.toByteArray_append, h]

/-- No character starts inside the encoding of another one. -/
lemma not_inside_char {c : Char} {x y z : Bytes} {b : UInt8} (hb : b.IsUTF8FirstByte) (hx : x ≠ [])
    (h : x ++ b :: y = String.utf8EncodeChar c ++ z) :
    (String.utf8EncodeChar c).length ≤ x.length := by
  by_contra hlt
  have hpos : 0 < x.length := List.length_pos_iff.mpr hx
  have hget : b = (String.utf8EncodeChar c)[x.length] := by
    have hat : (x ++ b :: y)[x.length]? = (String.utf8EncodeChar c ++ z)[x.length]? := by rw [h]
    rw [List.getElem?_append_right le_rfl, Nat.sub_self, List.getElem?_cons_zero,
      List.getElem?_append_left (by omega), List.getElem?_eq_getElem (by omega)] at hat
    exact Option.some.inj hat
  rw [hget, UInt8.isUTF8FirstByte_getElem_utf8EncodeChar] at hb
  omega

lemma isUTF8FirstByte_head {s : String} {b : UInt8} (hb : b ∈ (utf8 s).head?) :
    b.IsUTF8FirstByte := by
  rw [utf8_eq_flatMap] at hb
  rcases hs : s.toList with _ | ⟨c, cs⟩
  · simp [hs] at hb
  · have hpos : 0 < (String.utf8EncodeChar c).length :=
      List.length_pos_iff.mpr String.utf8EncodeChar_ne_nil
    rw [hs, List.flatMap_cons, List.head?_append_of_ne_nil _ String.utf8EncodeChar_ne_nil,
      List.head?_eq_getElem?, List.getElem?_eq_getElem hpos] at hb
    obtain rfl := Option.some.inj hb
    simp

/-- The bytes of a string, cut before a byte that can start a character, are two strings. -/
lemma exists_append_of_utf8 {t : String} {x y : Bytes} (h : x ++ y = utf8 t)
    (hy : ∀ b ∈ y.head?, b.IsUTF8FirstByte) :
    ∃ a b : String, t = a ++ b ∧ utf8 a = x ∧ utf8 b = y := by
  have hchars : ∀ (cs : List Char) (x : Bytes), x ++ y = cs.flatMap String.utf8EncodeChar →
      ∃ as bs, cs = as ++ bs ∧ as.flatMap String.utf8EncodeChar = x ∧
        bs.flatMap String.utf8EncodeChar = y := by
    intro cs
    induction cs with
    | nil =>
        intro x hxy
        obtain ⟨rfl, rfl⟩ := List.append_eq_nil_iff.mp hxy
        exact ⟨[], [], rfl, rfl, rfl⟩
    | cons c cs ih =>
        intro x hxy
        by_cases hx : x = []
        · exact ⟨[], c :: cs, rfl, hx.symm, by rw [← hxy, hx, List.nil_append]⟩
        · -- the first character stands before the cut
          have hle : (String.utf8EncodeChar c).length ≤ x.length := by
            rcases y with _ | ⟨b, y⟩
            · rw [List.append_nil] at hxy
              rw [hxy, List.flatMap_cons, List.length_append]
              exact Nat.le_add_right ..
            · rw [List.flatMap_cons] at hxy
              exact not_inside_char (hy b rfl) hx hxy
          rw [List.flatMap_cons] at hxy
          obtain ⟨x', rfl⟩ : String.utf8EncodeChar c <+: x := by
            have hpre : String.utf8EncodeChar c <+: x ++ y := ⟨_, hxy.symm⟩
            exact List.prefix_of_prefix_length_le hpre (List.prefix_append x _) hle
          rw [List.append_assoc] at hxy
          obtain ⟨as, bs, rfl, rfl, hbs⟩ := ih x' (List.append_cancel_left hxy)
          exact ⟨c :: as, bs, rfl, by rw [List.flatMap_cons], hbs⟩
  rw [utf8_eq_flatMap] at h
  obtain ⟨as, bs, ht, has, hbs⟩ := hchars t.toList x h
  refine ⟨String.ofList as, String.ofList bs, ?_, ?_, ?_⟩
  · rw [← String.toList_inj, ht]
    simp
  · rw [utf8_ofList, has]
  · rw [utf8_ofList, hbs]

/-- The bytes of a string inside another one stand there as characters. -/
lemma exists_append_of_utf8_append {s t : String} {x y : Bytes} (hs : s ≠ "")
    (h : x ++ (utf8 s ++ y) = utf8 t) :
    ∃ a b : String, t = a ++ (s ++ b) ∧ utf8 a = x ∧ utf8 b = y := by
  have hne : utf8 s ≠ [] := fun hnil => hs (eq_empty_of_length_utf8 (by rw [hnil]; rfl))
  obtain ⟨a, r, rfl, rfl, hr⟩ := exists_append_of_utf8 h (by
    rw [List.head?_append_of_ne_nil _ hne]
    exact fun b hb => isUTF8FirstByte_head hb)
  have hpre : s.toList <+: r.toList := by
    rw [utf8_eq_flatMap, utf8_eq_flatMap] at hr
    exact prefix_of_utf8_append hr.symm
  obtain ⟨bs, hbs⟩ := hpre
  obtain rfl : r = s ++ String.ofList bs := by
    rw [← String.toList_inj, ← hbs]
    simp
  rw [utf8_append] at hr
  exact ⟨a, String.ofList bs, rfl, rfl, List.append_cancel_left hr⟩

lemma toList_infix_of_utf8 {s t : String} (h : utf8 s <:+: utf8 t) : s.toList <:+: t.toList := by
  by_cases hs : s = ""
  · subst hs
    exact List.nil_infix
  · obtain ⟨x, y, hxy⟩ := h
    rw [List.append_assoc] at hxy
    obtain ⟨a, b, rfl, -, -⟩ := exists_append_of_utf8_append hs hxy
    exact ⟨a.toList, b.toList, by simp⟩

/-! ## ASCII characters at the ends -/

lemma utf8EncodeChar_ascii {c : Char} (hc : c.utf8Size = 1) :
    String.utf8EncodeChar c = [c.val.toUInt8] := String.utf8EncodeChar_eq_singleton hc

lemma head?_utf8_iff {s : String} {c : Char} (hc : c.utf8Size = 1) :
    (utf8 s).head? = some c.val.toUInt8 ↔ s.toList.head? = some c := by
  have hcode : [c].flatMap String.utf8EncodeChar = [c.val.toUInt8] := by
    simp [utf8EncodeChar_ascii hc]
  constructor
  · intro h
    obtain ⟨y, hy⟩ := List.head?_eq_some_iff.mp h
    have hpre : [c] <+: s.toList := by
      refine @prefix_of_utf8_append _ _ y ?_
      rw [hcode, ← utf8_eq_flatMap, hy, List.singleton_append]
    obtain ⟨cs, hcs⟩ := hpre
    simp [← hcs]
  · intro h
    obtain ⟨cs, hcs⟩ := List.head?_eq_some_iff.mp h
    simp [utf8_eq_flatMap, hcs, utf8EncodeChar_ascii hc]

lemma getLast?_utf8_iff {s : String} {c : Char} (hc : c.utf8Size = 1) :
    (utf8 s).getLast? = some c.val.toUInt8 ↔ s.toList.getLast? = some c := by
  have hcode : utf8 (String.ofList [c]) = [c.val.toUInt8] := by
    rw [utf8_ofList, List.flatMap_singleton, utf8EncodeChar_ascii hc]
  constructor
  · intro h
    obtain ⟨x, hx⟩ := List.getLast?_eq_some_iff.mp h
    rw [← hcode, ← List.append_nil (utf8 (String.ofList [c]))] at hx
    have hne : String.ofList [c] ≠ "" := by simp [← String.toList_inj]
    obtain ⟨a, b, rfl, -, hb⟩ := exists_append_of_utf8_append hne hx.symm
    obtain rfl : b = "" := eq_empty_of_length_utf8 (by rw [hb]; rfl)
    simp
  · intro h
    obtain ⟨cs, hcs⟩ := List.getLast?_eq_some_iff.mp h
    simp [utf8_eq_flatMap, hcs, utf8EncodeChar_ascii hc]

/-! ## Slicing -/

/-- Cuts a text at a byte offset; `none` where no character starts. -/
def cutAt : ℕ → List Char → Option (List Char × List Char)
  | 0, cs => some ([], cs)
  | _ + 1, [] => none
  | n + 1, c :: cs =>
      if c.utf8Size ≤ n + 1 then
        (cutAt (n + 1 - c.utf8Size) cs).map fun r => (c :: r.1, r.2)
      else none

/-- `&s[i..j]`. -/
def strSlice (s : String) (i j : ℕ) : Res String :=
  if i ≤ j then
    match (cutAt i s.toList).bind fun r => cutAt (j - i) r.2 with
    | some (piece, _) => .ok (String.ofList piece)
    | none => .error .panicked
  else .error .panicked

lemma cutAt_eq_some_iff {n : ℕ} {cs as bs : List Char} :
    cutAt n cs = some (as, bs) ↔ cs = as ++ bs ∧ (as.map Char.utf8Size).sum = n := by
  have hpos : ∀ {c : Char}, 0 < c.utf8Size := Char.utf8Size_pos _
  constructor
  · intro h
    induction n, cs using cutAt.induct generalizing as bs with
    | case1 cs =>
        rw [cutAt] at h
        obtain ⟨rfl, rfl⟩ := Prod.mk.inj (Option.some.inj h)
        exact ⟨rfl, rfl⟩
    | case2 n => cases h
    | case3 n c cs hle ih =>
        rw [cutAt, if_pos hle] at h
        obtain ⟨r, hr, heq⟩ := Option.map_eq_some_iff.mp h
        obtain ⟨rfl, rfl⟩ := Prod.mk.inj heq
        obtain ⟨rfl, hsum⟩ := ih hr
        refine ⟨rfl, ?_⟩
        rw [List.map_cons, List.sum_cons, hsum]
        omega
    | case4 n c cs hle =>
        rw [cutAt, if_neg hle] at h
        cases h
  · rintro ⟨rfl, rfl⟩
    induction as with
    | nil =>
        unfold cutAt
        simp
    | cons c as ih =>
        obtain ⟨n, hn⟩ := Nat.exists_eq_add_one_of_ne_zero (@hpos c).ne'
        rw [List.map_cons, List.sum_cons, List.cons_append, hn]
        rw [show n + 1 + (as.map Char.utf8Size).sum = n + (as.map Char.utf8Size).sum + 1 by omega,
          cutAt, if_pos (by omega),
          show n + (as.map Char.utf8Size).sum + 1 - c.utf8Size = (as.map Char.utf8Size).sum by omega,
          ih]
        rfl

/-- A slice is a part of the string between two characters. -/
theorem strSlice_eq_ok_iff {s t : String} {i j : ℕ} : strSlice s i j = .ok t ↔
    ∃ a b : String, s = a ++ (t ++ b) ∧ (utf8 a).length = i ∧
      (utf8 a).length + (utf8 t).length = j := by
  unfold strSlice
  constructor
  · intro h
    split_ifs at h with hij
    split at h
    · rename_i piece rest hcut
      obtain ⟨⟨as, r⟩, has, hpiece⟩ := Option.bind_eq_some_iff.mp hcut
      obtain rfl := Except.ok.inj h
      obtain ⟨hs, hi⟩ := cutAt_eq_some_iff.mp has
      obtain ⟨rfl, hj⟩ := cutAt_eq_some_iff.mp hpiece
      refine ⟨String.ofList as, String.ofList rest, ?_, ?_, ?_⟩
      · rw [← String.toList_inj, hs]
        simp
      · simpa [length_utf8] using hi
      · simp only [length_utf8, String.toList_ofList]
        omega
    · cases h
  · rintro ⟨a, b, rfl, rfl, rfl⟩
    have ha : cutAt (utf8 a).length (a ++ (t ++ b)).toList = some (a.toList, (t ++ b).toList) :=
      cutAt_eq_some_iff.mpr ⟨by simp, (length_utf8 a).symm⟩
    have ht : cutAt (utf8 t).length (t ++ b).toList = some (t.toList, b.toList) :=
      cutAt_eq_some_iff.mpr ⟨by simp, (length_utf8 t).symm⟩
    rw [if_pos (Nat.le_add_right ..), Nat.add_sub_cancel_left, ha, Option.bind_some, ht]
    simp

end DeepFinder
