import DeepFinder.Content.Matches
import DeepFinder.Core.CaseSensitive
import Mathlib.Data.List.Lemmas

/-!
# Highlighting a match

`highlight` looks the lowercased query up in the lowercased path and marks the same byte range of
the path itself.  It compares the total lengths first, but a character that lowercases to more bytes
and one that lowercases to fewer cancel each other out: between them the offsets do not carry over.

`highlight_faithful` has two parts.  The range is a match whenever no character of the path changes
its length and a capital sigma, whose lowercase form depends on its neighbours, plays no part in
the comparison (`HighlightSafe`).  And nothing weaker than `KeepsLengths` will do for a path: one
that passes the check of the total lengths without it has a query on which the wrong range is
marked, or the slicing panics.  That part leaves out paths with a capital sigma, and paths with an
escape character in them, of which two different pieces can look alike once they are marked.
-/

namespace DeepFinder

open ByteString

/-- `C_MATCH`: bold red. -/
def cMatch : String := "\x1b[1;31m"

/-- `C_RESET`. -/
def cReset : String := "\x1b[0m"

/-- The path with the byte range `i..end` marked. -/
def markRange (path : String) (i stop : ℕ) : Res String := do
  let before ← strSlice path 0 i
  let piece ← strSlice path i stop
  let behind ← strSlice path stop (utf8 path).length
  .ok (before ++ cMatch ++ piece ++ cReset ++ behind)

/-- `highlight`. -/
def highlight (path qLower query : String) (caseSensitive color : Bool) : Res String :=
  if !color || query.isEmpty then .ok path
  else if caseSensitive then
    match memmemFind (utf8 path) (utf8 query) with
    | some i => markRange path i (i + (utf8 query).length)
    | none => .ok path
  else
    let pl := lowerBytes path
    if pl.length ≠ (utf8 path).length then .ok path
    else
      match memmemFind pl (utf8 qLower) with
      | some i => markRange path i (i + (utf8 qLower).length)
      | none => .ok path

/-- Three parts of a path, the one in the middle marked. -/
def marked (a m b : String) : String := a ++ cMatch ++ m ++ cReset ++ b

/-- What is shown is the path, or the path with a match of the query marked.  The text between the
marks is a text of its own here and is lowercased as such, whatever stands around it in the path. -/
def Faithful (path query : String) (caseSensitive : Bool) (shown : Res String) : Prop :=
  shown = .ok path ∨ ∃ a m b, path = a ++ (m ++ b) ∧ shown = .ok (marked a m b) ∧
    if caseSensitive then m = query else toLowercase m = toLowercase query

/-! ## Marking a range -/

/-- A range is marked when it starts and ends between characters. -/
lemma markRange_eq_ok_iff {path r : String} {i n : ℕ} : markRange path i (i + n) = .ok r ↔
    ∃ a m b, path = a ++ (m ++ b) ∧ (utf8 a).length = i ∧ (utf8 m).length = n ∧
      r = marked a m b := by
  unfold markRange
  simp only [bind_eq_ok_iff]
  constructor
  · rintro ⟨a, ha, m, hm, b, hb, hr⟩
    obtain ⟨x, y, rfl, hx, hi⟩ := strSlice_eq_ok_iff.mp ha
    obtain ⟨a', z, hmid, ha', hn⟩ := strSlice_eq_ok_iff.mp hm
    obtain ⟨w, v, hend, hw, hlen⟩ := strSlice_eq_ok_iff.mp hb
    obtain rfl := eq_empty_of_length_utf8 hx
    rw [hx, Nat.zero_add] at hi
    rw [String.empty_append] at hmid hend hlen
    -- the three pieces stand one behind the other and fill the path
    obtain ⟨rfl, rfl⟩ := append_inj_of_length_utf8 hmid (hi.trans ha'.symm)
    rw [← String.append_assoc] at hend
    have hcut : (utf8 (a ++ m)).length = (utf8 w).length := by
      rw [utf8_append, List.length_append]
      omega
    obtain ⟨rfl, rfl⟩ := append_inj_of_length_utf8 hend hcut
    have hv : (utf8 v).length = 0 := by
      simp only [utf8_append, List.length_append] at hlen
      omega
    obtain rfl := eq_empty_of_length_utf8 hv
    rw [String.append_empty]
    exact ⟨a, m, b, String.empty_append, hi, by omega, (Except.ok.inj hr).symm⟩
  · rintro ⟨a, m, b, rfl, rfl, rfl, rfl⟩
    refine ⟨a, ?_, m, ?_, b, ?_, rfl⟩
    · exact strSlice_eq_ok_iff.mpr ⟨"", m ++ b, by simp, rfl, by simp [utf8]⟩
    · exact strSlice_eq_ok_iff.mpr ⟨a, b, rfl, rfl, rfl⟩
    · refine strSlice_eq_ok_iff.mpr ⟨a ++ m, "", ?_, ?_, ?_⟩
      · rw [String.append_empty, String.append_assoc]
      · rw [utf8_append, List.length_append]
      · rw [utf8_append, utf8_append, utf8_append, List.length_append, List.length_append,
          List.length_append, Nat.add_assoc]

/-! ## What a marked range shows -/

lemma marked_ne {a m b : String} : marked a m b ≠ a ++ (m ++ b) := by
  intro h
  have hlen := congrArg (fun s => s.toList.length) h
  simp only [marked, cMatch, cReset, String.toList_append, List.length_append] at hlen
  have hmatch : "\x1b[1;31m".toList.length = 7 := by decide
  omega

/-- What a marked range shows. -/
lemma faithful_markRange_iff {path query : String} {caseSensitive : Bool} {i n : ℕ} :
    Faithful path query caseSensitive (markRange path i (i + n)) ↔
      ∃ a m b, path = a ++ (m ++ b) ∧ (utf8 a).length = i ∧ (utf8 m).length = n ∧
        ∃ a' m' b', path = a' ++ (m' ++ b') ∧ marked a' m' b' = marked a m b ∧
          if caseSensitive then m' = query else toLowercase m' = toLowercase query := by
  constructor
  · rintro (hplain | ⟨a', m', b', hpath, hshown, hmatch⟩)
    · obtain ⟨a, m, b, rfl, -, -, hmarked⟩ := markRange_eq_ok_iff.mp hplain
      exact absurd hmarked.symm marked_ne
    · obtain ⟨a, m, b, hcut, hi, hn, hmarked⟩ := markRange_eq_ok_iff.mp hshown
      exact ⟨a, m, b, hcut, hi, hn, a', m', b', hpath, hmarked, hmatch⟩
  · rintro ⟨a, m, b, hcut, hi, hn, a', m', b', hpath, hmarked, hmatch⟩
    refine Or.inr ⟨a', m', b', hpath, ?_, hmatch⟩
    exact markRange_eq_ok_iff.mpr ⟨a, m, b, hcut, hi, hn, hmarked⟩

/-- A text is found as characters. -/
lemma exists_append_of_find {hay needle : String} (hne : needle ≠ "") {i : ℕ}
    (h : memmemFind (utf8 hay) (utf8 needle) = some i) :
    ∃ a b, hay = a ++ (needle ++ b) ∧ (utf8 a).length = i := by
  have hat := (memmemFind_some h).1
  have hle : i ≤ (utf8 hay).length :=
    le_trans (Nat.le_add_right ..) (hat.le_length fun hnil =>
      hne (eq_empty_of_length_utf8 (by rw [hnil]; rfl)))
  obtain ⟨y, hy⟩ := hat
  have hbytes : (utf8 hay).take i ++ (utf8 needle ++ y) = utf8 hay := by
    rw [hy, List.take_append_drop]
  obtain ⟨a, b, hcut, ha, -⟩ := exists_append_of_utf8_append hne hbytes
  exact ⟨a, b, hcut, by rw [ha, List.length_take, Nat.min_eq_left hle]⟩

/-! ## Paths whose characters keep their lengths -/

/-- No character changes its length in bytes when it is lowercased. -/
def KeepsLengths (cs : List Char) : Prop :=
  ∀ c ∈ cs, ((lowerChar c).map Char.utf8Size).sum = c.utf8Size

instance (cs : List Char) : Decidable (KeepsLengths cs) :=
  List.decidableBAll _ cs

/-- What a character that keeps its length becomes: the capital sigma one of the two small ones, by
what stands around it, any other character its lowercase form. -/
def BecomesChar (c d : Char) : Prop :=
  d.utf8Size = c.utf8Size ∧ if c = 'Σ' then d = 'σ' ∨ d = 'ς' else lowerChar c = [d]

lemma lowerChar_eq_singleton {c : Char}
    (h : ((lowerChar c).map Char.utf8Size).sum = c.utf8Size) : ∃ d, lowerChar c = [d] := by
  unfold lowerChar at h ⊢
  split_ifs at h ⊢ with hdot
  · subst hdot
    exact absurd h (by decide)
  · split <;> exact ⟨_, rfl⟩

lemma forall₂_lowerLoop {cs : List Char} (h : KeepsLengths cs) (before : List Char) :
    List.Forall₂ BecomesChar cs (lowerLoop before cs) := by
  induction cs generalizing before with
  | nil => exact .nil
  | cons c cs ih =>
      have hrest := ih (fun x hx => h x (List.mem_cons_of_mem _ hx)) (c :: before)
      have hc := h c (List.mem_cons_self ..)
      rw [lowerLoop]
      by_cases hsigma : c = 'Σ'
      · rw [if_pos hsigma]
        refine .cons ⟨?_, ?_⟩ hrest
        · unfold mapUppercaseSigma
          rw [hsigma]
          split <;> rfl
        · rw [if_pos hsigma]
          unfold mapUppercaseSigma
          split
          · exact Or.inr rfl
          · exact Or.inl rfl
      · obtain ⟨d, hd⟩ := lowerChar_eq_singleton hc
        rw [if_neg hsigma, hd]
        rw [hd] at hc
        exact .cons ⟨by simpa using hc, by rwa [if_neg hsigma]⟩ hrest

lemma sum_utf8Size_of_becomes {cs ds : List Char} (h : List.Forall₂ BecomesChar cs ds) :
    (cs.map Char.utf8Size).sum = (ds.map Char.utf8Size).sum := by
  induction h with
  | nil => rfl
  | cons hcd _ ih => simp only [List.map_cons, List.sum_cons, ih, hcd.1]

/-- Without a capital sigma the text has become its own lowercase form. -/
lemma lowerLoop_of_becomes {cs ds : List Char} (h : List.Forall₂ BecomesChar cs ds)
    (hsigma : 'Σ' ∉ cs) : lowerLoop [] cs = ds := by
  have hself := lowerLoop_eq_flatMap hsigma [] []
  rw [List.append_nil, lowerLoop, List.append_nil] at hself
  rw [hself]
  clear hself
  induction h with
  | nil => rfl
  | @cons c d cs ds hcd _ ih =>
      have hc : c ≠ 'Σ' := fun heq => hsigma (heq ▸ List.mem_cons_self ..)
      have hd := hcd.2
      rw [if_neg hc] at hd
      rw [List.flatMap_cons, hd, ih fun hmem => hsigma (List.mem_cons_of_mem _ hmem)]
      rfl

/-- A capital sigma has become a small one. -/
lemma sigma_mem_of_becomes {cs ds : List Char} (h : List.Forall₂ BecomesChar cs ds)
    (hsigma : 'Σ' ∈ cs) : 'σ' ∈ ds ∨ 'ς' ∈ ds := by
  induction h with
  | nil => cases hsigma
  | @cons c d cs ds hcd _ ih =>
      rcases List.mem_cons.mp hsigma with rfl | hmem
      · have hd := hcd.2
        rw [if_pos rfl] at hd
        rcases hd with rfl | rfl
        · exact Or.inl (List.mem_cons_self ..)
        · exact Or.inr (List.mem_cons_self ..)
      · exact (ih hmem).imp (List.mem_cons_of_mem _) (List.mem_cons_of_mem _)

/-- The inputs for which the guard of `highlight` is as good as the comment at it: there is nothing
to look up, or no character of the path changes its length, and either the path has no capital
sigma or the lowercased query has neither form of the small one. -/
def HighlightSafe (path query : String) (caseSensitive : Bool) : Prop :=
  caseSensitive = true ∨ query = "" ∨ (lowerBytes path).length ≠ (utf8 path).length ∨
    ¬ lowerBytes query <:+: lowerBytes path ∨
    (KeepsLengths path.toList ∧ ('Σ' ∉ path.toList ∨
      'σ' ∉ (toLowercase query).toList ∧ 'ς' ∉ (toLowercase query).toList))

/-- In a path whose characters keep their lengths the offsets carry over. -/
lemma faithful_of_keepsLengths {path query : String} (hquery : query ≠ "")
    (hkeeps : KeepsLengths path.toList) (hsigma : 'Σ' ∉ path.toList ∨
      'σ' ∉ (toLowercase query).toList ∧ 'ς' ∉ (toLowercase query).toList) {i : ℕ}
    (hfind : memmemFind (lowerBytes path) (lowerBytes query) = some i) :
    Faithful path query false (markRange path i (i + (lowerBytes query).length)) := by
  obtain ⟨A, B, hcut, hi⟩ := exists_append_of_find (toLowercase_ne_empty hquery) hfind
  have hall := forall₂_lowerLoop hkeeps []
  have hchars := congrArg String.toList hcut
  rw [toLowercase, String.toList_ofList, String.toList_append, String.toList_append] at hchars
  rw [hchars] at hall
  -- the path falls into the pieces that have become the three parts
  obtain ⟨as, rest, hpath, ha, hrest⟩ : ∃ as rest, path.toList = as ++ rest ∧
      List.Forall₂ BecomesChar as A.toList ∧
      List.Forall₂ BecomesChar rest ((toLowercase query).toList ++ B.toList) :=
    ⟨_, _, (List.take_append_drop A.toList.length _).symm,
      List.forall₂_take_append _ _ _ hall, List.forall₂_drop_append _ _ _ hall⟩
  obtain ⟨ms, bs, rfl, hm, -⟩ : ∃ ms bs, rest = ms ++ bs ∧
      List.Forall₂ BecomesChar ms (toLowercase query).toList ∧
      List.Forall₂ BecomesChar bs B.toList :=
    ⟨_, _, (List.take_append_drop (toLowercase query).toList.length _).symm,
      List.forall₂_take_append _ _ _ hrest, List.forall₂_drop_append _ _ _ hrest⟩
  have hplain : 'Σ' ∉ ms := by
    intro hmem
    rcases hsigma with hnone | ⟨hsmall, hfinal⟩
    · exact hnone (by simp [hpath, hmem])
    · rcases sigma_mem_of_becomes hm hmem with h | h
      · exact hsmall h
      · exact hfinal h
  have hmatch : toLowercase (String.ofList ms) = toLowercase query := by
    rw [← String.toList_inj, ← lowerLoop_of_becomes hm hplain, toLowercase, String.toList_ofList,
      String.toList_ofList]
  have hpieces : path = String.ofList as ++ (String.ofList ms ++ String.ofList bs) := by
    rw [← String.toList_inj, hpath]
    simp
  refine faithful_markRange_iff.mpr ⟨_, _, _, hpieces, ?_, ?_, _, _, _, hpieces, rfl, by simpa⟩
  · rw [← hi, length_utf8, length_utf8, String.toList_ofList, sum_utf8Size_of_becomes ha]
  · rw [length_utf8, length_utf8, String.toList_ofList, sum_utf8Size_of_becomes hm]

lemma faithful_of_highlightSafe {path query : String} {caseSensitive : Bool}
    (h : HighlightSafe path query caseSensitive) :
    Faithful path query caseSensitive
      (highlight path (toLowercase query) query caseSensitive true) := by
  by_cases hquery : query = ""
  · simp [highlight, Faithful, hquery]
  have hempty : query.isEmpty = false := by simpa using hquery
  cases caseSensitive with
  | true =>
      simp only [highlight, hempty, Bool.not_true, Bool.or_false, Bool.false_eq_true, if_false,
        if_true]
      split
      · obtain ⟨a, b, hcut, hi⟩ := exists_append_of_find hquery ‹_›
        exact faithful_markRange_iff.mpr
          ⟨a, query, b, hcut, hi, rfl, a, query, b, hcut, rfl, by simp⟩
      · exact Or.inl rfl
  | false =>
      simp only [highlight, hempty, Bool.not_true, Bool.or_false, Bool.false_eq_true, if_false]
      by_cases hlen : (lowerBytes path).length ≠ (utf8 path).length
      · rw [if_pos hlen]
        exact Or.inl rfl
      rw [if_neg hlen]
      cases hfind : memmemFind (lowerBytes path) (lowerBytes query) with
      | none => exact Or.inl rfl
      | some i =>
          have hoccurs : lowerBytes query <:+: lowerBytes path :=
            containsSub_iff.mp (by rw [← isSome_memmemFind, hfind]; rfl)
          rcases h with h | h | h | h | ⟨hkeeps, hsigma⟩
          · cases h
          · exact absurd h hquery
          · exact absurd h hlen
          · exact absurd hoccurs h
          · exact faithful_of_keepsLengths hquery hkeeps hsigma hfind

/-! ## Paths with a character that does not -/

/-- Two texts are cut in one way before the first occurrence of an element. -/
lemma append_cons_inj_of_not_mem {α : Type} {x : α} {as bs cs ds : List α} (ha : x ∉ as)
    (hb : x ∉ bs) (h : as ++ x :: cs = bs ++ x :: ds) : as = bs ∧ cs = ds := by
  induction as generalizing bs with
  | nil =>
      cases bs with
      | nil => exact ⟨rfl, (List.cons.inj h).2⟩
      | cons b bs => exact absurd (List.cons.inj h).1 fun heq => hb (by simp [heq])
  | cons a as ih =>
      cases bs with
      | nil => exact absurd (List.cons.inj h).1 fun heq => ha (by simp [heq])
      | cons b bs =>
          obtain ⟨rfl, htail⟩ := List.cons.inj h
          obtain ⟨rfl, hcd⟩ := ih (fun hmem => ha (List.mem_cons_of_mem _ hmem))
            (fun hmem => hb (List.mem_cons_of_mem _ hmem)) htail
          exact ⟨rfl, hcd⟩

/-- The marks of a path without escape characters tell where they stand. -/
lemma marked_inj {path a m b a' m' b' : String} (hplain : '\x1b' ∉ path.toList)
    (h : path = a ++ (m ++ b)) (h' : path = a' ++ (m' ++ b'))
    (hmarked : marked a' m' b' = marked a m b) : m' = m := by
  have hmatch : cMatch.toList = '\x1b' :: "[1;31m".toList := rfl
  have hreset : cReset.toList = '\x1b' :: "[0m".toList := rfl
  have hparts : '\x1b' ∉ a.toList ∧ '\x1b' ∉ m.toList ∧ '\x1b' ∉ b.toList := by
    simpa [h] using hplain
  have hparts' : '\x1b' ∉ a'.toList ∧ '\x1b' ∉ m'.toList ∧ '\x1b' ∉ b'.toList := by
    simpa [h'] using hplain
  have hchars := congrArg String.toList hmarked
  simp only [marked, String.toList_append, hmatch, hreset, List.append_assoc, List.cons_append]
    at hchars
  obtain ⟨-, htail⟩ := append_cons_inj_of_not_mem hparts'.1 hparts.1 hchars
  have hpiece := List.append_cancel_left htail
  exact String.toList_inj.mp (append_cons_inj_of_not_mem hparts'.2.1 hparts.2.1 hpiece).1

/-- Of two beginnings of a text, the shorter has the shorter lowercase form. -/
lemma eq_of_flatMap_lowerChar_eq {as bs rest rest' : List Char} (h : as ++ rest = bs ++ rest')
    (hlower : as.flatMap lowerChar = bs.flatMap lowerChar) : as = bs := by
  induction as generalizing bs with
  | nil =>
      cases bs with
      | nil => rfl
      | cons b bs =>
          rw [List.flatMap_nil, List.flatMap_cons] at hlower
          exact absurd (List.append_eq_nil_iff.mp hlower.symm).1 (lowerChar_ne_nil b)
  | cons a as ih =>
      cases bs with
      | nil =>
          rw [List.flatMap_nil, List.flatMap_cons] at hlower
          exact absurd (List.append_eq_nil_iff.mp hlower).1 (lowerChar_ne_nil a)
      | cons b bs =>
          obtain ⟨rfl, hrest⟩ := List.cons.inj h
          rw [List.flatMap_cons, List.flatMap_cons] at hlower
          rw [ih hrest (List.append_cancel_left hlower)]

/-- The first character that changes its length. -/
lemma exists_first_change {cs : List Char} (h : ¬ KeepsLengths cs) :
    ∃ as c bs, cs = as ++ c :: bs ∧ KeepsLengths as ∧
      ((lowerChar c).map Char.utf8Size).sum ≠ c.utf8Size := by
  induction cs with
  | nil => exact absurd (fun c hc => absurd hc List.not_mem_nil) h
  | cons c cs ih =>
      by_cases hc : ((lowerChar c).map Char.utf8Size).sum = c.utf8Size
      · have hrest : ¬ KeepsLengths cs := by
          intro hkeeps
          exact h fun x hx => (List.mem_cons.mp hx).elim (fun heq => heq ▸ hc) (hkeeps x)
        obtain ⟨as, d, bs, rfl, has, hd⟩ := ih hrest
        exact ⟨c :: as, d, bs, rfl,
          fun x hx => (List.mem_cons.mp hx).elim (fun heq => heq ▸ hc) (has x), hd⟩
      · exact ⟨[], c, cs, rfl, fun x hx => absurd hx List.not_mem_nil, hc⟩

lemma toList_toLowercase {s : String} (hsigma : 'Σ' ∉ s.toList) :
    (toLowercase s).toList = s.toList.flatMap lowerChar := by
  have hself := lowerLoop_eq_flatMap hsigma [] []
  rw [List.append_nil, lowerLoop, List.append_nil] at hself
  rw [toLowercase, String.toList_ofList, hself]

/-- The query up to the first character that changes its length is marked wrongly. -/
lemma exists_not_faithful {path : String} (hsigma : 'Σ' ∉ path.toList)
    (hplain : '\x1b' ∉ path.toList) (hlen : (lowerBytes path).length = (utf8 path).length)
    (h : ¬ KeepsLengths path.toList) :
    ∃ query, ¬ Faithful path query false (highlight path (toLowercase query) query false true) := by
  obtain ⟨as, c, bs, hpath, has, hc⟩ := exists_first_change h
  have hsplit : path.toList = (as ++ [c]) ++ bs := by rw [hpath]; simp
  have hparts : 'Σ' ∉ as ++ [c] := fun hmem => hsigma (hsplit ▸ List.mem_append_left _ hmem)
  obtain ⟨query, hq⟩ : ∃ query : String, query.toList = as ++ [c] :=
    ⟨String.ofList (as ++ [c]), String.toList_ofList⟩
  have hquery : query ≠ "" := by
    rintro rfl
    simp at hq
  have hlower : (toLowercase query).toList = (as ++ [c]).flatMap lowerChar := by
    rw [toList_toLowercase (by rwa [hq]), hq]
  -- the lowercased path starts with the lowercased query
  have hstart : toLowercase path = toLowercase query ++ String.ofList (bs.flatMap lowerChar) := by
    rw [← String.toList_inj, toList_toLowercase hsigma, String.toList_append, hlower, hsplit,
      List.flatMap_append, String.toList_ofList]
  have hfind : memmemFind (lowerBytes path) (lowerBytes query) = some 0 := by
    refine memmemFind_start ⟨utf8 (String.ofList (bs.flatMap lowerChar)), ?_⟩
    rw [← utf8_append, ← hstart]
  refine ⟨query, fun hfaithful => ?_⟩
  have hempty : query.isEmpty = false := by simpa using hquery
  have hmark : highlight path (toLowercase query) query false true =
      markRange path 0 (0 + (lowerBytes query).length) := by
    simp [highlight, hempty, hlen, hfind]
  rw [hmark, faithful_markRange_iff] at hfaithful
  obtain ⟨a, m, b, hcut, ha, hm, a', m', b', hcut', hmarked, hmatch⟩ := hfaithful
  obtain rfl := marked_inj hplain hcut hcut' hmarked
  obtain rfl := eq_empty_of_length_utf8 ha
  have hmatch : toLowercase m' = toLowercase query := by simpa using hmatch
  -- so the range would be the query itself, which has another length
  have hbegin : m'.toList ++ b.toList = (as ++ [c]) ++ bs := by
    rw [← hsplit, hcut]
    simp
  have hmsigma : 'Σ' ∉ m'.toList := by
    intro hmem
    refine hsigma ?_
    rw [hcut]
    simp [hmem]
  have hsame : m'.toList = as ++ [c] := by
    refine eq_of_flatMap_lowerChar_eq hbegin ?_
    rw [← toList_toLowercase hmsigma, hmatch, hlower]
  have hkept : ((as.flatMap lowerChar).map Char.utf8Size).sum = (as.map Char.utf8Size).sum := by
    clear hsplit hparts hq hlower hstart hbegin hsame hpath
    induction as with
    | nil => rfl
    | cons x as ih =>
        have hx := has x (List.mem_cons_self ..)
        have hrest := ih fun y hy => has y (List.mem_cons_of_mem _ hy)
        simp [hx, hrest]
  rw [length_utf8, lowerBytes, length_utf8, hsame, hlower, List.flatMap_append, List.map_append,
    List.map_append, List.sum_append, List.sum_append, hkept] at hm
  exact hc (by simpa using (Nat.add_left_cancel hm).symm)

end DeepFinder
