import DeepFinder.Core.CaseSensitive
import DeepFinder.Ipc.Filter
import DeepFinder.Ipc.RegexPlaces

/-!
# The literal atom of a regex

`longest_literal_atom` reads a regex from left to right without a look at its structure.  Its answer
is the longest run of literals in the text (`longestLiteralAtom_eq`), and matches are looked for
among the texts that contain it, up to letter case.  That loses none when the run is required by the
tree (`Rx.Requires`): it stands in a sequence that is in no alternative and in no part that may be
left out, and none of its letters has a case variant that lowercases differently.

The scan sees syntax as the tree has it in plain regexes only (`Rx.Plain.scans`): it takes the
name of a group and the digits of an escape for literals.  In a plain regex whose run has characters
that nothing else in it must spell, the run has to be required (`regex_atom`).  Otherwise other
parts of the regex may spell a run that is not, as in `abc|abc`.
-/

namespace DeepFinder

open ByteString

/-! ## Runs of literals -/

/-- Where a character of a regex stands, as the scan sees it. -/
inductive ScanMode where
  | text
  | cls
  | escaped (inClass : Bool)
  | braces

def ScanMode.within (inClass : Bool) : ScanMode := if inClass then cls else text

/-- Where the next character stands. -/
def ScanMode.next : ScanMode → Char → ScanMode
  | text, c => if c = '\\' then escaped false else if c = '[' then cls
      else if c = '\x7b' then braces else text
  | cls, c => if c = '\\' then escaped true else if c = ']' then text else cls
  | escaped inClass, _ => within inClass
  | braces, c => if c = '\x7d' then text else braces

def ScanMode.literal : ScanMode → Char → Option Char
  | text, c => if c ∈ metaChars then none else some c
  | _, _ => none

/-- The characters of a regex that stand for themselves, each in its place. -/
def literals : ScanMode → List Char → List (Option Char)
  | _, [] => []
  | mode, c :: cs => mode.literal c :: literals (mode.next c) cs

def runs (l : List (Option Char)) : List (List Char) := (l.splitOn none).map List.reduceOption

/-- The first of the longest runs, if that is longer than `best`. -/
def longest (best : List Char) (rs : List (List Char)) : List Char :=
  rs.foldl (fun best r => if best.length < r.length then r else best) best

def longestRun (regex : List Char) : List Char := longest [] (runs (literals .text regex))

section Runs

lemma reduceOption_map_some (cur : List Char) : (cur.map some).reduceOption = cur := by
  show (cur.map some).filterMap id = cur
  rw [List.filterMap_map]
  exact List.filterMap_some

lemma none_notMem_map_some (cur : List Char) : none ∉ cur.map some := by simp

lemma flushRun_nil (best : List Char) : flushRun [] best = best := if_neg (Nat.not_lt_zero _)

lemma longest_runs_none (best cur : List Char) (l : List (Option Char)) :
    longest best (runs (cur.map some ++ none :: l)) = longest (flushRun cur best) (runs l) := by
  rw [runs, List.splitOn_append_cons_self_of_not_mem (none_notMem_map_some cur), List.map_cons,
    reduceOption_map_some]
  rfl

lemma longest_runs_nil (best cur : List Char) :
    longest best (runs (cur.map some)) = flushRun cur best := by
  rw [runs, List.splitOn_eq_singleton (none_notMem_map_some cur), List.map_singleton,
    reduceOption_map_some]
  rfl

lemma longest_runs_cons_none (best : List Char) (l : List (Option Char)) :
    longest best (runs (none :: l)) = longest best (runs l) := longest_runs_none best [] l

/-- A run stands in the text. -/
lemma infix_of_mem_runs {l : List (Option Char)} {run : List Char} (h : run ∈ runs l) :
    run.map some <:+: l := by
  suffices hcur : ∀ cur : List Char, run ∈ runs (cur.map some ++ l) →
      run.map some <:+: cur.map some ++ l from hcur [] h
  clear h
  induction l with
  | nil =>
      intro cur h
      rw [List.append_nil, runs, List.splitOn_eq_singleton (none_notMem_map_some cur),
        List.map_singleton, reduceOption_map_some] at h
      rw [List.mem_singleton.mp h, List.append_nil]
  | cons x l ih =>
      intro cur h
      cases x with
      | none =>
          rw [runs, List.splitOn_append_cons_self_of_not_mem (none_notMem_map_some cur),
            List.map_cons, reduceOption_map_some] at h
          obtain rfl | h := List.mem_cons.mp h
          · exact (List.prefix_append _ _).isInfix
          · exact (ih [] h).trans ⟨cur.map some ++ [none], [], by simp⟩
      | some c =>
          have happend : cur.map some ++ some c :: l = (cur ++ [c]).map some ++ l := by simp
          rw [happend] at h ⊢
          exact ih (cur ++ [c]) h

lemma longest_mem (best : List Char) (rs : List (List Char)) :
    longest best rs = best ∨ longest best rs ∈ rs := by
  induction rs generalizing best with
  | nil => exact Or.inl rfl
  | cons r rs ih =>
      have hstep : longest best (r :: rs) =
          longest (if best.length < r.length then r else best) rs := rfl
      rw [hstep]
      obtain h | h := ih (if best.length < r.length then r else best)
      · rw [h]
        split
        · exact Or.inr List.mem_cons_self
        · exact Or.inl rfl
      · exact Or.inr (List.mem_cons_of_mem r h)

lemma longestRun_infix (regex : List Char) :
    (longestRun regex).map some <:+: literals .text regex := by
  obtain h | h := longest_mem [] (runs (literals .text regex))
  · rw [longestRun, h]
    exact List.nil_infix
  · exact infix_of_mem_runs h

/-- Braces are skipped to their end. -/
lemma longest_runs_braces (best cs : List Char) :
    longest best (runs (literals .braces cs)) =
      longest best (runs (literals .text ((cs.dropWhile (· ≠ '\x7d')).drop 1))) := by
  induction cs with
  | nil => rfl
  | cons c cs ih =>
      rw [literals, ScanMode.literal, longest_runs_cons_none, ScanMode.next]
      · by_cases hc : c = '\x7d'
        · rw [if_pos hc, List.dropWhile_cons_of_neg (by simp [hc])]
          rfl
        · rw [if_neg hc, List.dropWhile_cons_of_pos (by simp [hc]), ih]
      · exact ScanMode.noConfusion

lemma longest_runs_escaped (best cs : List Char) (inClass : Bool) :
    longest best (runs (literals (.escaped inClass) cs)) =
      longest best (runs (literals (.within inClass) (cs.drop 1))) := by
  cases cs with
  | nil => cases inClass <;> rfl
  | cons c cs => exact longest_runs_cons_none best _

/-- A class goes on to its bracket. -/
lemma longest_runs_cls (best : List Char) (c : Char) (cs : List Char) :
    longest best (runs (literals .cls (c :: cs))) = longest best (runs (
      if c = '\\' then literals .cls (cs.drop 1)
      else literals (.within (decide (c ≠ ']'))) cs)) := by
  rw [literals, ScanMode.literal, longest_runs_cons_none, ScanMode.next]
  · by_cases hesc : c = '\\'
    · rw [if_pos hesc, if_pos hesc]
      exact longest_runs_escaped best cs true
    · rw [if_neg hesc, if_neg hesc]
      by_cases hend : c = ']'
      · rw [if_pos hend, decide_eq_false (not_not_intro hend)]
        rfl
      · rw [if_neg hend, decide_eq_true hend]
        rfl
  · exact ScanMode.noConfusion

/-- A character that does not stand for itself ends the pending run, and what belongs to it is
skipped. -/
lemma longest_runs_meta {c : Char} (h : c ∈ metaChars) (best cur cs : List Char) :
    longest best (runs (cur.map some ++ literals .text (c :: cs))) =
      longest (flushRun cur best) (runs (
        if c = '\\' then literals .text (cs.drop 1) else if c = '[' then literals .cls cs
        else if c = '\x7b' then literals .text ((cs.dropWhile (· ≠ '\x7d')).drop 1)
        else literals .text cs)) := by
  rw [literals, ScanMode.literal, if_pos h, longest_runs_none, ScanMode.next]
  by_cases hesc : c = '\\'
  · rw [if_pos hesc, if_pos hesc]
    exact longest_runs_escaped _ cs false
  · rw [if_neg hesc, if_neg hesc]
    by_cases hopen : c = '['
    · rw [if_pos hopen, if_pos hopen]
    · rw [if_neg hopen, if_neg hopen]
      by_cases hbrace : c = '\x7b'
      · rw [if_pos hbrace, if_pos hbrace, longest_runs_braces]
      · rw [if_neg hbrace, if_neg hbrace]

lemma mem_metaChars {c : Char} : c ∈ metaChars ↔ c = '\\' ∨ c = '[' ∨ c = '\x7b' ∨
    c ∈ ['(', ')', '|', '*', '+', '?', '^', '$', '.'] := by
  have hperm : metaChars.Perm
      ('\\' :: '[' :: '\x7b' :: ['(', ')', '|', '*', '+', '?', '^', '$', '.']) := by
    decide
  rw [hperm.mem_iff, List.mem_cons, List.mem_cons, List.mem_cons]

lemma longest_runs_lit {c : Char} (h : c ∉ metaChars) (best cur cs : List Char) :
    longest best (runs (cur.map some ++ literals .text (c :: cs))) =
      longest best (runs ((cur ++ [c]).map some ++ literals .text cs)) := by
  have hplain := h
  rw [mem_metaChars, not_or, not_or, not_or] at hplain
  obtain ⟨hesc, hopen, hbrace, -⟩ := hplain
  rw [literals, ScanMode.literal, if_neg h, ScanMode.next, if_neg hesc, if_neg hopen,
    if_neg hbrace, List.map_append, List.append_assoc]
  rfl

/-- The loop finds the longest of the best run so far, the pending one, and those to come. -/
lemma atomLoop_eq {fuel : ℕ} {cs cur : List Char} {inClass : Bool} (hfuel : cs.length < fuel)
    (hcur : inClass = true → cur = []) (best : List Char) :
    atomLoop fuel cs inClass cur best =
      longest best (runs (cur.map some ++ literals (.within inClass) cs)) := by
  induction fuel generalizing cs cur inClass best with
  | zero => exact absurd hfuel (Nat.not_lt_zero _)
  | succ fuel ih =>
      cases cs with
      | nil =>
          have hnil : literals (.within inClass) [] = [] := by cases inClass <;> rfl
          rw [hnil, List.append_nil, longest_runs_nil]
          cases inClass <;> rfl
      | cons c cs =>
          have hrest : cs.length < fuel := Nat.lt_of_succ_lt_succ hfuel
          have hdrop : (cs.drop 1).length < fuel := by
            rw [List.length_drop]
            omega
          cases inClass with
          | true =>
              obtain rfl := hcur rfl
              have hcls := longest_runs_cls best c cs
              rw [atomLoop, flushRun_nil]
              by_cases hesc : c = '\\'
              · rw [if_pos hesc] at hcls ⊢
                exact (ih hdrop (fun _ => rfl) best).trans hcls.symm
              · rw [if_neg hesc] at hcls ⊢
                exact (ih hrest (fun _ => rfl) best).trans hcls.symm
          | false =>
              rw [atomLoop]
              by_cases hmeta : c ∈ metaChars
              · refine Eq.trans ?_ (longest_runs_meta hmeta best cur cs).symm
                by_cases hesc : c = '\\'
                · rw [if_pos hesc, if_pos hesc]
                  exact ih hdrop (fun _ => rfl) _
                · rw [if_neg hesc, if_neg hesc]
                  by_cases hopen : c = '['
                  · rw [if_pos hopen, if_pos hopen]
                    exact ih hrest (fun _ => rfl) _
                  · rw [if_neg hopen, if_neg hopen]
                    by_cases hbrace : c = '\x7b'
                    · have hskip : ((cs.dropWhile (· ≠ '\x7d')).drop 1).length < fuel := by
                        have hle :=
                          (List.dropWhile_suffix (p := (· ≠ '\x7d')) (l := cs)).length_le
                        rw [List.length_drop]
                        omega
                      rw [if_neg (by simp [hbrace]), if_pos hbrace, if_pos hbrace]
                      exact ih hskip (fun _ => rfl) _
                    · have hflush : c ∈ ['(', ')', '|', '*', '+', '?', '^', '$', '.'] :=
                        (((mem_metaChars.mp hmeta).resolve_left hesc).resolve_left
                          hopen).resolve_left hbrace
                      rw [if_pos hflush, if_neg hbrace]
                      exact ih hrest (fun _ => rfl) _
              · have hplain := hmeta
                rw [mem_metaChars, not_or, not_or, not_or] at hplain
                obtain ⟨hesc, hopen, hbrace, hflush⟩ := hplain
                rw [if_neg hesc, if_neg hopen, if_neg hflush, if_neg hbrace]
                refine Eq.trans ?_ (longest_runs_lit hmeta best cur cs).symm
                exact ih hrest Bool.noConfusion best

/-- `longest_literal_atom` finds the longest run of literals. -/
theorem longestLiteralAtom_eq (regex : List Char) : longestLiteralAtom (String.ofList regex) =
    if longestRun regex = [] then none else some (String.ofList (longestRun regex)) := by
  have hloop : atomLoop (regex.length + 1) regex false [] [] = longestRun regex :=
    atomLoop_eq (Nat.lt_succ_self _) (fun _ => rfl) []
  rw [longestLiteralAtom, String.toList_ofList, hloop]
  cases longestRun regex with
  | nil => rfl
  | cons c cs => rfl

end Runs

/-! ## Lowercasing, up to sigmas -/

/-- The code points that the table of ranges may lowercase to a code point. -/
def lowerPreimages (n : ℕ) : List ℕ :=
  (lowerRanges.filter fun r => r.2.2.2 ≤ n && r.1 + (n - r.2.2.2) ≤ r.2.1).map fun r =>
    r.1 + (n - r.2.2.2)

/-- The letters sigma: lowercasing looks at the context of the first one. -/
def sigmas : List Char := ['Σ', 'σ', 'ς']

def SigmaFree (a : List Char) : Prop := ∀ c ∈ a, c ∉ sigmas

instance {a : List Char} : Decidable (SigmaFree a) :=
  List.decidableBAll (· ∉ sigmas) a

def flatSigma (c : Char) : Char := if c = 'ς' then 'σ' else c

section Lower

lemma toNat_ofNat_of_ne_zero {n : ℕ} (h : (Char.ofNat n).toNat ≠ 0) : (Char.ofNat n).toNat = n := by
  by_cases hn : n.isValidChar
  · have hvalid : Char.ofNat n = Char.ofNatAux n hn := dif_pos hn
    rw [hvalid]
    rfl
  · have hzero : Char.ofNat n = '\x00' := dif_neg hn
    rw [hzero] at h
    exact absurd rfl h

lemma exists_lowerChar_eq {c : Char} (h : c ≠ 'İ') : ∃ d, lowerChar c = [d] := by
  rw [lowerChar, if_neg h]
  split
  · exact ⟨_, rfl⟩
  · exact ⟨c, rfl⟩

lemma exists_mem_lowerChar (c : Char) : ∃ y, y ∈ lowerChar c := by
  by_cases hc : c = 'İ'
  · rw [hc]
    exact ⟨'i', List.mem_cons_self⟩
  · obtain ⟨d, hd⟩ := exists_lowerChar_eq hc
    exact ⟨d, hd ▸ List.mem_singleton_self d⟩

/-- Where a character of a lowercased one comes from. -/
lemma of_mem_lowerChar {c x : Char} (h : x ∈ lowerChar c) (hx : x.toNat ≠ 0) :
    c = 'İ' ∨ c = x ∨ c.toNat ∈ lowerPreimages x.toNat := by
  unfold lowerChar at h
  split at h
  · rename_i hc
    exact Or.inl hc
  · split at h
    · rename_i r hr
      obtain rfl := List.mem_singleton.mp h
      have hin := List.find?_some hr
      simp only [Bool.and_eq_true, decide_eq_true_eq] at hin
      rw [toNat_ofNat_of_ne_zero hx]
      refine Or.inr (Or.inr (List.mem_map.mpr ⟨r, List.mem_filter.mpr
        ⟨List.mem_of_find?_eq_some hr, ?_⟩, by omega⟩))
      simp only [Bool.and_eq_true, decide_eq_true_eq]
      omega
    · exact Or.inr (Or.inl (List.mem_singleton.mp h).symm)

/-- Only sigmas lowercase to a sigma. -/
lemma sigma_of_mem_lowerChar {c x : Char} (h : x ∈ lowerChar c) (hx : x = 'σ' ∨ x = 'ς') :
    c = 'Σ' ∨ c = x := by
  have hdot : lowerChar 'İ' = ['i', Char.ofNat 0x307] := by decide +kernel
  have hpre : x.toNat ≠ 0 ∧ x ∉ ['i', Char.ofNat 0x307] ∧
      ∀ n ∈ lowerPreimages x.toNat, n = 'Σ'.toNat := by
    rcases hx with rfl | rfl
    · decide +kernel
    · decide +kernel
  obtain ⟨hpos, hnot, hcapital⟩ := hpre
  rcases of_mem_lowerChar h hpos with rfl | rfl | hmem
  · rw [hdot] at h
    exact absurd h hnot
  · exact Or.inr rfl
  · exact Or.inl (Char.toNat_inj.mp (hcapital _ hmem))

lemma lower_sigmaFree {a : List Char} (h : SigmaFree a) :
    ∀ x ∈ a.flatMap lowerChar, x ≠ 'σ' ∧ x ≠ 'ς' := by
  intro x hx
  obtain ⟨c, hc, hxc⟩ := List.mem_flatMap.mp hx
  refine not_or.mp fun hform => h c hc ?_
  rcases sigma_of_mem_lowerChar hxc hform with rfl | rfl
  · decide
  · rcases hform with rfl | rfl
    · decide
    · decide

lemma lowerLoop_eq {a : List Char} (h : 'Σ' ∉ a) : lowerLoop [] a = a.flatMap lowerChar := by
  have hself := lowerLoop_eq_flatMap h [] []
  rwa [List.append_nil, lowerLoop, List.append_nil] at hself

/-- The context of a sigma decides between its two forms only. -/
lemma map_flatSigma_lowerLoop (before cs : List Char) :
    (lowerLoop before cs).map flatSigma = (cs.flatMap lowerChar).map flatSigma := by
  induction cs generalizing before with
  | nil => rfl
  | cons c cs ih =>
      rw [lowerLoop, List.map_append, ih, List.flatMap_cons, List.map_append]
      split
      · rename_i hc
        have hcap : lowerChar 'Σ' = ['σ'] := by decide +kernel
        rw [hc, hcap, mapUppercaseSigma]
        split <;> rfl
      · rfl

lemma infix_map_flatSigma {a l : List Char} (h : ∀ x ∈ a, x ≠ 'σ' ∧ x ≠ 'ς') :
    a <:+: l.map flatSigma ↔ a <:+: l := by
  constructor
  · intro hin
    obtain ⟨m, hm, rfl⟩ := List.infix_map_iff.mp hin
    have hself : m.map flatSigma = m := by
      refine (List.map_congr_left fun x hx => ?_).trans (List.map_id m)
      have hne := (h (flatSigma x) (List.mem_map_of_mem hx)).1
      rw [flatSigma] at hne ⊢
      split at hne
      · exact absurd rfl hne
      · rename_i hx
        exact if_neg hx
    rwa [hself]
  · intro hin
    have hself : a.map flatSigma = a := by
      refine (List.map_congr_left fun x hx => ?_).trans (List.map_id a)
      exact if_neg (h x hx).2
    have hmap := hin.map flatSigma
    rwa [hself] at hmap

/-- Without regard to case, lowercased characters are compared. -/
lemma termMatches_iff_lowerLoop (a : List Char) (t : String) :
    termMatches false (String.ofList a) t = true ↔ lowerLoop [] a <:+: lowerLoop [] t.toList := by
  have hlist : ∀ s : String, (toLowercase s).toList = lowerLoop [] s.toList := fun s =>
    String.toList_ofList
  rw [termMatches_false_iff]
  constructor
  · intro hin
    have hinfix := toList_infix_of_utf8 hin
    rwa [hlist, hlist, String.toList_ofList] at hinfix
  · intro hin
    refine infix_utf8 ?_
    rwa [hlist, hlist, String.toList_ofList]

lemma termMatches_sigmaFree {a : List Char} (h : SigmaFree a) (t : String) :
    termMatches false (String.ofList a) t = true ↔
      a.flatMap lowerChar <:+: t.toList.flatMap lowerChar := by
  have hcap : 'Σ' ∉ a := fun hmem => h 'Σ' hmem (by decide)
  have hlower := lower_sigmaFree h
  rw [termMatches_iff_lowerLoop, lowerLoop_eq hcap, ← infix_map_flatSigma hlower,
    map_flatSigma_lowerLoop, infix_map_flatSigma hlower]

/-- A sigma lowercases to one of its two lowercase forms. -/
lemma exists_sigma_lowerLoop {a : List Char} (h : ¬SigmaFree a) (before : List Char) :
    'σ' ∈ lowerLoop before a ∨ 'ς' ∈ lowerLoop before a := by
  rw [SigmaFree] at h
  push Not at h
  obtain ⟨c, hc, hsigma⟩ := h
  induction a generalizing before with
  | nil => cases hc
  | cons d a ih =>
      rw [lowerLoop, List.mem_append, List.mem_append]
      rcases List.mem_cons.mp hc with rfl | hc
      · have hforms : ∀ c ∈ sigmas, c ≠ 'Σ' → lowerChar c = [c] ∧ (c = 'σ' ∨ c = 'ς') :=
          @of_decide_eq_true _ (List.decidableBAll _ _) (by decide +kernel)
        split
        · rw [mapUppercaseSigma]
          split
          · exact Or.inr (Or.inl (List.mem_singleton.mpr rfl))
          · exact Or.inl (Or.inl (List.mem_singleton.mpr rfl))
        · rename_i hne
          obtain ⟨hself, rfl | rfl⟩ := hforms c hsigma hne
          · exact Or.inl (Or.inl (hself ▸ List.mem_singleton.mpr rfl))
          · exact Or.inr (Or.inl (hself ▸ List.mem_singleton.mpr rfl))
      · exact (ih (d :: before) hc).imp Or.inr Or.inr

end Lower

/-! ## The scan and the tree -/

def ScanMode.after (mode : ScanMode) (cs : List Char) : ScanMode := cs.foldl ScanMode.next mode

/-- The scan sees the literals of these places, and comes out in the text. -/
structure Scans (mode : ScanMode) (cs : List Char) (ps : List Place) : Prop where
  literals_eq : literals mode cs = ps.map Place.literal
  after_eq : mode.after cs = .text

/-- An item of which the scan sees what it is: what belongs to an escape stands in braces, and a
class ends at its first bracket. -/
def CharItem.Plain {E : CaseFolding} : CharItem E → Prop
  | escape _ arg _ => Scans .text arg (syntaxPlaces arg)
  | bracket body _ => Scans .cls (body ++ [']']) (syntaxPlaces (body ++ [']']))
  | _ => True

/-- A regex of such items, whose groups are opened by a parenthesis alone.  The scan reads such a
regex as its tree has it; it would take the name of a group for literals. -/
def Rx.Plain {E : CaseFolding} {l : Level} : Rx E l → Prop
  | char i => i.Plain
  | group k r => k = .capture ∧ r.Plain
  | one r => r.Plain
  | repeated r _ _ => r.Plain
  | nil => True
  | cons r s => r.Plain ∧ s.Plain
  | last r => r.Plain
  | or r s => r.Plain ∧ s.Plain

section Scan

variable {E : CaseFolding} {mode : ScanMode} {cs ds : List Char} {ps qs : List Place} {c : Char}

lemma literals_append (mode : ScanMode) (cs ds : List Char) :
    literals mode (cs ++ ds) = literals mode cs ++ literals (mode.after cs) ds := by
  induction cs generalizing mode with
  | nil => rfl
  | cons c cs ih =>
      rw [List.cons_append, literals, literals, ih, List.cons_append]
      rfl

lemma Scans.append (h : Scans mode cs ps) (h' : Scans .text ds qs) :
    Scans mode (cs ++ ds) (ps ++ qs) where
  literals_eq := by rw [literals_append, h.after_eq, h.literals_eq, h'.literals_eq, List.map_append]
  after_eq := by
    rw [ScanMode.after, List.foldl_append]
    exact (congrArg (ScanMode.after · ds) h.after_eq).trans h'.after_eq

lemma Scans.nil : Scans .text [] [] := ⟨rfl, rfl⟩

lemma Scans.cons (hlit : mode.literal c = none)
    (h : Scans (mode.next c) cs ps) : Scans mode (c :: cs) (none :: ps) where
  literals_eq := by rw [literals, hlit, h.literals_eq]; rfl
  after_eq := h.after_eq

lemma Scans.of_meta (hc : c ∈ metaChars) (hnext : ScanMode.next .text c = .text) :
    Scans .text [c] (syntaxPlaces [c]) := by
  refine .cons (if_pos hc) ?_
  rw [hnext]
  exact .nil

lemma Scans.of_lit (hc : c ∉ metaChars) (req : Bool) : Scans .text [c] [some (c, req)] where
  literals_eq := by
    rw [literals, ScanMode.literal, if_neg hc]
    rfl
  after_eq := by
    rw [mem_metaChars, not_or, not_or, not_or] at hc
    obtain ⟨hesc, hopen, hbrace, -⟩ := hc
    exact (if_neg hesc).trans ((if_neg hopen).trans (if_neg hbrace))

/-- Braces are closed by the first that closes. -/
lemma Scans.of_braces (h : '\x7d' ∉ cs) :
    Scans .text ('\x7b' :: cs ++ ['\x7d']) (syntaxPlaces ('\x7b' :: cs ++ ['\x7d'])) := by
  refine .cons rfl (?_ : Scans .braces (cs ++ ['\x7d']) _)
  induction cs with
  | nil => exact .cons rfl .nil
  | cons c cs ih =>
      rw [List.mem_cons, not_or] at h
      have hnext : ScanMode.next .braces c = .braces := if_neg fun hc => h.1 hc.symm
      refine .cons rfl ?_
      rw [hnext]
      exact ih h.2

lemma brace_notMem_toString (m : ℕ) : '\x7d' ∉ (toString m).toList := by
  intro h
  have hrepr : toString m = m.repr := rfl
  rw [hrepr, Nat.toList_repr] at h
  exact absurd (Nat.isDigit_of_mem_toDigits (by decide) (by decide) h) (by decide)

lemma Quantifier.scans (q : Quantifier) : Scans .text q.render (syntaxPlaces q.render) := by
  cases q with
  | opt => exact .of_meta (by decide) rfl
  | star => exact .of_meta (by decide) rfl
  | plus => exact .of_meta (by decide) rfl
  | exactly m => exact .of_braces (brace_notMem_toString m)
  | atLeast m =>
      have hbrace : '\x7d' ∉ (toString m).toList ++ [','] := by
        rw [List.mem_append, not_or]
        exact ⟨brace_notMem_toString m, by decide⟩
      have h := Scans.of_braces hbrace
      rwa [List.cons_append, List.append_assoc] at h
  | between m n hmn =>
      have hbrace : '\x7d' ∉ (toString m).toList ++ ',' :: (toString n).toList := by
        rw [List.mem_append, List.mem_cons, not_or, not_or]
        exact ⟨brace_notMem_toString m, by decide, brace_notMem_toString n⟩
      exact Scans.of_braces hbrace

lemma CharItem.Plain.scans {i : CharItem E} (h : i.Plain) (req : Bool) :
    Scans .text i.render (Rx.itemPlaces i req) := by
  cases i with
  | lit c hc => exact .of_lit hc req
  | punct c hc => exact .cons rfl (.cons rfl .nil)
  | dot => exact .of_meta (by decide) rfl
  | escape c arg set => exact .cons rfl (.cons rfl h)
  | bracket body set => exact .cons rfl h

/-- The scan of a plain regex sees the literals of the tree, each in its place. -/
theorem Rx.Plain.scans {l : Level} {r : Rx E l} (h : r.Plain) (req : Bool) :
    Scans .text r.render (r.places req) := by
  induction r generalizing req with
  | char i => exact CharItem.Plain.scans h req
  | group k r ih =>
      obtain ⟨rfl, h⟩ := h
      have hopen : Scans .text ['('] (syntaxPlaces ['(']) := .of_meta (by decide) rfl
      have hclose : Scans .text [')'] (syntaxPlaces [')']) := .of_meta (by decide) rfl
      exact (hopen.append (ih h req)).append hclose
  | one r ih => exact ih h req
  | repeated r q lazy ih =>
      have hlazy : Scans .text (if lazy then ['?'] else [])
          (syntaxPlaces (if lazy then ['?'] else [])) := by
        cases lazy with
        | false => exact .nil
        | true => exact .of_meta (by decide) rfl
      exact ((ih h _).append q.scans).append hlazy
  | nil => exact .nil
  | cons r s ihr ihs => exact (ihr h.1 req).append (ihs h.2 req)
  | last r ih => exact ih h req
  | or r s ihr ihs =>
      have hbar : Scans .text ['|'] (syntaxPlaces ['|']) := .of_meta (by decide) rfl
      have hleft := (ihr h.1 false).append (hbar.append (ihs h.2 false))
      exact hleft

end Scan

/-! ## Required runs -/

/-- A text without a sigma and without a letter that has case variants of another lowercase form,
which stands in the regex in one piece where every match has it. -/
structure Rx.Requires {E : CaseFolding} (r : Rx E .alt) (a : List Char) : Prop where
  places : a.map some <:+: (r.places true).map Place.required
  sigmaFree : SigmaFree a
  variants : ∀ c ∈ a, ∀ d, E.rel c d → lowerChar d = lowerChar c

/-- Nothing else in the regex has to spell a letter of the text, and the regex matches something. -/
structure Rx.SpelledOnce {E : CaseFolding} (r : Rx E .alt) (a : List Char) : Prop where
  once : ∀ c ∈ a, ∀ y ∈ lowerChar c, r.Once fun d => y ∈ lowerChar d
  matches_word : ∃ w, w ∈ r.lang true

/-- The lowercased atom of the regex is a substring of every lowercased text that the regex matches,
with and without `(?i)`. -/
def AtomSound {E : CaseFolding} (r : Rx E .alt) : Prop :=
  ∀ (ci : Bool) (t : String), r.IsMatch ci t.toList →
    ∀ a, longestLiteralAtom (String.ofList r.render) = some a → termMatches false a t = true

section Atom

variable {E : CaseFolding} {r : Rx E .alt}

/-- Every match contains what is required, up to letter case. -/
lemma Rx.Requires.spelled {a t : List Char} {ci : Bool} (h : r.Requires a) (ht : r.IsMatch ci t) :
    a.flatMap lowerChar <:+: t.flatMap lowerChar := by
  obtain ⟨w, hw, hwt⟩ := ht
  obtain ⟨v, hvw, hav⟩ := (Rx.fits_places hw).exists_piece h.places
  have hlower : a.flatMap lowerChar = v.flatMap lowerChar := by
    have hvariants := h.variants
    clear hvw h
    induction hav with
    | nil => rfl
    | @cons c d a v hcd hav ih =>
        have hd : lowerChar d = lowerChar c := by
          cases ci with
          | false => exact congrArg lowerChar hcd
          | true => exact hvariants c List.mem_cons_self d hcd
        rw [List.flatMap_cons, List.flatMap_cons, hd,
          ih fun c hc => hvariants c (List.mem_cons_of_mem _ hc)]
  rw [hlower]
  obtain ⟨u, u', rfl⟩ := hvw.trans hwt
  rw [List.flatMap_append, List.flatMap_append]
  exact ⟨_, _, rfl⟩

/-- Every sigma put in the form `y`. -/
def putSigma (y c : Char) : Char := if c ∈ sigmas then y else c

lemma CaseFolding.rel_putSigma (E : CaseFolding) {y : Char} (hy : y = 'σ' ∨ y = 'ς') (c : Char) :
    E.rel c (putSigma y c) := by
  rw [putSigma]
  split
  · rename_i hc
    have hlow : E.rel c 'σ' := by
      simp only [sigmas, List.mem_cons, List.not_mem_nil, or_false] at hc
      rcases hc with rfl | rfl | rfl
      · exact E.sigma
      · exact E.equiv.refl _
      · exact E.final_sigma
    rcases hy with rfl | rfl
    · exact hlow
    · exact E.equiv.trans hlow (E.equiv.symm E.final_sigma)
  · exact E.equiv.refl c

lemma putSigma_ne {x y : Char} (hx : x ∈ sigmas) (h : x ≠ y) (c : Char) : putSigma y c ≠ x := by
  rw [putSigma]
  split
  · exact h.symm
  · rename_i hc
    exact fun heq => hc (heq ▸ hx)

/-- With the sigmas of a text in one form, it lowercases to a text without the other one. -/
lemma notMem_lower_putSigma {x y : Char} (hx : x = 'σ' ∨ x = 'ς') (hy : y = 'σ' ∨ y = 'ς')
    (h : x ≠ y) (w : List Char) : x ∉ lowerLoop [] (w.map (putSigma y)) := by
  have hcapital : ∀ c, putSigma y c ≠ 'Σ' := by
    refine putSigma_ne (by decide) ?_
    rcases hy with rfl | rfl
    · decide
    · decide
  have hform : ∀ c, putSigma y c ≠ x := by
    refine putSigma_ne ?_ h
    rcases hx with rfl | rfl
    · decide
    · decide
  have hcap : 'Σ' ∉ w.map (putSigma y) := by
    intro hmem
    obtain ⟨c, -, hc⟩ := List.mem_map.mp hmem
    exact hcapital c hc
  rw [lowerLoop_eq hcap]
  intro hmem
  obtain ⟨d, hd, hxd⟩ := List.mem_flatMap.mp hmem
  obtain ⟨c, -, rfl⟩ := List.mem_map.mp hd
  rcases sigma_of_mem_lowerChar hxd hx with hc | hc
  · exact hcapital c hc
  · exact hform c hc

/-- With `(?i)` a sigma of the run can be matched by its other lowercase form. -/
lemma exists_match_without_sigma {a w : List Char} (ha : ¬SigmaFree a) (hw : w ∈ r.lang true) :
    ∃ t : String, r.IsMatch true t.toList ∧ ¬termMatches false (String.ofList a) t = true := by
  have hform : ∃ x y, (x = 'σ' ∨ x = 'ς') ∧ (y = 'σ' ∨ y = 'ς') ∧ x ≠ y ∧
      x ∈ lowerLoop [] a := by
    rcases exists_sigma_lowerLoop ha [] with hx | hx
    · exact ⟨'σ', 'ς', Or.inl rfl, Or.inr rfl, by decide, hx⟩
    · exact ⟨'ς', 'σ', Or.inr rfl, Or.inl rfl, by decide, hx⟩
  obtain ⟨x, y, hx, hy, hne, hmem⟩ := hform
  refine ⟨String.ofList (w.map (putSigma y)), ?_, fun hm => ?_⟩
  · rw [String.toList_ofList]
    exact ⟨_, Rx.map_mem_lang (E.rel_putSigma hy) hw, List.infix_rfl⟩
  · rw [termMatches_iff_lowerLoop, String.toList_ofList] at hm
    exact notMem_lower_putSigma hx hy hne w (hm.subset hmem)

lemma AtomSound.exists_letter (h : AtomSound r) (hfree : SigmaFree (longestRun r.render))
    {ci : Bool} {w : List Char} (hw : w ∈ r.lang ci) {c y : Char} (hc : c ∈ longestRun r.render)
    (hy : y ∈ lowerChar c) : ∃ d ∈ w, y ∈ lowerChar d := by
  have hatom := h ci (String.ofList w)
    (by rw [String.toList_ofList]; exact ⟨w, hw, List.infix_rfl⟩) _
    ((longestLiteralAtom_eq r.render).trans (if_neg (List.ne_nil_of_mem hc)))
  rw [termMatches_sigmaFree hfree, String.toList_ofList] at hatom
  exact List.mem_flatMap.mp (hatom.subset (List.mem_flatMap.mpr ⟨c, hc, hy⟩))

/-- Case variants share a letter of their lowercase forms only when these are the same. -/
lemma lowerChar_eq_of_rel {c d : Char} (hrel : E.rel c d)
    (h : ∀ y ∈ lowerChar c, y ∈ lowerChar d) : lowerChar d = lowerChar c := by
  by_cases hc : c = 'İ'
  · obtain rfl := hc
    rw [E.dotted_alone d hrel]
  · have hd : d ≠ 'İ' := by
      rintro rfl
      exact hc (E.dotted_alone c (E.equiv.symm hrel))
    obtain ⟨x, hx⟩ := exists_lowerChar_eq hc
    obtain ⟨x', hx'⟩ := exists_lowerChar_eq hd
    have hmem := h x (hx ▸ List.mem_singleton_self x)
    rw [hx', List.mem_singleton] at hmem
    rw [hx, hx', hmem]

/-- In a plain regex that is sound, a run that nothing else has to spell is required. -/
lemma AtomSound.requires (h : AtomSound r) (hplain : r.Plain)
    (honce : r.SpelledOnce (longestRun r.render)) : r.Requires (longestRun r.render) := by
  obtain ⟨w, hw⟩ := honce.matches_word
  have hfree : SigmaFree (longestRun r.render) := by
    by_contra hsigma
    obtain ⟨t, ht, hnot⟩ := exists_match_without_sigma hsigma hw
    have hne : longestRun r.render ≠ [] := by
      intro hnil
      exact hsigma (hnil ▸ fun c hc => absurd hc List.not_mem_nil)
    exact hnot (h true t ht _ ((longestLiteralAtom_eq r.render).trans (if_neg hne)))
  -- what the tree has at the places of a letter of the run
  have hplace : ∀ ci c, c ∈ longestRun r.render → ∀ b, some (c, b) ∈ r.places true →
      ∀ y ∈ lowerChar c, b = true ∧ ∀ d, E.Reads ci c d → y ∈ lowerChar d := by
    intro ci c hc b hb y hy
    exact (honce.once c hc y hy).of_forall (fun w hw => h.exists_letter hfree hw hc hy) hb hy
  -- the scan has found the run among the literals of the tree
  have hrun := longestRun_infix r.render
  rw [(hplain.scans true).literals_eq] at hrun
  obtain ⟨ps, hps, hmap⟩ := List.infix_map_iff.mp hrun
  have hliteral : ∀ p ∈ ps, ∃ c ∈ longestRun r.render, ∃ b, p = some (c, b) := by
    intro p hp
    have hmem : p.literal ∈ (longestRun r.render).map some := hmap ▸ List.mem_map_of_mem hp
    obtain ⟨c, hc, hpc⟩ := List.mem_map.mp hmem
    obtain ⟨⟨c', b⟩, rfl, rfl⟩ := Option.map_eq_some_iff.mp hpc.symm
    exact ⟨c', hc, b, rfl⟩
  refine ⟨?_, hfree, fun c hc d hd => ?_⟩
  · have hrequired : ps.map Place.required = ps.map Place.literal := by
      refine List.map_congr_left fun p hp => ?_
      obtain ⟨c, hc, b, rfl⟩ := hliteral p hp
      obtain ⟨y, hy⟩ := exists_mem_lowerChar c
      obtain ⟨rfl, -⟩ := hplace false c hc b (hps.subset hp) y hy
      rfl
    rw [hmap, ← hrequired]
    exact hps.map Place.required
  · have hmem : some c ∈ ps.map Place.literal := hmap ▸ List.mem_map_of_mem hc
    obtain ⟨p, hp, hpc⟩ := List.mem_map.mp hmem
    obtain ⟨⟨c', b⟩, rfl, rfl⟩ := Option.map_eq_some_iff.mp hpc
    exact lowerChar_eq_of_rel hd fun y hy => (hplace true c' hc b (hps.subset hp) y hy).2 d hd

/-- The atom is sound when the run is required; and in a plain regex in which nothing else has to
spell the run's letters, only then.  `Requires` is about where the run's literals stand in the
syntax tree: in sequence, outside of alternatives and of parts that may be left out.  The scan
itself sees only the text of the regex, and that it finds literals of the tree is proved by
induction on it. -/
theorem regex_atom (r : Rx E .alt) :
    (r.Requires (longestRun r.render) → AtomSound r) ∧
    (r.Plain → r.SpelledOnce (longestRun r.render) → AtomSound r →
      r.Requires (longestRun r.render)) := by
  refine ⟨fun hreq ci t ht a ha => ?_, fun hplain honce hsound => hsound.requires hplain honce⟩
  rw [longestLiteralAtom_eq] at ha
  split at ha
  · cases ha
  · obtain rfl := Option.some.inj ha
    exact (termMatches_sigmaFree hreq.sigmaFree t).mpr (hreq.spelled ht)

end Atom

/-! ## Case folding by lowercasing -/

def foldKey (c : Char) : List Char := if c ∈ sigmas then ['σ'] else lowerChar c

/-- A character that no other lowercases to is alone. -/
lemma eq_of_foldKey {c x : Char} (h : foldKey c = [x]) (hsigma : x ≠ 'σ') (hx : x.toNat ≠ 0)
    (hpre : lowerPreimages x.toNat = []) : c = x := by
  rw [foldKey] at h
  split at h
  · exact absurd (List.singleton_inj.mp h).symm hsigma
  · have hmem : x ∈ lowerChar c := h ▸ List.mem_singleton_self x
    rcases of_mem_lowerChar hmem hx with rfl | hc | hc
    · have hdot : lowerChar 'İ' = ['i', Char.ofNat 0x307] := by decide +kernel
      rw [hdot] at h
      cases h
    · exact hc
    · rw [hpre] at hc
      cases hc

/-- The case folding that lowercasing gives. -/
def lowerFolding : CaseFolding where
  rel c d := foldKey c = foldKey d
  equiv := ⟨fun _ => rfl, Eq.symm, Eq.trans⟩
  newline_alone c h := by
    have hkey : foldKey '\n' = ['\n'] := by decide +kernel
    exact eq_of_foldKey (h.symm.trans hkey) (by decide) (by decide) (by decide +kernel)
  dotted_alone c h := by
    by_contra hc
    have hkey : foldKey 'İ' = ['i', Char.ofNat 0x307] := by decide +kernel
    have hsingle : ∃ d, foldKey c = [d] := by
      rw [foldKey]
      split
      · exact ⟨'σ', rfl⟩
      · exact exists_lowerChar_eq hc
    obtain ⟨d, hd⟩ := hsingle
    rw [hkey, hd] at h
    cases h
  sigma := rfl
  final_sigma := rfl

lemma lowerChar_of_lowerFolding {c d : Char} (h : lowerFolding.rel c d) (hc : c ∉ sigmas)
    (hlower : lowerChar c ≠ ['σ']) : lowerChar d = lowerChar c := by
  have hkey : foldKey c = foldKey d := h
  rw [foldKey, if_neg hc, foldKey] at hkey
  split at hkey
  · exact absurd hkey hlower
  · exact hkey.symm

/-- Literals in sequence, and what comes behind them. -/
def Rx.literal {E : CaseFolding} : (cs : List Char) → (∀ c ∈ cs, c ∉ metaChars) → Rx E .seq →
    Rx E .seq
  | [], _, s => s
  | c :: cs, h, s => cons (one (char (.lit c (h c List.mem_cons_self))))
      (literal cs (fun d hd => h d (List.mem_cons_of_mem c hd)) s)

lemma Rx.mem_lang_literal {E : CaseFolding} {cs : List Char} (h : ∀ c ∈ cs, c ∉ metaChars) :
    cs ∈ (Rx.literal (E := E) cs h .nil).lang false := by
  induction cs with
  | nil => exact Language.nil_mem_one
  | cons c cs ih => exact Language.append_mem_mul (a := [c]) ⟨c, rfl, rfl⟩ (ih _)

/-- The regex `main(\.rs|x)?`. -/
def mainFile : Rx lowerFolding .alt :=
  .last (.literal ['m', 'a', 'i', 'n'] (by simp [metaChars]) (.cons (.repeated
    (.group .capture (.or
      (.cons (.one (.char (.punct '.' ⟨by decide, by decide, by decide, by decide⟩)))
        (.literal ['r', 's'] (by simp [metaChars]) .nil))
      (.last (.literal ['x'] (by simp [metaChars]) .nil)))) .opt false) .nil))

/-- The run in front of an optional group is required. -/
theorem regex_atom_main_file :
    String.ofList mainFile.render = "main(\\.rs|x)?" ∧
      longestLiteralAtom "main(\\.rs|x)?" = some "main" ∧ AtomSound mainFile := by
  have hrun : longestRun mainFile.render = ['m', 'a', 'i', 'n'] := by decide +kernel
  refine ⟨by decide +kernel, by decide +kernel, (regex_atom mainFile).1 ?_⟩
  rw [hrun]
  have hletters : ∀ c ∈ ['m', 'a', 'i', 'n'], c ∉ sigmas ∧ lowerChar c ≠ ['σ'] :=
    @of_decide_eq_true _ (List.decidableBAll _ _) (by decide +kernel)
  exact ⟨by decide +kernel, fun c hc => (hletters c hc).1, fun c hc d hd =>
    lowerChar_of_lowerFolding hd (hletters c hc).1 (hletters c hc).2⟩

/-- The regex `a|bb|ccc`. -/
def threeAlternatives : Rx lowerFolding .alt :=
  .or (.literal ['a'] (by simp [metaChars]) .nil)
    (.or (.literal ['b', 'b'] (by simp [metaChars]) .nil)
      (.last (.literal ['c', 'c', 'c'] (by simp [metaChars]) .nil)))

/-- The atom is taken from one of the alternatives, and a text that matches another one is lost. -/
theorem regex_atom_of_alternative :
    String.ofList threeAlternatives.render = "a|bb|ccc" ∧
      threeAlternatives.IsMatch false "a".toList ∧
      longestLiteralAtom "a|bb|ccc" = some "ccc" ∧
      termMatches false "ccc" "a" = false := by
  refine ⟨by decide +kernel, ?_, by decide +kernel, by decide +kernel⟩
  exact ⟨['a'], Or.inl (Rx.mem_lang_literal _), List.infix_rfl⟩

end DeepFinder
