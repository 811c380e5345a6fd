import Mathlib.Data.List.Basic
import Mathlib.Tactic.Common

/-!
# The names in a path

A path is a text over any alphabet with a slash and a dot.  Its names are the parts between the
slashes, without the empty ones and the single dots: what two spellings of one place below a
directory share.

Parent references are left alone by `names`, since what they lead to depends on the directory;
`resolve` takes back the name before each of them.
-/

namespace UnixPath

variable {α : Type*} [DecidableEq α] (slash dot : α)

/-- A part between two slashes is a name of its own. -/
def IsName (part : List α) : Prop := part ≠ [] ∧ part ≠ [dot]

instance (part : List α) : Decidable (IsName dot part) := inferInstanceAs (Decidable (_ ∧ _))

def names (path : List α) : List (List α) :=
  (path.splitOn slash).filter fun part => decide (IsName dot part)

variable {slash dot}

omit [DecidableEq α] in
@[simp] lemma not_isName_nil : ¬ IsName dot ([] : List α) := fun h => h.1 rfl

omit [DecidableEq α] in
@[simp] lemma not_isName_dot : ¬ IsName dot [dot] := fun h => h.2 rfl

lemma names_append_slash (p q : List α) :
    names slash dot (p ++ slash :: q) = names slash dot p ++ names slash dot q := by
  rw [names, List.splitOn_append_cons_self, List.filter_append, names, names]

@[simp] lemma names_nil : names slash dot ([] : List α) = [] := by
  simp [names]

@[simp] lemma names_slash_cons (q : List α) : names slash dot (slash :: q) = names slash dot q := by
  have hsplit := @names_append_slash _ _ slash dot [] q
  simpa using hsplit

lemma names_dot (h : dot ≠ slash) : names slash dot [dot] = [] := by
  have hsplit : [dot].splitOn slash = [[dot]] :=
    List.splitOn_eq_singleton (by simpa using h.symm)
  simp [names, hsplit]

lemma names_dot_slash_cons (h : dot ≠ slash) (q : List α) :
    names slash dot (dot :: slash :: q) = names slash dot q := by
  have hsplit := @names_append_slash _ _ slash dot [dot] q
  rwa [names_dot h] at hsplit

lemma names_of_head {path part : List α} (h : (path.splitOn slash).head? = some part)
    (hname : IsName dot part) : ∃ rest, names slash dot path = part :: rest := by
  obtain ⟨parts, hparts⟩ := List.head?_eq_some_iff.mp h
  exact ⟨_, by rw [names, hparts, List.filter_cons_of_pos (by simpa using hname)]⟩

lemma names_of_plain {path : List α} (h : ∀ part ∈ path.splitOn slash, IsName dot part) :
    names slash dot path = path.splitOn slash :=
  List.filter_eq_self.mpr fun part hpart => by simpa using h part hpart

/-! ## Parents -/

/-- One part after the names so far, last one first: a parent reference takes back the last name,
and at the top it takes back nothing. -/
def resolveStep (dot : α) (acc : List (List α)) (part : List α) : List (List α) :=
  if part = [dot, dot] then acc.tail else part :: acc

/-- The names that are left when the parent references have taken effect. -/
def resolve (dot : α) (parts : List (List α)) : List (List α) :=
  (parts.foldl (resolveStep dot) []).reverse

lemma foldl_resolveStep {parts : List (List α)} (h : ∀ part ∈ parts, part ≠ [dot, dot])
    (acc : List (List α)) : parts.foldl (resolveStep dot) acc = parts.reverse ++ acc := by
  induction parts generalizing acc with
  | nil => rfl
  | cons part parts ih =>
      rw [List.foldl_cons, resolveStep, if_neg (h part (List.mem_cons_self ..)),
        ih fun q hq => h q (List.mem_cons_of_mem _ hq)]
      simp

lemma resolve_of_plain {parts : List (List α)} (h : ∀ part ∈ parts, part ≠ [dot, dot]) :
    resolve dot parts = parts := by
  rw [resolve, foldl_resolveStep h, List.append_nil, List.reverse_reverse]

/-! ## Spelling -/

/-- The parts between the slashes have none. -/
lemma slash_notMem_of_mem_splitOn {path part : List α} (h : part ∈ path.splitOn slash) :
    slash ∉ part := by
  induction path generalizing part with
  | nil =>
      rw [List.splitOn_nil, List.mem_singleton] at h
      simp [h]
  | cons c path ih =>
      rw [List.splitOn_cons_eq_if_modifyHead] at h
      obtain ⟨q, qs, hqs⟩ := List.exists_cons_of_ne_nil (List.splitOn_ne_nil slash path)
      rw [hqs] at h ih
      split_ifs at h with hc
      · rcases List.mem_cons.mp h with rfl | hmem
        · simp
        · exact ih hmem
      · rw [List.modifyHead_cons] at h
        rcases List.mem_cons.mp h with rfl | hmem
        · have hq := ih (List.mem_cons_self ..)
          have hne : slash ≠ c := fun heq => hc (by simp [heq])
          simp [hne, hq]
        · exact ih (List.mem_cons_of_mem _ hmem)

omit [DecidableEq α] in
/-- The last names of a path end its text. -/
lemma intercalate_drop_suffix (k : ℕ) (parts : List (List α)) :
    [slash].intercalate (parts.drop k) <:+ [slash].intercalate parts := by
  induction parts generalizing k with
  | nil => simp
  | cons part parts ih =>
      cases k with
      | zero => exact List.suffix_refl _
      | succ k =>
          rw [List.drop_succ_cons]
          refine (ih k).trans ?_
          cases parts with
          | nil => exact List.nil_suffix
          | cons part' parts =>
              rw [List.intercalate_cons_cons]
              exact List.suffix_append _ _

/-- Names without slashes are told by their text. -/
lemma intercalate_inj {p q : List (List α)} (hp : ∀ name ∈ p, name ≠ [] ∧ slash ∉ name)
    (hq : ∀ name ∈ q, slash ∉ name) (hne : p ≠ []) :
    [slash].intercalate p = [slash].intercalate q ↔ p = q := by
  refine ⟨fun h => ?_, fun h => by rw [h]⟩
  have hsplit := List.splitOn_intercalate slash (fun name hname => (hp name hname).2) hne
  by_cases hnil : q = []
  · -- a text that is not empty has names
    subst hnil
    rw [h, List.intercalate_nil, List.splitOn_nil] at hsplit
    exact absurd rfl (hp [] (by simp [← hsplit])).1
  · rw [← hsplit, h, List.splitOn_intercalate slash hq hnil]

omit [DecidableEq α] in
/-- An encoding of the characters goes through to the names. -/
lemma flatMap_intercalate {β : Type*} {enc : α → List β} {sep : β} (hsep : enc slash = [sep])
    (parts : List (List α)) : ([slash].intercalate parts).flatMap enc =
      [sep].intercalate (parts.map fun part => part.flatMap enc) := by
  induction parts with
  | nil => simp
  | cons part parts ih =>
      cases parts with
      | nil => simp
      | cons part' parts =>
          rw [List.intercalate_cons_cons, List.flatMap_append, List.flatMap_append, ih,
            List.flatMap_singleton, hsep]
          simp only [List.map_cons]
          rw [List.intercalate_cons_cons]

end UnixPath
