import DeepFinder.Core.Scope
import DeepFinder.Lib.UnixPath

/-!
# Scopes as subtrees

A path lies in the subtree of a scope when the names of the scope, up to spelling, are the first
names of the path.  `in_scope` strips one `./` and compares what `Path::components` makes of the
rest, which also keeps a slash or a dot in front; `in_scope_iff` says when the two agree.

Both arguments are arbitrary strings, as they come off the wire: nothing makes them absolute or
tidy.  The three cases of the condition are the three ways in which the texts can stand to each
other; the one that fails is a path inside the subtree that is not spelled from the same start as
its scope, such as the scope `.` of everything.
-/

namespace DeepFinder

open UnixPath

/-- The names in a path, without empty parts and dots. -/
def pathNames (path : String) : List (List Char) := names '/' '.' path.toList

/-- What `Path::components` keeps in front of the names of a path. -/
def leading (path : String) : List Component :=
  if path.toList.head? = some '/' then [.rootDir]
  else if (path.toList.splitOn '/').head? = some ['.'] then [.curDir]
  else []

def nameComponent (name : List Char) : Component :=
  if name = ['.', '.'] then .parentDir else .normal name

lemma nameComponent_injective : Function.Injective nameComponent := by
  intro a b h
  unfold nameComponent at h
  split_ifs at h with ha hb hb
  · rw [ha, hb]
  · simpa using h

lemma nameComponent_notMem_leading (path : String) (name : List Char) :
    nameComponent name ∉ leading path := by
  unfold nameComponent leading
  split_ifs <;> simp

/-- A path is what stands in front, and the components of its names. -/
lemma components_eq (path : String) :
    components path = leading path ++ (pathNames path).map nameComponent := by
  have hinner : ∀ parts : List (List Char), parts.filterMap innerComponent =
      (parts.filter fun part => decide (IsName '.' part)).map nameComponent := by
    intro parts
    induction parts with
    | nil => simp
    | cons part parts ih =>
        by_cases hname : IsName '.' part
        · have hpart : innerComponent part = some (nameComponent part) := by
            rw [innerComponent, if_neg (not_or.mpr hname), nameComponent]
            split_ifs <;> simp
          simp [hname, hpart, ih]
        · have hpart : innerComponent part = none := by
            rw [innerComponent, if_pos (not_and_or.mp hname |>.imp not_not.mp not_not.mp)]
          simp [hname, hpart, ih]
  rw [components, hinner]
  rfl

lemma pathNames_stripDot (path : String) : pathNames (stripDot path) = pathNames path := by
  unfold stripDot
  split
  · rename_i rest h
    rw [pathNames, pathNames, String.toList_ofList, h, names_dot_slash_cons (by decide)]
  · rfl

/-- A path with nothing in front of its names has a name, unless it is empty. -/
lemma pathNames_ne_nil {path : String} (hne : path ≠ "") (h : leading path = []) :
    pathNames path ≠ [] := by
  have hnil : path.toList ≠ [] := fun hnil => hne (String.toList_eq_nil_iff.mp hnil)
  obtain ⟨c, cs, hpath⟩ := List.exists_cons_of_ne_nil hnil
  obtain ⟨part, parts, hparts⟩ := List.exists_cons_of_ne_nil (List.splitOn_ne_nil '/' path.toList)
  unfold leading at h
  split_ifs at h with hroot hdot
  have hname : IsName '.' part := by
    refine ⟨fun hempty => hroot ?_, fun hpart => hdot (by rw [hparts, hpart, List.head?_cons])⟩
    -- a first part that is empty ends at a slash in front
    rw [hpath, List.splitOn_cons_eq_if_modifyHead] at hparts
    split_ifs at hparts with hslash
    · simpa [hpath] using hslash
    · obtain ⟨q, qs, hqs⟩ := List.exists_cons_of_ne_nil (List.splitOn_ne_nil '/' cs)
      rw [hqs, List.modifyHead_cons] at hparts
      rw [← (List.cons.inj hparts).1] at hempty
      cases hempty
  obtain ⟨rest, hrest⟩ := names_of_head (by rw [hparts, List.head?_cons]) hname
  simp [pathNames, hrest]

lemma leading_tail {path : String} {x : Component} {xs : List Component}
    (h : leading path = x :: xs) : xs = [] := by
  unfold leading at h
  split_ifs at h <;> simp_all

/-- The components of one path start those of another when the same stands in front of both and the
names of the one start those of the other. -/
lemma components_prefix_iff {scope path : String} (hne : scope ≠ "") :
    components scope <+: components path ↔
      leading scope = leading path ∧ pathNames scope <+: pathNames path := by
  rw [components_eq, components_eq]
  by_cases hlead : leading scope = leading path
  · rw [hlead, List.prefix_append_right_inj, and_iff_right rfl,
      List.prefix_map_iff_of_injective nameComponent_injective]
  · refine iff_of_false (fun hprefix => ?_) (fun h => hlead h.1)
    have hscope := nameComponent_notMem_leading scope
    have hpath := nameComponent_notMem_leading path
    cases hs : leading scope with
    | nil =>
        -- the first name of the scope meets what stands in front of the path
        obtain ⟨name, names, hnames⟩ := List.exists_cons_of_ne_nil (pathNames_ne_nil hne hs)
        obtain ⟨x, xs, hx⟩ := List.exists_cons_of_ne_nil fun h : leading path = [] =>
          hlead (hs.trans h.symm)
        rw [hs, hnames, hx, List.nil_append, List.map_cons, List.cons_append,
          List.cons_prefix_cons] at hprefix
        exact hpath name (by rw [hx, hprefix.1]; exact List.mem_cons_self ..)
    | cons x xs =>
        rw [hs, List.cons_append] at hprefix
        cases hp : leading path with
        | nil =>
            rw [hp, List.nil_append] at hprefix
            obtain ⟨ys, hys⟩ := hprefix
            cases hnames : pathNames path with
            | nil => simp [hnames] at hys
            | cons name names =>
                rw [hnames, List.map_cons, List.cons_append] at hys
                exact hscope name (by rw [hs, (List.cons.inj hys).1]; exact List.mem_cons_self ..)
        | cons y ys =>
            rw [hp, List.cons_append, List.cons_prefix_cons] at hprefix
            obtain ⟨hxy, -⟩ := hprefix
            exact hlead (by rw [hs, hp, hxy, leading_tail hs, leading_tail hp])

/-- `in_scope` is membership in the subtree of the scope, exactly when nothing is left of the scope
after one `./`, or the same stands in front of what is left of it and of the path, or the path lies
outside the subtree. -/
theorem in_scope_iff (path scope : String) :
    (inScope path (some scope) = true ↔ pathNames scope <+: pathNames path) ↔
      stripDot scope = "" ∨ leading (stripDot scope) = leading (stripDot path) ∨
        ¬ pathNames scope <+: pathNames path := by
  unfold inScope
  dsimp only
  by_cases hempty : stripDot scope = ""
  · have hnames : pathNames scope = [] := by
      rw [← pathNames_stripDot, hempty]
      simp [pathNames]
    simp [hempty, hnames]
  · rw [if_neg hempty, List.isPrefixOf_iff_prefix, components_prefix_iff hempty,
      pathNames_stripDot, pathNames_stripDot]
    tauto

/-- The scope `.` admits no path below it, and `.//src` nothing below `src`. -/
theorem dot_scope_admits_nothing :
    inScope "src/lib.rs" (some ".") = false ∧ pathNames "." <+: pathNames "src/lib.rs" ∧
      inScope "src/lib.rs" (some ".//src") = false ∧
      pathNames ".//src" <+: pathNames "src/lib.rs" := by
  decide

end DeepFinder
