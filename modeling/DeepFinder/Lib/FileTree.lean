import DeepFinder.Lib.AssocMap

/-!
# Walking a file tree

A tree of named entries, the path lookup, and the preorder walk of a visitor that may skip entries
and decline to descend.  `mem_walk_iff` says which entries a walk visits: those that resolve and
that no directory on the way prunes.

The visitor sees the path of an entry and the entry, and answers whether the walk goes on; its
answers may depend on both in any way.  Names of entries are distinct within a directory where a
result needs that (`NamesNodup`).
-/

/-- A tree whose inner nodes name their entries. -/
inductive FileTree (ν α δ : Type) where
  | leaf (value : α)
  | dir (value : δ) (entries : List (ν × FileTree ν α δ))

namespace FileTree

variable {ν α δ : Type}

/-! ## Lookup and walk -/

def resolve [DecidableEq ν] : FileTree ν α δ → List ν → Option (FileTree ν α δ)
  | t, [] => some t
  | .leaf _, _ :: _ => none
  | .dir _ entries, name :: names => (entries.lookup name).bind fun t => t.resolve names

mutual

/-- The entries visited below `path`, in preorder: an entry of a directory is passed over unless
it is listed, and a directory is left unless it is entered. -/
def walk (lists enters : List ν → FileTree ν α δ → Bool) (path : List ν) :
    FileTree ν α δ → List (List ν × FileTree ν α δ)
  | .leaf a => [(path, .leaf a)]
  | .dir d entries =>
      (path, .dir d entries) ::
        if enters path (.dir d entries) then walkEntries lists enters path entries else []

/-- The visits to the entries of a directory. -/
def walkEntries (lists enters : List ν → FileTree ν α δ → Bool) (path : List ν) :
    List (ν × FileTree ν α δ) → List (List ν × FileTree ν α δ)
  | [] => []
  | (name, t) :: entries =>
      (if lists (path ++ [name]) t then walk lists enters (path ++ [name]) t else []) ++
        walkEntries lists enters path entries

end

mutual

def NamesNodup : FileTree ν α δ → Prop
  | .leaf _ => True
  | .dir _ entries => (entries.map Prod.fst).Nodup ∧ EntriesNodup entries

/-- No directory among the entries has two entries of one name. -/
def EntriesNodup : List (ν × FileTree ν α δ) → Prop
  | [] => True
  | (_, t) :: entries => t.NamesNodup ∧ EntriesNodup entries

end

mutual

/-- Every entry's name satisfies `P`. -/
def AllNames (P : ν → Prop) : FileTree ν α δ → Prop
  | .leaf _ => True
  | .dir _ entries => EntriesAllNames P entries

/-- The names of the entries, and all names below them, satisfy `P`. -/
def EntriesAllNames (P : ν → Prop) : List (ν × FileTree ν α δ) → Prop
  | [] => True
  | (name, t) :: entries => P name ∧ t.AllNames P ∧ EntriesAllNames P entries

end

lemma EntriesAllNames.of_lookup [DecidableEq ν] {P : ν → Prop}
    {entries : List (ν × FileTree ν α δ)} {name : ν} {t : FileTree ν α δ}
    (h : EntriesAllNames P entries) (ht : entries.lookup name = some t) : P name ∧ t.AllNames P := by
  induction entries with
  | nil => cases ht
  | cons e entries ih =>
      obtain ⟨first, u⟩ := e
      rw [EntriesAllNames] at h
      rw [List.lookup_cons] at ht
      by_cases hname : name = first
      · rw [hname, beq_self_eq_true] at ht
        rw [hname, ← Option.some.inj ht]
        exact ⟨h.1, h.2.1⟩
      · rw [beq_eq_false_iff_ne.mpr hname] at ht
        exact ih h.2.2 ht

/-- The components of a path that resolves are names of entries. -/
lemma AllNames.of_resolve [DecidableEq ν] {P : ν → Prop} {t u : FileTree ν α δ} {p : List ν}
    (h : t.AllNames P) (hp : t.resolve p = some u) : ∀ name ∈ p, P name := by
  induction p generalizing t with
  | nil => exact fun name hname => absurd hname List.not_mem_nil
  | cons first p ih =>
      cases t with
      | leaf a =>
          rw [resolve] at hp
          cases hp
      | dir d entries =>
          rw [resolve] at hp
          obtain ⟨t, ht, hp⟩ := Option.bind_eq_some_iff.mp hp
          rw [AllNames] at h
          obtain ⟨hfirst, ht⟩ := h.of_lookup ht
          intro name hname
          rcases List.mem_cons.mp hname with rfl | hname
          · exact hfirst
          · exact ih ht hp name hname

/-! ## Where a walk goes -/

section Paths

variable {lists enters : List ν → FileTree ν α δ → Bool}

mutual

/-- A walk stays below its path. -/
theorem prefix_of_mem_walk {q : List ν} : ∀ (t : FileTree ν α δ) {path : List ν},
    q ∈ (walk lists enters path t).map Prod.fst → path <+: q
  | .leaf a, path, h => by
      rw [walk, List.map_singleton, List.mem_singleton] at h
      exact h ▸ List.prefix_refl _
  | .dir d entries, path, h => by
      rw [walk, List.map_cons, List.mem_cons] at h
      rcases h with rfl | h
      · exact List.prefix_refl _
      · split at h
        · obtain ⟨name, -, hpre⟩ := prefix_of_mem_walkEntries entries h
          exact (List.prefix_append _ _).trans hpre
        · exact absurd h List.not_mem_nil

/-- The walk of a directory's entries stays below one of them. -/
theorem prefix_of_mem_walkEntries {q : List ν} : ∀ (entries : List (ν × FileTree ν α δ))
    {path : List ν}, q ∈ (walkEntries lists enters path entries).map Prod.fst →
      ∃ name ∈ entries.map Prod.fst, path ++ [name] <+: q
  | [], path, h => by
      rw [walkEntries] at h
      exact absurd h List.not_mem_nil
  | (name, t) :: entries, path, h => by
      rw [walkEntries, List.map_append, List.mem_append] at h
      rcases h with h | h
      · split at h
        · exact ⟨name, List.mem_cons_self .., prefix_of_mem_walk t h⟩
        · exact absurd h List.not_mem_nil
      · obtain ⟨name', hname', hpre⟩ := prefix_of_mem_walkEntries entries h
        exact ⟨name', List.mem_cons_of_mem _ hname', hpre⟩

end

mutual

/-- A walk comes to a path once. -/
theorem nodup_walk : ∀ (t : FileTree ν α δ) (path : List ν), t.NamesNodup →
    ((walk lists enters path t).map Prod.fst).Nodup
  | .leaf a, path, _ => by
      rw [walk, List.map_singleton]
      exact List.nodup_singleton _
  | .dir d entries, path, h => by
      rw [NamesNodup] at h
      rw [walk, List.map_cons, List.nodup_cons]
      split
      · refine ⟨fun hmem => ?_, nodup_walkEntries entries path h.1 h.2⟩
        obtain ⟨name, -, hpre⟩ := prefix_of_mem_walkEntries entries hmem
        have hlen : (path ++ [name]).length ≤ path.length := hpre.length_le
        rw [List.length_append, List.length_singleton] at hlen
        omega
      · exact ⟨List.not_mem_nil, List.nodup_nil⟩

/-- The walk of a directory's entries comes to a path once. -/
theorem nodup_walkEntries : ∀ (entries : List (ν × FileTree ν α δ)) (path : List ν),
    (entries.map Prod.fst).Nodup → EntriesNodup entries →
      ((walkEntries lists enters path entries).map Prod.fst).Nodup
  | [], path, _, _ => by
      rw [walkEntries]
      exact List.nodup_nil
  | (name, t) :: entries, path, hnodup, h => by
      rw [EntriesNodup] at h
      rw [List.map_cons, List.nodup_cons] at hnodup
      have hrest := nodup_walkEntries entries path hnodup.2 h.2
      rw [walkEntries, List.map_append]
      split
      · refine List.nodup_append.mpr ⟨nodup_walk t _ h.1, hrest, fun q hq r hr => ?_⟩
        rintro rfl
        obtain ⟨name', hname', hpre'⟩ := prefix_of_mem_walkEntries entries hr
        have hpre := prefix_of_mem_walk t hq
        -- two entries of one directory are not above the same path
        have heq : path ++ [name] = path ++ [name'] := by
          refine (List.prefix_of_prefix_length_le hpre hpre' ?_).eq_of_length ?_
          · rw [List.length_append, List.length_append, List.length_singleton,
              List.length_singleton]
          · rw [List.length_append, List.length_append, List.length_singleton,
              List.length_singleton]
        obtain rfl : name = name' := by simpa using heq
        exact hnodup.1 hname'
      · exact hrest

end

end Paths

/-! ## What a visitor makes of a walk -/

section Visitor

variable {β : Type} {lists enters enters' : List ν → FileTree ν α δ → Bool}
  {f : List ν × FileTree ν α δ → Option β} (Dead : List ν → Prop)

mutual

/-- A visitor makes nothing of a part of the tree where it is silent. -/
theorem filterMap_walk_of_dead (hstep : ∀ p n, Dead p → Dead (p ++ [n]))
    (hf : ∀ p u, Dead p → f (p, u) = none) : ∀ (t : FileTree ν α δ) {path : List ν}, Dead path →
      (walk lists enters path t).filterMap f = []
  | .leaf a, path, hpath => by
      rw [walk]
      simp [hf path (.leaf a) hpath]
  | .dir d entries, path, hpath => by
      rw [walk, List.filterMap_cons_none (hf path _ hpath)]
      split
      · exact filterMap_walkEntries_of_dead hstep hf entries hpath
      · rfl

/-- The same of the entries of a directory. -/
theorem filterMap_walkEntries_of_dead (hstep : ∀ p n, Dead p → Dead (p ++ [n]))
    (hf : ∀ p u, Dead p → f (p, u) = none) : ∀ (entries : List (ν × FileTree ν α δ))
      {path : List ν}, Dead path → (walkEntries lists enters path entries).filterMap f = []
  | [], path, _ => by rw [walkEntries, List.filterMap_nil]
  | (name, t) :: entries, path, hpath => by
      rw [walkEntries, List.filterMap_append, filterMap_walkEntries_of_dead hstep hf entries hpath,
        List.append_nil]
      split
      · exact filterMap_walk_of_dead hstep hf t (hstep path name hpath)
      · rfl

end

mutual

/-- A visitor makes the same of two walks that part only where it is silent. -/
theorem filterMap_walk_congr (hstep : ∀ p n, Dead p → Dead (p ++ [n]))
    (hf : ∀ p u, Dead p → f (p, u) = none)
    (henters : ∀ p u, ¬ Dead p → enters p u = enters' p u) :
    ∀ (t : FileTree ν α δ) (path : List ν),
      (walk lists enters path t).filterMap f = (walk lists enters' path t).filterMap f
  | .leaf a, path => by rw [walk, walk]
  | .dir d entries, path => by
      by_cases hpath : Dead path
      · rw [filterMap_walk_of_dead Dead hstep hf _ hpath,
          filterMap_walk_of_dead Dead hstep hf _ hpath]
      · have hbelow : (walkEntries lists enters path entries).filterMap f =
            (walkEntries lists enters' path entries).filterMap f :=
          filterMap_walkEntries_congr hstep hf henters entries path
        rw [walk, walk, henters path _ hpath]
        split
        · rw [List.filterMap_cons, List.filterMap_cons, hbelow]
        · rfl

/-- The same of the entries of a directory. -/
theorem filterMap_walkEntries_congr (hstep : ∀ p n, Dead p → Dead (p ++ [n]))
    (hf : ∀ p u, Dead p → f (p, u) = none)
    (henters : ∀ p u, ¬ Dead p → enters p u = enters' p u) :
    ∀ (entries : List (ν × FileTree ν α δ)) (path : List ν),
      (walkEntries lists enters path entries).filterMap f =
        (walkEntries lists enters' path entries).filterMap f
  | [], path => by rw [walkEntries, walkEntries]
  | (name, t) :: entries, path => by
      rw [walkEntries, walkEntries, List.filterMap_append, List.filterMap_append,
        filterMap_walkEntries_congr hstep hf henters entries path]
      split
      · rw [filterMap_walk_congr hstep hf henters t (path ++ [name])]
      · rfl

end

end Visitor

/-! ## What a walk visits -/

section Walk

variable [DecidableEq ν] {lists enters : List ν → FileTree ν α δ → Bool}

/-- The entry at a path below `path`, if a walk gets there. -/
def reach (lists enters : List ν → FileTree ν α δ → Bool) :
    List ν → FileTree ν α δ → List ν → Option (FileTree ν α δ)
  | _, t, [] => some t
  | _, .leaf _, _ :: _ => none
  | path, .dir d entries, name :: names =>
      if enters path (.dir d entries) then
        (entries.lookup name).bind fun t =>
          if lists (path ++ [name]) t then reach lists enters (path ++ [name]) t names else none
      else none

mutual

/-- A walk visits what it reaches. -/
theorem mem_walk_iff_reach {q : List ν} {u : FileTree ν α δ} : ∀ (t : FileTree ν α δ)
    (path : List ν), t.NamesNodup →
      ((q, u) ∈ walk lists enters path t ↔
        ∃ p, q = path ++ p ∧ reach lists enters path t p = some u)
  | .leaf a, path, _ => by
      rw [walk, List.mem_singleton]
      constructor
      · intro h
        obtain ⟨rfl, rfl⟩ := Prod.mk.inj h
        exact ⟨[], by rw [List.append_nil], by rw [reach]⟩
      · rintro ⟨p, rfl, hp⟩
        cases p with
        | nil =>
            rw [reach] at hp
            rw [List.append_nil, Option.some.inj hp]
        | cons name names =>
            rw [reach] at hp
            cases hp
  | .dir d entries, path, h => by
      rw [NamesNodup] at h
      rw [walk, List.mem_cons]
      constructor
      · rintro (hself | hbelow)
        · obtain ⟨rfl, rfl⟩ := Prod.mk.inj hself
          exact ⟨[], by rw [List.append_nil], by rw [reach]⟩
        · split at hbelow
          · rename_i henters
            obtain ⟨name, names, t, hlook, rfl, hlists, hreach⟩ :=
              (mem_walkEntries_iff entries path h.1 h.2).mp hbelow
            refine ⟨name :: names, rfl, ?_⟩
            rw [reach, if_pos henters, hlook, Option.bind_some, if_pos hlists, hreach]
          · exact absurd hbelow List.not_mem_nil
      · rintro ⟨p, rfl, hp⟩
        cases p with
        | nil =>
            rw [reach] at hp
            rw [List.append_nil, Option.some.inj hp]
            exact Or.inl rfl
        | cons name names =>
            rw [reach] at hp
            split at hp
            · rename_i henters
              obtain ⟨t, hlook, hp⟩ := Option.bind_eq_some_iff.mp hp
              split at hp
              · rename_i hlists
                rw [if_pos henters]
                exact Or.inr ((mem_walkEntries_iff entries path h.1 h.2).mpr
                  ⟨name, names, t, hlook, rfl, hlists, hp⟩)
              · cases hp
            · cases hp

/-- The walk of a directory's entries visits what it reaches through one of them. -/
theorem mem_walkEntries_iff {q : List ν} {u : FileTree ν α δ} :
    ∀ (entries : List (ν × FileTree ν α δ)) (path : List ν), (entries.map Prod.fst).Nodup →
      EntriesNodup entries →
      ((q, u) ∈ walkEntries lists enters path entries ↔
        ∃ name names t, entries.lookup name = some t ∧ q = path ++ name :: names ∧
          lists (path ++ [name]) t = true ∧ reach lists enters (path ++ [name]) t names = some u)
  | [], path, _, _ => by
      rw [walkEntries]
      simp
  | (name, t) :: entries, path, hnodup, h => by
      rw [EntriesNodup] at h
      rw [List.map_cons, List.nodup_cons] at hnodup
      have hfresh : entries.lookup name = none := AssocMap.lookup_eq_none.mpr hnodup.1
      rw [walkEntries, List.mem_append, mem_walkEntries_iff entries path hnodup.2 h.2]
      constructor
      · rintro (hfirst | ⟨name', names, t', hlook, rfl, hlists, hreach⟩)
        · split at hfirst
          · rename_i hlists
            obtain ⟨names, rfl, hreach⟩ := (mem_walk_iff_reach t _ h.1).mp hfirst
            exact ⟨name, names, t, List.lookup_cons_self, by simp, hlists, hreach⟩
          · exact absurd hfirst List.not_mem_nil
        · refine ⟨name', names, t', ?_, rfl, hlists, hreach⟩
          rw [List.lookup_cons, beq_eq_false_iff_ne.mpr]
          · exact hlook
          · rintro rfl
            rw [hfresh] at hlook
            cases hlook
      · rintro ⟨name', names, t', hlook, rfl, hlists, hreach⟩
        rw [List.lookup_cons] at hlook
        by_cases hname : name' = name
        · subst hname
          rw [beq_self_eq_true] at hlook
          obtain rfl := Option.some.inj hlook
          rw [if_pos hlists]
          exact Or.inl ((mem_walk_iff_reach t _ h.1).mpr ⟨names, by simp, hreach⟩)
        · rw [beq_eq_false_iff_ne.mpr hname] at hlook
          exact Or.inr ⟨name', names, t', hlook, rfl, hlists, hreach⟩

end

/-- A walk reaches the entry of a path when it enters every directory on the way and lists every
entry on the way. -/
theorem reach_eq_some_iff {p : List ν} {u : FileTree ν α δ} {t : FileTree ν α δ} {path : List ν} :
    reach lists enters path t p = some u ↔
      t.resolve p = some u ∧
      (∀ q r v, p = q ++ r → r ≠ [] → t.resolve q = some v → enters (path ++ q) v = true) ∧
      ∀ q r v, p = q ++ r → q ≠ [] → t.resolve q = some v → lists (path ++ q) v = true := by
  -- The conditions on the way are asked of every ancestor; the one at the root of the subtree is
  -- split off in each step.
  induction p generalizing t path with
  | nil =>
      rw [reach, resolve]
      refine ⟨fun h => ⟨h, ?_, ?_⟩, fun h => h.1⟩
      · intro q r v hnil hr
        exact absurd (List.append_eq_nil_iff.mp hnil.symm).2 hr
      · intro q r v hnil hq
        exact absurd (List.append_eq_nil_iff.mp hnil.symm).1 hq
  | cons name names ih =>
      cases t with
      | leaf a =>
          rw [reach, resolve]
          exact iff_of_false (fun h => nomatch h) fun h => nomatch h.1
      | dir d entries =>
          rw [reach, resolve]
          constructor
          · intro h
            split at h
            · rename_i henters
              obtain ⟨t, hlook, h⟩ := Option.bind_eq_some_iff.mp h
              split at h
              · rename_i hlists
                obtain ⟨hres, hent, hlist⟩ := ih.mp h
                have hstep : ∀ q, (FileTree.dir d entries).resolve (name :: q) = t.resolve q := by
                  intro q
                  rw [resolve, hlook, Option.bind_some]
                refine ⟨by rw [hlook, Option.bind_some, hres], ?_, ?_⟩
                · intro q r v hp hr hq
                  cases q with
                  | nil =>
                      rw [resolve] at hq
                      rw [List.append_nil, ← Option.some.inj hq, henters]
                  | cons first q =>
                      obtain ⟨rfl, htail⟩ := List.cons.inj hp
                      rw [hstep] at hq
                      simpa using hent q r v htail hr hq
                · intro q r v hp hne hq
                  cases q with
                  | nil => exact absurd rfl hne
                  | cons first q =>
                      obtain ⟨rfl, htail⟩ := List.cons.inj hp
                      rw [hstep] at hq
                      cases q with
                      | nil =>
                          rw [resolve] at hq
                          rw [← Option.some.inj hq, hlists]
                      | cons second q => simpa using hlist (second :: q) r v htail (by simp) hq
              · cases h
            · cases h
          · rintro ⟨hres, hent, hlist⟩
            obtain ⟨t, hlook, hres⟩ := Option.bind_eq_some_iff.mp hres
            have hstep : ∀ q, (FileTree.dir d entries).resolve (name :: q) = t.resolve q := by
              intro q
              rw [resolve, hlook, Option.bind_some]
            have henters := hent [] (name :: names) _ rfl (by simp) (by rw [resolve])
            have hlists := hlist [name] names t rfl (by simp) (by rw [hstep, resolve])
            rw [List.append_nil] at henters
            rw [if_pos henters, hlook, Option.bind_some, if_pos hlists]
            refine ih.mpr ⟨hres, ?_, ?_⟩
            · intro q r v hp hr hq
              have := hent (name :: q) r v (by rw [hp]; rfl) hr (by rw [hstep, hq])
              simpa using this
            · intro q r v hp hq hqv
              have := hlist (name :: q) r v (by rw [hp]; rfl) (by simp) (by rw [hstep, hqv])
              simpa using this

/-- A walk of a tree visits an entry at a path exactly when the path resolves to it and the walk
enters every directory above it and lists every entry on the way. -/
theorem mem_walk_iff {t : FileTree ν α δ} (ht : t.NamesNodup) {p : List ν} {u : FileTree ν α δ} :
    (p, u) ∈ walk lists enters [] t ↔
      t.resolve p = some u ∧
      (∀ q r v, p = q ++ r → r ≠ [] → t.resolve q = some v → enters q v = true) ∧
      ∀ q r v, p = q ++ r → q ≠ [] → t.resolve q = some v → lists q v = true := by
  rw [mem_walk_iff_reach t [] ht]
  simp only [List.nil_append, exists_eq_left', reach_eq_some_iff]

end Walk

end FileTree
