import DeepFinder.Core.Query
import DeepFinder.Index.Walk
import DeepFinder.Ipc.Filter

/-!
# The direct scan

`--direct` searches paths by walking the tree instead of asking the index.  It should return no
path that a build with the same settings would not record, but it tests every entry by itself where
the build prunes whole directories: `direct_scan_within_build_iff`.

## The condition

`HitsUnpruned` is a condition on the tree, the settings and the request: for every entry that passes
the scan's own tests, nothing on the way down to it makes the walk of a build turn back, be it a
name to skip, a hidden directory, the settings' patterns or another device.  The scan tests these
names and patterns against the entry alone, so a hit in a skipped directory is a hit that no index
has.  Both sides see one tree; a scan that races with changes is not considered.
-/

namespace DeepFinder

open ByteString

/-! ## The scan -/

/-- A directory whose listing is an error of the walk. -/
def unlistable : FileNode → Bool
  | .leaf (.lockedDir _) => true
  | .leaf (.hiddenStat isDir) => isDir
  | _ => false

/-- The items of a walk with standard filters and no visitor; `none` is an error. -/
def directItems (env : WalkEnv) (hidden : Bool) (fs : FileSystem) :
    List (Option (List Bytes × FileNode)) :=
  (fs.tree.walk (fun p u => env.standard (!hidden) p (nodeIsDir u)) (fun _ _ => true) []).flatMap
    fun e => if unlistable e.2 then [some e, none] else [some e]

/-- The hit of an entry, unless the settings ignore it or its path does not pass. -/
def directHit (env : WalkEnv) (fs : FileSystem) (query : String) (opts : SearchOptions)
    (e : List Bytes × FileNode) : Option (String × LiteMeta × MatchKind) :=
  if env.ignores e.1 (nodeIsDir e.2) then none
  else match fromUtf8 (pathBytes fs.root e.1) with
    | none => none
    | some s =>
        if termMatches (opts.case.isSensitive query) query s && passes s opts then
          some (s, ⟨nodeIsDir e.2, 0, 0⟩, .filename)
        else none

/-- The loop of `direct_scan`; an error of the walk ends it. -/
def directLoop (env : WalkEnv) (fs : FileSystem) (query : String) (opts : SearchOptions)
    (cap : Option ℕ) : List (Option (List Bytes × FileNode)) →
      List (String × LiteMeta × MatchKind) → Except Unit (List (String × LiteMeta × MatchKind))
  | [], out => .ok out
  | item :: items, out =>
      if capReached cap out.length then .ok out
      else match item with
        | none => .error ()
        | some e =>
            directLoop env fs query opts cap items (out ++ (directHit env fs query opts e).toList)

/-- `direct_scan`: the hits, and no lines. -/
def directScan (env : WalkEnv) (fs : FileSystem) (query : String) (limit : Option ℕ)
    (opts : SearchOptions) :
    Except Unit (List (String × LiteMeta × MatchKind) × List LineHit) :=
  (directLoop env fs query opts limit (directItems env opts.hidden fs) []).map fun out => (out, [])

/-! ## What the scan returns -/

section Loop

variable {env : WalkEnv} {fs : FileSystem} {query : String} {opts : SearchOptions}

/-- The entries that a walk lists before its first error. -/
def listedBefore : List (Option (List Bytes × FileNode)) → List (List Bytes × FileNode)
  | [] => []
  | none :: _ => []
  | some e :: items => e :: listedBefore items

/-- The hits that precede the first error of the walk. -/
def directHits (env : WalkEnv) (fs : FileSystem) (query : String) (opts : SearchOptions)
    (items : List (Option (List Bytes × FileNode))) : List (String × LiteMeta × MatchKind) :=
  (listedBefore items).flatMap fun e => (directHit env fs query opts e).toList

/-- The scan returns hits from before the first error only. -/
lemma subset_of_directLoop {cap : Option ℕ} {items : List (Option (List Bytes × FileNode))}
    {out hits : List (String × LiteMeta × MatchKind)}
    (h : directLoop env fs query opts cap items out = .ok hits) :
    hits ⊆ out ++ directHits env fs query opts items := by
  induction items generalizing out with
  | nil =>
      rw [directLoop] at h
      rw [← Except.ok.inj h]
      exact List.subset_append_left _ _
  | cons item items ih =>
      cases item with
      | none =>
          rw [directLoop] at h
          split at h
          · rw [← Except.ok.inj h]
            exact List.subset_append_left _ _
          · cases h
      | some e =>
          rw [directLoop] at h
          split at h
          · rw [← Except.ok.inj h]
            exact List.subset_append_left _ _
          · have hsub := ih h
            rw [List.append_assoc] at hsub
            exact hsub

/-- Capped at the hits before the first error, the scan returns them all. -/
lemma directLoop_capped {items : List (Option (List Bytes × FileNode))}
    {out : List (String × LiteMeta × MatchKind)} {n : ℕ}
    (hn : (out ++ directHits env fs query opts items).length = n) :
    directLoop env fs query opts (some n) items out =
      .ok (out ++ directHits env fs query opts items) := by
  induction items generalizing out with
  | nil =>
      rw [directLoop, directHits, listedBefore, List.flatMap_nil, List.append_nil]
  | cons item items ih =>
      have hfull : capReached (some n) out.length = true →
          directHits env fs query opts (item :: items) = [] := by
        intro hcap
        have hle : n ≤ out.length := of_decide_eq_true hcap
        rw [List.length_append] at hn
        exact List.length_eq_zero_iff.mp (by omega)
      cases item with
      | none =>
          rw [directLoop]
          have hle : n ≤ out.length := by
            rw [← hn, directHits, listedBefore, List.flatMap_nil, List.append_nil]
          rw [if_pos (show capReached (some n) out.length = true from decide_eq_true hle),
            hfull (decide_eq_true hle), List.append_nil]
      | some e =>
          rw [directLoop]
          by_cases hcap : capReached (some n) out.length = true
          · rw [if_pos hcap, hfull hcap, List.append_nil]
          · have hstep : directHits env fs query opts (some e :: items) =
                (directHit env fs query opts e).toList ++ directHits env fs query opts items := rfl
            rw [hstep, ← List.append_assoc] at hn
            rw [if_neg hcap, hstep, ← List.append_assoc]
            exact ih hn

end Loop

/-! ## The scan against the build -/

section Build

variable {env : WalkEnv} {opts : ContentBuildOptions} {fs : FileSystem} {query : String}
  {sopts : SearchOptions}

/-- Whatever the limit, the scan returns only paths that the build records. -/
def DirectWithinBuild (env : WalkEnv) (opts : ContentBuildOptions) (fs : FileSystem)
    (query : String) (sopts : SearchOptions) : Prop :=
  ∀ limit hits lines, directScan env fs query limit sopts = .ok (hits, lines) →
    ∀ hit ∈ hits, ∃ r ∈ buildRecs env opts fs, r.path = hit.1

/-- No directory above an entry that passes the scan is pruned from the build, and neither is the
entry. -/
def HitsUnpruned (env : WalkEnv) (opts : ContentBuildOptions) (fs : FileSystem)
    (query : String) (sopts : SearchOptions) : Prop :=
  ∀ p u, (p, u) ∈ listedBefore (directItems env sopts.hidden fs) →
    (directHit env fs query sopts (p, u)).isSome = true →
      (nodeIsDir u && opts.skip.contains (toStringLossy (fs.entryName p))) = false ∧
      ∀ q r v, p = q ++ r → r ≠ [] → fs.tree.resolve q = some v →
        (visitEntry env opts fs q v).1 = .next ∧ (opts.oneFileSystem && env.otherDevice q) = false

lemma mem_of_mem_listedBefore {items : List (Option (List Bytes × FileNode))}
    {e : List Bytes × FileNode} (h : e ∈ listedBefore items) : some e ∈ items := by
  induction items with
  | nil => exact absurd h List.not_mem_nil
  | cons item items ih =>
      cases item with
      | none => exact absurd h List.not_mem_nil
      | some first =>
          rcases List.mem_cons.mp h with rfl | h
          · exact List.mem_cons_self ..
          · exact List.mem_cons_of_mem _ (ih h)

/-- What the walk lists resolves, and its own filters let it through. -/
lemma listed_of_mem_listedBefore {hidden : Bool} {p : List Bytes} {u : FileNode}
    (h : (p, u) ∈ listedBefore (directItems env hidden fs)) :
    fs.tree.resolve p = some u ∧
      ∀ q r v, p = q ++ r → q ≠ [] → fs.tree.resolve q = some v →
        env.standard (!hidden) q (nodeIsDir v) = true := by
  obtain ⟨e, he, hmem⟩ := List.mem_flatMap.mp (mem_of_mem_listedBefore h)
  have heq : some (p, u) = some e := by
    split at hmem
    · rcases List.mem_cons.mp hmem with hmem | hmem
      · exact hmem
      · exact absurd (List.mem_singleton.mp hmem) (Option.some_ne_none _)
    · exact List.mem_singleton.mp hmem
  rw [← Option.some.inj heq] at he
  obtain ⟨hres, -, hlist⟩ := (FileTree.mem_walk_iff fs.names_nodup).mp he
  exact ⟨hres, hlist⟩

lemma directHit_eq_some {e : List Bytes × FileNode} {hit : String × LiteMeta × MatchKind}
    (h : directHit env fs query sopts e = some hit) :
    env.ignores e.1 (nodeIsDir e.2) = false ∧ fromUtf8 (pathBytes fs.root e.1) = some hit.1 := by
  unfold directHit at h
  split at h
  · cases h
  · rename_i hignored
    split at h
    · cases h
    · rename_i s hs
      split at h
      · rw [← Option.some.inj h]
        exact ⟨Bool.not_eq_true _ ▸ hignored, hs⟩
      · cases h

/-- The scan stays within the build exactly when no hit of it lies in a pruned directory.  The build
runs with the scan's choice about hidden directories; its other options may be any, and so may the
scan's limit, which can only take hits away. -/
theorem direct_scan_within_build_iff :
    DirectWithinBuild env { opts with hidden := sopts.hidden } fs query sopts ↔
      HitsUnpruned env { opts with hidden := sopts.hidden } fs query sopts := by
  constructor
  · intro h p u hlisted hsome
    obtain ⟨hit, hhit⟩ := Option.isSome_iff_exists.mp hsome
    obtain ⟨-, hpath⟩ := directHit_eq_some hhit
    obtain ⟨hres, -⟩ := listed_of_mem_listedBefore hlisted
    have hscan : directScan env fs query
        (some (directHits env fs query sopts (directItems env sopts.hidden fs)).length) sopts =
          .ok (directHits env fs query sopts (directItems env sopts.hidden fs), []) := by
      have hcapped :=
        @directLoop_capped env fs query sopts (directItems env sopts.hidden fs) [] _ rfl
      rw [List.nil_append] at hcapped
      rw [directScan, hcapped]
      rfl
    have hmem : hit ∈ directHits env fs query sopts (directItems env sopts.hidden fs) :=
      List.mem_flatMap.mpr ⟨(p, u), hlisted, Option.mem_toList.mpr hhit⟩
    obtain ⟨r, hr, hrpath⟩ := h _ _ _ hscan hit hmem
    have hat := (mem_buildRecs_iff (fs.names_valid.of_resolve hres) hpath).mp ⟨hr, hrpath⟩
    obtain ⟨v, hv, hvisit⟩ := buildRecAt_eq_some.mp hat
    have huv := hv.resolves
    rw [hres] at huv
    obtain rfl := Option.some.inj huv
    exact ⟨(visitEntry_snd.mp hvisit).1, hv.entered⟩
  · intro h limit hits lines hscan hit hhits
    have hloop : directLoop env fs query sopts limit (directItems env sopts.hidden fs) [] =
        .ok hits := by
      unfold directScan at hscan
      cases hloop : directLoop env fs query sopts limit (directItems env sopts.hidden fs) [] with
      | error e =>
          rw [hloop] at hscan
          cases hscan
      | ok out =>
          rw [hloop] at hscan
          rw [(Prod.mk.inj (Except.ok.inj hscan)).1]
    obtain ⟨⟨p, u⟩, hlisted, hmem⟩ := List.mem_flatMap.mp (subset_of_directLoop hloop hhits)
    have hhit := Option.mem_toList.mp hmem
    obtain ⟨hignored, hpath⟩ := directHit_eq_some hhit
    obtain ⟨hres, hstandard⟩ := listed_of_mem_listedBefore hlisted
    obtain ⟨hskip, hentered⟩ := h p u hlisted (by rw [hhit]; rfl)
    have hvisit := visitEntry_snd.mpr ⟨hskip, hignored, hit.1, hpath, rfl⟩
    have hat := buildRecAt_eq_some.mpr ⟨u, ⟨hres, hentered, hstandard⟩, hvisit⟩
    obtain ⟨hrec, hrecpath⟩ := (mem_buildRecs_iff (fs.names_valid.of_resolve hres) hpath).mpr hat
    exact ⟨_, hrec, hrecpath⟩

end Build

/-- A file in a directory that the settings ignore is not recorded by a build, but the scan returns
it. -/
theorem direct_scan_enters_ignored_directory :
    let env : WalkEnv := {
      standard := fun _ _ _ => true
      otherDevice := fun _ => false
      ignoreMatcher := some ⟨fun p _ =>
        if p.getLast? = some (utf8 "secret") then .ignore else .none⟩ }
    let fs : FileSystem := {
      root := utf8 "/proj"
      rootName := utf8 "proj"
      tree := .dir ⟨64, some 1⟩ [(utf8 "secret", .dir ⟨64, some 1⟩
        [(utf8 "hidden.rs", .leaf (.file ⟨2, some 1⟩ (some [102, 110])))])]
      names_nodup := by simp [FileTree.NamesNodup, FileTree.EntriesNodup]
      names_valid := by simp [FileTree.AllNames, FileTree.EntriesAllNames]; decide }
    directScan env fs "hidden" none {} =
        .ok ([("/proj/secret/hidden.rs", ⟨false, 0, 0⟩, .filename)], []) ∧
      buildRecs env {} fs = [⟨"/proj", true, 64, 1, none⟩] ∧
      ¬ DirectWithinBuild env {} fs "hidden" {} := by
  intro env fs
  have hscan : directScan env fs "hidden" none {} =
      .ok ([("/proj/secret/hidden.rs", ⟨false, 0, 0⟩, .filename)], []) := by decide +kernel
  have hrecs : buildRecs env {} fs = [⟨"/proj", true, 64, 1, none⟩] := by decide +kernel
  refine ⟨hscan, hrecs, fun h => ?_⟩
  obtain ⟨r, hr, hpath⟩ := h none _ _ hscan _ (List.mem_cons_self ..)
  rw [hrecs, List.mem_singleton] at hr
  rw [hr] at hpath
  exact absurd hpath (by decide)

end DeepFinder
