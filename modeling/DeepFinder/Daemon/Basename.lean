import DeepFinder.Core.CaseSensitive
import DeepFinder.Daemon.Transparency

/-!
# Basename mode

In basename mode the filename layer evaluates the query on whole paths, and keeps the paths whose
base name contains the text of the query.  `basename_exact_iff` says when that leaves the documents
whose base name satisfies the query.

A base name that contains the text of a query contains its terms, and so does the path; all there is
to ask is whether a base name that satisfies the query contains the text of it, too.

The layer is that of an unlimited request; with a limit, what is cut is cut before the base names
are looked at (`Daemon/Limits.lean`).  Neither half of the condition mentions the result: the first
is about the terms and the text of the query and the base names in scope, the second about the index
on paths whose base name contains the text, and it is met whenever letter case does not count or the
query has no capital sigma.
-/

namespace DeepFinder

open ByteString

/-- Whether a base name satisfies a query: its tree holds of it, or it contains the text when there
is no tree. -/
def nameAccepts (caseSensitive : Bool) (q name : String) : Bool :=
  match parse q with
  | some n => n.holds caseSensitive name
  | none => termMatches caseSensitive q name

section Names

variable {docs : List (String × LiteMeta)} {caseSensitive : Bool} {q path : String}

lemma found_of_termMatches (h : caseSensitive = false ∨ 'Σ' ∉ q.toList) {f : String × LiteMeta}
    (hf : f ∈ docs) (hm : termMatches caseSensitive q f.1 = true) :
    found docs caseSensitive q f.1 = true := by
  rw [found, hm, Bool.true_and]
  cases caseSensitive with
  | false => exact walked_of_subset fun _ => trigrams_mono (termMatches_false_iff.mp hm)
  | true => exact no_sigma_walked (h.resolve_left (by decide)) docs f hf hm

/-- Where the base name contains the text of the query, the index judges the path as the base name
is to be judged. -/
lemma indexAccepts_of_baseName (h : caseSensitive = false ∨ 'Σ' ∉ q.toList) (hne : q ≠ "")
    {f : String × LiteMeta} (hf : f ∈ docs)
    (hm : termMatches caseSensitive q (baseName f.1) = true) :
    indexAccepts docs caseSensitive q f.1 = nameAccepts caseSensitive q (baseName f.1) := by
  have hwhole := found_of_termMatches h hf (termMatches_of_baseName hm)
  rw [indexAccepts, if_neg hne, nameAccepts]
  cases hq : parse q with
  | none =>
      have hcompound : compound q = none := by rw [compound, hq]
      rw [hcompound]
      exact hwhole.trans hm.symm
  | some n =>
      have hterms : ∀ t ∈ n.terms, termMatches caseSensitive t (baseName f.1) = true :=
        fun t ht => termMatches_of_parse hq ht hm
      cases hcompound : compound q with
      | none =>
          obtain ⟨w, rfl⟩ := exists_term_of_not_compound hq hcompound
          exact hwhole.trans (hterms w (List.mem_singleton.mpr rfl)).symm
      | some n' =>
          obtain ⟨hq', -⟩ := parse_of_compound hcompound
          obtain rfl := Option.some.inj (hq.symm.trans hq')
          dsimp only
          rw [Node.holds_eq_eval]
          refine Node.eval_congr fun t ht => ?_
          have hsigma : caseSensitive = false ∨ 'Σ' ∉ t.toList := h.imp_right fun hs hmem =>
            hs ((infix_of_parse hq ht).1.subset hmem)
          rw [hterms t ht, found_of_termMatches hsigma hf (termMatches_of_baseName (hterms t ht))]

end Names

/-! ## The filename layer -/

section Layer

variable {db : FilenameDb} {docs : List (String × LiteMeta)} {ctx : QueryCtx}

/-- Without a limit the filename layer merges the hits among the documents that the index
accepts. -/
lemma filenameLayer_eq (h : db.Indexes docs) (hfn : ctx.wantFn = true)
    (hlimit : ctx.effLimit = none) :
    filenameLayer ctx db none = .ok ((filenameHits ctx docs
      (docsWhere docs (indexAccepts docs ctx.fnCase ctx.needle))).foldl (mergeIn none) []) := by
  rw [filenameLayer, if_pos hfn, h.queryDocids_found, Res.unwrapOr_ok, bind_ok, hlimit, takeOpt]
  exact filenameLoop_eq h ctx none (fun d hd => lt_of_mem_docsWhere hd) allFilename_nil

/-- Its paths are those that the index accepts and the loop shows. -/
lemma filenameLayer_paths (h : db.Indexes docs) (hfn : ctx.wantFn = true)
    (hlimit : ctx.effLimit = none) :
    ∃ merged, filenameLayer ctx db none = .ok merged ∧
      ∀ x, x ∈ merged.map Prod.fst ↔ ∃ f ∈ docs, f.1 = x ∧
        indexAccepts docs ctx.fnCase ctx.needle x = true ∧ ctx.shows x = true := by
  refine ⟨_, filenameLayer_eq h hfn hlimit, fun x => ?_⟩
  rw [foldl_mergeIn, putAllCapped_none, AssocMap.mem_map_fst_putAll, map_fst_mergeUpdate,
    filenameHits_docsWhere, List.map_map]
  simp only [List.map_nil, List.not_mem_nil, false_or, List.mem_map, List.mem_filter,
    Bool.and_eq_true, Function.comp_apply]
  constructor
  · rintro ⟨f, ⟨hf, haccepts⟩, rfl⟩
    exact ⟨f, hf, rfl, haccepts⟩
  · rintro ⟨f, hf, rfl, haccepts⟩
    exact ⟨f, ⟨hf, haccepts⟩, rfl⟩

/-- In basename mode the filename layer returns exactly the documents in scope whose base name
satisfies the query when each of these base names contains the text of the query, and where a base
name contains the text the index judges the path as the base name.  The latter can only fail with
regard to case, for a query with a capital sigma. -/
theorem basename_exact_iff (h : db.Indexes docs) (hfn : ctx.wantFn = true)
    (hmode : ctx.pathMode = .basename) (hlimit : ctx.effLimit = none) :
    ∃ merged, filenameLayer ctx db none = .ok merged ∧
      ((∀ x, x ∈ merged.map Prod.fst ↔ ∃ f ∈ docs, f.1 = x ∧ inScope x ctx.scope = true ∧
          nameAccepts ctx.fnCase ctx.needle (baseName x) = true) ↔
        (∀ f ∈ docs, inScope f.1 ctx.scope = true →
          nameAccepts ctx.fnCase ctx.needle (baseName f.1) = true →
            ctx.needle ≠ "" ∧ termMatches ctx.fnCase ctx.needle (baseName f.1) = true) ∧
        (∀ f ∈ docs, inScope f.1 ctx.scope = true → ctx.needle ≠ "" →
          termMatches ctx.fnCase ctx.needle (baseName f.1) = true →
            indexAccepts docs ctx.fnCase ctx.needle f.1 =
              nameAccepts ctx.fnCase ctx.needle (baseName f.1))) ∧
      (ctx.fnCase = false ∨ 'Σ' ∉ ctx.needle.toList → ∀ f ∈ docs, ctx.needle ≠ "" →
        termMatches ctx.fnCase ctx.needle (baseName f.1) = true →
          indexAccepts docs ctx.fnCase ctx.needle f.1 =
            nameAccepts ctx.fnCase ctx.needle (baseName f.1)) := by
  obtain ⟨merged, hmerged, hpaths⟩ := filenameLayer_paths h hfn hlimit
  refine ⟨merged, hmerged, ?_, fun hs f hf hne hm => indexAccepts_of_baseName hs hne hf hm⟩
  have hshows : ∀ x, ctx.shows x = true ↔ inScope x ctx.scope = true ∧
      termMatches ctx.fnCase ctx.needle (baseName x) = true := by
    intro x
    rw [QueryCtx.shows, hmode, Bool.and_eq_true]
    rfl
  have hne : ∀ x, indexAccepts docs ctx.fnCase ctx.needle x = true → ctx.needle ≠ "" := by
    intro x hx heq
    rw [indexAccepts, if_pos heq] at hx
    cases hx
  simp only [hpaths, hshows]
  constructor
  · intro heq
    refine ⟨fun f hf hscope hname => ?_, fun f hf hscope _ hm => ?_⟩
    · obtain ⟨-, -, -, haccepts, -, hm⟩ := (heq f.1).mpr ⟨f, hf, rfl, hscope, hname⟩
      exact ⟨hne f.1 haccepts, hm⟩
    · rw [Bool.eq_iff_iff]
      constructor
      · intro haccepts
        obtain ⟨-, -, -, -, hname⟩ := (heq f.1).mp ⟨f, hf, rfl, haccepts, hscope, hm⟩
        exact hname
      · intro hname
        obtain ⟨-, -, -, haccepts, -⟩ := (heq f.1).mpr ⟨f, hf, rfl, hscope, hname⟩
        exact haccepts
  · rintro ⟨hraw, hjudge⟩ x
    constructor
    · rintro ⟨f, hf, rfl, haccepts, hscope, hm⟩
      exact ⟨f, hf, rfl, hscope, hjudge f hf hscope (hne f.1 haccepts) hm ▸ haccepts⟩
    · rintro ⟨f, hf, rfl, hscope, hname⟩
      obtain ⟨hne, hm⟩ := hraw f hf hscope hname
      exact ⟨f, hf, rfl, (hjudge f hf hscope hne hm).trans hname, hscope, hm⟩

end Layer

/-- The terms of the query stand apart in the base name. -/
theorem basename_terms_apart_not_found :
    ∃ bytes r, (DbBuilder.ofFiles [("/d/a_b.rs", ⟨false, 3, 1⟩)] 0).finish .stored = .ok bytes ∧
      DbReader.open bytes = .ok r ∧
      parse "a b" = some (.and (.term "a") (.term "b")) ∧
      nameAccepts false "a b" (baseName "/d/a_b.rs") = true ∧
      filenameLayer (filenameCtx "a b" false .basename none) (r.view .stored) none = .ok [] := by
  obtain ⟨bytes, r, hfinish, hopen, hindex⟩ := @DbBuilder.stored_indexes
    [("/d/a_b.rs", ⟨false, 3, 1⟩)] (by decide +kernel)
  refine ⟨bytes, r, hfinish, hopen, by decide +kernel, by decide +kernel, ?_⟩
  rw [filenameLayer_eq hindex rfl rfl]
  decide +kernel

/-- A lone term is looked for in the base names. -/
theorem basename_exact_iff_two :
    let docs : List (String × LiteMeta) :=
      [("/sub/x.txt", ⟨false, 1, 1⟩), ("/Sub.txt", ⟨false, 1, 2⟩)]
    ∃ bytes r merged, (DbBuilder.ofFiles docs 0).finish .stored = .ok bytes ∧
      DbReader.open bytes = .ok r ∧
      filenameLayer (filenameCtx "sub" false .basename none) (r.view .stored) none = .ok merged ∧
      ∀ x, x ∈ merged.map Prod.fst ↔ x = "/Sub.txt" := by
  intro docs
  obtain ⟨bytes, r, hfinish, hopen, hindex⟩ := @DbBuilder.stored_indexes docs (by decide +kernel)
  obtain ⟨merged, hmerged, hiff, hjudge⟩ := @basename_exact_iff _ _
    (filenameCtx "sub" false .basename none) hindex rfl rfl rfl
  refine ⟨bytes, r, merged, hfinish, hopen, hmerged, fun x => ?_⟩
  have hexact := hiff.mpr ⟨by decide +kernel, fun f hf _ => hjudge (Or.inl rfl) f hf⟩
  have hnames : ∀ f ∈ docs, nameAccepts false "sub" (baseName f.1) = true → f.1 = "/Sub.txt" := by
    decide +kernel
  rw [hexact x]
  constructor
  · rintro ⟨f, hf, rfl, -, hname⟩
    exact hnames f hf hname
  · rintro rfl
    exact ⟨("/Sub.txt", ⟨false, 1, 2⟩), by decide, rfl, by decide +kernel, by decide +kernel⟩

end DeepFinder
