import Mathlib.Data.List.Basic
import Mathlib.Data.List.Sublists
import Mathlib.Tactic.Common

/-!
# Documents with one list

A configuration text stands for a tree of tables, lists and scalars.  A reader of some version
knows one key of the document, whose value is a list, and what an item of that list is: a `Schema`.
It reads the items, passes over what it does not know (`Schema.read`), and writes items into a
document of its own (`Schema.write`).

What the document holds is more than what is read of it: its `contents` are all its keys, and the
items with all their keys.  `kept_write_iff` says when a written document keeps the contents of
another one, and `kept_edit_iff` when a reader that edits the items it has read, and writes them
back, does so: it loses every key that it does not know, and all the items when it could not read.
-/

namespace Document

/-- A document.  A scalar other than a text is its literal. -/
inductive Value where
  | text (s : String)
  | scalar (literal : String)
  | list (items : List Value)
  | table (entries : List (String × Value))

namespace Value

def elements : Value → List Value
  | list items => items
  | _ => []

def entries : Value → List (String × Value)
  | table entries => entries
  | _ => []

def hollow : Value → Value
  | list _ => list []
  | v => v

def textAt (key : String) (entries : List (String × Value)) : Option String :=
  match entries.filter (fun e => e.1 = key) with
  | [(_, text s)] => some s
  | _ => none

end Value

open Value

/-- The key that a reader knows, and the items it knows under it. -/
structure Schema (α : Type*) where
  field : String
  decode : Value → Option α
  encode : α → Value
  decode_encode : ∀ a, decode (encode a) = some a

variable {α : Type*} (sch : Schema α)

def Schema.readItems : Value → Option (List α)
  | list items => items.mapM sch.decode
  | _ => none

/-- The items of a document, in either form of a derived deserializer: under the key, which may be
missing but not repeated, or in the first place of a list. -/
def Schema.read : Value → Option (List α)
  | table entries =>
      match entries.filter (fun e => e.1 = sch.field) with
      | [] => some []
      | [e] => sch.readItems e.2
      | _ => none
  | list [] => some []
  | list [v] => sch.readItems v
  | _ => none

def Schema.write (items : List α) : Value := table [(sch.field, list (items.map sch.encode))]

/-! ## Contents -/

/-- What a document holds: its keys with their values, the list of items hollow, and the items. -/
structure Contents where
  keys : List (String × Value)
  items : List Value

def Contents.empty : Contents := ⟨[], []⟩

/-- The contents of a document; none where it is not made of keys and items. -/
def Schema.contents : Value → Option Contents
  | table entries => some
      ⟨entries.map fun e => if e.1 = sch.field then (e.1, e.2.hollow) else e,
        (entries.filter fun e => e.1 = sch.field).flatMap fun e => e.2.elements⟩
  | list [] => some Contents.empty
  | list [list items] => some ⟨[], items⟩
  | _ => none

@[simp] lemma contents_write (items : List α) : sch.contents (sch.write items) =
    some ⟨[(sch.field, list [])], items.map sch.encode⟩ := by
  simp [Schema.contents, Schema.write, hollow, elements]

lemma mapM_eq_some_iff {β : Type*} {f : β → Option α} {items : List β} {xs : List α} :
    items.mapM f = some xs ↔ items.map f = xs.map some := by
  induction items generalizing xs with
  | nil => cases xs <;> simp
  | cons v items ih =>
      rw [List.mapM_cons]
      cases xs with
      | nil => simp [Option.bind_eq_some_iff]
      | cons x xs => simp [Option.bind_eq_some_iff, ih]

lemma readItems_eq_some_iff {v : Value} {xs : List α} : sch.readItems v = some xs ↔
    ∃ items, v = list items ∧ items.map sch.decode = xs.map some := by
  cases v <;> simp [Schema.readItems, mapM_eq_some_iff]

@[simp] lemma read_write (items : List α) : sch.read (sch.write items) = some items := by
  have hitems : sch.readItems (list (items.map sch.encode)) = some items := by
    simp [readItems_eq_some_iff, sch.decode_encode]
  simpa [Schema.read, Schema.write] using hitems

/-- What is read of a document are the items of its contents. -/
lemma exists_contents_of_read {v : Value} {xs : List α} (h : sch.read v = some xs) :
    ∃ c, sch.contents v = some c ∧ c.items.map sch.decode = xs.map some := by
  unfold Schema.read at h
  split at h
  · rename_i entries
    refine ⟨_, rfl, ?_⟩
    show ((entries.filter fun e => e.1 = sch.field).flatMap fun e => e.2.elements).map _ = _
    split at h
    · rename_i hnone
      obtain rfl := Option.some.inj h
      simp [hnone]
    · rename_i e hone
      obtain ⟨items, he, hitems⟩ := (readItems_eq_some_iff sch).mp h
      simpa [hone, he, elements] using hitems
    · exact absurd h (by simp)
  · obtain rfl := Option.some.inj h
    exact ⟨_, rfl, rfl⟩
  · obtain ⟨items, rfl, hitems⟩ := (readItems_eq_some_iff sch).mp h
    exact ⟨_, rfl, hitems⟩
  · exact absurd h (by simp)

/-! ## Keeping contents -/

/-- The second value says of an item what the first one says: they are the same value, or are read
as the same item and the second has every key of the first. -/
def Schema.Carries (v w : Value) : Prop :=
  v = w ∨ ∃ a, sch.decode v = some a ∧ sch.decode w = some a ∧ v.entries ⊆ w.entries

/-- The value says of the item what the schema knows, and no more. -/
def Schema.Known (v : Value) (a : α) : Prop :=
  sch.decode v = some a ∧ v.entries ⊆ (sch.encode a).entries

lemma known_encode (a : α) : sch.Known (sch.encode a) a :=
  ⟨sch.decode_encode a, List.Subset.refl _⟩

lemma carries_encode_iff {v : Value} {a : α} :
    sch.Carries v (sch.encode a) ↔ sch.Known v a := by
  constructor
  · rintro (rfl | ⟨b, hv, ha, hsub⟩)
    · exact known_encode sch a
    · obtain rfl := Option.some.inj ((sch.decode_encode a).symm.trans ha)
      exact ⟨hv, hsub⟩
  · rintro ⟨hv, hsub⟩
    exact .inr ⟨a, hv, sch.decode_encode a, hsub⟩

/-- The new contents have every key of the old ones, and every item that `rest` leaves of them. -/
def Schema.Kept (rest : List Value → List Value) (old new : Contents) : Prop :=
  old.keys ⊆ new.keys ∧ ∀ v ∈ rest old.items, ∃ w ∈ new.items, sch.Carries v w

lemma kept_refl {rest : List Value → List Value} (hrest : ∀ vs, rest vs ⊆ vs) (c : Contents) :
    sch.Kept rest c c :=
  ⟨List.Subset.refl _, fun v hv => ⟨v, hrest _ hv, .inl rfl⟩⟩

/-- A written document keeps the contents of another one when these have no other key, and what is
to be left of them is known of the items written. -/
theorem kept_write_iff {rest : List Value → List Value} {old : Contents} {items : List α} :
    sch.Kept rest old ⟨[(sch.field, list [])], items.map sch.encode⟩ ↔
      (∀ e ∈ old.keys, e = (sch.field, list [])) ∧
        ∀ v ∈ rest old.items, ∃ a ∈ items, sch.Known v a := by
  simp [Schema.Kept, List.subset_def, carries_encode_iff]

/-! ## Edits -/

/-- An edit of the items leaves in place what `rest` leaves of the values they are read from. -/
def Schema.Spares (rest : List Value → List Value) (edit : List α → List α) : Prop :=
  ∀ vs xs, vs.map sch.decode = xs.map some →
    ∀ v ∈ rest vs, ∃ a ∈ edit xs, sch.decode v = some a

variable {sch}

lemma exists_decode_of_map {vs : List Value} {xs : List α}
    (h : vs.map sch.decode = xs.map some) {v : Value} (hv : v ∈ vs) :
    ∃ a ∈ xs, sch.decode v = some a := by
  have hmem : sch.decode v ∈ xs.map some := h ▸ List.mem_map_of_mem hv
  obtain ⟨a, ha, hdec⟩ := List.mem_map.mp hmem
  exact ⟨a, ha, hdec.symm⟩

/-- A reader edits the items it has read, or none if it could not read, and writes them back.  It
keeps the contents of the document exactly when these have no key that the schema does not know,
and it could read them, or has nothing to lose but what it writes anyway. -/
theorem kept_edit_iff {rest : List Value → List Value} {edit : List α → List α}
    (hspares : sch.Spares rest edit) {old : Contents} {got : Option (List α)}
    (hgot : ∀ xs, got = some xs → old.items.map sch.decode = xs.map some) :
    sch.Kept rest old ⟨[(sch.field, list [])], (edit (got.getD [])).map sch.encode⟩ ↔
      (∀ e ∈ old.keys, e = (sch.field, list [])) ∧
        ∀ v ∈ rest old.items, ∃ a, sch.Known v a ∧ (got.isSome ∨ a ∈ edit []) := by
  rw [kept_write_iff]
  refine and_congr_right fun _ => forall₂_congr fun v hv => ?_
  cases got with
  | none => simp [and_comm]
  | some xs =>
      constructor
      · rintro ⟨a, -, hknown⟩
        exact ⟨a, hknown, by simp⟩
      · rintro ⟨a, hknown, -⟩
        -- what is left of the document was read, so the edit has left it too
        obtain ⟨b, hb, hdec⟩ := hspares _ _ (hgot xs rfl) v hv
        obtain rfl := Option.some.inj (hdec.symm.trans hknown.1)
        exact ⟨b, hb, hknown⟩

lemma spares_all {edit : List α → List α} (h : ∀ xs, xs ⊆ edit xs) : sch.Spares id edit := by
  intro vs xs hvs v hv
  obtain ⟨a, ha, hdec⟩ := exists_decode_of_map hvs hv
  exact ⟨a, h xs ha, hdec⟩

lemma spares_filter (p : α → Bool) :
    sch.Spares (fun vs => vs.filter fun v => (sch.decode v).all p) (fun xs => xs.filter p) := by
  intro vs xs hvs v hv
  obtain ⟨hmem, hp⟩ := List.mem_filter.mp hv
  obtain ⟨a, ha, hdec⟩ := exists_decode_of_map hvs hmem
  refine ⟨a, List.mem_filter.mpr ⟨ha, ?_⟩, hdec⟩
  simpa [hdec] using hp

end Document
