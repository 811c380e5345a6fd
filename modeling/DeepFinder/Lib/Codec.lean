import Mathlib.Data.List.Infix
import Mathlib.Tactic.Common

/-!
# Self-delimiting codecs

A `Codec` writes values and takes them off the front of an input.  It reads back what it has
written, whatever follows, and it reads nothing from a value that is cut off.  Writing may fail, on
a value that has no encoding.

Codecs are put together field by field (`Codec.pair`), element by element (`Codec.list`) and by a
tag that says what follows (`Codec.tagged`); `Codec.via` carries a codec over to another type.
-/

/-- A writer of values and the reader of what it writes. -/
structure Codec (β α : Type) where
  enc : α → Option (List β)
  dec : List β → Option (α × List β)
  dec_enc : ∀ {a v} (post : List β), enc a = some v → dec (v ++ post) = some (a, post)
  dec_cut : ∀ {a v p}, enc a = some v → p <+: v → p ≠ v → dec p = none

namespace Codec

variable {β α γ ι : Type}

/-- A list in two parts is cut in the first part or in the second. -/
lemma cut_append {v w p : List β} (h : p <+: v ++ w) (hne : p ≠ v ++ w) :
    (p <+: v ∧ p ≠ v) ∨ ∃ q, p = v ++ q ∧ q <+: w ∧ q ≠ w := by
  by_cases hcut : p <+: v ∧ p ≠ v
  · exact Or.inl hcut
  · have hwhole : v <+: p := by
      rcases List.prefix_or_prefix_of_prefix h (List.prefix_append v w) with hpv | hvp
      · have heq : p = v := not_and_not_right.mp hcut hpv
        rw [heq]
      · exact hvp
    obtain ⟨q, rfl⟩ := hwhole
    exact Or.inr ⟨q, rfl, (List.prefix_append_right_inj v).mp h, fun heq => hne (by rw [heq])⟩

lemma cut_cons {b : β} {l p : List β} (h : p <+: b :: l) (hne : p ≠ b :: l) :
    p = [] ∨ ∃ q, p = b :: q ∧ q <+: l ∧ q ≠ l := by
  rcases List.prefix_cons_iff.mp h with hnil | ⟨q, rfl, hq⟩
  · exact Or.inl hnil
  · exact Or.inr ⟨q, rfl, hq, fun heq => hne (by rw [heq])⟩

def void : Codec β α where
  enc _ := none
  dec _ := none
  dec_enc _ h := nomatch h
  dec_cut h _ _ := nomatch h

/-- Nothing is written for the one value. -/
def unit : Codec β Unit where
  enc _ := some []
  dec bs := some ((), bs)
  dec_enc post h := by
    obtain rfl := Option.some.inj h
    rfl
  dec_cut h hp hne := by
    obtain rfl := Option.some.inj h
    exact absurd (List.prefix_nil.mp hp) hne

/-- One value, and then another. -/
def pair (c : Codec β α) (d : Codec β γ) : Codec β (α × γ) where
  enc x := do
    let v ← c.enc x.1
    let w ← d.enc x.2
    some (v ++ w)
  dec bs := do
    let (a, bs) ← c.dec bs
    let (b, bs) ← d.dec bs
    some ((a, b), bs)
  dec_enc post h := by
    obtain ⟨v, hv, h⟩ := Option.bind_eq_some_iff.mp h
    obtain ⟨w, hw, h⟩ := Option.bind_eq_some_iff.mp h
    obtain rfl := Option.some.inj h
    simp [c.dec_enc (w ++ post) hv, d.dec_enc post hw]
  dec_cut h hp hne := by
    obtain ⟨v, hv, h⟩ := Option.bind_eq_some_iff.mp h
    obtain ⟨w, hw, h⟩ := Option.bind_eq_some_iff.mp h
    obtain rfl := Option.some.inj h
    rcases cut_append hp hne with ⟨hcut, hne⟩ | ⟨q, rfl, hq, hne⟩
    · simp [c.dec_cut hv hcut hne]
    · simp [c.dec_enc q hv, d.dec_cut hw hq hne]

/-- The values of another type, written as those of this one. -/
def via (c : Codec β α) (back : α → Option γ) (repr : γ → Option α)
    (h : ∀ {x a}, repr x = some a → back a = some x) : Codec β γ where
  enc x := (repr x).bind c.enc
  dec bs := (c.dec bs).bind fun r => (back r.1).map fun x => (x, r.2)
  dec_enc post henc := by
    obtain ⟨a, ha, hv⟩ := Option.bind_eq_some_iff.mp henc
    simp [c.dec_enc post hv, h ha]
  dec_cut henc hp hne := by
    obtain ⟨a, ha, hv⟩ := Option.bind_eq_some_iff.mp henc
    simp [c.dec_cut hv hp hne]

/-- A tag, which says how the rest is written. -/
def tagged (tag : Codec β ι) (tagOf : α → ι) (body : ι → Codec β α) : Codec β α where
  enc a := do
    let t ← tag.enc (tagOf a)
    let v ← (body (tagOf a)).enc a
    some (t ++ v)
  dec bs := (tag.dec bs).bind fun r => (body r.1).dec r.2
  dec_enc post h := by
    obtain ⟨t, ht, h⟩ := Option.bind_eq_some_iff.mp h
    obtain ⟨v, hv, h⟩ := Option.bind_eq_some_iff.mp h
    obtain rfl := Option.some.inj h
    simp [tag.dec_enc (v ++ post) ht, (body _).dec_enc post hv]
  dec_cut h hp hne := by
    obtain ⟨t, ht, h⟩ := Option.bind_eq_some_iff.mp h
    obtain ⟨v, hv, h⟩ := Option.bind_eq_some_iff.mp h
    obtain rfl := Option.some.inj h
    rcases cut_append hp hne with ⟨hcut, hne⟩ | ⟨q, rfl, hq, hne⟩
    · simp [tag.dec_cut ht hcut hne]
    · simp [tag.dec_enc q ht, (body _).dec_cut hv hq hne]

/-! ## Lists -/

/-- This many values, one after the other. -/
def times (c : Codec β α) : ℕ → List β → Option (List α × List β)
  | 0, bs => some ([], bs)
  | n + 1, bs => do
      let (a, bs) ← c.dec bs
      let (l, bs) ← c.times n bs
      some (a :: l, bs)

lemma times_enc (c : Codec β α) {l : List α} {vs : List (List β)} (post : List β)
    (h : l.mapM c.enc = some vs) : c.times l.length (vs.flatten ++ post) = some (l, post) := by
  induction l generalizing vs with
  | nil =>
      obtain rfl : [] = vs := by simpa using h
      rfl
  | cons a l ih =>
      rw [List.mapM_cons] at h
      obtain ⟨v, hv, h⟩ := Option.bind_eq_some_iff.mp h
      obtain ⟨ws, hws, h⟩ := Option.bind_eq_some_iff.mp h
      obtain rfl := Option.some.inj h
      simp [times, c.dec_enc (ws.flatten ++ post) hv, ih hws]

lemma times_cut (c : Codec β α) {l : List α} {vs : List (List β)} {p : List β}
    (h : l.mapM c.enc = some vs) (hp : p <+: vs.flatten) (hne : p ≠ vs.flatten) :
    c.times l.length p = none := by
  induction l generalizing vs p with
  | nil =>
      obtain rfl : [] = vs := by simpa using h
      exact absurd (List.prefix_nil.mp hp) hne
  | cons a l ih =>
      rw [List.mapM_cons] at h
      obtain ⟨v, hv, h⟩ := Option.bind_eq_some_iff.mp h
      obtain ⟨ws, hws, h⟩ := Option.bind_eq_some_iff.mp h
      obtain rfl := Option.some.inj h
      rw [List.flatten_cons] at hp hne
      rcases cut_append hp hne with ⟨hcut, hne⟩ | ⟨q, rfl, hq, hne⟩
      · simp [times, c.dec_cut hv hcut hne]
      · simp [times, c.dec_enc q hv, ih hws hq hne]

/-- The number of the values, and then the values. -/
def list (len : Codec β ℕ) (c : Codec β α) : Codec β (List α) where
  enc l := do
    let n ← len.enc l.length
    let vs ← l.mapM c.enc
    some (n ++ vs.flatten)
  dec bs := (len.dec bs).bind fun r => c.times r.1 r.2
  dec_enc post h := by
    obtain ⟨n, hn, h⟩ := Option.bind_eq_some_iff.mp h
    obtain ⟨vs, hvs, h⟩ := Option.bind_eq_some_iff.mp h
    obtain rfl := Option.some.inj h
    simp [len.dec_enc (vs.flatten ++ post) hn, c.times_enc post hvs]
  dec_cut h hp hne := by
    obtain ⟨n, hn, h⟩ := Option.bind_eq_some_iff.mp h
    obtain ⟨vs, hvs, h⟩ := Option.bind_eq_some_iff.mp h
    obtain rfl := Option.some.inj h
    rcases cut_append hp hne with ⟨hcut, hne⟩ | ⟨q, rfl, hq, hne⟩
    · simp [len.dec_cut hn hcut hne]
    · simp [len.dec_enc q hn, c.times_cut hvs hq hne]

/-! ## Variants -/

def enum [DecidableEq α] (tag : Codec β ℕ) (l : List α) : Codec β α :=
  tag.via (fun i => l[i]?) (fun a => l.findIdx? (· = a)) fun {a i} h => by
    obtain ⟨hi, hat, -⟩ := List.findIdx?_eq_some_iff_getElem.mp h
    simpa [hi] using hat

def option (flag : Codec β Bool) (c : Codec β α) : Codec β (Option α) :=
  tagged flag Option.isSome fun
    | false => unit.via (fun _ => some none) (fun a => if a.isNone then some () else none)
        fun {x _} h => by cases x <;> simp_all
    | true => c.via (fun a => some (some a)) id fun {x _} h => by simpa using h.symm

end Codec
