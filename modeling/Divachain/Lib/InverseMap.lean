/-
  Divachain.Lib.InverseMap — a map and the index kept beside it.

  A table holds records under their keys; a second map leads from one field of
  a record back to its key.  `Inverse` says that the index is exact: it has
  the keys of the present records and nothing else.

  Main results:
    * `Inverse.insert` / `Inverse.replace` / `Inverse.delete` — the three
      updates that keep an index exact;
    * `not_inverse_of_shared` — a record whose field another one has breaks it.
-/
import Divachain.Lib.OrdMap

namespace DataKit

namespace OrdMap

variable {κ ν α : Type} [DecidableEq κ] [DecidableEq α]

/-- **The index is exact**: it leads from `a` to `k` if and only if `k` holds a
record with the field `a`. -/
def Inverse (f : ν → α) (m : OrdMap κ ν) (index : OrdMap α κ) : Prop :=
  ∀ a k, index.get? a = some k ↔ ∃ v, m.get? k = some v ∧ f v = a

variable {f : ν → α} {m : OrdMap κ ν} {index : OrdMap α κ}

theorem inverse_empty : Inverse f (OrdMap.empty : OrdMap κ ν) OrdMap.empty := by
  intro a k
  constructor
  · intro h
    exact nomatch h
  · rintro ⟨v, h, -⟩
    exact nomatch h

/-- No two records share the field. -/
theorem Inverse.unique (h : Inverse f m index) {k k' : κ} {v v' : ν} (hv : m.get? k = some v)
    (hv' : m.get? k' = some v') (hf : f v = f v') : k = k' := by
  have hk := (h (f v) k).mpr ⟨v, hv, rfl⟩
  have hk' := (h (f v) k').mpr ⟨v', hv', hf.symm⟩
  rw [hk] at hk'
  exact Option.some.inj hk'

/-- A new record with a field that no other record has. -/
theorem Inverse.insert (h : Inverse f m index) {k : κ} {v : ν} (hnew : m.get? k = none)
    (hfree : ∀ k' v', m.get? k' = some v' → f v' ≠ f v) :
    Inverse f (m.set k v) (index.set (f v) k) := by
  intro a k'
  rw [get?_set, get?_set]
  -- Under `f v` only `k` may be found, elsewhere nothing has changed.
  by_cases ha : a = f v
  · subst ha
    rw [if_pos rfl]
    constructor
    · intro hk
      obtain rfl := Option.some.inj hk
      exact ⟨v, if_pos rfl, rfl⟩
    · rintro ⟨w, hw, hf⟩
      by_cases hk : k' = k
      · rw [hk]
      · rw [if_neg hk] at hw
        exact absurd hf (hfree k' w hw)
  · rw [if_neg ha, h a k']
    by_cases hk : k' = k
    · subst hk
      rw [if_pos rfl, hnew]
      constructor
      · rintro ⟨w, hw, -⟩
        exact nomatch hw
      · rintro ⟨w, hw, rfl⟩
        exact absurd (congrArg f (Option.some.inj hw).symm) ha
    · rw [if_neg hk]

/-- Another record in the place of one with the same field. -/
theorem Inverse.replace (h : Inverse f m index) {k : κ} {v w : ν} (hv : m.get? k = some v)
    (hf : f w = f v) : Inverse f (m.set k w) index := by
  intro a k'
  rw [h a k', get?_set]
  by_cases hk : k' = k
  · subst hk
    rw [if_pos rfl, hv]
    constructor
    · rintro ⟨u, hu, rfl⟩
      obtain rfl := Option.some.inj hu
      exact ⟨w, rfl, hf⟩
    · rintro ⟨u, hu, rfl⟩
      obtain rfl := Option.some.inj hu
      exact ⟨v, rfl, hf.symm⟩
  · rw [if_neg hk]

/-- A record leaves, and its field with it. -/
theorem Inverse.delete (h : Inverse f m index) {k : κ} {v : ν} (hv : m.get? k = some v) :
    Inverse f (m.delete k) (index.delete (f v)) := by
  intro a k'
  rw [get?_delete, get?_delete]
  -- The key whose value has index `f v` is unique, so deleting both keeps the inverse.
  by_cases ha : a = f v
  · subst ha
    rw [if_pos rfl]
    constructor
    · intro hnone
      exact nomatch hnone
    · rintro ⟨w, hw, hf⟩
      by_cases hk : k' = k
      · rw [if_pos hk] at hw
        exact nomatch hw
      · rw [if_neg hk] at hw
        exact absurd (h.unique hw hv hf) hk
  · rw [if_neg ha, h a k']
    by_cases hk : k' = k
    · subst hk
      rw [if_pos rfl, hv]
      constructor
      · rintro ⟨w, hw, rfl⟩
        exact absurd (congrArg f (Option.some.inj hw).symm) ha
      · rintro ⟨w, hw, -⟩
        exact nomatch hw
    · rw [if_neg hk]

/-- **A shared field breaks the index**: it can lead to one of the keys only. -/
theorem not_inverse_of_shared {k k' : κ} {v v' : ν} (hne : k' ≠ k) (hv' : m.get? k' = some v')
    (hf : f v' = f v) : ¬ Inverse f (m.set k v) (index.set (f v) k) := by
  intro h
  have hother : (m.set k v).get? k' = some v' := by
    rw [get?_set_ne m v hne]
    exact hv'
  exact hne (h.unique hother (get?_set_self m k v) hf)

end OrdMap

end DataKit
