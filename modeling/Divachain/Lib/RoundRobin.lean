/-
  Divachain.Lib.RoundRobin — a search that goes round a list.

  `walk` reads one position after the other, begins again at the front behind
  the last one, and stops where a predicate holds.  It has no end of its own:
  on a list with no such entry it goes on for ever.

  Main results:
    * `walk_mem` — what is found is in the list and satisfies the predicate;
    * `walk_length` — one round finds what the two parts of the list have;
    * `walk_isSome_iff` — one round is enough, if there is anything to find.
-/
import Mathlib.Data.List.Basic
import Mathlib.Data.List.Perm.Basic

namespace DataKit

variable {α : Type} (p : α → Bool) (l : List α)

/-- The position behind `i`. -/
def nextIndex (length i : Nat) : Nat := if length ≤ i + 1 then 0 else i + 1

/-- Go on from position `i` until `p` holds, for `fuel` steps at most. -/
def walk : Nat → Nat → Option α
  | 0, i => l[i]?.filter p
  | fuel + 1, i =>
      match l[i]?.filter p with
      | some x => some x
      | none => walk fuel (nextIndex l.length i)

variable {p l}

/-- **What is found is in the list**, and the predicate holds of it. -/
theorem walk_mem {fuel i : Nat} {x : α} (h : walk p l fuel i = some x) : x ∈ l ∧ p x = true := by
  have hread : ∀ {i : Nat}, l[i]?.filter p = some x → x ∈ l ∧ p x = true := by
    intro i hi
    obtain ⟨hmem, hp⟩ := Option.filter_eq_some_iff.mp hi
    exact ⟨List.mem_of_getElem? hmem, hp⟩
  induction fuel generalizing i with
  | zero => exact hread h
  | succ fuel ih =>
    unfold walk at h
    split at h
    next y hy =>
      obtain rfl := Option.some.inj h
      exact hread hy
    next => exact ih h

theorem read_pos {i : Nat} (hi : i < l.length) (hp : p l[i] = true) :
    l[i]?.filter p = some l[i] := by
  rw [List.getElem?_eq_getElem hi, Option.filter_some, if_pos hp]

theorem read_neg {i : Nat} (hi : i < l.length) (hp : p l[i] = false) : l[i]?.filter p = none := by
  rw [List.getElem?_eq_getElem hi, Option.filter_some, if_neg (by rw [hp]; decide)]

/-- Without a wrap the search reads a segment of the list. -/
theorem walk_segment {fuel i : Nat} (h : i + fuel < l.length) :
    walk p l fuel i = ((l.drop i).take (fuel + 1)).find? p := by
  induction fuel generalizing i with
  | zero =>
    have hi : i < l.length := by omega
    rw [walk, List.drop_eq_getElem_cons hi, List.take_succ_cons, List.take_zero]
    cases hp : p l[i] with
    | true => rw [read_pos hi hp, List.find?_cons_of_pos hp]
    | false =>
      rw [read_neg hi hp, List.find?_cons_of_neg (by rw [hp]; decide)]
      rfl
  | succ fuel ih =>
    have hi : i < l.length := by omega
    have hnext : nextIndex l.length i = i + 1 := if_neg (by omega)
    rw [walk, List.drop_eq_getElem_cons hi, List.take_succ_cons]
    cases hp : p l[i] with
    | true => rw [read_pos hi hp, List.find?_cons_of_pos hp]
    | false =>
      rw [read_neg hi hp, List.find?_cons_of_neg (by rw [hp]; decide), hnext]
      exact ih (by omega)

/-- The search up to the end of the list, and on from its front. -/
theorem walk_wrap (fuel : Nat) :
    ∀ {d i : Nat}, i + d + 1 = l.length →
      walk p l (fuel + (d + 1)) i = ((l.drop i).find? p).or (walk p l fuel 0) := by
  intro d
  induction d with
  | zero =>
    -- the last index: the next one is the first
    intro i hlast
    have hi : i < l.length := by omega
    have hnext : nextIndex l.length i = 0 := if_pos (by omega)
    rw [walk, List.drop_eq_getElem_cons hi, List.drop_eq_nil_of_le (by omega)]
    cases hp : p l[i] with
    | true => rw [read_pos hi hp, List.find?_cons_of_pos hp, Option.some_or]
    | false =>
      rw [read_neg hi hp, List.find?_cons_of_neg (by rw [hp]; decide), hnext, List.find?_nil,
        Option.none_or]
  | succ d ih =>
    intro i hlast
    have hi : i < l.length := by omega
    have hnext : nextIndex l.length i = i + 1 := if_neg (by omega)
    rw [← Nat.add_assoc, walk, List.drop_eq_getElem_cons hi]
    cases hp : p l[i] with
    | true => rw [read_pos hi hp, List.find?_cons_of_pos hp, Option.some_or]
    | false =>
      rw [read_neg hi hp, List.find?_cons_of_neg (by rw [hp]; decide), hnext]
      exact ih (by omega)

/-- **One round** finds what the list has from `i` on, then what it has before. -/
theorem walk_length {i : Nat} (hi : i < l.length) :
    walk p l l.length i = (l.drop i ++ l.take i).find? p := by
  have hwrap : walk p l (i + (l.length - i - 1 + 1)) i
      = ((l.drop i).find? p).or (walk p l i 0) := walk_wrap i (by omega)
  have hfront : walk p l i 0 = (l.take (i + 1)).find? p := walk_segment (by omega)
  have hfuel : i + (l.length - i - 1 + 1) = l.length := by omega
  rw [hfuel, hfront] at hwrap
  rw [hwrap, List.find?_append]
  cases hfind : (l.drop i).find? p with
  | some x => rfl
  | none =>
    -- the entry at `i` has been read already
    have hp : ¬ p l[i] = true := by
      rw [List.drop_eq_getElem_cons hi] at hfind
      exact List.find?_eq_none.mp hfind _ List.mem_cons_self
    rw [List.take_add_one, List.getElem?_eq_getElem hi, List.find?_append]
    simp [hp]

/-- **One round is enough**, if there is anything to find. -/
theorem walk_isSome_iff {i : Nat} (hi : i < l.length) :
    (walk p l l.length i).isSome = true ↔ ∃ x ∈ l, p x = true := by
  have hsplit : ∀ x, x ∈ l.drop i ++ l.take i ↔ x ∈ l := by
    intro x
    have hperm : (l.drop i ++ l.take i).Perm l :=
      List.perm_append_comm.trans (by rw [List.take_append_drop])
    exact hperm.mem_iff
  rw [walk_length hi, List.find?_isSome]
  simp only [hsplit]

end DataKit
