/-
  Divachain.Lib.Electorate — weighted majorities.

  An electorate gives every voter a weight, zero outside a finite set of
  members and never negative.  A set of voters is a majority if its weight
  exceeds half of the total.  The one fact consensus rests on is
  `majorities_meet`: two majorities share a voter of positive weight.

  `majorityOf_lists` is the form a program needs: the voters come as two
  duplicate-free lists, and strangers may stand in both.
-/
import Mathlib.Algebra.BigOperators.Group.Finset.Basic
import Mathlib.Algebra.Order.BigOperators.Group.Finset

namespace DataKit

open Finset

/-- Voters with weights. -/
structure Electorate (α M : Type) [AddCommGroup M] [LinearOrder M] where
  members : Finset α
  weight : α → M
  nonneg : ∀ a, 0 ≤ weight a
  stranger : ∀ a, a ∉ members → weight a = 0

namespace Electorate

variable {α M : Type} [DecidableEq α] [AddCommGroup M] [LinearOrder M] [IsOrderedAddMonoid M]

/-- The weight of all members together. -/
def total (e : Electorate α M) : M := ∑ a ∈ e.members, e.weight a

/-- More than half of the total weight. -/
def IsMajority (e : Electorate α M) (s : Finset α) : Prop :=
  e.total < ∑ a ∈ s, e.weight a + ∑ a ∈ s, e.weight a

/-- No set of voters outweighs the members. -/
theorem sum_le_total (e : Electorate α M) (s : Finset α) :
    ∑ a ∈ s, e.weight a ≤ e.total := by
  have hsplit : ∑ a ∈ s ∩ e.members, e.weight a = ∑ a ∈ s, e.weight a := by
    refine Finset.sum_subset Finset.inter_subset_left ?_
    intro a ha hna
    exact e.stranger a fun hm => hna (Finset.mem_inter.mpr ⟨ha, hm⟩)
  rw [← hsplit]
  exact Finset.sum_le_sum_of_subset_of_nonneg Finset.inter_subset_right
    fun a _ _ => e.nonneg a

/-- **Two majorities share a voter of positive weight.** -/
theorem majorities_meet (e : Electorate α M) {s t : Finset α}
    (hs : e.IsMajority s) (ht : e.IsMajority t) :
    ∃ a, a ∈ s ∧ a ∈ t ∧ 0 < e.weight a := by
  unfold IsMajority at hs ht
  set ws := ∑ a ∈ s, e.weight a with hws
  set wt := ∑ a ∈ t, e.weight a with hwt
  have hunion : ∑ a ∈ s ∪ t, e.weight a + ∑ a ∈ s ∩ t, e.weight a = ws + wt :=
    Finset.sum_union_inter
  -- were both at most half, the doubled sums could not both exceed the total
  have hboth : e.total < ws + wt := by
    by_contra hle
    push Not at hle
    have hfour : (ws + ws) + (wt + wt) ≤ e.total + e.total := by
      calc (ws + ws) + (wt + wt) = (ws + wt) + (ws + wt) := add_add_add_comm _ _ _ _
        _ ≤ e.total + e.total := add_le_add hle hle
    exact absurd (add_lt_add hs ht) (not_lt.mpr hfour)
  have hpos : 0 < ∑ a ∈ s ∩ t, e.weight a := by
    by_contra hle
    push Not at hle
    have hsum : ws + wt ≤ e.total := by
      calc ws + wt = ∑ a ∈ s ∪ t, e.weight a + ∑ a ∈ s ∩ t, e.weight a := hunion.symm
        _ ≤ e.total + 0 := add_le_add (e.sum_le_total _) hle
        _ = e.total := add_zero _
    exact absurd hboth (not_lt.mpr hsum)
  obtain ⟨a, ha, hlt⟩ : ∃ a ∈ s ∩ t, (0 : M) < e.weight a := by
    refine Finset.exists_lt_of_sum_lt ?_
    rwa [Finset.sum_const_zero]
  obtain ⟨has, hat⟩ := Finset.mem_inter.mp ha
  exact ⟨a, has, hat, hlt⟩

/-- **Two duplicate-free voter lists that each outweigh half of the total
share a voter of positive weight.** -/
theorem majorityOf_lists (e : Electorate α M) {l₁ l₂ : List α}
    (hn₁ : l₁.Nodup) (hn₂ : l₂.Nodup)
    (h₁ : e.total < (l₁.map e.weight).sum + (l₁.map e.weight).sum)
    (h₂ : e.total < (l₂.map e.weight).sum + (l₂.map e.weight).sum) :
    ∃ a, a ∈ l₁ ∧ a ∈ l₂ ∧ 0 < e.weight a := by
  have hm₁ : e.IsMajority l₁.toFinset := by
    unfold IsMajority
    rw [List.sum_toFinset e.weight hn₁]
    exact h₁
  have hm₂ : e.IsMajority l₂.toFinset := by
    unfold IsMajority
    rw [List.sum_toFinset e.weight hn₂]
    exact h₂
  obtain ⟨a, ha₁, ha₂, hpos⟩ := e.majorities_meet hm₁ hm₂
  exact ⟨a, List.mem_toFinset.mp ha₁, List.mem_toFinset.mp ha₂, hpos⟩

end Electorate

end DataKit
