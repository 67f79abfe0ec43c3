/-
  Divachain.Lib.Shuffle — shuffling a list in place.

  The rounds go from the last position down.  The round `i` lets the entry at
  `i` change places with the one that is picked for it, at `i` or before; after
  that nothing touches the position `i` any more.

  Main results:
    * `shuffleFrom_perm` — a shuffle is a permutation, whatever is picked;
    * `shuffleFrom_inj` — different picks shuffle distinct entries differently;
    * `unbiased_shuffleFrom` — so the picks are the permutations, and every order
      comes about equally often.
-/
import Mathlib.Data.Nat.Factorial.BigOperators
import Mathlib.Data.List.Permutation
import Mathlib.Data.Set.Function
import Mathlib.SetTheory.Cardinal.Finite

namespace DataKit

open scoped Nat

variable {α : Type}

/-! ## §1. One round. -/

/-- Two entries change places. -/
def exchange (a : List α) (i j : Nat) : List α :=
  match a[i]?, a[j]? with
  | some x, some y => (a.set i y).set j x
  | _, _ => a

theorem exchange_perm (a : List α) (i j : Nat) : (exchange a i j).Perm a := by
  unfold exchange
  split
  next x y hi hj =>
    obtain ⟨hi', rfl⟩ := List.getElem?_eq_some_iff.mp hi
    obtain ⟨hj', rfl⟩ := List.getElem?_eq_some_iff.mp hj
    exact List.set_set_perm hi' hj'
  · exact List.Perm.refl a

theorem length_exchange (a : List α) (i j : Nat) : (exchange a i j).length = a.length :=
  (exchange_perm a i j).length_eq

/-- The round decides its position. -/
theorem getElem?_exchange_self {a : List α} {i j : Nat} (hi : i < a.length) (hj : j < a.length) :
    (exchange a i j)[i]? = a[j]? := by
  unfold exchange
  rw [List.getElem?_eq_getElem hi, List.getElem?_eq_getElem hj]
  dsimp only
  by_cases hij : j = i
  · subst hij
    simp [hi]
  · rw [List.getElem?_set_ne hij, List.getElem?_set_self hi]

/-- All other positions but the picked one stay as they are. -/
theorem getElem?_exchange_of_ne {a : List α} {i j k : Nat} (hi : k ≠ i) (hj : k ≠ j) :
    (exchange a i j)[k]? = a[k]? := by
  unfold exchange
  split
  · rw [List.getElem?_set_ne (Ne.symm hj), List.getElem?_set_ne (Ne.symm hi)]
  · rfl

/-! ## §2. The rounds. -/

/-- The rounds `m`, …, `1`; `pick i` decides the round `i`. -/
def shuffleFrom (pick : Nat → Nat) : Nat → List α → List α
  | 0, a => a
  | m + 1, a => shuffleFrom pick m (exchange a (m + 1) (pick (m + 1)))

/-- The picks of the rounds up to `m` are in range. -/
def InRange (pick : Nat → Nat) (m : Nat) : Prop := ∀ i, 1 ≤ i → i ≤ m → pick i ≤ i

theorem InRange.lower {pick : Nat → Nat} {m : Nat} (h : InRange pick (m + 1)) : InRange pick m :=
  fun i hi him => h i hi (Nat.le_succ_of_le him)

/-- **A shuffle is a permutation.** -/
theorem shuffleFrom_perm (pick : Nat → Nat) (m : Nat) :
    ∀ a : List α, (shuffleFrom pick m a).Perm a := by
  induction m with
  | zero => exact fun a => List.Perm.refl a
  | succ m ih => exact fun a => (ih _).trans (exchange_perm a _ _)

/-- Only the picks of the rounds matter. -/
theorem shuffleFrom_congr {pick pick' : Nat → Nat} {m : Nat} :
    (∀ i, 1 ≤ i → i ≤ m → pick i = pick' i) →
      ∀ a : List α, shuffleFrom pick m a = shuffleFrom pick' m a := by
  induction m with
  | zero => exact fun _ _ => rfl
  | succ m ih =>
      intro h a
      rw [shuffleFrom, shuffleFrom, h (m + 1) (by omega) (by omega)]
      exact ih (fun i hi him => h i hi (by omega)) _

/-- **What is above the round is final.** -/
theorem getElem?_shuffleFrom_of_lt {pick : Nat → Nat} {m : Nat} (hpick : InRange pick m) :
    ∀ (a : List α) {k : Nat}, m < k → (shuffleFrom pick m a)[k]? = a[k]? := by
  induction m with
  | zero => exact fun a _ _ => rfl
  | succ m ih =>
      intro a k hk
      have hj := hpick (m + 1) (by omega) (Nat.le_refl _)
      rw [shuffleFrom, ih hpick.lower _ (by omega)]
      exact getElem?_exchange_of_ne (by omega) (by omega)

/-- The first round decides the last position. -/
theorem getElem?_shuffleFrom_succ {pick : Nat → Nat} {m : Nat} (hpick : InRange pick (m + 1))
    {a : List α} (hm : m + 1 < a.length) :
    (shuffleFrom pick (m + 1) a)[m + 1]? = a[pick (m + 1)]? := by
  have hj := hpick (m + 1) (by omega) (Nat.le_refl _)
  rw [shuffleFrom, getElem?_shuffleFrom_of_lt hpick.lower _ (by omega)]
  exact getElem?_exchange_self hm (by omega)

/-- **Different picks make different shuffles** of distinct entries. -/
theorem shuffleFrom_inj {pick pick' : Nat → Nat} {m : Nat} :
    InRange pick m → InRange pick' m → ∀ {a : List α}, a.Nodup → m < a.length →
      shuffleFrom pick m a = shuffleFrom pick' m a →
        ∀ i, 1 ≤ i → i ≤ m → pick i = pick' i := by
  induction m with
  | zero =>
      intro _ _ a _ _ _ i hi him
      omega
  | succ m ih =>
      intro hpick hpick' a hnodup hm heq
      -- The last position is final after the first round, so it shows the pick.
      have hlast : a[pick (m + 1)]? = a[pick' (m + 1)]? := by
        rw [← getElem?_shuffleFrom_succ hpick hm, ← getElem?_shuffleFrom_succ hpick' hm, heq]
      have hj := hpick (m + 1) (by omega) (Nat.le_refl _)
      have hsame : pick (m + 1) = pick' (m + 1) :=
        (List.getElem?_inj (by omega) hnodup).mp hlast
      rw [shuffleFrom, shuffleFrom, ← hsame] at heq
      have hrest := ih hpick.lower hpick'.lower
        ((exchange_perm a (m + 1) (pick (m + 1))).nodup_iff.mpr hnodup)
        (by rw [length_exchange]; omega) heq
      intro i hi him
      by_cases hlt : i ≤ m
      · exact hrest i hi hlt
      · obtain rfl : i = m + 1 := by omega
        exact hsame

/-! ## §3. All sequences of picks. -/

/-- The picks for `n` entries: the round `i + 1` has `i + 2` positions to pick from. -/
abbrev Picks (n : Nat) := (i : Fin (n - 1)) → Fin (i.val + 2)

namespace Picks

variable {n : Nat}

/-- The pick of a round. -/
def round (p : Picks n) (i : Nat) : Nat :=
  if h : i - 1 < n - 1 then (p ⟨i - 1, h⟩).val else 0

theorem inRange (p : Picks n) : InRange p.round (n - 1) := by
  intro i hi him
  unfold round
  split
  next h =>
    have hlt : (p ⟨i - 1, h⟩).val < i - 1 + 2 := (p ⟨i - 1, h⟩).isLt
    omega
  next => omega

theorem round_succ (p : Picks n) (i : Fin (n - 1)) : p.round (i.val + 1) = (p i).val :=
  dif_pos i.isLt

/-- **There are as many as permutations.** -/
theorem card (n : Nat) : Nat.card (Picks n) = n ! := by
  rw [Nat.card_pi]
  simp only [Nat.card_eq_fintype_card, Fintype.card_fin]
  cases n with
  | zero => rfl
  | succ n =>
      rw [Fin.prod_univ_eq_prod_range (fun i => i + 2) (n + 1 - 1), Nat.add_sub_cancel,
        ← Finset.prod_range_add_one_eq_factorial, Finset.prod_range_succ', Nat.zero_add, mul_one]

end Picks

/-! ## §4. Every order equally often. -/

/-- **A shuffle without a bias**: it permutes, and on distinct entries each
permutation comes about by exactly one of the sequences of picks. -/
structure Unbiased (shuffle : (Nat → Nat) → List α) (a : List α) : Prop where
  perm : ∀ pick, InRange pick (a.length - 1) → (shuffle pick).Perm a
  bijective : a.Nodup →
    Set.BijOn (fun p : Picks a.length => shuffle p.round) Set.univ {l | l.Perm a}
  equally : a.Nodup → ∀ l, l.Perm a → Nat.card {p : Picks a.length // shuffle p.round = l} = 1

/-- The shuffle of `a`, as one of its permutations. -/
def shuffled (a : List α) (p : Picks a.length) : {l : List α // l.Perm a} :=
  ⟨shuffleFrom p.round (a.length - 1) a, shuffleFrom_perm _ _ a⟩

theorem card_perms {a : List α} (h : a.Nodup) : Nat.card {l : List α // l.Perm a} = a.length ! := by
  classical
  have hset : Nat.card {l : List α // l.Perm a}
      = Nat.card {l : List α // l ∈ a.permutations.toFinset} :=
    Nat.card_congr (Equiv.subtypeEquivRight fun l => by
      rw [List.mem_toFinset, List.mem_permutations])
  rw [hset, Nat.card_eq_fintype_card, Fintype.card_coe,
    List.toFinset_card_of_nodup (List.nodup_permutations a h), List.length_permutations]

/-- **The picks are the permutations**, if the entries are distinct. -/
theorem shuffled_bijective {a : List α} (h : a.Nodup) : Function.Bijective (shuffled a) := by
  have hcard : Nat.card (Picks a.length) = Nat.card {l : List α // l.Perm a} :=
    (Picks.card a.length).trans (card_perms h).symm
  have hfinite : Finite {l : List α // l.Perm a} := by
    refine Nat.finite_of_card_ne_zero ?_
    rw [card_perms h]
    exact Nat.factorial_ne_zero _
  -- There are as many of them, so it is enough that no two picks agree.
  refine Function.Injective.bijective_of_nat_card_le ?_ hcard.ge
  intro p q heq
  funext i
  have hi : i.val < a.length - 1 := i.isLt
  have hsame := shuffleFrom_inj p.inRange q.inRange h (by omega) (congrArg Subtype.val heq)
    (i.val + 1) (by omega) (by omega)
  rw [p.round_succ, q.round_succ] at hsame
  exact Fin.ext hsame

/-- **Shuffling from the last position down has no bias.** -/
theorem unbiased_shuffleFrom {shuffle : (Nat → Nat) → List α} {a : List α}
    (hshuffle : ∀ pick, InRange pick (a.length - 1) →
      shuffle pick = shuffleFrom pick (a.length - 1) a) : Unbiased shuffle a := by
  have hpicks : ∀ p : Picks a.length, shuffle p.round = (shuffled a p).val :=
    fun p => hshuffle p.round p.inRange
  refine ⟨?_, ?_, ?_⟩
  · intro pick hpick
    rw [hshuffle pick hpick]
    exact shuffleFrom_perm _ _ a
  · intro hnodup
    obtain ⟨hinj, hsurj⟩ := shuffled_bijective hnodup
    refine ⟨?_, ?_, ?_⟩
    · intro p _
      show (shuffle p.round).Perm a
      rw [hpicks]
      exact (shuffled a p).property
    · intro p _ q _ heq
      change shuffle p.round = shuffle q.round at heq
      rw [hpicks, hpicks] at heq
      exact hinj (Subtype.ext heq)
    · intro l hl
      obtain ⟨p, hp⟩ := hsurj ⟨l, hl⟩
      refine ⟨p, Set.mem_univ p, ?_⟩
      show shuffle p.round = l
      rw [hpicks, hp]
  · intro hnodup l hl
    obtain ⟨p, hp, hunique⟩ := (shuffled_bijective hnodup).existsUnique ⟨l, hl⟩
    rw [Nat.card_eq_one_iff_exists]
    refine ⟨⟨p, ?_⟩, ?_⟩
    · rw [hpicks, hp]
    · intro q
      obtain ⟨q, hq⟩ := q
      rw [hpicks] at hq
      exact Subtype.ext (hunique q (Subtype.ext hq))

end DataKit
