/-
  Divachain.Lib.OrdMap — insertion-ordered finite maps.

  `OrdMap κ ν` behaves as the `Map` of a scripting language: a new key is
  appended at the end, an existing key keeps its place when its value is
  replaced, and iteration follows insertion order.  The keys are pairwise
  distinct by construction, so no lemma has to assume it.

  Main results:
    * `get?_set` / `get?_delete` — lookup after an update, at every key;
    * `total_set` / `total_delete` — how a sum over the values moves;
    * `sum_weightAt_keys` — that sum, read key by key.
-/
import Mathlib.Algebra.BigOperators.Group.List.Basic
import Mathlib.Data.List.Nodup
import Mathlib.Tactic.Abel

namespace DataKit

/-- A finite map that remembers insertion order. -/
structure OrdMap (κ ν : Type) where
  entries : List (κ × ν)
  nodup : (entries.map Prod.fst).Nodup
  deriving DecidableEq

namespace OrdMap

variable {κ ν : Type}

/-! ## §1. The operations. -/

def empty : OrdMap κ ν := ⟨[], List.nodup_nil⟩

instance : Inhabited (OrdMap κ ν) := ⟨empty⟩

def keys (m : OrdMap κ ν) : List κ := m.entries.map Prod.fst

theorem keys_nodup (m : OrdMap κ ν) : m.keys.Nodup := m.nodup

def values (m : OrdMap κ ν) : List ν := m.entries.map Prod.snd

def size (m : OrdMap κ ν) : Nat := m.entries.length

variable [DecidableEq κ]

def get? (m : OrdMap κ ν) (k : κ) : Option ν := m.entries.lookup k

def has (m : OrdMap κ ν) (k : κ) : Bool := (m.get? k).isSome

/-- Replace the value of `k` in place. -/
def replaceEntry (k : κ) (v : ν) (e : κ × ν) : κ × ν :=
  if e.1 = k then (k, v) else e

theorem fst_replaceEntry (k : κ) (v : ν) (e : κ × ν) :
    (replaceEntry k v e).1 = e.1 := by
  unfold replaceEntry
  split
  next h => exact h.symm
  next => rfl

theorem map_fst_replaceEntry (k : κ) (v : ν) (l : List (κ × ν)) :
    (l.map (replaceEntry k v)).map Prod.fst = l.map Prod.fst := by
  rw [List.map_map]
  exact List.map_congr_left fun e _ => fst_replaceEntry k v e

/-- `Map.set`: in place for a known key, at the end for a new one. -/
def set (m : OrdMap κ ν) (k : κ) (v : ν) : OrdMap κ ν :=
  if h : k ∈ m.keys then
    ⟨m.entries.map (replaceEntry k v), by
      rw [map_fst_replaceEntry]
      exact m.nodup⟩
  else
    ⟨m.entries ++ [(k, v)], by
      rw [List.map_append, List.nodup_append]
      refine ⟨m.nodup, List.nodup_singleton k, ?_⟩
      intro a ha b hb hab
      rw [List.map_singleton, List.mem_singleton] at hb
      subst hb
      subst hab
      exact h ha⟩

/-- `Map.delete`. -/
def delete (m : OrdMap κ ν) (k : κ) : OrdMap κ ν :=
  ⟨m.entries.filter (fun e => e.1 ≠ k),
    m.nodup.sublist (List.filter_sublist.map Prod.fst)⟩

/-! ## §2. Membership and lookup. -/

theorem get?_eq_some_iff (m : OrdMap κ ν) (k : κ) (v : ν) :
    m.get? k = some v ↔ (k, v) ∈ m.entries := by
  obtain ⟨l, hl⟩ := m
  simp only [get?]
  induction l with
  | nil => simp
  | cons e l ih =>
      obtain ⟨k', v'⟩ := e
      rw [List.map_cons, List.nodup_cons] at hl
      rw [List.lookup_cons]
      by_cases hk : k = k'
      · subst hk
        have hnot : (k, v) ∉ l := fun h => hl.1 (List.mem_map.mpr ⟨(k, v), h, rfl⟩)
        simp [hnot, eq_comm]
      · have hbeq : (k == k') = false := beq_eq_false_iff_ne.mpr hk
        simp [hbeq, hk, ih hl.2]

theorem get?_eq_none_iff (m : OrdMap κ ν) (k : κ) :
    m.get? k = none ↔ k ∉ m.keys := by
  rw [Option.eq_none_iff_forall_ne_some, keys, List.mem_map]
  constructor
  · rintro h ⟨⟨k', v⟩, hmem, rfl⟩
    exact h v ((get?_eq_some_iff m k' v).mpr hmem)
  · intro h v hv
    exact h ⟨(k, v), (get?_eq_some_iff m k v).mp hv, rfl⟩

theorem has_iff (m : OrdMap κ ν) (k : κ) : m.has k = true ↔ k ∈ m.keys := by
  rw [has, Option.isSome_iff_ne_none, ne_eq, get?_eq_none_iff, not_not]

theorem has_eq_false_iff (m : OrdMap κ ν) (k : κ) :
    m.has k = false ↔ m.get? k = none := by
  rw [has, Option.isSome_eq_false_iff, Option.isNone_iff_eq_none]

/-- A new key goes to the end. -/
theorem entries_set_of_not_has {m : OrdMap κ ν} {k : κ} (h : m.has k = false) (v : ν) :
    (m.set k v).entries = m.entries ++ [(k, v)] := by
  have hk : k ∉ m.keys := by
    rw [← has_iff, h]
    exact Bool.false_ne_true
  rw [set, dif_neg hk]

theorem mem_entries_set (m : OrdMap κ ν) (k : κ) (v : ν) (e : κ × ν) :
    e ∈ (m.set k v).entries ↔ e = (k, v) ∨ (e.1 ≠ k ∧ e ∈ m.entries) := by
  unfold set
  split
  -- A known key keeps its place and only its value changes.
  next h =>
    simp only [List.mem_map]
    constructor
    · rintro ⟨e', he', rfl⟩
      by_cases hk : e'.1 = k
      · exact Or.inl (if_pos hk)
      · have hsame : replaceEntry k v e' = e' := if_neg hk
        rw [hsame]
        exact Or.inr ⟨hk, he'⟩
    · rintro (rfl | ⟨hne, he⟩)
      · obtain ⟨e', he', hk⟩ := List.mem_map.mp h
        exact ⟨e', he', if_pos hk⟩
      · exact ⟨e, he, if_neg hne⟩
  -- A new key goes to the end.
  next h =>
    simp only [List.mem_append, List.mem_singleton]
    constructor
    · rintro (he | rfl)
      · right
        refine ⟨fun hk => h ?_, he⟩
        exact List.mem_map.mpr ⟨e, he, hk⟩
      · exact Or.inl rfl
    · rintro (rfl | ⟨_, he⟩)
      · exact Or.inr rfl
      · exact Or.inl he

theorem mem_entries_delete (m : OrdMap κ ν) (k : κ) (e : κ × ν) :
    e ∈ (m.delete k).entries ↔ e.1 ≠ k ∧ e ∈ m.entries := by
  simp [delete, and_comm]

/-- **Lookup after `set`**, at every key. -/
theorem get?_set (m : OrdMap κ ν) (k : κ) (v : ν) (k' : κ) :
    (m.set k v).get? k' = if k' = k then some v else m.get? k' := by
  ext w
  rw [get?_eq_some_iff, mem_entries_set]
  by_cases hk : k' = k
  · simp [hk, eq_comm]
  · simp [hk, get?_eq_some_iff]

/-- **Lookup after `delete`**, at every key. -/
theorem get?_delete (m : OrdMap κ ν) (k k' : κ) :
    (m.delete k).get? k' = if k' = k then none else m.get? k' := by
  ext w
  rw [get?_eq_some_iff, mem_entries_delete]
  by_cases hk : k' = k
  · simp [hk]
  · simp [hk, get?_eq_some_iff]

@[simp] theorem get?_set_self (m : OrdMap κ ν) (k : κ) (v : ν) :
    (m.set k v).get? k = some v := by
  rw [get?_set, if_pos rfl]

theorem get?_set_ne (m : OrdMap κ ν) {k k' : κ} (v : ν) (h : k' ≠ k) :
    (m.set k v).get? k' = m.get? k' := by
  rw [get?_set, if_neg h]

theorem has_set (m : OrdMap κ ν) (k : κ) (v : ν) (k' : κ) :
    (m.set k v).has k' = (decide (k' = k) || m.has k') := by
  rw [has, get?_set]
  by_cases h : k' = k
  · rw [if_pos h, h, decide_eq_true rfl]
    rfl
  · rw [if_neg h, decide_eq_false h]
    rfl

theorem has_delete (m : OrdMap κ ν) (k k' : κ) :
    (m.delete k).has k' = (!decide (k' = k) && m.has k') := by
  rw [has, get?_delete]
  by_cases h : k' = k
  · rw [if_pos h, h, decide_eq_true rfl]
    rfl
  · rw [if_neg h, decide_eq_false h]
    rfl

theorem mem_values_set {m : OrdMap κ ν} {k : κ} {v w : ν}
    (h : w ∈ (m.set k v).values) : w = v ∨ w ∈ m.values := by
  obtain ⟨e, he, rfl⟩ := List.mem_map.mp h
  rcases (mem_entries_set m k v e).mp he with rfl | ⟨_, he'⟩
  · exact Or.inl rfl
  · exact Or.inr (List.mem_map_of_mem he')

theorem mem_values_delete {m : OrdMap κ ν} {k : κ} {w : ν}
    (h : w ∈ (m.delete k).values) : w ∈ m.values := by
  obtain ⟨e, he, rfl⟩ := List.mem_map.mp h
  exact List.mem_map_of_mem ((mem_entries_delete m k e).mp he).2

theorem mem_values_of_get? {m : OrdMap κ ν} {k : κ} {v : ν}
    (h : m.get? k = some v) : v ∈ m.values :=
  List.mem_map.mpr ⟨(k, v), (get?_eq_some_iff m k v).mp h, rfl⟩

/-! ## §3. Sums over the values. -/

variable {M : Type} [AddCommGroup M]

/-- The sum of `f` over the values of the map. -/
def total (f : ν → M) (m : OrdMap κ ν) : M := (m.values.map f).sum

/-- What the map contributes at `k`. -/
def weightAt (f : ν → M) (m : OrdMap κ ν) (k : κ) : M := ((m.get? k).map f).getD 0

theorem weightAt_of_get? {f : ν → M} {m : OrdMap κ ν} {k : κ} {v : ν}
    (h : m.get? k = some v) : weightAt f m k = f v := by
  rw [weightAt, h]
  rfl

theorem weightAt_of_not_has {f : ν → M} {m : OrdMap κ ν} {k : κ}
    (h : m.has k = false) : weightAt f m k = 0 := by
  rw [weightAt, (has_eq_false_iff m k).mp h]
  rfl

/-- **Deleting a key** takes its contribution out of the sum. -/
theorem total_delete (f : ν → M) (m : OrdMap κ ν) (k : κ) :
    total f (m.delete k) = total f m - weightAt f m k := by
  obtain ⟨l, hl⟩ := m
  simp only [total, weightAt, values, delete, get?]
  induction l with
  | nil => simp
  | cons e l ih =>
      obtain ⟨k', v'⟩ := e
      rw [List.map_cons, List.nodup_cons] at hl
      by_cases hk : k' = k
      -- The keys are distinct, so the rest holds no other entry of `k`.
      · subst hk
        have hrest : l.filter (fun e => decide (e.1 ≠ k')) = l := by
          rw [List.filter_eq_self]
          intro e he
          have hne : e.1 ≠ k' := fun h => hl.1 (List.mem_map.mpr ⟨e, he, h⟩)
          simpa using hne
        rw [List.filter_cons_of_neg (by simp), hrest]
        simp
      · have hbeq : (k == k') = false := beq_eq_false_iff_ne.mpr (Ne.symm hk)
        have hrec := ih hl.2
        rw [List.filter_cons_of_pos (by simpa using hk), List.map_cons, List.map_cons,
          List.sum_cons, hrec, List.lookup_cons, hbeq]
        simp only [List.map_cons, List.sum_cons]
        abel

/-- Setting a known key is deleting it and adding the new entry. -/
theorem entries_set_perm (m : OrdMap κ ν) (k : κ) (v : ν) :
    (m.set k v).entries.Perm ((k, v) :: (m.delete k).entries) := by
  have hnd : (m.set k v).entries.Nodup := (m.set k v).nodup.of_map
  have hnd' : ((k, v) :: (m.delete k).entries).Nodup := by
    rw [List.nodup_cons]
    refine ⟨fun h => ((mem_entries_delete m k (k, v)).mp h).1 rfl, ?_⟩
    exact (m.delete k).nodup.of_map
  rw [List.perm_ext_iff_of_nodup hnd hnd']
  intro e
  rw [mem_entries_set, List.mem_cons, mem_entries_delete]

/-- **Setting a key** replaces its contribution to the sum. -/
theorem total_set (f : ν → M) (m : OrdMap κ ν) (k : κ) (v : ν) :
    total f (m.set k v) = total f m - weightAt f m k + f v := by
  have hperm := ((entries_set_perm m k v).map Prod.snd).map f
  have hsum : total f (m.set k v) = f v + total f (m.delete k) := by
    simpa [total, values] using hperm.sum_eq
  rw [hsum, total_delete]
  abel

/-- The sum over the values, read key by key. -/
theorem sum_weightAt_keys (f : ν → M) (m : OrdMap κ ν) :
    (m.keys.map (weightAt f m)).sum = total f m := by
  unfold total values keys
  rw [List.map_map, List.map_map]
  congr 1
  refine List.map_congr_left ?_
  intro e he
  exact weightAt_of_get? ((get?_eq_some_iff m e.1 e.2).mpr he)

end OrdMap

end DataKit
