/-
  Divachain.Lib.Store — an ordered key/value store.

  `Store κ ν` is the abstract content of an embedded key/value database:
  finitely many entries, iterated in strictly increasing key order.  The
  order is a field, so a store out of order cannot be built.

  Main results:
    * `mem_entries_put` — what an entry of an updated store can be;
    * `get?_put` / `get?_del` — lookup after an update, at every key;
    * `Holds.put` / `Holds.del` — a store that holds exactly the entries of a
      relation, and an update of both;
    * `entries_put_above` — a key above all others goes to the end, so a
      log written under increasing keys is read back in writing order.
-/
import Mathlib.Order.Lattice
import Mathlib.Data.List.Basic

namespace DataKit

/-- An ordered key/value store. -/
structure Store (κ ν : Type) [LinearOrder κ] where
  entries : List (κ × ν)
  sorted : entries.Pairwise (fun a b => a.1 < b.1)
  deriving DecidableEq

namespace Store

variable {κ ν : Type} [LinearOrder κ]

/-! ## §1. The operations. -/

def empty : Store κ ν := ⟨[], List.Pairwise.nil⟩

instance : Inhabited (Store κ ν) := ⟨empty⟩

def get? (s : Store κ ν) (k : κ) : Option ν := s.entries.lookup k

def values (s : Store κ ν) : List ν := s.entries.map Prod.snd

/-- Insert or overwrite `k` in a list kept in key order. -/
def putEntry (k : κ) (v : ν) : List (κ × ν) → List (κ × ν)
  | [] => [(k, v)]
  | e :: l =>
      if k < e.1 then (k, v) :: e :: l
      else if k = e.1 then (k, v) :: l
      else e :: putEntry k v l

theorem mem_putEntry {k : κ} {v : ν} {e : κ × ν} :
    ∀ {l : List (κ × ν)}, e ∈ putEntry k v l → e = (k, v) ∨ e ∈ l
  | [], h => Or.inl (List.mem_singleton.mp h)
  | e' :: l, h => by
      unfold putEntry at h
      split at h
      · exact List.mem_cons.mp h
      · split at h
        · rcases List.mem_cons.mp h with h | h
          · exact Or.inl h
          · exact Or.inr (List.mem_cons_of_mem e' h)
        · rcases List.mem_cons.mp h with h | h
          · exact Or.inr (h ▸ List.mem_cons_self)
          · rcases mem_putEntry h with h | h
            · exact Or.inl h
            · exact Or.inr (List.mem_cons_of_mem e' h)

theorem putEntry_sorted (k : κ) (v : ν) :
    ∀ l : List (κ × ν), l.Pairwise (fun a b => a.1 < b.1) →
      (putEntry k v l).Pairwise (fun a b => a.1 < b.1)
  | [], _ => List.pairwise_singleton _ _
  | e :: l, h => by
      obtain ⟨he, hl⟩ := List.pairwise_cons.mp h
      unfold putEntry
      split
      next hlt =>
        refine List.pairwise_cons.mpr ⟨?_, h⟩
        intro b hb
        rcases List.mem_cons.mp hb with rfl | hb
        · exact hlt
        · exact lt_trans hlt (he b hb)
      next hlt =>
        split
        next heq =>
          exact List.pairwise_cons.mpr ⟨fun b hb => heq ▸ he b hb, hl⟩
        next hne =>
          refine List.pairwise_cons.mpr ⟨?_, putEntry_sorted k v l hl⟩
          intro b hb
          -- What the recursive call inserts is `k` or was there before; both lie above `e`.
          rcases mem_putEntry hb with rfl | hb
          · exact lt_of_le_of_ne (not_lt.mp hlt) (Ne.symm hne)
          · exact he b hb

def put (s : Store κ ν) (k : κ) (v : ν) : Store κ ν :=
  ⟨putEntry k v s.entries, putEntry_sorted k v s.entries s.sorted⟩

def del (s : Store κ ν) (k : κ) : Store κ ν :=
  ⟨s.entries.filter (fun e => e.1 ≠ k), s.sorted.sublist List.filter_sublist⟩

/-! ## §2. What an update leaves behind. -/

theorem mem_entries_put {s : Store κ ν} {k : κ} {v : ν} {e : κ × ν}
    (h : e ∈ (s.put k v).entries) : e = (k, v) ∨ e ∈ s.entries :=
  mem_putEntry h

theorem putEntry_above (k : κ) (v : ν) :
    ∀ l : List (κ × ν), (∀ e ∈ l, e.1 < k) → putEntry k v l = l ++ [(k, v)]
  | [], _ => rfl
  | e :: l, h => by
      have he : e.1 < k := h e List.mem_cons_self
      unfold putEntry
      rw [if_neg (lt_asymm he), if_neg (ne_of_gt he),
        putEntry_above k v l (fun e' he' => h e' (List.mem_cons_of_mem e he'))]
      rfl

/-- **A key above all others goes to the end.** -/
theorem entries_put_above (s : Store κ ν) (k : κ) (v : ν)
    (h : ∀ e ∈ s.entries, e.1 < k) :
    (s.put k v).entries = s.entries ++ [(k, v)] :=
  putEntry_above k v s.entries h

/-! ## §3. Lookup. -/

theorem keys_nodup (s : Store κ ν) : (s.entries.map Prod.fst).Nodup :=
  (List.pairwise_map.mpr s.sorted).imp fun h => ne_of_lt h

theorem lookup_eq_some_iff {k : κ} {v : ν} :
    ∀ {l : List (κ × ν)}, (l.map Prod.fst).Nodup → (l.lookup k = some v ↔ (k, v) ∈ l)
  | [], _ => by simp
  | (k', v') :: l, h => by
      rw [List.map_cons, List.nodup_cons] at h
      rw [List.lookup_cons]
      by_cases hk : k = k'
      · subst hk
        have hnot : (k, v) ∉ l := fun hmem => h.1 (List.mem_map.mpr ⟨(k, v), hmem, rfl⟩)
        simp [hnot, eq_comm]
      · have hbeq : (k == k') = false := beq_eq_false_iff_ne.mpr hk
        simp [hbeq, hk, lookup_eq_some_iff h.2]

theorem get?_eq_some_iff (s : Store κ ν) (k : κ) (v : ν) :
    s.get? k = some v ↔ (k, v) ∈ s.entries :=
  lookup_eq_some_iff s.keys_nodup

theorem mem_putEntry_iff {k : κ} {v : ν} {e : κ × ν} :
    ∀ {l : List (κ × ν)}, l.Pairwise (fun a b => a.1 < b.1) →
      (e ∈ putEntry k v l ↔ e = (k, v) ∨ (e.1 ≠ k ∧ e ∈ l))
  | [], _ => by simp [putEntry]
  | e' :: l, h => by
      obtain ⟨habove, hl⟩ := List.pairwise_cons.mp h
      unfold putEntry
      split
      next hlt =>
        -- `k` lies below the whole list, so it was not in it.
        have hne : ∀ x ∈ e' :: l, x.1 ≠ k := by
          intro x hx
          rcases List.mem_cons.mp hx with rfl | hx
          · exact ne_of_gt hlt
          · exact ne_of_gt (lt_trans hlt (habove x hx))
        rw [List.mem_cons]
        constructor
        · rintro (rfl | hmem)
          · exact Or.inl rfl
          · exact Or.inr ⟨hne e hmem, hmem⟩
        · rintro (rfl | ⟨-, hmem⟩)
          · exact Or.inl rfl
          · exact Or.inr hmem
      next =>
        split
        next heq =>
          have hne : ∀ x ∈ l, x.1 ≠ k := fun x hx => ne_of_gt (heq ▸ habove x hx)
          rw [List.mem_cons]
          constructor
          · rintro (rfl | hmem)
            · exact Or.inl rfl
            · exact Or.inr ⟨hne e hmem, List.mem_cons_of_mem _ hmem⟩
          · rintro (rfl | ⟨hk, hmem⟩)
            · exact Or.inl rfl
            · rcases List.mem_cons.mp hmem with rfl | hmem
              · exact absurd heq.symm hk
              · exact Or.inr hmem
        next hne =>
          rw [List.mem_cons, mem_putEntry_iff hl, List.mem_cons]
          constructor
          · rintro (rfl | rfl | ⟨hk, hmem⟩)
            · exact Or.inr ⟨Ne.symm hne, Or.inl rfl⟩
            · exact Or.inl rfl
            · exact Or.inr ⟨hk, Or.inr hmem⟩
          · rintro (rfl | ⟨hk, rfl | hmem⟩)
            · exact Or.inr (Or.inl rfl)
            · exact Or.inl rfl
            · exact Or.inr (Or.inr ⟨hk, hmem⟩)

/-- **Lookup after `put`**, at every key. -/
theorem get?_put (s : Store κ ν) (k : κ) (v : ν) (k' : κ) :
    (s.put k v).get? k' = if k' = k then some v else s.get? k' := by
  ext w
  rw [get?_eq_some_iff]
  show (k', w) ∈ putEntry k v s.entries ↔ _
  rw [mem_putEntry_iff s.sorted]
  by_cases hk : k' = k
  · simp [hk, eq_comm]
  · simp [hk, get?_eq_some_iff]

/-- **Lookup after `del`**, at every key. -/
theorem get?_del (s : Store κ ν) (k k' : κ) :
    (s.del k).get? k' = if k' = k then none else s.get? k' := by
  ext w
  rw [get?_eq_some_iff]
  show (k', w) ∈ s.entries.filter (fun e => e.1 ≠ k) ↔ _
  by_cases hk : k' = k
  · simp [hk]
  · simp [hk, get?_eq_some_iff]

/-! ## §4. A store and the entries it should have. -/

/-- **The store holds exactly the entries of the relation.** -/
def Holds (s : Store κ ν) (P : κ → ν → Prop) : Prop := ∀ k v, s.get? k = some v ↔ P k v

theorem holds_empty {P : κ → ν → Prop} (h : ∀ k v, ¬ P k v) : (empty : Store κ ν).Holds P := by
  intro k v
  exact ⟨fun hnone => (nomatch hnone), fun hP => absurd hP (h k v)⟩

/-- The entry at one key is replaced. -/
theorem Holds.put {s : Store κ ν} {P P' : κ → ν → Prop} (h : s.Holds P) {k : κ} {v : ν}
    (hself : ∀ w, P' k w ↔ w = v) (hothers : ∀ k' w, k' ≠ k → (P' k' w ↔ P k' w)) :
    (s.put k v).Holds P' := by
  intro k' w
  rw [get?_put]
  by_cases hk : k' = k
  · subst hk
    rw [if_pos rfl, hself, Option.some.injEq]
    exact eq_comm
  · rw [if_neg hk, hothers k' w hk]
    exact h k' w

/-- The entry at one key goes. -/
theorem Holds.del {s : Store κ ν} {P P' : κ → ν → Prop} (h : s.Holds P) {k : κ}
    (hself : ∀ w, ¬ P' k w) (hothers : ∀ k' w, k' ≠ k → (P' k' w ↔ P k' w)) :
    (s.del k).Holds P' := by
  intro k' w
  rw [get?_del]
  by_cases hk : k' = k
  · subst hk
    rw [if_pos rfl]
    exact ⟨fun hnone => (nomatch hnone), fun hP => absurd hP (hself w)⟩
  · rw [if_neg hk, hothers k' w hk]
    exact h k' w

theorem Holds.congr {s : Store κ ν} {P P' : κ → ν → Prop} (h : s.Holds P)
    (hsame : ∀ k w, P' k w ↔ P k w) : s.Holds P' :=
  fun k w => (h k w).trans (hsame k w).symm

end Store

end DataKit
