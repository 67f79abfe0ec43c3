/-
  Divachain.Lib.HashChain — blocks that name the hash of the one before.

  A block that names the hash of its predecessor fixes it, and through it the
  whole history.  So where hashes bind what they are taken of, two chains that
  carry one hash at one place agree on everything below it.  What a hash does
  not cover is left open: `content` is the part that it does.
-/
import Mathlib.Data.List.Chain

namespace DataKit

section

variable {β η κ : Type} {hash previous : β → η} {content : β → κ} {bs cs : List β}

/-- Every block names the hash of the one before it. -/
def Linked (hash previous : β → η) (bs : List β) : Prop :=
  bs.IsChain fun a b => previous b = hash a

/-- **Hashes bind**: blocks with one hash have one content and one predecessor. -/
structure Binding (hash previous : β → η) (content : β → κ) (bs cs : List β) : Prop where
  content : ∀ b ∈ bs, ∀ c ∈ cs, hash b = hash c → content b = content c
  previous : ∀ b ∈ bs, ∀ c ∈ cs, hash b = hash c → previous b = previous c

theorem Linked.previous_eq (h : Linked hash previous bs) {k : Nat} {a b : β}
    (ha : bs[k]? = some a) (hb : bs[k + 1]? = some b) : previous b = hash a := by
  obtain ⟨hk, rfl⟩ := List.getElem?_eq_some_iff.mp hb
  obtain ⟨-, rfl⟩ := List.getElem?_eq_some_iff.mp ha
  exact List.isChain_iff_getElem.mp h k hk

/-- A block with a place has all the places before it filled. -/
theorem exists_before {k : Nat} {b : β} (hb : bs[k + 1]? = some b) : ∃ a, bs[k]? = some a := by
  obtain ⟨hk, -⟩ := List.getElem?_eq_some_iff.mp hb
  exact ⟨_, List.getElem?_eq_getElem (by omega)⟩

/-- **One hash, one history**: chains that carry one hash at one place have the
same contents up to there. -/
theorem Linked.history (hbs : Linked hash previous bs) (hcs : Linked hash previous cs)
    (hbind : Binding hash previous content bs cs) {k : Nat} {b c : β} (hb : bs[k]? = some b)
    (hc : cs[k]? = some c) (hhash : hash b = hash c) :
    (bs.take (k + 1)).map content = (cs.take (k + 1)).map content := by
  induction k generalizing b c with
  | zero =>
      have hcontent := hbind.content b (List.mem_of_getElem? hb) c (List.mem_of_getElem? hc) hhash
      rw [List.take_add_one, List.take_add_one, hb, hc]
      exact congrArg (fun x => [x]) hcontent
  | succ k ih =>
      obtain ⟨a, ha⟩ := exists_before hb
      obtain ⟨d, hd⟩ := exists_before hc
      have hmemb := List.mem_of_getElem? hb
      have hmemc := List.mem_of_getElem? hc
      -- the predecessors have one hash, since both blocks name it
      have hbefore : hash a = hash d := by
        rw [← hbs.previous_eq ha hb, ← hcs.previous_eq hd hc]
        exact hbind.previous b hmemb c hmemc hhash
      rw [List.take_add_one (i := k + 1), List.take_add_one (i := k + 1), List.map_append,
        List.map_append, ih ha hd hbefore, hb, hc]
      exact congrArg (fun x => _ ++ [x]) (hbind.content b hmemb c hmemc hhash)

end

end DataKit
