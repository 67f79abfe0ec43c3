/-
  Divachain.Lib.Search — the latest matches of a log.

  A search that reads a log from its newest entry on can stop after so many
  entries, or after so many matches.  `newestFirst` is the former, `latest` what
  the latter finds.  They agree when the matches are dense or the log is short,
  and `newestFirst_eq_latest_iff` says exactly when.
-/
import Mathlib.Data.List.DropRight
import Mathlib.Data.List.Infix

namespace DataKit

/-! ## §1. One list in another. -/

/-- `t.indexOf(s) > -1`. -/
def contains {α : Type} [DecidableEq α] (s : List α) : List α → Bool
  | [] => s.isEmpty
  | a :: t => s.isPrefixOf (a :: t) || contains s t

theorem contains_iff {α : Type} [DecidableEq α] {s : List α} :
    ∀ {t : List α}, contains s t = true ↔ s <:+: t
  | [] => by rw [contains, List.isEmpty_iff, List.infix_nil]
  | a :: t => by
      rw [contains, Bool.or_eq_true, List.isPrefixOf_iff_prefix, contains_iff, List.infix_cons_iff]

/-! ## §2. The latest matches. -/

variable {α : Type}

/-- The matches among the last `n` entries, the newest first. -/
def newestFirst (n : Nat) (p : α → Bool) (log : List α) : List α :=
  (log.reverse.take n).filter p

/-- The last `n` matches, in the order of the log. -/
def latest (n : Nat) (p : α → Bool) (log : List α) : List α := (log.filter p).rtake n

theorem newestFirst_eq (n : Nat) (p : α → Bool) (log : List α) :
    newestFirst n p log = ((log.rtake n).filter p).reverse := by
  rw [newestFirst, List.rtake_eq_reverse_take_reverse, List.filter_reverse, List.reverse_reverse]

theorem rdrop_append_rtake (n : Nat) (log : List α) : log.rdrop n ++ log.rtake n = log :=
  List.take_append_drop _ _

/-- The last of two parts is long enough, or all there is. -/
theorem rtake_append_eq_right_iff {n : Nat} {l r : List α} (hr : r.length ≤ n) :
    (l ++ r).rtake n = r ↔ l = [] ∨ r.length = n := by
  rw [List.rtake, List.length_append]
  constructor
  · intro h
    have hlength := congrArg List.length h
    rw [List.length_drop, List.length_append] at hlength
    by_cases hfull : r.length = n
    · exact Or.inr hfull
    · exact Or.inl (List.length_eq_zero_iff.mp (by omega))
  · rintro (rfl | hfull)
    · rw [List.nil_append, List.length_nil, Nat.zero_add, Nat.sub_eq_zero_of_le hr, List.drop_zero]
    · rw [hfull, Nat.add_sub_cancel, List.drop_left]

/-- The entries the search passes over do not match, or it has no room for them. -/
def Within (n : Nat) (p : α → Bool) (log : List α) : Prop :=
  (∀ a ∈ log.rdrop n, p a = false) ∨ ∀ a ∈ log.rtake n, p a = true

theorem length_rtake_le (n : Nat) (log : List α) : (log.rtake n).length ≤ n := by
  rw [List.rtake, List.length_drop]
  omega

/-- Nothing is passed over while there is room. -/
theorem rdrop_eq_nil_of_short {n : Nat} {log : List α} (h : (log.rtake n).length < n) :
    log.rdrop n = [] := by
  rw [List.rtake, List.length_drop] at h
  rw [List.rdrop, Nat.sub_eq_zero_of_le (by omega), List.take_zero]

theorem filter_rtake_eq_latest_iff {n : Nat} {p : α → Bool} {log : List α} :
    (log.rtake n).filter p = latest n p log ↔ Within n p log := by
  have hle : ((log.rtake n).filter p).length ≤ n :=
    le_trans (List.length_filter_le _ _) (length_rtake_le n log)
  have hsplit : log.filter p = (log.rdrop n).filter p ++ (log.rtake n).filter p := by
    rw [← List.filter_append, rdrop_append_rtake]
  rw [eq_comm, latest, hsplit, rtake_append_eq_right_iff hle, List.filter_eq_nil_iff]
  unfold Within
  constructor
  · rintro (hold | hfull)
    · exact Or.inl fun a ha => Bool.not_eq_true _ ▸ hold a ha
    · refine Or.inr ?_
      -- as many matches as entries
      have hall : ((log.rtake n).filter p).length = (log.rtake n).length :=
        le_antisymm (List.length_filter_le _ _) (by rw [hfull]; exact length_rtake_le n log)
      exact List.length_filter_eq_length_iff.mp hall
  · rintro (hold | hall)
    · refine Or.inl fun a ha => ?_
      rw [hold a ha]
      decide
    · by_cases hshort : (log.rtake n).length < n
      · refine Or.inl fun a ha => ?_
        rw [rdrop_eq_nil_of_short hshort] at ha
        exact nomatch ha
      · refine Or.inr ?_
        rw [List.length_filter_eq_length_iff.mpr hall]
        have hlength := length_rtake_le n log
        omega

/-- **When the search finds the latest matches.** -/
theorem newestFirst_eq_latest_iff {n : Nat} {p : α → Bool} {log : List α} :
    (newestFirst n p log).reverse = latest n p log ↔ Within n p log := by
  rw [newestFirst_eq, List.reverse_reverse, filter_rtake_eq_latest_iff]

/-- The same, if the order does not count. -/
theorem newestFirst_perm_latest_iff {n : Nat} {p : α → Bool} {log : List α} :
    (newestFirst n p log).Perm (latest n p log) ↔ Within n p log := by
  constructor
  · intro h
    rw [← newestFirst_eq_latest_iff, newestFirst_eq, List.reverse_reverse]
    -- the matches found are the end of the latest, and as many
    have hlength := h.length_eq
    rw [newestFirst_eq, List.length_reverse] at hlength
    refine List.IsSuffix.eq_of_length ?_ hlength
    have hle : ((log.rtake n).filter p).length ≤ n :=
      le_trans (List.length_filter_le _ _) (length_rtake_le n log)
    have hmatches : (log.rtake n).filter p <:+ log.filter p := (List.drop_suffix _ log).filter p
    have hlatest : latest n p log <:+ log.filter p := List.drop_suffix _ _
    exact List.suffix_of_suffix_length_le hmatches hlatest (le_of_eq hlength)
  · intro h
    rw [← newestFirst_eq_latest_iff.mpr h]
    exact (List.reverse_perm _).symm

end DataKit
