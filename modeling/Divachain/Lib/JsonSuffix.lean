/-
  Divachain.Lib.JsonSuffix — an array does not end in another one.

  Two texts joined by a comma can be told apart from the right if the second is
  an array of objects.  What would have to stand in the middle of the longer
  array is a comma, two opening brackets, a quote and a letter (`Opens`): outside
  of a string no comma stands before a bracket, and inside of a string the quote
  would end it before the letter.

  `Clears r` says that a text written by `r` has no such place, whatever follows
  it; every constructor of the serialiser keeps it.

  Main result:
    * `join_unique` — texts joined to arrays of objects can be taken apart.
-/
import Divachain.Lib.JsonText

namespace DataKit

/-! ## §1. The place. -/

/-- What stands where an array of objects begins behind a comma. -/
inductive Opens : List Char → Prop
  | intro (k : Char) (t : List Char) (h : k.isAlpha = true) :
      Opens (',' :: '[' :: '\x7b' :: '"' :: k :: t)

/-- The text has no such place. -/
def Clear (t : List Char) : Prop := ∀ before after, t = before ++ after → ¬ Opens after

theorem clear_nil : Clear [] := by
  intro before after h
  obtain ⟨-, rfl⟩ := List.append_eq_nil_iff.mp h.symm
  exact fun h => nomatch h

theorem clear_cons_iff {c : Char} {t : List Char} :
    Clear (c :: t) ↔ ¬ Opens (c :: t) ∧ Clear t := by
  constructor
  · intro h
    exact ⟨h [] (c :: t) rfl, fun before after ht => h (c :: before) after (by rw [ht]; rfl)⟩
  · rintro ⟨hfirst, hrest⟩ before after ht
    cases before with
    | nil =>
      obtain rfl : c :: t = after := ht
      exact hfirst
    | cons d before =>
      obtain ⟨-, ht⟩ := List.cons.inj ht
      exact hrest before after ht

theorem clear_cons {c : Char} {t : List Char} (hc : c ≠ ',') (ht : Clear t) : Clear (c :: t) :=
  clear_cons_iff.mpr ⟨fun h => by cases h; exact hc rfl, ht⟩

theorem clear_comma {t : List Char} (hstart : ∀ s, t ≠ '[' :: s) (ht : Clear t) :
    Clear (',' :: t) :=
  clear_cons_iff.mpr ⟨fun h => by cases h; exact hstart _ rfl, ht⟩

/-- A run without commas. -/
theorem clear_run : ∀ {s t : List Char}, (∀ c ∈ s, c ≠ ',') → Clear t → Clear (s ++ t)
  | [], _, _, ht => ht
  | c :: _, _, hs, ht =>
      clear_cons (hs c List.mem_cons_self)
        (clear_run (fun d hd => hs d (List.mem_cons_of_mem c hd)) ht)

/-! ## §2. Strings. -/

theorem not_mem_escapeControl {c : Char} (h : c.toNat < 32) : '"' ∉ escapeControl c := by
  have hhex : ∀ n < 16, hexDigit n ≠ '"' := by decide
  unfold escapeControl
  split
  · decide
  split
  · decide
  split
  · decide
  split
  · decide
  split
  · decide
  · intro hmem
    simp only [List.mem_cons, List.not_mem_nil, or_false] at hmem
    rcases hmem with h' | h' | h' | h' | h' | h'
    · exact absurd h' (by decide)
    · exact absurd h' (by decide)
    · exact absurd h' (by decide)
    · exact absurd h' (by decide)
    · exact hhex _ (by omega) h'.symm
    · exact hhex _ (by omega) h'.symm

/-- Inside of an escaped character a quote stands behind a backslash. -/
theorem backslash_of_escapeChar {c x : Char} {before after : List Char}
    (h : escapeChar c = before ++ x :: '"' :: after) : x = '\\' := by
  have hmem : '"' ∈ escapeChar c := by
    rw [h]
    simp
  unfold escapeChar at h hmem
  split at h
  next hcontrol =>
    rw [if_pos hcontrol] at hmem
    exact absurd hmem (not_mem_escapeControl hcontrol)
  split at h
  -- an escaped quote, of two characters
  · cases before with
    | nil => exact (List.cons.inj h).1.symm
    | cons d before =>
      have hlength := congrArg List.length h
      simp at hlength
      omega
  split at h
  next hcontrol hquote hslash =>
    rw [if_neg hcontrol, if_neg hquote, if_pos hslash] at hmem
    exact absurd hmem (by decide)
  next =>
    have hlength := congrArg List.length h
    simp at hlength
    omega

/-- The closing quote comes first only in the empty literal. -/
theorem eq_nil_of_quoteTail {s after : List Char} (h : quoteTail s = '"' :: after) : after = [] := by
  cases s with
  | nil => exact (List.cons.inj h).2.symm
  | cons c s => exact absurd h (escapeChar_ne_quote c _ _)

/-- **A quote that is not escaped ends the literal.** -/
theorem closing_quote {x : Char} (hx : x ≠ '\\') :
    ∀ {s before after : List Char}, quoteTail s = before ++ x :: '"' :: after → after = []
  | [], before, after, h => by
      have hlength := congrArg List.length h
      simp [quoteTail] at hlength
      omega
  | c :: s, before, after, h => by
      rw [quoteTail] at h
      rcases List.append_eq_append_iff.mp h with ⟨rest, -, hrest⟩ | ⟨rest, hbegun, hrest⟩
      · exact closing_quote hx hrest
      -- the place begins inside of the escaped character
      cases rest with
      | nil =>
        have hnext : quoteTail s = [] ++ x :: '"' :: after := hrest.symm
        exact closing_quote hx hnext
      | cons d rest =>
        rw [List.cons_append, List.cons.injEq] at hrest
        obtain ⟨rfl, hrest⟩ := hrest
        cases rest with
        | nil => exact eq_nil_of_quoteTail hrest.symm
        | cons e rest =>
          rw [List.cons_append, List.cons.injEq] at hrest
          obtain ⟨rfl, -⟩ := hrest
          exact absurd (backslash_of_escapeChar hbegun) hx

theorem getLast?_quoteTail : ∀ s : List Char, (quoteTail s).getLast? = some '"'
  | [] => rfl
  | c :: s => by
      rw [quoteTail, List.getLast?_append, getLast?_quoteTail s]
      rfl

/-- What a literal ends with, if not with nothing, ends with the quote. -/
theorem getLast?_of_quoteTail {s before rest : List Char} (h : quoteTail s = before ++ rest)
    (hne : rest ≠ []) : rest.getLast? = some '"' := by
  have hlast := getLast?_quoteTail s
  rw [h, List.getLast?_append] at hlast
  cases hrest : rest.getLast? with
  | none => exact absurd (List.getLast?_eq_none_iff.mp hrest) hne
  | some c =>
    rw [hrest] at hlast
    exact hlast

/-- **A literal that no letter follows** is clear. -/
theorem clear_quoteTail {x : List Char} (hx : StopsAt (fun c => c.isAlpha = true) x)
    (hclear : Clear x) (s : List Char) : Clear (quoteTail s ++ x) := by
  intro before after h hopens
  rcases List.append_eq_append_iff.mp h with ⟨rest, -, hrest⟩ | ⟨rest, hbegun, hrest⟩
  · exact hclear rest after hrest hopens
  obtain ⟨k, t, hk⟩ := hopens
  by_cases hne : rest = []
  · subst hne
    exact hclear [] _ hrest.symm ⟨k, t, hk⟩
  -- The literal ends with a quote, so it reaches at least up to the one before the letter.
  have hlast := getLast?_of_quoteTail hbegun hne
  match rest, hrest, hbegun, hlast with
  | [a], hrest, _, hlast =>
    obtain ⟨rfl, -⟩ := List.cons.inj hrest
    exact absurd hlast (by decide)
  | [a, b], hrest, _, hlast =>
    simp only [List.cons_append, List.nil_append, List.cons.injEq] at hrest
    obtain ⟨rfl, rfl, -⟩ := hrest
    exact absurd hlast (by decide)
  | [a, b, c], hrest, _, hlast =>
    simp only [List.cons_append, List.nil_append, List.cons.injEq] at hrest
    obtain ⟨rfl, rfl, rfl, -⟩ := hrest
    exact absurd hlast (by decide)
  | [a, b, c, d], hrest, _, _ =>
    simp only [List.cons_append, List.nil_append, List.cons.injEq] at hrest
    obtain ⟨-, -, -, -, rfl⟩ := hrest
    exact hx hk
  | a :: b :: c :: d :: e :: rest, hrest, hbegun, _ =>
    simp only [List.cons_append, List.cons.injEq] at hrest
    obtain ⟨rfl, rfl, rfl, rfl, -⟩ := hrest
    have hbrace : quoteTail s = (before ++ [',', '[']) ++ '\x7b' :: '"' :: (e :: rest) := by
      rw [hbegun, List.append_assoc]
      rfl
    exact nomatch closing_quote (by decide) hbrace

/-! ## §3. Values. -/

/-- Texts written by `r` are clear, whatever clear text follows them as the end
of a value. -/
def Clears {α : Type} (r : α → List Char) : Prop :=
  ∀ a x, Follows x → Clear x → Clear (r a ++ x)

theorem stopsAt_alpha_of_follows {x : List Char} (h : Follows x) :
    StopsAt (fun c => c.isAlpha = true) x := by
  cases x with
  | nil => trivial
  | cons c x =>
    intro hc
    refine h fun hcloser => ?_
    rcases hcloser with rfl | rfl | rfl
    · exact absurd hc (by decide)
    · exact absurd hc (by decide)
    · exact absurd hc (by decide)

theorem clears_quote : Clears quote := fun s _ hx hclear =>
  clear_cons (by decide) (clear_quoteTail (stopsAt_alpha_of_follows hx) hclear s)

theorem clears_int : Clears intText := by
  intro n x _ hclear
  refine clear_run (fun c hc => ?_) hclear
  rcases isNumeral_of_mem_intText hc with hdigit | rfl
  · rintro rfl
    exact absurd hdigit (by decide)
  · decide

theorem clears_sum {α β : Type} {r : α → List Char} {q : β → List Char} (hr : Clears r)
    (hq : Clears q) : Clears (Sum.elim r q) := by
  intro v x hx hclear
  cases v with
  | inl a => exact hr a x hx hclear
  | inr b => exact hq b x hx hclear

section Items

variable {α : Type} {r : α → List Char}

/-- No text written by `r` starts with a bracket. -/
def Unbracketed (r : α → List Char) : Prop := ∀ a x s, r a ++ x ≠ '[' :: s

theorem clear_itemsTail (hr : Clears r) (hstart : Unbracketed r) {close : Char}
    (hclose : IsCloser close) {x : List Char} (hclear : Clear (close :: x)) :
    ∀ l : List α, Clear (itemsTail r l ++ close :: x)
  | [] => hclear
  | a :: l => by
      have hrest := clear_itemsTail hr hstart hclose hclear l
      have hfirst := hr a _ (follows_itemsTail (r := r) hclose l x) hrest
      rw [itemsTail, List.cons_append, List.append_assoc]
      exact clear_comma (fun s => hstart a _ s) hfirst

theorem clear_items (hr : Clears r) (hstart : Unbracketed r) {close : Char}
    (hclose : IsCloser close) {x : List Char} (hclear : Clear (close :: x)) (l : List α) :
    Clear (items r l ++ close :: x) := by
  cases l with
  | nil => exact hclear
  | cons a l =>
    rw [items, List.append_assoc]
    exact hr a _ (follows_itemsTail hclose l x) (clear_itemsTail hr hstart hclose hclear l)

theorem clears_arr (hr : Clears r) (hstart : Unbracketed r) : Clears (arrText r) := by
  intro l x _ hclear
  rw [arrText, List.cons_append, List.append_assoc]
  exact clear_cons (by decide)
    (clear_items hr hstart isCloser_bracket (clear_cons (by decide) hclear) l)

theorem clears_member (hr : Clears r) : Clears (memberText r) := by
  intro m x hx hclear
  rw [memberText, List.append_assoc]
  have hcolon : StopsAt (fun c => c.isAlpha = true) (':' :: r m.2 ++ x) := by
    show ¬ (':' : Char).isAlpha = true
    decide
  exact clear_cons (by decide) (clear_quoteTail hcolon (clear_cons (by decide) (hr m.2 x hx hclear)) m.1)

theorem unbracketed_member : Unbracketed (memberText r) := by
  intro m x s h
  exact absurd (List.cons.inj h).1 (by decide)

theorem unbracketed_obj : Unbracketed (objText r) := by
  intro l x s h
  exact absurd (List.cons.inj h).1 (by decide)

theorem clears_obj (hr : Clears r) : Clears (objText r) := by
  intro l x _ hclear
  rw [objText, List.cons_append, List.append_assoc]
  exact clear_cons (by decide)
    (clear_items (clears_member hr) unbracketed_member isCloser_brace
      (clear_cons (by decide) hclear) l)

/-! ## §4. Taking texts apart. -/

/-- The first object has a member whose name starts with a letter. -/
def Lettered (l : List (List (List Char × α))) : Prop :=
  ∃ k t v members rest, l = ((k :: t, v) :: members) :: rest ∧ k.isAlpha = true
    ∧ escapeChar k = [k]

theorem opens_of_lettered {l : List (List (List Char × α))} (h : Lettered l) :
    Opens (',' :: arrText (objText r) l) := by
  obtain ⟨k, t, v, members, rest, rfl, hk, hplain⟩ := h
  have hshape : ∃ s, ',' :: arrText (objText r) (((k :: t, v) :: members) :: rest)
      = ',' :: '[' :: '\x7b' :: '"' :: k :: s := by
    simp only [arrText, objText, items, memberText, quote, quoteTail, hplain, List.cons_append,
      List.nil_append]
    exact ⟨_, rfl⟩
  obtain ⟨s, hs⟩ := hshape
  rw [hs]
  exact ⟨k, s, hk⟩

/-- **Texts joined to arrays of objects can be taken apart.** -/
theorem join_unique (hr : Delimited r) (hclears : Clears r) {l m : List (List (List Char × α))}
    (hl : Lettered l) (hm : Lettered m) {x y : List Char}
    (h : x ++ ',' :: arrText (objText r) l = y ++ ',' :: arrText (objText r) m) : x = y ∧ l = m := by
  have hclear : ∀ k : List (List (List Char × α)), Clear (arrText (objText r) k) := by
    intro k
    have hall := clears_arr (clears_obj hclears) unbracketed_obj k [] trivial clear_nil
    rwa [List.append_nil] at hall
  -- where one text is longer, its array would have the other one at its end
  have hshorter : ∀ {u v : List (List (List Char × α))} {rest : List Char}, Lettered u →
      rest ≠ [] → ',' :: arrText (objText r) v ≠ rest ++ ',' :: arrText (objText r) u := by
    intro u v rest hu hne heq
    cases rest with
    | nil => exact hne rfl
    | cons c rest =>
      exact hclear v rest _ (List.cons.inj heq).2 (opens_of_lettered hu)
  rcases List.append_eq_append_iff.mp h with ⟨rest, hx, hrest⟩ | ⟨rest, hx, hrest⟩
  · by_cases hne : rest = []
    · subst hne
      rw [List.append_nil] at hx
      exact ⟨hx.symm, (delimited_arr (delimited_obj hr)).injective (List.cons.inj hrest).2⟩
    · exact absurd hrest (hshorter hm hne)
  · by_cases hne : rest = []
    · subst hne
      rw [List.append_nil] at hx
      exact ⟨hx, ((delimited_arr (delimited_obj hr)).injective (List.cons.inj hrest).2).symm⟩
    · exact absurd hrest (hshorter hl hne)

end Items

end DataKit
