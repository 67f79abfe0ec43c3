/-
  Divachain.Lib.JsonText — the text a JSON serialiser writes, and why it is
  unambiguous.

  Texts are character lists.  `natText`/`intText` are decimal numerals,
  `quote` is a string literal with the escapes of `JSON.stringify`, and
  `arrText`/`objText` put rendered items between brackets.

  The notion carried through is `Delimited r`: reading a value written by
  `r` off the front of a text recovers the value AND the rest, provided the
  rest is empty or starts with `,`, `]` or `}`.  Every constructor preserves
  it, so injectivity of a whole document is assembled, never re-proved.

  Main results:
    * `span_unique` — a run of characters of one kind ends in one place;
    * `delimited_int`, `delimited_quote`, `delimited_arr`, `delimited_obj`;
    * `Delimited.injective`.
-/
import Mathlib.Algebra.GroupWithZero.Nat
import Mathlib.Data.List.Basic
import Mathlib.Data.Char

namespace DataKit

/-! ## §1. Where a run of characters ends. -/

/-- The text is empty or starts outside `P`. -/
def StopsAt (P : Char → Prop) : List Char → Prop
  | [] => True
  | c :: _ => ¬ P c

/-- **A maximal run of `P`-characters is determined by the text.** -/
theorem span_unique {P : Char → Prop} :
    ∀ {p q x y : List Char}, (∀ c ∈ p, P c) → (∀ c ∈ q, P c) →
      StopsAt P x → StopsAt P y → p ++ x = q ++ y → p = q ∧ x = y
  | [], [], x, y, _, _, _, _, h => ⟨rfl, h⟩
  | [], d :: q, x, y, _, hq, hx, _, h => by
      rw [List.nil_append, List.cons_append] at h
      subst h
      exact absurd (hq d List.mem_cons_self) hx
  | c :: p, [], x, y, hp, _, _, hy, h => by
      rw [List.nil_append, List.cons_append] at h
      subst h
      exact absurd (hp c List.mem_cons_self) hy
  | c :: p, d :: q, x, y, hp, hq, hx, hy, h => by
      rw [List.cons_append, List.cons_append, List.cons.injEq] at h
      obtain ⟨rfl, hrest⟩ := h
      obtain ⟨rfl, hxy⟩ := span_unique
        (fun c hc => hp c (List.mem_cons_of_mem _ hc))
        (fun c hc => hq c (List.mem_cons_of_mem _ hc)) hx hy hrest
      exact ⟨rfl, hxy⟩

/-! ## §2. Numerals. -/

def natText (n : Nat) : List Char := Nat.toDigits 10 n

def intText : Int → List Char
  | .ofNat n => natText n
  | .negSucc n => '-' :: natText (n + 1)

theorem isDigit_of_mem_natText {n : Nat} {c : Char} (h : c ∈ natText n) :
    c.isDigit = true :=
  Nat.isDigit_of_mem_toDigits (by decide) (by decide) h

theorem natText_injective {m n : Nat} (h : natText m = natText n) : m = n := by
  have hval := congrArg (fun t => Nat.ofDigitChars 10 t 0) h
  simpa [natText] using hval

theorem natText_ne_nil (n : Nat) : natText n ≠ [] := Nat.toDigits_ne_nil

/-- The characters a numeral is made of. -/
def IsNumeral (c : Char) : Prop := c.isDigit = true ∨ c = '-'

theorem isNumeral_of_mem_intText {n : Int} {c : Char} (h : c ∈ intText n) :
    IsNumeral c := by
  cases n with
  | ofNat n => exact Or.inl (isDigit_of_mem_natText h)
  | negSucc n =>
      rcases List.mem_cons.mp h with rfl | h
      · exact Or.inr rfl
      · exact Or.inl (isDigit_of_mem_natText h)

theorem natText_ne_neg (n : Nat) (t : List Char) : natText n ≠ '-' :: t := by
  intro h
  have hd : ('-' : Char).isDigit = true :=
    isDigit_of_mem_natText (n := n) (h ▸ List.mem_cons_self)
  exact absurd hd (by decide)

theorem intText_injective {m n : Int} (h : intText m = intText n) : m = n := by
  cases m with
  | ofNat m =>
      cases n with
      | ofNat n => exact congrArg Int.ofNat (natText_injective h)
      | negSucc n => exact absurd h (natText_ne_neg m _)
  | negSucc m =>
      cases n with
      | ofNat n => exact absurd h.symm (natText_ne_neg n _)
      | negSucc n =>
          rw [intText, intText, List.cons.injEq] at h
          have hmn := natText_injective h.2
          rw [Nat.add_right_cancel hmn]

theorem intText_ne_nil (n : Int) : intText n ≠ [] := by
  cases n with
  | ofNat n => exact natText_ne_nil n
  | negSucc n => exact List.cons_ne_nil _ _

/-! ## §3. Delimited renderings. -/

/-- The characters that may follow a complete value. -/
def IsCloser (c : Char) : Prop := c = ',' ∨ c = ']' ∨ c = '}'

/-- A text that may follow a complete value. -/
abbrev Follows : List Char → Prop := StopsAt (fun c => ¬ IsCloser c)

/-- `r` writes values that can be read back off the front of a text. -/
structure Delimited {α : Type} (r : α → List Char) : Prop where
  starts : ∀ a, ∃ c t, r a = c :: t ∧ ¬ IsCloser c
  reads : ∀ {a b x y}, Follows x → Follows y → r a ++ x = r b ++ y → a = b ∧ x = y

theorem Delimited.injective {α : Type} {r : α → List Char} (h : Delimited r)
    {a b : α} (hab : r a = r b) : a = b :=
  (h.reads (x := []) (y := []) trivial trivial (by rw [hab])).1

theorem follows_closer {c : Char} (h : IsCloser c) (x : List Char) : Follows (c :: x) :=
  fun hc => hc h

theorem isCloser_comma : IsCloser ',' := Or.inl rfl

theorem isCloser_bracket : IsCloser ']' := Or.inr (Or.inl rfl)

theorem isCloser_brace : IsCloser '}' := Or.inr (Or.inr rfl)

theorem not_isCloser_of_isNumeral {c : Char} (h : IsNumeral c) : ¬ IsCloser c := by
  rintro (rfl | rfl | rfl) <;>
    rcases h with h | h <;> revert h <;> decide

/-- A text that may follow a value does not continue a numeral. -/
theorem stopsAt_numeral_of_follows {x : List Char} (h : Follows x) :
    StopsAt IsNumeral x := by
  cases x with
  | nil => trivial
  | cons c x => exact fun hc => h (not_isCloser_of_isNumeral hc)

theorem delimited_int : Delimited intText where
  starts n := by
    obtain ⟨c, t, hct⟩ := List.exists_cons_of_ne_nil (intText_ne_nil n)
    have hc : IsNumeral c := isNumeral_of_mem_intText (hct ▸ List.mem_cons_self)
    exact ⟨c, t, hct, not_isCloser_of_isNumeral hc⟩
  reads hx hy h := by
    obtain ⟨hmn, hxy⟩ := span_unique
      (fun _ hc => isNumeral_of_mem_intText hc) (fun _ hc => isNumeral_of_mem_intText hc)
      (stopsAt_numeral_of_follows hx) (stopsAt_numeral_of_follows hy) h
    exact ⟨intText_injective hmn, hxy⟩

/-- **Two renderings that never start alike** render their disjoint union. -/
theorem delimited_sum {α β : Type} {r : α → List Char} {q : β → List Char}
    (hr : Delimited r) (hq : Delimited q)
    (hne : ∀ a b x y, r a ++ x ≠ q b ++ y) : Delimited (Sum.elim r q) where
  starts s := by
    cases s with
    | inl a => exact hr.starts a
    | inr b => exact hq.starts b
  reads {s t x y} hx hy h := by
    cases s with
    | inl a =>
        cases t with
        | inl a' => exact ⟨congrArg Sum.inl (hr.reads hx hy h).1, (hr.reads hx hy h).2⟩
        | inr b => exact absurd h (hne a b x y)
    | inr b =>
        cases t with
        | inl a => exact absurd h.symm (hne a b y x)
        | inr b' => exact ⟨congrArg Sum.inr (hq.reads hx hy h).1, (hq.reads hx hy h).2⟩

/-! ## §4. String literals. -/

def hexDigit (n : Nat) : Char :=
  (['0', '1', '2', '3', '4', '5', '6', '7', '8', '9', 'a', 'b', 'c', 'd', 'e', 'f'][n]?).getD '0'

/-- A control character inside a string literal. -/
def escapeControl (c : Char) : List Char :=
  if c = Char.ofNat 8 then ['\\', 'b']
  else if c = Char.ofNat 9 then ['\\', 't']
  else if c = Char.ofNat 10 then ['\\', 'n']
  else if c = Char.ofNat 12 then ['\\', 'f']
  else if c = Char.ofNat 13 then ['\\', 'r']
  else ['\\', 'u', '0', '0', hexDigit (c.toNat / 16), hexDigit (c.toNat % 16)]

/-- One character inside a string literal. -/
def escapeChar (c : Char) : List Char :=
  if c.toNat < 32 then escapeControl c
  else if c = '"' then ['\\', '"']
  else if c = '\\' then ['\\', '\\']
  else [c]

def hexValue (c : Char) : Nat :=
  if c.isDigit then c.toNat - 48 else c.toNat - 87

/-- Read one possibly escaped character back. -/
def unescapeChar : List Char → Option (Char × List Char)
  | '\\' :: 'u' :: _ :: _ :: h :: l :: x => some (Char.ofNat (hexValue h * 16 + hexValue l), x)
  | '\\' :: 'b' :: x => some (Char.ofNat 8, x)
  | '\\' :: 't' :: x => some (Char.ofNat 9, x)
  | '\\' :: 'n' :: x => some (Char.ofNat 10, x)
  | '\\' :: 'f' :: x => some (Char.ofNat 12, x)
  | '\\' :: 'r' :: x => some (Char.ofNat 13, x)
  | '\\' :: c :: x => some (c, x)
  | c :: x => some (c, x)
  | [] => none

theorem hexValue_hexDigit : ∀ n < 16, hexValue (hexDigit n) = n := by decide

theorem unescapeChar_plain {c : Char} (h : c ≠ '\\') (x : List Char) :
    unescapeChar (c :: x) = some (c, x) := by
  unfold unescapeChar
  split <;> simp_all

theorem unescapeChar_escapeControl {c : Char} (hc : c.toNat < 32) (x : List Char) :
    unescapeChar (escapeControl c ++ x) = some (c, x) := by
  unfold escapeControl
  by_cases h1 : c = Char.ofNat 8
  · subst h1; rfl
  by_cases h2 : c = Char.ofNat 9
  · subst h2; rfl
  by_cases h3 : c = Char.ofNat 10
  · subst h3; rfl
  by_cases h4 : c = Char.ofNat 12
  · subst h4; rfl
  by_cases h5 : c = Char.ofNat 13
  · subst h5; rfl
  rw [if_neg h1, if_neg h2, if_neg h3, if_neg h4, if_neg h5]
  show some (Char.ofNat (hexValue (hexDigit (c.toNat / 16)) * 16
    + hexValue (hexDigit (c.toNat % 16))), x) = some (c, x)
  rw [hexValue_hexDigit _ (by omega), hexValue_hexDigit _ (by omega),
    show c.toNat / 16 * 16 + c.toNat % 16 = c.toNat by omega, Char.ofNat_toNat]

/-- **An escaped character is read back**, whatever follows it. -/
theorem unescapeChar_escapeChar (c : Char) (x : List Char) :
    unescapeChar (escapeChar c ++ x) = some (c, x) := by
  unfold escapeChar
  by_cases hc : c.toNat < 32
  · rw [if_pos hc]
    exact unescapeChar_escapeControl hc x
  rw [if_neg hc]
  by_cases h1 : c = '"'
  · subst h1; rfl
  by_cases h2 : c = '\\'
  · subst h2; rfl
  rw [if_neg h1, if_neg h2]
  exact unescapeChar_plain h2 x

theorem escapeChar_unique {c d : Char} {x y : List Char}
    (h : escapeChar c ++ x = escapeChar d ++ y) : c = d ∧ x = y := by
  have hread := congrArg unescapeChar h
  rw [unescapeChar_escapeChar, unescapeChar_escapeChar, Option.some.injEq,
    Prod.mk.injEq] at hread
  exact hread

/-- An escaped character never looks like the closing quote. -/
theorem escapeChar_ne_quote (c : Char) (x y : List Char) :
    escapeChar c ++ x ≠ '"' :: y := by
  intro h
  have hread := congrArg unescapeChar h
  rw [unescapeChar_escapeChar, unescapeChar_plain (by decide), Option.some.injEq,
    Prod.mk.injEq] at hread
  obtain ⟨rfl, -⟩ := hread
  exact absurd h (by simp [escapeChar])

/-- The characters of a literal up to and including the closing quote. -/
def quoteTail : List Char → List Char
  | [] => ['"']
  | c :: s => escapeChar c ++ quoteTail s

def quote (s : List Char) : List Char := '"' :: quoteTail s

theorem quoteTail_unique :
    ∀ {s t x y : List Char}, quoteTail s ++ x = quoteTail t ++ y → s = t ∧ x = y
  | [], [], x, y, h => ⟨rfl, by simpa [quoteTail] using h⟩
  | [], d :: t, x, y, h => by
      rw [quoteTail, quoteTail, List.append_assoc] at h
      exact absurd h.symm (escapeChar_ne_quote d _ _)
  | c :: s, [], x, y, h => by
      rw [quoteTail, quoteTail, List.append_assoc] at h
      exact absurd h (escapeChar_ne_quote c _ _)
  | c :: s, d :: t, x, y, h => by
      rw [quoteTail, quoteTail, List.append_assoc, List.append_assoc] at h
      obtain ⟨rfl, hrest⟩ := escapeChar_unique h
      obtain ⟨rfl, hxy⟩ := quoteTail_unique hrest
      exact ⟨rfl, hxy⟩

/-- A literal is read back whatever follows it. -/
theorem quote_unique {s t x y : List Char} (h : quote s ++ x = quote t ++ y) :
    s = t ∧ x = y := by
  rw [quote, quote, List.cons_append, List.cons_append, List.cons.injEq] at h
  exact quoteTail_unique h.2

theorem delimited_quote : Delimited quote where
  starts s := ⟨'"', quoteTail s, rfl, by rintro (h | h | h) <;> revert h <;> decide⟩
  reads _ _ h := quote_unique h

/-! ## §5. Arrays and objects. -/

section Items

variable {α : Type} (r : α → List Char)

/-- The items after the first, each behind its comma. -/
def itemsTail : List α → List Char
  | [] => []
  | a :: l => ',' :: (r a ++ itemsTail l)

/-- Items separated by commas. -/
def items : List α → List Char
  | [] => []
  | a :: l => r a ++ itemsTail r l

def arrText (l : List α) : List Char := '[' :: (items r l ++ [']'])

/-- A member of an object: the quoted key, a colon, the value. -/
def memberText (m : List Char × α) : List Char := quote m.1 ++ ':' :: r m.2

def objText (l : List (List Char × α)) : List Char :=
  '\x7b' :: (items (memberText r) l ++ ['\x7d'])

variable {r}

theorem follows_itemsTail {close : Char} (hclose : IsCloser close) (l : List α)
    (x : List Char) : Follows (itemsTail r l ++ close :: x) := by
  cases l with
  | nil => exact follows_closer hclose x
  | cons a l => exact follows_closer isCloser_comma _

theorem itemsTail_unique (hr : Delimited r) {close : Char} (hclose : IsCloser close)
    (hcomma : close ≠ ',') :
    ∀ {l m : List α} {x y : List Char},
      itemsTail r l ++ close :: x = itemsTail r m ++ close :: y → l = m ∧ x = y
  | [], [], x, y, h => ⟨rfl, by simpa [itemsTail] using h⟩
  | [], b :: m, x, y, h => by
      rw [itemsTail, itemsTail, List.nil_append, List.cons_append, List.cons.injEq] at h
      exact absurd h.1 hcomma
  | a :: l, [], x, y, h => by
      rw [itemsTail, itemsTail, List.nil_append, List.cons_append, List.cons.injEq] at h
      exact absurd h.1.symm hcomma
  | a :: l, b :: m, x, y, h => by
      rw [itemsTail, itemsTail, List.cons_append, List.cons_append, List.cons.injEq,
        List.append_assoc, List.append_assoc] at h
      obtain ⟨rfl, hrest⟩ := hr.reads (follows_itemsTail hclose l x)
        (follows_itemsTail hclose m y) h.2
      obtain ⟨rfl, hxy⟩ := itemsTail_unique hr hclose hcomma hrest
      exact ⟨rfl, hxy⟩

theorem items_unique (hr : Delimited r) {close : Char} (hclose : IsCloser close)
    (hcomma : close ≠ ',') {l m : List α} {x y : List Char}
    (h : items r l ++ close :: x = items r m ++ close :: y) : l = m ∧ x = y := by
  cases l with
  | nil =>
      cases m with
      | nil => exact ⟨rfl, by simpa [items] using h⟩
      | cons b m =>
          -- No rendering starts with the closing bracket, so the lists end together.
          obtain ⟨c, t, hct, hc⟩ := hr.starts b
          rw [items, items, hct, List.nil_append, List.cons_append, List.cons_append,
            List.cons.injEq] at h
          exact absurd (h.1 ▸ hclose) hc
  | cons a l =>
      cases m with
      | nil =>
          obtain ⟨c, t, hct, hc⟩ := hr.starts a
          rw [items, items, hct, List.nil_append, List.cons_append, List.cons_append,
            List.cons.injEq] at h
          exact absurd (h.1 ▸ hclose) hc
      | cons b m =>
          rw [items, items, List.append_assoc, List.append_assoc] at h
          obtain ⟨rfl, hrest⟩ := hr.reads (follows_itemsTail hclose l x)
            (follows_itemsTail hclose m y) h
          obtain ⟨rfl, hxy⟩ := itemsTail_unique hr hclose hcomma hrest
          exact ⟨rfl, hxy⟩

/-- **Arrays of delimited items are delimited.** -/
theorem delimited_arr (hr : Delimited r) : Delimited (arrText r) where
  starts l := ⟨'[', items r l ++ [']'], rfl, by
    rintro (h | h | h) <;> revert h <;> decide⟩
  reads {l m x y} _ _ h := by
    rw [arrText, arrText, List.cons_append, List.cons_append, List.cons.injEq,
      List.append_assoc, List.append_assoc] at h
    exact items_unique hr isCloser_bracket (by decide) h.2

theorem delimited_member (hr : Delimited r) : Delimited (memberText r) where
  starts m := ⟨'"', quoteTail m.1 ++ ':' :: r m.2, rfl, by
    rintro (h | h | h) <;> revert h <;> decide⟩
  reads {m n x y} hx hy h := by
    rw [memberText, memberText, List.append_assoc, List.append_assoc] at h
    obtain ⟨hkey, h⟩ := quote_unique h
    rw [List.cons_append, List.cons_append, List.cons.injEq] at h
    obtain ⟨hval, hxy⟩ := hr.reads hx hy h.2
    exact ⟨Prod.ext hkey hval, hxy⟩

/-- **Objects with delimited values are delimited**, keys and order included. -/
theorem delimited_obj (hr : Delimited r) : Delimited (objText r) where
  starts l := ⟨'\x7b', items (memberText r) l ++ ['\x7d'], rfl, by
    rintro (h | h | h) <;> revert h <;> decide⟩
  reads {l m x y} _ _ h := by
    rw [objText, objText, List.cons_append, List.cons_append, List.cons.injEq,
      List.append_assoc, List.append_assoc] at h
    exact items_unique (delimited_member hr) isCloser_brace (by decide) h.2

/-! ## §6. How long the texts are at least. -/

/-- The items alone, without the commas. -/
theorem sum_length_le_itemsTail (r : α → List Char) :
    ∀ l : List α, (l.map fun a => (r a).length).sum ≤ (itemsTail r l).length
  | [] => Nat.le_refl 0
  | a :: l => by
      have hrest := sum_length_le_itemsTail r l
      rw [List.map_cons, List.sum_cons, itemsTail, List.length_cons, List.length_append]
      omega

theorem sum_length_le_items (r : α → List Char) :
    ∀ l : List α, (l.map fun a => (r a).length).sum ≤ (items r l).length
  | [] => Nat.le_refl 0
  | a :: l => by
      have hrest := sum_length_le_itemsTail r l
      rw [List.map_cons, List.sum_cons, items, List.length_append]
      omega

theorem length_le_quoteTail : ∀ s : List Char, s.length + 1 ≤ (quoteTail s).length
  | [] => Nat.le_refl 1
  | c :: s => by
      have hrest := length_le_quoteTail s
      have hpos : 1 ≤ (escapeChar c).length := by
        rw [Nat.one_le_iff_ne_zero, Ne, List.length_eq_zero_iff]
        intro hnil
        have hread := unescapeChar_escapeChar c []
        rw [hnil] at hread
        exact nomatch hread
      rw [quoteTail, List.length_cons, List.length_append]
      omega

theorem length_le_quote (s : List Char) : s.length + 2 ≤ (quote s).length := by
  have htail := length_le_quoteTail s
  rw [quote, List.length_cons]
  omega

end Items

end DataKit
