/-
  Divachain.Lib.Json — JSON values as a program in JavaScript meets them.

  `Json` is what `JSON.parse` returns.  `read` is the member access `v.name`,
  where `v` may be undefined: on undefined and on null it throws, on every
  other value it gives the member or undefined.  `members` is the object form
  of a schema that requires all of its properties and admits no others.

  `decodeUtf8` is how bytes become a text in the first place: it never fails,
  a malformed sequence becomes the replacement character.
-/
import Mathlib.Data.List.Basic

namespace DataKit

/-! ## §1. Values. -/

inductive Json where
  | null
  | bool (b : Bool)
  | int (n : Int)
  /-- A number that is not an integer, as it is written. -/
  | real (t : List Char)
  | str (t : List Char)
  | arr (l : List Json)
  | obj (l : List (List Char × Json))

namespace Json

/-- What `if (v)` takes for true. -/
def truthy : Json → Bool
  | .null => false
  | .bool b => b
  | .int n => decide (n ≠ 0)
  | .str t => !t.isEmpty
  | .real _ | .arr _ | .obj _ => true

/-- `v.name`; the outer `none` is a TypeError, the inner one undefined. -/
def read (name : List Char) : Option Json → Option (Option Json)
  | none | some .null => none
  | some (.obj l) => some (l.lookup name)
  | some _ => some none

def text : Json → Option (List Char)
  | .str t => some t
  | _ => none

def integer : Json → Option Int
  | .int n => some n
  | _ => none

def natural : Json → Option Nat
  | .int (.ofNat n) => some n
  | _ => none

def array {α : Type} (item : Json → Option α) : Json → Option (List α)
  | .arr l => l.mapM item
  | _ => none

/-- The properties of an object that has exactly these, in any order. -/
def members (names : List (List Char)) : Json → Option (List (List Char × Json))
  | .obj l => if (l.map Prod.fst).isPerm names then some l else none
  | _ => none

/-- A property of an object, read by `item`. -/
def field {α : Type} (l : List (List Char × Json)) (name : List Char) (item : Json → Option α) :
    Option α :=
  (l.lookup name).bind item

@[simp] theorem read_obj (name : List Char) (l : List (List Char × Json)) :
    read name (some (.obj l)) = some (l.lookup name) := rfl

theorem text_eq_some {j : Json} {t : List Char} (h : j.text = some t) : j = .str t := by
  cases j with
  | str s => exact congrArg Json.str (Option.some.inj h)
  | _ => exact nomatch h

theorem natural_eq_some {j : Json} {n : Nat} (h : j.natural = some n) : j = .int n := by
  cases j with
  | int k =>
      cases k with
      | ofNat k => exact congrArg (fun m : Nat => Json.int m) (Option.some.inj h)
      | negSucc k => exact nomatch h
  | _ => exact nomatch h

theorem field_eq_some {α : Type} {l : List (List Char × Json)} {name : List Char}
    {item : Json → Option α} {a : α} (h : field l name item = some a) :
    ∃ j, l.lookup name = some j ∧ item j = some a := Option.bind_eq_some_iff.mp h

theorem members_eq_some {names : List (List Char)} {j : Json} {l : List (List Char × Json)}
    (h : j.members names = some l) : j = .obj l := by
  cases j with
  | obj k =>
      change (if (k.map Prod.fst).isPerm names = true then some k else none) = some l at h
      split at h
      · exact congrArg Json.obj (Option.some.inj h)
      · exact nomatch h
  | _ => exact nomatch h

end Json

/-! ## §2. UTF-8. -/

/-- A character of which `needed` bytes are still to come, the next of them
between `lower` and `upper`. -/
structure Utf8State where
  needed : Nat
  code : Nat
  lower : Nat
  upper : Nat

/-- The replacement character. -/
def replacement : Char := Char.ofNat 0xFFFD

/-- A byte that stands where a character starts. -/
def utf8Lead (b : Nat) : Char ⊕ Utf8State :=
  if b ≤ 0x7F then .inl (Char.ofNat b)
  else if 0xC2 ≤ b ∧ b ≤ 0xDF then .inr ⟨1, b - 0xC0, 0x80, 0xBF⟩
  else if b = 0xE0 then .inr ⟨2, 0, 0xA0, 0xBF⟩
  else if b = 0xED then .inr ⟨2, b - 0xE0, 0x80, 0x9F⟩
  else if 0xE1 ≤ b ∧ b ≤ 0xEF then .inr ⟨2, b - 0xE0, 0x80, 0xBF⟩
  else if b = 0xF0 then .inr ⟨3, 0, 0x90, 0xBF⟩
  else if 0xF1 ≤ b ∧ b ≤ 0xF3 then .inr ⟨3, b - 0xF0, 0x80, 0xBF⟩
  else if b = 0xF4 then .inr ⟨3, 4, 0x80, 0x8F⟩
  else .inl replacement

def decodeUtf8From : Option Utf8State → List UInt8 → List Char
  | none, [] => []
  | some _, [] => [replacement]
  | none, b :: bs =>
      match utf8Lead b.toNat with
      | .inl c => c :: decodeUtf8From none bs
      | .inr s => decodeUtf8From (some s) bs
  | some s, b :: bs =>
      if s.lower ≤ b.toNat ∧ b.toNat ≤ s.upper then
        let code := s.code * 64 + (b.toNat - 0x80)
        if s.needed = 1 then Char.ofNat code :: decodeUtf8From none bs
        else decodeUtf8From (some ⟨s.needed - 1, code, 0x80, 0xBF⟩) bs
      else
        -- the byte is looked at again, where the next character starts
        match utf8Lead b.toNat with
        | .inl c => replacement :: c :: decodeUtf8From none bs
        | .inr s => replacement :: decodeUtf8From (some s) bs

/-- `Buffer.toString()`. -/
def decodeUtf8 (bytes : List UInt8) : List Char := decodeUtf8From none bytes

end DataKit
