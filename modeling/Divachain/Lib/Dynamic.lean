/-
  Divachain.Lib.Dynamic — what a program in JavaScript does with a value nobody
  has checked.

  `toText` is the conversion to a string in a template or in `join`, `stringify`
  is `JSON.stringify`, `elements` is what `for .. of` goes through, `hasLength`
  is the test `!v.length` and `sameValue` is the comparison of `includes`.  A
  value that JSON.parse has made can make two of them throw: an object with a
  member `toString` has no text, and not every value can be iterated.

  Main results:
    * `stringify_arr`, `stringify_obj` — the text of an array or an object is the
      one of the serialiser;
    * `eq_of_lookup` — the members of an object with distinct names are known from
      what is read of it.
-/
import Divachain.Lib.Json
import Divachain.Lib.JsonText

namespace DataKit

namespace Json

/-! ## §1. Texts. -/

/-- Texts with a comma between each two. -/
def joinTexts : List (List Char) → List Char
  | [] => []
  | [t] => t
  | t :: u :: l => t ++ ',' :: joinTexts (u :: l)

/-- The name of the method that makes an object a string. -/
def toStringName : List Char := ['t', 'o', 'S', 't', 'r', 'i', 'n', 'g']

mutual

/-- `String(v)`; `none` where it throws. -/
def toText : Json → Option (List Char)
  | .null => some ['n', 'u', 'l', 'l']
  | .bool true => some ['t', 'r', 'u', 'e']
  | .bool false => some ['f', 'a', 'l', 's', 'e']
  | .int n => some (intText n)
  | .real t => some t
  | .str t => some t
  | .arr l => (elementTexts l).map joinTexts
  -- a member of this name hides the method, and JSON has no functions
  | .obj l =>
      if l.any fun e => decide (e.1 = toStringName) then none
      else some ['[', 'o', 'b', 'j', 'e', 'c', 't', ' ', 'O', 'b', 'j', 'e', 'c', 't', ']']

/-- The texts of the elements of an array: null has the empty one. -/
def elementTexts : List Json → Option (List (List Char))
  | [] => some []
  | j :: l =>
      match j, toText j, elementTexts l with
      | .null, _, some ts => some ([] :: ts)
      | _, some t, some ts => some (t :: ts)
      | _, _, _ => none

end

/-- The text of a member that may be missing: in `join` undefined has the empty
one, as null has. -/
def joinedText : Option Json → Option (List Char)
  | none | some .null => some []
  | some j => j.toText

/-- The text of a member in a template; that of undefined is never missing. -/
def Printable : Option Json → Prop
  | none => True
  | some j => j.toText.isSome = true

instance : DecidablePred Printable := fun v =>
  match v with
  | none => isTrue trivial
  | some j => inferInstanceAs (Decidable (j.toText.isSome = true))

mutual

/-- `JSON.stringify(v)`. -/
def stringify : Json → List Char
  | .null => ['n', 'u', 'l', 'l']
  | .bool true => ['t', 'r', 'u', 'e']
  | .bool false => ['f', 'a', 'l', 's', 'e']
  | .int n => intText n
  | .real t => t
  | .str t => quote t
  | .arr l => arrText id (stringifyElements l)
  | .obj l => objText id (stringifyMembers l)

def stringifyElements : List Json → List (List Char)
  | [] => []
  | j :: l => stringify j :: stringifyElements l

def stringifyMembers : List (List Char × Json) → List (List Char × List Char)
  | [] => []
  | (k, j) :: l => (k, stringify j) :: stringifyMembers l

end

/-! ## §2. Members, iteration and comparison. -/

/-- `v.name`, where `v` is neither null nor undefined. -/
def member (name : List Char) : Json → Option Json
  | .obj l => l.lookup name
  | _ => none

/-- What `for .. of` goes through; `none` where the value is not iterable. -/
def elements : Json → Option (List Json)
  | .arr l => some l
  | .str t => some (t.map fun c => .str [c])
  | _ => none

/-- `!!v.length`, where `v` is neither null nor undefined. -/
def hasLength : Json → Bool
  | .arr l => !l.isEmpty
  | .str t => !t.isEmpty
  | .obj l => (l.lookup ['l', 'e', 'n', 'g', 't', 'h']).any truthy
  | _ => false

/-- The comparison of `includes`.  No two objects of one parsed value are the same. -/
def sameValue : Option Json → Option Json → Bool
  | none, none => true
  | some .null, some .null => true
  | some (.bool a), some (.bool b) => a == b
  | some (.int m), some (.int n) => m == n
  | some (.real s), some (.real t) => s == t
  | some (.str s), some (.str t) => s == t
  | _, _ => false

/-! ## §3. What has been read determines the object. -/

theorem stringifyElements_eq : ∀ l : List Json, stringifyElements l = l.map stringify
  | [] => rfl
  | j :: l => by
      rw [stringifyElements, stringifyElements_eq l]
      rfl

theorem stringifyMembers_eq :
    ∀ l : List (List Char × Json), stringifyMembers l = l.map fun e => (e.1, stringify e.2)
  | [] => rfl
  | (k, j) :: l => by
      rw [stringifyMembers, stringifyMembers_eq l]
      rfl

theorem stringify_arr (l : List Json) : (Json.arr l).stringify = arrText id (l.map stringify) := by
  rw [stringify, stringifyElements_eq]

theorem stringify_obj (l : List (List Char × Json)) :
    (Json.obj l).stringify = objText id (l.map fun e => (e.1, stringify e.2)) := by
  rw [stringify, stringifyMembers_eq]

section Renderings

variable {α : Type} (r : α → List Char)

theorem itemsTail_map : ∀ l : List α, itemsTail id (l.map r) = itemsTail r l
  | [] => rfl
  | a :: l => by
      rw [List.map_cons, itemsTail, itemsTail, itemsTail_map l]
      rfl

theorem items_map : ∀ l : List α, items id (l.map r) = items r l
  | [] => rfl
  | a :: l => by
      rw [List.map_cons, items, items, itemsTail_map]
      rfl

/-- Items that are texts already. -/
theorem arrText_map (l : List α) : arrText id (l.map r) = arrText r l := by
  rw [arrText, arrText, items_map]

theorem objText_map (l : List (List Char × α)) :
    objText id (l.map fun e => (e.1, r e.2)) = objText r l := by
  have hmember : ∀ e : List Char × α, memberText id (e.1, r e.2) = memberText r e := fun _ => rfl
  have htexts : (l.map fun e => (e.1, r e.2)).map (memberText id) = l.map (memberText r) := by
    rw [List.map_map]
    exact List.map_congr_left fun e _ => hmember e
  rw [objText, objText, ← items_map, ← items_map (memberText r), htexts]

end Renderings

/-- **The members of an object**, each known by its name, and in the order of the
names. -/
theorem eq_of_lookup {κ : Type} {name : κ → List Char} {value : κ → Json} :
    ∀ {keys : List κ} {l : List (List Char × Json)}, l.map Prod.fst = keys.map name →
      (keys.map name).Nodup → (∀ k ∈ keys, l.lookup (name k) = some (value k)) →
        l = keys.map fun k => (name k, value k)
  | [], l, hnames, _, _ => List.map_eq_nil_iff.mp hnames
  | k :: keys, [], hnames, _, _ => nomatch hnames
  | k :: keys, (n, v) :: l, hnames, hnodup, hvalue => by
      rw [List.map_cons, List.map_cons, List.cons.injEq] at hnames
      rw [List.map_cons, List.nodup_cons] at hnodup
      obtain ⟨hn, hnames⟩ := hnames
      change n = name k at hn
      subst hn
      have hfirst : v = value k := by
        have hlookup := hvalue k List.mem_cons_self
        rw [List.lookup_cons_self] at hlookup
        exact Option.some.inj hlookup
      -- the first member does not hide the others, since the names are distinct
      have hrest : ∀ k' ∈ keys, l.lookup (name k') = some (value k') := by
        intro k' hk'
        have hlookup := hvalue k' (List.mem_cons_of_mem _ hk')
        have hne : name k' ≠ name k := fun h => hnodup.1 (h ▸ List.mem_map_of_mem hk')
        rw [List.lookup_cons, beq_eq_false_iff_ne.mpr hne] at hlookup
        exact hlookup
      rw [List.map_cons, ← eq_of_lookup hnames hnodup.2 hrest, hfirst]

end Json

end DataKit
