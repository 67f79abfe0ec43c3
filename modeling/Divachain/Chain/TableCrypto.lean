/-
  Divachain.Chain.TableCrypto — a signing library in which every assumption holds.

  The assumptions on `Crypto` are consistent: `tableCrypto` satisfies all of
  them at once.  The texts of a table get hashes and signatures of the shape
  the schemas ask for; any other text is its own hash behind a mark no such
  shape has.  Keys, peers and a genesis file for concrete runs come with it.
-/
import Divachain.Chain.Block

namespace Divachain

open DataKit

/-! ## §1. Labels: texts of a given length, one for each number. -/

def letters : Text :=
  ['A', 'B', 'C', 'D', 'E', 'F', 'G', 'H', 'I', 'J', 'K', 'L', 'M', 'N', 'O', 'P', 'Q', 'R',
   'S', 'T', 'U', 'V', 'W', 'X', 'Y', 'Z', 'a', 'b', 'c', 'd', 'e', 'f', 'g', 'h', 'i', 'j',
   'k', 'l', 'm', 'n', 'o', 'p', 'q', 'r', 's', 't', 'u', 'v', 'w', 'x', 'y', 'z']

/-- The number, filled up with letters to `n` characters. -/
def label (n i : Nat) : Text :=
  natText i ++ (letters ++ letters).drop (2 * letters.length + (natText i).length - n)

theorem label_injective (n : Nat) : Function.Injective (label n) := by
  intro i j h
  have hletters : (letters ++ letters).all (fun c => !c.isDigit) = true := by decide +kernel
  have hstop : ∀ k, StopsAt (fun c => c.isDigit = true) ((letters ++ letters).drop k) := by
    intro k
    match hd : (letters ++ letters).drop k with
    | [] => trivial
    | c :: t =>
        have hc := List.all_eq_true.mp hletters c (List.mem_of_mem_drop (hd ▸ List.mem_cons_self))
        show ¬ c.isDigit = true
        simpa using hc
  exact natText_injective (span_unique (P := fun c => c.isDigit = true)
    (fun _ hc => isDigit_of_mem_natText hc) (fun _ hc => isDigit_of_mem_natText hc)
    (hstop _) (hstop _) h).1

/-- A label starts with a digit. -/
theorem label_ne_mark (n i : Nat) (t : Text) : label n i ≠ '!' :: t := by
  intro h
  obtain ⟨c, s, hc⟩ := List.exists_cons_of_ne_nil (natText_ne_nil i)
  have hdigit : c.isDigit = true := isDigit_of_mem_natText (hc ▸ List.mem_cons_self)
  rw [label, hc, List.cons_append, List.cons.injEq] at h
  rw [h.1] at hdigit
  exact absurd hdigit (by decide)

/-! ## §2. Tables. -/

section Table

variable {α : Type} [DecidableEq α]

/-- The label of a table entry, or the marked text of anything else. -/
def tableText (n : Nat) (other : α → Text) (table : List α) (a : α) : Text :=
  match table.idxOf? a with
  | some i => label n i
  | none => '!' :: other a

/-- An entry of a table has the label of its position. -/
theorem tableText_eq_label {n : Nat} {other : α → Text} {table : List α} (h : table.Nodup)
    {i : Nat} {a : α} (ha : table[i]? = some a) : tableText n other table a = label n i := by
  obtain ⟨hi, rfl⟩ := List.getElem?_eq_some_iff.mp ha
  have hidx : table.idxOf? table[i] = some i := by
    rw [List.idxOf?_eq_some_iff]
    refine ⟨hi, rfl, ?_⟩
    intro j hj heq
    exact List.pairwise_iff_getElem.mp h j i (by omega) hi hj heq
  rw [tableText, hidx]

/-- A label of the table, or a marked text. -/
theorem tableText_cases (n : Nat) (other : α → Text) (table : List α) (a : α) :
    (∃ i < table.length, tableText n other table a = label n i)
      ∨ tableText n other table a = '!' :: other a := by
  unfold tableText
  cases hidx : table.idxOf? a with
  | some i =>
    obtain ⟨hi, -, -⟩ := List.idxOf?_eq_some_iff.mp hidx
    exact Or.inl ⟨i, hi, rfl⟩
  | none => exact Or.inr rfl

/-- **A table of labels is injective.** -/
theorem tableText_injective {n : Nat} {other : α → Text} (hother : Function.Injective other)
    (table : List α) : Function.Injective (tableText n other table) := by
  intro a b h
  unfold tableText at h
  -- Labels for what the table lists, a marked text for the rest: the two never meet.
  cases ha : table.idxOf? a with
  | some i =>
      cases hb : table.idxOf? b with
      | some j =>
          rw [ha, hb] at h
          obtain rfl : i = j := label_injective n h
          obtain ⟨hi, hai, -⟩ := List.idxOf?_eq_some_iff.mp ha
          obtain ⟨hj, hbj, -⟩ := List.idxOf?_eq_some_iff.mp hb
          exact hai.symm.trans hbj
      | none =>
          rw [ha, hb] at h
          exact absurd h (label_ne_mark n i _)
  | none =>
      cases hb : table.idxOf? b with
      | some j =>
          rw [ha, hb] at h
          exact absurd h.symm (label_ne_mark n j _)
      | none =>
          rw [ha, hb] at h
          exact hother (List.cons.inj h).2

end Table

/-- A pair of texts as one text: every character of the first is marked. -/
def pairText (p : Text × Text) : Text := p.1.flatMap (fun c => ['0', c]) ++ '1' :: p.2

theorem pairText_injective : Function.Injective pairText := by
  -- Every character of the first text stands after a 0, so the first 1 in an even
  -- place ends it. Induction on the first text.
  have key : ∀ a b c d : Text,
      a.flatMap (fun c => ['0', c]) ++ '1' :: c = b.flatMap (fun c => ['0', c]) ++ '1' :: d →
        a = b ∧ c = d := by
    intro a
    induction a with
    | nil =>
        intro b c d h
        cases b with
        | nil => exact ⟨rfl, (List.cons.inj h).2⟩
        | cons y b => exact absurd (List.cons.inj h).1 (by decide)
    | cons x a ih =>
        intro b c d h
        cases b with
        | nil => exact absurd (List.cons.inj h).1 (by decide)
        | cons y b =>
            simp only [List.flatMap_cons, List.cons_append, List.nil_append, List.cons.injEq,
              true_and] at h
            obtain ⟨rfl, rfl⟩ := ih b c d h.2
            exact ⟨by rw [h.1], rfl⟩
  rintro ⟨a, c⟩ ⟨b, d⟩ h
  obtain ⟨rfl, rfl⟩ := key a b c d h
  rfl

/-- Hashes and signatures from two tables. -/
def tableCrypto (hashes : List Text) (sigs : List (Text × Text)) : Crypto where
  hash := tableText 43 id hashes
  sign pk d := tableText 86 pairText sigs (pk, d)
  verifySignature pk sig d := decide (sig = tableText 86 pairText sigs (pk, d))

section

variable (hashes : List Text) (sigs : List (Text × Text))

theorem tableCrypto_hashInjective : (tableCrypto hashes sigs).HashInjective :=
  tableText_injective Function.injective_id hashes

theorem tableCrypto_signUnique : (tableCrypto hashes sigs).SignUnique := by
  intro pk sig d d' h h'
  have heq := tableText_injective pairText_injective sigs
    ((of_decide_eq_true h).symm.trans (of_decide_eq_true h'))
  exact (Prod.mk.inj heq).2

theorem tableCrypto_signBinding : (tableCrypto hashes sigs).SignBinding := by
  intro pk pk' d d' h
  have heq := tableText_injective pairText_injective sigs (of_decide_eq_true h)
  exact Prod.mk.injEq .. ▸ heq

end

/-! ## §3. Keys, peers and genesis files. -/

/-- The public key of the `i`-th peer. -/
def keyOf (i : Nat) : Text := label 43 i

def addPeerOf (i : Nat) : Command :=
  { seq := i + 1
    body := .addPeer (label 8 i) (label 9 i) (keyOf i)
    keys := [.seq, .command, .http, .udp, .publicKey] }

/-- The zeros that stand for keys, hashes and signatures in a genesis file. -/
def zeros (n : Nat) : Text := List.replicate n '0'

/-- A genesis file that lets `n` peers join with stake 1. -/
def genesisFile (n : Nat) : BlockStruct :=
  { version := BLOCK_VERSION
    previousHash := zeros 43
    hash := zeros 43
    tx := [{ ident := ['g', 'e', 'n', 'e', 's', 'i', 's']
             origin := zeros 43
             commands := (List.range n).map addPeerOf
             sig := zeros 86
             keys := TransactionStruct.fields }]
    height := 1
    votes := [{ origin := zeros 43, sig := zeros 86 }] }

/-- What the hash of such a file covers. -/
def genesisText (n : Nat) : Text := hashText BLOCK_VERSION (zeros 43) (genesisFile n).tx 1

end Divachain
