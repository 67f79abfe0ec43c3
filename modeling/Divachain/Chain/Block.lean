/-
  Divachain.Chain.Block — blocks, votes and the hash a block carries.

  The hash covers version, previous hash, transactions and height, joined by
  commas; the votes are outside it.  `hashText_height` and `hashText_tx` are
  what an equality of hashes gives once the hash itself is injective.

  A block object is shared by everybody who holds it, and applying it may
  write to one of its commands.  `commandsOf` lists the commands in the order
  they are applied and `setCommandOf` is such a write.
-/
import Divachain.Chain.Transaction

namespace Divachain

open DataKit

/-! ## §1. Blocks. -/

def BLOCK_VERSION : Nat := 7

structure VoteStruct where
  origin : Text
  sig : Text
  deriving DecidableEq, Repr

structure BlockStruct where
  version : Nat
  previousHash : Text
  hash : Text
  tx : List TransactionStruct
  height : Nat
  votes : List VoteStruct
  deriving DecidableEq, Repr

instance : Inhabited BlockStruct := ⟨⟨0, [], [], [], 0, []⟩⟩

/-- `[version, previousHash, JSON.stringify(tx), height].join()`. -/
def hashText (version : Nat) (previousHash : Text) (tx : List TransactionStruct)
    (height : Nat) : Text :=
  natText version ++ ',' :: (previousHash ++ ',' :: (stringifyTx tx ++ ',' :: natText height))

/-- `Block.make`. -/
def Block.make (crypto : Crypto) (previousBlock : BlockStruct) (tx : List TransactionStruct) :
    BlockStruct :=
  { version := BLOCK_VERSION
    previousHash := previousBlock.hash
    hash := crypto.hash
      (hashText BLOCK_VERSION previousBlock.hash tx (previousBlock.height + 1))
    tx := tx
    height := previousBlock.height + 1
    votes := [] }

/-- The block with its votes left out. -/
def BlockStruct.withoutVotes (b : BlockStruct) : BlockStruct := { b with votes := [] }

/-- The block with its transactions left out: what a clamped stake does not touch. -/
def BlockStruct.withoutTx (b : BlockStruct) : BlockStruct := { b with tx := [] }

/-! ## §2. What the hashed text determines. -/

theorem hashText_split {v w h k : Nat} {p q : Text} {l m : List TransactionStruct}
    (heq : hashText v p l h = hashText w q m k) :
    h = k ∧ v = w ∧ p ++ ',' :: stringifyTx l = q ++ ',' :: stringifyTx m := by
  have hstop : ∀ x : Text, StopsAt (fun c => c.isDigit = true) (',' :: x) := fun _ => by
    show ¬ (',' : Char).isDigit = true
    decide
  -- the height is the run of digits at the far end
  have hshape : ∀ (v : Nat) (p : Text) (l : List TransactionStruct) (h : Nat),
      (hashText v p l h).reverse
        = (natText h).reverse ++ ',' :: (natText v ++ ',' :: (p ++ ',' :: stringifyTx l)).reverse := by
    intro v p l h
    simp [hashText]
  have hrev := congrArg List.reverse heq
  rw [hshape, hshape] at hrev
  obtain ⟨hheight, hrest⟩ := span_unique (P := fun c => c.isDigit = true)
    (fun c hc => isDigit_of_mem_natText (List.mem_reverse.mp hc))
    (fun c hc => isDigit_of_mem_natText (List.mem_reverse.mp hc))
    (hstop _) (hstop _) hrev
  rw [List.cons.injEq, List.reverse_inj] at hrest
  obtain ⟨hversion, hbody⟩ := span_unique (P := fun c => c.isDigit = true)
    (fun c hc => isDigit_of_mem_natText hc) (fun c hc => isDigit_of_mem_natText hc)
    (hstop _) (hstop _) hrest.2
  exact ⟨natText_injective (List.reverse_inj.mp hheight), natText_injective hversion,
    (List.cons.inj hbody).2⟩

/-- **Equal hashed texts have equal heights.** -/
theorem hashText_height {v w h k : Nat} {p q : Text} {l m : List TransactionStruct}
    (heq : hashText v p l h = hashText w q m k) : h = k :=
  (hashText_split heq).1

/-- **Equal hashed texts over one previous hash have equal transactions.** -/
theorem hashText_tx {v w h k : Nat} {p : Text} {l m : List TransactionStruct}
    (hl : ∀ t ∈ l, t.WellKeyed) (hm : ∀ t ∈ m, t.WellKeyed)
    (heq : hashText v p l h = hashText w p m k) : l = m := by
  have hbody := (hashText_split heq).2.2
  rw [List.append_cancel_left_eq, List.cons.injEq] at hbody
  exact stringifyTx_injective hl hm hbody.2

/-! ## §3. The commands of a block, in the order they are applied. -/

def commandsOf (tx : List TransactionStruct) : List (Text × Command) :=
  tx.flatMap fun t => t.commands.map fun c => (t.origin, c)

/-- Write `c` over the `k`-th command. -/
def setCommandOf : List TransactionStruct → Nat → Command → List TransactionStruct
  | [], _, _ => []
  | t :: tx, k, c =>
      if k < t.commands.length then { t with commands := t.commands.set k c } :: tx
      else t :: setCommandOf tx (k - t.commands.length) c

theorem commandsOf_cons (t : TransactionStruct) (tx : List TransactionStruct) :
    commandsOf (t :: tx) = t.commands.map (fun c => (t.origin, c)) ++ commandsOf tx :=
  List.flatMap_cons

theorem commandsOf_setCommandOf :
    ∀ (tx : List TransactionStruct) (k : Nat) (c : Command),
      ∃ o, commandsOf (setCommandOf tx k c) = (commandsOf tx).set k (o, c)
  | [], k, c => ⟨[], by simp [setCommandOf, commandsOf]⟩
  | t :: tx, k, c => by
      unfold setCommandOf
      split
      next hk =>
        refine ⟨t.origin, ?_⟩
        rw [commandsOf_cons, commandsOf_cons, List.set_append_left k _ (by simpa using hk)]
        simp [List.map_set]
      next hk =>
        obtain ⟨o, ho⟩ := commandsOf_setCommandOf tx (k - t.commands.length) c
        refine ⟨o, ?_⟩
        rw [commandsOf_cons, commandsOf_cons, ho,
          List.set_append_right k _ (by simpa using hk)]
        simp

/-- **A write leaves the commands behind it alone.** -/
theorem drop_commandsOf_setCommandOf (tx : List TransactionStruct) (k : Nat) (c : Command) :
    (commandsOf (setCommandOf tx k c)).drop (k + 1) = (commandsOf tx).drop (k + 1) := by
  obtain ⟨o, ho⟩ := commandsOf_setCommandOf tx k c
  rw [ho, List.drop_set_of_lt (by omega)]

/-- Origin and signature of a transaction, which no write touches. -/
def TransactionStruct.header (t : TransactionStruct) : Text × Text := (t.origin, t.sig)

theorem map_header_setCommandOf :
    ∀ (tx : List TransactionStruct) (k : Nat) (c : Command),
      (setCommandOf tx k c).map TransactionStruct.header = tx.map TransactionStruct.header
  | [], _, _ => rfl
  | t :: tx, k, c => by
      unfold setCommandOf
      split
      · rfl
      · rw [List.map_cons, List.map_cons, map_header_setCommandOf tx]

end Divachain
