/-
  Divachain.Chain.Removal — who takes a peer out of the ledger.

  `removePeer` asks nobody: it deletes whatever peer it is given.  The check is
  the validator's, which lets a transaction remove its own origin only, and
  every block that `add` accepts has passed it.

  Main result: `removed_by_itself` — a peer that goes has signed its removal.
-/
import Divachain.Chain.Run

namespace Divachain

open DataKit

namespace Ledger

/-! ## §1. One command. -/

/-- Whether the command lets the peer in or takes it out, if it names it. -/
def moveOf (publicKey : Text) (oc : Text × Command) : Option Bool :=
  match oc.2.body with
  | .addPeer _ _ publicKey' => if publicKey' = publicKey then some true else none
  | .removePeer publicKey' => if publicKey' = publicKey then some false else none
  | .modifyStake .. | .data .. | .decision .. => none

/-- **Who is a peer after a command.** -/
theorem hasPeer_apply (l : Ledger) (oc : Text × Command) (publicKey : Text) :
    (l.apply oc).hasPeer publicKey = (moveOf publicKey oc).getD (l.hasPeer publicKey) := by
  have hchange := l.change_apply oc
  unfold moveOf
  generalize l.apply oc = l', oc.2.body = body at hchange ⊢
  cases hchange with
  | @none body h =>
      -- A join is passed over for a peer, and a removal for a stranger.
      cases body with
      | addPeer http udp publicKey' =>
          by_cases heq : publicKey' = publicKey
          · subst heq
            simp only [↓reduceIte, Option.getD_some]
            exact h
          · simp only [if_neg heq, Option.getD_none]
      | removePeer publicKey' =>
          by_cases heq : publicKey' = publicKey
          · subst heq
            simp only [↓reduceIte, Option.getD_some]
            exact (OrdMap.has_eq_false_iff _ _).mpr h
          · simp only [if_neg heq, Option.getD_none]
      | modifyStake publicKey' ident stake => rfl
      | data ns d => rfl
      | decision ns h d => rfl
  | @join http udp publicKey' _ =>
      rw [hasPeer_join]
      by_cases heq : publicKey' = publicKey
      · simp [heq]
      · simp [heq, Ne.symm heq]
  | @leave publicKey' peer _ =>
      rw [hasPeer_leave]
      by_cases heq : publicKey' = publicKey
      · simp [heq]
      · simp [heq, Ne.symm heq]
  | tally _ => rfl
  | effect heffect => exact hasPeer_effect heffect.peer_eq publicKey
  | data => rfl
  | decision _ => rfl

/-- **A peer goes by a removal that names it**, and by nothing else. -/
theorem hasPeer_apply_of_ne {l : Ledger} {oc : Text × Command} {publicKey : Text}
    (hbody : oc.2.body ≠ .removePeer publicKey) (h : l.hasPeer publicKey = true) :
    (l.apply oc).hasPeer publicKey = true := by
  rw [hasPeer_apply, h]
  unfold moveOf
  generalize oc.2.body = body at hbody ⊢
  cases body with
  | addPeer http udp publicKey' =>
      dsimp only
      split <;> rfl
  | removePeer publicKey' =>
      have hne : publicKey' ≠ publicKey := fun heq => hbody (by rw [heq])
      simp only [if_neg hne, Option.getD_none]
  | modifyStake publicKey' ident stake => rfl
  | data ns d => rfl
  | decision ns h d => rfl

/-- Commands without a removal of this peer leave it in the table. -/
theorem hasPeer_foldl_apply {publicKey : Text} :
    ∀ {cs : List (Text × Command)} {l : Ledger},
      (∀ oc ∈ cs, oc.2.body ≠ .removePeer publicKey) → l.hasPeer publicKey = true →
        (cs.foldl apply l).hasPeer publicKey = true
  | [], _, _, h => h
  | oc :: cs, l, hcs, h => by
      have hnext := hasPeer_apply_of_ne (hcs oc List.mem_cons_self) h
      rw [List.foldl_cons]
      exact hasPeer_foldl_apply (fun oc' hoc' => hcs oc' (List.mem_cons_of_mem oc hoc')) hnext

/-! ## §2. The commands of a block. -/

/-- The ledger after the first `n` commands of a block. -/
def during (l : Ledger) (tx : List TransactionStruct) (n : Nat) : Ledger :=
  ((commandsOf tx).take n).foldl apply l

/-- The last of these ledgers is the one after the block. -/
theorem during_length (l : Ledger) (tx : List TransactionStruct) :
    l.during tx (commandsOf tx).length = l.applyTx tx := by
  rw [during, List.take_length]
  rfl

theorem during_add (l : Ledger) (tx : List TransactionStruct) (n k : Nat) :
    l.during tx (n + k) = (((commandsOf tx).drop n).take k).foldl apply (l.during tx n) := by
  rw [during, during, List.take_add, List.foldl_append]

/-- A peer that is gone later has been removed on the way. -/
theorem exists_removePeer {l : Ledger} {tx : List TransactionStruct} {publicKey : Text} {n m : Nat}
    (hnm : n ≤ m) (hn : (l.during tx n).hasPeer publicKey = true)
    (hm : (l.during tx m).hasPeer publicKey = false) :
    ∃ t ∈ tx, ∃ c ∈ t.commands, c.body = .removePeer publicKey := by
  by_contra hnone
  push Not at hnone
  obtain ⟨k, rfl⟩ := Nat.exists_eq_add_of_le hnm
  have hkept : (l.during tx (n + k)).hasPeer publicKey = true := by
    rw [during_add]
    refine hasPeer_foldl_apply ?_ hn
    intro oc hoc
    have hmem := List.mem_of_mem_drop (List.mem_of_mem_take hoc)
    obtain ⟨t, ht, hoc⟩ := List.mem_flatMap.mp hmem
    obtain ⟨c, hc, rfl⟩ := List.mem_map.mp hoc
    exact hnone t ht c hc
  rw [hkept] at hm
  exact nomatch hm

end Ledger

namespace Blockchain

/-- The peer has signed a transaction of this block that removes it. -/
def Resigns (crypto : Crypto) (b : BlockStruct) (publicKey : Text) : Prop :=
  ∃ t ∈ b.tx, t.origin = publicKey
    ∧ crypto.verifySignature publicKey t.sig (signedText b.height t.commands) = true
    ∧ ∃ c ∈ t.commands, c.body = .removePeer publicKey

/-- **Only a peer removes itself**: one that is there at some point of an
accepted block and gone at a later one has signed its removal, and no command
of another kind takes a key out of the table of peers. -/
theorem removed_by_itself {crypto : Crypto} {c c' : Blockchain} {b : BlockStruct} {answer : Bool}
    (hadd : c.add crypto b answer = .added c') :
    (∀ publicKey n m, n ≤ m → (c.toLedger.during b.tx n).hasPeer publicKey = true →
        (c.toLedger.during b.tx m).hasPeer publicKey = false → Resigns crypto b publicKey)
      ∧ ∀ (l : Ledger) (oc : Text × Command), (∀ publicKey, oc.2.body ≠ .removePeer publicKey) →
          ∀ publicKey ∈ l.mapPeer.keys, publicKey ∈ (l.apply oc).mapPeer.keys := by
  constructor
  · intro publicKey n m hnm hn hm
    obtain ⟨t, ht, command, hcommand, hbody⟩ := Ledger.exists_removePeer hnm hn hm
    have hvalid := ((accepts_iff crypto).mp (add_spec crypto hadd).accepts).2.2.1.txs t ht
    obtain ⟨-, -, hverify, hcommands⟩ := validateTx_iff.mp hvalid
    -- the validator lets an origin remove itself only
    have horigin : t.origin = publicKey := by
      have hcheck := hcommands command hcommand
      simp only [validateCommand, hbody] at hcheck
      exact of_decide_eq_true hcheck
    refine ⟨t, ht, horigin, ?_, command, hcommand, hbody⟩
    rw [← horigin]
    exact hverify
  · intro l oc hbody publicKey hmem
    rw [← OrdMap.has_iff] at hmem ⊢
    exact Ledger.hasPeer_apply_of_ne (hbody publicKey) hmem

/-- Peer 0 leaves in the second block. -/
theorem removed_by_itself_of_sample :
    Resigns sampleCrypto (sampleBlock [0, 1]) (keyOf 0)
      ∧ ∀ (l : Ledger) (oc : Text × Command), (∀ publicKey, oc.2.body ≠ .removePeer publicKey) →
          ∀ publicKey ∈ l.mapPeer.keys, publicKey ∈ (l.apply oc).mapPeer.keys := by
  have hadd : (sampleStart 0).add sampleCrypto (sampleBlock [0, 1]) true
      = .added (sampleLive 0 [0, 1]) := by decide +kernel
  have hremoved := removed_by_itself hadd
  exact ⟨hremoved.1 (keyOf 0) 0 2 (by decide) (by decide +kernel) (by decide +kernel), hremoved.2⟩

end Blockchain

end Divachain
