/-
  Divachain.Net.Validation — the stateful checks on transactions and blocks.

  `validateTx` and `validateBlock` read nothing of the chain but its ledger.
  The two loops of `validateBlock` carry the list of origins seen so far;
  `validateTxs_iff` and `validateVotes_iff` say what they amount to.
-/
import Divachain.Chain.Ledger

namespace Divachain

open DataKit

variable (crypto : Crypto)

/-! ## §1. The checks. -/

/-- The filter of `validateTx`. -/
def validateCommand (l : Ledger) (height : Nat) (origin : Text) (c : Command) : Bool :=
  match c.body with
  | .addPeer .. | .modifyStake .. | .data .. => true
  | .removePeer publicKey => decide (origin = publicKey)
  | .decision ns h _ => decide ((height : Int) ≤ h) && !l.isDecisionTaken ns

def validateTx (l : Ledger) (height : Nat) (tx : TransactionStruct) : Bool :=
  tx.valid && decide (0 < height)
    && crypto.verifySignature tx.origin tx.sig (signedText height tx.commands)
    && decide ((tx.commands.filter (validateCommand l height tx.origin)).length
        = tx.commands.length)

/-- The transaction loop of `validateBlock`. -/
def validateTxs (l : Ledger) (height : Nat) : List Text → List TransactionStruct → Bool
  | _, [] => true
  | aOrigin, t :: tx =>
      if t.origin ∈ aOrigin then false
      else if validateTx crypto l height t then validateTxs l height (aOrigin ++ [t.origin]) tx
      else false

/-- The vote loop of `validateBlock`. -/
def validateVotes (hash : Text) : List Text → List VoteStruct → Bool
  | _, [] => true
  | aOrigin, v :: votes =>
      if v.origin ∈ aOrigin then false
      else if crypto.verifySignature v.origin v.sig hash then
        validateVotes hash (aOrigin ++ [v.origin]) votes
      else false

def validateBlock (l : Ledger) (b : BlockStruct) (doVoteValidation : Bool) : Bool :=
  if b.tx.isEmpty then false
  else if crypto.hash (hashText b.version b.previousHash b.tx b.height) ≠ b.hash then false
  else if !validateTxs crypto l b.height [] b.tx then false
  -- A proposal is checked without its votes.
  else if doVoteValidation then
    validateVotes crypto b.hash [] b.votes && l.hasQuorumWeighted (b.votes.map VoteStruct.origin)
  else true

/-! ## §2. What the loops amount to. -/

variable {crypto}

theorem validateTx_iff {l : Ledger} {height : Nat} {tx : TransactionStruct} :
    validateTx crypto l height tx = true ↔
      tx.valid = true ∧ 0 < height
        ∧ crypto.verifySignature tx.origin tx.sig (signedText height tx.commands) = true
        ∧ ∀ c ∈ tx.commands, validateCommand l height tx.origin c = true := by
  simp only [validateTx, Bool.and_eq_true, decide_eq_true_eq, List.length_filter_eq_length_iff,
    and_assoc]

/-- **One round of a loop that turns an origin away the second time**: `aOrigin`
collects the origins passed, so freshness becomes distinctness. -/
theorem distinct_cons_iff {α : Type} {origin : α → Text} {passes : α → Prop} {aOrigin : List Text}
    {a : α} {l : List α} (hseen : origin a ∉ aOrigin) (hpasses : passes a) :
    ((l.map origin).Nodup ∧ (∀ b ∈ l, origin b ∉ aOrigin ++ [origin a]) ∧ ∀ b ∈ l, passes b)
      ↔ ((a :: l).map origin).Nodup ∧ (∀ b ∈ a :: l, origin b ∉ aOrigin)
        ∧ ∀ b ∈ a :: l, passes b := by
  simp only [List.map_cons, List.nodup_cons, List.mem_append, List.mem_singleton, not_or,
    List.forall_mem_cons, hseen, hpasses, not_false_eq_true, true_and, List.mem_map, not_exists,
    not_and]
  constructor
  · rintro ⟨hnodup, hfresh, hall⟩
    exact ⟨⟨fun b hb => (hfresh b hb).2, hnodup⟩, fun b hb => (hfresh b hb).1, hall⟩
  · rintro ⟨⟨hne, hnodup⟩, hfresh, hall⟩
    exact ⟨hnodup, fun b hb => ⟨hfresh b hb, hne b hb⟩, hall⟩

theorem validateTxs_iff {l : Ledger} {height : Nat} :
    ∀ {aOrigin : List Text} {tx : List TransactionStruct},
      validateTxs crypto l height aOrigin tx = true ↔
        (tx.map TransactionStruct.origin).Nodup
          ∧ (∀ t ∈ tx, t.origin ∉ aOrigin) ∧ ∀ t ∈ tx, validateTx crypto l height t = true
  | aOrigin, [] => by simp [validateTxs]
  | aOrigin, t :: tx => by
      unfold validateTxs
      by_cases hseen : t.origin ∈ aOrigin
      · simp [hseen]
      by_cases hvalid : validateTx crypto l height t = true
      · rw [if_neg hseen, if_pos hvalid, validateTxs_iff]
        exact distinct_cons_iff hseen hvalid
      · simp [hseen, hvalid]

theorem validateVotes_iff {hash : Text} :
    ∀ {aOrigin : List Text} {votes : List VoteStruct},
      validateVotes crypto hash aOrigin votes = true ↔
        (votes.map VoteStruct.origin).Nodup
          ∧ (∀ v ∈ votes, v.origin ∉ aOrigin)
          ∧ ∀ v ∈ votes, crypto.verifySignature v.origin v.sig hash = true
  | aOrigin, [] => by simp [validateVotes]
  | aOrigin, v :: votes => by
      unfold validateVotes
      by_cases hseen : v.origin ∈ aOrigin
      · simp [hseen]
      by_cases hvalid : crypto.verifySignature v.origin v.sig hash = true
      · rw [if_neg hseen, if_pos hvalid, validateVotes_iff]
        exact distinct_cons_iff hseen hvalid
      · simp [hseen, hvalid]

/-- **A block that passes without its votes.** -/
structure WellFormedBlock (crypto : Crypto) (l : Ledger) (b : BlockStruct) : Prop where
  nonempty : b.tx ≠ []
  hash : crypto.hash (hashText b.version b.previousHash b.tx b.height) = b.hash
  origins : (b.tx.map TransactionStruct.origin).Nodup
  txs : ∀ t ∈ b.tx, validateTx crypto l b.height t = true

/-- **Votes that pass.** -/
structure QuorumVotes (crypto : Crypto) (l : Ledger) (b : BlockStruct) : Prop where
  origins : (b.votes.map VoteStruct.origin).Nodup
  verified : ∀ v ∈ b.votes, crypto.verifySignature v.origin v.sig b.hash = true
  quorum : l.hasQuorumWeighted (b.votes.map VoteStruct.origin) = true

theorem validateBlock_false_iff {l : Ledger} {b : BlockStruct} :
    validateBlock crypto l b false = true ↔ WellFormedBlock crypto l b := by
  unfold validateBlock
  constructor
  · intro h
    -- The guards of the source in its order: no transactions, hash, transactions.
    split at h
    · exact absurd h (by decide)
    split at h
    · exact absurd h (by decide)
    split at h
    · exact absurd h (by decide)
    next hempty hhash htxs =>
      rw [Bool.not_eq_true, Bool.not_eq_false'] at htxs
      obtain ⟨hnodup, -, hall⟩ := validateTxs_iff.mp htxs
      exact ⟨fun h => hempty (List.isEmpty_iff.mpr h), not_not.mp hhash, hnodup, hall⟩
  · rintro ⟨hne, hhash, hnodup, hall⟩
    have htxs : validateTxs crypto l b.height [] b.tx = true :=
      validateTxs_iff.mpr ⟨hnodup, fun _ _ => List.not_mem_nil, hall⟩
    rw [if_neg (fun h => hne (List.isEmpty_iff.mp h)), if_neg (not_not.mpr hhash), htxs]
    rfl

theorem validateBlock_true_iff {l : Ledger} {b : BlockStruct} :
    validateBlock crypto l b true = true ↔
      WellFormedBlock crypto l b ∧ QuorumVotes crypto l b := by
  -- The votes are looked at last, after all that a proposal is checked for.
  have hsplit : validateBlock crypto l b true
      = (validateBlock crypto l b false
        && (validateVotes crypto b.hash [] b.votes
          && l.hasQuorumWeighted (b.votes.map VoteStruct.origin))) := by
    unfold validateBlock
    split
    · rfl
    split
    · rfl
    split
    · rfl
    rfl
  rw [hsplit, Bool.and_eq_true, Bool.and_eq_true, validateBlock_false_iff, validateVotes_iff]
  constructor
  · rintro ⟨hblock, ⟨hnodup, -, hsig⟩, hquorum⟩
    exact ⟨hblock, hnodup, hsig, hquorum⟩
  · rintro ⟨hblock, hnodup, hsig, hquorum⟩
    exact ⟨hblock, ⟨hnodup, fun _ _ => List.not_mem_nil, hsig⟩, hquorum⟩

/-- The transactions of a valid block have exactly their required properties. -/
theorem WellFormedBlock.wellKeyed {l : Ledger} {b : BlockStruct}
    (h : WellFormedBlock crypto l b) : ∀ t ∈ b.tx, t.WellKeyed := fun t ht =>
  TransactionStruct.valid_wellKeyed (validateTx_iff.mp (h.txs t ht)).1

end Divachain
