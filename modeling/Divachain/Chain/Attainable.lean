/-
  Divachain.Chain.Attainable — whether the peers together have a quorum.

  A stake cannot drop below zero, but it can drop to zero, and nobody asks what
  is left when a peer leaves.  Three peers can take the stake of one of them,
  and then the other two can go: what is left is a peer that nothing outvotes
  and that has no quorum.

  Main result: `attainable` — all peers together have a quorum if one of them
  has stake, and otherwise nobody ever has one.
-/
import Divachain.Chain.Accounting

namespace Divachain

open DataKit

namespace Accounted

/-- All peers together weigh as much as the total. -/
theorem weightOf_keys {l : Ledger} (hl : Accounted l) :
    l.weightOf l.mapPeer.keys = l.quorumWeighted := by
  have hfun : l.getStake = OrdMap.weightAt Peer.stake l.mapPeer :=
    funext (getStake_eq_weightAt l)
  rw [Ledger.weightOf, hfun, OrdMap.sum_weightAt_keys, hl.total_eq]

/-- **All peers have a quorum if one has stake.** -/
theorem hasQuorumWeighted_keys {l : Ledger} (hl : Accounted l) {publicKey : Text}
    (h : 0 < l.getStake publicKey) : l.hasQuorumWeighted l.mapPeer.keys = true := by
  have htotal := hl.total_pos h
  rw [Ledger.hasQuorumWeighted, hl.weightOf_keys]
  exact decide_eq_true (by omega)

end Accounted

namespace Blockchain

/-- **The quorum is attainable while somebody has stake**, and not after that:
every list of origins with a quorum names a peer with stake. -/
theorem attainable {crypto : Crypto} {publicKey : Text} {genesis : BlockStruct} {c : Blockchain}
    (h : Runs crypto publicKey genesis c) :
    ((∃ peer ∈ c.mapPeer.keys, 0 < c.getStake peer) → c.hasQuorumWeighted c.mapPeer.keys = true)
      ∧ ∀ arrayOrigin, c.hasQuorumWeighted arrayOrigin = true →
          ∃ origin ∈ arrayOrigin, 0 < c.getStake origin := by
  constructor
  · rintro ⟨peer, -, hstake⟩
    exact h.accounted.hasQuorumWeighted_keys hstake
  · intro arrayOrigin hquorum
    exact h.accounted.exists_staked hquorum

theorem attainable_of_sample :
    ((∃ peer ∈ (sampleStart 0).mapPeer.keys, 0 < (sampleStart 0).getStake peer) →
        (sampleStart 0).hasQuorumWeighted (sampleStart 0).mapPeer.keys = true)
      ∧ ∀ arrayOrigin, (sampleStart 0).hasQuorumWeighted arrayOrigin = true →
          ∃ origin ∈ arrayOrigin, 0 < (sampleStart 0).getStake origin := by
  have hruns : Runs sampleCrypto (keyOf 0) sampleGenesis (sampleStart 0) :=
    .start start_sampleStart
  exact attainable hruns

/-! ## Two peers take the stake of the third, and leave. -/

def reduceStake : Command :=
  { seq := 1
    body := .modifyStake (keyOf 2) ['v'] (-1)
    keys := [.seq, .command, .publicKey, .ident, .stake] }

def leaveAs (i seq : Nat) : Command :=
  { seq := seq
    body := .removePeer (keyOf i)
    keys := [.seq, .command, .publicKey] }

def drainTx (i : Nat) (commands : List Command) (sig : Nat) : TransactionStruct :=
  { ident := ['t']
    origin := keyOf i
    commands := commands
    sig := label 86 sig
    keys := TransactionStruct.fields }

/-- Peers 0 and 1 take the stake of peer 2, and peer 1 leaves. -/
def drainBlock : BlockStruct :=
  { version := BLOCK_VERSION
    previousHash := label 43 0
    hash := label 43 1
    tx := [drainTx 0 [reduceStake] 0, drainTx 1 [reduceStake, leaveAs 1 2] 1]
    height := 2
    votes := [{ origin := keyOf 0, sig := label 86 2 }, { origin := keyOf 1, sig := label 86 3 }] }

/-- Then peer 0 leaves, too. -/
def exitBlock : BlockStruct :=
  { version := BLOCK_VERSION
    previousHash := label 43 1
    hash := label 43 2
    tx := [drainTx 0 [leaveAs 0 1] 4]
    height := 3
    votes := [{ origin := keyOf 0, sig := label 86 5 }] }

def drainCrypto : Crypto :=
  tableCrypto
    [genesisText 3, hashText BLOCK_VERSION (label 43 0) drainBlock.tx 2,
      hashText BLOCK_VERSION (label 43 1) exitBlock.tx 3]
    [(keyOf 0, signedText 2 [reduceStake]), (keyOf 1, signedText 2 [reduceStake, leaveAs 1 2]),
      (keyOf 0, label 43 1), (keyOf 1, label 43 1), (keyOf 0, signedText 3 [leaveAs 0 1]),
      (keyOf 0, label 43 2)]

def drainGenesis : BlockStruct := genesis drainCrypto (genesisFile 3)

def drainStart : Blockchain :=
  ((fresh (keyOf 0) 100).reset (fun _ => true) drainGenesis).getD (fresh [] 0)

def drainAdd (c : Blockchain) (b : BlockStruct) : Blockchain :=
  match c.add drainCrypto b true with
  | .added c' => c'
  | _ => fresh [] 0

def drained : Blockchain := drainAdd (drainAdd drainStart drainBlock) exitBlock

/-- **A peer is left, and the peers have no quorum.** -/
theorem not_attainable_of_sample :
    Runs drainCrypto (keyOf 0) drainGenesis drained ∧ drained.mapPeer.keys = [keyOf 2]
      ∧ drained.hasQuorumWeighted drained.mapPeer.keys = false := by
  have hstart : (fresh (keyOf 0) 100).reset (fun _ => true) drainGenesis = some drainStart := by
    decide +kernel
  have hdrain : drainStart.add drainCrypto drainBlock true
      = .added (drainAdd drainStart drainBlock) := by decide +kernel
  have hexit : (drainAdd drainStart drainBlock).add drainCrypto exitBlock true = .added drained := by
    decide +kernel
  exact ⟨((Runs.start hstart).add hdrain).add hexit, by decide +kernel, by decide +kernel⟩

end Blockchain

end Divachain
