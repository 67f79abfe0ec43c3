/-
  Divachain.Net.Bootstrap — a new node catches up with the network.

  A new node has read its genesis file before it enters the network, and
  `syncWithNetwork` resets it to the genesis block of the network.  `reset`
  keeps the running total, so all stakes count twice from then on: no set of
  votes is more than half of that, and the loop turns without adding a block.

  Main results:
    * `syncLoop_stalls` — a node that counts every stake twice never leaves
      the loop;
    * `bootstrap_converges_iff` — bootstrapping converges if and only if the
      network has nothing but its genesis block.
-/
import Divachain.Chain.Agreement
import Divachain.Net.Api

namespace Divachain

open DataKit

/-! ## §1. `syncWithNetwork`. -/

/-- How far `syncWithNetwork` has come. -/
inductive SyncResult where
  /-- Still in its loop. -/
  | running
  | throws
  | done (c : Blockchain)

namespace Bootstrap

variable (crypto : Crypto) (config : ApiConfig) (answers : Nat → Bool)

/-- The blocks of one answer; `none` where `add` throws. -/
def addAll : Blockchain → List BlockStruct → Option Blockchain
  | c, [] => some c
  | c, b :: bs =>
      match c.add crypto b (answers b.height) with
      -- a block that is turned away does not end the loop
      | .rejected => addAll c bs
      | .throws => none
      | .added c' => addAll c' bs

/-- The loop of `syncWithNetwork`, for `fuel` rounds.  The network has the height
`n`; a chain without a latest block ends it. -/
def syncLoop (remote : Blockchain) (n : Nat) : Nat → Nat → Blockchain → SyncResult
  | 0, _, _ => .running
  | fuel + 1, h, c =>
      if h < n then
        match addAll crypto answers c ((Api.sync config remote (h + 1)).getD []) with
        | none => .throws
        | some c' => syncLoop remote n fuel ((c'.latestBlock.map BlockStruct.height).getD n) c'
      else .done c

def syncWithNetwork (fuel : Nat) (remote c : Blockchain) : SyncResult :=
  match remote.latestBlock, Api.blockGenesis config remote with
  | some blockNetwork, some genesis =>
      if c.latestBlock.map BlockStruct.hash ≠ some blockNetwork.hash then
        match c.reset answers genesis with
        | none => .throws
        | some c' => syncLoop crypto config answers remote blockNetwork.height fuel 1 c'
      else .done c
  | _, _ => .done c

/-- **Bootstrapping converges**: the loop ends, and the chain then begins with
the whole remote chain and has its ledger. -/
def Converges (remote c : Blockchain) : Prop :=
  ∃ fuel c', syncWithNetwork crypto config answers fuel remote c = .done c'
    ∧ remote.chain <+: c'.chain ∧ c'.toLedger = remote.toLedger

/-! ## §2. A ledger that counts its stakes twice. -/

variable {crypto config answers}

/-- Different voters have no more than all stakes. -/
theorem weightOf_le_total {l : Ledger} (hl : NonnegStakes l) {a : List Text} (ha : a.Nodup) :
    l.weightOf a ≤ OrdMap.total Peer.stake l.mapPeer := by
  -- the stakes alone, with the total they should have
  have haccounted : Accounted { l with quorumWeighted := OrdMap.total Peer.stake l.mapPeer } :=
    ⟨rfl, hl⟩
  have hsum := (electorate _ haccounted).sum_le_total a.toFinset
  rw [electorate_total haccounted, List.sum_toFinset _ ha] at hsum
  exact hsum

/-- **Where the total is twice the stakes, no block has a quorum.** -/
theorem accepts_eq_false {c : Blockchain} (hnonneg : NonnegStakes c.toLedger)
    (htwice : OrdMap.total Peer.stake c.mapPeer ≤ surplus c.toLedger) (b : BlockStruct) :
    c.accepts crypto b = false := by
  rw [← Bool.not_eq_true, Blockchain.accepts_iff]
  rintro ⟨-, -, -, hvotes⟩
  -- The votes weigh no more than all stakes, which are at most half of the total.
  have hweight := weightOf_le_total hnonneg hvotes.origins
  have hquorum : c.quorumWeighted < 2 * c.weightOf (b.votes.map VoteStruct.origin) :=
    of_decide_eq_true hvotes.quorum
  unfold surplus at htwice
  omega

theorem addAll_of_accepts_eq_false {c : Blockchain} (h : ∀ b, c.accepts crypto b = false) :
    ∀ bs : List BlockStruct, addAll crypto answers c bs = some c
  | [] => rfl
  | b :: bs => by
      have hrejected : c.add crypto b (answers b.height) = .rejected := by
        unfold Blockchain.add
        rw [h b, if_neg Bool.false_ne_true]
      unfold addAll
      rw [hrejected]
      exact addAll_of_accepts_eq_false h bs

/-- **The loop never ends** on a node that accepts nothing and is behind. -/
theorem syncLoop_stalls {remote c : Blockchain} {n h : Nat} (hc : ∀ b, c.accepts crypto b = false)
    (hlatest : c.latestBlock.map BlockStruct.height = some h) (hbehind : h < n) :
    ∀ fuel, syncLoop crypto config answers remote n fuel h c = .running
  | 0 => rfl
  | fuel + 1 => by
      unfold syncLoop
      -- No block is added, so the height stays and the round repeats itself.
      rw [if_pos hbehind, addAll_of_accepts_eq_false hc]
      dsimp only
      rw [hlatest]
      exact syncLoop_stalls hc hlatest hbehind fuel

/-! ## §3. What the loop keeps. -/

theorem surplus_addAll {c c' : Blockchain} :
    ∀ {bs : List BlockStruct}, addAll crypto answers c bs = some c' →
      surplus c'.toLedger = surplus c.toLedger := by
  intro bs
  induction bs generalizing c with
  | nil =>
      intro h
      obtain rfl := Option.some.inj h
      rfl
  | cons b bs ih =>
      intro h
      unfold addAll at h
      split at h
      · exact ih h
      · exact nomatch h
      next d hadd =>
        rw [ih h, (Blockchain.add_spec crypto hadd).ledger, surplus_applyTx]

theorem surplus_syncLoop {remote c c' : Blockchain} {n : Nat} :
    ∀ {fuel h : Nat}, syncLoop crypto config answers remote n fuel h c = .done c' →
      surplus c'.toLedger = surplus c.toLedger := by
  intro fuel
  induction fuel generalizing c with
  | zero =>
      intro h hdone
      exact nomatch hdone
  | succ fuel ih =>
      intro h hdone
      unfold syncLoop at hdone
      split at hdone
      · split at hdone
        · exact nomatch hdone
        next d hadd => rw [ih hdone, surplus_addAll hadd]
      · obtain rfl := SyncResult.done.inj hdone
        rfl

/-- A reset keeps the whole total, and forgets the peers it is the total of. -/
theorem surplus_reset {c c' : Blockchain} {answers : Nat → Bool} {genesis : BlockStruct}
    (h : c.reset answers genesis = some c') : surplus c'.toLedger = c.quorumWeighted := by
  have hledger : c'.toLedger
      = ((c.clear.putBlock 1 genesis).rewind.toLedger.applyTx genesis.tx) :=
    (Blockchain.replay_spec h).ledger
  rw [hledger, surplus_applyTx]
  show c.quorumWeighted - OrdMap.total Peer.stake OrdMap.empty = c.quorumWeighted
  exact Int.sub_zero _

/-- **After a second reset the ledger is never that of a new node.** -/
theorem surplus_syncWithNetwork {remote c c' : Blockchain} {fuel : Nat}
    (h : syncWithNetwork crypto config answers fuel remote c = .done c') :
    c' = c ∨ surplus c'.toLedger = c.quorumWeighted := by
  unfold syncWithNetwork at h
  split at h
  · split at h
    · split at h
      · exact nomatch h
      next d hreset => exact Or.inr ((surplus_syncLoop h).trans (surplus_reset hreset))
    · exact Or.inl (SyncResult.done.inj h).symm
  · exact Or.inl (SyncResult.done.inj h).symm

/-! ## §4. New nodes. -/

/-- A ledger over which a block has a quorum has some stake. -/
theorem total_pos_of_quorumVotes {l : Ledger} (hl : Accounted l) {b : BlockStruct}
    (h : QuorumVotes crypto l b) : 0 < l.quorumWeighted := by
  obtain ⟨v, -, -, -, -, hpos⟩ := hl.votes_meet h h
  exact hl.total_pos hpos

/-- The genesis block of a chain that goes on gives its peers some stake. -/
theorem genesis_total_pos {genesis : BlockStruct} {bs : List BlockStruct}
    (h : Blockchain.Validated crypto genesis bs) (hlong : 2 ≤ bs.length) :
    0 < (Ledger.fresh.applyBlocks [genesis]).quorumWeighted := by
  have hhead := h.head
  match bs, hlong with
  | first :: b :: rest, _ =>
      obtain rfl := Option.some.inj hhead
      have htwo : Blockchain.Validated crypto first ([first] ++ [b]) := h.take (k := 2) (by omega)
      obtain ⟨-, -, -, -, hvalid⟩ := htwo.of_concat (List.cons_ne_nil _ _)
      exact total_pos_of_quorumVotes (Accounted.fresh.applyBlocks _)
        (validateBlock_true_iff.mp hvalid).2

/-- **Bootstrapping converges exactly if there is nothing to fetch**, for every
configuration, every remote chain and every own key. -/
theorem bootstrap_converges_iff {publicKey ownKey : Text} {genesis : BlockStruct}
    {remote c : Blockchain} {maxBlocks : Nat} {start : Nat → Bool} (hg : genesis.height = 1)
    (hremote : Blockchain.Runs crypto publicKey genesis remote)
    (hnew : (Blockchain.fresh ownKey maxBlocks).reset start genesis = some c) :
    Converges crypto config answers remote c ↔ remote.height = 1 := by
  obtain ⟨hvalidated, hholds⟩ := hremote.holds (by omega)
  have hown : Blockchain.Holds [genesis] c := Blockchain.holds_start (by omega) hnew
  -- the height is the length of the chain
  have hlength : remote.height = remote.chain.length := by
    have hheight := hholds.height
    cases hlast : remote.chain.getLast? with
    | none =>
        rw [hlast] at hheight
        cases hheight
    | some last =>
        rw [hlast, Option.map_some, Option.some.injEq] at hheight
        have hplace := hvalidated.height_eq (List.getLast?_eq_getElem? ▸ hlast)
        have hpos : 0 < remote.chain.length := List.length_pos_iff.mpr hvalidated.ne_nil
        omega
  have hpos : 0 < remote.chain.length := List.length_pos_iff.mpr hvalidated.ne_nil
  constructor
  · rintro ⟨fuel, c', hdone, hprefix, hledger⟩
    by_contra hne
    have hlong : 2 ≤ remote.chain.length := by omega
    rcases surplus_syncWithNetwork hdone with rfl | hsurplus
    · -- nothing has been fetched
      have hshort := hprefix.length_le
      have hone : c'.chain.length = 1 := congrArg List.length hown.stored
      omega
    · have hzero : surplus c'.toLedger = 0 := by
        rw [hledger, surplus, hremote.accounted.total_eq, sub_self]
      have htotal := genesis_total_pos hvalidated hlong
      rw [← hown.ledger] at htotal
      omega
  · intro hone
    have hchain : remote.chain = [genesis] := by
      have hhead := hvalidated.head
      cases hchain : remote.chain with
      | nil =>
          rw [hchain] at hpos
          exact absurd hpos (lt_irrefl 0)
      | cons b rest =>
          rw [hchain] at hhead
          obtain rfl := Option.some.inj hhead
          have hrest : rest.length + 1 = 1 := by
            rw [hchain] at hlength
            exact hlength.symm.trans hone
          rw [List.length_eq_zero_iff.mp (Nat.succ.inj hrest)]
    have hlatest : c.latestBlock.map BlockStruct.hash = remote.latestBlock.map BlockStruct.hash := by
      rw [hown.latest, hholds.latest, hchain]
    refine ⟨0, c, ?_, ?_, ?_⟩
    · unfold syncWithNetwork
      split
      next blockNetwork g hblock hgenesis =>
        rw [if_neg]
        rw [hlatest, hblock]
        exact fun h => h rfl
      · rfl
    · rw [hchain]
      exact ⟨[], by rw [List.append_nil]; exact hown.stored.symm⟩
    · rw [hown.ledger, hholds.ledger, hchain]

/-! ## §5. A node that joins after one block, and one that joins before. -/

def sampleConfig : ApiConfig where
  networkSyncSize := 10
  maxQuerySize := 100

theorem start_sampleStart_one : (Blockchain.fresh (keyOf 1) 100).reset (fun _ => true)
    Blockchain.sampleGenesis = some (Blockchain.sampleStart 1) := by decide +kernel

theorem bootstrap_converges_of_sample :
    Converges Blockchain.sampleCrypto sampleConfig (fun _ => true) (Blockchain.sampleStart 0)
      (Blockchain.sampleStart 1) :=
  (bootstrap_converges_iff (by decide) (Blockchain.Runs.start Blockchain.start_sampleStart)
    start_sampleStart_one).mpr (by decide +kernel)

/-- The new node, reset to the genesis block of the network. -/
def sampleJoined : Blockchain :=
  ((Blockchain.sampleStart 1).reset (fun _ => true) Blockchain.sampleGenesis).getD
    (Blockchain.sampleStart 1)

/-- **One block to fetch**: the node asks for it for ever. -/
theorem bootstrap_diverges :
    (Blockchain.fresh (keyOf 1) 100).reset (fun _ => true) Blockchain.sampleGenesis
        = some (Blockchain.sampleStart 1)
      ∧ (Blockchain.sampleStart 0).add Blockchain.sampleCrypto (Blockchain.sampleBlock [0, 1]) true
        = .added (Blockchain.sampleLive 0 [0, 1])
      ∧ ¬ Converges Blockchain.sampleCrypto sampleConfig (fun _ => true)
        (Blockchain.sampleLive 0 [0, 1]) (Blockchain.sampleStart 1) := by
  refine ⟨start_sampleStart_one, by decide +kernel, ?_⟩
  rintro ⟨fuel, c', hdone, -, -⟩
  -- three stakes of one, and a total of six
  have hstake : ∀ peer ∈ sampleJoined.mapPeer.values, 0 ≤ peer.stake := by decide +kernel
  have htwice : OrdMap.total Peer.stake sampleJoined.mapPeer ≤ surplus sampleJoined.toLedger := by
    decide +kernel
  have hturned : ∀ b, sampleJoined.accepts Blockchain.sampleCrypto b = false :=
    accepts_eq_false hstake htwice
  have hstart : syncWithNetwork Blockchain.sampleCrypto sampleConfig (fun _ => true) fuel
        (Blockchain.sampleLive 0 [0, 1]) (Blockchain.sampleStart 1)
      = syncLoop Blockchain.sampleCrypto sampleConfig (fun _ => true)
          (Blockchain.sampleLive 0 [0, 1]) 2 fuel 1 sampleJoined := by
    have hlatest : (Blockchain.sampleLive 0 [0, 1]).latestBlock
        = some (Blockchain.sampleBlock [0, 1]) := by decide +kernel
    have hgenesis : Api.blockGenesis sampleConfig (Blockchain.sampleLive 0 [0, 1])
        = some Blockchain.sampleGenesis := by decide +kernel
    have hreset : (Blockchain.sampleStart 1).reset (fun _ => true) Blockchain.sampleGenesis
        = some sampleJoined := by decide +kernel
    unfold syncWithNetwork
    rw [hlatest, hgenesis]
    dsimp only
    rw [if_pos (by decide +kernel), hreset]
    rfl
  rw [hstart, syncLoop_stalls hturned (by decide +kernel) (by omega)] at hdone
  exact nomatch hdone

end Bootstrap

end Divachain
