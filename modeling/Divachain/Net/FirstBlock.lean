/-
  Divachain.Net.FirstBlock — a new network and its first block.

  The peers start from the genesis block that was created for them.  Once they
  see each other, a transaction that one of them stacks reaches the validator,
  and a round brings it onto every chain.

  Main results:
    * `founded` — the chains of the nodes after the reset;
    * `level_of_founded` — a network that has just been gathered is level;
    * `first_commits` — a network made by `Genesis.create` commits it.
-/
import Divachain.Chain.Genesis
import Divachain.Net.Progress

namespace Divachain

open DataKit

namespace Node

variable {crypto : Crypto} {turn : Turn}

/-! ## §1. The network as `p2pNetwork` sees it. -/

/-- The nodes of the network are told by `p2pNetwork`. -/
def gathered (chain : Blockchain) : Node :=
  { start chain with
    arrayNetwork := (chain.mapPeer.values.map Peer.publicKey).insertionSort (· ≤ ·) }

theorem step_p2pNetwork {chain : Blockchain} (h : 2 ≤ chain.mapPeer.size) :
    (start chain).step crypto turn .p2pNetwork = gathered chain := by
  rw [step_of_running crypto rfl]
  exact if_neg (Nat.not_lt_of_le h)

end Node

/-! ## §2. The network that `create` sets up. -/

namespace Genesis

variable {make : Nat → Config} {size : Nat}

/-- The key of the `i`-th node. -/
def keyAt (make : Nat → Config) (i : Fin size) : Text := (make (i + 1)).publicKey

theorem configs_eq :
    configs make size = (List.finRange size).map fun i : Fin size => make (i + 1) := by
  have hrange : List.range' 1 size
      = (List.finRange size).map fun i : Fin size => (i : Nat) + 1 := by
    rw [List.range'_eq_map_range, ← List.map_coe_finRange_eq_range, List.map_map]
    exact List.map_congr_left fun i _ => Nat.add_comm 1 i
  unfold configs
  rw [hrange, List.map_map]
  rfl

/-- What the chains of the nodes have in common. -/
structure Founded (crypto : Crypto) (make : Nat → Config) (size : Nat) (genesis : BlockStruct)
    (chain : Fin size → Blockchain) : Prop where
  ledger : ∀ i, (chain i).toLedger = Ledger.fresh.applyTx genesis.tx
  publicKey : ∀ i, (chain i).publicKey = keyAt make i
  height : ∀ i, (chain i).height = genesis.height
  latest : ∀ i, (chain i).latestBlock.map BlockStruct.hash = some genesis.hash
  top : ∀ i, (chain i).latestBlock.map BlockStruct.height = some genesis.height
  keys : (Ledger.fresh.applyTx genesis.tx).mapPeer.keys = (List.finRange size).map (keyAt make)
  peers : (Ledger.fresh.applyTx genesis.tx).mapPeer.values.map Peer.publicKey
    = (List.finRange size).map (keyAt make)
  stakes : ∀ i : Fin size, (Ledger.fresh.applyTx genesis.tx).getStake (keyAt make i) = 1

/-- **The nodes are founded** if every one of them starts from the created block. -/
theorem founded {crypto : Crypto} {file genesis : BlockStruct} {map : OrdMap Text Config}
    (h : create crypto make size file = some (genesis, map))
    (hkeys : Function.Injective fun i : Fin size => keyAt make i)
    {maxBlocks : Fin size → Nat} {answers : Fin size → Nat → Bool} {chain : Fin size → Blockchain}
    (hreset : ∀ i, (Blockchain.fresh (keyAt make i) (maxBlocks i)).reset (answers i)
      (Blockchain.genesis crypto genesis) = some (chain i)) :
    Founded crypto make size genesis chain := by
  have hcreated := created h
  rw [hcreated.reread] at hreset
  have hspec : ∀ i, Blockchain.ReplayedBy [genesis] _ (chain i) :=
    fun i => Blockchain.replay_spec (hreset i)
  have hnodup : ((configs make size).map Config.publicKey).Nodup := by
    rw [configs_eq, List.map_map]
    exact (List.nodup_finRange size).map hkeys
  obtain ⟨hentries, -⟩ := create_peers hcreated hnodup
  rw [configs_eq, List.map_map] at hentries
  refine ⟨fun i => (hspec i).ledger, fun i => (hspec i).publicKey, fun i => (hspec i).height,
    fun i => (hspec i).latest genesis rfl, fun i => (hspec i).top genesis rfl, ?_, ?_, ?_⟩
  · unfold OrdMap.keys
    rw [hentries, List.map_map]
    rfl
  · unfold OrdMap.values
    rw [hentries, List.map_map, List.map_map]
    rfl
  · intro i
    have hget : (Ledger.fresh.applyTx genesis.tx).mapPeer.get? (keyAt make i)
        = some (peer (make (i + 1))) := by
      refine (OrdMap.get?_eq_some_iff _ _ _).mpr ?_
      rw [hentries]
      exact List.mem_map_of_mem (List.mem_finRange i)
    unfold Ledger.getStake
    rw [hget]
    rfl

variable {crypto : Crypto} {genesis : BlockStruct} {chain : Fin size → Blockchain}

/-- A node with such a chain stands on it. -/
theorem Founded.standing (h : Founded crypto make size genesis chain) {i : Fin size}
    (hhash : isKeyText genesis.hash = true) (hkey : isKeyText (keyAt make i) = true)
    {c : Consensus} (hc : c.chain = chain i) : ∃ latest, Node.Standing c latest := by
  have hlatest := h.latest i
  have htop := h.top i
  rw [← hc] at hlatest htop
  cases hblock : c.chain.latestBlock with
  | none =>
      rw [hblock] at hlatest
      cases hlatest
  | some latest =>
      rw [hblock] at hlatest htop
      refine ⟨latest, hblock, ?_, ?_, ?_⟩
      · rw [hc, h.height]
        exact Option.some.inj htop
      · rw [show latest.hash = genesis.hash from Option.some.inj hlatest]
        exact hhash
      · rw [hc, h.publicKey]
        exact hkey

/-- Without a removal the peers stay. -/
theorem Founded.hasPeer (h : Founded crypto make size genesis chain) {tx : TransactionStruct}
    (hstays : ∀ c ∈ tx.commands, ∀ publicKey, c.body ≠ .removePeer publicKey) (i : Fin size) :
    ((Ledger.fresh.applyTx genesis.tx).applyTx [tx]).hasPeer (keyAt make i) = true := by
  refine Ledger.hasPeer_foldl_apply (fun oc hoc => ?_) ?_
  · unfold commandsOf at hoc
    rw [List.flatMap_singleton] at hoc
    obtain ⟨c, hc, rfl⟩ := List.mem_map.mp hoc
    exact hstays c hc _
  · refine (OrdMap.has_iff _ _).mpr ?_
    rw [h.keys]
    exact List.mem_map_of_mem (List.mem_finRange i)

end Genesis

/-! ## §3. Its first block. -/

namespace System

open Genesis (Config Founded keyAt)
open Node (gathered stackRecord Takes)

variable {crypto : Crypto}

variable {make : Nat → Config} {size : Nat} {genesis : BlockStruct} {chain : Fin size → Blockchain}
  {turn : Fin size → Turn}

/-- **All the peers are there.** -/
theorem exists_gathered (crypto : Crypto) (h : Founded crypto make size genesis chain)
    (hsize : 2 ≤ size) (turn : Fin size → Turn) :
    ∃ s, Reaches crypto (Node.Sequential crypto) (start chain) s
      ∧ ∀ i, s.nodes i = gathered (chain i) := by
  have hcount : ∀ i, 2 ≤ (chain i).mapPeer.size := by
    intro i
    have hkeys : (chain i).mapPeer.keys = (List.finRange size).map (keyAt make) := by
      rw [show (chain i).mapPeer = _ from congrArg Ledger.mapPeer (h.ledger i), h.keys]
    have hlength := congrArg List.length hkeys
    unfold OrdMap.keys at hlength
    rw [List.length_map, List.length_map, List.length_finRange] at hlength
    show 2 ≤ (chain i).mapPeer.entries.length
    rw [hlength]
    exact hsize
  have hstep : ∀ i, (Node.start (chain i)).step crypto (turn i) .p2pNetwork = gathered (chain i) :=
    fun i => Node.step_p2pNetwork (hcount i)
  have hrefl : Reaches crypto (Node.Sequential crypto) (start chain) (start chain) := .refl
  obtain ⟨s, hs, hself, -⟩ := hrefl.runEach (fun i => [(turn i, .p2pNetwork)])
    (List.nodup_finRange size)
    (fun i _ x hx s' _ => by rw [List.mem_singleton.mp hx]; trivial)
    (fun i _ => ⟨by
      show ((Node.start (chain i)).step crypto (turn i) .p2pNetwork).adds.length ≤ 1
      rw [hstep i]
      exact Nat.zero_le 1, trivial⟩)
  exact ⟨s, hs, fun i => (hself i (List.mem_finRange i)).trans (hstep i)⟩

/-- The transaction a node signs for these commands. -/
def stacked (crypto : Crypto) (chain : Blockchain) (turn : Turn) (commands : List Command)
    (ident : Text) : TransactionStruct :=
  (Node.start chain).signTx crypto (stackRecord turn commands ident)

/-- **A network that has just been gathered is level.** -/
theorem level_of_founded (h : Founded crypto make size genesis chain)
    (hsize : 2 ≤ size ∧ size ≤ MAX_NETWORK_SIZE) (hhash : isKeyText genesis.hash = true)
    (hkeys : Function.Injective fun i : Fin size => keyAt make i)
    (hkey_ok : ∀ i : Fin size, isKeyText (keyAt make i) = true) {s : System (Fin size)}
    (hs : ∀ i, s.nodes i = gathered (chain i)) : s.Level (List.finRange size) := by
  have hchain : ∀ i, (s.nodes i).chain = chain i := by
    intro i
    rw [hs i]
    rfl
  have hledger : ∀ i, (s.nodes i).chain.toLedger = Ledger.fresh.applyTx genesis.tx := by
    intro i
    rw [hchain, h.ledger]
  have hkey : (List.finRange size).map s.key = (List.finRange size).map (keyAt make) := by
    refine List.map_congr_left fun i _ => ?_
    unfold key
    rw [hchain, h.publicKey]
  have haccounted : Accounted (Ledger.fresh.applyTx genesis.tx) :=
    Accounted.fresh.applyTx genesis.tx
  refine
    { same := fun i _ j _ => ⟨?_, ?_, ?_⟩
      standing := fun i _ => h.standing hhash (hkey_ok i) (hchain i)
      arrayNetwork := fun i _ => ?_
      accounted := fun i _ => ?_
      peers := fun i _ k => ?_
      staked := fun i _ => ?_
      keys := ?_
      size := ?_
      idle := fun i _ => ?_
      adds := fun i _ => ?_
      ownTx := fun i _ => ?_ }
  · rw [hledger, hledger]
  · rw [hchain, hchain, h.height, h.height]
  · rw [hchain, hchain, h.latest, h.latest]
  · rw [hkey, hs i]
    show ((chain i).mapPeer.values.map Peer.publicKey).insertionSort _ = _
    rw [show (chain i).mapPeer = _ from congrArg Ledger.mapPeer (h.ledger i), h.peers]
  · rw [hledger]
    exact haccounted
  · rw [hledger, hkey, ← h.keys]
    exact OrdMap.has_iff _ _
  · have hstake : 0 < (Ledger.fresh.applyTx genesis.tx).getStake (keyAt make i) := by
      rw [h.stakes]
      exact Int.one_pos
    rw [hledger]
    exact haccounted.total_pos hstake
  · rw [hkey]
    exact (List.nodup_finRange size).map hkeys
  · rw [List.length_finRange]
    exact hsize
  · rw [hs i]
    exact ⟨rfl, rfl, rfl, rfl, rfl⟩
  · rw [hs i]
    rfl
  · rw [hs i]
    rfl

/-- Numbering leaves the bodies alone. -/
theorem exists_of_mem_numbered {commands : List Command} {c : Command}
    (h : c ∈ Node.numbered commands) : ∃ c' ∈ commands, c'.body = c.body := by
  obtain ⟨x, hx, rfl⟩ := List.mem_map.mp h
  exact ⟨x.1, (List.mem_zipIdx' hx).2 ▸ List.getElem_mem _, rfl⟩

/-- **A new network commits its first transaction.**  `create` has set up the peers;
everyone can start from the block; and once they see each other, whatever `stack`
takes from any of them comes onto every chain with the next block, unless somebody
leaves with it. -/
theorem first_commits (hformat : crypto.Formatted) (hcorrect : crypto.SignCorrect)
    {file : BlockStruct} {map : OrdMap Text Config} (hsize : 2 ≤ size)
    (hcreate : Genesis.create crypto make size file = some (genesis, map))
    (hkeys : Function.Injective fun i : Fin size => keyAt make i)
    (hkey_ok : ∀ i : Fin size, isKeyText (keyAt make i) = true)
    (maxBlocks : Fin size → Nat) (answers : Fin size → Nat → Bool) :
    ∃ chain : Fin size → Blockchain,
      (∀ i, (Blockchain.fresh (keyAt make i) (maxBlocks i)).reset (answers i)
        (Blockchain.genesis crypto genesis) = some (chain i))
      ∧ ∀ (turn : Fin size → Turn) (i : Fin size) (commands : List Command) (ident : Text),
        (∀ i (j : Fin size), (turn i).isOnline (keyAt make j) = true) → (∀ i, 1 ≤ (turn i).now) →
        (∀ c ∈ commands, ∀ publicKey, c.body ≠ .removePeer publicKey) →
        Takes crypto (Node.start (chain i)) (stackRecord (turn i) commands ident) →
          ∃ s b, Reaches crypto (Node.Sequential crypto) (start chain) s
            ∧ b.tx = [stacked crypto (chain i) (turn i) commands ident]
            ∧ ∀ j, (s.nodes j).halted = false ∧ (s.nodes j).committed = [b]
              ∧ (s.nodes j).chain.toLedger = (chain j).toLedger.applyTx b.tx := by
  have hcreated := Genesis.created hcreate
  have hreset : ∀ i, ∃ c, (Blockchain.fresh (keyAt make i) (maxBlocks i)).reset (answers i)
      (Blockchain.genesis crypto genesis) = some c := by
    intro i
    obtain ⟨c, hc, -⟩ := Blockchain.reset_fresh (keyAt make i) (maxBlocks i) (answers i)
      (Blockchain.genesis crypto genesis)
    exact ⟨c, hc⟩
  choose chain hchain using hreset
  have h := Genesis.founded hcreate hkeys hchain
  have hhash : isKeyText genesis.hash = true := by
    rw [← hcreated.reread]
    exact hformat.hash _
  refine ⟨chain, hchain, fun turn i commands ident honline hnow hstays htakes => ?_⟩
  obtain ⟨s₁, h₁, hs₁⟩ := exists_gathered crypto h hsize turn
  have hlevel : s₁.Level (List.finRange size) :=
    level_of_founded h ⟨hsize, hcreated.size_le⟩ hhash hkeys hkey_ok hs₁
  have hmem : ∀ j : Fin size, j ∈ List.finRange size := List.mem_finRange
  have hkey : ∀ j, s₁.key j = keyAt make j := by
    intro j
    unfold key
    rw [hs₁ j]
    exact h.publicKey j
  have hsees : s₁.Sees (List.finRange size) turn :=
    ⟨fun j _ k _ => hkey k ▸ honline j k, fun j _ => hnow j⟩
  obtain ⟨v, hv, hturn⟩ := hlevel.exists_validator hsees
  have hlaunch : Node.Launches crypto (s₁.nodes i) (turn i) (.stackTx commands ident)
      (stackRecord (turn i) commands ident) [] :=
    Node.launches_stackTx (hlevel.idle i (hmem i)) (hturn i (hmem i)) (by rw [hs₁ i]; rfl)
      (by rw [hs₁ i]; exact htakes)
  have htakes' : Takes crypto (s₁.nodes i) (stackRecord (turn i) commands ident) := by
    rw [hs₁ i]
    exact htakes
  have hown : s₁.FromOthers i (.stackTx commands ident) := trivial
  obtain ⟨s₂, h₂, hlaunched⟩ := hlevel.exists_launched hsees hv hturn (hmem i) hown hlaunch htakes'
  have htx : (s₁.nodes i).signTx crypto (stackRecord (turn i) commands ident)
      = stacked crypto (chain i) (turn i) commands ident := by
    rw [hs₁ i]
    rfl
  have hready := hlaunched.ready hlevel hsees hv hturn (hmem i) htakes' fun j _ => by
    rw [htx, hkey j, hs₁ v]
    show ((chain v).toLedger.applyTx _).hasPeer _ = true
    rw [h.ledger v]
    refine h.hasPeer (fun c hc publicKey => ?_) j
    obtain ⟨c', hc', hbody⟩ := exists_of_mem_numbered hc
    exact hbody ▸ hstays c' hc' publicKey
  obtain ⟨s₃, b, h₃, hb, -, -, -, hcommits, -⟩ := hready.commits hformat hcorrect
  rw [hlaunched.pools.pool, htx] at hb
  refine ⟨s₃, b, (h₁.trans h₂).trans h₃, hb, fun j => ?_⟩
  have hj := hcommits j ((List.perm_cons_erase hv).mem_iff.mp (hmem j))
  have hcore : (s₂.nodes j).toConsensus = (gathered (chain j)).toConsensus := by
    rw [(hlaunched.alike j (hmem j)).core, hs₁ j]
  refine ⟨hj.running, ?_, ?_⟩
  · rw [hj.committed, congrArg Consensus.committed hcore]
    rfl
  · rw [hj.ledger, congrArg Consensus.chain hcore]
    rfl

open Node (allOnline poolCrypto)

def newConfig (i : Nat) : Config := ⟨label 8 i, label 9 i, keyOf i⟩

/-- The block and the configurations of three peers. -/
def newNetwork : BlockStruct × OrdMap Text Config :=
  (Genesis.create poolCrypto newConfig 3 (genesisFile 0)).getD (default, .empty)

def newChain (i : Fin 3) : Blockchain :=
  ((Blockchain.fresh (keyAt newConfig i) 100).reset (fun _ => true)
    (Blockchain.genesis poolCrypto newNetwork.1)).getD (Blockchain.fresh [] 0)

/-- The note of node 0, which is not the validator, comes onto every chain. -/
theorem first_commits_of_sample :
    ∃ s b, Reaches poolCrypto (Node.Sequential poolCrypto) (start newChain) s
      ∧ b.tx.map TransactionStruct.commands = [[forkNote 0]]
      ∧ ∀ j, (s.nodes j).committed = [b] := by
  have hkeys : Function.Injective fun i : Fin 3 => keyAt newConfig i := by
    intro i j hij
    exact Fin.ext (Nat.succ.inj (label_injective 43 hij))
  obtain ⟨chain, hchain, hfirst⟩ := first_commits Node.poolCrypto_formatted
    Node.poolCrypto_signCorrect (by decide)
    (show Genesis.create poolCrypto newConfig 3 (genesisFile 0) = some newNetwork by decide +kernel)
    hkeys (by decide +kernel) (fun _ => 100) (fun _ _ => true)
  have hnew : ∀ i, (Blockchain.fresh (keyAt newConfig i) 100).reset (fun _ => true)
      (Blockchain.genesis poolCrypto newNetwork.1) = some (newChain i) := by decide +kernel
  obtain rfl : chain = newChain :=
    funext fun i => Option.some.inj ((hchain i).symm.trans (hnew i))
  obtain ⟨s, b, h, htx, hcommits⟩ := hfirst (fun _ => allOnline) 0 [forkNote 0] ['t']
    (fun _ _ => rfl) (fun _ => Nat.le_refl 1)
    (fun c hc publicKey h => by rw [List.mem_singleton.mp hc] at h; cases h) (by decide +kernel)
  have hnote : [stacked poolCrypto (newChain 0) allOnline [forkNote 0] ['t']].map
      TransactionStruct.commands = [[forkNote 0]] := by decide +kernel
  exact ⟨s, b, h, htx ▸ hnote, fun j => (hcommits j).2.1⟩

end System

end Divachain
