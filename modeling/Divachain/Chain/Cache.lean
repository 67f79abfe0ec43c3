/-
  Divachain.Chain.Cache — the cached blocks and the stored ones.

  `add` writes the text of a block to the store first and caches the object
  last; in between its commands are applied.  One of them writes to itself: a
  stake proposal that would take its peer below zero.  `Clamped` is that case,
  and `processState_snd_iff` says that it is the only one.

  `Agrees` says that every cached block is the stored one, so the transactions
  it is served with still have its hash.  New processes, resets and calls of
  `add` that nothing interrupts keep it, as long as no applied command is
  clamped; `Cached` has the calls that are suspended.
-/
import Divachain.Chain.Authorisation
import Divachain.Chain.Reset

namespace Divachain

open DataKit Ledger

/-! ## §1. Commands that are written to. -/

instance (l : Ledger) (origin publicKey ident : Text) (stake : Int) (peer : Peer) :
    Decidable (l.TakesEffect origin publicKey ident stake peer) :=
  decidable_of_iff
    (l.mapPeer.get? publicKey = some peer ∧ publicKey ≠ origin
      ∧ origin ∉ l.votersAt (stakeKey publicKey ident stake)
      ∧ l.hasQuorumWeighted (l.votersAt (stakeKey publicKey ident stake) ++ [origin]) = true)
    ⟨fun ⟨h1, h2, h3, h4⟩ => ⟨h1, h2, h3, h4⟩, fun h => ⟨h.1, h.2, h.3, h.4⟩⟩

/-- The command is a stake proposal that takes effect and would take its peer
below zero. -/
def Clamped (l : Ledger) (oc : Text × Command) : Prop :=
  match oc.2.body with
  | .modifyStake publicKey ident stake =>
      ∃ peer, peer ∈ l.mapPeer.get? publicKey
        ∧ (l.TakesEffect oc.1 publicKey ident stake peer ∧ peer.stake + stake < 0)
  | _ => False

instance (l : Ledger) : ∀ oc : Text × Command, Decidable (Clamped l oc)
  | (_, ⟨_, .modifyStake .., _⟩) => inferInstanceAs (Decidable (∃ _, _ ∧ _))
  | (_, ⟨_, .addPeer .., _⟩) => isFalse id
  | (_, ⟨_, .removePeer _, _⟩) => isFalse id
  | (_, ⟨_, .data .., _⟩) => isFalse id
  | (_, ⟨_, .decision .., _⟩) => isFalse id

/-- No command of the list is clamped when it is applied. -/
def Unclamped : Ledger → List (Text × Command) → Prop
  | _, [] => True
  | l, oc :: cs => ¬ Clamped l oc ∧ Unclamped (l.apply oc) cs

instance decidableUnclamped :
    ∀ (l : Ledger) (cs : List (Text × Command)), Decidable (Unclamped l cs)
  | _, [] => isTrue trivial
  | l, oc :: cs =>
      have := decidableUnclamped (l.apply oc) cs
      inferInstanceAs (Decidable (¬ Clamped l oc ∧ _))

theorem unclamped_append :
    ∀ {l : Ledger} {cs ds : List (Text × Command)},
      Unclamped l (cs ++ ds) ↔ Unclamped l cs ∧ Unclamped (cs.foldl apply l) ds
  | _, [], _ => by simp [Unclamped]
  | l, oc :: cs, ds => by
      rw [List.cons_append, Unclamped, Unclamped, unclamped_append, and_assoc]
      rfl

/-- **A command is written to if and only if it is clamped.** -/
theorem processCommand_snd_iff {l : Ledger} {origin : Text} {c : Command} :
    (l.processCommand origin c).2 = c ↔ ¬ Clamped l (origin, c) := by
  obtain ⟨seq, body, keys⟩ := c
  cases body with
  | addPeer http udp publicKey => exact iff_of_true rfl id
  | removePeer publicKey => exact iff_of_true rfl id
  | data ns d => exact iff_of_true rfl id
  | decision ns h d =>
      refine iff_of_true ?_ id
      unfold processCommand
      dsimp only
      split <;> rfl
  -- The only command the ledger writes to: it is the stake that is compared.
  | modifyStake publicKey ident stake =>
      have hsame : (l.processCommand origin ⟨seq, .modifyStake publicKey ident stake, keys⟩).2
            = ⟨seq, .modifyStake publicKey ident stake, keys⟩
          ↔ (l.modifyStake origin publicKey ident stake).2 = stake := by
        simp [processCommand]
      rw [hsame]
      rcases l.modifyStake_cases origin publicKey ident stake with
        ⟨hnot, h⟩ | ⟨hnot, _, _, h⟩ | ⟨peer, heffect, h⟩
      · rw [h]
        exact iff_of_true rfl fun ⟨peer, _, heffect, _⟩ => hnot peer heffect
      · rw [h]
        exact iff_of_true rfl fun ⟨peer, _, heffect, _⟩ => hnot peer heffect
      -- The vote takes effect: the stake is kept exactly when it is not clamped.
      · rw [h]
        show clampStake peer stake = stake ↔ _
        unfold clampStake
        constructor
        · rintro hkept ⟨peer', hpeer', -, hbelow⟩
          obtain rfl := Option.some.inj (heffect.peer_eq.symm.trans hpeer')
          rw [if_pos hbelow] at hkept
          omega
        · intro hunclamped
          rw [if_neg]
          exact fun hbelow => hunclamped ⟨peer, heffect.peer_eq, heffect, hbelow⟩

theorem processCommands_snd_iff :
    ∀ {l : Ledger} {origin : Text} {cs : List Command},
      (l.processCommands origin cs).2 = cs ↔ Unclamped l (cs.map fun c => (origin, c))
  | _, _, [] => by simp [processCommands, Unclamped]
  | l, origin, c :: cs => by
      rw [List.map_cons, Unclamped, ← processCommand_snd_iff, ← processCommands_snd_iff]
      show (l.processCommand origin c).2 :: _ = c :: cs ↔ _
      rw [List.cons.injEq]
      rfl

/-- **Applying a block leaves its transactions as they were if and only if no
command is clamped.** -/
theorem processState_snd_iff :
    ∀ {l : Ledger} {tx : List TransactionStruct},
      (l.processState tx).2 = tx ↔ Unclamped l (commandsOf tx)
  | _, [] => by simp [processState, commandsOf, Unclamped]
  | l, t :: tx => by
      rw [commandsOf_cons, unclamped_append, ← processCommands_snd_iff, ← processCommands_fst,
        ← processState_snd_iff]
      show { t with commands := (l.processCommands t.origin t.commands).2 } :: _ = t :: tx ↔ _
      rw [List.cons.injEq]
      refine and_congr ?_ Iff.rfl
      constructor
      · intro h
        exact congrArg TransactionStruct.commands h
      · intro h
        rw [h]

namespace Blockchain

variable {crypto : Crypto}

/-! ## §2. The invariant. -/

/-- The block carries the hash of its own text. -/
def Hashed (crypto : Crypto) (b : BlockStruct) : Prop :=
  crypto.hash (hashText b.version b.previousHash b.tx b.height) = b.hash

/-- **Every cached block is the stored one**, none is above the last one, and every
stored block stands under its height and carries the hash of its text, unless it is a
genesis block. -/
structure Agrees (crypto : Crypto) (Genesis : BlockStruct → Prop) (c : Blockchain) : Prop where
  cached : ∀ height b, c.mapBlocks.get? height = some b → c.dbBlockchain.get? height = some b
  below : ∀ height b, c.mapBlocks.get? height = some b → height ≤ c.height
  latest : ∀ b, c.latestBlock = some b → c.dbBlockchain.get? c.height = some b
  keyed : ∀ height b, c.dbBlockchain.get? height = some b → b.height = height
  hashed : ∀ height b, c.dbBlockchain.get? height = some b → Hashed crypto b ∨ Genesis b

theorem agrees_fresh (Genesis : BlockStruct → Prop) (publicKey : Text) (maxBlocks : Nat) :
    Agrees crypto Genesis (fresh publicKey maxBlocks) :=
  ⟨fun _ _ h => (nomatch h), fun _ _ h => (nomatch h), fun _ h => (nomatch h),
    fun _ _ h => (nomatch h), fun _ _ h => (nomatch h)⟩

/-- What `cacheBlock` leaves in the cache. -/
theorem get?_mapBlocks_cacheBlock {c : Blockchain} {b b' : BlockStruct} {height : Nat}
    (h : (c.cacheBlock b).mapBlocks.get? height = some b') :
    (height = b.height ∧ b' = b) ∨ (height ≠ b.height ∧ c.mapBlocks.get? height = some b') := by
  have hset : (c.mapBlocks.set b.height b).get? height = some b' := by
    unfold cacheBlock at h
    dsimp only at h
    split at h
    · rw [OrdMap.get?_delete] at h
      split at h
      · cases h
      · exact h
    · exact h
  rw [OrdMap.get?_set] at hset
  split at hset
  next heq => exact Or.inl ⟨heq, (Option.some.inj hset).symm⟩
  next hne => exact Or.inr ⟨hne, hset⟩

/-- Caching a block that is stored under its height. -/
theorem Agrees.updateCache {Genesis : BlockStruct → Prop} {c c' : Blockchain} {b : BlockStruct}
    {answer : Bool} (hkeyed : ∀ height b, c.dbBlockchain.get? height = some b → b.height = height)
    (hhashed : ∀ height b, c.dbBlockchain.get? height = some b → Hashed crypto b ∨ Genesis b)
    (hcached : ∀ height b', c.mapBlocks.get? height = some b' → height ≠ b.height →
      c.dbBlockchain.get? height = some b')
    (hbelow : ∀ height b', c.mapBlocks.get? height = some b' → height ≤ b.height)
    (hb : c.dbBlockchain.get? b.height = some b) (h : c.updateCache answer b = some c') :
    Agrees crypto Genesis c' := by
  have hspec := updateCache_spec h
  refine ⟨?_, ?_, ?_, ?_, ?_⟩
  · intro height b' hb'
    rw [hspec.dbBlockchain]
    rw [hspec.mapBlocks] at hb'
    -- A block left in the cache is the new one or was cached before.
    rcases get?_mapBlocks_cacheBlock hb' with ⟨rfl, rfl⟩ | ⟨hne, hb'⟩
    · exact hb
    · exact hcached height b' hb' hne
  · intro height b' hb'
    rw [hspec.mapBlocks] at hb'
    rw [hspec.height]
    rcases get?_mapBlocks_cacheBlock hb' with ⟨rfl, -⟩ | ⟨-, hb'⟩
    · exact Nat.le_refl _
    · exact hbelow height b' hb'
  · intro b' hb'
    rw [hspec.latestBlock] at hb'
    obtain rfl := Option.some.inj hb'
    rw [hspec.dbBlockchain, hspec.height]
    exact hb
  · rw [hspec.dbBlockchain]
    exact hkeyed
  · rw [hspec.dbBlockchain]
    exact hhashed

/-- **Storing the next block**: it is above everything that is cached. -/
theorem Agrees.putBlock {Genesis : BlockStruct → Prop} {c : Blockchain} {b : BlockStruct}
    (hc : Agrees crypto Genesis c) (hnext : c.height + 1 = b.height) (hb : Hashed crypto b) :
    Agrees crypto Genesis (c.putBlock b.height b) := by
  have hget : ∀ height, (c.putBlock b.height b).dbBlockchain.get? height
      = if height = b.height then some b else c.dbBlockchain.get? height :=
    fun height => Store.get?_put _ _ _ _
  have hold : ∀ height ≤ c.height, (c.putBlock b.height b).dbBlockchain.get? height
      = c.dbBlockchain.get? height := by
    intro height hle
    rw [hget, if_neg (by omega)]
  refine ⟨?_, hc.below, ?_, ?_, ?_⟩
  · intro height b' hb'
    exact (hold height (hc.below height b' hb')).trans (hc.cached height b' hb')
  · intro b' hb'
    exact (hold c.height (Nat.le_refl _)).trans (hc.latest b' hb')
  · intro height b' hb'
    rw [hget] at hb'
    split at hb'
    next heq =>
      obtain rfl := Option.some.inj hb'
      exact heq.symm
    next => exact hc.keyed height b' hb'
  · intro height b' hb'
    rw [hget] at hb'
    split at hb'
    next heq =>
      obtain rfl := Option.some.inj hb'
      exact Or.inl hb
    next => exact hc.hashed height b' hb'

theorem get?_putBlock_self (c : Blockchain) (b : BlockStruct) :
    (c.putBlock b.height b).dbBlockchain.get? b.height = some b :=
  (Store.get?_put _ _ _ _).trans (if_pos rfl)

theorem Agrees.add {Genesis : BlockStruct → Prop} {c c' : Blockchain} {b : BlockStruct}
    {answer : Bool} (hc : Agrees crypto Genesis c) (hu : Unclamped c.toLedger (commandsOf b.tx))
    (h : c.add crypto b answer = .added c') : Agrees crypto Genesis c' := by
  unfold Blockchain.add at h
  split at h
  next haccepts =>
    dsimp only at h
    -- Without a clamp the block that is cached is the block that was stored.
    rw [processState_snd_iff.mpr hu] at h
    split at h
    next d hcache =>
      obtain rfl : d = c' := AddResult.added.inj h
      obtain ⟨hnext, -, hwf, -⟩ := (accepts_iff crypto).mp haccepts
      have hput := hc.putBlock hnext hwf.hash
      have hbelow : ∀ height b', (c.putBlock b.height b).mapBlocks.get? height = some b' →
          height ≤ b.height :=
        fun height b' hb' => hnext ▸ Nat.le_succ_of_le (hput.below height b' hb')
      exact Agrees.updateCache
        (c := (c.putBlock b.height b).setLedger (c.toLedger.processState b.tx).1)
        hput.keyed hput.hashed (fun height b' hb' _ => hput.cached height b' hb') hbelow
        (get?_putBlock_self c b) hcache
    next => exact nomatch h
  next => exact nomatch h

/-- **A block is cached as it is stored if and only if none of its commands is
clamped.** -/
theorem agrees_add_iff {Genesis : BlockStruct → Prop} {c c' : Blockchain} {b : BlockStruct}
    {answer : Bool} (hc : Agrees crypto Genesis c) (h : c.add crypto b answer = .added c') :
    Agrees crypto Genesis c' ↔ Unclamped c.toLedger (commandsOf b.tx) := by
  constructor
  · intro hc'
    have hspec := add_spec crypto h
    have hlatest := hc'.latest _ hspec.latestBlock
    -- The latest block carries the written transactions, the stored one the signed ones.
    rw [hspec.dbBlockchain, hspec.height, Store.get?_put, if_pos rfl] at hlatest
    have htx := congrArg BlockStruct.tx (Option.some.inj hlatest)
    exact processState_snd_iff.mp htx.symm
  · intro hu
    exact hc.add hu h

/-- **A replay caches what is stored**, from the lowest block to the highest. -/
theorem Agrees.replay {Genesis : BlockStruct → Prop} {answers : Nat → Bool} :
    ∀ {c c' : Blockchain} {bs : List BlockStruct}, Agrees crypto Genesis c →
      (∀ b ∈ bs, c.dbBlockchain.get? b.height = some b ∧ c.height ≤ b.height) →
        bs.Pairwise (fun b b' => b.height < b'.height) →
          Unclamped c.toLedger (committedCommands bs) → c.replay answers bs = some c' →
            Agrees crypto Genesis c'
  | c, c', [], hc, _, _, _, h => by
      obtain rfl := Option.some.inj h
      exact hc
  | c, c', b :: bs, hc, hstored, hsorted, hu, h => by
      obtain ⟨hb, hbs⟩ := List.forall_mem_cons.mp hstored
      obtain ⟨habove, hsorted⟩ := List.pairwise_cons.mp hsorted
      obtain ⟨hub, hubs⟩ := unclamped_append.mp (show Unclamped c.toLedger
        (commandsOf b.tx ++ committedCommands bs) from hu)
      unfold Blockchain.replay at h
      dsimp only at h
      -- The block is cached as it stands in the store, which a replay does not write to.
      rw [processState_snd_iff.mpr hub] at h
      split at h
      next d hcache =>
        have hspec := updateCache_spec hcache
        have hd : Agrees crypto Genesis d := by
          refine Agrees.updateCache hc.keyed hc.hashed ?_ ?_ hb.1 hcache
          · exact fun height b' hb' _ => hc.cached height b' hb'
          · exact fun height b' hb' => Nat.le_trans (hc.below height b' hb') hb.2
        refine Agrees.replay (c := d.setLedger (c.toLedger.processState b.tx).1)
          ⟨hd.cached, hd.below, hd.latest, hd.keyed, hd.hashed⟩ ?_ hsorted ?_ h
        · intro b' hb'
          show d.dbBlockchain.get? b'.height = some b' ∧ d.height ≤ b'.height
          rw [hspec.dbBlockchain, hspec.height]
          exact ⟨(hbs b' hb').1, Nat.le_of_lt (habove b' hb')⟩
        · rw [toLedger_setLedger, processState_fst]
          exact hubs
      next => exact nomatch h

/-! ## §3. New processes and resets. -/

/-- What the store has does not depend on what is cached. -/
theorem Agrees.uncached {Genesis : BlockStruct → Prop} {c : Blockchain}
    (hkeyed : ∀ height b, c.dbBlockchain.get? height = some b → b.height = height)
    (hhashed : ∀ height b, c.dbBlockchain.get? height = some b → Hashed crypto b ∨ Genesis b)
    (hblocks : c.mapBlocks = .empty) (hlatest : c.latestBlock = none) :
    Agrees crypto Genesis c := by
  refine ⟨fun height b hb => ?_, fun height b hb => ?_, fun b hb => ?_, hkeyed, hhashed⟩
  · rw [hblocks] at hb
    exact nomatch hb
  · rw [hblocks] at hb
    exact nomatch hb
  · rw [hlatest] at hb
    exact nomatch hb

/-- A stored block stands under its height. -/
theorem stored_of_keyed {c : Blockchain}
    (hkeyed : ∀ height b, c.dbBlockchain.get? height = some b → b.height = height) :
    ∀ b ∈ c.chain, c.dbBlockchain.get? b.height = some b := by
  intro b hb
  obtain ⟨⟨height, b'⟩, hentry, heq⟩ := List.mem_map.mp hb
  obtain rfl : b' = b := heq
  have hget := (Store.get?_eq_some_iff c.dbBlockchain height b').mpr hentry
  rw [hkeyed height b' hget]
  exact hget

/-- The store goes through its blocks by their heights. -/
theorem sorted_of_keyed {c : Blockchain}
    (hkeyed : ∀ height b, c.dbBlockchain.get? height = some b → b.height = height) :
    c.chain.Pairwise fun b b' => b.height < b'.height := by
  have hplace : ∀ e ∈ c.dbBlockchain.entries, e.2.height = e.1 := by
    intro e he
    exact hkeyed e.1 e.2 ((Store.get?_eq_some_iff c.dbBlockchain e.1 e.2).mpr he)
  refine List.pairwise_map.mpr (c.dbBlockchain.sorted.imp_of_mem ?_)
  intro e e' he he' hlt
  rw [hplace e he, hplace e' he']
  exact hlt

/-- **A new process** caches what the last one has stored, even if that has ended in
the middle of a call. -/
theorem Agrees.restart {Genesis : BlockStruct → Prop} {c c' : Blockchain} {answers : Nat → Bool}
    {maxBlocks : Nat}
    (hkeyed : ∀ height b, c.dbBlockchain.get? height = some b → b.height = height)
    (hhashed : ∀ height b, c.dbBlockchain.get? height = some b → Hashed crypto b ∨ Genesis b)
    (hu : Unclamped Ledger.fresh (committedCommands c.chain))
    (h : c.restart answers maxBlocks = some c') : Agrees crypto Genesis c' := by
  set d : Blockchain := { fresh c.publicKey maxBlocks with dbBlockchain := c.dbBlockchain } with hd
  have hstart : Agrees crypto Genesis d.rewind := .uncached hkeyed hhashed rfl rfl
  refine hstart.replay ?_ (sorted_of_keyed hkeyed) hu h
  exact fun b hb => ⟨stored_of_keyed hkeyed b hb, Nat.zero_le _⟩

/-- **A reset** stores the genesis block under 1, whatever its own height. -/
theorem Agrees.reset {Genesis : BlockStruct → Prop} {c c' : Blockchain} {answers : Nat → Bool}
    {genesis : BlockStruct} (hone : genesis.height = 1) (hgenesis : Genesis genesis)
    (hu : Unclamped c.clear.toLedger (commandsOf genesis.tx))
    (h : c.reset answers genesis = some c') : Agrees crypto Genesis c' := by
  have hget : ∀ height, (Store.empty.put 1 genesis : Store Nat BlockStruct).get? height
      = if height = 1 then some genesis else none := fun height => Store.get?_put _ _ _ _
  change Blockchain.replay _ _ [genesis] = some c' at h
  refine Agrees.replay (Agrees.uncached ?_ ?_ rfl rfl) ?_ (List.pairwise_singleton _ _) ?_ h
  · intro height b hb
    change (Store.empty.put 1 genesis).get? height = some b at hb
    rw [hget] at hb
    split at hb
    next heq =>
      obtain rfl := Option.some.inj hb
      exact hone.trans heq.symm
    next => exact nomatch hb
  · intro height b hb
    change (Store.empty.put 1 genesis).get? height = some b at hb
    rw [hget] at hb
    split at hb
    · obtain rfl := Option.some.inj hb
      exact Or.inr hgenesis
    · exact nomatch hb
  · intro b hb
    obtain rfl := List.mem_singleton.mp hb
    refine ⟨?_, Nat.zero_le _⟩
    show (Store.empty.put 1 b).get? b.height = some b
    rw [hget, if_pos hone]
  · show Unclamped _ (commandsOf genesis.tx ++ [])
    rw [List.append_nil]
    exact hu

/-! ## §4. A clamped stake. -/

/-- Peers 1 and 2 propose to take two from the stake of peer 0, which is one. -/
def clampedBlock : BlockStruct :=
  { proposalBlock ['a'] (-2) with tx := [proposalTx 1 ['a'] (-2), proposalTx 2 ['a'] (-2)] }

def clampedCrypto : Crypto :=
  tableCrypto [genesisText 3, hashText BLOCK_VERSION (label 43 0) clampedBlock.tx 2]
    [(keyOf 0, label 43 1), (keyOf 1, signedText 2 [proposal (keyOf 0) ['a'] (-2)]),
      (keyOf 2, signedText 2 [proposal (keyOf 0) ['a'] (-2)]), (keyOf 1, label 43 1)]

def clampedChain : Blockchain :=
  match (sampleStart 0).add clampedCrypto clampedBlock true with
  | .added c => c
  | _ => fresh [] 0

/-- **A clamped stake**: the cached block has a stake that was never signed. -/
theorem cache_differs :
    ¬ ∀ c, Lives clampedCrypto (keyOf 0) c → ∀ height b, c.mapBlocks.get? height = some b →
      c.dbBlockchain.get? height = some b := by
  intro hclaim
  have hadd : (sampleStart 0).add clampedCrypto clampedBlock true = .added clampedChain := by
    decide +kernel
  have hsame := hclaim clampedChain (.add (.reset .boot start_sampleStart) hadd) 2
  have hdiffer : clampedChain.mapBlocks.get? 2 ≠ clampedChain.dbBlockchain.get? 2 := by
    decide +kernel
  cases hcached : clampedChain.mapBlocks.get? 2 with
  | none => exact absurd hcached (by decide +kernel)
  | some b => exact hdiffer (hcached.trans (hsame b hcached).symm)

end Blockchain

end Divachain
