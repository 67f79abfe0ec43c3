/-
  Divachain.Chain.Accounting — the running total of the stakes.

  `quorumWeighted` is kept by three commands separately.  No command changes
  what it has beyond the sum of the stakes (`surplus`).  `Accounted` is the
  invariant of a ledger that starts without: the total is the sum of the
  stakes, and no stake is negative.  An accounted ledger is an electorate, so
  two quorums in it share a peer with stake: that is quorum intersection for
  blocks.
-/
import Divachain.Chain.Run
import Divachain.Chain.TableCrypto
import Divachain.Lib.Electorate
import Mathlib.Algebra.Order.Group.Int

namespace Divachain

open DataKit

/-! ## §1. One command. -/

/-- What the running total has beyond the sum of the stakes. -/
def surplus (l : Ledger) : Int := l.quorumWeighted - OrdMap.total Peer.stake l.mapPeer

theorem surplus_congr {l l' : Ledger} (hpeer : l'.mapPeer = l.mapPeer)
    (htotal : l'.quorumWeighted = l.quorumWeighted) : surplus l' = surplus l := by
  rw [surplus, surplus, hpeer, htotal]

theorem surplus_join {l : Ledger} {http udp publicKey : Text} (hnew : l.hasPeer publicKey = false) :
    surplus (l.join http udp publicKey) = surplus l := by
  unfold surplus Ledger.join
  rw [OrdMap.total_set, OrdMap.weightAt_of_not_has hnew]
  dsimp only
  omega

theorem surplus_leave {l : Ledger} {publicKey : Text} {peer : Peer}
    (hpeer : l.mapPeer.get? publicKey = some peer) :
    surplus (l.leave publicKey peer) = surplus l := by
  unfold surplus Ledger.leave
  rw [OrdMap.total_delete, OrdMap.weightAt_of_get? hpeer]
  dsimp only
  omega

theorem surplus_effect {l : Ledger} {origin publicKey ident : Text} {stake : Int} {peer : Peer}
    (hpeer : l.mapPeer.get? publicKey = some peer) :
    surplus (l.effect origin publicKey ident stake peer) = surplus l := by
  unfold surplus Ledger.effect
  rw [OrdMap.total_set, OrdMap.weightAt_of_get? hpeer]
  dsimp only
  omega

/-- **Total and stakes move together**, whatever the command. -/
theorem surplus_apply (l : Ledger) (oc : Text × Command) : surplus (l.apply oc) = surplus l := by
  have hchange := l.change_apply oc
  generalize l.apply oc = l', oc.2.body = body at hchange ⊢
  cases hchange with
  | none _ => rfl
  | join hnew => exact surplus_join hnew
  | leave hpeer => exact surplus_leave hpeer
  | tally _ => exact surplus_congr rfl rfl
  | effect heffect => exact surplus_effect heffect.peer_eq
  | data => exact surplus_congr rfl rfl
  | decision _ => exact surplus_congr rfl rfl

theorem surplus_applyTx (l : Ledger) (tx : List TransactionStruct) :
    surplus (l.applyTx tx) = surplus l :=
  Ledger.applyTx_induction (P := fun l' => surplus l' = surplus l)
    (fun l' oc h => (surplus_apply l' oc).trans h) rfl tx

/-- No stake is negative. -/
def NonnegStakes (l : Ledger) : Prop := ∀ peer ∈ l.mapPeer.values, 0 ≤ peer.stake

/-- The clamp keeps a stake from dropping below zero. -/
theorem stake_add_clampStake_nonneg (peer : Peer) (stake : Int) :
    0 ≤ peer.stake + Ledger.clampStake peer stake := by
  unfold Ledger.clampStake
  split <;> omega

theorem nonnegStakes_apply {l : Ledger} (hl : NonnegStakes l) (oc : Text × Command) :
    NonnegStakes (l.apply oc) := by
  have hchange := l.change_apply oc
  generalize l.apply oc = l', oc.2.body = body at hchange ⊢
  cases hchange with
  | none _ => exact hl
  -- A new peer starts with stake one; only an effect can lower a stake, and it is clamped.
  | join _ =>
      intro peer hpeer
      rcases OrdMap.mem_values_set hpeer with rfl | hpeer
      · exact Int.zero_le_ofNat 1
      · exact hl peer hpeer
  | leave _ => exact fun other hother => hl other (OrdMap.mem_values_delete hother)
  | tally _ => exact hl
  | @effect _ _ stake peer _ =>
      intro other hother
      rcases OrdMap.mem_values_set hother with rfl | hother
      · exact stake_add_clampStake_nonneg peer stake
      · exact hl other hother
  | data => exact hl
  | decision _ => exact hl

/-! ## §2. The invariant. -/

/-- **The total is the sum of the stakes, and no stake is negative.** -/
structure Accounted (l : Ledger) : Prop where
  total_eq : l.quorumWeighted = OrdMap.total Peer.stake l.mapPeer
  nonneg : ∀ peer ∈ l.mapPeer.values, 0 ≤ peer.stake

namespace Accounted

theorem fresh : Accounted Ledger.fresh := ⟨rfl, fun _ h => absurd h List.not_mem_nil⟩

/-- **Every command keeps the accounts.** -/
theorem apply {l : Ledger} (hl : Accounted l) (oc : Text × Command) : Accounted (l.apply oc) := by
  refine ⟨?_, nonnegStakes_apply hl.nonneg oc⟩
  have hsame := surplus_apply l oc
  have htotal := hl.total_eq
  unfold surplus at hsame
  omega

theorem applyTx {l : Ledger} (hl : Accounted l) (tx : List TransactionStruct) :
    Accounted (l.applyTx tx) :=
  Ledger.applyTx_induction (P := Accounted) (fun _ oc h => h.apply oc) hl tx

theorem applyBlocks {l : Ledger} (hl : Accounted l) (bs : List BlockStruct) :
    Accounted (l.applyBlocks bs) := by
  induction bs generalizing l with
  | nil => exact hl
  | cons b bs ih => exact ih (hl.applyTx b.tx)

end Accounted

/-! ## §3. An accounted ledger is an electorate. -/

theorem getStake_eq_weightAt (l : Ledger) (publicKey : Text) :
    l.getStake publicKey = OrdMap.weightAt Peer.stake l.mapPeer publicKey := by
  unfold Ledger.getStake OrdMap.weightAt
  cases l.mapPeer.get? publicKey <;> rfl

/-- The peers vote with their stakes. -/
def electorate (l : Ledger) (hl : Accounted l) : Electorate Text Int where
  members := l.mapPeer.keys.toFinset
  weight := l.getStake
  nonneg publicKey := by
    unfold Ledger.getStake
    split
    next peer hpeer => exact hl.nonneg peer (OrdMap.mem_values_of_get? hpeer)
    next => exact le_refl _
  stranger publicKey h := by
    rw [List.mem_toFinset] at h
    rw [Ledger.getStake, (OrdMap.get?_eq_none_iff _ _).mpr h]

theorem electorate_total {l : Ledger} (hl : Accounted l) :
    (electorate l hl).total = l.quorumWeighted := by
  show ∑ publicKey ∈ l.mapPeer.keys.toFinset, l.getStake publicKey = _
  have hfun : l.getStake = OrdMap.weightAt Peer.stake l.mapPeer :=
    funext (getStake_eq_weightAt l)
  rw [hfun, List.sum_toFinset _ l.mapPeer.keys_nodup, hl.total_eq]
  exact OrdMap.sum_weightAt_keys Peer.stake l.mapPeer

/-- **Two quorums share a peer with stake.** -/
theorem Accounted.quorums_meet {l : Ledger} (hl : Accounted l) {a₁ a₂ : List Text}
    (hn₁ : a₁.Nodup) (hn₂ : a₂.Nodup) (h₁ : l.hasQuorumWeighted a₁ = true)
    (h₂ : l.hasQuorumWeighted a₂ = true) :
    ∃ publicKey, publicKey ∈ a₁ ∧ publicKey ∈ a₂ ∧ 0 < l.getStake publicKey := by
  have hmajority : ∀ a : List Text, l.hasQuorumWeighted a = true →
      (electorate l hl).total < (a.map l.getStake).sum + (a.map l.getStake).sum := by
    intro a ha
    have hlt : l.quorumWeighted < 2 * l.weightOf a := of_decide_eq_true ha
    rw [electorate_total hl]
    calc l.quorumWeighted < 2 * l.weightOf a := hlt
      _ = (a.map l.getStake).sum + (a.map l.getStake).sum := two_mul _
  exact (electorate l hl).majorityOf_lists hn₁ hn₂ (hmajority a₁ h₁) (hmajority a₂ h₂)

/-- **Two blocks with a quorum of votes have a voter with stake in common.** -/
theorem Accounted.votes_meet {crypto : Crypto} {l : Ledger} (hl : Accounted l)
    {b₁ b₂ : BlockStruct} (h₁ : QuorumVotes crypto l b₁) (h₂ : QuorumVotes crypto l b₂) :
    ∃ v₁ ∈ b₁.votes, ∃ v₂ ∈ b₂.votes, v₁.origin = v₂.origin ∧ 0 < l.getStake v₁.origin := by
  obtain ⟨publicKey, hin₁, hin₂, hpos⟩ :=
    hl.quorums_meet h₁.origins h₂.origins h₁.quorum h₂.quorum
  obtain ⟨v₁, hv₁, rfl⟩ := List.mem_map.mp hin₁
  obtain ⟨v₂, hv₂, heq⟩ := List.mem_map.mp hin₂
  exact ⟨v₁, hv₁, v₂, hv₂, heq.symm, hpos⟩

theorem exists_peer_of_getStake_pos {l : Ledger} {publicKey : Text}
    (h : 0 < l.getStake publicKey) :
    ∃ peer, l.mapPeer.get? publicKey = some peer ∧ 0 < peer.stake := by
  unfold Ledger.getStake at h
  split at h
  next peer hpeer => exact ⟨peer, hpeer, h⟩
  next => exact absurd h (lt_irrefl 0)

/-- A staked peer gives the ledger some stake. -/
theorem Accounted.total_pos {l : Ledger} (hl : Accounted l) {publicKey : Text}
    (h : 0 < l.getStake publicKey) : 0 < l.quorumWeighted := by
  obtain ⟨peer, hpeer, hstake⟩ := exists_peer_of_getStake_pos h
  have hmem : peer.stake ∈ l.mapPeer.values.map Peer.stake :=
    List.mem_map_of_mem (OrdMap.mem_values_of_get? hpeer)
  have hle : peer.stake ≤ (l.mapPeer.values.map Peer.stake).sum := by
    refine List.single_le_sum ?_ _ hmem
    intro stake hs
    obtain ⟨other, hother, rfl⟩ := List.mem_map.mp hs
    exact hl.nonneg other hother
  rw [hl.total_eq]
  exact lt_of_lt_of_le hstake hle

/-- A quorum has a voter with stake, as long as the total is not negative. -/
theorem exists_staked_of_nonneg {l : Ledger} (htotal : 0 ≤ l.quorumWeighted) {voters : List Text}
    (h : l.hasQuorumWeighted voters = true) : ∃ publicKey ∈ voters, 0 < l.getStake publicKey := by
  by_contra hnone
  push Not at hnone
  have hweight : l.weightOf voters ≤ 0 := by
    have hsum : (voters.map l.getStake).sum ≤ (voters.map l.getStake).length • (0 : Int) := by
      refine List.sum_le_card_nsmul _ _ fun stake hstake => ?_
      obtain ⟨publicKey, hmem, rfl⟩ := List.mem_map.mp hstake
      exact hnone publicKey hmem
    rwa [nsmul_zero] at hsum
  have hquorum : l.quorumWeighted < 2 * l.weightOf voters := of_decide_eq_true h
  omega

/-- Stakes that are not negative add up to a total that is not. -/
theorem NonnegStakes.total_nonneg {l : Ledger} (hl : NonnegStakes l) :
    0 ≤ OrdMap.total Peer.stake l.mapPeer := by
  refine List.sum_nonneg fun stake hstake => ?_
  obtain ⟨peer, hpeer, rfl⟩ := List.mem_map.mp hstake
  exact hl peer hpeer

theorem Accounted.exists_staked {l : Ledger} (hl : Accounted l) {voters : List Text}
    (h : l.hasQuorumWeighted voters = true) : ∃ publicKey ∈ voters, 0 < l.getStake publicKey :=
  exists_staked_of_nonneg (hl.total_eq ▸ NonnegStakes.total_nonneg hl.nonneg) h

namespace Blockchain

/-! ## §4. Runs. -/

/-- The accounts hold in every state of every run. -/
theorem Runs.accounted {crypto : Crypto} {publicKey : Text} {genesis : BlockStruct}
    {c : Blockchain} (h : Runs crypto publicKey genesis c) : Accounted c.toLedger := by
  induction h with
  | start h =>
      rw [(replay_spec h).ledger]
      exact Accounted.fresh.applyBlocks _
  | add _ h ih =>
      rw [(add_spec crypto h).ledger]
      exact ih.applyTx _
  | restart _ h _ =>
      rw [(replay_spec h).ledger]
      exact Accounted.fresh.applyBlocks _

/-- **Stake accounting**: in every state of every run the running total is the
sum of the stakes, and every stake is at least 0. -/
theorem stakes_accounted {crypto : Crypto} {publicKey : Text} {genesis : BlockStruct}
    {c : Blockchain} (h : Runs crypto publicKey genesis c) :
    c.quorumWeighted = (c.mapPeer.values.map Peer.stake).sum
      ∧ ∀ pk peer, c.mapPeer.get? pk = some peer → 0 ≤ peer.stake :=
  ⟨h.accounted.total_eq,
    fun _ peer hpeer => h.accounted.nonneg peer (OrdMap.mem_values_of_get? hpeer)⟩

/-- A run that adds a block with a stake proposal and a peer that leaves. -/
theorem runs_sampleLive : Runs sampleCrypto (keyOf 0) sampleGenesis (sampleLive 0 [0, 1]) := by
  have hadd : (sampleStart 0).add sampleCrypto (sampleBlock [0, 1]) true
      = .added (sampleLive 0 [0, 1]) := by decide +kernel
  exact (Runs.start start_sampleStart).add hadd

theorem stakes_of_sample :
    (sampleLive 0 [0, 1]).quorumWeighted
        = ((sampleLive 0 [0, 1]).mapPeer.values.map Peer.stake).sum
      ∧ ∀ pk peer, (sampleLive 0 [0, 1]).mapPeer.get? pk = some peer → 0 ≤ peer.stake :=
  stakes_accounted runs_sampleLive

/-- A block that could come next: all that is missing are votes. -/
structure Candidate (crypto : Crypto) (c : Blockchain) (b : BlockStruct) : Prop where
  height : c.height + 1 = b.height
  previousHash : c.latestBlock.map BlockStruct.hash = some b.previousHash
  wellFormed : WellFormedBlock crypto c.toLedger b

/-- **Quorum intersection**: of two blocks that pass with their votes and differ
in their hashes, some peer with stake has validly signed both.  So if no peer
with stake signs two candidates, `add` takes one of them at most. -/
theorem quorums_intersect {crypto : Crypto} {publicKey : Text} {genesis : BlockStruct}
    {c : Blockchain} (h : Runs crypto publicKey genesis c) :
    (∀ b₁ b₂ : BlockStruct, b₁.hash ≠ b₂.hash →
      validateBlock crypto c.toLedger b₁ true = true →
      validateBlock crypto c.toLedger b₂ true = true →
        ∃ pk peer, c.mapPeer.get? pk = some peer ∧ 0 < peer.stake
          ∧ (∃ v₁ ∈ b₁.votes, v₁.origin = pk ∧ crypto.verifySignature pk v₁.sig b₁.hash = true)
          ∧ ∃ v₂ ∈ b₂.votes, v₂.origin = pk ∧ crypto.verifySignature pk v₂.sig b₂.hash = true)
    ∧ ((∀ pk peer, c.mapPeer.get? pk = some peer → 0 < peer.stake →
          ∀ b₁ b₂ : BlockStruct, Candidate crypto c b₁ → Candidate crypto c b₂ →
            ∀ s₁ s₂, crypto.verifySignature pk s₁ b₁.hash = true →
              crypto.verifySignature pk s₂ b₂.hash = true → b₁.hash = b₂.hash) →
        ∀ b₁ b₂ : BlockStruct, c.accepts crypto b₁ = true → c.accepts crypto b₂ = true →
          b₁.hash = b₂.hash) := by
  constructor
  -- The votes of two valid blocks meet in one peer with a positive stake.
  · intro b₁ b₂ _ h₁ h₂
    obtain ⟨-, hv₁⟩ := validateBlock_true_iff.mp h₁
    obtain ⟨-, hv₂⟩ := validateBlock_true_iff.mp h₂
    obtain ⟨v₁, hin₁, v₂, hin₂, horigin, hpos⟩ := h.accounted.votes_meet hv₁ hv₂
    obtain ⟨peer, hpeer, hstake⟩ := exists_peer_of_getStake_pos hpos
    refine ⟨v₁.origin, peer, hpeer, hstake, ⟨v₁, hin₁, rfl, hv₁.verified v₁ hin₁⟩,
      v₂, hin₂, horigin.symm, ?_⟩
    rw [horigin]
    exact hv₂.verified v₂ hin₂
  -- A peer that signs one candidate only therefore forces the two hashes to be equal.
  · intro honce b₁ b₂ h₁ h₂
    obtain ⟨hheight₁, hprev₁, hwf₁, hv₁⟩ := (accepts_iff crypto).mp h₁
    obtain ⟨hheight₂, hprev₂, hwf₂, hv₂⟩ := (accepts_iff crypto).mp h₂
    obtain ⟨v₁, hin₁, v₂, hin₂, horigin, hpos⟩ := h.accounted.votes_meet hv₁ hv₂
    obtain ⟨peer, hpeer, hstake⟩ := exists_peer_of_getStake_pos hpos
    exact honce v₁.origin peer hpeer hstake b₁ b₂ ⟨hheight₁, hprev₁, hwf₁⟩
      ⟨hheight₂, hprev₂, hwf₂⟩ v₁.sig v₂.sig (hv₁.verified v₁ hin₁)
      (horigin ▸ hv₂.verified v₂ hin₂)

/-- Two second blocks, voted for by peers 0 and 1 and by peers 1 and 2. -/
theorem quorums_of_sample :
    ∃ pk peer, (sampleStart 0).mapPeer.get? pk = some peer ∧ 0 < peer.stake
      ∧ (∃ v₁ ∈ (sampleBlock [0, 1]).votes, v₁.origin = pk
          ∧ sampleCrypto.verifySignature pk v₁.sig (sampleBlock [0, 1]).hash = true)
      ∧ ∃ v₂ ∈ (sampleRival [1, 2]).votes, v₂.origin = pk
          ∧ sampleCrypto.verifySignature pk v₂.sig (sampleRival [1, 2]).hash = true := by
  exact (quorums_intersect (Runs.start start_sampleStart : Runs sampleCrypto _ _ _)).1
    (sampleBlock [0, 1]) (sampleRival [1, 2]) (by decide +kernel) (by decide +kernel)
    (by decide +kernel)

end Blockchain

end Divachain
