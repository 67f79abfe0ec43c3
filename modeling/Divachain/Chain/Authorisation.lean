/-
  Divachain.Chain.Authorisation — who has voted for a stake change.

  A proposal is tallied under publicKey, ident and stake written one after the
  other.  `TallyTraced` is what the tallies mean: every voter under a key has
  a committed proposal with that key, and nothing has taken effect under the
  key since.  Where no two committed proposals share a key without being the
  same proposal, a change that takes effect is therefore backed by a quorum
  that voted for exactly this change.
-/
import Divachain.Chain.Run

namespace Divachain

open DataKit Ledger

/-! ## §1. Histories of commands. -/

/-- The commands of a chain with their origins, in the order they are applied. -/
def committedCommands (bs : List BlockStruct) : List (Text × Command) :=
  bs.flatMap fun b => commandsOf b.tx

/-- The ledger before the `n`-th command. -/
def stateAt (cs : List (Text × Command)) (n : Nat) : Ledger :=
  (cs.take n).foldl Ledger.apply Ledger.fresh

theorem stateAt_succ {cs : List (Text × Command)} {n : Nat} {oc : Text × Command}
    (h : cs[n]? = some oc) : stateAt cs (n + 1) = (stateAt cs n).apply oc := by
  rw [stateAt, List.take_add_one, h, List.foldl_append]
  rfl

/-- The last of these states is the ledger of the chain. -/
theorem stateAt_committedCommands (bs : List BlockStruct) :
    stateAt (committedCommands bs) (committedCommands bs).length
      = Ledger.fresh.applyBlocks bs := by
  rw [stateAt, List.take_length]
  generalize Ledger.fresh = l
  induction bs generalizing l with
  | nil => rfl
  | cons b bs ih =>
      rw [committedCommands, List.flatMap_cons, List.foldl_append]
      exact ih (l.applyTx b.tx)

/-- The `n`-th command is this proposal. -/
def ProposedAt (cs : List (Text × Command)) (n : Nat)
    (origin publicKey ident : Text) (stake : Int) : Prop :=
  ∃ c : Command, cs[n]? = some (origin, c) ∧ c.body = .modifyStake publicKey ident stake

/-- The `n`-th command is this proposal, and applying it changes the stake of `peer`. -/
def EffectAt (cs : List (Text × Command)) (n : Nat)
    (origin publicKey ident : Text) (stake : Int) (peer : Peer) : Prop :=
  ProposedAt cs n origin publicKey ident stake
    ∧ (stateAt cs n).TakesEffect origin publicKey ident stake peer

/-- Some proposal under the key `i` takes effect. -/
def KeyConsumedAt (cs : List (Text × Command)) (n : Nat) (i : Text) : Prop :=
  ∃ origin publicKey ident stake peer,
    EffectAt cs n origin publicKey ident stake peer ∧ stakeKey publicKey ident stake = i

/-- `voter` has voted for the proposal, and no change to it has used the vote
up before the `n`-th command. -/
def StandingVote (cs : List (Text × Command)) (n : Nat) (voter publicKey ident : Text)
    (stake : Int) : Prop :=
  ∃ j ≤ n, ProposedAt cs j voter publicKey ident stake
    ∧ ∀ m, j ≤ m → m < n → ∀ origin peer, ¬ EffectAt cs m origin publicKey ident stake peer

/-- **The change is authorised**: peers other than the one it is about, with
more than half of the stakes, have standing votes for exactly this change. -/
def Authorised (cs : List (Text × Command)) (n : Nat) (publicKey ident : Text)
    (stake : Int) : Prop :=
  ∃ origins : List Text, origins.Nodup ∧ publicKey ∉ origins
    ∧ (stateAt cs n).quorumWeighted < 2 * (stateAt cs n).weightOf origins
    ∧ ∀ voter ∈ origins, StandingVote cs n voter publicKey ident stake

/-- No two proposals are tallied under one key unless they are the same. -/
def Unambiguous (cs : List (Text × Command)) : Prop :=
  ∀ i j origin origin' publicKey publicKey' ident ident' stake stake',
    ProposedAt cs i origin publicKey ident stake →
    ProposedAt cs j origin' publicKey' ident' stake' →
    stakeKey publicKey ident stake = stakeKey publicKey' ident' stake' →
      publicKey = publicKey' ∧ ident = ident' ∧ stake = stake'

/-! ## §2. What the tallies mean. -/

/-- A vote under the key `i` that nothing has used up before the `n`-th command. -/
def TracedVote (cs : List (Text × Command)) (n : Nat) (i voter : Text) : Prop :=
  ∃ j < n, ∃ publicKey ident stake, ProposedAt cs j voter publicKey ident stake
    ∧ stakeKey publicKey ident stake = i ∧ publicKey ≠ voter
    ∧ ∀ m, j ≤ m → m < n → ¬ KeyConsumedAt cs m i

/-- **Every tallied voter has a traced vote**, and is tallied once. -/
structure TallyTraced (cs : List (Text × Command)) (n : Nat) : Prop where
  nodup : ∀ i, ((stateAt cs n).votersAt i).Nodup
  traced : ∀ i, ∀ voter ∈ (stateAt cs n).votersAt i, TracedVote cs n i voter

theorem TracedVote.step {cs : List (Text × Command)} {n : Nat} {i voter : Text}
    (h : TracedVote cs n i voter) (hn : ¬ KeyConsumedAt cs n i) :
    TracedVote cs (n + 1) i voter := by
  obtain ⟨j, hj, publicKey, ident, stake, hprop, hkey, hforeign, hunused⟩ := h
  refine ⟨j, by omega, publicKey, ident, stake, hprop, hkey, hforeign, ?_⟩
  intro m hjm hmn
  rcases Nat.lt_succ_iff_lt_or_eq.mp hmn with hlt | rfl
  · exact hunused m hjm hlt
  · exact hn

/-- A key is consumed by a proposal under that key only. -/
theorem KeyConsumedAt.proposal {cs : List (Text × Command)} {n : Nat} {i origin : Text}
    {c : Command} (h : KeyConsumedAt cs n i) (hn : cs[n]? = some (origin, c)) :
    ∃ publicKey ident stake peer, c.body = .modifyStake publicKey ident stake
      ∧ stakeKey publicKey ident stake = i
      ∧ (stateAt cs n).TakesEffect origin publicKey ident stake peer := by
  obtain ⟨origin', publicKey, ident, stake, peer, ⟨⟨c', hc', hbody⟩, heffect⟩, hkey⟩ := h
  obtain ⟨rfl, rfl⟩ : origin = origin' ∧ c = c' := by
    rw [hn] at hc'
    exact Prod.mk.injEq .. ▸ Option.some.inj hc'
  exact ⟨publicKey, ident, stake, peer, hbody, hkey, heffect⟩

theorem tallyTraced_zero (cs : List (Text × Command)) : TallyTraced cs 0 :=
  ⟨fun _ => List.nodup_nil, fun _ _ h => absurd h List.not_mem_nil⟩

/-- A command that leaves the tallies alone and consumes no key. -/
theorem TallyTraced.keep {cs : List (Text × Command)} {n : Nat} (h : TallyTraced cs n)
    (hsame : ∀ i, (stateAt cs (n + 1)).votersAt i = (stateAt cs n).votersAt i)
    (hunused : ∀ i, ¬ KeyConsumedAt cs n i) : TallyTraced cs (n + 1) := by
  constructor
  · intro i
    rw [hsame]
    exact h.nodup i
  · intro i voter hv
    rw [hsame] at hv
    exact (h.traced i voter hv).step (hunused i)

/-- **One command keeps the tallies traced.** -/
theorem TallyTraced.step {cs : List (Text × Command)} {n : Nat} (h : TallyTraced cs n)
    {origin : Text} {c : Command} (hn : cs[n]? = some (origin, c)) : TallyTraced cs (n + 1) := by
  obtain ⟨seq, body, keys⟩ := c
  by_cases hbody : ∀ publicKey ident stake, body ≠ .modifyStake publicKey ident stake
  -- a command of another kind leaves the tallies alone
  · have hsame : ∀ i, (stateAt cs (n + 1)).votersAt i = (stateAt cs n).votersAt i := by
      intro i
      rw [stateAt_succ hn, votersAt, mapModifyStake_apply hbody]
      rfl
    have hunused : ∀ i, ¬ KeyConsumedAt cs n i := by
      intro i hi
      obtain ⟨publicKey, ident, stake, -, heq, -⟩ := hi.proposal hn
      exact hbody publicKey ident stake heq
    exact h.keep hsame hunused
  push Not at hbody
  obtain ⟨publicKey, ident, stake, rfl⟩ := hbody
  have hstep : stateAt cs (n + 1)
      = ((stateAt cs n).modifyStake origin publicKey ident stake).1 := stateAt_succ hn
  have hproposed : ProposedAt cs n origin publicKey ident stake := ⟨_, hn, rfl⟩
  have hconsumed : ∀ i, KeyConsumedAt cs n i →
      stakeKey publicKey ident stake = i
        ∧ ∃ peer, (stateAt cs n).TakesEffect origin publicKey ident stake peer := by
    intro i hi
    obtain ⟨_, _, _, peer, heq, hkey, heffect⟩ := hi.proposal hn
    obtain ⟨rfl, rfl, rfl⟩ := CommandBody.modifyStake.inj heq
    exact ⟨hkey, peer, heffect⟩
  rcases (stateAt cs n).modifyStake_cases origin publicKey ident stake with
    ⟨hno, hl⟩ | ⟨hno, hforeign, hcounted, hl⟩ | ⟨peer, heffect, hl⟩
  · have hsame : stateAt cs (n + 1) = stateAt cs n := by rw [hstep, hl]
    refine h.keep (fun i => by rw [hsame]) ?_
    intro i hi
    exact (hconsumed i hi).2.elim hno
  · have htallied : stateAt cs (n + 1) = (stateAt cs n).tallied origin publicKey ident stake := by
      rw [hstep, hl]
    constructor
    · intro i
      rw [htallied, votersAt_tallied]
      split
      · exact List.nodup_append.mpr ⟨h.nodup _, List.nodup_singleton origin,
          fun a ha b hb hab => hcounted (List.mem_singleton.mp hb ▸ hab ▸ ha)⟩
      · exact h.nodup i
    · intro i voter hv
      rw [htallied, votersAt_tallied] at hv
      split at hv
      next hi =>
        rcases List.mem_append.mp hv with hv | hv
        · exact hi ▸ (h.traced _ voter hv).step fun hi => (hconsumed _ hi).2.elim hno
        · obtain rfl := List.mem_singleton.mp hv
          refine ⟨n, Nat.lt_succ_self n, publicKey, ident, stake, hproposed, hi.symm, hforeign, ?_⟩
          intro m hm hm'
          obtain rfl : m = n := by omega
          exact fun hi => (hconsumed i hi).2.elim hno
      next => exact (h.traced i voter hv).step fun hi => (hconsumed i hi).2.elim hno
  · have heff : stateAt cs (n + 1)
        = (stateAt cs n).effect origin publicKey ident stake peer := by rw [hstep, hl]
    constructor
    · intro i
      rw [heff, votersAt_effect]
      split
      · exact List.nodup_nil
      · exact h.nodup i
    · intro i voter hv
      rw [heff, votersAt_effect] at hv
      split at hv
      · exact absurd hv List.not_mem_nil
      next hi => exact (h.traced i voter hv).step fun hused => hi (hconsumed i hused).1.symm

/-- **The tallies are traced throughout a history.** -/
theorem tallyTraced {cs : List (Text × Command)} : ∀ {n : Nat}, n ≤ cs.length → TallyTraced cs n
  | 0, _ => tallyTraced_zero cs
  | n + 1, h => by
      have hn : cs[n]? = some cs[n] := List.getElem?_eq_getElem h
      exact (tallyTraced (Nat.le_of_succ_le h)).step hn

/-! ## §3. Authorisation. -/

theorem authorised_of_unambiguous {cs : List (Text × Command)} (hcs : Unambiguous cs) {n : Nat}
    {origin publicKey ident : Text} {stake : Int} {peer : Peer}
    (hproposed : ProposedAt cs n origin publicKey ident stake)
    (heffect : (stateAt cs n).TakesEffect origin publicKey ident stake peer) :
    Authorised cs n publicKey ident stake := by
  have hn : n < cs.length := by
    obtain ⟨c, hc, -⟩ := hproposed
    exact (List.getElem?_eq_some_iff.mp hc).1
  have htally := tallyTraced (Nat.le_of_lt hn)
  have hvoter : ∀ voter ∈ (stateAt cs n).votersAt (stakeKey publicKey ident stake),
      publicKey ≠ voter ∧ StandingVote cs n voter publicKey ident stake := by
    intro voter hv
    obtain ⟨j, hj, publicKey', ident', stake', hprop, hkey, hforeign, hunused⟩ :=
      htally.traced _ voter hv
    -- a vote under the same key is a vote for the same change
    obtain ⟨rfl, rfl, rfl⟩ := hcs _ _ _ _ _ _ _ _ _ _ hprop hproposed hkey
    refine ⟨hforeign, j, Nat.le_of_lt hj, hprop, ?_⟩
    intro m hjm hmn origin' peer' heffect'
    exact hunused m hjm hmn ⟨origin', _, _, _, peer', heffect', rfl⟩
  refine ⟨(stateAt cs n).votersAt (stakeKey publicKey ident stake) ++ [origin], ?_, ?_, ?_, ?_⟩
  · exact List.nodup_append.mpr ⟨htally.nodup _, List.nodup_singleton origin,
      fun a ha b hb hab => heffect.counted (List.mem_singleton.mp hb ▸ hab ▸ ha)⟩
  · intro hin
    rcases List.mem_append.mp hin with hin | hin
    · exact (hvoter publicKey hin).1 rfl
    · exact heffect.foreign (List.mem_singleton.mp hin)
  · exact of_decide_eq_true heffect.quorum
  · intro voter hin
    rcases List.mem_append.mp hin with hin | hin
    · exact (hvoter voter hin).2
    · obtain rfl := List.mem_singleton.mp hin
      exact ⟨n, Nat.le_refl n, hproposed, fun m hm hm' => absurd hm (Nat.not_le_of_lt hm')⟩

/-- What a proposal does to the stake it is about: it leaves it alone, or it
changes it by `max(stake, -current)` and is authorised. -/
def ProposalSound (cs : List (Text × Command)) (n : Nat) (origin publicKey ident : Text)
    (stake : Int) : Prop :=
  ((∀ peer, ¬ EffectAt cs n origin publicKey ident stake peer)
      ∧ (stateAt cs (n + 1)).getStake publicKey = (stateAt cs n).getStake publicKey)
    ∨ ((stateAt cs (n + 1)).getStake publicKey
          = (stateAt cs n).getStake publicKey + max stake (-(stateAt cs n).getStake publicKey)
        ∧ Authorised cs n publicKey ident stake)

theorem getStake_effect {l : Ledger} {origin publicKey ident : Text} {stake : Int} {peer : Peer}
    (h : l.mapPeer.get? publicKey = some peer) :
    (l.effect origin publicKey ident stake peer).getStake publicKey
      = l.getStake publicKey + max stake (-l.getStake publicKey) := by
  have hnow : l.getStake publicKey = peer.stake := by rw [getStake, h]
  rw [hnow, getStake, effect]
  dsimp only
  rw [OrdMap.get?_set_self, clampStake]
  dsimp only
  split <;> omega

theorem proposalSound_of_unambiguous {cs : List (Text × Command)} (hcs : Unambiguous cs) {n : Nat}
    {origin publicKey ident : Text} {stake : Int}
    (h : ProposedAt cs n origin publicKey ident stake) :
    ProposalSound cs n origin publicKey ident stake := by
  have hstep : stateAt cs (n + 1)
      = ((stateAt cs n).modifyStake origin publicKey ident stake).1 := by
    obtain ⟨⟨_, _, _⟩, hc, rfl⟩ := h
    exact stateAt_succ hc
  rcases (stateAt cs n).modifyStake_cases origin publicKey ident stake with
    ⟨hno, hl⟩ | ⟨hno, _, _, hl⟩ | ⟨peer, heffect, hl⟩
  · exact Or.inl ⟨fun peer hp => hno peer hp.2, by rw [hstep, hl]⟩
  · exact Or.inl ⟨fun peer hp => hno peer hp.2, by rw [hstep, hl]; rfl⟩
  · refine Or.inr ⟨?_, authorised_of_unambiguous hcs h heffect⟩
    rw [hstep, hl]
    exact getStake_effect heffect.peer_eq

namespace Blockchain

/-- **Stake changes are authorised** in every run that commits no two different
proposals under one key. -/
theorem stake_changes_authorised {crypto : Crypto} {publicKey : Text} {genesis : BlockStruct}
    {c : Blockchain} (hg : 1 ≤ genesis.height) (h : Runs crypto publicKey genesis c)
    (hcs : Unambiguous (committedCommands c.chain)) :
    c.toLedger = stateAt (committedCommands c.chain) (committedCommands c.chain).length
      ∧ ∀ n origin pk ident stake, ProposedAt (committedCommands c.chain) n origin pk ident stake →
          ProposalSound (committedCommands c.chain) n origin pk ident stake :=
  ⟨by rw [(h.stored hg).ledger, stateAt_committedCommands],
    fun _ _ _ _ _ hproposed => proposalSound_of_unambiguous hcs hproposed⟩

/-! ## §4. Two proposals: under one key, and under one key by accident. -/

def proposal (publicKey ident : Text) (stake : Int) : Command :=
  { seq := 1
    body := .modifyStake publicKey ident stake
    keys := [.seq, .command, .publicKey, .ident, .stake] }

/-- A transaction of peer `i` that proposes a stake change for peer 0. -/
def proposalTx (i : Nat) (ident : Text) (stake : Int) : TransactionStruct :=
  { ident := ['t']
    origin := keyOf i
    commands := [proposal (keyOf 0) ident stake]
    sig := label 86 i
    keys := TransactionStruct.fields }

/-- Peer 1 proposes 12 as `a`, peer 2 proposes something. -/
def proposalBlock (ident : Text) (stake : Int) : BlockStruct :=
  { version := BLOCK_VERSION
    previousHash := label 43 0
    hash := label 43 1
    tx := [proposalTx 1 ['a'] 12, proposalTx 2 ident stake]
    height := 2
    votes := [{ origin := keyOf 0, sig := label 86 0 }, { origin := keyOf 1, sig := label 86 3 }] }

def proposalCrypto (ident : Text) (stake : Int) : Crypto :=
  tableCrypto
    [genesisText 3, hashText BLOCK_VERSION (label 43 0) (proposalBlock ident stake).tx 2]
    [(keyOf 0, label 43 1), (keyOf 1, signedText 2 [proposal (keyOf 0) ['a'] 12]),
      (keyOf 2, signedText 2 [proposal (keyOf 0) ident stake]), (keyOf 1, label 43 1)]

def proposalChain (ident : Text) (stake : Int) : Blockchain :=
  match (sampleStart 0).add (proposalCrypto ident stake) (proposalBlock ident stake) true with
  | .added c => c
  | _ => fresh [] 0

/-- Everything committed there. -/
def proposalHistory (ident : Text) (stake : Int) : List (Text × Command) :=
  [(zeros 43, addPeerOf 0), (zeros 43, addPeerOf 1), (zeros 43, addPeerOf 2),
    (keyOf 1, proposal (keyOf 0) ['a'] 12), (keyOf 2, proposal (keyOf 0) ident stake)]

/-- Both peers have voted for the change that takes effect. -/
theorem stake_changes_of_proposalChain :
    ProposalSound (committedCommands (proposalChain ['a'] 12).chain) 4 (keyOf 2) (keyOf 0)
      ['a'] 12 := by
  have hadd : (sampleStart 0).add (proposalCrypto ['a'] 12) (proposalBlock ['a'] 12) true
      = .added (proposalChain ['a'] 12) := by decide +kernel
  have hhistory : committedCommands (proposalChain ['a'] 12).chain = proposalHistory ['a'] 12 := by
    decide +kernel
  -- All proposals of the history are one, so none shares its key with another.
  have hone : ∀ oc ∈ proposalHistory ['a'] 12,
      oc.2 = proposal (keyOf 0) ['a'] 12 ∨ oc.2 ∈ (List.range 3).map addPeerOf := by
    decide +kernel
  refine (stake_changes_authorised (by decide) ((Runs.start start_sampleStart).add hadd) ?_).2
    _ _ _ _ _ ⟨proposal (keyOf 0) ['a'] 12, by rw [hhistory]; rfl, rfl⟩
  rw [hhistory]
  have hsame : ∀ i origin publicKey ident stake,
      ProposedAt (proposalHistory ['a'] 12) i origin publicKey ident stake →
        publicKey = keyOf 0 ∧ ident = ['a'] ∧ stake = 12 := by
    rintro i origin publicKey ident stake ⟨c, hc, hbody⟩
    rcases hone (origin, c) (List.mem_of_getElem? hc) with rfl | hpeer
    · obtain ⟨h1, h2, h3⟩ := CommandBody.modifyStake.inj hbody
      exact ⟨h1.symm, h2.symm, h3.symm⟩
    · obtain ⟨k, -, rfl⟩ := List.mem_map.mp hpeer
      exact nomatch hbody
  intro i j _ _ _ _ _ _ _ _ hi hj _
  obtain ⟨rfl, rfl, rfl⟩ := hsame _ _ _ _ _ hi
  obtain ⟨rfl, rfl, rfl⟩ := hsame _ _ _ _ _ hj
  exact ⟨rfl, rfl, rfl⟩

/-- Peer 2 proposes 2 as `a1`: it alone has voted for what takes effect. -/
theorem stake_changes_unauthorised :
    ¬ ∀ c, Runs (proposalCrypto ['a', '1'] 2) (keyOf 0) sampleGenesis c →
      ∀ n origin pk ident stake, ProposedAt (committedCommands c.chain) n origin pk ident stake →
        ProposalSound (committedCommands c.chain) n origin pk ident stake := by
  intro hclaim
  have hadd : (sampleStart 0).add (proposalCrypto ['a', '1'] 2) (proposalBlock ['a', '1'] 2) true
      = .added (proposalChain ['a', '1'] 2) := by decide +kernel
  have hhistory : committedCommands (proposalChain ['a', '1'] 2).chain
      = proposalHistory ['a', '1'] 2 := by decide +kernel
  have hsound := hclaim _ ((Runs.start start_sampleStart).add hadd)
  rw [hhistory] at hsound
  have hbefore : (stateAt (proposalHistory ['a', '1'] 2) 4).getStake (keyOf 0) = 1 := by
    decide +kernel
  have hafter : (stateAt (proposalHistory ['a', '1'] 2) 5).getStake (keyOf 0) = 3 := by
    decide +kernel
  rcases hsound 4 (keyOf 2) (keyOf 0) ['a', '1'] 2 ⟨proposal (keyOf 0) ['a', '1'] 2, rfl, rfl⟩ with
    ⟨-, hsame⟩ | ⟨-, origins, hnodup, -, hquorum, hstanding⟩
  · rw [hbefore, hafter] at hsame
    exact absurd hsame (by decide)
  have honly : ∀ oc ∈ proposalHistory ['a', '1'] 2,
      oc.2.body = .modifyStake (keyOf 0) ['a', '1'] 2 → oc.1 = keyOf 2 := by decide +kernel
  have hall : ∀ voter ∈ origins, voter = keyOf 2 := by
    intro voter hv
    obtain ⟨j, -, ⟨c, hc, hbody⟩, -⟩ := hstanding voter hv
    exact honly (voter, c) (List.mem_of_getElem? hc) hbody
  have htotal : (stateAt (proposalHistory ['a', '1'] 2) 4).quorumWeighted = 3 := by
    decide +kernel
  have hone : (stateAt (proposalHistory ['a', '1'] 2) 4).getStake (keyOf 2) = 1 := by
    decide +kernel
  -- a list without repetitions whose only possible member is peer 2
  have hrep := List.eq_replicate_of_mem hall
  have hlen : origins.length ≤ 1 := List.nodup_replicate.mp (hrep ▸ hnodup)
  rw [htotal, hrep, weightOf, List.map_replicate, hone, List.sum_replicate, nsmul_one] at hquorum
  omega

end Blockchain

end Divachain
