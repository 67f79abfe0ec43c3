/-
  Divachain.Net.Agreement — no two nodes commit different blocks at a height.

  The chain of every node is a validated sequence over the genesis block
  (`Settled`), its votes are genuine (`Backed`), and an honest node signs one
  hash at a height (`Signing`).  So two chains of the system have the same
  votes wherever a voter stands in both, and validated chains with that
  property agree (`Validated.same_hash`).

  Without the second condition of `Steady` they need not: the last section
  has a run in which one node signs two candidates of two validators.
-/
import Divachain.Net.System
import Divachain.Chain.Agreement

namespace Divachain

open DataKit
open Consensus (Settled Signing Backed)
open Blockchain (Validated SameVotes)

namespace System

/-! ## §1. The invariant. -/

variable {ι : Type} {crypto : Crypto} {genesis : BlockStruct} {key : ι → Text}

/-- The signature is one the node with this key has made. -/
def Genuine (crypto : Crypto) (key : ι → Text) (s : System ι) (origin sig : Text) : Prop :=
  ∃ i, key i = origin ∧ ∃ e ∈ (s.nodes i).signed, sig = crypto.sign origin e.2

/-- **Every node is settled, signs once, and all votes around are genuine.** -/
structure Sound (crypto : Crypto) (genesis : BlockStruct) (key : ι → Text) (s : System ι) :
    Prop where
  publicKey : ∀ i, (s.nodes i).chain.publicKey = key i
  settled : ∀ i, Settled crypto genesis [genesis] (s.nodes i).toConsensus
  signing : ∀ i, Signing crypto (s.nodes i).toConsensus
  backed : ∀ i, Backed (Genuine crypto key s) genesis.height (s.nodes i).toConsensus
  served : BlocksIn (Genuine crypto key s) genesis.height s.served

theorem sound_start {maxBlocks : ι → Nat} {answers : ι → Nat → Bool} {chain : ι → Blockchain}
    (hg : 1 ≤ genesis.height)
    (hstart : ∀ i, (Blockchain.fresh (key i) (maxBlocks i)).reset (answers i) genesis
      = some (chain i)) : Sound crypto genesis key (start chain) := by
  refine ⟨?_, ?_, ?_, ?_, fun _ h => (nomatch h)⟩
  · intro i
    exact (Blockchain.replay_spec (hstart i)).publicKey
  · intro i
    exact Consensus.settled_start .genesis (Blockchain.holds_start hg (hstart i))
  · intro i
    exact Consensus.signing_start (Blockchain.cached_start (hstart i)).1
  · intro i
    -- the one block there is has no height above that of the genesis block
    refine Consensus.backed_start ?_ ?_
    · intro b hb habove
      have hstored : (chain i).dbBlockchain.values = [genesis] :=
        (Blockchain.holds_start hg (hstart i)).stored
      rw [hstored] at hb
      obtain rfl := List.mem_singleton.mp hb
      exact absurd habove (Nat.lt_irrefl _)
    · intro b hb habove
      rw [(Blockchain.cached_start (hstart i)).2 b hb] at habove
      exact absurd habove (Nat.lt_irrefl _)

/-- A genuine message brings genuine votes. -/
theorem Sound.kind_in {s : System ι} (h : Sound crypto genesis key s) {n : Node} {turn : Turn}
    {e : Node.Event} (hnet : s.Deliverable e) {kind : Kind} (hfrom : kind.from n turn e) :
    kind.In (Genuine crypto key s) genesis.height := by
  cases kind with
  | propose pool => trivial
  -- A proposal was sent by some node, and nothing is sent without its votes being
  -- genuine.
  | accept b =>
      obtain ⟨m, rfl, hdata, -⟩ := hfrom
      obtain ⟨i, hm⟩ := hnet
      rw [hdata] at hm
      have hvotes := ((h.backed i).sent m hm).1
      rwa [hdata] at hvotes
  | vote origin hash sig =>
      obtain ⟨m, rfl, hdata, rfl, -⟩ := hfrom
      obtain ⟨i, hm⟩ := hnet
      rw [hdata] at hm
      exact ((h.backed i).sent m hm).2 hash sig hdata
  | confirm hash votes =>
      obtain ⟨m, rfl, hdata, -⟩ := hfrom
      obtain ⟨i, hm⟩ := hnet
      rw [hdata] at hm
      have hvotes := ((h.backed i).sent m hm).1
      rwa [hdata] at hvotes
  -- A sync answer comes from the chain of some node.
  | answer blocks =>
      obtain rfl : e = .syncAnswer blocks := hfrom
      exact fun b hb => h.served b (hnet b hb)
  | drop => trivial
  | command oc => trivial
  | commit t => trivial
  | other => trivial

/-- A chain never falls below its genesis block. -/
theorem genesis_le {c : Consensus} (h : Settled crypto genesis [genesis] c) :
    genesis.height ≤ c.chain.height := by
  have hheight := h.height
  cases hlast : ([genesis] ++ c.committed).getLast? with
  | none =>
      rw [hlast] at hheight
      exact nomatch hheight
  | some last =>
      rw [hlast, Option.map_some, Option.some.injEq] at hheight
      have hplace := h.validated.height_eq (List.getLast?_eq_getElem? ▸ hlast)
      omega

theorem Sound.serve {s : System ι} (h : Sound crypto genesis key s) (i : ι) :
    Sound crypto genesis key (s.serve i) := by
  refine ⟨h.publicKey, h.settled, h.signing, h.backed, ?_⟩
  intro b hb
  rcases List.mem_append.mp hb with hb | hb
  · exact h.served b hb
  · rcases List.mem_append.mp hb with hb | hb
    · exact (h.backed i).cached b hb
    · exact (h.backed i).stored b hb

section

variable [DecidableEq ι]

/-- **A steady turn of one node keeps the whole system sound.** -/
theorem Sound.turn {s : System ι} (h : Sound crypto genesis key s) {i : ι} {turn : Turn}
    {e : Node.Event} (hnet : s.Deliverable e)
    (hok : Node.Steady crypto (s.nodes i) turn e) :
    Sound crypto genesis key (s.turn crypto i turn e) := by
  obtain ⟨kind, hfrom, hmove⟩ : ∃ kind, kind.from (s.nodes i) turn e ∧ Move crypto _ kind _ :=
    (s.nodes i).step_moves turn e
  have hself : (s.turn crypto i turn e).nodes i = (s.nodes i).step crypto turn e :=
    Function.update_self ..
  have hother : ∀ j, j ≠ i → (s.turn crypto i turn e).nodes j = s.nodes j :=
    fun j hj => Function.update_of_ne hj ..
  have hkey : ((s.nodes i).step crypto turn e).chain.publicKey = key i := by
    rw [Consensus.publicKey_of_move hmove]
    exact h.publicKey i
  -- what was genuine stays so
  have hgrow : ∀ origin sig, Genuine crypto key s origin sig →
      Genuine crypto key (s.turn crypto i turn e) origin sig := by
    intro origin sig hgenuine
    obtain ⟨j, hj, x, hx, hsig⟩ := hgenuine
    refine ⟨j, hj, x, ?_, hsig⟩
    by_cases heq : j = i
    · subst heq
      rw [hself]
      exact Consensus.signed_of_move hmove x hx
    · rw [hother j heq]
      exact hx
  refine ⟨?_, ?_, ?_, ?_, ?_⟩
  · intro j
    by_cases heq : j = i
    · subst heq
      rw [hself]
      exact hkey
    · rw [hother j heq]
      exact h.publicKey j
  · intro j
    by_cases heq : j = i
    · subst heq
      rw [hself]
      exact (h.settled j).move hmove hok.1
    · rw [hother j heq]
      exact h.settled j
  · intro j
    by_cases heq : j = i
    · subst heq
      rw [hself]
      exact (h.signing j).move (h.settled j) hmove (hok.move hfrom)
    · rw [hother j heq]
      exact h.signing j
  · intro j
    by_cases heq : j = i
    · subst heq
      rw [hself]
      refine ((h.backed j).mono hgrow).move hmove ?_ (genesis_le (h.settled j)) ?_
      · exact Kind.In.mono hgrow (h.kind_in hnet hfrom)
      · intro x hx
        refine ⟨j, (h.publicKey j).symm, x, ?_, rfl⟩
        rw [hself]
        exact hx
    · rw [hother j heq]
      exact (h.backed j).mono hgrow
  · exact fun b hb habove v hv => hgrow _ _ (h.served b hb habove v hv)

theorem Reaches.sound {s₀ s : System ι} (h : Reaches crypto (Node.Steady crypto) s₀ s)
    (hs₀ : Sound crypto genesis key s₀) : Sound crypto genesis key s := by
  induction h with
  | refl => exact hs₀
  | turn _ i turn e hnet hok ih => exact ih.turn hnet hok
  | serve _ i ih => exact ih.serve i

end

/-! ## §2. Agreement. -/

/-- The chain of node `i`. -/
def blocks (genesis : BlockStruct) (s : System ι) (i : ι) : List BlockStruct :=
  [genesis] ++ (s.nodes i).committed

/-- A block above the genesis block has votes of nodes only. -/
theorem Sound.votes_genuine {s : System ι} (h : Sound crypto genesis key s) {i : ι}
    {b : BlockStruct} (hb : b ∈ blocks genesis s i) (habove : genesis.height < b.height) :
    VotesIn (Genuine crypto key s) b.votes := by
  rcases List.mem_append.mp hb with hb | hb
  · obtain rfl := List.mem_singleton.mp hb
    exact absurd habove (Nat.lt_irrefl _)
  · exact (h.backed i).committed b hb

/-- **A voter for two blocks at one height has signed one hash.** -/
theorem Sound.sameVotes {s : System ι} (h : Sound crypto genesis key s)
    (hinj : crypto.HashInjective) (hsound : crypto.SignSound) (hkey : Function.Injective key)
    (i j : ι) : SameVotes crypto genesis (blocks genesis s i) (blocks genesis s j) := by
  intro b hb c hc habove hheight v hv w hw horigin hverified hverified'
  have habove' : genesis.height < c.height := hheight ▸ habove
  obtain ⟨a, hkeyA, x, hx, hsig⟩ := h.votes_genuine hb habove v hv
  obtain ⟨a', hkeyA', y, hy, hsig'⟩ := h.votes_genuine hc habove' w hw
  obtain rfl : a = a' := hkey (hkeyA.trans (horigin.trans hkeyA'.symm))
  -- both hashes are in the record of this node
  rw [hsig] at hverified
  rw [hsig'] at hverified'
  have hxb : x.2 = b.hash := hsound _ _ _ hverified
  have hyc : y.2 = c.hash := hsound _ _ _ hverified'
  -- and the height they were signed at is in the hashed text
  have hplace : ∀ z ∈ (s.nodes a).signed, ∀ d : BlockStruct, genesis.height < d.height →
      crypto.hash (hashText d.version d.previousHash d.tx d.height) = d.hash → z.2 = d.hash →
        z.1 + 1 = d.height := by
    intro z hz d _ hdhash hzd
    obtain ⟨version, previousHash, tx, htext⟩ := (h.signing a).text z hz
    exact hashText_height (hinj (htext.symm.trans (hzd.trans hdhash.symm)))
  have hxheight := hplace x hx b habove ((h.settled i).validated.hash_eq hb habove) hxb
  have hyheight := hplace y hy c habove' ((h.settled j).validated.hash_eq hc habove') hyc
  rw [← hxb, ← hyc]
  exact (h.signing a).once x hx y hy (by omega)

/-- **Agreement.**  In every run of steady turns, blocks that two nodes commit
at one height have one hash. -/
theorem agreement [DecidableEq ι] {maxBlocks : ι → Nat} {answers : ι → Nat → Bool}
    {chain : ι → Blockchain} (hinj : crypto.HashInjective) (hsound : crypto.SignSound) (hkey : Function.Injective key)
    (hg : 1 ≤ genesis.height)
    (hstart : ∀ i, (Blockchain.fresh (key i) (maxBlocks i)).reset (answers i) genesis
      = some (chain i))
    {s : System ι} (h : Reaches crypto (Node.Steady crypto) (start chain) s) (i j : ι)
    {b c : BlockStruct} (hb : b ∈ (s.nodes i).committed) (hc : c ∈ (s.nodes j).committed)
    (hheight : b.height = c.height) : b.hash = c.hash := by
  have hs : Sound crypto genesis key s := h.sound (sound_start hg hstart)
  have hbi : b ∈ blocks genesis s i := List.mem_append_right _ hb
  have hcj : c ∈ blocks genesis s j := List.mem_append_right _ hc
  have hvotes := hs.sameVotes hinj hsound hkey
  rcases Nat.le_total (blocks genesis s i).length (blocks genesis s j).length with hlen | hlen
  · exact (hs.settled i).validated.same_hash hinj (hs.settled j).validated (hvotes i j) hlen hbi
      hcj hheight
  · exact ((hs.settled j).validated.same_hash hinj (hs.settled i).validated (hvotes j i) hlen hcj
      hbi hheight.symm).symm

/-! ## §3. Two validators at one height. -/

/-- What comes in was sent by another node. -/
def FromOthers (s : System ι) (i : ι) : Node.Event → Prop
  | .message m => ∃ j, j ≠ i ∧ m ∈ (s.nodes j).outbox m.data
  | .syncAnswer _ => False
  | _ => True

/-- One node takes a few turns while the others wait. -/
theorem Reaches.runNode [DecidableEq ι] {ok : Node → Turn → Node.Event → Prop} {s₀ : System ι}
    {i : ι} :
    ∀ {l : List (Turn × Node.Event)} {s : System ι} {n : Node}, Reaches crypto ok s₀ s →
      s.nodes i = n → (∀ x ∈ l, s.FromOthers i x.2) → Node.Allowed crypto ok n l →
        ∃ s', Reaches crypto ok s₀ s' ∧ s'.nodes i = n.run crypto l
          ∧ ∀ j, j ≠ i → s'.nodes j = s.nodes j
  | [], s, n, h, hn, _, _ => ⟨s, h, hn, fun _ _ => rfl⟩
  | x :: l, s, n, h, hn, hothers, hok => by
      have hother : ∀ j, j ≠ i → (s.turn crypto i x.1 x.2).nodes j = s.nodes j :=
        fun j hj => Function.update_of_ne hj ..
      -- What the others have sent stays in their outboxes while node `i` runs, so the run
      -- may be played within the system, turn by turn.
      have hnet : s.Deliverable x.2 := by
        have hx := hothers x List.mem_cons_self
        generalize x.2 = e at hx
        cases e with
        | message m =>
            obtain ⟨j, -, hm⟩ := hx
            exact ⟨j, hm⟩
        | syncAnswer blocks => exact hx.elim
        | _ => trivial
      have hself : (s.turn crypto i x.1 x.2).nodes i = n.step crypto x.1 x.2 := by
        rw [← hn]
        exact Function.update_self ..
      obtain ⟨s', hs', hi, hrest⟩ := Reaches.runNode (h.turn i x.1 x.2 hnet (hn ▸ hok.1)) hself
        (fun y hy => by
          have hy' := hothers y (List.mem_cons_of_mem x hy)
          generalize y.2 = e at hy'
          cases e with
          | message m =>
              obtain ⟨j, hj, hm⟩ := hy'
              exact ⟨j, hj, (hother j hj) ▸ hm⟩
          | syncAnswer blocks => exact hy'.elim
          | _ => trivial) hok.2
      exact ⟨s', hs', hi, fun j hj => (hrest j hj).trans (hother j hj)⟩

open Blockchain (sampleGenesis sampleStart)

/-- The note node `i` wants to have on the chain. -/
def forkNote (i : Nat) : Command :=
  { seq := 1
    body := .data ['t', 'e', 's', 't', ':', 'a'] (natText i)
    keys := [.seq, .command, .ns, .d] }

def forkTx (i : Nat) : TransactionStruct :=
  { ident := ['t']
    origin := keyOf i
    commands := [forkNote i]
    sig := label 86 i
    keys := TransactionStruct.fields }

/-- Node `i` has its own transaction in the block with hash `label 43 (i + 1)`. -/
def forkCrypto : Crypto :=
  tableCrypto
    [genesisText 3, hashText BLOCK_VERSION (label 43 0) [forkTx 0] 2,
      hashText BLOCK_VERSION (label 43 0) [forkTx 1] 2]
    [(keyOf 0, signedText 2 [forkNote 0]), (keyOf 1, signedText 2 [forkNote 1]),
      (keyOf 0, label 43 1), (keyOf 1, label 43 2), (keyOf 2, label 43 1), (keyOf 2, label 43 2)]

def forkBlock (i : Nat) : BlockStruct :=
  { version := BLOCK_VERSION
    previousHash := label 43 0
    hash := label 43 (i + 1)
    tx := [forkTx i]
    height := 2
    votes := [{ origin := keyOf i, sig := label 86 (i + 2) }] }

/-- The candidate of node `i`, and the vote of node 2 for it. -/
def forkProposal (i : Nat) : Message := Node.messageOf i (.proposeBlock (forkBlock i))

def forkVote (i : Nat) : Message :=
  { Node.messageOf 2 (.signBlock (label 43 (i + 1)) (label 86 (i + 4))) with dest := keyOf i }

/-- A view in which node 1 is offline. -/
def withoutOne : Turn :=
  { Node.allOnline with isOnline := fun publicKey => decide (publicKey ≠ keyOf 1) }

/-- A node stacks its note and, as the validator it takes itself for, proposes. -/
def proposing (turn : Turn) (i : Nat) : List (Turn × Node.Event) :=
  [(turn, .p2pNetwork), (turn, .stackTx [forkNote i] ['t']), (turn, .timeoutProposeBlock)]

/-- A message starts a call of `add`, which is resumed until it returns. -/
def adding (turn : Turn) (m : Message) : List (Turn × Node.Event) :=
  [(turn, .message m), (turn, .resumeAdd 0), (turn, .resumeAdd 0)]

def proposer (turn : Turn) (i : Nat) : Node :=
  (Node.start (sampleStart i)).run forkCrypto (proposing turn i)

/-- Node 2 votes for one candidate, and then perhaps for another one. -/
def voting : List (Turn × Node.Event) :=
  [(Node.allOnline, .p2pNetwork), (Node.allOnline, .message (forkProposal 1))]

def votingTwice : List (Turn × Node.Event) :=
  voting ++ [(withoutOne, .message (forkProposal 0))]

def voter (l : List (Turn × Node.Event)) : Node := (Node.start (sampleStart 2)).run forkCrypto l

def committer (turn : Turn) (i : Nat) : Node :=
  (proposer turn i).run forkCrypto (adding turn (forkVote i))

theorem start_samples : ∀ i : Fin 3,
    (Blockchain.fresh (keyOf i) 100).reset (fun _ => true) sampleGenesis = some (sampleStart i) := by
  decide +kernel

/-- What a node does without messages. -/
theorem fromOthers_proposing (s : System ι) (i : ι) (turn : Turn) (k : Nat) :
    ∀ x ∈ proposing turn k, s.FromOthers i x.2 := by
  intro x hx
  simp only [proposing, List.mem_cons, List.not_mem_nil, or_false] at hx
  rcases hx with rfl | rfl | rfl <;> trivial

theorem fromOthers_adding {s : System ι} {i j : ι} {m : Message} (turn : Turn) (hj : j ≠ i)
    (hm : m ∈ (s.nodes j).outbox m.data) : ∀ x ∈ adding turn m, s.FromOthers i x.2 := by
  intro x hx
  simp only [adding, List.mem_cons, List.not_mem_nil, or_false] at hx
  rcases hx with rfl | rfl | rfl
  · exact ⟨j, hj, hm⟩
  · trivial
  · trivial

def forkStart : System (Fin 3) := start fun i => sampleStart i

/-- Node 1 proposes while all are online, node 0 while node 1 is not. -/
theorem two_candidates :
    ∃ s, Reaches forkCrypto (Node.Sequential forkCrypto) forkStart s
      ∧ s.nodes 0 = proposer withoutOne 0 ∧ s.nodes 1 = proposer Node.allOnline 1
      ∧ s.nodes 2 = Node.start (sampleStart 2) := by
  have h₀ : Reaches forkCrypto (Node.Sequential forkCrypto) forkStart forkStart := .refl
  have hone : forkStart.nodes 1 = Node.start (sampleStart 1) := rfl
  have hzero : forkStart.nodes 0 = Node.start (sampleStart 0) := rfl
  obtain ⟨s₁, h₁, hself₁, hrest₁⟩ :=
    h₀.runNode hone (fromOthers_proposing _ 1 Node.allOnline 1) (by decide +kernel)
  obtain ⟨s₂, h₂, hself₂, hrest₂⟩ :=
    h₁.runNode ((hrest₁ 0 (by decide)).trans hzero) (fromOthers_proposing _ 0 withoutOne 0)
      (by decide +kernel)
  exact ⟨s₂, h₂, hself₂, (hrest₂ 1 (by decide)).trans hself₁,
    (hrest₂ 2 (by decide)).trans (hrest₁ 2 (by decide))⟩

/-- Node 2 votes for both. -/
theorem two_votes :
    ∃ s, Reaches forkCrypto (Node.Sequential forkCrypto) forkStart s
      ∧ s.nodes 0 = proposer withoutOne 0 ∧ s.nodes 1 = proposer Node.allOnline 1
      ∧ s.nodes 2 = voter votingTwice := by
  obtain ⟨s, h, hzero, hone, htwo⟩ := two_candidates
  have hothers : ∀ x ∈ votingTwice, s.FromOthers 2 x.2 := by
    intro x hx
    simp only [votingTwice, voting, List.cons_append, List.nil_append, List.mem_cons,
      List.not_mem_nil, or_false] at hx
    rcases hx with rfl | rfl | rfl
    · trivial
    · refine ⟨1, by decide, ?_⟩
      rw [hone]
      decide +kernel
    · refine ⟨0, by decide, ?_⟩
      rw [hzero]
      decide +kernel
  obtain ⟨s', h', hself, hrest⟩ := h.runNode htwo hothers (by decide +kernel)
  exact ⟨s', h', (hrest 0 (by decide)).trans hzero, (hrest 1 (by decide)).trans hone, hself⟩

/-- **Two blocks at one height.**  Node 1 proposes while all are online, node 0
once node 1 has left, node 2 votes for both: each has two votes of three. -/
theorem disagreement :
    ¬ ∀ s, Reaches forkCrypto (Node.Sequential forkCrypto) forkStart s →
      ∀ i j b c, b ∈ (s.nodes i).committed → c ∈ (s.nodes j).committed →
        b.height = c.height → b.hash = c.hash := by
  intro hclaim
  obtain ⟨s, h, hzero, hone, htwo⟩ := two_votes
  -- Node 2 has voted for both candidates: each vote completes the quorum of its proposer.
  have hvote₁ : forkVote 1 ∈ (s.nodes 2).outbox (forkVote 1).data := by
    rw [htwo]
    decide +kernel
  obtain ⟨s₁, h₁, hself₁, hrest₁⟩ :=
    h.runNode hone (fromOthers_adding Node.allOnline (by decide) hvote₁) (by decide +kernel)
  have hvote₀ : forkVote 0 ∈ (s₁.nodes 2).outbox (forkVote 0).data := by
    rw [hrest₁ 2 (by decide), htwo]
    decide +kernel
  obtain ⟨s₂, h₂, hself₂, hrest₂⟩ :=
    h₁.runNode ((hrest₁ 0 (by decide)).trans hzero)
      (fromOthers_adding withoutOne (by decide) hvote₀) (by decide +kernel)
  have hone₂ : s₂.nodes 1 = committer Node.allOnline 1 := (hrest₂ 1 (by decide)).trans hself₁
  -- Nodes 0 and 1 have committed different blocks at one height.
  have hblocks : ∃ b ∈ (committer withoutOne 0).committed,
      ∃ c ∈ (committer Node.allOnline 1).committed, b.height = c.height ∧ b.hash ≠ c.hash := by
    decide +kernel
  have hzero₂ : s₂.nodes 0 = committer withoutOne 0 := hself₂
  rw [← hzero₂, ← hone₂] at hblocks
  obtain ⟨b, hb, c, hc, hheight, hne⟩ := hblocks
  exact hne (hclaim s₂ h₂ 0 1 b c hb hc hheight)

/-- The confirmation node 1 sends once the vote of node 2 is in. -/
def forkConfirm : Message :=
  Node.messageOf 1 (.confirmBlock (label 43 2)
    [{ origin := keyOf 1, sig := label 86 3 }, { origin := keyOf 2, sig := label 86 5 }])

def follower : Node := (voter voting).run forkCrypto (adding Node.allOnline forkConfirm)

/-- With one candidate, nodes 1 and 2 commit the same block. -/
theorem agreement_of_sample :
    ∃ s : System (Fin 3), s.nodes 1 = committer Node.allOnline 1 ∧ s.nodes 2 = follower
      ∧ (∃ b ∈ (s.nodes 1).committed, ∃ c ∈ (s.nodes 2).committed, b.height = c.height)
      ∧ ∀ b ∈ (s.nodes 1).committed, ∀ c ∈ (s.nodes 2).committed,
          b.height = c.height → b.hash = c.hash := by
  have h₀ : Reaches forkCrypto (Node.Steady forkCrypto) forkStart forkStart := .refl
  have hone : forkStart.nodes 1 = Node.start (sampleStart 1) := rfl
  obtain ⟨s₁, h₁, hself₁, hrest₁⟩ :=
    h₀.runNode hone (fromOthers_proposing _ 1 Node.allOnline 1) (by decide +kernel)
  -- Node 1 proposes, node 2 votes, node 1 commits and confirms, node 2 follows.
  have hothers : ∀ x ∈ voting, s₁.FromOthers 2 x.2 := by
    intro x hx
    simp only [voting, List.mem_cons, List.not_mem_nil, or_false] at hx
    rcases hx with rfl | rfl
    · trivial
    · refine ⟨1, by decide, ?_⟩
      rw [hself₁]
      decide +kernel
  have htwo : s₁.nodes 2 = Node.start (sampleStart 2) := hrest₁ 2 (by decide)
  obtain ⟨s₂, h₂, hself₂, hrest₂⟩ := h₁.runNode htwo hothers (by decide +kernel)
  have hvote : forkVote 1 ∈ (s₂.nodes 2).outbox (forkVote 1).data := by
    rw [hself₂]
    decide +kernel
  obtain ⟨s₃, h₃, hself₃, hrest₃⟩ :=
    h₂.runNode ((hrest₂ 1 (by decide)).trans hself₁)
      (fromOthers_adding Node.allOnline (by decide) hvote) (by decide +kernel)
  have hconfirm : forkConfirm ∈ (s₃.nodes 1).outbox forkConfirm.data := by
    rw [hself₃]
    decide +kernel
  obtain ⟨s₄, h₄, hself₄, hrest₄⟩ :=
    h₃.runNode ((hrest₃ 2 (by decide)).trans hself₂)
      (fromOthers_adding Node.allOnline (by decide) hconfirm) (by decide +kernel)
  have hone₄ : s₄.nodes 1 = committer Node.allOnline 1 := (hrest₄ 1 (by decide)).trans hself₃
  have htwo₄ : s₄.nodes 2 = follower := hself₄
  refine ⟨s₄, hone₄, htwo₄, ?_, ?_⟩
  · rw [hone₄, htwo₄]
    decide +kernel
  · intro b hb c hc hheight
    have hkey : Function.Injective fun i : Fin 3 => keyOf i := by
      intro i j hij
      exact Fin.ext (label_injective 43 hij)
    exact agreement (tableCrypto_hashInjective _ _) (tableCrypto_signBinding _ _).sound hkey
      (by decide) start_samples h₄ 1 2 hb hc hheight

end System

end Divachain
