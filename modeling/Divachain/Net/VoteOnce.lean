/-
  Divachain.Net.VoteOnce — a node signs one hash at a height, if it is careful.

  Two places sign, and neither remembers what was signed at this height.  What
  the node has at hand is its candidate: `VotedOnce` says that everything
  signed at the current height is the hash of the candidate it holds.  The
  turns that break this are named by `Careful`: a candidate that is replaced
  by another one, and a retry that drops it.
-/
import Divachain.Net.ExactlyOnce

namespace Divachain

open DataKit

namespace Consensus

/-! ## §1. The invariant. -/

/-- **What is signed at the current height is the candidate's hash**, and at
every height one hash is signed. -/
structure VotedOnce (c : Consensus) : Prop where
  past : ∀ e ∈ c.signed, e.1 ≤ c.chain.height
  held : ∀ e ∈ c.signed, e.1 = c.chain.height → ∃ b, c.held = some b ∧ b.hash = e.2
  once : ∀ e ∈ c.signed, ∀ e' ∈ c.signed, e.1 = e'.1 → e.2 = e'.2

variable {crypto : Crypto} {genesis : BlockStruct} {base : List BlockStruct} {c : Consensus}

theorem votedOnce_start (chain : Blockchain) : VotedOnce (start chain) :=
  ⟨fun _ h => (nomatch h), fun _ h => (nomatch h), fun _ h => (nomatch h)⟩

/-- Only the height, the signatures and the hash of the candidate matter. -/
theorem VotedOnce.congr {c' : Consensus} (h : VotedOnce c)
    (hheight : c'.chain.height = c.chain.height) (hsigned : c'.signed = c.signed)
    (hheld : ∀ b, c.held = some b → ∃ b', c'.held = some b' ∧ b'.hash = b.hash) :
    VotedOnce c' := by
  refine ⟨?_, ?_, ?_⟩
  · rw [hsigned, hheight]
    exact h.past
  · rw [hsigned, hheight]
    intro e he hnow
    obtain ⟨b, hb, hhash⟩ := h.held e he hnow
    obtain ⟨b', hb', hhash'⟩ := hheld b hb
    exact ⟨b', hb', hhash'.trans hhash⟩
  · rw [hsigned]
    exact h.once

theorem held_hold (b : BlockStruct) : (c.hold b).held = some b := by
  show some ((c.alloc b).objects c.next) = _
  rw [objects_alloc_self]

theorem held_of_block {obj : Nat} (h : c.block = some obj) : c.held = some (c.objects obj) := by
  rw [held, h]
  rfl

/-! ## §2. Holding and signing a candidate. -/

/-- A new candidate, unless it replaces one with another hash. -/
theorem VotedOnce.hold (h : VotedOnce c) {b : BlockStruct}
    (hsame : ∀ b', c.held = some b' → b'.hash = b.hash) : VotedOnce (c.hold b) := by
  refine h.congr rfl rfl ?_
  intro b' hb'
  exact ⟨b, held_hold b, (hsame b' hb').symm⟩

/-- **Signing the candidate's own hash.** -/
theorem VotedOnce.sign (h : VotedOnce c) {b : BlockStruct} (hb : c.held = some b) :
    VotedOnce (c.sign b.hash) := by
  -- Whatever was signed at this height is the block still held.
  have hnow : ∀ e ∈ c.signed, e.1 = c.chain.height → e.2 = b.hash := by
    intro e he heq
    obtain ⟨b', hb', hhash⟩ := h.held e he heq
    obtain rfl : b' = b := Option.some.inj (hb'.symm.trans hb)
    exact hhash.symm
  have hcases : ∀ e ∈ (c.sign b.hash).signed,
      e ∈ c.signed ∨ e = (c.chain.height, b.hash) := by
    intro e he
    rcases List.mem_append.mp he with he | he
    · exact Or.inl he
    · exact Or.inr (List.mem_singleton.mp he)
  refine ⟨?_, ?_, ?_⟩
  · intro e he
    rcases hcases e he with he | rfl
    · exact h.past e he
    · exact Nat.le_refl _
  · intro e he heq
    refine ⟨b, hb, ?_⟩
    rcases hcases e he with he | rfl
    · exact (hnow e he heq).symm
    · rfl
  · intro e he e' he' heq
    rcases hcases e he with he | rfl
    · rcases hcases e' he' with he' | rfl
      · exact h.once e he e' he' heq
      · exact hnow e he heq
    · rcases hcases e' he' with he' | rfl
      · exact (hnow e' he' heq.symm).symm
      · rfl

/-! ## §3. What leaves the signatures alone. -/

theorem VotedOnce.writeVotes (h : VotedOnce c) (obj : Nat) (votes : List VoteStruct) :
    VotedOnce (c.write obj { c.objects obj with votes := votes }) := by
  refine h.congr rfl rfl ?_
  intro b hb
  cases hblock : c.block with
  | none =>
      rw [Consensus.held, hblock] at hb
      exact nomatch hb
  | some obj' =>
      obtain rfl : c.objects obj' = b := Option.some.inj ((held_of_block hblock).symm.trans hb)
      refine ⟨_, held_of_block hblock, ?_⟩
      by_cases heq : obj' = obj
      · subst heq
        rw [objects_write_self]
      · rw [objects_write_of_ne heq]

theorem VotedOnce.startAdd (h : VotedOnce c) (obj : Nat) (fromSync : Bool) :
    VotedOnce (c.startAdd crypto obj fromSync) := by
  rcases c.startAdd_cases crypto obj fromSync with ⟨-, hstep⟩ | ⟨-, hstep⟩
  · rw [hstep]
    exact h.congr rfl rfl fun b hb => ⟨b, hb, rfl⟩
  · rw [hstep]
    exact h

theorem VotedOnce.send (h : VotedOnce c) (m : Message) : VotedOnce (c.send m) :=
  h.congr rfl rfl fun b hb => ⟨b, hb, rfl⟩

theorem VotedOnce.setSync (h : VotedOnce c) (sync : SyncState) :
    VotedOnce { c with sync := sync } :=
  h.congr rfl rfl fun b hb => ⟨b, hb, rfl⟩

theorem VotedOnce.processSignBlock (h : VotedOnce c) (now : Nat) (origin hash sig : Text) :
    VotedOnce (c.processSignBlock crypto now origin hash sig) := by
  rcases c.processSignBlock_cases crypto now origin hash sig with
    ⟨-, hstep⟩ | ⟨obj, -, ⟨-, hstep⟩ | ⟨-, hstep⟩⟩
  · rw [hstep]
    exact h
  · rw [hstep]
    exact h.writeVotes obj _
  · have hpush : VotedOnce (c.pushVote obj { origin := origin, sig := sig }) := h.writeVotes obj _
    rw [hstep]
    exact (hpush.startAdd obj false).send _

theorem VotedOnce.approve (h : VotedOnce c) {b : BlockStruct} (hb : c.held = some b) (now : Nat)
    (validator : Text) : VotedOnce (c.approve crypto now validator b.hash) := by
  rcases c.approve_cases crypto now validator b.hash with ⟨-, hstep⟩ | ⟨-, hstep⟩
  · rw [hstep]
    exact (h.sign hb).processSignBlock _ _ _ _
  · rw [hstep]
    exact (h.sign hb).send _

theorem VotedOnce.processConfirmBlock (h : VotedOnce c) (hash : Text) (votes : List VoteStruct) :
    VotedOnce (c.processConfirmBlock crypto hash votes) := by
  rcases c.processConfirmBlock_cases crypto hash votes with hstep | ⟨obj, -, -, -, hstep⟩
  · rw [hstep]
    exact h
  · rw [hstep]
    exact (h.writeVotes obj votes).startAdd obj false

/-- A synced block gets an object of its own. -/
theorem VotedOnce.alloc (hs : Settled crypto genesis base c) (h : VotedOnce c)
    (b : BlockStruct) : VotedOnce (c.alloc b) := by
  refine h.congr rfl rfl ?_
  intro b' hb'
  cases hblock : c.block with
  | none =>
      rw [Consensus.held, hblock] at hb'
      exact nomatch hb'
  | some obj =>
      obtain rfl : c.objects obj = b' := Option.some.inj ((held_of_block hblock).symm.trans hb')
      have hold : (c.alloc b).block = some obj := hblock
      refine ⟨_, held_of_block hold, ?_⟩
      rw [objects_alloc_of_ne (Nat.ne_of_lt (hs.allocated obj hblock))]

theorem VotedOnce.continueSync (hs : Settled crypto genesis base c) (h : VotedOnce c) :
    VotedOnce (c.continueSync crypto) := by
  rcases c.continueSync_cases crypto with hstep | ⟨sync, -, hstep⟩ | ⟨b, blocks, -, -, hstep⟩
  · rw [hstep]
    exact h
  · rw [hstep]
    exact h.setSync sync
  · rw [hstep]
    exact ((h.alloc hs b).startAdd c.next true).setSync _

theorem VotedOnce.runCommand (h : VotedOnce c) (i : Nat) (t : AddTask) (oc : Text × Command) :
    VotedOnce (c.runCommand i t oc) := by
  refine h.congr rfl rfl ?_
  intro b hb
  cases hblock : c.block with
  | none =>
      rw [Consensus.held, hblock] at hb
      exact nomatch hb
  | some obj =>
      obtain rfl : c.objects obj = b := Option.some.inj ((held_of_block hblock).symm.trans hb)
      have hold : (c.runCommand i t oc).block = some obj := hblock
      obtain ⟨tx, htx⟩ := c.objects_runCommand i t oc obj
      refine ⟨_, held_of_block hold, ?_⟩
      rw [htx]

/-- **A commit moves on to a height where nothing is signed yet.** -/
theorem VotedOnce.finish (hs : Settled crypto genesis base c) (h : VotedOnce c) {i : Nat}
    {t : AddTask} {answer : Bool} {chain : Blockchain} (ht : c.adds[i]? = some t)
    (hc : c.chain.updateCache answer (c.objects t.obj) = some chain) :
    VotedOnce (c.finish i t chain) := by
  obtain ⟨-, -, happly, -⟩ := hs.task ht
  have hheight : chain.height = c.chain.height + 1 := by
    rw [(Blockchain.updateCache_spec hc).height, happly.height_eq, happly.next]
  refine ⟨?_, ?_, h.once⟩
  · intro e he
    have hpast := h.past e he
    show e.1 ≤ chain.height
    omega
  · intro e he heq
    have hpast := h.past e he
    change e.1 = chain.height at heq
    omega

/-! ## §4. Moves. -/

/-- The move does not replace a candidate by another one, and does not drop it. -/
def CarefulMove (c : Consensus) : Kind → Prop
  | .propose _ => c.block = none
  | .accept b => ∀ b', c.held = some b' → b'.hash = b.hash
  | .drop => c.block = none
  | _ => True

theorem VotedOnce.move {kind : Kind} {c' : Consensus} (hs : Settled crypto genesis base c)
    (h : VotedOnce c) (hmove : Move crypto c kind c') (hcareful : CarefulMove c kind) :
    VotedOnce c' := by
  cases hmove with
  | quiet => exact h
  | propose now pool =>
      refine (VotedOnce.sign (h.hold ?_) (held_hold _)).send _
      intro b' hb'
      -- A careful node proposes only when it holds nothing.
      have hblock : c.block = none := hcareful
      rw [Consensus.held, hblock] at hb'
      exact nomatch hb'
  | hold b hacc => exact h.hold hcareful
  | approve b now validator hacc => exact (h.hold hcareful).approve (held_hold b) now validator
  | vote now origin hash sig => exact h.processSignBlock now origin hash sig
  | confirm hash votes => exact h.processConfirmBlock hash votes
  | fetch height =>
      rcases c.fetchSync_cases height with hstep | hstep
      · rw [hstep]
        exact h
      · rw [hstep]
        exact h.setSync _
  | answer blocks =>
      rcases c.answerSync_cases blocks with hstep | hstep
      · rw [hstep]
        exact h
      · rw [hstep]
        exact h.setSync _
  | continueSync => exact h.continueSync hs
  -- Dropping is harmless only when there is nothing to drop.
  | drop =>
      have hblock : c.block = none := hcareful
      refine h.congr rfl rfl ?_
      intro b hb
      rw [Consensus.held, hblock] at hb
      exact nomatch hb
  | runCommand i t oc ht hp => exact h.runCommand i t oc
  | finish i t answer chain ht hp hc => exact h.finish hs ht hc

end Consensus

namespace Node

/-! ## §5. Runs. -/

/-- The turn starts no second call of `add`; the proposal timer does not fire
over a candidate; a candidate is not replaced by one with another hash; the
retry timer does not drop a candidate. -/
def Careful (crypto : Crypto) (n : Node) (turn : Turn) (e : Event) : Prop :=
  Sequential crypto n turn e
    ∧ match e with
      | .timeoutProposeBlock => n.timeoutProposeBlock = true → n.block = none
      | .message m => ∀ b, m.data = .proposeBlock b →
          (n.calcValidator turn).isValidator m.origin = true → n.acceptable crypto b = true →
            ∀ b', n.held = some b' → b'.hash = b.hash
      | .timeoutRetry => n.timeoutRetry = true → n.block = none
      | _ => True

theorem Careful.move {crypto : Crypto} {n : Node} {turn : Turn} {e : Event}
    (h : Careful crypto n turn e) {kind : Kind} (hfrom : kind.from n turn e)
    {c' : Consensus} (hmove : Move crypto n.toConsensus kind c') :
    Consensus.CarefulMove n.toConsensus kind := by
  -- Only a proposal, an acceptance and a drop replace the block that is held.
  obtain ⟨-, h⟩ := h
  cases kind with
  | propose pool =>
      obtain ⟨rfl, harmed, -⟩ := hfrom
      exact h harmed
  | accept b =>
      obtain ⟨m, rfl, hdata, hval⟩ := hfrom
      -- Both moves that take up a block have checked it first.
      have hacc : n.acceptable crypto b = true := by
        cases hmove with
        | hold _ hacc => exact hacc
        | approve _ _ _ hacc => exact hacc
      exact h b hdata hval hacc
  | drop =>
      obtain ⟨rfl, harmed⟩ := hfrom
      exact h harmed
  | vote origin hash sig => trivial
  | confirm hash votes => trivial
  | answer blocks => trivial
  | command oc => trivial
  | commit t => trivial
  | other => trivial

theorem Reaches.weaken {crypto : Crypto} {ok ok' : Node → Turn → Event → Prop} {n₀ n : Node}
    (himp : ∀ n turn e, ok n turn e → ok' n turn e) (h : Reaches crypto ok n₀ n) :
    Reaches crypto ok' n₀ n := by
  induction h with
  | refl => exact .refl
  | step _ turn e hok ih => exact ih.step turn e (himp _ turn e hok)

/-- **Vote once.**  In every run of careful turns, all the block hashes a node
signs while its chain is at one height are the same. -/
theorem votes_once {crypto : Crypto} {publicKey : Text} {genesis : BlockStruct}
    {chain : Blockchain} {n : Node} (hg : 1 ≤ genesis.height)
    (hchain : Blockchain.Runs crypto publicKey genesis chain)
    (h : Reaches crypto (Careful crypto) (start chain) n) (height : Nat) (hash hash' : Text)
    (hsigned : (height, hash) ∈ n.signed) (hsigned' : (height, hash') ∈ n.signed) :
    hash = hash' := by
  obtain ⟨hbs, hholds⟩ := hchain.holds hg
  have hvoted : Consensus.VotedOnce n.toConsensus := by
    clear hsigned hsigned'
    induction h with
    | refl => exact Consensus.votedOnce_start chain
    | @step m hm turn e hok ih =>
        have hs := (hm.weaken fun _ _ _ h => h.1).settled hbs hholds
        obtain ⟨kind, hfrom, hmove⟩ := m.step_moves turn e
        exact ih.move hs hmove (hok.move hfrom hmove)
  exact hvoted.once _ hsigned _ hsigned' rfl

/-! ## §6. One candidate, and two. -/

open Blockchain (sampleCrypto sampleStart sampleGenesis sampleBlock sampleRival start_sampleStart)

/-- Peer 0, once it knows its network. -/
def networked : Node := (start (sampleStart 0)).step sampleCrypto allOnline .p2pNetwork

/-- The candidate of peer 1. -/
def proposeSample : Event := .message (messageOf 1 (.proposeBlock (sampleBlock [1])))

/-- Another candidate of peer 1 for the same height. -/
def proposeRival : Event := .message (messageOf 1 (.proposeBlock (sampleRival [1])))

/-- The same candidate comes in twice and is signed twice. -/
def proposedTwice : Node :=
  (networked.step sampleCrypto allOnline proposeSample).step sampleCrypto allOnline proposeSample

theorem votes_once_of_sample :
    proposedTwice.signed.length = 2
      ∧ proposedTwice.signed.Pairwise fun e e' => e.1 = e'.1 → e.2 = e'.2 := by
  have hfirst : Reaches sampleCrypto (Careful sampleCrypto) (start (sampleStart 0)) networked :=
    Reaches.refl.step allOnline .p2pNetwork ⟨by decide +kernel, trivial⟩
  have hcareful : Careful sampleCrypto networked allOnline proposeSample := by
    refine ⟨by decide +kernel, ?_⟩
    intro _ _ _ _ b' hb'
    have hnone : networked.held = none := by decide +kernel
    rw [hnone] at hb'
    exact nomatch hb'
  -- The second proposal meets the held block again, which has the same hash.
  have hagain : Careful sampleCrypto (networked.step sampleCrypto allOnline proposeSample) allOnline
      proposeSample := by
    refine ⟨by decide +kernel, ?_⟩
    intro b hb _ _ b' hb'
    have hheld : ((networked.step sampleCrypto allOnline proposeSample).held.map
        BlockStruct.hash) = some (label 43 1) := by decide +kernel
    rw [hb'] at hheld
    obtain rfl : sampleBlock [1] = b := MessageData.proposeBlock.inj hb
    exact Option.some.inj hheld
  have hreach : Reaches sampleCrypto (Careful sampleCrypto) (start (sampleStart 0)) proposedTwice :=
    (hfirst.step allOnline _ hcareful).step allOnline _ hagain
  refine ⟨by decide +kernel, ?_⟩
  have hall : ∀ e ∈ proposedTwice.signed, ∀ e' ∈ proposedTwice.signed, e.1 = e'.1 → e.2 = e'.2 := by
    intro e he e' he' heq
    obtain ⟨height, hash⟩ := e
    obtain ⟨height', hash'⟩ := e'
    obtain rfl : height = height' := heq
    exact votes_once (by decide) (.start start_sampleStart) hreach height hash hash' he he'
  exact List.pairwise_of_forall_mem_list hall

/-- **Two candidates**: the second replaces the first, and both are signed. -/
theorem votes_twice :
    ¬ ∀ n, Reaches sampleCrypto AnyTurn (start (sampleStart 0)) n →
      ∀ height hash hash', (height, hash) ∈ n.signed → (height, hash') ∈ n.signed →
        hash = hash' := by
  intro hclaim
  have hreach : Reaches sampleCrypto AnyTurn (start (sampleStart 0))
      ((networked.step sampleCrypto allOnline proposeSample).step sampleCrypto allOnline
        proposeRival) :=
    ((Reaches.refl.step allOnline .p2pNetwork trivial).step allOnline proposeSample trivial).step
      allOnline proposeRival trivial
  have hsame := hclaim _ hreach 1 (label 43 1) (label 43 2) (by decide +kernel) (by decide +kernel)
  exact absurd (label_injective 43 hsame) (by decide)

end Node

end Divachain
