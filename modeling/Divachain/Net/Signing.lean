/-
  Divachain.Net.Signing — what a node signs, and at which height.

  `move_frame` says what a move does to the top of the chain and to the record
  of signatures: nothing, one more signature, or one more block.  From it
  follow the two facts agreement needs of an honest node.  What it signs is
  the hash of a block for the next height (`Signing.text`), and if it signs
  nothing but one hash at a height in each turn, it does so in the whole run
  (`Signing.once`).
-/
import Divachain.Net.VoteOnce

namespace Divachain

open DataKit

namespace Consensus

/-! ## §1. The top of the chain. -/

/-- Nothing has been signed, and no block has been cached or committed. -/
structure SameTop (c c' : Consensus) : Prop where
  publicKey : c'.chain.publicKey = c.chain.publicKey
  height : c'.chain.height = c.chain.height
  latestBlock : c'.chain.latestBlock = c.chain.latestBlock
  mapBlocks : c'.chain.mapBlocks = c.chain.mapBlocks
  signed : c'.signed = c.signed
  committed : c'.committed = c.committed

variable {crypto : Crypto} {c : Consensus}

theorem SameTop.refl (c : Consensus) : SameTop c c := ⟨rfl, rfl, rfl, rfl, rfl, rfl⟩

theorem SameTop.trans {c' c'' : Consensus} (h : SameTop c c') (h' : SameTop c' c'') :
    SameTop c c'' :=
  ⟨h'.publicKey.trans h.publicKey, h'.height.trans h.height, h'.latestBlock.trans h.latestBlock,
    h'.mapBlocks.trans h.mapBlocks, h'.signed.trans h.signed, h'.committed.trans h.committed⟩

theorem sameTop_startAdd (c : Consensus) (obj : Nat) (fromSync : Bool) :
    SameTop c (c.startAdd crypto obj fromSync) := by
  rcases c.startAdd_cases crypto obj fromSync with ⟨-, hstep⟩ | ⟨-, hstep⟩
  · rw [hstep]
    exact ⟨rfl, rfl, rfl, rfl, rfl, rfl⟩
  · rw [hstep]
    exact .refl c

theorem sameTop_processSignBlock (c : Consensus) (now : Nat) (origin hash sig : Text) :
    SameTop c (c.processSignBlock crypto now origin hash sig) := by
  have hpush : ∀ obj, SameTop c (c.pushVote obj { origin := origin, sig := sig }) :=
    fun _ => ⟨rfl, rfl, rfl, rfl, rfl, rfl⟩
  rcases c.processSignBlock_cases crypto now origin hash sig with
    ⟨-, hstep⟩ | ⟨obj, -, ⟨-, hstep⟩ | ⟨-, hstep⟩⟩
  · rw [hstep]
    exact .refl c
  · rw [hstep]
    exact hpush obj
  · rw [hstep]
    exact ((hpush obj).trans (sameTop_startAdd _ obj false)).trans ⟨rfl, rfl, rfl, rfl, rfl, rfl⟩

theorem sameTop_approve (c : Consensus) (now : Nat) (validator hash : Text) :
    SameTop (c.sign hash) (c.approve crypto now validator hash) := by
  rcases c.approve_cases crypto now validator hash with ⟨-, hstep⟩ | ⟨-, hstep⟩
  · rw [hstep]
    exact sameTop_processSignBlock _ _ _ _ _
  · rw [hstep]
    exact ⟨rfl, rfl, rfl, rfl, rfl, rfl⟩

theorem sameTop_processConfirmBlock (c : Consensus) (hash : Text) (votes : List VoteStruct) :
    SameTop c (c.processConfirmBlock crypto hash votes) := by
  rcases c.processConfirmBlock_cases crypto hash votes with hstep | ⟨obj, -, -, -, hstep⟩
  · rw [hstep]
    exact .refl c
  · have hwrite : SameTop c (c.write obj { c.objects obj with votes := votes }) :=
      ⟨rfl, rfl, rfl, rfl, rfl, rfl⟩
    rw [hstep]
    exact hwrite.trans (sameTop_startAdd _ obj false)

theorem sameTop_fetchSync (c : Consensus) (height : Nat) : SameTop c (c.fetchSync height) := by
  rcases c.fetchSync_cases height with hstep | hstep
  · rw [hstep]
    exact .refl c
  · rw [hstep]
    exact ⟨rfl, rfl, rfl, rfl, rfl, rfl⟩

theorem sameTop_answerSync (c : Consensus) (blocks : List BlockStruct) :
    SameTop c (c.answerSync blocks) := by
  rcases c.answerSync_cases blocks with hstep | hstep
  · rw [hstep]
    exact .refl c
  · rw [hstep]
    exact ⟨rfl, rfl, rfl, rfl, rfl, rfl⟩

theorem sameTop_continueSync (c : Consensus) : SameTop c (c.continueSync crypto) := by
  rcases c.continueSync_cases crypto with hstep | ⟨sync, -, hstep⟩ | ⟨b, blocks, -, -, hstep⟩
  · rw [hstep]
    exact .refl c
  · rw [hstep]
    exact ⟨rfl, rfl, rfl, rfl, rfl, rfl⟩
  · have halloc : SameTop c (c.alloc b) := ⟨rfl, rfl, rfl, rfl, rfl, rfl⟩
    rw [hstep]
    exact (halloc.trans (sameTop_startAdd _ c.next true)).trans ⟨rfl, rfl, rfl, rfl, rfl, rfl⟩

/-- The hash a move of this kind signs. -/
def Signs (crypto : Crypto) (c : Consensus) (hash : Text) : Kind → Prop
  | .propose pool => hash = (c.proposal crypto pool).hash
  | .accept b => c.acceptable crypto b = true ∧ hash = b.hash
  | _ => False

/-- **What a move does to the top of the chain and to the signatures.** -/
theorem move_frame {kind : Kind} {c' : Consensus} (hmove : Move crypto c kind c') :
    SameTop c c'
      ∨ (∃ hash, Signs crypto c hash kind ∧ SameTop (c.sign hash) c')
      ∨ ∃ (i : Nat) (t : AddTask), c.adds[i]? = some t ∧ kind = .commit t
          ∧ Blockchain.CachedBy (c.objects t.obj) c.chain c'.chain
          ∧ c'.signed = c.signed := by
  cases hmove with
  | quiet => exact Or.inl (.refl c)
  | propose now pool => exact Or.inr (Or.inl ⟨_, rfl, ⟨rfl, rfl, rfl, rfl, rfl, rfl⟩⟩)
  | hold b hacc => exact Or.inl ⟨rfl, rfl, rfl, rfl, rfl, rfl⟩
  -- Approving signs first; whatever the vote then starts leaves the top as it is.
  | approve b now validator hacc =>
      refine Or.inr (Or.inl ⟨b.hash, ⟨hacc, rfl⟩, ?_⟩)
      have hhold : SameTop (c.sign b.hash) ((c.hold b).sign b.hash) := ⟨rfl, rfl, rfl, rfl, rfl, rfl⟩
      exact hhold.trans (sameTop_approve _ now validator b.hash)
  | vote now origin hash sig => exact Or.inl (sameTop_processSignBlock c now origin hash sig)
  | confirm hash votes => exact Or.inl (sameTop_processConfirmBlock c hash votes)
  | fetch height => exact Or.inl (sameTop_fetchSync c height)
  | answer blocks => exact Or.inl (sameTop_answerSync c blocks)
  | continueSync => exact Or.inl (sameTop_continueSync c)
  | drop => exact Or.inl ⟨rfl, rfl, rfl, rfl, rfl, rfl⟩
  | runCommand i t oc ht hp => exact Or.inl ⟨rfl, rfl, rfl, rfl, rfl, rfl⟩
  | finish i t answer chain ht hp hc =>
      exact Or.inr (Or.inr ⟨i, t, ht, rfl, Blockchain.updateCache_spec hc, rfl⟩)

/-- Signatures are kept. -/
theorem signed_of_move {kind : Kind} {c' : Consensus} (hmove : Move crypto c kind c') :
    ∀ e ∈ c.signed, e ∈ c'.signed := by
  intro e he
  rcases move_frame hmove with hsame | ⟨hash, -, hsame⟩ | ⟨_, _, -, -, -, hsigned⟩
  · rw [hsame.signed]
    exact he
  · rw [hsame.signed]
    exact List.mem_append_left _ he
  · rw [hsigned]
    exact he

theorem publicKey_of_move {kind : Kind} {c' : Consensus} (hmove : Move crypto c kind c') :
    c'.chain.publicKey = c.chain.publicKey := by
  rcases move_frame hmove with hsame | ⟨hash, -, hsame⟩ | ⟨_, _, -, -, hcached, -⟩
  · exact hsame.publicKey
  · exact hsame.publicKey
  · exact hcached.publicKey

/-- The latest block stays the one at the height of the chain. -/
theorem top_of_move {kind : Kind} {c' : Consensus} (hmove : Move crypto c kind c')
    (h : c.chain.latestBlock.map BlockStruct.height = some c.chain.height) :
    c'.chain.latestBlock.map BlockStruct.height = some c'.chain.height := by
  rcases move_frame hmove with hsame | ⟨hash, -, hsame⟩ | ⟨_, _, -, -, hcached, -⟩
  · rw [hsame.latestBlock, hsame.height]
    exact h
  · rw [hsame.latestBlock, hsame.height]
    exact h
  · rw [hcached.latestBlock, hcached.height]
    rfl

/-- Blocks are committed where a call of `add` returns. -/
theorem committed_of_move {kind : Kind} {c' : Consensus} (hmove : Move crypto c kind c')
    (hkind : ∀ t, kind ≠ .commit t) : c'.committed = c.committed := by
  rcases move_frame hmove with hsame | ⟨hash, -, hsame⟩ | ⟨_, t, -, hcommit, -, -⟩
  · exact hsame.committed
  · exact hsame.committed
  · exact absurd hcommit (hkind t)

/-! ## §2. The invariant. -/

/-- **What a node has signed**: hashes of blocks for the height after the one
it was at, and one hash at each height. -/
structure Signing (crypto : Crypto) (c : Consensus) : Prop where
  top : c.chain.latestBlock.map BlockStruct.height = some c.chain.height
  text : ∀ e ∈ c.signed, ∃ v p l, e.2 = crypto.hash (hashText v p l (e.1 + 1))
  past : ∀ e ∈ c.signed, e.1 ≤ c.chain.height
  once : ∀ e ∈ c.signed, ∀ e' ∈ c.signed, e.1 = e'.1 → e.2 = e'.2

theorem signing_start {chain : Blockchain}
    (h : chain.latestBlock.map BlockStruct.height = some chain.height) :
    Signing crypto (start chain) :=
  ⟨h, fun _ h => (nomatch h), fun _ h => (nomatch h), fun _ h => (nomatch h)⟩

theorem Signing.congr {c' : Consensus} (h : Signing crypto c) (hsame : SameTop c c') :
    Signing crypto c' := by
  refine ⟨?_, ?_, ?_, ?_⟩
  · rw [hsame.latestBlock, hsame.height]
    exact h.top
  · rw [hsame.signed]
    exact h.text
  · rw [hsame.signed, hsame.height]
    exact h.past
  · rw [hsame.signed]
    exact h.once

/-- What is signed is the hash of a block for the next height. -/
theorem Signing.text_of_signs (h : Signing crypto c) {kind : Kind} {hash : Text}
    (hsigns : Signs crypto c hash kind) :
    ∃ v p l, hash = crypto.hash (hashText v p l (c.chain.height + 1)) := by
  cases kind with
  | propose pool =>
      obtain rfl : hash = (c.proposal crypto pool).hash := hsigns
      have htop := h.top
      cases hlatest : c.chain.latestBlock with
      | none =>
          rw [hlatest] at htop
          exact nomatch htop
      | some latest =>
          rw [hlatest] at htop
          refine ⟨BLOCK_VERSION, latest.hash, pool, ?_⟩
          rw [← Option.some.inj htop, proposal, hlatest]
          rfl
  -- The hash of an acceptable block has been recomputed from its text.
  | accept b =>
      obtain ⟨hacc, rfl⟩ : c.acceptable crypto b = true ∧ hash = b.hash := hsigns
      unfold acceptable at hacc
      simp only [Bool.and_eq_true, decide_eq_true_eq] at hacc
      obtain ⟨⟨hheight, -⟩, hvalid⟩ := hacc
      refine ⟨b.version, b.previousHash, b.tx, ?_⟩
      rw [← hheight]
      exact (validateBlock_false_iff.mp hvalid).hash.symm
  | vote origin hash sig => exact hsigns.elim
  | confirm hash votes => exact hsigns.elim
  | answer blocks => exact hsigns.elim
  | drop => exact hsigns.elim
  | command oc => exact hsigns.elim
  | commit t => exact hsigns.elim
  | other => exact hsigns.elim

/-- Nothing but this hash has been signed at the current height. -/
def OnlySigned (c : Consensus) (hash : Text) : Prop :=
  ∀ e ∈ c.signed, e.1 = c.chain.height → e.2 = hash

instance (c : Consensus) (hash : Text) : Decidable (OnlySigned c hash) :=
  inferInstanceAs (Decidable (∀ e ∈ c.signed, e.1 = c.chain.height → e.2 = hash))

/-- **One more signature**, if nothing else is signed at this height. -/
theorem Signing.sign (h : Signing crypto c) {hash : Text}
    (htext : ∃ v p l, hash = crypto.hash (hashText v p l (c.chain.height + 1)))
    (hsame : OnlySigned c hash) :
    Signing crypto (c.sign hash) := by
  have hcases : ∀ e ∈ (c.sign hash).signed, e ∈ c.signed ∨ e = (c.chain.height, hash) := by
    intro e he
    rcases List.mem_append.mp he with he | he
    · exact Or.inl he
    · exact Or.inr (List.mem_singleton.mp he)
  refine ⟨h.top, ?_, ?_, ?_⟩
  · intro e he
    rcases hcases e he with he | rfl
    · exact h.text e he
    · exact htext
  · intro e he
    rcases hcases e he with he | rfl
    · exact h.past e he
    · exact Nat.le_refl _
  -- Old and new entries at one height agree, since only this hash was signed at it.
  · intro e he e' he' heq
    rcases hcases e he with he | rfl
    · rcases hcases e' he' with he' | rfl
      · exact h.once e he e' he' heq
      · exact hsame e he heq
    · rcases hcases e' he' with he' | rfl
      · exact (hsame e' he' heq.symm).symm
      · rfl

/-- A commit leaves the signatures behind. -/
theorem Signing.cached (h : Signing crypto c) {c' : Consensus} {b : BlockStruct}
    (hcached : Blockchain.CachedBy b c.chain c'.chain) (hsigned : c'.signed = c.signed)
    (hnext : c.chain.height ≤ b.height) : Signing crypto c' := by
  refine ⟨?_, ?_, ?_, ?_⟩
  · rw [hcached.latestBlock, hcached.height]
    rfl
  · rw [hsigned]
    exact h.text
  · rw [hsigned, hcached.height]
    intro e he
    have hpast := h.past e he
    omega
  · rw [hsigned]
    exact h.once

/-- The move signs no other hash than those already signed at this height. -/
def SteadyMove (crypto : Crypto) (c : Consensus) (kind : Kind) : Prop :=
  ∀ hash, Signs crypto c hash kind → OnlySigned c hash

variable {genesis : BlockStruct} {base : List BlockStruct}

theorem Signing.move (hs : Settled crypto genesis base c) (h : Signing crypto c) {kind : Kind}
    {c' : Consensus} (hmove : Move crypto c kind c') (hsteady : SteadyMove crypto c kind) :
    Signing crypto c' := by
  rcases move_frame hmove with hsame | ⟨hash, hsigns, hsame⟩ | ⟨i, t, ht, -, hcached, hsigned⟩
  · exact h.congr hsame
  · exact (h.sign (h.text_of_signs hsigns) (hsteady hash hsigns)).congr hsame
  · obtain ⟨-, -, happly, -⟩ := hs.task ht
    refine h.cached hcached hsigned ?_
    rw [happly.height_eq, happly.next]
    exact Nat.le_succ _

end Consensus

namespace Node

/-! ## §3. Runs. -/

/-- Where the node has signed a hash at its height, it neither proposes nor
accepts a candidate with another. -/
def SteadyTurn (crypto : Crypto) (n : Node) (turn : Turn) : Event → Prop
  | .timeoutProposeBlock =>
      n.timeoutProposeBlock = true →
        n.OnlySigned (n.proposal crypto n.arrayPoolTx).hash
  | .message ⟨_, origin, _, .proposeBlock b⟩ =>
      (n.calcValidator turn).isValidator origin = true → n.acceptable crypto b = true →
        n.OnlySigned b.hash
  | _ => True

instance (crypto : Crypto) (n : Node) (turn : Turn) :
    ∀ e : Event, Decidable (SteadyTurn crypto n turn e)
  | .timeoutProposeBlock => inferInstanceAs (Decidable (_ → Consensus.OnlySigned _ _))
  | .message ⟨_, _, _, .proposeBlock _⟩ =>
      inferInstanceAs (Decidable (_ → _ → Consensus.OnlySigned _ _))
  | .message ⟨_, _, _, .addTx ..⟩ => isTrue trivial
  | .message ⟨_, _, _, .signBlock ..⟩ => isTrue trivial
  | .message ⟨_, _, _, .confirmBlock ..⟩ => isTrue trivial
  | .message ⟨_, _, _, .status ..⟩ => isTrue trivial
  | .stackTx .. => isTrue trivial
  | .timeoutAddTx => isTrue trivial
  | .timeoutRetry => isTrue trivial
  | .timeoutStatus => isTrue trivial
  | .resumeAdd _ => isTrue trivial
  | .syncAnswer _ => isTrue trivial
  | .continueSync => isTrue trivial
  | .p2pNetwork => isTrue trivial

/-- The turn starts no second call of `add`, and signs no second hash. -/
def Steady (crypto : Crypto) (n : Node) (turn : Turn) (e : Event) : Prop :=
  Sequential crypto n turn e ∧ SteadyTurn crypto n turn e

instance (crypto : Crypto) (n : Node) (turn : Turn) (e : Event) :
    Decidable (Steady crypto n turn e) :=
  inferInstanceAs (Decidable (Sequential crypto n turn e ∧ SteadyTurn crypto n turn e))

theorem Steady.move {crypto : Crypto} {n : Node} {turn : Turn} {e : Event}
    (h : Steady crypto n turn e) {kind : Kind} (hfrom : kind.from n turn e) :
    Consensus.SteadyMove crypto n.toConsensus kind := by
  obtain ⟨-, h⟩ := h
  -- Only a proposal and an acceptance sign anything.
  intro hash hsigns
  cases kind with
  | propose pool =>
      obtain ⟨rfl, harmed, rfl⟩ := hfrom
      obtain rfl : hash = (n.proposal crypto n.arrayPoolTx).hash := hsigns
      exact h harmed
  | accept b =>
      obtain ⟨⟨seq, origin, dest, data⟩, rfl, hdata, hval⟩ := hfrom
      obtain rfl : data = .proposeBlock b := hdata
      obtain ⟨hacc, rfl⟩ : n.acceptable crypto b = true ∧ hash = b.hash := hsigns
      exact h hval hacc
  | vote origin hash sig => exact hsigns.elim
  | confirm hash votes => exact hsigns.elim
  | answer blocks => exact hsigns.elim
  | drop => exact hsigns.elim
  | command oc => exact hsigns.elim
  | commit t => exact hsigns.elim
  | other => exact hsigns.elim

end Node

end Divachain
