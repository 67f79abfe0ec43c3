/-
  Divachain.Net.Consensus — the part of a node that signs and adds blocks.

  `Consensus` is the chain of a node together with the candidate the block
  factory holds and the calls of `add` that are in flight.  `add` suspends at
  each await: after the block put and after every command.  Between two
  suspensions anything may happen, and the candidate stays where it is.

  Block objects live in `objects`: the candidate and the calls in flight refer
  to them, votes are pushed to them, and applying a command writes to them.

  Three fields are records kept for the proofs: `signed` has every hash the
  node has signed, with the height its chain had then; `committed` has the
  blocks for which `add` has returned true; `sent` has what the node has
  broadcast about candidates.

  What an operation can do is said once for each of them, in its `_cases` lemma.
-/
import Divachain.Chain.Blockchain
import Divachain.Net.Message

namespace Divachain

open DataKit

/-! ## §1. State. -/

/-- A call of `add` that has passed its guard and is suspended. -/
structure AddTask where
  /-- The block object it applies. -/
  obj : Nat
  /-- How many commands it has applied. -/
  pos : Nat
  /-- The block as it was when the call put it into the store. -/
  stored : BlockStruct
  /-- The call comes from the loop in `processStatus`. -/
  fromSync : Bool
  deriving DecidableEq, Repr

/-- The loop in `processStatus` that fetches blocks and adds them. -/
inductive SyncState where
  | idle
  /-- The request is on its way. -/
  | fetching
  /-- These blocks are still to be added. -/
  | ready (blocks : List BlockStruct)
  /-- A call of `add` is in flight; these blocks come after it. -/
  | adding (blocks : List BlockStruct)
  deriving DecidableEq, Repr

/-- The blocks the loop still has to add. -/
def SyncState.blocks : SyncState → List BlockStruct
  | .ready blocks | .adding blocks => blocks
  | _ => []

structure Consensus where
  chain : Blockchain
  objects : Nat → BlockStruct
  /-- The first object number that is free. -/
  next : Nat
  /-- The candidate; `none` is the empty object. -/
  block : Option Nat
  adds : List AddTask
  sync : SyncState
  signed : List (Nat × Text)
  committed : List BlockStruct
  sent : List Message

namespace Consensus

/-- The candidate itself. -/
def held (c : Consensus) : Option BlockStruct := c.block.map c.objects

def hasBlock (c : Consensus) : Bool :=
  match c.held with
  | some b => decide (0 < b.height)
  | none => false

/-- A node over a chain, before anything has happened. -/
def start (chain : Blockchain) : Consensus :=
  { chain := chain
    objects := fun _ => default
    next := 0
    block := none
    adds := []
    sync := .idle
    signed := []
    committed := []
    sent := [] }

/-! ## §2. The operations of the block factory. -/

/-- A new object. -/
def alloc (c : Consensus) (b : BlockStruct) : Consensus :=
  { c with objects := Function.update c.objects c.next b, next := c.next + 1 }

/-- `this.block = b` for a new object `b`. -/
def hold (c : Consensus) (b : BlockStruct) : Consensus :=
  { c.alloc b with block := some c.next }

def write (c : Consensus) (obj : Nat) (b : BlockStruct) : Consensus :=
  { c with objects := Function.update c.objects obj b }

theorem objects_alloc_self {c : Consensus} {b : BlockStruct} :
    (c.alloc b).objects c.next = b := Function.update_self ..

theorem objects_alloc_of_ne {c : Consensus} {b : BlockStruct} {obj : Nat} (h : obj ≠ c.next) :
    (c.alloc b).objects obj = c.objects obj := Function.update_of_ne h ..

theorem objects_write_self {c : Consensus} {b : BlockStruct} {obj : Nat} :
    (c.write obj b).objects obj = b := Function.update_self ..

theorem objects_write_of_ne {c : Consensus} {b : BlockStruct} {obj obj' : Nat} (h : obj' ≠ obj) :
    (c.write obj b).objects obj' = c.objects obj' := Function.update_of_ne h ..

/-- `wallet.sign(hash)` for a block hash. -/
def sign (c : Consensus) (hash : Text) : Consensus :=
  { c with signed := c.signed ++ [(c.chain.height, hash)] }

/-- `init` and `create` of a message. -/
def message (c : Consensus) (now : Nat) (dest : Text) (data : MessageData) : Message :=
  { seq := now, origin := c.chain.publicKey, dest := dest, data := data }

/-- What is asked of `network.broadcast`; whether that throws depends on the list
of the network, see `Node.transmit`. -/
def send (c : Consensus) (m : Message) : Consensus := { c with sent := c.sent ++ [m] }

/-- `this.block = {}`. -/
def drop (c : Consensus) : Consensus := { c with block := none }

section

variable (crypto : Crypto)

/-- The vote a node casts for a hash. -/
def ownVote (c : Consensus) (hash : Text) : VoteStruct :=
  { origin := c.chain.publicKey, sig := crypto.sign c.chain.publicKey hash }

/-- The block the proposal timer makes, with the vote of its maker. -/
def proposal (c : Consensus) (pool : List TransactionStruct) : BlockStruct :=
  let b := Block.make crypto (c.chain.latestBlock.getD default) pool
  { b with votes := b.votes ++ [c.ownVote crypto b.hash] }

/-- The callback of the proposal timer. -/
def propose (c : Consensus) (now : Nat) (pool : List TransactionStruct) : Consensus :=
  let b := c.proposal crypto pool
  ((c.hold b).sign b.hash).send (c.message now [] (.proposeBlock b))

/-- The guard of `processProposeBlock`. -/
def acceptable (c : Consensus) (b : BlockStruct) : Bool :=
  decide (b.height = c.chain.height + 1)
    && decide (c.chain.latestBlock.map BlockStruct.hash = some b.previousHash)
    && validateBlock crypto c.chain.toLedger b false

/-- `add`, up to its first suspension: the guard and the block put. -/
def startAdd (c : Consensus) (obj : Nat) (fromSync : Bool) : Consensus :=
  if c.chain.accepts crypto (c.objects obj) then
    -- The block is stored before any of its commands has been applied.
    { c with
      chain := c.chain.putBlock (c.objects obj).height (c.objects obj)
      adds := c.adds ++ [{ obj := obj, pos := 0, stored := c.objects obj, fromSync := fromSync }] }
  else c

/-- The guard of `processSignBlock`: the candidate the vote is for. -/
def votable (c : Consensus) (origin hash : Text) : Option Nat :=
  match c.block with
  | some obj =>
      if (c.objects obj).hash = hash
          ∧ ¬ ((c.objects obj).votes.any fun v => decide (v.origin = origin)) then some obj
      else none
  | none => none

/-- `this.block.votes.push(..)`. -/
def pushVote (c : Consensus) (obj : Nat) (v : VoteStruct) : Consensus :=
  c.write obj { c.objects obj with votes := (c.objects obj).votes ++ [v] }

/-- The votes on an object reach the quorum. -/
def quorate (c : Consensus) (obj : Nat) : Bool :=
  c.chain.hasQuorumWeighted ((c.objects obj).votes.map VoteStruct.origin)

/-- The confirmation that follows a quorum of votes. -/
def confirmation (c : Consensus) (now : Nat) (obj : Nat) : Message :=
  c.message now [] (.confirmBlock (c.objects obj).hash (c.objects obj).votes)

def processSignBlock (c : Consensus) (now : Nat) (origin hash sig : Text) : Consensus :=
  match c.votable origin hash with
  | some obj =>
      let c := c.pushVote obj { origin := origin, sig := sig }
      if c.quorate obj then (c.startAdd crypto obj false).send (c.confirmation now obj) else c
  | none => c

/-- The vote for an accepted candidate: counted here, or sent to the validator. -/
def approve (c : Consensus) (now : Nat) (validator hash : Text) : Consensus :=
  let sig := (c.ownVote crypto hash).sig
  let c := c.sign hash
  if c.chain.publicKey = validator then c.processSignBlock crypto now c.chain.publicKey hash sig
  else c.send (c.message now validator (.signBlock hash sig))

def processConfirmBlock (c : Consensus) (hash : Text) (votes : List VoteStruct) : Consensus :=
  match c.block with
  | some obj =>
      if c.hasBlock ∧ (c.objects obj).hash = hash then
        -- the votes collected so far are replaced
        (c.write obj { c.objects obj with votes := votes }).startAdd crypto obj false
      else c
  | none => c

/-- `processStatus` of a peer that is ahead. -/
def fetchSync (c : Consensus) (height : Nat) : Consensus :=
  if c.sync = .idle ∧ c.chain.height < height then { c with sync := .fetching } else c

/-- The request of the sync loop is answered. -/
def answerSync (c : Consensus) (blocks : List BlockStruct) : Consensus :=
  if c.sync = .fetching then { c with sync := .ready blocks } else c

/-- The sync loop goes on with its next block.  An object that `add` turns away
is never seen again. -/
def continueSync (c : Consensus) : Consensus :=
  match c.sync with
  | .ready [] => { c with sync := .idle }
  | .ready (b :: blocks) =>
      if c.chain.accepts crypto b then
        { (c.alloc b).startAdd crypto c.next true with sync := .adding blocks }
      -- `add` returns false, and the loop takes the next block
      else { c with sync := .ready blocks }
  | _ => c

end

/-! ## §3. `add` after a suspension. -/

/-- The command the call goes on with. -/
def pending (c : Consensus) (t : AddTask) : Option (Text × Command) :=
  (commandsOf (c.objects t.obj).tx)[t.pos]?

/-- The call applies its next command and suspends again.  (In the code a
decision that is not taken does not suspend.) -/
def runCommand (c : Consensus) (i : Nat) (t : AddTask) (oc : Text × Command) : Consensus :=
  let r := c.chain.toLedger.processCommand oc.1 oc.2
  let b := c.objects t.obj
  { c with
    chain := c.chain.setLedger r.1
    objects := Function.update c.objects t.obj { b with tx := setCommandOf b.tx t.pos r.2 }
    adds := c.adds.set i { t with pos := t.pos + 1 } }

/-- Applying a command writes to the transactions of an object at most. -/
theorem objects_runCommand (c : Consensus) (i : Nat) (t : AddTask) (oc : Text × Command)
    (obj : Nat) :
    ∃ tx, (c.runCommand i t oc).objects obj = { c.objects obj with tx := tx } := by
  by_cases heq : obj = t.obj
  · subst heq
    exact ⟨_, Function.update_self ..⟩
  · exact ⟨(c.objects obj).tx, Function.update_of_ne heq ..⟩

/-- The loop goes on once its call has returned. -/
def resumedSync (sync : SyncState) (fromSync : Bool) : SyncState :=
  match fromSync, sync with
  | true, .adding blocks => .ready blocks
  | _, sync => sync

/-- The call has updated the cache and returns true; `clear` follows. -/
def finish (c : Consensus) (i : Nat) (t : AddTask) (chain : Blockchain) : Consensus :=
  { c with
    chain := chain
    block := none
    adds := c.adds.eraseIdx i
    sync := resumedSync c.sync t.fromSync
    committed := c.committed ++ [t.stored] }

/-! ## §4. What each operation can do. -/

/-- `add` starts a call, or turns the block away. -/
theorem startAdd_cases (crypto : Crypto) (c : Consensus) (obj : Nat) (fromSync : Bool) :
    (c.chain.accepts crypto (c.objects obj) = true
        ∧ c.startAdd crypto obj fromSync
          = { c with
              chain := c.chain.putBlock (c.objects obj).height (c.objects obj)
              adds := c.adds ++
                [{ obj := obj, pos := 0, stored := c.objects obj, fromSync := fromSync }] })
      ∨ (c.chain.accepts crypto (c.objects obj) = false ∧ c.startAdd crypto obj fromSync = c) := by
  unfold startAdd
  cases haccepts : c.chain.accepts crypto (c.objects obj) with
  | true => exact Or.inl ⟨rfl, rfl⟩
  | false => exact Or.inr ⟨rfl, rfl⟩

/-- Where a start leaves one call in flight, none was in flight before. -/
theorem adds_eq_nil {c : Consensus} {t : AddTask} (hone : (c.adds ++ [t]).length ≤ 1) :
    c.adds = [] := by
  rw [List.length_append, List.length_singleton] at hone
  exact List.eq_nil_of_length_eq_zero (by omega)

/-- The candidate a vote is for is an object in use. -/
theorem block_of_votable {c : Consensus} {origin hash : Text} {obj : Nat}
    (h : c.votable origin hash = some obj) : c.block = some obj ∧ (c.objects obj).hash = hash := by
  unfold votable at h
  split at h
  next obj' hblock =>
    split at h
    next hguard =>
      obtain rfl := Option.some.inj h
      exact ⟨hblock, hguard.1⟩
    next => cases h
  next => cases h

/-- A vote that is not turned away is pushed, and may start a call. -/
theorem processSignBlock_cases (crypto : Crypto) (c : Consensus) (now : Nat)
    (origin hash sig : Text) :
    (c.votable origin hash = none ∧ c.processSignBlock crypto now origin hash sig = c)
      ∨ ∃ obj, c.votable origin hash = some obj
        ∧ (((c.pushVote obj { origin := origin, sig := sig }).quorate obj = false
            ∧ c.processSignBlock crypto now origin hash sig
              = c.pushVote obj { origin := origin, sig := sig })
          ∨ ((c.pushVote obj { origin := origin, sig := sig }).quorate obj = true
            ∧ c.processSignBlock crypto now origin hash sig
              = ((c.pushVote obj { origin := origin, sig := sig }).startAdd crypto obj false).send
                  ((c.pushVote obj { origin := origin, sig := sig }).confirmation now obj))) := by
  unfold processSignBlock
  cases c.votable origin hash with
  | none => exact Or.inl ⟨rfl, rfl⟩
  | some obj =>
      refine Or.inr ⟨obj, rfl, ?_⟩
      dsimp only
      cases (c.pushVote obj { origin := origin, sig := sig }).quorate obj with
      | false => exact Or.inl ⟨rfl, rfl⟩
      | true => exact Or.inr ⟨rfl, rfl⟩

/-- The vote is counted here, or sent. -/
theorem approve_cases (crypto : Crypto) (c : Consensus) (now : Nat) (validator hash : Text) :
    (c.chain.publicKey = validator
        ∧ c.approve crypto now validator hash
          = (c.sign hash).processSignBlock crypto now c.chain.publicKey hash
              (c.ownVote crypto hash).sig)
      ∨ (c.chain.publicKey ≠ validator
        ∧ c.approve crypto now validator hash
          = (c.sign hash).send
              (c.message now validator (.signBlock hash (c.ownVote crypto hash).sig))) := by
  by_cases hown : c.chain.publicKey = validator
  · exact Or.inl ⟨hown, if_pos hown⟩
  · exact Or.inr ⟨hown, if_neg hown⟩

/-- A confirmation of the candidate writes its votes and starts a call. -/
theorem processConfirmBlock_cases (crypto : Crypto) (c : Consensus) (hash : Text)
    (votes : List VoteStruct) :
    c.processConfirmBlock crypto hash votes = c
      ∨ ∃ obj, c.block = some obj ∧ c.hasBlock = true ∧ (c.objects obj).hash = hash
        ∧ c.processConfirmBlock crypto hash votes
          = (c.write obj { c.objects obj with votes := votes }).startAdd crypto obj false := by
  unfold processConfirmBlock
  cases c.block with
  | none => exact Or.inl rfl
  | some obj =>
      dsimp only
      split
      next hguard => exact Or.inr ⟨obj, rfl, hguard.1, hguard.2, rfl⟩
      next => exact Or.inl rfl

theorem fetchSync_cases (c : Consensus) (height : Nat) :
    c.fetchSync height = c ∨ c.fetchSync height = { c with sync := .fetching } := by
  unfold fetchSync
  split
  · exact Or.inr rfl
  · exact Or.inl rfl

theorem answerSync_cases (c : Consensus) (blocks : List BlockStruct) :
    c.answerSync blocks = c ∨ c.answerSync blocks = { c with sync := .ready blocks } := by
  unfold answerSync
  split
  · exact Or.inr rfl
  · exact Or.inl rfl

/-- The loop waits, drops its next block or is at its end, or starts a call. -/
theorem continueSync_cases (crypto : Crypto) (c : Consensus) :
    c.continueSync crypto = c
      ∨ (∃ sync, sync.blocks ⊆ c.sync.blocks ∧ c.continueSync crypto = { c with sync := sync })
      ∨ ∃ b blocks, c.sync = .ready (b :: blocks) ∧ c.chain.accepts crypto b = true
        ∧ c.continueSync crypto
          = { (c.alloc b).startAdd crypto c.next true with sync := .adding blocks } := by
  unfold continueSync
  cases c.sync with
  | idle => exact Or.inl rfl
  | fetching => exact Or.inl rfl
  | adding blocks => exact Or.inl rfl
  | ready blocks =>
      cases blocks with
      | nil => exact Or.inr (Or.inl ⟨.idle, List.nil_subset _, rfl⟩)
      | cons b blocks =>
          dsimp only
          cases haccepts : c.chain.accepts crypto b with
          | true => exact Or.inr (Or.inr ⟨b, blocks, rfl, haccepts, rfl⟩)
          | false =>
              exact Or.inr (Or.inl ⟨.ready blocks, List.subset_cons_self b blocks, rfl⟩)

end Consensus

end Divachain
