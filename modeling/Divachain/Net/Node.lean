/-
  Divachain.Net.Node — one node: block factory, server and network together.

  `Node` adds to `Consensus` what feeds it: the stack of transactions, the
  transaction in flight, the validator's pool, the timers, the stake proposals
  of the server and the sync loop.  `step` is one turn of the event loop: an
  API call, a message, a timer, or a suspended call that goes on.

  What the outside decides comes with each turn (`Turn`): who seems to be
  online, how many peers have been, random identifiers, the clock, and
  whether the pings of a peer are spread as wanted.

  `halted` is a process that has ended on an exception or that hangs in the
  loop of `calcValidator`.  Nothing happens in it any more.

  `network.broadcast` throws where it comes to a key whose peer has been removed
  since `p2pNetwork` has run last.  Nothing catches that in a timer, in a message
  or in `add`.  Two callers of `stackTx` do (`Turn.caught`), and what the call
  has done up to there stays.  The relay of a message that comes in is in
  `Network`.
-/
import Divachain.Net.Consensus
import Divachain.Net.Message

namespace Divachain

open DataKit

def MAX_LENGTH_IDENT : Nat := 32

/-- `'vote'`. -/
def STAKE_VOTE_IDENT : Text := ['v', 'o', 't', 'e']

def STAKE_VOTE_AMOUNT : Int := 1

/-- `'ping'`. -/
def STAKE_PING_IDENT : Text := ['p', 'i', 'n', 'g']

def STAKE_PING_AMOUNT : Int := 1

/-! ## §1. State. -/

structure RecordStack where
  ident : Text
  commands : List Command
  deriving DecidableEq, Repr

structure RecordTx where
  height : Nat
  tx : TransactionStruct
  deriving DecidableEq, Repr

structure Node extends Consensus where
  stackTransaction : List RecordStack
  ownTx : Option RecordTx
  current : OrdMap Text TransactionStruct
  arrayPoolTx : List TransactionStruct
  validator : Text
  /-- Whether each timer is armed. -/
  timeoutAddTx : Bool
  timeoutProposeBlock : Bool
  timeoutRetry : Bool
  mapStakeCredit : OrdMap Text Int
  stackModifyStake : List Command
  /-- The public keys of `network.getArrayNetwork()`. -/
  arrayNetwork : List Text
  halted : Bool
  /-- The transactions and statuses the node has broadcast. -/
  posted : List Message
  /-- Everything `stack` has accepted. -/
  accepted : List RecordStack

/-- What the outside decides in one turn. -/
structure Turn where
  isOnline : Text → Bool
  /-- `network.getArrayOnline().length`. -/
  countOnline : Nat
  nanoid : Text
  now : Nat
  /-- The quartile coefficient of the sender's pings is in range. -/
  pingVote : Bool
  /-- The caller of `stackTx` catches: `PUT /leave` and `Bootstrap.join` do,
  `PUT /transaction` does not. -/
  caught : Bool

namespace Node

/-- A node over a chain, before its first turn. -/
def start (chain : Blockchain) : Node :=
  { Consensus.start chain with
    stackTransaction := []
    ownTx := none
    current := .empty
    arrayPoolTx := []
    validator := []
    timeoutAddTx := false
    timeoutProposeBlock := false
    timeoutRetry := false
    mapStakeCredit := .empty
    stackModifyStake := []
    arrayNetwork := []
    halted := false
    posted := []
    accepted := [] }

/-- The next statement, unless the last one has ended the process. -/
def andThen (n : Node) (f : Node → Node) : Node := if n.halted then n else f n

def isValidator (n : Node) (origin : Text) : Bool := decide (origin = n.validator)

/-- `broadcast` returns: `arrayBroadcast` is `arrayNetwork` without the node
itself, and it reads `getPeer(pk).udp` of each key. -/
def canBroadcast (n : Node) : Bool :=
  n.arrayNetwork.all fun pk => decide (pk = n.chain.publicKey) || n.chain.hasPeer pk

/-- `broadcast` of a transaction or a status. -/
def post (n : Node) (m : Message) : Node :=
  { n with
    posted := n.posted ++ [m]
    halted := n.halted || !n.canBroadcast }

/-- The consensus part goes on, and broadcasts if it has something to send.  No
operation that sends changes the peers. -/
def transmit (n : Node) (c : Consensus) : Node :=
  { n with
    toConsensus := c
    halted := n.halted || (decide (n.sent.length < c.sent.length) && !n.canBroadcast) }

/-! ## §2. The validator. -/

/-- Where the search for an online peer starts; `none` where the code throws
or reads an empty network. -/
def firstIndex (n : Node) (online : Text → Bool) : Option Nat :=
  let a := n.arrayNetwork
  match a[n.chain.height % a.length]? with
  -- with an empty network the index is `NaN`
  | none => none
  | some publicKey =>
      if online publicKey then some (n.chain.height % a.length)
      -- Offline: the search starts at the distance of the last two hashes.
      else
        match n.chain.latestBlock with
        | none => none
        | some b => (stringDiff b.hash b.previousHash).map fun i => i % a.length

/-- The validator, if the search comes to an end. -/
def findValidator (n : Node) (online : Text → Bool) : Option Text :=
  match n.firstIndex online with
  | none => none
  | some i => (n.arrayNetwork.drop i ++ n.arrayNetwork.take i).find? online

/-- `network.isOnline`. -/
def isOnline (n : Node) (turn : Turn) (publicKey : Text) : Bool :=
  decide (publicKey = n.chain.publicKey) || turn.isOnline publicKey

/-- The search throws: the peer it begins with is offline, and there are no two
hashes of one length to go on from. -/
def calcThrows (n : Node) (online : Text → Bool) : Bool :=
  !(n.arrayNetwork[n.chain.height % n.arrayNetwork.length]?).any online
    && (n.chain.latestBlock.bind fun b => stringDiff b.hash b.previousHash).isNone

/-- The search never comes to an end. -/
def hangs (n : Node) (turn : Turn) : Bool :=
  (n.findValidator (n.isOnline turn)).isNone && !n.calcThrows (n.isOnline turn)

def calcValidator (n : Node) (turn : Turn) : Node :=
  match n.findValidator (n.isOnline turn) with
  | some publicKey => { n with validator := publicKey }
  | none => { n with halted := true }

/-! ## §3. Transactions on their way to a block. -/

def setupRetry (n : Node) : Node := { n with timeoutRetry := true }

/-- The pool sorted by signature.  Its comparator never returns 0: of two equal
signatures the one that came later goes first. -/
def sortPool (l : List TransactionStruct) : List TransactionStruct :=
  l.reverse.insertionSort fun a b => a.sig ≤ b.sig

theorem sortPool_perm (l : List TransactionStruct) : (sortPool l).Perm l :=
  (List.perm_insertionSort _ _).trans (List.reverse_perm l)

section

variable (crypto : Crypto)

/-- The guard of `processAddTx`. -/
def poolable (n : Node) (origin : Text) (height : Nat) (tx : TransactionStruct) : Bool :=
  !n.hasBlock && decide (height = n.chain.height + 1) && !n.current.has origin
    && validateTx crypto n.chain.toLedger (n.chain.height + 1) tx

def processAddTx (n : Node) (origin : Text) (height : Nat) (tx : TransactionStruct) : Node :=
  if n.poolable crypto origin height tx then
    { n with
      current := n.current.set origin tx
      arrayPoolTx := sortPool (n.current.set origin tx).values
      timeoutProposeBlock := true }
  else n

/-- The transaction of a record, signed for the next height. -/
def signTx (n : Node) (r : RecordStack) : TransactionStruct :=
  Transaction.make crypto n.chain.publicKey (n.chain.height + 1) r.ident r.commands

/-- The end of `doAddTx`: send the transaction in flight to the validator. -/
def submit (n : Node) (turn : Turn) (height : Nat) (tx : TransactionStruct) : Node :=
  if n.isValidator n.chain.publicKey then
    (n.processAddTx crypto n.chain.publicKey height tx).setupRetry
  else (n.post (n.message turn.now n.validator (.addTx height tx))).andThen setupRetry

def doAddTx (n : Node) (turn : Turn) : Node :=
  match n.ownTx, n.stackTransaction with
  | none, r :: rest =>
      let height := n.chain.height + 1
      let tx := n.signTx crypto r
      let n := { n with stackTransaction := rest, ownTx := some { height := height, tx := tx } }
      (n.calcValidator turn).andThen fun n => n.submit crypto turn height tx
  -- one is in flight already, or none is waiting
  | _, _ => n

/-- The identifier of a transaction. -/
def identOf (turn : Turn) (ident : Text) : Text :=
  if ident ≠ [] ∧ utf16Length ident ≤ MAX_LENGTH_IDENT then ident else turn.nanoid

def stack (n : Node) (turn : Turn) (commands : List Command) (ident : Text) : Node :=
  let r : RecordStack := { ident := identOf turn ident, commands := commands }
  if validateTx crypto n.chain.toLedger (n.chain.height + 1) (n.signTx crypto r) then
    { n with
      stackTransaction := n.stackTransaction ++ [r]
      accepted := n.accepted ++ [r] }.doAddTx crypto turn
  else n

/-! ## §4. The server. -/

/-- `c.seq = s`: a property that is new goes to the end. -/
def setSeq (c : Command) (s : Nat) : Command :=
  { c with seq := s, keys := if Field.seq ∈ c.keys then c.keys else c.keys ++ [.seq] }

def stackTx (n : Node) (turn : Turn) (commands : List Command) (ident : Text) : Node :=
  n.stack crypto turn (commands.zipIdx.map fun c => setSeq c.1 (c.2 + 1)) ident

/-- A caller that catches goes on after an exception; a search that hangs
never comes back to it. -/
def rescue (n : Node) (turn : Turn) : Node :=
  { n with halted := n.halted && (n.hangs turn || !turn.caught) }

/-- A command of the server, before `stackTx` has numbered it. -/
def stakeCommand (publicKey ident : Text) (stake : Int) : Command :=
  { seq := 0
    body := .modifyStake publicKey ident stake
    keys := [.command, .publicKey, .ident, .stake] }

/-- The command proposes something for this peer under this identifier. -/
def proposes (publicKey ident : Text) (c : Command) : Bool :=
  match c.body with
  | .modifyStake pk i _ => decide (pk = publicKey) && decide (i = ident)
  | _ => false

/-- What `proposeModifyStake` returns. -/
def proposeAnswer (n : Node) (publicKey ident : Text) : Bool :=
  !n.stackModifyStake.any (proposes publicKey ident)

def queueProposal (n : Node) (publicKey : Text) (credit : Int) (c : Command) : Node :=
  { n with
    mapStakeCredit := n.mapStakeCredit.set publicKey credit
    stackModifyStake := n.stackModifyStake ++ [c] }

def clearProposals (n : Node) : Node := { n with stackModifyStake := [] }

def proposeModifyStake (n : Node) (turn : Turn) (publicKey ident : Text) (stake : Int) : Node :=
  if n.proposeAnswer publicKey ident then
    let credit := (n.mapStakeCredit.get? publicKey).getD 0 - 1
    -- The credit of a peer may not sink to a third of the number online below zero.
    if -(turn.countOnline : Int) < 3 * credit then
      let n := n.queueProposal publicKey credit (stakeCommand publicKey ident stake)
      -- The proposals leave together, once there is one for every three peers online.
      if turn.countOnline ≤ 3 * n.stackModifyStake.length then
        (n.stackTx crypto turn n.stackModifyStake []).andThen clearProposals
      else n
    else n
  else n

/-- An origin that votes for the local node receives credits. -/
def credited (n : Node) (origin : Text) (c : Command) : OrdMap Text Int :=
  match c.body with
  | .modifyStake publicKey _ _ =>
      if n.chain.mapPeer.has publicKey ∧ publicKey ≠ origin ∧ publicKey = n.chain.publicKey then
        n.mapStakeCredit.set origin ((n.mapStakeCredit.get? origin).getD 0 + 1)
      else n.mapStakeCredit
  | _ => n.mapStakeCredit

/-! ## §5. The candidate. -/

/-- The callback of the proposal timer. -/
def proposeBlock (n : Node) (turn : Turn) : Node :=
  n.transmit (n.toConsensus.propose crypto turn.now n.arrayPoolTx)

def processProposeBlock (n : Node) (turn : Turn) (b : BlockStruct) : Node :=
  if n.acceptable crypto b then
    ({ n with toConsensus := n.toConsensus.hold b }.calcValidator turn).andThen fun n =>
      (n.transmit (n.toConsensus.approve crypto turn.now n.validator b.hash)).andThen setupRetry
  else n

def processStatus (n : Node) (turn : Turn) (origin : Text) (kind height : Nat) : Node :=
  if kind = ONLINE then
    let n := { n with toConsensus := n.toConsensus.fetchSync height }
    if turn.pingVote then
      n.proposeModifyStake crypto turn origin STAKE_PING_IDENT STAKE_PING_AMOUNT
    else n
  else n

/-- `clear(block)`; without a block it is `clear()`. -/
def clear (n : Node) (b : Option BlockStruct) : Node :=
  let requeued : List RecordStack :=
    match n.ownTx with
    | none => []
    | some own =>
        -- The transaction in flight goes back to the front unless the block has it.
        if (b.map fun b => b.tx.any fun t => decide (t.sig = own.tx.sig)) = some true then []
        else [{ ident := own.tx.ident, commands := own.tx.commands }]
  { n with
    toConsensus := n.toConsensus.drop
    timeoutAddTx := false
    timeoutProposeBlock := false
    timeoutRetry := false
    stackTransaction := requeued ++ n.stackTransaction
    ownTx := none
    current := .empty
    arrayPoolTx := [] }

/-! ## §6. Calls in flight. -/

def setChain (n : Node) (chain : Blockchain) : Node := { n with chain := chain }

/-- The stake proposal inside `updateCache`, and what its answer changes. -/
def settleVote (n : Node) (turn : Turn) : Blockchain.StakeVote → Node
  | .skip => n
  | .throws => { n with halted := true }
  | .propose publicKey =>
      (n.proposeModifyStake crypto turn publicKey STAKE_VOTE_IDENT STAKE_VOTE_AMOUNT).andThen
        fun m =>
          if n.proposeAnswer publicKey STAKE_VOTE_IDENT then m.setChain (m.chain.dropVote publicKey)
          else m

/-- `updateCache`.  The cached height is the new one already when a stake
proposal is stacked, but the transaction in flight and the candidate are the
old ones. -/
def updateCache (n : Node) (turn : Turn) (b : BlockStruct) : Node :=
  let chain := (n.chain.cacheBlock b).countVotes b
  (n.setChain chain).settleVote crypto turn (chain.stakeVote b)

/-- `add` returns true and `addBlock` goes on. -/
def finishAdd (n : Node) (turn : Turn) (i : Nat) (t : AddTask) : Node :=
  let b := n.objects t.obj
  let m := n.updateCache crypto turn b
  -- The stake vote has thrown inside `updateCache`.
  if m.halted then { n with halted := true }
  else
    let m := { m with toConsensus := m.toConsensus.finish i t m.chain }.clear (some b)
    (m.calcValidator turn).andThen fun n => { n with timeoutAddTx := true }

/-- The `i`-th suspended call of `add` goes on. -/
def resumeAdd (n : Node) (turn : Turn) (i : Nat) : Node :=
  match n.adds[i]? with
  | none => n
  | some t =>
      match n.pending t with
      | some oc =>
          { n with
            toConsensus := n.toConsensus.runCommand i t oc
            mapStakeCredit := n.credited oc.1 oc.2 }
      | none => n.finishAdd crypto turn i t

/-! ## §7. Turns of the event loop. -/

inductive Event where
  /-- An API call. -/
  | stackTx (commands : List Command) (ident : Text)
  /-- A message that comes in; what does not pass the schemas is dropped. -/
  | message (m : Message)
  | timeoutAddTx
  | timeoutProposeBlock
  | timeoutRetry
  /-- The status message of the network. -/
  | timeoutStatus
  /-- The `i`-th suspended call of `add` goes on. -/
  | resumeAdd (i : Nat)
  /-- The request of the sync loop is answered. -/
  | syncAnswer (blocks : List BlockStruct)
  | continueSync
  /-- The network renews its list of peers. -/
  | p2pNetwork

/-- `processMessage`: the validator is calculated first, except for a status. -/
def processMessage (n : Node) (turn : Turn) (m : Message) : Node :=
  match m.data with
  | .addTx height tx =>
      (n.calcValidator turn).andThen fun n =>
        if n.isValidator n.chain.publicKey then n.processAddTx crypto m.origin height tx else n
  | .proposeBlock b =>
      (n.calcValidator turn).andThen fun n =>
        if n.isValidator m.origin then n.processProposeBlock crypto turn b else n
  | .signBlock hash sig =>
      (n.calcValidator turn).andThen fun n =>
        if n.isValidator n.chain.publicKey then
          n.transmit (n.toConsensus.processSignBlock crypto turn.now m.origin hash sig)
        else n
  | .confirmBlock hash votes =>
      (n.calcValidator turn).andThen fun n =>
        if n.isValidator m.origin then
          { n with toConsensus := n.toConsensus.processConfirmBlock crypto hash votes }
        else n
  | .status kind height => n.processStatus crypto turn m.origin kind height

def react (n : Node) (turn : Turn) : Event → Node
  | .stackTx commands ident => (n.stackTx crypto turn commands ident).rescue turn
  | .message m => if validateMessage m then n.processMessage crypto turn m else n
  | .timeoutAddTx =>
      if n.timeoutAddTx then { n with timeoutAddTx := false }.doAddTx crypto turn else n
  | .timeoutProposeBlock =>
      if n.timeoutProposeBlock then { n with timeoutProposeBlock := false }.proposeBlock crypto turn
      else n
  | .timeoutRetry => if n.timeoutRetry then (n.clear none).doAddTx crypto turn else n
  | .timeoutStatus => n.post (n.message turn.now [] (.status ONLINE n.chain.height))
  | .resumeAdd i => n.resumeAdd crypto turn i
  | .syncAnswer blocks => { n with toConsensus := n.toConsensus.answerSync blocks }
  | .continueSync => { n with toConsensus := n.toConsensus.continueSync crypto }
  | .p2pNetwork =>
      if n.chain.mapPeer.size < 2 then n
      else
        { n with
          arrayNetwork := (n.chain.mapPeer.values.map Peer.publicKey).insertionSort (· ≤ ·) }

/-- **One turn of the event loop.** -/
def step (n : Node) (turn : Turn) (e : Event) : Node := n.andThen fun n => n.react crypto turn e

theorem step_of_halted {n : Node} (h : n.halted = true) (turn : Turn) (e : Event) :
    n.step crypto turn e = n :=
  if_pos h

theorem step_of_running {n : Node} (h : n.halted = false) (turn : Turn) (e : Event) :
    n.step crypto turn e = n.react crypto turn e :=
  if_neg (by rw [h]; exact Bool.false_ne_true)

/-! ## §8. Runs. -/

/-- The states a node can reach by turns that are all `ok` where they happen. -/
inductive Reaches (ok : Node → Turn → Event → Prop) (n₀ : Node) : Node → Prop where
  | refl : Reaches ok n₀ n₀
  | step {n : Node} (h : Reaches ok n₀ n) (turn : Turn) (e : Event) (hok : ok n turn e) :
      Reaches ok n₀ (n.step crypto turn e)

/-- Any turn at all. -/
def AnyTurn (_ : Node) (_ : Turn) (_ : Event) : Prop := True

/-- The turn does not start a call of `add` while another is in flight. -/
def Sequential (n : Node) (turn : Turn) (e : Event) : Prop :=
  (n.step crypto turn e).adds.length ≤ 1

def run (n : Node) (l : List (Turn × Event)) : Node :=
  l.foldl (fun n x => n.step crypto x.1 x.2) n

/-- Every turn of the list is `ok` where it happens. -/
def Allowed (ok : Node → Turn → Event → Prop) : Node → List (Turn × Event) → Prop
  | _, [] => True
  | n, x :: l => ok n x.1 x.2 ∧ Allowed ok (n.step crypto x.1 x.2) l

instance decidableAllowed (ok : Node → Turn → Event → Prop)
    [∀ n turn e, Decidable (ok n turn e)] :
    ∀ (n : Node) (l : List (Turn × Event)), Decidable (Allowed crypto ok n l)
  | _, [] => isTrue trivial
  | n, x :: l =>
      have := decidableAllowed ok (n.step crypto x.1 x.2) l
      inferInstanceAs (Decidable (ok n x.1 x.2 ∧ _))

instance (n : Node) (turn : Turn) (e : Event) : Decidable (Sequential crypto n turn e) :=
  inferInstanceAs (Decidable ((n.step crypto turn e).adds.length ≤ 1))

theorem Reaches.run {ok : Node → Turn → Event → Prop} {n₀ : Node} :
    ∀ {n : Node} {l : List (Turn × Event)}, Reaches crypto ok n₀ n → Allowed crypto ok n l →
      Reaches crypto ok n₀ (n.run crypto l)
  | _, [], h, _ => h
  | n, x :: l, h, hl => by
      show Reaches crypto ok n₀ ((n.step crypto x.1 x.2).run crypto l)
      exact Reaches.run (h.step x.1 x.2 hl.1) hl.2

/-- Without a condition every list of turns is a run. -/
theorem allowed_anyTurn : ∀ (n : Node) (l : List (Turn × Event)), Allowed crypto AnyTurn n l
  | _, [] => trivial
  | n, x :: l => ⟨trivial, allowed_anyTurn (n.step crypto x.1 x.2) l⟩

end

end Node

end Divachain
