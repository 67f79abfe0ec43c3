/-
  Divachain.Net.Network — the network of a node: what it sends, and what it lets in.

  `Network` adds to `Node` the snapshot of peers to broadcast to, the sequence
  numbers seen so far, and who has been heard of.  `incomingData` is the way of
  a datagram: unpack, check, drop what is not newer, hand over, relay once.
  `broadcast` looks every addressee up in the peer table, and an exception ends
  the process (`raised`), unless the caller of `stackTx` catches it.

  Four fields are records kept for the proofs: `thrown` says that there has been
  an exception, `sends` has every datagram that went out, `delivered` every
  message handed over, and `departed` the peers that a command has removed since
  the snapshot was taken.

  Main result: `broadcast` does not throw if and only if every key it looks up
  is a peer's.
-/
import Divachain.Chain.Addresses
import Divachain.Lib.Shuffle
import Divachain.Net.Node
import Divachain.Net.Wire

namespace Divachain

open DataKit

/-! ## §1. State. -/

/-- A datagram handed to the UDP socket. -/
structure Send where
  udp : Text
  message : Message
  isFinalHop : Bool
  deriving DecidableEq, Repr

/-- A message handed to the block factory, with the datagram it came in and the
key that belongs to the sender's address. -/
structure Delivery where
  data : Bytes
  pk : Text
  message : Message
  deriving DecidableEq, Repr

/-- The arguments of a call of `broadcast`. -/
abbrev Call := Message × Bool

structure Network extends Node where
  arrayBroadcast : List Text
  mapMsgSeq : OrdMap Text Nat
  mapOnline : OrdMap Text Nat
  isClosing : Bool
  /-- `config.network_p2p_interval_ms`. -/
  interval : Nat
  raised : Bool
  thrown : Bool
  sends : List Send
  delivered : List Delivery
  departed : List Text

/-- `[type, origin].join()`. -/
def keySeq (type : Nat) (origin : Text) : Text := natText type ++ ',' :: origin

theorem keySeq_inj {type type' : Nat} {origin origin' : Text}
    (h : keySeq type origin = keySeq type' origin') : type = type' ∧ origin = origin' := by
  have hstop : ∀ t : Text, StopsAt (fun c => c.isDigit = true) (',' :: t) := fun _ => by
    show ¬ (',' : Char).isDigit = true
    decide
  obtain ⟨htype, hrest⟩ := span_unique (P := fun c => c.isDigit = true)
    (fun _ hc => isDigit_of_mem_natText hc) (fun _ hc => isDigit_of_mem_natText hc)
    (hstop _) (hstop _) h
  exact ⟨natText_injective htype, (List.cons.inj hrest).2⟩

/-- `[a[i], a[j]] = [a[j], a[i]]`. -/
def swap {α : Type} (a : List α) (i j : Nat) : List α :=
  match a[i]?, a[j]? with
  | some x, some y => (a.set i y).set j x
  | _, _ => a

/-- `Util.shuffleArray`; `random i` decides the round of the index `i`. -/
def shuffleArray {α : Type} (random : Nat → Nat) (array : List α) : List α :=
  (List.range' 1 (array.length - 1)).reverse.foldl (fun a i => swap a i (random i % (i + 1))) array

theorem swap_eq {α : Type} (a : List α) (i j : Nat) : swap a i j = exchange a i j := rfl

/-- The loop, round by round. -/
theorem shuffleArray_eq {α : Type} (random : Nat → Nat) (array : List α) :
    shuffleArray random array
      = shuffleFrom (fun i => random i % (i + 1)) (array.length - 1) array := by
  unfold shuffleArray
  generalize array.length - 1 = m
  induction m generalizing array with
  | zero => rfl
  | succ m ih =>
      rw [List.range'_concat, List.reverse_append, List.reverse_singleton, List.singleton_append,
        List.foldl_cons, ih, shuffleFrom, Nat.one_mul, Nat.add_comm 1 m, swap_eq]

theorem shuffleArray_perm {α : Type} (random : Nat → Nat) (array : List α) :
    (shuffleArray random array).Perm array := by
  rw [shuffleArray_eq]
  exact shuffleFrom_perm _ _ array

/-- The command a turn of the node applies, and its origin. -/
def Node.applied (n : Node) : Node.Event → Option (Text × Command)
  | .resumeAdd i => (n.adds[i]?).bind n.pending
  | _ => none

namespace Network

/-- A node over a chain, before its first turn. -/
def start (chain : Blockchain) (interval : Nat) : Network :=
  { Node.start chain with
    arrayBroadcast := []
    mapMsgSeq := .empty
    mapOnline := .empty
    isClosing := false
    interval := interval
    raised := false
    thrown := false
    sends := []
    delivered := []
    departed := [] }

/-- What the network knows goes into a turn of the node. -/
def view (net : Network) (turn : Turn) : Turn :=
  { turn with
    isOnline := fun pk =>
      decide (turn.now < (net.mapOnline.get? pk).getD 0 + 3 * net.interval)
    countOnline := net.mapOnline.size }

/-! ## §2. Sending. -/

/-- The keys `broadcast` looks up. -/
def addressees (net : Network) (m : Message) (isFinalHop : Bool) : List Text :=
  -- a relayed message that is addressed goes to its destination alone
  if isFinalHop = true ∧ m.dest ≠ [] then (if m.dest ≠ m.origin then [m.dest] else [])
  else net.arrayBroadcast.filter fun pk => decide (m.origin ≠ pk)

/-- `samUDP.send(getPeer(pk).udp, msg)`. -/
def sendTo (m : Message) (isFinalHop : Bool) (net : Network) (pk : Text) : Network :=
  if net.raised then net
  else
    match net.chain.mapPeer.get? pk with
    | some peer =>
        { net with
          sends := net.sends ++ [{ udp := peer.udp, message := m, isFinalHop := isFinalHop }] }
    -- reading `udp` of a peer that is not there throws
    | none => { net with raised := true }

def broadcast (net : Network) (m : Message) (isFinalHop : Bool) : Network :=
  (net.addressees m isFinalHop).foldl (sendTo m isFinalHop) net

/-- One call after the other. -/
def broadcastAll (net : Network) (calls : List Call) : Network :=
  calls.foldl (fun net call => net.broadcast call.1 call.2) net

/-- What the node has broadcast in a turn: its messages, all of its own. -/
def own (n n' : Node) : List Call :=
  (n'.posted.drop n.posted.length ++ n'.sent.drop n.sent.length).map fun m => (m, false)

section

variable (crypto : Crypto) (codec : Codec)

/-! ## §3. Datagrams. -/

/-- The message is newer than what has come of its type from its origin. -/
def isNew (net : Network) (m : Message) : Bool :=
  decide ((net.mapMsgSeq.get? (keySeq m.data.type m.origin)).getD 0 < m.seq)

/-- `_onMessage`, after the sequence number has been noted. -/
def deliver (net : Network) (turn : Turn) (data : Bytes) (pk : Text) (m : Message) : Network :=
  let net : Network :=
    { net with
      mapMsgSeq := net.mapMsgSeq.set (keySeq m.data.type m.origin) m.seq
      mapOnline := net.mapOnline.set pk turn.now
      delivered := net.delivered ++ [{ data := data, pk := pk, message := m }] }
  { net with toNode := net.toNode.step crypto (net.view turn) (.message m) }

/-- The condition for gossiping. -/
def relays (pk : Text) (m : Message) : Bool :=
  decide (m.data.type ≠ TYPE_STATUS) && decide (pk = m.origin)

/-- A message that has passed the stateless check: the state it leaves, and the
calls of `broadcast`. -/
def receive (net : Network) (turn : Turn) (data : Bytes) (pk : Text) (m : Message) :
    Network × List Call :=
  if net.isNew m then
    let net' := net.deliver crypto turn data pk m
    -- The consensus has its turn before the message is passed on.
    (net', own net.toNode net'.toNode
      ++ if net'.halted = false ∧ relays pk m = true then [(m, true)] else [])
  else (net, [])

/-- `incomingData`, up to its calls of `broadcast`. -/
def incoming (net : Network) (turn : Turn) (data : Bytes) (sender : Text) :
    Network × List Call :=
  if net.isClosing = true ∨ net.arrayNetwork = [] then (net, [])
  else
    let pk := net.chain.getPublicKeyByUdp sender
    -- no peer has this address
    if pk = [] then (net, [])
    else
      match validateUnpacked (unpack crypto codec data) with
      -- The check looks into `data` before it looks whether there is any.
      | none => ({ net with raised := true }, [])
      | some none => (net, [])
      | some (some m) => net.receive crypto turn data pk m

def incomingData (net : Network) (turn : Turn) (data : Bytes) (sender : Text) : Network :=
  let r := net.incoming crypto codec turn data sender
  r.1.broadcastAll r.2

/-! ## §4. Turns. -/

inductive Event where
  /-- A turn of the node that no datagram causes. -/
  | node (e : Node.Event)
  | datagram (data : Bytes) (sender : Text)
  /-- The timer of `p2pNetwork`; whether the connections stand. -/
  | p2pNetwork (samReady : Bool) (random : Nat → Nat)
  | shutdown

/-- The record of the peers that are gone, after a command. -/
def departure (l : Ledger) (departed : List Text) (c : Command) : List Text :=
  match c.body with
  | .removePeer publicKey => if l.hasPeer publicKey then departed ++ [publicKey] else departed
  | .addPeer _ _ publicKey => departed.filter fun pk => decide (pk ≠ publicKey)
  | _ => departed

def nodeTurn (net : Network) (turn : Turn) (e : Node.Event) : Network × List Call :=
  let n := net.toNode.step crypto (net.view turn) e
  ({ net with
      toNode := n
      departed := (net.toNode.applied e).elim net.departed fun oc =>
        departure net.chain.toLedger net.departed oc.2 },
    own net.toNode n)

/-- `p2pNetwork`.  The status it announces is an event of its own. -/
def renew (net : Network) (turn : Turn) (random : Nat → Nat) : Network :=
  let n := net.toNode.step crypto (net.view turn) .p2pNetwork
  { net with
    toNode := n
    arrayBroadcast := shuffleArray random
      (n.arrayNetwork.filter fun pk => decide (pk ≠ n.chain.publicKey))
    mapOnline := net.mapOnline.set n.chain.publicKey turn.now
    departed := [] }

/-- What a turn leaves, up to its calls of `broadcast`, and these calls. -/
def react (net : Network) (turn : Turn) : Event → Network × List Call
  -- messages and the timer of the network have their own events here
  | .node (.message _) | .node .p2pNetwork => (net, [])
  | .node e => net.nodeTurn crypto turn e
  | .datagram data sender => net.incoming crypto codec turn data sender
  | .p2pNetwork samReady random =>
      if net.chain.mapPeer.size < 2 ∨ samReady = false then (net, [])
      else (net.renew crypto turn random, [])
  | .shutdown => ({ net with isClosing := true }, [])

/-- The caller of `stackTx` catches what `broadcast` has thrown in this turn. -/
def rescues (turn : Turn) : Event → Bool
  | .node (.stackTx _ _) => turn.caught
  | _ => false

/-- What is left of an exception after the turn. -/
def settle (net : Network) (turn : Turn) (e : Event) : Network :=
  { net with
    raised := net.raised && !rescues turn e
    thrown := net.thrown || net.raised }

/-- **One turn of the event loop**, network included. -/
def step (net : Network) (turn : Turn) (e : Event) : Network :=
  -- The process has ended, or its sockets are closed.
  if net.raised = true ∨ net.halted = true ∨ net.isClosing = true then net
  else
    ((net.react crypto codec turn e).1.broadcastAll
      (net.react crypto codec turn e).2).settle turn e

/-- The calls of `broadcast` in a turn. -/
def calls (net : Network) (turn : Turn) (e : Event) : List Call :=
  if net.raised = true ∨ net.halted = true ∨ net.isClosing = true then []
  else (net.react crypto codec turn e).2

/-- The states a node can reach by turns that are all `ok` where they happen. -/
inductive Reaches (ok : Network → Turn → Event → Prop) (net₀ : Network) : Network → Prop where
  | refl : Reaches ok net₀ net₀
  | step {net : Network} (h : Reaches ok net₀ net) (turn : Turn) (e : Event)
      (hok : ok net turn e) : Reaches ok net₀ (net.step crypto codec turn e)

end

/-- The turn of the node in `p2pNetwork`. -/
theorem p2pNetwork_step (crypto : Crypto) {net : Network} (hrun : net.halted = false)
    (hsize : ¬ net.chain.mapPeer.size < 2) (turn : Turn) :
    net.toNode.step crypto (net.view turn) .p2pNetwork
      = { net.toNode with
          arrayNetwork := (net.chain.mapPeer.values.map Peer.publicKey).insertionSort (· ≤ ·) } := by
  rw [Node.step_of_running crypto hrun]
  exact if_neg hsize

/-- **A new snapshot** has the peers of the ledger, the node itself apart. -/
theorem renew_spec (crypto : Crypto) (net : Network) (hrun : net.halted = false)
    (hsize : ¬ net.chain.mapPeer.size < 2) (turn : Turn) (random : Nat → Nat) :
    (net.renew crypto turn random).chain = net.chain
      ∧ (net.renew crypto turn random).arrayBroadcast.Perm
        ((net.chain.mapPeer.values.map Peer.publicKey).filter fun pk =>
          decide (pk ≠ net.chain.publicKey)) := by
  -- The list of the network is sorted; the snapshot is that list, filtered and shuffled.
  unfold renew
  rw [p2pNetwork_step crypto hrun hsize]
  refine ⟨rfl, (shuffleArray_perm random _).trans ?_⟩
  exact (List.perm_insertionSort (· ≤ ·) _).filter _

/-! ## §5. What `broadcast` does. -/

section

variable (m : Message) (isFinalHop : Bool)

theorem sendTo_raised_iff {net : Network} {pk : Text} :
    (sendTo m isFinalHop net pk).raised = false
      ↔ net.raised = false ∧ net.chain.mapPeer.has pk = true := by
  unfold sendTo
  cases hraised : net.raised with
  | true => simp [hraised]
  | false =>
      rw [if_neg Bool.false_ne_true]
      cases hpeer : net.chain.mapPeer.get? pk <;> simp [OrdMap.has, hpeer]

/-- Sending changes nothing but the log, unless it throws. -/
structure SameBut (net net' : Network) : Prop where
  node : net'.toNode = net.toNode
  arrayBroadcast : net'.arrayBroadcast = net.arrayBroadcast
  mapMsgSeq : net'.mapMsgSeq = net.mapMsgSeq
  mapOnline : net'.mapOnline = net.mapOnline
  isClosing : net'.isClosing = net.isClosing
  interval : net'.interval = net.interval
  delivered : net'.delivered = net.delivered
  departed : net'.departed = net.departed
  thrown : net'.thrown = net.thrown

theorem SameBut.refl (net : Network) : SameBut net net :=
  ⟨rfl, rfl, rfl, rfl, rfl, rfl, rfl, rfl, rfl⟩

theorem SameBut.trans {net net' net'' : Network} (h : SameBut net net') (h' : SameBut net' net'') :
    SameBut net net'' :=
  ⟨h'.node.trans h.node, h'.arrayBroadcast.trans h.arrayBroadcast,
    h'.mapMsgSeq.trans h.mapMsgSeq, h'.mapOnline.trans h.mapOnline,
    h'.isClosing.trans h.isClosing, h'.interval.trans h.interval,
    h'.delivered.trans h.delivered, h'.departed.trans h.departed, h'.thrown.trans h.thrown⟩

theorem sameBut_sendTo (net : Network) (pk : Text) : SameBut net (sendTo m isFinalHop net pk) := by
  unfold sendTo
  split
  · exact .refl net
  · split
    · exact ⟨rfl, rfl, rfl, rfl, rfl, rfl, rfl, rfl, rfl⟩
    · exact ⟨rfl, rfl, rfl, rfl, rfl, rfl, rfl, rfl, rfl⟩

theorem sameBut_foldl_sendTo (net : Network) (pks : List Text) :
    SameBut net (pks.foldl (sendTo m isFinalHop) net) := by
  induction pks generalizing net with
  | nil => exact .refl net
  | cons pk pks ih => exact (sameBut_sendTo m isFinalHop net pk).trans (ih _)

theorem foldl_sendTo_raised_iff {net : Network} {pks : List Text} :
    (pks.foldl (sendTo m isFinalHop) net).raised = false
      ↔ net.raised = false ∧ ∀ pk ∈ pks, net.chain.mapPeer.has pk = true := by
  induction pks generalizing net with
  | nil => simp
  | cons pk pks ih =>
      have hnode := (sameBut_sendTo m isFinalHop net pk).node
      rw [List.foldl_cons, ih, sendTo_raised_iff, hnode, List.forall_mem_cons, and_assoc]

theorem sameBut_broadcast (net : Network) : SameBut net (net.broadcast m isFinalHop) :=
  sameBut_foldl_sendTo m isFinalHop net _

/-- **`broadcast` does not throw** exactly if every key it looks up is a peer's. -/
theorem broadcast_raised_iff {net : Network} :
    (net.broadcast m isFinalHop).raised = false
      ↔ net.raised = false
        ∧ ∀ pk ∈ net.addressees m isFinalHop, net.chain.mapPeer.has pk = true :=
  foldl_sendTo_raised_iff m isFinalHop

end

theorem sameBut_broadcastAll (net : Network) (calls : List Call) :
    SameBut net (net.broadcastAll calls) := by
  unfold broadcastAll
  induction calls generalizing net with
  | nil => exact .refl net
  | cons call calls ih => exact (sameBut_broadcast call.1 call.2 net).trans (ih _)

theorem addressees_of_sameBut {net net' : Network} (h : SameBut net net') (m : Message)
    (isFinalHop : Bool) : net'.addressees m isFinalHop = net.addressees m isFinalHop := by
  unfold addressees
  rw [h.arrayBroadcast]

theorem broadcastAll_raised_iff {net : Network} {calls : List Call} :
    (net.broadcastAll calls).raised = false
      ↔ net.raised = false ∧ ∀ call ∈ calls, ∀ pk ∈ net.addressees call.1 call.2,
        net.chain.mapPeer.has pk = true := by
  unfold broadcastAll
  induction calls generalizing net with
  | nil => simp
  | cons call calls ih =>
      have hsame := sameBut_broadcast call.1 call.2 net
      rw [List.foldl_cons, ih, broadcast_raised_iff, hsame.node, List.forall_mem_cons, and_assoc]
      simp only [addressees_of_sameBut hsame]

end Network

end Divachain
