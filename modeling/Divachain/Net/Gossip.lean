/-
  Divachain.Net.Gossip — what reaches the block factory, and how far a message spreads.

  `incomingData` notes the sequence number of a message before it hands the
  message over, and relays it once, if it came from its origin.  A `Journal`
  follows a node through its turns, in any order and with any datagrams, and
  keeps its calls of `broadcast`; `run` follows many nodes.

  Main result: what is handed over carries the signature of its origin, its
  sequence numbers rise, and it is relayed once and only by those who have it
  from its origin; so one message causes at most (1 + nodes) * peers datagrams.
-/
import Mathlib.Algebra.BigOperators.Group.Finset.Basic
import Mathlib.Algebra.BigOperators.Ring.Finset
import Mathlib.Algebra.Order.BigOperators.Group.Finset
import Mathlib.Data.Finset.Lattice.Fold
import Mathlib.Order.Lattice.Nat
import Divachain.Lib.Newest
import Divachain.Net.Network

namespace Divachain

open DataKit

/-- The datagram carries the message, in a text that its origin has signed. -/
def Carries (crypto : Crypto) (codec : Codec) (data : Bytes) (m : Message) : Prop :=
  ∃ message sig inflated j,
    Unpacks crypto codec data message sig inflated (.str m.origin) j
      ∧ Message.ofJson j = some m
      ∧ crypto.verifySignature m.origin sig message = true

/-- What makes messages the same to `incomingData`. -/
def Message.stamp (m : Message) : Nat × Text × Nat := (m.data.type, m.origin, m.seq)

/-- The key and the number under which a message is noted. -/
def Message.numbered (m : Message) : Text × Nat := (keySeq m.data.type m.origin, m.seq)

theorem Message.numbered_eq_iff (m m' : Message) :
    m.numbered = m'.numbered ↔ m.stamp = m'.stamp := by
  unfold numbered stamp
  simp only [Prod.mk.injEq]
  constructor
  · rintro ⟨hkey, hseq⟩
    obtain ⟨htype, horigin⟩ := keySeq_inj hkey
    exact ⟨htype, horigin, hseq⟩
  · rintro ⟨htype, horigin, hseq⟩
    rw [htype, horigin]
    exact ⟨rfl, hseq⟩

/-- **What passes the check is carried by its datagram.** -/
theorem carries_of_valid {crypto : Crypto} {codec : Codec} {data : Bytes} {m : Message}
    (h : validateUnpacked (unpack crypto codec data) = some (some m)) :
    Carries crypto codec data m := by
  have hshape := ((validateUnpacked_eq_some_iff _ m).mp h).1
  unfold unpack at hshape
  cases hj : unpacked crypto codec data with
  | none =>
      -- the empty object has no fields
      rw [hj] at hshape
      exact nomatch hshape
  | some j =>
      rw [hj, Option.getD_some] at hshape
      obtain ⟨message, sig, inflated, origin, hu⟩ := unpacked_eq_some_iff.mp hj
      have horigin : origin = .str m.origin := by
        have hread := (Message.readFrom hshape).origin
        rw [hu.claimed] at hread
        exact Option.some.inj (Option.some.inj hread)
      rw [horigin] at hu
      exact ⟨message, sig, inflated, j, hu, hshape, hu.verified⟩

namespace Network

/-! ## §1. What comes in. -/

section

variable {crypto : Crypto} {codec : Codec} (net : Network) (turn : Turn)

/-- The messages among the calls that are relayed. -/
def relaysOf (calls : List Call) : List Message := (calls.filter Prod.snd).map Prod.fst

theorem relaysOf_append (calls calls' : List Call) :
    relaysOf (calls ++ calls') = relaysOf calls ++ relaysOf calls' := by
  unfold relaysOf
  rw [List.filter_append, List.map_append]

/-- The messages handed over that came directly from their origins. -/
def direct (delivered : List Delivery) : List Message :=
  (delivered.filter fun d => relays d.pk d.message).map Delivery.message

theorem direct_concat (delivered : List Delivery) (d : Delivery) :
    direct (delivered ++ [d])
      = direct delivered ++ if relays d.pk d.message then [d.message] else [] := by
  unfold direct
  cases hrelay : relays d.pk d.message <;> simp [hrelay]

theorem relaysOf_own (n n' : Node) : relaysOf (own n n') = [] := by
  unfold relaysOf own
  rw [List.filter_map, List.map_map]
  simp [Function.comp_def]

/-- A turn that hands a message over. -/
structure Hands (crypto : Crypto) (codec : Codec) (net net' : Network) (calls : List Call)
    (d : Delivery) : Prop where
  carried : Carries crypto codec d.data d.message
  isNew : net.isNew d.message = true
  mapMsgSeq : net'.mapMsgSeq
    = net.mapMsgSeq.set (keySeq d.message.data.type d.message.origin) d.message.seq
  delivered : net'.delivered = net.delivered ++ [d]
  relayed : (relaysOf calls).Sublist (if relays d.pk d.message then [d.message] else [])

/-- A turn that hands nothing over. -/
structure Quiet (net net' : Network) (calls : List Call) : Prop where
  mapMsgSeq : net'.mapMsgSeq = net.mapMsgSeq
  delivered : net'.delivered = net.delivered
  relayed : relaysOf calls = []

theorem hands_receive {data : Bytes} {pk : Text} {m : Message}
    (hm : Carries crypto codec data m) (hnew : net.isNew m = true) :
    Hands crypto codec net (net.receive crypto turn data pk m).1
      (net.receive crypto turn data pk m).2 ⟨data, pk, m⟩ := by
  unfold receive
  rw [if_pos hnew]
  refine ⟨hm, hnew, rfl, rfl, ?_⟩
  dsimp only
  rw [relaysOf_append, relaysOf_own, List.nil_append]
  split
  next hrelay =>
    rw [if_pos hrelay.2]
    exact List.Sublist.refl _
  next => exact List.nil_sublist _

variable (crypto codec)

/-- **What comes in is handed over or dropped.** -/
theorem incoming_cases (data : Bytes) (sender : Text) :
    Quiet net (net.incoming crypto codec turn data sender).1
        (net.incoming crypto codec turn data sender).2
      ∨ ∃ d, Hands crypto codec net (net.incoming crypto codec turn data sender).1
        (net.incoming crypto codec turn data sender).2 d := by
  unfold incoming
  split
  · exact Or.inl ⟨rfl, rfl, rfl⟩
  dsimp only
  split
  · exact Or.inl ⟨rfl, rfl, rfl⟩
  split
  · exact Or.inl ⟨rfl, rfl, rfl⟩
  · exact Or.inl ⟨rfl, rfl, rfl⟩
  -- A well-formed message is handed on if it is new, and dropped if it is not.
  next m hvalid =>
    by_cases hnew : net.isNew m = true
    · exact Or.inr ⟨_, hands_receive net turn (carries_of_valid hvalid) hnew⟩
    · left
      unfold receive
      rw [if_neg hnew]
      exact ⟨rfl, rfl, rfl⟩

theorem react_cases (e : Event) :
    Quiet net (net.react crypto codec turn e).1 (net.react crypto codec turn e).2
      ∨ ∃ d, Hands crypto codec net (net.react crypto codec turn e).1
        (net.react crypto codec turn e).2 d := by
  unfold react
  split
  · exact Or.inl ⟨rfl, rfl, rfl⟩
  · exact Or.inl ⟨rfl, rfl, rfl⟩
  · exact Or.inl ⟨rfl, rfl, relaysOf_own _ _⟩
  · exact net.incoming_cases crypto codec turn _ _
  · split
    · exact Or.inl ⟨rfl, rfl, rfl⟩
    · exact Or.inl ⟨rfl, rfl, rfl⟩
  · exact Or.inl ⟨rfl, rfl, rfl⟩

end

/-! ## §2. What goes out. -/

section

variable (net : Network) (s : Nat × Text × Nat)

/-- The datagrams sent with this stamp. -/
def sendings : Nat := net.sends.countP fun send => decide (send.message.stamp = s)

/-- The calls of `broadcast` with this stamp. -/
def callings (calls : List Call) : Nat := calls.countP fun call => decide (call.1.stamp = s)

theorem callings_append (calls calls' : List Call) :
    callings s (calls ++ calls') = callings s calls + callings s calls' :=
  List.countP_append

/-- No call goes to more addresses than this. -/
def width : Nat := max net.arrayBroadcast.length net.chain.mapPeer.size

theorem sendings_sendTo (m : Message) (isFinalHop : Bool) (pk : Text) :
    (sendTo m isFinalHop net pk).sendings s
      ≤ net.sendings s
        + if m.stamp = s ∧ net.chain.mapPeer.has pk = true then 1 else 0 := by
  unfold sendTo
  split
  · omega
  · split
    next peer hpeer =>
      unfold sendings
      dsimp only
      rw [List.countP_append, List.countP_singleton]
      simp [OrdMap.has, hpeer]
    next => exact Nat.le_add_right _ _

theorem sendings_foldl_sendTo (m : Message) (isFinalHop : Bool) (pks : List Text) :
    (pks.foldl (sendTo m isFinalHop) net).sendings s
      ≤ net.sendings s
        + if m.stamp = s then (pks.filter net.chain.mapPeer.has).length else 0 := by
  induction pks generalizing net with
  | nil => exact Nat.le_add_right _ _
  | cons pk pks ih =>
      have hnode := (sameBut_sendTo m isFinalHop net pk).node
      have hfirst := net.sendings_sendTo s m isFinalHop pk
      have hrest := ih (sendTo m isFinalHop net pk)
      rw [hnode] at hrest
      rw [List.foldl_cons, List.filter_cons]
      -- Only a message with the counted stamp adds, and only for a peer that is known.
      by_cases hstamp : m.stamp = s
      · rw [if_pos hstamp] at hrest ⊢
        by_cases hhas : net.chain.mapPeer.has pk = true
        · rw [if_pos ⟨hstamp, hhas⟩] at hfirst
          rw [if_pos hhas, List.length_cons]
          omega
        · rw [if_neg (fun h => hhas h.2)] at hfirst
          rw [if_neg hhas]
          omega
      · rw [if_neg hstamp] at hrest ⊢
        rw [if_neg (fun h => hstamp h.1)] at hfirst
        omega

theorem size_pos_of_has {κ ν : Type} [DecidableEq κ] {m : OrdMap κ ν} {k : κ}
    (h : m.has k = true) : 0 < m.size := by
  obtain ⟨e, he, -⟩ := List.mem_map.mp ((OrdMap.has_iff m k).mp h)
  exact List.length_pos_of_mem he

/-- A relay to one receiver needs a peer, all other calls go to the snapshot. -/
theorem length_addressees_le (m : Message) (isFinalHop : Bool) :
    ((net.addressees m isFinalHop).filter net.chain.mapPeer.has).length ≤ net.width := by
  unfold addressees width
  split
  · split
    · by_cases hhas : net.chain.mapPeer.has m.dest = true
      · have hpos := size_pos_of_has hhas
        rw [List.filter_cons, if_pos hhas]
        simp only [List.filter_nil, List.length_cons, List.length_nil]
        omega
      · rw [List.filter_cons, if_neg hhas]
        exact Nat.zero_le _
    · exact Nat.zero_le _
  · have hpeers := List.length_filter_le net.chain.mapPeer.has
      (net.arrayBroadcast.filter fun pk => decide (m.origin ≠ pk))
    have hall := List.length_filter_le (fun pk => decide (m.origin ≠ pk)) net.arrayBroadcast
    omega

theorem width_of_sameBut {net net' : Network} (h : SameBut net net') : net'.width = net.width := by
  unfold width
  rw [h.arrayBroadcast, h.node]

/-- **What the calls of a turn send.** -/
theorem sendings_broadcastAll (calls : List Call) :
    (net.broadcastAll calls).sendings s ≤ net.sendings s + callings s calls * net.width := by
  unfold broadcastAll
  induction calls generalizing net with
  | nil => exact Nat.le_add_right _ _
  | cons call calls ih =>
      have hrest := ih (net.broadcast call.1 call.2)
      rw [width_of_sameBut (sameBut_broadcast call.1 call.2 net)] at hrest
      have hfirst := net.sendings_foldl_sendTo s call.1 call.2 (net.addressees call.1 call.2)
      have hwidth := net.length_addressees_le call.1 call.2
      rw [List.foldl_cons]
      unfold callings at hrest ⊢
      rw [List.countP_cons]
      change (net.broadcast call.1 call.2).sendings s ≤ _ at hfirst
      -- One call sends to at most `width` peers, and a call changes no width.
      by_cases hstamp : call.1.stamp = s
      · rw [if_pos hstamp] at hfirst
        rw [if_pos (decide_eq_true hstamp), Nat.add_mul, Nat.one_mul]
        omega
      · rw [if_neg hstamp] at hfirst
        rw [if_neg (by simp [hstamp]), Nat.add_zero]
        omega

end

section

variable (crypto : Crypto) (codec : Codec) (net : Network) (turn : Turn)

theorem incoming_keeps (data : Bytes) (sender : Text) :
    (net.incoming crypto codec turn data sender).1.sends = net.sends
      ∧ (net.incoming crypto codec turn data sender).1.arrayBroadcast = net.arrayBroadcast := by
  unfold incoming
  split
  · exact ⟨rfl, rfl⟩
  dsimp only
  split
  · exact ⟨rfl, rfl⟩
  split
  · exact ⟨rfl, rfl⟩
  · exact ⟨rfl, rfl⟩
  · unfold receive
    split
    · exact ⟨rfl, rfl⟩
    · exact ⟨rfl, rfl⟩

/-- Nothing is sent before the calls of `broadcast`. -/
theorem sends_react (e : Event) : (net.react crypto codec turn e).1.sends = net.sends := by
  unfold react
  split
  · rfl
  · rfl
  · rfl
  · exact (net.incoming_keeps crypto codec turn _ _).1
  · split <;> rfl
  · rfl

/-- The snapshot stays, or is taken anew. -/
theorem snapshot_react (hrun : net.halted = false) (e : Event) :
    (net.react crypto codec turn e).1.arrayBroadcast = net.arrayBroadcast
      ∨ (net.react crypto codec turn e).1.arrayBroadcast.length
        ≤ (net.react crypto codec turn e).1.chain.mapPeer.size := by
  unfold react
  split
  · exact Or.inl rfl
  · exact Or.inl rfl
  · exact Or.inl rfl
  · exact Or.inl (net.incoming_keeps crypto codec turn _ _).2
  -- The renewal is the only event that writes the snapshot: the other peers, shuffled.
  · split
    · exact Or.inl rfl
    next random hready =>
      right
      rw [not_or] at hready
      obtain ⟨hchain, hperm⟩ := renew_spec crypto net hrun hready.1 turn random
      have hlength := List.length_filter_le (fun pk => decide (pk ≠ net.chain.publicKey))
        (net.chain.mapPeer.values.map Peer.publicKey)
      rw [← hperm.length_eq, List.length_map, OrdMap.values, List.length_map] at hlength
      dsimp only
      rw [hchain]
      exact hlength
  · exact Or.inl rfl

end

/-! ## §3. Journals. -/

/-- A node, its calls of `broadcast` so far, and the largest number of peers it
has had. -/
structure Journal where
  net : Network
  calls : List Call
  peers : Nat

namespace Journal

def start (net : Network) : Journal := { net := net, calls := [], peers := net.chain.mapPeer.size }

def turn (crypto : Crypto) (codec : Codec) (j : Journal) (turn : Turn) (e : Event) : Journal :=
  { net := j.net.step crypto codec turn e
    calls := j.calls ++ j.net.calls crypto codec turn e
    peers := max j.peers (j.net.step crypto codec turn e).chain.mapPeer.size }

/-- The calls of `broadcast` with this stamp that were no relays. -/
def originals (j : Journal) (s : Nat × Text × Nat) : Nat :=
  callings s (j.calls.filter fun call => !call.2)

end Journal

/-! ## §4. The invariant of a journal. -/

/-- What a node has handed over, relayed and sent. -/
structure Orderly (crypto : Crypto) (codec : Codec) (j : Journal) : Prop where
  carried : ∀ d ∈ j.net.delivered, Carries crypto codec d.data d.message
  passed : Passed j.net.mapMsgSeq (j.net.delivered.map fun d => d.message.numbered)
  relayed : (relaysOf j.calls).Sublist (direct j.net.delivered)
  snapshot : j.net.arrayBroadcast.length ≤ j.peers
  sendings : ∀ s, j.net.sendings s ≤ callings s j.calls * j.peers

namespace Orderly

variable {crypto : Crypto} {codec : Codec}

theorem start (chain : Blockchain) (interval : Nat) :
    Orderly crypto codec (Journal.start (Network.start chain interval)) :=
  ⟨fun _ hd => (nomatch hd), Passed.empty, List.Sublist.refl _, Nat.zero_le _,
    fun _ => Nat.zero_le _⟩

/-- A node that has stopped does nothing. -/
theorem idle {j : Journal} (h : Orderly crypto codec j) (peers : Nat) :
    Orderly crypto codec { net := j.net, calls := j.calls ++ [], peers := max j.peers peers } := by
  refine ⟨h.carried, h.passed, ?_, h.snapshot.trans (le_max_left _ _), ?_⟩
  · rw [List.append_nil]
    exact h.relayed
  · intro s
    rw [List.append_nil]
    exact (h.sendings s).trans (Nat.mul_le_mul_left _ (le_max_left _ _))

/-- The receiving side of a turn. -/
theorem receive {j : Journal} (h : Orderly crypto codec j) {net : Network} {calls : List Call}
    (hcases : Quiet j.net net calls ∨ ∃ d, Hands crypto codec j.net net calls d) :
    (∀ d ∈ net.delivered, Carries crypto codec d.data d.message)
      ∧ Passed net.mapMsgSeq (net.delivered.map fun d => d.message.numbered)
      ∧ (relaysOf (j.calls ++ calls)).Sublist (direct net.delivered) := by
  rw [relaysOf_append]
  rcases hcases with hquiet | ⟨d, hhands⟩
  · rw [hquiet.delivered, hquiet.mapMsgSeq, hquiet.relayed, List.append_nil]
    exact ⟨h.carried, h.passed, h.relayed⟩
  · rw [hhands.delivered, hhands.mapMsgSeq, List.map_append, direct_concat]
    refine ⟨?_, h.passed.pass (of_decide_eq_true hhands.isNew), h.relayed.append hhands.relayed⟩
    intro d' hd'
    rcases List.mem_append.mp hd' with hd' | hd'
    · exact h.carried d' hd'
    · rw [List.mem_singleton.mp hd']
      exact hhands.carried

/-- The sending side. -/
theorem send {j : Journal} (h : Orderly crypto codec j) {net : Network} (calls : List Call)
    {peers : Nat} (hpeers : j.peers ≤ peers) (hwidth : net.width ≤ peers)
    (hsends : net.sends = j.net.sends) (s : Nat × Text × Nat) :
    (net.broadcastAll calls).sendings s ≤ callings s (j.calls ++ calls) * peers := by
  have hturn := net.sendings_broadcastAll s calls
  have hbefore : net.sendings s ≤ callings s j.calls * j.peers := by
    unfold Network.sendings
    rw [hsends]
    exact h.sendings s
  calc (net.broadcastAll calls).sendings s
      ≤ net.sendings s + callings s calls * net.width := hturn
    _ ≤ callings s j.calls * peers + callings s calls * peers :=
        Nat.add_le_add (hbefore.trans (Nat.mul_le_mul_left _ hpeers)) (Nat.mul_le_mul_left _ hwidth)
    _ = callings s (j.calls ++ calls) * peers := by
        rw [callings_append, Nat.add_mul]

/-- What is left of an exception is in none of these fields. -/
theorem settle {net : Network} {calls : List Call} {peers : Nat}
    (h : Orderly crypto codec { net := net, calls := calls, peers := peers }) (turn : Turn)
    (e : Event) :
    Orderly crypto codec { net := net.settle turn e, calls := calls, peers := peers } :=
  ⟨h.carried, h.passed, h.relayed, h.snapshot, h.sendings⟩

/-- **One turn.** -/
theorem turn {j : Journal} (h : Orderly crypto codec j) (turn : Turn) (e : Event) :
    Orderly crypto codec (j.turn crypto codec turn e) := by
  unfold Journal.turn Network.step Network.calls
  by_cases hstop : j.net.raised = true ∨ j.net.halted = true ∨ j.net.isClosing = true
  · rw [if_pos hstop, if_pos hstop]
    exact h.idle _
  rw [if_neg hstop, if_neg hstop]
  have hrun : j.net.halted = false := by
    rw [← Bool.not_eq_true]
    exact fun hhalt => hstop (Or.inr (Or.inl hhalt))
  have hcases := j.net.react_cases crypto codec turn e
  have hsends := j.net.sends_react crypto codec turn e
  have hsnapshot := j.net.snapshot_react crypto codec turn hrun e
  generalize j.net.react crypto codec turn e = r at hcases hsends hsnapshot
  obtain ⟨net, calls⟩ := r
  have hsame := sameBut_broadcastAll net calls
  have hsize : ((net.broadcastAll calls).settle turn e).chain.mapPeer.size
      = net.chain.mapPeer.size := by
    show (net.broadcastAll calls).chain.mapPeer.size = _
    rw [hsame.node]
  -- A snapshot is never longer than the largest peer map seen so far.
  have hlength : net.arrayBroadcast.length ≤ max j.peers net.chain.mapPeer.size := by
    rcases hsnapshot with hkept | hnew
    · have hold := h.snapshot
      rw [hkept]
      omega
    · exact hnew.trans (le_max_right _ _)
  obtain ⟨hcarried, hpassed, hrelayed⟩ := h.receive hcases
  refine Orderly.settle ⟨?_, ?_, ?_, ?_, ?_⟩ turn e
  · rw [hsame.delivered]
    exact hcarried
  · rw [hsame.delivered, hsame.mapMsgSeq]
    exact hpassed
  · rw [hsame.delivered]
    exact hrelayed
  · rw [hsame.arrayBroadcast, hsize]
    exact hlength
  · rw [hsize]
    exact h.send calls (le_max_left _ _) (max_le hlength (le_max_right _ _)) hsends

/-- No two messages handed over have one stamp. -/
theorem stamps_nodup {j : Journal} (h : Orderly crypto codec j) :
    (j.net.delivered.map fun d => d.message.stamp).Nodup := by
  have hpassed := h.passed.nodup
  rw [List.Nodup, List.pairwise_map] at hpassed ⊢
  refine hpassed.imp ?_
  intro d d' hne heq
  exact hne ((Message.numbered_eq_iff _ _).mpr heq)

/-- **One relay at most for a stamp.** -/
theorem callings_le {j : Journal} (h : Orderly crypto codec j) (s : Nat × Text × Nat) :
    callings s j.calls ≤ j.originals s + 1 := by
  -- Calls are relays or originals; the relays carry distinct stamps, as they are
  -- among the direct deliveries, which are taken once only.
  have hsplit := List.countP_eq_countP_filter_add j.calls
    (fun call : Call => decide (call.1.stamp = s)) Prod.snd
  have hrelays : (j.calls.filter Prod.snd).countP (fun call => decide (call.1.stamp = s))
      = ((relaysOf j.calls).map Message.stamp).count s := by
    unfold relaysOf List.count
    rw [List.map_map, List.countP_map]
    refine List.countP_congr ?_
    intro call _
    simp
  have hdirect : ((direct j.net.delivered).map Message.stamp).Sublist
      (j.net.delivered.map fun d => d.message.stamp) := by
    unfold direct
    rw [List.map_map]
    exact (List.filter_sublist).map _
  have honce : ((relaysOf j.calls).map Message.stamp).count s ≤ 1 :=
    List.nodup_iff_count_le_one.mp
      (((h.relayed.map Message.stamp).trans hdirect).nodup h.stamps_nodup) s
  rw [hrelays] at hsplit
  unfold Journal.originals callings
  omega

end Orderly

/-! ## §5. Many nodes. -/

/-- The messages a node has handed over and relayed: each carries the signature
of its origin, none came twice, the sequence numbers of an origin rise, and each
was relayed once at most, and only if it came from its origin. -/
structure OnceOnly (crypto : Crypto) (codec : Codec) (j : Journal) : Prop where
  carried : ∀ d ∈ j.net.delivered, Carries crypto codec d.data d.message
  once : (j.net.delivered.map fun d => d.message.stamp).Nodup
  rising : j.net.delivered.Pairwise fun d d' =>
    d.message.data.type = d'.message.data.type → d.message.origin = d'.message.origin →
      d.message.seq < d'.message.seq
  relayed : (relaysOf j.calls).Sublist (direct j.net.delivered)

theorem Orderly.onceOnly {crypto : Crypto} {codec : Codec} {j : Journal}
    (h : Orderly crypto codec j) : OnceOnly crypto codec j := by
  refine ⟨h.carried, h.stamps_nodup, ?_, h.relayed⟩
  have hincreasing := h.passed.increasing
  rw [List.pairwise_map] at hincreasing
  refine hincreasing.imp ?_
  intro d d' hlt htype horigin
  refine hlt ?_
  show keySeq _ _ = keySeq _ _
  rw [htype, horigin]

variable (crypto : Crypto) (codec : Codec)

/-- The journals of the nodes after these turns; each turn is one node's, and the
datagrams may come from anywhere. -/
def run {n : Nat} (nets : Fin n → Network) (turns : List (Fin n × Turn × Event)) :
    Fin n → Journal :=
  turns.foldl (fun js t => Function.update js t.1 ((js t.1).turn crypto codec t.2.1 t.2.2))
    fun i => .start (nets i)

theorem orderly_run {n : Nat} (chains : Fin n → Blockchain) (interval : Fin n → Nat)
    (turns : List (Fin n × Turn × Event)) (i : Fin n) :
    Orderly crypto codec (run crypto codec (fun i => start (chains i) (interval i)) turns i) := by
  have hall : ∀ js : Fin n → Journal, (∀ i, Orderly crypto codec (js i)) →
      ∀ i, Orderly crypto codec (turns.foldl (fun js t =>
        Function.update js t.1 ((js t.1).turn crypto codec t.2.1 t.2.2)) js i) := by
    induction turns with
    | nil => exact fun js h => h
    | cons t turns ih =>
        intro js h
        refine ih _ ?_
        intro i
        show Orderly crypto codec (Function.update js t.1 _ i)
        by_cases hi : i = t.1
        · rw [hi, Function.update_self]
          exact (h t.1).turn t.2.1 t.2.2
        · rw [Function.update_of_ne hi]
          exact h i
  exact hall _ (fun i => Orderly.start (chains i) (interval i)) i

/-- **Authentic delivery, at most once**, on every node of every run; and the
datagrams of one stamp are at most those of its original calls of `broadcast` and
of one relay by every node, each to all peers. -/
theorem gossip {n : Nat} (chains : Fin n → Blockchain) (interval : Fin n → Nat)
    (turns : List (Fin n × Turn × Event)) :
    (∀ i, OnceOnly crypto codec (run crypto codec (fun i => start (chains i) (interval i)) turns i))
      ∧ ∀ s, ∑ i, (run crypto codec (fun i => start (chains i) (interval i)) turns i).net.sendings s
        ≤ (∑ i, (run crypto codec (fun i => start (chains i) (interval i)) turns i).originals s + n)
          * Finset.univ.sup fun i =>
            (run crypto codec (fun i => start (chains i) (interval i)) turns i).peers := by
  have horderly := orderly_run crypto codec chains interval turns
  generalize run crypto codec (fun i => start (chains i) (interval i)) turns = js at horderly ⊢
  refine ⟨fun i => (horderly i).onceOnly, ?_⟩
  intro s
  set peers : Nat := Finset.univ.sup fun i => (js i).peers with hpeers
  -- One relay and its originals for each node, each to at most `peers` peers.
  have hnode : ∀ i, (js i).net.sendings s ≤ ((js i).originals s + 1) * peers := by
    intro i
    have hle : (js i).peers ≤ peers := by
      rw [hpeers]
      exact Finset.le_sup (f := fun i => (js i).peers) (Finset.mem_univ i)
    calc (js i).net.sendings s
        ≤ callings s (js i).calls * (js i).peers := (horderly i).sendings s
      _ ≤ ((js i).originals s + 1) * peers := Nat.mul_le_mul ((horderly i).callings_le s) hle
  calc ∑ i, (js i).net.sendings s
      ≤ ∑ i, ((js i).originals s + 1) * peers := Finset.sum_le_sum fun i _ => hnode i
    _ = (∑ i, (js i).originals s + n) * peers := by
        rw [← Finset.sum_mul, Finset.sum_add_distrib]
        simp

end Network

end Divachain
