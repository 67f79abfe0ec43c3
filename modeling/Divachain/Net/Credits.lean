/-
  Divachain.Net.Credits — whether stake credits are conserved.

  `proposeModifyStake` pays for a proposal when it is queued.  The queue leaves
  as one transaction, and it is emptied whether `stack` has taken that
  transaction or not.  `Books` keeps what the node does not: how many credits
  each peer has earned, and which proposals have been accepted.

  Main results:
    * `balanced_iff` — the books balance in every state of a run exactly if
      every queue that leaves is accepted;
    * `takes_queue_iff` — which queues are;
    * `step_isRun` — the turns of a node change queue and credits in no other
      way.
-/
import Divachain.Lib.StepInvariant
import Divachain.Net.Applied
import Divachain.Net.Proposal

namespace Divachain

open DataKit

namespace Node

/-! ## §1. The server's part of a node. -/

/-- What proposals and credits depend on, and the log of `stack`. -/
def server (n : Node) : OrdMap Text Int × List Command × List RecordStack :=
  (n.mapStakeCredit, n.stackModifyStake, n.accepted)

section

variable {crypto : Crypto} (n : Node) (turn : Turn)

theorem calcValidator_server : (n.calcValidator turn).server = n.server := by
  unfold calcValidator
  split <;> rfl

theorem processAddTx_server (origin : Text) (height : Nat) (tx : TransactionStruct) :
    (n.processAddTx crypto origin height tx).server = n.server := by
  unfold processAddTx
  split <;> rfl

theorem submit_server (height : Nat) (tx : TransactionStruct) :
    (n.submit crypto turn height tx).server = n.server := by
  unfold submit
  split
  · exact n.processAddTx_server _ _ _
  · exact (n.post _).andThen_frame server fun _ => rfl

theorem doAddTx_server : (n.doAddTx crypto turn).server = n.server := by
  unfold doAddTx
  split
  · rw [andThen_frame _ server fun m => m.submit_server turn _ _, calcValidator_server]
    rfl
  · rfl

/-- The record `stackTx` asks `stack` to take. -/
def stackRecord (turn : Turn) (commands : List Command) (ident : Text) : RecordStack :=
  { ident := identOf turn ident, commands := numbered commands }

/-- `stack` takes the record. -/
def Takes (crypto : Crypto) (n : Node) (r : RecordStack) : Prop :=
  validateTx crypto n.chain.toLedger (n.chain.height + 1) (n.signTx crypto r) = true

instance (r : RecordStack) : Decidable (Takes crypto n r) :=
  inferInstanceAs (Decidable (validateTx crypto _ _ _ = true))

theorem stackTx_server_of_takes {commands : List Command} {ident : Text}
    (h : Takes crypto n (stackRecord turn commands ident)) :
    (n.stackTx crypto turn commands ident).server
      = (n.mapStakeCredit, n.stackModifyStake, n.accepted ++ [stackRecord turn commands ident]) := by
  have hstack : n.stackTx crypto turn commands ident
      = { n with
          stackTransaction := n.stackTransaction ++ [stackRecord turn commands ident]
          accepted := n.accepted ++ [stackRecord turn commands ident] }.doAddTx crypto turn :=
    if_pos h
  rw [hstack, doAddTx_server]
  rfl

theorem stackTx_of_not_takes {commands : List Command} {ident : Text}
    (h : ¬ Takes crypto n (stackRecord turn commands ident)) :
    n.stackTx crypto turn commands ident = n := if_neg h

end

/-- `incStakeCredit`. -/
def incStakeCredit (n : Node) (publicKey : Text) : Node :=
  { n with
    mapStakeCredit := n.mapStakeCredit.set publicKey ((n.mapStakeCredit.get? publicKey).getD 0 + 1) }

def credit (n : Node) (publicKey : Text) : Int := (n.mapStakeCredit.get? publicKey).getD 0

/-! ## §2. Proposals. -/

/-- The queue with one more proposal. -/
def queue (n : Node) (publicKey ident : Text) (stake : Int) : List Command :=
  n.stackModifyStake ++ [stakeCommand publicKey ident stake]

/-- The proposal is new and paid for. -/
def Queues (n : Node) (turn : Turn) (publicKey ident : Text) : Prop :=
  n.proposeAnswer publicKey ident = true ∧ -(turn.countOnline : Int) < 3 * (n.credit publicKey - 1)

/-- The proposal fills the queue, which leaves. -/
def Leaves (n : Node) (turn : Turn) (publicKey ident : Text) (stake : Int) : Prop :=
  n.Queues turn publicKey ident ∧ turn.countOnline ≤ 3 * (n.queue publicKey ident stake).length

/-- What a proposal that does not end the process leaves of the server. -/
inductive Proposed (crypto : Crypto) (n : Node) (turn : Turn) (publicKey ident : Text) (stake : Int)
    (n' : Node) : Prop where
  | refused (hno : ¬ n.Queues turn publicKey ident) (h : n' = n)
  | waits (hqueues : n.Queues turn publicKey ident)
      (hno : ¬ n.Leaves turn publicKey ident stake)
      (h : n' = n.queueProposal publicKey (n.credit publicKey - 1)
        (stakeCommand publicKey ident stake))
  | accepted (hleaves : n.Leaves turn publicKey ident stake)
      (htakes : Takes crypto n (stackRecord turn (n.queue publicKey ident stake) []))
      (h : n'.server = (n.mapStakeCredit.set publicKey (n.credit publicKey - 1), [],
        n.accepted ++ [stackRecord turn (n.queue publicKey ident stake) []]))
  | lost (hleaves : n.Leaves turn publicKey ident stake)
      (hno : ¬ Takes crypto n (stackRecord turn (n.queue publicKey ident stake) []))
      (h : n' = (n.queueProposal publicKey (n.credit publicKey - 1)
        (stakeCommand publicKey ident stake)).clearProposals)

section

variable {crypto : Crypto} {n : Node} {turn : Turn} {publicKey ident : Text} {stake : Int}

theorem proposeModifyStake_of_not_queues (h : ¬ n.Queues turn publicKey ident) :
    n.proposeModifyStake crypto turn publicKey ident stake = n := by
  unfold proposeModifyStake
  by_cases hanswer : n.proposeAnswer publicKey ident = true
  · rw [if_pos hanswer]
    exact if_neg fun hcredit => h ⟨hanswer, hcredit⟩
  · rw [if_neg hanswer]

theorem proposeModifyStake_of_waits (hqueues : n.Queues turn publicKey ident)
    (hwaits : ¬ n.Leaves turn publicKey ident stake) :
    n.proposeModifyStake crypto turn publicKey ident stake
      = n.queueProposal publicKey (n.credit publicKey - 1) (stakeCommand publicKey ident stake) := by
  have hroom : ¬ turn.countOnline ≤ 3 * (n.queue publicKey ident stake).length :=
    fun hfull => hwaits ⟨hqueues, hfull⟩
  unfold proposeModifyStake
  rw [if_pos hqueues.1]
  exact (if_pos hqueues.2).trans (if_neg hroom)

theorem proposeModifyStake_of_leaves (h : n.Leaves turn publicKey ident stake) :
    n.proposeModifyStake crypto turn publicKey ident stake
      = ((n.queueProposal publicKey (n.credit publicKey - 1)
          (stakeCommand publicKey ident stake)).stackTx crypto turn
            (n.queue publicKey ident stake) []).andThen clearProposals := by
  unfold proposeModifyStake
  rw [if_pos h.1.1]
  exact (if_pos h.1.2).trans (if_pos h.2)

end

/-- **Everything a proposal can do.** -/
theorem proposed {crypto : Crypto} {n : Node} (hrun : n.halted = false) (turn : Turn)
    (publicKey ident : Text) (stake : Int)
    (hgoes : (n.proposeModifyStake crypto turn publicKey ident stake).halted = false) :
    Proposed crypto n turn publicKey ident stake
      (n.proposeModifyStake crypto turn publicKey ident stake) := by
  by_cases hqueues : n.Queues turn publicKey ident
  swap
  · exact .refused hqueues (proposeModifyStake_of_not_queues hqueues)
  by_cases hleaves : n.Leaves turn publicKey ident stake
  swap
  · exact .waits hqueues hleaves (proposeModifyStake_of_waits hqueues hleaves)
  rw [proposeModifyStake_of_leaves hleaves] at hgoes ⊢
  set m := n.queueProposal publicKey (n.credit publicKey - 1) (stakeCommand publicKey ident stake)
  -- `stack` reads the chain only, and that is the one of `n`
  by_cases htakes : Takes crypto n (stackRecord turn (n.queue publicKey ident stake) [])
  · refine .accepted hleaves htakes ?_
    have hserver := stackTx_server_of_takes m turn htakes
    generalize m.stackTx crypto turn (n.queue publicKey ident stake) [] = k at hserver hgoes ⊢
    rw [andThen_frame (f := clearProposals) _ halted fun _ => rfl] at hgoes
    rw [andThen, if_neg (by rw [hgoes]; exact Bool.false_ne_true)]
    show (k.mapStakeCredit, [], k.accepted) = _
    rw [show k.mapStakeCredit = m.mapStakeCredit from congrArg Prod.fst hserver,
      show k.accepted = m.accepted ++ _ from congrArg (fun s => s.2.2) hserver]
    rfl
  · refine .lost hleaves htakes ?_
    rw [stackTx_of_not_takes m turn htakes, andThen,
      if_neg (by show n.halted ≠ true; rw [hrun]; exact Bool.false_ne_true)]

/-- A proposal that is refused by `stack` does not end the process. -/
theorem halted_of_not_takes {crypto : Crypto} {n : Node} (hrun : n.halted = false) {turn : Turn}
    {publicKey ident : Text} {stake : Int}
    (hno : ¬ Takes crypto n (stackRecord turn (n.queue publicKey ident stake) [])) :
    (n.proposeModifyStake crypto turn publicKey ident stake).halted = false := by
  rw [← Bool.not_eq_true, proposeModifyStake_halted_iff crypto turn hrun]
  rintro ⟨hflushes, -⟩
  exact hno hflushes.2.2.2.1

/-! ## §3. The books. -/

/-- The command is a stake vote for this peer. -/
def votesFor (publicKey : Text) (c : Command) : Bool :=
  match c.body with
  | .modifyStake pk _ _ => decide (pk = publicKey)
  | _ => false

theorem countP_votesFor_numbered (publicKey : Text) (commands : List Command) :
    (numbered commands).countP (votesFor publicKey) = commands.countP (votesFor publicKey) := by
  have hfst : commands = commands.zipIdx.map Prod.fst := by simp
  rw [numbered, List.countP_map]
  conv_rhs => rw [hfst, List.countP_map]
  rfl

/-- A node, the peers online, and what the node keeps no record of. -/
structure Books where
  node : Node
  online : Nat
  /-- How often `incStakeCredit` has been called for each peer. -/
  earned : Text → Nat
  /-- The proposals that `stack` has accepted. -/
  accepted : List Command

inductive Op where
  | proposeModifyStake (turn : Turn) (publicKey ident : Text) (stake : Int)
  | incStakeCredit (publicKey : Text)
  /-- More peers come online. -/
  | comeOnline (count : Nat)
  /-- Everything else: the node is as `n`, apart from queue and credits. -/
  | other (n : Node)

namespace Books

/-- The books of a new node. -/
def start (chain : Blockchain) (online : Nat) : Books :=
  { node := Node.start chain
    online := online
    earned := fun _ => 0
    accepted := [] }

/-- The turn, with the peers that are online. -/
def turn (s : Books) (turn : Turn) : Turn := { turn with countOnline := s.online }

/-- One operation.  Nothing happens in a process that has ended. -/
def step (crypto : Crypto) (s : Books) (op : Op) : Books :=
  if s.node.halted then s
  else
    match op with
    | .proposeModifyStake turn publicKey ident stake =>
        let n := s.node.proposeModifyStake crypto (s.turn turn) publicKey ident stake
        { s with
          node := n
          accepted := s.accepted
            ++ (n.accepted.drop s.node.accepted.length).flatMap RecordStack.commands }
    | .incStakeCredit publicKey =>
        { s with
          node := s.node.incStakeCredit publicKey
          earned := fun k => if k = publicKey then s.earned k + 1 else s.earned k }
    | .comeOnline count => { s with online := s.online + count }
    | .other n =>
        { s with
          node := { n with
            mapStakeCredit := s.node.mapStakeCredit
            stackModifyStake := s.node.stackModifyStake } }

def run (crypto : Crypto) (s : Books) (ops : List Op) : Books := ops.foldl (step crypto) s

/-- The stake votes for the peer that are queued or have been accepted. -/
def voted (s : Books) (publicKey : Text) : Nat :=
  s.node.stackModifyStake.countP (votesFor publicKey) + s.accepted.countP (votesFor publicKey)

/-- **The books balance.** -/
structure Balanced (s : Books) : Prop where
  conserved : ∀ publicKey, (s.voted publicKey : Int)
    = s.earned publicKey - s.node.credit publicKey
  distinct : s.node.stackModifyStake.Pairwise fun a b =>
    ∀ publicKey ident, ¬ (proposes publicKey ident a = true ∧ proposes publicKey ident b = true)
  bounded : ∀ e ∈ s.node.mapStakeCredit.entries, -(s.online : Int) < 3 * e.2

/-- A queue that leaves with this operation is accepted by `stack`. -/
def Accepts (crypto : Crypto) (s : Books) : Op → Prop
  | .proposeModifyStake turn publicKey ident stake =>
      s.node.Leaves (s.turn turn) publicKey ident stake →
        Takes crypto s.node (stackRecord (s.turn turn) (s.node.queue publicKey ident stake) [])
  | _ => True

/-! ## §4. One operation. -/

variable {crypto : Crypto} {s : Books}

theorem credit_set (m : OrdMap Text Int) (publicKey k : Text) (c : Int) :
    ((m.set publicKey c).get? k).getD 0 = if k = publicKey then c else (m.get? k).getD 0 := by
  rw [OrdMap.get?_set]
  split <;> rfl

theorem bounded_set {m : OrdMap Text Int} {online : Nat} {publicKey : Text} {c : Int}
    (h : ∀ e ∈ m.entries, -(online : Int) < 3 * e.2) (hc : -(online : Int) < 3 * c) :
    ∀ e ∈ (m.set publicKey c).entries, -(online : Int) < 3 * e.2 := by
  intro e he
  rcases (OrdMap.mem_entries_set _ _ _ _).mp he with rfl | ⟨-, he⟩
  · exact hc
  · exact h e he

theorem balanced_start (chain : Blockchain) (online : Nat) : Balanced (start chain online) :=
  ⟨fun _ => rfl, List.Pairwise.nil, fun _ he => nomatch he⟩

/-- A proposal that is new has no double in the queue. -/
theorem distinct_queue {n : Node} {turn : Turn} {publicKey ident : Text} {stake : Int}
    (hqueues : n.Queues turn publicKey ident)
    (h : n.stackModifyStake.Pairwise fun a b =>
      ∀ pk i, ¬ (proposes pk i a = true ∧ proposes pk i b = true)) :
    (n.queue publicKey ident stake).Pairwise fun a b =>
      ∀ pk i, ¬ (proposes pk i a = true ∧ proposes pk i b = true) := by
  refine List.pairwise_append.mpr ⟨h, List.pairwise_singleton _ _, ?_⟩
  rintro a ha b hb pk i ⟨hpa, hpb⟩
  obtain rfl := List.mem_singleton.mp hb
  obtain ⟨rfl, rfl⟩ : publicKey = pk ∧ ident = i := by
    simpa [proposes, stakeCommand] using hpb
  have hnew := hqueues.1
  rw [proposeAnswer, Bool.not_eq_true', List.any_eq_false] at hnew
  exact hnew a ha hpa

theorem countP_queue (n : Node) (publicKey ident : Text) (stake : Int) (k : Text) :
    (n.queue publicKey ident stake).countP (votesFor k)
      = n.stackModifyStake.countP (votesFor k) + if k = publicKey then 1 else 0 := by
  rw [queue, List.countP_append]
  by_cases h : k = publicKey
  · subst h
    simp [votesFor, stakeCommand]
  · have h' : publicKey ≠ k := fun heq => h heq.symm
    simp [votesFor, stakeCommand, h, h']

/-- Credits that are earned are booked. -/
theorem Balanced.inc (hs : Balanced s) (publicKey : Text) :
    Balanced (s.step crypto (.incStakeCredit publicKey)) := by
  unfold step
  split
  · exact hs
  refine ⟨?_, hs.distinct, ?_⟩
  · intro k
    have hk := hs.conserved k
    show (s.voted k : Int) = ((if k = publicKey then s.earned k + 1 else s.earned k : Nat) : Int)
      - ((s.node.mapStakeCredit.set publicKey (s.node.credit publicKey + 1)).get? k).getD 0
    rw [credit_set]
    split
    next heq =>
      subst heq
      push_cast
      omega
    next => exact hk
  · -- a peer without an entry has earned its first credit
    show ∀ e ∈ (s.node.mapStakeCredit.set publicKey (s.node.credit publicKey + 1)).entries,
      -(s.online : Int) < 3 * e.2
    refine bounded_set hs.bounded ?_
    cases hget : s.node.mapStakeCredit.get? publicKey with
    | none =>
        rw [credit, hget, Option.getD_none]
        omega
    | some c =>
        have hc := hs.bounded (publicKey, c) ((OrdMap.get?_eq_some_iff _ _ _).mp hget)
        rw [credit, hget, Option.getD_some]
        dsimp only at hc
        omega

theorem step_propose (hrun : s.node.halted = false) (turn : Turn) (publicKey ident : Text)
    (stake : Int) :
    s.step crypto (.proposeModifyStake turn publicKey ident stake)
      = { s with
          node := s.node.proposeModifyStake crypto (s.turn turn) publicKey ident stake
          accepted := s.accepted
            ++ ((s.node.proposeModifyStake crypto (s.turn turn) publicKey ident stake).accepted.drop
              s.node.accepted.length).flatMap RecordStack.commands } :=
  if_neg (by rw [hrun]; exact Bool.false_ne_true)

/-- **One vote more for a peer and one credit less** keep the balance. -/
theorem Balanced.paid (hs : Balanced s) {n' : Node} {publicKey : Text} {accepted : List Command}
    (hcredit : n'.mapStakeCredit
      = s.node.mapStakeCredit.set publicKey (s.node.credit publicKey - 1))
    (hbound : -(s.online : Int) < 3 * (s.node.credit publicKey - 1))
    (hvotes : ∀ k, n'.stackModifyStake.countP (votesFor k) + accepted.countP (votesFor k)
      = s.voted k + if k = publicKey then 1 else 0)
    (hdistinct : n'.stackModifyStake.Pairwise fun a b =>
      ∀ pk i, ¬ (proposes pk i a = true ∧ proposes pk i b = true)) :
    Balanced { s with node := n', accepted := accepted } := by
  refine ⟨?_, hdistinct, ?_⟩
  · intro k
    have hk := hs.conserved k
    show ((n'.stackModifyStake.countP (votesFor k) + accepted.countP (votesFor k) : Nat) : Int)
      = s.earned k - (n'.mapStakeCredit.get? k).getD 0
    rw [hvotes k, hcredit, credit_set]
    split
    next heq =>
      subst heq
      push_cast
      omega
    next =>
      rw [Nat.add_zero]
      exact hk
  · show ∀ e ∈ n'.mapStakeCredit.entries, -(s.online : Int) < 3 * e.2
    rw [hcredit]
    exact bounded_set hs.bounded hbound

/-- **A proposal keeps the books** unless a queue is lost. -/
theorem Balanced.propose (hs : Balanced s) (hrun : s.node.halted = false) {turn : Turn}
    {publicKey ident : Text} {stake : Int}
    (haccepts : Accepts crypto s (.proposeModifyStake turn publicKey ident stake))
    (hgoes : (s.step crypto (.proposeModifyStake turn publicKey ident stake)).node.halted = false) :
    Balanced (s.step crypto (.proposeModifyStake turn publicKey ident stake)) := by
  rw [step_propose hrun] at hgoes ⊢
  have hproposed := proposed hrun (s.turn turn) publicKey ident stake hgoes
  generalize s.node.proposeModifyStake crypto (s.turn turn) publicKey ident stake = n' at hproposed ⊢
  cases hproposed with
  | refused hno h =>
      subst h
      rw [List.drop_length, List.flatMap_nil, List.append_nil]
      exact hs
  | waits hqueues hno h =>
      subst h
      refine hs.paid rfl hqueues.2 ?_ (distinct_queue hqueues hs.distinct)
      intro k
      have hnew : (s.node.accepted.drop s.node.accepted.length) = [] := List.drop_length
      show (s.node.queue publicKey ident stake).countP (votesFor k)
          + (s.accepted ++ (s.node.accepted.drop s.node.accepted.length).flatMap
              RecordStack.commands).countP (votesFor k) = _
      rw [hnew, List.flatMap_nil, List.append_nil, countP_queue, voted]
      omega
  | accepted hleaves htakes h =>
      have hcredit : n'.mapStakeCredit = s.node.mapStakeCredit.set publicKey
          (s.node.credit publicKey - 1) := congrArg Prod.fst h
      have hqueue : n'.stackModifyStake = [] := congrArg (fun x => x.2.1) h
      have hlog : n'.accepted = s.node.accepted ++ _ := congrArg (fun x => x.2.2) h
      have hnew : (n'.accepted.drop s.node.accepted.length).flatMap RecordStack.commands
          = numbered (s.node.queue publicKey ident stake) := by
        rw [hlog, List.drop_left, List.flatMap_singleton]
        rfl
      refine hs.paid hcredit hleaves.1.2 ?_ (by rw [hqueue]; exact List.Pairwise.nil)
      intro k
      rw [hnew, hqueue, List.countP_nil, List.countP_append, countP_votesFor_numbered,
        countP_queue, voted]
      omega
  | lost hleaves hno h => exact absurd (haccepts hleaves) hno

/-- **A queue that is lost is paid for.** -/
theorem Balanced.not_of_lost (hs : Balanced s) (hrun : s.node.halted = false) {op : Op}
    (hno : ¬ Accepts crypto s op) :
    (s.step crypto op).node.halted = false ∧ ¬ Balanced (s.step crypto op) := by
  cases op with
  | proposeModifyStake turn publicKey ident stake =>
      rw [Accepts, Classical.not_imp] at hno
      obtain ⟨hleaves, hturned⟩ := hno
      have hgoes := halted_of_not_takes hrun hturned
      rw [step_propose hrun]
      refine ⟨hgoes, fun hbalanced => ?_⟩
      have hproposed := proposed hrun (s.turn turn) publicKey ident stake hgoes
      have hk := hs.conserved publicKey
      have hk' := hbalanced.conserved publicKey
      generalize s.node.proposeModifyStake crypto (s.turn turn) publicKey ident stake = n'
        at hproposed hk'
      cases hproposed with
      | refused hrefused _ => exact hrefused hleaves.1
      | waits _ hwaits _ => exact hwaits hleaves
      | accepted _ htakes _ => exact hturned htakes
      | lost _ _ h =>
          subst h
          -- the credit has been taken, and there is nothing to show for it
          have hnew : (s.node.accepted.drop s.node.accepted.length) = [] := List.drop_length
          change (((([] : List Command).countP (votesFor publicKey))
              + (s.accepted ++ (s.node.accepted.drop s.node.accepted.length).flatMap
                  RecordStack.commands).countP (votesFor publicKey) : Nat) : Int)
            = s.earned publicKey - ((s.node.mapStakeCredit.set publicKey
                (s.node.credit publicKey - 1)).get? publicKey).getD 0 at hk'
          rw [hnew, List.flatMap_nil, List.append_nil, List.countP_nil, credit_set, if_pos rfl]
            at hk'
          unfold voted at hk
          push_cast at hk hk'
          omega
  | incStakeCredit publicKey => exact absurd trivial hno
  | comeOnline count => exact absurd trivial hno
  | other n => exact absurd trivial hno

/-- **One operation keeps the books** unless a queue is lost. -/
theorem Balanced.step (hs : Balanced s) (hrun : s.node.halted = false) {op : Op}
    (haccepts : Accepts crypto s op) (hgoes : (s.step crypto op).node.halted = false) :
    Balanced (s.step crypto op) := by
  cases op with
  | proposeModifyStake turn publicKey ident stake => exact hs.propose hrun haccepts hgoes
  | incStakeCredit publicKey => exact hs.inc publicKey
  | comeOnline count =>
      unfold Books.step
      rw [if_neg (by rw [hrun]; exact Bool.false_ne_true)]
      refine ⟨hs.conserved, hs.distinct, ?_⟩
      intro e he
      have hbound := hs.bounded e he
      show -((s.online + count : Nat) : Int) < 3 * e.2
      omega
  | other n =>
      unfold Books.step
      rw [if_neg (by rw [hrun]; exact Bool.false_ne_true)]
      exact ⟨hs.conserved, hs.distinct, hs.bounded⟩

/-! ## §5. Runs. -/

theorem step_of_halted (h : s.node.halted = true) (op : Op) : s.step crypto op = s := if_pos h

/-- A process that goes on has gone on before. -/
theorem running_before {op : Op} (h : (s.step crypto op).node.halted = false) :
    s.node.halted = false := by
  cases hrun : s.node.halted with
  | false => rfl
  | true =>
      rw [step_of_halted hrun, hrun] at h
      exact nomatch h

/-- **The books balance exactly if no queue is lost**: in every state of the run
in which the process goes on, if and only if every queue that leaves is
accepted. -/
theorem balanced_iff (crypto : Crypto) (chain : Blockchain) (online : Nat) (ops : List Op) :
    (∀ k, ((start chain online).run crypto (ops.take k)).node.halted = false →
        Balanced ((start chain online).run crypto (ops.take k)))
      ↔ ∀ (k : Nat) (hk : k < ops.length),
          ((start chain online).run crypto (ops.take k)).node.halted = false →
            Accepts crypto ((start chain online).run crypto (ops.take k)) ops[k] := by
  refine invariant_iff (P := fun s : Books => s.node.halted = false → Balanced s)
    (C := fun s op => s.node.halted = false → Accepts crypto s op) ?_
    (fun _ => balanced_start chain online) ops
  intro s op hs
  constructor
  · intro hnext hrun
    by_contra hno
    have hlost := (hs hrun).not_of_lost hrun hno
    exact hlost.2 (hnext hlost.1)
  · intro haccepts hgoes
    have hrun := running_before hgoes
    exact (hs hrun).step hrun (haccepts hrun) hgoes

/-- Seventeen proposals in a network of forty-nine. -/
def manyProposals : List Op :=
  (List.range 17).map fun i =>
    .proposeModifyStake allOnline (keyOf i) STAKE_PING_IDENT STAKE_PING_AMOUNT

/-- **The queue has grown too long for a transaction**, and it is lost. -/
theorem not_balanced_of_many :
    ((start (Blockchain.sampleStart 0) 49).run Blockchain.sampleCrypto manyProposals).node.halted
        = false
      ∧ ¬ Balanced ((start (Blockchain.sampleStart 0) 49).run Blockchain.sampleCrypto
          manyProposals) := by
  refine ⟨by decide +kernel, fun h => ?_⟩
  have hpaid := h.conserved (keyOf 0)
  revert hpaid
  decide +kernel

end Books

/-! ## §6. Which queues are accepted. -/

/-- A numbered command is one of the list, with a number from one on. -/
theorem mem_numbered {commands : List Command} {c : Command} (h : c ∈ numbered commands) :
    ∃ c' ∈ commands, ∃ i : Nat, c = setSeq c' (i + 1) := by
  obtain ⟨x, hx, rfl⟩ := List.mem_map.mp h
  have hmem : x.1 ∈ commands.zipIdx.map Prod.fst := List.mem_map_of_mem hx
  rw [List.zipIdx_map_fst] at hmem
  exact ⟨x.1, hmem, x.2, rfl⟩

/-- No two of them have one number. -/
theorem numbered_nodup (commands : List Command) :
    ((numbered commands).map Command.seq).Nodup := by
  have hindex : (numbered commands).map Command.seq
      = (commands.zipIdx.map Prod.snd).map fun k => ((k + 1 : Nat) : Int) := by
    rw [numbered, List.map_map, List.map_map]
    rfl
  rw [hindex, List.zipIdx_map_snd]
  refine List.Nodup.map ?_ List.nodup_range'
  intro i j hij
  have hsucc : i + 1 = j + 1 := Int.ofNat_inj.mp hij
  omega

theorem arrayWithin_numbered_iff (commands : List Command) :
    arrayWithin Command.same 1 16 (numbered commands) = true
      ↔ 1 ≤ commands.length ∧ commands.length ≤ 16 := by
  have hlength : (numbered commands).length = commands.length := by
    rw [numbered, List.length_map, List.length_zipIdx]
  have hdistinct : (numbered commands).Pairwise fun a b => a.same b = false := by
    refine (List.pairwise_map.mp (numbered_nodup commands)).imp ?_
    intro a b hne
    rw [Command.same, decide_eq_false hne, Bool.false_and]
  rw [arrayWithin, hlength, decide_eq_true hdistinct, Bool.and_true, Bool.and_eq_true,
    decide_eq_true_eq, decide_eq_true_eq]

/-- **A queue is accepted if it is not too long**, provided that each proposal
matches its schema. -/
theorem takes_queue_iff {crypto : Crypto} (hformat : crypto.Formatted)
    (hcorrect : crypto.SignCorrect) {n : Node} (hkey : isKeyText n.chain.publicKey = true)
    {turn : Turn} (hnanoid : isIdentText turn.nanoid = true) {commands : List Command}
    (hproposals : ∀ c ∈ commands, ∃ publicKey ident stake,
      c = stakeCommand publicKey ident stake ∧ c.body.valid = true) :
    Takes crypto n (stackRecord turn commands []) ↔ 1 ≤ commands.length ∧ commands.length ≤ 16 := by
  have hbody : ∀ c ∈ numbered commands, ∃ publicKey ident stake,
      c.body = .modifyStake publicKey ident stake ∧ c.valid = true := by
    intro c hc
    obtain ⟨c', hc', i, rfl⟩ := mem_numbered hc
    obtain ⟨publicKey, ident, stake, rfl, hvalid⟩ := hproposals c' hc'
    refine ⟨publicKey, ident, stake, rfl, ?_⟩
    rw [Command.valid, Bool.and_eq_true, Bool.and_eq_true]
    refine ⟨⟨decide_eq_true ?_, hvalid⟩, ?_⟩
    · show (1 : Int) ≤ ((i + 1 : Nat) : Int)
      omega
    · rfl
  have hcommands : (numbered commands).all Command.valid = true := by
    rw [List.all_eq_true]
    intro c hc
    obtain ⟨-, -, -, -, hvalid⟩ := hbody c hc
    exact hvalid
  have hpass : ∀ c ∈ numbered commands, validateCommand n.chain.toLedger (n.chain.height + 1)
      n.chain.publicKey c = true := by
    intro c hc
    obtain ⟨publicKey, ident, stake, heq, -⟩ := hbody c hc
    rw [validateCommand, heq]
  have hident : isIdentText (identOf turn []) = true := hnanoid
  -- All other checks pass, and what is left is the length.
  unfold Takes signTx
  rw [validateTx_make_iff hformat hcorrect, draftValid]
  show (isIdentText (identOf turn []) && isKeyText n.chain.publicKey
    && ((numbered commands).all Command.valid && arrayWithin Command.same 1 16 (numbered commands)))
      = true ∧ _ ↔ _
  rw [hident, hkey, hcommands, Bool.true_and, Bool.true_and, Bool.true_and,
    arrayWithin_numbered_iff]
  exact and_iff_left ⟨Nat.succ_pos _, hpass⟩

/-! ## §7. The turns of a node are such operations. -/

section

variable {crypto : Crypto} {n : Node} {count : Nat}

/-- The queue and the credits. -/
def proposals (n : Node) : OrdMap Text Int × List Command := (n.mapStakeCredit, n.stackModifyStake)

theorem proposals_of_server {m : Node} (h : m.server = n.server) : m.proposals = n.proposals :=
  congrArg (fun x => (x.1, x.2.1)) h

theorem stackTx_proposals (turn : Turn) (commands : List Command) (ident : Text) :
    (n.stackTx crypto turn commands ident).proposals = n.proposals := by
  by_cases htakes : Takes crypto n (stackRecord turn commands ident)
  · have hserver := stackTx_server_of_takes n turn htakes
    exact congrArg (fun x => (x.1, x.2.1)) hserver
  · rw [stackTx_of_not_takes n turn htakes]

theorem processProposeBlock_proposals (turn : Turn) (b : BlockStruct) :
    (n.processProposeBlock crypto turn b).proposals = n.proposals := by
  unfold processProposeBlock
  split
  · refine (andThen_frame _ proposals ?_).trans (proposals_of_server (calcValidator_server _ turn))
    intro k
    exact (k.transmit _).andThen_frame proposals fun _ => rfl
  · rfl

/-- Some operations lead from one node to the other. -/
def Covered (crypto : Crypto) (count : Nat) (n n' : Node) : Prop :=
  ∃ ops : List Op, ∀ s : Books, s.node = n → s.online = count →
    (s.run crypto ops).node = n' ∧ (s.run crypto ops).online = count

theorem Covered.refl (n : Node) : Covered crypto count n n := ⟨[], fun _ hn hcount => ⟨hn, hcount⟩⟩

theorem Covered.trans {m n' : Node} (h : Covered crypto count n m)
    (h' : Covered crypto count m n') : Covered crypto count n n' := by
  obtain ⟨ops, hops⟩ := h
  obtain ⟨ops', hops'⟩ := h'
  refine ⟨ops ++ ops', fun s hn hcount => ?_⟩
  rw [Books.run, List.foldl_append]
  exact hops' _ (hops s hn hcount).1 (hops s hn hcount).2

theorem Covered.step (op : Op) (n' : Node)
    (h : ∀ s : Books, s.node = n → s.online = count →
      (s.step crypto op).node = n' ∧ (s.step crypto op).online = count) :
    Covered crypto count n n' := ⟨[op], h⟩

/-- What leaves queue and credits alone. -/
theorem Covered.other (hrun : n.halted = false) {n' : Node} (h : n'.proposals = n.proposals) :
    Covered crypto count n n' := by
  refine .step (.other n') n' ?_
  rintro s rfl hcount
  unfold Books.step
  rw [if_neg (by rw [hrun]; exact Bool.false_ne_true)]
  refine ⟨?_, hcount⟩
  have hcredit : n'.mapStakeCredit = s.node.mapStakeCredit := congrArg Prod.fst h
  have hqueue : n'.stackModifyStake = s.node.stackModifyStake := congrArg Prod.snd h
  dsimp only
  rw [← hcredit, ← hqueue]

theorem Covered.propose (hrun : n.halted = false) (turn : Turn) (publicKey ident : Text)
    (stake : Int) : Covered crypto turn.countOnline n
      (n.proposeModifyStake crypto turn publicKey ident stake) := by
  refine .step (.proposeModifyStake turn publicKey ident stake) _ ?_
  rintro s rfl hcount
  rw [Books.step_propose hrun]
  have hturn : s.turn turn = turn := by
    rw [Books.turn, hcount]
  rw [hturn]
  exact ⟨rfl, hcount⟩

theorem Covered.inc (hrun : n.halted = false) (publicKey : Text) :
    Covered crypto count n (n.incStakeCredit publicKey) := by
  refine .step (.incStakeCredit publicKey) _ ?_
  rintro s rfl hcount
  unfold Books.step
  rw [if_neg (by rw [hrun]; exact Bool.false_ne_true)]
  exact ⟨rfl, hcount⟩

/-- A command that is applied earns a credit or none. -/
theorem credited_cases (n : Node) (origin : Text) (c : Command) :
    n.credited origin c = n.mapStakeCredit
      ∨ n.credited origin c = (n.incStakeCredit origin).mapStakeCredit := by
  unfold credited
  split
  · split
    · exact Or.inr rfl
    · exact Or.inl rfl
  · exact Or.inl rfl

theorem processStatus_covered (hrun : n.halted = false) (turn : Turn) (origin : Text)
    (kind height : Nat) :
    Covered crypto turn.countOnline n (n.processStatus crypto turn origin kind height) := by
  unfold processStatus
  dsimp only
  have hfetch : Covered crypto turn.countOnline n
      { n with toConsensus := n.toConsensus.fetchSync height } := .other hrun rfl
  split
  · split
    · refine hfetch.trans (.propose ?_ turn _ _ _)
      exact hrun
    · exact hfetch
  · exact .refl n

theorem updateCache_covered (hrun : n.halted = false) (turn : Turn) (b : BlockStruct) :
    Covered crypto turn.countOnline n (n.updateCache crypto turn b) := by
  unfold updateCache
  dsimp only
  set m := n.setChain ((n.chain.cacheBlock b).countVotes b)
  have hm : Covered crypto turn.countOnline n m := .other hrun rfl
  cases ((n.chain.cacheBlock b).countVotes b).stakeVote b with
  | skip => exact hm
  | throws => exact .other hrun rfl
  | propose publicKey =>
      have hpropose : Covered crypto turn.countOnline m
          (m.proposeModifyStake crypto turn publicKey STAKE_VOTE_IDENT STAKE_VOTE_AMOUNT) := by
        refine .propose ?_ turn _ _ _
        exact hrun
      -- What comes after the proposal is about the tally.
      refine hm.trans (hpropose.trans ?_)
      show Covered crypto turn.countOnline
        (m.proposeModifyStake crypto turn publicKey STAKE_VOTE_IDENT STAKE_VOTE_AMOUNT)
        ((m.proposeModifyStake crypto turn publicKey STAKE_VOTE_IDENT STAKE_VOTE_AMOUNT).andThen
          fun k => if m.proposeAnswer publicKey STAKE_VOTE_IDENT then
            k.setChain (k.chain.dropVote publicKey) else k)
      generalize m.proposeModifyStake crypto turn publicKey STAKE_VOTE_IDENT STAKE_VOTE_AMOUNT = k
      unfold andThen
      split
      · exact .refl k
      next hk =>
        refine .other (Bool.eq_false_iff.mpr hk) ?_
        split <;> rfl

theorem finishAdd_covered (hrun : n.halted = false) (turn : Turn) (i : Nat) (t : AddTask) :
    Covered crypto turn.countOnline n (n.finishAdd crypto turn i t) := by
  unfold finishAdd
  dsimp only
  split
  · exact .other hrun rfl
  next hm =>
    refine (updateCache_covered hrun turn (n.objects t.obj)).trans ?_
    refine .other (Bool.eq_false_iff.mpr hm) ?_
    refine (andThen_frame _ proposals ?_).trans
      ((proposals_of_server (calcValidator_server _ turn)).trans rfl)
    intro k
    rfl

theorem processMessage_covered (hrun : n.halted = false) (turn : Turn) (m : Message) :
    Covered crypto turn.countOnline n (n.processMessage crypto turn m) := by
  have hvalidator : (n.calcValidator turn).proposals = n.proposals :=
    proposals_of_server (calcValidator_server n turn)
  unfold processMessage
  -- Of the five kinds only a status can lead to a proposal.
  split
  · refine .other hrun ?_
    rw [andThen_frame _ proposals fun k => ?_, hvalidator]
    split
    · exact proposals_of_server (k.processAddTx_server _ _ _)
    · rfl
  · refine .other hrun ?_
    rw [andThen_frame _ proposals fun k => ?_, hvalidator]
    split
    · exact processProposeBlock_proposals turn _
    · rfl
  · refine .other hrun ?_
    rw [andThen_frame _ proposals fun k => ?_, hvalidator]
    split <;> rfl
  · refine .other hrun ?_
    rw [andThen_frame _ proposals fun k => ?_, hvalidator]
    split <;> rfl
  · exact processStatus_covered hrun turn _ _ _

theorem resumeAdd_covered (hrun : n.halted = false) (turn : Turn) (i : Nat) :
    Covered crypto turn.countOnline n (n.resumeAdd crypto turn i) := by
  unfold resumeAdd
  split
  · exact .refl n
  next t ht =>
    split
    next oc hpending =>
      have hrunCommand : Covered crypto turn.countOnline n
          { n with toConsensus := n.toConsensus.runCommand i t oc } := .other hrun rfl
      rcases n.credited_cases oc.1 oc.2 with heq | heq
      · rw [heq]
        exact hrunCommand
      · rw [heq]
        refine hrunCommand.trans (.inc ?_ oc.1)
        exact hrun
    next => exact finishAdd_covered hrun turn i t

/-- **A turn of a node is a run of such operations**: nothing else touches the
queue or the credits. -/
theorem step_isRun (n : Node) (turn : Turn) (e : Event) :
    Covered crypto turn.countOnline n (n.step crypto turn e) := by
  by_cases hhalted : n.halted = true
  · rw [step_of_halted crypto hhalted]
    exact .refl n
  have hrun : n.halted = false := Bool.eq_false_iff.mpr hhalted
  rw [step_of_running crypto hrun]
  cases e with
  | stackTx commands ident => exact .other hrun (stackTx_proposals turn commands ident)
  | message m =>
      show Covered crypto turn.countOnline n
        (if validateMessage m then n.processMessage crypto turn m else n)
      split
      · exact processMessage_covered hrun turn m
      · exact .refl n
  | timeoutAddTx =>
      refine .other hrun ?_
      show (if n.timeoutAddTx then { n with timeoutAddTx := false }.doAddTx crypto turn
        else n).proposals = n.proposals
      split
      · exact proposals_of_server (doAddTx_server _ turn)
      · rfl
  | timeoutProposeBlock =>
      refine .other hrun ?_
      show (if n.timeoutProposeBlock then
        { n with timeoutProposeBlock := false }.proposeBlock crypto turn else n).proposals = n.proposals
      split <;> rfl
  | timeoutRetry =>
      refine .other hrun ?_
      show (if n.timeoutRetry then (n.clear none).doAddTx crypto turn else n).proposals = n.proposals
      split
      · exact (proposals_of_server (doAddTx_server _ turn)).trans rfl
      · rfl
  | timeoutStatus => exact .other hrun rfl
  | resumeAdd i => exact resumeAdd_covered hrun turn i
  | syncAnswer blocks => exact .other hrun rfl
  | continueSync => exact .other hrun rfl
  | p2pNetwork =>
      refine .other hrun ?_
      show (if n.chain.mapPeer.size < 2 then n else _).proposals = n.proposals
      split <;> rfl

end

end Node

end Divachain
