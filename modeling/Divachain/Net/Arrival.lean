/-
  Divachain.Net.Arrival — the order in which transactions arrive.

  The pool is kept in order of arrival and sorted again at every arrival.  The
  messages of different origins are taken or turned away independently of one
  another, and transactions with different signatures are sorted in one way.
  Nothing else goes into the block.

  Main result: `arrival_order` — two orders of arrival lead to the same pool
  and to the same hash.
-/
import Divachain.Lib.KeySort
import Divachain.Net.Proposal

namespace Divachain

open DataKit

/-! ## §1. What is taken. -/

/-- Of messages with different origins all are taken that are `ok` and new. -/
theorem pooled_eq_filter {ok : AddTx → Bool} :
    ∀ {l : List AddTx} {seen : List Text}, (l.map AddTx.origin).Nodup →
      pooled ok seen l = l.filter fun m => ok m && decide (m.origin ∉ seen)
  | [], _, _ => rfl
  | m :: l, seen, h => by
      rw [List.map_cons, List.nodup_cons] at h
      unfold pooled
      split
      next hok =>
        rw [pooled_eq_filter h.2, List.filter_cons_of_pos (by simp [hok.1, hok.2])]
        congr 1
        refine List.filter_congr fun m' hm' => ?_
        -- no later message has the origin that has just been seen
        have hne : m'.origin ≠ m.origin := fun heq => h.1 (heq ▸ List.mem_map_of_mem hm')
        simp [hne]
      next hok =>
        rw [pooled_eq_filter h.2, List.filter_cons_of_neg (by simpa using hok)]

theorem pooled_perm (ok : AddTx → Bool) {l l' : List AddTx} (hperm : l.Perm l')
    (horigins : (l.map AddTx.origin).Nodup) (seen : List Text) :
    (pooled ok seen l).Perm (pooled ok seen l') := by
  rw [pooled_eq_filter horigins, pooled_eq_filter ((hperm.map _).nodup_iff.mp horigins)]
  exact hperm.filter _

namespace Node

variable {crypto : Crypto} {n : Node}

/-! ## §2. The pool. -/

/-- The pool is what has arrived, sorted, and the proposal is due. -/
structure Fed (n : Node) : Prop where
  pool : n.arrayPoolTx = sortPool n.current.values
  timer : n.timeoutProposeBlock = true

theorem fed_processAddTx (h : Fed n) (origin : Text) (height : Nat) (tx : TransactionStruct) :
    Fed (n.processAddTx crypto origin height tx) := by
  unfold processAddTx
  split
  · exact ⟨rfl, rfl⟩
  · exact h

theorem fed_collect : ∀ {l : List AddTx} {n : Node}, Fed n → Fed (n.collect crypto l)
  | [], _, h => h
  | m :: l, n, h => by
      show Fed ((n.processAddTx crypto m.origin m.height m.tx).collect crypto l)
      exact fed_collect (fed_processAddTx h m.origin m.height m.tx)

/-- Nothing is taken: the node is as before. -/
theorem collect_of_pooled_eq_nil :
    ∀ {l : List AddTx} {n : Node}, n.block = none → pooled (n.fits crypto) n.current.keys l = [] →
      n.collect crypto l = n
  | [], _, _, _ => rfl
  | m :: l, n, hblock, h => by
      unfold pooled at h
      split at h
      next => cases h
      next hno =>
        have hturned := mt (poolable_iff hblock m).mp hno
        show (n.processAddTx crypto m.origin m.height m.tx).collect crypto l = n
        rw [processAddTx, if_neg hturned]
        exact collect_of_pooled_eq_nil hblock h

/-- **Something is taken.** -/
theorem fed_collect_of_pooled :
    ∀ {l : List AddTx} {n : Node}, n.block = none → pooled (n.fits crypto) n.current.keys l ≠ [] →
      Fed (n.collect crypto l)
  | [], _, _, h => absurd rfl h
  | m :: l, n, hblock, h => by
      show Fed ((n.processAddTx crypto m.origin m.height m.tx).collect crypto l)
      unfold pooled at h
      split at h
      next hok =>
        rw [processAddTx, if_pos ((poolable_iff hblock m).mpr hok)]
        exact fed_collect ⟨rfl, rfl⟩
      next hno =>
        rw [processAddTx, if_neg (mt (poolable_iff hblock m).mp hno)]
        exact fed_collect_of_pooled hblock h

/-- The old transactions come first, and then those that have been taken. -/
theorem values_collect (hblock : n.block = none) (l : List AddTx) :
    (n.collect crypto l).current.values
      = n.current.values ++ (pooled (n.fits crypto) n.current.keys l).map AddTx.tx := by
  rw [OrdMap.values, (collect_spec hblock).entries, List.map_append, List.map_map]
  rfl

/-- What a proposal depends on. -/
structure SamePool (n n' : Node) : Prop where
  core : n'.toConsensus = n.toConsensus
  halted : n'.halted = n.halted
  pool : n'.arrayPoolTx = n.arrayPoolTx
  timer : n'.timeoutProposeBlock = n.timeoutProposeBlock

theorem SamePool.symm {m m' : Node} (h : SamePool m m') : SamePool m' m :=
  ⟨h.core.symm, h.halted.symm, h.pool.symm, h.timer.symm⟩

theorem SamePool.trans {m m' m'' : Node} (h : SamePool m m') (h' : SamePool m' m'') :
    SamePool m m'' :=
  ⟨h'.core.trans h.core, h'.halted.trans h.halted, h'.pool.trans h.pool, h'.timer.trans h.timer⟩

/-- **The pool does not depend on the order.** -/
theorem samePool_collect (hblock : n.block = none) {l l' : List AddTx} (hperm : l.Perm l')
    (horigins : (l.map AddTx.origin).Nodup) (hsigs : (l.map fun m => m.tx.sig).Nodup) :
    SamePool (n.collect crypto l) (n.collect crypto l') := by
  have hpooled := pooled_perm (n.fits crypto) hperm horigins n.current.keys
  by_cases hnil : pooled (n.fits crypto) n.current.keys l = []
  · have hnil' : pooled (n.fits crypto) n.current.keys l' = [] := by
      rw [hnil] at hpooled
      exact hpooled.symm.eq_nil
    rw [collect_of_pooled_eq_nil hblock hnil, collect_of_pooled_eq_nil hblock hnil']
    exact ⟨rfl, rfl, rfl, rfl⟩
  · have hnil' : pooled (n.fits crypto) n.current.keys l' ≠ [] := by
      intro h
      rw [h] at hpooled
      exact hnil hpooled.eq_nil
    have hspec : Collected crypto n l (n.collect crypto l) := collect_spec hblock
    have hspec' : Collected crypto n l' (n.collect crypto l') := collect_spec hblock
    have hfed : Fed (n.collect crypto l) := fed_collect_of_pooled hblock hnil
    have hfed' : Fed (n.collect crypto l') := fed_collect_of_pooled hblock hnil'
    refine ⟨hspec'.core.trans hspec.core.symm, hspec'.halted.trans hspec.halted.symm, ?_,
      hfed'.timer.trans hfed.timer.symm⟩
    -- what has been taken has different signatures
    have hkeys : (((pooled (n.fits crypto) n.current.keys l').map AddTx.tx).reverse.map
        TransactionStruct.sig).Nodup := by
      rw [List.map_reverse, List.nodup_reverse, List.map_map, (hpooled.symm.map _).nodup_iff,
        pooled_eq_filter horigins]
      exact hsigs.sublist (List.filter_sublist.map _)
    rw [hfed.pool, hfed'.pool, values_collect hblock, values_collect hblock]
    unfold sortPool
    rw [List.reverse_append, List.reverse_append]
    exact insertionSort_append_congr TransactionStruct.sig
      (((List.reverse_perm _).trans (hpooled.symm.map _)).trans (List.reverse_perm _).symm) hkeys _

/-! ## §3. Turns. -/

/-- A message that carries a transaction. -/
structure Arriving extends AddTx where
  seq : Nat
  dest : Text

def Arriving.message (a : Arriving) : Message :=
  { seq := a.seq, origin := a.origin, dest := a.dest, data := .addTx a.height a.tx }

/-- The node takes itself for the validator in this turn. -/
def Validates (n : Node) (turn : Turn) : Prop :=
  n.findValidator (n.isOnline turn) = some n.chain.publicKey

instance (n : Node) (turn : Turn) : Decidable (n.Validates turn) :=
  inferInstanceAs (Decidable (n.findValidator (n.isOnline turn) = some n.chain.publicKey))

/-- The node receives the messages one after the other. -/
def receiveAll (crypto : Crypto) (n : Node) (l : List (Turn × Arriving)) : Node :=
  n.run crypto (l.map fun x => (x.1, .message x.2.message))

/-- The messages that the schema lets through. -/
def wellFormed (l : List (Turn × Arriving)) : List AddTx :=
  ((l.map Prod.snd).filter fun a => validateMessage a.message).map Arriving.toAddTx

/-- The node once it has found itself to be the validator. -/
def elected (n : Node) : Node := { n with validator := n.chain.publicKey }

theorem samePool_of_elected {m m' : Node} (h : m'.elected = m.elected) : SamePool m m' := by
  have hcore : m'.elected.toConsensus = m.elected.toConsensus := congrArg _ h
  have hhalted : m'.elected.halted = m.elected.halted := congrArg _ h
  have hpool : m'.elected.arrayPoolTx = m.elected.arrayPoolTx := congrArg _ h
  have htimer : m'.elected.timeoutProposeBlock = m.elected.timeoutProposeBlock := congrArg _ h
  exact ⟨hcore, hhalted, hpool, htimer⟩

theorem elected_processAddTx (n : Node) (origin : Text) (height : Nat) (tx : TransactionStruct) :
    n.elected.processAddTx crypto origin height tx
      = (n.processAddTx crypto origin height tx).elected := by
  unfold processAddTx
  have hguard : n.elected.poolable crypto origin height tx = n.poolable crypto origin height tx :=
    rfl
  rw [hguard]
  split
  · rfl
  · rfl

theorem validates_processAddTx {turn : Turn} (h : n.Validates turn) (origin : Text) (height : Nat)
    (tx : TransactionStruct) : (n.processAddTx crypto origin height tx).elected.Validates turn := by
  unfold processAddTx
  split
  · exact h
  · exact h

theorem halted_processAddTx (n : Node) (origin : Text) (height : Nat) (tx : TransactionStruct) :
    (n.processAddTx crypto origin height tx).halted = n.halted := by
  unfold processAddTx
  split
  · rfl
  · rfl

/-- A message at the validator. -/
theorem step_message (hrun : n.halted = false) {turn : Turn} (hv : n.Validates turn)
    (a : Arriving) :
    n.step crypto turn (.message a.message)
      = if validateMessage a.message then
          n.elected.processAddTx crypto a.origin a.height a.tx
        else n := by
  rw [step_of_running crypto hrun, react]
  split
  · have hcalc : n.calcValidator turn = n.elected := by
      unfold calcValidator
      rw [hv]
      rfl
    show (n.calcValidator turn).andThen _ = _
    rw [hcalc, andThen]
    have hgo : n.elected.halted ≠ true := by
      show n.halted ≠ true
      rw [hrun]
      exact Bool.false_ne_true
    have hself : n.elected.isValidator n.elected.chain.publicKey = true := decide_eq_true rfl
    rw [if_neg hgo]
    exact if_pos hself
  · rfl

/-- The name of the validator does not matter for what is collected. -/
theorem elected_collect :
    ∀ (l : List AddTx) (n : Node),
      (n.elected.collect crypto l).elected = (n.collect crypto l).elected
  | [], _ => rfl
  | m :: l, n => by
      show ((n.elected.processAddTx crypto m.origin m.height m.tx).collect crypto l).elected = _
      rw [elected_processAddTx]
      exact elected_collect l _

/-- **Receiving at the validator is collecting**, apart from the validator's name. -/
theorem elected_receiveAll :
    ∀ {l : List (Turn × Arriving)} {n : Node}, n.halted = false → (∀ x ∈ l, n.Validates x.1) →
      (n.receiveAll crypto l).elected = (n.collect crypto (wellFormed l)).elected
  | [], _, _, _ => rfl
  | x :: l, n, hrun, hv => by
      have hhead := hv x List.mem_cons_self
      have hstep : n.receiveAll crypto (x :: l)
          = (n.step crypto x.1 (.message x.2.message)).receiveAll crypto l := rfl
      rw [hstep, step_message hrun hhead]
      -- what the schema drops is neither processed nor collected
      by_cases hvalid : validateMessage x.2.message = true
      · have hlist : wellFormed (x :: l) = x.2.toAddTx :: wellFormed l := by
          rw [wellFormed, List.map_cons, List.filter_cons_of_pos (by exact hvalid)]
          rfl
        rw [if_pos hvalid, hlist, elected_processAddTx]
        have hrest : (n.processAddTx crypto x.2.origin x.2.height x.2.tx).elected.halted = false :=
          (halted_processAddTx n _ _ _).trans hrun
        rw [elected_receiveAll hrest fun y hy =>
          validates_processAddTx (hv y (List.mem_cons_of_mem x hy)) _ _ _]
        exact elected_collect _ _
      · have hlist : wellFormed (x :: l) = wellFormed l := by
          rw [wellFormed, List.map_cons, List.filter_cons_of_neg (by exact hvalid)]
          rfl
        rw [if_neg hvalid, hlist]
        exact elected_receiveAll hrun fun y hy => hv y (List.mem_cons_of_mem x hy)

/-! ## §4. Two orders of arrival. -/

theorem wellFormed_perm {l l' : List (Turn × Arriving)}
    (hperm : (l.map Prod.snd).Perm (l'.map Prod.snd)) : (wellFormed l).Perm (wellFormed l') :=
  (hperm.filter _).map _

theorem map_wellFormed_sublist {β : Type} (f : AddTx → β) (l : List (Turn × Arriving)) :
    ((wellFormed l).map f).Sublist (l.map fun x => f x.2.toAddTx) := by
  rw [wellFormed, List.map_map]
  have hsub : ((l.map Prod.snd).filter fun a => validateMessage a.message).Sublist
      (l.map Prod.snd) := List.filter_sublist
  have hmap := hsub.map (f ∘ Arriving.toAddTx)
  rw [List.map_map] at hmap
  exact hmap

/-- The candidate after the proposal timer depends on the chain and the pool. -/
theorem held_proposeBlock {m : Node} (hrun : m.halted = false) (turn : Turn) :
    (m.step crypto turn .timeoutProposeBlock).held
      = if m.timeoutProposeBlock then some (m.toConsensus.proposal crypto m.arrayPoolTx)
        else m.held := by
  rw [step_of_running crypto hrun, react]
  split
  · show some (Function.update m.objects m.next _ m.next) = _
    rw [Function.update_self]
  · rfl

/-- **The order of arrival does not matter**: two orders of the same messages
lead to the same pool and to candidates with the same hash. -/
theorem arrival_order (hrun : n.halted = false) (hblock : n.block = none)
    {l l' : List (Turn × Arriving)} (hperm : (l.map Prod.snd).Perm (l'.map Prod.snd))
    (horigins : (l.map fun x => x.2.origin).Nodup) (hsigs : (l.map fun x => x.2.tx.sig).Nodup)
    (hv : ∀ x ∈ l, n.Validates x.1) (hv' : ∀ x ∈ l', n.Validates x.1) (turn turn' : Turn) :
    (n.receiveAll crypto l).arrayPoolTx = (n.receiveAll crypto l').arrayPoolTx
      ∧ ((n.receiveAll crypto l).step crypto turn .timeoutProposeBlock).held.map BlockStruct.hash
        = ((n.receiveAll crypto l').step crypto turn' .timeoutProposeBlock).held.map
            BlockStruct.hash := by
  have hgot : SamePool (n.collect crypto (wellFormed l)) (n.receiveAll crypto l) :=
    samePool_of_elected (elected_receiveAll hrun hv)
  have hgot' : SamePool (n.collect crypto (wellFormed l')) (n.receiveAll crypto l') :=
    samePool_of_elected (elected_receiveAll hrun hv')
  have hcollect : SamePool (n.collect crypto (wellFormed l)) (n.collect crypto (wellFormed l')) :=
    samePool_collect hblock (wellFormed_perm hperm)
      (horigins.sublist (map_wellFormed_sublist AddTx.origin l))
      (hsigs.sublist (map_wellFormed_sublist (fun m => m.tx.sig) l))
  have hsame : SamePool (n.receiveAll crypto l) (n.receiveAll crypto l') :=
    hgot.symm.trans (hcollect.trans hgot')
  have hspec : Collected crypto n (wellFormed l) (n.collect crypto (wellFormed l)) :=
    collect_spec hblock
  have hgo : (n.receiveAll crypto l).halted = false := hgot.halted.trans (hspec.halted.trans hrun)
  have hgo' : (n.receiveAll crypto l').halted = false := hsame.halted.trans hgo
  refine ⟨hsame.pool.symm, ?_⟩
  rw [held_proposeBlock hgo, held_proposeBlock hgo', hsame.core, hsame.pool, hsame.timer]

/-- The validator for the second block. -/
def validatorNode : Node :=
  (start (Blockchain.sampleStart 1)).run poolCrypto [(allOnline, .p2pNetwork)]

def firstArriving : Arriving :=
  { origin := keyOf 0, height := 2, tx := Blockchain.sampleTx, seq := 1, dest := keyOf 1 }

/-- Peer 2 votes, too, and stays. -/
def stakeTx : TransactionStruct :=
  { Blockchain.sampleTx with
    origin := keyOf 2
    commands := Blockchain.sampleTx.commands.take 1
    sig := label 86 2 }

def secondArriving : Arriving :=
  { origin := keyOf 2, height := 2, tx := stakeTx, seq := 1, dest := keyOf 1 }

def arrivals : List (Turn × Arriving) := [(allOnline, firstArriving), (allOnline, secondArriving)]

example : (validatorNode.receiveAll poolCrypto arrivals).arrayPoolTx.length = 2 := by decide +kernel

/-- Two messages arrive, either of them first. -/
theorem arrival_order_of_sample :
    (validatorNode.receiveAll poolCrypto arrivals).arrayPoolTx
        = (validatorNode.receiveAll poolCrypto arrivals.reverse).arrayPoolTx
      ∧ ((validatorNode.receiveAll poolCrypto arrivals).step poolCrypto allOnline
            .timeoutProposeBlock).held.map BlockStruct.hash
        = ((validatorNode.receiveAll poolCrypto arrivals.reverse).step poolCrypto allOnline
            .timeoutProposeBlock).held.map BlockStruct.hash := by
  have hvalidates : ∀ x ∈ arrivals, validatorNode.Validates x.1 := by decide +kernel
  exact arrival_order (by decide +kernel) (by decide +kernel)
    ((List.reverse_perm arrivals).symm.map Prod.snd) (by decide +kernel) (by decide +kernel)
    hvalidates (fun x hx => hvalidates x (List.mem_reverse.mp hx)) allOnline allOnline

end Node

end Divachain
