/-
  Divachain.Net.Validator — the search for the next validator.

  The loop of `calcValidator` goes round the list of the network until it
  comes to somebody who is online.  Nothing bounds it: on an empty list, or
  with nobody online, it never ends.  The own key counts as online, so a node
  that is in its own list finds somebody.

  Main results:
    * `findValidator_eq_search` — what the model calls the validator is what
      one round of the loop finds;
    * `calcValidator_terminates_iff` — when the loop ends, and with whom;
    * `hangs_iff` — a search that hangs has begun, and never ends;
    * `stack_halted_iff` — when sending a transaction off to it fails.
-/
import Divachain.Lib.RoundRobin
import Divachain.Net.ExactlyOnce

namespace Divachain

open DataKit

namespace Node

/-! ## §1. The loop. -/

/-- The index at which the loop begins; `none` where `stringDiff` throws.  With an
empty network the index is not a number, and like any index reads nothing. -/
def loopStart (n : Node) (online : Text → Bool) : Option Nat :=
  let a := n.arrayNetwork
  let i := n.chain.height % a.length
  if a[i]?.any online then some i
  else
    match n.chain.latestBlock with
    | none => none
    | some b => (stringDiff b.hash b.previousHash).map fun i => i % a.length

/-- `while (!isOnline(a[i]))`, for `fuel` steps at most. -/
def search (n : Node) (online : Text → Bool) (fuel : Nat) : Option Text :=
  (n.loopStart online).bind fun i => walk online n.arrayNetwork fuel i

/-- Both hashes of the latest block are there and have one length. -/
def Comparable (n : Node) : Prop :=
  ∃ b, n.chain.latestBlock = some b ∧ b.hash ≠ [] ∧ b.hash.length = b.previousHash.length

/-- **Somebody is found**: one of the network is online, and if it is not the one
whose turn it is, the hashes of the latest block can be compared. -/
def Findable (n : Node) (online : Text → Bool) : Prop :=
  (∃ publicKey ∈ n.arrayNetwork, online publicKey = true)
    ∧ ((n.arrayNetwork[n.chain.height % n.arrayNetwork.length]?).any online = true
      ∨ n.Comparable)

variable {n : Node} {online : Text → Bool}

theorem stringDiff_isSome_iff {a b : Text} :
    (stringDiff a b).isSome = true ↔ a ≠ [] ∧ a.length = b.length := by
  unfold stringDiff
  by_cases h : a.length = 0 ∨ a.length ≠ b.length
  · rw [if_pos h]
    refine iff_of_false Bool.false_ne_true ?_
    intro hcomparable
    rcases h with hempty | hlength
    · exact hcomparable.1 (List.length_eq_zero_iff.mp hempty)
    · exact hlength hcomparable.2
  · rw [if_neg h]
    rw [not_or, not_not, List.length_eq_zero_iff] at h
    exact iff_of_true rfl h

theorem loopStart_lt (hne : n.arrayNetwork ≠ []) {i : Nat} (h : n.loopStart online = some i) :
    i < n.arrayNetwork.length := by
  have hpos : 0 < n.arrayNetwork.length := List.length_pos_iff.mpr hne
  unfold loopStart at h
  dsimp only at h
  split at h
  · obtain rfl := Option.some.inj h
    exact Nat.mod_lt _ hpos
  · split at h
    · exact nomatch h
    · obtain ⟨d, -, rfl⟩ := Option.map_eq_some_iff.mp h
      exact Nat.mod_lt _ hpos

theorem loopStart_isSome_iff :
    (n.loopStart online).isSome = true
      ↔ (n.arrayNetwork[n.chain.height % n.arrayNetwork.length]?).any online = true
        ∨ n.Comparable := by
  unfold loopStart Comparable
  dsimp only
  split
  next honline => simp [honline]
  next honline =>
    cases hlatest : n.chain.latestBlock with
    | none => simp [honline]
    | some b =>
      dsimp only
      rw [Option.isSome_map, stringDiff_isSome_iff]
      simp [honline]

/-- Nothing is found in an empty network. -/
theorem search_of_empty (hempty : n.arrayNetwork = []) (fuel : Nat) :
    n.search online fuel = none := by
  rw [Option.eq_none_iff_forall_ne_some]
  intro publicKey hfound
  obtain ⟨i, -, hwalk⟩ := Option.bind_eq_some_iff.mp hfound
  rw [hempty] at hwalk
  exact nomatch (walk_mem hwalk).1

/-- **The validator of the model is what one round of the loop finds.** -/
theorem findValidator_eq_search :
    n.findValidator online = n.search online n.arrayNetwork.length := by
  by_cases hempty : n.arrayNetwork = []
  · rw [search_of_empty hempty]
    unfold findValidator firstIndex
    rw [hempty]
    rfl
  · have hlt : n.chain.height % n.arrayNetwork.length < n.arrayNetwork.length :=
      Nat.mod_lt _ (List.length_pos_iff.mpr hempty)
    -- the index whose turn it is reads somebody
    have hstart : n.firstIndex online = n.loopStart online := by
      unfold firstIndex loopStart
      dsimp only
      rw [List.getElem?_eq_getElem hlt]
      rfl
    unfold findValidator search
    rw [hstart]
    cases hi : n.loopStart online with
    | none => rfl
    | some i => exact (walk_length (loopStart_lt hempty hi)).symm

/-- Whoever is found stands in the list and is online. -/
theorem search_mem {fuel : Nat} {publicKey : Text} (h : n.search online fuel = some publicKey) :
    publicKey ∈ n.arrayNetwork ∧ online publicKey = true := by
  obtain ⟨i, -, hwalk⟩ := Option.bind_eq_some_iff.mp h
  exact walk_mem hwalk

/-- Where nobody can be found, no number of steps is enough. -/
theorem findable_of_search {fuel : Nat} {publicKey : Text}
    (h : n.search online fuel = some publicKey) : n.Findable online := by
  refine ⟨⟨publicKey, search_mem h⟩, ?_⟩
  obtain ⟨i, hi, -⟩ := Option.bind_eq_some_iff.mp h
  rw [← loopStart_isSome_iff, hi]
  rfl

/-- **One round is enough**, if somebody can be found. -/
theorem search_isSome_iff :
    (n.search online n.arrayNetwork.length).isSome = true ↔ n.Findable online := by
  constructor
  · intro h
    obtain ⟨publicKey, hfound⟩ := Option.isSome_iff_exists.mp h
    exact findable_of_search hfound
  · intro h
    obtain ⟨⟨publicKey, hmem, honline⟩, hstart⟩ := h
    obtain ⟨i, hi⟩ := Option.isSome_iff_exists.mp (loopStart_isSome_iff.mpr hstart)
    have hlt := loopStart_lt (List.ne_nil_of_mem hmem) hi
    unfold search
    rw [hi]
    exact (walk_isSome_iff hlt).mpr ⟨publicKey, hmem, honline⟩

/-! ## §2. `calcValidator`. -/

theorem calcValidator_halted_iff (n : Node) (turn : Turn) (hrun : n.halted = false) :
    (n.calcValidator turn).halted = false ↔ n.Findable (n.isOnline turn) := by
  rw [← search_isSome_iff, ← findValidator_eq_search]
  unfold calcValidator
  cases n.findValidator (n.isOnline turn) with
  | none => exact iff_of_false (fun h => nomatch h) Bool.false_ne_true
  | some publicKey => exact iff_of_true hrun rfl

/-- **The loop ends with somebody who is online if and only if** somebody can be
found: within as many steps as the list has entries. -/
theorem calcValidator_terminates_iff (n : Node) (turn : Turn) :
    (∃ publicKey, n.search (n.isOnline turn) n.arrayNetwork.length = some publicKey
        ∧ publicKey ∈ n.arrayNetwork ∧ n.isOnline turn publicKey = true
        ∧ n.calcValidator turn = { n with validator := publicKey })
      ↔ n.Findable (n.isOnline turn) := by
  constructor
  · intro h
    obtain ⟨publicKey, hfound, -⟩ := h
    exact findable_of_search hfound
  · intro h
    obtain ⟨publicKey, hfound⟩ := Option.isSome_iff_exists.mp (search_isSome_iff.mpr h)
    obtain ⟨hmem, honline⟩ := search_mem hfound
    refine ⟨publicKey, hfound, hmem, honline, ?_⟩
    unfold calcValidator
    rw [findValidator_eq_search, hfound]

/-- The search throws before its first step. -/
theorem calcThrows_iff (n : Node) (online : Text → Bool) :
    n.calcThrows online = true ↔ n.loopStart online = none := by
  have hnone : (n.chain.latestBlock.bind fun b => stringDiff b.hash b.previousHash).isNone = true
      ↔ ¬ n.Comparable := by
    unfold Comparable
    cases n.chain.latestBlock with
    | none => simp
    | some b =>
      rw [Option.bind_some, Option.isNone_iff_eq_none, ← Option.not_isSome_iff_eq_none,
        stringDiff_isSome_iff]
      simp
  rw [← Option.not_isSome_iff_eq_none, loopStart_isSome_iff, not_or, calcThrows, Bool.and_eq_true,
    hnone, Bool.not_eq_true', Bool.not_eq_true]

/-- **A search that hangs has begun, and never ends.** -/
theorem hangs_iff (n : Node) (turn : Turn) :
    n.hangs turn = true ↔ n.loopStart (n.isOnline turn) ≠ none
      ∧ ∀ fuel, n.search (n.isOnline turn) fuel = none := by
  have hfound : (n.findValidator (n.isOnline turn)).isNone = true
      ↔ ∀ fuel, n.search (n.isOnline turn) fuel = none := by
    rw [findValidator_eq_search, Option.isNone_iff_eq_none]
    constructor
    · intro hnone fuel
      by_contra hsome
      obtain ⟨publicKey, hfound⟩ := Option.ne_none_iff_exists'.mp hsome
      rw [← Option.not_isSome_iff_eq_none, search_isSome_iff] at hnone
      exact hnone (findable_of_search hfound)
    · intro hnever
      exact hnever _
  rw [hangs, Bool.and_eq_true, hfound, Bool.not_eq_true', ← Bool.not_eq_true, calcThrows_iff]
  exact and_comm

/-- The search depends on the chain and on the list of the network only. -/
theorem hangs_congr {m : Node} (turn : Turn) (hchain : m.chain = n.chain)
    (hnetwork : m.arrayNetwork = n.arrayNetwork) : m.hangs turn = n.hangs turn := by
  have honline : m.isOnline turn = n.isOnline turn := by
    funext publicKey
    rw [isOnline, isOnline, hchain]
  rw [hangs, hangs, findValidator, findValidator, firstIndex, firstIndex, calcThrows, calcThrows,
    hchain, hnetwork, honline]

/-! ## §3. What is sent to the validator. -/

theorem canBroadcast_iff :
    n.canBroadcast = true
      ↔ ∀ pk ∈ n.arrayNetwork, pk = n.chain.publicKey ∨ n.chain.hasPeer pk = true := by
  simp [canBroadcast]

/-- **A transaction that is sent off gets through**: somebody is found, and it is
the node itself or `broadcast` returns. -/
def Deliverable (n : Node) (turn : Turn) : Prop :=
  n.Findable (n.isOnline turn)
    ∧ (n.findValidator (n.isOnline turn) = some n.chain.publicKey ∨ n.canBroadcast = true)

/-- The node keeps a transaction for itself, or broadcasts it. -/
theorem submit_halted (crypto : Crypto) (n : Node) (turn : Turn) (height : Nat)
    (tx : TransactionStruct) :
    (n.submit crypto turn height tx).halted
      = (n.halted || (decide (n.validator ≠ n.chain.publicKey) && !n.canBroadcast)) := by
  unfold submit processAddTx
  by_cases hown : n.chain.publicKey = n.validator
  · have hsame : n.isValidator n.chain.publicKey = true := decide_eq_true hown
    rw [if_pos hsame, decide_eq_false (not_not.mpr hown.symm), Bool.false_and, Bool.or_false]
    split <;> rfl
  · have hother : ¬ n.isValidator n.chain.publicKey = true := fun h => hown (of_decide_eq_true h)
    rw [if_neg hother, decide_eq_true (Ne.symm hown), Bool.true_and]
    exact andThen_frame _ halted fun _ => rfl

/-- The validator is searched for, and the transaction sent off to it. -/
theorem send_halted_iff (crypto : Crypto) (n : Node) (turn : Turn) (hrun : n.halted = false)
    (height : Nat) (tx : TransactionStruct) :
    ((n.calcValidator turn).andThen fun n => n.submit crypto turn height tx).halted = true
      ↔ ¬ n.Deliverable turn := by
  unfold Deliverable
  rw [← search_isSome_iff, ← findValidator_eq_search]
  unfold calcValidator
  cases n.findValidator (n.isOnline turn) with
  | none => exact iff_of_true rfl fun h => nomatch h.1
  | some publicKey =>
    dsimp only
    rw [andThen_of_running { n with validator := publicKey } _ hrun, submit_halted]
    show (n.halted || (decide (publicKey ≠ n.chain.publicKey) && !n.canBroadcast)) = true ↔ _
    rw [hrun, Bool.false_or]
    simp

/-- **When `doAddTx` throws or hangs.** -/
theorem doAddTx_halted_iff (crypto : Crypto) (n : Node) (turn : Turn) (hrun : n.halted = false) :
    (n.doAddTx crypto turn).halted = true
      ↔ n.ownTx = none ∧ n.stackTransaction ≠ [] ∧ ¬ n.Deliverable turn := by
  unfold doAddTx
  split
  next r rest hown hstack =>
    have hsend := send_halted_iff crypto { n with
      stackTransaction := rest
      ownTx := some { height := n.chain.height + 1, tx := n.signTx crypto r } } turn hrun
        (n.chain.height + 1) (n.signTx crypto r)
    rw [hown, hstack]
    refine hsend.trans ?_
    show ¬ n.Deliverable turn ↔ _
    simp
  next hnot =>
    rw [hrun]
    refine iff_of_false Bool.false_ne_true ?_
    intro h
    obtain ⟨r, rest, hstack⟩ := List.exists_cons_of_ne_nil h.2.1
    exact hnot r rest h.1 hstack

/-- The commands as `stackTx` numbers them. -/
def numbered (commands : List Command) : List Command :=
  commands.zipIdx.map fun c => setSeq c.1 (c.2 + 1)

/-- The transaction of these commands passes, and none is in flight. -/
def SendsOff (crypto : Crypto) (n : Node) (turn : Turn) (commands : List Command) (ident : Text) :
    Prop :=
  validateTx crypto n.chain.toLedger (n.chain.height + 1)
      (n.signTx crypto { ident := identOf turn ident, commands := commands }) = true
    ∧ n.ownTx = none

theorem stack_halted_iff (crypto : Crypto) (n : Node) (turn : Turn) (hrun : n.halted = false)
    (commands : List Command) (ident : Text) :
    (n.stack crypto turn commands ident).halted = true
      ↔ SendsOff crypto n turn commands ident ∧ ¬ n.Deliverable turn := by
  unfold stack SendsOff
  dsimp only
  split
  next hvalid =>
    have hadd := doAddTx_halted_iff crypto { n with
      stackTransaction := n.stackTransaction ++ [⟨identOf turn ident, commands⟩]
      accepted := n.accepted ++ [⟨identOf turn ident, commands⟩] } turn hrun
    rw [hadd]
    show n.ownTx = none ∧ n.stackTransaction ++ [_] ≠ [] ∧ ¬ n.Deliverable turn ↔ _
    simp [hvalid]
  next hvalid =>
    rw [hrun]
    simp [hvalid]

/-! ## §4. A node that has not heard of the network yet. -/

open Blockchain (sampleCrypto sampleStart sampleTx)

/-- **An API call before the network is known**: the loop never ends, and the
process hangs in it. -/
theorem search_never_ends :
    (∀ fuel, (start (sampleStart 0)).search ((start (sampleStart 0)).isOnline allOnline) fuel = none)
      ∧ ((start (sampleStart 0)).step sampleCrypto allOnline
        (.stackTx sampleTx.commands sampleTx.ident)).halted = true :=
  ⟨search_of_empty rfl, by decide +kernel⟩

end Node

end Divachain
