/-
  Divachain.Net.SyncAnswer — what the sync loop does with an answer.

  The answer is whatever JSON another peer sends.  `processStatus` goes through
  its elements and hands each to `add`, and nothing in between catches an
  exception: a throw leaves `isSyncing` set and ends the process.  The loop is run
  here from the moment the answer is there, with no other turn in between.

  Main results:
    * `applyBlock_halted_iff`, `applyBlock_adds` — a call of `add` to its end is
      the uninterrupted `add`, unless its stake vote or its validator fails;
    * `addBlock_toJson` — on blocks of the right shape the loop does what the one
      that knows the shape does;
    * `addBlock_eq_some_iff` — when one element is handled;
    * `extends_spec` — what the loop has changed;
    * `sync_survives_iff` — when the loop survives the answer.
-/
import Divachain.Net.Applied
import Divachain.Net.Untyped

namespace Divachain

open DataKit

namespace Node

variable {crypto : Crypto} {n : Node} (turn : Turn)

/-! ## §1. The end of a call. -/

theorem updateCache_arrayNetwork (n : Node) (b : BlockStruct) :
    (n.updateCache crypto turn b).arrayNetwork = n.arrayNetwork := by
  unfold updateCache settleVote
  dsimp only
  split
  · rfl
  · rfl
  next publicKey _ =>
    set m := n.setChain ((n.chain.cacheBlock b).countVotes b) with hm
    have hpropose : (m.proposeModifyStake crypto turn publicKey STAKE_VOTE_IDENT
        STAKE_VOTE_AMOUNT).core = m.core :=
      m.proposeModifyStake_core turn publicKey STAKE_VOTE_IDENT STAKE_VOTE_AMOUNT
    rw [andThen_frame _ Node.arrayNetwork]
    · exact congrArg Prod.snd hpropose
    · intro m
      split <;> rfl

theorem arrayNetwork_finishAdd {turn : Turn} (i : Nat) (t : AddTask) :
    (n.finishAdd crypto turn i t).arrayNetwork = n.arrayNetwork := by
  unfold finishAdd
  dsimp only
  split
  · rfl
  · refine (andThen_frame _ arrayNetwork fun k => ?_).trans ?_
    · rfl
    · exact arrayNetwork_calcValidator.trans (updateCache_arrayNetwork turn n (n.objects t.obj))

theorem findable_congr {n m : Node} {online : Text → Bool} (harray : n.arrayNetwork = m.arrayNetwork)
    (hheight : n.chain.height = m.chain.height)
    (hlatest : n.chain.latestBlock = m.chain.latestBlock) :
    n.Findable online ↔ m.Findable online := by
  unfold Findable Comparable
  rw [harray, hheight, hlatest]

/-- The end of `add` and of `addBlock`, where the stake vote does not fail. -/
theorem finishAdd_of_running {i : Nat} {t : AddTask}
    (h : (n.updateCache crypto turn (n.objects t.obj)).halted = false) :
    ∃ answer chain, n.chain.updateCache answer (n.objects t.obj) = some chain
      ∧ (n.finishAdd crypto turn i t).chain = chain
      ∧ ((n.finishAdd crypto turn i t).halted = false
        ↔ (n.withLast (n.objects t.obj)).Findable (n.isOnline turn)) := by
  obtain ⟨answer, chain, hcache, hcore⟩ := n.updateCache_toConsensus turn h
  have hspec := Blockchain.updateCache_spec hcache
  set m := n.updateCache crypto turn (n.objects t.obj) with hm
  set p := ({ m with toConsensus := m.toConsensus.finish i t m.chain } : Node).clear
    (some (n.objects t.obj)) with hp
  have hchain : m.chain = chain := by rw [hcore]
  have hfinish : n.finishAdd crypto turn i t
      = (p.calcValidator turn).andThen fun n => { n with timeoutAddTx := true } := by
    unfold finishAdd
    dsimp only
    rw [← hm, if_neg (by rw [h]; exact Bool.false_ne_true)]
  -- what the search for a validator reads is that of the node with the block as its last one
  have harray : p.arrayNetwork = (n.withLast (n.objects t.obj)).arrayNetwork :=
    updateCache_arrayNetwork turn n (n.objects t.obj)
  have hpchain : p.chain = chain := hchain
  have honline : p.isOnline turn = n.isOnline turn := by
    funext publicKey
    unfold isOnline
    rw [hpchain, hspec.publicKey]
  refine ⟨answer, chain, hcache, ?_, ?_⟩
  · rw [hfinish]
    have hcore' := andThen_toConsensus (p.calcValidator turn)
      (f := fun n => { n with timeoutAddTx := true }) fun _ => rfl
    rw [calcValidator_toConsensus] at hcore'
    exact (congrArg Consensus.chain hcore').trans hpchain
  · have hprun : p.halted = false := h
    rw [hfinish, andThen_frame (f := fun n => { n with timeoutAddTx := true }) _ halted fun _ => rfl,
      calcValidator_halted_iff p turn hprun, honline]
    refine findable_congr harray ?_ ?_
    · rw [hpchain, hspec.height]
      rfl
    · rw [hpchain, hspec.latestBlock]
      rfl

/-- **When the last turn of a call fails**: its stake vote does, or nobody can be
found as the next validator. -/
theorem finishAdd_halted_iff (hrun : n.halted = false) {i : Nat} {t : AddTask} :
    (n.finishAdd crypto turn i t).halted = false
      ↔ Completes crypto n turn (n.objects t.obj)
        ∧ (n.withLast (n.objects t.obj)).Findable (n.isOnline turn) := by
  have hhalts := updateCache_halted_iff crypto turn hrun (n.objects t.obj)
  by_cases hfails : (n.updateCache crypto turn (n.objects t.obj)).halted = true
  · refine iff_of_false ?_ fun h => hhalts.mp hfails h.1
    unfold finishAdd
    dsimp only
    rw [if_pos hfails]
    exact fun h => nomatch h
  · obtain ⟨-, -, -, -, hfinish⟩ := finishAdd_of_running (i := i) turn (Bool.eq_false_iff.mpr hfails)
    rw [hfinish]
    exact (and_iff_right (not_not.mp fun h => hfails (hhalts.mpr h))).symm

end Node

/-! ## §2. A call that nothing interrupts. -/

/-- What `add` does behind its guard. -/
def Blockchain.applied (answer : Bool) (c : Blockchain) (b : BlockStruct) : Option Blockchain :=
  let r := c.toLedger.processState b.tx
  ((c.putBlock b.height b).setLedger r.1).updateCache answer { b with tx := r.2 }

namespace Node

variable (crypto : Crypto) {n : Node} (turn : Turn)

/-- `add` up to its first suspension, for a block that has passed the guard. -/
def beginAdd (n : Node) (b : BlockStruct) : Node :=
  { n with
    toConsensus := { n.toConsensus.alloc b with
      chain := n.chain.putBlock b.height b
      adds := n.adds ++ [{ obj := n.next, pos := 0, stored := b, fromSync := true }] } }

/-- The call has applied all commands of the block. -/
def applyCommands (crypto : Crypto) (n : Node) (turn : Turn) (b : BlockStruct) : Node :=
  (n.beginAdd b).run crypto
    ((List.replicate (commandsOf b.tx).length turn).map fun turn =>
      (turn, .resumeAdd n.adds.length))

/-- The whole call, and what `addBlock` does when it has returned true. -/
def applyBlock (crypto : Crypto) (n : Node) (turn : Turn) (b : BlockStruct) : Node :=
  (n.applyCommands crypto turn b).step crypto turn (.resumeAdd n.adds.length)

/-- The block as the call leaves it. -/
def written (n : Node) (b : BlockStruct) : BlockStruct :=
  { b with tx := (n.chain.toLedger.processState b.tx).2 }

/-- The task of the call once all commands have been applied. -/
def appliedTask (n : Node) (b : BlockStruct) : AddTask :=
  { obj := n.next, pos := (commandsOf b.tx).length, stored := b, fromSync := true }

/-- **The commands of the block have been applied**, and nothing else has. -/
structure CommandsApplied (b : BlockStruct) (n m : Node) : Prop where
  running : m.halted = false
  task : m.adds[n.adds.length]? = some (n.appliedTask b)
  pending : m.pending (n.appliedTask b) = none
  arrayNetwork : m.arrayNetwork = n.arrayNetwork
  chain : m.chain
    = (n.chain.putBlock b.height b).setLedger (n.chain.toLedger.processState b.tx).1
  object : m.objects n.next = n.written b

theorem applyCommands_spec (hrun : n.halted = false) (b : BlockStruct) :
    CommandsApplied b n (n.applyCommands crypto turn b) := by
  set t : AddTask := { obj := n.next, pos := 0, stored := b, fromSync := true }
  have hobject : (n.beginAdd b).objects n.next = b := Consensus.objects_alloc_self
  have htask : (n.beginAdd b).adds[n.adds.length]? = some t := by
    show (n.adds ++ [t])[n.adds.length]? = some t
    rw [List.getElem?_append_right (Nat.le_refl _), Nat.sub_self]
    rfl
  have happlied : AllApplied n.adds.length t (n.beginAdd b) (n.applyCommands crypto turn b) :=
    allApplied crypto hrun htask rfl hobject List.length_replicate
  exact ⟨happlied.running, happlied.task, happlied.pending, happlied.arrayNetwork, happlied.chain,
    happlied.object⟩

/-- **The end of the call is reached**: after the commands of the block its stake
vote does not fail, and with the block as the latest one a validator is found. -/
def Finishes (crypto : Crypto) (n : Node) (turn : Turn) (b : BlockStruct) : Prop :=
  let m := n.applyCommands crypto turn b
  Completes crypto m turn (n.written b) ∧ (m.withLast (n.written b)).Findable (m.isOnline turn)

theorem applyBlock_eq (hrun : n.halted = false) (b : BlockStruct) :
    n.applyBlock crypto turn b
      = (n.applyCommands crypto turn b).finishAdd crypto turn n.adds.length (n.appliedTask b) := by
  have hspec := applyCommands_spec crypto turn hrun b
  exact resumeAdd_none crypto turn hspec.running hspec.task hspec.pending

/-- **When a call of `add` that has passed its guard comes to its end.** -/
theorem applyBlock_halted_iff (hrun : n.halted = false) (b : BlockStruct) :
    (n.applyBlock crypto turn b).halted = false ↔ Finishes crypto n turn b := by
  have hspec := applyCommands_spec crypto turn hrun b
  have hobject : (n.applyCommands crypto turn b).objects (n.appliedTask b).obj = n.written b :=
    hspec.object
  rw [applyBlock_eq crypto turn hrun, finishAdd_halted_iff turn hspec.running, hobject]
  rfl

/-- **What such a call has done** is what `add` does without any suspension. -/
theorem applyBlock_chain (hrun : n.halted = false) {b : BlockStruct}
    (h : (n.applyBlock crypto turn b).halted = false) :
    ∃ answer, n.chain.applied answer b = some (n.applyBlock crypto turn b).chain := by
  have hspec := applyCommands_spec crypto turn hrun b
  set m := n.applyCommands crypto turn b with hm
  have hobject : m.objects (n.appliedTask b).obj = n.written b := hspec.object
  have hcompletes := ((applyBlock_halted_iff crypto turn hrun b).mp h).1
  have hvote : (m.updateCache crypto turn (m.objects (n.appliedTask b).obj)).halted = false := by
    rw [hobject]
    by_contra hfails
    rw [Bool.not_eq_false] at hfails
    exact (updateCache_halted_iff crypto turn hspec.running (n.written b)).mp hfails hcompletes
  obtain ⟨answer, chain, hcache, hchain, -⟩ :=
    finishAdd_of_running (i := n.adds.length) turn hvote
  refine ⟨answer, ?_⟩
  rw [applyBlock_eq crypto turn hrun, ← hm, hchain, ← hcache, hobject, hspec.chain]
  rfl

/-- **A call of `add` in turns is the uninterrupted one**, for a block of the right
shape. -/
theorem applyBlock_adds (hrun : n.halted = false) {b : BlockStruct}
    (haccepts : n.chain.accepts crypto b = true)
    (h : (n.applyBlock crypto turn b).halted = false) :
    ∃ answer, n.chain.add crypto b answer = .added (n.applyBlock crypto turn b).chain := by
  obtain ⟨answer, happlied⟩ := applyBlock_chain crypto turn hrun h
  refine ⟨answer, ?_⟩
  unfold Blockchain.applied at happlied
  unfold Blockchain.add
  rw [if_pos haccepts]
  dsimp only at happlied ⊢
  rw [happlied]

end Node

/-! ## §3. The loop. -/

namespace Untyped

def elementsOf (v : Option Json) : List Json := (v.bind Json.elements).getD []

/-- What the code reads of a vote that has been let through. -/
def voteOf (j : Json) : Option VoteStruct :=
  ((originOf j).bind Json.text).map fun origin =>
    { origin := origin, sig := ((j.member WireField.sig.name).bind Json.text).getD [] }

/-- The block that a value is once the guard has let it through.  Members the code
does not know are stored with it, but nothing looks at them. -/
def blockOf (c : Blockchain) (j : Json) : BlockStruct :=
  { version := ((j.member WireField.version.name).bind Json.natural).getD 0
    previousHash := latestHash c
    hash := ((j.member WireField.hash.name).bind Json.text).getD []
    tx := (elementsOf (j.member WireField.tx.name)).filterMap TransactionStruct.ofJson
    height := c.height + 1
    votes := (elementsOf (j.member WireField.votes.name)).filterMap voteOf }

theorem filterMap_toJson {α : Type} {toJson : α → Json} {read : Json → Option α} {l : List α}
    (h : ∀ a ∈ l, read (toJson a) = some a) : (l.map toJson).filterMap read = l := by
  rw [List.filterMap_map]
  induction l with
  | nil => rfl
  | cons a l ih =>
    have hread : (read ∘ toJson) a = some a := h a List.mem_cons_self
    rw [List.filterMap_cons_some hread, ih fun b hb => h b (List.mem_cons_of_mem a hb)]

/-- **A block of the right shape is read as it is.** -/
theorem blockOf_toJson {crypto : Crypto} {c : Blockchain} {b : BlockStruct}
    (h : ∀ t ∈ b.tx, t.WellKeyed) (haccepts : c.accepts crypto b = true) :
    blockOf c b.toJson = b := by
  obtain ⟨hheight, hlatest, -, -⟩ := (Blockchain.accepts_iff crypto).mp haccepts
  have hprevious : latestHash c = b.previousHash := by
    rw [latestHash, hlatest]
    rfl
  have htx : (b.tx.map TransactionStruct.toJson).filterMap TransactionStruct.ofJson = b.tx :=
    filterMap_toJson fun t ht => TransactionStruct.ofJson_toJson (h t ht)
  have hvotes : (b.votes.map VoteStruct.toJson).filterMap voteOf = b.votes :=
    filterMap_toJson fun v _ => rfl
  show BlockStruct.mk b.version (latestHash c) b.hash
    ((b.tx.map TransactionStruct.toJson).filterMap TransactionStruct.ofJson) (c.height + 1)
    ((b.votes.map VoteStruct.toJson).filterMap voteOf) = b
  rw [htx, hvotes, hprevious, hheight]

/-- The height of the next block can be logged. -/
theorem printable_of_isNext {c : Blockchain} {j : Json} (h : isNext c j = true) :
    Json.Printable (j.member WireField.height.name) := by
  unfold isNext at h
  rw [Bool.and_eq_true] at h
  rw [eq_of_sameInt h.1]
  exact rfl

end Untyped

namespace Node

open Untyped (blockOf isNext latestHash BlockReadable)

variable (crypto : Crypto) (verifyOther : Option Json → Option Json → Text → Bool)

/-- `addBlock` of whatever stands in the answer; `none` where it throws or hangs.
The height of a block that is turned away is logged. -/
def addBlock (n : Node) (turn : Turn) (j : Json) : Option Node :=
  match Untyped.accepts crypto verifyOther n.chain j with
  | none => none
  | some false => if Json.Printable (j.member WireField.height.name) then some n else none
  | some true =>
      let m := n.applyBlock crypto turn (blockOf n.chain j)
      if m.halted then none else some m

/-- What the loop goes through: `answer || []`. -/
def answered : Option Json → Option (List Json)
  | none => some []
  | some j => if j.truthy then j.elements else some []

/-- The loop; the `k`-th element is handled in the `k`-th of these turns. -/
def syncBlocks (turns : Nat → Turn) : Nat → Node → List Json → Option Node
  | _, n, [] => some n
  | k, n, j :: js => (n.addBlock crypto verifyOther (turns k) j).bind fun m =>
      syncBlocks turns (k + 1) m js

/-- `this.isSyncing = false`. -/
def endSync (n : Node) : Node := { n with toConsensus := { n.toConsensus with sync := .idle } }

/-- The sync branch of `processStatus`, from the answer to its end. -/
def processAnswer (turns : Nat → Turn) (n : Node) (answer : Option Json) : Option Node := do
  let js ← answered answer
  let m ← syncBlocks crypto verifyOther turns 0 n js
  return m.endSync

/-- **On blocks of the right shape** this is the guard of the typed `add`. -/
theorem addBlock_toJson {n : Node} {turn : Turn} {b : BlockStruct} (h : ∀ t ∈ b.tx, t.WellKeyed) :
    n.addBlock crypto verifyOther turn b.toJson
      = if n.chain.accepts crypto b then
          let m := n.applyBlock crypto turn b
          if m.halted then none else some m
        else some n := by
  unfold addBlock
  rw [Untyped.accepts_toJson h]
  cases haccepts : n.chain.accepts crypto b with
  | false =>
    have hprint : Json.Printable (b.toJson.member WireField.height.name) := rfl
    dsimp only
    rw [if_pos hprint]
    rfl
  | true =>
    dsimp only
    rw [Untyped.blockOf_toJson h haccepts]
    rfl

/-! ## §4. When it survives. -/

section

variable {crypto verifyOther} {n : Node} {turn : Turn} {turns : Nat → Turn}

/-- **An element the loop can handle**: it is not null, its height can be logged if
it is not the next block, it can be read if it is, and once accepted it is applied
to the end. -/
structure Handled (crypto : Crypto) (verifyOther : Option Json → Option Json → Text → Bool)
    (n : Node) (turn : Turn) (j : Json) : Prop where
  notNull : j ≠ .null
  logged : isNext n.chain j = false → Json.Printable (j.member WireField.height.name)
  readable : isNext n.chain j = true → ∃ tx,
    BlockReadable crypto verifyOther n.chain.toLedger (n.chain.height + 1) (latestHash n.chain) j tx
  finishes : Untyped.accepts crypto verifyOther n.chain j = some true →
    Finishes crypto n turn (blockOf n.chain j)

/-- The node after an element: the block is applied if the guard lets it through. -/
def afterBlock (crypto : Crypto) (verifyOther : Option Json → Option Json → Text → Bool)
    (n : Node) (turn : Turn) (j : Json) : Node :=
  if Untyped.accepts crypto verifyOther n.chain j = some true then
    n.applyBlock crypto turn (blockOf n.chain j)
  else n

/-- **When one element is handled**, and what it leaves. -/
theorem addBlock_eq_some_iff (hrun : n.halted = false) {j : Json} {m : Node} :
    n.addBlock crypto verifyOther turn j = some m
      ↔ Handled crypto verifyOther n turn j ∧ m = n.afterBlock crypto verifyOther turn j := by
  have hreads : Untyped.accepts crypto verifyOther n.chain j ≠ none ↔ _ :=
    Untyped.accepts_ne_none_iff
  unfold addBlock afterBlock
  cases haccepts : Untyped.accepts crypto verifyOther n.chain j with
  | none =>
    refine iff_of_false (fun h => nomatch h) fun h => ?_
    exact hreads.mpr ⟨h.1.notNull, h.1.readable⟩ haccepts
  | some accepted =>
    obtain ⟨hnull, hreadable⟩ := hreads.mp (by rw [haccepts]; exact fun h => nomatch h)
    cases accepted with
    | false =>
      have hother : some false ≠ some true := by decide
      dsimp only
      rw [if_neg hother]
      by_cases hprint : Json.Printable (j.member WireField.height.name)
      · have hhandled : Handled crypto verifyOther n turn j := by
          refine ⟨hnull, fun _ => hprint, hreadable, fun h => ?_⟩
          exact nomatch haccepts.symm.trans h
        rw [if_pos hprint, Option.some.injEq, eq_comm, and_iff_right hhandled]
      · rw [if_neg hprint]
        refine iff_of_false (fun h => nomatch h) fun h => hprint ?_
        by_cases hnext : isNext n.chain j = true
        · exact Untyped.printable_of_isNext hnext
        · exact h.1.logged (Bool.eq_false_iff.mpr hnext)
    | true =>
      -- the height is logged only for a block that is turned away
      have hends := applyBlock_halted_iff crypto turn hrun (blockOf n.chain j)
      have hnext : isNext n.chain j = true := (Untyped.accepts_eq_true_iff.mp haccepts).1
      dsimp only
      rw [if_pos rfl]
      by_cases hfails : (n.applyBlock crypto turn (blockOf n.chain j)).halted = true
      · rw [if_pos hfails]
        refine iff_of_false (fun h => nomatch h) fun h => ?_
        exact absurd (hends.mpr (h.1.finishes haccepts)) (by rw [hfails]; decide)
      · have hhandled : Handled crypto verifyOther n turn j := by
          refine ⟨hnull, fun h => ?_, hreadable, fun _ => hends.mp (Bool.eq_false_iff.mpr hfails)⟩
          exact absurd (hnext.symm.trans h) (by decide)
        rw [if_neg hfails, Option.some.injEq, eq_comm, and_iff_right hhandled]

/-- What is handled leaves a process that goes on. -/
theorem afterBlock_running (hrun : n.halted = false) {j : Json}
    (h : Handled crypto verifyOther n turn j) :
    (n.afterBlock crypto verifyOther turn j).halted = false := by
  unfold afterBlock
  split
  next haccepts => exact (applyBlock_halted_iff crypto turn hrun _).mpr (h.finishes haccepts)
  next => exact hrun

/-- **Each element can be handled** in the state the ones before it have left. -/
def Answerable (crypto : Crypto) (verifyOther : Option Json → Option Json → Text → Bool)
    (turns : Nat → Turn) : Nat → Node → List Json → Prop
  | _, _, [] => True
  | k, n, j :: js => Handled crypto verifyOther n (turns k) j
      ∧ Answerable crypto verifyOther turns (k + 1) (n.afterBlock crypto verifyOther (turns k) j) js

/-- **Nothing but the accepted elements**, one after the other: the second chain is
the first one after an uninterrupted `add` of each. -/
inductive Extends (crypto : Crypto) (verifyOther : Option Json → Option Json → Text → Bool) :
    Blockchain → List Json → Blockchain → Prop where
  | done (c : Blockchain) : Extends crypto verifyOther c [] c
  | skip {c c' : Blockchain} {j : Json} {js : List Json}
      (h : Untyped.accepts crypto verifyOther c j = some false)
      (hrest : Extends crypto verifyOther c js c') : Extends crypto verifyOther c (j :: js) c'
  | add {c d c' : Blockchain} {j : Json} {js : List Json} (answer : Bool)
      (h : Untyped.accepts crypto verifyOther c j = some true)
      (happlied : c.applied answer (blockOf c j) = some d)
      (hrest : Extends crypto verifyOther d js c') : Extends crypto verifyOther c (j :: js) c'

/-- **What the loop has changed**: the ledger and the store by blocks of consecutive
heights, no more than there are elements. -/
theorem extends_spec {c c' : Blockchain} {js : List Json} (h : Extends crypto verifyOther c js c') :
    ∃ bs : List BlockStruct, c'.toLedger = c.toLedger.applyBlocks bs
      ∧ c'.dbBlockchain = bs.foldl (fun s b => s.put b.height b) c.dbBlockchain
      ∧ bs.map BlockStruct.height = List.range' (c.height + 1) bs.length
      ∧ c'.height = c.height + bs.length ∧ bs.length ≤ js.length := by
  induction h with
  | done c => exact ⟨[], rfl, rfl, rfl, rfl, Nat.le_refl _⟩
  | skip _ _ ih =>
    obtain ⟨bs, hledger, hstore, hheights, hheight, hlength⟩ := ih
    refine ⟨bs, hledger, hstore, hheights, hheight, ?_⟩
    rw [List.length_cons]
    omega
  | @add c d c' j js answer h happlied _ ih =>
    obtain ⟨bs, hledger, hstore, hheights, hheight, hlength⟩ := ih
    have hspec := Blockchain.updateCache_spec happlied
    have hd : d.height = c.height + 1 := hspec.height
    refine ⟨blockOf c j :: bs, ?_, ?_, ?_, ?_, ?_⟩
    · rw [hledger, hspec.ledger, Blockchain.toLedger_setLedger, Ledger.processState_fst]
      rfl
    · rw [hstore, hspec.dbBlockchain]
      rfl
    · rw [List.map_cons, hheights, hd, List.length_cons, List.range'_succ]
      rfl
    · rw [hheight, hd, List.length_cons]
      omega
    · rw [List.length_cons, List.length_cons]
      omega

/-- **The loop comes to its end** if and only if each element can be handled. -/
theorem syncBlocks_isSome_iff :
    ∀ {js : List Json} {k : Nat} {n : Node}, n.halted = false →
      ((syncBlocks crypto verifyOther turns k n js).isSome = true
        ↔ Answerable crypto verifyOther turns k n js)
  | [], _, _, _ => iff_of_true rfl trivial
  | j :: js, k, n, hrun => by
      unfold syncBlocks Answerable
      cases hadd : n.addBlock crypto verifyOther (turns k) j with
      | none =>
        refine iff_of_false Bool.false_ne_true fun h => ?_
        exact nomatch hadd.symm.trans ((addBlock_eq_some_iff hrun).mpr ⟨h.1, rfl⟩)
      | some m =>
        obtain ⟨hhandled, rfl⟩ := (addBlock_eq_some_iff hrun).mp hadd
        rw [Option.bind_some, and_iff_right hhandled]
        exact syncBlocks_isSome_iff (afterBlock_running hrun hhandled)

/-- **The chain differs only by the blocks that were accepted.** -/
theorem syncBlocks_extends :
    ∀ {js : List Json} {k : Nat} {n m : Node}, n.halted = false →
      syncBlocks crypto verifyOther turns k n js = some m →
        Extends crypto verifyOther n.chain js m.chain
  | [], _, n, m, _, h => by
      obtain rfl := Option.some.inj h
      exact .done _
  | j :: js, k, n, m, hrun, h => by
      obtain ⟨p, hadd, hrest⟩ := Option.bind_eq_some_iff.mp h
      obtain ⟨hhandled, rfl⟩ := (addBlock_eq_some_iff hrun).mp hadd
      have hrunning := afterBlock_running hrun hhandled
      have hextends := syncBlocks_extends hrunning hrest
      unfold afterBlock at hrunning hextends
      -- an accepted block is added, any other element is passed over
      by_cases haccepts : Untyped.accepts crypto verifyOther n.chain j = some true
      · rw [if_pos haccepts] at hrunning hextends
        obtain ⟨answer, happlied⟩ := applyBlock_chain crypto (turns k) hrun hrunning
        exact .add answer haccepts happlied hextends
      · rw [if_neg haccepts] at hextends
        refine .skip ?_ hextends
        have hsome := Untyped.accepts_ne_none_iff.mpr ⟨hhandled.notNull, hhandled.readable⟩
        obtain ⟨accepted, haccepted⟩ := Option.ne_none_iff_exists'.mp hsome
        cases accepted with
        | true => exact absurd haccepted haccepts
        | false => exact haccepted

/-- The loop ends without an exception, `isSyncing` is false, and the chain has got
the accepted blocks. -/
def Survives (crypto : Crypto) (verifyOther : Option Json → Option Json → Text → Bool)
    (turns : Nat → Turn) (n : Node) (answer : Option Json) : Prop :=
  ∃ m js, processAnswer crypto verifyOther turns n answer = some m ∧ m.sync = .idle
    ∧ answered answer = some js ∧ Extends crypto verifyOther n.chain js m.chain

/-- **The sync task survives an answer if and only if** the answer can be iterated
and each of its elements can be handled. -/
theorem sync_survives_iff (hrun : n.halted = false) (answer : Option Json) :
    Survives crypto verifyOther turns n answer
      ↔ ∃ js, answered answer = some js ∧ Answerable crypto verifyOther turns 0 n js := by
  unfold Survives processAnswer
  constructor
  · rintro ⟨m, js, hanswer, -, hjs, -⟩
    obtain ⟨js', hjs', hanswer⟩ := Option.bind_eq_some_iff.mp hanswer
    obtain rfl := Option.some.inj (hjs.symm.trans hjs')
    obtain ⟨p, hsync, -⟩ := Option.bind_eq_some_iff.mp hanswer
    refine ⟨js, hjs, (syncBlocks_isSome_iff hrun).mp ?_⟩
    rw [hsync]
    rfl
  · rintro ⟨js, hjs, hanswerable⟩
    obtain ⟨m, hsync⟩ := Option.isSome_iff_exists.mp ((syncBlocks_isSome_iff hrun).mpr hanswerable)
    have hextends := syncBlocks_extends hrun hsync
    refine ⟨m.endSync, js, ?_, rfl, hjs, hextends⟩
    rw [hjs, Option.bind_eq_bind, Option.bind_some, hsync]
    rfl

end

/-! ## §5. An answer with null in it. -/

open Blockchain (sampleBlock sampleCrypto sampleGenesis sampleStart)

/-- Node 0 knows its network, and peer 1 says that it is ahead. -/
def behind : List (Turn × Event) :=
  [(allOnline, .p2pNetwork), (allOnline, .message (messageOf 1 (.status ONLINE 2)))]

def behindNode : Node := (start (sampleStart 0)).run sampleCrypto behind

/-- Values that are no texts never verify. -/
def neverVerifies (_ _ : Option Json) (_ : Text) : Bool := false

/-- An answer with the next block. -/
theorem sync_survives_of_sample :
    Survives sampleCrypto neverVerifies (fun _ => allOnline) behindNode
      (some (.arr [(sampleBlock [0, 1]).toJson])) := by
  have hrun : behindNode.halted = false := by decide +kernel
  have hreads : Untyped.accepts sampleCrypto neverVerifies behindNode.chain
      (sampleBlock [0, 1]).toJson ≠ none := by decide +kernel
  refine (sync_survives_iff hrun _).mpr ⟨[(sampleBlock [0, 1]).toJson], rfl, ⟨?_, trivial⟩⟩
  refine ⟨(fun h => nomatch h), fun _ => rfl, (Untyped.accepts_ne_none_iff.mp hreads).2, fun _ => ?_⟩
  refine ⟨Or.inl ?_, ⟨keyOf 0, ?_, ?_⟩, Or.inl ?_⟩
  all_goals decide +kernel

/-- **An answer with null in it**: the guard of `add` reads its height and throws. -/
theorem sync_ends_on_null :
    ¬ ∀ (crypto : Crypto) (verifyOther : Option Json → Option Json → Text → Bool)
      (turns : Nat → Turn) (genesis : BlockStruct) (chain : Blockchain) (n : Node),
      (Blockchain.fresh (keyOf 0) 100).reset (fun _ => true) genesis = some chain →
        Reaches crypto AnyTurn (start chain) n → n.halted = false → n.sync = .fetching →
          ∀ answer, Survives crypto verifyOther turns n answer := by
  intro hclaim
  have hreaches : Reaches sampleCrypto AnyTurn (start (sampleStart 0)) behindNode :=
    Reaches.run sampleCrypto .refl (allowed_anyTurn _ _ _)
  have hrun : behindNode.halted = false := by decide +kernel
  have hfetching : behindNode.sync = .fetching := by decide +kernel
  obtain ⟨m, js, hanswer, -⟩ := hclaim sampleCrypto neverVerifies (fun _ => allOnline) sampleGenesis
    (sampleStart 0) behindNode Blockchain.start_sampleStart hreaches hrun hfetching
    (some (.arr [.null]))
  exact nomatch hanswer

end Node

end Divachain
