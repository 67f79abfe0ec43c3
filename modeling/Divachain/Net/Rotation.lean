/-
  Divachain.Net.Rotation — who becomes validator, block after block.

  After each block a node calculates the validator of the next one: the peer whose
  turn it is at that height, or, if that one does not seem to be online, somebody
  else.  `mapValidatorDist` counts how often it has been whom.  `Rota` is a node
  with these counts, over a time in which its network stays the same.

  Main results:
    * `arrayNetwork_step` — only `p2pNetwork` renews the network;
    * `findValidator_of_turn` — a peer that is online at its turn is validator;
    * `Rota.Reaches.rotates` — the heights of the turns are consecutive;
    * `not_starved` — a peer that is online gets its turn in every round, whoever
      else is online;
    * `evenly_elected` — where all are, no two counts differ by more than one.
-/
import Divachain.Lib.Residues
import Divachain.Net.Broadcast
import Divachain.Net.SyncAnswer
import Divachain.Net.Signing

namespace Divachain

open DataKit
open Consensus (Settled)
open Blockchain (Runs)

namespace Node

variable {crypto : Crypto} {n : Node} {turn : Turn}

/-! ## §1. The network. -/

theorem arrayNetwork_processProposeBlock (b : BlockStruct) :
    (n.processProposeBlock crypto turn b).arrayNetwork = n.arrayNetwork := by
  unfold processProposeBlock
  split
  · refine (andThen_frame _ arrayNetwork fun k => ?_).trans arrayNetwork_calcValidator
    exact (k.transmit _).andThen_frame arrayNetwork fun _ => rfl
  · rfl

theorem arrayNetwork_processStatus (origin : Text) (kind height : Nat) :
    (n.processStatus crypto turn origin kind height).arrayNetwork = n.arrayNetwork := by
  unfold processStatus
  dsimp only
  split
  · split
    · exact (arrayNetwork_of_core (proposeModifyStake_core _ turn origin _ _)).trans rfl
    · rfl
  · rfl

theorem arrayNetwork_processMessage (m : Message) :
    (n.processMessage crypto turn m).arrayNetwork = n.arrayNetwork := by
  unfold processMessage
  cases m.data with
  | addTx height tx =>
      refine (andThen_frame _ arrayNetwork fun k => ?_).trans arrayNetwork_calcValidator
      split
      · exact arrayNetwork_of_core (k.processAddTx_core m.origin height tx)
      · rfl
  | proposeBlock b =>
      refine (andThen_frame _ arrayNetwork fun k => ?_).trans arrayNetwork_calcValidator
      split
      · exact arrayNetwork_processProposeBlock b
      · rfl
  | signBlock hash sig =>
      refine (andThen_frame _ arrayNetwork fun k => ?_).trans arrayNetwork_calcValidator
      split <;> rfl
  | confirmBlock hash votes =>
      refine (andThen_frame _ arrayNetwork fun k => ?_).trans arrayNetwork_calcValidator
      split <;> rfl
  | status kind height => exact arrayNetwork_processStatus m.origin kind height

/-- **Only `p2pNetwork` renews the network.** -/
theorem arrayNetwork_step (e : Event) :
    (n.step crypto turn e).arrayNetwork = n.arrayNetwork
      ∨ e = .p2pNetwork ∧ (n.step crypto turn e).arrayNetwork
        = (n.chain.mapPeer.values.map Peer.publicKey).insertionSort (· ≤ ·) := by
  unfold step andThen
  split
  · exact Or.inl rfl
  cases e with
  | stackTx commands ident => exact Or.inl (arrayNetwork_of_core (n.stack_core turn _ ident))
  | message m =>
      left
      show (if _ then _ else _ : Node).arrayNetwork = _
      split
      · exact arrayNetwork_processMessage m
      · rfl
  | timeoutAddTx =>
      left
      show (if _ then _ else _ : Node).arrayNetwork = _
      split
      · exact arrayNetwork_of_core (doAddTx_core _ turn)
      · rfl
  | timeoutProposeBlock =>
      left
      show (if _ then _ else _ : Node).arrayNetwork = _
      split <;> rfl
  | timeoutRetry =>
      left
      show (if _ then _ else _ : Node).arrayNetwork = _
      split
      · exact (arrayNetwork_of_core (doAddTx_core (n.clear none) turn)).trans rfl
      · rfl
  | resumeAdd i =>
      left
      show (n.resumeAdd crypto turn i).arrayNetwork = _
      unfold resumeAdd
      split
      · rfl
      split
      · rfl
      · exact arrayNetwork_finishAdd i _
  | p2pNetwork =>
      dsimp only [react]
      split
      · exact Or.inl rfl
      · exact Or.inr ⟨rfl, rfl⟩
  | _ => exact Or.inl rfl

/-- A network has every peer once. -/
structure Listed (n : Node) : Prop where
  keyed : Keyed n.chain.toLedger
  nodup : n.arrayNetwork.Nodup

theorem nodup_network {l : Ledger} (h : Keyed l) :
    ((l.mapPeer.values.map Peer.publicKey).insertionSort (· ≤ ·)).Nodup := by
  have hkeys : l.mapPeer.values.map Peer.publicKey = l.mapPeer.keys := by
    unfold OrdMap.values OrdMap.keys
    rw [List.map_map]
    exact List.map_congr_left fun e he =>
      h e.1 e.2 ((OrdMap.get?_eq_some_iff l.mapPeer e.1 e.2).mpr he)
  rw [hkeys]
  exact (List.perm_insertionSort (· ≤ ·) _).nodup_iff.mpr l.mapPeer.keys_nodup

theorem Listed.step (h : n.Listed) (turn : Turn) (e : Event) : (n.step crypto turn e).Listed := by
  refine ⟨?_, ?_⟩
  · unfold Node.step andThen
    split
    · exact h.keyed
    · rw [n.ledger_react turn e]
      cases n.applied e with
      | none => exact h.keyed
      | some oc => exact h.keyed.apply oc
  · have hrenews : (n.step crypto turn e).arrayNetwork = n.arrayNetwork ∨ _ := arrayNetwork_step e
    rcases hrenews with hkept | ⟨-, hnew⟩
    · rw [hkept]
      exact h.nodup
    · rw [hnew]
      exact nodup_network h.keyed

theorem Reaches.listed {ok : Node → Turn → Event → Prop} {publicKey : Text} {genesis : BlockStruct}
    {chain : Blockchain} (hg : 1 ≤ genesis.height) (hchain : Runs crypto publicKey genesis chain)
    (h : Reaches crypto ok (start chain) n) : n.Listed := by
  induction h with
  | refl =>
      refine ⟨?_, List.nodup_nil⟩
      show Keyed chain.toLedger
      rw [(hchain.stored hg).ledger]
      exact Keyed.fresh.applyBlocks _
  | step _ turn e _ ih => exact ih.step turn e

/-! ## §2. The validator after a block. -/

/-- **A peer that is online at its turn is validator.** -/
theorem findValidator_of_turn {online : Text → Bool} {publicKey : Text}
    (hturn : n.arrayNetwork[n.chain.height % n.arrayNetwork.length]? = some publicKey)
    (honline : online publicKey = true) : n.findValidator online = some publicKey := by
  obtain ⟨hlt, hget⟩ := List.getElem?_eq_some_iff.mp hturn
  unfold findValidator firstIndex
  dsimp only
  rw [hturn]
  dsimp only
  rw [if_pos honline]
  dsimp only
  rw [List.drop_eq_getElem_cons hlt, hget, List.cons_append, List.find?_cons_of_pos honline]

/-- The validator is the one that the node would find now. -/
theorem findValidator_congr {m : Node} {online : Text → Bool} (hchain : m.chain = n.chain)
    (harray : m.arrayNetwork = n.arrayNetwork) : m.findValidator online = n.findValidator online := by
  unfold findValidator firstIndex
  rw [hchain, harray]

theorem validator_calcValidator (h : (n.calcValidator turn).halted = false) :
    n.findValidator (n.isOnline turn) = some (n.calcValidator turn).validator := by
  unfold calcValidator at h ⊢
  split at h
  next publicKey hfind =>
    rw [hfind]
  next => exact nomatch h

/-- The turn is the end of a call of `addBlock`. -/
def ends (n : Node) : Event → Bool
  | .resumeAdd i =>
      match n.adds[i]? with
      | none => false
      | some t => (n.pending t).isNone
  | _ => false

theorem ends_iff {e : Event} :
    n.ends e = true ↔ ∃ i t, e = .resumeAdd i ∧ n.adds[i]? = some t ∧ n.pending t = none := by
  constructor
  · intro h
    cases e with
    | resumeAdd i =>
        unfold ends at h
        dsimp only at h
        split at h
        · exact nomatch h
        next t ht => exact ⟨i, t, rfl, ht, Option.isNone_iff_eq_none.mp h⟩
    | _ => exact nomatch h
  · rintro ⟨i, t, rfl, ht, hp⟩
    unfold ends
    dsimp only
    rw [ht]
    dsimp only
    rw [hp]
    rfl

/-- **At its end `addBlock` has calculated the validator.** -/
theorem validator_of_ends (hrun : n.halted = false) {e : Event} (h : n.ends e = true)
    (hgoes : (n.step crypto turn e).halted = false) :
    (n.step crypto turn e).findValidator ((n.step crypto turn e).isOnline turn)
      = some (n.step crypto turn e).validator := by
  obtain ⟨i, t, rfl, ht, hp⟩ := ends_iff.mp h
  rw [resumeAdd_none crypto turn hrun ht hp] at hgoes ⊢
  unfold finishAdd at hgoes ⊢
  dsimp only at hgoes ⊢
  split at hgoes
  · exact nomatch hgoes
  next hm =>
    rw [if_neg hm]
    set m := n.updateCache crypto turn (n.objects t.obj)
    set p := ({ m with toConsensus := m.toConsensus.finish i t m.chain } : Node).clear
      (some (n.objects t.obj)) with hp
    rw [andThen_frame (f := fun n => { n with timeoutAddTx := true }) _ halted fun _ => rfl] at hgoes
    have hfind := validator_calcValidator hgoes
    unfold andThen
    rw [if_neg (by rw [hgoes]; exact Bool.false_ne_true)]
    show (p.calcValidator turn).findValidator ((p.calcValidator turn).isOnline turn) = _
    have hcore := p.calcValidator_core turn
    have hchain : (p.calcValidator turn).chain = p.chain :=
      congrArg (fun x => x.1.chain) hcore
    rw [findValidator_congr hchain (congrArg Prod.snd hcore), ← hfind]
    unfold isOnline
    rw [hchain]

variable {genesis : BlockStruct} {base : List BlockStruct}

/-- Every turn but the end of a call leaves the height. -/
theorem height_of_not_ends (hs : Settled crypto genesis base n.toConsensus) {e : Event}
    (h : n.ends e = false) (hs' : Settled crypto genesis base (n.step crypto turn e).toConsensus) :
    (n.step crypto turn e).chain.height = n.chain.height := by
  obtain ⟨kind, hfrom, hmove⟩ : ∃ kind, Kind.from n turn e kind ∧ Move crypto _ kind _ :=
    n.step_moves turn e
  have hkind : ∀ t, kind ≠ .commit t := by
    rintro t rfl
    obtain ⟨i, he, ht, hp⟩ := hfrom
    exact Bool.false_ne_true (h.symm.trans (ends_iff.mpr ⟨i, t, he, ht, hp⟩))
  have hheight := hs.height
  have hheight' := hs'.height
  rw [Consensus.committed_of_move hmove hkind, hheight] at hheight'
  exact (Option.some.inj hheight').symm

/-- **The end of a call is one block more.** -/
theorem height_of_ends (hs : Settled crypto genesis base n.toConsensus) (hrun : n.halted = false)
    {e : Event} (h : n.ends e = true) (hgoes : (n.step crypto turn e).halted = false)
    (hs' : Settled crypto genesis base (n.step crypto turn e).toConsensus) :
    (n.step crypto turn e).chain.height = n.chain.height + 1 := by
  obtain ⟨i, t, rfl, ht, hp⟩ := ends_iff.mp h
  obtain ⟨-, -, happlying, -⟩ := hs.task ht
  have hheight := hs'.height
  rw [resumeAdd_none crypto turn hrun ht hp] at hgoes hheight ⊢
  have hcompletes := ((finishAdd_halted_iff turn hrun).mp hgoes).1
  rw [(finishAdd_committed_iff crypto turn hrun i t).mpr hcompletes, ← List.append_assoc,
    List.getLast?_concat, Option.map_some, Option.some.injEq] at hheight
  rw [← hheight, happlying.next]

end Node

/-! ## §3. The counts. -/

/-- A node, how often it has been whose turn, and the record of it: the height
after each block, and the validator then. -/
structure Rota extends Node where
  mapValidatorDist : OrdMap Text Nat
  elected : List (Nat × Text)

namespace Rota

open Node (Event Sequential)

/-- The counts begin with this state. -/
def start (n : Node) : Rota := { n with mapValidatorDist := .empty, elected := [] }

/-- `mapValidatorDist.get(publicKey) || 0`. -/
def dist (r : Rota) (publicKey : Text) : Nat := (r.mapValidatorDist.get? publicKey).getD 0

section

variable (crypto : Crypto)

/-- One turn of the node. -/
def step (r : Rota) (turn : Turn) (e : Event) : Rota :=
  let n := r.toNode.step crypto turn e
  if r.ends e = true ∧ n.halted = false then
    { n with
      mapValidatorDist := r.mapValidatorDist.set n.validator (r.dist n.validator + 1)
      elected := r.elected ++ [(n.chain.height, n.validator)] }
  else { r with toNode := n }

/-- One call of `add` at a time, and the network stays as it is. -/
def Steady (n : Node) (turn : Turn) (e : Event) : Prop :=
  Sequential crypto n turn e ∧ (n.step crypto turn e).arrayNetwork = n.arrayNetwork

instance (n : Node) (turn : Turn) (e : Event) : Decidable (Steady crypto n turn e) :=
  inferInstanceAs (Decidable (Sequential crypto n turn e
    ∧ (n.step crypto turn e).arrayNetwork = n.arrayNetwork))

/-- The states that can be reached by such turns, with these peers online. -/
inductive Reaches (Online : Text → Prop) (r₀ : Rota) : Rota → Prop where
  | refl : Reaches Online r₀ r₀
  | step {r : Rota} (h : Reaches Online r₀ r) (turn : Turn) (e : Event)
      (hsteady : Steady crypto r.toNode turn e)
      (honline : ∀ publicKey, Online publicKey → turn.isOnline publicKey = true) :
      Reaches Online r₀ (r.step crypto turn e)

end

variable {crypto : Crypto} {genesis : BlockStruct} {base : List BlockStruct} {n : Node} {r : Rota}
  {Online : Text → Prop}

theorem toNode_step (r : Rota) (turn : Turn) (e : Event) :
    (r.step crypto turn e).toNode = r.toNode.step crypto turn e := by
  unfold Rota.step
  dsimp only
  split <;> rfl

/-- **The node does not see the counts.** -/
theorem Reaches.node (h : Reaches crypto Online (start n) r) :
    Node.Reaches crypto (Steady crypto) n r.toNode := by
  induction h with
  | refl => exact .refl
  | step _ turn e hsteady _ ih =>
      rw [toNode_step]
      exact ih.step turn e hsteady

/-- **What holds of the record**: the counts are its counts, its heights are those
since the beginning, and whoever is online at its turn is in it. -/
structure Rotates (crypto : Crypto) (genesis : BlockStruct) (base : List BlockStruct)
    (Online : Text → Prop) (n : Node) (r : Rota) : Prop where
  settled : Settled crypto genesis base r.toConsensus
  network : r.arrayNetwork = n.arrayNetwork
  counts : ∀ k, r.dist k = r.elected.countP fun x => decide (x.2 = k)
  heights : r.elected.map Prod.fst = List.range' (n.chain.height + 1) r.elected.length
  height : r.halted = false → r.chain.height = n.chain.height + r.elected.length
  turns : ∀ x ∈ r.elected, ∀ k, n.arrayNetwork[x.1 % n.arrayNetwork.length]? = some k →
    Online k → x.2 = k

theorem rotates_start (hs : Settled crypto genesis base n.toConsensus) :
    Rotates crypto genesis base Online n (start n) where
  settled := hs
  network := rfl
  counts _ := rfl
  heights := rfl
  height _ := rfl
  turns _ hx := nomatch hx

theorem Rotates.step (h : Rotates crypto genesis base Online n r) (turn : Turn) (e : Event)
    (hsteady : Steady crypto r.toNode turn e)
    (honline : ∀ publicKey, Online publicKey → turn.isOnline publicKey = true) :
    Rotates crypto genesis base Online n (r.step crypto turn e) := by
  obtain ⟨kind, -, hmove⟩ : ∃ kind, Kind.from r.toNode turn e kind ∧ Move crypto _ kind _ :=
    r.toNode.step_moves turn e
  have hs' := h.settled.move hmove hsteady.1
  have hnetwork := hsteady.2.trans h.network
  unfold Rota.step
  dsimp only
  set m := r.toNode.step crypto turn e with hm
  -- A turn without a halt is a turn of a node that ran.
  have hran : m.halted = false → r.halted = false := by
    intro hgoes
    by_contra hhalted
    have hstop : m = r.toNode := r.step_of_halted crypto (Bool.not_eq_false _ ▸ hhalted) turn e
    exact hhalted (hstop ▸ hgoes)
  by_cases hends : r.ends e = true ∧ m.halted = false
  · rw [if_pos hends]
    have hrun := hran hends.2
    have hheight := Node.height_of_ends h.settled hrun hends.1 hends.2 hs'
    have hfind := Node.validator_of_ends hrun hends.1 hends.2
    rw [← hm, h.height hrun] at hheight
    rw [← hm] at hfind
    refine ⟨hs', hnetwork, ?_, ?_, ?_, ?_⟩
    · intro k
      show ((r.mapValidatorDist.set m.validator (r.dist m.validator + 1)).get? k).getD 0 = _
      rw [List.countP_append, List.countP_singleton, OrdMap.get?_set, ← h.counts]
      by_cases hk : k = m.validator
      · simp [hk]
      · simp [hk, Ne.symm hk, dist]
    · rw [List.map_append, h.heights, List.length_append, List.length_singleton,
        List.range'_concat, Nat.one_mul, List.map_singleton, hheight, Nat.add_right_comm]
    · intro _
      show m.chain.height = _
      rw [hheight, List.length_append, List.length_singleton, Nat.add_assoc]
    · intro x hx k hk hin
      rcases List.mem_append.mp hx with hx | hx
      · exact h.turns x hx k hk hin
      · obtain rfl := List.mem_singleton.mp hx
        dsimp only at hk ⊢
        have hseen : m.isOnline turn k = true := by
          unfold Node.isOnline
          rw [honline k hin, Bool.or_true]
        have hturn : m.arrayNetwork[m.chain.height % m.arrayNetwork.length]? = some k := by
          rw [hnetwork]
          exact hk
        rw [Node.findValidator_of_turn hturn hseen] at hfind
        exact (Option.some.inj hfind).symm
  · rw [if_neg hends]
    refine ⟨hs', hnetwork, h.counts, h.heights, ?_, h.turns⟩
    intro hgoes
    have hends' : r.ends e = false := Bool.eq_false_iff.mpr fun hcall => hends ⟨hcall, hgoes⟩
    exact (Node.height_of_not_ends h.settled hends' hs').trans (h.height (hran hgoes))

/-- **The heights of the turns are consecutive**, in every run. -/
theorem Reaches.rotates (hs : Settled crypto genesis base n.toConsensus)
    (h : Reaches crypto Online (start n) r) : Rotates crypto genesis base Online n r := by
  induction h with
  | refl => exact rotates_start hs
  | step _ turn e hsteady honline ih => exact ih.step turn e hsteady honline

/-! ## §4. Turns of one position. -/

/-- The turns of one position of the network. -/
theorem Rotates.countP_heights (h : Rotates crypto genesis base Online n r)
    (p : Nat → Bool) : (r.elected.countP fun x => p x.1)
      = (List.range' (n.chain.height + 1) r.elected.length).countP p := by
  rw [← h.heights, List.countP_map]
  rfl

/-- Whoever is online is validator whenever it is its turn. -/
theorem Rotates.turns_le_dist (h : Rotates crypto genesis base Online n r) {i : Nat} {k : Text}
    (hi : n.arrayNetwork[i]? = some k) (hk : Online k) :
    (List.range' (n.chain.height + 1) r.elected.length).countP
        (fun height => decide (height % n.arrayNetwork.length = i)) ≤ r.dist k := by
  rw [← h.countP_heights, h.counts]
  refine List.countP_mono_left fun x hx hturn => decide_eq_true ?_
  have hturn' : x.1 % n.arrayNetwork.length = i := of_decide_eq_true hturn
  exact h.turns x hx k (hturn'.symm ▸ hi) hk

/-- Where all are online, it is at no other time. -/
theorem Rotates.dist_eq_turns (h : Rotates crypto genesis base Online n r)
    (hnodup : n.arrayNetwork.Nodup) (hall : ∀ k ∈ n.arrayNetwork, Online k) {i : Nat} {k : Text}
    (hi : n.arrayNetwork[i]? = some k) :
    r.dist k = (List.range' (n.chain.height + 1) r.elected.length).countP
      fun height => decide (height % n.arrayNetwork.length = i) := by
  obtain ⟨hlt, hget⟩ := List.getElem?_eq_some_iff.mp hi
  rw [← h.countP_heights, h.counts]
  refine List.countP_congr fun x hx => ?_
  simp only [decide_eq_true_eq]
  have hmod : x.1 % n.arrayNetwork.length < n.arrayNetwork.length :=
    Nat.mod_lt _ (Nat.zero_lt_of_lt hlt)
  have hown : x.2 = n.arrayNetwork[x.1 % n.arrayNetwork.length] :=
    h.turns x hx _ (List.getElem?_eq_getElem hmod) (hall _ (List.getElem_mem hmod))
  rw [hown, ← hget]
  exact hnodup.getElem_inj_iff

variable {publicKey : Text} {chain : Blockchain}

/-! ## §5. One round of two peers. -/

open Node (allOnline messageOf)
open Blockchain (proposal)

def run (crypto : Crypto) (r : Rota) (l : List (Turn × Event)) : Rota :=
  l.foldl (fun r x => r.step crypto x.1 x.2) r

theorem Reaches.run {r₀ : Rota} :
    ∀ {r : Rota} {l : List (Turn × Event)}, Reaches crypto Online r₀ r →
      Node.Allowed crypto (Steady crypto) r.toNode l →
      (∀ x ∈ l, ∀ publicKey, Online publicKey → x.1.isOnline publicKey = true) →
      Reaches crypto Online r₀ (r.run crypto l)
  | _, [], h, _, _ => h
  | r, x :: l, h, hl, honline => by
      have hx := honline x List.mem_cons_self
      have hnode : (r.step crypto x.1 x.2).toNode = r.toNode.step crypto x.1 x.2 :=
        r.toNode_step x.1 x.2
      show Reaches crypto Online r₀ ((r.step crypto x.1 x.2).run crypto l)
      exact Reaches.run (h.step x.1 x.2 hl.1 hx) (hnode ▸ hl.2)
        fun y hy => honline y (List.mem_cons_of_mem x hy)

def roundTx (i : Nat) : TransactionStruct :=
  { ident := ['t']
    origin := keyOf 1
    commands := [proposal (keyOf 0) ['a'] i]
    sig := label 86 i
    keys := TransactionStruct.fields }

/-- The block `i` after the genesis of two peers. -/
def roundBlock (i : Nat) (votes : List Nat) : BlockStruct :=
  { version := BLOCK_VERSION
    previousHash := label 43 i
    hash := label 43 (i + 1)
    tx := [roundTx i]
    height := i + 2
    votes := votes.map fun v => { origin := keyOf v, sig := label 86 (2 * i + v + 2) } }

def roundCrypto : Crypto :=
  tableCrypto
    [genesisText 2, hashText BLOCK_VERSION (label 43 0) (roundBlock 0 []).tx 2,
      hashText BLOCK_VERSION (label 43 1) (roundBlock 1 []).tx 3]
    [(keyOf 1, signedText 2 (roundTx 0).commands), (keyOf 1, signedText 3 (roundTx 1).commands),
      (keyOf 0, label 43 1), (keyOf 1, label 43 1), (keyOf 0, label 43 2), (keyOf 1, label 43 2)]

def roundGenesis : BlockStruct := Blockchain.genesis roundCrypto (genesisFile 2)

def roundStart : Blockchain :=
  ((Blockchain.fresh (keyOf 0) 100).reset (fun _ => true) roundGenesis).getD (Blockchain.fresh [] 0)

/-- Peer 0, once it knows its network. -/
def roundNode : Node := (Node.start roundStart).run roundCrypto [(allOnline, .p2pNetwork)]

/-- It fetches two blocks. -/
def roundTurns (turn : Turn) : List (Turn × Event) :=
  [(turn, .message (messageOf 1 (.status ONLINE 3))),
    (turn, .syncAnswer [roundBlock 0 [0, 1], roundBlock 1 [0, 1]]),
    (turn, .continueSync), (turn, .resumeAdd 0), (turn, .resumeAdd 0),
    (turn, .continueSync), (turn, .resumeAdd 0), (turn, .resumeAdd 0)]

def afterRound (turn : Turn) : Rota := (start roundNode).run roundCrypto (roundTurns turn)

/-- Nobody but peer 0 is there. -/
def aloneOnline : Turn := { allOnline with isOnline := fun k => decide (k = keyOf 0) }

theorem start_roundStart : (Blockchain.fresh (keyOf 0) 100).reset (fun _ => true) roundGenesis
    = some roundStart := by decide +kernel

theorem reaches_roundNode :
    Node.Reaches roundCrypto (Sequential roundCrypto) (Node.start roundStart) roundNode :=
  Node.Reaches.refl.run _ (by decide +kernel)

/-- The run, with whoever is online in its turns. -/
theorem reaches_afterRound {turn : Turn}
    (hallowed : Node.Allowed roundCrypto (Steady roundCrypto) roundNode (roundTurns turn))
    (honline : ∀ publicKey, Online publicKey → turn.isOnline publicKey = true) :
    Reaches roundCrypto Online (start roundNode) (afterRound turn) := by
  refine Reaches.refl.run hallowed fun x hx => ?_
  have hturn : x.1 = turn := by
    have hall : ∀ y ∈ roundTurns turn, y.1 = turn := by simp [roundTurns]
    exact hall x hx
  rw [hturn]
  exact honline

theorem reaches_afterRound_alone :
    Reaches roundCrypto (fun k => k = keyOf 0) (start roundNode) (afterRound aloneOnline) :=
  reaches_afterRound (by decide +kernel) fun _ h => decide_eq_true h

theorem reaches_afterRound_all :
    Reaches roundCrypto (fun _ => True) (start roundNode) (afterRound allOnline) :=
  reaches_afterRound (by decide +kernel) fun _ _ => rfl

/-! ## §6. Everybody's turn. -/

/-- **A peer that is online is not starved**: it is validator in every round,
whoever else is online. -/
theorem not_starved (hg : 1 ≤ genesis.height) (hchain : Runs crypto publicKey genesis chain)
    (hn : Node.Reaches crypto (Sequential crypto) (Node.start chain) n)
    (h : Reaches crypto Online (start n) r) {k : Text} (hk : k ∈ n.arrayNetwork)
    (honline : Online k) : r.elected.length / n.arrayNetwork.length ≤ r.dist k := by
  obtain ⟨hvalid, hholds⟩ := hchain.holds hg
  have hrotates := h.rotates (hn.settled hvalid hholds)
  obtain ⟨i, hi, hget⟩ := List.getElem_of_mem hk
  have hsome : n.arrayNetwork[i]? = some k := hget ▸ List.getElem?_eq_getElem hi
  exact (countP_residue_bounds hi _ _).1.trans (hrotates.turns_le_dist hsome honline)

theorem not_starved_of_sample :
    (afterRound aloneOnline).elected.length = 2 ∧ roundNode.arrayNetwork.length = 2
      ∧ (afterRound aloneOnline).elected.length / roundNode.arrayNetwork.length
          ≤ (afterRound aloneOnline).dist (keyOf 0) := by
  refine ⟨by decide +kernel, by decide +kernel, ?_⟩
  exact not_starved (by decide) (.start start_roundStart) reaches_roundNode
    reaches_afterRound_alone (by decide +kernel) rfl

/-- **All peers online, all are validator equally often**, to within one. -/
theorem evenly_elected (hg : 1 ≤ genesis.height) (hchain : Runs crypto publicKey genesis chain)
    (hn : Node.Reaches crypto (Sequential crypto) (Node.start chain) n)
    (h : Reaches crypto Online (start n) r) (hall : ∀ k ∈ n.arrayNetwork, Online k) {k : Text}
    (hk : k ∈ n.arrayNetwork) :
    r.elected.length / n.arrayNetwork.length ≤ r.dist k
      ∧ r.dist k ≤ (r.elected.length + (n.arrayNetwork.length - 1)) / n.arrayNetwork.length := by
  obtain ⟨hvalid, hholds⟩ := hchain.holds hg
  have hrotates := h.rotates (hn.settled hvalid hholds)
  obtain ⟨i, hi, hget⟩ := List.getElem_of_mem hk
  have hsome : n.arrayNetwork[i]? = some k := hget ▸ List.getElem?_eq_getElem hi
  rw [hrotates.dist_eq_turns (hn.listed hg hchain).nodup hall hsome]
  exact countP_residue_bounds hi _ _

theorem evenly_elected_of_sample :
    (afterRound allOnline).elected.length = 2 ∧ roundNode.arrayNetwork.length = 2
      ∧ (afterRound allOnline).elected.length / roundNode.arrayNetwork.length
          ≤ (afterRound allOnline).dist (keyOf 1)
      ∧ (afterRound allOnline).dist (keyOf 1)
          ≤ ((afterRound allOnline).elected.length + (roundNode.arrayNetwork.length - 1))
            / roundNode.arrayNetwork.length := by
  refine ⟨by decide +kernel, by decide +kernel, ?_⟩
  exact evenly_elected (by decide) (.start start_roundStart) reaches_roundNode
    reaches_afterRound_all (fun _ _ => trivial) (by decide +kernel)

end Rota

end Divachain
