/-
  Divachain.Net.Sourced — where the transactions a node holds come from.

  A node holds transactions in many places: in its pool, its candidate, the
  blocks it is adding, its store and its cache, the blocks it has still to sync,
  and the messages it has sent.  `Sourced` says that all their origins and
  signatures are ones that `K` knows, and that every block which `add` has let
  in satisfies `V`.  It does not speak of commands: applying a block may write
  to them.

  `Sourced.move` is the step: a move that takes in known transactions hands on
  known ones.  It asks nothing about the order of the calls of `add`.
-/
import Divachain.Net.Moves

namespace Divachain

open DataKit

/-! ## §1. Transactions that are known. -/

section

variable (K : Text → Text → Prop)

/-- `K` knows all the origins, with their signatures. -/
def TxsIn (txs : List TransactionStruct) : Prop := ∀ t ∈ txs, K t.origin t.sig

/-- The transactions of a message. -/
def MessageData.txs : MessageData → List TransactionStruct
  | .addTx _ tx => [tx]
  | .proposeBlock b => b.tx
  | _ => []

/-- What a move of this kind takes in. -/
def Kind.TxIn : Kind → Prop
  | .propose pool => TxsIn K pool
  | .accept b => TxsIn K b.tx
  | .answer blocks => ∀ b ∈ blocks, TxsIn K b.tx
  | _ => True

end

theorem TxsIn.mono {K K' : Text → Text → Prop} {txs : List TransactionStruct}
    (hK : ∀ origin sig, K origin sig → K' origin sig) (h : TxsIn K txs) : TxsIn K' txs :=
  fun t ht => hK _ _ (h t ht)

/-- Only the headers matter. -/
theorem TxsIn.of_header {K : Text → Text → Prop} {txs txs' : List TransactionStruct}
    (h : TxsIn K txs)
    (hheader : txs'.map TransactionStruct.header = txs.map TransactionStruct.header) :
    TxsIn K txs' := by
  intro t' ht'
  have hmem : t'.header ∈ txs.map TransactionStruct.header := by
    rw [← hheader]
    exact List.mem_map_of_mem ht'
  obtain ⟨t, ht, heq⟩ := List.mem_map.mp hmem
  have hknown := h t ht
  rw [TransactionStruct.header, TransactionStruct.header, Prod.mk.injEq] at heq
  rwa [heq.1, heq.2] at hknown

namespace Consensus

/-! ## §2. The invariant. -/

/-- **Every transaction a node holds or has sent is one that `K` knows**, and
every block it has begun to add satisfies `V`. -/
structure Sourced (K : Text → Text → Prop) (V : BlockStruct → Prop) (c : Consensus) : Prop where
  objects : ∀ obj, TxsIn K (c.objects obj).tx
  adds : ∀ t ∈ c.adds, TxsIn K t.stored.tx ∧ V t.stored
  committed : ∀ b ∈ c.committed, TxsIn K b.tx ∧ V b
  stored : ∀ b ∈ c.chain.dbBlockchain.values, TxsIn K b.tx ∧ V b
  cached : ∀ b ∈ c.chain.mapBlocks.values, TxsIn K b.tx
  queued : ∀ b ∈ c.sync.blocks, TxsIn K b.tx
  sent : ∀ m ∈ c.sent, TxsIn K m.data.txs

/-- What `add` lets in satisfies `V`. -/
def Admits (crypto : Crypto) (V : BlockStruct → Prop) : Prop :=
  ∀ (c : Blockchain) (b : BlockStruct), c.accepts crypto b = true → V b

variable {K : Text → Text → Prop} {V : BlockStruct → Prop} {crypto : Crypto} {c : Consensus}

theorem sourced_start {chain : Blockchain}
    (hstored : ∀ b ∈ chain.dbBlockchain.values, TxsIn K b.tx ∧ V b)
    (hcached : ∀ b ∈ chain.mapBlocks.values, TxsIn K b.tx) : Sourced K V (start chain) :=
  ⟨fun _ _ h => (nomatch h), fun _ h => (nomatch h), fun _ h => (nomatch h), hstored, hcached,
    fun _ h => (nomatch h), fun _ h => (nomatch h)⟩

theorem Sourced.mono {K' : Text → Text → Prop} (h : Sourced K V c)
    (hK : ∀ origin sig, K origin sig → K' origin sig) : Sourced K' V c :=
  ⟨fun obj => (h.objects obj).mono hK, fun t ht => ⟨(h.adds t ht).1.mono hK, (h.adds t ht).2⟩,
    fun b hb => ⟨(h.committed b hb).1.mono hK, (h.committed b hb).2⟩,
    fun b hb => ⟨(h.stored b hb).1.mono hK, (h.stored b hb).2⟩,
    fun b hb => (h.cached b hb).mono hK, fun b hb => (h.queued b hb).mono hK,
    fun m hm => (h.sent m hm).mono hK⟩

/-! ## §3. The operations. -/

/-- An object gets other contents. -/
theorem Sourced.update (h : Sourced K V c) {b : BlockStruct} (hb : TxsIn K b.tx) (obj next : Nat) :
    Sourced K V { c with objects := Function.update c.objects obj b, next := next } := by
  refine ⟨?_, h.adds, h.committed, h.stored, h.cached, h.queued, h.sent⟩
  intro obj'
  by_cases heq : obj' = obj
  · subst heq
    show TxsIn K (Function.update c.objects obj' b obj').tx
    rw [Function.update_self]
    exact hb
  · show TxsIn K (Function.update c.objects obj b obj').tx
    rw [Function.update_of_ne heq]
    exact h.objects obj'

theorem Sourced.alloc (h : Sourced K V c) {b : BlockStruct} (hb : TxsIn K b.tx) :
    Sourced K V (c.alloc b) := h.update hb c.next (c.next + 1)

theorem Sourced.hold (h : Sourced K V c) {b : BlockStruct} (hb : TxsIn K b.tx) :
    Sourced K V (c.hold b) := { h.alloc hb with }

/-- Votes carry no transactions. -/
theorem Sourced.writeVotes (h : Sourced K V c) (obj : Nat) (votes : List VoteStruct) :
    Sourced K V (c.write obj { c.objects obj with votes := votes }) :=
  h.update (b := { c.objects obj with votes := votes }) (h.objects obj) obj c.next

theorem Sourced.sign (h : Sourced K V c) (hash : Text) : Sourced K V (c.sign hash) := { h with }

theorem Sourced.send (h : Sourced K V c) {m : Message} (hm : TxsIn K m.data.txs) :
    Sourced K V (c.send m) := by
  refine ⟨h.objects, h.adds, h.committed, h.stored, h.cached, h.queued, ?_⟩
  intro m' hm'
  rcases List.mem_append.mp hm' with hm' | hm'
  · exact h.sent m' hm'
  · obtain rfl := List.mem_singleton.mp hm'
    exact hm

theorem Sourced.setSync (h : Sourced K V c) {sync : SyncState}
    (hsync : ∀ b ∈ sync.blocks, TxsIn K b.tx) : Sourced K V { c with sync := sync } :=
  ⟨h.objects, h.adds, h.committed, h.stored, h.cached, hsync, h.sent⟩

/-- A block is checked before it is stored. -/
theorem Sourced.startAdd (h : Sourced K V c) (hV : Admits crypto V) (obj : Nat) (fromSync : Bool) :
    Sourced K V (c.startAdd crypto obj fromSync) := by
  rcases c.startAdd_cases crypto obj fromSync with ⟨haccepts, hstep⟩ | ⟨-, hstep⟩
  · have hnew := And.intro (h.objects obj) (hV c.chain _ haccepts)
    rw [hstep]
    refine ⟨h.objects, ?_, h.committed, ?_, h.cached, h.queued, h.sent⟩
    · intro t ht
      rcases List.mem_append.mp ht with ht | ht
      · exact h.adds t ht
      · obtain rfl := List.mem_singleton.mp ht
        exact hnew
    · intro b hb
      obtain ⟨e, he, rfl⟩ := List.mem_map.mp hb
      rcases Store.mem_entries_put he with rfl | he
      · exact hnew
      · exact h.stored e.2 (List.mem_map_of_mem he)
  · rw [hstep]
    exact h

theorem Sourced.processSignBlock (h : Sourced K V c) (hV : Admits crypto V) (now : Nat)
    (origin hash sig : Text) : Sourced K V (c.processSignBlock crypto now origin hash sig) := by
  have hpush : ∀ obj, Sourced K V (c.pushVote obj { origin := origin, sig := sig }) :=
    fun obj => h.writeVotes obj _
  rcases c.processSignBlock_cases crypto now origin hash sig with
    ⟨-, hstep⟩ | ⟨obj, -, ⟨-, hstep⟩ | ⟨-, hstep⟩⟩
  · rw [hstep]
    exact h
  · rw [hstep]
    exact hpush obj
  -- a confirmation carries votes only
  · rw [hstep]
    exact ((hpush obj).startAdd hV obj false).send fun _ h => (nomatch h)

theorem Sourced.approve (h : Sourced K V c) (hV : Admits crypto V) (now : Nat)
    (validator hash : Text) : Sourced K V (c.approve crypto now validator hash) := by
  rcases c.approve_cases crypto now validator hash with ⟨-, hstep⟩ | ⟨-, hstep⟩
  · rw [hstep]
    exact (h.sign hash).processSignBlock hV now _ hash _
  · rw [hstep]
    exact (h.sign hash).send fun _ h => (nomatch h)

theorem Sourced.processConfirmBlock (h : Sourced K V c) (hV : Admits crypto V) (hash : Text)
    (votes : List VoteStruct) : Sourced K V (c.processConfirmBlock crypto hash votes) := by
  rcases c.processConfirmBlock_cases crypto hash votes with hstep | ⟨obj, -, -, -, hstep⟩
  · rw [hstep]
    exact h
  · rw [hstep]
    exact (h.writeVotes obj votes).startAdd hV obj false

theorem Sourced.propose (h : Sourced K V c) (now : Nat) {pool : List TransactionStruct}
    (hpool : TxsIn K pool) : Sourced K V (c.propose crypto now pool) := by
  have hb : TxsIn K (c.proposal crypto pool).tx := hpool
  exact ((h.hold hb).sign _).send hb

theorem Sourced.continueSync (h : Sourced K V c) (hV : Admits crypto V) :
    Sourced K V (c.continueSync crypto) := by
  have hqueued := h.queued
  rcases c.continueSync_cases crypto with
    hstep | ⟨sync, hsync, hstep⟩ | ⟨b, blocks, hsync, -, hstep⟩
  · rw [hstep]
    exact h
  · rw [hstep]
    exact h.setSync fun b' hb' => hqueued b' (hsync hb')
  · rw [hsync] at hqueued
    rw [hstep]
    exact ((h.alloc (hqueued b List.mem_cons_self)).startAdd hV c.next true).setSync
      fun b' hb' => hqueued b' (List.mem_cons_of_mem b hb')

/-- A command may write to the transaction it stands in, but not to its header. -/
theorem Sourced.runCommand (h : Sourced K V c) {i : Nat} {t : AddTask} (oc : Text × Command)
    (ht : t ∈ c.adds) : Sourced K V (c.runCommand i t oc) := by
  have hwritten := (h.objects t.obj).of_header
    (map_header_setCommandOf (c.objects t.obj).tx t.pos (c.chain.toLedger.processCommand oc.1 oc.2).2)
  have hobjects := h.update (b := { c.objects t.obj with
    tx := setCommandOf (c.objects t.obj).tx t.pos (c.chain.toLedger.processCommand oc.1 oc.2).2 })
    hwritten t.obj c.next
  refine ⟨hobjects.objects, ?_, h.committed, h.stored, h.cached, h.queued, h.sent⟩
  intro t' ht'
  rcases List.mem_or_eq_of_mem_set ht' with ht' | rfl
  · exact h.adds t' ht'
  · exact h.adds t ht

theorem Sourced.finish (h : Sourced K V c) {i : Nat} {t : AddTask} {chain : Blockchain}
    (ht : t ∈ c.adds) (hc : Blockchain.CachedBy (c.objects t.obj) c.chain chain) :
    Sourced K V (c.finish i t chain) := by
  refine ⟨h.objects, fun t' ht' => h.adds t' (List.mem_of_mem_eraseIdx ht'), ?_, ?_, ?_, ?_, h.sent⟩
  · intro b hb
    rcases List.mem_append.mp hb with hb | hb
    · exact h.committed b hb
    · obtain rfl := List.mem_singleton.mp hb
      exact h.adds t ht
  · show ∀ b ∈ chain.dbBlockchain.values, TxsIn K b.tx ∧ V b
    rw [hc.dbBlockchain]
    exact h.stored
  -- the cache takes the object in and may drop another block
  · show ∀ b ∈ chain.mapBlocks.values, TxsIn K b.tx
    rw [hc.mapBlocks]
    have hset : ∀ b ∈ (c.chain.mapBlocks.set (c.objects t.obj).height (c.objects t.obj)).values,
        TxsIn K b.tx := by
      intro b hb
      rcases OrdMap.mem_values_set hb with rfl | hb
      · exact h.objects t.obj
      · exact h.cached b hb
    unfold Blockchain.cacheBlock
    dsimp only
    split
    · exact fun b hb => hset b (OrdMap.mem_values_delete hb)
    · exact hset
  · show ∀ b ∈ (resumedSync c.sync t.fromSync).blocks, TxsIn K b.tx
    unfold resumedSync
    split
    next blocks hsync =>
      have hqueued := h.queued
      rw [hsync] at hqueued
      exact hqueued
    · exact h.queued

/-- **A move hands on known transactions only**, if it takes in such. -/
theorem Sourced.move (h : Sourced K V c) (hV : Admits crypto V) {kind : Kind} {c' : Consensus}
    (hmove : Move crypto c kind c') (hin : kind.TxIn K) : Sourced K V c' := by
  cases hmove with
  | quiet => exact h
  | propose now pool => exact h.propose now hin
  | hold b hacc => exact h.hold hin
  | approve b now validator hacc => exact (h.hold hin).approve hV now validator b.hash
  | vote now origin hash sig => exact h.processSignBlock hV now origin hash sig
  | confirm hash votes => exact h.processConfirmBlock hV hash votes
  | fetch height =>
      rcases c.fetchSync_cases height with hstep | hstep
      · rw [hstep]
        exact h
      · rw [hstep]
        exact h.setSync fun _ h => (nomatch h)
  | answer blocks =>
      rcases c.answerSync_cases blocks with hstep | hstep
      · rw [hstep]
        exact h
      · rw [hstep]
        exact h.setSync hin
  | continueSync => exact h.continueSync hV
  | drop => exact { h with }
  | runCommand i t oc ht hp => exact h.runCommand oc (List.mem_of_getElem? ht)
  | finish i t answer chain ht hp hc =>
      exact h.finish (List.mem_of_getElem? ht) (Blockchain.updateCache_spec hc)

end Consensus

end Divachain
