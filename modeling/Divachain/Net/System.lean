/-
  Divachain.Net.System — several nodes and the messages between them.

  A node takes a turn, or answers a request for blocks.  A message a node has
  sent may reach any node, any number of times, at any later moment or never;
  the same holds for a block it has answered with.  Nothing else connects the
  nodes: the list of online peers each of them sees is part of its turn.

  `Sound` is the invariant.  Every vote that is around, in whatever message,
  block or store, has been made by the node it names: `Backed` says so for the
  parts of one node, and `Backed.move` that a move which takes in such votes
  hands on such votes.
-/
import Divachain.Net.Signing

namespace Divachain

open DataKit

/-! ## §1. Systems. -/

structure System (ι : Type) where
  nodes : ι → Node
  /-- The blocks nodes have answered sync requests with. -/
  served : List BlockStruct

/-- Where messages of this kind leave a node. -/
def Node.outbox (n : Node) : MessageData → List Message
  | .addTx .. | .status .. => n.posted
  | _ => n.sent

/-- The blocks `getRange` can answer with, from the cache or from the store. -/
def Blockchain.known (c : Blockchain) : List BlockStruct :=
  c.mapBlocks.values ++ c.dbBlockchain.values

namespace System

variable {ι : Type}

def start (chain : ι → Blockchain) : System ι :=
  { nodes := fun i => Node.start (chain i), served := [] }

/-- Node `i` answers a request for blocks. -/
def serve (s : System ι) (i : ι) : System ι :=
  { s with served := s.served ++ (s.nodes i).chain.known }

/-- What comes in has been sent by some node before. -/
def Deliverable (s : System ι) : Node.Event → Prop
  | .message m => ∃ i, m ∈ (s.nodes i).outbox m.data
  | .syncAnswer blocks => ∀ b ∈ blocks, b ∈ s.served
  | _ => True

variable [DecidableEq ι] (crypto : Crypto)

/-- Node `i` takes a turn. -/
def turn (s : System ι) (i : ι) (turn : Turn) (e : Node.Event) : System ι :=
  { s with nodes := Function.update s.nodes i ((s.nodes i).step crypto turn e) }

/-- The states the nodes can reach together, by turns that are `ok` for the
node that takes them. -/
inductive Reaches (ok : Node → Turn → Node.Event → Prop) (s₀ : System ι) : System ι → Prop where
  | refl : Reaches ok s₀ s₀
  | turn {s : System ι} (h : Reaches ok s₀ s) (i : ι) (turn : Turn) (e : Node.Event)
      (hnet : s.Deliverable e) (hok : ok (s.nodes i) turn e) :
      Reaches ok s₀ (s.turn crypto i turn e)
  | serve {s : System ι} (h : Reaches ok s₀ s) (i : ι) : Reaches ok s₀ (s.serve i)

end System

/-! ## §2. Votes that are known. -/

section

variable (G : Text → Text → Prop)

/-- All the votes are ones that `G` knows. -/
def VotesIn (votes : List VoteStruct) : Prop := ∀ v ∈ votes, G v.origin v.sig

def MessageIn (m : Message) : Prop :=
  VotesIn G m.data.votes ∧ ∀ hash sig, m.data = .signBlock hash sig → G m.origin sig

/-- The blocks above height `g` carry votes that `G` knows. -/
def BlocksIn (g : Nat) (blocks : List BlockStruct) : Prop :=
  ∀ b ∈ blocks, g < b.height → VotesIn G b.votes

/-- What a move of this kind takes in. -/
def Kind.In (g : Nat) : Kind → Prop
  | .accept b => VotesIn G b.votes
  | .vote origin _ sig => G origin sig
  | .confirm _ votes => VotesIn G votes
  | .answer blocks => BlocksIn G g blocks
  | _ => True

end

theorem Kind.In.mono {G G' : Text → Text → Prop} {g : Nat} {kind : Kind}
    (hG : ∀ origin sig, G origin sig → G' origin sig) (h : kind.In G g) : kind.In G' g := by
  cases kind with
  | accept b => exact fun v hv => hG _ _ (h v hv)
  | vote origin hash sig => exact hG _ _ h
  | confirm hash votes => exact fun v hv => hG _ _ (h v hv)
  | answer blocks => exact fun b hb hg v hv => hG _ _ (h b hb hg v hv)
  | propose pool => trivial
  | drop => trivial
  | command oc => trivial
  | commit t => trivial
  | other => trivial

namespace Consensus

/-- **Every vote a node holds or has sent is one that `G` knows.** -/
structure Backed (G : Text → Text → Prop) (g : Nat) (c : Consensus) : Prop where
  objects : ∀ obj, VotesIn G (c.objects obj).votes
  adds : ∀ t ∈ c.adds, VotesIn G t.stored.votes
  committed : ∀ b ∈ c.committed, VotesIn G b.votes
  stored : BlocksIn G g c.chain.dbBlockchain.values
  cached : BlocksIn G g c.chain.mapBlocks.values
  queued : BlocksIn G g c.sync.blocks
  sent : ∀ m ∈ c.sent, MessageIn G m

variable {G : Text → Text → Prop} {g : Nat} {c : Consensus} {crypto : Crypto}

theorem VotesIn_append {votes : List VoteStruct} {v : VoteStruct} (h : VotesIn G votes)
    (hv : G v.origin v.sig) : VotesIn G (votes ++ [v]) := by
  intro w hw
  rcases List.mem_append.mp hw with hw | hw
  · exact h w hw
  · obtain rfl := List.mem_singleton.mp hw
    exact hv

theorem backed_start {chain : Blockchain} (hstored : BlocksIn G g chain.dbBlockchain.values)
    (hcached : BlocksIn G g chain.mapBlocks.values) : Backed G g (start chain) :=
  ⟨fun _ _ h => (nomatch h), fun _ h => (nomatch h), fun _ h => (nomatch h), hstored, hcached,
    fun _ h => (nomatch h), fun _ h => (nomatch h)⟩

/-- Knowing more votes does no harm. -/
theorem Backed.mono {G' : Text → Text → Prop} (h : Backed G g c)
    (hG : ∀ origin sig, G origin sig → G' origin sig) : Backed G' g c := by
  have hvotes : ∀ {votes : List VoteStruct}, VotesIn G votes → VotesIn G' votes :=
    fun h v hv => hG _ _ (h v hv)
  refine ⟨fun obj => hvotes (h.objects obj), fun t ht => hvotes (h.adds t ht),
    fun b hb => hvotes (h.committed b hb), fun b hb hg => hvotes (h.stored b hb hg),
    fun b hb hg => hvotes (h.cached b hb hg), fun b hb hg => hvotes (h.queued b hb hg), ?_⟩
  intro m hm
  exact ⟨hvotes (h.sent m hm).1, fun hash sig hdata => hG _ _ ((h.sent m hm).2 hash sig hdata)⟩

theorem Backed.alloc (h : Backed G g c) {b : BlockStruct} (hb : VotesIn G b.votes) :
    Backed G g (c.alloc b) := by
  refine ⟨?_, h.adds, h.committed, h.stored, h.cached, h.queued, h.sent⟩
  intro obj
  by_cases heq : obj = c.next
  · subst heq
    rw [objects_alloc_self]
    exact hb
  · rw [objects_alloc_of_ne heq]
    exact h.objects obj

theorem Backed.hold (h : Backed G g c) {b : BlockStruct} (hb : VotesIn G b.votes) :
    Backed G g (c.hold b) :=
  { h.alloc hb with }

theorem Backed.writeVotes (h : Backed G g c) (obj : Nat) {votes : List VoteStruct}
    (hvotes : VotesIn G votes) :
    Backed G g (c.write obj { c.objects obj with votes := votes }) := by
  refine ⟨?_, h.adds, h.committed, h.stored, h.cached, h.queued, h.sent⟩
  intro obj'
  by_cases heq : obj' = obj
  · subst heq
    rw [objects_write_self]
    exact hvotes
  · rw [objects_write_of_ne heq]
    exact h.objects obj'

theorem Backed.sign (h : Backed G g c) (hash : Text) : Backed G g (c.sign hash) := { h with }

theorem Backed.send (h : Backed G g c) {m : Message} (hm : MessageIn G m) :
    Backed G g (c.send m) := by
  refine ⟨h.objects, h.adds, h.committed, h.stored, h.cached, h.queued, ?_⟩
  intro m' hm'
  rcases List.mem_append.mp hm' with hm' | hm'
  · exact h.sent m' hm'
  · obtain rfl := List.mem_singleton.mp hm'
    exact hm

theorem Backed.setSync (h : Backed G g c) {sync : SyncState} (hsync : BlocksIn G g sync.blocks) :
    Backed G g { c with sync := sync } :=
  ⟨h.objects, h.adds, h.committed, h.stored, h.cached, hsync, h.sent⟩

theorem Backed.startAdd (h : Backed G g c) (obj : Nat) (fromSync : Bool) :
    Backed G g (c.startAdd crypto obj fromSync) := by
  rcases c.startAdd_cases crypto obj fromSync with ⟨-, hstep⟩ | ⟨-, hstep⟩
  · rw [hstep]
    refine ⟨h.objects, ?_, h.committed, ?_, h.cached, h.queued, h.sent⟩
    · intro t ht
      rcases List.mem_append.mp ht with ht | ht
      · exact h.adds t ht
      · obtain rfl := List.mem_singleton.mp ht
        exact h.objects obj
    · intro b hb hg
      obtain ⟨e, he, rfl⟩ := List.mem_map.mp hb
      rcases Store.mem_entries_put he with rfl | he
      · exact h.objects obj
      · exact h.stored e.2 (List.mem_map_of_mem he) hg
  · rw [hstep]
    exact h

theorem Backed.processSignBlock (h : Backed G g c) (now : Nat) {origin sig : Text}
    (hvote : G origin sig) (hash : Text) :
    Backed G g (c.processSignBlock crypto now origin hash sig) := by
  have hpush : ∀ obj, Backed G g (c.pushVote obj { origin := origin, sig := sig }) :=
    fun obj => h.writeVotes obj (VotesIn_append (h.objects obj) hvote)
  rcases c.processSignBlock_cases crypto now origin hash sig with
    ⟨-, hstep⟩ | ⟨obj, -, ⟨-, hstep⟩ | ⟨-, hstep⟩⟩
  · rw [hstep]
    exact h
  · rw [hstep]
    exact hpush obj
  · rw [hstep]
    exact ((hpush obj).startAdd obj false).send ⟨(hpush obj).objects obj, fun _ _ h => (nomatch h)⟩

theorem Backed.processConfirmBlock (h : Backed G g c) (hash : Text) {votes : List VoteStruct}
    (hvotes : VotesIn G votes) : Backed G g (c.processConfirmBlock crypto hash votes) := by
  rcases c.processConfirmBlock_cases crypto hash votes with hstep | ⟨obj, -, -, -, hstep⟩
  · rw [hstep]
    exact h
  · rw [hstep]
    exact (h.writeVotes obj hvotes).startAdd obj false

theorem Backed.propose (h : Backed G g c) (now : Nat) (pool : List TransactionStruct)
    (hown : G c.chain.publicKey (c.ownVote crypto (c.proposal crypto pool).hash).sig) :
    Backed G g (c.propose crypto now pool) := by
  have hvotes : VotesIn G (c.proposal crypto pool).votes := VotesIn_append (fun _ h => nomatch h) hown
  exact ((h.hold hvotes).sign _).send ⟨hvotes, fun _ _ h => (nomatch h)⟩

theorem Backed.approve (h : Backed G g c) (now : Nat) (validator hash : Text)
    (hown : G c.chain.publicKey (c.ownVote crypto hash).sig) :
    Backed G g (c.approve crypto now validator hash) := by
  rcases c.approve_cases crypto now validator hash with ⟨-, hstep⟩ | ⟨-, hstep⟩
  · rw [hstep]
    exact (h.sign hash).processSignBlock now hown hash
  · rw [hstep]
    refine (h.sign hash).send ⟨fun _ h => (nomatch h), ?_⟩
    intro hash' sig hdata
    obtain ⟨-, rfl⟩ := MessageData.signBlock.inj hdata
    exact hown

/-- A synced block that `add` takes lies above `g`. -/
theorem Backed.continueSync (h : Backed G g c) (hg : g ≤ c.chain.height) :
    Backed G g (c.continueSync crypto) := by
  have hqueued := h.queued
  rcases c.continueSync_cases crypto with
    hstep | ⟨sync, hsync, hstep⟩ | ⟨b, blocks, hsync, haccepts, hstep⟩
  · rw [hstep]
    exact h
  · rw [hstep]
    exact h.setSync fun b' hb' => hqueued b' (hsync hb')
  · rw [hsync] at hqueued
    have hnext := ((Blockchain.accepts_iff crypto).mp haccepts).1
    have hvotes : VotesIn G b.votes := hqueued b List.mem_cons_self (by omega)
    rw [hstep]
    exact ((h.alloc hvotes).startAdd c.next true).setSync
      fun b' hb' => hqueued b' (List.mem_cons_of_mem b hb')

theorem Backed.runCommand (h : Backed G g c) {i : Nat} {t : AddTask} (oc : Text × Command)
    (ht : t ∈ c.adds) : Backed G g (c.runCommand i t oc) := by
  refine ⟨?_, ?_, h.committed, h.stored, h.cached, h.queued, h.sent⟩
  · intro obj
    obtain ⟨tx, htx⟩ := c.objects_runCommand i t oc obj
    rw [htx]
    exact h.objects obj
  · intro t' ht'
    rcases List.mem_or_eq_of_mem_set ht' with ht' | rfl
    · exact h.adds t' ht'
    · exact h.adds t ht

theorem Backed.finish (h : Backed G g c) {i : Nat} {t : AddTask} {chain : Blockchain}
    (ht : t ∈ c.adds) (hc : Blockchain.CachedBy (c.objects t.obj) c.chain chain) :
    Backed G g (c.finish i t chain) := by
  refine ⟨h.objects, fun t' ht' => h.adds t' (List.mem_of_mem_eraseIdx ht'), ?_, ?_, ?_, ?_, h.sent⟩
  · intro b hb
    rcases List.mem_append.mp hb with hb | hb
    · exact h.committed b hb
    · obtain rfl := List.mem_singleton.mp hb
      exact h.adds t ht
  · show BlocksIn G g chain.dbBlockchain.values
    rw [hc.dbBlockchain]
    exact h.stored
  · show BlocksIn G g chain.mapBlocks.values
    rw [hc.mapBlocks]
    -- the cache takes the object in and may drop another block
    have hset : BlocksIn G g (c.chain.mapBlocks.set (c.objects t.obj).height
        (c.objects t.obj)).values := by
      intro b hb hg
      rcases OrdMap.mem_values_set hb with rfl | hb
      · exact h.objects t.obj
      · exact h.cached b hb hg
    unfold Blockchain.cacheBlock
    dsimp only
    split
    · exact fun b hb => hset b (OrdMap.mem_values_delete hb)
    · exact hset
  · show BlocksIn G g (resumedSync c.sync t.fromSync).blocks
    unfold resumedSync
    split
    next blocks hsync =>
      have hqueued := h.queued
      rw [hsync] at hqueued
      exact hqueued
    · exact h.queued

/-- **A move hands on known votes only**, if it takes in such votes and the
node's own signatures are known. -/
theorem Backed.move (h : Backed G g c) {kind : Kind} {c' : Consensus}
    (hmove : Move crypto c kind c') (hin : kind.In G g) (hg : g ≤ c.chain.height)
    (hown : ∀ e ∈ c'.signed, G c.chain.publicKey (crypto.sign c.chain.publicKey e.2)) :
    Backed G g c' := by
  cases hmove with
  | quiet => exact h
  | propose now pool =>
      exact h.propose now pool (hown _ (List.mem_append_right _ List.mem_cons_self))
  | hold b hacc => exact h.hold hin
  -- Approving signs the block and may at once complete the round.
  | approve b now validator hacc =>
      refine (h.hold hin).approve now validator b.hash (hown (c.chain.height, b.hash) ?_)
      rw [(sameTop_approve (c.hold b) now validator b.hash).signed]
      exact List.mem_append_right _ List.mem_cons_self
  | vote now origin hash sig => exact h.processSignBlock now hin hash
  | confirm hash votes => exact h.processConfirmBlock hash hin
  | fetch height =>
      rcases c.fetchSync_cases height with hstep | hstep
      · rw [hstep]
        exact h
      · rw [hstep]
        exact h.setSync fun _ h => (nomatch h)
  | answer blocks =>
      rcases c.answerSync_cases blocks with hstep | hstep
      · rw [hstep]
        exact h
      · rw [hstep]
        exact h.setSync hin
  | continueSync => exact h.continueSync hg
  | drop => exact { h with }
  | runCommand i t oc ht hp => exact h.runCommand oc (List.mem_of_getElem? ht)
  | finish i t answer chain ht hp hc =>
      exact h.finish (List.mem_of_getElem? ht) (Blockchain.updateCache_spec hc)

end Consensus

end Divachain
