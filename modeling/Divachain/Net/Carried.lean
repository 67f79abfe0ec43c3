/-
  Divachain.Net.Carried — the blocks a node may still add.

  A block a node adds is its own proposal, an accepted candidate or one that
  was synced, and until `add` stores it nothing has written to its
  transactions.  `Carried` says that all these blocks satisfy a predicate `K`
  that does not look at votes; `Carried.move` that a move keeps this if it
  brings in such blocks only.
-/
import Divachain.Net.Line
import Divachain.Net.Signing

namespace Divachain

open DataKit

namespace Consensus

/-! ## §1. The blocks that may still be added. -/

/-- **What a node may still add satisfies `K`**, and what is being added has
kept the origins and signatures it was stored with. -/
structure Carried (K : BlockStruct → Prop) (c : Consensus) : Prop where
  held : c.adds = [] → ∀ b, c.held = some b → K b
  adds : ∀ t ∈ c.adds, K t.stored ∧ t.obj < c.next
    ∧ (c.objects t.obj).tx.map TransactionStruct.header
      = t.stored.tx.map TransactionStruct.header
  queued : ∀ b ∈ c.sync.blocks, K b

/-- `K` does not look at the votes. -/
def VoteBlind (K : BlockStruct → Prop) : Prop :=
  ∀ b votes, K b → K { b with votes := votes }

/-- The blocks a move takes in satisfy `K`. -/
def Brings (crypto : Crypto) (K : BlockStruct → Prop) (c : Consensus) : Kind → Prop
  | .propose pool => K (c.proposal crypto pool)
  | .accept b => K b
  | .answer blocks => ∀ b ∈ blocks, K b
  | _ => True

variable {K : BlockStruct → Prop} {crypto : Crypto} {genesis : BlockStruct}
  {base : List BlockStruct} {c : Consensus}

theorem carried_start (chain : Blockchain) : Carried K (start chain) :=
  ⟨fun _ _ h => (nomatch h), fun _ h => (nomatch h), fun _ h => (nomatch h)⟩

theorem Carried.mono {K' : BlockStruct → Prop} (h : Carried K c) (hK : ∀ b, K b → K' b) :
    Carried K' c :=
  ⟨fun hnone b hb => hK b (h.held hnone b hb),
    fun t ht => ⟨hK _ (h.adds t ht).1, (h.adds t ht).2⟩, fun b hb => hK b (h.queued b hb)⟩

/-- The calls in flight do not see a change that keeps their objects. -/
theorem Carried.congr {c' : Consensus} (h : Carried K c) (hadds : c'.adds = c.adds)
    (hsync : c'.sync = c.sync) (hnext : c.next ≤ c'.next)
    (hheld : c.adds = [] → ∀ b, c'.held = some b → K b)
    (hobjects : ∀ obj < c.next, (c'.objects obj).tx = (c.objects obj).tx) : Carried K c' := by
  refine ⟨?_, ?_, ?_⟩
  · rw [hadds]
    exact hheld
  · rw [hadds]
    intro t ht
    obtain ⟨hstored, hobj, hheader⟩ := h.adds t ht
    rw [hobjects t.obj hobj]
    exact ⟨hstored, Nat.lt_of_lt_of_le hobj hnext, hheader⟩
  · rw [hsync]
    exact h.queued

theorem Carried.hold (h : Carried K c) {b : BlockStruct} (hb : K b) : Carried K (c.hold b) := by
  refine h.congr rfl rfl (Nat.le_succ _) ?_ ?_
  · intro _ b' hb'
    obtain rfl : b = b' := by
      have hself : (c.hold b).held = some b := congrArg some objects_alloc_self
      exact Option.some.inj (hself.symm.trans hb')
    exact hb
  · intro obj hobj
    exact congrArg BlockStruct.tx (objects_alloc_of_ne (Nat.ne_of_lt hobj))

theorem Carried.writeVotes (h : Carried K c) (hK : VoteBlind K) (obj : Nat)
    (votes : List VoteStruct) :
    Carried K (c.write obj { c.objects obj with votes := votes }) := by
  have hwrite : ∀ obj', ∃ votes', (c.write obj { c.objects obj with votes := votes }).objects obj'
      = { c.objects obj' with votes := votes' } := by
    intro obj'
    by_cases heq : obj' = obj
    · subst heq
      exact ⟨votes, objects_write_self⟩
    · exact ⟨_, objects_write_of_ne heq⟩
  refine h.congr rfl rfl (Nat.le_refl _) ?_ ?_
  · intro hnone b hb
    obtain ⟨obj', hblock, rfl⟩ := Option.map_eq_some_iff.mp hb
    obtain ⟨votes', hvotes'⟩ := hwrite obj'
    rw [hvotes']
    exact hK _ votes' (h.held hnone _ (Option.map_eq_some_iff.mpr ⟨obj', hblock, rfl⟩))
  · intro obj' _
    obtain ⟨votes', hvotes'⟩ := hwrite obj'
    rw [hvotes']

theorem Carried.sign (h : Carried K c) (hash : Text) : Carried K (c.sign hash) := { h with }

theorem Carried.send (h : Carried K c) (m : Message) : Carried K (c.send m) := { h with }

theorem Carried.setSync (h : Carried K c) {sync : SyncState} (hsync : ∀ b ∈ sync.blocks, K b) :
    Carried K { c with sync := sync } :=
  ⟨h.held, h.adds, hsync⟩

/-- A call starts on an object that nothing has written to. -/
theorem Carried.startAdd (h : Carried K c) {obj : Nat} (fromSync : Bool) (hobj : obj < c.next)
    (hb : c.adds = [] → K (c.objects obj))
    (hone : (c.startAdd crypto obj fromSync).adds.length ≤ 1) :
    Carried K (c.startAdd crypto obj fromSync) := by
  rcases c.startAdd_cases crypto obj fromSync with ⟨-, hstep⟩ | ⟨-, hstep⟩
  · rw [hstep] at hone ⊢
    -- The new task is the only one, and its block satisfies `K` by assumption.
    have hnone : c.adds = [] := adds_eq_nil hone
    refine ⟨fun hempty => ?_, ?_, h.queued⟩
    · exact absurd hempty (List.append_ne_nil_of_right_ne_nil _ (List.cons_ne_nil _ _))
    · intro t ht
      rcases List.mem_append.mp ht with ht | ht
      · rw [hnone] at ht
        exact nomatch ht
      · obtain rfl := List.mem_singleton.mp ht
        exact ⟨hb hnone, hobj, rfl⟩
  · rw [hstep]
    exact h

/-- The candidate is such an object. -/
theorem Carried.held_object (h : Carried K c) {obj : Nat} (hblock : c.block = some obj) :
    c.adds = [] → K (c.objects obj) := fun hnone =>
  h.held hnone _ (Option.map_eq_some_iff.mpr ⟨obj, hblock, rfl⟩)

theorem Carried.processSignBlock (hs : Settled crypto genesis base c) (h : Carried K c)
    (hK : VoteBlind K) {now : Nat} {origin hash sig : Text}
    (hone : (c.processSignBlock crypto now origin hash sig).adds.length ≤ 1) :
    Carried K (c.processSignBlock crypto now origin hash sig) := by
  rcases c.processSignBlock_cases crypto now origin hash sig with
    ⟨-, hstep⟩ | ⟨obj, hobj, ⟨-, hstep⟩ | ⟨-, hstep⟩⟩
  · rw [hstep]
    exact h
  · rw [hstep]
    exact h.writeVotes hK obj _
  · have hblock : c.block = some obj := (block_of_votable hobj).1
    have hpush : Carried K (c.pushVote obj { origin := origin, sig := sig }) :=
      h.writeVotes hK obj _
    rw [hstep] at hone ⊢
    exact (hpush.startAdd false (hs.allocated obj hblock) (hpush.held_object hblock) hone).send _

theorem Carried.approve (hs : Settled crypto genesis base c) (h : Carried K c) (hK : VoteBlind K)
    {now : Nat} {validator hash : Text}
    (hone : (c.approve crypto now validator hash).adds.length ≤ 1) :
    Carried K (c.approve crypto now validator hash) := by
  rcases c.approve_cases crypto now validator hash with ⟨-, hstep⟩ | ⟨-, hstep⟩
  · rw [hstep] at hone ⊢
    exact Carried.processSignBlock (hs.sign hash) (h.sign hash) hK hone
  · rw [hstep]
    exact (h.sign hash).send _

theorem Carried.processConfirmBlock (hs : Settled crypto genesis base c) (h : Carried K c)
    (hK : VoteBlind K) {hash : Text} {votes : List VoteStruct}
    (hone : (c.processConfirmBlock crypto hash votes).adds.length ≤ 1) :
    Carried K (c.processConfirmBlock crypto hash votes) := by
  rcases c.processConfirmBlock_cases crypto hash votes with hstep | ⟨obj, hblock, -, -, hstep⟩
  · rw [hstep]
    exact h
  · have hwrite := h.writeVotes hK obj votes
    rw [hstep] at hone ⊢
    exact hwrite.startAdd false (hs.allocated obj hblock) (hwrite.held_object hblock) hone

/-- A synced block gets an object of its own. -/
theorem Carried.alloc (hs : Settled crypto genesis base c) (h : Carried K c) (b : BlockStruct) :
    Carried K (c.alloc b) := by
  refine h.congr rfl rfl (Nat.le_succ _) ?_ ?_
  · intro hnone b' hb'
    obtain ⟨obj, hblock, rfl⟩ := Option.map_eq_some_iff.mp hb'
    rw [objects_alloc_of_ne (Nat.ne_of_lt (hs.allocated obj hblock))]
    exact h.held_object hblock hnone
  · intro obj hobj
    exact congrArg BlockStruct.tx (objects_alloc_of_ne (Nat.ne_of_lt hobj))

theorem Carried.continueSync (hs : Settled crypto genesis base c) (h : Carried K c)
    (hone : (c.continueSync crypto).adds.length ≤ 1) : Carried K (c.continueSync crypto) := by
  have hqueued := h.queued
  rcases c.continueSync_cases crypto with hstep | ⟨sync, hsync, hstep⟩ | ⟨b, blocks, hsync, -, hstep⟩
  · rw [hstep]
    exact h
  · rw [hstep]
    exact h.setSync fun b' hb' => hqueued b' (hsync hb')
  · rw [hsync] at hqueued
    have hb : K ((c.alloc b).objects c.next) := by
      rw [objects_alloc_self]
      exact hqueued b List.mem_cons_self
    rw [hstep] at hone ⊢
    exact ((h.alloc hs b).startAdd true (Nat.lt_succ_self _) (fun _ => hb) hone).setSync
      fun b' hb' => hqueued b' (List.mem_cons_of_mem b hb')

theorem Carried.runCommand (h : Carried K c) {i : Nat} {t : AddTask} (oc : Text × Command)
    (ht : c.adds[i]? = some t) : Carried K (c.runCommand i t oc) := by
  have hmem : t ∈ c.adds := List.mem_of_getElem? ht
  have hheader : ∀ obj, ((c.runCommand i t oc).objects obj).tx.map TransactionStruct.header
      = (c.objects obj).tx.map TransactionStruct.header := by
    intro obj
    -- A command may write to its transaction, but not to the header of it.
    by_cases heq : obj = t.obj
    · subst heq
      show (((Function.update _ _ _ : Nat → BlockStruct)) t.obj).tx.map _ = _
      rw [Function.update_self]
      exact map_header_setCommandOf _ _ _
    · have hsame : (c.runCommand i t oc).objects obj = c.objects obj := Function.update_of_ne heq ..
      rw [hsame]
  have hset : (c.runCommand i t oc).adds = c.adds.set i { t with pos := t.pos + 1 } := rfl
  refine ⟨?_, ?_, h.queued⟩
  · intro hnone
    rw [hset, List.set_eq_nil_iff] at hnone
    rw [hnone] at hmem
    exact nomatch hmem
  · intro t' ht'
    rw [hset] at ht'
    rw [hheader]
    rcases List.mem_or_eq_of_mem_set ht' with ht' | rfl
    · exact h.adds t' ht'
    · exact h.adds t hmem

theorem Carried.finish (h : Carried K c) {i : Nat} {t : AddTask} {chain : Blockchain} :
    Carried K (c.finish i t chain) := by
  refine ⟨fun _ _ hheld => (nomatch hheld), ?_, ?_⟩
  · exact fun t' ht' => h.adds t' (List.mem_of_mem_eraseIdx ht')
  · show ∀ b ∈ (resumedSync c.sync t.fromSync).blocks, K b
    unfold resumedSync
    split
    next blocks hsync =>
      have hqueued := h.queued
      rw [hsync] at hqueued
      exact hqueued
    · exact h.queued

/-- **A move adds no block that does not satisfy `K`**, if it brings none in. -/
theorem Carried.move (hs : Settled crypto genesis base c) (h : Carried K c) (hK : VoteBlind K)
    {kind : Kind} {c' : Consensus} (hmove : Move crypto c kind c') (hone : c'.adds.length ≤ 1)
    (hbrings : Brings crypto K c kind) : Carried K c' := by
  cases hmove with
  | quiet => exact h
  | propose now pool => exact ((h.hold hbrings).sign _).send _
  | hold b hacc => exact h.hold hbrings
  | approve b now validator hacc =>
      exact Carried.approve (hs.hold b) (h.hold hbrings) hK hone
  | vote now origin hash sig => exact Carried.processSignBlock hs h hK hone
  | confirm hash votes => exact Carried.processConfirmBlock hs h hK hone
  | fetch height =>
      rcases c.fetchSync_cases height with hstep | hstep
      · rw [hstep]
        exact h
      · rw [hstep]
        exact h.setSync fun _ h => (nomatch h)
  | answer blocks =>
      rcases c.answerSync_cases blocks with hstep | hstep
      · rw [hstep]
        exact h
      · rw [hstep]
        exact h.setSync hbrings
  | continueSync => exact Carried.continueSync hs h hone
  | drop => exact ⟨fun _ _ hheld => (nomatch hheld), h.adds, h.queued⟩
  | runCommand i t oc ht hp => exact h.runCommand oc ht
  | finish i t answer chain ht hp hc => exact h.finish

/-! ## §2. What is sent and what is committed. -/

/-- What is sent is kept, and a candidate is sent by the proposal timer only. -/
theorem sent_of_move {kind : Kind} {c' : Consensus} (hmove : Move crypto c kind c') :
    ∃ l, c'.sent = c.sent ++ l ∧ ∀ m ∈ l, ∀ height t, m.data.carries height t = true →
      ∃ pool, kind = .propose pool ∧ m.data = .proposeBlock (c.proposal crypto pool) := by
  have hquiet : ∀ {d : Consensus}, d.sent = c.sent →
      ∃ l, d.sent = c.sent ++ l ∧ ∀ m ∈ l, ∀ height t, m.data.carries height t = true →
        ∃ pool, kind = .propose pool ∧ m.data = .proposeBlock (c.proposal crypto pool) :=
    fun h => ⟨[], by rw [h, List.append_nil], fun _ h => (nomatch h)⟩
  have hsend : ∀ {d : Consensus} {m : Message}, d.sent = c.sent →
      (∀ height t, m.data.carries height t = false) →
      ∃ l, (d.send m).sent = c.sent ++ l ∧ ∀ m ∈ l, ∀ height t, m.data.carries height t = true →
        ∃ pool, kind = .propose pool ∧ m.data = .proposeBlock (c.proposal crypto pool) := by
    intro d m hd hnothing
    refine ⟨[m], congrArg (· ++ [m]) hd, ?_⟩
    intro m' hm' height t hcarries
    obtain rfl := List.mem_singleton.mp hm'
    rw [hnothing] at hcarries
    exact nomatch hcarries
  have hstart : ∀ (d : Consensus) (obj : Nat) (fromSync : Bool),
      (d.startAdd crypto obj fromSync).sent = d.sent := by
    intro d obj fromSync
    rcases d.startAdd_cases crypto obj fromSync with ⟨-, hstep⟩ | ⟨-, hstep⟩
    · rw [hstep]
    · rw [hstep]
  have hsign : ∀ {d : Consensus} (now : Nat) (origin hash sig : Text), d.sent = c.sent →
      ∃ l, (d.processSignBlock crypto now origin hash sig).sent = c.sent ++ l
        ∧ ∀ m ∈ l, ∀ height t, m.data.carries height t = true →
          ∃ pool, kind = .propose pool ∧ m.data = .proposeBlock (c.proposal crypto pool) := by
    intro d now origin hash sig hd
    rcases d.processSignBlock_cases crypto now origin hash sig with
      ⟨-, hstep⟩ | ⟨obj, -, ⟨-, hstep⟩ | ⟨-, hstep⟩⟩
    · rw [hstep]
      exact hquiet hd
    · rw [hstep]
      exact hquiet hd
    · rw [hstep]
      exact hsend ((hstart _ _ _).trans hd) fun _ _ => rfl
  cases hmove with
  | quiet => exact hquiet rfl
  | propose now pool =>
      refine ⟨[_], rfl, ?_⟩
      intro m hm _ _ _
      obtain rfl := List.mem_singleton.mp hm
      exact ⟨pool, rfl, rfl⟩
  | hold b hacc => exact hquiet rfl
  | approve b now validator hacc =>
      rcases (c.hold b).approve_cases crypto now validator b.hash with ⟨-, hstep⟩ | ⟨-, hstep⟩
      · rw [hstep]
        exact hsign (d := (c.hold b).sign b.hash) _ _ _ _ rfl
      · rw [hstep]
        exact hsend (d := (c.hold b).sign b.hash) rfl fun _ _ => rfl
  | vote now origin hash sig => exact hsign _ _ _ _ rfl
  | confirm hash votes =>
      rcases c.processConfirmBlock_cases crypto hash votes with hstep | ⟨obj, -, -, -, hstep⟩
      · rw [hstep]
        exact hquiet rfl
      · rw [hstep]
        exact hquiet (hstart _ _ _)
  | fetch height =>
      rcases c.fetchSync_cases height with hstep | hstep
      · rw [hstep]
        exact hquiet rfl
      · rw [hstep]
        exact hquiet rfl
  | answer blocks =>
      rcases c.answerSync_cases blocks with hstep | hstep
      · rw [hstep]
        exact hquiet rfl
      · rw [hstep]
        exact hquiet rfl
  | continueSync =>
      rcases c.continueSync_cases crypto with hstep | ⟨sync, -, hstep⟩ | ⟨b, blocks, -, -, hstep⟩
      · rw [hstep]
        exact hquiet rfl
      · rw [hstep]
        exact hquiet rfl
      · rw [hstep]
        exact hquiet (hstart (c.alloc b) c.next true)
  | drop => exact hquiet rfl
  | runCommand i t oc ht hp => exact hquiet rfl
  | finish i t answer chain ht hp hc => exact hquiet rfl

end Consensus

end Divachain
