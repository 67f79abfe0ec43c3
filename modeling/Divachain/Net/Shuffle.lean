/-
  Divachain.Net.Shuffle — the order in which a node broadcasts.

  `shuffleArray` works on a copy, and its loop picks uniformly among the
  positions that are still open.  So what is shuffled is left as it was, each
  order comes about equally often, and the snapshot that `p2pNetwork` takes has
  every other peer exactly once, in any order with the same probability.

  Main result: `shuffle_unbiased`.
-/
import Divachain.Net.Broadcast

namespace Divachain

open DataKit

/-! ## §1. Arrays in memory. -/

/-- The arrays of the process; a reference is a position. -/
abbrev Memory (α : Type) := List (List α)

namespace Memory

variable {α : Type}

/-- `array.slice()`: a new array with the same entries. -/
def slice (memory : Memory α) (array : Nat) : Memory α × Nat :=
  (memory ++ [(memory[array]?).getD []], memory.length)

/-- `[a[i], a[j]] = [a[j], a[i]]`, written to the array that `a` refers to. -/
def swapIn (memory : Memory α) (a i j : Nat) : Memory α := memory.modify a fun l => swap l i j

/-- `Util.shuffleArray` on references. -/
def shuffleArrayIn (random : Nat → Nat) (memory : Memory α) (array : Nat) : Memory α × Nat :=
  let (copied, a) := memory.slice array
  ((List.range' 1 (((memory[array]?).getD []).length - 1)).reverse.foldl
    (fun memory i => memory.swapIn a i (random i % (i + 1))) copied, a)

/-- The last array is the only one that its rounds write to. -/
theorem swapIn_last (memory : Memory α) (l : List α) (i j : Nat) :
    swapIn (memory ++ [l]) memory.length i j = memory ++ [swap l i j] := by
  induction memory with
  | nil => rfl
  | cons l' memory ih => exact congrArg (List.cons l') ih

theorem foldl_swapIn_last (random : Nat → Nat) (rounds : List Nat) :
    ∀ (memory : Memory α) (l : List α),
      rounds.foldl (fun m i => swapIn m memory.length i (random i % (i + 1))) (memory ++ [l])
        = memory ++ [rounds.foldl (fun a i => swap a i (random i % (i + 1))) l] := by
  induction rounds with
  | nil => exact fun _ _ => rfl
  | cons i rounds ih =>
      intro memory l
      rw [List.foldl_cons, swapIn_last, ih]
      rfl

/-- **The input is left unchanged**, and so is every other array: the result is
a new one. -/
theorem shuffleArrayIn_eq {memory : Memory α} {ref : Nat} {array : List α}
    (href : memory[ref]? = some array) (random : Nat → Nat) :
    memory.shuffleArrayIn random ref = (memory ++ [shuffleArray random array], memory.length) := by
  unfold shuffleArrayIn slice
  rw [href, Option.getD_some]
  dsimp only
  rw [foldl_swapIn_last]
  rfl

end Memory

/-! ## §2. The shuffle has no bias. -/

/-- A pick in range is what `Math.floor` makes of its random number. -/
theorem shuffleArray_of_inRange {α : Type} {random : Nat → Nat} {array : List α}
    (h : InRange random (array.length - 1)) :
    shuffleArray random array = shuffleFrom random (array.length - 1) array := by
  rw [shuffleArray_eq]
  refine shuffleFrom_congr ?_ array
  intro i hi him
  have hle := h i hi him
  exact Nat.mod_eq_of_lt (by omega)

theorem unbiased_shuffleArray {α : Type} (array : List α) :
    Unbiased (fun random => shuffleArray random array) array :=
  unbiased_shuffleFrom fun _ h => shuffleArray_of_inRange h

/-! ## §3. The snapshot. -/

namespace Network

variable {crypto : Crypto} {codec : Codec} {net : Network}

/-- The other peers, in the order of their keys. -/
def others (net : Network) : List Text :=
  ((net.chain.mapPeer.values.map Peer.publicKey).insertionSort (· ≤ ·)).filter fun pk =>
    decide (pk ≠ net.chain.publicKey)

/-- The turn of `p2pNetwork` takes a snapshot, if the sockets stand. -/
structure Renews (net : Network) : Prop where
  raised : net.raised = false
  halted : net.halted = false
  isClosing : net.isClosing = false
  size : ¬ net.chain.mapPeer.size < 2

theorem step_p2pNetwork (h : net.Renews) (turn : Turn) (random : Nat → Nat) :
    (net.step crypto codec turn (.p2pNetwork true random)).arrayBroadcast
      = shuffleArray random net.others := by
  have hgoes : ¬ (net.raised = true ∨ net.halted = true ∨ net.isClosing = true) := by
    simp [h.raised, h.halted, h.isClosing]
  have hready : ¬ (net.chain.mapPeer.size < 2 ∨ true = false) := by
    simp [h.size]
  unfold step
  rw [if_neg hgoes, react, if_neg hready]
  show (net.renew crypto turn random).arrayBroadcast = _
  unfold renew
  rw [p2pNetwork_step crypto h.halted h.size]
  rfl

theorem values_publicKey (h : Keyed net.chain.toLedger) :
    net.chain.mapPeer.values.map Peer.publicKey = net.chain.mapPeer.keys := by
  unfold OrdMap.values OrdMap.keys
  rw [List.map_map]
  refine List.map_congr_left ?_
  intro e he
  exact h e.1 e.2 ((OrdMap.get?_eq_some_iff net.chain.mapPeer e.1 e.2).mpr he)

theorem others_perm (h : Keyed net.chain.toLedger) :
    net.others.Perm (net.chain.mapPeer.keys.filter fun pk => decide (pk ≠ net.chain.publicKey)) := by
  rw [← values_publicKey h]
  exact (List.perm_insertionSort (· ≤ ·) _).filter _

theorem others_nodup (h : Keyed net.chain.toLedger) : net.others.Nodup :=
  (others_perm h).nodup_iff.mpr (net.chain.mapPeer.keys_nodup.filter _)

theorem mem_others_iff (h : Keyed net.chain.toLedger) (pk : Text) :
    pk ∈ net.others ↔ net.chain.hasPeer pk = true ∧ pk ≠ net.chain.publicKey := by
  rw [(others_perm h).mem_iff, List.mem_filter, decide_eq_true_iff]
  exact and_congr_left fun _ => (OrdMap.has_iff _ _).symm

/-- **Every other peer once**, in whatever order. -/
theorem count_others (h : Keyed net.chain.toLedger) {l : List Text} (hl : l.Perm net.others)
    (pk : Text) :
    l.count pk = if net.chain.hasPeer pk = true ∧ pk ≠ net.chain.publicKey then 1 else 0 := by
  rw [hl.count_eq, (others_nodup h).count]
  exact if_congr (mem_others_iff h pk) rfl rfl

/-- **What a snapshot of this turn is like**: every other peer is in it exactly
once, and each order of them comes about equally often. -/
structure EvenSnapshot (crypto : Crypto) (codec : Codec) (net : Network) (turn : Turn) : Prop where
  once : ∀ (random : Nat → Nat) (pk : Text),
    (net.step crypto codec turn (.p2pNetwork true random)).arrayBroadcast.count pk
      = if net.chain.hasPeer pk = true ∧ pk ≠ net.chain.publicKey then 1 else 0
  nodup : net.others.Nodup
  unbiased : Unbiased
    (fun random => (net.step crypto codec turn (.p2pNetwork true random)).arrayBroadcast) net.others

theorem evenSnapshot (hkeyed : Keyed net.chain.toLedger) (h : net.Renews) (turn : Turn) :
    EvenSnapshot crypto codec net turn := by
  refine ⟨?_, others_nodup hkeyed, ?_⟩
  · intro random pk
    rw [step_p2pNetwork h]
    exact count_others hkeyed (shuffleArray_perm random net.others) pk
  · refine unbiased_shuffleFrom ?_
    intro random hpicks
    rw [step_p2pNetwork h]
    exact shuffleArray_of_inRange hpicks

/-- **The shuffle is an unbiased permutation.**  For every array the picks in
range make permutations of it and leave it unchanged, and if its entries are
distinct they are a bijection onto the permutations; so in every run of a node
its snapshot has every other peer exactly once, in each order equally often. -/
theorem shuffle_unbiased :
    (∀ {α : Type} (array : List α),
        Unbiased (fun random => shuffleArray random array) array
          ∧ ∀ (memory : Memory α) (ref : Nat), memory[ref]? = some array →
            ∀ random : Nat → Nat, memory.shuffleArrayIn random ref
              = (memory ++ [shuffleArray random array], memory.length))
      ∧ ∀ {crypto : Crypto} {codec : Codec} {publicKey : Text} {genesis : BlockStruct}
          {chain : Blockchain} {interval : Nat} {net : Network},
        1 ≤ genesis.height → Blockchain.Runs crypto publicKey genesis chain →
          Reaches crypto codec (fun _ _ _ => True) (start chain interval) net → net.Renews →
            ∀ turn : Turn, EvenSnapshot crypto codec net turn := by
  constructor
  · intro α array
    exact ⟨unbiased_shuffleArray array, fun _ _ href random => Memory.shuffleArrayIn_eq href random⟩
  · intro crypto codec publicKey genesis chain interval net hg hchain hreach hrenews turn
    exact evenSnapshot (hreach.inStep hg hchain).keyed hrenews turn

/-- Three peers in memory, and a node that knows three. -/
theorem shuffle_unbiased_of_sample :
    (Nat.card {p : Picks 3 // shuffleArray p.round [keyOf 0, keyOf 1, keyOf 2]
          = [keyOf 2, keyOf 0, keyOf 1]} = 1
        ∧ Memory.shuffleArrayIn (fun _ => 0) [[keyOf 0, keyOf 1, keyOf 2]] 0
          = ([[keyOf 0, keyOf 1, keyOf 2], [keyOf 1, keyOf 2, keyOf 0]], 1))
      ∧ EvenSnapshot Blockchain.sampleCrypto (tableCodec []) (start (Blockchain.sampleStart 0) 5000)
        Node.allOnline := by
  have harray := shuffle_unbiased.1 [keyOf 0, keyOf 1, keyOf 2]
  refine ⟨⟨?_, ?_⟩, ?_⟩
  · exact harray.1.equally (by decide +kernel) _ (by decide +kernel)
  · rw [harray.2 _ 0 rfl]
    decide +kernel
  · exact shuffle_unbiased.2 (by decide) (Blockchain.Runs.start Blockchain.start_sampleStart)
      Reaches.refl ⟨rfl, rfl, rfl, by decide +kernel⟩ Node.allOnline

end Network

end Divachain
