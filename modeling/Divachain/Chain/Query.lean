/-
  Divachain.Chain.Query — paging through the chain, and looking a transaction up.

  `getPage` counts its pages from the newest block and asks `getRange` for a
  full page each time, so the oldest page takes blocks of the one before it
  unless the pages come out even.  `getTransaction` reads the cache from its
  oldest block on and only then the database.

  Main results:
    * `pages_partition_iff` — when the pages of one size partition the chain;
    * `getTransaction_independent_iff` — when a lookup does not depend on how
      many blocks are cached.
-/
import Divachain.Chain.Cache
import Divachain.Chain.Range

namespace Divachain

open DataKit

namespace Blockchain

/-! ## §1. A chain to read: one data command a block.

Three peers with a stake of one each, and the first two of them vote.  The
chain has at most 101 blocks behind its genesis block. -/

def dataCommands : List Command :=
  [{ seq := 1
     body := .data ['t', 'e', 's', 't', ':', 'a'] []
     keys := [.seq, .command, .ns, .d] }]

/-- Every block has a transaction of the same name. -/
def dataTx (k : Nat) : TransactionStruct :=
  { ident := ['t']
    origin := keyOf 2
    commands := dataCommands
    sig := label 86 k
    keys := TransactionStruct.fields }

/-- The `k`-th block after the genesis block. -/
def dataBlock (k : Nat) : BlockStruct :=
  { version := BLOCK_VERSION
    previousHash := label 43 k
    hash := label 43 (k + 1)
    tx := [dataTx k]
    height := k + 2
    votes := [{ origin := keyOf 0, sig := label 86 (101 + k) },
      { origin := keyOf 1, sig := label 86 (202 + k) }] }

def dataText (k : Nat) : Text := hashText BLOCK_VERSION (label 43 k) [dataTx k] (k + 2)

def dataSigs : List (Text × Text) :=
  (List.range 101).map (fun k => (keyOf 2, signedText (k + 2) dataCommands))
    ++ ((List.range 101).map (fun k => (keyOf 0, label 43 (k + 1)))
      ++ (List.range 101).map fun k => (keyOf 1, label 43 (k + 1)))

def dataCrypto : Crypto := tableCrypto (genesisText 3 :: (List.range 101).map dataText) dataSigs

theorem hash_dataText {k : Nat} (hk : k < 101) : dataCrypto.hash (dataText k) = label 43 (k + 1) := by
  refine tableText_eq_label ?_ (i := k + 1) ?_
  · rw [List.nodup_cons]
    refine ⟨?_, List.nodup_range.map ?_⟩
    · intro hmem
      obtain ⟨j, -, hj⟩ := List.mem_map.mp hmem
      have hheight : j + 2 = 1 := hashText_height hj
      omega
    · intro i j hij
      have hheight : i + 2 = j + 2 := hashText_height hij
      omega
  · simp [hk]

theorem dataSigs_nodup : dataSigs.Nodup := by
  have h02 : keyOf 0 ≠ keyOf 2 := by decide
  have h12 : keyOf 1 ≠ keyOf 2 := by decide
  have h10 : keyOf 1 ≠ keyOf 0 := by decide
  rw [dataSigs, List.nodup_append', List.nodup_append']
  refine ⟨?_, ⟨?_, ?_, ?_⟩, ?_⟩
  · refine List.nodup_range.map ?_
    intro i j hij
    have hheight := (signedText_split (Prod.mk.inj hij).2).1
    omega
  · refine List.nodup_range.map ?_
    intro i j hij
    have hlabel := label_injective 43 (Prod.mk.inj hij).2
    omega
  · refine List.nodup_range.map ?_
    intro i j hij
    have hlabel := label_injective 43 (Prod.mk.inj hij).2
    omega
  · simp [List.disjoint_left, h10]
  · simp [List.disjoint_left, h02, h12]

theorem verify_dataTx {k : Nat} (hk : k < 101) :
    dataCrypto.verifySignature (keyOf 2) (label 86 k) (signedText (k + 2) dataCommands) = true := by
  refine decide_eq_true (tableText_eq_label dataSigs_nodup ?_).symm
  rw [dataSigs, List.getElem?_append_left (by simpa using hk)]
  simp [hk]

theorem verify_votes {k : Nat} (hk : k < 101) :
    ∀ v ∈ (dataBlock k).votes,
      dataCrypto.verifySignature v.origin v.sig (label 43 (k + 1)) = true := by
  intro v hv
  simp only [dataBlock, List.mem_cons, List.not_mem_nil, or_false] at hv
  rcases hv with rfl | rfl
  · refine decide_eq_true (tableText_eq_label dataSigs_nodup ?_).symm
    rw [dataSigs, List.getElem?_append_right (by simp),
      List.getElem?_append_left (by simpa using hk)]
    simp [hk]
  · refine decide_eq_true (tableText_eq_label dataSigs_nodup ?_).symm
    rw [dataSigs, List.getElem?_append_right (by simp; omega),
      List.getElem?_append_right (by simp; omega)]
    have hindex : 202 + k - 101 - 101 = k := by omega
    simp [hk, hindex]

theorem valid_dataTx : ∀ k < 101, (dataTx k).valid = true := by decide +kernel

theorem sameChars_dataBlock : ∀ k < 101,
    sameChars (label 43 (k + 1)) (k + 2) < STAKE_VOTE_MATCH_THRESHOLD := by decide +kernel

def startWith (maxBlocks : Nat) : Blockchain :=
  ((fresh (keyOf 0) maxBlocks).reset (fun _ => true) sampleGenesis).getD (fresh [] 0)

/-- The chain after `k` such blocks. -/
def grown (maxBlocks : Nat) : Nat → Blockchain
  | 0 => startWith maxBlocks
  | k + 1 =>
      match (grown maxBlocks k).add dataCrypto (dataBlock k) true with
      | .added c => c
      | _ => fresh [] 0

structure Grown (maxBlocks k : Nat) (c : Blockchain) : Prop where
  runs : Runs dataCrypto (keyOf 0) sampleGenesis c
  chain : c.chain = sampleGenesis :: (List.range k).map dataBlock
  maxBlocks : c.maxBlocks = maxBlocks
  latest : c.latestBlock.map BlockStruct.hash = some (label 43 k)
  quorum : c.hasQuorumWeighted [keyOf 0, keyOf 1] = true
  agrees : Agrees dataCrypto (fun b => b = sampleGenesis) c

theorem Grown.height {maxBlocks k : Nat} {c : Blockchain} (h : Grown maxBlocks k c) :
    c.height = k + 1 := by
  rw [← (h.runs.indexed (by decide +kernel)).length_chain, h.chain]
  simp

theorem Grown.add {maxBlocks k : Nat} {c : Blockchain} (h : Grown maxBlocks k c) (hk : k < 101) :
    ∃ c', c.add dataCrypto (dataBlock k) true = .added c' ∧ Grown maxBlocks (k + 1) c' := by
  have haccepts : c.accepts dataCrypto (dataBlock k) = true := by
    refine (accepts_iff dataCrypto).mpr
      ⟨?_, h.latest, ⟨?_, hash_dataText hk, ?_, ?_⟩, ⟨?_, verify_votes hk, h.quorum⟩⟩
    · rw [h.height]
      rfl
    · exact List.cons_ne_nil _ _
    · exact List.nodup_singleton _
    · intro t ht
      obtain rfl := List.mem_singleton.mp ht
      refine validateTx_iff.mpr ⟨valid_dataTx k hk, Nat.succ_pos _, verify_dataTx hk, ?_⟩
      intro command hcommand
      obtain rfl := List.mem_singleton.mp hcommand
      rfl
    · show [keyOf 0, keyOf 1].Nodup
      decide
  obtain ⟨c', hadd⟩ : ∃ c', c.add dataCrypto (dataBlock k) true = .added c' :=
    add_of_few dataCrypto haccepts (sameChars_dataBlock k hk)
  have hspec := add_spec dataCrypto hadd
  refine ⟨c', hadd, h.runs.add hadd, ?_, ?_, ?_, ?_, ?_⟩
  -- the chain has the new block at its end
  · have hkeys := (h.runs.stored (by decide +kernel)).keys_le
    have hheight : c.height + 1 = (dataBlock k).height := by
      rw [h.height]
      rfl
    rw [Blockchain.chain, hspec.dbBlockchain, values_put_above hkeys hheight, List.range_succ,
      List.map_append, ← List.cons_append, ← h.chain]
    rfl
  · rw [hspec.maxBlocks, h.maxBlocks]
  · rw [hspec.latestBlock]
    rfl
  · rw [hspec.ledger]
    exact h.quorum
  · have hunclamped : Unclamped c.toLedger (commandsOf (dataBlock k).tx) := ⟨id, trivial⟩
    exact h.agrees.add hunclamped hadd

theorem grown_start {maxBlocks : Nat}
    (hstart : (fresh (keyOf 0) maxBlocks).reset (fun _ => true) sampleGenesis
      = some (startWith maxBlocks)) : Grown maxBlocks 0 (startWith maxBlocks) := by
  have hspec := replay_spec hstart
  have hruns : Runs dataCrypto (keyOf 0) sampleGenesis (startWith maxBlocks) := .start hstart
  have hunclamped : Unclamped (fresh (keyOf 0) maxBlocks).clear.toLedger
      (commandsOf sampleGenesis.tx) := by
    show Unclamped Ledger.fresh (commandsOf sampleGenesis.tx)
    decide +kernel
  have hone : sampleGenesis.height = 1 := by decide
  have hledger : (startWith maxBlocks).toLedger = Ledger.fresh.applyBlocks [sampleGenesis] :=
    hspec.ledger
  have hagrees : Agrees dataCrypto (fun b => b = sampleGenesis) (startWith maxBlocks) :=
    Agrees.reset hone (Eq.refl sampleGenesis) hunclamped hstart
  refine ⟨hruns, ?_, hspec.maxBlocks, ?_, ?_, hagrees⟩
  · rw [chain, hspec.dbBlockchain]
    rfl
  · rw [hspec.latest sampleGenesis rfl]
    decide +kernel
  · rw [hledger]
    decide +kernel

theorem Grown.of_start {maxBlocks : Nat}
    (hstart : (fresh (keyOf 0) maxBlocks).reset (fun _ => true) sampleGenesis
      = some (startWith maxBlocks)) :
    ∀ k ≤ 101, Grown maxBlocks k (grown maxBlocks k) := by
  intro k
  induction k with
  | zero =>
    intro _
    exact grown_start hstart
  | succ k ih =>
    intro hk
    obtain ⟨c', hadd, hgrown⟩ := (ih (by omega)).add (by omega)
    unfold grown
    rw [hadd]
    exact hgrown

theorem start_startWith : (fresh (keyOf 0) 100).reset (fun _ => true) sampleGenesis
    = some (startWith 100) := by decide +kernel

theorem start_startWith_wide : (fresh (keyOf 0) 1000).reset (fun _ => true) sampleGenesis
    = some (startWith 1000) := by decide +kernel

theorem height_sampleGenesis : sampleGenesis.height = 1 := by decide +kernel

/-! ## §2. Pages. -/

def getPage (maxQuerySize : Nat) (c : Blockchain) (page size : Int) : List BlockStruct :=
  let page := if page < 1 then 1 else page
  let size := if size < 1 ∨ (maxQuerySize : Int) < size then (maxQuerySize : Int) else size
  let gte := (c.height : Int) - page * size + 1
  let gte := if gte < 1 then 1 else gte
  c.getRange maxQuerySize gte (gte + size - 1)

/-- How many pages there are, the last of them perhaps shorter. -/
def pageCount (height size : Nat) : Nat := (height + size - 1) / size

/-- The `p`-th group of `size` blocks, counted from the newest. -/
def group (c : Blockchain) (size p : Nat) : List BlockStruct :=
  between c.chain (c.height - p * size + 1) (c.height - (p - 1) * size)

/-- The heights on the pages, from the first page to the last. -/
def pageHeights (maxQuerySize : Nat) (c : Blockchain) (size : Nat) : List (List Nat) :=
  (List.range' 1 (pageCount c.height size)).map fun p : Nat =>
    (c.getPage maxQuerySize p size).map BlockStruct.height

/-- **The pages partition the chain.** -/
structure PagesPartition (maxQuerySize : Nat) (c : Blockchain) (size : Nat) : Prop where
  disjoint : (c.pageHeights maxQuerySize size).Pairwise List.Disjoint
  complete : (c.pageHeights maxQuerySize size).flatten.Perm (List.range' 1 c.height)
  groups : ∀ p, 1 ≤ p → p ≤ pageCount c.height size →
    (c.getPage maxQuerySize p size).map BlockStruct.withoutTx
      = (c.group size p).map BlockStruct.withoutTx

theorem pageCount_bounds {height size : Nat} (hpos : 1 ≤ height) (hsize : 1 ≤ size) :
    1 ≤ pageCount height size ∧ (pageCount height size - 1) * size < height
      ∧ height ≤ pageCount height size * size := by
  have hdiv := Nat.div_add_mod (height + size - 1) size
  have hmod := Nat.mod_lt (height + size - 1) hsize
  have hone : 1 ≤ pageCount height size := by
    rw [pageCount, Nat.le_div_iff_mul_le hsize]
    omega
  have hmul : (pageCount height size - 1) * size = pageCount height size * size - size := by
    rw [Nat.sub_mul, Nat.one_mul]
  have hcomm : size * ((height + size - 1) / size) = pageCount height size * size :=
    Nat.mul_comm _ _
  rw [hcomm] at hdiv
  refine ⟨hone, ?_, ?_⟩
  · omega
  · omega

theorem pageCount_of_le {height size : Nat} (hpos : 1 ≤ height) (hle : height ≤ size) :
    pageCount height size = 1 :=
  Nat.div_eq_of_lt_le (by omega) (by omega)

theorem pageCount_mul_of_dvd {height size : Nat} (hsize : 1 ≤ size) (hdvd : size ∣ height) :
    pageCount height size * size = height := by
  obtain ⟨k, rfl⟩ := hdvd
  have hcount : pageCount (size * k) size = k := by
    refine Nat.div_eq_of_lt_le ?_ ?_
    · rw [Nat.mul_comm]
      omega
    · rw [Nat.succ_mul, Nat.mul_comm]
      omega
  rw [hcount, Nat.mul_comm]

section Pages

variable {c : Blockchain} {maxQuerySize size : Nat}

/-- The blocks of a page: a full one, that begins with the first block if the
chain has none left before it. -/
theorem Indexed.getPage_withoutTx (h : Indexed c) (hsize : 1 ≤ size) (hmax : size ≤ maxQuerySize)
    {p : Nat} (hp : 1 ≤ p) :
    (c.getPage maxQuerySize p size).map BlockStruct.withoutTx
      = (between c.chain ((max 1 (c.height + 1 - p * size) : Nat) : Int)
          ((max 1 (c.height + 1 - p * size) + min size c.height - 1 : Nat) : Int)).map
            BlockStruct.withoutTx := by
  have hpos := h.pos
  unfold getPage
  rw [if_neg (by omega), if_neg (by omega)]
  dsimp only
  rw [h.getRange_withoutTx]
  have hmul : ((p * size : Nat) : Int) = (p : Int) * size := Int.natCast_mul p size
  have hle : size ≤ p * size := Nat.le_mul_of_pos_left size hp
  generalize p * size = q at hmul hle
  rw [← hmul]
  congr 2
  · unfold queryLo queryHi clampHeight
    dsimp only
    split_ifs <;> omega
  · unfold queryHi clampHeight
    split_ifs <;> omega

theorem Indexed.heights_getPage (h : Indexed c) (hsize : 1 ≤ size) (hmax : size ≤ maxQuerySize)
    {p : Nat} (hp : 1 ≤ p) :
    (c.getPage maxQuerySize p size).map BlockStruct.height
      = List.range' (max 1 (c.height + 1 - p * size)) (min size c.height) := by
  have hpos := h.pos
  have hle : size ≤ p * size := Nat.le_mul_of_pos_left size hp
  rw [heights_congr (h.getPage_withoutTx hsize hmax hp), h.heights_between (by omega) (by omega)]
  congr 1
  omega

/-- A group ends where the one before it begins, or with the first block. -/
theorem Indexed.group_eq (h : Indexed c) {p : Nat} (hp : 1 ≤ p)
    (hlast : (p - 1) * size < c.height) :
    c.group size p
      = between c.chain ((max 1 (c.height + 1 - p * size) : Nat) : Int)
          ((c.height - (p - 1) * size : Nat) : Int) := by
  have hmul : ((p * size : Nat) : Int) = (p : Int) * size := Int.natCast_mul p size
  have hmul' : (((p - 1) * size : Nat) : Int) = ((p : Int) - 1) * size := by
    rw [Int.natCast_mul, Int.natCast_sub hp]
    rfl
  unfold group
  rw [← hmul, ← hmul']
  unfold between
  refine List.filter_congr ?_
  intro b hb
  have hheight := List.mem_map_of_mem (f := BlockStruct.height) hb
  rw [h.heights, List.mem_range'_1] at hheight
  rw [Bool.eq_iff_iff]
  simp only [Bool.and_eq_true, decide_eq_true_eq]
  omega

/-- **A page is its group if and only if it ends with the group.** -/
theorem Indexed.getPage_eq_group_iff (h : Indexed c) (hsize : 1 ≤ size)
    (hmax : size ≤ maxQuerySize) {p : Nat} (hp : 1 ≤ p) (hlast : (p - 1) * size < c.height) :
    (c.getPage maxQuerySize p size).map BlockStruct.withoutTx
        = (c.group size p).map BlockStruct.withoutTx
      ↔ max 1 (c.height + 1 - p * size) + min size c.height = c.height - (p - 1) * size + 1 := by
  constructor
  · intro heq
    have hheights := heights_congr heq
    rw [h.heights_getPage hsize hmax hp, h.group_eq hp hlast,
      h.heights_between (by omega) (by omega)] at hheights
    have hlength := congrArg List.length hheights
    rw [List.length_range', List.length_range'] at hlength
    omega
  · intro heq
    rw [h.getPage_withoutTx hsize hmax hp, h.group_eq hp hlast]
    congr 3
    omega

/-- The first pages of an even division, taken together. -/
theorem Indexed.heights_pages (h : Indexed c) (hsize : 1 ≤ size) (hmax : size ≤ maxQuerySize) :
    ∀ k, k * size ≤ c.height →
      ((List.range' 1 k).map fun p : Nat =>
          (c.getPage maxQuerySize p size).map BlockStruct.height).flatten.Perm
        (List.range' (c.height + 1 - k * size) (k * size)) := by
  intro k
  induction k with
  | zero =>
    intro _
    simp
  | succ k ih =>
    intro hk
    have hstep : (k + 1) * size = k * size + size := Nat.succ_mul k size
    have hpage := h.heights_getPage hsize hmax (p := k + 1) (by omega)
    have hstart : max 1 (c.height + 1 - (k + 1) * size) = c.height + 1 - (k + 1) * size := by omega
    rw [hstart, min_eq_left (by omega)] at hpage
    have hnext : c.height + 1 - (k + 1) * size + size = c.height + 1 - k * size := by omega
    rw [List.range'_concat, List.map_append, List.flatten_append, List.map_singleton,
      List.flatten_singleton, Nat.one_mul, Nat.add_comm 1 k, hpage]
    -- the new page stands before the others in the chain
    refine ((ih (by omega)).append_right _).trans (List.perm_append_comm.trans ?_)
    rw [← hnext, List.range'_append_1, Nat.add_comm size, ← hstep]

/-- Where the pages come out even, every block is on one of them, once. -/
theorem Indexed.pageHeights_perm (h : Indexed c) (hsize : 1 ≤ size) (hmax : size ≤ maxQuerySize)
    (hcond : c.height ≤ size ∨ size ∣ c.height) :
    (c.pageHeights maxQuerySize size).flatten.Perm (List.range' 1 c.height) := by
  unfold pageHeights
  rcases hcond with hone | hdvd
  · have hpage := h.heights_getPage hsize hmax (p := 1) (Nat.le_refl _)
    have hstart : max 1 (c.height + 1 - 1 * size) = 1 := by omega
    rw [hstart, min_eq_right hone] at hpage
    rw [pageCount_of_le h.pos hone, List.range'_one, List.map_singleton, List.flatten_singleton,
      hpage]
  · have heven := pageCount_mul_of_dvd hsize hdvd
    have hall := h.heights_pages hsize hmax (pageCount c.height size) (by omega)
    have hstart : c.height + 1 - pageCount c.height size * size = 1 := by omega
    rw [hstart, heven] at hall
    exact hall

/-- **The pages partition the chain if and only if** it fits on one of them or
they come out even. -/
theorem pages_partition_iff {crypto : Crypto} {publicKey : Text} {genesis : BlockStruct}
    (hg : genesis.height = 1) (hruns : Runs crypto publicKey genesis c) (hsize : 1 ≤ size)
    (hmax : size ≤ maxQuerySize) :
    PagesPartition maxQuerySize c size ↔ c.height ≤ size ∨ size ∣ c.height := by
  have h := hruns.indexed hg
  obtain ⟨hcount, hbefore, hcovers⟩ := pageCount_bounds h.pos hsize
  have hlast : (pageCount c.height size - 1) * size
      = pageCount c.height size * size - size := by
    rw [Nat.sub_mul, Nat.one_mul]
  constructor
  · intro hpages
    have hgroup := (h.getPage_eq_group_iff hsize hmax hcount hbefore).mp
      (hpages.groups _ hcount (Nat.le_refl _))
    by_cases hone : c.height ≤ size
    · exact Or.inl hone
    · right
      -- the last page is a full one, so the pages come out even
      have heven : c.height = pageCount c.height size * size := by omega
      rw [heven]
      exact Nat.dvd_mul_left size _
  · intro hcond
    refine ⟨?_, ?_, ?_⟩
    · exact (List.nodup_flatten.mp ((h.pageHeights_perm hsize hmax hcond).nodup_iff.mpr
        List.nodup_range')).2
    · exact h.pageHeights_perm hsize hmax hcond
    · intro p hp hp'
      have hpage : (p - 1) * size ≤ (pageCount c.height size - 1) * size :=
        Nat.mul_le_mul_right size (by omega)
      refine (h.getPage_eq_group_iff hsize hmax hp (by omega)).mpr ?_
      have hmul : (p - 1) * size = p * size - size := by rw [Nat.sub_mul, Nat.one_mul]
      have hle : size ≤ p * size := Nat.le_mul_of_pos_left size hp
      rcases hcond with hone | hdvd
      · obtain rfl : p = 1 := by
          rw [pageCount_of_le h.pos hone] at hp'
          omega
        omega
      · have heven := pageCount_mul_of_dvd hsize hdvd
        have hfull : p * size ≤ pageCount c.height size * size := Nat.mul_le_mul_right size hp'
        omega

end Pages

/-- Four blocks on two pages. -/
theorem pages_partition_of_sample : PagesPartition 10 (grown 100 3) 2 := by
  have hgrown := Grown.of_start start_startWith 3 (by omega)
  refine (pages_partition_iff height_sampleGenesis hgrown.runs (by omega) (by omega)).mpr ?_
  right
  rw [hgrown.height]
  decide

/-- **Three blocks on pages of two**: the second block is on both pages. -/
theorem pages_overlap :
    Runs dataCrypto (keyOf 0) sampleGenesis (grown 100 2) ∧ (grown 100 2).height = 3
      ∧ pageHeights 10 (grown 100 2) 2 = [[2, 3], [1, 2]]
      ∧ ¬ PagesPartition 10 (grown 100 2) 2 := by
  have hgrown := Grown.of_start start_startWith 2 (by omega)
  have hindexed := hgrown.runs.indexed height_sampleGenesis
  have hheight : (grown 100 2).height = 3 := hgrown.height
  have hpages : pageHeights 10 (grown 100 2) 2 = [[2, 3], [1, 2]] := by
    have hpage : ∀ p : Nat, 1 ≤ p → ((grown 100 2).getPage 10 p (2 : Nat)).map BlockStruct.height
        = List.range' (max 1 ((grown 100 2).height + 1 - p * 2)) (min 2 (grown 100 2).height) :=
      fun p hp => hindexed.heights_getPage (by omega) (by omega) hp
    have hfirst := hpage 1 (by omega)
    have hsecond := hpage 2 (by omega)
    rw [hheight] at hfirst hsecond
    unfold pageHeights
    rw [hheight]
    exact congrArg₂ (fun a b => [a, b]) hfirst hsecond
  refine ⟨hgrown.runs, hheight, hpages, ?_⟩
  intro hclaim
  have hlength := hclaim.complete.length_eq
  rw [hpages, hheight] at hlength
  exact absurd hlength (by decide)

/-! ## §3. Looking a transaction up. -/

/-- `t.origin === origin && t.ident === ident`. -/
def isNamed (origin ident : Text) (t : TransactionStruct) : Bool :=
  decide (t.origin = origin) && decide (t.ident = ident)

/-- The first block with such a transaction: its height, and the transaction. -/
def findTx (origin ident : Text) (bs : List BlockStruct) : Option (Nat × TransactionStruct) :=
  bs.findSome? fun b => (b.tx.find? (isNamed origin ident)).map fun t => (b.height, t)

def notFound : Text := ['N', 'o', 't', ' ', 'F', 'o', 'u', 'n', 'd']

/-- The search over the stored blocks. -/
def searchDb (origin ident : Text) (bs : List BlockStruct) :
    Except Text (Nat × TransactionStruct) :=
  match findTx origin ident bs with
  | some r => .ok r
  | none => .error notFound

def getTransaction (c : Blockchain) (origin ident : Text) :
    Except Text (Nat × TransactionStruct) :=
  match findTx origin ident c.mapBlocks.values with
  | some r => .ok r
  | none => searchDb origin ident c.dbBlockchain.values

/-- The block has a transaction of this name. -/
def Carries (origin ident : Text) (b : BlockStruct) : Prop :=
  ∃ t ∈ b.tx, t.origin = origin ∧ t.ident = ident

/-- A transaction of this name stands in a block that has left the cache, and
again in one that is cached. -/
def Repeated (c : Blockchain) (origin ident : Text) : Prop :=
  (∃ b ∈ c.chain.take (c.height - c.maxBlocks), Carries origin ident b)
    ∧ ∃ b ∈ c.chain.drop (c.height - c.maxBlocks), Carries origin ident b

theorem find?_isNamed_isSome {origin ident : Text} {b : BlockStruct} :
    (b.tx.find? (isNamed origin ident)).isSome = true ↔ Carries origin ident b := by
  rw [List.find?_isSome]
  simp [isNamed, Carries]

/-- **Nothing is found where no block has it.** -/
theorem findTx_eq_none_iff {origin ident : Text} {bs : List BlockStruct} :
    findTx origin ident bs = none ↔ ∀ b ∈ bs, ¬ Carries origin ident b := by
  rw [findTx, List.findSome?_eq_none_iff]
  refine forall₂_congr ?_
  intro b _
  rw [Option.map_eq_none_iff, ← find?_isNamed_isSome, Option.not_isSome_iff_eq_none]

/-- What is found has the height of a block of the list. -/
theorem mem_heights_of_findTx {origin ident : Text} {bs : List BlockStruct}
    {r : Nat × TransactionStruct} (h : findTx origin ident bs = some r) :
    r.1 ∈ bs.map BlockStruct.height := by
  obtain ⟨b, hb, hr⟩ := List.exists_of_findSome?_eq_some h
  obtain ⟨t, -, rfl⟩ := Option.map_eq_some_iff.mp hr
  exact List.mem_map_of_mem hb

theorem findTx_append (origin ident : Text) (bs cs : List BlockStruct) :
    findTx origin ident (bs ++ cs) = (findTx origin ident bs).or (findTx origin ident cs) :=
  List.findSome?_append

theorem searchDb_eq_error_iff {origin ident : Text} {bs : List BlockStruct} :
    searchDb origin ident bs = .error notFound ↔ ∀ b ∈ bs, ¬ Carries origin ident b := by
  rw [← findTx_eq_none_iff, searchDb]
  cases findTx origin ident bs with
  | none => simp
  | some r => simp

/-- A search that begins with the newer blocks finds what the full one finds
unless both parts have it. -/
theorem search_newer_first_iff (origin ident : Text) {older newer : List BlockStruct}
    (hdisjoint : (older.map BlockStruct.height).Disjoint (newer.map BlockStruct.height)) :
    (match findTx origin ident newer with
      | some r => .ok r
      | none => searchDb origin ident (older ++ newer)) = searchDb origin ident (older ++ newer)
      ↔ ¬ ((∃ b ∈ older, Carries origin ident b) ∧ ∃ b ∈ newer, Carries origin ident b) := by
  have hboth : ((∃ b ∈ older, Carries origin ident b) ∧ ∃ b ∈ newer, Carries origin ident b)
      ↔ findTx origin ident older ≠ none ∧ findTx origin ident newer ≠ none := by
    simp only [ne_eq, findTx_eq_none_iff, not_forall, not_not, exists_prop]
  rw [hboth, searchDb, findTx_append]
  cases hnewer : findTx origin ident newer with
  | none => simp
  | some r =>
    cases holder : findTx origin ident older with
    | none => simp
    | some r' =>
      -- the two finds stand under different heights
      have hne : r ≠ r' := by
        intro heq
        exact hdisjoint (mem_heights_of_findTx holder) (heq ▸ mem_heights_of_findTx hnewer)
      simp [hne]

section Lookup

variable {c : Blockchain}

/-- The cache from the height on at which it begins. -/
theorem Indexed.values_eq_drop (h : Indexed c)
    (hcopy : ∀ height b, c.mapBlocks.get? height = some b → c.dbBlockchain.get? height = some b) :
    c.mapBlocks.values = c.chain.drop (c.height - c.maxBlocks) := by
  have hsize := h.caches.window.size_eq
  have hdrop : c.height - c.mapBlocks.size = c.height - c.maxBlocks := by omega
  rw [h.values_eq hcopy, hdrop]

/-- **A lookup is the full search if and only if** the name does not stand on
both sides of the beginning of the cache. -/
theorem Indexed.getTransaction_eq_iff (h : Indexed c)
    (hcopy : ∀ height b, c.mapBlocks.get? height = some b → c.dbBlockchain.get? height = some b)
    (origin ident : Text) :
    c.getTransaction origin ident = searchDb origin ident c.chain
      ↔ ¬ Repeated c origin ident := by
  have hsplit := List.take_append_drop (c.height - c.maxBlocks) c.chain
  have hnodup := List.nodup_range' (s := 1) (n := c.chain.length)
  rw [← h.heights, ← hsplit, List.map_append] at hnodup
  have hiff := search_newer_first_iff origin ident (List.nodup_append'.mp hnodup).2.2
  rw [hsplit] at hiff
  unfold getTransaction
  rw [h.values_eq_drop hcopy]
  exact hiff

/-- A lookup fails exactly where no block has the transaction. -/
theorem Indexed.getTransaction_eq_error_iff (h : Indexed c)
    (hcopy : ∀ height b, c.mapBlocks.get? height = some b → c.dbBlockchain.get? height = some b)
    (origin ident : Text) :
    c.getTransaction origin ident = .error notFound
      ↔ ∀ b ∈ c.chain, ¬ Carries origin ident b := by
  unfold getTransaction
  rw [h.values_eq_drop hcopy]
  cases hcached : findTx origin ident (c.chain.drop (c.height - c.maxBlocks)) with
  | none => exact searchDb_eq_error_iff
  | some r =>
    have hsome : ¬ ∀ b ∈ c.chain, ¬ Carries origin ident b := by
      intro hnone
      have hfound : findTx origin ident (c.chain.drop (c.height - c.maxBlocks)) = none :=
        findTx_eq_none_iff.mpr fun b hb => hnone b (List.mem_of_mem_drop hb)
      rw [hcached] at hfound
      exact nomatch hfound
    simp [hsome]

end Lookup

/-- **The answer does not depend on the cache if and only if** neither of the
two instances has evicted one transaction of the name and cached another. -/
theorem getTransaction_independent_iff {crypto : Crypto} {publicKey publicKey' : Text}
    {genesis : BlockStruct} {c c' : Blockchain} (hg : genesis.height = 1)
    (hc : Runs crypto publicKey genesis c) (hc' : Runs crypto publicKey' genesis c')
    (hchain : c.chain = c'.chain)
    (hcopy : ∀ height b, c.mapBlocks.get? height = some b → c.dbBlockchain.get? height = some b)
    (hcopy' : ∀ height b, c'.mapBlocks.get? height = some b →
      c'.dbBlockchain.get? height = some b) (origin ident : Text) :
    (c.getTransaction origin ident = c'.getTransaction origin ident
        ∧ c.getTransaction origin ident = searchDb origin ident c.chain
        ∧ (c.getTransaction origin ident = .error notFound
          ↔ ∀ b ∈ c.chain, ¬ Carries origin ident b))
      ↔ ¬ Repeated c origin ident ∧ ¬ Repeated c' origin ident := by
  have hiff := (hc.indexed hg).getTransaction_eq_iff hcopy origin ident
  have hiff' := (hc'.indexed hg).getTransaction_eq_iff hcopy' origin ident
  have herror := (hc.indexed hg).getTransaction_eq_error_iff hcopy origin ident
  rw [← hchain] at hiff'
  constructor
  · intro h
    obtain ⟨hsame, hfull, -⟩ := h
    exact ⟨hiff.mp hfull, hiff'.mp (hsame ▸ hfull)⟩
  · intro h
    have hfull := hiff.mpr h.1
    have hfull' := hiff'.mpr h.2
    exact ⟨hfull.trans hfull'.symm, hfull, herror⟩

/-- Two blocks have left the cache of one of two instances; the lookup of the
transaction of the genesis block finds the same in both. -/
theorem getTransaction_independent_of_sample :
    (grown 100 101).mapBlocks.size + 2 = (grown 100 101).height
      ∧ (grown 100 101).getTransaction (zeros 43) ['g', 'e', 'n', 'e', 's', 'i', 's']
        = (grown 1000 101).getTransaction (zeros 43) ['g', 'e', 'n', 'e', 's', 'i', 's'] := by
  have hgrown := Grown.of_start start_startWith 101 (by omega)
  have hwide := Grown.of_start start_startWith_wide 101 (by omega)
  have hsize := (hgrown.runs.indexed height_sampleGenesis).caches.window.size_eq
  refine ⟨?_, ((getTransaction_independent_iff height_sampleGenesis hgrown.runs hwide.runs
    (hgrown.chain.trans hwide.chain.symm) hgrown.agrees.cached hwide.agrees.cached (zeros 43)
    ['g', 'e', 'n', 'e', 's', 'i', 's']).mpr ⟨?_, ?_⟩).1⟩
  · rw [hsize, hgrown.height, hgrown.maxBlocks]
    rfl
  -- the data blocks have transactions of another name
  · rintro ⟨-, b, hb, t, ht, -, hident⟩
    rw [hgrown.height, hgrown.maxBlocks, hgrown.chain] at hb
    have hmem : b ∈ (List.range 101).map dataBlock := List.mem_of_mem_drop hb
    obtain ⟨k, -, rfl⟩ := List.mem_map.mp hmem
    obtain rfl := List.mem_singleton.mp ht
    have hdiffer : ['t'] ≠ ['g', 'e', 'n', 'e', 's', 'i', 's'] := by decide
    exact hdiffer hident
  · rw [Repeated, hwide.height, hwide.maxBlocks]
    simp

/-- The search ends with the first block if that has the transaction. -/
theorem findTx_dataBlock (k : Nat) (bs : List BlockStruct) :
    findTx (keyOf 2) ['t'] (dataBlock k :: bs) = some (k + 2, dataTx k) := by
  have hfind : (dataBlock k).tx.find? (isNamed (keyOf 2) ['t']) = some (dataTx k) := by
    simp [dataBlock, dataTx, isNamed]
  rw [findTx, List.findSome?_cons, hfind]
  rfl

/-- **The cache decides the answer**: one chain of 102 blocks, and two sizes of
the cache. -/
theorem getTransaction_depends_on_cache :
    Runs dataCrypto (keyOf 0) sampleGenesis (grown 100 101)
      ∧ Runs dataCrypto (keyOf 0) sampleGenesis (grown 1000 101)
      ∧ (grown 100 101).chain = (grown 1000 101).chain
      ∧ (∀ height b, (grown 100 101).mapBlocks.get? height = some b →
        (grown 100 101).dbBlockchain.get? height = some b)
      ∧ (∀ height b, (grown 1000 101).mapBlocks.get? height = some b →
        (grown 1000 101).dbBlockchain.get? height = some b)
      ∧ (grown 100 101).getTransaction (keyOf 2) ['t'] = .ok (3, dataTx 1)
      ∧ (grown 1000 101).getTransaction (keyOf 2) ['t'] = .ok (2, dataTx 0) := by
  have hgrown := Grown.of_start start_startWith 101 (by omega)
  have hwide := Grown.of_start start_startWith_wide 101 (by omega)
  have hdata : ∀ m n, (List.range' m (n + 1)).map dataBlock
      = dataBlock m :: (List.range' (m + 1) n).map dataBlock := fun m n => by
    rw [List.range'_succ, List.map_cons]
  have hgenesis : findTx (keyOf 2) ['t'] [sampleGenesis] = none := by decide +kernel
  refine ⟨hgrown.runs, hwide.runs, hgrown.chain.trans hwide.chain.symm, hgrown.agrees.cached,
    hwide.agrees.cached, ?_, ?_⟩
  -- two of the blocks have left the smaller cache
  · have hvalues := (hgrown.runs.indexed height_sampleGenesis).values_eq_drop hgrown.agrees.cached
    rw [hgrown.height, hgrown.maxBlocks, hgrown.chain, List.range_eq_range', hdata 0 100,
      hdata 1 99] at hvalues
    change _ = dataBlock 1 :: _ at hvalues
    rw [getTransaction, hvalues, findTx_dataBlock]
  · have hvalues := (hwide.runs.indexed height_sampleGenesis).values_eq_drop hwide.agrees.cached
    rw [hwide.height, hwide.maxBlocks, hwide.chain, List.range_eq_range', hdata 0 100] at hvalues
    change _ = [sampleGenesis] ++ dataBlock 0 :: _ at hvalues
    rw [getTransaction, hvalues, findTx_append, hgenesis, findTx_dataBlock]
    rfl

end Blockchain

end Divachain
