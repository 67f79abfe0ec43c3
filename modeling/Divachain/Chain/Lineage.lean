/-
  Divachain.Chain.Lineage — what the hash of one block says about the rest.

  The hash of a block covers its previous hash, its transactions and its height.
  So nobody can present another history under a hash that is known: two chains,
  from whatever genesis blocks, that carry one hash anywhere carry it at one
  height, and agree up to there in everything but the votes.  This is what the
  test of `syncWithNetwork` rests on, which compares the latest hashes only.

  Main results:
    * `hash_commits` — one hash, one history and one ledger;
    * `latest_hash_iff` — the latest hashes are equal exactly if the chains are.
-/
import Divachain.Lib.HashChain
import Divachain.Chain.Cache
import Divachain.Chain.Agreement
import Divachain.Net.Format

namespace Divachain

open DataKit

/-! ## §1. Hashes bind blocks. -/

/-- **Equal hashed texts come from one block**, votes apart. -/
theorem hashText_unique {v w h k : Nat} {p q : Text} {l m : List TransactionStruct}
    (hlne : l ≠ []) (hmne : m ≠ []) (hl : ∀ t ∈ l, t.WellKeyed) (hm : ∀ t ∈ m, t.WellKeyed)
    (heq : hashText v p l h = hashText w q m k) : v = w ∧ p = q ∧ l = m ∧ h = k := by
  obtain ⟨hheight, hversion, hbody⟩ := hashText_split heq
  -- The transactions are told apart from the right: the previous hash may be any text.
  obtain ⟨hprevious, hmembers⟩ := join_unique delimited_txValue Untyped.clears_txValue
    (Untyped.lettered_members hlne hl) (Untyped.lettered_members hmne hm) hbody
  exact ⟨hversion, hprevious, TransactionStruct.list_eq_of_members hl hm hmembers, hheight⟩

namespace Blockchain

variable {crypto : Crypto} {genesis genesis' : BlockStruct}

/-- The block carries the hash of its text, and has transactions as the schema
wants them. -/
structure Sealed (crypto : Crypto) (b : BlockStruct) : Prop where
  hashed : Hashed crypto b
  nonempty : b.tx ≠ []
  wellKeyed : ∀ t ∈ b.tx, t.WellKeyed

/-- A genesis block as `genesis` reads it from a file. -/
structure Founding (crypto : Crypto) (genesis : BlockStruct) : Prop where
  height : genesis.height = 1
  whole : Sealed crypto genesis

/-- What a file with these transactions is read as. -/
theorem founding_genesis {file : BlockStruct} (hheight : file.height = 1) (hne : file.tx ≠ [])
    (hkeys : ∀ t ∈ file.tx, t.WellKeyed) : Founding crypto (Blockchain.genesis crypto file) :=
  ⟨hheight, rfl, hne, hkeys⟩

theorem Sealed.unique (hinj : crypto.HashInjective) {b c : BlockStruct} (hb : Sealed crypto b)
    (hc : Sealed crypto c) (hhash : b.hash = c.hash) : b.withoutVotes = c.withoutVotes := by
  have htext := hinj ((hb.hashed.trans hhash).trans hc.hashed.symm)
  obtain ⟨hversion, hprevious, htx, hheight⟩ :=
    hashText_unique hb.nonempty hc.nonempty hb.wellKeyed hc.wellKeyed htext
  rw [BlockStruct.withoutVotes, BlockStruct.withoutVotes, hversion, hprevious, hhash, htx, hheight]

/-! ## §2. Validated sequences are hash chains. -/

theorem Validated.sealed (hg : Sealed crypto genesis) {bs : List BlockStruct}
    (h : Validated crypto genesis bs) : ∀ b ∈ bs, Sealed crypto b := by
  induction h with
  | genesis =>
      intro b hb
      obtain rfl := List.mem_singleton.mp hb
      exact hg
  | snoc hbs hlast hheight hprev hvalid ih =>
      intro b hb
      rcases List.mem_append.mp hb with hb | hb
      · exact ih b hb
      · obtain rfl := List.mem_singleton.mp hb
        have hwf := (validateBlock_true_iff.mp hvalid).1
        exact ⟨hwf.hash, hwf.nonempty, hwf.wellKeyed⟩

theorem Validated.linked {bs : List BlockStruct} (h : Validated crypto genesis bs) :
    Linked BlockStruct.hash BlockStruct.previousHash bs := by
  induction h with
  | genesis => exact List.isChain_singleton _
  | snoc hbs hlast hheight hprev hvalid ih =>
      refine List.isChain_append.mpr ⟨ih, List.isChain_singleton _, ?_⟩
      intro a ha b hb
      obtain rfl := Option.some.inj (hlast.symm.trans ha)
      obtain rfl := Option.some.inj hb
      exact hprev

/-- Among blocks that are sealed, hashes bind. -/
theorem binding_of_sealed (hinj : crypto.HashInjective) {bs cs : List BlockStruct}
    (hbs : ∀ b ∈ bs, Sealed crypto b) (hcs : ∀ c ∈ cs, Sealed crypto c) :
    Binding BlockStruct.hash BlockStruct.previousHash BlockStruct.withoutVotes bs cs := by
  have hunique : ∀ b ∈ bs, ∀ c ∈ cs, b.hash = c.hash → b.withoutVotes = c.withoutVotes :=
    fun b hb c hc hhash => (hbs b hb).unique hinj (hcs c hc) hhash
  refine ⟨hunique, ?_⟩
  intro b hb c hc hhash
  have hprevious := congrArg BlockStruct.previousHash (hunique b hb c hc hhash)
  exact hprevious

/-! ## §3. Two chains. -/

section

variable {publicKey publicKey' : Text} {c c' : Blockchain}

/-- The blocks of a run: sealed, linked, and each at its height. -/
structure Lineage (crypto : Crypto) (bs : List BlockStruct) : Prop where
  whole : ∀ b ∈ bs, Sealed crypto b
  linked : Linked BlockStruct.hash BlockStruct.previousHash bs
  height : ∀ k b, bs[k]? = some b → b.height = k + 1

theorem Runs.lineage (hg : Founding crypto genesis) (hc : Runs crypto publicKey genesis c) :
    Lineage crypto c.chain := by
  obtain ⟨hvalid, -⟩ := hc.holds hg.height.ge
  refine ⟨hvalid.sealed hg.whole, hvalid.linked, ?_⟩
  intro k b hb
  have hheight := hvalid.height_eq hb
  rw [hg.height] at hheight
  omega

/-- **One hash, one height and one history.** -/
theorem Lineage.history (hinj : crypto.HashInjective) {bs cs : List BlockStruct}
    (hbs : Lineage crypto bs) (hcs : Lineage crypto cs) {j k : Nat} {b d : BlockStruct}
    (hb : bs[j]? = some b) (hd : cs[k]? = some d) (hhash : b.hash = d.hash) :
    j = k ∧ (bs.take (j + 1)).map BlockStruct.withoutVotes
      = (cs.take (k + 1)).map BlockStruct.withoutVotes := by
  have hbind := binding_of_sealed hinj hbs.whole hcs.whole
  have hcontent := hbind.content b (List.mem_of_getElem? hb) d (List.mem_of_getElem? hd) hhash
  -- the height is under the hash, so the places are one
  have hjk : j = k := by
    have hheight := congrArg BlockStruct.height hcontent
    change b.height = d.height at hheight
    have hj := hbs.height j b hb
    have hk := hcs.height k d hd
    omega
  subst hjk
  exact ⟨rfl, hbs.linked.history hcs.linked hbind hb hd hhash⟩

/-- The same for blocks that are somewhere in the two sequences. -/
theorem Lineage.commits (hinj : crypto.HashInjective) {bs cs : List BlockStruct}
    (hbs : Lineage crypto bs) (hcs : Lineage crypto cs) {b d : BlockStruct} (hb : b ∈ bs)
    (hd : d ∈ cs) (hhash : b.hash = d.hash) :
    b.height = d.height ∧ (bs.take b.height).map BlockStruct.withoutVotes
      = (cs.take d.height).map BlockStruct.withoutVotes := by
  obtain ⟨j, hj⟩ := List.mem_iff_getElem?.mp hb
  obtain ⟨k, hk⟩ := List.mem_iff_getElem?.mp hd
  obtain ⟨rfl, hhistory⟩ := hbs.history hinj hcs hj hk hhash
  rw [hbs.height j b hj, hcs.height j d hk]
  exact ⟨rfl, hhistory⟩

/-- **A block hash commits to the chain below it**: whoever holds a block with
this hash, over whatever genesis block, holds the same blocks up to its height,
votes apart, and had the same ledger there. -/
theorem hash_commits (hinj : crypto.HashInjective) (hg : Founding crypto genesis)
    (hg' : Founding crypto genesis') (hc : Runs crypto publicKey genesis c)
    (hc' : Runs crypto publicKey' genesis' c') {b d : BlockStruct} (hb : b ∈ c.chain)
    (hd : d ∈ c'.chain) (hhash : b.hash = d.hash) :
    b.height = d.height
      ∧ (c.chain.take b.height).map BlockStruct.withoutVotes
        = (c'.chain.take d.height).map BlockStruct.withoutVotes
      ∧ Ledger.fresh.applyBlocks (c.chain.take b.height)
        = Ledger.fresh.applyBlocks (c'.chain.take d.height) := by
  obtain ⟨hheight, hhistory⟩ := (hc.lineage hg).commits hinj (hc'.lineage hg') hb hd hhash
  exact ⟨hheight, hhistory, applyBlocks_congr_votes hhistory⟩

theorem founding_sampleGenesis : Founding sampleCrypto sampleGenesis := by
  refine founding_genesis rfl (List.cons_ne_nil _ _) ?_
  intro t ht
  obtain rfl := List.mem_singleton.mp ht
  refine ⟨.refl _, ?_⟩
  intro c hc
  obtain ⟨i, -, rfl⟩ := List.mem_map.mp hc
  exact .refl _

/-- Two nodes with different votes for one block, of which one has been restarted. -/
theorem hash_commits_of_sample :
    ((sampleLive 0 [0, 1]).chain.take 2).map BlockStruct.withoutVotes
      = ((sampleReplayed 1 [1, 2]).chain.take 2).map BlockStruct.withoutVotes := by
  have hadd : (sampleStart 0).add sampleCrypto (sampleBlock [0, 1]) true
      = .added (sampleLive 0 [0, 1]) := by decide +kernel
  have hstart' : (fresh (keyOf 1) 100).reset (fun _ => true) sampleGenesis
      = some (sampleStart 1) := by decide +kernel
  have hadd' : (sampleStart 1).add sampleCrypto (sampleBlock [1, 2]) true
      = .added (sampleLive 1 [1, 2]) := by decide +kernel
  have hrestart : (sampleLive 1 [1, 2]).restart (fun _ => false) 1
      = some (sampleReplayed 1 [1, 2]) := by decide +kernel
  exact (hash_commits (tableCrypto_hashInjective _ _) founding_sampleGenesis
    founding_sampleGenesis ((Runs.start start_sampleStart).add hadd)
    (((Runs.start hstart').add hadd').restart hrestart) (b := sampleBlock [0, 1])
    (d := sampleBlock [1, 2]) (by decide +kernel) (by decide +kernel) rfl).2.1

/-- The last stored block has the latest hash and the height of the chain. -/
theorem Runs.last (hg : Founding crypto genesis) (hc : Runs crypto publicKey genesis c) :
    ∃ b ∈ c.chain, c.latestBlock.map BlockStruct.hash = some b.hash
      ∧ c.chain.take b.height = c.chain := by
  obtain ⟨-, hholds⟩ := hc.holds hg.height.ge
  cases hlast : c.chain.getLast? with
  | none =>
      have hheight := hholds.height
      rw [hlast] at hheight
      exact nomatch hheight
  | some b =>
      have hlatest := hholds.latest
      rw [hlast] at hlatest
      refine ⟨b, List.mem_of_getLast? hlast, hlatest, ?_⟩
      rw [List.getLast?_eq_getElem?] at hlast
      have hpos : 0 < c.chain.length := by
        obtain ⟨hlt, -⟩ := List.getElem?_eq_some_iff.mp hlast
        omega
      rw [(hc.lineage hg).height _ b hlast, Nat.sub_add_cancel hpos, List.take_length]

/-- **The latest hashes are equal exactly if the chains are**, votes apart. -/
theorem latest_hash_iff (hinj : crypto.HashInjective) (hg : Founding crypto genesis)
    (hg' : Founding crypto genesis') (hc : Runs crypto publicKey genesis c)
    (hc' : Runs crypto publicKey' genesis' c') :
    c.latestBlock.map BlockStruct.hash = c'.latestBlock.map BlockStruct.hash
      ↔ c.chain.map BlockStruct.withoutVotes = c'.chain.map BlockStruct.withoutVotes := by
  obtain ⟨b, hb, hlatest, htake⟩ := hc.last hg
  obtain ⟨d, hd, hlatest', htake'⟩ := hc'.last hg'
  constructor
  · intro heq
    rw [hlatest, hlatest', Option.some.injEq] at heq
    obtain ⟨-, hhistory⟩ := (hc.lineage hg).commits hinj (hc'.lineage hg') hb hd heq
    rwa [htake, htake'] at hhistory
  · intro heq
    obtain ⟨-, hholds⟩ := hc.holds hg.height.ge
    obtain ⟨-, hholds'⟩ := hc'.holds hg'.height.ge
    have hlast := congrArg (fun l => (List.getLast? l).map BlockStruct.hash) heq
    rw [List.getLast?_map, List.getLast?_map, Option.map_map, Option.map_map] at hlast
    rw [hholds.latest, hholds'.latest]
    exact hlast

end

end Blockchain

end Divachain
