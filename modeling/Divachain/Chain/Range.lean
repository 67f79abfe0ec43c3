/-
  Divachain.Chain.Range — reading a range of blocks.

  `getRange` adjusts its two arguments one after the other and then reads
  either a slice of the cache, by position, or a range of the database, by
  key.  The positions are right because the cache is a window: it has the
  newest blocks, without a gap, and as many as fit.  `Indexed` is that
  invariant; every block and every restart keeps it.

  Main results:
    * `rangeOf_eq` — what the adjustments amount to;
    * `getRange_withoutTx` — the blocks of a range, up to the stakes that have
      been written into cached commands;
    * `getRange_eq` — `getRange` is the plain query over the chain.
-/
import Divachain.Lib.Window
import Divachain.Chain.Run

namespace Divachain

open DataKit

/-! ## §1. `getRange`. -/

/-- An index of `Array.slice`: a negative one counts from the end. -/
def sliceIndex (length : Nat) (i : Int) : Nat :=
  if i < 0 then (length + i).toNat else min i.toNat length

/-- `l.slice(start, stop)`. -/
def slice {α : Type} (l : List α) (start stop : Int) : List α :=
  (l.take (sliceIndex l.length stop)).drop (sliceIndex l.length start)

theorem slice_natCast {α : Type} (l : List α) (i j : Nat) (hj : j ≤ l.length) :
    slice l i j = (l.take j).drop i := by
  have hstop : sliceIndex l.length (j : Int) = j := by
    unfold sliceIndex
    rw [if_neg (by omega)]
    omega
  have hstart : sliceIndex l.length (i : Int) = min i l.length := by
    unfold sliceIndex
    rw [if_neg (by omega)]
    omega
  rw [slice, hstop, hstart]
  by_cases hi : i ≤ l.length
  · rw [min_eq_left hi]
  · rw [List.drop_eq_nil_of_le, List.drop_eq_nil_of_le]
    · rw [List.length_take]
      omega
    · rw [List.length_take]
      omega

namespace Blockchain

/-- The arguments of `getRange`, as it adjusts them. -/
def rangeOf (maxQuerySize : Nat) (c : Blockchain) (gte lte : Int) : Int × Int :=
  let height : Int := c.height
  let gte := if gte ≤ height then (if gte < 1 then 1 else gte) else height
  let lte := if lte < 0 then gte else if lte < 1 then height else lte
  let lte := if lte ≤ height then lte else height
  let gte := if 0 < lte - gte then gte else lte
  let gte := if (maxQuerySize : Int) ≤ lte - gte then lte - maxQuerySize + 1 else gte
  (gte, lte)

def getRange (maxQuerySize : Nat) (c : Blockchain) (gte lte : Int) : List BlockStruct :=
  let r := c.rangeOf maxQuerySize gte lte
  -- Both ends are cached: a slice of the cache, by position.
  if c.mapBlocks.has r.1.toNat ∧ c.mapBlocks.has r.2.toNat then
    let start := (c.mapBlocks.size : Int) - c.height + r.1 - 1
    slice c.mapBlocks.values start (start + r.2 - r.1 + 1)
  else
    (c.dbBlockchain.entries.filter fun e => decide (r.1 ≤ e.1) && decide ((e.1 : Int) ≤ r.2)).map
      Prod.snd

/-! ## §2. The plain query. -/

/-- A height of the chain, or the end of it that is nearer. -/
def clampHeight (height : Nat) (x : Int) : Int := max 1 (min x height)

/-- The last height of a query. -/
def queryHi (height : Nat) (gte lte : Int) : Int :=
  clampHeight height (if lte < 0 then gte else if lte = 0 then height else lte)

/-- The first height of a query: the limit counts from its end. -/
def queryLo (maxQuerySize height : Nat) (gte lte : Int) : Int :=
  let hi := queryHi height gte lte
  max (min (clampHeight height gte) hi) (hi - maxQuerySize + 1)

/-- The blocks between two heights, both included, as they stand in the chain. -/
def between (bs : List BlockStruct) (lo hi : Int) : List BlockStruct :=
  bs.filter fun b => decide (lo ≤ b.height) && decide ((b.height : Int) ≤ hi)

/-- **What the adjustments amount to.** -/
theorem rangeOf_eq (maxQuerySize : Nat) {c : Blockchain} (hpos : 1 ≤ c.height) (gte lte : Int) :
    c.rangeOf maxQuerySize gte lte
      = (queryLo maxQuerySize c.height gte lte, queryHi c.height gte lte) := by
  have hhi : (c.rangeOf maxQuerySize gte lte).2 = queryHi c.height gte lte := by
    simp only [rangeOf, queryHi, clampHeight]
    split_ifs <;> omega
  refine Prod.ext ?_ hhi
  show (c.rangeOf maxQuerySize gte lte).1 = queryLo maxQuerySize c.height gte lte
  unfold queryLo
  rw [← hhi]
  simp only [rangeOf, clampHeight]
  split_ifs <;> omega

/-- The ends of a query lie in the chain, unless the limit is 0. -/
theorem queryHi_bounds {height : Nat} (hpos : 1 ≤ height) (gte lte : Int) :
    1 ≤ queryHi height gte lte ∧ queryHi height gte lte ≤ height := by
  unfold queryHi clampHeight
  omega

theorem queryLo_bounds (maxQuerySize : Nat) {height : Nat} (hpos : 1 ≤ height) (gte lte : Int) :
    1 ≤ queryLo maxQuerySize height gte lte
      ∧ queryLo maxQuerySize height gte lte ≤ queryHi height gte lte + 1 := by
  have hhi := queryHi_bounds hpos gte lte
  unfold queryLo clampHeight
  dsimp only
  omega

/-! ## §3. The cache is a window. -/

/-- **The cache has the last blocks of a chain**, as many of them as fit, up to
the stakes written into their commands. -/
structure Caches (bs : List BlockStruct) (c : Blockchain) : Prop where
  height_eq : c.height = bs.length
  window : Sliding c.maxBlocks c.height c.mapBlocks
  copies : c.mapBlocks.values.map BlockStruct.withoutTx
    = (bs.drop (c.height - c.mapBlocks.size)).map BlockStruct.withoutTx

theorem caches_empty {c : Blockchain} (hheight : c.height = 0) (hcache : c.mapBlocks = .empty) :
    Caches [] c := by
  refine ⟨hheight, ?_, ?_⟩
  · rw [hheight, hcache]
    exact Sliding.empty c.maxBlocks
  · rw [hcache, List.drop_nil]
    rfl

/-- The next block moves the window on. -/
theorem Caches.updateCache {bs : List BlockStruct} {c c' : Blockchain} {b b' : BlockStruct}
    {answer : Bool} (h : Caches bs c) (hcache : c.updateCache answer b' = some c')
    (hnext : b'.height = bs.length + 1) (hcopy : b'.withoutTx = b.withoutTx) :
    Caches (bs ++ [b]) c' := by
  have hspec := updateCache_spec hcache
  have hheight : b'.height = c.height + 1 := by rw [hnext, h.height_eq]
  have hmap : c'.mapBlocks = push c.maxBlocks c.mapBlocks (c.height + 1) b' := by
    rw [hspec.mapBlocks, ← hheight]
    rfl
  have hwindow : Sliding c'.maxBlocks c'.height c'.mapBlocks := by
    rw [hmap, hspec.maxBlocks, hspec.height, hheight]
    exact h.window.push b'
  refine ⟨?_, hwindow, ?_⟩
  · rw [hspec.height, hnext, List.length_append, List.length_singleton]
  · have hsize := h.window.size_eq
    have hsize' := hwindow.size_eq
    rw [hspec.maxBlocks, hspec.height, hheight] at hsize'
    have hbs := h.height_eq
    have hvalues : c'.mapBlocks.values = (c.mapBlocks.values ++ [b']).drop
        (c.mapBlocks.size + 1 - c'.mapBlocks.size) := by
      rw [hsize, hsize', hmap, OrdMap.values, h.window.entries_push b', List.map_drop,
        List.map_append]
      rfl
    -- what has gone from the cache has been passed over in the chain as well
    have hstart : c'.height - c'.mapBlocks.size
        = c.height - c.mapBlocks.size + (c.mapBlocks.size + 1 - c'.mapBlocks.size) := by
      rw [hspec.height, hheight]
      omega
    have hkept : (bs ++ [b]).drop (c.height - c.mapBlocks.size)
        = bs.drop (c.height - c.mapBlocks.size) ++ [b] :=
      List.drop_append_of_le_length (by omega)
    rw [hvalues, hstart, ← List.drop_drop, hkept, List.map_drop, List.map_drop, List.map_append,
      List.map_append, h.copies, List.map_singleton, List.map_singleton, hcopy]

/-- The ledger plays no part in it. -/
theorem Caches.setLedger {bs : List BlockStruct} {c : Blockchain} (h : Caches bs c) (l : Ledger) :
    Caches bs (c.setLedger l) :=
  ⟨h.height_eq, h.window, h.copies⟩

theorem Caches.replay {answers : Nat → Bool} {bs : List BlockStruct} :
    ∀ {c c' : Blockchain} {before : List BlockStruct}, Caches before c →
      bs.map BlockStruct.height = List.range' (before.length + 1) bs.length →
        c.replay answers bs = some c' → Caches (before ++ bs) c' := by
  induction bs with
  | nil =>
    intro c c' before h _ hreplay
    obtain rfl := Option.some.inj hreplay
    rw [List.append_nil]
    exact h
  | cons b bs ih =>
    intro c c' before h hheights hreplay
    rw [List.map_cons, List.length_cons, List.range'_succ, List.cons.injEq] at hheights
    obtain ⟨hheight, hrest⟩ := hheights
    unfold Blockchain.replay at hreplay
    dsimp only at hreplay
    split at hreplay
    next d hcache =>
      have hd : Caches (before ++ [b]) d := h.updateCache hcache hheight rfl
      -- the block belongs to those that have been replayed
      have hall := ih (hd.setLedger (c.toLedger.processState b.tx).1) (by
        rw [List.length_append, List.length_singleton]
        exact hrest) hreplay
      rw [List.append_assoc] at hall
      exact hall
    next => exact nomatch hreplay

/-- **Cache and database are indexed by height**: the database has the chain
under its heights from 1 on, and the cache the last part of it. -/
structure Indexed (c : Blockchain) : Prop where
  caches : Caches c.chain c
  numbered : Numbered 1 c.dbBlockchain.entries
  keyed : ∀ e ∈ c.dbBlockchain.entries, e.2.height = e.1
  pos : 1 ≤ c.height

theorem Indexed.length_chain {c : Blockchain} (h : Indexed c) : c.chain.length = c.height :=
  h.caches.height_eq.symm

theorem Indexed.length_entries {c : Blockchain} (h : Indexed c) :
    c.dbBlockchain.entries.length = c.height := by
  rw [← h.length_chain, chain, Store.values, List.length_map]

/-- **The heights of a chain count up from 1.** -/
theorem Indexed.heights {c : Blockchain} (h : Indexed c) :
    c.chain.map BlockStruct.height = List.range' 1 c.chain.length := by
  have hkeys : c.chain.map BlockStruct.height = c.dbBlockchain.entries.map Prod.fst := by
    rw [chain, Store.values, List.map_map]
    exact List.map_congr_left h.keyed
  rw [hkeys, h.numbered, h.length_entries, h.length_chain]

theorem indexed_start {publicKey : Text} {maxBlocks : Nat} {answers : Nat → Bool}
    {genesis : BlockStruct} {c : Blockchain} (hg : genesis.height = 1)
    (h : (fresh publicKey maxBlocks).reset answers genesis = some c) : Indexed c := by
  have hspec := replay_spec h
  have hdb : c.dbBlockchain = Store.empty.put 1 genesis := hspec.dbBlockchain
  have hchain : c.chain = [genesis] := by
    rw [chain, hdb]
    rfl
  have hentries : c.dbBlockchain.entries = [(1, genesis)] := by
    rw [hdb]
    rfl
  refine ⟨?_, ?_, ?_, ?_⟩
  · rw [hchain]
    exact Caches.replay (caches_empty rfl rfl) (congrArg (fun n => [n]) hg) h
  · rw [hentries]
    rfl
  · intro e he
    rw [hentries] at he
    rw [List.mem_singleton.mp he]
    exact hg
  · rw [hspec.height]
    exact hg.ge

theorem Indexed.add {crypto : Crypto} {c c' : Blockchain} {b : BlockStruct} {answer : Bool}
    (hc : Indexed c) (h : c.add crypto b answer = .added c') : Indexed c' := by
  have hspec := add_spec crypto h
  obtain ⟨hnext, -, -, -⟩ := (accepts_iff crypto).mp hspec.accepts
  have hlength := hc.length_entries
  have habove : ∀ e ∈ c.dbBlockchain.entries, e.1 < b.height := by
    intro e he
    have hkey := (hc.numbered.mem_keys_iff.mp (List.mem_map_of_mem he)).2
    omega
  have hentries : c'.dbBlockchain.entries = c.dbBlockchain.entries ++ [(b.height, b)] := by
    rw [hspec.dbBlockchain]
    exact Store.entries_put_above _ _ _ habove
  have hchain : c'.chain = c.chain ++ [b] := by
    rw [chain, Store.values, hentries, List.map_append]
    rfl
  refine ⟨?_, ?_, ?_, ?_⟩
  -- the cache is updated once ledger and database are, and neither matters to it
  · rw [hchain]
    unfold Blockchain.add at h
    rw [if_pos hspec.accepts] at h
    dsimp only at h
    split at h
    next d hcache =>
      obtain rfl : d = c' := AddResult.added.inj h
      have hput : Caches c.chain
          ((c.putBlock b.height b).setLedger (c.toLedger.processState b.tx).1) :=
        ⟨hc.caches.height_eq, hc.caches.window, hc.caches.copies⟩
      have hheight : b.height = c.chain.length + 1 := by
        rw [hc.length_chain]
        exact hnext.symm
      exact hput.updateCache hcache hheight rfl
    next => cases h
  · have hconcat := hc.numbered.concat b
    have hkey : 1 + c.dbBlockchain.entries.length = b.height := by omega
    rw [hkey] at hconcat
    rw [hentries]
    exact hconcat
  · intro e he
    rw [hentries] at he
    rcases List.mem_append.mp he with he | he
    · exact hc.keyed e he
    · rw [List.mem_singleton.mp he]
  · rw [hspec.height]
    omega

/-- A new process builds its own window over the same database. -/
theorem Indexed.restart {c c' : Blockchain} {answers : Nat → Bool} {maxBlocks : Nat}
    (hc : Indexed c) (h : c.restart answers maxBlocks = some c') : Indexed c' := by
  have hspec := replay_spec h
  have hdb : c'.dbBlockchain = c.dbBlockchain := hspec.dbBlockchain
  have hchain : c'.chain = c.chain := congrArg Store.values hdb
  have hcaches : Caches ([] ++ c.chain) c' :=
    Caches.replay (caches_empty rfl rfl) (by rw [hc.heights]; rfl) h
  rw [List.nil_append] at hcaches
  refine ⟨hchain ▸ hcaches, ?_, ?_, ?_⟩
  · rw [hdb]
    exact hc.numbered
  · rw [hdb]
    exact hc.keyed
  · rw [hcaches.height_eq, hc.length_chain]
    exact hc.pos

/-- **Every run keeps cache and database indexed.** -/
theorem Runs.indexed {crypto : Crypto} {publicKey : Text} {genesis : BlockStruct} {c : Blockchain}
    (hg : genesis.height = 1) (h : Runs crypto publicKey genesis c) : Indexed c := by
  induction h with
  | start h => exact indexed_start hg h
  | add _ h ih => exact ih.add h
  | restart _ h ih => exact ih.restart h

/-! ## §4. `getRange` is the plain query. -/

/-- The blocks between two heights stand in one piece. -/
theorem Indexed.between_eq {c : Blockchain} (h : Indexed c) {lo hi : Nat} (hlo : 1 ≤ lo) :
    between c.chain lo hi = (c.chain.take hi).drop (lo - 1) := by
  have hfilter : (c.dbBlockchain.entries.filter fun e => decide (lo ≤ e.1) && decide (e.1 ≤ hi)).map
      Prod.snd = ((c.dbBlockchain.entries.map Prod.snd).take (hi + 1 - 1)).drop (lo - 1) :=
    h.numbered.filter_eq hlo
  rw [Nat.add_sub_cancel] at hfilter
  rw [chain, Store.values, ← hfilter, between, List.filter_map]
  congr 1
  refine List.filter_congr ?_
  intro e he
  simp [h.keyed e he]

/-- The database branch reads them one by one. -/
theorem Indexed.query_eq {c : Blockchain} (h : Indexed c) (lo hi : Int) :
    (c.dbBlockchain.entries.filter fun e => decide (lo ≤ e.1) && decide ((e.1 : Int) ≤ hi)).map
        Prod.snd
      = between c.chain lo hi := by
  rw [chain, Store.values, between, List.filter_map]
  congr 1
  refine List.filter_congr ?_
  intro e he
  simp [h.keyed e he]

/-- **A range is read as the chain has it**, in everything in which the cache
agrees with the chain. -/
theorem Indexed.getRange_map {α : Type} {c : Blockchain} (h : Indexed c) {f : BlockStruct → α}
    (hcopies : c.mapBlocks.values.map f = (c.chain.drop (c.height - c.mapBlocks.size)).map f)
    (maxQuerySize : Nat) (gte lte : Int) :
    (c.getRange maxQuerySize gte lte).map f
      = (between c.chain (queryLo maxQuerySize c.height gte lte)
          (queryHi c.height gte lte)).map f := by
  have hhi := queryHi_bounds h.pos gte lte
  have hlo := queryLo_bounds maxQuerySize h.pos gte lte
  unfold getRange
  rw [rangeOf_eq maxQuerySize h.pos]
  generalize queryLo maxQuerySize c.height gte lte = lo at hlo
  generalize queryHi c.height gte lte = hi at hhi hlo
  obtain ⟨lo, rfl⟩ := Int.eq_ofNat_of_zero_le (show 0 ≤ lo by omega)
  obtain ⟨hi, rfl⟩ := Int.eq_ofNat_of_zero_le (show 0 ≤ hi by omega)
  dsimp only
  rw [Int.toNat_natCast, Int.toNat_natCast]
  by_cases hcached : c.mapBlocks.has lo = true ∧ c.mapBlocks.has hi = true
  · rw [if_pos hcached, h.between_eq (by omega)]
    obtain ⟨hfirst, -⟩ := h.caches.window.has_iff.mp hcached.1
    obtain ⟨hfirst', htop⟩ := h.caches.window.has_iff.mp hcached.2
    have hsize := h.caches.window.size_eq
    have hlength : c.mapBlocks.values.length = c.mapBlocks.size := List.length_map _
    -- positions in the cache count from its first height
    have hstart : (c.mapBlocks.size : Int) - c.height + lo - 1
        = ((lo - (c.height + 1 - c.mapBlocks.size) : Nat) : Int) := by omega
    have hstop : ((lo - (c.height + 1 - c.mapBlocks.size) : Nat) : Int) + hi - lo + 1
        = ((hi + 1 - (c.height + 1 - c.mapBlocks.size) : Nat) : Int) := by omega
    rw [hstart, hstop, slice_natCast _ _ _ (by omega), List.map_drop, List.map_take, hcopies,
      List.map_drop, List.take_drop, List.drop_drop, List.map_drop, List.map_take]
    have hend : c.height - c.mapBlocks.size + (hi + 1 - (c.height + 1 - c.mapBlocks.size)) = hi := by
      omega
    have hbegin : c.height - c.mapBlocks.size + (lo - (c.height + 1 - c.mapBlocks.size)) = lo - 1 := by
      omega
    rw [hend, hbegin]
  · rw [if_neg hcached, h.query_eq]

/-- **The blocks of a range**, up to the stakes written into cached commands. -/
theorem Indexed.getRange_withoutTx {c : Blockchain} (h : Indexed c) (maxQuerySize : Nat)
    (gte lte : Int) :
    (c.getRange maxQuerySize gte lte).map BlockStruct.withoutTx
      = (between c.chain (queryLo maxQuerySize c.height gte lte)
          (queryHi c.height gte lte)).map BlockStruct.withoutTx :=
  h.getRange_map h.caches.copies maxQuerySize gte lte

/-- Every height of a query is that of a block. -/
theorem Indexed.heights_between {c : Blockchain} (h : Indexed c) {lo hi : Nat} (hlo : 1 ≤ lo)
    (hhi : hi ≤ c.height) :
    (between c.chain lo hi).map BlockStruct.height = List.range' lo (hi + 1 - lo) := by
  have hlength := h.length_chain
  rw [h.between_eq hlo, List.map_drop, List.map_take, h.heights,
    List.take_range'_of_length_ge (by omega), List.drop_range', Nat.mul_one]
  congr 1
  · omega
  · omega

/-- Blocks without their transactions still have their heights. -/
theorem heights_congr {bs cs : List BlockStruct}
    (h : bs.map BlockStruct.withoutTx = cs.map BlockStruct.withoutTx) :
    bs.map BlockStruct.height = cs.map BlockStruct.height := by
  have hmap := congrArg (List.map BlockStruct.height) h
  rw [List.map_map, List.map_map] at hmap
  exact hmap

/-- **The heights of a range.** -/
theorem Indexed.heights_getRange {c : Blockchain} (h : Indexed c) (maxQuerySize : Nat)
    (gte lte : Int) :
    (c.getRange maxQuerySize gte lte).map BlockStruct.height
      = List.range' (queryLo maxQuerySize c.height gte lte).toNat
          (queryHi c.height gte lte + 1 - queryLo maxQuerySize c.height gte lte).toNat := by
  have hmap := heights_congr (h.getRange_withoutTx maxQuerySize gte lte)
  have hhi := queryHi_bounds h.pos gte lte
  have hlo := queryLo_bounds maxQuerySize h.pos gte lte
  rw [hmap]
  generalize queryLo maxQuerySize c.height gte lte = lo at hlo
  generalize queryHi c.height gte lte = hi at hhi hlo
  obtain ⟨lo, rfl⟩ := Int.eq_ofNat_of_zero_le (show 0 ≤ lo by omega)
  obtain ⟨hi, rfl⟩ := Int.eq_ofNat_of_zero_le (show 0 ≤ hi by omega)
  have hlength : ((hi : Int) + 1 - lo).toNat = hi + 1 - lo := by omega
  rw [Int.toNat_natCast, hlength]
  exact h.heights_between (by omega) (by omega)

/-- The cache is the last part of the chain if it has the stored blocks. -/
theorem Indexed.values_eq {c : Blockchain} (h : Indexed c)
    (hcopy : ∀ height b, c.mapBlocks.get? height = some b → c.dbBlockchain.get? height = some b) :
    c.mapBlocks.values = c.chain.drop (c.height - c.mapBlocks.size) := by
  have hsize := h.caches.window.size_eq
  have hlength := h.length_chain
  have hvalues : c.mapBlocks.values.length = c.mapBlocks.size := List.length_map _
  refine List.ext_getElem (by rw [hvalues, List.length_drop]; omega) ?_
  intro i hi hi'
  -- the same key on both sides
  have hkey : c.height + 1 - min c.height c.maxBlocks + i = 1 + (c.height - c.mapBlocks.size + i) := by
    omega
  have hcached : c.mapBlocks.get? (1 + (c.height - c.mapBlocks.size + i))
      = some (c.mapBlocks.values[i]) := by
    rw [← hkey, ← List.getElem?_eq_getElem hi]
    exact h.caches.window.numbered.lookup_eq i
  have hstored := hcopy _ _ hcached
  have hlookup := h.numbered.lookup_eq (c.height - c.mapBlocks.size + i)
  change c.dbBlockchain.get? _ = c.chain[_]? at hlookup
  rw [hlookup, List.getElem?_eq_some_iff] at hstored
  obtain ⟨_, heq⟩ := hstored
  rw [List.getElem_drop]
  exact heq.symm

/-- A query that reads the cache where it can is the one on the chain. -/
theorem Indexed.getRange_between {c : Blockchain} (h : Indexed c)
    (hcopy : ∀ height b, c.mapBlocks.get? height = some b → c.dbBlockchain.get? height = some b)
    (maxQuerySize : Nat) (gte lte : Int) :
    c.getRange maxQuerySize gte lte
      = between c.chain (queryLo maxQuerySize c.height gte lte) (queryHi c.height gte lte) := by
  have hcopied : c.mapBlocks.values.map id
      = (c.chain.drop (c.height - c.mapBlocks.size)).map id := by
    rw [List.map_id, List.map_id]
    exact h.values_eq hcopy
  have hplain := h.getRange_map hcopied maxQuerySize gte lte
  rwa [List.map_id, List.map_id] at hplain

/-- **`getRange` is the plain query** over the chain, for every cache size and
every limit: the blocks of consecutive heights, as the database has them. -/
theorem getRange_eq {crypto : Crypto} {publicKey : Text} {genesis : BlockStruct} {c : Blockchain}
    (hg : genesis.height = 1) (h : Runs crypto publicKey genesis c)
    (hcopy : ∀ height b, c.mapBlocks.get? height = some b → c.dbBlockchain.get? height = some b)
    (maxQuerySize : Nat) (gte lte : Int) :
    let lo := queryLo maxQuerySize c.height gte lte
    let hi := queryHi c.height gte lte
    c.getRange maxQuerySize gte lte = between c.chain lo hi
      ∧ (c.getRange maxQuerySize gte lte).map BlockStruct.height
        = List.range' lo.toNat (hi + 1 - lo).toNat
      ∧ c.getRange maxQuerySize gte lte
        = (c.dbBlockchain.entries.filter fun e =>
            decide (lo ≤ e.1) && decide ((e.1 : Int) ≤ hi)).map Prod.snd := by
  dsimp only
  have hindexed := h.indexed hg
  have hplain := hindexed.getRange_between hcopy maxQuerySize gte lte
  refine ⟨hplain, hindexed.heights_getRange maxQuerySize gte lte, ?_⟩
  rw [hplain, hindexed.query_eq]

/-- Two blocks and room for one of them: the range begins behind the cache. -/
theorem getRange_of_sample :
    (sampleReplayed 0 [0, 1]).mapBlocks.size = 1
      ∧ (sampleReplayed 0 [0, 1]).getRange 10 (-3) 0 = (sampleReplayed 0 [0, 1]).chain
      ∧ ((sampleReplayed 0 [0, 1]).getRange 10 (-3) 0).map BlockStruct.height = [1, 2] := by
  have hadd : (sampleStart 0).add sampleCrypto (sampleBlock [0, 1]) true
      = .added (sampleLive 0 [0, 1]) := by decide +kernel
  have hrestart : (sampleLive 0 [0, 1]).restart (fun _ => false) 1
      = some (sampleReplayed 0 [0, 1]) := by decide +kernel
  have hcached : ∀ e ∈ (sampleReplayed 0 [0, 1]).mapBlocks.entries,
      (sampleReplayed 0 [0, 1]).dbBlockchain.get? e.1 = some e.2 := by decide +kernel
  have hruns : Runs sampleCrypto (keyOf 0) sampleGenesis (sampleReplayed 0 [0, 1]) :=
    ((Runs.start start_sampleStart).add hadd).restart hrestart
  have hcopy : ∀ height b, (sampleReplayed 0 [0, 1]).mapBlocks.get? height = some b →
      (sampleReplayed 0 [0, 1]).dbBlockchain.get? height = some b :=
    fun height b hb => hcached (height, b) ((OrdMap.get?_eq_some_iff _ height b).mp hb)
  have hg : sampleGenesis.height = 1 := by decide +kernel
  obtain ⟨hrange, hheights, -⟩ := getRange_eq hg hruns hcopy 10 (-3) 0
  refine ⟨by decide +kernel, ?_, ?_⟩
  · rw [hrange]
    decide +kernel
  · rw [hheights]
    decide +kernel

end Blockchain

end Divachain
