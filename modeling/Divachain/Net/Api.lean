/-
  Divachain.Net.Api — what a node serves of its chain.

  `Api.sync` asks `getRange` for the blocks from `h` to `h + size`, both
  included: one more than the size says.  If that is one more than a query may
  return, the limit is counted from the end, and the block asked for is the one
  that is missing.

  Main results:
    * `Config.b_bounds` — a setting lies within its bounds;
    * `sync_starts_iff` — when a sync answer starts with the block asked for.
-/
import Mathlib.Data.Rat.Floor
import Divachain.Chain.Query

namespace Divachain

open DataKit

/-! ## §1. The two sizes. -/

/-- `config.network_sync_size` and `config.api_max_query_size`. -/
structure ApiConfig where
  networkSyncSize : Nat
  maxQuerySize : Nat

namespace Config

def MIN_NETWORK_SYNC_SIZE : Nat := 10
def MAX_NETWORK_SYNC_SIZE : Nat := 100
def MIN_API_MAX_QUERY_SIZE : Nat := 10
def MAX_API_MAX_QUERY_SIZE : Nat := 100

/-- `Config.b`; `none` is what is not a number. -/
def b (n : Option ℚ) (min max : Nat) : Nat :=
  match n with
  | none => min
  | some n => if (min : ℚ) ≤ n ∧ n ≤ max then n.floor.toNat else if (max : ℚ) < n then max else min

/-- `c || process.env || otherwise`: a number that is given and not 0, else a
variable that is set and not empty, read as a number. -/
def setting (c : Option ℚ) (env : Option (Option ℚ)) (otherwise : Option ℚ) : Option ℚ :=
  match c with
  | some n => if n ≠ 0 then some n else env.getD otherwise
  | none => env.getD otherwise

/-- What `Config.make` reads for the two sizes. -/
structure Sizes where
  networkSyncSize : Option ℚ
  envNetworkSyncSize : Option (Option ℚ)
  apiMaxQuerySize : Option ℚ
  envApiMaxQuerySize : Option (Option ℚ)

/-- The two sizes in `Config.make`.  One of them has no value to fall back on. -/
def make (c : Sizes) : ApiConfig where
  networkSyncSize :=
    b (setting c.networkSyncSize c.envNetworkSyncSize none) MIN_NETWORK_SYNC_SIZE
      MAX_NETWORK_SYNC_SIZE
  maxQuerySize :=
    b (setting c.apiMaxQuerySize c.envApiMaxQuerySize (some MAX_API_MAX_QUERY_SIZE))
      MIN_API_MAX_QUERY_SIZE MAX_API_MAX_QUERY_SIZE

/-- **A setting lies within its bounds**, whatever it is read from. -/
theorem b_bounds (n : Option ℚ) {min max : Nat} (h : min ≤ max) :
    min ≤ b n min max ∧ b n min max ≤ max := by
  cases n with
  | none => exact ⟨Nat.le_refl _, h⟩
  | some n =>
    unfold b
    dsimp only
    by_cases hin : (min : ℚ) ≤ n ∧ n ≤ max
    · rw [if_pos hin]
      have hlow : (min : Int) ≤ n.floor := Rat.le_floor_iff.mpr (by exact_mod_cast hin.1)
      have hhigh : n.floor ≤ (max : Int) := by
        have hfloor : ((n.floor : Int) : ℚ) ≤ max := (Rat.floor_le n).trans hin.2
        exact_mod_cast hfloor
      omega
    · rw [if_neg hin]
      split
      · exact ⟨h, Nat.le_refl _⟩
      · exact ⟨Nat.le_refl _, h⟩

end Config

/-! ## §2. What a node serves. -/

/-- `Api.sync`; `none` is status 404. -/
def Api.sync (config : ApiConfig) (c : Blockchain) (h : Nat) : Option (List BlockStruct) :=
  if h ≤ c.height then
    some (c.getRange config.maxQuerySize h (h + config.networkSyncSize : Nat))
  else none

/-- `Api.blockGenesis`. -/
def Api.blockGenesis (config : ApiConfig) (c : Blockchain) : Option BlockStruct :=
  (c.getRange config.maxQuerySize 1 (-1)).head?

/-- The blocks follow one another, and the first of them has the height `h`. -/
def StartsAt (h : Nat) (bs : List BlockStruct) : Prop :=
  bs ≠ [] ∧ bs.map BlockStruct.height = List.range' h bs.length

open Blockchain in
/-- **A sync answer starts where it was asked to if and only if** the query may
return one block more than the sync size, or the chain has not so many. -/
theorem sync_starts_iff {crypto : Crypto} {publicKey : Text} {genesis : BlockStruct}
    {c : Blockchain} (hg : genesis.height = 1) (hruns : Runs crypto publicKey genesis c)
    {sizes : Config.Sizes}
    (hsizes : (Config.make sizes).networkSyncSize ≤ (Config.make sizes).maxQuerySize)
    {h : Nat} (hpos : 1 ≤ h) (hheight : h ≤ c.height) :
    (∃ bs, Api.sync (Config.make sizes) c h = some bs ∧ StartsAt h bs)
      ↔ (Config.make sizes).networkSyncSize < (Config.make sizes).maxQuerySize
        ∨ c.height < h + (Config.make sizes).networkSyncSize := by
  have hindexed := hruns.indexed hg
  have hmax : 10 ≤ (Config.make sizes).maxQuerySize := (Config.b_bounds _ (by decide)).1
  generalize Config.make sizes = config at hsizes hmax
  have hheights := hindexed.heights_getRange config.maxQuerySize h
    (h + config.networkSyncSize : Nat)
  have hhi : queryHi c.height h (h + config.networkSyncSize : Nat)
      = min c.height (h + config.networkSyncSize : Nat) := by
    unfold queryHi clampHeight
    split_ifs <;> omega
  have hlo : queryLo config.maxQuerySize c.height h (h + config.networkSyncSize : Nat)
      = max (h : Int) (min c.height (h + config.networkSyncSize : Nat) - config.maxQuerySize + 1) := by
    unfold queryLo
    rw [hhi]
    unfold clampHeight
    dsimp only
    omega
  rw [hlo, hhi] at hheights
  have hsync : Api.sync config c h
      = some (c.getRange config.maxQuerySize h (h + config.networkSyncSize : Nat)) := if_pos hheight
  rw [hsync]
  generalize c.getRange config.maxQuerySize h (h + config.networkSyncSize : Nat) = bs at hheights
  have hlength := congrArg List.length hheights
  rw [List.length_map, List.length_range'] at hlength
  have hne : bs ≠ [] := by
    intro hnil
    rw [hnil, List.length_nil] at hlength
    omega
  constructor
  · intro hstarts
    obtain ⟨bs', heq, -, hrange⟩ := hstarts
    obtain rfl := Option.some.inj heq
    -- the first height of the answer is the one asked for
    rw [hheights, ← hlength] at hrange
    obtain ⟨n, hn⟩ := Nat.exists_eq_add_one_of_ne_zero (List.length_eq_zero_iff.not.mpr hne)
    rw [hn, List.range'_succ, List.range'_succ, List.cons.injEq] at hrange
    omega
  · intro hroom
    refine ⟨bs, rfl, hne, ?_⟩
    rw [hheights, hlength]
    congr 1
    omega

/-- The sizes a node has if nothing is set. -/
def defaultSizes : Config.Sizes := ⟨none, none, none, none⟩

/-- The default sizes, and a chain longer than an answer. -/
theorem sync_starts_of_sample :
    ∃ bs, Api.sync (Config.make defaultSizes) (Blockchain.grown 100 20) 1 = some bs
      ∧ StartsAt 1 bs := by
  have hgrown := Blockchain.Grown.of_start Blockchain.start_startWith 20 (by omega)
  have hheight : (Blockchain.grown 100 20).height = 21 := hgrown.height
  refine (sync_starts_iff Blockchain.height_sampleGenesis hgrown.runs (by decide) (by omega)
    (by omega)).mpr (Or.inl ?_)
  decide

/-- A query may return no more than an answer of the default size. -/
def narrowSizes : Config.Sizes := { defaultSizes with apiMaxQuerySize := some 10 }

/-- **The block asked for is missing**: eleven blocks, and ten to a query. -/
theorem sync_starts_late :
    Blockchain.Runs Blockchain.dataCrypto (keyOf 0) Blockchain.sampleGenesis
        (Blockchain.grown 100 10)
      ∧ (Config.make narrowSizes).networkSyncSize ≤ (Config.make narrowSizes).maxQuerySize
      ∧ (Blockchain.grown 100 10).height = 11
      ∧ ∃ bs, Api.sync (Config.make narrowSizes) (Blockchain.grown 100 10) 1 = some bs
        ∧ bs.map BlockStruct.height = [2, 3, 4, 5, 6, 7, 8, 9, 10, 11] ∧ ¬ StartsAt 1 bs := by
  have hgrown := Blockchain.Grown.of_start Blockchain.start_startWith 10 (by omega)
  have hheight : (Blockchain.grown 100 10).height = 11 := hgrown.height
  have hsizes : Config.make narrowSizes = ⟨10, 10⟩ := by rfl
  have hheights := (hgrown.runs.indexed Blockchain.height_sampleGenesis).heights_getRange 10 1 11
  rw [hheight] at hheights
  change _ = [2, 3, 4, 5, 6, 7, 8, 9, 10, 11] at hheights
  refine ⟨hgrown.runs, ?_, hheight, _, ?_, hheights, ?_⟩
  · rw [hsizes]
  · rw [hsizes, Api.sync, hheight, if_pos (by omega)]
    rfl
  · intro hstarts
    have hrange := hstarts.2
    have hlength := congrArg List.length hheights
    rw [List.length_map] at hlength
    rw [hheights, hlength] at hrange
    exact absurd hrange (by decide)

end Divachain
