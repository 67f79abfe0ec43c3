/-
  Divachain.Chain.Search — searching the chain and the state.

  Both searches read a database from its last entry on.  The limit is that of
  the iterator: it counts what has been read, not what has been found, so an
  entry behind the newest ones is never looked at.

  Main result: `search_latest_iff` — when the latest matches are found.
-/
import Divachain.Lib.Dynamic
import Divachain.Lib.Search
import Divachain.Chain.Query
import Divachain.Net.Wire

namespace Divachain

open DataKit

/-- A block as it stands in the database. -/
def BlockStruct.storedText (b : BlockStruct) : Text := b.toJson.stringify

namespace Blockchain

/-! ## §1. The searches. -/

/-- The oldest block first. -/
def searchBlocks (maxQuerySize : Nat) (c : Blockchain) (search : Text) : List BlockStruct :=
  (newestFirst maxQuerySize
    (fun b : BlockStruct => decide (search = []) || contains search b.storedText)
      c.dbBlockchain.values).reverse

/-- The last key first. -/
def searchState (maxQuerySize : Nat) (c : Blockchain) (search : Text) : List (Text × Text) :=
  newestFirst maxQuerySize
    (fun e : Text × Text => decide (search = []) || contains search (e.1 ++ e.2)) c.dbState.entries

/-! ## §2. What they find. -/

/-- The text of the block contains the string. -/
def blockMatches (search : Text) (b : BlockStruct) : Bool := contains search b.storedText

/-- The key and the value of the entry contain the string. -/
def entryMatches (search : Text) (e : Text × Text) : Bool := contains search (e.1 ++ e.2)

theorem contains_of_eq_nil {search t : Text} (h : search = []) : contains search t = true := by
  rw [h]
  exact contains_iff.mpr List.nil_infix

/-- No string to search for is one that all texts contain. -/
theorem searched_eq (search t : Text) :
    (decide (search = []) || contains search t) = contains search t := by
  by_cases h : search = []
  · rw [contains_of_eq_nil h, Bool.or_true]
  · rw [decide_eq_false h, Bool.false_or]

theorem searchBlocks_eq (maxQuerySize : Nat) (c : Blockchain) (search : Text) :
    c.searchBlocks maxQuerySize search
      = (newestFirst maxQuerySize (blockMatches search) c.chain).reverse := by
  simp only [searchBlocks, searched_eq]
  rfl

theorem searchState_eq (maxQuerySize : Nat) (c : Blockchain) (search : Text) :
    c.searchState maxQuerySize search
      = newestFirst maxQuerySize (entryMatches search) c.dbState.entries := by
  simp only [searchState, searched_eq]
  rfl

/-- **When the latest matches are found**: in both databases no match lies
behind the entries that are read, or all of these match. -/
theorem search_latest_iff (maxQuerySize : Nat) (c : Blockchain) (search : Text) :
    (c.searchBlocks maxQuerySize search = latest maxQuerySize (blockMatches search) c.chain
        ∧ (c.searchState maxQuerySize search).Perm
            (latest maxQuerySize (entryMatches search) c.dbState.entries))
      ↔ Within maxQuerySize (blockMatches search) c.chain
        ∧ Within maxQuerySize (entryMatches search) c.dbState.entries := by
  rw [searchBlocks_eq, searchState_eq, newestFirst_eq_latest_iff, newestFirst_perm_latest_iff]

/-- `addPeer`. -/
def searchedCommand : Text := ['a', 'd', 'd', 'P', 'e', 'e', 'r']

/-- Only the genesis block has such a command, and ten blocks follow it. -/
theorem searchBlocks_addPeer :
    Runs dataCrypto (keyOf 0) sampleGenesis (grown 100 10)
      ∧ (grown 100 10).searchBlocks 10 searchedCommand = []
      ∧ latest 10 (blockMatches searchedCommand) (grown 100 10).chain = [sampleGenesis] := by
  have hgrown := Grown.of_start start_startWith 10 (by omega)
  refine ⟨hgrown.runs, ?_, ?_⟩
  · rw [searchBlocks_eq, hgrown.chain]
    decide +kernel
  · rw [hgrown.chain]
    decide +kernel

end Blockchain

end Divachain
