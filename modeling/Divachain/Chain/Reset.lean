/-
  Divachain.Chain.Reset — what `reset` leaves behind.

  `clear` resets a dozen fields by hand and forgets five of them.  So a reset
  instance equals a new one exactly if these five hold nothing: `NoResidue`.
  The probe for the other direction is a genesis block that writes data only,
  such as the one the repository ships.
-/
import Divachain.Chain.Run

namespace Divachain

open DataKit

namespace Blockchain

/-- The states of an instance: new processes, blocks and resets in any order. -/
inductive Lives (crypto : Crypto) (publicKey : Text) : Blockchain → Prop where
  | boot {maxBlocks : Nat} : Lives crypto publicKey (fresh publicKey maxBlocks)
  | restart {c c' : Blockchain} {answers : Nat → Bool} {maxBlocks : Nat}
      (hc : Lives crypto publicKey c) (h : c.restart answers maxBlocks = some c') :
      Lives crypto publicKey c'
  | add {c c' : Blockchain} {b : BlockStruct} {answer : Bool} (hc : Lives crypto publicKey c)
      (h : c.add crypto b answer = .added c') : Lives crypto publicKey c'
  | reset {c c' : Blockchain} {answers : Nat → Bool} {genesis : BlockStruct}
      (hc : Lives crypto publicKey c) (h : c.reset answers genesis = some c') :
      Lives crypto publicKey c'

/-- The five fields `clear` does not touch hold nothing. -/
structure NoResidue (c : Blockchain) : Prop where
  mapHttp : c.mapHttp = .empty
  mapUdp : c.mapUdp = .empty
  quorumWeighted : c.quorumWeighted = 0
  mapModifyStake : c.mapModifyStake = .empty
  mapVoteStake : c.mapVoteStake = .empty

theorem arrayTakenDecision_applyBlocks (l : Ledger) (bs : List BlockStruct) :
    (l.applyBlocks bs).arrayTakenDecision = l.arrayTakenDecision := by
  induction bs generalizing l with
  | nil => rfl
  | cons b bs ih => exact (ih (l.applyTx b.tx)).trans (l.arrayTakenDecision_applyTx b.tx)

/-- No decision is ever taken. -/
theorem Lives.arrayTakenDecision {crypto : Crypto} {publicKey : Text} {c : Blockchain}
    (h : Lives crypto publicKey c) : c.arrayTakenDecision = [] := by
  induction h with
  | boot => rfl
  | restart _ h _ =>
      rw [(replay_spec h).ledger]
      exact arrayTakenDecision_applyBlocks _ _
  | add _ h ih =>
      rw [(add_spec crypto h).ledger]
      exact (Ledger.arrayTakenDecision_applyTx _ _).trans ih
  | reset _ h ih =>
      rw [(replay_spec h).ledger]
      exact (arrayTakenDecision_applyBlocks _ _).trans ih

/-- Without residue a cleared instance is a new one. -/
theorem clear_eq_fresh {c : Blockchain} (h : NoResidue c) (hdec : c.arrayTakenDecision = []) :
    c.clear = fresh c.publicKey c.maxBlocks := by
  obtain ⟨⟨_, _, _, _, _, _, _⟩, _, _, _, _, _, _, _⟩ := c
  obtain ⟨rfl, rfl, rfl, rfl, rfl⟩ := h
  subst hdec
  rfl

/-! ## The probe: a genesis block that writes data only. -/

/-- A genesis block with one data command, and a hash without repetitions. -/
def dataGenesis : BlockStruct :=
  { genesisFile 0 with
    hash := label 43 0
    tx := [{ ident := ['g', 'e', 'n', 'e', 's', 'i', 's']
             origin := zeros 43
             commands := [
               { seq := 1
                 body := .data ['g', 'e', 'n', 'e', 's', 'i', 's', ':', 'i', 'n', 'i', 't'] []
                 keys := [.seq, .command, .ns, .d] }]
             sig := zeros 86
             keys := TransactionStruct.fields }] }

/-- **The probe shows the five fields as they were.** -/
theorem reset_dataGenesis (answers : Nat → Bool) (c : Blockchain) :
    ∃ d, c.reset answers dataGenesis = some d ∧ d.mapHttp = c.mapHttp ∧ d.mapUdp = c.mapUdp
      ∧ d.quorumWeighted = c.quorumWeighted ∧ d.mapModifyStake = c.mapModifyStake
      ∧ d.mapVoteStake = c.mapVoteStake := by
  have hfew : sameChars dataGenesis.hash dataGenesis.height < STAKE_VOTE_MATCH_THRESHOLD := by
    decide +kernel
  refine ⟨((((c.clear.putBlock 1 dataGenesis).rewind.cacheBlock dataGenesis).countVotes
    dataGenesis).setLedger
      ((c.clear.putBlock 1 dataGenesis).rewind.toLedger.processState dataGenesis.tx).1),
    ?_, rfl, rfl, rfl, rfl, rfl⟩
  show replay answers (c.clear.putBlock 1 dataGenesis).rewind [dataGenesis] = _
  unfold replay
  dsimp only
  rw [show { dataGenesis with
      tx := ((c.clear.putBlock 1 dataGenesis).rewind.toLedger.processState dataGenesis.tx).2 }
    = dataGenesis from rfl, updateCache_of_few hfew]
  rfl

/-- A reset instance equals a new one for every genesis block. -/
def LeavesNoResidue (c : Blockchain) : Prop :=
  ∀ (answers : Nat → Bool) (genesis : BlockStruct),
    c.reset answers genesis = (fresh c.publicKey c.maxBlocks).reset answers genesis

/-- **`reset` leaves no residue exactly if there was none.** -/
theorem reset_residue_iff {crypto : Crypto} {publicKey : Text} {c : Blockchain}
    (h : Lives crypto publicKey c) : LeavesNoResidue c ↔ NoResidue c := by
  constructor
  · intro hreset
    -- The probe is reset into both instances and must read the same fields.
    obtain ⟨d, hd, hhttp, hudp, hquorum, hmodify, hvote⟩ :=
      reset_dataGenesis (fun _ => true) c
    obtain ⟨e, he, hhttp', hudp', hquorum', hmodify', hvote'⟩ :=
      reset_dataGenesis (fun _ => true) (fresh c.publicKey c.maxBlocks)
    obtain rfl : d = e := by
      rw [hreset, he] at hd
      exact (Option.some.inj hd).symm
    exact ⟨hhttp.symm.trans hhttp', hudp.symm.trans hudp', hquorum.symm.trans hquorum',
      hmodify.symm.trans hmodify', hvote.symm.trans hvote'⟩
  · intro hnone answers genesis
    have hclear := clear_eq_fresh hnone h.arrayTakenDecision
    have hfresh : (fresh c.publicKey c.maxBlocks).clear = fresh c.publicKey c.maxBlocks := rfl
    rw [reset, reset, hclear, hfresh]

/-- Both sides are met: a reset to the genesis block with data leaves no residue,
one to a genesis block with three peers does. -/
theorem reset_residue_of_sample :
    (∃ c, (fresh (keyOf 0) 100).reset (fun _ => true) dataGenesis = some c ∧ c.height = 1
        ∧ LeavesNoResidue c)
      ∧ ¬ LeavesNoResidue (sampleStart 0) := by
  constructor
  · obtain ⟨c, hc, hhttp, hudp, hquorum, hmodify, hvote⟩ :=
      reset_dataGenesis (fun _ => true) (fresh (keyOf 0) 100)
    refine ⟨c, hc, (replay_spec hc).height, ?_⟩
    exact (reset_residue_iff (.reset .boot hc : Lives sampleCrypto (keyOf 0) c)).mpr
      ⟨hhttp, hudp, hquorum, hmodify, hvote⟩
  · intro hleaves
    have hnone := (reset_residue_iff (.reset .boot start_sampleStart :
      Lives sampleCrypto (keyOf 0) (sampleStart 0))).mp hleaves
    exact absurd hnone.quorumWeighted (by decide +kernel)

/-- After one genesis block with three peers, a second one counts them twice. -/
theorem reset_keeps_total :
    ¬ ∀ c, Lives sampleCrypto (keyOf 0) c → LeavesNoResidue c := by
  intro hclaim
  have hsame := hclaim (sampleStart 0) (.reset .boot start_sampleStart) (fun _ => true) sampleGenesis
  have hsix : ((sampleStart 0).reset (fun _ => true) sampleGenesis).map
      (fun c => c.quorumWeighted) = some 6 := by decide +kernel
  have hthree : ((fresh (sampleStart 0).publicKey (sampleStart 0).maxBlocks).reset
      (fun _ => true) sampleGenesis).map (fun c => c.quorumWeighted) = some 3 := by
    decide +kernel
  rw [hsame, hthree] at hsix
  exact absurd hsix (by decide)

end Blockchain

end Divachain
