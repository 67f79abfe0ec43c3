/-
  Divachain.Net.Malformed — what becomes of datagrams that carry no valid message.

  `unpack` gives the empty object for everything that is not a signed message,
  and the first thing the check reads of a message is `data.type`.  There is no
  data in the empty object, and nothing catches the exception.

  Main result: a datagram without a valid message, from a known peer, is dropped
  if and only if nobody listens or there is data in what it carries.
-/
import Divachain.Net.ExactlyOnce
import Divachain.Net.Network

namespace Divachain

open DataKit

namespace Network

/-! ## §1. Dropped or thrown. -/

/-- The datagram has been dropped. -/
structure Dropped (net net' : Network) : Prop where
  returned : net'.raised = false
  mapMsgSeq : net'.mapMsgSeq = net.mapMsgSeq
  mapOnline : net'.mapOnline = net.mapOnline
  node : net'.toNode = net.toNode

/-- **A datagram without a valid message is dropped**, when it comes from a known
peer, if and only if nobody listens, or it carries a signed value with data:
otherwise `type()` reads a property of undefined or null. -/
theorem malformed_dropped_iff {crypto : Crypto} {codec : Codec} {net : Network} {turn : Turn}
    {data : Bytes} {sender : Text} (hrunning : net.raised = false)
    (hknown : net.chain.getPublicKeyByUdp sender ≠ [])
    (hbad : ∀ j, unpacked crypto codec data = some j → ¬ Matches j) :
    Dropped net (net.incomingData crypto codec turn data sender)
      ↔ net.isClosing = true ∨ net.arrayNetwork = []
        ∨ ∃ j, unpacked crypto codec data = some j ∧ HasData j := by
  -- A closing node and one without a network return before they unpack.
  by_cases hdeaf : net.isClosing = true ∨ net.arrayNetwork = []
  · have hsame : net.incomingData crypto codec turn data sender = net := by
      unfold incomingData incoming
      rw [if_pos hdeaf]
      rfl
    rw [hsame, ← or_assoc]
    exact iff_of_true ⟨hrunning, rfl, rfl, rfl⟩ (Or.inl hdeaf)
  · have hempty : ¬ HasData (.obj []) := by
      rintro ⟨d, hd, -⟩
      exact nomatch hd
    have hcheck : (validateUnpacked (unpack crypto codec data)).isSome = true
        ↔ ∃ j, unpacked crypto codec data = some j ∧ HasData j := by
      rw [validateUnpacked_isSome_iff, unpack]
      cases unpacked crypto codec data with
      | none => simpa using hempty
      | some j => simp
    -- What cannot be unpacked is checked as an empty message, and that matches nothing.
    have hturned : ∀ m, validateUnpacked (unpack crypto codec data) ≠ some (some m) := by
      intro m hm
      have hmatch := (validateUnpacked_eq_some_iff _ m).mp hm
      unfold unpack at hmatch
      cases hj : unpacked crypto codec data with
      | none =>
          rw [hj] at hmatch
          exact nomatch hmatch.1
      | some j =>
          rw [hj] at hmatch
          exact hbad j hj ⟨m, hmatch⟩
    rw [← or_assoc, or_iff_right hdeaf, ← hcheck]
    unfold incomingData incoming
    rw [if_neg hdeaf]
    dsimp only
    rw [if_neg hknown]
    -- The check throws where the data are missing, and otherwise says no.
    cases hvalid : validateUnpacked (unpack crypto codec data) with
    | none =>
        refine iff_of_false ?_ Bool.false_ne_true
        intro h
        exact nomatch h.returned
    | some checked =>
        cases checked with
        | some m => exact absurd hvalid (hturned m)
        | none => exact iff_of_true ⟨hrunning, rfl, rfl, rfl⟩ rfl

/-! ## §2. Two malformed datagrams of a peer. -/

open Blockchain (sampleStart)

/-- A node that listens: its network has been renewed once. -/
def sampleNet (crypto : Crypto) (codec : Codec) (i : Nat) : Network :=
  (start (sampleStart i) 5000).step crypto codec Node.allOnline (.p2pNetwork true fun _ => 0)

/-- Signed by peer 1, but with a number for data. -/
def numberText : Text :=
  "\x7b\"seq\":1,\"origin\":\"".toList ++ keyOf 1 ++ "\",\"dest\":\"\",\"data\":5\x7d".toList

def numberWire : Text :=
  ("q1YqTi1UsjLUUcovykzPzFOyUjL09vH18w8IDAoOCQ0Lj4iMSkxKTklNS8_IzMrOyc3LLyg".toList
    ++ "sKi4pLSuvqKxS0lFKSS0uAWoCsRJLEpWsTGsB".toList)

def numberJson : Json :=
  .obj [(WireField.seq.name, .int 1), (WireField.origin.name, .str (keyOf 1)),
    (WireField.dest.name, .str []), (WireField.data.name, .int 5)]

def numberCodec : Codec := tableCodec [⟨numberWire, numberText, numberJson⟩]

def numberCrypto : Crypto := tableCrypto [] [(keyOf 1, numberWire)]

theorem malformed_dropped_of_sample :
    Dropped (sampleNet numberCrypto numberCodec 0)
      ((sampleNet numberCrypto numberCodec 0).incomingData numberCrypto numberCodec Node.allOnline
        (datagramOf numberWire (label 86 0)) (label 9 1)) := by
  have hunpacked : unpacked numberCrypto numberCodec (datagramOf numberWire (label 86 0))
      = some numberJson :=
    unpacked_datagramOf (by decide +kernel) (by decide +kernel) rfl rfl (by decide +kernel)
  refine (malformed_dropped_iff (by decide +kernel) (by decide +kernel) ?_).mpr
    (Or.inr (Or.inr ⟨numberJson, hunpacked, ?_⟩))
  · intro j hj
    rw [hunpacked] at hj
    obtain rfl := Option.some.inj hj
    rintro ⟨m, hm, -⟩
    exact nomatch hm
  · exact ⟨.int 5, rfl, fun h => nomatch h⟩

/-- **One byte ends the process**: the datagram does not even match the pattern. -/
theorem malformed_throws :
    ¬ ∀ data, (∀ j, unpacked numberCrypto numberCodec data = some j → ¬ Matches j) →
      Dropped (sampleNet numberCrypto numberCodec 0)
        ((sampleNet numberCrypto numberCodec 0).incomingData numberCrypto numberCodec
          Node.allOnline data (label 9 1)) := by
  intro hclaim
  have hnothing : unpacked numberCrypto numberCodec (asciiBytes ['x']) = none := by
    rfl
  have hdropped := (hclaim (asciiBytes ['x']) (by
    intro j hj
    rw [hnothing] at hj
    exact nomatch hj)).returned
  have hraised : ((sampleNet numberCrypto numberCodec 0).incomingData numberCrypto numberCodec
      Node.allOnline (asciiBytes ['x']) (label 9 1)).raised = true := by
    decide +kernel
  rw [hraised] at hdropped
  exact nomatch hdropped

end Network

end Divachain
