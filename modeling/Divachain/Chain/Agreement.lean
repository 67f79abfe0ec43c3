/-
  Divachain.Chain.Agreement — two validated chains over one genesis block.

  A block is linked to its predecessor and validated against the ledger the
  predecessors produce.  So as long as two chains agree they have one ledger,
  one set of stakes and one quorum, and two blocks that could come next share
  a voter.  If that voter gave both votes to one hash, the chains go on
  agreeing: `Validated.agree` is the induction over the shorter chain.
-/
import Divachain.Chain.Accounting

namespace Divachain

open DataKit

namespace Blockchain

variable {crypto : Crypto} {genesis : BlockStruct}

/-! ## §1. The shape of a validated sequence. -/

theorem Validated.ne_nil {bs : List BlockStruct} (h : Validated crypto genesis bs) : bs ≠ [] := by
  cases h with
  | genesis => exact List.cons_ne_nil _ _
  | snoc => exact List.concat_ne_nil _ _

theorem Validated.head {bs : List BlockStruct} (h : Validated crypto genesis bs) :
    bs.head? = some genesis := by
  induction h with
  | genesis => rfl
  | snoc hbs hlast hheight hprev hvalid ih => rw [List.head?_append, ih, Option.some_or]

/-- The last block of a longer sequence, and what it was validated against. -/
theorem Validated.of_concat {bs : List BlockStruct} {b : BlockStruct}
    (h : Validated crypto genesis (bs ++ [b])) (hne : bs ≠ []) :
    ∃ last, bs.getLast? = some last ∧ b.height = last.height + 1 ∧ b.previousHash = last.hash
      ∧ validateBlock crypto (Ledger.fresh.applyBlocks bs) b true = true := by
  generalize heq : bs ++ [b] = cs at h
  cases h with
  | genesis =>
      have hlen := congrArg List.length heq
      rw [List.length_append, List.length_singleton, List.length_singleton] at hlen
      exact absurd (List.eq_nil_of_length_eq_zero (by omega)) hne
  | snoc hbs hlast hheight hprev hvalid =>
      obtain ⟨rfl, hone⟩ := List.append_inj' heq rfl
      obtain rfl := List.head_eq_of_cons_eq hone
      exact ⟨_, hlast, hheight, hprev, hvalid⟩

/-- A prefix of a validated sequence is one. -/
theorem Validated.take {bs : List BlockStruct} (h : Validated crypto genesis bs) {k : Nat}
    (hk : 0 < k) : Validated crypto genesis (bs.take k) := by
  induction h with
  | genesis =>
      rw [List.take_of_length_le hk]
      exact .genesis
  | @snoc bs last b hbs hlast hheight hprev hvalid ih =>
      by_cases hle : k ≤ bs.length
      · rw [List.take_append_of_le_length hle]
        exact ih
      · have hall : (bs ++ [b]).length ≤ k := by
          rw [List.length_append, List.length_singleton]
          omega
        rw [List.take_of_length_le hall]
        exact .snoc hbs hlast hheight hprev hvalid

/-- **The heights count up from the genesis block.** -/
theorem Validated.height_eq {bs : List BlockStruct} (h : Validated crypto genesis bs) {k : Nat}
    {b : BlockStruct} (hb : bs[k]? = some b) : b.height = genesis.height + k := by
  induction h generalizing k b with
  | genesis =>
      obtain ⟨hk, rfl⟩ := List.getElem?_eq_some_iff.mp hb
      have hzero : k = 0 := by simpa using hk
      subst hzero
      rfl
  | @snoc bs last b' hbs hlast hheight hprev hvalid ih =>
      rcases Nat.lt_trichotomy k bs.length with hk | hk | hk
      · rw [List.getElem?_append_left hk] at hb
        exact ih hb
      · subst hk
        rw [List.getElem?_append_right (Nat.le_refl _), Nat.sub_self] at hb
        obtain rfl := Option.some.inj hb
        have hpos : 0 < bs.length := List.length_pos_iff.mpr hbs.ne_nil
        have hprevious := ih (List.getLast?_eq_getElem? ▸ hlast)
        omega
      · rw [List.getElem?_eq_none (by rw [List.length_append, List.length_singleton]; omega)] at hb
        exact nomatch hb

/-- Every block but the first carries the hash of its own text. -/
theorem Validated.hash_eq {bs : List BlockStruct} (h : Validated crypto genesis bs)
    {b : BlockStruct} (hb : b ∈ bs) (habove : genesis.height < b.height) :
    crypto.hash (hashText b.version b.previousHash b.tx b.height) = b.hash := by
  induction h with
  | genesis =>
      obtain rfl := List.mem_singleton.mp hb
      exact absurd habove (Nat.lt_irrefl _)
  | snoc hbs hlast hheight hprev hvalid ih =>
      rcases List.mem_append.mp hb with hb | hb
      · exact ih hb
      · obtain rfl := List.mem_singleton.mp hb
        exact (validateBlock_true_iff.mp hvalid).1.hash

/-! ## §2. Agreement. -/

/-- No voter has signed two hashes for the blocks at one height of two chains,
the genesis block apart. -/
def SameVotes (crypto : Crypto) (genesis : BlockStruct) (bs cs : List BlockStruct) : Prop :=
  ∀ b ∈ bs, ∀ c ∈ cs, genesis.height < b.height → b.height = c.height →
    ∀ v ∈ b.votes, ∀ w ∈ c.votes, v.origin = w.origin →
      crypto.verifySignature v.origin v.sig b.hash = true →
        crypto.verifySignature w.origin w.sig c.hash = true → b.hash = c.hash

/-- **Two blocks that could come next are the same, up to their votes.** -/
theorem next_agree (hinj : crypto.HashInjective) {l : Ledger} (hl : Accounted l)
    {b c : BlockStruct} (hb : validateBlock crypto l b true = true)
    (hc : validateBlock crypto l c true = true) (hprev : b.previousHash = c.previousHash)
    (hvotes : ∀ v ∈ b.votes, ∀ w ∈ c.votes, v.origin = w.origin →
      crypto.verifySignature v.origin v.sig b.hash = true →
        crypto.verifySignature w.origin w.sig c.hash = true → b.hash = c.hash) :
    b.withoutVotes = c.withoutVotes := by
  obtain ⟨hwb, hqb⟩ := validateBlock_true_iff.mp hb
  obtain ⟨hwc, hqc⟩ := validateBlock_true_iff.mp hc
  -- quorum intersection: somebody has voted for both
  obtain ⟨v, hv, w, hw, horigin, -⟩ := hl.votes_meet hqb hqc
  have hhash : b.hash = c.hash :=
    hvotes v hv w hw horigin (hqb.verified v hv) (hqc.verified w hw)
  have htext : hashText b.version b.previousHash b.tx b.height
      = hashText c.version b.previousHash c.tx c.height := by
    have heq := hinj (hwb.hash.trans (hhash.trans hwc.hash.symm))
    rwa [← hprev] at heq
  obtain ⟨hheight, hversion, -⟩ := hashText_split htext
  have htx : b.tx = c.tx := hashText_tx hwb.wellKeyed hwc.wellKeyed htext
  rw [BlockStruct.withoutVotes, BlockStruct.withoutVotes, hversion, hprev, hhash, htx, hheight]

/-- **Two validated chains agree as far as the shorter one goes.** -/
theorem Validated.agree (hinj : crypto.HashInjective) {bs cs : List BlockStruct}
    (hbs : Validated crypto genesis bs) (hcs : Validated crypto genesis cs)
    (hlen : bs.length ≤ cs.length) (hvotes : SameVotes crypto genesis bs cs) :
    bs.map BlockStruct.withoutVotes = (cs.take bs.length).map BlockStruct.withoutVotes := by
  induction hbs with
  | genesis =>
      have hfirst := hcs.head
      cases cs with
      | nil => exact nomatch hfirst
      | cons c cs =>
          obtain rfl := Option.some.inj hfirst
          rfl
  | @snoc bs last b hbs hlast hheight hprev hvalid ih =>
      rw [List.length_append, List.length_singleton] at hlen
      have hagree := ih (by omega) fun b' hb' => hvotes b' (List.mem_append_left _ hb')
      -- the block of the longer chain at the same place
      obtain ⟨c, hc⟩ : ∃ c, cs[bs.length]? = some c := ⟨_, List.getElem?_eq_getElem (by omega)⟩
      have hsplit : cs.take (bs ++ [b]).length = cs.take bs.length ++ [c] := by
        rw [List.length_append, List.length_singleton, List.take_add_one, hc]
        rfl
      have hpos : 0 < bs.length := List.length_pos_iff.mpr hbs.ne_nil
      have hprefix : Validated crypto genesis (cs.take bs.length ++ [c]) :=
        hsplit ▸ hcs.take (by rw [List.length_append, List.length_singleton]; omega)
      obtain ⟨last', hlast', hheight', hprev', hvalid'⟩ := hprefix.of_concat
        (List.ne_nil_of_length_pos (by rw [List.length_take]; omega))
      -- up to here the chains agree, so both have one ledger and one last hash
      have hledger : Ledger.fresh.applyBlocks bs = Ledger.fresh.applyBlocks (cs.take bs.length) :=
        applyBlocks_congr_votes hagree
      have hlasts : last.withoutVotes = last'.withoutVotes := by
        have heq := congrArg List.getLast? hagree
        rw [List.getLast?_map, List.getLast?_map, hlast, hlast'] at heq
        exact Option.some.inj heq
      have hhash : last.hash = last'.hash := congrArg (fun x => x.hash) hlasts
      have hheights : last.height = last'.height := congrArg (fun x => x.height) hlasts
      have habove : genesis.height < b.height := by
        have hheightLast := hbs.height_eq (List.getLast?_eq_getElem? ▸ hlast)
        omega
      have hnext : b.withoutVotes = c.withoutVotes := by
        refine next_agree hinj (Accounted.fresh.applyBlocks bs) hvalid (hledger ▸ hvalid') ?_ ?_
        · rw [hprev, hprev', hhash]
        · exact hvotes b (List.mem_append_right _ List.mem_cons_self) c (List.mem_of_getElem? hc)
            habove (by omega)
      rw [hsplit, List.map_append, List.map_append, hagree, List.map_singleton,
        List.map_singleton, hnext]

/-- What agreement is about: blocks at one height have one hash. -/
theorem Validated.same_hash (hinj : crypto.HashInjective) {bs cs : List BlockStruct}
    (hbs : Validated crypto genesis bs) (hcs : Validated crypto genesis cs)
    (hvotes : SameVotes crypto genesis bs cs) (hlen : bs.length ≤ cs.length) {b c : BlockStruct}
    (hb : b ∈ bs) (hc : c ∈ cs) (hheight : b.height = c.height) : b.hash = c.hash := by
  obtain ⟨k, hk⟩ := List.mem_iff_getElem?.mp hb
  obtain ⟨k', hk'⟩ := List.mem_iff_getElem?.mp hc
  -- the height says where a block stands
  have hplace := hbs.height_eq hk
  have hplace' := hcs.height_eq hk'
  obtain rfl : k = k' := by omega
  have hlt : k < bs.length := (List.getElem?_eq_some_iff.mp hk).1
  have hboth := congrArg (fun l => l[k]?) (hbs.agree hinj hcs hlen hvotes)
  rw [List.getElem?_map, List.getElem?_map, List.getElem?_take_of_lt hlt, hk, hk',
    Option.map_some, Option.map_some, Option.some.injEq] at hboth
  exact congrArg (fun x => x.hash) hboth

end Blockchain

end Divachain
