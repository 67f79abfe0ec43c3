/-
  Divachain.Net.Admission — many members, many newcomers, and whoever is between them.

  A newcomer asks one member to let it in, but everybody can call `/join` of
  every member, with any key, and `/challenge` of every newcomer, with any
  token.  So a challenge can be passed on: the signature that a member gets may
  have been asked for by somebody else.  `Admission` is all of this at once, the
  members as `Joins` and the newcomers as their flag.

  Main results:
    * `tokens_step`, `confirmation_spec` — what a step does to the tokens of a
      member, and when it lets somebody in;
    * `Sound.step` — no token is held twice, or held after it has been used;
    * `admissions_agree` — every admission of an honest key has a challenge of
      its own that the key has answered, and a call of `joinNetwork` of its own.
-/
import Divachain.Net.Join
import Divachain.Net.Separation

namespace Divachain

open DataKit
open Bootstrap (Joins Answer Challenge JoinArgs)

/-! ## §1. The parties. -/

/-- What a new node has for a join.  The last two fields are a record of what it
has done. -/
structure Newcomer where
  isJoiningNetwork : Bool
  /-- How often it has called `joinNetwork`. -/
  asked : Nat
  /-- The tokens it has signed. -/
  signed : List Text

namespace Newcomer

def joinNetwork (w : Newcomer) : Newcomer :=
  { w with isJoiningNetwork := true, asked := w.asked + 1 }

/-- The request `/challenge/:token`, whoever makes it. -/
def answer (crypto : Crypto) (publicKey : Text) (w : Newcomer) (token : Text) : Newcomer :=
  { w with
    isJoiningNetwork := (challenge crypto publicKey w.isJoiningNetwork token).2
    signed := if Challenged w.isJoiningNetwork token then w.signed ++ [token] else w.signed }

end Newcomer

/-- The token that the step draws if it grants a join. -/
def Bootstrap.Joins.Op.drawn : Joins.Op → Option Text
  | .join _ nanoid _ => some nanoid
  | .immediate _ nanoid => some nanoid
  | _ => none

/-- The key that the step lets in, with the token that was signed. -/
def Bootstrap.Joins.confirmation (crypto : Crypto) (s : Joins) : Joins.Op → Option (Text × Text)
  | .answer i (.object signedToken) stackTx =>
      match s.requests[i]? with
      | none => none
      | some c =>
          if s.confirms crypto c.publicKey signedToken stackTx then
            (s.mapToken.get? c.publicKey).map fun token => (c.publicKey, token)
          else none
  | _ => none

/-- The members `ι`, all new nodes, and a record of what has happened. -/
structure Admission (ι : Type) where
  members : ι → Joins
  newcomers : Text → Newcomer
  /-- The tokens that have been drawn. -/
  drawn : List Text
  /-- Member, key and token of each `confirm` that has come to its end. -/
  confirmed : List (ι × Text × Text)

namespace Admission

variable {ι : Type}

inductive Event (ι : Type) where
  | member (i : ι) (op : Joins.Op)
  | joinNetwork (publicKey : Text)
  | challenge (publicKey token : Text)

def start : Admission ι :=
  { members := fun _ => Joins.start
    newcomers := fun _ => ⟨false, 0, []⟩
    drawn := []
    confirmed := [] }

variable [DecidableEq ι] (crypto : Crypto)

def step (m : Admission ι) : Event ι → Admission ι
  | .member i op =>
      { m with
        members := Function.update m.members i ((m.members i).step crypto op)
        drawn := m.drawn ++ op.drawn.toList
        confirmed := m.confirmed
          ++ (((m.members i).confirmation crypto op).map fun x => (i, x)).toList }
  | .joinNetwork publicKey =>
      { m with
        newcomers := Function.update m.newcomers publicKey (m.newcomers publicKey).joinNetwork }
  | .challenge publicKey token =>
      { m with
        newcomers := Function.update m.newcomers publicKey
          ((m.newcomers publicKey).answer crypto publicKey token) }

def run (m : Admission ι) (es : List (Event ι)) : Admission ι := es.foldl (step crypto) m

/-- A signature by an honest key that verifies for the token it has been given is
an answer of the newcomer to a challenge.  It signs no other text of this length
but its own messages. -/
def Unforged (honest : Text → Prop) (m : Admission ι) (i : ι) : Joins.Op → Prop
  | .answer j (.object (some sig)) _ =>
      ∀ c token, (m.members i).requests[j]? = some c →
        (m.members i).mapToken.get? c.publicKey = some token → honest c.publicKey →
          crypto.verifySignature c.publicKey sig token = true →
            token ∈ (m.newcomers c.publicKey).signed
  | _ => True

/-- **What is trusted**: no token is drawn twice, and signatures are not forged. -/
def Trusted (honest : Text → Prop) (m : Admission ι) : Event ι → Prop
  | .member i op =>
      (∀ token, op.drawn = some token → token ∉ m.drawn) ∧ Unforged crypto honest m i op
  | _ => True

inductive Reaches (honest : Text → Prop) (m₀ : Admission ι) : Admission ι → Prop where
  | refl : Reaches honest m₀ m₀
  | step {m : Admission ι} (h : Reaches honest m₀ m) (e : Event ι) (hok : Trusted crypto honest m e) :
      Reaches honest m₀ (m.step crypto e)

end Admission

/-! ## §2. The tokens of one member. -/

namespace Bootstrap.Joins

variable {crypto : Crypto} {s : Joins}

/-- A join gives its key the new token, or takes the old one. -/
theorem tokens_join (l : Ledger) (nanoid : Text) (a : JoinArgs) {k t : Text}
    (h : (s.join l nanoid a).1.mapToken.get? k = some t) :
    s.mapToken.get? k = some t ∨ (k = a.publicKey ∧ t = nanoid) := by
  by_cases hadmits : s.admits l a = true
  · rw [join_of_admits hadmits] at h
    by_cases hk : k = a.publicKey
    · rw [hk, OrdMap.get?_set_self] at h
      exact Or.inr ⟨hk, (Option.some.inj h).symm⟩
    · rw [OrdMap.get?_set_ne _ _ hk] at h
      exact Or.inl h
  · rw [join_of_not_admits (Bool.eq_false_iff.mpr hadmits), OrdMap.get?_delete] at h
    split at h
    · cases h
    · exact Or.inl h

theorem tokens_settle (c : Challenge) (res : Answer) (stackTx : Bool) {k t : Text}
    (h : (s.settle crypto c stackTx res).mapToken.get? k = some t) : s.mapToken.get? k = some t := by
  rcases s.settle_cases crypto c res stackTx with ⟨-, waiting, hstep⟩ | ⟨-, hstep⟩
  · rw [hstep, OrdMap.get?_delete] at h
    split at h
    · cases h
    · exact h
  · rw [hstep] at h
    exact h

/-- **What a step does to the tokens**: at most one key gets one, and it is new. -/
theorem tokens_step (crypto : Crypto) (op : Op) :
    ∃ key, ∀ k t, (s.step crypto op).mapToken.get? k = some t →
      s.mapToken.get? k = some t ∨ (k = key ∧ op.drawn = some t) := by
  cases op with
  | join l nanoid a =>
      refine ⟨a.publicKey, fun k t h => ?_⟩
      rcases tokens_join l nanoid a h with hold | ⟨hk, rfl⟩
      · exact Or.inl hold
      · exact Or.inr ⟨hk, rfl⟩
  | timeout => exact ⟨[], fun k t h => Or.inl h⟩
  | answer i res stackTx =>
      refine ⟨[], fun k t h => Or.inl ?_⟩
      unfold step answer at h
      dsimp only at h
      split at h
      · exact h
      next c hc => exact tokens_settle (s := s.close i c) c res stackTx h
  | immediate l nanoid =>
      unfold step immediate
      dsimp only
      split
      · exact ⟨[], fun k t h => Or.inl h⟩
      next a rest hwaiting =>
        refine ⟨a.publicKey, fun k t h => ?_⟩
        rcases tokens_join (s := { s with immediates := rest }) l nanoid a h with hold | ⟨hk, rfl⟩
        · exact Or.inl hold
        · exact Or.inr ⟨hk, rfl⟩

/-- What it takes to be let in. -/
theorem confirmation_eq {op : Op} {x : Text × Text} (h : s.confirmation crypto op = some x) :
    ∃ i sig stackTx c, op = .answer i (.object (some sig)) stackTx ∧ s.requests[i]? = some c
      ∧ s.confirms crypto c.publicKey (some sig) stackTx = true
      ∧ s.mapToken.get? c.publicKey = some x.2 ∧ x.1 = c.publicKey := by
  cases op with
  | join l nanoid a => cases h
  | timeout => cases h
  | immediate l nanoid => cases h
  | answer i res stackTx =>
      cases res with
      | nothing => cases h
      | object signedToken =>
          unfold confirmation at h
          dsimp only at h
          split at h
          · cases h
          next c hc =>
            split at h
            next hconfirms =>
              obtain ⟨token, htoken, rfl⟩ := Option.map_eq_some_iff.mp h
              cases signedToken with
              | some sig => exact ⟨i, sig, stackTx, c, rfl, hc, hconfirms, htoken, rfl⟩
              | none =>
                  unfold confirms at hconfirms
                  rw [htoken] at hconfirms
                  cases hconfirms
            next => cases h

/-- **Who is let in held the token, and holds it no more.** -/
theorem confirmation_spec {op : Op} {x : Text × Text} (h : s.confirmation crypto op = some x) :
    s.mapToken.get? x.1 = some x.2 ∧ (s.step crypto op).mapToken.get? x.1 = none
      ∧ op.drawn = none := by
  obtain ⟨i, sig, stackTx, c, rfl, hc, hconfirms, htoken, hkey⟩ := confirmation_eq h
  rw [hkey]
  refine ⟨htoken, ?_, rfl⟩
  have hsettle : (s.close i c).settle crypto c stackTx (.object (some sig))
      = { s.close i c with mapToken := (s.close i c).mapToken.delete c.publicKey } :=
    if_pos hconfirms
  unfold step answer
  dsimp only
  rw [hc]
  dsimp only
  rw [hsettle, OrdMap.get?_delete, if_pos rfl]

/-- Nobody is let in without a signature of the token. -/
theorem verified_of_confirms {publicKey sig token : Text} {stackTx : Bool}
    (h : s.confirms crypto publicKey (some sig) stackTx = true)
    (htoken : s.mapToken.get? publicKey = some token) :
    crypto.verifySignature publicKey sig token = true := by
  unfold confirms at h
  rw [htoken] at h
  simp only [Bool.and_eq_true] at h
  exact h.1.2

end Bootstrap.Joins

/-! ## §3. No token is good for two. -/

namespace Admission

variable {ι : Type} {honest : Text → Prop} {m : Admission ι}

/-- **What holds of the tokens**, in every state. -/
structure Sound (honest : Text → Prop) (m : Admission ι) : Prop where
  held : ∀ i k t, (m.members i).mapToken.get? k = some t →
    t ∈ m.drawn ∧ t ∉ m.confirmed.map fun x => x.2.2
  apart : ∀ i j k k' t, (m.members i).mapToken.get? k = some t →
    (m.members j).mapToken.get? k' = some t → i = j ∧ k = k'
  used : (m.confirmed.map fun x => x.2.2).Nodup
  drawn : ∀ x ∈ m.confirmed, x.2.2 ∈ m.drawn
  answered : ∀ x ∈ m.confirmed, honest x.2.1 → x.2.2 ∈ (m.newcomers x.2.1).signed
  asked : ∀ k, (m.newcomers k).signed.length + (m.newcomers k).isJoiningNetwork.toNat
    ≤ (m.newcomers k).asked

theorem sound_start : Sound honest (start : Admission ι) where
  held _ _ _ h := nomatch h
  apart _ _ _ _ _ h := nomatch h
  used := List.nodup_nil
  drawn _ h := nomatch h
  answered _ h := nomatch h
  asked _ := le_rfl

/-- A newcomer that does something has signed no less than before, and not more
than it has asked. -/
theorem Sound.newcomer (h : Sound honest m) (k : Text) (w : Newcomer)
    (hsigned : (m.newcomers k).signed ⊆ w.signed)
    (hasked : w.signed.length + w.isJoiningNetwork.toNat ≤ w.asked) :
    Sound honest { m with newcomers := Function.update m.newcomers k w } := by
  refine ⟨h.held, h.apart, h.used, h.drawn, ?_, ?_⟩
  · intro x hx hhonest
    have hold := h.answered x hx hhonest
    dsimp only
    by_cases hk : x.2.1 = k
    · rw [hk, Function.update_self]
      exact hsigned (hk ▸ hold)
    · rw [Function.update_of_ne hk]
      exact hold
  · intro k'
    dsimp only
    by_cases hk : k' = k
    · rw [hk, Function.update_self]
      exact hasked
    · rw [Function.update_of_ne hk]
      exact h.asked k'

variable [DecidableEq ι] {crypto : Crypto}

/-- What the members hold after a step they have held before, or one of them has
drawn it. -/
theorem tokens_after (crypto : Crypto) (m : Admission ι) (i : ι) (op : Joins.Op) : ∃ key, ∀ j k t,
    ((m.step crypto (.member i op)).members j).mapToken.get? k = some t →
      (m.members j).mapToken.get? k = some t ∨ (j = i ∧ k = key ∧ op.drawn = some t) := by
  obtain ⟨key, hkey⟩ := (m.members i).tokens_step crypto op
  refine ⟨key, fun j k t h => ?_⟩
  unfold step at h
  dsimp only at h
  by_cases hj : j = i
  · rw [hj, Function.update_self] at h
    rcases hkey k t h with hold | ⟨hk, hdrawn⟩
    · exact Or.inl (hj ▸ hold)
    · exact Or.inr ⟨hj, hk, hdrawn⟩
  · rw [Function.update_of_ne hj] at h
    exact Or.inl h

/-- A step that lets nobody in. -/
theorem Sound.member_none (h : Sound honest m) {i : ι} {op : Joins.Op}
    (hfresh : ∀ token, op.drawn = some token → token ∉ m.drawn)
    (hnone : (m.members i).confirmation crypto op = none) :
    Sound honest (m.step crypto (.member i op)) := by
  obtain ⟨key, hkey⟩ := tokens_after crypto m i op
  have hconfirmed : (m.step crypto (.member i op)).confirmed = m.confirmed := by
    unfold step
    dsimp only
    rw [hnone]
    exact List.append_nil _
  have hdrawn : m.drawn ⊆ (m.step crypto (.member i op)).drawn := List.subset_append_left _ _
  refine ⟨?_, ?_, ?_, ?_, ?_, h.asked⟩
  · intro j k t ht
    rw [hconfirmed]
    rcases hkey j k t ht with hold | ⟨-, -, hnew⟩
    · exact ⟨hdrawn (h.held j k t hold).1, (h.held j k t hold).2⟩
    · refine ⟨List.mem_append_right _ (Option.mem_toList.mpr hnew), fun hmem => ?_⟩
      obtain ⟨x, hx, rfl⟩ := List.mem_map.mp hmem
      exact hfresh _ hnew (h.drawn x hx)
  · intro j j' k k' t ht ht'
    -- a token that is new is not one that has been held
    rcases hkey j k t ht with hold | ⟨hj, hk, hnew⟩ <;>
      rcases hkey j' k' t ht' with hold' | ⟨hj', hk', hnew'⟩
    · exact h.apart j j' k k' t hold hold'
    · exact absurd (h.held j k t hold).1 (hfresh t hnew')
    · exact absurd (h.held j' k' t hold').1 (hfresh t hnew)
    · exact ⟨hj.trans hj'.symm, hk.trans hk'.symm⟩
  · rw [hconfirmed]
    exact h.used
  · intro x hx
    rw [hconfirmed] at hx
    exact hdrawn (h.drawn x hx)
  · intro x hx
    rw [hconfirmed] at hx
    exact h.answered x hx

/-- **A step that lets a key in** uses up its token. -/
theorem Sound.member_some (h : Sound honest m) {i : ι} {op : Joins.Op}
    (hunforged : Unforged crypto honest m i op) {x : Text × Text}
    (hsome : (m.members i).confirmation crypto op = some x) :
    Sound honest (m.step crypto (.member i op)) := by
  obtain ⟨key, hkey⟩ := tokens_after crypto m i op
  obtain ⟨hbefore, hafter, hnodraw⟩ := Joins.confirmation_spec hsome
  have hconfirmed : (m.step crypto (.member i op)).confirmed = m.confirmed ++ [(i, x)] := by
    unfold step
    dsimp only
    rw [hsome]
    rfl
  have hdrawn : (m.step crypto (.member i op)).drawn = m.drawn := by
    unfold step
    dsimp only
    rw [hnodraw]
    exact List.append_nil _
  have hold : ∀ j k t, ((m.step crypto (.member i op)).members j).mapToken.get? k = some t →
      (m.members j).mapToken.get? k = some t := by
    intro j k t ht
    rcases hkey j k t ht with hold | ⟨-, -, hnew⟩
    · exact hold
    · rw [hnodraw] at hnew
      exact nomatch hnew
  have hself : ((m.step crypto (.member i op)).members i).mapToken.get? x.1 = none := by
    unfold step
    dsimp only
    rw [Function.update_self]
    exact hafter
  have hheld := h.held i x.1 x.2 hbefore
  refine ⟨?_, ?_, ?_, ?_, ?_, h.asked⟩
  · intro j k t ht
    rw [hconfirmed, hdrawn, List.map_append, List.mem_append, not_or]
    refine ⟨(h.held j k t (hold j k t ht)).1, (h.held j k t (hold j k t ht)).2, ?_⟩
    intro hmem
    -- the token was held in one place, and it is not there any more
    obtain rfl := List.mem_singleton.mp hmem
    obtain ⟨rfl, rfl⟩ := h.apart j i k x.1 x.2 (hold j k _ ht) hbefore
    rw [hself] at ht
    exact nomatch ht
  · intro j j' k k' t ht ht'
    exact h.apart j j' k k' t (hold j k t ht) (hold j' k' t ht')
  · rw [hconfirmed, List.map_append, List.nodup_append]
    refine ⟨h.used, List.nodup_singleton _, ?_⟩
    intro t ht t' ht' heq
    rw [heq, List.mem_singleton.mp ht'] at ht
    exact hheld.2 ht
  · intro y hy
    rw [hconfirmed, List.mem_append] at hy
    rw [hdrawn]
    rcases hy with hy | hy
    · exact h.drawn y hy
    · obtain rfl := List.mem_singleton.mp hy
      exact hheld.1
  · intro y hy hhonest
    rw [hconfirmed, List.mem_append] at hy
    rcases hy with hy | hy
    · exact h.answered y hy hhonest
    · obtain rfl := List.mem_singleton.mp hy
      obtain ⟨j, sig, stackTx, c, rfl, hc, hconfirms, htoken, hk⟩ := Joins.confirmation_eq hsome
      have hverified := Joins.verified_of_confirms hconfirms htoken
      show x.2 ∈ (m.newcomers x.1).signed
      change honest x.1 at hhonest
      rw [hk] at hhonest ⊢
      exact hunforged c x.2 hc htoken hhonest hverified

/-- **Every step keeps it.** -/
theorem Sound.step (h : Sound honest m) {e : Event ι} (hok : Trusted crypto honest m e) :
    Sound honest (m.step crypto e) := by
  cases e with
  | member i op =>
      cases hconfirmation : (m.members i).confirmation crypto op with
      | none => exact h.member_none hok.1 hconfirmation
      | some x => exact h.member_some hok.2 hconfirmation
  | joinNetwork publicKey =>
      have hasked := h.asked publicKey
      refine h.newcomer publicKey _ (List.Subset.refl _) ?_
      show (m.newcomers publicKey).signed.length + 1 ≤ (m.newcomers publicKey).asked + 1
      omega
  | challenge publicKey token =>
      have hasked := h.asked publicKey
      refine h.newcomer publicKey _ ?_ ?_
      · unfold Newcomer.answer
        dsimp only
        split
        · exact List.subset_append_left _ _
        · exact List.Subset.refl _
      · unfold Newcomer.answer challenge
        dsimp only
        split
        next hchallenged =>
          rw [hchallenged.1] at hasked
          rw [List.length_append, List.length_singleton]
          exact hasked
        next =>
          refine le_trans ?_ hasked
          exact Nat.le_add_right _ _

theorem Reaches.sound (h : Reaches crypto honest start m) : Sound honest m := by
  induction h with
  | refl => exact sound_start
  | step h e hok ih => exact ih.step hok

/-! ## §4. Who has been let in has asked. -/

/-- How often members have let the key in. -/
def admitted (m : Admission ι) (k : Text) : List Text :=
  (m.confirmed.filter fun x => decide (x.2.1 = k)).map fun x => x.2.2

/-- **Every admission has a challenge of its own, and a call of its own.**  In
whatever order the members and newcomers are called by whomever, a token lets in
once, at one member; an honest key is let in for tokens that it has signed, and
not more often than it has called `joinNetwork`. -/
theorem admissions_agree (h : Reaches crypto honest start m) {k : Text} (hk : honest k) :
    (m.confirmed.map fun x => x.2.2).Nodup ∧ m.admitted k ⊆ (m.newcomers k).signed
      ∧ (m.admitted k).length ≤ (m.newcomers k).asked := by
  have hsound := h.sound
  have hsub : m.admitted k ⊆ (m.newcomers k).signed := by
    intro t ht
    obtain ⟨x, hx, rfl⟩ := List.mem_map.mp ht
    obtain ⟨hmem, hkey⟩ := List.mem_filter.mp hx
    obtain rfl := of_decide_eq_true hkey
    exact hsound.answered x hmem hk
  have hnodup : (m.admitted k).Nodup :=
    hsound.used.sublist (List.filter_sublist.map _)
  have hasked := hsound.asked k
  have hlength := (hnodup.subperm hsub).length_le
  exact ⟨hsound.used, hsub, by omega⟩

/-- The newcomer asks the first member; somebody asks the second one under its
key, and passes the challenge of the first one on. -/
def passedOn : Admission Nat :=
  start.run (tableCrypto [] []) [.joinNetwork (keyOf 0),
    .member 0 (.join .fresh (label 32 0) (Joins.newcomer 0)),
    .member 1 (.join .fresh (label 32 1) (Joins.newcomer 0)),
    .member 0 .timeout, .member 1 .timeout, .challenge (keyOf 0) (label 32 0)]

/-- What the first member gets for its challenge. -/
def signedAnswer : Event Nat :=
  .member 0 (.answer 0 (.object (some ((tableCrypto [] []).sign (keyOf 0) (label 32 0)))) true)

theorem reaches_passedOn : Reaches (tableCrypto [] []) (· = keyOf 0) start passedOn := by
  have hasked : Reaches (tableCrypto [] []) (· = keyOf 0) (start : Admission Nat) _ :=
    Reaches.refl.step (.joinNetwork (keyOf 0)) trivial
  have hfirst := hasked.step (.member 0 (.join .fresh (label 32 0) (Joins.newcomer 0)))
    ⟨fun _ _ => List.not_mem_nil, trivial⟩
  have hsecond := hfirst.step (.member 1 (.join .fresh (label 32 1) (Joins.newcomer 0))) (by
    refine ⟨fun token hdrawn => ?_, trivial⟩
    cases hdrawn
    decide +kernel)
  have hwaited := (hsecond.step (.member 0 .timeout) ⟨fun _ h => (nomatch h), trivial⟩).step
    (.member 1 .timeout) ⟨fun _ h => (nomatch h), trivial⟩
  exact hwaited.step (.challenge (keyOf 0) (label 32 0)) trivial

theorem admissions_agree_of_sample :
    ((passedOn.step (tableCrypto [] []) signedAnswer).admitted (keyOf 0)) = [label 32 0]
      ∧ ((passedOn.step (tableCrypto [] []) signedAnswer).admitted (keyOf 0)).length
          ≤ ((passedOn.step (tableCrypto [] []) signedAnswer).newcomers (keyOf 0)).asked := by
  have hrequest : (passedOn.members 0).requests[0]? = some ⟨Joins.newcomer 0, label 32 0⟩ := by
    decide +kernel
  have hheld : (passedOn.members 0).mapToken.get? (keyOf 0) = some (label 32 0) := by
    decide +kernel
  have hsigned : label 32 0 ∈ (passedOn.newcomers (keyOf 0)).signed := by decide +kernel
  have hreach : Reaches (tableCrypto [] []) (· = keyOf 0) start
      (passedOn.step (tableCrypto [] []) signedAnswer) := by
    refine reaches_passedOn.step signedAnswer ⟨fun _ h => (nomatch h), ?_⟩
    intro c token hc htoken hk hverified
    obtain rfl := Option.some.inj (hrequest.symm.trans hc)
    obtain rfl := Option.some.inj (hheld.symm.trans htoken)
    exact hsigned
  exact ⟨by decide +kernel, (admissions_agree hreach rfl).2.2⟩

end Admission

end Divachain
