/-
  Divachain.Net.Join — newcomers that ask to join at the same time.

  An existing node answers a join by challenging the newcomer: it draws a token,
  waits, asks for a signature of the token, and lets the newcomer in if that
  verifies.  Tokens are kept for each key.  The wait is one timer for all of
  them, and every join starts by clearing it.

  Main results:
    * `undisturbed_iff` — every key with a token has exactly one challenge
      outstanding, and every granted join is challenged, in exactly the runs
      whose steps are all careful;
    * `undisturbed_join_iff`, `undisturbed_answer_iff` — one step of each kind.
-/
import Divachain.Chain.TableCrypto
import Divachain.Chain.Ledger
import Divachain.Lib.StepInvariant

namespace Divachain

open DataKit

namespace Bootstrap

/-! ## §1. `join` and its callbacks. -/

def MAX_RETRY_JOIN : Nat := 10

/-- The arguments of `join`. -/
structure JoinArgs where
  http : Text
  udp : Text
  publicKey : Text
  r : Nat
  deriving DecidableEq

/-- A granted join, as its timer and then its request hold it. -/
structure Challenge extends JoinArgs where
  token : Text
  deriving DecidableEq

/-- What `join` and its callbacks share.  The last two fields are not in the
source: they record what has been granted, and what has been answered. -/
structure Joins where
  mapToken : OrdMap Text Text
  /-- The timer, while it is pending. -/
  timeoutChallenge : Option Challenge
  /-- The challenges that have been sent. -/
  requests : List Challenge
  /-- The calls that `setImmediate` has put off. -/
  immediates : List JoinArgs
  granted : List Challenge
  ended : List Challenge

/-- What a request brings: a falsy `res`, as `fetchFromApi` also returns where the
fetch fails, or one with a text as its `token` or without. -/
inductive Answer where
  | nothing
  | object (token : Option Text)
  deriving DecidableEq

namespace Joins

def start : Joins := ⟨.empty, none, [], [], [], []⟩

/-- Whether `join` gets past its checks. -/
def admits (s : Joins) (l : Ledger) (a : JoinArgs) : Bool :=
  !a.http.isEmpty && !a.udp.isEmpty && isKeyText a.publicKey
    && !s.mapToken.has a.publicKey && !l.hasPeer a.publicKey

def join (s : Joins) (l : Ledger) (nanoid : Text) (a : JoinArgs) : Joins × Bool :=
  -- `clearTimeout` comes first, whoever the timer belongs to
  if s.admits l a then
    ({ s with
        timeoutChallenge := some ⟨a, nanoid⟩
        mapToken := s.mapToken.set a.publicKey nanoid
        granted := s.granted ++ [⟨a, nanoid⟩] }, true)
  else
    ({ s with timeoutChallenge := none, mapToken := s.mapToken.delete a.publicKey }, false)

/-- The timer fires, and the challenge is sent. -/
def timeout (s : Joins) : Joins :=
  { s with timeoutChallenge := none, requests := s.requests ++ s.timeoutChallenge.toList }

variable (crypto : Crypto)

/-- Whether `confirm` comes to its end; otherwise it throws.  The signature is
checked against the token that the key has now. -/
def confirms (s : Joins) (publicKey : Text) (signedToken : Option Text) (stackTx : Bool) : Bool :=
  match s.mapToken.get? publicKey, signedToken with
  | some token, some sig => !token.isEmpty && crypto.verifySignature publicKey sig token && stackTx
  | _, _ => false

/-- The `i`-th request in flight, which is that of `c`, is over. -/
def close (s : Joins) (i : Nat) (c : Challenge) : Joins :=
  { s with requests := s.requests.eraseIdx i, ended := s.ended ++ [c] }

/-- What the challenge of `c` does with its answer. -/
def settle (s : Joins) (c : Challenge) (stackTx : Bool) : Answer → Joins
  -- `res && ..`: neither confirmed nor an error
  | .nothing => s
  | .object signedToken =>
      if s.confirms crypto c.publicKey signedToken stackTx then
        { s with mapToken := s.mapToken.delete c.publicKey }
      else if c.r < MAX_RETRY_JOIN then
        -- `r++` hands on the old `r`
        { s with
            mapToken := s.mapToken.delete c.publicKey
            immediates := s.immediates ++ [c.toJoinArgs] }
      else s

/-- The `i`-th request in flight is answered. -/
def answer (s : Joins) (i : Nat) (res : Answer) (stackTx : Bool) : Joins :=
  match s.requests[i]? with
  | none => s
  | some c => (s.close i c).settle crypto c stackTx res

/-- The first call put off is made. -/
def immediate (s : Joins) (l : Ledger) (nanoid : Text) : Joins :=
  match s.immediates with
  | [] => s
  | a :: rest => ({ s with immediates := rest }.join l nanoid a).1

/-- What can happen next. -/
inductive Op where
  | join (l : Ledger) (nanoid : Text) (a : JoinArgs)
  | timeout
  | answer (i : Nat) (res : Answer) (stackTx : Bool)
  | immediate (l : Ledger) (nanoid : Text)

def step (s : Joins) : Op → Joins
  | .join l nanoid a => (s.join l nanoid a).1
  | .timeout => s.timeout
  | .answer i res stackTx => s.answer crypto i res stackTx
  | .immediate l nanoid => s.immediate l nanoid

def run (ops : List Op) : Joins := ops.foldl (step crypto) start

/-! ## §2. Joins that leave each other alone. -/

/-- The challenges on their way: with the timer, or in flight. -/
def outstanding (s : Joins) : List Challenge := s.timeoutChallenge.toList ++ s.requests

/-- How many of them are for one key. -/
def countFor (s : Joins) (publicKey : Text) : Nat :=
  s.outstanding.countP fun c => decide (c.publicKey = publicKey)

/-- **Joins have not disturbed each other.** -/
structure Undisturbed (s : Joins) : Prop where
  one : ∀ publicKey, s.mapToken.has publicKey = true → s.countFor publicKey = 1
  /-- What has been granted is on its way or has been answered. -/
  challenged : s.granted.Perm (s.outstanding ++ s.ended)

/-- Whoever is answered here can join again at once. -/
def Frees (s : Joins) (op : Op) : Prop :=
  match op with
  | .answer i res stackTx =>
      ∀ c, s.requests[i]? = some c →
        ∀ (l : Ledger) (nanoid : Text) (a : JoinArgs), a.publicKey = c.publicKey →
          a.http ≠ [] → a.udp ≠ [] → isKeyText a.publicKey = true → l.hasPeer a.publicKey = false →
          ((s.answer crypto i res stackTx).join l nanoid a).2 = true
  | _ => True

/-- No timer is pending, and where the join is granted, nothing is in flight for
its key. -/
def CarefulJoin (s : Joins) (l : Ledger) (a : JoinArgs) : Prop :=
  s.timeoutChallenge = none ∧
    (s.admits l a = true → ∀ c ∈ s.requests, c.publicKey ≠ a.publicKey)

/-- The answer is an object, and it verifies or may be asked for again. -/
def CarefulAnswer (s : Joins) (c : Challenge) (res : Answer) (stackTx : Bool) : Prop :=
  ∃ signedToken, res = .object signedToken ∧
    (s.confirms crypto c.publicKey signedToken stackTx = true ∨ c.r < MAX_RETRY_JOIN)

/-- **What a step must be like** to disturb nobody. -/
def Careful (s : Joins) (op : Op) : Prop :=
  match op with
  | .join l _ a => s.CarefulJoin l a
  | .timeout => True
  | .answer i res stackTx =>
      ∀ c, s.requests[i]? = some c → s.mapToken.has c.publicKey = true →
        s.CarefulAnswer crypto c res stackTx
  | .immediate l _ => ∀ a ∈ s.immediates.head?, s.CarefulJoin l a

/-! ## §3. What the steps do. -/

section

variable {crypto} {s : Joins}

theorem admits_iff (s : Joins) (l : Ledger) (a : JoinArgs) :
    s.admits l a = true ↔ a.http ≠ [] ∧ a.udp ≠ [] ∧ isKeyText a.publicKey = true
      ∧ s.mapToken.has a.publicKey = false ∧ l.hasPeer a.publicKey = false := by
  simp only [admits, Bool.and_eq_true, Bool.not_eq_true', List.isEmpty_eq_false_iff, ne_eq,
    and_assoc]

theorem countFor_eq (s : Joins) (publicKey : Text) :
    s.countFor publicKey
      = s.timeoutChallenge.toList.countP (fun c => decide (c.publicKey = publicKey))
        + s.requests.countP (fun c => decide (c.publicKey = publicKey)) :=
  List.countP_append

theorem countFor_none (h : s.timeoutChallenge = none) (publicKey : Text) :
    s.countFor publicKey = s.requests.countP (fun c => decide (c.publicKey = publicKey)) := by
  rw [countFor, outstanding, h]
  rfl

theorem countFor_some {c : Challenge} (h : s.timeoutChallenge = some c) (publicKey : Text) :
    s.countFor publicKey
      = s.requests.countP (fun c => decide (c.publicKey = publicKey))
        + if c.publicKey = publicKey then 1 else 0 := by
  rw [countFor, outstanding, h, Option.toList_some, List.singleton_append, List.countP_cons]
  simp only [decide_eq_true_eq]

theorem join_of_admits {l : Ledger} {nanoid : Text} {a : JoinArgs} (h : s.admits l a = true) :
    s.join l nanoid a
      = ({ s with
            timeoutChallenge := some ⟨a, nanoid⟩
            mapToken := s.mapToken.set a.publicKey nanoid
            granted := s.granted ++ [⟨a, nanoid⟩] }, true) :=
  if_pos h

theorem join_of_not_admits {l : Ledger} {nanoid : Text} {a : JoinArgs}
    (h : s.admits l a = false) :
    s.join l nanoid a
      = ({ s with timeoutChallenge := none, mapToken := s.mapToken.delete a.publicKey }, false) := by
  unfold join
  rw [h]
  rfl

/-- As many are on their way or have been answered as have been granted. -/
theorem Undisturbed.length (h : s.Undisturbed) :
    s.granted.length = s.timeoutChallenge.toList.length + s.requests.length + s.ended.length := by
  have hlength := h.challenged.length_eq
  rw [outstanding, List.length_append, List.length_append] at hlength
  exact hlength

theorem timer_eq_none {o : Option Challenge} (h : o.toList.length = 0) : o = none := by
  cases o with
  | none => rfl
  | some c => exact nomatch h

/-- A join that is refused still clears the timer. -/
theorem undisturbed_refused_iff (h : s.Undisturbed) (publicKey : Text) :
    Undisturbed { s with timeoutChallenge := none, mapToken := s.mapToken.delete publicKey }
      ↔ s.timeoutChallenge = none := by
  constructor
  · intro hnext
    have hbefore := h.length
    have hafter : s.granted.length = 0 + s.requests.length + s.ended.length := hnext.length
    exact timer_eq_none (by omega)
  · intro htimer
    have hall := h.challenged
    rw [outstanding, htimer] at hall
    refine ⟨?_, hall⟩
    intro publicKey' hhas
    rw [OrdMap.has_delete, Bool.and_eq_true] at hhas
    rw [countFor_none rfl]
    exact (countFor_none htimer publicKey').symm.trans (h.one publicKey' hhas.2)

/-- A join that is granted takes the timer, and its key must have nothing in
flight. -/
theorem undisturbed_granted_iff (h : s.Undisturbed) (c : Challenge) :
    Undisturbed { s with
        timeoutChallenge := some c
        mapToken := s.mapToken.set c.publicKey c.token
        granted := s.granted ++ [c] }
      ↔ s.timeoutChallenge = none ∧ ∀ c' ∈ s.requests, c'.publicKey ≠ c.publicKey := by
  constructor
  · intro hnext
    have hbefore := h.length
    have hafter : (s.granted ++ [c]).length = 1 + s.requests.length + s.ended.length :=
      hnext.length
    rw [List.length_append, List.length_singleton] at hafter
    refine ⟨timer_eq_none (by omega), ?_⟩
    intro c' hc' heq
    have hone := hnext.one c.publicKey
      (by rw [OrdMap.has_set, decide_eq_true rfl, Bool.true_or])
    -- The new challenge and the one in flight are two.
    rw [countFor_some rfl, if_pos rfl] at hone
    have hflight : 0 < s.requests.countP (fun c' => decide (c'.publicKey = c.publicKey)) :=
      List.countP_pos_iff.mpr ⟨c', hc', decide_eq_true heq⟩
    dsimp only at hone
    omega
  · intro hcareful
    obtain ⟨htimer, hnone⟩ := hcareful
    have hall := h.challenged
    rw [outstanding, htimer] at hall
    refine ⟨?_, (List.perm_append_singleton c s.granted).trans (hall.cons c)⟩
    intro publicKey hhas
    rw [countFor_some rfl]
    by_cases heq : c.publicKey = publicKey
    · rw [if_pos heq, Nat.add_eq_right, List.countP_eq_zero]
      intro c' hc' hsame
      exact hnone c' hc' ((of_decide_eq_true hsame).trans heq.symm)
    · rw [OrdMap.has_set, decide_eq_false (Ne.symm heq), Bool.false_or] at hhas
      rw [if_neg heq, Nat.add_zero]
      exact (countFor_none htimer publicKey).symm.trans (h.one publicKey hhas)

/-- **One join.** -/
theorem undisturbed_join_iff (h : s.Undisturbed) (l : Ledger) (nanoid : Text) (a : JoinArgs) :
    (s.join l nanoid a).1.Undisturbed ↔ s.CarefulJoin l a := by
  unfold CarefulJoin
  cases hadmits : s.admits l a with
  | false =>
      rw [join_of_not_admits hadmits]
      simpa using undisturbed_refused_iff h a.publicKey
  | true =>
      rw [join_of_admits hadmits]
      simpa using undisturbed_granted_iff h ⟨a, nanoid⟩

/-- The timer hands its challenge on to the requests. -/
theorem undisturbed_timeout (h : s.Undisturbed) : s.timeout.Undisturbed := by
  have hperm : s.timeout.outstanding.Perm s.outstanding := by
    show (s.requests ++ s.timeoutChallenge.toList).Perm (s.timeoutChallenge.toList ++ s.requests)
    exact List.perm_append_comm
  refine ⟨?_, ?_⟩
  · intro publicKey hhas
    have hone := h.one publicKey hhas
    rw [countFor] at hone ⊢
    rw [hperm.countP_eq]
    exact hone
  · exact h.challenged.trans (hperm.symm.append_right _)

/-- The two ways an answer can go: the key loses its token, or all stays. -/
theorem settle_cases (crypto : Crypto) (s : Joins) (c : Challenge) (res : Answer) (stackTx : Bool) :
    (s.CarefulAnswer crypto c res stackTx ∧
        ∃ waiting, s.settle crypto c stackTx res
          = { s with mapToken := s.mapToken.delete c.publicKey, immediates := waiting })
      ∨ (¬ s.CarefulAnswer crypto c res stackTx ∧ s.settle crypto c stackTx res = s) := by
  cases res with
  | nothing =>
      right
      refine ⟨?_, rfl⟩
      rintro ⟨_, h, _⟩
      exact nomatch h
  | object signedToken =>
      unfold settle
      dsimp only
      split
      next hconfirms => exact Or.inl ⟨⟨signedToken, rfl, Or.inl hconfirms⟩, s.immediates, rfl⟩
      next hthrows =>
        split
        next hretry => exact Or.inl ⟨⟨signedToken, rfl, Or.inr hretry⟩, _, rfl⟩
        next hlast =>
          right
          refine ⟨?_, rfl⟩
          rintro ⟨_, h, hor⟩
          obtain rfl := Answer.object.inj h
          rcases hor with hconfirms | hretry
          · exact hthrows hconfirms
          · exact hlast hretry

variable {i : Nat} {c : Challenge}

theorem requests_perm (hc : s.requests[i]? = some c) :
    (c :: s.requests.eraseIdx i).Perm s.requests := by
  obtain ⟨hi, rfl⟩ := List.getElem?_eq_some_iff.mp hc
  exact List.getElem_cons_eraseIdx_perm hi

/-- One challenge less is outstanding, for the key of `c`. -/
theorem countFor_close (hc : s.requests[i]? = some c) (publicKey : Text) :
    s.countFor publicKey
      = (s.close i c).countFor publicKey + if c.publicKey = publicKey then 1 else 0 := by
  have hcount := (requests_perm hc).countP_eq fun c => decide (c.publicKey = publicKey)
  rw [List.countP_cons] at hcount
  simp only [decide_eq_true_eq] at hcount
  rw [countFor_eq, countFor_eq, ← hcount]
  exact (Nat.add_assoc _ _ _).symm

theorem challenged_close (hc : s.requests[i]? = some c) (h : s.Undisturbed) :
    s.granted.Perm ((s.close i c).outstanding ++ (s.close i c).ended) := by
  have hmoved : (s.outstanding ++ s.ended).Perm
      (s.timeoutChallenge.toList ++ s.requests.eraseIdx i ++ (s.ended ++ [c])) := by
    have hrequests := (requests_perm hc).symm.append_left s.timeoutChallenge.toList
    have hout : s.outstanding.Perm
        (c :: (s.timeoutChallenge.toList ++ s.requests.eraseIdx i)) :=
      hrequests.trans List.perm_middle
    have hended := hout.append_right s.ended
    refine hended.trans ?_
    rw [← List.append_assoc]
    exact (List.perm_append_singleton c _).symm
  exact h.challenged.trans hmoved

/-- **One answer**: the key it is for must not be left with its token. -/
theorem undisturbed_answer_iff (h : s.Undisturbed) (i : Nat) (res : Answer) (stackTx : Bool) :
    (s.answer crypto i res stackTx).Undisturbed
      ↔ ∀ c, s.requests[i]? = some c → s.mapToken.has c.publicKey = true →
          s.CarefulAnswer crypto c res stackTx := by
  unfold answer
  cases hc : s.requests[i]? with
  | none => simp [h]
  | some c =>
      have hclosed := challenged_close hc h
      simp only [Option.some.injEq, forall_eq']
      rcases (s.close i c).settle_cases crypto c res stackTx with
        ⟨hcareful, waiting, hsettled⟩ | ⟨hcareless, hsettled⟩
      · rw [hsettled]
        refine iff_of_true ⟨?_, hclosed⟩ fun _ => hcareful
        intro publicKey hhas
        rw [OrdMap.has_delete, Bool.and_eq_true, Bool.not_eq_true', decide_eq_false_iff_not] at hhas
        have hone := h.one publicKey hhas.2
        rw [countFor_close hc, if_neg (Ne.symm hhas.1)] at hone
        exact hone
      · rw [hsettled]
        constructor
        · intro hnext hhas
          -- Its only challenge is over.
          have hone := h.one c.publicKey hhas
          have hzero := hnext.one c.publicKey hhas
          rw [countFor_close hc, if_pos rfl] at hone
          omega
        · intro hall
          refine ⟨?_, hclosed⟩
          intro publicKey hhas
          have hone := h.one publicKey hhas
          rw [countFor_close hc] at hone
          by_cases heq : c.publicKey = publicKey
          · subst heq
            exact absurd (hall hhas) hcareless
          · rw [if_neg heq] at hone
            exact hone

/-- Whoever is answered with care holds no token afterwards, and nothing else
keeps a newcomer from joining. -/
theorem frees_of_careful {op : Op} (h : s.Careful crypto op) : s.Frees crypto op := by
  cases op with
  | answer i res stackTx =>
      intro c hc l nanoid a hkey hhttp hudp hkeyText hpeer
      have hfree : (s.answer crypto i res stackTx).mapToken.has c.publicKey = false := by
        unfold answer
        rw [hc]
        dsimp only
        rcases (s.close i c).settle_cases crypto c res stackTx with
          ⟨_, waiting, hsettled⟩ | ⟨hcareless, hsettled⟩
        · rw [hsettled, OrdMap.has_delete, decide_eq_true rfl]
          rfl
        · rw [hsettled, ← Bool.not_eq_true]
          exact fun hhas => hcareless (h c hc hhas)
      rw [← hkey] at hfree
      have hadmits := (admits_iff (s.answer crypto i res stackTx) l a).mpr
        ⟨hhttp, hudp, hkeyText, hfree, hpeer⟩
      rw [join_of_admits hadmits]
  | join l nanoid a => trivial
  | timeout => trivial
  | immediate l nanoid => trivial

/-- **One step.** -/
theorem undisturbed_step_iff (crypto : Crypto) (h : s.Undisturbed) (op : Op) :
    (s.step crypto op).Undisturbed ↔ s.Careful crypto op := by
  cases op with
  | join l nanoid a => exact undisturbed_join_iff h l nanoid a
  | timeout => exact iff_of_true (undisturbed_timeout h) trivial
  | answer i res stackTx => exact undisturbed_answer_iff h i res stackTx
  | immediate l nanoid =>
      show (s.immediate l nanoid).Undisturbed ↔ ∀ a ∈ s.immediates.head?, s.CarefulJoin l a
      unfold immediate
      cases hwaiting : s.immediates with
      | nil => simp [h]
      | cons a rest =>
          have hs : Undisturbed { s with immediates := rest } := ⟨h.one, h.challenged⟩
          simpa [CarefulJoin, admits] using undisturbed_join_iff hs l nanoid a

end

/-! ## §4. Runs. -/

theorem undisturbed_start : start.Undisturbed :=
  ⟨(fun _ h => nomatch h), List.Perm.nil⟩

/-- **Joins leave each other alone exactly in the careful runs**: in every state
each key with a token has one challenge outstanding and each granted join is
challenged, and whoever has been answered can join again at once, if and only if
every step of the run is careful. -/
theorem undisturbed_iff (crypto : Crypto) (ops : List Op) :
    ((∀ k, (run crypto (ops.take k)).Undisturbed)
        ∧ ∀ (k : Nat) (hk : k < ops.length), (run crypto (ops.take k)).Frees crypto ops[k])
      ↔ ∀ (k : Nat) (hk : k < ops.length), (run crypto (ops.take k)).Careful crypto ops[k] := by
  have hruns := invariant_iff (P := Undisturbed) (C := Careful crypto)
    (fun s op (hs : s.Undisturbed) => undisturbed_step_iff crypto hs op) undisturbed_start ops
  constructor
  · intro h
    exact hruns.mp h.1
  · intro h
    refine ⟨hruns.mpr h, ?_⟩
    intro k hk
    exact frees_of_careful (h k hk)

/-- A newcomer with the `i`-th key. -/
def newcomer (i : Nat) : JoinArgs := ⟨['h'], ['u'], keyOf i, 0⟩

/-- A ledger without peers, and a second newcomer right after the first. -/
def twoNewcomers : List Op := (List.range 2).map fun i => .join .fresh (label 32 i) (newcomer i)

/-- **The second join cancels the challenge of the first**, which has been
granted and keeps its token: it is never challenged, and its next join is
refused. -/
theorem not_undisturbed_of_two :
    ¬ (run (tableCrypto [] []) twoNewcomers).Undisturbed
      ∧ (start.join .fresh (label 32 0) (newcomer 0)).2 = true
      ∧ (run (tableCrypto [] []) twoNewcomers).mapToken.has (keyOf 0) = true
      ∧ (run (tableCrypto [] []) twoNewcomers).countFor (keyOf 0) = 0
      ∧ ((run (tableCrypto [] []) twoNewcomers).join .fresh (label 32 2) (newcomer 0)).2
          = false := by
  have hhas : (run (tableCrypto [] []) twoNewcomers).mapToken.has (keyOf 0) = true := by
    decide +kernel
  have hnone : (run (tableCrypto [] []) twoNewcomers).countFor (keyOf 0) = 0 := by
    decide +kernel
  refine ⟨?_, by decide +kernel, hhas, hnone, by decide +kernel⟩
  intro h
  have hone := h.one _ hhas
  omega

end Joins

end Bootstrap

end Divachain
