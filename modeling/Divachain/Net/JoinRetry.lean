/-
  Divachain.Net.JoinRetry — whether the retries of a join are bounded.

  A challenge that fails puts the join off to the next turn of the event loop.
  The call that is put off gets `r++`, which is the old `r`: the counter never
  counts.  `Track` follows one request from outside through a run, whatever else
  happens in it.

  Main results:
    * `retries_bounded` — a request of which no more than ten answers fail causes
      no more than eleven challenges;
    * `tracked` — every retry has the arguments of the request, `r` included;
    * `challenges_le`, `failing_le` — it causes at most one challenge more than
      fail, and at least as many;
    * `challenges_of_failing` — a request whose challenges all fail is never
      given up.
-/
import Divachain.Net.Join

namespace Divachain

open DataKit

namespace Bootstrap

/-! ## §1. One request. -/

/-- Where a request stands. -/
inductive Place where
  /-- Its timer is pending. -/
  | waiting
  /-- Its challenge is the `i`-th request in flight. -/
  | asked (i : Nat)
  /-- Its next join is the `i`-th of those that are put off. -/
  | putOff (i : Nat)
  | settled
  deriving DecidableEq

/-- The request, the challenges it has caused, and how many of them have failed. -/
structure Track where
  place : Place
  challenges : Nat
  failures : Nat
  deriving DecidableEq

namespace Joins

variable (crypto : Crypto)

/-- The answer makes `confirm` throw, and `join` is put off. -/
def retries (s : Joins) (c : Challenge) (res : Answer) (stackTx : Bool) : Bool :=
  match res with
  | .nothing => false
  | .object signedToken =>
      !s.confirms crypto c.publicKey signedToken stackTx && decide (c.r < MAX_RETRY_JOIN)

/-- A request of which a join has just been made. -/
def placed (s : Joins) (l : Ledger) (a : JoinArgs) : Place :=
  if s.admits l a then .waiting else .settled

/-- Its timer is cleared, if it is pending. -/
def clear (t : Track) : Track :=
  match t.place with
  | .waiting => { t with place := .settled }
  | _ => t

/-- The timer expires. -/
def followTimeout (s : Joins) (t : Track) : Track :=
  match t.place with
  | .waiting => { t with place := .asked s.requests.length, challenges := t.challenges + 1 }
  | _ => t

/-- The `i`-th request in flight is answered. -/
def followAnswer (s : Joins) (t : Track) (i : Nat) (res : Answer) (stackTx : Bool) : Track :=
  match t.place, s.requests[i]? with
  | .asked k, some c =>
      if i = k then
        if s.retries crypto c res stackTx then
          { t with place := .putOff s.immediates.length, failures := t.failures + 1 }
        else { t with place := .settled }
      -- an earlier request has left the list
      else if i < k then { t with place := .asked (k - 1) }
      else t
  | _, _ => t

/-- The first join that is put off is made. -/
def followImmediate (s : Joins) (t : Track) (l : Ledger) : Track :=
  match s.immediates, t.place with
  | [], _ => t
  | a :: _, .putOff 0 => { t with place := s.placed l a }
  | _ :: _, .putOff (k + 1) => { t with place := .putOff k }
  | _ :: _, _ => clear t

/-- **What a step in the state `s` does to the request.** -/
def follow (s : Joins) (t : Track) : Op → Track
  -- every join clears the timer
  | .join _ _ _ => clear t
  | .timeout => s.followTimeout t
  | .answer i res stackTx => s.followAnswer crypto t i res stackTx
  | .immediate l _ => s.followImmediate t l

/-- One step, with the request that is followed. -/
def stepTracked (x : Joins × Track) (op : Op) : Joins × Track :=
  (x.1.step crypto op, follow crypto x.1 x.2 op)

/-- A join from outside, in the state `s`. -/
def request (s : Joins) (l : Ledger) (nanoid : Text) (a : JoinArgs) : Joins × Track :=
  ((s.join l nanoid a).1, ⟨s.placed l a, 0, 0⟩)

/-- The run from there. -/
def runTracked (x : Joins × Track) (ops : List Op) : Joins × Track :=
  ops.foldl (stepTracked crypto) x

/-- **The request is at its place**, with the arguments it has come with. -/
def At (a : JoinArgs) (s : Joins) : Place → Prop
  | .waiting => ∃ token, s.timeoutChallenge = some ⟨a, token⟩
  | .asked i => ∃ token, s.requests[i]? = some ⟨a, token⟩
  | .putOff i => s.immediates[i]? = some a
  | .settled => True

/-- **Each failure causes one more challenge**, and nothing else does. -/
def Counted (t : Track) : Prop :=
  match t.place with
  | .waiting | .putOff _ => t.challenges = t.failures
  | .asked _ => t.challenges = t.failures + 1
  | .settled => t.challenges ≤ t.failures + 1

/-- The answer makes `confirm` throw. -/
def throws (s : Joins) (c : Challenge) (stackTx : Bool) : Answer → Bool
  | .nothing => false
  | .object signedToken => !s.confirms crypto c.publicKey signedToken stackTx

/-- **The challenge of the request is answered, and the answer fails.** -/
def fails (s : Joins) (t : Track) : Op → Bool
  | .answer i res stackTx =>
      decide (t.place = .asked i) && (s.requests[i]?).any fun c => s.throws crypto c stackTx res
  | _ => false

/-- How many of the answers in a run fail. -/
def failing : Joins × Track → List Op → Nat
  | _, [] => 0
  | x, op :: ops => (fails crypto x.1 x.2 op).toNat + failing (stepTracked crypto x op) ops

/-- How many challenges of the request are in flight. -/
def inFlight (t : Track) : Nat :=
  match t.place with
  | .asked _ => 1
  | _ => 0

/-! ## §2. What a step does to the request. -/

section

variable {crypto} {s : Joins} {t : Track} {a : JoinArgs}

/-- A challenge is caused where the timer of the request expires. -/
theorem challenges_follow (crypto : Crypto) (s : Joins) (t : Track) (op : Op) :
    (follow crypto s t op).challenges
      = match op, t.place with
        | .timeout, .waiting => t.challenges + 1
        | _, _ => t.challenges := by
  obtain ⟨place, challenges, failures⟩ := t
  cases op with
  | join l nanoid a => cases place <;> rfl
  | timeout => cases place <;> rfl
  | answer i res stackTx =>
      show (s.followAnswer crypto _ i res stackTx).challenges = challenges
      unfold followAnswer
      split
      · split
        · split <;> rfl
        · split <;> rfl
      · rfl
  | immediate l nanoid =>
      show (s.followImmediate _ l).challenges = challenges
      unfold followImmediate
      split
      · rfl
      · rfl
      · rfl
      · cases place <;> rfl

/-- What is put off has failed. -/
theorem throws_of_retries {c : Challenge} {res : Answer} {stackTx : Bool}
    (h : s.retries crypto c res stackTx = true) : s.throws crypto c stackTx res = true := by
  cases res with
  | nothing => exact h
  | object signedToken => exact (Bool.and_eq_true_iff.mp h).1

theorem counted_clear (h : Counted t) : Counted (clear t) := by
  obtain ⟨place, challenges, failures⟩ := t
  cases place with
  | waiting => exact Nat.le_succ_of_le (Nat.le_of_eq h)
  | asked k => exact h
  | putOff k => exact h
  | settled => exact h

theorem counted_placed {t : Track} (h : t.challenges = t.failures) (s : Joins) (l : Ledger)
    (a : JoinArgs) : Counted { t with place := s.placed l a } := by
  unfold placed
  split
  · exact h
  · exact Nat.le_succ_of_le (Nat.le_of_eq h)

/-- **Each step keeps the count.** -/
theorem counted_follow (crypto : Crypto) (s : Joins) (h : Counted t) (op : Op) :
    Counted (follow crypto s t op) := by
  cases op with
  | join l nanoid a => exact counted_clear h
  | timeout =>
      obtain ⟨place, challenges, failures⟩ := t
      cases place with
      | waiting => exact congrArg (· + 1) h
      | asked k => exact h
      | putOff k => exact h
      | settled => exact h
  | answer i res stackTx =>
      show Counted (s.followAnswer crypto t i res stackTx)
      unfold followAnswer
      split
      next k c hplace hc =>
        have hasked : t.challenges = t.failures + 1 := by
          rw [Counted, hplace] at h
          exact h
        split
        · split
          · exact hasked
          · exact Nat.le_of_eq hasked
        · split
          · exact hasked
          · exact h
      · exact h
  | immediate l nanoid =>
      show Counted (s.followImmediate t l)
      unfold followImmediate
      split
      · exact h
      next a rest hwaiting hplace =>
        rw [Counted, hplace] at h
        exact counted_placed h s l a
      next a rest k hwaiting hplace =>
        rw [Counted, hplace] at h
        exact h
      · exact counted_clear h

theorem counted_request (s : Joins) (l : Ledger) (nanoid : Text) (a : JoinArgs) :
    Counted (s.request l nanoid a).2 := by
  exact counted_placed (t := ⟨.settled, 0, 0⟩) rfl s l a

/-- The count of failures goes up where an answer fails. -/
theorem failures_follow (crypto : Crypto) (s : Joins) (t : Track) (op : Op) :
    (follow crypto s t op).failures ≤ t.failures + (fails crypto s t op).toNat := by
  obtain ⟨place, challenges, failures⟩ := t
  cases op with
  | join l nanoid a => cases place <;> exact Nat.le_refl _
  | timeout => cases place <;> exact Nat.le_refl _
  | immediate l nanoid =>
      show (s.followImmediate _ l).failures ≤ _
      unfold followImmediate
      split
      · exact Nat.le_refl _
      · exact Nat.le_refl _
      · exact Nat.le_refl _
      · cases place <;> exact Nat.le_refl _
  | answer i res stackTx =>
      show (s.followAnswer crypto _ i res stackTx).failures ≤ _
      unfold followAnswer
      split
      next k c hplace hc =>
        split
        next heq =>
          subst heq
          split
          next hretries =>
            have hthrows : s.throws crypto c stackTx res = true := throws_of_retries hretries
            have hfails : fails crypto s ⟨place, challenges, failures⟩ (.answer i res stackTx)
                = true := by
              rw [fails, hc, Option.any_some, hthrows, Bool.and_true]
              exact decide_eq_true hplace
            rw [hfails]
            exact Nat.le_refl _
          next => exact Nat.le_add_right _ _
        next => split <;> exact Nat.le_add_right _ _
      next => exact Nat.le_add_right _ _

/-- **A challenge that is answered has been in flight**, and is so no more. -/
theorem inFlight_follow (crypto : Crypto) (s : Joins) (t : Track) (op : Op) :
    inFlight (follow crypto s t op) + (fails crypto s t op).toNat + t.challenges
      ≤ inFlight t + (follow crypto s t op).challenges := by
  rw [challenges_follow]
  obtain ⟨place, challenges, failures⟩ := t
  cases op with
  | join l nanoid a => cases place <;> exact Nat.le_refl _
  | timeout =>
      cases place with
      | waiting => exact Nat.le_of_eq (by show 1 + 0 + challenges = 0 + (challenges + 1); omega)
      | asked k => exact Nat.le_refl _
      | putOff k => exact Nat.le_refl _
      | settled => exact Nat.le_refl _
  | immediate l nanoid =>
      show inFlight (s.followImmediate _ l) + 0 + challenges ≤ _ + challenges
      have hle : inFlight (s.followImmediate ⟨place, challenges, failures⟩ l)
          ≤ inFlight ⟨place, challenges, failures⟩ := by
        unfold followImmediate
        split
        · exact Nat.le_refl _
        · unfold placed
          split <;> exact Nat.zero_le _
        · exact Nat.zero_le _
        · cases place <;> exact Nat.le_refl _
      omega
  | answer i res stackTx =>
      show inFlight (s.followAnswer crypto ⟨place, challenges, failures⟩ i res stackTx)
        + _ + challenges ≤ _ + challenges
      refine Nat.add_le_add_right ?_ challenges
      by_cases hasked : place = .asked i
      · subst hasked
        cases hc : s.requests[i]? with
        | none =>
            have hfails : fails crypto s ⟨.asked i, challenges, failures⟩ (.answer i res stackTx)
                = false := by
              rw [fails, hc, Option.any_none, Bool.and_false]
            rw [hfails]
            unfold followAnswer
            rw [hc]
            exact Nat.le_refl _
        | some c =>
            have hone := Bool.toNat_le
              (fails crypto s ⟨.asked i, challenges, failures⟩ (.answer i res stackTx))
            unfold followAnswer
            rw [hc]
            dsimp only
            rw [if_pos rfl]
            split
            · exact (Nat.zero_add _).trans_le hone
            · exact (Nat.zero_add _).trans_le hone
      · have hfails : fails crypto s ⟨place, challenges, failures⟩ (.answer i res stackTx)
            = false := by
          rw [fails, decide_eq_false hasked, Bool.false_and]
        rw [hfails]
        show inFlight (s.followAnswer crypto _ i res stackTx) + 0 ≤ _
        unfold followAnswer
        split
        next k c hplace hc =>
          obtain rfl : place = .asked k := hplace
          have hne : i ≠ k := fun heq => hasked (congrArg Place.asked heq.symm)
          rw [if_neg hne]
          split <;> exact Nat.le_refl _
        next => exact Nat.le_refl _

/-! ## §3. The request stays what it is. -/

theorem join_requests (s : Joins) (l : Ledger) (nanoid : Text) (a : JoinArgs) :
    (s.join l nanoid a).1.requests = s.requests := by
  unfold join
  split <;> rfl

theorem join_immediates (s : Joins) (l : Ledger) (nanoid : Text) (a : JoinArgs) :
    (s.join l nanoid a).1.immediates = s.immediates := by
  unfold join
  split <;> rfl

theorem at_placed (s : Joins) (l : Ledger) (nanoid : Text) (a : JoinArgs) :
    At a (s.join l nanoid a).1 (s.placed l a) := by
  unfold placed
  split
  next hadmits =>
    rw [join_of_admits hadmits]
    exact ⟨nanoid, rfl⟩
  next => trivial

theorem settle_requests (s : Joins) (c : Challenge) (res : Answer) (stackTx : Bool) :
    (s.settle crypto c stackTx res).requests = s.requests := by
  rcases s.settle_cases crypto c res stackTx with ⟨-, waiting, hsettled⟩ | ⟨-, hsettled⟩
  · rw [hsettled]
  · rw [hsettled]

theorem settle_timeoutChallenge (s : Joins) (c : Challenge) (res : Answer) (stackTx : Bool) :
    (s.settle crypto c stackTx res).timeoutChallenge = s.timeoutChallenge := by
  rcases s.settle_cases crypto c res stackTx with ⟨-, waiting, hsettled⟩ | ⟨-, hsettled⟩
  · rw [hsettled]
  · rw [hsettled]

/-- **The retry gets the old `r`.** -/
theorem settle_immediates (s : Joins) (c : Challenge) (res : Answer) (stackTx : Bool) :
    (s.settle crypto c stackTx res).immediates
      = s.immediates ++ if s.retries crypto c res stackTx then [c.toJoinArgs] else [] := by
  cases res with
  | nothing => exact (List.append_nil _).symm
  | object signedToken =>
      unfold settle retries
      dsimp only
      by_cases hconfirms : s.confirms crypto c.publicKey signedToken stackTx = true
      · simp [hconfirms]
      · by_cases hretry : c.r < MAX_RETRY_JOIN
        · simp [hconfirms, hretry]
        · simp [hconfirms, hretry]

/-- A step that keeps what is put off and in flight keeps the request. -/
theorem at_clear {s' : Joins} (h : At a s t.place) (hrequests : s'.requests = s.requests)
    (himmediates : ∀ k, t.place = .putOff k → s'.immediates[k]? = s.immediates[k]?) :
    At a s' (clear t).place := by
  obtain ⟨place, challenges, failures⟩ := t
  cases place with
  | waiting => trivial
  | settled => trivial
  | asked k =>
      obtain ⟨token, hrequest⟩ := h
      refine ⟨token, ?_⟩
      rw [hrequests]
      exact hrequest
  | putOff k => exact (himmediates k rfl).trans h

/-- The answer to the request itself. -/
theorem at_answered {token : Text} {i : Nat} (res : Answer) (stackTx : Bool)
    (hretries : s.retries crypto ⟨a, token⟩ res stackTx = true) :
    ((s.close i ⟨a, token⟩).settle crypto ⟨a, token⟩ stackTx res).immediates[s.immediates.length]?
      = some a := by
  have hsame : (s.close i ⟨a, token⟩).retries crypto ⟨a, token⟩ res stackTx = true := hretries
  rw [settle_immediates, hsame]
  exact List.getElem?_concat_length

/-- The others move up where an earlier one has gone. -/
theorem getElem?_close (crypto : Crypto) {i k : Nat} (hne : i ≠ k) (c c' : Challenge) (res : Answer)
    (stackTx : Bool) (h : s.requests[k]? = some c') :
    ((s.close i c).settle crypto c stackTx res).requests[if i < k then k - 1 else k]?
      = some c' := by
  rw [settle_requests]
  show (s.requests.eraseIdx i)[if i < k then k - 1 else k]? = some c'
  rw [List.getElem?_eraseIdx]
  by_cases hlt : i < k
  · rw [if_pos hlt, if_neg (by omega), Nat.sub_add_cancel (by omega)]
    exact h
  · rw [if_neg hlt, if_pos (by omega)]
    exact h

/-- An answer leaves the request at its place, or is the one to it. -/
theorem at_answer (h : At a s t.place) (i : Nat) (res : Answer) (stackTx : Bool) :
    At a (s.answer crypto i res stackTx) (s.followAnswer crypto t i res stackTx).place := by
  obtain ⟨place, challenges, failures⟩ := t
  unfold answer followAnswer
  cases hc : s.requests[i]? with
  | none => cases place <;> exact h
  | some c =>
      cases place with
      | settled => trivial
      | waiting =>
          obtain ⟨token, htimer⟩ := h
          exact ⟨token, (settle_timeoutChallenge (s.close i c) c res stackTx).trans htimer⟩
      | putOff k =>
          show ((s.close i c).settle crypto c stackTx res).immediates[k]? = some a
          rw [settle_immediates]
          obtain ⟨hk, -⟩ := List.getElem?_eq_some_iff.mp h
          exact (List.getElem?_append_left hk).trans h
      | asked k =>
          obtain ⟨token, hrequest⟩ := h
          dsimp only
          split
          next heq =>
            subst heq
            obtain rfl := Option.some.inj (hc.symm.trans hrequest)
            split
            next hretries => exact at_answered res stackTx hretries
            next => trivial
          next hne =>
            have hclosed := getElem?_close crypto hne c ⟨a, token⟩ res stackTx hrequest
            split
            next hlt =>
              rw [if_pos hlt] at hclosed
              exact ⟨token, hclosed⟩
            next hle =>
              rw [if_neg hle] at hclosed
              exact ⟨token, hclosed⟩

/-- Its timer becomes the last request in flight. -/
theorem at_timeout (h : At a s t.place) : At a s.timeout (s.followTimeout t).place := by
  obtain ⟨place, challenges, failures⟩ := t
  cases place with
  | settled => trivial
  | putOff k => exact h
  | asked k =>
      obtain ⟨token, hrequest⟩ := h
      obtain ⟨hk, -⟩ := List.getElem?_eq_some_iff.mp hrequest
      exact ⟨token, (List.getElem?_append_left hk).trans hrequest⟩
  | waiting =>
      obtain ⟨token, htimer⟩ := h
      refine ⟨token, ?_⟩
      show (s.requests ++ s.timeoutChallenge.toList)[s.requests.length]? = _
      rw [htimer]
      exact List.getElem?_concat_length

/-- The first of the joins that are put off is made, whoever's it is. -/
theorem at_immediate (h : At a s t.place) (l : Ledger) (nanoid : Text) :
    At a (s.immediate l nanoid) (s.followImmediate t l).place := by
  unfold immediate followImmediate
  cases hwaiting : s.immediates with
  | nil => exact h
  | cons a' rest =>
      set s' : Joins := { s with immediates := rest }
      have hrequests : (s'.join l nanoid a').1.requests = s.requests :=
        join_requests s' l nanoid a'
      have himmediates : (s'.join l nanoid a').1.immediates = rest :=
        join_immediates s' l nanoid a'
      dsimp only
      split
      next heq => exact nomatch heq
      next a'' rest' heq hplace =>
        rw [hplace] at h
        obtain ⟨rfl, rfl⟩ := List.cons.inj heq
        change s.immediates[0]? = some a at h
        rw [hwaiting] at h
        obtain rfl := Option.some.inj h
        exact at_placed s' l nanoid a'
      next a'' rest' k heq hplace =>
        rw [hplace] at h
        change s.immediates[k + 1]? = some a at h
        rw [hwaiting] at h
        show (s'.join l nanoid a').1.immediates[k]? = some a
        rw [himmediates]
        exact h
      next a'' rest' heq hfirst hlater =>
        refine at_clear h hrequests ?_
        intro k hplace
        cases k with
        | zero => exact absurd hplace hfirst
        | succ k => exact absurd hplace (hlater k)

/-- **Each step keeps the request at its place**, with its arguments. -/
theorem at_follow (h : At a s t.place) (op : Op) :
    At a (s.step crypto op) (follow crypto s t op).place := by
  cases op with
  | timeout => exact at_timeout h
  | answer i res stackTx => exact at_answer h i res stackTx
  | immediate l nanoid => exact at_immediate h l nanoid
  | join l nanoid a' =>
      refine at_clear h (join_requests s l nanoid a') ?_
      intro k _
      exact congrArg (fun m => m[k]?) (join_immediates s l nanoid a')

end

/-! ## §4. Runs. -/

variable (before after : List Op) (l : Ledger) (nanoid : Text) (a : JoinArgs)

/-- The request takes no part in what happens. -/
theorem runTracked_request :
    (runTracked crypto ((run crypto before).request l nanoid a) after).1
      = run crypto (before ++ .join l nanoid a :: after) := by
  have hsplit : run crypto (before ++ .join l nanoid a :: after)
      = after.foldl (step crypto) ((run crypto before).join l nanoid a).1 :=
    List.foldl_append
  rw [hsplit]
  exact (List.foldl_hom Prod.fst fun _ _ => rfl).symm

/-- **Every retry has the arguments of the request**, `r` included: wherever the
request stands in a run, it stands there as it came. -/
theorem tracked :
    At a (runTracked crypto ((run crypto before).request l nanoid a) after).1
      (runTracked crypto ((run crypto before).request l nanoid a) after).2.place :=
  List.foldlRecOn (motive := fun x => At a x.1 x.2.place) after (stepTracked crypto)
    (at_placed (run crypto before) l nanoid a) (fun _ h op _ => at_follow h op)

theorem counted_run :
    Counted (runTracked crypto ((run crypto before).request l nanoid a) after).2 :=
  List.foldlRecOn (motive := fun x => Counted x.2) after (stepTracked crypto)
    (counted_request (run crypto before) l nanoid a)
    (fun x h op _ => counted_follow crypto x.1 h op)

/-- A retry follows an answer that has failed. -/
theorem failures_runTracked (x : Joins × Track) (ops : List Op) :
    (runTracked crypto x ops).2.failures ≤ x.2.failures + failing crypto x ops := by
  induction ops generalizing x with
  | nil => exact Nat.le_refl _
  | cons op ops ih =>
      have hstep := failures_follow crypto x.1 x.2 op
      have hrest := ih (stepTracked crypto x op)
      change (runTracked crypto (stepTracked crypto x op) ops).2.failures ≤ _
      change (stepTracked crypto x op).2.failures ≤ _ at hstep
      rw [failing]
      omega

/-- An answer that fails is that to a challenge. -/
theorem failing_runTracked (x : Joins × Track) (ops : List Op) :
    failing crypto x ops + x.2.challenges
      ≤ inFlight x.2 + (runTracked crypto x ops).2.challenges := by
  induction ops generalizing x with
  | nil => exact Nat.add_le_add_right (Nat.zero_le _) _
  | cons op ops ih =>
      have hstep := inFlight_follow crypto x.1 x.2 op
      have hrest := ih (stepTracked crypto x op)
      change _ ≤ _ + (runTracked crypto (stepTracked crypto x op) ops).2.challenges
      change inFlight (stepTracked crypto x op).2 + _ + _ ≤ _ at hstep
      rw [failing]
      change _ ≤ _ + (stepTracked crypto x op).2.challenges at hstep
      omega

/-- **One challenge more than fail, at most.** -/
theorem challenges_le :
    (runTracked crypto ((run crypto before).request l nanoid a) after).2.challenges
      ≤ failing crypto ((run crypto before).request l nanoid a) after + 1 := by
  have hcounted := counted_run crypto before after l nanoid a
  have hfailures : _ ≤ 0 + _ :=
    failures_runTracked crypto ((run crypto before).request l nanoid a) after
  unfold Counted at hcounted
  split at hcounted
  all_goals omega

/-- **At least as many as fail.** -/
theorem failing_le :
    failing crypto ((run crypto before).request l nanoid a) after
      ≤ (runTracked crypto ((run crypto before).request l nanoid a) after).2.challenges := by
  have hfailing := failing_runTracked crypto ((run crypto before).request l nanoid a) after
  have hidle : inFlight ((run crypto before).request l nanoid a).2 = 0 := by
    show inFlight ⟨(run crypto before).placed l a, 0, 0⟩ = 0
    unfold placed
    split <;> rfl
  rw [hidle, Nat.zero_add] at hfailing
  exact hfailing

/-- The answers that fail in the first part of a run. -/
theorem failing_take (x : Joins × Track) (ops : List Op) (k : Nat) :
    failing crypto x (ops.take k) ≤ failing crypto x ops := by
  induction ops generalizing x k with
  | nil => rw [List.take_nil]
  | cons op ops ih =>
      cases k with
      | zero => exact Nat.zero_le _
      | succ k => exact Nat.add_le_add_left (ih (stepTracked crypto x op) k) _

/-- **When the retries are bounded**: whatever happens before a request and after
it, the request causes no more than `MAX_RETRY_JOIN + 1` challenges if no more
than `MAX_RETRY_JOIN` of the answers to them fail; and where it never causes more,
no more than `MAX_RETRY_JOIN + 1` fail. -/
theorem retries_bounded :
    (failing crypto ((run crypto before).request l nanoid a) after ≤ MAX_RETRY_JOIN →
        ∀ k, (runTracked crypto ((run crypto before).request l nanoid a)
          (after.take k)).2.challenges ≤ MAX_RETRY_JOIN + 1)
      ∧ ((∀ k, (runTracked crypto ((run crypto before).request l nanoid a)
          (after.take k)).2.challenges ≤ MAX_RETRY_JOIN + 1) →
        failing crypto ((run crypto before).request l nanoid a) after ≤ MAX_RETRY_JOIN + 1) := by
  constructor
  · intro hfew k
    have hfirst := failing_take crypto ((run crypto before).request l nanoid a) after k
    have hle := challenges_le crypto before (after.take k) l nanoid a
    omega
  · intro hbound
    have hall := hbound after.length
    rw [List.take_length] at hall
    exact (failing_le crypto before after l nanoid a).trans hall

/-! ## §5. A request that is never given up. -/

/-- The timer is pending for the request, and there is nothing else to happen. -/
structure Alone (x : Joins × Track) : Prop where
  timer : ∃ token, x.1.timeoutChallenge = some ⟨a, token⟩
  requests : x.1.requests = []
  immediates : x.1.immediates = []
  place : x.2.place = .waiting

/-- The challenge has failed, and its key is free again. -/
structure Failed (x : Joins × Track) : Prop where
  freed : x.1.mapToken.has a.publicKey = false
  requests : x.1.requests = []
  immediates : x.1.immediates = [a]
  place : x.2.place = .putOff 0

/-- The timer expires, the newcomer answers without a token, and it is asked
again. -/
def failingRound : List Op :=
  [.timeout, .answer 0 (.object none) false, .immediate l nanoid]

/-- `n` of them. -/
def failingRounds : Nat → List Op
  | 0 => []
  | n + 1 => failingRound l nanoid ++ failingRounds n

variable {a l}

theorem confirms_none (s : Joins) (publicKey : Text) (stackTx : Bool) :
    s.confirms crypto publicKey none stackTx = false := by
  unfold confirms
  cases s.mapToken.get? publicKey <;> rfl

/-- The answer without a token puts the join off, and frees its key. -/
theorem settle_none (s : Joins) (c : Challenge) (hr : c.r < MAX_RETRY_JOIN) :
    s.settle crypto c false (.object none)
      = { s with
          mapToken := s.mapToken.delete c.publicKey
          immediates := s.immediates ++ [c.toJoinArgs] } := by
  unfold settle
  dsimp only
  rw [confirms_none, if_neg Bool.false_ne_true]
  exact if_pos hr

/-- The request may be asked for, as far as it and the ledger go. -/
structure Admissible (l : Ledger) (a : JoinArgs) : Prop where
  http : a.http ≠ []
  udp : a.udp ≠ []
  publicKey : isKeyText a.publicKey = true
  newcomer : l.hasPeer a.publicKey = false

/-- The first two steps of a failing round. -/
theorem failed_of_alone {x : Joins × Track} (h : Alone a x) (hr : a.r < MAX_RETRY_JOIN) :
    Failed a (runTracked crypto x [.timeout, .answer 0 (.object none) false]) := by
  obtain ⟨⟨mapToken, timer, requests, immediates, granted, ended⟩, place, challenges, failures⟩ := x
  obtain ⟨⟨token, htimer⟩, hrequests, himmediates, hplace⟩ := h
  dsimp only at htimer hrequests himmediates hplace
  subst htimer hrequests himmediates hplace
  set c : Challenge := ⟨a, token⟩
  set sent : Joins := ⟨mapToken, none, [c], [], granted, ended⟩
  have hretries : sent.retries crypto c (.object none) false = true := by
    unfold retries
    dsimp only
    rw [confirms_none]
    exact decide_eq_true hr
  have hsettled : sent.answer crypto 0 (.object none) false
      = ⟨mapToken.delete a.publicKey, none, [], [a], granted, ended ++ [c]⟩ :=
    settle_none crypto (sent.close 0 c) c hr
  have hfollowed : sent.followAnswer crypto ⟨.asked 0, challenges + 1, failures⟩ 0 (.object none)
      false = ⟨.putOff 0, challenges + 1, failures + 1⟩ := by
    show (if sent.retries crypto c (.object none) false then _ else _) = _
    rw [if_pos hretries]
    rfl
  have hround : runTracked crypto (⟨mapToken, some c, [], [], granted, ended⟩,
        ⟨.waiting, challenges, failures⟩) [.timeout, .answer 0 (.object none) false]
      = (⟨mapToken.delete a.publicKey, none, [], [a], granted, ended ++ [c]⟩,
          ⟨.putOff 0, challenges + 1, failures + 1⟩) :=
    Prod.ext hsettled hfollowed
  rw [hround]
  refine ⟨?_, rfl, rfl, rfl⟩
  rw [OrdMap.has_delete, decide_eq_true rfl]
  rfl

/-- The last step: nothing refuses the join. -/
theorem alone_of_failed {x : Joins × Track} (h : Failed a x) (hadmissible : Admissible l a) :
    Alone a (stepTracked crypto x (.immediate l nanoid)) := by
  obtain ⟨⟨mapToken, timer, requests, immediates, granted, ended⟩, place, challenges, failures⟩ := x
  obtain ⟨hfreed, hrequests, himmediates, hplace⟩ := h
  dsimp only at hfreed hrequests himmediates hplace
  subst hrequests himmediates hplace
  have hadmits : admits ⟨mapToken, timer, [], [], granted, ended⟩ l a = true := by
    rw [admits_iff]
    exact ⟨hadmissible.http, hadmissible.udp, hadmissible.publicKey, hfreed, hadmissible.newcomer⟩
  have hjoined : (stepTracked crypto (⟨mapToken, timer, [], [a], granted, ended⟩,
        ⟨.putOff 0, challenges, failures⟩) (.immediate l nanoid)).1
      = ⟨mapToken.set a.publicKey nanoid, some ⟨a, nanoid⟩, [], [], granted ++ [⟨a, nanoid⟩],
          ended⟩ :=
    congrArg Prod.fst (join_of_admits hadmits)
  refine ⟨⟨nanoid, ?_⟩, ?_, ?_, ?_⟩
  · rw [hjoined]
  · rw [hjoined]
  · rw [hjoined]
  · exact if_pos hadmits

/-- **A failing round ends where it has begun**, one challenge later. -/
theorem alone_failingRound {x : Joins × Track} (h : Alone a x) (hr : a.r < MAX_RETRY_JOIN)
    (hadmissible : Admissible l a) :
    Alone a (runTracked crypto x (failingRound l nanoid))
      ∧ (runTracked crypto x (failingRound l nanoid)).2.challenges = x.2.challenges + 1 := by
  refine ⟨alone_of_failed crypto nanoid (failed_of_alone crypto h hr) hadmissible, ?_⟩
  unfold runTracked failingRound
  simp only [List.foldl_cons, List.foldl_nil, stepTracked, challenges_follow, h.place]

/-- **A request whose challenges all fail is never given up**: `n` failing rounds
cause `n` challenges, for every `n`. -/
theorem challenges_of_failing {x : Joins × Track} (h : Alone a x) (hr : a.r < MAX_RETRY_JOIN)
    (hadmissible : Admissible l a) (n : Nat) :
    (runTracked crypto x (failingRounds l nanoid n)).2.challenges = x.2.challenges + n := by
  induction n generalizing x with
  | zero => rfl
  | succ n ih =>
      obtain ⟨halone, hone⟩ := alone_failingRound crypto nanoid h hr hadmissible
      rw [failingRounds, runTracked, List.foldl_append]
      refine (ih halone).trans ?_
      rw [hone]
      omega

/-- **A newcomer that fails twelve times is challenged twelve times**: on a
ledger without peers it asks to join, and never answers with a token. -/
theorem retries_not_bounded :
    ¬ (runTracked (tableCrypto [] []) (start.request .fresh (label 32 0) (newcomer 0))
        (failingRounds .fresh (label 32 0) 12)).2.challenges ≤ MAX_RETRY_JOIN + 1 := by
  have hadmissible : Admissible .fresh (newcomer 0) :=
    ⟨List.cons_ne_nil _ _, List.cons_ne_nil _ _, by decide, by decide⟩
  have hadmits : start.admits .fresh (newcomer 0) = true := by decide +kernel
  have halone : Alone (newcomer 0) (start.request .fresh (label 32 0) (newcomer 0)) := by
    refine ⟨⟨label 32 0, ?_⟩, rfl, rfl, ?_⟩
    · exact congrArg (fun p => p.1.timeoutChallenge) (join_of_admits hadmits)
    · show start.placed .fresh (newcomer 0) = .waiting
      exact if_pos hadmits
  rw [challenges_of_failing _ _ halone (by decide) hadmissible]
  decide

end Joins

end Bootstrap

end Divachain
