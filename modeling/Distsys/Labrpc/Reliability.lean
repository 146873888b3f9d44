import Distsys.Labrpc.Delivery
import Distsys.Lib.Termination
import Mathlib.Data.List.Infix

/-!
# Every call is answered

`Distsys.Labrpc.Delivery` says what a reply means. Here is when there is one. A request takes a
bounded number of steps, apart from the polls of its loop, and it can always take one unless it has
been answered or its handler is running. Whatever happens to the network in the meantime, the caller
gets its reply when the handler returns.

Which reply it gets is up to the network. While a request is under way and the network is reliable,
its end enabled and connected, and the server stays the same, the reply is the one of the handler.
While the end is cut off, the handler is not called at all.

## Conditions that last

That an end is connected is a condition on the network at one moment. A request looks at the network
at several moments, and the conclusion needs all of them. `During` quantifies over the
configurations of a run in which the request exists, so the hypothesis is about these only: what
happens to the network before the call does not matter.

## Main definitions

* `Network.Connected`, `Network.CutOff`
* `During` — as long as a request exists
* `Request.rank` — the steps a request has left
* `Quiescent` — no request can take a step

## Main results

* `request_invariant` — induction along the steps of one request
* `calls_answered`
* `connected_call_succeeds`
* `cutOff_call_fails`
-/

namespace Distsys

namespace Labrpc

variable {ε ν ς β : Type} [DecidableEq ς]

/-! ### Steps of one request

A request sees little of a run: that it is accepted, and its own moves. An invariant of a request
and of what was observed of it is therefore proved along these moves only, whatever others do in
between. -/

section Request

variable [DecidableEq ε] [DecidableEq ν] {as : List (Action ε ν ς)} {c c' d : Cfg ε ν ς}
  {a : Action ε ν ς} {k : ℕ} {r : Request ε ν ς}

/-- **Inversion of a step**, for one request: it is new, or it is as before and nothing was observed
of it, or it has moved. -/
theorem request_cases (hn : (system ε ν ς).next c a = some c')
    (hr : c'.state.requests[k]? = some r) (f : Event ν ς → Option β) :
    (c.state.requests.length ≤ k ∧ c'.trace = c.trace ∧ ∃ req, r = .accept req) ∨
      (c.state.requests[k]? = some r ∧ observed f k c'.trace = observed f k c.trace) ∨
      ∃ r₀ m es, a = .move k m ∧ c.state.requests[k]? = some r₀ ∧
        r₀.move c.state.net m = some (r, es) ∧
        observed f k c'.trace = observed f k c.trace ++ es.filterMap f := by
  obtain ⟨es, hs, ht⟩ := System.next_eq_some_iff.mp hn
  cases a with
  | admin a =>
    obtain ⟨hstate, rfl⟩ := Prod.mk.inj (Option.some.inj hs)
    rw [← hstate] at hr
    rw [ht, List.append_nil]
    exact Or.inr (Or.inl ⟨hr, rfl⟩)
  | call req =>
    obtain ⟨hstate, rfl⟩ := Prod.mk.inj (Option.some.inj hs)
    rw [← hstate] at hr
    rw [ht, List.append_nil]
    rcases Nat.lt_or_ge k c.state.requests.length with hlt | hge
    · rw [List.getElem?_append_left hlt] at hr
      exact Or.inr (Or.inl ⟨hr, rfl⟩)
    · rw [List.getElem?_append_right hge] at hr
      exact Or.inl ⟨hge, rfl, req, List.mem_singleton.mp (List.mem_of_getElem? hr)⟩
  | move i m =>
    obtain ⟨r₀, hr₀, hs⟩ := Option.bind_eq_some_iff.mp hs
    obtain ⟨⟨r', es'⟩, hm, hs⟩ := Option.bind_eq_some_iff.mp hs
    obtain ⟨hstate, rfl⟩ := Prod.mk.inj (Option.some.inj hs)
    rw [← hstate] at hr
    rw [ht, observed_append]
    rcases eq_or_ne i k with rfl | hik
    · have hlt := (List.getElem?_eq_some_iff.mp hr₀).1
      rw [List.getElem?_set_self hlt] at hr
      cases hr
      rw [observed_self]
      exact Or.inr (Or.inr ⟨r₀, m, es', rfl, hr₀, hm, rfl⟩)
    · rw [List.getElem?_set_ne hik] at hr
      rw [observed_other hik, List.append_nil]
      exact Or.inr (Or.inl ⟨hr, rfl⟩)

/-- **Induction along the steps of a request**, together with what was observed of it. -/
theorem request_invariant {f : Event ν ς → Option β} {I : Request ε ν ς → List β → Prop}
    (haccept : ∀ req, I (.accept req) [])
    (hmove : ∀ d r m r' es l, (system ε ν ς).Visits as d → d.state.requests[k]? = some r →
      I r l → r.move d.state.net m = some (r', es) → I r' (l ++ es.filterMap f))
    (hd : (system ε ν ς).Visits as d) (hr : d.state.requests[k]? = some r) :
    I r (observed f k d.trace) := by
  refine System.Visits.invariant
    (P := fun d => ∀ r, d.state.requests[k]? = some r → I r (observed f k d.trace)) ?_ ?_ hd r hr
  · intro r hr
    cases hr
  · intro c a c' htakes hI hn r hr
    rcases request_cases hn hr f with ⟨hk, ht, req, rfl⟩ | ⟨hr', ho⟩ | ⟨r₀, m, es, rfl, hr₀, hm, ho⟩
    · obtain ⟨bs, _, hc⟩ := htakes.visits
      rw [ht, observed_of_notMem (notMem_of_exec hc hk)]
      exact haccept req
    · rw [ho]
      exact hI r hr'
    · rw [ho]
      exact hmove c r₀ m r es _ htakes.visits hr₀ (hI r₀ hr₀) hm

/-- In all configurations of a run in which request `k` exists. -/
def During (as : List (Action ε ν ς)) (k : ℕ) (P : Network ε ν ς → Prop) : Prop :=
  ∀ d, (system ε ν ς).Visits as d → d.state.requests[k]? ≠ none → P d.state.net

end Request

/-! ### Every request comes to an end

The rank of a request goes down with each move but the polls of the loop, which find nothing and
leave everything as it is. A request that is not answered and whose handler does not run has a move
that is not a poll: this is the only place where it matters that the goroutine which drains the
channel of the handler is started. -/

/-- How many steps `ProcessReq` has left. -/
def ProcessReq.rank : ProcessReq ν ς → ℕ
  | .start => 9
  | .shortDelay _ => 8
  | .execute _ => 7
  | .wait _ => 3
  | .check _ _ => 2
  | .send _ => 1
  | .returned => 0

/-- How many steps the goroutine that executes the request has left. -/
def Execution.rank : Execution ν ς → ℕ
  | .started _ => 3
  | .dispatched _ => 2
  | .completed _ _ => 1
  | .idle | .ended _ _ => 0

/-- How many steps a request has left, apart from polls. -/
def Request.rank (r : Request ε ν ς) : ℕ :=
  r.pc.rank + r.execution.rank + if r.timer.isSome then 1 else 0

theorem Moves.rank_lt {rn : Network ε ν ς} {r r' : Request ε ν ς} {m : Move}
    {es : List (Event ν ς)} (h : Moves rn r m r' es) :
    r'.rank < r.rank + if m = .poll then 1 else 0 := by
  cases h with
  | unreachable hpc | unreliable hpc | reliable hpc | dropRequest hpc | shortDelay hpc
  | execute hpc | pollDead hpc | pollAlive hpc | fail hpc | delayReply hpc | reply hpc
  | send hpc =>
    simp only [Request.rank, hpc, ProcessReq.rank, Execution.rank, Option.isSome_some, if_true]
    split <;> simp <;> omega
  | dispatch hex | complete hex | drain hex =>
    simp only [Request.rank, hex, Execution.rank]
    simp
  | receive hpc hex =>
    simp only [Request.rank, hpc, hex, ProcessReq.rank, Execution.rank]
    simp
  | timer ht =>
    simp only [Request.rank, ht]
    simp

def Action.isCall : Action ε ν ς → Bool
  | .call _ => true
  | _ => false

/-- A call of one of the functions that change the network, or a poll. -/
def Action.isOther : Action ε ν ς → Bool
  | .admin _ => true
  | .call _ => false
  | .move _ m => m = .poll

/-- What an action adds to the work. -/
def pay (a : Action ε ν ς) : ℕ := if a.isCall then 10 else if a.isOther then 1 else 0

omit [DecidableEq ς] in
theorem pay_eq (a : Action ε ν ς) :
    pay a = (if a.isCall then 10 else 0) + if a.isOther then 1 else 0 := by
  cases a <;> simp [pay, Action.isCall, Action.isOther]

omit [DecidableEq ς] in
theorem sum_pay (as : List (Action ε ν ς)) :
    (as.map pay).sum = 10 * as.countP Action.isCall + as.countP Action.isOther := by
  rw [funext pay_eq, List.sum_map_add, sum_map_ite, sum_map_ite, Nat.one_mul]

section Progress

variable {r r' : Request ε ν ς}

/-- `ProcessReq` is behind its loop. -/
def ProcessReq.isPast : ProcessReq ν ς → Bool
  | .check _ _ | .send _ | .returned => true
  | _ => false

/-- Nobody receives the reply before `ProcessReq` is behind its loop. -/
def Request.Awaited (r : Request ε ν ς) : Prop :=
  (r.drain = true ∨ ∃ target reply, r.execution = .ended target reply) → r.pc.isPast = true

theorem Request.drain_of_move {rn : Network ε ν ς} {es : List (Event ν ς)}
    (hm : r.move rn .drain = some (r', es)) : r.drain = true := by
  simp only [Request.move] at hm
  split at hm
  · assumption
  · cases hm

theorem Request.Awaited.move {rn : Network ε ν ς} {m : Move} {es : List (Event ν ς)}
    (h : r.Awaited) (hm : r.move rn m = some (r', es)) : r'.Awaited := by
  intro hended
  cases moves_of_move hm with
  | unreachable | dropRequest | receive | pollDead | fail | delayReply | reply | send => rfl
  | unreliable hpc | reliable hpc | shortDelay hpc =>
    have := h hended
    rw [hpc] at this
    cases this
  | execute hpc =>
    rcases hended with hdrain | ⟨_, _, hex⟩
    · have := h (Or.inl hdrain)
      rw [hpc] at this
      cases this
    · cases hex
  | dispatch | complete =>
    rcases hended with hdrain | ⟨_, _, hex⟩
    · exact h (Or.inl hdrain)
    · cases hex
  | drain => exact h (Or.inl (Request.drain_of_move hm))
  | pollAlive | timer => exact h hended

/-- A request that has been answered, or whose handler is running, or that can take a step. -/
theorem Request.exists_move (hr : r.Consistent) (ha : r.Awaited) (rn : Network ε ν ς) :
    r.Finished ∨ (∃ target, r.execution = .dispatched target) ∨
      ∃ m, m ≠ .poll ∧ (∀ reply, m ≠ .complete reply) ∧ r.move rn m ≠ none := by
  have hknows := hr.knows
  cases hpc : r.pc with
  | start => exact Or.inr (Or.inr ⟨.readEndnameInfo, by simp, by simp, by simp [Request.move, hpc]⟩)
  | shortDelay target =>
    exact Or.inr (Or.inr ⟨.shortDelay true, by simp, by simp, by simp [Request.move, hpc]⟩)
  | execute target =>
    exact Or.inr (Or.inr ⟨.execute, by simp, by simp, by simp [Request.move, hpc]⟩)
  | wait target =>
    rw [hpc] at hknows
    cases hex : r.execution with
    | idle =>
      rw [hex] at hknows
      cases hknows
    | started target' =>
      exact Or.inr (Or.inr ⟨.dispatch, by simp, by simp, by simp [Request.move, hex]⟩)
    | dispatched target' => exact Or.inr (Or.inl ⟨target', rfl⟩)
    | completed target' reply =>
      exact Or.inr (Or.inr ⟨.receive, by simp, by simp, by simp [Request.move, hpc, hex]⟩)
    | ended target' reply =>
      have := ha (Or.inr ⟨target', reply, hex⟩)
      rw [hpc] at this
      cases this
  | check target reply =>
    exact Or.inr (Or.inr ⟨.check false false, by simp, by simp, by simp [Request.move, hpc]⟩)
  | send reply => exact Or.inr (Or.inr ⟨.send, by simp, by simp, by simp [Request.move, hpc]⟩)
  | returned =>
    cases ht : r.timer with
    | none => exact Or.inl ⟨hpc, ht⟩
    | some reply => exact Or.inr (Or.inr ⟨.timer, by simp, by simp, by simp [Request.move, ht]⟩)

end Progress

/-! ### Whole runs -/

section Runs

variable [DecidableEq ε] [DecidableEq ν] {as : List (Action ε ν ς)} {c d : Cfg ε ν ς} {k : ℕ}
  {r : Request ε ν ς}

/-- The potential of the network: the steps that its requests have left. -/
def potential (ε ν ς : Type) [DecidableEq ε] [DecidableEq ν] [DecidableEq ς] :
    (system ε ν ς).Potential pay where
  value s := (s.requests.map Request.rank).sum
  step_lt {s a s' es} h := by
    cases a with
    | admin a =>
      cases h
      exact Nat.lt_succ_self _
    | call req =>
      cases h
      rw [List.map_append, List.sum_append]
      exact Nat.add_lt_add_left (by decide : (9 : ℕ) < 10) _
    | move k m =>
      obtain ⟨r, hr, h⟩ := Option.bind_eq_some_iff.mp h
      obtain ⟨⟨r', es'⟩, hm, h⟩ := Option.bind_eq_some_iff.mp h
      cases h
      have hlt := (moves_of_move hm).rank_lt
      have hsum := sum_map_set Request.rank hr r'
      simp only [pay, Action.isCall, Action.isOther, Bool.false_eq_true, if_false,
        decide_eq_true_eq]
      omega

theorem consistent_of_visits (hd : (system ε ν ς).Visits as d)
    (hr : d.state.requests[k]? = some r) : r.Consistent := by
  obtain ⟨bs, _, hd⟩ := hd
  exact (accounted_of_exec hd hr).consistent

theorem awaited_of_visits (hd : (system ε ν ς).Visits as d)
    (hr : d.state.requests[k]? = some r) : r.Awaited := by
  refine request_invariant (f := Event.reply?) (I := fun r _ => r.Awaited) ?_ ?_ hd hr
  · rintro req (h | ⟨_, _, h⟩) <;> cases h
  · intro d r m r' es l hd hr hI hm
    exact hI.move hm

/-- No request can take a step, except for a poll, or because its handler returns. -/
def Quiescent (s : State ε ν ς) : Prop :=
  ∀ k m, m ≠ .poll → (∀ reply, m ≠ .complete reply) → s.step (.move k m) = none

/-- **Every call is answered.** Apart from polls and changes of the network, a run has at most ten
steps for each call. When none is left that the network takes by itself, every request has been
answered once, except for those whose handler is running. -/
theorem calls_answered (as : List (Action ε ν ς)) (c : Cfg ε ν ς)
    (h : (system ε ν ς).exec (system ε ν ς).start as = some c) :
    as.length ≤ 10 * as.countP Action.isCall + as.countP Action.isOther ∧
    (Quiescent c.state → ∀ k r, c.state.requests[k]? = some r →
      (replies k c.trace).length = 1 ∨ ∃ target, r.execution = .dispatched target) := by
  constructor
  · have hle := (potential ε ν ς).length_le h
    rw [sum_pay] at hle
    have hzero : (potential ε ν ς).value (system ε ν ς).start.state = 0 := rfl
    omega
  · intro hq k r hr
    have hvisits := System.visits_of_exec h
    rcases Request.exists_move (consistent_of_visits hvisits hr) (awaited_of_visits hvisits hr)
      c.state.net with hf | hrun | ⟨m, hpoll, hcomplete, hm⟩
    · exact Or.inl ((accounted_of_exec h hr).finished hf)
    · exact Or.inr hrun
    · refine absurd (hq k m hpoll hcomplete) ?_
      obtain ⟨⟨r', es⟩, hm⟩ := Option.ne_none_iff_exists'.mp hm
      rw [State.step, hr, Option.bind_eq_bind, Option.bind_some, hm]
      exact Option.some_ne_none _

/-- What is left of the request of `delayedRun`. -/
def delayedRequest : Request ℕ ℕ ℕ :=
  ⟨⟨0, "Raft.AppendEntries", []⟩, .returned, .ended ⟨1, 7, true, true⟩ ⟨true, [42]⟩, false, none⟩

/-- After `delayedRun` nothing is left to do, and the one call was answered. -/
theorem calls_answered_delayedRun :
    ∃ c, (system ℕ ℕ ℕ).exec (system ℕ ℕ ℕ).start delayedRun = some c ∧ Quiescent c.state ∧
      c.state.requests[0]? = some delayedRequest ∧ (replies 0 c.trace).length = 1 := by
  have hrun : ((system ℕ ℕ ℕ).exec (system ℕ ℕ ℕ).start delayedRun).any (fun c =>
      decide (c.state.requests = [delayedRequest])) = true := by
    decide +kernel
  obtain ⟨c, hc, h⟩ := (Option.any_eq_true _ _).mp hrun
  have hreq := of_decide_eq_true h
  have hr : c.state.requests[0]? = some delayedRequest := by
    rw [hreq]
    rfl
  have hq : Quiescent c.state := by
    intro k m _ _
    rw [State.step, hreq]
    cases k with
    | zero => cases m <;> rfl
    | succ k => rfl
  refine ⟨c, hc, hq, hr, ?_⟩
  rcases (calls_answered delayedRun c hc).2 hq 0 _ hr with hone | ⟨_, hserving⟩
  · exact hone
  · cases hserving

end Runs

/-! ### A connection that stays

On a connection that stays, every look of `ProcessReq` at the network finds the same. So each place
it comes to is one on the way to success, and the only reply it can send is the one of the handler.
On an end that is cut off the first look already decides. -/

/-- The network is reliable, and an end leads to this server. -/
structure Network.Connected (rn : Network ε ν ς) (endname : ε) (servername : ν) (server : ς) :
    Prop where
  enabled : rn.enabled endname = true
  connections : rn.connections endname = some servername
  servers : rn.servers servername = some server
  /-- No request is dropped or delayed. -/
  reliable : rn.reliable = true

/-- An end leads nowhere. -/
def Network.CutOff (rn : Network ε ν ς) (endname : ε) : Prop :=
  rn.enabled endname = false ∨ (rn.connections endname).bind rn.servers = none

section Connected

variable {rn : Network ε ν ς} {r r' : Request ε ν ς} {servername : ν} {server : ς} {m : Move}
  {es : List (Event ν ς)}

/-- The local variables of `ProcessReq` for a connection to this server. -/
def Target.LeadsTo (servername : ν) (server : ς) (target : Target ν ς) : Prop :=
  target.servername = servername ∧ target.server = server ∧ target.reliable = true

/-- What `ProcessReq` has come to on a connection that stayed. -/
def ProcessReq.Fine (servername : ν) (server : ς) : ProcessReq ν ς → Prop
  | .start | .returned => True
  | .shortDelay _ => False
  | .execute target | .wait target => target.LeadsTo servername server
  | .check target reply =>
    target.LeadsTo servername server ∧ ∃ msg, reply = some msg ∧ msg.ok = true
  | .send msg => msg.ok = true

/-- What the handler was called for, and what it has returned. -/
def Execution.Fine (servername : ν) (server : ς) : Execution ν ς → Prop
  | .idle => True
  | .started target | .dispatched target => target.LeadsTo servername server
  | .completed target r | .ended target r => target.LeadsTo servername server ∧ r.ok = true

omit [DecidableEq ς] in
theorem Execution.Fine.leadsTo {ex : Execution ν ς} (h : ex.Fine servername server)
    {target : Target ν ς} (ht : target ∈ ex.dispatches) : target.LeadsTo servername server := by
  cases ex with
  | idle | started => cases ht
  | dispatched => exact List.mem_singleton.mp ht ▸ h
  | completed | ended => exact List.mem_singleton.mp ht ▸ h.1

/-- A request on a connection that stayed, with the replies it has sent. -/
structure Request.Fine (servername : ν) (server : ς) (r : Request ε ν ς) (msgs : List ReplyMsg) :
    Prop where
  /-- `ProcessReq` has the server that is installed, or a reply that is a success. -/
  pc : r.pc.Fine servername server
  /-- The handler is one of this server. -/
  execution : r.execution.Fine servername server
  /-- A reply that is delayed is a success. -/
  timer : ∀ msg, r.timer = some msg → msg.ok = true
  replies : ∀ msg ∈ msgs, msg.ok = true

omit [DecidableEq ς] in
theorem Request.readEndnameInfo_of_connected
    (h : rn.Connected r.req.endname servername server) : r.readEndnameInfo rn =
      { r with pc := .execute ⟨servername, server, true, rn.longReordering⟩ } := by
  simp [Request.readEndnameInfo, Network.readEndnameInfo, h.enabled, h.connections, h.servers,
    h.reliable]

theorem isServerDead_of_connected {endname : ε} (h : rn.Connected endname servername server)
    {target : Target ν ς} (ht : target.LeadsTo servername server) :
    rn.isServerDead endname target.servername target.server = false := by
  rw [ht.1, ht.2.1, isServerDead_eq_false]
  exact ⟨h.enabled, h.servers⟩

/-- The step lemma. -/
theorem Request.Fine.move {msgs : List ReplyMsg} (hf : r.Fine servername server msgs)
    (h : rn.Connected r.req.endname servername server) (hm : r.move rn m = some (r', es)) :
    r'.Fine servername server (msgs ++ es.filterMap Event.reply?) := by
  have hpcs := hf.pc
  have hexs := hf.execution
  cases m with
  | readEndnameInfo =>
    simp only [Request.move] at hm
    split at hm
    · cases hm
      rw [Request.readEndnameInfo_of_connected h, List.filterMap_nil, List.append_nil]
      exact ⟨⟨rfl, rfl, rfl⟩, hf.execution, hf.timer, hf.replies⟩
    · cases hm
  | shortDelay drop =>
    simp only [Request.move] at hm
    split at hm
    · rename_i hpc
      rw [hpc] at hpcs
      cases hpcs
    · cases hm
  | poll =>
    simp only [Request.move] at hm
    split at hm
    · rename_i target hpc
      rw [hpc] at hpcs
      rw [isServerDead_of_connected h hpcs, if_neg Bool.false_ne_true] at hm
      cases hm
      rw [List.filterMap_nil, List.append_nil]
      exact hf
    · cases hm
  | check drop delay =>
    simp only [Request.move] at hm
    split at hm
    · rename_i target reply hpc
      rw [hpc] at hpcs
      obtain ⟨ht, msg, rfl, hok⟩ := hpcs
      cases hm
      have halive := isServerDead_of_connected h ht
      rw [List.filterMap_nil, List.append_nil]
      simp only [Request.check, halive, Bool.false_eq_true, if_false, ht.2.2, Bool.true_eq_false,
        false_and]
      split
      · exact ⟨trivial, hf.execution, fun _ hmsg => Option.some.inj hmsg ▸ hok, hf.replies⟩
      · exact ⟨hok, hf.execution, hf.timer, hf.replies⟩
    · cases hm
  | execute =>
    cases moves_of_move hm with
    | execute hpc =>
      rw [hpc] at hpcs
      rw [List.filterMap_nil, List.append_nil]
      exact ⟨hpcs, hpcs, hf.timer, hf.replies⟩
  | dispatch =>
    cases moves_of_move hm with
    | dispatch hex =>
      rw [hex] at hexs
      exact ⟨hf.pc, hexs, hf.timer, by simpa [Event.reply?] using hf.replies⟩
  | complete reply =>
    cases moves_of_move hm with
    | complete hex =>
      rw [hex] at hexs
      exact ⟨hf.pc, ⟨hexs, rfl⟩, hf.timer, by simpa [Event.reply?] using hf.replies⟩
  | receive =>
    cases moves_of_move hm with
    | receive hpc hex =>
      rw [hpc] at hpcs
      rw [hex] at hexs
      rw [List.filterMap_nil, List.append_nil]
      exact ⟨⟨hpcs, _, rfl, hexs.2⟩, hexs, hf.timer, hf.replies⟩
  | drain =>
    cases moves_of_move hm with
    | drain hex =>
      rw [hex] at hexs
      rw [List.filterMap_nil, List.append_nil]
      exact ⟨hf.pc, hexs, hf.timer, hf.replies⟩
  | send =>
    cases moves_of_move hm with
    | send hpc =>
      rw [hpc] at hpcs
      refine ⟨trivial, hf.execution, hf.timer, fun msg hmsg => ?_⟩
      rcases List.mem_append.mp hmsg with hmsg | hmsg
      · exact hf.replies msg hmsg
      · rw [List.mem_singleton.mp hmsg]
        exact hpcs
  | timer =>
    cases moves_of_move hm with
    | timer ht =>
      refine ⟨hf.pc, hf.execution, fun _ hmsg => ?_, fun msg hmsg => ?_⟩
      · cases hmsg
      rcases List.mem_append.mp hmsg with hmsg | hmsg
      · exact hf.replies msg hmsg
      · rw [List.mem_singleton.mp hmsg]
        exact hf.timer _ ht

/-- A request whose end is cut off waits for its timer. -/
structure Request.Refused (r : Request ε ν ς) (msgs : List ReplyMsg) : Prop where
  /-- `ProcessReq` gives up at the first look at the network. -/
  pc : r.pc = .start ∨ r.pc = .returned
  /-- No handler is ever called. -/
  execution : r.execution = .idle
  timer : ∀ msg, r.timer = some msg → msg = .failed
  replies : ∀ msg ∈ msgs, msg = .failed

omit [DecidableEq ς] in
theorem Request.readEndnameInfo_of_cutOff (h : rn.CutOff r.req.endname) :
    r.readEndnameInfo rn = { r with pc := .returned, timer := some .failed } := by
  rcases h with henabled | hserver
  · simp [Request.readEndnameInfo, Network.readEndnameInfo, henabled]
  · simp [Request.readEndnameInfo, Network.readEndnameInfo, hserver]

theorem Request.Refused.move {msgs : List ReplyMsg} (hf : r.Refused msgs)
    (h : rn.CutOff r.req.endname) (hm : r.move rn m = some (r', es)) :
    r'.Refused (msgs ++ es.filterMap Event.reply?) := by
  have hpcs := hf.pc
  by_cases hread : m = .readEndnameInfo
  · subst hread
    simp only [Request.move] at hm
    split at hm
    · cases hm
      rw [Request.readEndnameInfo_of_cutOff h, List.filterMap_nil, List.append_nil]
      exact ⟨Or.inr rfl, hf.execution, fun _ hmsg => (Option.some.inj hmsg).symm, hf.replies⟩
    · cases hm
  · cases moves_of_move hm with
    | unreachable | unreliable | reliable => exact absurd rfl hread
    | dispatch hex | complete hex | drain hex | receive _ hex =>
      cases hf.execution.symm.trans hex
    | dropRequest hpc | shortDelay hpc | execute hpc | pollDead hpc | pollAlive hpc | fail hpc
    | delayReply hpc | reply hpc | send hpc =>
      rw [hpc] at hpcs
      rcases hpcs with hpc | hpc <;> cases hpc
    | timer ht =>
      refine ⟨hf.pc, hf.execution, fun _ hmsg => ?_, fun msg hmsg => ?_⟩
      · cases hmsg
      · rcases List.mem_append.mp hmsg with hmsg | hmsg
        · exact hf.replies msg hmsg
        · rw [List.mem_singleton.mp hmsg]
          exact hf.timer _ ht

end Connected

/-! ### Calls that succeed and calls that fail -/

section Calls

variable [DecidableEq ε] [DecidableEq ν]

/-- **A call over a connection that stays succeeds.** If, as long as the request exists, the network
is reliable and the end leads to one server, then the handler is called on this server and nowhere
else, and if there is a reply, it is what the handler has returned. -/
theorem connected_call_succeeds (as : List (Action ε ν ς)) (c : Cfg ε ν ς)
    (h : (system ε ν ς).exec (system ε ν ς).start as = some c) (k : ℕ) (r : Request ε ν ς)
    (hr : c.state.requests[k]? = some r) (servername : ν) (server : ς)
    (hnet : During as k fun rn => rn.Connected r.req.endname servername server) :
    (∀ target ∈ dispatches k c.trace,
      target.servername = servername ∧ target.server = server) ∧
    ∀ msg ∈ replies k c.trace, msg.ok = true ∧ completions k c.trace = [msg] := by
  have hfine : r.Fine servername server (replies k c.trace) := by
    refine request_invariant (f := Event.reply?)
      (I := fun r₀ msgs => r₀.req.endname = r.req.endname → r₀.Fine servername server msgs)
      ?_ ?_ (System.visits_of_exec h) hr rfl
    · intro req _
      exact ⟨trivial, trivial, fun _ hmsg => (by cases hmsg), fun _ hmsg => (by cases hmsg)⟩
    · intro d r₀ m r' es msgs hd hr₀ hI hm hend
      rw [(moves_of_move hm).req_eq] at hend
      have hconnected := hnet d hd (by rw [hr₀]; exact Option.some_ne_none _)
      rw [← hend] at hconnected
      exact (hI hend).move hconnected hm
  have hacc := accounted_of_exec h hr
  constructor
  · intro target htarget
    rw [hacc.dispatches] at htarget
    have hto := hfine.execution.leadsTo htarget
    exact ⟨hto.1, hto.2.1⟩
  · intro msg hmsg
    have hok := hfine.replies msg hmsg
    obtain ⟨target, hended, _⟩ := hacc.confirmed msg hok (Or.inr (Or.inr hmsg))
    refine ⟨hok, ?_⟩
    rw [hacc.completions, hended]
    rfl

/-- **A call whose end is cut off fails.** If, as long as the request exists, its end is disabled or
leads nowhere, the handler is not called, and if there is a reply, it says so. -/
theorem cutOff_call_fails (as : List (Action ε ν ς)) (c : Cfg ε ν ς)
    (h : (system ε ν ς).exec (system ε ν ς).start as = some c) (k : ℕ) (r : Request ε ν ς)
    (hr : c.state.requests[k]? = some r) (hnet : During as k fun rn => rn.CutOff r.req.endname) :
    dispatches k c.trace = [] ∧ ∀ msg ∈ replies k c.trace, msg = .failed := by
  have hrefused : r.Refused (replies k c.trace) := by
    refine request_invariant (f := Event.reply?)
      (I := fun r₀ msgs => r₀.req.endname = r.req.endname → r₀.Refused msgs)
      ?_ ?_ (System.visits_of_exec h) hr rfl
    · intro req _
      exact ⟨Or.inl rfl, rfl, fun _ hmsg => (by cases hmsg), fun _ hmsg => (by cases hmsg)⟩
    · intro d r₀ m r' es msgs hd hr₀ hI hm hend
      rw [(moves_of_move hm).req_eq] at hend
      have hcut := hnet d hd (by rw [hr₀]; exact Option.some_ne_none _)
      rw [← hend] at hcut
      exact (hI hend).move hcut hm
  refine ⟨?_, hrefused.replies⟩
  rw [(accounted_of_exec h hr).dispatches, hrefused.execution]
  rfl

/-- A test for `During`. -/
theorem during_of_all {as : List (Action ε ν ς)} {k : ℕ} {P : Network ε ν ς → Prop}
    [DecidablePred P]
    (h : (as.inits.all fun bs => ((system ε ν ς).exec (system ε ν ς).start bs).all fun d =>
      d.state.requests[k]?.isNone || decide (P d.state.net)) = true) : During as k P := by
  rintro d ⟨bs, hbs, hd⟩ hk
  have hall := List.all_eq_true.mp h bs ((List.mem_inits _ _).mpr hbs)
  rw [hd, Option.all_some, Bool.or_eq_true, Option.isNone_iff_eq_none] at hall
  exact of_decide_eq_true (hall.resolve_left hk)

instance (rn : Network ε ν ς) (endname : ε) (servername : ν) (server : ς) :
    Decidable (rn.Connected endname servername server) :=
  decidable_of_iff (rn.enabled endname = true ∧ rn.connections endname = some servername ∧
      rn.servers servername = some server ∧ rn.reliable = true)
    ⟨fun ⟨h₁, h₂, h₃, h₄⟩ => ⟨h₁, h₂, h₃, h₄⟩, fun ⟨h₁, h₂, h₃, h₄⟩ => ⟨h₁, h₂, h₃, h₄⟩⟩

instance (rn : Network ε ν ς) (endname : ε) : Decidable (rn.CutOff endname) :=
  inferInstanceAs (Decidable (_ ∨ _))

/-- The request of `completedRun` is answered. -/
def answeredRun : List (Action ℕ ℕ ℕ) :=
  completedRun ++ [.move 0 .poll, .move 0 .receive, .move 0 (.check true false), .move 0 .send]

/-- In `answeredRun` the reply is not dropped, although the random number says so. -/
theorem connected_call_succeeds_answeredRun :
    ∃ c r, (system ℕ ℕ ℕ).exec (system ℕ ℕ ℕ).start answeredRun = some c ∧
      c.state.requests[0]? = some r ∧
      (During answeredRun 0 fun rn => rn.Connected r.req.endname 1 7) ∧
      replies 0 c.trace = [⟨true, [42]⟩] ∧ completions 0 c.trace = [⟨true, [42]⟩] := by
  have hrun : ((system ℕ ℕ ℕ).exec (system ℕ ℕ ℕ).start answeredRun).any (fun c =>
      decide (replies 0 c.trace = [⟨true, [42]⟩]) &&
        c.state.requests[0]?.any fun r => decide (r.req.endname = 0)) = true := by
    decide +kernel
  obtain ⟨c, hc, h⟩ := (Option.any_eq_true _ _).mp hrun
  obtain ⟨hreplies, h⟩ := (Bool.and_eq_true _ _).mp h
  obtain ⟨r, hr, hend⟩ := (Option.any_eq_true _ _).mp h
  have hreplies := of_decide_eq_true hreplies
  have hduring : During answeredRun 0 fun rn => rn.Connected r.req.endname 1 7 := by
    rw [of_decide_eq_true hend]
    exact during_of_all (by decide +kernel)
  refine ⟨c, r, hc, hr, hduring, hreplies, ?_⟩
  exact ((connected_call_succeeds answeredRun c hc 0 r hr 1 7 hduring).2 _ (by simp [hreplies])).2

/-- End `0` was never enabled. -/
def disabledRun : List (Action ℕ ℕ ℕ) :=
  [.admin (.addServer 1 7), .admin (.connect 0 (some 1)), .call ⟨0, "Raft.AppendEntries", []⟩,
    .move 0 .readEndnameInfo, .move 0 .timer]

theorem cutOff_call_fails_disabledRun :
    ∃ c r, (system ℕ ℕ ℕ).exec (system ℕ ℕ ℕ).start disabledRun = some c ∧
      c.state.requests[0]? = some r ∧
      (During disabledRun 0 fun rn => rn.CutOff r.req.endname) ∧ dispatches 0 c.trace = [] ∧
      replies 0 c.trace = [.failed] := by
  have hrun : ((system ℕ ℕ ℕ).exec (system ℕ ℕ ℕ).start disabledRun).any (fun c =>
      decide (replies 0 c.trace = [.failed]) &&
        c.state.requests[0]?.any fun r => decide (r.req.endname = 0)) = true := by
    decide +kernel
  obtain ⟨c, hc, h⟩ := (Option.any_eq_true _ _).mp hrun
  obtain ⟨hreplies, h⟩ := (Bool.and_eq_true _ _).mp h
  obtain ⟨r, hr, hend⟩ := (Option.any_eq_true _ _).mp h
  have hduring : During disabledRun 0 fun rn => rn.CutOff r.req.endname := by
    rw [of_decide_eq_true hend]
    exact during_of_all (by decide +kernel)
  exact ⟨c, r, hc, hr, hduring, (cutOff_call_fails disabledRun c hc 0 r hr hduring).1,
    of_decide_eq_true hreplies⟩

end Calls

end Labrpc

end Distsys
