import Distsys.Labrpc.Basic

/-!
# At most one dispatch, exactly one reply

`ProcessReq` has four ways to send on `replyCh` and two of them are timers, it asks three times
whether the server is still there, and meanwhile servers are deleted and replaced. What the callers
of `Call` rely on is that each request is executed once at most, is answered once, and is not
answered with success by a server that was gone before its handler had finished.

The last of these is the reason for the second look at the network behind the loop. The loop is left
with a reply as soon as there is one, whatever has happened to the server in between; only what
`IsServerDead` finds after that decides whether the reply counts. So a successful reply has a
witness: the moment of that check, at which the handler had returned, the end was enabled, and the
server looked up at the beginning was installed under its name.

## The order of events

That a request was dispatched before it was answered, or that its server was installed when its
handler had returned, are statements about positions in the trace of a run. The invariant has both
sides: what is in the trace is what the state of the request stands for, and a successful reply has
a configuration of the run that it rests on.

## Main definitions

* `Moves` — what one step of a request can do
* `Confirmed` — the moment that a successful reply rests on
* `Accounted` — the invariant of a request

## Main results

* `moves_of_move`, `accounted_of_exec`
* `one_dispatch_one_reply`
-/

namespace Distsys

namespace Labrpc

variable {ε ν ς : Type}

/-! ### What a trace shows

Everything below is said about one request at a time, in terms of the events that carry its number.
Events of other requests do not count, and a request that was not accepted yet has none. -/

section

variable {β : Type} {f : Event ν ς → Option β} {k i : ℕ} {tr : List (ℕ × Event ν ς)}
  {es : List (Event ν ς)}

theorem observed_append (f : Event ν ς → Option β) (k : ℕ) (tr tr' : List (ℕ × Event ν ς)) :
    observed f k (tr ++ tr') = observed f k tr ++ observed f k tr' :=
  List.filterMap_append

theorem observed_self : observed f k (es.map (k, ·)) = es.filterMap f := by
  simp [observed, List.filterMap_map]

theorem observed_other (hi : i ≠ k) : observed f k (es.map (i, ·)) = [] := by
  simp [observed, List.filterMap_map, hi]

/-- A request that is not there yet has left no trace. -/
theorem observed_of_notMem (h : ∀ e, (k, e) ∉ tr) : observed f k tr = [] := by
  refine List.filterMap_eq_nil_iff.mpr fun e he => if_neg fun hk => h e.2 ?_
  subst hk
  exact he

end

/-! ### One step of a request

`Request.move` is read off the source and has a case for each place and each choice. `Moves` has the
same cases as an inductive relation, each with what it finds and what it leaves behind, and is the
only thing that the proofs below look at. -/

variable [DecidableEq ς] {rn : Network ε ν ς} {r r' : Request ε ν ς}

theorem isServerDead_eq_false {endname : ε} {servername : ν} {server : ς} :
    rn.isServerDead endname servername server = false ↔
      rn.enabled endname = true ∧ rn.servers servername = some server := by
  simp [Network.isServerDead]

/-- `Moves rn r m r' es`: in the network `rn`, the request `r` can go on as `r'` while it emits
`es`. -/
inductive Moves (rn : Network ε ν ς) (r : Request ε ν ς) :
    Move → Request ε ν ς → List (Event ν ς) → Prop where
  | unreachable (hpc : r.pc = .start) :
    Moves rn r .readEndnameInfo { r with pc := .returned, timer := some .failed } []
  | unreliable {target : Target ν ς} (hpc : r.pc = .start) :
    Moves rn r .readEndnameInfo { r with pc := .shortDelay target } []
  | reliable {target : Target ν ς} (hpc : r.pc = .start) :
    Moves rn r .readEndnameInfo { r with pc := .execute target } []
  | dropRequest {target : Target ν ς} (hpc : r.pc = .shortDelay target) :
    Moves rn r (.shortDelay true) { r with pc := .send .failed } []
  | shortDelay {target : Target ν ς} (hpc : r.pc = .shortDelay target) :
    Moves rn r (.shortDelay false) { r with pc := .execute target } []
  | execute {target : Target ν ς} (hpc : r.pc = .execute target) :
    Moves rn r .execute { r with pc := .wait target, execution := .started target } []
  | dispatch {target : Target ν ς} (hex : r.execution = .started target) :
    Moves rn r .dispatch { r with execution := .dispatched target } [.dispatch target]
  | complete {target : Target ν ς} {reply : List UInt8} (hex : r.execution = .dispatched target) :
    Moves rn r (.complete reply) { r with execution := .completed target ⟨true, reply⟩ }
      [.complete ⟨true, reply⟩]
  | receive {target target' : Target ν ς} {reply : ReplyMsg} (hpc : r.pc = .wait target)
      (hex : r.execution = .completed target' reply) :
    Moves rn r .receive
      { r with pc := .check target (some reply), execution := .ended target' reply } []
  | pollDead {target : Target ν ς} (hpc : r.pc = .wait target) :
    Moves rn r .poll { r with pc := .check target none, drain := true } []
  | pollAlive {target : Target ν ς} (hpc : r.pc = .wait target) : Moves rn r .poll r []
  | drain {target : Target ν ς} {reply : ReplyMsg} (hex : r.execution = .completed target reply) :
    Moves rn r .drain { r with drain := false, execution := .ended target reply } []
  | fail {target : Target ν ς} {reply : Option ReplyMsg} {drop delay : Bool}
      (hpc : r.pc = .check target reply) :
    Moves rn r (.check drop delay) { r with pc := .send .failed } []
  | delayReply {target : Target ν ς} {reply : ReplyMsg} {drop delay : Bool}
      (hpc : r.pc = .check target (some reply))
      (halive : rn.isServerDead r.req.endname target.servername target.server = false) :
    Moves rn r (.check drop delay) { r with pc := .returned, timer := some reply } []
  | reply {target : Target ν ς} {reply : ReplyMsg} {drop delay : Bool}
      (hpc : r.pc = .check target (some reply))
      (halive : rn.isServerDead r.req.endname target.servername target.server = false) :
    Moves rn r (.check drop delay) { r with pc := .send reply } []
  | send {reply : ReplyMsg} (hpc : r.pc = .send reply) :
    Moves rn r .send { r with pc := .returned } [.reply reply]
  | timer {reply : ReplyMsg} (ht : r.timer = some reply) :
    Moves rn r .timer { r with timer := none } [.reply reply]

private theorem moves_readEndnameInfo (hpc : r.pc = .start) :
    Moves rn r .readEndnameInfo (r.readEndnameInfo rn) [] := by
  unfold Request.readEndnameInfo
  split
  · dsimp only
    split
    · exact .unreliable hpc
    · exact .reliable hpc
  · exact .unreachable hpc

private theorem moves_check {target : Target ν ς} {reply : Option ReplyMsg} {drop delay : Bool}
    (hpc : r.pc = .check target reply) :
    Moves rn r (.check drop delay) (r.check rn target reply drop delay) [] := by
  cases reply with
  | none => exact .fail hpc
  | some reply =>
    unfold Request.check
    dsimp only
    split
    · exact .fail hpc
    · rename_i halive
      rw [Bool.not_eq_true] at halive
      split
      · exact .fail hpc
      · split
        · exact .delayReply hpc halive
        · exact .reply hpc halive

/-- **Inversion of a move.** -/
theorem moves_of_move {m : Move} {es : List (Event ν ς)} (h : r.move rn m = some (r', es)) :
    Moves rn r m r' es := by
  cases m with
  | readEndnameInfo =>
    simp only [Request.move] at h
    split at h
    · cases h
      exact moves_readEndnameInfo ‹_›
    · cases h
  | shortDelay drop =>
    simp only [Request.move] at h
    split at h
    · cases h
      cases drop with
      | false => exact .shortDelay ‹_›
      | true => exact .dropRequest ‹_›
    · cases h
  | execute =>
    simp only [Request.move] at h
    split at h <;> cases h
    exact .execute ‹_›
  | dispatch =>
    simp only [Request.move] at h
    split at h <;> cases h
    exact .dispatch ‹_›
  | complete reply =>
    simp only [Request.move] at h
    split at h <;> cases h
    exact .complete ‹_›
  | receive =>
    simp only [Request.move] at h
    split at h <;> cases h
    exact .receive ‹_› ‹_›
  | poll =>
    simp only [Request.move] at h
    split at h
    · split at h
      · cases h
        exact .pollDead ‹_›
      · cases h
        exact .pollAlive ‹_›
    · cases h
  | drain =>
    simp only [Request.move] at h
    split at h <;> cases h
    exact .drain ‹_›
  | check drop delay =>
    simp only [Request.move] at h
    split at h <;> cases h
    exact moves_check ‹_›
  | send =>
    simp only [Request.move] at h
    split at h <;> cases h
    exact .send ‹_›
  | timer =>
    simp only [Request.move] at h
    split at h <;> cases h
    exact .timer ‹_›

/-! ### What one step keeps

The place of `ProcessReq` says something about the goroutine that executes the request: before it is
started there is nothing to execute, and behind the loop with a reply the handler has returned. With
the timer this is all a request has to be consistent about. From that it follows by cases that
dispatches, completions and replies are what the two places stand for. -/

/-- The calls of the handler so far. -/
def Execution.dispatches : Execution ν ς → List (Target ν ς)
  | .idle | .started _ => []
  | .dispatched target | .completed target _ | .ended target _ => [target]

/-- What the handler has returned so far. -/
def Execution.completions : Execution ν ς → List ReplyMsg
  | .completed _ r | .ended _ r => [r]
  | _ => []

/-- The local variables that the goroutine was started with. -/
def Execution.target? : Execution ν ς → Option (Target ν ς)
  | .idle => none
  | .started target | .dispatched target | .completed target _ | .ended target _ => some target

/-- What `ProcessReq` knows about the goroutine that executes the request. -/
def ProcessReq.Knows (ex : Execution ν ς) : ProcessReq ν ς → Prop
  | .start | .shortDelay _ | .execute _ => ex = .idle
  | .wait target => ex.target? = some target
  | .check target (some reply) => ex = .ended target reply
  | _ => True

omit [DecidableEq ς] in
/-- What `ProcessReq` knows is not affected by a step of the other goroutine while that is under
way. -/
theorem ProcessReq.Knows.advance {pc : ProcessReq ν ς} {ex ex' : Execution ν ς} (h : pc.Knows ex)
    (hidle : ex ≠ .idle) (hended : ∀ target reply, ex ≠ .ended target reply)
    (htarget : ex'.target? = ex.target?) : pc.Knows ex' := by
  cases pc with
  | start | shortDelay | execute => exact absurd h hidle
  | wait target => exact htarget.trans h
  | check target reply =>
    cases reply with
    | none => trivial
    | some reply => exact absurd h (hended target reply)
  | send | returned => trivial

/-- A request is in step with its goroutines. -/
structure Request.Consistent (r : Request ε ν ς) : Prop where
  /-- `ProcessReq` is where the execution allows it to be. -/
  knows : r.pc.Knows r.execution
  /-- The timer is set when `ProcessReq` returns, and not before. -/
  timer : r.pc ≠ .returned → r.timer = none

omit [DecidableEq ς] in
theorem Request.Consistent.execution_eq_idle (hr : r.Consistent) {target : Target ν ς}
    (hpc : r.pc = .execute target) : r.execution = .idle := by
  have hknows := hr.knows
  rwa [hpc] at hknows

namespace Moves

variable {m : Move} {es : List (Event ν ς)}

theorem req_eq (h : Moves rn r m r' es) : r'.req = r.req := by
  cases h <;> rfl

theorem knows (h : Moves rn r m r' es) (hr : r.pc.Knows r.execution) :
    r'.pc.Knows r'.execution := by
  cases h with
  | unreachable | dropRequest | pollDead | fail | delayReply | reply | send => trivial
  | pollAlive | timer => exact hr
  | unreliable hpc | reliable hpc | shortDelay hpc =>
    rw [hpc] at hr
    exact hr
  | execute => exact rfl
  | dispatch hex | complete hex | drain hex =>
    refine hr.advance ?_ ?_ ?_ <;> rw [hex]
    · exact nofun
    · exact nofun
    · rfl
  | receive hpc hex =>
    rw [hpc, hex] at hr
    cases hr
    exact rfl

theorem timer_eq_none (h : Moves rn r m r' es) (hr : r.pc ≠ .returned → r.timer = none) :
    r'.pc ≠ .returned → r'.timer = none := by
  cases h with
  | unreachable | delayReply | send => exact fun hne => absurd rfl hne
  | dispatch | complete | drain | pollAlive => exact hr
  | timer => exact fun _ => rfl
  | unreliable hpc | reliable hpc | dropRequest hpc | shortDelay hpc | execute hpc | receive hpc
  | pollDead hpc | fail hpc | reply hpc =>
    rw [hpc] at hr
    exact fun _ => hr nofun

theorem consistent (h : Moves rn r m r' es) (hr : r.Consistent) : r'.Consistent :=
  ⟨h.knows hr.knows, h.timer_eq_none hr.timer⟩

/-- The execution is what the trace shows of it. -/
theorem observed (h : Moves rn r m r' es) (hr : r.Consistent) :
    r'.execution.dispatches = r.execution.dispatches ++ es.filterMap Event.dispatch? ∧
      r'.execution.completions = r.execution.completions ++ es.filterMap Event.complete? := by
  cases h with
  | execute hpc => rw [hr.execution_eq_idle hpc]; exact ⟨rfl, rfl⟩
  | dispatch hex | complete hex | drain hex | receive _ hex => rw [hex]; exact ⟨rfl, rfl⟩
  | _ => exact ⟨(List.append_nil _).symm, (List.append_nil _).symm⟩

/-- An execution that has ended stays as it is. -/
theorem ended (h : Moves rn r m r' es) (hr : r.Consistent) {target : Target ν ς}
    {reply : ReplyMsg} (hended : r.execution = .ended target reply) :
    r'.execution = .ended target reply := by
  cases h with
  | execute hpc => cases (hr.execution_eq_idle hpc).symm.trans hended
  | dispatch hex | complete hex | drain hex | receive _ hex => cases hex.symm.trans hended
  | _ => exact hended

/-- A successful message is one that was about to be sent before, or `IsServerDead` has let it
pass. -/
theorem pending (h : Moves rn r m r' es) {msg : ReplyMsg} (hok : msg.ok = true)
    (hmsg : r'.pc = .send msg ∨ r'.timer = some msg) :
    (r.pc = .send msg ∨ r.timer = some msg) ∨
      ∃ target, r.pc = .check target (some msg) ∧
        rn.isServerDead r.req.endname target.servername target.server = false := by
  rcases hmsg with hpc' | ht'
  · cases h with
    | dropRequest | fail => cases hpc'; cases hok
    | reply hpc halive => cases hpc'; exact Or.inr ⟨_, hpc, halive⟩
    | dispatch | complete | drain | pollAlive | timer => exact Or.inl (Or.inl hpc')
    | _ => cases hpc'
  · cases h with
    | unreachable => cases ht'; cases hok
    | delayReply hpc halive => cases ht'; exact Or.inr ⟨_, hpc, halive⟩
    | timer => cases ht'
    | _ => exact Or.inl (Or.inr ht')

/-- A request sends when it finishes, and only then. -/
theorem replies (h : Moves rn r m r' es) (hr : r.Consistent) :
    es.filterMap Event.reply? = [] ∧ (r'.Finished ↔ r.Finished) ∨
      ¬ r.Finished ∧ r'.Finished ∧ ∃ msg, es.filterMap Event.reply? = [msg] ∧
        (r.pc = .send msg ∨ r.timer = some msg) := by
  have hpc_ne : ∀ {pc : ProcessReq ν ς}, r.pc = pc → pc ≠ .returned → ¬ r.Finished :=
    fun hpc hne hf => hne (hpc.symm.trans hf.1)
  cases h with
  | send hpc =>
    refine Or.inr ⟨hpc_ne hpc nofun, ⟨rfl, hr.timer ?_⟩, _, rfl, Or.inl hpc⟩
    rw [hpc]
    exact nofun
  | timer ht =>
    refine Or.inr ⟨fun hf => ?_, ⟨?_, rfl⟩, _, rfl, Or.inr ht⟩
    · cases ht.symm.trans hf.2
    · by_contra hne
      cases ht.symm.trans (hr.timer hne)
  | dispatch | complete | drain | pollAlive => exact Or.inl ⟨rfl, Iff.rfl⟩
  | unreachable hpc | delayReply hpc =>
    exact Or.inl ⟨rfl, iff_of_false (fun hf => by cases hf.2) (hpc_ne hpc nofun)⟩
  | unreliable hpc | reliable hpc | dropRequest hpc | shortDelay hpc | execute hpc | receive hpc
  | pollDead hpc | fail hpc | reply hpc =>
    exact Or.inl ⟨rfl, iff_of_false (fun hf => by cases hf.1) (hpc_ne hpc nofun)⟩

end Moves

/-! ### Whole runs

The invariant of a request counts what the trace shows of it. It has to speak about the run, not
only about the present network, since a reply that is on its way rests on a check in the past. -/

variable [DecidableEq ε] [DecidableEq ν] {as : List (Action ε ν ς)} {c c' : Cfg ε ν ς}
  {a : Action ε ν ς} {tr : List (ℕ × Event ν ς)} {k : ℕ}

/-- A successful reply to request `k` rests on a moment of the run: the handler has returned it, and
the server it ran on is the one installed under its name, and the end is enabled. -/
def Confirmed (as : List (Action ε ν ς)) (k : ℕ) (r : Request ε ν ς) (msg : ReplyMsg) : Prop :=
  ∃ target, r.execution = .ended target msg ∧
    ∃ d, (system ε ν ς).Visits as d ∧ completions k d.trace = [msg] ∧
      d.state.net.servers target.servername = some target.server ∧
      d.state.net.enabled r.req.endname = true

theorem Confirmed.append {msg : ReplyMsg} (h : Confirmed as k r msg) (bs : List (Action ε ν ς)) :
    Confirmed (as ++ bs) k r msg := by
  obtain ⟨target, hended, d, hd, hrest⟩ := h
  exact ⟨target, hended, d, hd.append bs, hrest⟩

theorem Confirmed.move {msg : ReplyMsg} (h : Confirmed as k r msg) {m : Move}
    {es : List (Event ν ς)} (hm : Moves rn r m r' es) (hr : r.Consistent) :
    Confirmed as k r' msg := by
  obtain ⟨target, hended, d, hd, hcompletions, hserver, henabled⟩ := h
  exact ⟨target, hm.ended hr hended, d, hd, hcompletions, hserver, hm.req_eq ▸ henabled⟩

/-- The invariant: what the run `as` with the trace `tr` shows of request `k` is what the request
`r` stands for. -/
structure Accounted (as : List (Action ε ν ς)) (tr : List (ℕ × Event ν ς)) (k : ℕ)
    (r : Request ε ν ς) : Prop where
  consistent : r.Consistent
  /-- The handler was called if the execution has come that far. -/
  dispatches : Labrpc.dispatches k tr = r.execution.dispatches
  /-- And it has returned, with this reply. -/
  completions : Labrpc.completions k tr = r.execution.completions
  /-- A request that has nothing left to do has sent one reply. -/
  finished : r.Finished → (replies k tr).length = 1
  /-- One that has, has not sent any. -/
  unfinished : ¬ r.Finished → replies k tr = []
  /-- A successful reply, sent or on its way, has its moment. -/
  confirmed : ∀ msg, msg.ok = true → r.pc = .send msg ∨ r.timer = some msg ∨ msg ∈ replies k tr →
    Confirmed as k r msg

/-- A step that leaves the request alone. -/
theorem Accounted.same (h : Accounted as tr k r) {es : List (ℕ × Event ν ς)}
    (hes : ∀ {β : Type} (f : Event ν ς → Option β), observed f k es = [])
    (bs : List (Action ε ν ς)) : Accounted (as ++ bs) (tr ++ es) k r := by
  have heq : ∀ {β : Type} (f : Event ν ς → Option β),
      observed f k (tr ++ es) = observed f k tr := by
    intro β f
    rw [observed_append, hes, List.append_nil]
  have hreplies : replies k (tr ++ es) = replies k tr := heq _
  refine ⟨h.consistent, (heq _).trans h.dispatches, (heq _).trans h.completions, ?_, ?_, ?_⟩
  · rw [hreplies]
    exact h.finished
  · rw [hreplies]
    exact h.unfinished
  · rw [hreplies]
    exact fun msg hok hmsg => (h.confirmed msg hok hmsg).append bs

/-- The check behind the loop confirms what it lets pass. -/
theorem Accounted.confirm (h : Accounted as c.trace k r)
    (hc : (system ε ν ς).exec (system ε ν ς).start as = some c) {target : Target ν ς}
    {msg : ReplyMsg} (hpc : r.pc = .check target (some msg))
    (halive : c.state.net.isServerDead r.req.endname target.servername target.server = false) :
    Confirmed as k r msg := by
  have hended := h.consistent.knows
  rw [hpc] at hended
  obtain ⟨henabled, hserver⟩ := isServerDead_eq_false.mp halive
  refine ⟨target, hended, c, System.visits_of_exec hc, ?_, hserver, henabled⟩
  rw [h.completions, hended]
  rfl

/-- A step of the request. -/
theorem Accounted.move (h : Accounted as c.trace k r)
    (hc : (system ε ν ς).exec (system ε ν ς).start as = some c) {m : Move}
    {es : List (Event ν ς)} (hm : Moves c.state.net r m r' es) (bs : List (Action ε ν ς)) :
    Accounted (as ++ bs) (c.trace ++ es.map (k, ·)) k r' := by
  have heq : ∀ {β : Type} (f : Event ν ς → Option β),
      observed f k (c.trace ++ es.map (k, ·)) = observed f k c.trace ++ es.filterMap f := by
    intro β f
    rw [observed_append, observed_self]
  have hreplies : replies k (c.trace ++ es.map (k, ·)) =
      replies k c.trace ++ es.filterMap Event.reply? := heq _
  obtain ⟨hdispatches, hcompletions⟩ := hm.observed h.consistent
  -- Whatever is confirmed for the request before the step is confirmed after it.
  have hkeep : ∀ {msg}, Confirmed as k r msg → Confirmed (as ++ bs) k r' msg :=
    fun hmsg => (hmsg.move hm h.consistent).append bs
  have hpending : ∀ msg, msg.ok = true → r'.pc = .send msg ∨ r'.timer = some msg →
      Confirmed (as ++ bs) k r' msg := by
    intro msg hok hmsg
    rcases hm.pending hok hmsg with hmsg | ⟨target, hpc, halive⟩
    · exact hkeep (h.confirmed msg hok (or_assoc.mp (Or.inl hmsg)))
    · exact hkeep (h.confirm hc hpc halive)
  have hsent : ∀ msg, msg.ok = true → msg ∈ replies k (c.trace ++ es.map (k, ·)) →
      Confirmed (as ++ bs) k r' msg := by
    intro msg hok hmsg
    rw [hreplies] at hmsg
    rcases List.mem_append.mp hmsg with hmsg | hmsg
    · exact hkeep (h.confirmed msg hok (Or.inr (Or.inr hmsg)))
    · rcases hm.replies h.consistent with ⟨hnil, _⟩ | ⟨_, _, msg', hone, hmsg'⟩
      · rw [hnil] at hmsg
        cases hmsg
      · rw [hone] at hmsg
        cases List.mem_singleton.mp hmsg
        exact hkeep (h.confirmed msg hok (or_assoc.mp (Or.inl hmsg')))
  refine
    { consistent := hm.consistent h.consistent
      dispatches := ?_
      completions := ?_
      finished := ?_
      unfinished := ?_
      confirmed := fun msg hok hmsg => ?_ }
  · exact (heq _).trans (hdispatches ▸ congrArg (· ++ _) h.dispatches)
  · exact (heq _).trans (hcompletions ▸ congrArg (· ++ _) h.completions)
  · intro hf
    rw [hreplies]
    rcases hm.replies h.consistent with ⟨hnil, hiff⟩ | ⟨hnot, _, msg, hone, _⟩
    · rw [hnil, List.append_nil]
      exact h.finished (hiff.mp hf)
    · rw [hone, h.unfinished hnot]
      rfl
  · intro hf
    rw [hreplies]
    rcases hm.replies h.consistent with ⟨hnil, hiff⟩ | ⟨_, hf', _⟩
    · rw [hnil, List.append_nil]
      exact h.unfinished (mt hiff.mpr hf)
    · exact absurd hf' hf
  · rcases or_assoc.mpr hmsg with hmsg | hmsg
    · exact hpending msg hok hmsg
    · exact hsent msg hok hmsg

theorem accounted_accept (req : ReqMsg ε) (h : ∀ e, (k, e) ∉ tr) :
    Accounted as tr k (Request.accept req) where
  consistent := ⟨rfl, fun _ => rfl⟩
  dispatches := observed_of_notMem h
  completions := observed_of_notMem h
  finished hf := by cases hf.1
  unfinished _ := observed_of_notMem h
  confirmed msg _ hmsg := by
    rw [replies, observed_of_notMem h] at hmsg
    rcases hmsg with hmsg | hmsg | hmsg <;> cases hmsg

/-- **Inversion of a step of the network.** -/
theorem step_cases (hn : (system ε ν ς).next c a = some c') :
    (c'.state.requests = c.state.requests ∧ c'.trace = c.trace) ∨
      (∃ req, c'.state.requests = c.state.requests ++ [.accept req] ∧ c'.trace = c.trace) ∨
      ∃ k m r r' es, c.state.requests[k]? = some r ∧ Moves c.state.net r m r' es ∧
        c'.state.requests = c.state.requests.set k r' ∧ c'.trace = c.trace ++ es.map (k, ·) := by
  obtain ⟨es, hs, ht⟩ := System.next_eq_some_iff.mp hn
  cases a with
  | admin a =>
    obtain ⟨hstate, rfl⟩ := Prod.mk.inj (Option.some.inj hs)
    rw [List.append_nil] at ht
    exact Or.inl ⟨hstate ▸ rfl, ht⟩
  | call req =>
    obtain ⟨hstate, rfl⟩ := Prod.mk.inj (Option.some.inj hs)
    rw [List.append_nil] at ht
    exact Or.inr (Or.inl ⟨req, hstate ▸ rfl, ht⟩)
  | move k m =>
    obtain ⟨r, hr, hs⟩ := Option.bind_eq_some_iff.mp hs
    obtain ⟨⟨r', es'⟩, hm, hs⟩ := Option.bind_eq_some_iff.mp hs
    obtain ⟨hstate, rfl⟩ := Prod.mk.inj (Option.some.inj hs)
    exact Or.inr (Or.inr ⟨k, m, r, r', es', hr, moves_of_move hm, hstate ▸ rfl, ht⟩)

/-- Events belong to requests that have been accepted. -/
theorem notMem_of_exec (h : (system ε ν ς).exec (system ε ν ς).start as = some c)
    (hk : c.state.requests.length ≤ k) (e : Event ν ς) : (k, e) ∉ c.trace := by
  refine System.exec_induction (M := system ε ν ς)
    (P := fun _ c => ∀ k, c.state.requests.length ≤ k → ∀ e, (k, e) ∉ c.trace)
    (fun _ _ _ => List.not_mem_nil) ?_ h k hk e
  intro as c a c' _ ih hn k hk e
  rcases step_cases hn with ⟨hr, ht⟩ | ⟨req, hr, ht⟩ | ⟨i, m, r, r', es, hi, _, hr, ht⟩
  · rw [ht]
    exact ih k (hr ▸ hk) e
  · rw [hr, List.length_append] at hk
    rw [ht]
    exact ih k (by omega) e
  · rw [hr, List.length_set] at hk
    rw [ht, List.mem_append, not_or]
    refine ⟨ih k hk e, fun hmem => ?_⟩
    obtain ⟨e', _, heq⟩ := List.mem_map.mp hmem
    have := (List.getElem?_eq_some_iff.mp hi).1
    have : i = k := congrArg Prod.fst heq
    omega

/-- **The invariant holds along every run.** -/
theorem accounted_of_exec (h : (system ε ν ς).exec (system ε ν ς).start as = some c)
    (hr : c.state.requests[k]? = some r) : Accounted as c.trace k r := by
  refine System.exec_induction (M := system ε ν ς)
    (P := fun as c => ∀ k r, c.state.requests[k]? = some r → Accounted as c.trace k r)
    (fun k r hr => by cases hr) ?_ h k r hr
  intro as c a c' hc ih hn k r hr
  rcases step_cases hn with ⟨hreq, ht⟩ | ⟨req, hreq, ht⟩ | ⟨i, m, r₀, r', es, hi, hm, hreq, ht⟩
  · rw [hreq] at hr
    rw [ht, ← List.append_nil c.trace]
    exact (ih k r hr).same (fun _ => rfl) [a]
  · rw [hreq] at hr
    rw [ht]
    rcases Nat.lt_or_ge k c.state.requests.length with hlt | hge
    · rw [List.getElem?_append_left hlt] at hr
      rw [← List.append_nil c.trace]
      exact (ih k r hr).same (fun _ => rfl) [a]
    · rw [List.getElem?_append_right hge] at hr
      cases List.mem_singleton.mp (List.mem_of_getElem? hr)
      exact accounted_accept req (notMem_of_exec hc hge)
  · rw [hreq, List.getElem?_set] at hr
    rw [ht]
    split at hr
    · rename_i hik
      subst hik
      split at hr
      · cases hr
        exact (ih i r₀ hi).move hc hm [a]
      · cases hr
    · rename_i hik
      exact (ih k r hr).same (fun _ => observed_other hik) [a]

/-- **The delivery guarantee**, for every request and in every run: the handler is dispatched at
most once; at most one message is sent on `replyCh`, and exactly one when `ProcessReq` and its timer
have finished; and if that message says `ok`, it is what the one dispatch returned, and at some
moment after that the server was the one installed under its name, and the client end was enabled.
-/
theorem one_dispatch_one_reply (as : List (Action ε ν ς)) (c : Cfg ε ν ς)
    (h : (system ε ν ς).exec (system ε ν ς).start as = some c) (k : ℕ) (r : Request ε ν ς)
    (hr : c.state.requests[k]? = some r) :
    (dispatches k c.trace).length ≤ 1 ∧ (replies k c.trace).length ≤ 1 ∧
      (r.Finished → (replies k c.trace).length = 1) ∧
      ∀ msg ∈ replies k c.trace, msg.ok = true →
        ∃ target, dispatches k c.trace = [target] ∧ completions k c.trace = [msg] ∧
          ∃ d, (system ε ν ς).Visits as d ∧ completions k d.trace = [msg] ∧
            d.state.net.servers target.servername = some target.server ∧
            d.state.net.enabled r.req.endname = true := by
  have hacc := accounted_of_exec h hr
  refine ⟨?_, ?_, hacc.finished, fun msg hmsg hok => ?_⟩
  · rw [hacc.dispatches]
    cases r.execution <;> simp [Execution.dispatches]
  · by_cases hf : r.Finished
    · exact (hacc.finished hf).le
    · rw [hacc.unfinished hf]
      exact Nat.zero_le 1
  · obtain ⟨target, hended, hmoment⟩ := hacc.confirmed msg hok (Or.inr (Or.inr hmsg))
    refine ⟨target, ?_, ?_, hmoment⟩
    · rw [hacc.dispatches, hended]
      rfl
    · rw [hacc.completions, hended]
      rfl

/-- Server `7` is installed under the name `1`, and end `0` is connected to it and enabled. It
executes a request. -/
def completedRun : List (Action ℕ ℕ ℕ) :=
  [.admin (.addServer 1 7), .admin (.connect 0 (some 1)), .admin (.enable 0 true),
    .admin (.longReordering true), .call ⟨0, "Raft.AppendEntries", []⟩, .move 0 .readEndnameInfo,
    .move 0 .execute, .move 0 .dispatch, .move 0 (.complete [42])]

/-- The reply is received and delayed, and sent after the server has been deleted. -/
def delayedRun : List (Action ℕ ℕ ℕ) :=
  completedRun ++
    [.move 0 .receive, .move 0 (.check false true), .admin (.deleteServer 1), .move 0 .timer]

theorem one_dispatch_one_reply_delayedRun :
    ∃ c r, (system ℕ ℕ ℕ).exec (system ℕ ℕ ℕ).start delayedRun = some c ∧
      c.state.requests[0]? = some r ∧ r.Finished ∧ replies 0 c.trace = [⟨true, [42]⟩] ∧
      ∃ target, dispatches 0 c.trace = [target] ∧
        ∃ d, (system ℕ ℕ ℕ).Visits delayedRun d ∧ completions 0 d.trace = [⟨true, [42]⟩] ∧
          d.state.net.servers target.servername = some target.server ∧
          d.state.net.enabled r.req.endname = true := by
  have hrun : ((system ℕ ℕ ℕ).exec (system ℕ ℕ ℕ).start delayedRun).any (fun c =>
      decide (replies 0 c.trace = [⟨true, [42]⟩]) &&
        c.state.requests[0]?.any fun r => decide r.Finished) = true := by
    decide +kernel
  obtain ⟨c, hc, h⟩ := (Option.any_eq_true _ _).mp hrun
  obtain ⟨hreplies, h⟩ := (Bool.and_eq_true _ _).mp h
  obtain ⟨r, hr, hf⟩ := (Option.any_eq_true _ _).mp h
  have hreplies := of_decide_eq_true hreplies
  obtain ⟨target, hdispatches, _, hmoment⟩ :=
    (one_dispatch_one_reply delayedRun c hc 0 r hr).2.2.2 ⟨true, [42]⟩ (by simp [hreplies]) rfl
  exact ⟨c, r, hc, hr, of_decide_eq_true hf, hreplies, target, hdispatches, hmoment⟩

/-- If the server is replaced before the reply is checked, the caller is told that it failed. -/
example : ((system ℕ ℕ ℕ).exec (system ℕ ℕ ℕ).start (completedRun ++
    [.admin (.deleteServer 1), .admin (.addServer 1 8), .move 0 .receive,
      .move 0 (.check false false), .move 0 .send])).map (fun c => replies 0 c.trace) =
      some [.failed] := by
  decide +kernel

end Labrpc

end Distsys
