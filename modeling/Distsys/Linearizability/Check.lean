import Distsys.Lib.Lists
import Distsys.Lib.TransitionSystem
import Distsys.Linearizability.Operations

/-!
# `CheckOperationsTimeout`

One goroutine for each partition of the history runs `checkSingle` and sends its result; the caller
receives the results, in any order. It returns `false` with the first result that is `false`, after
it has set `kill`, and `true` when it has received as many results as there are partitions. If there
is a timeout it may also fire, at any time.

Until the caller returns, `kill` is not set, so each goroutine goes through the states of the search
that nobody disturbs. The number of rounds these have left goes down with every step. So there is a
bound on how many steps are taken before the caller returns.

## Schedules

The goroutines, the caller and the timer are one system, and a run is any order of their steps. The
channel of the results is unbuffered, so that a result is sent and received in one step. Results are
received in any order, which does not matter for a conjunction.

What is proved of one search, that it returns after so many rounds, is about `Search.step` with
`kill` not set. For the system this has to be carried over a run in which rounds of different
searches alternate. `Pending` does so: it says what a goroutine will send and after how many more
steps.

## Main definitions

* `Worker`, `Checker`, `Checker.start`, `Checker.step`, `Checker.system`
* `Decided`, `Checker.AlwaysReturns` — what single searches and the caller return
* `Pending`, `Checker.Waiting`, `Checker.Inv` — the invariant, with the number of steps left

## Main results

* `Untied.decided` — a search of a history returns
* `Checker.Inv.step`, `Checker.inv_of_exec`
* `Checker.alwaysReturns_start` — under every schedule the caller returns the conjunction of the
  results of all partitions
-/

namespace Distsys

namespace Linearizability

variable {σ ι ο : Type}

/-- A goroutine of `CheckOperationsTimeout`. -/
inductive Worker (σ ι ο : Type) where
  /-- In `checkSingle`. -/
  | searching (s : Search σ ι ο)
  /-- At `results <-`. -/
  | sending (result : Bool)
  | done

def Worker.isDone : Worker σ ι ο → Bool
  | .done => true
  | _ => false

/-- The variables of `CheckOperationsTimeout`, its goroutines, and what it has returned. -/
structure Checker (σ ι ο : Type) where
  workers : List (Worker σ ι ο)
  /-- The conjunction of the results so far. -/
  ok : Bool
  /-- Whether the searches are to stop. -/
  kill : Bool
  /-- How many results were received. -/
  count : ℕ
  returned : Option Bool

inductive CheckAction where
  /-- Goroutine `i` makes a round of `checkSingle`. -/
  | round (i : ℕ)
  /-- `case result := <-results`, from goroutine `i`. -/
  | receive (i : ℕ)
  /-- `case <-timeoutChan`. -/
  | timeout
  deriving DecidableEq, Repr

namespace Checker

variable (model : Model σ ι ο)

/-- What `CheckOperationsTimeout` does before its loop. -/
def start (sort : UnstableSort (Entry ι ο) fun a b => a.time < b.time)
    (history : List (Operation ι ο)) : Option (Checker σ ι ο) := do
  let workers ← (model.partition history).mapM fun subhistory => do
    let l ← makeLinkedEntries (makeEntries sort subhistory)
    let s ← Search.start model l.heap l.root
    return Worker.searching s
  return ⟨workers, true, false, 0, none⟩

/-- The step function. `timeout` says if the timeout is positive. -/
def step (timeout : Bool) (c : Checker σ ι ο) : CheckAction → Option (Checker σ ι ο)
  | .round i =>
    match c.workers[i]? with
    | some (.searching s) =>
      match s.step model c.kill with
      | some (.inl s') => some { c with workers := c.workers.set i (.searching s') }
      | some (.inr result) => some { c with workers := c.workers.set i (.sending result) }
      | none => none
    | _ => none
  | .receive i =>
    if c.returned = none then
      match c.workers[i]? with
      | some (.sending result) =>
        let workers := c.workers.set i .done
        let ok := c.ok && result
        if ok = false then some { c with workers, ok, kill := true, returned := some ok }
        else if c.count + 1 ≥ c.workers.length then
          some { c with workers, ok, count := c.count + 1, returned := some ok }
        else some { c with workers, ok, count := c.count + 1 }
      | _ => none
    else none
  | .timeout =>
    if timeout = true ∧ c.returned = none then some { c with returned := some c.ok } else none

/-- `CheckOperationsTimeout`, from the state behind its first loop. -/
def system (timeout : Bool) (init : Checker σ ι ο) : System (Checker σ ι ο) CheckAction Empty where
  init := init
  step c a := (c.step model timeout a).map fun c => (c, [])

end Checker

/-- `checkSingle`, never killed, returns `verdict` on the list of `entries`. -/
def Decided (model : Model σ ι ο) (entries : List (Entry ι ο)) (verdict : Bool) : Prop :=
  ∃ l fuel, makeLinkedEntries entries = some l ∧
    checkSingle model l.heap l.root fuel = some (.inr verdict)

theorem Untied.decided {model : Model σ ι ο} (hequal : model.LawfulEqual)
    (sort : UnstableSort (Entry ι ο) fun a b => a.time < b.time) {history : List (Operation ι ο)}
    (h : Untied history) : ∃ verdict, Decided model (makeEntries sort history) verdict ∧
      (verdict = true ↔ Linearizable (fun a b => a.ret < b.call) model.stepOperation model.init
        history) := by
  obtain ⟨l, hl, hB⟩ := makeLinkedEntries_spec (makeEntries sort history)
  obtain ⟨s, s', verdict, hstart, hreach, hret, hiff⟩ := Search.decides_operations hequal h hB
  obtain ⟨N, hN⟩ := Search.run_of_reach hreach hret
  refine ⟨verdict, ⟨l, N, hl, ?_⟩, hiff⟩
  rw [checkSingle, hstart]
  exact hN N le_rfl

/-- Whatever the order in which the goroutines run, the caller returns `result`: it returns nothing
else, somebody can go on until it returns, and there is a bound on the steps before. -/
structure Checker.AlwaysReturns (model : Model σ ι ο) (init : Checker σ ι ο) (result : Bool) :
    Prop where
  /-- It returns nothing else. -/
  eq : ∀ as c r, (system model false init).exec (system model false init).start as = some c →
    c.state.returned = some r → r = result
  /-- Until it does, somebody can go on. -/
  exists_next : ∀ as c, (system model false init).exec (system model false init).start as = some c →
    c.state.returned = none → ∃ a c', (system model false init).next c a = some c'
  /-- Not for ever. -/
  bounded : ∃ N, ∀ as c,
    (system model false init).exec (system model false init).start as = some c →
    N < as.length → c.state.returned ≠ none

/-- It does return, since steps are possible until it does and there is a bound on them. -/
theorem Checker.AlwaysReturns.exists_run {model : Model σ ι ο} {init : Checker σ ι ο}
    {result : Bool} (h : AlwaysReturns model init result) :
    ∃ as c, (system model false init).exec (system model false init).start as = some c ∧
      c.state.returned = some result := by
  by_contra hnone
  push Not at hnone
  have hwait : ∀ as c, (system model false init).exec (system model false init).start as = some c →
      c.state.returned = none := by
    intro as c hc
    cases hr : c.state.returned with
    | none => rfl
    | some r => exact absurd (h.eq as c r hc hr ▸ hr) (hnone as c hc)
  have hlong : ∀ k, ∃ as c, as.length = k ∧
      (system model false init).exec (system model false init).start as = some c := by
    intro k
    induction k with
    | zero => exact ⟨[], _, rfl, rfl⟩
    | succ k ih =>
      obtain ⟨as, c, hlen, hc⟩ := ih
      obtain ⟨a, c', hnext⟩ := h.exists_next as c hc (hwait as c hc)
      refine ⟨as ++ [a], c', by simp [hlen], ?_⟩
      rw [System.exec_concat hc]
      exact hnext
  obtain ⟨N, hN⟩ := h.bounded
  obtain ⟨as, c, hlen, hc⟩ := hlong (N + 1)
  exact hN as c hc (by omega) (hwait as c hc)

/-- The search returns `verdict` after `k` more rounds, and one in which it returns. -/
inductive Search.Returns (model : Model σ ι ο) : Search σ ι ο → ℕ → Bool → Prop where
  | now {s : Search σ ι ο} {verdict : Bool} (h : s.step model false = some (.inr verdict)) :
    Returns model s 0 verdict
  | later {s s' : Search σ ι ο} {k : ℕ} {verdict : Bool} (h : s.step model false = some (.inl s'))
      (hs' : Returns model s' k verdict) : Returns model s (k + 1) verdict

theorem Search.returns_of_run {model : Model σ ι ο} {fuel : ℕ} {s : Search σ ι ο} {verdict : Bool}
    (h : s.run model fuel = some (.inr verdict)) : ∃ k, Search.Returns model s k verdict := by
  induction fuel generalizing s with
  | zero => cases h
  | succ fuel ih =>
    rw [run] at h
    split at h
    · rename_i s' hs
      obtain ⟨k, hk⟩ := ih h
      exact ⟨k + 1, .later hs hk⟩
    · exact ⟨0, .now h⟩

/-- What a goroutine has still to do: its result, and the number of its steps. A result that was
received was `true`. -/
inductive Pending (model : Model σ ι ο) : Worker σ ι ο → Bool × ℕ → Prop where
  | searching {s : Search σ ι ο} {k : ℕ} {verdict : Bool} (h : Search.Returns model s k verdict) :
    Pending model (.searching s) (verdict, k + 2)
  | sending {verdict : Bool} : Pending model (.sending verdict) (verdict, 1)
  | done : Pending model .done (true, 0)

namespace Checker

variable {model : Model σ ι ο}

/-- The cases of `step`. -/
inductive Steps (model : Model σ ι ο) (timeout : Bool) (c : Checker σ ι ο) :
    CheckAction → Checker σ ι ο → Prop where
  | round {i : ℕ} {s s' : Search σ ι ο} (hi : c.workers[i]? = some (.searching s))
      (h : s.step model c.kill = some (.inl s')) :
    Steps model timeout c (.round i) { c with workers := c.workers.set i (.searching s') }
  | result {i : ℕ} {s : Search σ ι ο} {result : Bool} (hi : c.workers[i]? = some (.searching s))
      (h : s.step model c.kill = some (.inr result)) :
    Steps model timeout c (.round i) { c with workers := c.workers.set i (.sending result) }
  | refuted {i : ℕ} {result : Bool} (hnone : c.returned = none)
      (hi : c.workers[i]? = some (.sending result)) (hok : (c.ok && result) = false) :
    Steps model timeout c (.receive i) { c with
      workers := c.workers.set i .done, ok := c.ok && result, kill := true,
      returned := some (c.ok && result) }
  | last {i : ℕ} {result : Bool} (hnone : c.returned = none)
      (hi : c.workers[i]? = some (.sending result)) (hok : (c.ok && result) = true)
      (hcount : c.workers.length ≤ c.count + 1) :
    Steps model timeout c (.receive i) { c with
      workers := c.workers.set i .done, ok := c.ok && result, count := c.count + 1,
      returned := some (c.ok && result) }
  | next {i : ℕ} {result : Bool} (hnone : c.returned = none)
      (hi : c.workers[i]? = some (.sending result)) (hok : (c.ok && result) = true)
      (hcount : c.count + 1 < c.workers.length) :
    Steps model timeout c (.receive i) { c with
      workers := c.workers.set i .done, ok := c.ok && result, count := c.count + 1 }
  | timeout (hnone : c.returned = none) (htimeout : timeout = true) :
    Steps model timeout c .timeout { c with returned := some c.ok }

theorem steps_of_eq_some {timeout : Bool} {c c' : Checker σ ι ο} {a : CheckAction}
    (h : c.step model timeout a = some c') : Steps model timeout c a c' := by
  cases a with
  | round i =>
    simp only [step] at h
    split at h
    · rename_i s hi
      split at h
      · rename_i s' hs
        cases h
        exact .round hi hs
      · rename_i result hs
        cases h
        exact .result hi hs
      · cases h
    · cases h
  | receive i =>
    simp only [step] at h
    split at h
    · rename_i hnone
      split at h
      · rename_i result hi
        split at h
        · rename_i hok
          cases h
          exact .refuted hnone hi hok
        · rename_i hok
          split at h
          · rename_i hcount
            cases h
            exact .last hnone hi (Bool.eq_true_of_not_eq_false hok) hcount
          · rename_i hcount
            cases h
            exact .next hnone hi (Bool.eq_true_of_not_eq_false hok) (not_le.mp hcount)
      · cases h
    · cases h
  | timeout =>
    simp only [step] at h
    split at h
    · rename_i hand
      cases h
      exact .timeout hand.2 hand.1
    · cases h

/-- The caller waits for results. -/
structure Waiting (model : Model σ ι ο) (verdicts : List Bool) (c : Checker σ ι ο)
    (todo : List (Bool × ℕ)) : Prop where
  /-- No result so far was `false`. -/
  ok : c.ok = true
  /-- So nobody has stopped the searches. -/
  kill : c.kill = false
  count : c.count = c.workers.countP Worker.isDone
  /-- There are results to come. -/
  lt : c.count < c.workers.length
  /-- Each goroutine will send its result after a number of rounds. -/
  pending : List.Forall₂ (Pending model) c.workers todo
  verdicts : todo.map Prod.fst = verdicts

/-- What holds after `taken` steps. If the caller still waits, they are all steps of the searches or
receipts of results, of which there are `total`. -/
def Inv (model : Model σ ι ο) (verdicts : List Bool) (total taken : ℕ) (c : Checker σ ι ο) : Prop :=
  match c.returned with
  | none => ∃ todo, Waiting model verdicts c todo ∧ (todo.map Prod.snd).sum + taken = total
  | some r => r = verdicts.all id

/-- The number of goroutines that are done, when one of the others changes. -/
theorem countP_set_of_not_done {workers : List (Worker σ ι ο)} {i : ℕ} {w : Worker σ ι ο}
    (hi : workers[i]? = some w) (hw : w.isDone = false) (w' : Worker σ ι ο) :
    (workers.set i w').countP Worker.isDone =
      workers.countP Worker.isDone + if w'.isDone then 1 else 0 := by
  obtain ⟨hlt, rfl⟩ := List.getElem?_eq_some_iff.mp hi
  rw [List.countP_set hlt, if_neg (by simp [hw])]
  rfl

variable {verdicts : List Bool} {total taken : ℕ} {c c' : Checker σ ι ο} {a : CheckAction}

theorem Waiting.inv {todo : List (Bool × ℕ)} (h : Waiting model verdicts c todo)
    (hnone : c.returned = none) (hsum : (todo.map Prod.snd).sum + taken = total) :
    Inv model verdicts total taken c := by
  rw [Inv, hnone]
  exact ⟨todo, h, hsum⟩

theorem Inv.exists_waiting (h : Inv model verdicts total taken c) (hnone : c.returned = none) :
    ∃ todo, Waiting model verdicts c todo ∧ (todo.map Prod.snd).sum + taken = total := by
  rwa [Inv, hnone] at h

theorem inv_of_returned {r : Bool} (hsome : c.returned = some r) (hr : r = verdicts.all id) :
    Inv model verdicts total taken c := by
  rwa [Inv, hsome]

theorem Inv.returned_eq {r : Bool} (h : Inv model verdicts total taken c)
    (hsome : c.returned = some r) : r = verdicts.all id := by
  rwa [Inv, hsome] at h

/-- All results are `true` once all goroutines are done. -/
theorem all_of_done {workers : List (Worker σ ι ο)} {todo : List (Bool × ℕ)}
    (h : List.Forall₂ (Pending model) workers todo) (hdone : ∀ w ∈ workers, w.isDone = true) :
    (todo.map Prod.fst).all id = true := by
  induction h with
  | nil => rfl
  | cons hp _ ih =>
    obtain ⟨hw, hrest⟩ := List.forall_mem_cons.mp hdone
    cases hp with
    | searching _ => cases hw
    | sending => cases hw
    | done => exact ih hrest

/-- What a goroutine has to do is one item of the list, and can be replaced. -/
theorem Waiting.exists_item {todo : List (Bool × ℕ)} (h : Waiting model verdicts c todo) {i : ℕ}
    {w : Worker σ ι ο} (hi : c.workers[i]? = some w) :
    ∃ todo₁ todo₂ verdict k, todo = todo₁ ++ (verdict, k) :: todo₂ ∧ Pending model w (verdict, k) ∧
      ∀ w' n, Pending model w' (verdict, n) →
        List.Forall₂ (Pending model) (c.workers.set i w') (todo₁ ++ (verdict, n) :: todo₂) ∧
        (todo₁ ++ (verdict, n) :: todo₂).map Prod.fst = verdicts := by
  obtain ⟨todo₁, ⟨verdict, k⟩, todo₂, rfl, hp, hset⟩ := forall₂_set h.pending hi
  refine ⟨todo₁, todo₂, verdict, k, rfl, hp, fun w' n hp' => ⟨hset w' _ hp', ?_⟩⟩
  simpa using h.verdicts

/-- A goroutine goes on, and is not done after it. -/
theorem Waiting.round {todo₁ todo₂ : List (Bool × ℕ)} {verdict : Bool} {k n i : ℕ}
    (h : Waiting model verdicts c (todo₁ ++ (verdict, k) :: todo₂)) {w w' : Worker σ ι ο}
    (hi : c.workers[i]? = some w) (hw : w.isDone = false) (hw' : w'.isDone = false)
    (hset : List.Forall₂ (Pending model) (c.workers.set i w') (todo₁ ++ (verdict, n) :: todo₂) ∧
      (todo₁ ++ (verdict, n) :: todo₂).map Prod.fst = verdicts) :
    Waiting model verdicts { c with workers := c.workers.set i w' }
      (todo₁ ++ (verdict, n) :: todo₂) where
  ok := h.ok
  kill := h.kill
  count := by rw [countP_set_of_not_done hi hw, hw', h.count]; rfl
  lt := by rw [List.length_set]; exact h.lt
  pending := hset.1
  verdicts := hset.2

/-- A step of a search while the caller waits. -/
theorem Waiting.step_searching {todo : List (Bool × ℕ)} (h : Waiting model verdicts c todo)
    (hnone : c.returned = none) {i : ℕ} {s : Search σ ι ο} {r : Search σ ι ο ⊕ Bool}
    (hi : c.workers[i]? = some (.searching s)) (hstep : s.step model c.kill = some r) :
    Inv model verdicts ((todo.map Prod.snd).sum + taken) (taken + 1)
      { c with workers := c.workers.set i (r.elim .searching .sending) } := by
  obtain ⟨todo₁, todo₂, verdict, k, rfl, hp, hset⟩ := h.exists_item hi
  rw [h.kill] at hstep
  cases hp with
  | searching hret =>
    cases hret with
    | now hret =>
      cases hstep.symm.trans hret
      refine (h.round hi rfl rfl (hset _ _ .sending)).inv hnone ?_
      simp
      omega
    | later hstep' hret =>
      cases hstep.symm.trans hstep'
      refine (h.round hi rfl rfl (hset _ _ (.searching hret))).inv hnone ?_
      simp
      omega

/-- The goroutines after a result has been received that is `true`. -/
theorem Waiting.receive {todo : List (Bool × ℕ)} (h : Waiting model verdicts c todo) {i : ℕ}
    (hi : c.workers[i]? = some (.sending true)) :
    ∃ todo', List.Forall₂ (Pending model) (c.workers.set i .done) todo' ∧
      todo'.map Prod.fst = verdicts ∧ (todo'.map Prod.snd).sum + 1 = (todo.map Prod.snd).sum ∧
      c.count + 1 = (c.workers.set i .done).countP Worker.isDone := by
  obtain ⟨todo₁, todo₂, verdict, k, rfl, hp, hset⟩ := h.exists_item hi
  cases hp with
  | sending =>
    refine ⟨_, (hset _ _ .done).1, (hset _ _ .done).2, ?_, ?_⟩
    · simp
      omega
    · rw [countP_set_of_not_done hi rfl, h.count]
      rfl

/-- A step while the caller waits. -/
theorem Waiting.step {todo : List (Bool × ℕ)} (h : Waiting model verdicts c todo)
    (hnone : c.returned = none) (hs : Steps model false c a c') :
    Inv model verdicts ((todo.map Prod.snd).sum + taken) (taken + 1) c' := by
  cases hs with
  | round hi hstep => exact h.step_searching hnone hi hstep
  | result hi hstep => exact h.step_searching hnone hi hstep
  | refuted _ hi hok =>
    obtain ⟨todo₁, todo₂, verdict, k, rfl, hp, -⟩ := h.exists_item hi
    cases hp with
    | sending =>
      rw [h.ok, Bool.true_and] at hok
      refine inv_of_returned rfl ?_
      rw [← h.verdicts, h.ok, hok]
      simp
  | last _ hi hok hcount =>
    rw [h.ok, Bool.true_and] at hok
    subst hok
    obtain ⟨todo', hpending, hverdicts, -, hdone⟩ := h.receive hi
    refine inv_of_returned rfl ?_
    rw [h.ok, ← hverdicts, all_of_done hpending]
    · rfl
    · refine List.countP_eq_length.mp (le_antisymm List.countP_le_length ?_)
      rw [← hdone, List.length_set]
      exact hcount
  | next _ hi hok hcount =>
    rw [h.ok, Bool.true_and] at hok
    subst hok
    obtain ⟨todo', hpending, hverdicts, hsum, hdone⟩ := h.receive hi
    rw [Bool.and_true]
    refine Waiting.inv ⟨h.ok, h.kill, hdone, ?_, hpending, hverdicts⟩ hnone (by omega)
    rw [List.length_set]
    exact hcount
  | timeout _ htimeout => cases htimeout

/-- **A step keeps the invariant.** -/
theorem Inv.step (h : Inv model verdicts total taken c) (hs : Steps model false c a c') :
    Inv model verdicts total (taken + 1) c' := by
  cases hr : c.returned with
  | none =>
    obtain ⟨todo, hwait, rfl⟩ := h.exists_waiting hr
    exact hwait.step hr hs
  | some r =>
    have hall := h.returned_eq hr
    cases hs with
    | round => exact inv_of_returned hr hall
    | result => exact inv_of_returned hr hall
    | refuted hnone => cases hr.symm.trans hnone
    | last hnone => cases hr.symm.trans hnone
    | next hnone => cases hr.symm.trans hnone
    | timeout hnone => cases hr.symm.trans hnone

/-- **While the caller waits, there is a goroutine that can go on.** -/
theorem Waiting.exists_step {todo : List (Bool × ℕ)} (h : Waiting model verdicts c todo)
    (hnone : c.returned = none) : ∃ a c', c.step model false a = some c' := by
  have hnot : ¬ ∀ w ∈ c.workers, w.isDone = true := fun hall =>
    h.lt.ne (h.count.trans (List.countP_eq_length.mpr hall))
  push Not at hnot
  obtain ⟨w, hw, hdone⟩ := hnot
  obtain ⟨i, hi⟩ := List.mem_iff_getElem?.mp hw
  obtain ⟨_, _, _, _, _, hp, _⟩ := h.exists_item hi
  cases hp with
  | searching hret =>
    refine ⟨.round i, ?_⟩
    cases hret with
    | now hstep => simp [Checker.step, hi, h.kill, hstep]
    | later hstep _ => simp [Checker.step, hi, h.kill, hstep]
  | sending =>
    refine ⟨.receive i, ?_⟩
    simp only [Checker.step, hnone, hi, if_true]
    split_ifs <;> exact ⟨_, rfl⟩
  | done => exact absurd rfl hdone

/-! ### Runs

The invariant counts steps, so it is one of runs and not of configurations: behind `taken` steps the
rounds that are left and the rounds that were made add up to the same `total`. From that follow the
bound, the result and that somebody can go on. -/

variable {init : Checker σ ι ο}

/-- **The invariant of a run.** -/
theorem inv_of_exec (h₀ : Inv model verdicts total 0 init) {as : List CheckAction}
    {c : System.Config (Checker σ ι ο) Empty}
    (h : (system model false init).exec (system model false init).start as = some c) :
    Inv model verdicts total as.length c.state := by
  refine System.exec_induction (M := system model false init)
    (P := fun as c => Inv model verdicts total as.length c.state) h₀ (fun as c a c' _ hc hn => ?_) h
  obtain ⟨es, hstep, -⟩ := System.next_eq_some_iff.mp hn
  obtain ⟨c'', hc'', heq⟩ := Option.map_eq_some_iff.mp hstep
  cases heq
  rw [List.length_append]
  exact hc.step (steps_of_eq_some hc'')

theorem Inv.alwaysReturns (h₀ : Inv model verdicts total 0 init) :
    AlwaysReturns model init (verdicts.all id) where
  eq _ _ _ h hr := (inv_of_exec h₀ h).returned_eq hr
  exists_next _ c h hnone := by
    obtain ⟨todo, hwait, -⟩ := (inv_of_exec h₀ h).exists_waiting hnone
    obtain ⟨a, c', hstep⟩ := hwait.exists_step hnone
    exact ⟨a, ⟨c', c.trace ++ []⟩, System.next_eq_some_iff.mpr ⟨[], by simp [system, hstep], rfl⟩⟩
  bounded := by
    refine ⟨total, fun as c h hlt hnone => ?_⟩
    obtain ⟨todo, -, hsum⟩ := (inv_of_exec h₀ h).exists_waiting hnone
    omega

/-- The goroutine `w` is about to search the list of `entries`. -/
def Begins (model : Model σ ι ο) (entries : List (Entry ι ο)) (w : Worker σ ι ο) : Prop :=
  ∃ l s, makeLinkedEntries entries = some l ∧ Search.start model l.heap l.root = some s ∧
    w = .searching s

/-- The goroutines before their first step. -/
theorem exists_workers (model : Model σ ι ο) {γ : Type} (toEntries : γ → List (Entry ι ο))
    (partitions : List γ) : ∃ workers, (partitions.mapM fun subhistory => do
        let l ← makeLinkedEntries (toEntries subhistory)
        let s ← Search.start model l.heap l.root
        return Worker.searching s) = some workers ∧
      List.Forall₂ (Begins model) (partitions.map toEntries) workers := by
  induction partitions with
  | nil => exact ⟨[], rfl, .nil⟩
  | cons subhistory partitions ih =>
    obtain ⟨workers, heq, hbegins⟩ := ih
    obtain ⟨l, hl, hB⟩ := makeLinkedEntries_spec (toEntries subhistory)
    obtain ⟨heap, hs, -⟩ := Search.start_eq model hB
    refine ⟨.searching _ :: workers, ?_, .cons ⟨l, _, hl, hs, rfl⟩ hbegins⟩
    rw [List.mapM_cons, heq, hl]
    simp [hs]

/-- What they have to do, if their searches return. -/
theorem exists_todo {lists : List (List (Entry ι ο))} {workers : List (Worker σ ι ο)}
    (hw : List.Forall₂ (Begins model) lists workers)
    (hv : List.Forall₂ (Decided model) lists verdicts) :
    ∃ todo, List.Forall₂ (Pending model) workers todo ∧ todo.map Prod.fst = verdicts ∧
      workers.countP Worker.isDone = 0 := by
  induction hw generalizing verdicts with
  | nil =>
    cases hv
    exact ⟨[], .nil, rfl, rfl⟩
  | cons hbegins _ ih =>
    cases hv with
    | cons hdecided hv =>
      obtain ⟨l, s, hl, hs, rfl⟩ := hbegins
      obtain ⟨l', fuel, hl', hcheck⟩ := hdecided
      cases hl.symm.trans hl'
      rw [checkSingle, hs] at hcheck
      obtain ⟨k, hk⟩ := Search.returns_of_run hcheck
      obtain ⟨todo, hpending, hfst, hcount⟩ := ih hv
      exact ⟨(_, k + 2) :: todo, .cons (.searching hk) hpending, by rw [List.map_cons, hfst],
        by simpa [Worker.isDone] using hcount⟩

/-- The caller returns the conjunction of the results. -/
theorem alwaysReturns_of_begins {lists : List (List (Entry ι ο))} {workers : List (Worker σ ι ο)}
    (hne : lists ≠ []) (hw : List.Forall₂ (Begins model) lists workers)
    (hv : List.Forall₂ (Decided model) lists verdicts) :
    AlwaysReturns model ⟨workers, true, false, 0, none⟩ (verdicts.all id) := by
  obtain ⟨todo, hpending, hfst, hcount⟩ := exists_todo hw hv
  have hwait : Waiting model verdicts ⟨workers, true, false, 0, none⟩ todo :=
    ⟨rfl, rfl, hcount.symm, hw.length_eq ▸ List.length_pos_of_ne_nil hne, hpending, hfst⟩
  exact (hwait.inv rfl rfl).alwaysReturns

/-- **`CheckOperations` returns the conjunction of the results.** -/
theorem alwaysReturns_start {sort : UnstableSort (Entry ι ο) fun a b => a.time < b.time}
    {history : List (Operation ι ο)} (hne : model.partition history ≠ [])
    (h : List.Forall₂ (fun subhistory => Decided model (makeEntries sort subhistory))
      (model.partition history) verdicts) :
    ∃ init, start model sort history = some init ∧
      AlwaysReturns model init (verdicts.all id) := by
  obtain ⟨workers, heq, hw⟩ := exists_workers model (makeEntries sort) (model.partition history)
  refine ⟨⟨workers, true, false, 0, none⟩, ?_, alwaysReturns_of_begins ?_ hw ?_⟩
  · rw [start, heq]
    rfl
  · simpa using hne
  · exact List.forall₂_map_left_iff.mpr h

/-- A history that is its own only partition. -/
theorem alwaysReturns_start_single {sort : UnstableSort (Entry ι ο) fun a b => a.time < b.time}
    {history : List (Operation ι ο)} {verdict : Bool}
    (hpartition : model.partition history = [history])
    (h : Decided model (makeEntries sort history) verdict) :
    ∃ init, start model sort history = some init ∧ AlwaysReturns model init verdict := by
  have hsingle : List.Forall₂ (fun subhistory => Decided model (makeEntries sort subhistory))
      (model.partition history) [verdict] := by
    rw [hpartition]
    exact .cons h .nil
  simpa using alwaysReturns_start (by simp [hpartition]) hsingle

end Checker

end Linearizability

end Distsys
