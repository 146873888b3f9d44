import Distsys.MapReduce.Agreement
import Distsys.MapReduce.Termination

/-!
# `Distributed` completes

The work that is left in a run is that of the scheduler, the steps of the executions, and the work
of the phase behind the current one. A call that can still be made is counted with the steps of its
execution.

Where tasks are executed in one step, they always find their inputs, so an execution is never in
the way. What a run can wait for is then what its scheduler waits for.

## The assumption on executions

A bound on the steps of an execution is all that is assumed of `Worker.DoTask` for the length of a
run. It holds for executions in one step; for the stepwise program one would have to bound the
number of pairs, which depends on the files.

That an execution can always make its next step is shown for the atomic program only. There it comes
down to the files being there, which is `Job.Written`.

## Main definitions

* `Program.Rank` — a bound on the steps of an execution
* `Job.workLeft`, `Job.distributedPotential`
* `Job.Served` — a call in flight has an execution
* `Job.Quiescent`, `Job.Live`

## Main results

* `Job.Quiescent.waits` — what `Distributed` waits for
* `Job.distributed_completes`
-/

namespace Distsys

namespace MapReduce

/-- The steps of the scheduler that nobody can wait for. -/
def DistributedAction.external {ω : Type} : DistributedAction ω → Bool
  | .sched a => a.external
  | _ => false

/-- A registration. -/
def DistributedAction.isRegister {ω : Type} : DistributedAction ω → Bool
  | .sched a => a.isRegister
  | _ => false

/-- An execution of `P` has at most `e` steps. -/
structure Program.Rank {τ : Type} (P : Program τ) (e : ℕ) where
  /-- How many steps are left. -/
  rank : τ → ℕ
  start_le : ∀ args, rank (P.start args) ≤ e
  step_lt : ∀ {t fs t' fs' reads}, P.step t fs = some (t', fs', reads) → rank t' < rank t

/-- An execution in one step. -/
def Program.atomicRank (job : Job) : (Program.atomic job).Rank 1 where
  rank t := if t.2 then 0 else 1
  start_le _ := le_rfl
  step_lt {t fs t' fs' reads} h := by
    simp only [Program.atomic] at h
    split at h
    · cases h
    · rename_i hnot
      obtain ⟨_, _, heq⟩ := Option.map_eq_some_iff.mp h
      cases heq
      simp [hnot]

namespace Job

variable {ω τ : Type} {job : Job} {P : Program τ} {e : ℕ} (R : P.Rank e)

/-- The work behind the current phase. -/
def later (job : Job) (e : ℕ) (d : Distributed ω τ) : ℕ :=
  match d.stage with
  | .scheduling .mapPhase =>
    (4 + e) * job.nReduce + (5 + e) * d.sched.state.workers.length + 2
  | .scheduling .reducePhase => 1
  | .merged => 0

/-- How many steps are left. -/
def workLeft (job : Job) (R : P.Rank e) (d : Distributed ω τ) : ℕ :=
  d.sched.state.work + e * d.sched.state.budget + (d.execs.map fun x => R.rank x.state).sum +
    job.later e d

/-- What a registration adds. -/
def pay (e : ℕ) (a : DistributedAction ω) : ℕ := if a.isRegister then 11 + 2 * e else 0

/-- The new executions have at most `e` steps each. -/
theorem sum_rank_le {phase : JobPhase} {calls : List (Call ω)} {execs : List (Exec ω τ)}
    (h : calls.mapM (job.begin P phase) = some execs) :
    (execs.map fun x => R.rank x.state).sum ≤ e * calls.length := by
  induction calls generalizing execs with
  | nil => cases h; exact Nat.zero_le _
  | cons call calls ih =>
    rw [List.mapM_cons] at h
    obtain ⟨x, hx, h⟩ := Option.bind_eq_some_iff.mp h
    obtain ⟨xs, hxs, h⟩ := Option.bind_eq_some_iff.mp h
    cases h
    obtain ⟨args, _, rfl⟩ := Option.map_eq_some_iff.mp hx
    rw [List.map_cons, List.sum_cons, List.length_cons, Nat.mul_succ, Nat.add_comm]
    exact Nat.add_le_add (ih hxs) (R.start_le args)

variable [DecidableEq ω] {d d' : Distributed ω τ} {a : DistributedAction ω} {reads : List ReadEvent}

omit [DecidableEq ω] in
theorem later_sched {a : SchedulerAction ω} {state : Scheduler ω} {tr es : List (SchedulerEvent ω)}
    (h : Scheduler.Step d.sched.state a state es) (execs : List (Exec ω τ)) :
    job.later e { d with sched := ⟨state, tr⟩, execs } ≤
      job.later e d + (5 + e) * if a.isRegister then 1 else 0 := by
  have hworkers : state.workers.length ≤
      d.sched.state.workers.length + if a.isRegister then 1 else 0 := by
    cases h <;> simp [SchedulerAction.isRegister]
  have hmul := Nat.mul_le_mul_left (5 + e) hworkers
  rw [Nat.mul_add] at hmul
  simp only [later]
  split <;> omega

/-- The step lemma. -/
theorem workLeft_step (h : DistributedStep job P d a d' reads) :
    job.workLeft R d' < job.workLeft R d + pay e a := by
  cases h with
  | @sched phase a state es execs hstage hpermits hstep hexecs =>
    have hs := Scheduler.step_of_eq_some hstep
    have hwork := Scheduler.work_step hs
    have hbudget := Nat.mul_le_mul_left e (Scheduler.budget_step hs)
    have hrank := sum_rank_le R hexecs
    have hlater : job.later e { d with
          sched := ⟨state, d.sched.trace ++ es⟩, execs := d.execs ++ execs } ≤
        job.later e d + (5 + e) * if a.isRegister then 1 else 0 := later_sched hs _
    simp only [workLeft, List.map_append, List.sum_append, pay, DistributedAction.isRegister]
    simp only [Scheduler.pay, Nat.mul_add] at hwork hbudget
    by_cases hr : a.isRegister = true
    · simp only [hr, if_true, Nat.mul_one] at hwork hbudget hlater ⊢
      omega
    · simp only [hr, Bool.false_eq_true, if_false, Nat.mul_zero] at hwork hbudget hlater ⊢
      omega
  | @exec j x state fs reads hx hstep =>
    have hlt := R.step_lt hstep
    have hsum := sum_map_set (fun x => R.rank x.state) hx { x with state }
    dsimp only at hsum
    have hlater : job.later e { d with execs := d.execs.set j { x with state }, fs } =
      job.later e d := rfl
    simp only [workLeft, hlater]
    omega
  | nextPhase hstage hret =>
    simp only [workLeft, later, hstage, System.start, Scheduler.system, Scheduler.work_init,
      Scheduler.budget_init, Job.ntasks, Nat.mul_add, Nat.add_mul]
    omega
  | merge hstage hret hmerge =>
    simp only [workLeft, later, hstage]
    omega

/-- The potential of `Distributed`. -/
def distributedPotential (job : Job) (R : P.Rank e) (fs₀ : FileSystem) :
    (job.distributed P fs₀ : System (Distributed ω τ) _ _).Potential (pay e) where
  value := job.workLeft R
  step_lt h := workLeft_step R (distributedStep_of_eq_some h)

/-! ### Progress of `Distributed`

The scheduler gets on if its calls return. A call may return `true` only when its execution is
finished, so each call in flight has to have one, and it has to be possible to finish it. -/

/-- A call in flight has an execution. -/
def Served (d : Distributed ω τ) : Prop :=
  ∀ phase, d.stage = .scheduling phase → ∀ call ∈ d.sched.state.calls,
    ∃ x ∈ d.execs, x.phase = phase ∧ x.call = call

omit [DecidableEq ω] in
/-- A call that is in flight after a step was before, or is new. -/
theorem calls_step {s s' : Scheduler ω} {a : SchedulerAction ω} {es : List (SchedulerEvent ω)}
    (h : Scheduler.Step s a s' es) {call : Call ω} (hcall : call ∈ s'.calls) :
    call ∈ s.calls ∨ call ∈ es.filterMap SchedulerEvent.called? := by
  cases h with
  | takeForwarded | takeIdle =>
    refine (List.mem_append.mp hcall).imp_right fun h => ?_
    cases List.mem_singleton.mp h
    simp [SchedulerEvent.called?]
  | succeed | fail => exact Or.inl (List.mem_of_mem_eraseIdx hcall)
  | _ => exact Or.inl hcall

omit [DecidableEq ω] in
theorem exists_of_mem_calls {phase : JobPhase} {calls : List (Call ω)} {execs : List (Exec ω τ)}
    (h : calls.mapM (job.begin P phase) = some execs) {call : Call ω} (hcall : call ∈ calls) :
    ∃ x ∈ execs, x.phase = phase ∧ x.call = call := by
  induction calls generalizing execs with
  | nil => cases hcall
  | cons call' calls ih =>
    rw [List.mapM_cons] at h
    obtain ⟨x, hx, h⟩ := Option.bind_eq_some_iff.mp h
    obtain ⟨xs, hxs, h⟩ := Option.bind_eq_some_iff.mp h
    cases h
    obtain ⟨args, _, rfl⟩ := Option.map_eq_some_iff.mp hx
    rcases List.mem_cons.mp hcall with rfl | hcall
    · exact ⟨_, List.mem_cons_self, rfl, rfl⟩
    · obtain ⟨y, hy, hphase⟩ := ih hxs hcall
      exact ⟨y, List.mem_cons_of_mem _ hy, hphase⟩

theorem Served.step (hI : Served d) (h : DistributedStep job P d a d' reads) : Served d' := by
  intro phase hphase call hcall
  cases h with
  | @sched phase₀ a state es execs hstage hpermits hstep hexecs =>
    rcases calls_step (Scheduler.step_of_eq_some hstep) hcall with hold | hnew
    · obtain ⟨x, hx, h⟩ := hI phase hphase call hold
      exact ⟨x, List.mem_append_left _ hx, h⟩
    · obtain ⟨x, hx, h⟩ := exists_of_mem_calls hexecs hnew
      cases hstage.symm.trans hphase
      exact ⟨x, List.mem_append_right _ hx, h⟩
  | @exec j y state fs reads hy hstep =>
    obtain ⟨x, hx, h⟩ := hI phase hphase call hcall
    obtain ⟨i, hi⟩ := List.mem_iff_getElem?.mp hx
    rcases eq_or_ne j i with rfl | hne
    · cases hy.symm.trans hi
      have hlt := (List.getElem?_eq_some_iff.mp hy).1
      exact ⟨{ y with state }, List.mem_iff_getElem?.mpr ⟨j, List.getElem?_set_self hlt⟩, h⟩
    · exact ⟨x, List.mem_iff_getElem?.mpr ⟨i, by rwa [List.getElem?_set_ne hne]⟩, h⟩
  | nextPhase => cases hcall
  | merge => cases hphase

variable {fs₀ : FileSystem} {c c' : System.Config (Distributed ω τ) ReadEvent}
  {ok : System.Config (Distributed ω τ) ReadEvent → DistributedAction ω → Prop}

theorem served_of_reachable (hc : (job.distributed P fs₀).Reachable ok c) : Served c.state := by
  refine System.Reachable.invariant (M := job.distributed P fs₀)
    (P := fun c => Served c.state) ?_ ?_ hc
  · intro phase _ call hcall
    cases hcall
  · intro c a c' _ hI _ hn
    obtain ⟨reads, hs, _⟩ := distributedStep_of_next hn
    exact hI.step hs

omit [DecidableEq ω] in
/-- The executions of tasks of the phase can begin. -/
theorem exists_execs {phase : JobPhase} {calls : List (Call ω)}
    (h : ∀ call ∈ calls, call.task < job.ntasks phase) :
    ∃ execs, calls.mapM (job.begin P phase) = some execs := by
  induction calls with
  | nil => exact ⟨[], rfl⟩
  | cons call calls ih =>
    obtain ⟨hcall, hrest⟩ := List.forall_mem_cons.mp h
    obtain ⟨execs, hexecs⟩ := ih hrest
    have hargs : ∃ args, job.taskArgs phase call.task = some args := by
      cases phase with
      | mapPhase => exact ⟨_, by rw [taskArgs, List.getElem?_eq_getElem hcall, Option.map_some]⟩
      | reducePhase => exact ⟨_, rfl⟩
    obtain ⟨args, hargs⟩ := hargs
    refine ⟨⟨phase, call, P.start args⟩ :: execs, ?_⟩
    rw [List.mapM_cons, begin, hargs, hexecs]
    rfl

/-- A step of the scheduler is a step of `Distributed`. -/
theorem exists_sched (hI : Progress job P d) {phase : JobPhase}
    (hstage : d.stage = .scheduling phase) {a : SchedulerAction ω} {state : Scheduler ω}
    {es : List (SchedulerEvent ω)} (hpermits : d.permits P phase a = true)
    (hstep : d.sched.state.step a = some (state, es)) :
    ∃ r, job.distributedStep P d (.sched a) = some r := by
  obtain ⟨workers, hreach⟩ := hI.sched phase hstage
  have hnext : (Scheduler.system (job.ntasks phase) workers).Reachable (fun _ _ => True)
      ⟨state, d.sched.trace ++ es⟩ :=
    hreach.tail trivial (System.next_eq_some_iff.mpr ⟨es, hstep, rfl⟩)
  have hlt : ∀ call ∈ es.filterMap SchedulerEvent.called?, call.task < job.ntasks phase := by
    intro call hcall
    obtain ⟨ev, hev, hcalled⟩ := List.mem_filterMap.mp hcall
    refine Scheduler.lt_of_mem_tasksAt hnext .inFlight (List.mem_map_of_mem ?_)
    cases ev with
    | called =>
      cases hcalled
      exact Scheduler.mem_calls_of_called (Scheduler.step_of_eq_some hstep) hev
    | _ => cases hcalled
  obtain ⟨execs, hexecs⟩ := exists_execs (P := P) hlt
  simp [distributedStep, hstage, hpermits, hstep, hexecs]

/-- No step is left but that a worker registers or that a call fails: the master and the executions
are at a standstill, and no call is in flight. -/
def Quiescent (job : Job) (P : Program τ) (d : Distributed ω τ) : Prop :=
  ∀ a, a.external = false → job.distributedStep P d a = none

section Atomic

variable {d : Distributed ω (DoTaskArgs × Bool)}

omit [DecidableEq ω] in
/-- A task finds its inputs. -/
theorem exists_doTask (h : job.Admissible fs₀) (hW : Written job fs₀ d)
    (hP : Progress job (Program.atomic job) d) {x : Exec ω (DoTaskArgs × Bool)} (hx : x ∈ d.execs) :
    ∃ fs, job.doTask x.state.1 d.fs = some fs := by
  have hargs := hW.args x hx
  have hlt := hP.task_lt x hx
  cases hphase : x.phase with
  | mapPhase =>
    rw [hphase] at hargs
    obtain ⟨f, hf, hfargs⟩ := Option.map_eq_some_iff.mp hargs
    obtain ⟨fs, hmap, _⟩ := doMap_spec h.toReadable hf (hW.input f (List.mem_of_getElem? hf))
    rw [← hfargs]
    exact ⟨fs, hmap⟩
  | reducePhase =>
    rw [hphase] at hargs hlt
    have hfiles : ∀ m < job.files.length, d.fs (reduceName job.jobName m x.call.task) =
        some (job.bytes fs₀ m x.call.task) := fun m hm =>
      hW.mapped m (hP.mapped (hP.phase x hx hphase) m hm) x.call.task hlt
    rw [← Option.some.inj hargs]
    exact ⟨_, doReduce_eq (mergeName job.jobName x.call.task) hfiles⟩

/-- In a quiescent state all executions are finished. -/
theorem Quiescent.finished (h : job.Admissible fs₀) (hW : Written job fs₀ d)
    (hP : Progress job (Program.atomic job) d) (hq : Quiescent job (Program.atomic job) d)
    {x : Exec ω (DoTaskArgs × Bool)} (hx : x ∈ d.execs) :
    (Program.atomic job).finished x.state = true := by
  by_contra hfin
  obtain ⟨fs, hfs⟩ := exists_doTask h hW hP hx
  obtain ⟨j, hj⟩ := List.mem_iff_getElem?.mp hx
  have hnone := hq (.exec j) rfl
  have hnot : x.state.2 = false := by simpa [Program.atomic] using hfin
  simp [distributedStep, hj, Program.atomic, hnot, hfs] at hnone

/-- A quiescent scheduler. -/
theorem Quiescent.sched (h : job.Admissible fs₀) (hW : Written job fs₀ d)
    (hP : Progress job (Program.atomic job) d) (hserved : Served d)
    (hq : Quiescent job (Program.atomic job) d) {phase : JobPhase}
    (hstage : d.stage = .scheduling phase) : Scheduler.Quiescent d.sched.state := by
  intro a ha
  by_contra hne
  obtain ⟨⟨state, es⟩, hstep⟩ := Option.ne_none_iff_exists'.mp hne
  have hpermits : d.permits (Program.atomic job) phase a = true := by
    cases Scheduler.step_of_eq_some hstep with
    | succeed hk =>
      obtain ⟨x, hx, hphase, hcall⟩ := hserved phase hstage _ (List.mem_of_getElem? hk)
      have hfin := hq.finished h hW hP hx
      simp only [Distributed.permits, hk, Option.any_some, List.any_eq_true, Bool.and_eq_true,
        decide_eq_true_eq]
      exact ⟨x, hx, ⟨hphase, hcall⟩, hfin⟩
    | fail => cases ha
    | _ => rfl
  obtain ⟨r, hr⟩ := exists_sched hP hstage hpermits hstep
  cases (hq (.sched a) ha).symm.trans hr

/-- **What `Distributed` waits for** when only the workers can go on. -/
theorem Quiescent.waits (h : job.Admissible fs₀) (hfiles : job.files ≠ []) (hW : Written job fs₀ d)
    (hP : Progress job (Program.atomic job) d) (hserved : Served d)
    (hq : Quiescent job (Program.atomic job) d) :
    d.stage = .merged ∨
      (Scheduler.failures d.sched.trace).length = d.sched.state.workers.length := by
  cases hstage : d.stage with
  | merged => exact Or.inl rfl
  | scheduling phase =>
    obtain ⟨workers, hreach⟩ := hP.sched phase hstage
    have hpos : 0 < job.ntasks phase := by
      cases phase with
      | mapPhase => exact List.length_pos_iff.mpr hfiles
      | reducePhase => exact h.pos
    refine ((hq.sched h hW hP hserved hstage).waits hreach hpos).imp_left fun hret => ?_
    cases phase with
    | mapPhase =>
      have hnone := hq .nextPhase rfl
      simp [distributedStep, hstage, hret] at hnone
    | reducePhase =>
      have hnone := hq .merge rfl
      have hdone : ∀ r < job.nReduce, d.fs (mergeName job.jobName r) = some (job.output fs₀ r) :=
        fun r hr => hW.reduced r (hP.done_of_returned hstage hret hr)
      simp [distributedStep, hstage, hret, merge_eq hdone] at hnone

end Atomic

/-- Some worker has not failed in the phase. -/
def Live (d : Distributed ω τ) : Prop :=
  (Scheduler.failures d.sched.trace).length < d.sched.state.workers.length

/-- Only a worker makes a worker fail. -/
theorem Live.step (hlive : Live d) (ha : a.external = false)
    (h : DistributedStep job P d a d' reads) : Live d' := by
  cases h with
  | exec | merge => exact hlive
  | nextPhase => exact Nat.zero_lt_of_lt hlive
  | sched hstage hpermits hstep hexecs =>
    have hs := Scheduler.step_of_eq_some hstep
    simp only [Live, Scheduler.failures, List.filterMap_append, List.length_append] at hlive ⊢
    cases hs with
    | fail | register => cases ha
    | _ => simpa [List.filterMap_cons, SchedulerEvent.failed?] using hlive

omit [DecidableEq ω] in
theorem pay_of_not_external (ha : a.external = false) : pay e a = 0 := by
  cases a with
  | sched a =>
    cases a with
    | register => cases ha
    | _ => rfl
  | _ => rfl

theorem workLeft_start (fs₀ : FileSystem) :
    job.workLeft R (job.distributed (ω := ω) P fs₀).init =
      (4 + e) * (job.files.length + job.nReduce) + 2 := by
  simp only [workLeft, distributed, System.start, Scheduler.system, Scheduler.work_init,
    Scheduler.budget_init, later, List.map_nil, List.sum_nil]
  simp only [Job.ntasks, Scheduler.init, List.length_nil]
  ring

section Completion

variable {c : System.Config (Distributed ω (DoTaskArgs × Bool)) ReadEvent}

theorem Quiescent.waits_of_reachable (h : job.Admissible fs₀) (hfiles : job.files ≠ [])
    (hc : (job.distributed (Program.atomic job) fs₀).Reachable (fun _ _ => True) c)
    (hq : Quiescent job (Program.atomic job) c.state) :
    c.state.stage = .merged ∨
      (Scheduler.failures c.state.sched.trace).length = c.state.sched.state.workers.length :=
  hq.waits h hfiles (written_of_reachable h hc) (progress_of_reachable hc) (served_of_reachable hc)

/-- A run with a worker that has not failed can be continued to the end. -/
theorem exists_merged (h : job.Admissible fs₀) (hfiles : job.files ≠ [])
    (hc : (job.distributed (Program.atomic job) fs₀).Reachable (fun _ _ => True) c)
    (hlive : Live c.state) :
    ∃ bs c', (∀ b ∈ bs, DistributedAction.external b = false) ∧
      (job.distributed (Program.atomic job) fs₀).exec c bs = some c' ∧
      (job.distributed (Program.atomic job) fs₀).Reachable (fun _ _ => True) c' ∧
      c'.state.stage = .merged := by
  let I (c : System.Config (Distributed ω (DoTaskArgs × Bool)) ReadEvent) : Prop :=
    (job.distributed (Program.atomic job) fs₀).Reachable (fun _ _ => True) c ∧ Live c.state
  have hkeep : ∀ c a c', I c → DistributedAction.external a = false →
      (job.distributed (Program.atomic job) fs₀).next c a = some c' → I c' := by
    rintro c a c' ⟨hc, hlive⟩ ha hn
    obtain ⟨reads, hs, _⟩ := distributedStep_of_next hn
    exact ⟨hc.tail trivial hn, hlive.step ha hs⟩
  have hprogress : ∀ c, I c → ¬ c.state.stage = .merged → ∃ a c',
      DistributedAction.external a = false ∧
        (job.distributed (Program.atomic job) fs₀).next c a = some c' := by
    rintro c ⟨hc, hlive⟩ hnot
    by_contra hnone
    push Not at hnone
    have hq : Quiescent job (Program.atomic job) c.state := by
      intro a ha
      by_contra hne
      obtain ⟨⟨d', reads⟩, hstep⟩ := Option.ne_none_iff_exists'.mp hne
      exact hnone a ⟨d', c.trace ++ reads⟩ ha (System.next_eq_some_iff.mpr ⟨reads, hstep, rfl⟩)
    rcases hq.waits_of_reachable h hfiles hc with hmerged | hfail
    · exact hnot hmerged
    · exact hlive.ne hfail
  obtain ⟨bs, c', hbs, hexec, ⟨hc', _⟩, hmerged⟩ :=
    (distributedPotential job (Program.atomicRank job) fs₀).exists_exec
      (fun a ha => pay_of_not_external ha) hkeep hprogress ⟨hc, hlive⟩
  exact ⟨bs, c', hbs, hexec, hc', hmerged⟩

/-- **`Distributed` completes.** For a job with inputs, a run has at most `5` steps for each task,
`13` for each registration, and `2` more. When neither the master nor an execution can go on and no
call is in flight, `merge` is done or all workers have failed in the phase. And as long as a worker
has not failed in the phase, the run can be continued without the help of another one, and without
another failure, to the end of `merge`, with the outputs of `Sequential`. -/
theorem distributed_completes (job : Job) (fs₀ : FileSystem) (h : job.Admissible fs₀)
    (hfiles : job.files ≠ []) (as : List (DistributedAction ω))
    (c : System.Config (Distributed ω (DoTaskArgs × Bool)) ReadEvent)
    (hc : (job.distributed (Program.atomic job) fs₀).exec
      (job.distributed (Program.atomic job) fs₀).start as = some c) :
    as.length ≤ 5 * (job.files.length + job.nReduce) +
      13 * as.countP DistributedAction.isRegister + 2 ∧
    (Quiescent job (Program.atomic job) c.state → c.state.stage = .merged ∨
      (Scheduler.failures c.state.sched.trace).length = c.state.sched.state.workers.length) ∧
    (Live c.state → ∃ bs c' fs, (∀ b ∈ bs, DistributedAction.external b = false) ∧
      (job.distributed (Program.atomic job) fs₀).exec c bs = some c' ∧
      c'.state.stage = .merged ∧ job.sequential fs₀ = some (job.pairs fs₀, fs) ∧
      (∀ r < job.nReduce, c'.state.fs (mergeName job.jobName r) = fs (mergeName job.jobName r)) ∧
      c'.state.fs (outName job.jobName) = fs (outName job.jobName)) := by
  have hreach := System.reaches_of_exec hc
  refine ⟨?_, fun hq => hq.waits_of_reachable h hfiles hreach, fun hlive => ?_⟩
  · have hlen := (distributedPotential job (Program.atomicRank job) fs₀).length_le hc
    have hstart : (distributedPotential job (Program.atomicRank job) fs₀).value
        (job.distributed (ω := ω) (Program.atomic job) fs₀).start.state =
          5 * (job.files.length + job.nReduce) + 2 := workLeft_start (Program.atomicRank job) fs₀
    rw [show (as.map (pay _)).sum = _ from sum_map_ite _ _ as, hstart] at hlen
    omega
  · obtain ⟨bs, c', hbs, hexec, hc', hmerged⟩ := exists_merged h hfiles hreach hlive
    obtain ⟨fs, hseq, hreduced, hout⟩ := sequential_spec h.toReadable
    have hW := written_of_reachable h hc'
    have hP := progress_of_reachable hc'
    refine ⟨bs, c', fs, hbs, hexec, hmerged, hseq, fun r hr => ?_, ?_⟩
    · rw [hreduced r hr, hW.reduced r (hP.reduced hmerged r hr)]
    · rw [hout, hW.merged hmerged]

/-- After the first call of `stragglerRun` has failed, worker `20` is left. -/
theorem distributed_completes_stragglerRun :
    ∃ c, (letters.distributed (Program.atomic letters) letterFiles).exec
        (letters.distributed (Program.atomic letters) letterFiles).start
          (stragglerRun.take 7) = some c ∧ Live c.state ∧
      ∃ bs c', (∀ b ∈ bs, DistributedAction.external b = false) ∧
        (letters.distributed (Program.atomic letters) letterFiles).exec c bs = some c' ∧
        c'.state.stage = .merged := by
  have hrun : ((letters.distributed (Program.atomic letters) letterFiles).exec
      (letters.distributed (Program.atomic letters) letterFiles).start
        (stragglerRun.take 7)).any (fun c =>
          decide ((Scheduler.failures c.state.sched.trace).length <
            c.state.sched.state.workers.length)) = true := by decide +kernel
  obtain ⟨c, hc, hlt⟩ := (Option.any_eq_true _ _).mp hrun
  have hlive : Live c.state := by
    rw [Live]
    exact of_decide_eq_true hlt
  have hfiles : letters.files ≠ [] := by decide
  obtain ⟨bs, c', _, hbs, hexec, hmerged, _⟩ :=
    (distributed_completes letters letterFiles letters_admissible hfiles _ c hc).2.2 hlive
  exact ⟨c, hc, hlive, bs, c', hbs, hexec, hmerged⟩

end Completion

end Job

end MapReduce

end Distsys
