import Distsys.MapReduce.Distributed

/-!
# `Distributed` agrees with `Sequential`

Here an execution of `Worker.DoTask` is one step. The tasks are deterministic and their files are
disjoint, so it does not matter in which order they are executed, or how often: the second execution
of a task finds the same inputs and writes the same output. A map task that is executed again during
the reduce phase does not change what the reduce tasks read.

What is left is that a reduce task finds the outputs of all map tasks, and `merge` those of all
reduce tasks, which is what the count of the scheduler is for.

Both runs are compared with the same lists, `Job.bytes`, `Job.output` and `Job.pairs`, and not with
each other. So nothing has to be said about which execution of one run corresponds to which call of
the other.

## Main definitions

* `Program.atomic`
* `Job.Written` — the invariant on the file system

## Main results

* `Job.written_of_reachable`, `Job.distributed_agrees`
-/

namespace Distsys

namespace MapReduce

/-- `Worker.DoTask` in one step. The state is the arguments and whether it is done. -/
def Program.atomic (job : Job) : Program (DoTaskArgs × Bool) where
  start args := (args, false)
  step t fs := if t.2 then none else (job.doTask t.1 fs).map fun fs => ((t.1, true), fs, [])
  finished t := t.2
  step_of_finished h _ := if_pos h

namespace Job

variable {ω : Type} {job : Job} {fs₀ : FileSystem} {d d' : Distributed ω (DoTaskArgs × Bool)}
  {a : DistributedAction ω} {reads : List ReadEvent}

/-- A finished execution has left its output. -/
structure Written (job : Job) (fs₀ : FileSystem) (d : Distributed ω (DoTaskArgs × Bool)) :
    Prop where
  /-- No task writes to an input file. -/
  input : ∀ f ∈ job.files, d.fs f = fs₀ f
  /-- An execution has the arguments of its task. -/
  args : ∀ x ∈ d.execs, job.taskArgs x.phase x.call.task = some x.state.1
  /-- The files of a map task that was executed at least once, also when it is executed again. -/
  mapped : ∀ m, Done (Program.atomic job) d .mapPhase m → ∀ r < job.nReduce,
    d.fs (reduceName job.jobName m r) = some (job.bytes fs₀ m r)
  /-- The file of a reduce task. -/
  reduced : ∀ r, Done (Program.atomic job) d .reducePhase r →
    d.fs (mergeName job.jobName r) = some (job.output fs₀ r)
  /-- What `merge` has printed. -/
  merged : d.stage = .merged →
    d.fs (outName job.jobName) = some ((job.pairs fs₀).flatMap printPair)

/-- What one more finished execution means. -/
theorem done_set {j : ℕ} {x : Exec ω (DoTaskArgs × Bool)} {fs : FileSystem}
    {args : DoTaskArgs} {phase : JobPhase} {task : ℕ}
    (h : Done (Program.atomic job)
      { d with execs := d.execs.set j { x with state := (args, true) }, fs } phase task) :
    Done (Program.atomic job) d phase task ∨ x.phase = phase ∧ x.call.task = task := by
  obtain ⟨y, hy, hphase, htask, hfin⟩ := h
  rcases List.mem_or_eq_of_mem_set hy with hy | rfl
  · exact Or.inl ⟨y, hy, hphase, htask, hfin⟩
  · exact Or.inr ⟨hphase, htask⟩

/-- An execution of a map task. -/
theorem Written.map (h : job.Admissible fs₀) (hI : Written job fs₀ d) {j : ℕ}
    {x : Exec ω (DoTaskArgs × Bool)} (hx : d.execs[j]? = some x) (hphase : x.phase = .mapPhase)
    {fs : FileSystem} (htask : job.doTask x.state.1 d.fs = some fs) :
    Written job fs₀
      { d with execs := d.execs.set j { x with state := (x.state.1, true) }, fs } := by
  have hargs := hI.args x (List.mem_of_getElem? hx)
  rw [hphase] at hargs
  obtain ⟨f, hf, hfargs⟩ := Option.map_eq_some_iff.mp hargs
  have hmem := List.mem_of_getElem? hf
  have hlt := (List.getElem?_eq_some_iff.mp hf).1
  obtain ⟨fs', hmap, hwritten, hrest⟩ := doMap_spec h.toReadable hf (hI.input f hmem)
  obtain rfl : fs' = fs := by
    rw [← hfargs] at htask
    exact Option.some.inj (hmap.symm.trans htask)
  refine ⟨fun f hf => ?_, fun y hy => ?_, fun m hdone r hr => ?_, fun r hdone => ?_, fun hm => ?_⟩
  · rw [← hI.input f hf]
    exact hrest f (h.ne_reduceName f hf _ hlt)
  · rcases List.mem_or_eq_of_mem_set hy with hy | rfl
    · exact hI.args y hy
    · exact hI.args x (List.mem_of_getElem? hx)
  · rcases eq_or_ne m x.call.task with rfl | hne
    · exact hwritten r hr
    · have hold := (done_set hdone).resolve_right fun h => hne h.2.symm
      rw [← hI.mapped m hold r hr]
      exact hrest _ fun r' _ heq => hne (reduceName_inj.mp heq).1
  · have hold := (done_set hdone).resolve_right fun h => nomatch hphase.symm.trans h.1
    rw [← hI.reduced r hold]
    exact hrest _ fun r' _ heq => reduceName_ne_mergeName _ _ _ _ heq.symm
  · rw [← hI.merged hm]
    exact hrest _ fun r' _ heq => reduceName_ne_outName _ _ _ heq.symm

/-- An execution of a reduce task, behind the barrier. -/
theorem Written.reduce (h : job.Admissible fs₀) (hI : Written job fs₀ d)
    (hP : Progress job (Program.atomic job) d) {j : ℕ} {x : Exec ω (DoTaskArgs × Bool)}
    (hx : d.execs[j]? = some x) (hphase : x.phase = .reducePhase) {fs : FileSystem}
    (htask : job.doTask x.state.1 d.fs = some fs) :
    Written job fs₀
      { d with execs := d.execs.set j { x with state := (x.state.1, true) }, fs } := by
  have hmem := List.mem_of_getElem? hx
  have hargs := hI.args x hmem
  have hlt := hP.task_lt x hmem
  rw [hphase] at hargs hlt
  have hfiles : ∀ m < job.files.length, d.fs (reduceName job.jobName m x.call.task) =
      some (job.bytes fs₀ m x.call.task) := fun m hm =>
    hI.mapped m (hP.mapped (hP.phase x hmem hphase) m hm) x.call.task hlt
  have hreduce := doReduce_eq (mergeName job.jobName x.call.task) hfiles
  rw [← Option.some.inj hargs] at htask
  cases hreduce.symm.trans htask
  refine ⟨fun f hf => ?_, fun y hy => ?_, fun m hdone r hr => ?_, fun r hdone => ?_, fun hm => ?_⟩
  · rw [← hI.input f hf]
    exact Function.update_of_ne (h.ne_mergeName f hf _ hlt) ..
  · rcases List.mem_or_eq_of_mem_set hy with hy | rfl
    · exact hI.args y hy
    · exact hI.args x hmem
  · have hold := (done_set hdone).resolve_right fun h => nomatch hphase.symm.trans h.1
    rw [← hI.mapped m hold r hr]
    exact Function.update_of_ne (reduceName_ne_mergeName _ _ _ _) ..
  · rcases eq_or_ne r x.call.task with rfl | hne
    · exact Function.update_self ..
    · have hold := (done_set hdone).resolve_right fun h => hne h.2.symm
      rw [← hI.reduced r hold]
      exact Function.update_of_ne (fun heq => hne (mergeName_inj.mp heq)) ..
  · rw [← hI.merged hm]
    exact Function.update_of_ne (mergeName_ne_outName _ _).symm ..

/-- The step lemma. -/
theorem Written.step [DecidableEq ω] (h : job.Admissible fs₀) (hI : Written job fs₀ d)
    (hP : Progress job (Program.atomic job) d)
    (hs : DistributedStep job (Program.atomic job) d a d' reads) : Written job fs₀ d' := by
  cases hs with
  | @sched _ a state es execs hstage hpermits hsched hexecs =>
    have hold : ∀ {phase task}, Done (Program.atomic job)
        { d with sched := ⟨state, d.sched.trace ++ es⟩, execs := d.execs ++ execs } phase task →
          Done (Program.atomic job) d phase task := by
      rintro phase task ⟨x, hx, hphase, htask, hfin⟩
      rcases List.mem_append.mp hx with hx | hx
      · exact ⟨x, hx, hphase, htask, hfin⟩
      · obtain ⟨_, _, args, _, hstart⟩ := phase_of_begin hexecs hx
        rw [hstart] at hfin
        cases hfin
    refine ⟨hI.input, fun x hx => ?_, fun m hd => hI.mapped m (hold hd),
      fun r hd => hI.reduced r (hold hd), hI.merged⟩
    rcases List.mem_append.mp hx with hx | hx
    · exact hI.args x hx
    · obtain ⟨hphase, _, args, hargs, hstart⟩ := phase_of_begin hexecs hx
      rw [hphase, hargs, hstart]
      rfl
  | @exec j x state fs reads hx hstep =>
    simp only [Program.atomic] at hstep
    split at hstep
    · cases hstep
    · obtain ⟨fs', htask, heq⟩ := Option.map_eq_some_iff.mp hstep
      cases heq
      have hphase : x.phase = .mapPhase ∨ x.phase = .reducePhase := by cases x.phase <;> simp
      rcases hphase with hphase | hphase
      · exact hI.map h hx hphase htask
      · exact hI.reduce h hP hx hphase htask
  | nextPhase hstage => exact ⟨hI.input, hI.args, hI.mapped, hI.reduced, fun hm => (nomatch hm)⟩
  | merge hstage hret hmerge =>
    have hfiles : ∀ r < job.nReduce, d.fs (mergeName job.jobName r) = some (job.output fs₀ r) :=
      fun r hr => hI.reduced r (hP.done_of_returned hstage hret hr)
    cases (merge_eq hfiles).symm.trans hmerge
    refine ⟨fun f hf => ?_, hI.args, fun m hd r hr => ?_, fun r hd => ?_, fun _ => ?_⟩
    · rw [← hI.input f hf]
      exact Function.update_of_ne (h.ne_outName f hf) ..
    · rw [← hI.mapped m hd r hr]
      exact Function.update_of_ne (reduceName_ne_outName _ _ _) ..
    · rw [← hI.reduced r hd]
      exact Function.update_of_ne (mergeName_ne_outName _ _) ..
    · exact Function.update_self ..

variable [DecidableEq ω]

theorem written_of_reachable (h : job.Admissible fs₀)
    {c : System.Config (Distributed ω (DoTaskArgs × Bool)) ReadEvent}
    {ok : System.Config (Distributed ω (DoTaskArgs × Bool)) ReadEvent → DistributedAction ω → Prop}
    (hc : (job.distributed (Program.atomic job) fs₀).Reachable ok c) : Written job fs₀ c.state := by
  refine System.Reachable.invariant (M := job.distributed (Program.atomic job) fs₀)
    (P := fun c => Written job fs₀ c.state) ?_ ?_ hc
  · exact ⟨fun _ _ => rfl, nofun, nofun, nofun, nofun⟩
  · intro c a c' hc hI _ hn
    obtain ⟨reads, hs, _⟩ := distributedStep_of_next hn
    exact hI.step h (progress_of_reachable hc) hs

/-- **`Distributed` agrees with `Sequential`.** When `merge` is done in a run of `Distributed`,
whatever was executed by whom, in which order and how often, the output of every reduce task and the
merged file are those that `Sequential` leaves for the same inputs. -/
theorem distributed_agrees (job : Job) (fs₀ : FileSystem) (h : job.Admissible fs₀)
    (c : System.Config (Distributed ω (DoTaskArgs × Bool)) ReadEvent)
    (hc : (job.distributed (Program.atomic job) fs₀).Reachable (fun _ _ => True) c)
    (hmerged : c.state.stage = .merged) :
    ∃ pairs fs, job.sequential fs₀ = some (pairs, fs) ∧
      (∀ r < job.nReduce, c.state.fs (mergeName job.jobName r) = fs (mergeName job.jobName r)) ∧
      c.state.fs (outName job.jobName) = fs (outName job.jobName) := by
  obtain ⟨fs, hseq, hreduced, hout⟩ := sequential_spec h.toReadable
  have hW := written_of_reachable h hc
  have hP := progress_of_reachable hc
  refine ⟨_, fs, hseq, fun r hr => ?_, ?_⟩
  · rw [hreduced r hr, hW.reduced r (hP.reduced hmerged r hr)]
  · rw [hout, hW.merged hmerged]

/-- The job `letters` with two workers. The first call, of task `0` to worker `10`, fails before
`10` has done anything, so `20` does both map tasks; `10` does its task in the reduce phase. -/
def stragglerRun : List (DistributedAction ℕ) :=
  [.sched (.register 10), .sched (.register 20), .sched .forward, .sched (.receive 0),
    .sched .takeTask, .sched .takeForwarded, .sched (.reply 0 false), .sched .forward,
    .sched (.receive 0), .sched .takeTask, .sched .takeForwarded, .exec 1, .sched (.reply 0 true),
    .sched (.count 0), .sched .takeTask, .sched (.takeIdle 0), .exec 2, .sched (.reply 0 true),
    .sched (.count 0), .nextPhase, .sched .forward, .sched .forward, .sched (.receive 1),
    .sched .takeTask, .sched .takeForwarded, .exec 3, .exec 0, .sched (.reply 0 true),
    .sched (.count 0), .sched .takeTask, .sched (.takeIdle 0), .exec 4, .sched (.reply 0 true),
    .sched (.count 0), .merge]

/-- `stragglerRun` completes. -/
theorem distributed_agrees_stragglerRun :
    ∃ c, (letters.distributed (Program.atomic letters) letterFiles).Reachable
        (fun _ (_ : DistributedAction ℕ) => True) c ∧ c.state.stage = .merged ∧
      ∃ pairs fs, letters.sequential letterFiles = some (pairs, fs) ∧
        c.state.fs (outName letters.jobName) = fs (outName letters.jobName) := by
  have hrun : ((letters.distributed (Program.atomic letters) letterFiles).exec
      (letters.distributed (Program.atomic letters) letterFiles).start stragglerRun).any
        (fun c => decide (c.state.stage = .merged)) = true := by decide +kernel
  obtain ⟨c, hc, h⟩ := (Option.any_eq_true _ _).mp hrun
  have hreach := System.reaches_of_exec hc
  have hmerged := of_decide_eq_true h
  obtain ⟨pairs, fs, hseq, _, hout⟩ :=
    distributed_agrees letters letterFiles letters_admissible c hreach hmerged
  exact ⟨c, hreach, hmerged, pairs, fs, hseq, hout⟩

end Job

end MapReduce

end Distsys
