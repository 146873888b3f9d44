import Distsys.MapReduce.Stepwise

/-!
# Stragglers

A call that times out returns `false` while its worker goes on with the task. The task is given to
another worker, and the first one, the straggler, may truncate a file of the other at any later
time, in the reduce phase too. All executions of a map task write the same bytes to the same places,
so a straggler that has only writes left does no harm; what it does harm with is `os.Create`.

The invariant keeps track of the execution that was the last to truncate a file: everything this one
has written since is there, whoever else has written to the file meanwhile. So a file is complete
when no execution is in the middle of it.

## Why truncation is the problem

Writes of two executions of one map task never conflict, since they write the same bytes at the same
offsets. After a truncation the file is shorter than what others have written to it, and the holes
they leave are zeros. The execution that truncated it writes everything again from the start, and
fills the holes. So the file is right when this one has finished, and not before.

The reduce task that reads the file in between finds a valid prefix, or zeros, or nothing. It does
not notice.

## Main definitions

* `TaskState.written?`, `TaskState.settled`
* `Undisturbed` — no execution is in the middle of the file that is read
* `Job.Intact` — the invariant

## Main results

* `Job.intact_of_reachable`
* `Job.reads_half_written_file` — without `Undisturbed` a reduce task can read a file that was just
  truncated
* `Job.reads_complete_file`
-/

namespace Distsys

namespace MapReduce

variable {ω : Type} {job : Job} {fs₀ : FileSystem}

namespace TaskState

/-- How much an execution of a map task has written to its file for `r`, if it has created it. -/
def written? (t : TaskState) (r : ℕ) : Option ℕ :=
  match t.pc with
  | .create r' => if r < r' then some 0 else none
  | .encode _ offsets => some (offsets r)
  | _ => none

/-- An execution of a map task has not created its file for `r` yet, or has no pair left for it. -/
def settled (t : TaskState) (r : ℕ) : Bool :=
  match t.pc with
  | .create r' => r' ≤ r
  | .encode rest _ => bucket t.args.numOtherPhase r rest = []
  | _ => true

/-- The map task whose output the next step reads. -/
def reads? (t : TaskState) : Option ℕ :=
  match t.pc with
  | .read m _ => if m < t.args.numOtherPhase then some m else none
  | _ => none

end TaskState

/-- When a reduce task reads the output of a map task, every execution of this map task is settled.
-/
def Undisturbed (d : Distributed ω TaskState) : DistributedAction ω → Prop
  | .exec j => ∀ x ∈ d.execs[j]?, ∀ m ∈ x.state.reads?, ∀ y ∈ d.execs,
      y.phase = .mapPhase → y.call.task = m → y.state.settled x.call.task = true
  | _ => True

instance (d : Distributed ω TaskState) (a : DistributedAction ω) : Decidable (Undisturbed d a) :=
  match a with
  | .exec j => inferInstanceAs (Decidable (∀ x ∈ d.execs[j]?, ∀ m ∈ x.state.reads?, ∀ y ∈ d.execs,
      y.phase = .mapPhase → y.call.task = m → y.state.settled x.call.task = true))
  | .sched _ | .nextPhase | .merge => .isTrue trivial

namespace Job

/-! ### The invariant

It is about one file of one map task at a time, and about the executions of this task only, since no
other task writes to the file. -/

/-- The states an execution of the task goes through. -/
inductive OnTrack (job : Job) (fs₀ : FileSystem) (task : ℕ) : JobPhase → TaskPc → Prop where
  | create {r : ℕ} (hr : r ≤ job.nReduce) : OnTrack job fs₀ task .mapPhase (.create r)
  | encode {f : GoString} {written rest : List KeyValue} {offsets : ℕ → ℕ}
      (hf : job.files[task]? = some f) (hemit : job.emit fs₀ f = written ++ rest)
      (hoffsets : ∀ r, offsets r =
        ((bucket job.nReduce r written).flatMap job.json.encode).length) :
    OnTrack job fs₀ task .mapPhase (.encode rest offsets)
  | read {m : ℕ} {inputArray : List KeyValue} :
    OnTrack job fs₀ task .reducePhase (.read m inputArray)
  | output {rest : List KeyValue} {offset : ℕ} :
    OnTrack job fs₀ task .reducePhase (.output rest offset)

/-- The file of map task `m` for `r` has all that the last execution to truncate it has written, and
it is not too long. -/
def Partial (job : Job) (fs₀ : FileSystem) (execs : List (Exec ω TaskState)) (fs : FileSystem)
    (m r : ℕ) : Prop :=
  ∃ b, fs (reduceName job.jobName m r) = some b ∧ b.length ≤ (job.bytes fs₀ m r).length ∧
    ∃ x ∈ execs, x.phase = .mapPhase ∧ x.call.task = m ∧ ∃ o, x.state.written? r = some o ∧
      ∀ i < o, b[i]? = (job.bytes fs₀ m r)[i]?

/-- The inputs are there, the executions are on their way, and no output is more than incomplete. -/
structure Intact (job : Job) (fs₀ : FileSystem) (d : Distributed ω TaskState) : Prop where
  input : ∀ f ∈ job.files, d.fs f = fs₀ f
  args : ∀ x ∈ d.execs, job.taskArgs x.phase x.call.task = some x.state.args
  /-- The pairs that an execution has written and those it has left are the output of `mapF`. -/
  onTrack : ∀ x ∈ d.execs, OnTrack job fs₀ x.call.task x.phase x.state.pc
  /-- A file that was created by some execution is as far as the last one to truncate it. -/
  files : ∀ x ∈ d.execs, x.phase = .mapPhase → ∀ r < job.nReduce, (x.state.written? r).isSome →
    Partial job fs₀ d.execs d.fs x.call.task r

theorem bytes_eq {m : ℕ} {f : GoString} (hf : job.files[m]? = some f) (r : ℕ) :
    job.bytes fs₀ m r = (bucket job.nReduce r (job.emit fs₀ f)).flatMap job.json.encode := by
  rw [bytes, hf, Option.map_some, Option.getD_some]

/-- The arguments of an execution of a map task. -/
theorem args_of_mapPhase {m : ℕ} {args : DoTaskArgs} (h : job.taskArgs .mapPhase m = some args) :
    job.files[m]? = some args.file ∧ args.jobName = job.jobName ∧ args.taskNumber = m ∧
      args.numOtherPhase = job.nReduce := by
  obtain ⟨f, hf, rfl⟩ := Option.map_eq_some_iff.mp h
  exact ⟨hf, rfl, rfl, rfl⟩

/-- The arguments of an execution of a reduce task. -/
theorem args_of_reducePhase {r : ℕ} {args : DoTaskArgs}
    (h : job.taskArgs .reducePhase r = some args) :
    args.jobName = job.jobName ∧ args.taskNumber = r ∧ args.numOtherPhase = job.files.length := by
  cases h
  exact ⟨rfl, rfl, rfl⟩

/-- An execution that is settled and has created the file has written all of it. -/
theorem OnTrack.written_of_settled {task : ℕ} {t : TaskState}
    (h : OnTrack job fs₀ task .mapPhase t.pc) (hn : t.args.numOtherPhase = job.nReduce) {r o : ℕ}
    (hsettled : t.settled r = true) (ho : t.written? r = some o) :
    o = (job.bytes fs₀ task r).length := by
  obtain ⟨args, pc⟩ := t
  simp only at h hn
  cases h with
  | create hr =>
    simp only [TaskState.settled, TaskState.written?, decide_eq_true_eq] at hsettled ho
    rw [if_neg (by omega)] at ho
    cases ho
  | encode hf hemit hoffsets =>
    simp only [TaskState.settled, TaskState.written?, hn, decide_eq_true_eq,
      Option.some.injEq] at hsettled ho
    rw [← ho, hoffsets, bytes_eq hf, hemit, bucket, bucket, List.filter_append]
    rw [bucket] at hsettled
    rw [hsettled, List.append_nil]

/-- `Partial` goes over to a state with the same file, and with executions that have written as much
to it. -/
theorem Partial.mono {execs execs' : List (Exec ω TaskState)} {fs fs' : FileSystem} {m r : ℕ}
    (h : Partial job fs₀ execs fs m r)
    (hfs : fs' (reduceName job.jobName m r) = fs (reduceName job.jobName m r))
    (hexecs : ∀ x ∈ execs, ∃ x' ∈ execs', x'.phase = x.phase ∧ x'.call = x.call ∧
      (x.phase = .mapPhase → x.call.task = m → x'.state.written? r = x.state.written? r)) :
    Partial job fs₀ execs' fs' m r := by
  obtain ⟨b, hb, hlen, x, hx, hphase, htask, o, ho, hagree⟩ := h
  obtain ⟨x', hx', hphase', hcall', hwritten⟩ := hexecs x hx
  exact ⟨b, hfs.trans hb, hlen, x', hx', hphase'.trans hphase, by rw [hcall', htask], o,
    (hwritten hphase htask).trans ho, hagree⟩

/-- Every execution is in the list still, up to the one that has made a step. -/
theorem exists_mem_set {execs : List (Exec ω TaskState)} {j : ℕ} {x x' : Exec ω TaskState}
    (hx : execs[j]? = some x) {Q : Exec ω TaskState → Exec ω TaskState → Prop} (hQ : Q x x')
    (hrefl : ∀ y, Q y y) : ∀ y ∈ execs, ∃ y' ∈ execs.set j x', Q y y' := by
  intro y hy
  obtain ⟨i, hi⟩ := List.mem_iff_getElem?.mp hy
  rcases eq_or_ne j i with rfl | hne
  · cases hx.symm.trans hi
    refine ⟨x', List.mem_iff_getElem?.mpr ⟨j, ?_⟩, hQ⟩
    rw [List.getElem?_set_self (List.getElem?_eq_some_iff.mp hx).1]
  · exact ⟨y, List.mem_iff_getElem?.mpr ⟨i, by rw [List.getElem?_set_ne hne, hi]⟩, hrefl y⟩

/-! ### A write

A write of the bytes that belong at an offset, by any execution, never destroys what is there, and
extends it if it is the write of the execution the file is kept track of. -/

/-- A pair of the output is written where it belongs: the file keeps what was right, and it gets the
pair. -/
theorem agree_overwrite {B b data : List Byte} {o o' : ℕ} (ho : o ≤ B.length)
    (hagree : ∀ i < o, b[i]? = B[i]?)
    (hdata : ∀ i < data.length, data[i]? = B[o' + i]?) :
    ∀ i < o, (overwrite b o' data)[i]? = B[i]? := by
  intro i hi
  have hib : i < b.length := by
    have h := hagree i hi
    rw [List.getElem?_eq_getElem (hi.trans_le ho)] at h
    exact (List.getElem?_eq_some_iff.mp h).1
  rcases lt_or_ge i o' with hlt | hge
  · rw [getElem?_overwrite_of_lt data hlt hib, hagree i hi]
  · rw [getElem?_overwrite_of_le data hge]
    split
    · rw [hdata (i - o') (by omega), Nat.add_sub_cancel' hge]
    · exact hagree i hi

theorem agree_overwrite_self {B b data : List Byte} {o : ℕ} (ho : o ≤ B.length)
    (hagree : ∀ i < o, b[i]? = B[i]?)
    (hdata : ∀ i < data.length, data[i]? = B[o + i]?) :
    ∀ i < o + data.length, (overwrite b o data)[i]? = B[i]? := by
  intro i hi
  rcases lt_or_ge i o with hlt | hge
  · exact agree_overwrite ho hagree hdata i hlt
  · rw [getElem?_overwrite_of_le data hge, if_pos hi, hdata (i - o) (by omega),
      Nat.add_sub_cancel' hge]

/-- Where the next pair belongs. -/
theorem bytes_of_cons {m r : ℕ} {f : GoString} {written rest : List KeyValue} {kv : KeyValue}
    (hf : job.files[m]? = some f) (hemit : job.emit fs₀ f = written ++ kv :: rest)
    (hr : ihash kv.key % job.nReduce = r) :
    ∃ tail, job.bytes fs₀ m r = (bucket job.nReduce r written).flatMap job.json.encode ++
      (job.json.encode kv ++ tail) := by
  refine ⟨(bucket job.nReduce r rest).flatMap job.json.encode, ?_⟩
  rw [bytes_eq hf, hemit]
  simp [bucket, hr]

/-- The offsets behind a write. -/
theorem offsets_of_cons {written : List KeyValue} {kv : KeyValue} {offsets : ℕ → ℕ} {r : ℕ}
    (hoffsets : ∀ r, offsets r = ((bucket job.nReduce r written).flatMap job.json.encode).length)
    (hr : ihash kv.key % job.nReduce = r) (r' : ℕ) :
    Function.update offsets r (offsets r + (job.json.encode kv).length) r' =
      ((bucket job.nReduce r' (written ++ [kv])).flatMap job.json.encode).length := by
  rcases eq_or_ne r' r with rfl | hne
  · rw [Function.update_self, hoffsets]
    simp [bucket, hr]
  · rw [Function.update_of_ne hne, hoffsets]
    simp [bucket, hr, hne.symm]

/-- An execution has not written more than there is to write. -/
theorem OnTrack.written_le {task : ℕ} {t : TaskState} (h : OnTrack job fs₀ task .mapPhase t.pc)
    {r o : ℕ} (ho : t.written? r = some o) : o ≤ (job.bytes fs₀ task r).length := by
  obtain ⟨args, pc⟩ := t
  simp only at h
  cases h with
  | create hr =>
    simp only [TaskState.written?] at ho
    split at ho
    · cases ho
      exact Nat.zero_le _
    · cases ho
  | encode hf hemit hoffsets =>
    simp only [TaskState.written?, Option.some.injEq] at ho
    rw [← ho, hoffsets, bytes_eq hf, hemit, bucket, bucket, List.filter_append,
      List.flatMap_append, List.length_append]
    exact Nat.le_add_right _ _

/-! ### Steps

The executions are treated one kind of step at a time: those of map tasks that create or write, and
those that leave the files of map tasks alone. -/

section Exec

variable {d : Distributed ω TaskState} {j : ℕ} {x : Exec ω TaskState}

/-- A step of an execution, up to the files it changes. -/
theorem Intact.exec (hI : Intact job fs₀ d) (hx : d.execs[j]? = some x) {t : TaskState}
    {fs : FileSystem} (hargs : t.args = x.state.args) (hinput : ∀ f ∈ job.files, fs f = d.fs f)
    (honTrack : OnTrack job fs₀ x.call.task x.phase t.pc)
    (hfiles : ∀ m, ∀ r < job.nReduce,
      fs (reduceName job.jobName m r) = d.fs (reduceName job.jobName m r) ∧
        (x.phase = .mapPhase → x.call.task = m → t.written? r = x.state.written? r) ∨
      Partial job fs₀ (d.execs.set j { x with state := t }) fs m r) :
    Intact job fs₀ { d with execs := d.execs.set j { x with state := t }, fs } := by
  have hmem := List.mem_of_getElem? hx
  refine ⟨fun f hf => (hinput f hf).trans (hI.input f hf), fun y hy => ?_, fun y hy => ?_,
    fun y hy hphase r hr hsome => ?_⟩
  · rcases List.mem_or_eq_of_mem_set hy with hy | rfl
    · exact hI.args y hy
    · exact (hI.args x hmem).trans (congrArg some hargs.symm)
  · rcases List.mem_or_eq_of_mem_set hy with hy | rfl
    · exact hI.onTrack y hy
    · exact honTrack
  · rcases hfiles y.call.task r hr with ⟨hfs, hwritten⟩ | hpartial
    · have hold : Partial job fs₀ d.execs d.fs y.call.task r := by
        rcases List.mem_or_eq_of_mem_set hy with hy | rfl
        · exact hI.files y hy hphase r hr hsome
        · exact hI.files x hmem hphase r hr (by rw [← hwritten hphase rfl]; exact hsome)
      exact hold.mono hfs
        (exists_mem_set hx ⟨rfl, rfl, hwritten⟩ fun _ => ⟨rfl, rfl, fun _ _ => rfl⟩)
    · exact hpartial

/-- The new state of an execution. -/
theorem mem_set_self (hx : d.execs[j]? = some x) (x' : Exec ω TaskState) :
    x' ∈ d.execs.set j x' :=
  List.mem_iff_getElem?.mpr
    ⟨j, by rw [List.getElem?_set_self (List.getElem?_eq_some_iff.mp hx).1]⟩

/-- `os.Create` makes `x` the last to truncate the file. -/
theorem partial_create (hx : d.execs[j]? = some x) (hphase : x.phase = .mapPhase) {t : TaskState}
    {r : ℕ} (hwritten : t.written? r = some 0) :
    Partial job fs₀ (d.execs.set j { x with state := t })
      (d.fs.create (reduceName job.jobName x.call.task r)) x.call.task r :=
  ⟨[], Function.update_self .., Nat.zero_le _, _, mem_set_self hx _, hphase, rfl, 0, hwritten,
    fun _ hi => absurd hi (Nat.not_lt_zero _)⟩

/-- A write of the next pair. -/
theorem Intact.partial_writeAt (hI : Intact job fs₀ d) (hx : d.execs[j]? = some x)
    (hphase : x.phase = .mapPhase) {t : TaskState} {r o : ℕ} (hr : r < job.nReduce)
    {data tail front : List Byte}
    (hbytes : job.bytes fs₀ x.call.task r = front ++ (data ++ tail)) (ho : o = front.length)
    (hold : x.state.written? r = some o) (hnew : t.written? r = some (o + data.length)) :
    Partial job fs₀ (d.execs.set j { x with state := t })
      (d.fs.writeAt (reduceName job.jobName x.call.task r) o data) x.call.task r := by
  have hmem := List.mem_of_getElem? hx
  have hdata : ∀ i < data.length, data[i]? = (job.bytes fs₀ x.call.task r)[o + i]? := by
    intro i hi
    rw [hbytes, ho, List.getElem?_append_right (Nat.le_add_right _ _), Nat.add_sub_cancel_left,
      List.getElem?_append_left hi]
  have hle : o + data.length ≤ (job.bytes fs₀ x.call.task r).length := by
    rw [hbytes, ho, List.length_append, List.length_append]
    omega
  obtain ⟨b, hb, hlen, y, hy, hyphase, hytask, oy, hoy, hagree⟩ :=
    hI.files x hmem hphase r hr (by rw [hold]; rfl)
  have hoyle : oy ≤ (job.bytes fs₀ x.call.task r).length := by
    have htrack := hI.onTrack y hy
    rw [hyphase, hytask] at htrack
    exact htrack.written_le hoy
  refine ⟨overwrite b o data, ?_, ?_, ?_⟩
  · rw [FileSystem.writeAt, Function.update_self, hb, Option.getD_some]
  · rw [length_overwrite]
    exact max_le hlen hle
  · -- the last to truncate the file is `x` itself or has not moved
    obtain ⟨i, hi⟩ := List.mem_iff_getElem?.mp hy
    rcases eq_or_ne j i with rfl | hne
    · cases hx.symm.trans hi
      cases hold.symm.trans hoy
      exact ⟨_, mem_set_self hx _, hphase, rfl, _, hnew, agree_overwrite_self hoyle hagree hdata⟩
    · refine ⟨y, List.mem_iff_getElem?.mpr ⟨i, ?_⟩, hyphase, hytask, oy, hoy,
        agree_overwrite hoyle hagree hdata⟩
      rw [List.getElem?_set_ne hne, hi]

/-- A step of a map task that changes its file for `r`. -/
theorem Intact.exec_map (h : job.Admissible fs₀) (hI : Intact job fs₀ d)
    (hx : d.execs[j]? = some x) {t : TaskState} {r : ℕ} {b : Option (List Byte)}
    (hargs : t.args = x.state.args) (honTrack : OnTrack job fs₀ x.call.task x.phase t.pc)
    (hm : x.call.task < job.files.length) (hr : r < job.nReduce)
    (hwritten : ∀ r', r' ≠ r → t.written? r' = x.state.written? r')
    (hfile : Partial job fs₀ (d.execs.set j { x with state := t })
      (Function.update d.fs (reduceName job.jobName x.call.task r) b) x.call.task r) :
    Intact job fs₀
      { d with
        execs := d.execs.set j { x with state := t },
        fs := Function.update d.fs (reduceName job.jobName x.call.task r) b } := by
  refine hI.exec hx hargs
    (fun f hf => Function.update_of_ne (h.ne_reduceName f hf _ hm _ hr) ..) honTrack
    fun m r' _ => ?_
  by_cases heq : m = x.call.task ∧ r' = r
  · obtain ⟨rfl, rfl⟩ := heq
    exact Or.inr hfile
  · refine Or.inl
      ⟨Function.update_of_ne (fun e => heq (reduceName_inj.mp e)) .., fun _ hm => ?_⟩
    exact hwritten r' fun e => heq ⟨hm.symm, e⟩

/-- A step of a reduce task that changes its output. -/
theorem Intact.exec_reduce (h : job.Admissible fs₀) (hI : Intact job fs₀ d)
    (hx : d.execs[j]? = some x) (hphase : x.phase = .reducePhase) {rest : List KeyValue}
    {offset r : ℕ} {b : Option (List Byte)} (hr : r < job.nReduce) :
    Intact job fs₀
      { d with
        execs := d.execs.set j { x with state := ⟨x.state.args, .output rest offset⟩ },
        fs := Function.update d.fs (mergeName job.jobName r) b } := by
  refine hI.exec hx rfl (fun f hf => Function.update_of_ne (h.ne_mergeName f hf _ hr) ..) ?_
    fun m r _ => Or.inl ⟨Function.update_of_ne (reduceName_ne_mergeName _ _ _ _) ..,
      fun hmap => by cases hphase.symm.trans hmap⟩
  rw [hphase]
  exact .output

end Exec

/-- A step of an execution. -/
theorem Intact.taskStep (h : job.Admissible fs₀) {d : Distributed ω TaskState}
    (hI : Intact job fs₀ d) {j : ℕ} {x : Exec ω TaskState} (hx : d.execs[j]? = some x)
    (hlt : x.call.task < job.ntasks x.phase) {pc : TaskPc} {fs : FileSystem}
    {reads : List ReadEvent}
    (hstep : TaskStep job x.state.args d.fs x.state.pc pc fs reads) :
    Intact job fs₀
      { d with execs := d.execs.set j { x with state := ⟨x.state.args, pc⟩ }, fs } := by
  have hmem := List.mem_of_getElem? hx
  have hargs := hI.args x hmem
  have htrack := hI.onTrack x hmem
  obtain ⟨phase, call, args, pc₀⟩ := x
  simp only at hargs htrack hstep hlt
  cases hstep with
  | @create r hr =>
    cases htrack with
    | create =>
      obtain ⟨hf, hjob, htask, hn⟩ := args_of_mapPhase hargs
      rw [hjob, htask]
      refine hI.exec_map h hx rfl (.create (by omega)) hlt (hn ▸ hr) (fun r' hne => ?_)
        (partial_create hx rfl (if_pos (Nat.lt_succ_self _)))
      simp only [TaskState.written?, show r' < r + 1 ↔ r' < r by omega]
  | input hr hinput =>
    cases htrack with
    | create hr' =>
      obtain ⟨hf, hjob, htask, hn⟩ := args_of_mapPhase hargs
      refine hI.exec hx rfl (fun _ _ => rfl) ?_ fun m r hr => Or.inl ⟨rfl, fun _ _ => ?_⟩
      · refine .encode hf (show _ = [] ++ _ from ?_) fun _ => rfl
        rw [hI.input _ (List.mem_of_getElem? hf)] at hinput
        rw [emit, hinput, Option.getD_some, List.nil_append]
      · simp only [TaskState.written?]
        rw [if_pos (by omega)]
  | @encode kv rest offsets r hn hr =>
    cases htrack with
    | @encode f written _ _ hf hemit hoffsets =>
      obtain ⟨_, hjob, htask, hn'⟩ := args_of_mapPhase hargs
      rw [hn'] at hr
      rw [hjob, htask]
      have hr' : r < job.nReduce := hr ▸ Nat.mod_lt _ h.pos
      refine hI.exec_map h hx rfl
        (.encode hf (hemit.trans (List.append_cons ..)) (offsets_of_cons hoffsets hr)) hlt hr'
        (fun r' hne => congrArg some (Function.update_of_ne hne ..)) ?_
      obtain ⟨tail, htail⟩ := bytes_of_cons hf hemit hr
      exact hI.partial_writeAt hx rfl hr' htail (hoffsets r) rfl
        (congrArg some (Function.update_self ..))
  | read hm hb =>
    cases htrack
    exact hI.exec hx rfl (fun _ _ => rfl) .read fun m r hr =>
      Or.inl ⟨rfl, fun hphase => by cases hphase⟩
  | reduce hm =>
    cases htrack
    obtain ⟨hjob, htask, _⟩ := args_of_reducePhase hargs
    rw [hjob]
    exact hI.exec_reduce h hx rfl (htask ▸ hlt)
  | output =>
    cases htrack
    obtain ⟨hjob, htask, _⟩ := args_of_reducePhase hargs
    rw [hjob]
    exact hI.exec_reduce h hx rfl (htask ▸ hlt)

variable (fs₀) in
/-- The state of an execution that is new. -/
theorem start_of_begin {phase : JobPhase} {calls : List (Call ω)} {execs : List (Exec ω TaskState)}
    (h : calls.mapM (job.begin (Program.stepwise job) phase) = some execs) {x : Exec ω TaskState}
    (hx : x ∈ execs) : job.taskArgs x.phase x.call.task = some x.state.args ∧
      OnTrack job fs₀ x.call.task x.phase x.state.pc ∧ ∀ r, x.state.written? r = none := by
  obtain ⟨hphase, _, args, hargs, hstart⟩ := phase_of_begin h hx
  rw [hphase, hstart, hargs]
  cases phase with
  | mapPhase =>
    obtain ⟨f, hf, rfl⟩ := Option.map_eq_some_iff.mp hargs
    exact ⟨rfl, .create (Nat.zero_le _), fun _ => rfl⟩
  | reducePhase =>
    cases hargs
    exact ⟨rfl, .read, fun _ => rfl⟩

variable [DecidableEq ω]

/-- The step lemma. -/
theorem Intact.step (h : job.Admissible fs₀) {d d' : Distributed ω TaskState}
    {a : DistributedAction ω} {reads : List ReadEvent} (hI : Intact job fs₀ d)
    (hlt : ∀ x ∈ d.execs, x.call.task < job.ntasks x.phase)
    (hs : DistributedStep job (Program.stepwise job) d a d' reads) : Intact job fs₀ d' := by
  cases hs with
  | @sched _ _ state es execs _ _ _ hexecs =>
    refine ⟨hI.input, fun x hx => ?_, fun x hx => ?_, fun x hx hphase r hr hsome => ?_⟩
    · rcases List.mem_append.mp hx with hx | hx
      · exact hI.args x hx
      · exact (start_of_begin fs₀ hexecs hx).1
    · rcases List.mem_append.mp hx with hx | hx
      · exact hI.onTrack x hx
      · exact (start_of_begin fs₀ hexecs hx).2.1
    · rcases List.mem_append.mp hx with hx | hx
      · exact (hI.files x hx hphase r hr hsome).mono rfl fun y hy =>
          ⟨y, List.mem_append_left _ hy, rfl, rfl, fun _ _ => rfl⟩
      · rw [(start_of_begin fs₀ hexecs hx).2.2 r] at hsome
        cases hsome
  | @exec j x t fs reads hx hstep =>
    obtain ⟨htask, hargs⟩ := TaskState.step_eq_some_iff.mp hstep
    obtain ⟨args, pc⟩ := t
    cases hargs
    exact hI.taskStep h hx (hlt x (List.mem_of_getElem? hx)) htask
  | nextPhase => exact ⟨hI.input, hI.args, hI.onTrack, hI.files⟩
  | merge _ _ hmerge =>
    obtain ⟨records, _, heq⟩ := Option.bind_eq_some_iff.mp hmerge
    cases heq
    refine ⟨fun f hf => ?_, hI.args, hI.onTrack, fun x hx hphase r hr hsome => ?_⟩
    · rw [← hI.input f hf]
      exact Function.update_of_ne (h.ne_outName f hf) ..
    · exact (hI.files x hx hphase r hr hsome).mono
        (Function.update_of_ne (reduceName_ne_outName _ _ _) ..)
        fun y hy => ⟨y, hy, rfl, rfl, fun _ _ => rfl⟩

variable {c : System.Config (Distributed ω TaskState) ReadEvent}
  {ok : System.Config (Distributed ω TaskState) ReadEvent → DistributedAction ω → Prop}

theorem intact_of_reachable (h : job.Admissible fs₀)
    (hc : (job.distributed (Program.stepwise job) fs₀).Reachable ok c) :
    Intact job fs₀ c.state := by
  refine System.Reachable.invariant (M := job.distributed (Program.stepwise job) fs₀)
    (P := fun c => Intact job fs₀ c.state) ?_ ?_ hc
  · exact ⟨fun _ _ => rfl, nofun, nofun, nofun⟩
  · intro c a c' hc hI _ hn
    obtain ⟨reads, hs, _⟩ := distributedStep_of_next hn
    exact hI.step h (progress_of_reachable hc).task_lt hs

/-! ### Reads

This is where the invariant is used: when a reduce task reads. If no execution of the map task is in
the middle of the file, the one that is kept track of has written all of it. -/

omit [DecidableEq ω] in
/-- A file is complete when every execution of the task is settled. -/
theorem Partial.complete {execs : List (Exec ω TaskState)} {fs : FileSystem} {m r : ℕ}
    (h : Partial job fs₀ execs fs m r)
    (hargs : ∀ x ∈ execs, job.taskArgs x.phase x.call.task = some x.state.args)
    (honTrack : ∀ x ∈ execs, OnTrack job fs₀ x.call.task x.phase x.state.pc)
    (hsettled : ∀ x ∈ execs, x.phase = .mapPhase → x.call.task = m → x.state.settled r = true) :
    fs (reduceName job.jobName m r) = some (job.bytes fs₀ m r) := by
  obtain ⟨b, hb, hlen, x, hx, hphase, rfl, o, ho, hagree⟩ := h
  have htrack := honTrack x hx
  have hargs := hargs x hx
  rw [hphase] at htrack hargs
  have hfull := htrack.written_of_settled (args_of_mapPhase hargs).2.2.2
    (hsettled x hx hphase rfl) ho
  rw [hb]
  congr 1
  refine List.ext_getElem? fun i => ?_
  rcases lt_or_ge i o with hlt | hge
  · exact hagree i hlt
  · rw [List.getElem?_eq_none (by omega), List.getElem?_eq_none (by omega)]

omit [DecidableEq ω] in
/-- Behind the barrier every file of every map task has been created. -/
theorem Intact.partial_of_done {d : Distributed ω TaskState} (hI : Intact job fs₀ d) {m : ℕ}
    (hdone : Done (Program.stepwise job) d .mapPhase m) {r : ℕ} (hr : r < job.nReduce) :
    Partial job fs₀ d.execs d.fs m r := by
  obtain ⟨x, hx, hphase, rfl, hfin⟩ := hdone
  refine hI.files x hx hphase r hr ?_
  have htrack := hI.onTrack x hx
  obtain ⟨phase, call, args, pc⟩ := x
  cases hphase
  simp only at htrack
  cases htrack with
  | create => cases hfin
  | encode => rfl

/-- What an undisturbed step reads. -/
theorem Intact.reads {d d' : Distributed ω TaskState} {a : DistributedAction ω}
    {reads : List ReadEvent} (hI : Intact job fs₀ d) (hP : Progress job (Program.stepwise job) d)
    (hs : DistributedStep job (Program.stepwise job) d a d' reads) (hok : Undisturbed d a)
    {e : ReadEvent} (he : e ∈ reads) :
    e.mapTask < job.files.length ∧ e.contents = job.bytes fs₀ e.mapTask e.reduceTask := by
  cases hs with
  | sched | nextPhase | merge => cases he
  | @exec j x t fs _ hx hstep =>
    obtain ⟨htask, -⟩ := TaskState.step_eq_some_iff.mp hstep
    have hmem := List.mem_of_getElem? hx
    have hargs := hI.args x hmem
    have htrack := hI.onTrack x hmem
    have hlt := hP.task_lt x hmem
    have hbarrier := hP.phase x hmem
    have hsettled := hok x hx
    obtain ⟨phase, call, args, pc⟩ := x
    simp only at hargs htrack hlt hbarrier hsettled htask
    generalize t.pc = pc' at htask
    cases htask with
    | create | input | encode | reduce | output => cases he
    | @read m inputArray b hm hb =>
      cases htrack
      obtain ⟨hjob, htasknr, hn⟩ := args_of_reducePhase hargs
      cases List.mem_singleton.mp he
      have hreads : m ∈ (TaskState.mk args (.read m inputArray)).reads? := if_pos hm
      rw [hn] at hm
      have hpartial := hI.partial_of_done (hP.mapped (hbarrier rfl) m hm) hlt
      have hcomplete := hpartial.complete hI.args hI.onTrack (hsettled m hreads)
      rw [hjob, htasknr] at hb
      simp only [htasknr]
      exact ⟨hm, Option.some.inj (hb.symm.trans hcomplete)⟩

/-- **A reduce task reads complete files if it is not disturbed.** In every run of `Distributed` in
which no execution of a map task is in the middle of a file when a reduce task reads it, what is
read is all pairs that the map task emits for the reduce task. -/
theorem reads_complete_file (job : Job) (fs₀ : FileSystem) (h : job.Admissible fs₀)
    (c : System.Config (Distributed ω TaskState) ReadEvent)
    (hc : (job.distributed (Program.stepwise job) fs₀).Reachable
      (fun c a => Undisturbed c.state a) c) :
    ∀ e ∈ c.trace, ∃ f, job.files[e.mapTask]? = some f ∧
      e.contents = (bucket job.nReduce e.reduceTask (job.emit fs₀ f)).flatMap job.json.encode := by
  refine System.Reachable.invariant (M := job.distributed (Program.stepwise job) fs₀)
    (P := fun c => ∀ e ∈ c.trace, ∃ f, job.files[e.mapTask]? = some f ∧
      e.contents = (bucket job.nReduce e.reduceTask (job.emit fs₀ f)).flatMap job.json.encode)
    nofun ?_ hc
  intro c a c' hc hI hok hn e he
  obtain ⟨reads, hs, htrace⟩ := distributedStep_of_next hn
  rw [htrace] at he
  rcases List.mem_append.mp he with he | he
  · exact hI e he
  · obtain ⟨hlt, hbytes⟩ :=
      (intact_of_reachable h hc).reads (progress_of_reachable hc) hs hok he
    have hf := List.getElem?_eq_getElem hlt
    exact ⟨_, hf, hbytes.trans (bytes_eq hf _)⟩

/-- The map phase of the job `letters`. The call of task `0` to worker `10` times out before `10`
has begun; worker `20` does task `1` and then task `0`. -/
def timeoutRun : List (DistributedAction ℕ) :=
  [.sched (.register 10), .sched (.register 20), .sched .forward, .sched (.receive 0),
    .sched .takeTask, .sched .takeForwarded, .sched (.reply 0 false), .sched .forward,
    .sched (.receive 0), .sched .takeTask, .sched .takeForwarded] ++
  List.replicate 4 (.exec 1) ++
  [.sched (.reply 0 true), .sched (.count 0), .sched .takeTask, .sched (.takeIdle 0)] ++
  List.replicate 6 (.exec 2) ++
  [.sched (.reply 0 true), .sched (.count 0), .nextPhase]

/-- Worker `20` is given reduce task `0`. -/
def reduceRun : List (DistributedAction ℕ) :=
  [.sched .forward, .sched .forward, .sched (.receive 1), .sched .takeTask, .sched .takeForwarded]

/-- If worker `10` now does all of its task before `20` reads, every step is undisturbed. -/
theorem reads_complete_file_timeoutRun :
    ∃ c, (letters.distributed (Program.stepwise letters) letterFiles).Reachable
        (fun c (a : DistributedAction ℕ) => Undisturbed c.state a) c ∧ c.trace.length = 2 ∧
      ∀ e ∈ c.trace, ∃ f, letters.files[e.mapTask]? = some f ∧
        e.contents = (bucket letters.nReduce e.reduceTask (letters.emit letterFiles f)).flatMap
          letters.json.encode := by
  have hrun : ((letters.distributed (Program.stepwise letters) letterFiles).execOk
      (fun c (a : DistributedAction ℕ) => Undisturbed c.state a)
      (letters.distributed (Program.stepwise letters) letterFiles).start
      (timeoutRun ++ List.replicate 6 (.exec 0) ++ reduceRun ++ List.replicate 2 (.exec 3))).any
        (fun c => c.trace.length = 2) = true := by decide +kernel
  obtain ⟨c, hc, h⟩ := (Option.any_eq_true _ _).mp hrun
  have hreach := System.reaches_of_execOk hc
  exact ⟨c, hreach, of_decide_eq_true h,
    reads_complete_file letters letterFiles letters_admissible c hreach⟩

/-- **A reduce task can read a file that was just truncated.** Worker `10` has taken one step of its
task, `os.Create` of the file for reduce task `0`, when worker `20` reads this file: it is empty,
and the pair of the letter `y` is lost. -/
theorem reads_half_written_file :
    letters.Admissible letterFiles ∧
    ∃ c, (letters.distributed (Program.stepwise letters) letterFiles).Reachable
        (fun _ (_ : DistributedAction ℕ) => True) c ∧
      ⟨0, 0, []⟩ ∈ c.trace ∧
      (bucket letters.nReduce 0 (letters.emit letterFiles (GoString.lit "a"))).flatMap
        letters.json.encode = letters.json.encode ⟨GoString.lit "y", GoString.lit "1"⟩ ∧
      letters.json.encode ⟨GoString.lit "y", GoString.lit "1"⟩ ≠ [] := by
  have hrun : ((letters.distributed (Program.stepwise letters) letterFiles).exec
      (letters.distributed (Program.stepwise letters) letterFiles).start
      (timeoutRun ++ [.exec 0] ++ reduceRun ++ [.exec 3])).any
        (fun c => ⟨0, 0, []⟩ ∈ c.trace) = true := by decide +kernel
  obtain ⟨c, hc, h⟩ := (Option.any_eq_true _ _).mp hrun
  exact ⟨letters_admissible, c, System.reaches_of_exec hc, of_decide_eq_true h,
    by decide +kernel, by decide +kernel⟩

end Job

end MapReduce

end Distsys
