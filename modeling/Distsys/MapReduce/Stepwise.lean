import Distsys.MapReduce.Distributed

/-!
# `Worker.DoTask` in steps

Creating a file, reading a file and writing one encoded pair are one step each. A file that is open
has an offset of its own: `os.Create` truncates the file for everyone, but an execution that had
opened it before goes on writing where it was, behind the end if need be.

These are the steps between which other executions can come. An encoded pair is written with one
call, so it is never seen by halves; a file can be.

## How a step is chosen

`TaskPc` has where the execution is and the local variables that it still needs: what is left to
write, and the offsets of the open files. A step either has a file to read, and reports what it has
read, or a file to create or to write to. Calls of the user's functions belong to the step before
the first write, since they do not touch the file system.

## Main definitions

* `overwrite`, `FileSystem.writeAt`
* `TaskPc`, `TaskState`, `Program.stepwise`

## Main results

* `Job.alone_doTask` — an execution that no other disturbs does what `Job.doTask` says
-/

namespace Distsys

namespace MapReduce

/-! ### Writing at an offset

The system call `write` on a file that is open. A file that was truncated in between is filled up
with zeros. -/

/-- The contents of a file after a write at `offset`. A gap is filled with zeros. -/
def overwrite (b : List Byte) (offset : ℕ) (data : List Byte) : List Byte :=
  b.take offset ++ (List.replicate (offset - b.length) 0 ++
    (data ++ b.drop (offset + data.length)))

/-- A write to an open file. -/
def FileSystem.writeAt (fs : FileSystem) (name : GoString) (offset : ℕ) (data : List Byte) :
    FileSystem :=
  Function.update fs name (some (overwrite ((fs name).getD []) offset data))

theorem length_overwrite (b : List Byte) (offset : ℕ) (data : List Byte) :
    (overwrite b offset data).length = max b.length (offset + data.length) := by
  simp only [overwrite, List.length_append, List.length_take, List.length_replicate,
    List.length_drop]
  omega

theorem overwrite_length (b data : List Byte) : overwrite b b.length data = b ++ data := by
  simp [overwrite]

/-- What was in front of the offset, unless there was nothing. -/
theorem getElem?_overwrite_of_lt {b : List Byte} {offset i : ℕ} (data : List Byte)
    (hi : i < offset) (hb : i < b.length) : (overwrite b offset data)[i]? = b[i]? := by
  rw [overwrite, List.getElem?_append_left (by rw [List.length_take]; omega),
    List.getElem?_take_of_lt hi]

theorem getElem?_overwrite_of_le {b : List Byte} {offset i : ℕ} (data : List Byte)
    (hi : offset ≤ i) : (overwrite b offset data)[i]? =
      if i < offset + data.length then data[i - offset]? else b[i]? := by
  have hlen : (b.take offset).length + (offset - b.length) = offset := by
    rw [List.length_take]
    omega
  rw [overwrite, List.getElem?_append_right (by omega),
    List.getElem?_append_right (by rw [List.length_replicate]; omega), List.length_replicate,
    show i - (b.take offset).length - (offset - b.length) = i - offset by omega]
  split
  · rw [List.getElem?_append_left (by omega)]
  · rw [List.getElem?_append_right (by omega), List.getElem?_drop]
    congr 1
    omega

/-! ### The steps

`doMap` creates its files, reads its input and then writes one pair at a time to one of the files.
`doReduce` reads its files one after the other and writes its output, again one pair at a time. -/

/-- Where an execution is. -/
inductive TaskPc where
  /-- `doMap`, before it creates the file for reduce task `r`. -/
  | create (r : ℕ)
  /-- `doMap`, with the pairs still to be written and the offsets of its files. -/
  | encode (rest : List KeyValue) (offsets : ℕ → ℕ)
  /-- `doReduce`, before it reads the file of map task `m`. -/
  | read (m : ℕ) (inputArray : List KeyValue)
  /-- `doReduce`, with the pairs still to be written and the offset of its file. -/
  | output (rest : List KeyValue) (offset : ℕ)

/-- An execution of `Worker.DoTask`. -/
structure TaskState where
  args : DoTaskArgs
  pc : TaskPc

namespace TaskState

variable (job : Job)

def start (args : DoTaskArgs) : TaskState :=
  match args.phase with
  | .mapPhase => ⟨args, .create 0⟩
  | .reducePhase => ⟨args, .read 0 []⟩

/-- The step function. -/
def step (t : TaskState) (fs : FileSystem) :
    Option (TaskState × FileSystem × List ReadEvent) :=
  match t.pc with
  | .create r =>
    if r < t.args.numOtherPhase then
      some ({ t with pc := .create (r + 1) },
        fs.create (reduceName t.args.jobName t.args.taskNumber r), [])
    else
      (fs t.args.file).map fun input =>
        ({ t with pc := .encode (job.mapF t.args.file input) fun _ => 0 }, fs, [])
  | .encode [] _ => none
  | .encode (kv :: rest) offsets =>
    if t.args.numOtherPhase = 0 then none else
      let r := ihash kv.key % t.args.numOtherPhase
      let data := job.json.encode kv
      some ({ t with pc := .encode rest (Function.update offsets r (offsets r + data.length)) },
        fs.writeAt (reduceName t.args.jobName t.args.taskNumber r) (offsets r) data, [])
  | .read m inputArray =>
    if m < t.args.numOtherPhase then
      (fs (reduceName t.args.jobName m t.args.taskNumber)).map fun b =>
        ({ t with pc := .read (m + 1) (inputArray ++ job.json.decodeAll b) }, fs,
          [⟨m, t.args.taskNumber, b⟩])
    else
      some ({ t with pc := .output (reduceRecords job.sortSlice job.reduceF inputArray) 0 },
        fs.create (mergeName t.args.jobName t.args.taskNumber), [])
  | .output [] _ => none
  | .output (kv :: rest) offset =>
    let data := job.json.encode kv
    some ({ t with pc := .output rest (offset + data.length) },
      fs.writeAt (mergeName t.args.jobName t.args.taskNumber) offset data, [])

def finished (t : TaskState) : Bool :=
  match t.pc with
  | .encode [] _ | .output [] _ => true
  | _ => false

end TaskState

/-- `Worker.DoTask` in steps. -/
def Program.stepwise (job : Job) : Program TaskState where
  start := TaskState.start
  step := TaskState.step job
  finished := TaskState.finished
  step_of_finished {t} h fs := by
    obtain ⟨args, pc⟩ := t
    cases pc with
    | create | read => cases h
    | encode rest | output rest =>
      cases rest with
      | nil => rfl
      | cons => cases h

/-- What a step does. -/
inductive TaskStep (job : Job) (args : DoTaskArgs) (fs : FileSystem) :
    TaskPc → TaskPc → FileSystem → List ReadEvent → Prop where
  | create {r : ℕ} (hr : r < args.numOtherPhase) :
    TaskStep job args fs (.create r) (.create (r + 1))
      (fs.create (reduceName args.jobName args.taskNumber r)) []
  | input {r : ℕ} {input : GoString} (hr : args.numOtherPhase ≤ r)
      (hinput : fs args.file = some input) :
    TaskStep job args fs (.create r) (.encode (job.mapF args.file input) fun _ => 0) fs []
  | encode {kv : KeyValue} {rest : List KeyValue} {offsets : ℕ → ℕ} {r : ℕ}
      (hn : 0 < args.numOtherPhase) (hr : ihash kv.key % args.numOtherPhase = r) :
    TaskStep job args fs (.encode (kv :: rest) offsets)
      (.encode rest (Function.update offsets r (offsets r + (job.json.encode kv).length)))
      (fs.writeAt (reduceName args.jobName args.taskNumber r) (offsets r) (job.json.encode kv)) []
  | read {m : ℕ} {inputArray : List KeyValue} {b : List Byte} (hm : m < args.numOtherPhase)
      (hb : fs (reduceName args.jobName m args.taskNumber) = some b) :
    TaskStep job args fs (.read m inputArray)
      (.read (m + 1) (inputArray ++ job.json.decodeAll b)) fs
      [⟨m, args.taskNumber, b⟩]
  | reduce {m : ℕ} {inputArray : List KeyValue} (hm : args.numOtherPhase ≤ m) :
    TaskStep job args fs (.read m inputArray)
      (.output (reduceRecords job.sortSlice job.reduceF inputArray) 0)
      (fs.create (mergeName args.jobName args.taskNumber)) []
  | output {kv : KeyValue} {rest : List KeyValue} {offset : ℕ} :
    TaskStep job args fs (.output (kv :: rest) offset)
      (.output rest (offset + (job.json.encode kv).length))
      (fs.writeAt (mergeName args.jobName args.taskNumber) offset (job.json.encode kv)) []

namespace TaskState

variable {job : Job} {t t' : TaskState} {fs fs' : FileSystem} {reads : List ReadEvent}

theorem step_eq_some_iff : t.step job fs = some (t', fs', reads) ↔
    TaskStep job t.args fs t.pc t'.pc fs' reads ∧ t'.args = t.args := by
  obtain ⟨args, pc⟩ := t
  obtain ⟨args', pc'⟩ := t'
  constructor
  · intro h
    simp only [step] at h
    split at h
    · split at h
      · cases h
        exact ⟨.create ‹_›, rfl⟩
      · obtain ⟨input, hinput, h⟩ := Option.map_eq_some_iff.mp h
        cases h
        exact ⟨.input (not_lt.mp ‹_›) hinput, rfl⟩
    · cases h
    · split at h
      · cases h
      · cases h
        exact ⟨.encode (Nat.pos_of_ne_zero ‹_›) rfl, rfl⟩
    · split at h
      · obtain ⟨b, hb, h⟩ := Option.map_eq_some_iff.mp h
        cases h
        exact ⟨.read ‹_› hb, rfl⟩
      · cases h
        exact ⟨.reduce (not_lt.mp ‹_›), rfl⟩
    · cases h
    · cases h
      exact ⟨.output, rfl⟩
  · rintro ⟨h, hargs⟩
    simp only at h hargs
    subst hargs
    cases h with
    | create hr => simp [step, hr]
    | input hr hinput => simp [step, Nat.not_lt.mpr hr, hinput]
    | encode hn hr => simp [step, hn.ne', hr]
    | read hm hb => simp [step, hm, hb]
    | reduce hm => simp [step, Nat.not_lt.mpr hm]
    | output => simp [step]

end TaskState

/-! ### An execution alone

Cutting a task into steps changes nothing when no other execution runs between them. -/

namespace Job

variable {job : Job} {args : DoTaskArgs} {fs fs' : FileSystem}

/-- Steps of one execution with no step of another between them. -/
def Alone (job : Job) (args : DoTaskArgs) : TaskPc × FileSystem → TaskPc × FileSystem → Prop :=
  Relation.ReflTransGen fun s s' => ∃ reads, TaskStep job args s.2 s.1 s'.1 s'.2 reads

theorem alone_create {r : ℕ} (hr : r ≤ args.numOtherPhase) :
    Alone job args (.create 0, fs)
      (.create r, createFiles args.jobName args.taskNumber r fs) := by
  induction r with
  | zero => exact .refl
  | succ r ih =>
    have hsucc : createFiles args.jobName args.taskNumber (r + 1) fs =
        (createFiles args.jobName args.taskNumber r fs).create
          (reduceName args.jobName args.taskNumber r) := by
      rw [createFiles, List.range_succ, List.foldl_append]
      rfl
    rw [hsucc]
    exact (ih (by omega)).tail ⟨[], TaskStep.create (by omega)⟩

/-- The offsets are the lengths of the files as long as nobody else writes. -/
theorem alone_encode {kvs : List KeyValue} {offsets : ℕ → ℕ}
    (hoffsets : ∀ r < args.numOtherPhase, ∃ b,
      fs (reduceName args.jobName args.taskNumber r) = some b ∧ offsets r = b.length)
    (h : writePairs job.json args.jobName args.taskNumber args.numOtherPhase kvs fs = some fs') :
    ∃ offsets', Alone job args (.encode kvs offsets, fs) (.encode [] offsets', fs') := by
  induction kvs generalizing fs offsets with
  | nil =>
    cases h
    exact ⟨offsets, .refl⟩
  | cons kv kvs ih =>
    rw [writePairs, List.foldlM_cons] at h
    rcases Nat.eq_zero_or_pos args.numOtherPhase with hn | hn
    · rw [if_pos hn] at h
      cases h
    · rw [if_neg hn.ne'] at h
      set r := ihash kv.key % args.numOtherPhase with hr
      obtain ⟨b, hb, hlen⟩ := hoffsets r (Nat.mod_lt _ hn)
      have hwrite : fs.writeAt (reduceName args.jobName args.taskNumber r) (offsets r)
          (job.json.encode kv) =
            fs.append (reduceName args.jobName args.taskNumber r) (job.json.encode kv) := by
        rw [FileSystem.writeAt, FileSystem.append, hb, Option.getD_some, hlen, overwrite_length]
      have hstep : TaskStep job args fs (.encode (kv :: kvs) offsets) (.encode kvs
          (Function.update offsets r (offsets r + (job.json.encode kv).length)))
          (fs.append (reduceName args.jobName args.taskNumber r) (job.json.encode kv)) [] := by
        rw [← hwrite]
        exact .encode hn hr.symm
      have hnext : ∀ r' < args.numOtherPhase, ∃ b',
          fs.append (reduceName args.jobName args.taskNumber r) (job.json.encode kv)
            (reduceName args.jobName args.taskNumber r') = some b' ∧
          Function.update offsets r (offsets r + (job.json.encode kv).length) r' = b'.length := by
        intro r' hr'
        rcases eq_or_ne r' r with rfl | hne
        · refine ⟨b ++ job.json.encode kv, ?_, ?_⟩
          · rw [FileSystem.append, Function.update_self, hb, Option.getD_some]
          · rw [Function.update_self, hlen, List.length_append]
        · obtain ⟨b', hb', hlen'⟩ := hoffsets r' hr'
          refine ⟨b', ?_, by rw [Function.update_of_ne hne, hlen']⟩
          rw [FileSystem.append, Function.update_of_ne fun heq => hne (reduceName_inj.mp heq).2]
          exact hb'
      obtain ⟨offsets', hrest⟩ := ih hnext h
      exact ⟨offsets', .head ⟨[], hstep⟩ hrest⟩

theorem alone_read {m : ℕ} (hm : m ≤ args.numOtherPhase) {inputArray : List KeyValue}
    (h : readInputs job.json args.jobName args.taskNumber m fs = some inputArray) :
    Alone job args (.read 0 [], fs) (.read m inputArray, fs) := by
  induction m generalizing inputArray with
  | zero =>
    cases h
    exact .refl
  | succ m ih =>
    obtain ⟨parts, hparts, rfl⟩ := Option.map_eq_some_iff.mp h
    rw [List.range_succ, List.mapM_append] at hparts
    obtain ⟨front, hfront, hparts⟩ := Option.bind_eq_some_iff.mp hparts
    obtain ⟨last, hlast, hparts⟩ := Option.bind_eq_some_iff.mp hparts
    rw [List.mapM_cons] at hlast
    obtain ⟨kvs, hkvs, hlast⟩ := Option.bind_eq_some_iff.mp hlast
    obtain ⟨b, hb, rfl⟩ := Option.map_eq_some_iff.mp hkvs
    cases hlast
    cases hparts
    refine (ih (by omega) (by rw [readInputs, hfront]; rfl)).tail ⟨[⟨m, args.taskNumber, b⟩], ?_⟩
    rw [List.flatten_append, List.reverse_nil, List.flatten_singleton]
    exact TaskStep.read (by omega) hb

theorem alone_output {kvs : List KeyValue} {b : List Byte}
    (hb : fs (mergeName args.jobName args.taskNumber) = some b) :
    ∃ offset, Alone job args (.output kvs b.length, fs) (.output [] offset,
      writeRecords job.json (mergeName args.jobName args.taskNumber) kvs fs) := by
  induction kvs generalizing fs b with
  | nil => exact ⟨b.length, .refl⟩
  | cons kv kvs ih =>
    have hwrite : fs.writeAt (mergeName args.jobName args.taskNumber) b.length
        (job.json.encode kv) =
          fs.append (mergeName args.jobName args.taskNumber) (job.json.encode kv) := by
      rw [FileSystem.writeAt, FileSystem.append, hb, Option.getD_some, overwrite_length]
    have hstep : TaskStep job args fs (.output (kv :: kvs) b.length)
        (.output kvs (b ++ job.json.encode kv).length)
        (fs.append (mergeName args.jobName args.taskNumber) (job.json.encode kv)) [] := by
      rw [← hwrite, List.length_append]
      exact .output
    have hnext : fs.append (mergeName args.jobName args.taskNumber) (job.json.encode kv)
        (mergeName args.jobName args.taskNumber) = some (b ++ job.json.encode kv) := by
      rw [FileSystem.append, Function.update_self, hb, Option.getD_some]
    obtain ⟨offset, hrest⟩ := ih hnext
    exact ⟨offset, .head ⟨[], hstep⟩ hrest⟩

/-- **An execution alone** does the task. -/
theorem alone_doTask (h : job.doTask args fs = some fs') :
    ∃ pc, Alone job args ((TaskState.start args).pc, fs) (pc, fs') ∧
      (Program.stepwise job).finished ⟨args, pc⟩ = true := by
  unfold doTask at h
  split at h
  · rename_i hphase
    obtain ⟨input, hinput, hwrite⟩ := Option.bind_eq_some_iff.mp h
    have hcreate : Alone job args (.create 0, fs) (.create args.numOtherPhase, _) :=
      alone_create (le_refl _)
    have hempty : ∀ r < args.numOtherPhase, ∃ b,
        createFiles args.jobName args.taskNumber args.numOtherPhase fs
          (reduceName args.jobName args.taskNumber r) = some b ∧ 0 = b.length :=
      fun r hr => ⟨[], createFiles_reduceName hr, rfl⟩
    obtain ⟨offsets, hencode⟩ := alone_encode hempty hwrite
    refine ⟨.encode [] offsets, ?_, rfl⟩
    rw [TaskState.start, hphase]
    exact (hcreate.tail ⟨[], TaskStep.input (le_refl _) hinput⟩).trans hencode
  · rename_i hphase
    obtain ⟨inputArray, hread, h⟩ := Option.bind_eq_some_iff.mp h
    cases h
    have hempty : fs.create (mergeName args.jobName args.taskNumber)
        (mergeName args.jobName args.taskNumber) = some [] := Function.update_self ..
    obtain ⟨offset, houtput⟩ := alone_output hempty
    refine ⟨.output [] offset, ?_, rfl⟩
    rw [TaskState.start, hphase]
    exact ((alone_read (le_refl _) hread).tail ⟨[], TaskStep.reduce (le_refl _)⟩).trans houtput

end Job

end MapReduce

end Distsys
