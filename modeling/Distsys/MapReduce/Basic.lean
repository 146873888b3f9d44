import Distsys.Lib.GoStd

/-!
# The tasks of a MapReduce job

`doMap`, `doReduce`, `merge` and `Sequential` on a file system. A map task hashes its pairs into one
file for each reduce task, a reduce task sorts and groups what it finds in its files and writes one
pair for each key, and `merge` collects these pairs in a map and prints it.

A function that panics or calls `log.Fatal` returns `none`. The user's functions, `encoding/json`
and `sort.Slice` are parameters: `Json` says what is documented about the former, `UnstableSort`
about the latter.

## Main definitions

* `KeyValue`, `Json`, `FileSystem`
* `reduceName`, `mergeName`, `ihash`
* `doMap`, `doReduce`, `merge`
* `Job`, `Job.sequential`

## Main results

* `Json.decodeAll_encode`
* `reduceName_inj`, `reduceName_ne_mergeName` — the files of a job are different files
-/

namespace Distsys

namespace MapReduce

open GoString

/-- `KeyValue`. -/
structure KeyValue where
  key : GoString
  value : GoString
  deriving DecidableEq, Repr

/-! ### `encoding/json`

Only what the tasks rely on: a stream of encoded pairs decodes to the pairs, one after the other,
and then the decoder reports an error. The strings that come back are not those that were encoded,
if these were not valid UTF-8. -/

/-- An encoder and a decoder for a stream of `KeyValue`s. The decoder returns the next value and
what is behind it, white space included that the next call would skip; `none` is an error, `io.EOF`
for one. Strings are coerced to valid UTF-8, which is `text`. -/
structure Json where
  /-- `enc.Encode(&kv)`, what it writes. -/
  encode : KeyValue → List Byte
  /-- `dec.Decode(&kv)`. -/
  decode : List Byte → Option (KeyValue × List Byte)
  text : GoString → GoString
  text_nil : text [] = []
  /-- At the end of the stream there is nothing to decode. -/
  decode_nil : decode [] = none
  /-- The decoder stops behind what the encoder has written, whatever comes next. -/
  decode_encode : ∀ kv rest, decode (encode kv ++ rest) = some (⟨text kv.key, text kv.value⟩, rest)
  /-- A value takes at least one byte. This is why the loop of `doReduce` ends. -/
  decode_lt : ∀ {b kv rest}, decode b = some (kv, rest) → rest.length < b.length

namespace Json

variable (json : Json)

/-- The loop that decodes until there is an error, with a bound on its rounds. -/
def decodeLoop : ℕ → List Byte → List KeyValue
  | 0, _ => []
  | fuel + 1, b =>
    match json.decode b with
    | none => []
    | some (kv, rest) => kv :: decodeLoop fuel rest

/-- The loop `for { err := dec.Decode(&kv); if err != nil { break } ... }`. Each round consumes a
byte. -/
def decodeAll (b : List Byte) : List KeyValue := json.decodeLoop b.length b

/-- A pair as it is read back. -/
def textOf (kv : KeyValue) : KeyValue := ⟨json.text kv.key, json.text kv.value⟩

variable {json}

/-- The bound does not matter once it is as large as the input. -/
theorem decodeLoop_of_le {fuel : ℕ} {b : List Byte} (h : b.length ≤ fuel) :
    json.decodeLoop fuel b = json.decodeAll b := by
  unfold decodeAll
  induction fuel using Nat.strong_induction_on generalizing b with
  | _ fuel ih =>
    rcases hd : json.decode b with _ | ⟨kv, rest⟩
    · cases fuel <;> cases b.length <;> simp [decodeLoop, hd]
    · have hlt := json.decode_lt hd
      obtain ⟨f, rfl⟩ := Nat.exists_eq_succ_of_ne_zero (n := fuel) (by omega)
      obtain ⟨l, hl⟩ := Nat.exists_eq_succ_of_ne_zero (n := b.length) (by omega)
      rw [hl]
      simp only [decodeLoop, hd]
      rw [ih f (by omega) (by omega), ih l (by omega) (by omega)]

theorem decodeAll_of_none {b : List Byte} (h : json.decode b = none) : json.decodeAll b = [] := by
  unfold decodeAll
  cases b.length <;> simp [decodeLoop, h]

theorem decodeAll_of_some {b rest : List Byte} {kv : KeyValue}
    (h : json.decode b = some (kv, rest)) :
    json.decodeAll b = kv :: json.decodeAll rest := by
  have hlt := json.decode_lt h
  obtain ⟨l, hl⟩ := Nat.exists_eq_succ_of_ne_zero (n := b.length) (by omega)
  rw [decodeAll, hl, decodeLoop, h]
  simp only
  rw [decodeLoop_of_le (by omega)]

/-- A stream of encoded pairs is read back. -/
theorem decodeAll_encode (kvs : List KeyValue) :
    json.decodeAll (kvs.flatMap json.encode) = kvs.map json.textOf := by
  induction kvs with
  | nil => exact decodeAll_of_none json.decode_nil
  | cons kv kvs ih => rw [List.flatMap_cons, decodeAll_of_some (json.decode_encode kv _), ih]; rfl

end Json

/-! ### Files

A file system is a function from names to contents. Names are strings of bytes, and that the names
of a job are different comes down to how decimal numbers are printed: the two numbers in a name are
separated by a dash, which is not a digit. -/

/-- The contents of the files, by name. -/
abbrev FileSystem := GoString → Option (List Byte)

/-- `os.Create`: a new file, or an old one truncated. -/
def FileSystem.create (fs : FileSystem) (name : GoString) : FileSystem :=
  Function.update fs name (some [])

/-- A write at the end of an open file. -/
def FileSystem.append (fs : FileSystem) (name : GoString) (data : List Byte) : FileSystem :=
  Function.update fs name (some ((fs name).getD [] ++ data))

/-- The file of the output of a map task for a reduce task. -/
def reduceName (jobName : GoString) (mapTask reduceTask : ℕ) : GoString :=
  lit "mrtmp." ++ jobName ++ lit "-" ++ itoa mapTask ++ lit "-" ++ itoa reduceTask

/-- The file of the output of a reduce task. -/
def mergeName (jobName : GoString) (reduceTask : ℕ) : GoString :=
  lit "mrtmp." ++ jobName ++ lit "-res-" ++ itoa reduceTask

/-- The file `merge` creates. -/
def outName (jobName : GoString) : GoString := lit "mrtmp." ++ jobName

theorem lit_dash : lit "-" = [45] := by decide +kernel

theorem lit_res : lit "-res-" = 45 :: ([114, 101, 115] ++ [45]) := by decide +kernel

theorem dash_not_mem_itoa (n : ℕ) : (45 : Byte) ∉ itoa n := not_mem_itoa (Or.inl (by decide))

theorem reduceName_inj {jobName : GoString} {m r m' r' : ℕ} :
    reduceName jobName m r = reduceName jobName m' r' ↔ m = m' ∧ r = r' := by
  refine ⟨fun h => ?_, by rintro ⟨rfl, rfl⟩; rfl⟩
  simp only [reduceName, lit_dash, List.append_assoc, List.append_cancel_left_eq,
    List.singleton_append] at h
  obtain ⟨hm, _, hr⟩ := (List.append_cons_inj_of_notMem (dash_not_mem_itoa m)
    (dash_not_mem_itoa r)).mp (List.cons.inj h).2
  exact ⟨itoa_injective hm, itoa_injective hr⟩

theorem mergeName_inj {jobName : GoString} {r r' : ℕ} :
    mergeName jobName r = mergeName jobName r' ↔ r = r' := by
  refine ⟨fun h => ?_, by rintro rfl; rfl⟩
  simp only [mergeName, List.append_assoc, List.append_cancel_left_eq] at h
  exact itoa_injective h

theorem reduceName_ne_mergeName (jobName : GoString) (m r r' : ℕ) :
    reduceName jobName m r ≠ mergeName jobName r' := by
  intro h
  simp only [reduceName, mergeName, lit_dash, lit_res, List.append_assoc,
    List.append_cancel_left_eq, List.cons_append] at h
  have h : itoa m ++ 45 :: itoa r = [114, 101, 115] ++ 45 :: itoa r' := (List.cons.inj h).2
  obtain ⟨hm, _⟩ :=
    (List.append_cons_inj_of_notMem (dash_not_mem_itoa m) (dash_not_mem_itoa r)).mp h
  -- `r` is not a digit
  exact not_mem_itoa (n := m) (b := 114) (Or.inr (by decide)) (by rw [hm]; simp)

theorem reduceName_ne_outName (jobName : GoString) (m r : ℕ) :
    reduceName jobName m r ≠ outName jobName := by
  simp [reduceName, outName, lit_dash]

theorem mergeName_ne_outName (jobName : GoString) (r : ℕ) :
    mergeName jobName r ≠ outName jobName := by
  simp [mergeName, outName, lit_res]

/-! ### Tasks

The loops of the source are folds over lists of files and pairs. An error of the operating system is
not modelled beyond a file that does not exist. -/

/-- FNV-1a on 32 bits, `fnv.New32a`. -/
def fnv32a (s : GoString) : UInt32 :=
  s.foldl (fun h b => (h ^^^ UInt32.ofNat b.val) * 16777619) 2166136261

/-- `ihash`. -/
def ihash (s : GoString) : ℕ := (fnv32a s &&& 0x7fffffff).toNat

section Tasks

variable (json : Json) (sortSlice : UnstableSort KeyValue fun a b => a.key > b.key)

/-- The loop of `doMap` that creates the output files. -/
def createFiles (jobName : GoString) (mapTask nReduce : ℕ) (fs : FileSystem) : FileSystem :=
  (List.range nReduce).foldl (fun fs r => fs.create (reduceName jobName mapTask r)) fs

/-- The loop of `doMap` that writes the pairs. `ihash(kv.Key) % nReduce` panics for `nReduce = 0`.
-/
def writePairs (jobName : GoString) (mapTask nReduce : ℕ) (kvs : List KeyValue) (fs : FileSystem) :
    Option FileSystem :=
  kvs.foldlM (fun fs kv => if nReduce = 0 then none else
    some (fs.append (reduceName jobName mapTask (ihash kv.key % nReduce)) (json.encode kv))) fs

/-- `doMap`. -/
def doMap (jobName : GoString) (mapTask : ℕ) (inFile : GoString) (nReduce : ℕ)
    (mapF : GoString → GoString → List KeyValue) (fs : FileSystem) : Option FileSystem := do
  let fs := createFiles jobName mapTask nReduce fs
  let input ← fs inFile
  writePairs json jobName mapTask nReduce (mapF inFile input) fs

/-- The loop of `doReduce` over the sorted pairs and the write behind it, with the local variables
`previousKey` and `valueBuffer`; `first` is `i == 0`. The result is what is written, in this order.
-/
def reduceLoop (reduceF : GoString → List GoString → GoString) :
    Bool → GoString → List GoString → List KeyValue → List KeyValue
  | _, previousKey, valueBuffer, [] => [⟨previousKey, reduceF previousKey valueBuffer⟩]
  | first, previousKey, valueBuffer, v :: vs =>
    if v.key ≠ previousKey ∧ first = false then
      ⟨previousKey, reduceF previousKey valueBuffer⟩ :: reduceLoop reduceF false v.key [v.value] vs
    else reduceLoop reduceF false v.key (valueBuffer ++ [v.value]) vs

/-- What `doReduce` writes for the pairs it has read. -/
def reduceRecords (reduceF : GoString → List GoString → GoString) (inputArray : List KeyValue) :
    List KeyValue :=
  reduceLoop reduceF true [] [] (sortSlice.sort inputArray)

/-- The loop of `doReduce` that reads its input files, one for each map task. -/
def readInputs (jobName : GoString) (reduceTask nMap : ℕ) (fs : FileSystem) :
    Option (List KeyValue) :=
  ((List.range nMap).mapM fun m => (fs (reduceName jobName m reduceTask)).map json.decodeAll).map
    List.flatten

/-- The writes of `doReduce`. -/
def writeRecords (outFile : GoString) (kvs : List KeyValue) (fs : FileSystem) : FileSystem :=
  kvs.foldl (fun fs kv => fs.append outFile (json.encode kv)) fs

/-- `doReduce`. -/
def doReduce (jobName : GoString) (reduceTask : ℕ) (outFile : GoString) (nMap : ℕ)
    (reduceF : GoString → List GoString → GoString) (fs : FileSystem) : Option FileSystem := do
  let inputArray ← readInputs json jobName reduceTask nMap fs
  return writeRecords json outFile (reduceRecords sortSlice reduceF inputArray) (fs.create outFile)

/-- An assignment `kvs[kv.Key] = kv.Value` to a map, as the list of its entries. -/
def mapPut (kvs : List KeyValue) (kv : KeyValue) : List KeyValue :=
  kv :: kvs.filter fun e => e.key ≠ kv.key

/-- `kvs[k]`, the empty string if there is no entry. -/
def mapGet (kvs : List KeyValue) (k : GoString) : GoString :=
  ((kvs.find? fun e => e.key = k).map KeyValue.value).getD []

/-- `fmt.Fprintf(w, "%s: %s\n", k, kvs[k])`. -/
def printPair (kv : KeyValue) : List Byte := kv.key ++ lit ": " ++ kv.value ++ lit "\n"

/-- The pairs `merge` prints after it has read `records`: it ranges over the keys of the map in any
order, and sorts them. -/
def mergePairs (records : List KeyValue) : List KeyValue :=
  let kvs := records.foldl mapPut []
  (sortStrings (kvs.map KeyValue.key)).map fun k => ⟨k, mapGet kvs k⟩

/-- `Master.merge`, with the pairs it prints. -/
def merge (jobName : GoString) (nReduce : ℕ) (fs : FileSystem) :
    Option (List KeyValue × FileSystem) := do
  let records ← (List.range nReduce).mapM fun i => (fs (mergeName jobName i)).map json.decodeAll
  let pairs := mergePairs records.flatten
  return (pairs, Function.update fs (outName jobName) (some (pairs.flatMap printPair)))

end Tasks

/-- A job: the arguments of `Sequential`, with the standard library. -/
structure Job where
  json : Json
  sortSlice : UnstableSort KeyValue fun a b => a.key > b.key
  jobName : GoString
  /-- The input files, one for each map task. -/
  files : List GoString
  /-- The number of reduce tasks. -/
  nReduce : ℕ
  /-- From the name and the contents of a file to the pairs it emits. -/
  mapF : GoString → GoString → List KeyValue
  /-- From a key and its values to the value that is printed. -/
  reduceF : GoString → List GoString → GoString

namespace Job

variable (job : Job)

/-- `case mapPhase` of `Sequential`. -/
def mapPhase (fs : FileSystem) : Option FileSystem :=
  job.files.zipIdx.foldlM
    (fun fs fi => doMap job.json job.jobName fi.2 fi.1 job.nReduce job.mapF fs) fs

/-- `case reducePhase` of `Sequential`. -/
def reducePhase (fs : FileSystem) : Option FileSystem :=
  (List.range job.nReduce).foldlM (fun fs i => doReduce job.json job.sortSlice job.jobName i
    (mergeName job.jobName i) job.files.length job.reduceF fs) fs

/-- `Sequential`, which is `run` with the two phases above. -/
def sequential (fs : FileSystem) : Option (List KeyValue × FileSystem) := do
  let fs ← job.mapPhase fs
  let fs ← job.reducePhase fs
  merge job.json job.jobName job.nReduce fs

end Job

end MapReduce

end Distsys
