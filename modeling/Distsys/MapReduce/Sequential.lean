import Distsys.MapReduce.PlainJson
import Distsys.MapReduce.Tasks

/-!
# `Sequential` groups by key

The contents of every file of a job are determined by its inputs: `Job.bytes` for the output of a
map task, `Job.output` for that of a reduce task, `Job.pairs` for what `merge` prints. `Sequential`
produces just these, and from there on only lists are left.

A key goes to the one reduce task its hash says, so the record of that task has all its values and
no other task has a record of it. The exception is the empty string: a reduce task that has read
nothing writes a record for it too.

## Main definitions

* `Job.Admissible` — the inputs can be read and are not files of the job
* `Job.Readable` — what `Sequential` needs of this
* `Job.emits` — all pairs emitted by `mapF`
* `Job.bytes`, `Job.records`, `Job.output`, `Job.pairs`

## Main results

* `Job.sequential_spec`
* `Job.sequential_groups_by_key`
-/

namespace Distsys

namespace MapReduce

namespace Job

variable (job : Job)

/-! ### The contents of the files

Each is a function of the inputs. Whatever runs the tasks, in whatever order, has to arrive at
these. -/

/-- The input files exist, and no map task writes to one of them. -/
structure Readable (fs : FileSystem) : Prop where
  /-- There are reduce tasks. -/
  pos : 0 < job.nReduce
  /-- `doMap` exits the program if it cannot read its file. -/
  input : ∀ f ∈ job.files, ∃ contents, fs f = some contents
  ne_reduceName : ∀ f ∈ job.files, ∀ m < job.files.length, ∀ r < job.nReduce,
    f ≠ reduceName job.jobName m r

/-- The input files exist and are none of the job's own files. -/
structure Admissible (fs : FileSystem) : Prop extends job.Readable fs where
  ne_mergeName : ∀ f ∈ job.files, ∀ r < job.nReduce, f ≠ mergeName job.jobName r
  ne_outName : ∀ f ∈ job.files, f ≠ outName job.jobName

/-- The pairs that `mapF` emits for a file. -/
def emit (fs : FileSystem) (f : GoString) : List KeyValue := job.mapF f ((fs f).getD [])

/-- All pairs that `mapF` emits. -/
def emits (fs : FileSystem) : List KeyValue := job.files.flatMap (job.emit fs)

/-- The output of map task `m` for reduce task `r`. -/
def bytes (fs : FileSystem) (m r : ℕ) : List Byte :=
  (bucket job.nReduce r ((job.files[m]?.map (job.emit fs)).getD [])).flatMap job.json.encode

/-- What reduce task `r` writes. -/
def records (fs : FileSystem) (r : ℕ) : List KeyValue :=
  reduceRecords job.sortSlice job.reduceF
    ((List.range job.files.length).flatMap fun m => job.json.decodeAll (job.bytes fs m r))

/-- The output of reduce task `r`. -/
def output (fs : FileSystem) (r : ℕ) : List Byte := (job.records fs r).flatMap job.json.encode

/-- What `merge` prints. -/
def pairs (fs : FileSystem) : List KeyValue :=
  mergePairs ((List.range job.nReduce).flatMap fun r => job.json.decodeAll (job.output fs r))

variable {job} {fs₀ fs : FileSystem}

/-- A map task of the job, in a file system that has its input. -/
theorem doMap_spec (h : job.Readable fs₀) {m : ℕ} {f : GoString} (hf : job.files[m]? = some f)
    (hfs : fs f = fs₀ f) :
    ∃ fs', doMap job.json job.jobName m f job.nReduce job.mapF fs = some fs' ∧
      (∀ r < job.nReduce, fs' (reduceName job.jobName m r) = some (job.bytes fs₀ m r)) ∧
      ∀ name, (∀ r < job.nReduce, name ≠ reduceName job.jobName m r) → fs' name = fs name := by
  have hmem := List.mem_of_getElem? hf
  obtain ⟨contents, hin⟩ := h.input f hmem
  have hbytes : ∀ r, job.bytes fs₀ m r =
      (bucket job.nReduce r (job.mapF f contents)).flatMap job.json.encode := by
    intro r
    rw [bytes, hf, Option.map_some, Option.getD_some, emit, hin, Option.getD_some]
  simp only [hbytes]
  exact MapReduce.doMap_spec h.pos (hfs.trans hin)
    (h.ne_reduceName f hmem m (List.getElem?_eq_some_iff.mp hf).1)

/-- A reduce task of the job, in a file system that has the outputs of all map tasks. -/
theorem doReduce_eq {r : ℕ} (outFile : GoString)
    (h : ∀ m < job.files.length, fs (reduceName job.jobName m r) = some (job.bytes fs₀ m r)) :
    doReduce job.json job.sortSlice job.jobName r outFile job.files.length job.reduceF fs =
      some (Function.update fs outFile (some (job.output fs₀ r))) :=
  MapReduce.doReduce_eq h

/-- `merge`, in a file system that has the outputs of all reduce tasks. -/
theorem merge_eq (h : ∀ r < job.nReduce, fs (mergeName job.jobName r) = some (job.output fs₀ r)) :
    merge job.json job.jobName job.nReduce fs =
      some (job.pairs fs₀, Function.update fs (outName job.jobName)
        (some ((job.pairs fs₀).flatMap printPair))) :=
  MapReduce.merge_eq h

/-! ### `Sequential`

Map tasks do not read what others have written, and reduce tasks do not write what others read. So
each loop is described by the files it has written so far. -/

/-- The file system after `i` map tasks. -/
structure Mapped (job : Job) (fs₀ : FileSystem) (i : ℕ) (fs : FileSystem) : Prop where
  /-- The files of the first `i` tasks have their contents. -/
  written : ∀ m < i, ∀ r < job.nReduce,
    fs (reduceName job.jobName m r) = some (job.bytes fs₀ m r)
  /-- Other files are what they were. -/
  rest : ∀ name, (∀ m < job.files.length, ∀ r < job.nReduce, name ≠ reduceName job.jobName m r) →
    fs name = fs₀ name

/-- The loop over the input files, from file `i` on. -/
theorem mapPhase_from (h : job.Readable fs₀) {i : ℕ} {files : List GoString}
    (hfiles : ∀ j, files[j]? = job.files[i + j]?) (hfs : Mapped job fs₀ i fs) :
    ∃ fs', (files.zipIdx i).foldlM (fun fs fi => doMap job.json job.jobName fi.2 fi.1 job.nReduce
        job.mapF fs) fs = some fs' ∧ Mapped job fs₀ (i + files.length) fs' := by
  induction files generalizing i fs with
  | nil => exact ⟨fs, rfl, hfs⟩
  | cons f files ih =>
    have hf : job.files[i]? = some f := (hfiles 0).symm
    have hinput := hfs.rest f (h.ne_reduceName f (List.mem_of_getElem? hf))
    obtain ⟨fs₁, hmap, hwritten, hrest⟩ := doMap_spec h hf hinput
    have hfs₁ : Mapped job fs₀ (i + 1) fs₁ := by
      refine ⟨fun m hm r hr => ?_, fun name hname => ?_⟩
      · rcases Nat.lt_succ_iff_lt_or_eq.mp hm with hlt | rfl
        · rw [hrest _ fun r' _ heq => hlt.ne (reduceName_inj.mp heq).1]
          exact hfs.written m hlt r hr
        · exact hwritten r hr
      · rw [hrest name (hname i (List.getElem?_eq_some_iff.mp hf).1)]
        exact hfs.rest name hname
    obtain ⟨fs', hfold, hfs'⟩ := ih (fun j => by
      have := hfiles (j + 1)
      rwa [List.getElem?_cons_succ, show i + (j + 1) = i + 1 + j by omega] at this) hfs₁
    refine ⟨fs', ?_, ?_⟩
    · rw [List.zipIdx_cons, List.foldlM_cons, hmap]
      exact hfold
    · rwa [List.length_cons, show i + (files.length + 1) = i + 1 + files.length by omega]

theorem mapPhase_spec (h : job.Readable fs₀) :
    ∃ fs, job.mapPhase fs₀ = some fs ∧ Mapped job fs₀ job.files.length fs := by
  have hstart : Mapped job fs₀ 0 fs₀ := ⟨nofun, fun _ _ => rfl⟩
  have hfiles : ∀ j, job.files[j]? = job.files[0 + j]? := fun j => by rw [Nat.zero_add]
  obtain ⟨fs, hfold, hfs⟩ := mapPhase_from h hfiles hstart
  exact ⟨fs, hfold, by rwa [Nat.zero_add] at hfs⟩

/-- The loop over the reduce tasks. -/
theorem reducePhase_spec (hfs : Mapped job fs₀ job.files.length fs) :
    ∃ fs', job.reducePhase fs = some fs' ∧
      (∀ r < job.nReduce, fs' (mergeName job.jobName r) = some (job.output fs₀ r)) := by
  have hfold : ∀ n ≤ job.nReduce, ∃ fs', (List.range n).foldlM (fun fs i => doReduce job.json
        job.sortSlice job.jobName i (mergeName job.jobName i) job.files.length job.reduceF fs) fs =
          some fs' ∧
      (∀ r < n, fs' (mergeName job.jobName r) = some (job.output fs₀ r)) ∧
      ∀ m r, fs' (reduceName job.jobName m r) = fs (reduceName job.jobName m r) := by
    intro n
    induction n with
    | zero => exact fun _ => ⟨fs, rfl, nofun, fun _ _ => rfl⟩
    | succ n ih =>
      intro hn
      obtain ⟨fs', hfs', hdone, hkept⟩ := ih (by omega)
      have hfiles : ∀ m < job.files.length, fs' (reduceName job.jobName m n) =
          some (job.bytes fs₀ m n) := by
        intro m hm
        rw [hkept]
        exact hfs.written m hm n (by omega)
      have hreduce := doReduce_eq (mergeName job.jobName n) hfiles
      refine ⟨Function.update fs' (mergeName job.jobName n) (some (job.output fs₀ n)), ?_,
        fun r hr => ?_, fun m r => ?_⟩
      · rw [List.range_succ, List.foldlM_append, hfs']
        simp only [List.foldlM_cons, List.foldlM_nil, Option.bind_eq_bind, Option.bind_some,
          hreduce]
        rfl
      · rcases Nat.lt_succ_iff_lt_or_eq.mp hr with hlt | rfl
        · rw [Function.update_of_ne fun heq => hlt.ne (mergeName_inj.mp heq)]
          exact hdone r hlt
        · rw [Function.update_self]
      · rw [Function.update_of_ne (reduceName_ne_mergeName job.jobName m r n), hkept]
  obtain ⟨fs', hfs', hdone, _⟩ := hfold job.nReduce (le_refl _)
  exact ⟨fs', hfs', hdone⟩

/-- **`Sequential`** returns, and leaves the outputs of the job. -/
theorem sequential_spec (h : job.Readable fs₀) :
    ∃ fs, job.sequential fs₀ = some (job.pairs fs₀, fs) ∧
      (∀ r < job.nReduce, fs (mergeName job.jobName r) = some (job.output fs₀ r)) ∧
      fs (outName job.jobName) = some ((job.pairs fs₀).flatMap printPair) := by
  obtain ⟨fs₁, hmap, hfs₁⟩ := mapPhase_spec h
  obtain ⟨fs₂, hreduce, hfs₂⟩ := reducePhase_spec hfs₁
  refine ⟨Function.update fs₂ (outName job.jobName) (some ((job.pairs fs₀).flatMap printPair)), ?_,
    fun r hr => ?_, Function.update_self ..⟩
  · rw [sequential, hmap]
    simp only [Option.bind_eq_bind, Option.bind_some, hreduce]
    exact merge_eq hfs₂
  · rw [Function.update_of_ne (mergeName_ne_outName job.jobName r)]
    exact hfs₂ r hr

/-! ### Grouping

What is left is about lists. All pairs with one key are in one bucket, sorting a bucket puts them
side by side, and `merge` prints the records of all buckets in the order of their keys. -/

theorem flatMap_range_getElem? {β γ δ : Type} (l : List β) (F : β → γ) (d : γ) (g : γ → List δ) :
    ((List.range l.length).flatMap fun m => g ((l[m]?.map F).getD d)) =
      l.flatMap fun x => g (F x) := by
  rw [List.flatMap_def, List.flatMap_def]
  congr 1
  apply List.ext_getElem
  · simp
  · intro i _ hi
    simp at hi
    simp [hi]

/-- What reduce task `r` reads. -/
theorem records_eq (job : Job) (fs : FileSystem) (r : ℕ) :
    job.records fs r = reduceRecords job.sortSlice job.reduceF
      ((bucket job.nReduce r (job.emits fs)).map job.json.textOf) := by
  have hread : ((List.range job.files.length).flatMap fun m =>
        job.json.decodeAll (job.bytes fs m r)) =
      (bucket job.nReduce r (job.emits fs)).map job.json.textOf := by
    simp only [bytes, Json.decodeAll_encode]
    rw [flatMap_range_getElem? job.files (job.emit fs) []
      fun kvs => (bucket job.nReduce r kvs).map job.json.textOf]
    simp only [emits, bucket, List.filter_flatMap, List.map_flatMap]
  rw [records, hread]

theorem pairs_eq (job : Job) (fs : FileSystem) :
    job.pairs fs = mergePairs ((List.range job.nReduce).flatMap fun r =>
      (job.records fs r).map job.json.textOf) := by
  simp only [pairs, output, Json.decodeAll_encode]

/-- All values of a key are in one bucket. -/
theorem valuesOf_bucket {nReduce r : ℕ} {k : GoString} {kvs : List KeyValue}
    (h : k ∈ (bucket nReduce r kvs).map KeyValue.key) :
    valuesOf k (bucket nReduce r kvs) = valuesOf k kvs := by
  obtain ⟨kv, hkv, rfl⟩ := List.mem_map.mp h
  have hr : ihash kv.key % nReduce = r := by simpa using (List.mem_filter.mp hkv).2
  rw [valuesOf, bucket, List.filter_filter, valuesOf]
  congr 1
  refine List.filter_congr fun e _ => ?_
  by_cases he : e.key = kv.key
  · simp [he, hr]
  · simp [he]

/-- The hash decides on the bucket. -/
theorem mem_bucket_key {nReduce r : ℕ} {k : GoString} {kvs : List KeyValue} :
    k ∈ (bucket nReduce r kvs).map KeyValue.key ↔
      k ∈ kvs.map KeyValue.key ∧ ihash k % nReduce = r := by
  simp only [bucket, List.mem_map, List.mem_filter, decide_eq_true_eq]
  constructor
  · rintro ⟨kv, ⟨hkv, hr⟩, rfl⟩
    exact ⟨⟨kv, hkv, rfl⟩, hr⟩
  · rintro ⟨⟨kv, hkv, rfl⟩, hr⟩
    exact ⟨kv, ⟨hkv, hr⟩, rfl⟩

section RoundTrip

variable (hemit : ∀ kv ∈ job.emits fs, job.json.textOf kv = kv)

include hemit

theorem text_emitted {k : GoString} (h : k ∈ (job.emits fs).map KeyValue.key) :
    job.json.text k = k := by
  obtain ⟨kv, hkv, rfl⟩ := List.mem_map.mp h
  exact congrArg KeyValue.key (hemit kv hkv)

/-- What a reduce task has read is what was emitted. -/
theorem records_of_text (r : ℕ) : job.records fs r =
    reduceRecords job.sortSlice job.reduceF (bucket job.nReduce r (job.emits fs)) := by
  rw [records_eq, List.map_congr_left (g := id), List.map_id]
  exact fun kv hkv => hemit kv (List.mem_of_mem_filter hkv)

/-- The key of a record, as `merge` reads it, is empty or was emitted. -/
theorem key_of_text {r : ℕ} {rec : KeyValue} (hrec : rec ∈ job.records fs r)
    (hk : job.json.text rec.key ≠ []) : job.json.text rec.key = rec.key ∧
      rec.key ∈ (bucket job.nReduce r (job.emits fs)).map KeyValue.key := by
  have hne : rec.key ≠ [] := fun hnil => hk (by rw [hnil, job.json.text_nil])
  rw [records_of_text hemit] at hrec
  have hin := (reduceRecords_spec job.reduceF _ hne).1.mp (List.mem_map_of_mem hrec)
  exact ⟨text_emitted hemit (mem_bucket_key.mp hin).1, hin⟩

/-- A pair that `merge` reads with a key other than the empty string is the record of this key. -/
theorem exists_record {k v : GoString} (hk : k ≠ [])
    (h : ⟨k, v⟩ ∈ (List.range job.nReduce).flatMap fun r =>
      (job.records fs r).map job.json.textOf) :
    ∃ r w, ⟨k, w⟩ ∈ job.records fs r ∧ v = job.json.text w ∧
      k ∈ (bucket job.nReduce r (job.emits fs)).map KeyValue.key := by
  obtain ⟨r, _, he⟩ := List.mem_flatMap.mp h
  obtain ⟨rec, hrec, heq⟩ := List.mem_map.mp he
  obtain ⟨hkey, hval⟩ := KeyValue.mk.inj heq
  obtain ⟨htext, hin⟩ := key_of_text hemit hrec (hkey ▸ hk)
  obtain rfl : rec.key = k := htext.symm.trans hkey
  exact ⟨r, rec.value, hrec, hval.symm, hin⟩

/-- The keys that are printed are those that were emitted. -/
theorem mem_keys_pairs_iff (hpos : 0 < job.nReduce) {k : GoString} (hk : k ≠ []) :
    k ∈ (job.pairs fs).map KeyValue.key ↔ k ∈ (job.emits fs).map KeyValue.key := by
  rw [pairs_eq, (mergePairs_spec _).2.1]
  constructor
  · intro hin
    obtain ⟨e, he, rfl⟩ := List.mem_map.mp hin
    obtain ⟨r, w, _, _, hin⟩ := exists_record hemit hk he
    exact (mem_bucket_key.mp hin).1
  · intro hin
    have hmem : k ∈ (job.records fs (ihash k % job.nReduce)).map KeyValue.key := by
      rw [records_of_text hemit, (reduceRecords_spec job.reduceF _ hk).1]
      exact mem_bucket_key.mpr ⟨hin, rfl⟩
    obtain ⟨rec, hrec, rfl⟩ := List.mem_map.mp hmem
    refine List.mem_map.mpr ⟨job.json.textOf rec, ?_, text_emitted hemit hin⟩
    exact List.mem_flatMap.mpr
      ⟨_, List.mem_range.mpr (Nat.mod_lt _ hpos), List.mem_map_of_mem hrec⟩

/-- The value that is printed with a key, before `encoding/json` has seen it. -/
theorem value_of_mem_pairs {k v : GoString} (hk : k ≠ []) (h : ⟨k, v⟩ ∈ job.pairs fs) :
    k ∈ (job.emits fs).map KeyValue.key ∧ ∃ vs, vs.Perm (valuesOf k (job.emits fs)) ∧
      v = job.json.text (job.reduceF k vs) := by
  rw [pairs_eq] at h
  obtain ⟨r, w, hrec, rfl, hin⟩ := exists_record hemit hk ((mergePairs_spec _).2.2 _ h)
  rw [records_of_text hemit] at hrec
  obtain ⟨vs, hperm, hres⟩ := (reduceRecords_spec job.reduceF _ hk).2 _ hrec rfl
  rw [valuesOf_bucket hin] at hperm
  exact ⟨(mem_bucket_key.mp hin).1, vs, hperm, congrArg job.json.text hres⟩

end RoundTrip

/-- **MapReduce groups by key.** `Sequential` returns; the keys it prints are strictly ascending;
and a key other than the empty string is printed exactly if it was emitted, then once, with the
result of `reduceF` on all the values emitted with it, in some order. It is assumed that the inputs
can be read and are not files of the job, and that `encoding/json` gives back every key and value
emitted and every result. -/
theorem sequential_groups_by_key (job : Job) (fs : FileSystem) (h : job.Admissible fs)
    (hemit : ∀ kv ∈ job.emits fs, job.json.textOf kv = kv)
    (hresult : ∀ k ∈ (job.emits fs).map KeyValue.key, ∀ vs, vs.Perm (valuesOf k (job.emits fs)) →
      job.json.text (job.reduceF k vs) = job.reduceF k vs) :
    ∃ pairs fs', job.sequential fs = some (pairs, fs') ∧
      fs' (outName job.jobName) = some (pairs.flatMap printPair) ∧
      (pairs.map KeyValue.key).Pairwise (· < ·) ∧
      ∀ k, k ≠ [] →
        (k ∈ pairs.map KeyValue.key ↔ k ∈ (job.emits fs).map KeyValue.key) ∧
        (k ∈ (job.emits fs).map KeyValue.key → (pairs.map KeyValue.key).count k = 1) ∧
        ∀ v, ⟨k, v⟩ ∈ pairs →
          ∃ vs, vs.Perm (valuesOf k (job.emits fs)) ∧ v = job.reduceF k vs := by
  obtain ⟨fs', hseq, _, hout⟩ := sequential_spec h.toReadable
  have hsorted : ((job.pairs fs).map KeyValue.key).Pairwise (· < ·) := by
    rw [pairs_eq]
    exact (mergePairs_spec _).1
  refine ⟨job.pairs fs, fs', hseq, hout, hsorted, fun k hk => ⟨mem_keys_pairs_iff hemit h.pos hk,
    fun hin => ?_, fun v hv => ?_⟩⟩
  · exact List.count_eq_one_of_mem (hsorted.imp ne_of_lt)
      ((mem_keys_pairs_iff hemit h.pos hk).mpr hin)
  · obtain ⟨hin, vs, hperm, rfl⟩ := value_of_mem_pairs hemit hk hv
    exact ⟨vs, hperm, hresult k hin vs hperm⟩

/-- No input of `letters` is a file of the job: the names of these begin with an `m`. -/
theorem letters_admissible : letters.Admissible letterFiles := by
  have hhead : ∀ f ∈ letters.files, ∀ s, f ≠ GoString.lit "mrtmp." ++ s := by
    intro f hf s h
    have hm : (GoString.lit "mrtmp." ++ s).head? = some 109 := by
      rw [show GoString.lit "mrtmp." = 109 :: [114, 116, 109, 112, 46] by decide +kernel]
      rfl
    have hne : ∀ f ∈ letters.files, f.head? ≠ some 109 := by decide +kernel
    exact hne f hf (h ▸ hm)
  have hinput : ∀ f ∈ letters.files, (letterFiles f).isSome := by decide +kernel
  refine ⟨⟨by decide, fun f hf => Option.isSome_iff_exists.mp (hinput f hf),
    fun f hf m _ r _ => ?_⟩, fun f hf r _ => ?_, fun f hf => ?_⟩
  · rw [reduceName]
    simp only [List.append_assoc]
    exact hhead f hf _
  · rw [mergeName]
    simp only [List.append_assoc]
    exact hhead f hf _
  · exact hhead f hf _

/-- In the job `letters` the letter `x` is printed once, with the number of its three occurrences.
-/
theorem sequential_groups_by_key_letters :
    ∃ pairs fs', letters.sequential letterFiles = some (pairs, fs') ∧
      (pairs.map KeyValue.key).count (GoString.lit "x") = 1 ∧
      ∀ v, ⟨GoString.lit "x", v⟩ ∈ pairs → ∃ vs : List GoString,
        vs.Perm [GoString.lit "1", GoString.lit "1", GoString.lit "1"] ∧
          v = GoString.itoa vs.length := by
  obtain ⟨pairs, fs', hseq, _, _, hkey⟩ := sequential_groups_by_key letters letterFiles
    letters_admissible (fun _ _ => rfl) fun _ _ _ _ => rfl
  obtain ⟨_, hcount, hvalue⟩ := hkey (GoString.lit "x") (by decide +kernel)
  have hvalues : valuesOf (GoString.lit "x") (letters.emits letterFiles) =
      [GoString.lit "1", GoString.lit "1", GoString.lit "1"] := by decide +kernel
  rw [hvalues] at hvalue
  exact ⟨pairs, fs', hseq, hcount (by decide +kernel), hvalue⟩

end Job

end MapReduce

end Distsys
