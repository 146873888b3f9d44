import Distsys.Lib.GoText
import Distsys.MapReduce.Sequential

/-!
# Word count and the inverted index

The two applications, `wc.go` and `ii.go`. Both split a file into words; `wc` emits each with the
value `1` and adds up the values of a word, `ii` emits it with the name of the file and lists the
different names.

The order in which a reduce task reads the values of a key is not determined: it depends on the
order of the input files, and `sort.Slice` may exchange pairs with the same key. A sum does not
depend on it, and the different names are sorted. So what is printed depends only on the input files
as a multiset.

## Main definitions

* `wcMapF`, `wcReduceF`, `iiMapF`, `iiReduceF`
* `Job.wc`, `Job.ii`

## Main results

* `reduceRecords_perm`, `Job.pairs_perm`
* `wcReduceF_perm`, `iiReduceF_perm`
* `Job.sequential_input_order`
-/

namespace Distsys

namespace MapReduce

open GoString

/-! ### `wc.go`

The reduce function converts the values with `strconv.Atoi` and adds them up, modulo `2 ^ 64` as Go
does. A value that is no number makes it panic; the map function emits none. -/

/-- The words of a text. -/
def words (isLetter : ℕ → Bool) (contents : GoString) : List GoString :=
  fieldsFunc contents fun char => !isLetter char

/-- `mapF` of `wc.go`. -/
def wcMapF (isLetter : ℕ → Bool) (_filename contents : GoString) : List KeyValue :=
  (words isLetter contents).map fun word => ⟨word, lit "1"⟩

/-- The loop of `reduceF`; `none` if it panics. -/
def sumValues : ℤ → List GoString → Option ℤ
  | result, [] => some result
  | result, v :: values => do
    let number ← atoi v
    sumValues (wrap64 (result + number)) values

/-- `reduceF` of `wc.go`. -/
def wcReduceF (_key : GoString) (values : List GoString) : Option GoString :=
  (sumValues 0 values).map itoaInt

theorem sumValues_perm {values values' : List GoString} (h : values.Perm values') (result : ℤ) :
    sumValues result values = sumValues result values' := by
  induction h generalizing result with
  | nil => rfl
  | cons v _ ih => exact bind_congr fun number => ih _
  | swap v w values =>
    simp only [sumValues, Option.bind_eq_bind]
    rw [Option.bind_comm]
    refine Option.bind_congr fun m _ => Option.bind_congr fun n _ => ?_
    rw [wrap64_wrap64_add, wrap64_wrap64_add, add_right_comm]
  | trans _ _ ih₁ ih₂ => exact (ih₁ result).trans (ih₂ result)

/-- The sum of the values does not depend on their order. -/
theorem wcReduceF_perm {values values' : List GoString} (h : values.Perm values')
    (key : GoString) : wcReduceF key values = wcReduceF key values' := by
  rw [wcReduceF, wcReduceF, sumValues_perm h]

theorem atoi_one : atoi (lit "1") = some 1 := by decide +kernel

theorem sumValues_ones {values : List GoString} (h : ∀ v ∈ values, v = lit "1") (result : ℤ) :
    ∃ sum, sumValues result values = some sum := by
  induction values generalizing result with
  | nil => exact ⟨result, rfl⟩
  | cons v values ih =>
    obtain ⟨rfl, hvalues⟩ := List.forall_mem_cons.mp h
    obtain ⟨sum, hsum⟩ := ih hvalues (wrap64 (result + 1))
    refine ⟨sum, ?_⟩
    rw [sumValues, atoi_one]
    exact hsum

/-- `reduceF` does not panic on the values that `mapF` emits. -/
theorem exists_wcReduceF {values : List GoString} (h : ∀ v ∈ values, v = lit "1")
    (key : GoString) : ∃ result, wcReduceF key values = some result := by
  obtain ⟨sum, hsum⟩ := sumValues_ones h 0
  exact ⟨itoaInt sum, by rw [wcReduceF, hsum, Option.map_some]⟩

/-! ### `ii.go`

The reduce function goes through the names with a map of those it has seen, appends each new one to
a list, and sorts the list. -/

/-- `mapF` of `ii.go`. -/
def iiMapF (isLetter : ℕ → Bool) (filename contents : GoString) : List KeyValue :=
  (words isLetter contents).map fun word => ⟨word, filename⟩

/-- The loop of `reduceF`, with the map `wordCache` and `valuesUnique`. -/
def uniqueLoop (wordCache : GoString → Bool) (valuesUnique : List GoString) :
    List GoString → List GoString
  | [] => valuesUnique
  | filename :: values =>
    if wordCache filename then uniqueLoop wordCache valuesUnique values
    else uniqueLoop (Function.update wordCache filename true) (valuesUnique ++ [filename]) values

/-- `reduceF` of `ii.go`. -/
def iiReduceF (sortNames : UnstableSort GoString fun a b => a < b) (_key : GoString)
    (values : List GoString) : GoString :=
  let valuesUnique := sortNames.sort (uniqueLoop (fun _ => false) [] values)
  itoa valuesUnique.length ++ lit " " ++ join valuesUnique (lit ",")

/-- The map has the names that are in the list. -/
theorem uniqueLoop_spec {wordCache : GoString → Bool} {valuesUnique : List GoString}
    (hcache : ∀ name, wordCache name = true ↔ name ∈ valuesUnique) (hnodup : valuesUnique.Nodup)
    (values : List GoString) : (uniqueLoop wordCache valuesUnique values).Nodup ∧
      ∀ name, name ∈ uniqueLoop wordCache valuesUnique values ↔
        name ∈ valuesUnique ∨ name ∈ values := by
  induction values generalizing wordCache valuesUnique with
  | nil => exact ⟨hnodup, by simp [uniqueLoop]⟩
  | cons filename values ih =>
    rw [uniqueLoop]
    split
    · rename_i hin
      obtain ⟨hn, hmem⟩ := ih hcache hnodup
      refine ⟨hn, fun name => ?_⟩
      rw [hmem, List.mem_cons]
      have := (hcache filename).mp hin
      constructor
      · rintro (h | h)
        · exact Or.inl h
        · exact Or.inr (Or.inr h)
      · rintro (h | rfl | h)
        · exact Or.inl h
        · exact Or.inl this
        · exact Or.inr h
    · rename_i hout
      have hnot : filename ∉ valuesUnique := mt (hcache filename).mpr hout
      have hcache' : ∀ name, Function.update wordCache filename true name = true ↔
          name ∈ valuesUnique ++ [filename] := by
        intro name
        rcases eq_or_ne name filename with rfl | hne
        · simp
        · simp [hcache, hne]
      have hnodup' : (valuesUnique ++ [filename]).Nodup :=
        List.nodup_append'.mpr ⟨hnodup, List.nodup_singleton _, List.disjoint_singleton.mpr hnot⟩
      obtain ⟨hn, hmem⟩ := ih hcache' hnodup'
      refine ⟨hn, fun name => ?_⟩
      rw [hmem, List.mem_append, List.mem_singleton, List.mem_cons, or_assoc]

/-- Different strings are sorted in one way. -/
theorem sort_unique {sort sort' : UnstableSort GoString fun a b => a < b} {l l' : List GoString}
    (h : l.Perm l') : sort.sort l = sort'.sort l' := by
  have hle : ∀ (s : UnstableSort GoString fun a b => a < b) (l : List GoString),
      (s.sort l).Pairwise (· ≤ ·) := fun s l => (s.sorted l).imp not_lt.mp
  exact List.Perm.eq_of_pairwise (fun _ _ _ _ => le_antisymm) (hle sort l) (hle sort' l')
    ((sort.perm l).trans (h.trans (sort'.perm l').symm))

/-- The list of names does not depend on the order of the values. -/
theorem iiReduceF_perm {sortNames sortNames' : UnstableSort GoString fun a b => a < b}
    {values values' : List GoString} (h : values.Perm values') (key : GoString) :
    iiReduceF sortNames key values = iiReduceF sortNames' key values' := by
  have hnone : ∀ name : GoString, (fun _ => false : GoString → Bool) name = true ↔
      name ∈ ([] : List GoString) := by simp
  have hspec := uniqueLoop_spec hnone List.nodup_nil
  have hperm : (uniqueLoop (fun _ => false) [] values).Perm
      (uniqueLoop (fun _ => false) [] values') := by
    refine (List.perm_ext_iff_of_nodup (hspec values).1 (hspec values').1).mpr fun name => ?_
    rw [(hspec values).2, (hspec values').2, h.mem_iff]
  rw [iiReduceF, iiReduceF, sort_unique hperm]

/-! ### The order of the inputs

If the reduce function does not depend on the order of its values, then the whole output does not
depend on the order of the files: the pairs of all map tasks are the same up to order, and so are
the values of each key. -/

/-- The records of a reduce task do not depend on the order of the pairs it has read, if `reduceF`
does not depend on the order of the values. -/
theorem reduceRecords_perm {sortSlice sortSlice' : UnstableSort KeyValue fun a b => a.key > b.key}
    {reduceF reduceF' : GoString → List GoString → GoString}
    (hreduceF : ∀ k vs vs', vs.Perm vs' → reduceF k vs = reduceF' k vs') {kvs kvs' : List KeyValue}
    (h : kvs.Perm kvs') :
    reduceRecords sortSlice reduceF kvs = reduceRecords sortSlice' reduceF' kvs' := by
  rcases eq_or_ne kvs [] with rfl | hne
  · rw [← h.nil_eq, reduceRecords_nil, reduceRecords_nil, hreduceF [] [] [] .nil]
  · have hne' : kvs' ≠ [] := fun hnil => hne (hnil ▸ h).eq_nil
    obtain ⟨keys, hdesc, hmem, heq⟩ := reduceRecords_eq sortSlice reduceF hne
    obtain ⟨keys', hdesc', hmem', heq'⟩ := reduceRecords_eq sortSlice' reduceF' hne'
    have hkeys : keys = keys' := by
      refine List.Perm.eq_of_pairwise (fun a b _ _ hab hba => absurd hab hba.asymm) hdesc hdesc' ?_
      refine (List.perm_ext_iff_of_nodup (hdesc.imp ne_of_gt) (hdesc'.imp ne_of_gt)).mpr
        fun k => ?_
      rw [hmem, hmem', (h.map KeyValue.key).mem_iff]
    rw [heq, heq', hkeys]
    refine List.map_congr_left fun k _ => ?_
    rw [hreduceF k _ _ (valuesOf_perm ((sortSlice.perm kvs).trans
      (h.trans (sortSlice'.perm kvs').symm)) k)]

namespace Job

/-- **What is printed** does not depend on the order of the input files. -/
theorem pairs_perm {job job' : Job} {fs : FileSystem} (hjson : job'.json = job.json)
    (hnReduce : job'.nReduce = job.nReduce) (hmapF : job'.mapF = job.mapF)
    (hreduceF : ∀ k vs vs', vs.Perm vs' → job'.reduceF k vs = job.reduceF k vs')
    (hfiles : job'.files.Perm job.files) : job'.pairs fs = job.pairs fs := by
  have hemits : (job'.emits fs).Perm (job.emits fs) := by
    rw [emits, emits, show job'.emit fs = job.emit fs by funext f; rw [emit, emit, hmapF]]
    exact hfiles.flatMap_right _
  have hrecords : ∀ r, job'.records fs r = job.records fs r := by
    intro r
    rw [records_eq, records_eq, hjson, hnReduce]
    exact reduceRecords_perm hreduceF ((hemits.filter _).map _)
  simp only [pairs_eq, hrecords, hjson, hnReduce]

variable (isLetter : ℕ → Bool) (json : Json)
  (sortSlice sortSlice' : UnstableSort KeyValue fun a b => a.key > b.key)
  (sortNames sortNames' : UnstableSort GoString fun a b => a < b) (jobName : GoString)
  (files files' : List GoString) (nReduce : ℕ)

/-- The job of `wc.go`. It has no use for the result of a call of `reduceF` that panics. -/
def wc : Job where
  json := json
  sortSlice := sortSlice
  jobName := jobName
  files := files
  nReduce := nReduce
  mapF := wcMapF isLetter
  reduceF key values := (wcReduceF key values).getD []

/-- The job of `ii.go`. -/
def ii : Job where
  json := json
  sortSlice := sortSlice
  jobName := jobName
  files := files
  nReduce := nReduce
  mapF := iiMapF isLetter
  reduceF := iiReduceF sortNames

/-- Both jobs return, and write the same merged file. -/
def SameOutput (job job' : Job) (fs : FileSystem) : Prop :=
  ∃ pairs fs₁ fs₂, job.sequential fs = some (pairs, fs₁) ∧ job'.sequential fs = some (pairs, fs₂) ∧
    fs₁ (outName job.jobName) = some (pairs.flatMap printPair) ∧
    fs₂ (outName job'.jobName) = some (pairs.flatMap printPair)

variable {job job' : Job} {fs : FileSystem}

theorem Readable.sameOutput (h : job.Readable fs) (h' : job'.Readable fs)
    (hpairs : job'.pairs fs = job.pairs fs) : SameOutput job job' fs := by
  obtain ⟨fs₁, hseq, -, hout⟩ := sequential_spec h
  obtain ⟨fs₂, hseq', -, hout'⟩ := sequential_spec h'
  rw [hpairs] at hseq' hout'
  exact ⟨job.pairs fs, fs₁, fs₂, hseq, hseq', hout, hout'⟩

/-- The files in another order. -/
theorem Readable.perm (h : job.Readable fs) (hjobName : job'.jobName = job.jobName)
    (hnReduce : job'.nReduce = job.nReduce) (hfiles : job'.files.Perm job.files) :
    job'.Readable fs where
  pos := hnReduce ▸ h.pos
  input f hf := h.input f (hfiles.mem_iff.mp hf)
  ne_reduceName f hf m hm r hr := by
    rw [hjobName]
    exact h.ne_reduceName f (hfiles.mem_iff.mp hf) m (hfiles.length_eq ▸ hm) r (hnReduce ▸ hr)

variable {isLetter json sortSlice sortSlice' sortNames sortNames' jobName files files' nReduce}

/-- The values that a reduce task of `wc` reads. -/
theorem wc_values (hone : json.text (lit "1") = lit "1") {r : ℕ} {kv : KeyValue}
    (h : kv ∈ (bucket nReduce r ((wc isLetter json sortSlice jobName files nReduce).emits fs)).map
      json.textOf) : kv.value = lit "1" := by
  obtain ⟨kv', hkv', rfl⟩ := List.mem_map.mp h
  obtain ⟨f, -, hemit⟩ := List.mem_flatMap.mp (List.mem_of_mem_filter hkv')
  obtain ⟨word, -, rfl⟩ := List.mem_map.mp hemit
  exact hone

/-- **No call of `reduceF` panics**: every record is what a call has returned. -/
theorem wc_records (hone : json.text (lit "1") = lit "1") {r : ℕ} {rec : KeyValue}
    (h : rec ∈ (wc isLetter json sortSlice jobName files nReduce).records fs r) :
    ∃ vs, wcReduceF rec.key vs = some rec.value := by
  rw [records_eq] at h
  set kvs := (bucket nReduce r ((wc isLetter json sortSlice jobName files nReduce).emits fs)).map
    json.textOf with hkvs
  have hcall : ∀ (k : GoString) (vs : List GoString), (∀ v ∈ vs, v = lit "1") →
      wcReduceF k vs = some ((wcReduceF k vs).getD []) := by
    intro k vs hvs
    obtain ⟨result, hresult⟩ := exists_wcReduceF hvs k
    rw [hresult, Option.getD_some]
  rcases eq_or_ne kvs [] with hnil | hne
  · have h : rec ∈ reduceRecords sortSlice (fun key values => (wcReduceF key values).getD []) kvs :=
      h
    rw [hnil, reduceRecords_nil] at h
    rw [List.mem_singleton.mp h]
    exact ⟨[], hcall [] [] nofun⟩
  · obtain ⟨keys, -, -, heq⟩ := reduceRecords_eq sortSlice
      (fun key values => (wcReduceF key values).getD []) hne
    have h : rec ∈ keys.map fun k => ⟨k, (wcReduceF k (valuesOf k (sortSlice.sort kvs))).getD []⟩ :=
      heq ▸ h
    obtain ⟨k, -, rfl⟩ := List.mem_map.mp h
    refine ⟨_, hcall k (valuesOf k (sortSlice.sort kvs)) fun v hv => ?_⟩
    obtain ⟨kv, hkv, rfl⟩ := List.mem_map.mp hv
    exact wc_values hone ((sortSlice.perm kvs).mem_iff.mp (List.mem_of_mem_filter hkv))

/-- **The order of the inputs does not matter.** For both applications, two runs of `Sequential` on
the same files in different order return and write the same merged file, even if `sort.Slice` does
something different with equal keys; and no call of `reduceF` in `wc.go` panics. It is assumed that
the files can be read, that no map task writes to one of them, and that `encoding/json` gives back
the string `1`. -/
theorem sequential_input_order (isLetter : ℕ → Bool) (json : Json)
    (sortSlice sortSlice' : UnstableSort KeyValue fun a b => a.key > b.key)
    (sortNames sortNames' : UnstableSort GoString fun a b => a < b) (jobName : GoString)
    (files files' : List GoString) (nReduce : ℕ) (fs : FileSystem) (hfiles : files'.Perm files)
    (hone : json.text (lit "1") = lit "1")
    (h : (wc isLetter json sortSlice jobName files nReduce).Readable fs) :
    SameOutput (wc isLetter json sortSlice jobName files nReduce)
      (wc isLetter json sortSlice' jobName files' nReduce) fs ∧
    (∀ r, ∀ rec ∈ (wc isLetter json sortSlice jobName files nReduce).records fs r,
      ∃ vs, wcReduceF rec.key vs = some rec.value) ∧
    (∀ r, ∀ rec ∈ (wc isLetter json sortSlice' jobName files' nReduce).records fs r,
      ∃ vs, wcReduceF rec.key vs = some rec.value) ∧
    SameOutput (ii isLetter json sortSlice sortNames jobName files nReduce)
      (ii isLetter json sortSlice' sortNames' jobName files' nReduce) fs := by
  refine ⟨?_, fun r rec => wc_records hone, fun r rec => wc_records hone, ?_⟩
  · refine h.sameOutput (h.perm rfl rfl hfiles) (pairs_perm rfl rfl rfl ?_ hfiles)
    intro k vs vs' hvs
    show (wcReduceF k vs).getD [] = (wcReduceF k vs').getD []
    rw [wcReduceF_perm hvs]
  · have hii : (ii isLetter json sortSlice sortNames jobName files nReduce).Readable fs :=
      ⟨h.pos, h.input, h.ne_reduceName⟩
    exact hii.sameOutput (hii.perm rfl rfl hfiles)
      (pairs_perm rfl rfl rfl (fun k vs vs' hvs => iiReduceF_perm hvs k) hfiles)

/-- The letters of ASCII. -/
def asciiLetter (char : ℕ) : Bool := 65 ≤ char && char < 91 || 97 ≤ char && char < 123

theorem sequential_input_order_letterFiles :
    SameOutput
      (wc asciiLetter Json.plain (.descending KeyValue.key) (lit "t") [lit "a", lit "b"] 2)
      (wc asciiLetter Json.plain (.descending KeyValue.key) (lit "t") [lit "b", lit "a"] 2)
      letterFiles ∧
    SameOutput
      (ii asciiLetter Json.plain (.descending KeyValue.key) (.ascending id) (lit "t")
        [lit "a", lit "b"] 2)
      (ii asciiLetter Json.plain (.descending KeyValue.key) (.ascending id) (lit "t")
        [lit "b", lit "a"] 2)
      letterFiles := by
  have hreadable : (wc asciiLetter Json.plain (.descending KeyValue.key) (lit "t")
      [lit "a", lit "b"] 2).Readable letterFiles :=
    ⟨letters_admissible.pos, letters_admissible.input, letters_admissible.ne_reduceName⟩
  obtain ⟨hwc, -, -, hii⟩ := sequential_input_order asciiLetter Json.plain
    (.descending KeyValue.key) (.descending KeyValue.key) (.ascending id) (.ascending id) (lit "t")
    [lit "a", lit "b"] [lit "b", lit "a"] 2 letterFiles (.swap ..) rfl hreadable
  exact ⟨hwc, hii⟩

/-- `a` in file `b`, and `c` in a file with the name of an output of map task 0. -/
def clashFiles : FileSystem := fun name =>
  if name = lit "b" then some (lit "a")
  else if name = reduceName (lit "t") 0 0 then some (lit "c")
  else none

/-- **An input with the name of an intermediate file.** If it is the first input, map task 0 has
truncated it before it reads it. If it is the second, map task 1 reads the pairs that map task 0 has
written. -/
theorem sequential_clashFiles :
    lit "a: 1\n" ≠ lit "Key: 1\nValue: 1\na: 2\n" ∧
    ((wc asciiLetter Json.plain (.descending KeyValue.key) (lit "t")
        [reduceName (lit "t") 0 0, lit "b"] 1).sequential clashFiles).bind
      (fun r => r.2 (outName (lit "t"))) = some (lit "a: 1\n") ∧
    ((wc asciiLetter Json.plain (.descending KeyValue.key) (lit "t")
        [lit "b", reduceName (lit "t") 0 0] 1).sequential clashFiles).bind
      (fun r => r.2 (outName (lit "t"))) = some (lit "Key: 1\nValue: 1\na: 2\n") := by
  decide +kernel

end Job

end MapReduce

end Distsys
