import Distsys.Lib.Lists
import Distsys.MapReduce.PlainJson

/-!
# What the tasks compute

Each task in terms of the contents of its files: which files it writes, what it writes to them, and
that it leaves every other file alone. A map task writes its own `nReduce` files, a reduce task one.
So tasks of one phase do not meet, and running one again changes nothing.

The loop of `doReduce` compares each key with the one before. On a sorted list that is enough to
collect every value of a key in one record; `reduceRecords_spec` says which records come out. There
is one for the empty string even if no pair was read.

## The last record

A record is written when the key changes, and once more behind the loop, whether or not the loop was
ever entered. With no pairs at all the key is then still the empty string, and `reduceF` is called
for a key that nobody has emitted, with no values. `doReduce_oncePerKey_iff` says that this is the
only exception.

## Main definitions

* `bucket` — the pairs of a map task for one reduce task
* `valuesOf` — the values of a key, in order
* `OncePerKey` — one call of `reduceF` for each key

## Main results

* `doMap_spec`, `doReduce_eq`, `merge_eq`
* `reduceRecords_eq`, `reduceRecords_spec`, `mergePairs_spec`
* `doReduce_oncePerKey_iff`
-/

namespace Distsys

namespace MapReduce

variable {json : Json} {sortSlice : UnstableSort KeyValue fun a b => a.key > b.key}
  {jobName : GoString} {mapTask reduceTask nReduce nMap : ℕ} {fs : FileSystem}

/-! ### `doMap`

One file after the other is created, and then the pairs are dealt out. Each file gets its own pairs
in the order in which they were emitted. -/

/-- The pairs that belong to the reduce task `r`. -/
def bucket (nReduce r : ℕ) (kvs : List KeyValue) : List KeyValue :=
  kvs.filter fun kv => ihash kv.key % nReduce = r

theorem createFiles_reduceName {r : ℕ} (hr : r < nReduce) :
    createFiles jobName mapTask nReduce fs (reduceName jobName mapTask r) = some [] := by
  unfold createFiles
  induction nReduce with
  | zero => omega
  | succ n ih =>
    rw [List.range_succ, List.foldl_append]
    show Function.update _ _ _ _ = _
    rcases Nat.lt_succ_iff_lt_or_eq.mp hr with hlt | rfl
    · rw [Function.update_of_ne fun h => hlt.ne (reduceName_inj.mp h).2]
      exact ih hlt
    · rw [Function.update_self]

theorem createFiles_of_ne {name : GoString}
    (h : ∀ r < nReduce, name ≠ reduceName jobName mapTask r) :
    createFiles jobName mapTask nReduce fs name = fs name := by
  unfold createFiles
  induction nReduce with
  | zero => rfl
  | succ n ih =>
    rw [List.range_succ, List.foldl_append]
    show Function.update _ _ _ _ = _
    rw [Function.update_of_ne (h n n.lt_succ_self)]
    exact ih fun r hr => h r (hr.trans n.lt_succ_self)

variable (json jobName mapTask) in
/-- The loop of `doMap` over the pairs: each file gets its bucket. -/
theorem writePairs_spec (hn : 0 < nReduce) (kvs : List KeyValue) (fs : FileSystem) :
    ∃ fs', writePairs json jobName mapTask nReduce kvs fs = some fs' ∧
      (∀ r b, fs (reduceName jobName mapTask r) = some b →
        fs' (reduceName jobName mapTask r) =
          some (b ++ (bucket nReduce r kvs).flatMap json.encode)) ∧
      ∀ name, (∀ r < nReduce, name ≠ reduceName jobName mapTask r) → fs' name = fs name := by
  unfold writePairs
  induction kvs generalizing fs with
  | nil => exact ⟨fs, rfl, fun r b hb => by simpa [bucket] using hb, fun _ _ => rfl⟩
  | cons kv kvs ih =>
    set fs₁ := fs.append (reduceName jobName mapTask (ihash kv.key % nReduce)) (json.encode kv)
      with hfs₁
    obtain ⟨fs', hfs', hwritten, hrest⟩ := ih fs₁
    refine ⟨fs', ?_, fun r b hb => ?_, fun name hname => ?_⟩
    · rw [List.foldlM_cons, if_neg hn.ne']
      exact hfs'
    · rcases eq_or_ne (ihash kv.key % nReduce) r with rfl | hne
      · rw [hwritten _ (b ++ json.encode kv)]
        · simp [bucket, List.append_assoc]
        · rw [hfs₁, FileSystem.append, Function.update_self, hb]
          rfl
      · rw [hwritten r b]
        · simp [bucket, hne]
        · rw [hfs₁, FileSystem.append,
            Function.update_of_ne fun h => hne (reduceName_inj.mp h).2.symm]
          exact hb
    · rw [hrest name hname, hfs₁, FileSystem.append,
        Function.update_of_ne (hname _ (Nat.mod_lt _ hn))]

/-- **`doMap`** writes the buckets to its files and nothing else. -/
theorem doMap_spec (hn : 0 < nReduce) {inFile input : GoString}
    {mapF : GoString → GoString → List KeyValue} (hin : fs inFile = some input)
    (hname : ∀ r < nReduce, inFile ≠ reduceName jobName mapTask r) :
    ∃ fs', doMap json jobName mapTask inFile nReduce mapF fs = some fs' ∧
      (∀ r < nReduce, fs' (reduceName jobName mapTask r) =
        some ((bucket nReduce r (mapF inFile input)).flatMap json.encode)) ∧
      ∀ name, (∀ r < nReduce, name ≠ reduceName jobName mapTask r) → fs' name = fs name := by
  have hread : createFiles jobName mapTask nReduce fs inFile = some input := by
    rw [createFiles_of_ne hname, hin]
  obtain ⟨fs', hfs', hwritten, hrest⟩ := writePairs_spec json jobName mapTask hn
    (mapF inFile input) (createFiles jobName mapTask nReduce fs)
  refine ⟨fs', ?_, fun r hr => ?_, fun name hne => ?_⟩
  · simp only [doMap, hread, Option.bind_eq_bind, Option.bind_some]
    exact hfs'
  · rw [hwritten r [] (createFiles_reduceName hr), List.nil_append]
  · rw [hrest name hne, createFiles_of_ne hne]

/-! ### `doReduce`

The files are read, decoded and put together, sorted, and cut into groups. Decoding stops at the
first error, which for a file that was written by `doMap` is its end. -/

theorem readInputs_eq {b : ℕ → List Byte}
    (h : ∀ m < nMap, fs (reduceName jobName m reduceTask) = some (b m)) :
    readInputs json jobName reduceTask nMap fs =
      some ((List.range nMap).flatMap fun m => json.decodeAll (b m)) := by
  rw [readInputs, mapM_eq_some (g := fun m => json.decodeAll (b m)), Option.map_some,
    List.flatMap_def]
  intro m hm
  rw [h m (List.mem_range.mp hm), Option.map_some]

theorem writeRecords_eq (outFile : GoString) (kvs : List KeyValue) (b : List Byte) :
    writeRecords json outFile kvs (Function.update fs outFile (some b)) =
      Function.update fs outFile (some (b ++ kvs.flatMap json.encode)) := by
  unfold writeRecords
  induction kvs generalizing b with
  | nil => simp
  | cons kv kvs ih =>
    rw [List.foldl_cons, FileSystem.append, Function.update_self, Function.update_idem]
    exact (ih _).trans (by simp [List.append_assoc])

/-- **`doReduce`** writes one file. -/
theorem doReduce_eq {b : ℕ → List Byte} {outFile : GoString}
    {reduceF : GoString → List GoString → GoString}
    (h : ∀ m < nMap, fs (reduceName jobName m reduceTask) = some (b m)) :
    doReduce json sortSlice jobName reduceTask outFile nMap reduceF fs =
      some (Function.update fs outFile (some ((reduceRecords sortSlice reduceF
        ((List.range nMap).flatMap fun m => json.decodeAll (b m))).flatMap json.encode))) := by
  simp only [doReduce, readInputs_eq h, Option.bind_eq_bind, Option.bind_some, Option.pure_def,
    FileSystem.create, writeRecords_eq, List.nil_append]

/-- The values of `k`, in the order of the list. -/
def valuesOf (k : GoString) (kvs : List KeyValue) : List GoString :=
  (kvs.filter fun kv => kv.key = k).map KeyValue.value

theorem valuesOf_cons_self (v : KeyValue) (vs : List KeyValue) :
    valuesOf v.key (v :: vs) = v.value :: valuesOf v.key vs := by
  simp [valuesOf]

theorem valuesOf_cons_of_ne {k : GoString} {v : KeyValue} (h : v.key ≠ k) (vs : List KeyValue) :
    valuesOf k (v :: vs) = valuesOf k vs := by
  simp [valuesOf, h]

theorem valuesOf_eq_nil {k : GoString} {vs : List KeyValue} (h : ∀ v ∈ vs, v.key ≠ k) :
    valuesOf k vs = [] := by
  rw [valuesOf, List.filter_eq_nil_iff.mpr (by simpa using h)]
  rfl

theorem valuesOf_perm {kvs kvs' : List KeyValue} (h : kvs.Perm kvs') (k : GoString) :
    (valuesOf k kvs).Perm (valuesOf k kvs') :=
  (h.filter _).map _

/-- The loop behind its first round, on the pairs that are left of a list in descending order. The
record of `previousKey` comes first, then those of the other keys, in descending order; each has
every value of its key. -/
theorem reduceLoop_eq (reduceF : GoString → List GoString → GoString) (previousKey : GoString)
    (valueBuffer : List GoString) {vs : List KeyValue}
    (hsorted : vs.Pairwise fun v w => w.key ≤ v.key) (hle : ∀ v ∈ vs, v.key ≤ previousKey) :
    ∃ keys : List GoString, (previousKey :: keys).Pairwise (· > ·) ∧
      (∀ k, k ∈ keys ↔ k ∈ vs.map KeyValue.key ∧ k ≠ previousKey) ∧
      reduceLoop reduceF false previousKey valueBuffer vs =
        ⟨previousKey, reduceF previousKey (valueBuffer ++ valuesOf previousKey vs)⟩ ::
          keys.map fun k => ⟨k, reduceF k (valuesOf k vs)⟩ := by
  induction vs generalizing previousKey valueBuffer with
  | nil => exact ⟨[], List.pairwise_singleton _ _, by simp, by simp [reduceLoop, valuesOf]⟩
  | cons v vs ih =>
    obtain ⟨hv, hvs⟩ := List.pairwise_cons.mp hsorted
    unfold reduceLoop
    split
    · -- `v` starts a new group: `previousKey` is over
      rename_i hnew
      have hlt : v.key < previousKey := lt_of_le_of_ne (hle v List.mem_cons_self) hnew.1
      have hover : ∀ w ∈ v :: vs, w.key ≠ previousKey := by
        intro w hw
        rcases List.mem_cons.mp hw with rfl | hw
        · exact hlt.ne
        · exact ((hv w hw).trans_lt hlt).ne
      obtain ⟨keys, hdesc, hmem, heq⟩ := ih v.key [v.value] hvs hv
      obtain ⟨hfirst, -⟩ := List.pairwise_cons.mp hdesc
      refine ⟨v.key :: keys, List.pairwise_cons.mpr ⟨fun k hk => ?_, hdesc⟩, fun k => ?_, ?_⟩
      · rcases List.mem_cons.mp hk with rfl | hk
        · exact hlt
        · exact (hfirst k hk).trans hlt
      · rw [List.mem_cons, hmem, List.map_cons, List.mem_cons]
        constructor
        · rintro (rfl | ⟨hk, hne⟩)
          · exact ⟨Or.inl rfl, hlt.ne⟩
          · obtain ⟨w, hw, rfl⟩ := List.mem_map.mp hk
            exact ⟨Or.inr hk, hover w (List.mem_cons_of_mem _ hw)⟩
        · rintro ⟨hk, -⟩
          by_cases hkv : k = v.key
          · exact Or.inl hkv
          · exact Or.inr ⟨hk.resolve_left hkv, hkv⟩
      · rw [heq, valuesOf_eq_nil hover, List.append_nil, List.map_cons, valuesOf_cons_self]
        congr 2
        exact List.map_congr_left fun k hk => by rw [valuesOf_cons_of_ne (hfirst k hk).ne']
    · -- `v` belongs to the group of `previousKey`
      rename_i hold
      have hk : v.key = previousKey := by_contra fun h => hold ⟨h, rfl⟩
      subst hk
      obtain ⟨keys, hdesc, hmem, heq⟩ := ih v.key (valueBuffer ++ [v.value]) hvs hv
      obtain ⟨hfirst, -⟩ := List.pairwise_cons.mp hdesc
      refine ⟨keys, hdesc, fun k => ?_, ?_⟩
      · rw [hmem, List.map_cons, List.mem_cons]
        exact ⟨fun h => ⟨Or.inr h.1, h.2⟩, fun h => ⟨h.1.resolve_left h.2, h.2⟩⟩
      · rw [heq, valuesOf_cons_self, List.append_assoc]
        congr 1
        exact List.map_congr_left fun k hk => by rw [valuesOf_cons_of_ne (hfirst k hk).ne']

variable (sortSlice) in
/-- Without pairs there is a record all the same, for the empty string. -/
theorem reduceRecords_nil (reduceF : GoString → List GoString → GoString) :
    reduceRecords sortSlice reduceF [] = [⟨[], reduceF [] []⟩] := by
  rw [reduceRecords, (sortSlice.perm []).eq_nil, reduceLoop]

variable (sortSlice) in
/-- **What `doReduce` writes** for the pairs it has read: the keys in strictly descending order,
each with all its values. -/
theorem reduceRecords_eq (reduceF : GoString → List GoString → GoString) {kvs : List KeyValue}
    (hne : kvs ≠ []) : ∃ keys : List GoString, keys.Pairwise (· > ·) ∧
      (∀ k, k ∈ keys ↔ k ∈ kvs.map KeyValue.key) ∧
      reduceRecords sortSlice reduceF kvs =
        keys.map fun k => ⟨k, reduceF k (valuesOf k (sortSlice.sort kvs))⟩ := by
  have hperm := sortSlice.perm kvs
  have hsorted := sortSlice.sorted kvs
  unfold reduceRecords
  rcases hs : sortSlice.sort kvs with _ | ⟨v, vs⟩
  · exact absurd (hs ▸ hperm).nil_eq.symm hne
  · rw [hs] at hperm hsorted
    obtain ⟨hv, hvs⟩ := List.pairwise_cons.mp (hsorted.imp fun h => not_lt.mp h)
    -- the first round never writes
    have hfirst : reduceLoop reduceF true [] [] (v :: vs) =
        reduceLoop reduceF false v.key [v.value] vs := by
      rw [reduceLoop, if_neg (by simp), List.nil_append]
    obtain ⟨keys, hdesc, hmem, heq⟩ := reduceLoop_eq reduceF v.key [v.value] hvs hv
    refine ⟨v.key :: keys, hdesc, fun k => ?_, ?_⟩
    · rw [← (hperm.map KeyValue.key).mem_iff, List.map_cons, List.mem_cons, List.mem_cons, hmem]
      by_cases hk : k = v.key
      · simp [hk]
      · simp [hk]
    · rw [hfirst, heq, List.map_cons, valuesOf_cons_self]
      congr 1
      refine List.map_congr_left fun k hk => ?_
      rw [valuesOf_cons_of_ne ((List.pairwise_cons.mp hdesc).1 k hk).ne']

/-- **The records of a key.** A key other than the empty string has a record exactly if a pair was
read with it, and its record has all the values. -/
theorem reduceRecords_spec (reduceF : GoString → List GoString → GoString)
    (kvs : List KeyValue) {k : GoString} (hk : k ≠ []) :
    (k ∈ (reduceRecords sortSlice reduceF kvs).map KeyValue.key ↔ k ∈ kvs.map KeyValue.key) ∧
      ∀ rec ∈ reduceRecords sortSlice reduceF kvs, rec.key = k →
        ∃ vs, vs.Perm (valuesOf k kvs) ∧ rec.value = reduceF k vs := by
  rcases eq_or_ne kvs [] with rfl | hne
  · rw [reduceRecords_nil]
    refine ⟨by simp [hk], fun rec hrec hrk => ?_⟩
    rw [List.mem_singleton.mp hrec] at hrk
    exact absurd hrk.symm hk
  · obtain ⟨keys, -, hmem, heq⟩ := reduceRecords_eq sortSlice reduceF hne
    rw [heq]
    refine ⟨?_, fun rec hrec hrk => ?_⟩
    · rw [List.map_map, ← hmem]
      exact Iff.of_eq (congrArg (k ∈ ·) (List.map_id' keys))
    · obtain ⟨k', -, rfl⟩ := List.mem_map.mp hrec
      subst hrk
      exact ⟨_, valuesOf_perm (sortSlice.perm kvs) k', rfl⟩

/-- The records are those of one call of `reduceF` for each key of `kvs`, with all its values. -/
structure OncePerKey (reduceF : GoString → List GoString → GoString) (kvs records : List KeyValue) :
    Prop where
  /-- In the order of the keys, so each key has one record. -/
  descending : (records.map KeyValue.key).Pairwise (· > ·)
  /-- A record for each key there is, and for no other. -/
  keys : ∀ k, k ∈ records.map KeyValue.key ↔ k ∈ kvs.map KeyValue.key
  /-- In whatever order the sort has left the values. -/
  values : ∀ rec ∈ records, ∃ vs, vs.Perm (valuesOf rec.key kvs) ∧
    rec = ⟨rec.key, reduceF rec.key vs⟩

variable (sortSlice) in
theorem oncePerKey_reduceRecords (reduceF : GoString → List GoString → GoString)
    {kvs : List KeyValue} (hne : kvs ≠ []) :
    OncePerKey reduceF kvs (reduceRecords sortSlice reduceF kvs) := by
  obtain ⟨keys, hdesc, hmem, heq⟩ := reduceRecords_eq sortSlice reduceF hne
  have hkeys : (reduceRecords sortSlice reduceF kvs).map KeyValue.key = keys := by
    rw [heq, List.map_map]
    exact List.map_id' keys
  refine ⟨hkeys.symm ▸ hdesc, hkeys.symm ▸ hmem, fun rec hrec => ?_⟩
  rw [heq] at hrec
  obtain ⟨k, -, rfl⟩ := List.mem_map.mp hrec
  exact ⟨_, valuesOf_perm (sortSlice.perm kvs) k, rfl⟩

/-- The record of the empty string has no pair. -/
theorem not_oncePerKey_nil (reduceF : GoString → List GoString → GoString) :
    ¬ OncePerKey reduceF [] (reduceRecords sortSlice reduceF []) := by
  intro h
  rw [reduceRecords_nil] at h
  exact absurd ((h.keys []).mp List.mem_cons_self) List.not_mem_nil

/-- **One call of `reduceF` for each key**, if there is a key at all. Let the files of a reduce task
hold the pairs `contents`, in an encoding that gives them back. `doReduce` returns, and its records
are one for each key, in strictly descending order and with all the values of the key, exactly if
one of the files is not empty. -/
theorem doReduce_oncePerKey_iff (json : Json)
    (sortSlice : UnstableSort KeyValue fun a b => a.key > b.key) (jobName : GoString)
    (reduceTask nMap : ℕ) (outFile : GoString) (reduceF : GoString → List GoString → GoString)
    (fs : FileSystem) (contents : ℕ → List KeyValue)
    (hfiles : ∀ m < nMap,
      fs (reduceName jobName m reduceTask) = some ((contents m).flatMap json.encode))
    (htext : ∀ m < nMap, ∀ kv ∈ contents m, json.textOf kv = kv) :
    ∃ records,
      records = reduceRecords sortSlice reduceF ((List.range nMap).flatMap contents) ∧
      doReduce json sortSlice jobName reduceTask outFile nMap reduceF fs =
        some (Function.update fs outFile (some (records.flatMap json.encode))) ∧
      (OncePerKey reduceF ((List.range nMap).flatMap contents) records ↔
        ∃ m < nMap, contents m ≠ []) := by
  have hread : ((List.range nMap).flatMap fun m =>
      json.decodeAll ((contents m).flatMap json.encode)) = (List.range nMap).flatMap contents := by
    refine List.flatMap_congr fun m hm => ?_
    rw [Json.decodeAll_encode, List.map_congr_left (htext m (List.mem_range.mp hm)), List.map_id']
  have hnil : (List.range nMap).flatMap contents ≠ [] ↔ ∃ m < nMap, contents m ≠ [] := by
    simp
  refine ⟨_, rfl, ?_, ?_⟩
  · rw [doReduce_eq hfiles, hread]
  · rw [← hnil]
    refine ⟨fun honce hempty => ?_, oncePerKey_reduceRecords sortSlice reduceF⟩
    rw [hempty] at honce
    exact not_oncePerKey_nil reduceF honce

/-- Two lists of pairs for one reduce task, with a key that occurs in both and an empty key. -/
def letterPairs : ℕ → List KeyValue
  | 0 => [⟨GoString.lit "x", GoString.lit "1"⟩, ⟨[], GoString.lit "2"⟩]
  | _ => [⟨GoString.lit "x", GoString.lit "3"⟩]

/-- Two files in which `letterPairs` are encoded. -/
def letterPairFiles : FileSystem := fun name =>
  if name = reduceName (GoString.lit "t") 0 0 then some ((letterPairs 0).flatMap Json.plain.encode)
  else if name = reduceName (GoString.lit "t") 1 0 then
    some ((letterPairs 1).flatMap Json.plain.encode)
  else none

theorem doReduce_oncePerKey_iff_letterPairs :
    ∃ records,
      records = reduceRecords (.descending KeyValue.key) Job.letters.reduceF
        ((List.range 2).flatMap letterPairs) ∧
      doReduce Json.plain (.descending KeyValue.key) (GoString.lit "t") 0 (GoString.lit "out") 2
          Job.letters.reduceF letterPairFiles =
        some (Function.update letterPairFiles (GoString.lit "out")
          (some (records.flatMap Json.plain.encode))) ∧
      (OncePerKey Job.letters.reduceF ((List.range 2).flatMap letterPairs) records ↔
        ∃ m < 2, letterPairs m ≠ []) :=
  doReduce_oncePerKey_iff Json.plain (.descending KeyValue.key) (GoString.lit "t") 0 2
    (GoString.lit "out") Job.letters.reduceF letterPairFiles letterPairs (by decide +kernel)
    fun _ _ _ _ => rfl

/-- **A record for no key.** Without map tasks there is no pair, and `doReduce` calls `reduceF` for
the empty string. -/
theorem doReduce_record_without_pair :
    doReduce Json.plain (.descending KeyValue.key) (GoString.lit "t") 0 (GoString.lit "out") 0
        Job.letters.reduceF (fun _ => none) =
      some (Function.update (fun _ => none) (GoString.lit "out")
        (some (Json.plain.encode ⟨[], GoString.lit "0"⟩))) ∧
    ¬ OncePerKey Job.letters.reduceF [] [⟨[], GoString.lit "0"⟩] := by
  have hrecord : reduceRecords (.descending KeyValue.key) Job.letters.reduceF [] =
      [⟨[], GoString.lit "0"⟩] := by decide +kernel
  refine ⟨?_, hrecord ▸ not_oncePerKey_nil Job.letters.reduceF⟩
  rw [doReduce_eq (b := fun _ => []) fun m hm => absurd hm m.not_lt_zero, List.range_zero,
    List.flatMap_nil, hrecord, List.flatMap_singleton]

/-! ### `merge`

A map from keys to values, in which a later record replaces an earlier one with the same key. It is
printed in the order of the keys. -/

/-- **`merge`** reads the outputs of the reduce tasks and writes one file. -/
theorem merge_eq {b : ℕ → List Byte} (h : ∀ i < nReduce, fs (mergeName jobName i) = some (b i)) :
    merge json jobName nReduce fs =
      let pairs := mergePairs ((List.range nReduce).flatMap fun i => json.decodeAll (b i))
      some (pairs, Function.update fs (outName jobName) (some (pairs.flatMap printPair))) := by
  have hread : ((List.range nReduce).mapM fun i => (fs (mergeName jobName i)).map json.decodeAll) =
      some ((List.range nReduce).map fun i => json.decodeAll (b i)) := by
    refine mapM_eq_some fun i hi => ?_
    rw [h i (List.mem_range.mp hi), Option.map_some]
  simp only [merge, hread, Option.bind_eq_bind, Option.bind_some, Option.pure_def,
    List.flatMap_def]

theorem mem_mapPut {kvs : List KeyValue} {kv e : KeyValue} :
    e ∈ mapPut kvs kv ↔ e = kv ∨ e ∈ kvs ∧ e.key ≠ kv.key := by
  simp [mapPut]

theorem nodup_mapPut {kvs : List KeyValue} (kv : KeyValue) (h : (kvs.map KeyValue.key).Nodup) :
    ((mapPut kvs kv).map KeyValue.key).Nodup := by
  rw [mapPut, List.map_cons, List.nodup_cons]
  refine ⟨fun hin => ?_, h.sublist (List.filter_sublist.map _)⟩
  obtain ⟨e, he, hk⟩ := List.mem_map.mp hin
  simp [hk] at he

/-- The map after a run of assignments: one entry for each key, and every entry was assigned. -/
theorem foldl_mapPut (records : List KeyValue) {kvs : List KeyValue}
    (h : (kvs.map KeyValue.key).Nodup) :
    ((records.foldl mapPut kvs).map KeyValue.key).Nodup ∧
      (∀ e ∈ records.foldl mapPut kvs, e ∈ kvs ∨ e ∈ records) ∧
      ∀ e, e ∈ kvs ∨ e ∈ records → e.key ∈ (records.foldl mapPut kvs).map KeyValue.key := by
  induction records generalizing kvs with
  | nil =>
    refine ⟨h, fun e he => Or.inl he, fun e he => List.mem_map_of_mem ?_⟩
    exact he.resolve_right List.not_mem_nil
  | cons kv records ih =>
    obtain ⟨hnodup, hmem, hkey⟩ := ih (nodup_mapPut kv h)
    refine ⟨hnodup, fun e he => ?_, fun e he => ?_⟩
    · rcases hmem e he with he | he
      · rcases mem_mapPut.mp he with rfl | ⟨he, _⟩
        · exact Or.inr List.mem_cons_self
        · exact Or.inl he
      · exact Or.inr (List.mem_cons_of_mem _ he)
    · by_cases hk : e.key = kv.key
      · rw [hk]
        exact hkey kv (Or.inl (mem_mapPut.mpr (Or.inl rfl)))
      · refine hkey e (he.imp (fun he => mem_mapPut.mpr (Or.inr ⟨he, hk⟩)) fun he => ?_)
        exact (List.mem_cons.mp he).resolve_left fun h => hk (h ▸ rfl)

theorem mapGet_mem {kvs : List KeyValue} {k : GoString} (h : k ∈ kvs.map KeyValue.key) :
    ⟨k, mapGet kvs k⟩ ∈ kvs := by
  obtain ⟨e, he, hk⟩ := List.mem_map.mp h
  have hsome : (kvs.find? fun e => e.key = k).isSome := by
    rw [List.find?_isSome]
    exact ⟨e, he, by simpa using hk⟩
  obtain ⟨e', he'⟩ := Option.isSome_iff_exists.mp hsome
  have hkey : e'.key = k := by simpa using List.find?_some he'
  rw [mapGet, he', Option.map_some, Option.getD_some, ← hkey]
  exact List.mem_of_find?_eq_some he'

/-- **What `merge` prints**: the keys that were read, in strictly ascending order, each with a value
that was read with it. -/
theorem mergePairs_spec (records : List KeyValue) :
    ((mergePairs records).map KeyValue.key).Pairwise (· < ·) ∧
      (∀ k, k ∈ (mergePairs records).map KeyValue.key ↔ k ∈ records.map KeyValue.key) ∧
      ∀ kv ∈ mergePairs records, kv ∈ records := by
  obtain ⟨hnodup, hmem, hkey⟩ := foldl_mapPut records
    (show (([] : List KeyValue).map KeyValue.key).Nodup from List.nodup_nil)
  have hkeys : (mergePairs records).map KeyValue.key =
      sortStrings ((records.foldl mapPut []).map KeyValue.key) := by
    rw [mergePairs, List.map_map]
    exact List.map_id' _
  have hin : ∀ k, k ∈ sortStrings ((records.foldl mapPut []).map KeyValue.key) ↔
      k ∈ (records.foldl mapPut []).map KeyValue.key := fun k => (perm_sortStrings _).mem_iff
  rw [hkeys]
  refine ⟨pairwise_lt_sortStrings hnodup, fun k => ?_, fun kv hkv => ?_⟩
  · rw [hin]
    constructor
    · intro h
      obtain ⟨e, he, rfl⟩ := List.mem_map.mp h
      exact List.mem_map_of_mem ((hmem e he).resolve_left (List.not_mem_nil))
    · intro h
      obtain ⟨e, he, rfl⟩ := List.mem_map.mp h
      exact hkey e (Or.inr he)
  · obtain ⟨k, hk, rfl⟩ := List.mem_map.mp hkv
    exact (hmem _ (mapGet_mem ((hin k).mp hk))).resolve_left List.not_mem_nil

end MapReduce

end Distsys
