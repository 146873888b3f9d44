import Distsys.Linearizability.Check

/-!
# The model of a key-value store

`KvModel` models the value of one key, and partitions a history by key. That this is enough is the
locality of linearizability: orders for the single keys can be merged into one order for the store,
by `linearizable_component_iff`.

The partition is made with a map from keys to operations, and a `range` over this map. So the order
of the partitions is arbitrary, but the operations of one key keep their order. An operation code
other than 0 and 1 is an append.

## Main definitions

* `KvInput`, `KvOutput`, `kvPartition`, `kvModel`
* `storeStep` — the store as a whole

## Main results

* `storeStep_eq` — the store is the product of its keys
* `checkOperations_kv` — checking each key is checking the store
-/

namespace Distsys

namespace Linearizability

open GoString

/-- `KvInput`. `op` is 0 for a get, 1 for a put and 2 for an append. -/
structure KvInput where
  op : Byte
  key : GoString
  value : GoString
  deriving DecidableEq, Repr

/-- `KvOutput`. -/
structure KvOutput where
  value : GoString
  deriving DecidableEq, Repr

/-- An operation on the store. -/
abbrev KvOperation := Operation KvInput KvOutput

/-- `Partition` of `KvModel`. -/
def kvPartition (range : RangeOrder (GoString × List KvOperation)) (history : List KvOperation) :
    List (List KvOperation) :=
  let m := history.foldl (fun m v => appendTo v.input.key v m) []
  (range.order m).map Prod.snd

/-- `KvModel`. -/
def kvModel (range : RangeOrder (GoString × List KvOperation)) :
    Model GoString KvInput KvOutput where
  partition := kvPartition range
  init := []
  step st inp out :=
    if inp.op = 0 then (out.value = st, st)
    else if inp.op = 1 then (true, inp.value)
    else (true, st ++ inp.value)
  equal s t := s = t

/-- An operation on a store, `none` if a get has another output than the value of its key. -/
def storeStep (store : GoString → GoString) (op : KvOperation) : Option (GoString → GoString) :=
  if op.input.op = 0 then
    if op.output.value = store op.input.key then some store else none
  else if op.input.op = 1 then some (Function.update store op.input.key op.input.value)
  else some (Function.update store op.input.key (store op.input.key ++ op.input.value))

variable {range : RangeOrder (GoString × List KvOperation)}
  {sort : UnstableSort (Entry KvInput KvOutput) fun a b => a.time < b.time}
  {history : List KvOperation}

theorem kvModel_lawfulEqual : (kvModel range).LawfulEqual :=
  Model.lawfulEqual_of_eq fun _ _ => decide_eq_true_iff

/-- **The store is the product of its keys.** -/
theorem storeStep_eq (range : RangeOrder (GoString × List KvOperation)) :
    storeStep = componentStep (fun op => op.input.key) (kvModel range).stepOperation := by
  funext store op
  by_cases hget : op.input.op = 0
  · by_cases hvalue : op.output.value = store op.input.key <;>
      simp [storeStep, componentStep, Model.stepOperation, Model.accept, kvModel, hget, hvalue]
  · by_cases hput : op.input.op = 1 <;>
      simp [storeStep, componentStep, Model.stepOperation, Model.accept, kvModel, hget, hput]

/-- The partitions are the operations on each key. -/
theorem mem_kvPartition {subhistory : List KvOperation}
    (h : subhistory ∈ kvPartition range history) :
    ∃ k, subhistory = history.filter fun op => op.input.key = k := by
  obtain ⟨keys, -, -, heq⟩ := foldl_appendTo (fun op : KvOperation => op.input.key) history
  obtain ⟨e, he, rfl⟩ := List.mem_map.mp h
  rw [heq, (range.perm _).mem_iff] at he
  obtain ⟨k, -, rfl⟩ := List.mem_map.mp he
  exact ⟨k, rfl⟩

/-- Every operation is in the partition of its key. -/
theorem filter_mem_kvPartition {op : KvOperation} (h : op ∈ history) :
    (history.filter fun op' => op'.input.key = op.input.key) ∈ kvPartition range history := by
  obtain ⟨keys, -, hkeys, heq⟩ := foldl_appendTo (fun op : KvOperation => op.input.key) history
  refine List.mem_map.mpr ⟨(op.input.key, _), (range.perm _).mem_iff.mpr ?_, rfl⟩
  rw [heq]
  exact List.mem_map.mpr ⟨_, hkeys op h, rfl⟩

/-- **Locality.** -/
theorem linearizable_store_iff (range : RangeOrder (GoString × List KvOperation))
    (h : Timed history) :
    Linearizable (fun a b => a.ret < b.call) storeStep (fun _ => []) history ↔
      ∀ subhistory ∈ kvPartition range history, Linearizable (fun a b => a.ret < b.call)
        (kvModel range).stepOperation (kvModel range).init subhistory := by
  rw [storeStep_eq range, linearizable_component_iff fun op hop => (h.lt op hop).le]
  constructor
  · intro hall subhistory hmem
    obtain ⟨k, rfl⟩ := mem_kvPartition hmem
    exact hall k
  · intro hall k
    by_cases hk : ∃ op ∈ history, op.input.key = k
    · obtain ⟨op, hop, rfl⟩ := hk
      exact hall _ (filter_mem_kvPartition hop)
    · rw [List.filter_eq_nil_iff.mpr fun op hop heq => hk ⟨op, hop, of_decide_eq_true heq⟩]
      exact linearizable_nil

/-- **Checking each key is checking the store.** On a history that is not empty, with different
times, `CheckOperations` returns, and it returns `true` exactly if the history is linearizable as a
history of the whole store. -/
theorem checkOperations_kv (range : RangeOrder (GoString × List KvOperation))
    (sort : UnstableSort (Entry KvInput KvOutput) fun a b => a.time < b.time)
    {history : List KvOperation} (hne : history ≠ []) (h : Timed history) :
    ∃ init result, Checker.start (kvModel range) sort history = some init ∧
      Checker.AlwaysReturns (kvModel range) init result ∧
      (result = true ↔
        Linearizable (fun a b => a.ret < b.call) storeStep (fun _ => []) history) := by
  have hsub : ∀ subhistory ∈ kvPartition range history, ∃ verdict,
      Decided (kvModel range) (makeEntries sort subhistory) verdict ∧
        (verdict = true ↔ Linearizable (fun a b => a.ret < b.call) (kvModel range).stepOperation
          (kvModel range).init subhistory) := by
    intro subhistory hmem
    obtain ⟨k, rfl⟩ := mem_kvPartition hmem
    exact (h.filter _).untied.decided kvModel_lawfulEqual sort
  choose! verdict hreturns hiff using hsub
  obtain ⟨op, hop⟩ := List.exists_mem_of_ne_nil history hne
  have hpartitions : List.Forall₂
      (fun subhistory => Decided (kvModel range) (makeEntries sort subhistory))
      (kvPartition range history) ((kvPartition range history).map verdict) :=
    List.forall₂_map_right_iff.mpr (List.forall₂_same.mpr hreturns)
  obtain ⟨init, hinit, hall⟩ := Checker.alwaysReturns_start
    (List.ne_nil_of_mem (filter_mem_kvPartition hop)) hpartitions
  refine ⟨init, _, hinit, hall, ?_⟩
  rw [linearizable_store_iff range h, List.all_map, List.all_eq_true]
  exact forall₂_congr hiff

/-- A put of `1` to key `a` during which the append of `2` to it is over, a get of key `b`, and a
get of key `a` that has both. -/
def storeHistory : List KvOperation :=
  [⟨⟨1, lit "a", lit "1"⟩, 0, ⟨[]⟩, 5⟩, ⟨⟨0, lit "b", []⟩, 1, ⟨[]⟩, 6⟩,
    ⟨⟨2, lit "a", lit "2"⟩, 2, ⟨[]⟩, 3⟩, ⟨⟨0, lit "a", []⟩, 4, ⟨lit "12"⟩, 7⟩]

theorem storeHistory_timed : Timed storeHistory := ⟨by decide, by decide⟩

/-- The put can only come before the append, and the get of `a` has to be last. -/
theorem storeHistory_linearizable :
    Linearizable (fun a b => a.ret < b.call) storeStep (fun _ => []) storeHistory := by
  refine ⟨[⟨⟨1, lit "a", lit "1"⟩, 0, ⟨[]⟩, 5⟩, ⟨⟨2, lit "a", lit "2"⟩, 2, ⟨[]⟩, 3⟩,
    ⟨⟨0, lit "b", []⟩, 1, ⟨[]⟩, 6⟩, ⟨⟨0, lit "a", []⟩, 4, ⟨lit "12"⟩, 7⟩], ?_, ?_, ?_⟩
  · exact .cons _ (.swap ..)
  · decide
  · exact Option.isSome_iff_exists.mp (by decide +kernel)

theorem checkOperations_kv_storeHistory :
    storeHistory ≠ [] ∧ Timed storeHistory ∧
    ∃ init,
      Checker.start (kvModel (RangeOrder.insertion _)) (UnstableSort.ascending Entry.time)
        storeHistory = some init ∧
      Checker.AlwaysReturns (kvModel (RangeOrder.insertion _)) init true := by
  have hne : storeHistory ≠ [] := by decide
  obtain ⟨init, result, hinit, hreturns, hiff⟩ := checkOperations_kv (RangeOrder.insertion _)
    (UnstableSort.ascending Entry.time) hne storeHistory_timed
  rw [hiff.mpr storeHistory_linearizable] at hreturns
  exact ⟨hne, storeHistory_timed, init, hinit, hreturns⟩

end Linearizability

end Distsys
