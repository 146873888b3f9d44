import Distsys.Lib.GoStd
import Distsys.Linearizability.Bitset

/-!
# The linearizability checker

`checkSingle` searches for an order of the operations of a history that a model accepts. The entries
of the history, calls and returns, are in a doubly linked list. The search goes along the list; an
operation whose call it meets before any return may come next, so its two entries are taken out of
the list and the search begins again at the front. When it meets a return there is no operation left
to try, and the last one that was taken out is put back.

Nodes are the elements of a heap and pointers are their numbers. `none` is a nil pointer; a function
that would dereference one returns `none`. The loop of `checkSingle` is a step function, so that
other goroutines can set `kill` between its rounds.

## Main definitions

* `Operation`, `Model`, `Entry`, `makeEntries`
* `Node`, `Heap`, `Heap.insertBefore`, `Heap.length`, `makeLinkedEntries`
* `Heap.lift`, `Heap.unlift`, `cacheContains`
* `Search`, `Search.start`, `Search.step`, `checkSingle`
-/

namespace Distsys

namespace Linearizability

variable {σ ι ο : Type}

/-- `Operation`. -/
structure Operation (ι ο : Type) where
  input : ι
  /-- The time of the call. -/
  call : ℤ
  output : ο
  /-- The time of the return. -/
  ret : ℤ
  deriving DecidableEq, Repr

/-- `NoPartition`. -/
def noPartition (history : List (Operation ι ο)) : List (List (Operation ι ο)) := [history]

/-- `Model`, after `fillDefault`. -/
structure Model (σ ι ο : Type) where
  /-- How a history is cut into parts that are checked on their own. -/
  partition : List (Operation ι ο) → List (List (Operation ι ο)) := noPartition
  init : σ
  /-- Whether the output is right in this state, and the next state. -/
  step : σ → ι → ο → Bool × σ
  /-- Which states are the same for the cache. -/
  equal : σ → σ → Bool

/-! ### Entries

`makeEntries` makes two entries of each operation and sorts all of them by time. The value of an
entry says what kind it is, where the source has a field `kind` and a value of type `interface{}`;
the number of an operation is its index in the history. -/

/-- The fields `kind` and `value` of an `entry`. -/
inductive EntryValue (ι ο : Type) where
  | callEntry (input : ι)
  | returnEntry (output : ο)
  deriving DecidableEq, Repr

/-- `entry`. -/
structure Entry (ι ο : Type) where
  value : EntryValue ι ο
  id : ℕ
  time : ℤ
  deriving DecidableEq, Repr

/-- The loop of `makeEntries`, with the counter `id`. -/
def entriesFrom : ℕ → List (Operation ι ο) → List (Entry ι ο)
  | _, [] => []
  | id, elem :: history =>
    ⟨.callEntry elem.input, id, elem.call⟩ :: ⟨.returnEntry elem.output, id, elem.ret⟩ ::
      entriesFrom (id + 1) history

/-- `makeEntries`. -/
def makeEntries (sort : UnstableSort (Entry ι ο) fun a b => a.time < b.time)
    (history : List (Operation ι ο)) : List (Entry ι ο) :=
  sort.sort (entriesFrom 0 history)

/-! ### The list

Allocation appends to the list of nodes, so a pointer is an index and a node is never moved. `deref`
is the only way to get at a node, and fails for nil and for what is not allocated. -/

/-- `node`. The head has no value. -/
structure Node (ι ο : Type) where
  value : Option (EntryValue ι ο)
  /-- The node of the return, for a call that has one. -/
  matching : Option ℕ
  /-- The number of the operation. -/
  id : ℕ
  next : Option ℕ
  prev : Option ℕ
  deriving DecidableEq, Repr

/-- The nodes that have been allocated. -/
structure Heap (ι ο : Type) where
  nodes : List (Node ι ο)
  deriving DecidableEq, Repr

namespace Heap

/-- The node a pointer points to. -/
def deref (h : Heap ι ο) (p : Option ℕ) : Option (Node ι ο) := p.bind fun p => h.nodes[p]?

/-- An assignment to a field of a node. -/
def assign (h : Heap ι ο) (p : Option ℕ) (f : Node ι ο → Node ι ο) : Option (Heap ι ο) :=
  p.bind fun p => h.nodes[p]?.map fun node => ⟨h.nodes.set p (f node)⟩

/-- `p.next = v`. -/
def setNext (h : Heap ι ο) (p v : Option ℕ) : Option (Heap ι ο) :=
  h.assign p fun node => { node with next := v }

/-- `p.prev = v`. -/
def setPrev (h : Heap ι ο) (p v : Option ℕ) : Option (Heap ι ο) :=
  h.assign p fun node => { node with prev := v }

/-- `insertBefore`. -/
def insertBefore (h : Heap ι ο) (n : ℕ) (mark : Option ℕ) : Option (Heap ι ο) :=
  match mark with
  | none => some h
  | some _ => do
    let beforeMark := (← h.deref mark).prev
    let h ← h.setPrev mark (some n)
    let h ← h.setNext (some n) mark
    match beforeMark with
    | none => some h
    | some _ => do
      let h ← h.setPrev (some n) beforeMark
      h.setNext beforeMark (some n)

/-- The loop of `length`, with a bound on its rounds. -/
def lengthLoop (h : Heap ι ο) : ℕ → Option ℕ → ℕ → Option ℕ
  | _, none, l => some l
  | 0, some _, _ => none
  | fuel + 1, some n, l => do
    let node ← h.nodes[n]?
    h.lengthLoop fuel node.next (l + 1)

/-- `length`. A list that ends has no more nodes than there are. -/
def length (h : Heap ι ο) (n : Option ℕ) : Option ℕ := h.lengthLoop h.nodes.length n 0

/-- `lift`. -/
def lift (h : Heap ι ο) (entry : Option ℕ) : Option (Heap ι ο) := do
  let e ← h.deref entry
  let h ← h.setNext e.prev e.next
  let e ← h.deref entry
  let h ← h.setPrev e.next e.prev
  let e ← h.deref entry
  let m ← h.deref e.matching
  let h ← h.setNext m.prev m.next
  let m ← h.deref e.matching
  match m.next with
  | some _ => h.setPrev m.next m.prev
  | none => some h

/-- `unlift`. -/
def unlift (h : Heap ι ο) (entry : Option ℕ) : Option (Heap ι ο) := do
  let e ← h.deref entry
  let m ← h.deref e.matching
  let h ← h.setNext m.prev e.matching
  let m ← h.deref e.matching
  let h ← match m.next with
    | some _ => h.setPrev m.next e.matching
    | none => some h
  let e ← h.deref entry
  let h ← h.setNext e.prev entry
  let e ← h.deref entry
  h.setPrev e.next entry

end Heap

/-- The variables of `makeLinkedEntries`. -/
structure Builder (ι ο : Type) where
  heap : Heap ι ο
  /-- The first node of the list so far. -/
  root : Option ℕ
  /-- `match`, from the number of an operation to the node of its return. -/
  matchMap : ℕ → Option ℕ

/-- The body of the loop of `makeLinkedEntries`. -/
def Builder.add (elem : Entry ι ο) (b : Builder ι ο) : Option (Builder ι ο) :=
  let n := b.heap.nodes.length
  match elem.value with
  | .returnEntry _ => do
    let node : Node ι ο := ⟨some elem.value, none, elem.id, none, none⟩
    let heap ← Heap.insertBefore ⟨b.heap.nodes ++ [node]⟩ n b.root
    return ⟨heap, some n, Function.update b.matchMap elem.id (some n)⟩
  | .callEntry _ => do
    let node : Node ι ο := ⟨some elem.value, b.matchMap elem.id, elem.id, none, none⟩
    let heap ← Heap.insertBefore ⟨b.heap.nodes ++ [node]⟩ n b.root
    return ⟨heap, some n, b.matchMap⟩

/-- `makeLinkedEntries`, from the last entry to the first. -/
def makeLinkedEntries (entries : List (Entry ι ο)) : Option (Builder ι ο) :=
  entries.foldrM Builder.add ⟨⟨[]⟩, none, fun _ => none⟩

/-! ### The search

The local variables of `checkSingle` are a record, and a round of its loop is a function on it.
`Search.step` returns the next record, or the result. `checkSingle` runs it with fuel; that some
fuel is enough is a theorem and not part of the definition. -/

/-- `cacheEntry`. -/
structure CacheEntry (σ : Type) where
  linearized : Bitset
  state : σ

/-- `cacheContains`. -/
def cacheContains (model : Model σ ι ο) (cache : BitVec 64 → List (CacheEntry σ))
    (entry : CacheEntry σ) : Bool :=
  (cache entry.linearized.hash).any fun elem =>
    entry.linearized.equals elem.linearized && model.equal entry.state elem.state

/-- The variables of `checkSingle`. The last element of `calls` comes first here. -/
structure Search (σ ι ο : Type) where
  heap : Heap ι ο
  /-- The node in front of the list. -/
  headEntry : ℕ
  /-- The node that is looked at. -/
  entry : Option ℕ
  /-- The operations that are taken out. -/
  linearized : Bitset
  cache : BitVec 64 → List (CacheEntry σ)
  /-- The calls that were taken out, with the states from before. -/
  calls : List (Option ℕ × σ)
  state : σ

/-- `model.Step`, which panics unless the values are an input and an output. -/
def Model.stepValues (model : Model σ ι ο) (state : σ) (input output : Option (EntryValue ι ο)) :
    Option (Bool × σ) :=
  match input, output with
  | some (.callEntry i), some (.returnEntry o) => some (model.step state i o)
  | _, _ => none

namespace Search

variable (model : Model σ ι ο)

/-- What `checkSingle` does before its loop. -/
def start (heap : Heap ι ο) (subhistory : Option ℕ) : Option (Search σ ι ο) := do
  let n := (← heap.length subhistory) / 2
  let headEntry := heap.nodes.length
  let head : Node ι ο := ⟨none, none, 2 ^ 64 - 1, none, none⟩
  let heap ← Heap.insertBefore ⟨heap.nodes ++ [head]⟩ headEntry subhistory
  return {
    heap, headEntry
    entry := subhistory
    linearized := Bitset.new n
    cache := fun _ => []
    calls := []
    state := model.init }

/-- A round of the loop of `checkSingle`, in which it may return. -/
def step (kill : Bool) (s : Search σ ι ο) : Option (Search σ ι ο ⊕ Bool) := do
  let head ← s.heap.deref (some s.headEntry)
  if head.next = none then return .inr true
  if kill then return .inr false
  let entry ← s.heap.deref s.entry
  if entry.matching ≠ none then
    let matching ← s.heap.deref entry.matching
    let (ok, newState) ← model.stepValues s.state entry.value matching.value
    if ok then
      let newLinearized ← s.linearized.set entry.id
      let newCacheEntry : CacheEntry σ := ⟨newLinearized, newState⟩
      if ¬ cacheContains model s.cache newCacheEntry then
        let hash := newLinearized.hash
        let linearized ← s.linearized.set entry.id
        let heap ← s.heap.lift s.entry
        let head ← heap.deref (some s.headEntry)
        return .inl { s with
          heap, linearized
          cache := Function.update s.cache hash (s.cache hash ++ [newCacheEntry])
          calls := (s.entry, s.state) :: s.calls
          state := newState
          entry := head.next }
      else return .inl { s with entry := entry.next }
    else return .inl { s with entry := entry.next }
  else
    match s.calls with
    | [] => return .inr false
    | (top, state) :: calls =>
      let entry ← s.heap.deref top
      let linearized ← s.linearized.clear entry.id
      let heap ← s.heap.unlift top
      let entry ← heap.deref top
      return .inl { s with heap, linearized, calls, state, entry := entry.next }

/-- The loop, never killed, with a bound on its rounds. -/
def run : ℕ → Search σ ι ο → Option (Search σ ι ο ⊕ Bool)
  | 0, s => some (.inl s)
  | fuel + 1, s =>
    match s.step model false with
    | some (.inl s') => run fuel s'
    | r => r

end Search

/-- `checkSingle`, never killed, with a bound on the rounds of its loop: `some (.inr b)` if it
returns `b` within the bound, `none` if it panics. -/
def checkSingle (model : Model σ ι ο) (heap : Heap ι ο) (subhistory : Option ℕ) (fuel : ℕ) :
    Option (Search σ ι ο ⊕ Bool) :=
  (Search.start model heap subhistory).bind (Search.run model fuel)

end Linearizability

end Distsys
