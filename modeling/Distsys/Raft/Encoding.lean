import Distsys.Lib.SliceHeap
import Distsys.Raft.Durable
import Distsys.Raft.Guards

/-!
# Entries are encoded after they are chosen

`heartbeat` puts `rf.log[nextIndex:]` into the arguments of an `AppendEntries`. That is a slice into
the array of the log, not a copy. The goroutine of `sendAppendEntries` hands the arguments to
`Call`, which encodes them without holding `rf.mu`. Until it is done, an `AppendEntries` that the
peer accepts itself may write into the same array: `append(rf.log[:k], ..)` stays in place as long
as the capacity suffices. What is sent is then neither what the log was nor what it is.

`Cluster.step` sends the entries as they are in the critical section of `heartbeat`. Here is the
level below it. Each peer has its arrays, and `rf.log` is a slice. A request for `AppendEntries` is
handed to an encoder, which reads its entries one by one, at any time, and the network can deliver
it once the encoder is done. How much capacity a new array gets is up to Go and part of the action.

## The two levels

The packets of `State.cluster` are the values that have been read, and the values at the time of
the critical section where nothing has been read yet. A step of this level is a step of
`Cluster.step`, or a step of an encoder that the cluster does not see, *provided that* the encoder
reads what was there when the request was built. This is the guard `AsBuilt`. Nothing in the source
establishes it. What is proved for all guarded runs of the cluster holds for all guarded runs here
that also encode their requests as built, by `view_reaches`. In the other direction every run of the
cluster is a run of this level, with encoders that finish before anything else happens
(`Settled.exists_path`), so a counterexample there is one here.

An encoder outlives its peer. An entry is read in one step; that a racing write might tear it is
left out.

## Main definitions

* `Memory`, `LogUpdate` — the arrays of a peer, and the assignments to `rf.log`
* `Encoding.State`, `Encoding.step`, `Encoding.system`
* `Encoding.view` — the cluster and the events it has emitted
* `Encoding.AsBuilt`
* `Encoding.Event.packet?` — what goes onto the wire

## Main results

* `Encoding.view_reaches`, `Encoding.view_path` — runs that encode as built are runs of the cluster
* `Encoding.Settled.exists_path`, `Encoding.exists_reachable` — runs of the cluster are such runs
-/

namespace Distsys

variable {n : ℕ} {α : Type}

/-! ### The log as a slice

The source assigns to `rf.log` in three ways: it is set to a new slice, in `Make` and by
`readPersist`; `Start` appends one entry to it; and `AppendEntries` appends the entries of a message
to a part of it. The last two write into the array they find if there is room. -/

/-- The arrays of a peer, and its `rf.log`. -/
structure Memory (α : Type) where
  heap : SliceHeap (LogEntry α)
  log : Slice
  deriving DecidableEq, Repr

/-- An assignment to `rf.log`. -/
inductive LogUpdate (α : Type) where
  /-- `Make` or `readPersist`: a new array. -/
  | make (log : List (LogEntry α))
  /-- `append(rf.log[:keep], entries...)`. -/
  | append (keep : ℕ) (entries : List (LogEntry α))
  deriving DecidableEq, Repr

namespace Memory

/-- An assignment to `rf.log`. A new array has `spare` more cells than needed. -/
def update [Inhabited α] (m : Memory α) (spare : ℕ) : LogUpdate α → Memory α
  | .make log =>
    let r := m.heap.alloc (log ++ List.replicate spare default) log.length
    ⟨r.1, r.2⟩
  | .append keep entries =>
    let r := m.heap.append (m.log.upTo keep) entries default spare
    ⟨r.1, r.2⟩

/-- `rf.log` is a slice with these elements. -/
structure Holds (m : Memory α) (log : List (LogEntry α)) : Prop where
  valid : m.heap.Valid m.log
  read : m.heap.read m.log = log

theorem Holds.length {m : Memory α} {log : List (LogEntry α)} (h : m.Holds log) :
    m.log.length = log.length := by
  rw [← h.read, h.valid.length_read]

theorem holds_make [Inhabited α] (m : Memory α) (spare : ℕ) (log : List (LogEntry α)) :
    (m.update spare (.make log)).Holds log :=
  ⟨SliceHeap.valid_alloc (by simp), by simp [update, SliceHeap.read_alloc_self]⟩

theorem Holds.append [Inhabited α] {m : Memory α} {log : List (LogEntry α)} (h : m.Holds log)
    {keep : ℕ} (hkeep : keep ≤ log.length) (spare : ℕ) (entries : List (LogEntry α)) :
    (m.update spare (.append keep entries)).Holds (log.take keep ++ entries) := by
  have hle : keep ≤ m.log.length := h.length.symm ▸ hkeep
  have hvalid := h.valid.upTo hle
  refine ⟨SliceHeap.valid_append hvalid entries default spare, ?_⟩
  exact (SliceHeap.read_append hvalid entries default spare).trans
    (by rw [SliceHeap.read_upTo hle, h.read])

end Memory

/-- The encoding of the arguments of an `AppendEntries` in `Call`. -/
structure Encoder where
  /-- `args.Entries`. -/
  entries : Slice
  /-- How many of them have been read. -/
  read : ℕ
  deriving DecidableEq, Repr

/-- A call with another entry at one place. -/
def EntriesCall.setEntry (call : EntriesCall n α) (i : ℕ) (entry : LogEntry α) :
    EntriesCall n α :=
  { call with args := { call.args with entries := call.args.entries.set i entry } }

/-- An encoder has read an entry of request `k`. The goroutine that waits for the reply is the one
that encodes, so its request changes too. -/
def Cluster.setEntry [DecidableEq α] (s : Cluster n α) (k : ℕ) (call : EntriesCall n α) (i : ℕ)
    (entry : LogEntry α) : Cluster n α :=
  { s with
    node := Function.update s.node call.args.leaderID
      (match s.node call.args.leaderID with
      | .up rf gs => .up rf
          (gs.replace (.callAppendEntries call) (.callAppendEntries (call.setEntry i entry)))
      | .down persister => .down persister)
    net := s.net.set k (.appendEntries (call.setEntry i entry)) }

namespace Encoding

/-- The cluster, the arrays of its peers, and the encoder at work on each packet of the network. -/
structure State (n : ℕ) (α : Type) where
  cluster : Cluster n α
  /-- The arrays of a peer. They are not shared between peers. -/
  memory : Fin n → Memory α
  /-- In the order of the packets; `none` where there is nothing to encode, or nothing left. -/
  encoders : List (Option Encoder)

/-- What happens next. -/
inductive Action (n : ℕ) (α : Type) where
  /-- A step of the cluster. If it allocates an array for a log, this has `spare` cells more than
  needed. -/
  | cluster (a : Distsys.Action n α) (spare : ℕ)
  /-- The encoder of request `k` reads the next entry. -/
  | read (k : ℕ)
  /-- The encoder of request `k` is done, and the request goes to the network. -/
  | send (k : ℕ)
  deriving DecidableEq, Repr

/-- What an observer sees. For a request of `AppendEntries`, the event of the cluster says that it
was given to `sendAppendEntries`, and the event of the encoder that it was sent. -/
inductive Event (n : ℕ) (α : Type) where
  | cluster (e : Distsys.Event n α)
  | encoded (call : EntriesCall n α)
  deriving DecidableEq, Repr

/-- The step of the cluster that an action is. -/
def Action.cluster? : Action n α → Option (Distsys.Action n α)
  | .cluster a _ => some a
  | _ => none

/-- The event of the cluster that an event is. -/
def Event.cluster? : Event n α → Option (Distsys.Event n α)
  | .cluster e => some e
  | .encoded _ => none

/-- The packet that an event puts on the wire. -/
def Event.packet? : Event n α → Option (Packet n α)
  | .cluster (.sent (.appendEntries _)) => none
  | .cluster (.sent packet) => some packet
  | .cluster _ => none
  | .encoded call => some (.appendEntries call)

/-! ### Steps

An action of this level is one of the cluster, together with the capacities that `append` chooses,
or an encoder that reads its next entry. The cluster's part of a step is `Cluster.step`, without
change; a packet whose encoder is at work cannot be delivered. -/

/-- The peer whose log a step of the cluster assigns to, and what. -/
def logUpdate [Inhabited α] (gob : Labgob n α) (s : Cluster n α) :
    Distsys.Action n α → Option (Fin n × LogUpdate α)
  | .make p => some (p, .make (Raft.make gob p (s.node p).persister).log)
  | .start p command =>
    match s.node p with
    | .up rf _ =>
      if rf.phase = .leader then some (p, .append rf.log.length [⟨rf.currentTerm, command⟩])
      else none
    | .down _ => none
  | .run p g =>
    match s.node p with
    | .up rf gs =>
      match gs[g]? with
      | some (.appendEntries call _) =>
        if rf.Accepts call.args then
          some (p, .append (call.args.prevLogIndex + 1).toNat call.args.entries)
        else none
      | _ => none
    | .down _ => none
  | _ => none

/-- The arrays after a step of the cluster. -/
def assign [Inhabited α] (gob : Labgob n α) (s : State n α) (a : Distsys.Action n α) (spare : ℕ) :
    Fin n → Memory α :=
  match logUpdate gob s.cluster a with
  | none => s.memory
  | some (p, u) => Function.update s.memory p ((s.memory p).update spare u)

/-- The encoder that a packet is given to: `args.Entries = rf.log[nextIndex:]`. A slice that starts
at the end of the log has no elements, as `args.Entries` has then. -/
def encoder (memory : Fin n → Memory α) : Packet n α → Option Encoder
  | .appendEntries call =>
    some ⟨(memory call.args.leaderID).log.suffixFrom (call.args.prevLogIndex + 1).toNat, 0⟩
  | _ => none

/-- Only what has been encoded can be delivered. -/
def ready (encoders : List (Option Encoder)) : Distsys.Action n α → Bool
  | .deliver k => encoders[k]? = some none
  | _ => true

/-- What a step of the cluster leaves of a list that goes along with the network. -/
def undelivered {β : Type} (l : List β) : Distsys.Action n α → List β
  | .deliver k => l.eraseIdx k
  | _ => l

/-- The request `k` and its encoder, while it is encoded. -/
def State.encoding (s : State n α) (k : ℕ) : Option (EntriesCall n α × Encoder) :=
  match s.cluster.net[k]?, s.encoders[k]? with
  | some (.appendEntries call), some (some e) => some (call, e)
  | _, _ => none

/-- The entry that the encoder of request `k` finds next. -/
def State.found (s : State n α) (call : EntriesCall n α) (e : Encoder) : Option (LogEntry α) :=
  (s.memory call.args.leaderID).heap.get e.entries e.read

variable [Inhabited α] [DecidableEq α]

/-- One step, with the events it emits. -/
def step (gob : Labgob n α) (s : State n α) : Action n α → Option (State n α × List (Event n α))
  | .cluster a spare =>
    if ready s.encoders a then
      (s.cluster.step gob a).map fun r =>
        let memory := assign gob s a spare
        ({ cluster := r.1
           memory
           encoders := undelivered s.encoders a ++ (packets r.2).map (encoder memory) },
          r.2.map .cluster)
    else none
  | .read k =>
    (s.encoding k).bind fun r =>
      (s.found r.1 r.2).map fun entry =>
        ({ s with
            cluster := s.cluster.setEntry k r.1 r.2.read entry
            encoders := s.encoders.set k (some { r.2 with read := r.2.read + 1 }) }, [])
  | .send k =>
    (s.encoding k).bind fun r =>
      if r.2.read = r.2.entries.length then
        some ({ s with encoders := s.encoders.set k none }, [.encoded r.1])
      else none

/-- At first every peer is down and there is no array. -/
def system (gob : Labgob n α) : System (State n α) (Action n α) (Event n α) where
  init := {
    cluster := (Cluster.system gob).init
    memory := fun _ => ⟨⟨[]⟩, ⟨0, 0, 0⟩⟩
    encoders := [] }
  step := step gob

/-- A configuration of this level. -/
abbrev Cfg (n : ℕ) (α : Type) : Type := System.Config (State n α) (Event n α)

/-- What there is to see of the cluster. -/
def view (s : Cfg n α) : Cluster.Cfg n α :=
  ⟨s.state.cluster, s.trace.filterMap Event.cluster?⟩

/-- The guard of the runs that encode their requests as they were built, and whose steps of the
cluster meet `ok`. -/
def AsBuilt (ok : Cluster.Cfg n α → Distsys.Action n α → Prop) (s : Cfg n α) : Action n α → Prop
  | .cluster a _ => ok (view s) a
  | .read k => ∀ r ∈ s.state.encoding k, ∀ entry ∈ s.state.found r.1 r.2,
      r.1.args.entries[r.2.read]? = some entry
  | .send _ => True

variable {gob : Labgob n α} {ok : Cluster.Cfg n α → Distsys.Action n α → Prop} {s s' : Cfg n α}
  {c c' : Cluster.Cfg n α} {a : Action n α} {as : List (Action n α)}

omit [Inhabited α] [DecidableEq α] in
@[simp] theorem mem_view_trace {e : Distsys.Event n α} :
    e ∈ (view s).trace ↔ .cluster e ∈ s.trace := by
  simp only [view, List.mem_filterMap]
  constructor
  · rintro ⟨e', he', h⟩
    cases e' <;> cases h
    exact he'
  · intro h
    exact ⟨_, h, rfl⟩

omit [Inhabited α] [DecidableEq α] in
theorem encoding_eq_some {s : State n α} {k : ℕ} {call : EntriesCall n α} {e : Encoder} :
    s.encoding k = some (call, e) ↔
      s.cluster.net[k]? = some (.appendEntries call) ∧ s.encoders[k]? = some (some e) := by
  unfold State.encoding
  split
  · rename_i h h'
    rw [h, h']
    simp
  · rename_i h
    constructor
    · exact nofun
    · rintro ⟨hk, he⟩
      exact absurd he (h call e hk)

/-- Only an encoder that is done emits its request. -/
theorem encoding_of_encoded {s s' : State n α} {es : List (Event n α)} {call : EntriesCall n α}
    (h : step gob s a = some (s', es)) (hcall : .encoded call ∈ es) :
    ∃ k e, s.encoding k = some (call, e) := by
  cases a with
  | cluster a spare =>
    simp only [step] at h
    split at h
    · obtain ⟨r, _, heq⟩ := Option.map_eq_some_iff.mp h
      rw [← (Prod.mk.inj heq).2] at hcall
      obtain ⟨_, _, hne⟩ := List.mem_map.mp hcall
      cases hne
    · cases h
  | read k =>
    obtain ⟨_, _, h⟩ := Option.bind_eq_some_iff.mp h
    obtain ⟨_, _, heq⟩ := Option.map_eq_some_iff.mp h
    rw [← (Prod.mk.inj heq).2] at hcall
    cases hcall
  | send k =>
    obtain ⟨r, hr, h⟩ := Option.bind_eq_some_iff.mp h
    split at h
    · rw [← (Prod.mk.inj (Option.some.inj h)).2] at hcall
      cases List.mem_singleton.mp hcall
      exact ⟨k, r.2, hr⟩
    · cases h

/-! ### Down to the cluster

A step that is as built is none for the cluster, or the step of the cluster that its action names.
-/

omit [Inhabited α] in
/-- What was read is what was there. -/
theorem setEntry_eq_self {s : Cluster n α} {k i : ℕ} {call : EntriesCall n α} {entry : LogEntry α}
    (hk : s.net[k]? = some (.appendEntries call)) (hi : call.args.entries[i]? = some entry) :
    s.setEntry k call i entry = s := by
  have hcall : call.setEntry i entry = call := by
    have hset : call.args.entries.set i entry = call.args.entries := by
      obtain ⟨hlt, rfl⟩ := List.getElem?_eq_some_iff.mp hi
      exact List.set_getElem_self hlt
    rw [EntriesCall.setEntry, hset]
  have hnet : s.net.set k (.appendEntries call) = s.net := by
    obtain ⟨hlt, he⟩ := List.getElem?_eq_some_iff.mp hk
    rw [← he, List.set_getElem_self hlt]
  have hnode : Function.update s.node call.args.leaderID
      (match s.node call.args.leaderID with
      | .up rf gs => .up rf (gs.replace (.callAppendEntries call) (.callAppendEntries call))
      | .down persister => .down persister) = s.node := by
    refine Function.update_eq_self_iff.mpr ?_
    split
    · rename_i rf gs hnd
      rw [hnd, replace_self]
    · rename_i hnd
      rw [hnd]
  rw [Cluster.setEntry, hcall, hnet, hnode]

/-- **The step lemma down.** A step is a step of the cluster or leaves it as it is. -/
theorem view_next (ha : AsBuilt ok s a) (hn : (system gob).next s a = some s') :
    (∃ a' ∈ a.cluster?, ok (view s) a' ∧
      (Cluster.system gob).next (view s) a' = some (view s')) ∨
    a.cluster? = none ∧ view s' = view s := by
  obtain ⟨es, hs, ht⟩ := System.next_eq_some_iff.mp hn
  cases a with
  | cluster a spare =>
    refine Or.inl ⟨a, rfl, ha, System.next_eq_some_iff.mpr ?_⟩
    simp only [system, step] at hs
    split at hs
    · obtain ⟨⟨c', es'⟩, hc', heq⟩ := Option.map_eq_some_iff.mp hs
      obtain ⟨hstate, rfl⟩ := Prod.mk.inj heq
      refine ⟨es', ?_, ?_⟩
      · simp only [view, ← hstate]
        exact hc'
      · simp [view, ht, List.filterMap_map, Function.comp_def, Event.cluster?]
    · cases hs
  | read k =>
    refine Or.inr ⟨rfl, ?_⟩
    obtain ⟨⟨call, e⟩, hr, hs⟩ := Option.bind_eq_some_iff.mp hs
    obtain ⟨entry, hf, heq⟩ := Option.map_eq_some_iff.mp hs
    obtain ⟨hstate, rfl⟩ := Prod.mk.inj heq
    have hsame := setEntry_eq_self (encoding_eq_some.mp hr).1 (ha _ hr _ hf)
    simp only [view, ht, ← hstate, hsame, List.append_nil]
  | send k =>
    refine Or.inr ⟨rfl, ?_⟩
    obtain ⟨⟨call, e⟩, hr, hs⟩ := Option.bind_eq_some_iff.mp hs
    split at hs
    · obtain ⟨hstate, rfl⟩ := Prod.mk.inj (Option.some.inj hs)
      simp [view, ht, ← hstate, Event.cluster?]
    · cases hs

@[simp] theorem view_start : view (system gob).start = (Cluster.system gob).start := rfl

/-- A run that encodes its requests as built is a run of the cluster, without the steps of the
encoders. -/
theorem view_path (h : (system gob).Path (AsBuilt ok) s as s') :
    (Cluster.system gob).Path ok (view s) (as.filterMap Action.cluster?) (view s') := by
  induction h with
  | nil => exact .nil _
  | cons ha hn _ ih =>
    rcases view_next ha hn with ⟨a', ha', hok, hn'⟩ | ⟨hnone, hview⟩
    · rw [List.filterMap_cons_some ha']
      exact .cons hok hn' ih
    · rw [List.filterMap_cons_none hnone, ← hview]
      exact ih

/-- **What holds of the cluster holds here.** -/
theorem view_reaches (h : (system gob).Reaches (AsBuilt ok) s s') :
    (Cluster.system gob).Reaches ok (view s) (view s') := by
  obtain ⟨as, has⟩ := h.exists_path
  exact (view_path has).reaches

theorem view_reachable (h : (system gob).Reachable (AsBuilt ok) s) :
    (Cluster.system gob).Reachable ok (view s) := view_reaches h

/-- A run that encodes its requests as built goes through what the run of the cluster goes
through. -/
theorem exists_visits (h : (system gob).Path (AsBuilt ok) (system gob).start as s)
    (hc : (Cluster.system gob).Visits (as.filterMap Action.cluster?) c) :
    ∃ d, (system gob).Visits as d ∧ view d = c := by
  obtain ⟨bs, ⟨cs, hcs⟩, hbs⟩ := hc
  obtain ⟨as₁, as₂, rfl, rfl, _⟩ := List.filterMap_eq_append_iff.mp hcs.symm
  obtain ⟨d, hd, _⟩ := h.exists_of_append
  refine ⟨d, ⟨as₁, List.prefix_append as₁ as₂, hd.exec⟩, ?_⟩
  exact Option.some.inj ((view_path hd).exec.symm.trans hbs)

theorem visits_view (h : (system gob).Path (AsBuilt ok) (system gob).start as s) {d : Cfg n α}
    (hd : (system gob).Visits as d) :
    (Cluster.system gob).Visits (as.filterMap Action.cluster?) (view d) := by
  obtain ⟨bs, hbs, hpath⟩ := h.visits hd
  exact ⟨bs.filterMap Action.cluster?, hbs.filterMap _, (view_path hpath).exec⟩

/-! ### Peers in any run

The nodes of the cluster only change in what goroutines wait for when an encoder reads something
else than what was built. -/

omit [Inhabited α] in
theorem node_setEntry {s : Cluster n α} {k i : ℕ} {call : EntriesCall n α} {entry : LogEntry α}
    {p : Fin n} :
    (∀ persister, (s.setEntry k call i entry).node p = .down persister ↔
      s.node p = .down persister) ∧
    ∀ rf gs, (s.setEntry k call i entry).node p = .up rf gs → ∃ gs', s.node p = .up rf gs' := by
  rcases eq_or_ne p call.args.leaderID with rfl | hp
  · simp only [Cluster.setEntry, Function.update_self]
    cases hnd : s.node call.args.leaderID with
    | down persister => simp
    | up rf gs => simp
  · have hnode : (s.setEntry k call i entry).node p = s.node p := Function.update_of_ne hp _ _
    rw [hnode]
    exact ⟨fun _ => Iff.rfl, fun _ gs h => ⟨gs, h⟩⟩

/-- **Inversion of a step, for one peer.** It takes a step of its own, or keeps its struct. -/
theorem node_of_next (hn : (system gob).next s a = some s') (p : Fin n) :
    (∃ a' es, a.cluster? = some a' ∧
      NodeStep gob s.state.cluster.net p a' (s.state.cluster.node p) (s'.state.cluster.node p) es) ∨
    (∀ persister, s'.state.cluster.node p = .down persister ↔
      s.state.cluster.node p = .down persister) ∧
    ∀ rf gs, s'.state.cluster.node p = .up rf gs → ∃ gs', s.state.cluster.node p = .up rf gs' := by
  obtain ⟨es, hs, _⟩ := System.next_eq_some_iff.mp hn
  cases a with
  | cluster a spare =>
    simp only [system, step] at hs
    split at hs
    · obtain ⟨⟨c', es'⟩, hc', heq⟩ := Option.map_eq_some_iff.mp hs
      rw [← (Prod.mk.inj heq).1]
      obtain ⟨q, nd, hm⟩ := Cluster.step_moves hc'
      dsimp only
      rw [hm.node_eq]
      rcases eq_or_ne p q with rfl | hq
      · rw [Function.update_self]
        exact Or.inl ⟨a, es', rfl, hm.node_step⟩
      · rw [Function.update_of_ne hq]
        exact Or.inr ⟨fun _ => Iff.rfl, fun _ gs h => ⟨gs, h⟩⟩
    · cases hs
  | read k =>
    obtain ⟨_, _, hs⟩ := Option.bind_eq_some_iff.mp hs
    obtain ⟨_, _, heq⟩ := Option.map_eq_some_iff.mp hs
    rw [← (Prod.mk.inj heq).1]
    exact Or.inr node_setEntry
  | send k =>
    obtain ⟨_, _, hs⟩ := Option.bind_eq_some_iff.mp hs
    split at hs
    · rw [← (Prod.mk.inj (Option.some.inj hs)).1]
      exact Or.inr ⟨fun _ => Iff.rfl, fun _ gs h => ⟨gs, h⟩⟩
    · cases hs

/-- **The invariant rule for the struct of a peer that is up.** -/
theorem struct_invariant {I : Fin n → Raft n α → Prop} {ok : Cfg n α → Action n α → Prop}
    (hstep : ∀ p a nd rf', (∀ rf gs, nd = .up rf gs → I p rf) → StructStep gob p a nd rf' →
      I p rf') (hs : (system gob).Reachable ok s) {p : Fin n} {rf : Raft n α}
    {gs : List (Goroutine n α)} (hnd : s.state.cluster.node p = .up rf gs) : I p rf := by
  refine System.Reachable.invariant (M := system gob)
    (P := fun s => ∀ rf gs, s.state.cluster.node p = .up rf gs → I p rf)
    (fun _ _ h => nomatch h) ?_ hs rf gs hnd
  intro s a s' _ hI _ hn rf gs hnd
  rcases node_of_next hn p with ⟨a', es, _, h⟩ | ⟨_, hup⟩
  · rw [hnd] at h
    exact hstep p a' _ rf hI h.struct
  · obtain ⟨gs', hnd'⟩ := hup rf gs hnd
    exact hI rf gs' hnd'

/-! ### The memory holds the logs

At the end of every critical section the slice `rf.log` has the elements of the log. This does not
need the guard: what an encoder reads has no influence on the arrays. -/

omit [Inhabited α] [DecidableEq α] in
/-- Among the critical sections, only an accepted `AppendEntries` assigns to `rf.log`. -/
theorem log_of_runs {rf : Raft n α} {gr : Goroutine n α} {e : Effect n α} (h : Runs gob rf gr e) :
    (∃ call myTerm k, gr = .appendEntries call myTerm ∧ rf.Accepts call.args ∧
      call.args.prevLogIndex = ((k : ℕ) : ℤ) ∧ k < rf.log.length ∧
      e.rf.log = rf.log.take (k + 1) ++ call.args.entries) ∨
    e.rf.log = rf.log ∧
      ∀ call myTerm, gr = .appendEntries call myTerm → ¬ rf.Accepts call.args := by
  cases gr with
  | appendEntries call myTerm =>
    cases h with
    | merge hprev hterm hr =>
      obtain ⟨k, hk, hlog, _, _, _, hrf⟩ := mergeLog_at hprev hr
      refine Or.inl ⟨call, myTerm, k, rfl, ⟨_, hprev, hterm⟩, hk,
        (List.getElem?_eq_some_iff.mp hlog).1, ?_⟩
      rw [hrf]
      rfl
    | conflict hprev hterm _ =>
      refine Or.inr ⟨rfl, ?_⟩
      rintro _ _ ⟨⟩ ⟨prev, hprev', hterm'⟩
      cases hprev.symm.trans hprev'
      exact hterm hterm'
    | short hle =>
      refine Or.inr ⟨rfl, ?_⟩
      rintro _ _ ⟨⟩ ⟨prev, hprev, _⟩
      obtain ⟨k, hk, hlog⟩ := GoSlice.get_eq_some_iff.mp hprev
      have := (List.getElem?_eq_some_iff.mp hlog).1
      omega
  | _ =>
    refine Or.inr ⟨?_, nofun⟩
    rcases h.write with ⟨_, hd, _⟩ | ⟨_, hw⟩
    · exact congrArg (fun d => d.2.2) hd
    · generalize e.events = es at hw
      generalize hd : e.rf.durable = d at hw
      cases hw <;> exact congrArg (fun d => d.2.2) hd

omit [DecidableEq α] in
/-- **The memory holds the log** of a peer that is up after a step of its own, -/
theorem holds_of_nodeStep {s : State n α} {a : Distsys.Action n α} {p : Fin n}
    {es : List (Distsys.Event n α)} {rf : Raft n α} {gs : List (Goroutine n α)}
    (hm : ∀ rf gs, s.cluster.node p = .up rf gs → (s.memory p).Holds rf.log) (spare : ℕ)
    (h : NodeStep gob s.cluster.net p a (s.cluster.node p) (.up rf gs) es) :
    (assign gob s a spare p).Holds rf.log := by
  generalize hnd : s.cluster.node p = nd at h hm
  cases h with
  | make =>
    simp only [assign, logUpdate, hnd, Node.persister, Function.update_self]
    exact Memory.holds_make _ _ _
  | start hl =>
    simp only [assign, logUpdate, hnd, hl, if_true, Function.update_self]
    have happend := (hm _ _ rfl).append (Nat.le_refl _) spare
    rw [List.take_length] at happend
    exact happend _
  | startRefused hl =>
    simp only [assign, logUpdate, hnd, hl, if_false]
    exact hm _ _ rfl
  | @run rf gs g gr e hg hr =>
    rcases log_of_runs hr with ⟨call, myTerm, k, rfl, hacc, hk, hlt, hlog⟩ | ⟨hlog, hno⟩
    · have hkeep : (call.args.prevLogIndex + 1).toNat = k + 1 := by omega
      simp only [assign, logUpdate, hnd, hg, hacc, if_true, Function.update_self, hkeep]
      rw [hlog]
      exact (hm _ _ rfl).append hlt spare _
    · have hnone : logUpdate gob s.cluster (.run p g) = none := by
        simp only [logUpdate, hnd, hg]
        split
        · rename_i heq
          rw [if_neg (hno _ _ (Option.some.inj heq))]
        · rfl
      rw [assign, hnone, hlog]
      exact hm _ _ rfl
  | kill => exact (hm _ _ rfl :)
  | timeout | reset | fail | requestVote | appendEntries | requestVoteReply | appendEntriesReply =>
    exact hm _ _ rfl

omit [DecidableEq α] in
/-- and the memory of the others is not touched. -/
theorem assign_of_ne {s : State n α} {a : Distsys.Action n α} {p q : Fin n} {nd : Node n α}
    {es : List (Distsys.Event n α)} (hq : q ≠ p) (spare : ℕ)
    (h : NodeStep gob s.cluster.net p a (s.cluster.node p) nd es) :
    assign gob s a spare q = s.memory q := by
  cases hu : logUpdate gob s.cluster a with
  | none => simp only [assign, hu]
  | some r =>
    have hp : r.1 = p := by
      generalize hnd : s.cluster.node p = nd₀ at h
      cases h <;> simp only [logUpdate, hnd] at hu
      all_goals grind
    simp only [assign, hu, hp, Function.update_of_ne hq]

/-! ### Up from the cluster

A run of the cluster is imitated by one in which each request is encoded as soon as it is sent.
Between two steps of the cluster nothing is being encoded, so the memory is not looked at by anyone.
-/

section Net

variable {s s' : Cluster n α} {a : Distsys.Action n α} {es : List (Distsys.Event n α)}

omit [Inhabited α] [DecidableEq α] in
private theorem net_put {s₀ : Cluster n α} {p : Fin n} {nd : Node n α}
    {es₀ : List (Distsys.Event n α)} (h : s₀.put p nd es₀ = (s', es)) :
    s'.net = s₀.net ++ packets es := by
  cases h
  rfl

omit [Inhabited α] [DecidableEq α] in
private theorem net_resume {s₀ : Cluster n α} {p : Fin n} {g : ℕ}
    {f : Goroutine n α → Option (List (Goroutine n α))} (h : s₀.resume p g f = some (s', es)) :
    s'.net = s₀.net ++ packets es := by
  unfold Cluster.resume at h
  split at h
  · cases h
  · obtain ⟨_, _, he⟩ := Option.map_eq_some_iff.mp h
    exact net_put he

omit [Inhabited α] in
private theorem net_deliver {s₀ : Cluster n α} {packet : Packet n α}
    (h : s₀.deliver packet = some (s', es)) : s'.net = s₀.net ++ packets es := by
  cases packet <;> simp only [Cluster.deliver] at h <;> split at h
  any_goals exact net_put (Option.some.inj h)
  any_goals cases h
  all_goals
    split at h
    · exact net_put (Option.some.inj h)
    · cases h

/-- A step takes the packet it delivers from the network and adds those it sends. -/
theorem net_of_step (h : s.step gob a = some (s', es)) :
    s'.net = undelivered s.net a ++ packets es := by
  cases a with
  | make | crash | kill | start =>
    simp only [Cluster.step] at h
    split at h
    any_goals exact net_put (Option.some.inj h)
    cases h
  | run =>
    simp only [Cluster.step] at h
    split at h
    · cases h
    · split at h
      · cases h
      · exact net_put (Option.some.inj h)
      · exact (net_put (Option.some.inj h) :)
  | timeout => exact net_resume h
  | reset =>
    simp only [Cluster.step] at h
    split at h
    · cases h
    · exact (net_resume h :)
  | fail => exact net_resume h
  | deliver =>
    simp only [Cluster.step] at h
    split at h
    · cases h
    · exact net_deliver h

end Net

/-- Every encoder that is at work finds in memory the entries of its request. -/
def Intact (s : State n α) : Prop :=
  ∀ (k : ℕ) (e : Encoder), s.encoders[k]? = some (some e) → ∃ call : EntriesCall n α,
    s.cluster.net[k]? = some (.appendEntries call) ∧ e.read ≤ e.entries.length ∧
    e.entries.length = call.args.entries.length ∧
    (s.memory call.args.leaderID).heap.read e.entries = call.args.entries

/-- How many steps an encoder has to go. -/
def stepsLeft : Option Encoder → ℕ
  | none => 0
  | some e => e.entries.length - e.read + 1

/-- An encoder goes on. The cluster does not see it, and the memory stays as it is. -/
structure Encodes (gob : Labgob n α) (s : Cfg n α) (a : Action n α) (s' : Cfg n α) : Prop where
  next : (system gob).next s a = some s'
  /-- Whatever is asked of the steps of the cluster. -/
  asBuilt : ∀ ok, AsBuilt ok s a
  action : a.cluster? = none
  view : view s' = view s
  memory : s'.state.memory = s.state.memory

omit [Inhabited α] [DecidableEq α] in
/-- The other encoders do not see what one of them does. -/
theorem Intact.set {s : State n α} (h : Intact s) {k : ℕ} {e : Option Encoder}
    (hlt : k < s.encoders.length)
    (he : ∀ e', e = some e' → ∃ call : EntriesCall n α,
      s.cluster.net[k]? = some (.appendEntries call) ∧ e'.read ≤ e'.entries.length ∧
      e'.entries.length = call.args.entries.length ∧
      (s.memory call.args.leaderID).heap.read e'.entries = call.args.entries) :
    Intact { s with encoders := s.encoders.set k e } := by
  intro j e' hj
  rcases eq_or_ne k j with rfl | hne
  · rw [List.getElem?_set_self hlt] at hj
    exact he e' (Option.some.inj hj)
  · rw [List.getElem?_set_ne hne] at hj
    exact h j e' hj

section Encodes

variable {k : ℕ} {e : Encoder} {call : EntriesCall n α}

/-- An encoder reads the entry that its request has at this place. -/
theorem encodes_read (henc : s.state.encoding k = some (call, e))
    (hread : (s.state.memory call.args.leaderID).heap.read e.entries = call.args.entries)
    (hlt : e.read < call.args.entries.length) :
    Encodes gob s (.read k) ⟨{ s.state with
      encoders := s.state.encoders.set k (some { e with read := e.read + 1 }) }, s.trace⟩ := by
  obtain ⟨entry, hentry⟩ : ∃ entry, call.args.entries[e.read]? = some entry :=
    ⟨_, List.getElem?_eq_getElem hlt⟩
  have hfound : s.state.found call e = some entry := by
    rw [State.found, SliceHeap.get, hread, hentry]
  have hsame := setEntry_eq_self (encoding_eq_some.mp henc).1 hentry
  refine ⟨?_, fun ok => ?_, rfl, rfl, rfl⟩
  · simp [System.next, system, step, henc, hfound, hsame]
  · rintro r hr entry' hentry'
    cases henc.symm.trans hr
    cases hfound.symm.trans hentry'
    exact hentry

/-- An encoder that has read all entries sends its request. -/
theorem encodes_send (henc : s.state.encoding k = some (call, e))
    (heq : e.read = e.entries.length) :
    Encodes gob s (.send k) ⟨{ s.state with encoders := s.state.encoders.set k none },
      s.trace ++ [.encoded call]⟩ := by
  refine ⟨?_, fun _ => trivial, rfl, ?_, rfl⟩
  · simp [System.next, system, step, henc, heq]
  · simp [Encoding.view, Event.cluster?]

variable (gob) in
/-- The step lemma for an encoder at work. -/
theorem Intact.encodes (h : Intact s.state) (hk : s.state.encoders[k]? = some (some e)) :
    ∃ a s' e', Encodes gob s a s' ∧ Intact s'.state ∧
      s'.state.encoders = s.state.encoders.set k e' ∧ stepsLeft e' < stepsLeft (some e) := by
  obtain ⟨call, hnet, hle, hlen, hread⟩ := h k e hk
  have hk' := (List.getElem?_eq_some_iff.mp hk).1
  have henc : s.state.encoding k = some (call, e) := encoding_eq_some.mpr ⟨hnet, hk⟩
  rcases Nat.lt_or_eq_of_le hle with hlt | heq
  · refine ⟨_, _, _, encodes_read henc hread (hlen ▸ hlt), h.set hk' ?_, rfl, ?_⟩
    · rintro _ ⟨⟩
      exact ⟨call, hnet, hlt, hlen, hread⟩
    · simp only [stepsLeft]
      omega
  · refine ⟨_, _, _, encodes_send henc heq, h.set hk' ?_, rfl, ?_⟩
    · rintro _ ⟨⟩
    · simp [stepsLeft]

end Encodes

variable (gob) in
/-- All encoders can finish. -/
theorem Intact.finish (h : Intact s.state) :
    ∃ as s', (∀ ok, (system gob).Path (AsBuilt ok) s as s') ∧ as.filterMap Action.cluster? = [] ∧
      view s' = view s ∧ s'.state.memory = s.state.memory ∧
      s'.state.encoders.length = s.state.encoders.length ∧ ∀ e ∈ s'.state.encoders, e = none := by
  -- by induction on the steps that the encoders have to go
  generalize hm : (s.state.encoders.map stepsLeft).sum = m
  induction m using Nat.strong_induction_on generalizing s with
  | _ m ih =>
    by_cases hidle : ∀ e ∈ s.state.encoders, e = none
    · exact ⟨[], s, fun _ => .nil s, rfl, rfl, rfl, rfl, hidle⟩
    · push Not at hidle
      obtain ⟨e, he, hne⟩ := hidle
      obtain ⟨k, hk⟩ := List.mem_iff_getElem?.mp he
      obtain ⟨e, rfl⟩ := Option.ne_none_iff_exists'.mp hne
      obtain ⟨a, s₁, e', hstep, h₁, henc, hlt⟩ := h.encodes gob hk
      have hsum := sum_map_set stepsLeft hk e'
      rw [← henc] at hsum
      obtain ⟨as, s', hpath, has, hview, hmem, hlen, hidle⟩ :=
        ih _ (by omega) h₁ rfl
      refine ⟨a :: as, s', fun ok => .cons (hstep.asBuilt ok) hstep.next (hpath ok), ?_,
        hview.trans hstep.view, hmem.trans hstep.memory, ?_, hidle⟩
      · rw [List.filterMap_cons_none hstep.action, has]
      · rw [hlen, henc, List.length_set]

/-- Nothing is being encoded, and the memory holds the logs. -/
structure Settled (gob : Labgob n α) (s : Cfg n α) : Prop where
  /-- The cluster got here on its own. -/
  reachable : (Cluster.system gob).Reachable (fun _ _ => True) (view s)
  length : s.state.encoders.length = s.state.cluster.net.length
  /-- Every request is encoded. -/
  idle : ∀ e ∈ s.state.encoders, e = none
  memory : ∀ p rf gs, s.state.cluster.node p = .up rf gs → (s.state.memory p).Holds rf.log

theorem settled_start : Settled gob (system gob).start where
  reachable := System.Reaches.refl _
  length := rfl
  idle := List.forall_mem_nil _
  memory := fun _ _ _ h => nomatch h

omit [Inhabited α] [DecidableEq α] in
private theorem ready_of_idle {encoders : List (Option Encoder)} {a : Distsys.Action n α}
    (h : ∀ e ∈ encoders, e = none) (hk : ∀ k, a = .deliver k → k < encoders.length) :
    ready encoders a = true := by
  cases a with
  | deliver k =>
    have he := List.getElem?_eq_getElem (hk k rfl)
    rw [h _ (List.mem_of_getElem? he)] at he
    simp [ready, he]
  | _ => rfl

omit [DecidableEq α] [Inhabited α] in
private theorem length_undelivered {β γ : Type} {l : List β} {m : List γ}
    (h : l.length = m.length) (a : Distsys.Action n α) :
    (undelivered l a).length = (undelivered m a).length := by
  cases a <;> simp [undelivered, h, List.length_eraseIdx]

omit [DecidableEq α] [Inhabited α] in
private theorem mem_of_mem_undelivered {β : Type} {l : List β} {a : Distsys.Action n α} {b : β}
    (h : b ∈ undelivered l a) : b ∈ l := by
  cases a with
  | deliver k => exact List.mem_of_mem_eraseIdx h
  | _ => exact h

/-- The step lemma for the memory. -/
theorem holds_of_step {s : State n α} {s' : Cluster n α} {a : Distsys.Action n α}
    {es : List (Distsys.Event n α)}
    (hm : ∀ p rf gs, s.cluster.node p = .up rf gs → (s.memory p).Holds rf.log) (spare : ℕ)
    (h : s.cluster.step gob a = some (s', es)) {q : Fin n} {rf : Raft n α}
    {gs : List (Goroutine n α)} (hnd : s'.node q = .up rf gs) :
    (assign gob s a spare q).Holds rf.log := by
  obtain ⟨p, nd, hmoves⟩ := Cluster.step_moves h
  rw [hmoves.node_eq] at hnd
  rcases eq_or_ne q p with rfl | hq
  · rw [Function.update_self] at hnd
    subst hnd
    exact holds_of_nodeStep (hm q) spare hmoves.node_step
  · rw [Function.update_of_ne hq] at hnd
    rw [assign_of_ne hq spare hmoves.node_step]
    exact hm q rf gs hnd

/-- A request that a step sends has the entries that its encoder finds in memory. -/
theorem Settled.request (h : Settled gob s) {a : Distsys.Action n α} {c' : Cluster n α}
    {es : List (Distsys.Event n α)} (hstep : s.state.cluster.step gob a = some (c', es))
    (spare : ℕ) {call : EntriesCall n α} (hcall : .sent (.appendEntries call) ∈ es) :
    let m := assign gob s.state a spare call.args.leaderID
    let entries := m.log.suffixFrom (call.args.prevLogIndex + 1).toNat
    entries.length = call.args.entries.length ∧ m.heap.read entries = call.args.entries := by
  obtain ⟨p, nd, hmoves⟩ := Cluster.step_moves hstep
  have hemits := hmoves.node_step.emits hcall
  have hnode := hmoves.node_eq
  generalize hnd : s.state.cluster.node p = nd₀ at hemits
  cases hemits with
  | @sent rf gs gs' gr e _ ha hrun _ =>
    have hme : rf.me = p := Cluster.me_of_reachable h.reachable hnd
    obtain ⟨hargs, hrf⟩ : rf.appendEntriesArgs call.server = some call.args ∧ e.rf = rf := by
      generalize hrf : e.rf = rf'
      have hsends := hrun.sends hcall
      rw [hrf] at hsends
      cases hsends with
      | appendEntries _ _ _ hargs => exact ⟨hargs, rfl⟩
    have hup : c'.node p = .up e.rf gs' := by rw [hnode, Function.update_self]
    have hholds : (assign gob s.state a spare p).Holds rf.log :=
      hrf ▸ holds_of_step h.memory spare hstep hup
    obtain ⟨_, k, _, _, _, _, heq⟩ := Raft.appendEntriesArgs_eq_some hargs
    have hk : ((k : ℤ) + 1).toNat = k + 1 := by omega
    rw [heq]
    dsimp only
    rw [hme, hk, SliceHeap.read_suffixFrom, hholds.read]
    exact ⟨by rw [Slice.suffixFrom, hholds.length, List.length_drop], rfl⟩

/-- After a step of the cluster, the new encoders find what was built. -/
theorem Settled.intact (h : Settled gob s) {a : Distsys.Action n α} {c' : Cluster n α}
    {es : List (Distsys.Event n α)} (hstep : s.state.cluster.step gob a = some (c', es))
    (spare : ℕ) :
    Intact {
      cluster := c'
      memory := assign gob s.state a spare
      encoders := undelivered s.state.encoders a ++
        (packets es).map (encoder (assign gob s.state a spare)) } := by
  intro k e hk
  have hlen := length_undelivered h.length a
  rcases Nat.lt_or_ge k (undelivered s.state.encoders a).length with hlt | hge
  · rw [List.getElem?_append_left hlt] at hk
    cases h.idle _ (mem_of_mem_undelivered (List.mem_of_getElem? hk))
  · rw [List.getElem?_append_right hge, List.getElem?_map] at hk
    obtain ⟨packet, hpacket, he⟩ := Option.map_eq_some_iff.mp hk
    cases packet with
    | appendEntries call =>
      cases he
      refine ⟨call, ?_, Nat.zero_le _, ?_⟩
      · dsimp only
        rw [net_of_step hstep, List.getElem?_append_right (hlen ▸ hge), ← hlen, hpacket]
      · exact h.request hstep spare (Cluster.mem_packets.mp (List.mem_of_getElem? hpacket))
    | _ => cases he

/-- **The step lemma up.** A step of the cluster, and then the encoders finish. -/
theorem Settled.follow (h : Settled gob s) {a : Distsys.Action n α}
    (hn : (Cluster.system gob).next (view s) a = some c') :
    ∃ as s', (∀ ok, ok (view s) a → (system gob).Path (AsBuilt ok) s as s') ∧
      as.filterMap Action.cluster? = [a] ∧ view s' = c' ∧ Settled gob s' := by
  obtain ⟨es, hstep, ht⟩ := System.next_eq_some_iff.mp hn
  have hstep : s.state.cluster.step gob a = some (c'.state, es) := hstep
  have hready : ready s.state.encoders a = true := by
    refine ready_of_idle h.idle fun k hk => ?_
    subst hk
    simp only [Cluster.step] at hstep
    split at hstep
    · cases hstep
    · rename_i hnet
      exact h.length ▸ (List.getElem?_eq_some_iff.mp hnet).1
  let s₁ : Cfg n α := ⟨{
    cluster := c'.state
    memory := assign gob s.state a 0
    encoders := undelivered s.state.encoders a ++
      (packets es).map (encoder (assign gob s.state a 0)) }, s.trace ++ es.map .cluster⟩
  have hnext : (system gob).next s (.cluster a 0) = some s₁ := by
    simp [System.next, system, step, hready, hstep, s₁]
  have hview : view s₁ = c' := by
    obtain ⟨state, trace⟩ := c'
    subst ht
    simp [view, s₁, List.filterMap_map, Function.comp_def, Event.cluster?]
  obtain ⟨as, s', hpath, has, hview', hmem, hlen, hidle⟩ :=
    Intact.finish gob (s := s₁) (h.intact hstep 0)
  have hstate : s'.state.cluster = c'.state := congrArg System.Config.state (hview'.trans hview)
  refine ⟨.cluster a 0 :: as, s', fun ok hok => .cons hok hnext (hpath ok), ?_,
    hview'.trans hview, ?_⟩
  · simp [Action.cluster?, has]
  · refine ⟨?_, ?_, hidle, fun p rf gs hnd => ?_⟩
    · rw [hview', hview]
      exact h.reachable.tail trivial hn
    · rw [hlen, hstate, net_of_step hstep, List.length_append, List.length_append, List.length_map,
        length_undelivered h.length a]
    · rw [hmem]
      rw [hstate] at hnd
      exact holds_of_step h.memory 0 hstep hnd

/-- **Every run of the cluster is a run of this level**, with encoders that finish at once. -/
theorem Settled.exists_path (h : Settled gob s) {as : List (Distsys.Action n α)}
    (hpath : (Cluster.system gob).Path ok (view s) as c') :
    ∃ bs s', (system gob).Path (AsBuilt ok) s bs s' ∧ bs.filterMap Action.cluster? = as ∧
      view s' = c' ∧ Settled gob s' := by
  generalize hc : view s = c at hpath
  induction hpath generalizing s with
  | nil => exact ⟨[], s, .nil s, rfl, hc, h⟩
  | cons ha hn _ ih =>
    subst hc
    obtain ⟨bs, s₁, hbs, hbs', hview, h₁⟩ := h.follow hn
    obtain ⟨cs, s', hcs, hcs', hview', h'⟩ := ih h₁ hview
    refine ⟨bs ++ cs, s', (hbs _ ha).append hcs, ?_, hview', h'⟩
    rw [List.filterMap_append, hbs', hcs']
    rfl

theorem Settled.exists_reaches (h : Settled gob s)
    (hreach : (Cluster.system gob).Reaches ok (view s) c') :
    ∃ s', (system gob).Reaches (AsBuilt ok) s s' ∧ view s' = c' ∧ Settled gob s' := by
  obtain ⟨as, has⟩ := hreach.exists_path
  obtain ⟨bs, s', hbs, _, hview, h'⟩ := h.exists_path has
  exact ⟨s', hbs.reaches, hview, h'⟩

theorem exists_reachable (h : (Cluster.system gob).Reachable ok c) :
    ∃ s, (system gob).Reachable (AsBuilt ok) s ∧ view s = c ∧ Settled gob s :=
  settled_start.exists_reaches h

end Encoding

end Distsys
