import Distsys.Labgob.Basic
import Distsys.Labrpc.Reliability
import Mathlib.Algebra.BigOperators.Group.Finset.Piecewise

/-!
# Calls of methods

`ClientEnd.Call` encodes its arguments and names a method, as in `Raft.AppendEntries`. At the other
end the server splits this name at its last dot, looks up the service and its method, decodes the
arguments into a new variable of the type that the caller used, and calls the method. What the
method has left in its reply goes back in the same way, but it is decoded into the variable of the
caller.

The network of `Distsys.Labrpc.Basic` carries bytes and knows nothing of this. Here it is run
together with the calls: every step but one is a step of the network, and a dispatch, the return of
a handler and a reply do in addition what `Server.dispatch`, `Service.dispatch` and `Call` do. The
step that the network does not see is `AddService`: a server starts without services and may get
more at any time, and one that has the name of an older one takes its place. So which method a call
means is only known when it is dispatched.

An unknown service or method, a method that cannot be called with the arguments, or a reply that
cannot be decoded ends the program. The results are about programs that have not ended.

## What `reflect` and `labgob` are

Types are names, as in `Distsys.Labgob.Basic`, and `Gob` has what the calls need of the rest. Two
points are as in the source:

* `Decode` leaves what is not in a message as it is. A reply is decoded into whatever variable the
  caller has passed, and only a new one is sure to have the value of the reply afterwards.
* The variable for the arguments is of the type of the caller's, not of the one in the signature,
  and `reflect` then passes it on if it is assignable.

## Two levels

What a call means is told in terms of its request on the network, and everything the network
guarantees is used as it stands. The link is `exec_net`: the steps of the network in a run of calls,
without the rest, are a run of the network. So no invariant of `Distsys.Labrpc.Delivery` is proved
again. What is new are `Linked`, for the one request that belongs to a call, and `Tied`, for all
calls and servers together.

## Main definitions

* `Method.isHandler`, `Service.make`, `Server.addService`, `splitMeth`, `Server.find`
* `Receiver` — a type that `MakeService` is called with
* `Gob` — encoding and decoding
* `Rpc.system`
* `Rpc.Names` — the method that a call names
* `Rpc.Linked` — what a call has to do with its request

## Main results

* `Server.find_eq_ok_iff` — the names that a server answers to
* `Rpc.exec_net` — the network under the calls
* `Rpc.call_meaning` — what a call means
* `Rpc.counts_exact` — what `GetTotalCount` and `GetCount` return
-/

namespace Distsys

namespace Labrpc

open Reflection (Types Kind)

/-! ### Services

What `MakeService` and the two functions `dispatch` look up. A name is split at its *last* dot, so
that the name of a service may have dots in it, while the name of a method has none. This makes the
split the inverse of putting the two names together. -/

section Services

variable {τ : Type}

/-- `reflect.Method`. -/
structure Method (τ : Type) where
  name : String
  /-- `PkgPath == ""`. -/
  exported : Bool
  /-- The types `In(0)`, `In(1)`, …; the first one is the receiver. -/
  ins : List τ
  numOut : ℕ
  deriving DecidableEq, Repr

/-- `Kind() == reflect.Ptr`. -/
def isPtr (T : Types τ) (t : τ) : Bool :=
  match T.kind t with
  | .ptr _ => true
  | _ => false

/-- The method looks like a handler. -/
def Method.isHandler (T : Types τ) (m : Method τ) : Bool :=
  m.exported && m.ins.length = 3 && m.ins[2]?.any (isPtr T) && m.numOut = 0

/-- The `Service` struct. -/
structure Service (τ : Type) where
  name : String
  methods : String → Option (Method τ)

/-- The type of a receiver, as `reflect` shows it. The names of methods are identifiers, and a type
has at most one method of a name. -/
structure Receiver (τ : Type) where
  name : String
  methods : List (Method τ)
  /-- Go has no overloading. -/
  nodup : (methods.map Method.name).Nodup
  /-- So the last dot of a name like `Raft.AppendEntries` is the one in front of the method. -/
  noDot : ∀ m ∈ methods, '.' ∉ m.name.toList
  deriving DecidableEq, Repr

/-- The loop of `MakeService`. -/
def handlers (T : Types τ) (methods : List (Method τ)) : String → Option (Method τ) :=
  methods.foldl
    (fun ms m => if m.isHandler T then Function.update ms m.name (some m) else ms) fun _ => none

/-- `MakeService`. -/
def Service.make (T : Types τ) (rcvr : Receiver τ) : Service τ :=
  ⟨rcvr.name, handlers T rcvr.methods⟩

/-- The map `services` of a `Server`. -/
structure Server (τ : Type) where
  services : String → Option (Service τ)

/-- `MakeServer`. -/
def Server.make : Server τ := ⟨fun _ => none⟩

/-- `AddService`. -/
def Server.addService (rs : Server τ) (svc : Service τ) : Server τ :=
  ⟨Function.update rs.services svc.name (some svc)⟩

/-- `strings.LastIndex(s, ".")`, `none` for `-1`. -/
def lastDot : List Char → Option ℕ
  | [] => none
  | c :: s =>
    match lastDot s with
    | some i => some (i + 1)
    | none => if c = '.' then some 0 else none

/-- The names of the service and of the method. Without a dot the slice panics. -/
def splitMeth (svcMeth : String) : Option (String × String) :=
  (lastDot svcMeth.toList).map fun dot =>
    (String.ofList (svcMeth.toList.take dot), String.ofList (svcMeth.toList.drop (dot + 1)))

/-- What ends the program. -/
inductive Fatal where
  | sliceBounds
  | unknownService
  | unknownMethod
  /-- `reflect` cannot call the method with these arguments. -/
  | badArgs
  | decodeReply
  deriving DecidableEq, Repr

/-- The lookups of `Server.dispatch` and `Service.dispatch`. -/
def Server.find (rs : Server τ) (svcMeth : String) : Except Fatal (String × Method τ) :=
  match splitMeth svcMeth with
  | none => .error .sliceBounds
  | some (serviceName, methodName) =>
    match rs.services serviceName with
    | none => .error .unknownService
    | some service =>
      match service.methods methodName with
      | none => .error .unknownMethod
      | some method => .ok (serviceName, method)

theorem lastDot_eq_none {s : List Char} : lastDot s = none ↔ '.' ∉ s := by
  induction s with
  | nil => simp [lastDot]
  | cons c s ih =>
    rw [lastDot, List.mem_cons, not_or, ← ih]
    cases lastDot s with
    | none => simp [eq_comm]
    | some i => simp

theorem lastDot_append {s t : List Char} (ht : '.' ∉ t) :
    lastDot (s ++ '.' :: t) = some s.length := by
  induction s with
  | nil => rw [List.nil_append, lastDot, lastDot_eq_none.mpr ht]; rfl
  | cons c s ih => rw [List.cons_append, lastDot, ih, List.length_cons]

theorem getElem?_of_lastDot {s : List Char} {i : ℕ} (h : lastDot s = some i) :
    s[i]? = some '.' := by
  induction s generalizing i with
  | nil => cases h
  | cons c s ih =>
    rw [lastDot] at h
    cases hs : lastDot s with
    | some j =>
      rw [hs] at h
      cases h
      exact ih hs
    | none =>
      simp only [hs] at h
      split at h
      · rename_i hc
        cases h
        exact congrArg some hc
      · cases h

/-- What is in front of the dot and behind it are the name. -/
theorem eq_append_of_splitMeth {svcMeth service method : String}
    (h : splitMeth svcMeth = some (service, method)) : svcMeth = service ++ "." ++ method := by
  obtain ⟨dot, hdot, heq⟩ := Option.map_eq_some_iff.mp h
  obtain ⟨rfl, rfl⟩ := Prod.mk.inj heq
  obtain ⟨hlt, hget⟩ := List.getElem?_eq_some_iff.mp (getElem?_of_lastDot hdot)
  have hlist : svcMeth.toList.take dot ++ '.' :: svcMeth.toList.drop (dot + 1) =
      svcMeth.toList := by
    rw [← hget, ← List.drop_eq_getElem_cons hlt, List.take_append_drop]
  refine String.toList_inj.mp ?_
  simp [String.toList_append, hlist]

/-- **A method is found again in its name.** -/
theorem splitMeth_append {service method : String} (h : '.' ∉ method.toList) :
    splitMeth (service ++ "." ++ method) = some (service, method) := by
  have hlist : (service ++ "." ++ method).toList = service.toList ++ '.' :: method.toList := by
    simp [String.toList_append]
  rw [splitMeth, hlist, lastDot_append h, Option.map_some, List.take_left', List.drop_append]
  · simp
  · rfl

theorem handlers_concat (T : Types τ) (methods : List (Method τ)) (x : Method τ) :
    handlers T (methods ++ [x]) =
      if x.isHandler T then Function.update (handlers T methods) x.name (some x)
      else handlers T methods :=
  List.foldl_concat ..

theorem handlers_eq_some_iff (T : Types τ) {methods : List (Method τ)}
    (hnd : (methods.map Method.name).Nodup) {m : Method τ} {mname : String} :
    handlers T methods mname = some m ↔ m ∈ methods ∧ m.isHandler T = true ∧ m.name = mname := by
  induction methods using List.reverseRecOn with
  | nil => simp [handlers]
  | append_singleton methods x ih =>
    rw [List.map_append, List.map_singleton] at hnd
    have hold := ih hnd.of_append_left
    have hx : ∀ m' ∈ methods, m'.name ≠ x.name := fun m' hm' heq =>
      List.disjoint_of_nodup_append hnd (List.mem_map_of_mem hm') (List.mem_singleton.mpr heq)
    rw [handlers_concat, List.mem_append, List.mem_singleton]
    split
    · rename_i hhandler
      rcases eq_or_ne mname x.name with rfl | hne
      · rw [Function.update_self, Option.some.injEq]
        constructor
        · rintro rfl
          exact ⟨Or.inr rfl, hhandler, rfl⟩
        · rintro ⟨hm | rfl, _, hname⟩
          · exact absurd hname (hx m hm)
          · rfl
      · rw [Function.update_of_ne hne, hold]
        refine and_congr_left fun ⟨_, hname⟩ => (or_iff_left ?_).symm
        rintro rfl
        exact hne hname.symm
    · rename_i hhandler
      rw [hold]
      refine and_congr_left fun ⟨hm, _⟩ => (or_iff_left ?_).symm
      rintro rfl
      exact hhandler hm

/-- **What a server answers to**: the names, with a dot between them, of a service it has and of a
method of the receiver that looks like a handler. -/
theorem Server.find_eq_ok_iff {T : Types τ} {rs : Server τ} {rcvrs : String → Option (Receiver τ)}
    (h : ∀ service, rs.services service = (rcvrs service).map (Service.make T))
    {svcMeth service : String} {m : Method τ} :
    rs.find svcMeth = .ok (service, m) ↔ ∃ rcvr, rcvrs service = some rcvr ∧
      m ∈ rcvr.methods ∧ m.isHandler T = true ∧ svcMeth = service ++ "." ++ m.name := by
  constructor
  · intro hfind
    rw [find] at hfind
    split at hfind
    · cases hfind
    · rename_i serviceName methodName hsplit
      split at hfind
      · cases hfind
      · rename_i svc hsvc
        split at hfind
        · cases hfind
        · rename_i method hmethod
          obtain ⟨rfl, rfl⟩ := Prod.mk.inj (Except.ok.inj hfind)
          obtain ⟨rcvr, hrcvr, rfl⟩ := Option.map_eq_some_iff.mp ((h _).symm.trans hsvc)
          obtain ⟨hm, hhandler, hname⟩ := (handlers_eq_some_iff T rcvr.nodup).mp hmethod
          exact ⟨rcvr, hrcvr, hm, hhandler, hname ▸ eq_append_of_splitMeth hsplit⟩
  · rintro ⟨rcvr, hrcvr, hm, hhandler, rfl⟩
    have hmethod : (Service.make T rcvr).methods m.name = some m :=
      (handlers_eq_some_iff T rcvr.nodup).mpr ⟨hm, hhandler, rfl⟩
    rw [find, splitMeth_append (rcvr.noDot m hm)]
    simp only [h service, hrcvr, Option.map_some, hmethod]

end Services

/-! ### Values -/

/-- What `labgob` does with the values that it can send. Two values that look the same on the other
side, such as a nil slice and an empty one, count as one value. -/
structure Gob (τ ω : Type) where
  typeOf : ω → τ
  /-- `AssignableTo`. -/
  assignableTo : τ → τ → Bool
  /-- `reflect.New(t)`. -/
  zero : τ → ω
  encode : ω → List UInt8
  /-- `Decode` into a variable that has some value, `none` if there is an error. What is not in the
  message keeps its value. -/
  decode : ω → List UInt8 → Option ω
  decode_encode : ∀ v, decode (zero (typeOf v)) (encode v) = some v

variable {ε ν ς τ ω : Type}

namespace Rpc

/-- A call of `ClientEnd.Call`. -/
structure Call (ω : Type) where
  args : ω
  /-- The variable `reply` as it was at first. -/
  into : ω
  /-- The variable `reply`. -/
  reply : ω
  /-- What `Call` has returned. -/
  result : Option Bool
  deriving DecidableEq, Repr

/-- `ClientEnd.Call`, behind the request. -/
def Call.receive (gob : Gob τ ω) (call : Call ω) (msg : ReplyMsg) : Except Fatal (Call ω) :=
  if msg.ok then
    match gob.decode call.reply msg.reply with
    | some v => .ok { call with reply := v, result := some true }
    | none => .error .decodeReply
  else .ok { call with result := some false }

/-- The arguments in `Service.dispatch`. The error of `Decode` is not looked at. -/
def decodeArgs (gob : Gob τ ω) (argsType : τ) (args : List UInt8) : ω :=
  (gob.decode (gob.zero argsType) args).getD (gob.zero argsType)

/-- The network and the calls. -/
structure State (ε ν ς τ ω : Type) where
  net : Labrpc.State ε ν ς
  /-- The services of each `Server`. -/
  servers : ς → Server τ
  /-- The calls of the requests, in order. -/
  calls : List (Call ω)
  /-- The field `count` of the `Network`, an `int32`. -/
  count : BitVec 32
  /-- The field `count` of each `Server`. -/
  served : ς → ℕ
  fatal : Option Fatal

inductive Action (ε ν ς τ ω : Type) where
  | admin (a : Admin ε ν ς)
  /-- `AddService(MakeService(rcvr))` at a server. -/
  | addService (sv : ς) (rcvr : Receiver τ)
  | call (endname : ε) (svcMeth : String) (args reply : ω)
  /-- Request `k` goes on, other than by the return of its handler. -/
  | move (k : ℕ) (m : Move)
  /-- The handler of request `k` returns and has left this in its reply. -/
  | handle (k : ℕ) (reply : ω)
  deriving DecidableEq, Repr

inductive Event (ν ς ω : Type) where
  | net (k : ℕ) (e : Labrpc.Event ν ς)
  /-- A method is called. -/
  | invoked (k : ℕ) (server : ς) (service method : String) (args : ω)
  /-- A method returns. -/
  | handled (k : ℕ) (reply : ω)
  deriving DecidableEq, Repr

section System

variable [DecidableEq ε] [DecidableEq ν] [DecidableEq ς] (gob : Gob τ ω) (T : Types τ)

/-- `AddService(MakeService(rcvr))`. -/
def State.addService (s : State ε ν ς τ ω) (sv : ς) (rcvr : Receiver τ) : State ε ν ς τ ω :=
  let rs := (s.servers sv).addService (.make T rcvr)
  { s with servers := Function.update s.servers sv rs }

/-- `Server.dispatch`, up to the call of the method. -/
def State.dispatch (s : State ε ν ς τ ω) (k : ℕ) (target : Target ν ς) :
    Option (State ε ν ς τ ω × List (Event ν ς ω)) := do
  let r ← s.net.requests[k]?
  let call ← s.calls[k]?
  let s := { s with served := Function.update s.served target.server (s.served target.server + 1) }
  match (s.servers target.server).find r.req.svcMeth with
  | .error f => return ({ s with fatal := some f }, [])
  | .ok (service, method) =>
    let argsType := gob.typeOf call.args
    if method.ins[1]?.any (gob.assignableTo argsType) then
      let args := decodeArgs gob argsType r.req.args
      return (s, [.invoked k target.server service method.name args])
    else return ({ s with fatal := some .badArgs }, [])

/-- `rep := <-req.replyCh`, for a call that waits. -/
def State.receive (s : State ε ν ς τ ω) (k : ℕ) (msg : ReplyMsg) :
    Option (State ε ν ς τ ω × List (Event ν ς ω)) := do
  let call ← s.calls[k]?
  match call.result with
  | some _ => return (s, [])
  | none =>
    match call.receive gob msg with
    | .error f => return ({ s with fatal := some f }, [])
    | .ok call => return ({ s with calls := s.calls.set k call }, [])

/-- What the calls do with what happens on the network. -/
def State.observe (s : State ε ν ς τ ω) (k : ℕ) :
    List (ℕ × Labrpc.Event ν ς) → Option (State ε ν ς τ ω × List (Event ν ς ω))
  | [(_, .dispatch target)] => s.dispatch gob k target
  | [(_, .reply msg)] => s.receive gob k msg
  | _ => some (s, [])

def Move.isComplete : Move → Bool
  | .complete _ => true
  | _ => false

def State.step (s : State ε ν ς τ ω) (a : Action ε ν ς τ ω) :
    Option (State ε ν ς τ ω × List (Event ν ς ω)) :=
  if s.fatal.isSome then none
  else
    match a with
    | .admin a => do
      let (net, _) ← s.net.step (.admin a)
      return ({ s with net }, [])
    | .addService sv rcvr => return (s.addService T sv rcvr, [])
    | .call endname svcMeth args reply => do
      let (net, _) ← s.net.step (.call ⟨endname, svcMeth, gob.encode args⟩)
      return ({ s with
        net, calls := s.calls ++ [⟨args, reply, reply, none⟩], count := s.count + 1 }, [])
    | .move k m =>
      if Move.isComplete m then none
      else do
        let (net, es) ← s.net.step (.move k m)
        let (s, es') ← ({ s with net } : State ε ν ς τ ω).observe gob k es
        return (s, es.map (fun e => .net e.1 e.2) ++ es')
    | .handle k reply => do
      let (net, es) ← s.net.step (.move k (.complete (gob.encode reply)))
      return ({ s with net }, es.map (fun e => .net e.1 e.2) ++ [.handled k reply])

def system : System (State ε ν ς τ ω) (Action ε ν ς τ ω) (Event ν ς ω) where
  init := ⟨⟨.make, []⟩, fun _ => .make, [], 0, fun _ => 0, none⟩
  step := State.step gob T

end System

/-! ### What happened to a call

A call has the number of its request. Its story is told by three kinds of events: those of the
network, the call of a method, and what this method has left in its reply. -/

variable {gob : Gob τ ω} {T : Types τ} {s s' : State ε ν ς τ ω} {a : Action ε ν ς τ ω}
  {as : List (Action ε ν ς τ ω)} {es : List (Event ν ς ω)}

/-- What happened on the network. -/
def netTrace (tr : List (Event ν ς ω)) : List (ℕ × Labrpc.Event ν ς) :=
  tr.filterMap fun
    | .net k e => some (k, e)
    | _ => none

theorem netTrace_append (tr es : List (Event ν ς ω)) :
    netTrace (tr ++ es) = netTrace tr ++ netTrace es := List.filterMap_append ..

/-- The calls of methods for request `k`: the server, the service, the method and the arguments. -/
def invocations (k : ℕ) (tr : List (Event ν ς ω)) : List (ς × String × String × ω) :=
  tr.filterMap fun
    | .invoked i server service method args =>
      if i = k then some (server, service, method, args) else none
    | _ => none

/-- What the methods called for request `k` have replied. -/
def handled (k : ℕ) (tr : List (Event ν ς ω)) : List ω :=
  tr.filterMap fun
    | .handled i reply => if i = k then some reply else none
    | _ => none

variable {tr : List (Event ν ς ω)} {k : ℕ} {call call' : Call ω} {r r' : Request ε ν ς}

theorem invocations_append (k : ℕ) (tr es : List (Event ν ς ω)) :
    invocations k (tr ++ es) = invocations k tr ++ invocations k es := List.filterMap_append ..

theorem handled_append (k : ℕ) (tr es : List (Event ν ς ω)) :
    Rpc.handled k (tr ++ es) = Rpc.handled k tr ++ Rpc.handled k es := List.filterMap_append ..

theorem observed_netTrace_append {β : Type} (f : Labrpc.Event ν ς → Option β) (k : ℕ)
    (tr es : List (Event ν ς ω)) : observed f k (netTrace (tr ++ es)) =
      observed f k (netTrace tr) ++ observed f k (netTrace es) := by
  rw [netTrace_append, observed_append]

/-- The call that an event is about. -/
def Event.index : Event ν ς ω → ℕ
  | .net k _ => k
  | .invoked k _ _ _ _ => k
  | .handled k _ => k

theorem observed_netTrace_other {β : Type} {f : Labrpc.Event ν ς → Option β}
    (hes : ∀ e ∈ es, e.index ≠ k) : observed f k (netTrace es) = [] := by
  refine observed_of_notMem fun e he => ?_
  obtain ⟨e', he', heq⟩ := List.mem_filterMap.mp he
  cases e' with
  | net i e₁ =>
    cases heq
    exact hes _ he' rfl
  | invoked | handled => cases heq

theorem invocations_other (hes : ∀ e ∈ es, e.index ≠ k) : invocations k es = [] := by
  refine List.filterMap_eq_nil_iff.mpr fun e he => ?_
  cases e with
  | invoked i => exact if_neg (hes _ he)
  | net | handled => rfl

theorem handled_other (hes : ∀ e ∈ es, e.index ≠ k) : Rpc.handled k es = [] := by
  refine List.filterMap_eq_nil_iff.mpr fun e he => ?_
  cases e with
  | handled i => exact if_neg (hes _ he)
  | net | invoked => rfl

/-! ### Calls and requests

For each call there is a request, and each of the two tells what has happened to the other. The
request knows whether and where it was dispatched, but only the call knows what the arguments meant,
and only the list of actions knows which services there were at that time. -/

variable [DecidableEq ς]

/-- The receiver of the service that was last added to a server under this name. -/
def provided (as : List (Action ε ν ς τ ω)) (sv : ς) (service : String) : Option (Receiver τ) :=
  (as.filterMap fun
    | .addService sv' rcvr => if sv' = sv ∧ rcvr.name = service then some rcvr else none
    | _ => none).getLast?

/-- The invocation `i` is that of the method which the call of request `k` names, with its
arguments. -/
structure Names (T : Types τ) (as : List (Action ε ν ς τ ω)) (k : ℕ) (svcMeth : String) (args : ω)
    (i : ς × String × String × ω) : Prop where
  args : i.2.2.2 = args
  /-- The name of the call is that of the service and that of the method. -/
  svcMeth : svcMeth = i.2.1 ++ "." ++ i.2.2.1
  /-- When the request was dispatched, the server had a service and a handler of these names. -/
  handler : ∃ before after rcvr method, as = before ++ .move k .dispatch :: after ∧
    provided before i.1 i.2.1 = some rcvr ∧ method ∈ rcvr.methods ∧ method.isHandler T = true ∧
    method.name = i.2.2.1

theorem Names.concat {svcMeth : String} {args : ω} {i : ς × String × String × ω}
    (h : Names T as k svcMeth args i) (a : Action ε ν ς τ ω) :
    Names T (as ++ [a]) k svcMeth args i := by
  obtain ⟨before, after, rcvr, method, rfl, hrest⟩ := h.handler
  exact ⟨h.args, h.svcMeth, before, after ++ [a], rcvr, method, by simp, hrest⟩

/-- What a call has to do with its request. -/
structure Linked (gob : Gob τ ω) (T : Types τ) (as : List (Action ε ν ς τ ω))
    (tr : List (Event ν ς ω)) (k : ℕ) (call : Call ω) (r : Request ε ν ς) : Prop where
  /-- The request carries the arguments. -/
  args : r.req.args = gob.encode call.args
  /-- Each dispatch leads to a call of a method at that server, and nothing else does. -/
  invoked : (dispatches k (netTrace tr)).map Target.server = (invocations k tr).map Prod.fst
  /-- It is the method that the call names. -/
  names : ∀ i ∈ invocations k tr, Names T as k r.req.svcMeth call.args i
  /-- What a method has left in its reply is what the network carries back. -/
  handled : completions k (netTrace tr) = (handled k tr).map fun v => ⟨true, gob.encode v⟩
  /-- Until `Call` returns, the variable of the caller is as it was. -/
  waiting : call.result = none → replies k (netTrace tr) = [] ∧ call.reply = call.into
  /-- When it returns `true`, the reply has been decoded into this variable. -/
  returned : ∀ b, call.result = some b → ∃ msg, replies k (netTrace tr) = [msg] ∧ msg.ok = b ∧
    if b then gob.decode call.into msg.reply = some call.reply else call.reply = call.into

/-- A step without a reply. -/
theorem Linked.append (h : Linked gob T as tr k call r) (hreq : r'.req = r.req)
    (hinvoked : (dispatches k (netTrace es)).map Target.server = (invocations k es).map Prod.fst)
    (hnames : ∀ i ∈ invocations k es, Names T (as ++ [a]) k r.req.svcMeth call.args i)
    (hhandled : completions k (netTrace es) = (Rpc.handled k es).map fun v => ⟨true, gob.encode v⟩)
    (hreplies : replies k (netTrace es) = []) :
    Linked gob T (as ++ [a]) (tr ++ es) k call r' := by
  have hsame : replies k (netTrace (tr ++ es)) = replies k (netTrace tr) := by
    rw [replies, observed_netTrace_append, ← replies, ← replies, hreplies, List.append_nil]
  refine ⟨hreq ▸ h.args, ?_, fun i hi => ?_, ?_, ?_, ?_⟩
  · rw [dispatches, observed_netTrace_append, ← dispatches, ← dispatches, List.map_append,
      h.invoked, hinvoked, invocations_append, List.map_append]
  · rw [hreq]
    rw [invocations_append] at hi
    rcases List.mem_append.mp hi with hi | hi
    · exact (h.names i hi).concat a
    · exact hnames i hi
  · rw [completions, observed_netTrace_append, ← completions, ← completions, h.handled, hhandled,
      handled_append, List.map_append]
  · rw [hsame]
    exact h.waiting
  · rw [hsame]
    exact h.returned

/-- A step of another call. -/
theorem Linked.other (h : Linked gob T as tr k call r) (hes : ∀ e ∈ es, e.index ≠ k) :
    Linked gob T (as ++ [a]) (tr ++ es) k call r := by
  refine h.append rfl ?_ ?_ ?_ (observed_netTrace_other hes)
  · rw [dispatches, observed_netTrace_other hes, invocations_other hes]
    rfl
  · rw [invocations_other hes]
    exact fun i hi => absurd hi List.not_mem_nil
  · rw [completions, observed_netTrace_other hes, handled_other hes]
    rfl

/-- What a reply leaves behind: only the result and `reply` have changed, and `reply` only if the
call has succeeded. -/
theorem Call.receive_eq_ok {msg : ReplyMsg} (h : call.receive gob msg = .ok call') :
    call'.args = call.args ∧ call'.into = call.into ∧ ∃ b, call'.result = some b ∧ msg.ok = b ∧
      if b then gob.decode call.reply msg.reply = some call'.reply
      else call'.reply = call.reply := by
  rw [Call.receive] at h
  split at h
  · rename_i hok
    split at h
    · rename_i v hv
      cases h
      exact ⟨rfl, rfl, true, rfl, hok, hv⟩
    · cases h
  · rename_i hok
    cases h
    exact ⟨rfl, rfl, false, rfl, Bool.eq_false_of_not_eq_true hok, rfl⟩

/-- The caller receives its reply. -/
theorem Linked.receive (h : Linked gob T as tr k call r) (hreq : r'.req = r.req) {msg : ReplyMsg}
    (hresult : call.result = none) (hreceive : call.receive gob msg = .ok call') :
    Linked gob T (as ++ [a]) (tr ++ [.net k (.reply msg)]) k call' r' := by
  obtain ⟨hnil, hinto⟩ := h.waiting hresult
  have hone : replies k (netTrace (tr ++ [.net k (.reply msg)])) = [msg] := by
    rw [replies, observed_netTrace_append, ← replies, hnil]
    simp [netTrace, observed, Labrpc.Event.reply?]
  have hdispatches : dispatches k (netTrace (tr ++ [.net k (.reply msg)])) =
      dispatches k (netTrace tr) := by
    rw [dispatches, observed_netTrace_append]
    exact List.append_right_eq_self.mpr (by simp [netTrace, observed, Labrpc.Event.dispatch?])
  have hcompletions : completions k (netTrace (tr ++ [.net k (.reply msg)])) =
      completions k (netTrace tr) := by
    rw [completions, observed_netTrace_append]
    exact List.append_right_eq_self.mpr (by simp [netTrace, observed, Labrpc.Event.complete?])
  have hinvocations : invocations k (tr ++ [.net k (.reply msg)]) = invocations k tr := by
    simp [invocations]
  have hhandled : Rpc.handled k (tr ++ [.net k (.reply msg)]) = Rpc.handled k tr := by
    simp [Rpc.handled]
  obtain ⟨hargs, hinto', b, hb, hok, hreply⟩ := Call.receive_eq_ok hreceive
  rw [hinto] at hreply
  refine ⟨?_, ?_, fun i hi => ?_, ?_, ?_, ?_⟩
  · rw [hreq, hargs]
    exact h.args
  · rw [hdispatches, hinvocations]
    exact h.invoked
  · rw [hreq, hargs]
    exact (h.names i (hinvocations ▸ hi)).concat a
  · rw [hcompletions, hhandled]
    exact h.handled
  · intro hnone
    cases hb.symm.trans hnone
  · intro b' hb'
    cases hb.symm.trans hb'
    rw [hinto']
    exact ⟨msg, hone, hok, hreply⟩

/-- The method gets what the caller has sent. -/
theorem Linked.decodeArgs (h : Linked gob T as tr k call r) :
    Rpc.decodeArgs gob (gob.typeOf call.args) r.req.args = call.args := by
  rw [Rpc.decodeArgs, h.args, gob.decode_encode]
  rfl

/-- A new call. -/
theorem linked_accept {req : ReqMsg ε} (hargs : req.args = gob.encode call.args)
    (hresult : call.result = none) (hreply : call.reply = call.into)
    (htr : ∀ e ∈ tr, e.index ≠ k) : Linked gob T as tr k call (.accept req) := by
  have hinvocations := invocations_other htr
  refine ⟨hargs, ?_, fun i hi => ?_, ?_, fun _ => ⟨observed_netTrace_other htr, hreply⟩,
    fun b hb => ?_⟩
  · rw [dispatches, observed_netTrace_other htr, hinvocations]
    rfl
  · rw [hinvocations] at hi
    cases hi
  · rw [completions, observed_netTrace_other htr, handled_other htr]
    rfl
  · cases hresult.symm.trans hb

/-- What holds in every configuration: there is a request for each call. -/
structure Tied (gob : Gob τ ω) (T : Types τ) (as : List (Action ε ν ς τ ω))
    (s : State ε ν ς τ ω) (tr : List (Event ν ς ω)) : Prop where
  /-- The calls and the requests have the same numbers. -/
  length : s.calls.length = s.net.requests.length
  /-- No event is about a call that is yet to come. -/
  seen : ∀ e ∈ tr, e.index < s.calls.length
  /-- A server has the services that were added to it last. -/
  services : ∀ sv service,
    (s.servers sv).services service = (provided as sv service).map (Service.make T)
  linked : ∀ k call r, s.calls[k]? = some call → s.net.requests[k]? = some r →
    Linked gob T as tr k call r

theorem provided_concat_addService (as : List (Action ε ν ς τ ω)) (sv sv' : ς)
    (rcvr : Receiver τ) (service : String) :
    provided (as ++ [.addService sv rcvr]) sv' service =
      if sv = sv' ∧ rcvr.name = service then some rcvr else provided as sv' service := by
  rw [provided, List.filterMap_append]
  split
  · rename_i h
    simp [h]
  · rename_i h
    simp [h, provided]

theorem provided_concat {as : List (Action ε ν ς τ ω)} {a : Action ε ν ς τ ω}
    (h : ∀ sv rcvr, a ≠ .addService sv rcvr) : provided (as ++ [a]) = provided as := by
  funext sv service
  cases a with
  | addService sv rcvr => exact absurd rfl (h sv rcvr)
  | _ => simp [provided]

/-- A step of call `i`, which may change this call and its request. -/
theorem Tied.move (h : Tied gob T as s tr) {i : ℕ} (ha : ∀ sv rcvr, a ≠ .addService sv rcvr)
    (hservers : s'.servers = s.servers) (hcalls : s'.calls.length = s.calls.length)
    (hr : s.net.requests[i]? = some r) (hrequests : s'.net.requests = s.net.requests.set i r')
    (hes : ∀ e ∈ es, e.index = i) (hother : ∀ k, i ≠ k → s'.calls[k]? = s.calls[k]?)
    (hself : ∀ call call', s.calls[i]? = some call → s'.calls[i]? = some call' →
      Linked gob T as tr i call r → Linked gob T (as ++ [a]) (tr ++ es) i call' r') :
    Tied gob T (as ++ [a]) s' (tr ++ es) := by
  have hi := (List.getElem?_eq_some_iff.mp hr).1
  refine ⟨by rw [hcalls, hrequests, List.length_set, h.length], fun e he => ?_, ?_, ?_⟩
  · rw [hcalls]
    rcases List.mem_append.mp he with he | he
    · exact h.seen e he
    · rw [hes e he, h.length]
      exact hi
  · rw [hservers, provided_concat ha]
    exact h.services
  · intro k call₁ r₁ hcall hrequest
    rw [hrequests] at hrequest
    rcases eq_or_ne i k with rfl | hik
    · rw [List.getElem?_set_self hi] at hrequest
      cases hrequest
      obtain ⟨call₀, hcall₀⟩ : ∃ call₀, s.calls[i]? = some call₀ :=
        ⟨_, List.getElem?_eq_getElem (h.length ▸ hi)⟩
      exact hself call₀ call₁ hcall₀ hcall (h.linked i call₀ r hcall₀ hr)
    · rw [List.getElem?_set_ne hik] at hrequest
      refine (h.linked k call₁ r₁ (hother k hik ▸ hcall) hrequest).other fun e he heq => ?_
      exact hik ((hes e he).symm.trans heq)

/-- A step that is about no call. -/
theorem Tied.concat (h : Tied gob T as s tr) (hcalls : s'.calls = s.calls)
    (hrequests : s'.net.requests = s.net.requests)
    (hservices : ∀ sv service, (s'.servers sv).services service =
      (provided (as ++ [a]) sv service).map (Service.make T)) :
    Tied gob T (as ++ [a]) s' (tr ++ []) := by
  refine ⟨by rw [hcalls, hrequests, h.length], by rw [hcalls]; simpa using h.seen, hservices, ?_⟩
  rw [hcalls, hrequests]
  exact fun k call r hcall hr => (h.linked k call r hcall hr).other (by simp)

theorem Tied.accept (h : Tied gob T as s tr) {req : ReqMsg ε}
    (ha : ∀ sv rcvr, a ≠ .addService sv rcvr) (hservers : s'.servers = s.servers)
    (hcalls : s'.calls = s.calls ++ [call])
    (hrequests : s'.net.requests = s.net.requests ++ [.accept req])
    (hargs : req.args = gob.encode call.args) (hresult : call.result = none)
    (hreply : call.reply = call.into) : Tied gob T (as ++ [a]) s' (tr ++ []) := by
  rw [List.append_nil]
  refine ⟨by simp [hcalls, hrequests, h.length], fun e he => ?_, ?_,
    fun k call₁ r₁ hcall hr => ?_⟩
  · rw [hcalls, List.length_append]
    exact (h.seen e he).trans_le (Nat.le_add_right _ _)
  · rw [hservers, provided_concat ha]
    exact h.services
  · rw [hcalls] at hcall
    rw [hrequests] at hr
    rcases Nat.lt_or_ge k s.calls.length with hk | hk
    · rw [List.getElem?_append_left hk] at hcall
      rw [List.getElem?_append_left (h.length ▸ hk)] at hr
      rw [← List.append_nil tr]
      exact (h.linked k call₁ r₁ hcall hr).other (List.forall_mem_nil _)
    · rw [List.getElem?_append_right hk] at hcall
      rw [List.getElem?_append_right (h.length ▸ hk)] at hr
      cases List.mem_singleton.mp (List.mem_of_getElem? hcall)
      cases List.mem_singleton.mp (List.mem_of_getElem? hr)
      refine linked_accept hargs hresult hreply fun e he heq => ?_
      exact absurd (h.seen e he) (by omega)

/-! ### Inversion

As long as the program goes on, a step is one of eight. The failing lookups and decodings are the
ends of programs and have no case. -/

/-- Request `k` becomes `r`. -/
def State.setRequest (s : State ε ν ς τ ω) (k : ℕ) (r : Request ε ν ς) : State ε ν ς τ ω :=
  { s with net := { s.net with requests := s.net.requests.set k r } }

/-- What the network does. -/
def Action.net? (gob : Gob τ ω) : Action ε ν ς τ ω → Option (Labrpc.Action ε ν ς)
  | .admin a => some (.admin a)
  | .addService _ _ => none
  | .call endname svcMeth args _ => some (.call ⟨endname, svcMeth, gob.encode args⟩)
  | .move k m => some (.move k m)
  | .handle k reply => some (.move k (.complete (gob.encode reply)))

omit [DecidableEq ς] in
theorem receive_eq_some {k : ℕ} {msg : ReplyMsg} (h : s.receive gob k msg = some (s', es))
    (hfatal : s'.fatal = none) :
    es = [] ∧ ∃ call, s.calls[k]? = some call ∧
      ((∃ b, call.result = some b ∧ s' = s) ∨
        call.result = none ∧ ∃ call', call.receive gob msg = .ok call' ∧
          s' = { s with calls := s.calls.set k call' }) := by
  obtain ⟨call, hcall, h⟩ := Option.bind_eq_some_iff.mp h
  split at h
  · rename_i b hresult
    cases h
    exact ⟨rfl, call, hcall, Or.inl ⟨b, hresult, rfl⟩⟩
  · rename_i hresult
    split at h
    · cases h
      cases hfatal
    · rename_i call' hreceive
      cases h
      exact ⟨rfl, call, hcall, Or.inr ⟨hresult, call', hreceive, rfl⟩⟩

/-- A reply comes from a request that has not finished. -/
theorem not_finished_of_reply {rn : Network ε ν ς} {m : Move} {msg : ReplyMsg}
    (hm : r.move rn m = some (r', [.reply msg])) : ¬ r.Finished := by
  rintro ⟨hpc, htimer⟩
  cases moves_of_move hm with
  | send h => cases hpc.symm.trans h
  | timer h => cases htimer.symm.trans h

theorem dispatch_eq_some {k : ℕ} {target : Target ν ς}
    (h : s.dispatch gob k target = some (s', es)) (hfatal : s'.fatal = none) :
    ∃ r call service method, s.net.requests[k]? = some r ∧ s.calls[k]? = some call ∧
      (s.servers target.server).find r.req.svcMeth = .ok (service, method) ∧
      s' = { s with
        served := Function.update s.served target.server (s.served target.server + 1) } ∧
      es = [.invoked k target.server service method.name
        (decodeArgs gob (gob.typeOf call.args) r.req.args)] := by
  obtain ⟨r, hr, h⟩ := Option.bind_eq_some_iff.mp h
  obtain ⟨call, hcall, h⟩ := Option.bind_eq_some_iff.mp h
  dsimp only at h
  split at h
  · cases h
    cases hfatal
  · rename_i service method hfind
    split at h
    · cases h
      exact ⟨r, call, service, method, hr, hcall, hfind, rfl, rfl⟩
    · cases h
      cases hfatal

variable [DecidableEq ε] [DecidableEq ν]

/-- What a step does, if the program goes on. -/
inductive Steps (gob : Gob τ ω) (T : Types τ) (s : State ε ν ς τ ω) :
    Action ε ν ς τ ω → State ε ν ς τ ω → List (Event ν ς ω) → Prop where
  | admin {a : Admin ε ν ς} :
    Steps gob T s (.admin a) { s with net := { s.net with net := s.net.net.admin a } } []
  | addService {sv : ς} {rcvr : Receiver τ} :
    Steps gob T s (.addService sv rcvr) (s.addService T sv rcvr) []
  | call {endname : ε} {svcMeth : String} {args reply : ω} :
    Steps gob T s (.call endname svcMeth args reply)
      { s with
        net := { s.net with
          requests := s.net.requests ++ [.accept ⟨endname, svcMeth, gob.encode args⟩] }
        calls := s.calls ++ [⟨args, reply, reply, none⟩]
        count := s.count + 1 } []
  | quiet {k : ℕ} {m : Move} {r r' : Request ε ν ς} (hr : s.net.requests[k]? = some r)
      (hm : r.move s.net.net m = some (r', [])) :
    Steps gob T s (.move k m) (s.setRequest k r') []
  | invoke {k : ℕ} {r r' : Request ε ν ς} {target : Target ν ς} {call : Call ω} {service : String}
      {method : Method τ} (hr : s.net.requests[k]? = some r)
      (hm : r.move s.net.net .dispatch = some (r', [.dispatch target]))
      (hcall : s.calls[k]? = some call)
      (hfind : (s.servers target.server).find r.req.svcMeth = .ok (service, method)) :
    Steps gob T s (.move k .dispatch)
      { s.setRequest k r' with
        served := Function.update s.served target.server (s.served target.server + 1) }
      [.net k (.dispatch target), .invoked k target.server service method.name
        (decodeArgs gob (gob.typeOf call.args) r.req.args)]
  | late {k : ℕ} {m : Move} {r r' : Request ε ν ς} {msg : ReplyMsg} {call : Call ω} {b : Bool}
      (hr : s.net.requests[k]? = some r) (hm : r.move s.net.net m = some (r', [.reply msg]))
      (hcall : s.calls[k]? = some call) (hresult : call.result = some b) :
    Steps gob T s (.move k m) (s.setRequest k r') [.net k (.reply msg)]
  | receive {k : ℕ} {m : Move} {r r' : Request ε ν ς} {msg : ReplyMsg} {call call' : Call ω}
      (hr : s.net.requests[k]? = some r) (hm : r.move s.net.net m = some (r', [.reply msg]))
      (hcall : s.calls[k]? = some call) (hresult : call.result = none)
      (hreceive : call.receive gob msg = .ok call') :
    Steps gob T s (.move k m)
      { s.setRequest k r' with calls := s.calls.set k call' } [.net k (.reply msg)]
  | handle {k : ℕ} {r r' : Request ε ν ς} {reply : ω} (hr : s.net.requests[k]? = some r)
      (hm : r.move s.net.net (.complete (gob.encode reply)) =
        some (r', [.complete ⟨true, gob.encode reply⟩])) :
    Steps gob T s (.handle k reply) (s.setRequest k r')
      [.net k (.complete ⟨true, gob.encode reply⟩), .handled k reply]

theorem Steps.net (h : Steps gob T s a s' es) :
    match a.net? gob with
    | none => s'.net = s.net ∧ netTrace es = []
    | some a => s.net.step a = some (s'.net, netTrace es) := by
  cases h with
  | admin | call => rfl
  | addService => exact ⟨rfl, rfl⟩
  | quiet hr hm | invoke hr hm | late hr hm | receive hr hm | handle hr hm =>
    simp [Action.net?, Labrpc.State.step, hr, hm, State.setRequest, netTrace]

/-- **A step keeps each call tied to its request.** -/
theorem Steps.tied (hs : Steps gob T s a s' es) (h : Tied gob T as s tr)
    (hunfinished : ∀ k r, s.net.requests[k]? = some r → ¬ r.Finished →
      replies k (netTrace tr) = []) : Tied gob T (as ++ [a]) s' (tr ++ es) := by
  cases hs with
  | admin =>
    refine h.concat rfl rfl ?_
    rw [provided_concat (by simp)]
    exact h.services
  | @addService sv rcvr =>
    refine h.concat rfl rfl fun sv' service => ?_
    rw [provided_concat_addService]
    rcases eq_or_ne sv sv' with rfl | hsv
    · rcases eq_or_ne rcvr.name service with rfl | hname
      · simp [State.addService, Server.addService, Service.make]
      · simpa [State.addService, Server.addService, Service.make, hname,
          Function.update_of_ne hname.symm] using h.services sv service
    · simpa [State.addService, Function.update_of_ne hsv.symm, hsv] using h.services sv' service
  | call => exact h.accept (by simp) rfl rfl rfl rfl rfl rfl
  | quiet hr hm =>
    refine h.move (by simp) rfl rfl hr rfl (by simp) (fun _ _ => rfl)
      fun call call' hcall hcall' hl => ?_
    cases hcall.symm.trans hcall'
    exact hl.append (moves_of_move hm).req_eq rfl (fun _ hi => absurd hi List.not_mem_nil) rfl rfl
  | @invoke k r r' target call₁ service method hr hm hcall₁ hfind =>
    refine h.move (by simp) rfl rfl hr rfl (by simp [Event.index]) (fun _ _ => rfl)
      fun call call' hcall hcall' hl => ?_
    cases hcall.symm.trans hcall'
    cases hcall.symm.trans hcall₁
    refine hl.append (moves_of_move hm).req_eq ?_ (fun i hi => ?_) ?_ ?_
    · simp [dispatches, netTrace, observed, Labrpc.Event.dispatch?, invocations]
    · obtain rfl : i = (target.server, service, method.name, call₁.args) := by
        simpa [invocations, hl.decodeArgs] using hi
      obtain ⟨rcvr, hrcvr, hmethod, hhandler, hname⟩ :=
        (Server.find_eq_ok_iff (h.services target.server)).mp hfind
      exact ⟨rfl, hname, as, [], rcvr, method, rfl, hrcvr, hmethod, hhandler, rfl⟩
    · simp [completions, netTrace, observed, Labrpc.Event.complete?, Rpc.handled]
    · simp [replies, netTrace, observed, Labrpc.Event.reply?]
  | late hr hm hcall₁ hresult =>
    -- the call has had its reply, and there is only one
    refine h.move (by simp) rfl rfl hr rfl (by simp [Event.index]) (fun _ _ => rfl)
      fun call call' hcall hcall' hl => ?_
    cases hcall.symm.trans hcall₁
    obtain ⟨msg', hone, _⟩ := hl.returned _ hresult
    cases hone.symm.trans (hunfinished _ _ hr (not_finished_of_reply hm))
  | receive hr hm hcall₁ hresult hreceive =>
    refine h.move (by simp) rfl (List.length_set ..) hr rfl (by simp [Event.index])
      (fun k hk => List.getElem?_set_ne hk) fun call call' hcall hcall' hl => ?_
    cases hcall.symm.trans hcall₁
    cases (List.getElem?_set_self (List.getElem?_eq_some_iff.mp hcall).1).symm.trans hcall'
    exact hl.receive (moves_of_move hm).req_eq hresult hreceive
  | handle hr hm =>
    refine h.move (by simp) rfl rfl hr rfl (by simp [Event.index]) (fun _ _ => rfl)
      fun call call' hcall hcall' hl => ?_
    cases hcall.symm.trans hcall'
    refine hl.append (moves_of_move hm).req_eq ?_ ?_ ?_ ?_
    · simp [dispatches, netTrace, observed, Labrpc.Event.dispatch?, invocations]
    · simp [invocations]
    · simp [completions, netTrace, observed, Labrpc.Event.complete?, Rpc.handled]
    · simp [replies, netTrace, observed, Labrpc.Event.reply?]

theorem netStep_move {n : Labrpc.State ε ν ς} {k : ℕ} {m : Move} {n' : Labrpc.State ε ν ς}
    {es : List (ℕ × Labrpc.Event ν ς)} (h : n.step (.move k m) = some (n', es)) :
    ∃ r r' es₀, n.requests[k]? = some r ∧ r.move n.net m = some (r', es₀) ∧
      n' = { n with requests := n.requests.set k r' } ∧ es = es₀.map (k, ·) := by
  obtain ⟨r, hr, h⟩ := Option.bind_eq_some_iff.mp h
  obtain ⟨⟨r', es₀⟩, hm, h⟩ := Option.bind_eq_some_iff.mp h
  obtain ⟨rfl, rfl⟩ := Prod.mk.inj (Option.some.inj h)
  exact ⟨r, r', es₀, hr, hm, rfl, rfl⟩

theorem steps_of_move {k : ℕ} {m : Move} {r r' : Request ε ν ς} {es₀ : List (Labrpc.Event ν ς)}
    (hr : s.net.requests[k]? = some r) (hm : r.move s.net.net m = some (r', es₀))
    (hcomplete : Move.isComplete m = false)
    (ho : (s.setRequest k r').observe gob k (es₀.map (k, ·)) = some (s', es))
    (hfatal : s'.fatal = none) :
    Steps gob T s (.move k m) s' (es₀.map (fun e => .net k e) ++ es) := by
  have hself : (s.setRequest k r').net.requests[k]? = some r' :=
    List.getElem?_set_self (List.getElem?_eq_some_iff.mp hr).1
  cases id (moves_of_move hm) with
  | complete => cases hcomplete
  | dispatch hex =>
    obtain ⟨r₁, call, service, method, hr₁, hcall, hfind, rfl, rfl⟩ := dispatch_eq_some ho hfatal
    cases hself.symm.trans hr₁
    exact Steps.invoke (r := r) hr hm hcall hfind
  | send | timer =>
    obtain ⟨rfl, call, hcall, ⟨b, hresult, rfl⟩ | ⟨hresult, call', hreceive, rfl⟩⟩ :=
      receive_eq_some ho hfatal
    · exact .late hr hm hcall hresult
    · exact .receive hr hm hcall hresult hreceive
  | _ =>
    cases ho
    exact .quiet hr hm

theorem steps_of_eq_some (h : s.step gob T a = some (s', es)) (hfatal : s'.fatal = none) :
    Steps gob T s a s' es := by
  rw [State.step.eq_def] at h
  split at h
  · cases h
  · cases a with
    | admin a => cases h; exact .admin
    | addService sv rcvr => cases h; exact .addService
    | call endname svcMeth args reply => cases h; exact .call
    | handle k reply =>
      obtain ⟨⟨n', es₁⟩, hn, h⟩ := Option.bind_eq_some_iff.mp h
      obtain ⟨r, r', es₀, hr, hm, rfl, rfl⟩ := netStep_move hn
      cases h
      cases moves_of_move hm with
      | complete hex => exact .handle hr hm
    | move k m =>
      simp only at h
      split at h
      · cases h
      · rename_i hcomplete
        obtain ⟨⟨n', es₁⟩, hn, h⟩ := Option.bind_eq_some_iff.mp h
        obtain ⟨⟨s₁, es₂⟩, ho, h⟩ := Option.bind_eq_some_iff.mp h
        obtain ⟨r, r', es₀, hr, hm, rfl, rfl⟩ := netStep_move hn
        cases h
        rw [List.map_map]
        exact steps_of_move hr hm (Bool.eq_false_of_not_eq_true hcomplete) ho hfatal

theorem fatal_of_step (h : s.step gob T a = some (s', es)) : s.fatal = none := by
  rw [State.step.eq_def] at h
  split at h
  · cases h
  · rename_i hfatal
    simpa using hfatal

/-! ### The network under the calls

If the calls are forgotten, a run is a run of the network. All that was proved about requests holds
of the requests of calls. -/

abbrev Cfg (ε ν ς τ ω : Type) := System.Config (State ε ν ς τ ω) (Event ν ς ω)

/-- **The network under the calls.** -/
theorem exec_net {c : Cfg ε ν ς τ ω}
    (h : (system gob T).exec (system gob T).start as = some c) (hfatal : c.state.fatal = none) :
    (Labrpc.system ε ν ς).exec (Labrpc.system ε ν ς).start (as.filterMap (Action.net? gob)) =
      some ⟨c.state.net, netTrace c.trace⟩ := by
  refine System.exec_induction (M := system gob T)
    (P := fun as c => c.state.fatal = none →
      (Labrpc.system ε ν ς).exec (Labrpc.system ε ν ς).start (as.filterMap (Action.net? gob)) =
        some ⟨c.state.net, netTrace c.trace⟩) (fun _ => rfl) ?_ h hfatal
  intro as c a c' _ hI hn hfatal
  obtain ⟨es, hs, ht⟩ := System.next_eq_some_iff.mp hn
  have hnet := (steps_of_eq_some hs hfatal).net
  have hI := hI (fatal_of_step hs)
  rw [List.filterMap_append, List.filterMap_cons, List.filterMap_nil, ht, netTrace_append]
  cases ha : a.net? gob with
  | none =>
    rw [ha] at hnet
    obtain ⟨hsame, hnil⟩ := hnet
    rw [List.append_nil, hI, hsame, hnil, List.append_nil]
  | some a =>
    rw [ha] at hnet
    rw [System.exec_concat hI]
    exact System.next_eq_some_iff.mpr ⟨_, hnet, rfl⟩

/-- **Each call is tied to its request, along every run.** -/
theorem tied_of_exec {c : Cfg ε ν ς τ ω} (h : (system gob T).exec (system gob T).start as = some c)
    (hfatal : c.state.fatal = none) : Tied gob T as c.state c.trace := by
  refine System.exec_induction (M := system gob T)
    (P := fun as c => c.state.fatal = none → Tied gob T as c.state c.trace)
    (fun _ => ⟨rfl, by rintro _ ⟨⟩, fun _ _ => rfl, by rintro _ _ _ ⟨⟩⟩) ?_ h hfatal
  intro as c a c' hc hI hn hfatal
  obtain ⟨es, hs, ht⟩ := System.next_eq_some_iff.mp hn
  have hnone := fatal_of_step hs
  rw [ht]
  exact (steps_of_eq_some hs hfatal).tied (hI hnone) fun k r hr =>
    (accounted_of_exec (exec_net hc hnone) hr).unfinished

/-! ### What a call means -/

omit [DecidableEq ε] [DecidableEq ν] in
theorem Linked.length_invocations (h : Linked gob T as tr k call r) :
    (invocations k tr).length = (dispatches k (netTrace tr)).length := by
  rw [← List.length_map (f := Prod.fst), ← h.invoked, List.length_map]

/-- **What a call means**, in every run of a program that has not ended. Its arguments reach at most
one method, once, and as they were: the one that it names, among those that the server has at that
moment. If `Call` returns true there was such a method, it has returned, and what it left in its
reply was decoded into the variable of the caller; if that was a new variable, it is now that reply.
If `Call` returns false, or has not returned, the variable is as it was. -/
theorem call_meaning (gob : Gob τ ω) (T : Types τ) (as : List (Action ε ν ς τ ω))
    (c : Cfg ε ν ς τ ω) (h : (system gob T).exec (system gob T).start as = some c)
    (hfatal : c.state.fatal = none) (k : ℕ) (call : Call ω) (r : Request ε ν ς)
    (hcall : c.state.calls[k]? = some call) (hr : c.state.net.requests[k]? = some r) :
    (invocations k c.trace).length ≤ 1 ∧
      (∀ i ∈ invocations k c.trace, Names T as k r.req.svcMeth call.args i) ∧
      (call.result = some true → ∃ i v, invocations k c.trace = [i] ∧
        Rpc.handled k c.trace = [v] ∧ gob.decode call.into (gob.encode v) = some call.reply ∧
        (call.into = gob.zero (gob.typeOf v) → call.reply = v)) ∧
      (call.result ≠ some true → call.reply = call.into) := by
  have hl := (tied_of_exec h hfatal).linked k call r hcall hr
  have hnet := exec_net h hfatal
  have hacc := accounted_of_exec hnet hr
  refine ⟨?_, hl.names, fun hresult => ?_, fun hresult => ?_⟩
  · rw [hl.length_invocations, hacc.dispatches]
    cases r.execution <;> simp [Execution.dispatches]
  · obtain ⟨msg, hone, hok, hdecode⟩ := hl.returned true hresult
    obtain ⟨target, hended, _⟩ := hacc.confirmed msg hok
      (Or.inr (Or.inr (hone ▸ List.mem_singleton_self msg)))
    have hdispatches := hacc.dispatches
    have hcompletions := hacc.completions
    rw [hended] at hdispatches hcompletions
    obtain ⟨i, hi⟩ : ∃ i, invocations k c.trace = [i] := by
      rw [← List.length_eq_one_iff, hl.length_invocations, hdispatches]
      rfl
    obtain ⟨v, hv, rfl⟩ : ∃ v, Rpc.handled k c.trace = [v] ∧ ⟨true, gob.encode v⟩ = msg := by
      exact List.map_eq_singleton_iff.mp (hl.handled.symm.trans hcompletions)
    rw [if_pos rfl] at hdecode
    refine ⟨i, v, hi, hv, hdecode, fun hinto => ?_⟩
    rw [hinto, gob.decode_encode] at hdecode
    exact (Option.some.inj hdecode).symm
  · cases hb : call.result with
    | none => exact (hl.waiting hb).2
    | some b =>
      cases b with
      | true => exact absurd hb hresult
      | false =>
        obtain ⟨msg, _, _, hreply⟩ := hl.returned false hb
        simpa using hreply

section Example

/-- Values of two types, `false` and `true`, each a list of bytes. An empty list is not sent. -/
def bytesGob : Gob Bool (Bool × List UInt8) where
  typeOf v := v.1
  assignableTo t t' := t == t'
  zero t := (t, [])
  encode v := v.2
  decode v bs := some (v.1, if bs = [] then v.2 else bs)
  decode_encode v := by
    obtain ⟨t, bs⟩ := v
    rcases eq_or_ne bs [] with rfl | hbs
    · rfl
    · simp [hbs]

/-- The types of a receiver, of the arguments and of the reply: type `true` is a pointer. -/
def raftTypes : Types Bool where
  kind t := if t then .ptr false else .basic
  name _ := []
  isUpper _ := true

/-- A type `Raft` with a handler, and with a method that is not one. -/
def raftReceiver : Receiver Bool where
  name := "Raft"
  methods := [⟨"AppendEntries", true, [true, false, true], 0⟩, ⟨"GetState", true, [true], 2⟩]
  nodup := by decide
  noDot := by decide

/-- The run of `answeredRun`, with a call that has the arguments `[1]`. -/
def raftCallRun : List (Action ℕ ℕ ℕ Bool (Bool × List UInt8)) :=
  [.addService 7 raftReceiver, .admin (.addServer 1 7), .admin (.connect 0 (some 1)),
    .admin (.enable 0 true),
    .call 0 "Raft.AppendEntries" (false, [1]) (true, []), .move 0 .readEndnameInfo,
    .move 0 .execute, .move 0 .dispatch, .handle 0 (true, [42]), .move 0 .receive,
    .move 0 (.check true false), .move 0 .send]

/-- In `raftCallRun` the caller gets what the method has replied. -/
theorem call_meaning_raftCallRun :
    ∃ c call r, (system bytesGob raftTypes).exec
        (system bytesGob raftTypes).start raftCallRun = some c ∧
      c.state.fatal = none ∧ c.state.calls[0]? = some call ∧
      c.state.net.requests[0]? = some r ∧ call.result = some true ∧
      ∃ i v, invocations 0 c.trace = [i] ∧ Rpc.handled 0 c.trace = [v] ∧
        bytesGob.decode call.into (bytesGob.encode v) = some call.reply := by
  have hrun : ((system bytesGob raftTypes).exec
      (system bytesGob raftTypes).start raftCallRun).any (fun c =>
        c.state.fatal.isNone && c.state.calls[0]?.any (fun call =>
          decide (call.result = some true)) && c.state.net.requests[0]?.isSome) = true := by
    decide +kernel
  obtain ⟨c, hc, h⟩ := (Option.any_eq_true _ _).mp hrun
  obtain ⟨h, hsome⟩ := (Bool.and_eq_true _ _).mp h
  obtain ⟨hfatal, h⟩ := (Bool.and_eq_true _ _).mp h
  obtain ⟨call, hcall, hresult⟩ := (Option.any_eq_true _ _).mp h
  obtain ⟨r, hr⟩ := Option.isSome_iff_exists.mp hsome
  have hfatal := Option.isNone_iff_eq_none.mp hfatal
  have hresult := of_decide_eq_true hresult
  obtain ⟨i, v, hi, hv, hdecode, _⟩ :=
    (call_meaning bytesGob _ raftCallRun c hc hfatal 0 call r hcall hr).2.2.1 hresult
  exact ⟨c, call, r, hc, hfatal, hcall, hr, hresult, i, v, hi, hv, hdecode⟩

end Example

/-! ### The counters

`rn.count` is an `int32` that is incremented when a request is accepted, before it is clear what
will become of it; `rs.count` is incremented by each dispatch, before the lookups. The first wraps
around. -/

/-- The event is a dispatch to this server. -/
def dispatchedTo (sv : ς) (e : ℕ × Labrpc.Event ν ς) : Bool :=
  e.2.dispatch?.any fun target => target.server = sv

/-- What the counters are, in terms of what happened. -/
structure Counted (s : State ε ν ς τ ω) (tr : List (Event ν ς ω)) : Prop where
  count : s.count = BitVec.ofNat 32 s.calls.length
  served : ∀ sv, s.served sv = (netTrace tr).countP (dispatchedTo sv)

theorem Steps.counted (hs : Steps gob T s a s' es) (h : Counted s tr) :
    Counted s' (tr ++ es) := by
  have hserved : ∀ sv, (netTrace (tr ++ es)).countP (dispatchedTo sv) =
      s.served sv + (netTrace es).countP (dispatchedTo sv) := fun sv => by
    rw [netTrace_append, List.countP_append, h.served]
  cases hs with
  | admin | addService | quiet => exact ⟨h.count, fun sv => (hserved sv).symm⟩
  | call =>
    refine ⟨?_, fun sv => (hserved sv).symm⟩
    simp [h.count, BitVec.ofNat_add]
  | @invoke k _ _ target =>
    refine ⟨h.count, fun sv => ?_⟩
    rw [hserved]
    rcases eq_or_ne target.server sv with rfl | hne
    · simp [netTrace, dispatchedTo, Labrpc.Event.dispatch?]
    · simp [netTrace, dispatchedTo, Labrpc.Event.dispatch?, hne, hne.symm]
  | late | handle => exact ⟨h.count, fun sv => (hserved sv).symm⟩
  | receive =>
    refine ⟨?_, fun sv => (hserved sv).symm⟩
    rw [List.length_set]
    exact h.count

omit [DecidableEq ε] [DecidableEq ν] [DecidableEq ς] in
/-- What was observed of all requests, taken together. -/
theorem sum_countP_observed {β : Type} (f : Labrpc.Event ν ς → Option β) (q : β → Bool) {n : ℕ}
    {l : List (ℕ × Labrpc.Event ν ς)} (hl : ∀ e ∈ l, e.1 < n) :
    ∑ k ∈ Finset.range n, (observed f k l).countP q = l.countP fun e => (f e.2).any q := by
  induction l with
  | nil => simp [observed]
  | cons e l ih =>
    have hstep : ∀ k, (observed f k (e :: l)).countP q = (observed f k l).countP q +
        if e.1 = k then ((f e.2).any q).toNat else 0 := by
      intro k
      rcases eq_or_ne e.1 k with rfl | hk
      · cases hf : f e.2 with
        | none => simp [observed, hf]
        | some x => cases hq : q x <;> simp [observed, hf, hq]
      · simp [observed, hk]
    rw [Finset.sum_congr rfl fun k _ => hstep k, Finset.sum_add_distrib,
      ih fun e he => hl e (List.mem_cons_of_mem _ he), Finset.sum_ite_eq, if_pos, List.countP_cons]
    · cases (f e.2).any q <;> rfl
    · exact Finset.mem_range.mpr (hl e List.mem_cons_self)

theorem counted_of_exec {as : List (Action ε ν ς τ ω)} {c : Cfg ε ν ς τ ω}
    (h : (system gob T).exec (system gob T).start as = some c)
    (hfatal : c.state.fatal = none) : Counted c.state c.trace := by
  refine System.exec_induction (M := system gob T)
    (P := fun _ c => c.state.fatal = none → Counted c.state c.trace)
    (fun _ => ⟨rfl, fun _ => rfl⟩) ?_ h hfatal
  intro as c a c' _ hI hn hfatal
  obtain ⟨es, hs, ht⟩ := System.next_eq_some_iff.mp hn
  rw [ht]
  exact (steps_of_eq_some hs hfatal).counted (hI (fatal_of_step hs))

/-- **The counters.** `GetTotalCount` is the number of requests that the network has accepted, as an
`int32`; and `GetCount` of a server is the number of those that were dispatched to it. -/
theorem counts_exact (gob : Gob τ ω) (T : Types τ) (as : List (Action ε ν ς τ ω))
    (c : Cfg ε ν ς τ ω) (h : (system gob T).exec (system gob T).start as = some c)
    (hfatal : c.state.fatal = none) :
    c.state.count = BitVec.ofNat 32 c.state.calls.length ∧
      ∀ sv, c.state.served sv = ((Finset.range c.state.calls.length).filter fun k =>
        ∃ target ∈ dispatches k (netTrace c.trace), target.server = sv).card := by
  have hcounted := counted_of_exec h hfatal
  have htied := tied_of_exec h hfatal
  refine ⟨hcounted.count, fun sv => ?_⟩
  have hseen : ∀ e ∈ netTrace c.trace, e.1 < c.state.calls.length := by
    intro e he
    obtain ⟨e', he', heq⟩ := List.mem_filterMap.mp he
    cases e' with
    | net i e₁ =>
      cases heq
      exact htied.seen _ he'
    | invoked | handled => cases heq
  rw [hcounted.served, Finset.card_filter]
  refine (sum_countP_observed Labrpc.Event.dispatch? (fun target => target.server = sv)
    hseen).symm.trans (Finset.sum_congr rfl fun k hk => ?_)
  -- a request is dispatched at most once
  have hk := htied.length ▸ Finset.mem_range.mp hk
  have hacc := accounted_of_exec (exec_net h hfatal) (List.getElem?_eq_getElem hk)
  rw [← dispatches, hacc.dispatches]
  cases c.state.net.requests[k].execution <;> simp [Execution.dispatches, List.countP_cons]

/-- In `raftCallRun` there is one call, and server `7` has had it. -/
theorem counts_exact_raftCallRun :
    ∃ c, (system bytesGob raftTypes).exec
        (system bytesGob raftTypes).start raftCallRun = some c ∧
      c.state.fatal = none ∧ c.state.served 7 = 1 ∧
      ((Finset.range c.state.calls.length).filter fun k =>
        ∃ target ∈ dispatches k (netTrace c.trace), target.server = 7).card = 1 := by
  have hrun : ((system bytesGob raftTypes).exec
      (system bytesGob raftTypes).start raftCallRun).any (fun c =>
        c.state.fatal.isNone && decide (c.state.served 7 = 1)) = true := by
    decide +kernel
  obtain ⟨c, hc, h⟩ := (Option.any_eq_true _ _).mp hrun
  obtain ⟨hfatal, hserved⟩ := (Bool.and_eq_true _ _).mp h
  have hfatal := Option.isNone_iff_eq_none.mp hfatal
  have hserved := of_decide_eq_true hserved
  refine ⟨c, hc, hfatal, hserved, ?_⟩
  rw [← (counts_exact bytesGob _ raftCallRun c hc hfatal).2 7, hserved]

end Rpc

end Labrpc

end Distsys
