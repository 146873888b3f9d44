import Mathlib.Data.List.Basic
import Mathlib.Logic.Function.Basic
import Distsys.Lib.TransitionSystem

/-!
# The network of `labrpc`

`Network.ProcessReq` runs in a goroutine of its own for every request that a `ClientEnd` sends. It
looks up the server once, at the beginning, hands the request to a second goroutine that calls the
handler, and waits for the reply while it asks every 100 ms whether the server has been replaced. It
may start two more goroutines: one that drains the channel of a handler nobody waits for any longer,
and a timer that sends a delayed reply.

A step of the system is a call of one of the functions that change the `Network`, or one piece of a
request between two points at which the others can be noticed: a critical section of `rn.mu`, an
operation on a channel, or the call and the return of the handler.

## Representation

* `ε` and `ν` are the names of ends and of servers, `ς` is the type of the pointers `*Server`. The
  maps of the `Network` are functions that are `false` or `none` where the map has no entry.
* Random numbers and sleeping are free choices: a random test is an argument of the step, and a
  timer can fire at any time. `longDelays` only has an influence on the length of a sleep and is
  left out.
* What the handler replies is an argument of its step. A call of an unknown service or method ends
  the program and is left out.
* A send on `replyCh` is always possible. The caller waits for the first one, and that there is no
  second one is what has to be shown.

## Main definitions

* `Network`, `Network.readEndnameInfo`, `Network.isServerDead`
* `Request`, `Request.move` — one request, and what it does next
* `Event`, `dispatches`, `completions`, `replies` — what can be observed of it
* `system`
-/

namespace Distsys

namespace Labrpc

variable {ε ν ς : Type}

/-- `reqMsg`. -/
structure ReqMsg (ε : Type) where
  endname : ε
  svcMeth : String
  args : List UInt8
  deriving DecidableEq, Repr

/-- `replyMsg`. -/
structure ReplyMsg where
  ok : Bool
  reply : List UInt8
  deriving DecidableEq, Repr

/-- `replyMsg{false, nil}`. -/
def ReplyMsg.failed : ReplyMsg := ⟨false, []⟩

/-! ### The network

The struct `Network` without its lock and its channel. Every function that takes the lock is one
step, so a value of this type is what others see between two critical sections. -/

/-- The `Network` struct. -/
structure Network (ε ν ς : Type) where
  /-- If not, requests and replies may be dropped. -/
  reliable : Bool
  /-- Whether replies may be delayed. -/
  longReordering : Bool
  /-- Whether an end may send. -/
  enabled : ε → Bool
  /-- The server under a name, as long as it is not deleted. -/
  servers : ν → Option ς
  /-- The name of the server that an end leads to. -/
  connections : ε → Option ν

/-- `MakeNetwork`. -/
def Network.make : Network ε ν ς where
  reliable := true
  longReordering := false
  enabled _ := false
  servers _ := none
  connections _ := none

/-- `ReadEndnameInfo`, with its results `(enabled, servername, server, reliable, longreordering)`.
-/
def Network.readEndnameInfo (rn : Network ε ν ς) (endname : ε) :
    Bool × Option ν × Option ς × Bool × Bool :=
  let servername := rn.connections endname
  let server := servername.bind rn.servers
  (rn.enabled endname, servername, server, rn.reliable, rn.longReordering)

/-- `IsServerDead`. -/
def Network.isServerDead [DecidableEq ς] (rn : Network ε ν ς) (endname : ε) (servername : ν)
    (server : ς) : Bool :=
  rn.enabled endname = false || rn.servers servername ≠ some server

/-- The functions that change the network. -/
inductive Admin (ε ν ς : Type) where
  | enable (endname : ε) (enabled : Bool)
  | connect (endname : ε) (servername : Option ν)
  | addServer (servername : ν) (rs : ς)
  | deleteServer (servername : ν)
  | reliable (yes : Bool)
  | longReordering (yes : Bool)
  deriving DecidableEq, Repr

def Network.admin [DecidableEq ε] [DecidableEq ν] (rn : Network ε ν ς) :
    Admin ε ν ς → Network ε ν ς
  | .enable endname enabled => { rn with enabled := Function.update rn.enabled endname enabled }
  | .connect endname servername =>
    { rn with connections := Function.update rn.connections endname servername }
  | .addServer servername rs =>
    { rn with servers := Function.update rn.servers servername (some rs) }
  | .deleteServer servername => { rn with servers := Function.update rn.servers servername none }
  | .reliable yes => { rn with reliable := yes }
  | .longReordering yes => { rn with longReordering := yes }

/-! ### One request

A request is a little state machine of its own: the goroutine of `ProcessReq`, the goroutine that
executes the request, and up to two helpers. They share nothing with other requests but the network,
which they only read. -/

/-- The local variables of `ProcessReq`, past its first test. -/
structure Target (ν ς : Type) where
  servername : ν
  /-- The server that had this name when it was looked up. -/
  server : ς
  reliable : Bool
  longreordering : Bool
  deriving DecidableEq, Repr

/-- Where `ProcessReq` stands. -/
inductive ProcessReq (ν ς : Type) where
  /-- Before `ReadEndnameInfo`. -/
  | start
  /-- In the short delay of an unreliable network. -/
  | shortDelay (target : Target ν ς)
  /-- Before the goroutine that executes the request is started. -/
  | execute (target : Target ν ς)
  /-- In the `select` of the loop. -/
  | wait (target : Target ν ς)
  /-- Behind the loop, with the `reply` if `replyOK`. -/
  | check (target : Target ν ς) (reply : Option ReplyMsg)
  /-- Before `req.replyCh <- reply`. -/
  | send (reply : ReplyMsg)
  | returned
  deriving DecidableEq, Repr

/-- Where the goroutine that executes the request stands. -/
inductive Execution (ν ς : Type) where
  /-- Not started yet. -/
  | idle
  /-- Before `server.dispatch(req)`. -/
  | started (target : Target ν ς)
  /-- In the handler. -/
  | dispatched (target : Target ν ς)
  /-- Before `ech <- r`. -/
  | completed (target : Target ν ς) (r : ReplyMsg)
  | ended (target : Target ν ς) (r : ReplyMsg)
  deriving DecidableEq, Repr

/-- A request and its goroutines. -/
structure Request (ε ν ς : Type) where
  req : ReqMsg ε
  /-- Where `ProcessReq` is. -/
  pc : ProcessReq ν ς
  /-- Where the goroutine is that calls the handler. -/
  execution : Execution ν ς
  /-- Whether the goroutine that drains `ech` waits. -/
  drain : Bool
  /-- The timer of `time.AfterFunc`, with what it will send on `replyCh`. -/
  timer : Option ReplyMsg
  deriving DecidableEq, Repr

/-- A request that the goroutine of `MakeNetwork` has received from `endCh`. -/
def Request.accept (req : ReqMsg ε) : Request ε ν ς where
  req := req
  pc := .start
  execution := .idle
  drain := false
  timer := none

/-- `ProcessReq` and the timer have finished. -/
def Request.Finished (r : Request ε ν ς) : Prop := r.pc = .returned ∧ r.timer = none

instance [DecidableEq ν] [DecidableEq ς] (r : Request ε ν ς) : Decidable r.Finished :=
  inferInstanceAs (Decidable (_ ∧ _))

/-- What can be observed of a request. -/
inductive Event (ν ς : Type) where
  /-- `server.dispatch(req)` is called. -/
  | dispatch (target : Target ν ς)
  /-- `server.dispatch(req)` returns. -/
  | complete (r : ReplyMsg)
  /-- A message is sent on `replyCh`. -/
  | reply (msg : ReplyMsg)
  deriving DecidableEq, Repr

/-- What a request does next. -/
inductive Move where
  | readEndnameInfo
  /-- The short delay is over, and `rand.Int()%1000 < 100` is `drop`. -/
  | shortDelay (drop : Bool)
  | execute
  | dispatch
  /-- The handler returns. -/
  | complete (reply : List UInt8)
  /-- `reply = <-ech` in the loop. -/
  | receive
  /-- `time.After` fires in the loop. -/
  | poll
  /-- `<-ech` in the goroutine that drains. -/
  | drain
  /-- `IsServerDead` behind the loop, and the random tests for dropping or delaying the reply. -/
  | check (drop delay : Bool)
  | send
  /-- The function of `time.AfterFunc` is called. -/
  | timer
  deriving DecidableEq, Repr

/-- The part of `ProcessReq` up to the short delay. -/
def Request.readEndnameInfo (r : Request ε ν ς) (rn : Network ε ν ς) : Request ε ν ς :=
  match rn.readEndnameInfo r.req.endname with
  | (true, some servername, some server, reliable, longreordering) =>
    let target : Target ν ς := { servername, server, reliable, longreordering }
    { r with pc := if reliable = false then .shortDelay target else .execute target }
  | _ => { r with pc := .returned, timer := some .failed }

/-- The part of `ProcessReq` behind the loop. -/
def Request.check [DecidableEq ς] (r : Request ε ν ς) (rn : Network ε ν ς) (target : Target ν ς)
    (reply : Option ReplyMsg) (drop delay : Bool) : Request ε ν ς :=
  let serverDead := rn.isServerDead r.req.endname target.servername target.server
  match reply with
  | none => { r with pc := .send .failed }
  | some reply =>
    if serverDead = true then { r with pc := .send .failed }
    else if target.reliable = false ∧ drop = true then { r with pc := .send .failed }
    else if target.longreordering = true ∧ delay = true then
      { r with pc := .returned, timer := some reply }
    else { r with pc := .send reply }

/-- One step of a request; `none` if it is not there or blocked. -/
def Request.move [DecidableEq ς] (r : Request ε ν ς) (rn : Network ε ν ς) :
    Move → Option (Request ε ν ς × List (Event ν ς))
  | .readEndnameInfo =>
    match r.pc with
    | .start => some (r.readEndnameInfo rn, [])
    | _ => none
  | .shortDelay drop =>
    match r.pc with
    | .shortDelay target =>
      some ({ r with pc := if drop then .send .failed else .execute target }, [])
    | _ => none
  | .execute =>
    match r.pc with
    | .execute target => some ({ r with pc := .wait target, execution := .started target }, [])
    | _ => none
  | .dispatch =>
    match r.execution with
    | .started target => some ({ r with execution := .dispatched target }, [.dispatch target])
    | _ => none
  | .complete reply =>
    match r.execution with
    | .dispatched target =>
      some ({ r with execution := .completed target ⟨true, reply⟩ }, [.complete ⟨true, reply⟩])
    | _ => none
  | .receive =>
    match r.pc, r.execution with
    | .wait target, .completed target' reply =>
      some ({ r with pc := .check target (some reply), execution := .ended target' reply }, [])
    | _, _ => none
  | .poll =>
    match r.pc with
    | .wait target =>
      if rn.isServerDead r.req.endname target.servername target.server then
        some ({ r with pc := .check target none, drain := true }, [])
      else some (r, [])
    | _ => none
  | .drain =>
    match r.drain, r.execution with
    | true, .completed target reply =>
      some ({ r with drain := false, execution := .ended target reply }, [])
    | _, _ => none
  | .check drop delay =>
    match r.pc with
    | .check target reply => some (r.check rn target reply drop delay, [])
    | _ => none
  | .send =>
    match r.pc with
    | .send reply => some ({ r with pc := .returned }, [.reply reply])
    | _ => none
  | .timer =>
    match r.timer with
    | some reply => some ({ r with timer := none }, [.reply reply])
    | none => none

/-! ### All requests

Requests are named by the order in which the network has accepted them. A request that is done stays
in the list, so that its name stays its own. -/

/-- The network and the requests accepted so far, in order. -/
structure State (ε ν ς : Type) where
  net : Network ε ν ς
  requests : List (Request ε ν ς)

/-- What happens next. A request is named by its place in the list. -/
inductive Action (ε ν ς : Type) where
  | admin (a : Admin ε ν ς)
  /-- A `ClientEnd` sends a request in `Call`. -/
  | call (req : ReqMsg ε)
  | move (k : ℕ) (m : Move)
  deriving DecidableEq, Repr

/-- One step of the network, with the events it emits and the request they belong to. -/
def State.step [DecidableEq ε] [DecidableEq ν] [DecidableEq ς] (s : State ε ν ς) :
    Action ε ν ς → Option (State ε ν ς × List (ℕ × Event ν ς))
  | .admin a => some ({ s with net := s.net.admin a }, [])
  | .call req => some ({ s with requests := s.requests ++ [.accept req] }, [])
  | .move k m => do
    let r ← s.requests[k]?
    let (r', es) ← r.move s.net m
    return ({ s with requests := s.requests.set k r' }, es.map (k, ·))

/-- The network as a transition system. -/
def system (ε ν ς : Type) [DecidableEq ε] [DecidableEq ν] [DecidableEq ς] :
    System (State ε ν ς) (Action ε ν ς) (ℕ × Event ν ς) where
  init := { net := .make, requests := [] }
  step := State.step

/-- A configuration of the network. -/
abbrev Cfg (ε ν ς : Type) := System.Config (State ε ν ς) (ℕ × Event ν ς)

/-- What a trace shows of request `k`, as far as `f` looks at it. -/
def observed {β : Type} (f : Event ν ς → Option β) (k : ℕ) (tr : List (ℕ × Event ν ς)) : List β :=
  tr.filterMap fun e => if e.1 = k then f e.2 else none

def Event.dispatch? : Event ν ς → Option (Target ν ς)
  | .dispatch target => some target
  | _ => none

def Event.complete? : Event ν ς → Option ReplyMsg
  | .complete r => some r
  | _ => none

def Event.reply? : Event ν ς → Option ReplyMsg
  | .reply msg => some msg
  | _ => none

/-- The calls of `server.dispatch` for request `k`. -/
def dispatches (k : ℕ) (tr : List (ℕ × Event ν ς)) : List (Target ν ς) :=
  observed Event.dispatch? k tr

/-- What the calls of `server.dispatch` for request `k` have returned. -/
def completions (k : ℕ) (tr : List (ℕ × Event ν ς)) : List ReplyMsg := observed Event.complete? k tr

/-- The messages sent on the `replyCh` of request `k`. -/
def replies (k : ℕ) (tr : List (ℕ × Event ν ς)) : List ReplyMsg := observed Event.reply? k tr

end Labrpc

end Distsys
