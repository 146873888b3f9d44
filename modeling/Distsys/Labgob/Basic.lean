import Distsys.Lib.GoText
import Distsys.Lib.Marking

/-!
# The checks of `labgob`

`labgob` wraps `encoding/gob` and looks at what goes through it. `checkType` walks over the types of
a value and complains about fields that are not capitalized, once for each type: the map `checked`
is shared by all goroutines. `checkDefault`, before a value is decoded into, warns of fields that
are not zero, and only if nothing was counted before.

What both see is given by package `reflect`: `Types` and `Values`. Types refer to each other, also
in circles, so a type is a name and `Types.kind` says what it is; values in the same way.

A step is one critical section of `mu`. What a goroutine will still do is a stack, since `checkType`
is a depth-first walk. `checkDefault` does not look at shared state, so its critical sections are
known when it is called.

`value.Interface()` panics for a value that was read from a field that is not exported. The way to
a value decides, and `reflect` keeps it in two flags.

## Main definitions

* `Reflection.Types`, `Reflection.Values` — what `reflect` shows
* `GobCheck.expand` — the body of `checkType`
* `GobCheck.checkDefault1`
* `GobCheck.system`

## Main results

* `GobCheck.marking_of_reachable` — the types are marked as in `Distsys.Lib.Marking`
-/

namespace Distsys

namespace Reflection

open GoString

/-- `reflect.StructField`. -/
structure StructField (τ : Type) where
  name : GoString
  type : τ
  /-- The field is embedded. -/
  anonymous : Bool
  deriving DecidableEq, Repr

/-- `reflect.Kind`, with what a type of this kind is made of. -/
inductive Kind (τ : Type) where
  | struct (fields : List (StructField τ))
  | slice (elem : τ)
  | array (elem : τ)
  | ptr (elem : τ)
  | map (key elem : τ)
  /-- Booleans, integers, floating-point numbers and strings. -/
  | basic
  | other
  deriving DecidableEq, Repr

/-- The types of a program. -/
structure Types (τ : Type) where
  kind : τ → Kind τ
  name : τ → GoString
  /-- `unicode.IsUpper`. -/
  isUpper : ℕ → Bool

/-- The values of a program. -/
structure Values (τ ν : Type) where
  type : ν → τ
  /-- `value.Field(i)`. -/
  field : ν → ℕ → ν
  /-- `value.Elem()`, `none` when `value.IsNil()`. -/
  elem : ν → Option ν
  /-- `reflect.DeepEqual(reflect.Zero(t).Interface(), value.Interface())`. -/
  isZero : ν → Bool

variable {τ : Type}

/-- The name of a field does not begin with a capital letter. This is also what it means not to be
exported. -/
def Types.lowerCase (T : Types τ) (f : StructField τ) : Bool := !T.isUpper (decodeRune f.name).1

/-- The flags of a value: it was read from a field that is not exported, or from an embedded one. -/
structure Flags where
  sticky : Bool
  embed : Bool
  deriving DecidableEq, Repr

/-- The flags of `value.Field(i)`. -/
def Flags.field (T : Types τ) (fl : Flags) (f : StructField τ) : Flags where
  sticky := fl.sticky || (T.lowerCase f && !f.anonymous)
  embed := T.lowerCase f && f.anonymous

/-- `value.Interface()` panics. -/
def Flags.readOnly (fl : Flags) : Bool := fl.sticky || fl.embed

end Reflection

namespace GobCheck

open GoString Reflection
open Marking (Work)

variable {τ ν : Type}

/-- What the checks find. -/
inductive Report (τ : Type) where
  /-- Field `i` of a struct type, with its name. -/
  | lowerCase (t : τ) (i : ℕ) (name : GoString)
  | nonDefault (what : GoString)
  | panic
  deriving DecidableEq, Repr

/-- `checkType`, for a type that is not checked. -/
def expand (T : Types τ) (t : τ) : List (Work τ (Report τ)) :=
  match T.kind t with
  | .struct fields => fields.zipIdx.flatMap fun (f, i) =>
      (if T.lowerCase f then [.emit (.lowerCase t i f.name)] else []) ++ [.visit f.type]
  | .slice elem | .array elem | .ptr elem => [.visit elem]
  | .map key elem => [.visit elem, .visit key]
  | .basic | .other => []

/-- `checkValue`. The type of `nil` is `nil`. -/
def checkValue : Option τ → List (Work τ (Report τ))
  | none => [.emit .panic]
  | some t => [.visit t]

/-- `checkDefault1`; the first argument is `4 - depth`. -/
def checkDefault1 (T : Types τ) (V : Values τ ν) : ℕ → ν → Flags → GoString → List (Report τ)
  | 0, _, _, _ => []
  | left + 1, value, fl, name =>
    match T.kind (V.type value) with
    | .struct fields => fields.zipIdx.flatMap fun (f, i) =>
        checkDefault1 T V left (V.field value i) (fl.field T f)
          (if name ≠ [] then name ++ lit "." ++ f.name else f.name)
    | .ptr _ =>
      match V.elem value with
      | none => []
      | some value' => checkDefault1 T V left value' fl name
    | .basic =>
      if fl.readOnly then [.panic]
      else if V.isZero value then []
      else [.nonDefault (if name = [] then T.name (V.type value) else name)]
    | _ => []

/-- `checkDefault`. -/
def checkDefault (T : Types τ) (V : Values τ ν) : Option ν → List (Report τ)
  | none => []
  | some value => checkDefault1 T V 3 value ⟨false, false⟩ []

/-- What `Decode` does before it decodes. -/
def decode (T : Types τ) (V : Values τ ν) (e : Option ν) : List (Work τ (Report τ)) :=
  checkValue (e.map V.type) ++ (checkDefault T V e).map .emit

/-- The package variables, and the goroutines that are in a check. -/
structure State (τ : Type) where
  /-- `checked`, and what the goroutines will still do. -/
  checks : Marking.State τ (Report τ)
  errorCount : ℕ
  /-- A goroutine has panicked, and with it the program. -/
  panicked : Bool
  deriving DecidableEq, Repr

inductive Action (τ ν : Type) where
  /-- `Encode`, `EncodeValue`, `Register` or `RegisterName` with a value of this type. -/
  | check (t : Option τ)
  | decode (e : Option ν)
  /-- Goroutine `k` goes on to the end of its next critical section. -/
  | step (k : ℕ)
  deriving DecidableEq, Repr

inductive Event (τ : Type) where
  | called (ws : List (Work τ (Report τ)))
  /-- Something was found, and this is printed or not. -/
  | reported (r : Report τ) (printed : Bool)
  deriving DecidableEq, Repr

/-- What happens to the marks. -/
def Action.marking (T : Types τ) (V : Values τ ν) : Action τ ν → Marking.Action τ (Report τ)
  | .check t => .call (checkValue t)
  | .decode e => .call (GobCheck.decode T V e)
  | .step k => .step k

/-- A complaint is always printed, a warning only if it is the first error. -/
def Report.printed (errorCount : ℕ) : Report τ → Bool
  | .nonDefault _ => errorCount < 1
  | _ => true

/-- What `errorCount` is incremented by. -/
def count : Marking.Event τ (Report τ) → ℕ
  | .called _ | .emitted .panic => 0
  | .emitted _ => 1

/-- What is seen of an event. -/
def observe (errorCount : ℕ) : Marking.Event τ (Report τ) → Event τ
  | .called ws => .called ws
  | .emitted r => .reported r (r.printed errorCount)

variable [DecidableEq τ] (T : Types τ) (V : Values τ ν)

/-- The step function. -/
def step (s : State τ) (a : Action τ ν) : Option (State τ × List (Event τ)) :=
  if s.panicked then none
  else do
    let (checks, es) ← Marking.step (expand T) s.checks (a.marking T V)
    return ({
      checks
      errorCount := s.errorCount + (es.map count).sum
      panicked := es.contains (.emitted .panic) }, es.map (observe s.errorCount))

/-- All calls of the package. -/
def system : System (State τ) (Action τ ν) (Event τ) where
  init := ⟨⟨[], []⟩, 0, false⟩
  step := step T V

/-! ### The marks

Without the counter, the package is an instance of marking: a type is marked when it is put in
`checked`, and to expand it is to complain about its fields and to call `checkType` for their types.
-/

/-- What happened to the marks. -/
def Event.marking : Event τ → Marking.Event τ (Report τ)
  | .called ws => .called ws
  | .reported r _ => .emitted r

omit [DecidableEq τ] in
theorem marking_observe (n : ℕ) (e : Marking.Event τ (Report τ)) :
    (observe n e).marking = e := by
  cases e <;> rfl

/-- The marks of a configuration. -/
def marks (c : System.Config (State τ) (Event τ)) :
    System.Config (Marking.State τ (Report τ)) (Marking.Event τ (Report τ)) :=
  ⟨c.state.checks, c.trace.map Event.marking⟩

variable {T V} {c c' : System.Config (State τ) (Event τ)} {a : Action τ ν}
  {ok : System.Config (State τ) (Event τ) → Action τ ν → Prop}

/-- What a step does. -/
theorem next_eq (h : (system T V).next c a = some c') : ∃ es,
    Marking.step (expand T) c.state.checks (a.marking T V) = some (c'.state.checks, es) ∧
    c'.state.errorCount = c.state.errorCount + (es.map count).sum ∧
    c'.trace = c.trace ++ es.map (observe c.state.errorCount) ∧
    c.state.panicked = false ∧ c'.state.panicked = es.contains (.emitted .panic) := by
  obtain ⟨es', hs, ht⟩ := System.next_eq_some_iff.mp h
  simp only [system, step] at hs
  split at hs
  · cases hs
  · rename_i hp
    obtain ⟨⟨checks, es⟩, hm, hs⟩ := Option.bind_eq_some_iff.mp hs
    obtain ⟨hstate, rfl⟩ := Prod.mk.inj (Option.some.inj hs)
    rw [← hstate]
    exact ⟨es, hm, rfl, ht, Bool.eq_false_of_not_eq_true hp, rfl⟩

theorem marks_next (h : (system T V).next c a = some c') :
    (Marking.system (expand T)).next (marks c) (a.marking T V) = some (marks c') := by
  obtain ⟨es, hm, _, ht, _⟩ := next_eq h
  refine System.next_eq_some_iff.mpr ⟨es, hm, ?_⟩
  simp only [marks, ht, List.map_append, List.map_map]
  congr 1
  exact (List.map_congr_left fun e _ => marking_observe _ e).trans (List.map_id es)

/-- **Types are marked.** -/
theorem marking_of_reachable (hc : (system T V).Reachable ok c) :
    (Marking.system (expand T)).Reachable (fun _ _ => True) (marks c) := by
  refine System.Reachable.invariant (M := system T V)
    (P := fun c => (Marking.system (expand T)).Reachable (fun _ _ => True) (marks c)) ?_ ?_ hc
  · exact System.Reaches.refl _
  · intro c a c' _ hI _ hn
    exact hI.tail trivial (marks_next hn)

/-! ### What is called and what is found

A run is described by the calls that were made and by the reports that came of them. What was
reported about types depends on the marks, what was reported about values only on the calls. -/

/-- What the call of an action has to do. -/
def Action.work (T : Types τ) (V : Values τ ν) : Action τ ν → List (Work τ (Report τ))
  | .check t => checkValue t
  | .decode e => GobCheck.decode T V e
  | .step _ => []

/-- The calls of a run. -/
theorem called_marks {as : List (Action τ ν)}
    (hc : (system T V).exec (system T V).start as = some c) :
    Marking.called (marks c).trace = as.flatMap (Action.work T V) := by
  refine System.exec_induction (M := system T V)
    (P := fun as c => Marking.called (marks c).trace = as.flatMap (Action.work T V)) rfl ?_ hc
  intro as c a c' _ hI hn
  obtain ⟨es, hm, ht⟩ := System.next_eq_some_iff.mp (marks_next hn)
  rw [ht, Marking.called, List.flatMap_append, ← Marking.called, hI, List.flatMap_append,
    List.flatMap_singleton]
  congr 1
  refine (Marking.steps_of_eq_some hm).called_eq.trans ?_
  cases a <;> rfl

/-- What was found, in this order. -/
def reports (tr : List (Event τ)) : List (Report τ) :=
  tr.filterMap fun
    | .reported r _ => some r
    | .called _ => none

omit [DecidableEq τ] in
theorem reports_append (tr es : List (Event τ)) : reports (tr ++ es) = reports tr ++ reports es :=
  List.filterMap_append ..

omit [DecidableEq τ] in
theorem emitted_marks (c : System.Config (State τ) (Event τ)) :
    Marking.emitted (marks c).trace = reports c.trace := by
  rw [Marking.emitted, marks, List.filterMap_map, reports]
  refine List.filterMap_congr fun e _ => ?_
  cases e <;> rfl

omit [DecidableEq τ] in
theorem sum_count [DecidableEq (Report τ)] (n : ℕ) (es : List (Marking.Event τ (Report τ))) :
    (es.map count).sum =
      (reports (es.map (observe n))).countP (fun r => r ≠ .panic) := by
  induction es with
  | nil => rfl
  | cons e es ih =>
    rw [List.map_cons, List.sum_cons, ih, List.map_cons, ← List.singleton_append, reports_append,
      List.countP_append]
    congr 1
    cases e with
    | called ws => rfl
    | emitted r => cases r <;> simp [reports, observe, count]

/-- What the checks of a run have found is counted. -/
theorem errorCount_eq (hc : (system T V).Reachable ok c) :
    c.state.errorCount = (reports c.trace).countP (fun r => r ≠ .panic) := by
  refine System.Reachable.invariant (M := system T V)
    (P := fun c => c.state.errorCount = (reports c.trace).countP (fun r => r ≠ .panic)) rfl ?_ hc
  intro c a c' _ hI _ hn
  obtain ⟨es, _, hcount, ht, _⟩ := next_eq hn
  rw [hcount, hI, ht, reports_append, List.countP_append]
  rw [sum_count]

end GobCheck

end Distsys
