import Distsys.Lib.Termination
import Mathlib.Algebra.BigOperators.Group.Finset.Basic
import Mathlib.Data.List.Perm.Basic

/-!
# Marking a graph by many walkers

Walkers share one set of marks. Each of them has a stack: nodes to visit, and outputs to emit. To
visit a node that is marked is to do nothing; otherwise the node is marked, and its expansion goes
on the stack. Test and mark are one step, and walkers take turns in any way.

A walker that finds a mark moves on, although the walker that has set it may not be done. So what
one walker has achieved when its stack is empty depends on the others. When all stacks are empty,
the order does not matter any more: the marks are on the nodes that can be reached from the roots,
and the outputs are those of these nodes, each once.

## Counting what is emitted

Each node is expanded once, by the walker that marks it. The invariant says that what was emitted
and what is still on the stacks is, up to order, what was called for and what the expansions of the
marked nodes have. This is an equality of multisets, from which "each once" and "nothing is missing"
both follow when the stacks are empty.

## Main definitions

* `Marking.Work`, `Marking.State`, `Marking.system`
* `Marking.Reached` — reachability from the roots
* `Marking.Inv` — the invariant

## Main results

* `Marking.inv_of_reachable`
* `Marking.mem_marked_iff` — when all stacks are empty
* `Marking.potential` — over a finite graph all walkers come to an end
-/

namespace Distsys

namespace Marking

variable {ν ο : Type*}

/-- What is on the stack of a walker. -/
inductive Work (ν ο : Type*) where
  | visit (x : ν)
  | emit (o : ο)
  deriving DecidableEq, Repr

/-- The nodes to visit. -/
def visits (ws : List (Work ν ο)) : List ν :=
  ws.filterMap fun
    | .visit x => some x
    | .emit _ => none

/-- The outputs to emit. -/
def emits (ws : List (Work ν ο)) : List ο :=
  ws.filterMap fun
    | .visit _ => none
    | .emit o => some o

@[simp] theorem visits_visit (x : ν) (ws : List (Work ν ο)) :
    visits (.visit x :: ws) = x :: visits ws := rfl

@[simp] theorem visits_emit (o : ο) (ws : List (Work ν ο)) :
    visits (.emit o :: ws) = visits ws := rfl

@[simp] theorem emits_visit (x : ν) (ws : List (Work ν ο)) :
    emits (.visit x :: ws) = emits ws := rfl

@[simp] theorem emits_emit (o : ο) (ws : List (Work ν ο)) :
    emits (.emit o :: ws) = o :: emits ws := rfl

@[simp] theorem visits_append (ws ws' : List (Work ν ο)) :
    visits (ws ++ ws') = visits ws ++ visits ws' := List.filterMap_append ..

@[simp] theorem emits_append (ws ws' : List (Work ν ο)) :
    emits (ws ++ ws') = emits ws ++ emits ws' := List.filterMap_append ..

@[simp] theorem visits_map_emit (os : List ο) :
    visits (os.map (.emit : ο → Work ν ο)) = [] := by
  induction os with
  | nil => rfl
  | cons o os ih => rw [List.map_cons, visits_emit, ih]

@[simp] theorem emits_map_emit (os : List ο) :
    emits (os.map (.emit : ο → Work ν ο)) = os := by
  induction os with
  | nil => rfl
  | cons o os ih => rw [List.map_cons, emits_emit, ih]

theorem mem_visits {x : ν} {ws : List (Work ν ο)} : x ∈ visits ws ↔ .visit x ∈ ws := by
  induction ws with
  | nil => simp [visits]
  | cons w ws ih => cases w <;> simp [ih]

theorem visits_perm {ws ws' : List (Work ν ο)} (h : ws.Perm ws') :
    (visits ws).Perm (visits ws') := h.filterMap _

theorem emits_perm {ws ws' : List (Work ν ο)} (h : ws.Perm ws') :
    (emits ws).Perm (emits ws') := h.filterMap _

/-- The marks, in the order in which they were set, and the stacks. -/
structure State (ν ο : Type*) where
  marked : List ν
  walkers : List (List (Work ν ο))
  deriving DecidableEq, Repr

inductive Action (ν ο : Type*) where
  /-- A new walker, with its stack. -/
  | call (ws : List (Work ν ο))
  /-- Walker `k` takes the top of its stack. -/
  | step (k : ℕ)
  deriving DecidableEq, Repr

inductive Event (ν ο : Type*) where
  | called (ws : List (Work ν ο))
  | emitted (o : ο)
  deriving DecidableEq, Repr

section Step

variable [DecidableEq ν] (expand : ν → List (Work ν ο))

def step (s : State ν ο) : Action ν ο → Option (State ν ο × List (Event ν ο))
  | .call ws => some ({ s with walkers := s.walkers ++ [ws] }, [.called ws])
  | .step k =>
    match s.walkers[k]? with
    | some (.visit x :: rest) =>
      if x ∈ s.marked then some ({ s with walkers := s.walkers.set k rest }, [])
      else
        some ({ marked := s.marked ++ [x], walkers := s.walkers.set k (expand x ++ rest) }, [])
    | some (.emit o :: rest) => some ({ s with walkers := s.walkers.set k rest }, [.emitted o])
    | _ => none

def system : System (State ν ο) (Action ν ο) (Event ν ο) where
  init := ⟨[], []⟩
  step := step expand

end Step

/-! ### Stacks

Who has some work on its stack does not matter for the invariant, only that somebody has. All stacks
together are one list, up to its order. -/

/-- Everything that is on some stack. -/
def State.todo (s : State ν ο) : List (Work ν ο) := s.walkers.flatten

/-- The top of a stack is taken, and `new` is put in its place. -/
theorem flatten_set_perm {l : List (List (Work ν ο))} {k : ℕ} {w : Work ν ο}
    {rest : List (Work ν ο)} (h : l[k]? = some (w :: rest)) (new : List (Work ν ο)) :
    (w :: (l.set k (new ++ rest)).flatten).Perm (l.flatten ++ new) := by
  induction l generalizing k with
  | nil => cases h
  | cons z l ih =>
    cases k with
    | zero =>
      cases h
      simp only [List.set_cons_zero, List.flatten_cons, List.append_assoc, List.cons_append]
      rw [List.perm_cons, ← List.append_assoc rest]
      exact List.perm_append_comm
    | succ k =>
      simp only [List.set_cons_succ, List.flatten_cons, List.append_assoc]
      exact List.perm_middle.symm.trans ((ih h).append_left z)

/-! ### Inversion

A step is a call, or it takes the top of a stack: a node that is marked, a node that is not, or an
output. -/

/-- What a step does. -/
inductive Steps (expand : ν → List (Work ν ο)) (s : State ν ο) :
    Action ν ο → State ν ο → List (Event ν ο) → Prop where
  | call {ws : List (Work ν ο)} :
    Steps expand s (.call ws) { s with walkers := s.walkers ++ [ws] } [.called ws]
  | skip {k : ℕ} {x : ν} {rest : List (Work ν ο)}
      (h : s.walkers[k]? = some (.visit x :: rest)) (hx : x ∈ s.marked) :
    Steps expand s (.step k) { s with walkers := s.walkers.set k rest } []
  | mark {k : ℕ} {x : ν} {rest : List (Work ν ο)}
      (h : s.walkers[k]? = some (.visit x :: rest)) (hx : x ∉ s.marked) :
    Steps expand s (.step k)
      { marked := s.marked ++ [x], walkers := s.walkers.set k (expand x ++ rest) } []
  | emit {k : ℕ} {o : ο} {rest : List (Work ν ο)}
      (h : s.walkers[k]? = some (.emit o :: rest)) :
    Steps expand s (.step k) { s with walkers := s.walkers.set k rest } [.emitted o]

variable {expand : ν → List (Work ν ο)} {s s' : State ν ο} {a : Action ν ο}
  {es : List (Event ν ο)}

theorem steps_of_eq_some [DecidableEq ν] (h : step expand s a = some (s', es)) :
    Steps expand s a s' es := by
  cases a with
  | call ws => cases h; exact .call
  | step k =>
    simp only [step] at h
    split at h
    · split at h
      · cases h; exact .skip ‹_› ‹_›
      · cases h; exact .mark ‹_› ‹_›
    · cases h; exact .emit ‹_›
    · cases h

/-! ### The invariant

It is the invariant of a graph search with a work list, with the stacks of all walkers as the work
list: whatever is next to a marked node is marked or still on some stack. The outputs are accounted
for exactly. What was emitted or is still to be emitted is what the walkers were called with and
what the marked nodes expand to, and no node expands twice. -/

/-- The stacks that walkers were called with. -/
def called (tr : List (Event ν ο)) : List (Work ν ο) :=
  tr.flatMap fun
    | .called ws => ws
    | .emitted _ => []

/-- The stack of a new walker. -/
def Action.work : Action ν ο → List (Work ν ο)
  | .call ws => ws
  | .step _ => []

theorem Steps.called_eq (h : Steps expand s a s' es) : called es = a.work := by
  cases h with
  | call => exact List.append_nil _
  | _ => rfl

/-- What was emitted. -/
def emitted (tr : List (Event ν ο)) : List ο :=
  tr.filterMap fun
    | .called _ => none
    | .emitted o => some o

/-- A node can be reached from one that a walker was called with. -/
def Reached (expand : ν → List (Work ν ο)) (tr : List (Event ν ο)) (x : ν) : Prop :=
  ∃ r ∈ visits (called tr), Relation.ReflTransGen (fun x y => y ∈ visits (expand x)) r x

/-- What holds at any time. -/
structure Inv (expand : ν → List (Work ν ο)) (c : System.Config (State ν ο) (Event ν ο)) :
    Prop where
  /-- A node is marked once. -/
  nodup : c.state.marked.Nodup
  /-- The nodes that walkers were called with are not forgotten. -/
  roots : ∀ x ∈ visits (called c.trace), x ∈ c.state.marked ∨ x ∈ visits c.state.todo
  /-- Neither are those that a marked node leads to. -/
  closed : ∀ x ∈ c.state.marked, ∀ y ∈ visits (expand x),
    y ∈ c.state.marked ∨ y ∈ visits c.state.todo
  /-- Nothing else is marked or visited. -/
  reached : ∀ x, x ∈ c.state.marked ∨ x ∈ visits c.state.todo → Reached expand c.trace x
  /-- Each output is emitted once, or will be. -/
  emitted : (emitted c.trace ++ emits c.state.todo).Perm
    (emits (called c.trace) ++ c.state.marked.flatMap fun x => emits (expand x))

theorem Reached.mono {tr : List (Event ν ο)} {x : ν} (h : Reached expand tr x)
    (es : List (Event ν ο)) : Reached expand (tr ++ es) x := by
  obtain ⟨r, hr, hx⟩ := h
  refine ⟨r, ?_, hx⟩
  rw [called, List.flatMap_append, visits_append]
  exact List.mem_append_left _ hr

theorem Reached.tail {tr : List (Event ν ο)} {x y : ν} (h : Reached expand tr x)
    (hy : y ∈ visits (expand x)) : Reached expand tr y := by
  obtain ⟨r, hr, hx⟩ := h
  exact ⟨r, hr, hx.tail hy⟩

theorem Inv.call {tr : List (Event ν ο)} (hI : Inv expand ⟨s, tr⟩) (ws : List (Work ν ο)) :
    Inv expand ⟨{ s with walkers := s.walkers ++ [ws] }, tr ++ [.called ws]⟩ := by
  have htodo : State.todo { s with walkers := s.walkers ++ [ws] } = s.todo ++ ws := by
    simp [State.todo]
  have hcalled : called (tr ++ [.called ws]) = called tr ++ ws := by simp [called]
  have hemitted : Marking.emitted (tr ++ [.called ws]) = Marking.emitted tr := by
    simp [Marking.emitted]
  refine ⟨hI.nodup, fun x hx => ?_, fun x hx y hy => ?_, fun x hx => ?_, ?_⟩
  · simp only [hcalled, htodo, visits_append, List.mem_append] at hx ⊢
    rcases hx with hx | hx
    · exact (hI.roots x hx).imp_right Or.inl
    · exact Or.inr (Or.inr hx)
  · simp only [htodo, visits_append, List.mem_append]
    exact (hI.closed x hx y hy).imp_right Or.inl
  · simp only [htodo, visits_append, List.mem_append] at hx
    rcases hx with hx | hx | hx
    · exact (hI.reached x (Or.inl hx)).mono _
    · exact (hI.reached x (Or.inr hx)).mono _
    · refine ⟨x, ?_, .refl⟩
      rw [hcalled, visits_append]
      exact List.mem_append_right _ hx
  · have hperm := hI.emitted.append_right (emits ws)
    simp only [htodo, hcalled, hemitted, emits_append]
    simp only [List.append_assoc] at hperm ⊢
    exact hperm.trans (List.perm_append_comm.append_left _)

theorem Inv.skip {tr : List (Event ν ο)} (hI : Inv expand ⟨s, tr⟩) {k : ℕ} {x : ν}
    {rest : List (Work ν ο)} (h : s.walkers[k]? = some (.visit x :: rest)) (hx : x ∈ s.marked) :
    Inv expand ⟨{ s with walkers := s.walkers.set k rest }, tr⟩ := by
  have hperm := flatten_set_perm h []
  rw [List.nil_append, List.append_nil] at hperm
  have hvisits := fun y => (visits_perm hperm).mem_iff (a := y)
  simp only [visits_visit, List.mem_cons] at hvisits
  -- the node that is no longer to be visited is marked
  have hkept : ∀ {y}, y ∈ s.marked ∨ y ∈ visits s.todo →
      y ∈ s.marked ∨ y ∈ visits (State.todo { s with walkers := s.walkers.set k rest }) := by
    rintro y (hy | hy)
    · exact Or.inl hy
    · rcases (hvisits y).mpr hy with rfl | hy
      · exact Or.inl hx
      · exact Or.inr hy
  refine ⟨hI.nodup, fun y hy => hkept (hI.roots y hy), fun y hy z hz => hkept (hI.closed y hy z hz),
    fun y hy => hI.reached y (hy.imp_right fun hy => (hvisits y).mp (Or.inr hy)), ?_⟩
  exact ((emits_perm hperm).append_left _).trans hI.emitted

theorem Inv.mark {tr : List (Event ν ο)} (hI : Inv expand ⟨s, tr⟩) {k : ℕ} {x : ν}
    {rest : List (Work ν ο)} (h : s.walkers[k]? = some (.visit x :: rest)) (hx : x ∉ s.marked) :
    Inv expand
      ⟨{ marked := s.marked ++ [x], walkers := s.walkers.set k (expand x ++ rest) }, tr⟩ := by
  have hperm := flatten_set_perm h (expand x)
  have hvisits := fun y => (visits_perm hperm).mem_iff (a := y)
  simp only [visits_visit, List.mem_cons, visits_append, List.mem_append] at hvisits
  have hkept : ∀ {y}, y ∈ s.marked ∨ y ∈ visits s.todo ∨ y ∈ visits (expand x) →
      y ∈ s.marked ++ [x] ∨ y ∈ visits (s.walkers.set k (expand x ++ rest)).flatten := by
    rintro y (hy | hy)
    · exact Or.inl (List.mem_append_left _ hy)
    · rcases (hvisits y).mpr hy with rfl | hy
      · exact Or.inl (List.mem_append_right _ (List.mem_singleton_self y))
      · exact Or.inr hy
  have hreached : Reached expand tr x := by
    refine hI.reached x (Or.inr (mem_visits.mpr ?_))
    exact List.mem_flatten.mpr ⟨_, List.mem_of_getElem? h, List.mem_cons_self⟩
  refine ⟨?_, fun y hy => hkept ((hI.roots y hy).imp_right Or.inl), fun y hy z hz => ?_,
    fun y hy => ?_, ?_⟩
  · exact List.nodup_append.mpr ⟨hI.nodup, List.nodup_singleton x, by
      rintro y hy z hz rfl
      exact hx (List.mem_singleton.mp hz ▸ hy)⟩
  · rcases List.mem_append.mp hy with hy | hy
    · exact hkept ((hI.closed y hy z hz).imp_right Or.inl)
    · rw [List.mem_singleton.mp hy] at hz
      exact hkept (Or.inr (Or.inr hz))
  · rcases hy with hy | hy
    · rcases List.mem_append.mp hy with hy | hy
      · exact hI.reached y (Or.inl hy)
      · rw [List.mem_singleton.mp hy]
        exact hreached
    · rcases (hvisits y).mp (Or.inr hy) with hy | hy
      · exact hI.reached y (Or.inr hy)
      · exact hreached.tail hy
  · have htodo := emits_perm hperm
    rw [emits_visit, emits_append] at htodo
    have hold := hI.emitted.append_right (emits (expand x))
    simp only [List.append_assoc] at hold
    simp only [List.flatMap_append, List.flatMap_singleton]
    exact (htodo.append_left _).trans hold

theorem Inv.emit {tr : List (Event ν ο)} (hI : Inv expand ⟨s, tr⟩) {k : ℕ} {o : ο}
    {rest : List (Work ν ο)} (h : s.walkers[k]? = some (.emit o :: rest)) :
    Inv expand ⟨{ s with walkers := s.walkers.set k rest }, tr ++ [.emitted o]⟩ := by
  have hperm := flatten_set_perm h []
  rw [List.nil_append, List.append_nil] at hperm
  have hvisits := fun y => (visits_perm hperm).mem_iff (a := y)
  simp only [visits_emit] at hvisits
  have hcalled : called (tr ++ [.emitted o]) = called tr := by simp [called]
  have hemitted : Marking.emitted (tr ++ [.emitted o]) = Marking.emitted tr ++ [o] := by
    simp [Marking.emitted]
  refine ⟨hI.nodup, fun y hy => ?_, fun y hy z hz => ?_, fun y hy => ?_, ?_⟩
  · rw [hcalled] at hy
    exact (hI.roots y hy).imp_right (hvisits y).mpr
  · exact (hI.closed y hy z hz).imp_right (hvisits z).mpr
  · exact (hI.reached y (hy.imp_right (hvisits y).mp)).mono _
  · have htodo := emits_perm hperm
    rw [emits_emit] at htodo
    rw [hcalled, hemitted, List.append_assoc, List.singleton_append]
    exact (htodo.append_left _).trans hI.emitted

section Runs

variable [DecidableEq ν] {c c' : System.Config (State ν ο) (Event ν ο)}
  {ok : System.Config (State ν ο) (Event ν ο) → Action ν ο → Prop}

theorem inv_of_reachable (hc : (system expand).Reachable ok c) : Inv expand c := by
  refine System.Reachable.invariant (M := system expand) (P := Inv expand) ?_ ?_ hc
  · refine ⟨List.nodup_nil, nofun, nofun, fun x hx => ?_, List.Perm.refl _⟩
    rcases hx with hx | hx <;> cases hx
  · intro c a c' _ hI _ hn
    obtain ⟨es, hs, ht⟩ := System.next_eq_some_iff.mp hn
    obtain ⟨s', tr'⟩ := c'
    obtain ⟨s, tr⟩ := c
    simp only at hs ht
    subst ht
    cases steps_of_eq_some hs with
    | call => exact hI.call _
    | skip h hx => exact (List.append_nil tr).symm ▸ hI.skip h hx
    | mark h hx => exact (List.append_nil tr).symm ▸ hI.mark h hx
    | emit h => exact hI.emit h

/-- All stacks are empty. -/
def State.Done (s : State ν ο) : Prop := ∀ w ∈ s.walkers, w = []

omit [DecidableEq ν] in
theorem State.Done.todo_eq (h : s.Done) : s.todo = [] := by
  rw [State.todo, List.flatten_eq_nil_iff]
  exact h

/-- **The marks, when all are done.** -/
theorem mem_marked_iff (hc : (system expand).Reachable ok c) (hdone : c.state.Done) {x : ν} :
    x ∈ c.state.marked ↔ Reached expand c.trace x := by
  have hI := inv_of_reachable hc
  have htodo := hdone.todo_eq
  refine ⟨fun hx => hI.reached x (Or.inl hx), ?_⟩
  rintro ⟨r, hr, hx⟩
  induction hx with
  | refl => exact (hI.roots r hr).resolve_right (by rw [htodo]; exact List.not_mem_nil)
  | tail _ hy ih =>
    exact (hI.closed _ ih _ hy).resolve_right (by rw [htodo]; exact List.not_mem_nil)

/-! ### Termination

Over a finite graph the nodes that are not marked bound what can still come onto the stacks. A step
takes something off a stack, and a marked node has paid for what it puts there. -/

variable [Fintype ν]

/-- What a new walker adds to the work. -/
def pay : Action ν ο → ℕ
  | .call ws => ws.length + 1
  | .step _ => 0

/-- What the nodes that are not marked can still put on the stacks. -/
def unexpanded (expand : ν → List (Work ν ο)) (s : State ν ο) : ℕ :=
  ∑ x with x ∉ s.marked, (expand x).length

theorem unexpanded_mark (expand : ν → List (Work ν ο)) {x : ν} (hx : x ∉ s.marked)
    (walkers : List (List (Work ν ο))) :
    (expand x).length + unexpanded expand ⟨s.marked ++ [x], walkers⟩ = unexpanded expand s := by
  have herase : Finset.univ.filter (fun y => y ∉ s.marked ++ [x]) =
      (Finset.univ.filter fun y => y ∉ s.marked).erase x := by
    ext y
    simp [and_comm]
  rw [unexpanded, unexpanded, herase]
  exact Finset.add_sum_erase _ (fun y => (expand y).length) (by simp [hx])

/-- The potential of the walkers. -/
def potential (expand : ν → List (Work ν ο)) : (system expand).Potential pay where
  value s := s.todo.length + unexpanded expand s
  step_lt {s a s' es} hstep := by
    have hset : ∀ {k w rest} (_ : s.walkers[k]? = some (w :: rest)) (new : List (Work ν ο)),
        (s.walkers.set k (new ++ rest)).flatten.length + 1 = s.todo.length + new.length := by
      intro k w rest h new
      have := (flatten_set_perm h new).length_eq
      rwa [List.length_cons, List.length_append] at this
    cases steps_of_eq_some hstep with
    | @call ws =>
      simp only [State.todo, List.flatten_append, List.flatten_singleton, List.length_append,
        unexpanded, pay]
      omega
    | skip h | emit h =>
      have := hset h []
      simp only [List.nil_append, List.length_nil] at this
      simp only [State.todo, unexpanded, pay] at this ⊢
      omega
    | @mark k x rest h hx =>
      have hlen := hset h (expand x)
      have hrest := unexpanded_mark expand hx (s.walkers.set k (expand x ++ rest))
      simp only [State.todo, pay] at hlen ⊢
      omega

end Runs

end Marking

end Distsys
