import Mathlib.Logic.Relation
import Mathlib.Data.List.Infix

/-!
# Transition systems that leave a trace

A system here is a partial function from a state and a label to the next state and the events the
step emits. A *configuration* is a state together with every event emitted on the way to it, so
that a statement about what a run has done so far is a statement about one configuration.

## Guarded runs

`System.Reaches ok` only takes steps whose label the predicate `ok` accepts in the configuration
before the step. The unguarded system is the instance `fun _ _ => True`. An invariant that needs no
guard is proved for an arbitrary `ok`, so that it is available in every guarded development without
proving it again.

## Main definitions

* `System`, `System.Config`, `System.next`
* `System.Reaches`, `System.Reachable` — guarded runs
* `System.exec`, `System.execOk`, `System.Visits`, `System.Takes` — a run given by its list of
  labels, the configurations it goes through and the steps it takes
* `System.Path` — a guarded run with its labels
* `System.Tracks` — history variables

## Main results

* `System.Reachable.invariant` — the induction rule every safety proof goes through
* `System.exec_bisimulation` — systems that agree on every step agree on every run
* `System.visits_iff_takes` — when one step keeps a property exactly if its guard holds, a whole
  run keeps it exactly if all its guards hold
-/

namespace Distsys

/-- A deterministic transition system with labels in `ι` that emits events in `ε`. -/
structure System (σ ι ε : Type*) where
  /-- The initial state. -/
  init : σ
  /-- One step: `none` when the label is not enabled. -/
  step : σ → ι → Option (σ × List ε)

namespace System

/-- A state and the events emitted on the way to it, oldest first. -/
structure Config (σ ε : Type*) where
  state : σ
  trace : List ε

variable {σ ι ε : Type*} (M : System σ ι ε)

/-- The initial configuration: nothing has happened. -/
def start : Config σ ε := ⟨M.init, []⟩

/-- One step on configurations: the emitted events are appended to the trace. -/
def next (c : Config σ ε) (a : ι) : Option (Config σ ε) :=
  (M.step c.state a).map fun r => ⟨r.1, c.trace ++ r.2⟩

variable {M}

theorem next_eq_some_iff {c c' : Config σ ε} {a : ι} :
    M.next c a = some c' ↔
      ∃ es, M.step c.state a = some (c'.state, es) ∧ c'.trace = c.trace ++ es := by
  constructor
  · intro h
    obtain ⟨⟨s, es⟩, hs, rfl⟩ := Option.map_eq_some_iff.mp h
    exact ⟨es, hs, rfl⟩
  · rintro ⟨es, hs, ht⟩
    obtain ⟨s, tr⟩ := c'
    simp only at hs ht
    simp [next, hs, ht]

/-! ### Guarded runs

Reachability is a relation and hides the labels. This is the form for invariants, where nobody wants
to know how a configuration was reached. -/

variable (M) in
/-- `c'` is reached from `c` by steps that all meet the guard `ok`. -/
def Reaches (ok : Config σ ε → ι → Prop) : Config σ ε → Config σ ε → Prop :=
  Relation.ReflTransGen fun c c' => ∃ a, ok c a ∧ M.next c a = some c'

variable (M) in
/-- `c` is reached from the initial configuration by steps that all meet the guard `ok`. -/
def Reachable (ok : Config σ ε → ι → Prop) (c : Config σ ε) : Prop := M.Reaches ok M.start c

variable {ok : Config σ ε → ι → Prop}

theorem Reaches.refl (c : Config σ ε) : M.Reaches ok c c := Relation.ReflTransGen.refl

theorem Reaches.trans {c₁ c₂ c₃ : Config σ ε} (h : M.Reaches ok c₁ c₂)
    (h' : M.Reaches ok c₂ c₃) : M.Reaches ok c₁ c₃ :=
  Relation.ReflTransGen.trans h h'

theorem Reaches.tail {c₁ c₂ c₃ : Config σ ε} {a : ι} (h : M.Reaches ok c₁ c₂) (ha : ok c₂ a)
    (hn : M.next c₂ a = some c₃) : M.Reaches ok c₁ c₃ :=
  Relation.ReflTransGen.tail h ⟨a, ha, hn⟩

/-- A run that meets a guard meets every weaker one. -/
theorem Reaches.mono {ok' : Config σ ε → ι → Prop} {c c' : Config σ ε} (h : M.Reaches ok c c')
    (hok : ∀ c a, ok c a → ok' c a) : M.Reaches ok' c c' := by
  refine Relation.ReflTransGen.mono ?_ _ _ h
  rintro d d' ⟨a, ha, hn⟩
  exact ⟨a, hok d a ha, hn⟩

theorem Reachable.tail {c c' : Config σ ε} {a : ι} (h : M.Reachable ok c) (ha : ok c a)
    (hn : M.next c a = some c') : M.Reachable ok c' :=
  Reaches.tail h ha hn

/-- **The invariant rule.** A property that holds initially and is kept by every accepted step
from a reachable configuration holds in every reachable configuration. -/
theorem Reachable.invariant {P : Config σ ε → Prop} (h₀ : P M.start)
    (hstep : ∀ c a c', M.Reachable ok c → P c → ok c a → M.next c a = some c' → P c')
    {c : Config σ ε} (h : M.Reachable ok c) : P c := by
  induction h with
  | refl => exact h₀
  | tail hr hs ih =>
    obtain ⟨a, ha, hn⟩ := hs
    exact hstep _ a _ hr ih ha hn

/-- The trace only grows along a run. -/
theorem Reaches.trace_grows {c c' : Config σ ε} (h : M.Reaches ok c c') :
    c.trace <+: c'.trace := by
  induction h with
  | refl => exact List.prefix_refl _
  | tail _ hs ih =>
    obtain ⟨a, _, hn⟩ := hs
    obtain ⟨es, _, ht⟩ := next_eq_some_iff.mp hn
    exact ih.trans (ht ▸ List.prefix_append _ _)

theorem Reaches.mem_trace {c c' : Config σ ε} (h : M.Reaches ok c c') {e : ε}
    (he : e ∈ c.trace) : e ∈ c'.trace :=
  h.trace_grows.subset he

/-! ### Runs given by their labels

Statements about all runs, and runs that are evaluated, use lists of labels. `exec` computes where a
list leads, `execOk` checks the guards on the way, and `Path` is a guarded run that remembers its
labels; the three agree, and any of them gives `Reaches`. -/

variable (M) in
/-- Run a list of labels; `none` as soon as one of them is not enabled. -/
def exec : Config σ ε → List ι → Option (Config σ ε)
  | c, [] => some c
  | c, a :: as => (M.next c a).bind fun c' => exec c' as

theorem exec_append (c : Config σ ε) (as bs : List ι) :
    M.exec c (as ++ bs) = (M.exec c as).bind fun c' => M.exec c' bs := by
  induction as generalizing c with
  | nil => rfl
  | cons a as ih =>
    simp only [List.cons_append, exec, Option.bind_assoc]
    exact congrArg _ (funext fun c' => ih c')

theorem exec_concat {c c' : Config σ ε} {as : List ι} {a : ι} (h : M.exec c as = some c') :
    M.exec c (as ++ [a]) = M.next c' a := by
  simp [exec_append, h, exec]

/-- A list of enabled labels is a run of the unguarded system. -/
theorem reaches_of_exec {c c' : Config σ ε} {as : List ι} (h : M.exec c as = some c') :
    M.Reaches (fun _ _ => True) c c' := by
  induction as generalizing c with
  | nil => cases h; exact Reaches.refl _
  | cons a as ih =>
    obtain ⟨d, hd, h⟩ := Option.bind_eq_some_iff.mp h
    exact (Reaches.tail (Reaches.refl c) trivial hd).trans (ih h)

variable (M) in
/-- The labels `as` take `c` to `c'`, and each of them meets the guard. -/
inductive Path (ok : Config σ ε → ι → Prop) : Config σ ε → List ι → Config σ ε → Prop where
  | nil (c : Config σ ε) : Path ok c [] c
  | cons {c d c' : Config σ ε} {a : ι} {as : List ι} (ha : ok c a) (hn : M.next c a = some d)
      (h : Path ok d as c') : Path ok c (a :: as) c'

theorem Path.append {c d c' : Config σ ε} {as bs : List ι} (h : M.Path ok c as d)
    (h' : M.Path ok d bs c') : M.Path ok c (as ++ bs) c' := by
  induction h with
  | nil => exact h'
  | cons ha hn _ ih => exact .cons ha hn (ih h')

theorem Path.exec {c c' : Config σ ε} {as : List ι} (h : M.Path ok c as c') :
    M.exec c as = some c' := by
  induction h with
  | nil => rfl
  | cons _ hn _ ih => rw [System.exec, hn, Option.bind_some, ih]

theorem Path.reaches {c c' : Config σ ε} {as : List ι} (h : M.Path ok c as c') :
    M.Reaches ok c c' := by
  induction h with
  | nil => exact Reaches.refl _
  | cons ha hn _ ih => exact (Reaches.tail (Reaches.refl _) ha hn).trans ih

theorem Path.mono {ok' : Config σ ε → ι → Prop} {c c' : Config σ ε} {as : List ι}
    (h : M.Path ok c as c') (hok : ∀ c a, ok c a → ok' c a) : M.Path ok' c as c' := by
  induction h with
  | nil => exact .nil _
  | cons ha hn _ ih => exact .cons (hok _ _ ha) hn ih

theorem Reaches.exists_path {c c' : Config σ ε} (h : M.Reaches ok c c') :
    ∃ as, M.Path ok c as c' := by
  induction h with
  | refl => exact ⟨[], .nil c⟩
  | tail _ hs ih =>
    obtain ⟨a, ha, hn⟩ := hs
    obtain ⟨as, has⟩ := ih
    exact ⟨as ++ [a], has.append (.cons ha hn (.nil _))⟩

theorem Path.exists_of_append {c c' : Config σ ε} {as bs : List ι}
    (h : M.Path ok c (as ++ bs) c') : ∃ d, M.Path ok c as d ∧ M.Path ok d bs c' := by
  induction as generalizing c with
  | nil => exact ⟨c, .nil c, h⟩
  | cons a as ih =>
    cases h with
    | cons ha hn h =>
      obtain ⟨d, has, hbs⟩ := ih h
      exact ⟨d, .cons ha hn has, hbs⟩

variable (M) in
/-- Run a list of labels as long as each of them meets the guard. -/
def execOk (ok : Config σ ε → ι → Prop) [∀ c a, Decidable (ok c a)] :
    Config σ ε → List ι → Option (Config σ ε)
  | c, [] => some c
  | c, a :: as => if ok c a then (M.next c a).bind fun c' => execOk ok c' as else none

theorem path_of_execOk [∀ c a, Decidable (ok c a)] {c c' : Config σ ε} {as : List ι}
    (h : M.execOk ok c as = some c') : M.Path ok c as c' := by
  induction as generalizing c with
  | nil => cases h; exact .nil _
  | cons a as ih =>
    rw [execOk] at h
    split at h
    · rename_i ha
      obtain ⟨d, hd, h⟩ := Option.bind_eq_some_iff.mp h
      exact .cons ha hd (ih h)
    · cases h

variable (M) in
/-- Read a fact off the end of a guarded run. -/
theorem exists_path_of_execOk (as : List ι) (ok : Config σ ε → ι → Prop)
    [∀ c a, Decidable (ok c a)] (f : Config σ ε → Bool)
    (h : (M.execOk ok M.start as).any f = true) : ∃ c, M.Path ok M.start as c ∧ f c = true := by
  obtain ⟨c, hc, hf⟩ := (Option.any_eq_true f _).mp h
  exact ⟨c, path_of_execOk hc, hf⟩

theorem reaches_of_execOk [∀ c a, Decidable (ok c a)] {c c' : Config σ ε} {as : List ι}
    (h : M.execOk ok c as = some c') : M.Reaches ok c c' :=
  (path_of_execOk h).reaches

variable (M) in
/-- The run `as` from the initial configuration goes through `c`. -/
def Visits (as : List ι) (c : Config σ ε) : Prop :=
  ∃ bs, bs <+: as ∧ M.exec M.start bs = some c

variable (M) in
/-- The run `as` from the initial configuration takes the step labelled `a` from `c`. -/
def Takes (as : List ι) (c : Config σ ε) (a : ι) : Prop :=
  ∃ bs, bs ++ [a] <+: as ∧ M.exec M.start bs = some c

/-- Induction on a run from its end. -/
theorem exec_induction {P : List ι → Config σ ε → Prop} (h₀ : P [] M.start)
    (hstep : ∀ as c a c', M.exec M.start as = some c → P as c → M.next c a = some c' →
      P (as ++ [a]) c') {as : List ι} {c : Config σ ε} (h : M.exec M.start as = some c) :
    P as c := by
  induction as using List.reverseRecOn generalizing c with
  | nil => cases h; exact h₀
  | append_singleton as a ih =>
    rw [exec_append] at h
    obtain ⟨d, hd, hn⟩ := Option.bind_eq_some_iff.mp h
    exact hstep as d a c hd (ih hd) (by simpa [exec] using hn)

/-- **The bisimulation rule.** Two systems with the same labels, of which related states enable the
same ones and lead to related states, have the same runs. -/
theorem exec_bisimulation {τ ζ : Type*} {N : System τ ι ζ} {R : σ → τ → Prop}
    (hstep : ∀ s t a, R s t → M.step s a = none ∧ N.step t a = none ∨
      ∃ s' es t' es', M.step s a = some (s', es) ∧ N.step t a = some (t', es') ∧ R s' t')
    {as : List ι} {c : Config σ ε} {d : Config τ ζ} (hR : R c.state d.state) :
    M.exec c as = none ∧ N.exec d as = none ∨
      ∃ c' d', M.exec c as = some c' ∧ N.exec d as = some d' ∧ R c'.state d'.state := by
  induction as generalizing c d with
  | nil => exact Or.inr ⟨c, d, rfl, rfl, hR⟩
  | cons a as ih =>
    rcases hstep c.state d.state a hR with ⟨hs, ht⟩ | ⟨s', es, t', es', hs, ht, hR'⟩
    · exact Or.inl ⟨by simp [exec, next, hs], by simp [exec, next, ht]⟩
    · have hc : M.next c a = some ⟨s', c.trace ++ es⟩ := next_eq_some_iff.mpr ⟨es, hs, rfl⟩
      have hd : N.next d a = some ⟨t', d.trace ++ es'⟩ := next_eq_some_iff.mpr ⟨es', ht, rfl⟩
      rw [exec, exec, hc, hd]
      exact ih (c := ⟨s', c.trace ++ es⟩) (d := ⟨t', d.trace ++ es'⟩) hR'

theorem visits_of_exec {as : List ι} {c : Config σ ε} (h : M.exec M.start as = some c) :
    M.Visits as c :=
  ⟨as, List.prefix_refl as, h⟩

theorem Visits.append {as : List ι} {c : Config σ ε} (h : M.Visits as c) (bs : List ι) :
    M.Visits (as ++ bs) c := by
  obtain ⟨cs, hcs, hc⟩ := h
  exact ⟨cs, hcs.trans (List.prefix_append as bs), hc⟩

theorem Takes.append {as : List ι} {c : Config σ ε} {a : ι} (h : M.Takes as c a) (bs : List ι) :
    M.Takes (as ++ bs) c a := by
  obtain ⟨cs, hcs, hc⟩ := h
  exact ⟨cs, hcs.trans (List.prefix_append as bs), hc⟩

theorem Takes.visits {as : List ι} {c : Config σ ε} {a : ι} (h : M.Takes as c a) :
    M.Visits as c := by
  obtain ⟨bs, hbs, hc⟩ := h
  exact ⟨bs, (List.prefix_append _ _).trans hbs, hc⟩

theorem Visits.reachable {as : List ι} {c : Config σ ε} (h : M.Visits as c) :
    M.Reachable (fun _ _ => True) c := by
  obtain ⟨bs, _, hc⟩ := h
  exact reaches_of_exec hc

/-- A run all of whose steps meet a guard. -/
theorem path_of_exec {as : List ι} {c : Config σ ε} (h : M.exec M.start as = some c)
    (hok : ∀ d a, M.Takes as d a → ok d a) : M.Path ok M.start as c := by
  refine exec_induction (P := fun bs d => bs <+: as → M.Path ok M.start bs d) (fun _ => .nil _) ?_ h
    (List.prefix_refl as)
  intro bs d a d' hd ih hn hbs
  exact (ih ((List.prefix_append _ _).trans hbs)).append
    (.cons (hok d a ⟨bs, hbs, hd⟩) hn (.nil _))

/-- The configurations of a guarded run are reached by a guarded run, -/
theorem Path.visits {as : List ι} {c d : Config σ ε} (h : M.Path ok M.start as c)
    (hd : M.Visits as d) : ∃ bs, bs <+: as ∧ M.Path ok M.start bs d := by
  obtain ⟨bs, ⟨cs, rfl⟩, hbs⟩ := hd
  obtain ⟨d', hd', _⟩ := h.exists_of_append
  cases hbs.symm.trans hd'.exec
  exact ⟨bs, List.prefix_append bs cs, hd'⟩

/-- and its steps meet the guard. -/
theorem Path.takes {as : List ι} {c d : Config σ ε} {a : ι} (h : M.Path ok M.start as c)
    (hd : M.Takes as d a) : ok d a := by
  obtain ⟨bs, ⟨cs, rfl⟩, hbs⟩ := hd
  rw [List.append_assoc] at h
  obtain ⟨d', hd', h⟩ := h.exists_of_append
  cases hbs.symm.trans hd'.exec
  cases h with
  | cons ha _ _ => exact ha

/-- A run takes a step from every configuration it visits, except the last one. -/
theorem Visits.takes_or_eq {as : List ι} {c d : Config σ ε} (h : M.Visits as d)
    (hc : M.exec M.start as = some c) : (∃ a, M.Takes as d a) ∨ d = c := by
  obtain ⟨bs, ⟨cs, rfl⟩, hbs⟩ := h
  cases cs with
  | nil =>
    rw [List.append_nil, hbs] at hc
    exact Or.inr (Option.some.inj hc)
  | cons a cs => exact Or.inl ⟨a, bs, ⟨cs, by simp⟩, hbs⟩

/-- A step taken by an enabled run has a successor that the run visits. -/
theorem Takes.next {as : List ι} {c d : Config σ ε} {a : ι} (h : M.Takes as c a)
    (hd : M.exec M.start as = some d) : ∃ c', M.next c a = some c' ∧ M.Visits as c' := by
  obtain ⟨bs, ⟨cs, hcs⟩, hc⟩ := h
  rw [← hcs, exec_append] at hd
  obtain ⟨c', hc', _⟩ := Option.bind_eq_some_iff.mp hd
  exact ⟨c', (exec_concat hc).symm.trans hc', bs ++ [a], ⟨cs, hcs⟩, hc'⟩

/-- Induction along the configurations of one run. -/
theorem Visits.invariant {as : List ι} {P : Config σ ε → Prop} (h₀ : P M.start)
    (hstep : ∀ c a c', M.Takes as c a → P c → M.next c a = some c' → P c')
    {c : Config σ ε} (h : M.Visits as c) : P c := by
  obtain ⟨bs, hbs, hc⟩ := h
  induction bs using List.reverseRecOn generalizing c with
  | nil => cases hc; exact h₀
  | append_singleton bs a ih =>
    rw [exec_append] at hc
    obtain ⟨d, hd, hn⟩ := Option.bind_eq_some_iff.mp hc
    exact hstep d a c ⟨bs, hbs, hd⟩ (ih ((List.prefix_append _ _).trans hbs) hd)
      (by simpa [exec] using hn)

/-- **Step-wise exactness lifts to runs.** If every step from a reachable configuration with the
property keeps it exactly when the guard holds, then a run has the property throughout exactly
when all its steps meet the guard. -/
theorem visits_iff_takes {P : Config σ ε → Prop} (h₀ : P M.start)
    (hstep : ∀ c a c', M.Reachable (fun _ _ => True) c → P c → M.next c a = some c' →
      (P c' ↔ ok c a)) {as : List ι} {d : Config σ ε} (hd : M.exec M.start as = some d) :
    (∀ c, M.Visits as c → P c) ↔ ∀ c a, M.Takes as c a → ok c a := by
  constructor
  · intro h c a ha
    obtain ⟨c', hn, hv⟩ := ha.next hd
    exact (hstep c a c' ha.visits.reachable (h c ha.visits) hn).mp (h c' hv)
  · intro h c hc
    refine hc.invariant h₀ fun c a c' ha hP hn => ?_
    exact (hstep c a c' ha.visits.reachable hP hn).mpr (h c a ha)

/-! ### History variables

A history variable is computed along a run from the steps that are taken, and the system does not
see it. `Tracks` has one beside the configuration, so that an invariant may speak about it. -/

section History

variable {τ : Type*} {h₀ : τ} {R : Config σ ε → ι → Config σ ε → τ → τ → Prop}

variable (M) in
/-- A history variable: a value that is `h₀` at the start of a run, and that every step `a` from `c`
to `c'` takes from `h` to some `h'` with `R c a c' h h'`. It has no influence on the run. -/
inductive Tracks (ok : Config σ ε → ι → Prop) (h₀ : τ)
    (R : Config σ ε → ι → Config σ ε → τ → τ → Prop) : Config σ ε → τ → Prop where
  | start : Tracks ok h₀ R M.start h₀
  | next {c c' : Config σ ε} {a : ι} {h h' : τ} (ht : Tracks ok h₀ R c h) (ha : ok c a)
      (hn : M.next c a = some c') (hR : R c a c' h h') : Tracks ok h₀ R c' h'

theorem Tracks.reachable {c : Config σ ε} {h : τ} (ht : M.Tracks ok h₀ R c h) :
    M.Reachable ok c := by
  induction ht with
  | start => exact Reaches.refl _
  | next _ ha hn _ ih => exact ih.tail ha hn

/-- A variable that can follow every step has a value in every reachable configuration. -/
theorem exists_tracks
    (hR : ∀ c a c' h, M.Reachable ok c → M.next c a = some c' → ∃ h', R c a c' h h')
    {c : Config σ ε} (hc : M.Reachable ok c) : ∃ h, M.Tracks ok h₀ R c h := by
  refine Reachable.invariant (P := fun c => ∃ h, M.Tracks ok h₀ R c h) ⟨h₀, .start⟩ ?_ hc
  rintro c a c' hc ⟨h, ht⟩ ha hn
  obtain ⟨h', hr⟩ := hR c a c' h hc hn
  exact ⟨h', ht.next ha hn hr⟩

end History

end System

end Distsys
