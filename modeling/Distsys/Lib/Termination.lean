import Distsys.Lib.Lists
import Distsys.Lib.TransitionSystem
import Mathlib.Algebra.GroupWithZero.Nat
import Mathlib.Tactic.Ring

/-!
# Termination of transition systems

A *potential* is a number that every step lowers, up to what its label pays in. It bounds the length
of a run by the potential at its start and what was paid in on the way. When in addition some label
that pays nothing is enabled as long as a goal is not reached, every run can be continued to the
goal by such labels.

Labels that pay are those by which the outside adds work: a call that comes in, a worker that
registers. They cannot be bounded from within, so a bound on the length of a run is a bound in terms
of how often they occur.

## Main definitions

* `System.Potential`

## Main results

* `sum_map_ite` — what some of the labels pay in
* `System.Potential.length_le` — the length of a run
* `System.Potential.exists_exec` — the goal can be reached
-/

namespace Distsys

/-- What is paid in when every label with the property `p` pays `k`. -/
theorem sum_map_ite {ι : Type*} (p : ι → Bool) (k : ℕ) (as : List ι) :
    (as.map fun a => if p a then k else 0).sum = k * as.countP p := by
  induction as with
  | nil => rfl
  | cons a as ih =>
    rw [List.map_cons, List.sum_cons, ih, List.countP_cons]
    split <;> ring

namespace System

variable {σ ι ε : Type*}

/-- A number that every step `a` lowers by one, after `pay a` has been added to it. -/
structure Potential (M : System σ ι ε) (pay : ι → ℕ) where
  value : σ → ℕ
  step_lt : ∀ {s : σ} {a : ι} {s' : σ} {es : List ε},
    M.step s a = some (s', es) → value s' < value s + pay a

namespace Potential

variable {M : System σ ι ε} {pay : ι → ℕ} (φ : M.Potential pay)

include φ

theorem next_lt {c c' : Config σ ε} {a : ι} (h : M.next c a = some c') :
    φ.value c'.state < φ.value c.state + pay a := by
  obtain ⟨es, hs, _⟩ := next_eq_some_iff.mp h
  exact φ.step_lt hs

/-- **Runs are bounded** by the potential and what the labels pay. -/
theorem length_le {c c' : Config σ ε} {as : List ι} (h : M.exec c as = some c') :
    φ.value c'.state + as.length ≤ φ.value c.state + (as.map pay).sum := by
  induction as generalizing c with
  | nil => cases h; exact le_rfl
  | cons a as ih =>
    obtain ⟨d, hd, h⟩ := Option.bind_eq_some_iff.mp h
    have hlt := φ.next_lt hd
    have hle := ih h
    rw [List.length_cons, List.map_cons, List.sum_cons]
    omega

/-- **The goal can be reached** from every configuration with the property `I` by labels that pay
nothing, if they keep `I`, and one of them is enabled as long as the goal is not reached. -/
theorem exists_exec {quiet : ι → Prop} (hquiet : ∀ a, quiet a → pay a = 0)
    {I goal : Config σ ε → Prop}
    (hkeep : ∀ c a c', I c → quiet a → M.next c a = some c' → I c')
    (hprogress : ∀ c, I c → ¬ goal c → ∃ a c', quiet a ∧ M.next c a = some c')
    {c : Config σ ε} (hc : I c) :
    ∃ as c', (∀ a ∈ as, quiet a) ∧ M.exec c as = some c' ∧ I c' ∧ goal c' := by
  induction hn : φ.value c.state using Nat.strong_induction_on generalizing c with
  | _ n ih =>
    by_cases hgoal : goal c
    · exact ⟨[], c, nofun, rfl, hc, hgoal⟩
    obtain ⟨a, d, ha, hd⟩ := hprogress c hc hgoal
    have hlt := φ.next_lt hd
    rw [hquiet a ha, Nat.add_zero, hn] at hlt
    obtain ⟨as, c', has, hexec, hI, hgoal'⟩ := ih _ hlt (hkeep c a d hc ha hd) rfl
    refine ⟨a :: as, c', ?_, ?_, hI, hgoal'⟩
    · exact List.forall_mem_cons.mpr ⟨ha, has⟩
    · rw [exec, hd, Option.bind_some, hexec]

end Potential

end System

end Distsys
