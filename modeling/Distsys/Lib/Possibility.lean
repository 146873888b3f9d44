import Distsys.Lib.TransitionSystem
import Mathlib.Data.Finset.Insert

/-!
# What a transition system can do

`M.Can ok P Q` says that from every configuration with the property `P` some guarded run of `M`
leads to one with the property `Q`. Nothing is said about other runs: this is the possibility to get
on, which a system loses when it is in a dead end.

The rules are those of a program logic for straight-line code, where each step is a label that
somebody chooses, and of its loops.

That a goal can be reached is weaker than that it will be. It is what can be said about systems
whose environment may do nothing for ever, or disturb for ever: no sequence of events leads to a
state from which the goal is out of reach.

## Main definitions

* `System.Can`

## Main results

* `System.Can.step`, `System.Can.trans` — one step, and one after the other
* `System.Can.descend` — a loop with a measure
* `System.Can.forEach` — a loop over a finite set
-/

namespace Distsys

namespace System

variable {σ ι ε : Type*} {M : System σ ι ε} {ok : Config σ ε → ι → Prop}
  {P Q R : Config σ ε → Prop}

variable (M) in
/-- From `P` the system can get to `Q`, by steps that all meet the guard `ok`. -/
def Can (ok : Config σ ε → ι → Prop) (P Q : Config σ ε → Prop) : Prop :=
  ∀ c, P c → ∃ c', M.Reaches ok c c' ∧ Q c'

namespace Can

theorem of_imp (h : ∀ c, P c → Q c) : M.Can ok P Q :=
  fun c hc => ⟨c, Reaches.refl c, h c hc⟩

theorem trans (h : M.Can ok P Q) (h' : M.Can ok Q R) : M.Can ok P R := by
  intro c hc
  obtain ⟨d, hcd, hd⟩ := h c hc
  obtain ⟨e, hde, he⟩ := h' d hd
  exact ⟨e, hcd.trans hde, he⟩

/-- One step. -/
theorem step (h : ∀ c, P c → ∃ a c', ok c a ∧ M.next c a = some c' ∧ Q c') : M.Can ok P Q := by
  intro c hc
  obtain ⟨a, c', ha, hn, hc'⟩ := h c hc
  exact ⟨c', (Reaches.refl c).tail ha hn, hc'⟩

/-- **A loop with a measure**: each round leads to the goal, or to a smaller instance. -/
theorem descend {κ : Type*} (μ : κ → ℕ) {P : κ → Config σ ε → Prop}
    (h : ∀ k, M.Can ok (P k) fun c => Q c ∨ ∃ k', μ k' < μ k ∧ P k' c) (k : κ) :
    M.Can ok (P k) Q := by
  induction hm : μ k using Nat.strong_induction_on generalizing k with
  | _ m ih =>
    refine (h k).trans fun c hc => ?_
    rcases hc with hc | ⟨k', hlt, hc⟩
    · exact ⟨c, Reaches.refl c, hc⟩
    · exact ih (μ k') (hm ▸ hlt) k' rfl c hc

/-- **A loop over a finite set**: each round adds an element to those that are done. -/
theorem forEach {κ : Type*} [DecidableEq κ] {P : Finset κ → Config σ ε → Prop} (s : Finset κ)
    (h : ∀ done k, k ∈ s → k ∉ done → M.Can ok (P done) (P (insert k done))) :
    M.Can ok (P ∅) (P s) := by
  suffices ∀ t ⊆ s, M.Can ok (P ∅) (P t) from this s subset_rfl
  intro t
  induction t using Finset.induction_on with
  | empty => exact fun _ => of_imp fun _ hc => hc
  | insert k t hk ih =>
    intro ht
    obtain ⟨hks, hts⟩ := Finset.insert_subset_iff.mp ht
    exact (ih hts).trans (h t k hks hk)

end Can

end System

end Distsys
