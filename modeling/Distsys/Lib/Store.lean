import Distsys.Lib.TransitionSystem

/-!
# Mutable values

A value of a mutable type lives in memory, and a program knows it by a reference. An edit changes
the memory, so it is seen by everybody whose reference leads there. `clone` is to return a reference
to a value of its own; whether it does is a matter of what it does to the memory, and nothing here
takes it for granted.

What a program is meant to see is told by values that are really copied: `Values` has no memory, and
`clone` gives a second copy. An implementation is right if its references stay *apart*: an edit
through one of them leaves the values behind the others alone, and `new` and `clone` return a
reference that is apart from all there are. Then a program cannot tell the two from each other. A
`clone` that returned its argument would not be apart from it.

## Main definitions

* `Store.Mutable` — the operations of a mutable type, with the memory they work on
* `Store.Values` — the values it stands for
* `Store.Op`, `Store.system`, `Store.spec` — a program that uses it, with memory and without
* `Store.Implements`

## Main results

* `Store.Implements.exec` — a program cannot tell the two apart
* `Store.unaffected_of_exec` — a copy is only changed by its own edits
-/

namespace Distsys

namespace Store

/-- The operations of a mutable type with references in `ρ` to a memory in `μ`, and edits in `ε`.
An edit that panics is `none`. -/
structure Mutable (μ ρ ε : Type*) where
  new : μ → μ × ρ
  clone : μ → ρ → μ × ρ
  /-- The memory behind an edit, and the reference that it returns. -/
  edit : μ → ρ → ε → Option (μ × ρ)

/-- Values that are copied. -/
structure Values (γ ε : Type*) where
  new : γ
  edit : γ → ε → Option γ

/-- What a program can do. Its variables are numbered. -/
inductive Op (ε : Type*) where
  /-- A new variable gets a new value. -/
  | new
  /-- A new variable gets a clone of the value of another one. -/
  | clone (var : ℕ)
  /-- The value of a variable is edited, and the variable gets what the edit returns. -/
  | edit (var : ℕ) (e : ε)
  deriving DecidableEq, Repr

/-- The operation is an edit of this variable. -/
def Op.Edits {ε : Type*} (var : ℕ) : Op ε → Prop
  | .edit var' _ => var' = var
  | _ => False

/-- The memory and the variables of a program. -/
structure State (μ ρ : Type*) where
  memory : μ
  vars : List ρ

variable {μ ρ γ ε : Type*}

/-- One operation. -/
def step (T : Mutable μ ρ ε) (s : State μ ρ) : Op ε → Option (State μ ρ)
  | .new => some ⟨(T.new s.memory).1, s.vars ++ [(T.new s.memory).2]⟩
  | .clone var => s.vars[var]?.map fun r =>
    ⟨(T.clone s.memory r).1, s.vars ++ [(T.clone s.memory r).2]⟩
  | .edit var e => (s.vars[var]?.bind fun r => T.edit s.memory r e).map fun x =>
    ⟨x.1, s.vars.set var x.2⟩

/-- One operation on values that are copied. -/
def specStep (U : Values γ ε) (vals : List γ) : Op ε → Option (List γ)
  | .new => some (vals ++ [U.new])
  | .clone var => vals[var]?.map fun v => vals ++ [v]
  | .edit var e => do
    let v ← vals[var]?
    let v ← U.edit v e
    return vals.set var v

/-- A program that has no variables in the beginning. -/
def system (T : Mutable μ ρ ε) (m : μ) : System (State μ ρ) (Op ε) Empty where
  init := ⟨m, []⟩
  step s op := (step T s op).map (·, [])

/-- What it is meant to see. -/
def spec (U : Values γ ε) : System (List γ) (Op ε) Empty where
  init := []
  step vals op := (specStep U vals op).map (·, [])

/-! ### Copies

The system without memory first. A variable that nobody edits keeps its value, and what is done to a
copy is not done to the original. This is trivial for values; the next section transports it to an
implementation with references. -/

section Copies

variable {U : Values γ ε} {vals vals' : List γ} {op : Op ε} {var : ℕ} {v : γ}

/-- An operation leaves a value alone that it does not edit. -/
theorem getElem?_of_specStep (h : specStep U vals op = some vals') (hv : vals[var]? = some v)
    (hop : ¬ op.Edits var) : vals'[var]? = some v := by
  have hlt : var < vals.length := (List.getElem?_eq_some_iff.mp hv).1
  cases op with
  | new =>
    cases h
    rw [List.getElem?_append_left hlt, hv]
  | clone var' =>
    obtain ⟨v', _, rfl⟩ := Option.map_eq_some_iff.mp h
    rw [List.getElem?_append_left hlt, hv]
  | edit var' e =>
    obtain ⟨v', _, h⟩ := Option.bind_eq_some_iff.mp h
    obtain ⟨v'', _, h⟩ := Option.bind_eq_some_iff.mp h
    cases h
    rw [List.getElem?_set_ne hop, hv]

theorem specStep_of_next {c c' : System.Config (List γ) Empty}
    (h : (spec U).next c op = some c') : specStep U c.state op = some c'.state := by
  obtain ⟨es, hs, _⟩ := System.next_eq_some_iff.mp h
  obtain ⟨vals, hvals, heq⟩ := Option.map_eq_some_iff.mp hs
  rw [hvals, (Prod.mk.inj heq).1]

/-- **A copy is only changed by its own edits.** -/
theorem unaffected_of_exec {ops : List (Op ε)} {c c' : System.Config (List γ) Empty}
    (h : (spec U).exec c ops = some c') (hv : c.state[var]? = some v)
    (hops : ∀ op ∈ ops, ¬ op.Edits var) : c'.state[var]? = some v := by
  induction ops generalizing c with
  | nil => cases h; exact hv
  | cons op ops ih =>
    obtain ⟨hop, hops⟩ := List.forall_mem_cons.mp hops
    obtain ⟨d, hd, h⟩ := Option.bind_eq_some_iff.mp h
    exact ih h (getElem?_of_specStep (specStep_of_next hd) hv hop) hops

end Copies

/-! ### References that stay apart

Which references are apart is for the implementation to say. For slices it is that they lead to
different arrays, for pointers it could be that they are different. All that is asked is that an
edit is not seen through references that are apart, and that `new`, `clone` and edits return
references that are apart from the rest. -/

/-- `T` implements `U`, if `R m r v` says that in memory `m` the value behind `r` is `v`. -/
structure Implements (T : Mutable μ ρ ε) (U : Values γ ε) (R : μ → ρ → γ → Prop)
    (Apart : ρ → ρ → Prop) : Prop where
  symm : ∀ {q r}, Apart q r → Apart r q
  /-- `new` returns a new value, and nothing else changes. -/
  new : ∀ m, R (T.new m).1 (T.new m).2 U.new
  new_frame : ∀ {m q v}, R m q v → R (T.new m).1 q v ∧ Apart q (T.new m).2
  /-- `clone` returns the value it was given, in a place of its own. -/
  clone : ∀ {m r v}, R m r v → R (T.clone m r).1 (T.clone m r).2 v
  clone_frame : ∀ {m r v q w}, R m r v → R m q w →
    R (T.clone m r).1 q w ∧ Apart q (T.clone m r).2
  /-- An edit panics where it should, -/
  edit_none : ∀ {m r v e}, R m r v → U.edit v e = none → T.edit m r e = none
  /-- has the result it should have, -/
  edit : ∀ {m r v e v'}, R m r v → U.edit v e = some v' →
    ∃ m' r', T.edit m r e = some (m', r') ∧ R m' r' v'
  /-- and leaves alone what is apart. -/
  edit_frame : ∀ {m r v e m' r' q w}, R m r v → T.edit m r e = some (m', r') → Apart q r →
    R m q w → R m' q w ∧ Apart q r'

/-- The variables of a program have the values `vals`, and are apart. -/
structure Related (R : μ → ρ → γ → Prop) (Apart : ρ → ρ → Prop) (s : State μ ρ)
    (vals : List γ) : Prop where
  length : s.vars.length = vals.length
  /-- In the present memory the value behind each variable is the one that it should be. -/
  holds : ∀ {i : ℕ} {r v}, s.vars[i]? = some r → vals[i]? = some v → R s.memory r v
  apart : ∀ {i j : ℕ} {q r}, i ≠ j → s.vars[i]? = some q → s.vars[j]? = some r → Apart q r

section Implements

variable {T : Mutable μ ρ ε} {U : Values γ ε} {R : μ → ρ → γ → Prop} {Apart : ρ → ρ → Prop}
  {s : State μ ρ} {vals : List γ} {op : Op ε}

theorem Related.exists_val (h : Related R Apart s vals) {i : ℕ} {r : ρ}
    (hr : s.vars[i]? = some r) : ∃ v, vals[i]? = some v ∧ R s.memory r v := by
  have hlt := (List.getElem?_eq_some_iff.mp hr).1
  have hv := List.getElem?_eq_getElem (h.length ▸ hlt)
  exact ⟨_, hv, h.holds hr hv⟩

theorem Related.exists_var (h : Related R Apart s vals) {i : ℕ} {v : γ}
    (hv : vals[i]? = some v) : ∃ r, s.vars[i]? = some r ∧ R s.memory r v := by
  have hlt := (List.getElem?_eq_some_iff.mp hv).1
  have hr := List.getElem?_eq_getElem (h.length.symm ▸ hlt)
  exact ⟨_, hr, h.holds hr hv⟩

/-- A new variable. -/
theorem Related.concat (h : Related R Apart s vals) {m : μ} {r : ρ} {v : γ} (hr : R m r v)
    (hframe : ∀ {q w}, R s.memory q w → R m q w ∧ Apart q r)
    (hsymm : ∀ {q r}, Apart q r → Apart r q) :
    Related R Apart ⟨m, s.vars ++ [r]⟩ (vals ++ [v]) := by
  have hlen := h.length
  have hold : ∀ {i : ℕ} {q}, s.vars[i]? = some q → Apart q r := fun hq => by
    obtain ⟨w, _, hw⟩ := h.exists_val hq
    exact (hframe hw).2
  refine ⟨by simp [hlen], fun {i q w} hq hw => ?_, fun {i j q q'} hne hq hq' => ?_⟩
  · rcases lt_or_ge i s.vars.length with hi | hi
    · rw [List.getElem?_append_left hi] at hq
      rw [List.getElem?_append_left (hlen ▸ hi)] at hw
      exact (hframe (h.holds hq hw)).1
    · rw [List.getElem?_append_right hi] at hq
      rw [List.getElem?_append_right (hlen ▸ hi), ← hlen] at hw
      cases hi' : i - s.vars.length with
      | zero =>
        rw [hi'] at hq hw
        cases hq
        cases hw
        exact hr
      | succ k =>
        rw [hi'] at hq
        cases hq
  · have hlast : ∀ {i : ℕ} {q}, (s.vars ++ [r])[i]? = some q →
        s.vars[i]? = some q ∨ i = s.vars.length ∧ q = r := fun {i q} hq => by
      rcases lt_trichotomy i s.vars.length with hi | rfl | hi
      · rw [List.getElem?_append_left hi] at hq
        exact Or.inl hq
      · rw [List.getElem?_concat_length] at hq
        exact Or.inr ⟨rfl, (Option.some.inj hq).symm⟩
      · rw [List.getElem?_eq_none (by simp; omega)] at hq
        cases hq
    rcases hlast hq with ho | ⟨hi, heq⟩ <;> rcases hlast hq' with ho' | ⟨hj, heq'⟩
    · exact h.apart hne ho ho'
    · exact heq' ▸ hold ho
    · exact heq ▸ hsymm (hold ho')
    · exact absurd (hi.trans hj.symm) hne

/-- A variable whose value is edited. -/
theorem Related.set (h : Related R Apart s vals) {var : ℕ} {r r' : ρ} {m : μ} {v : γ}
    (hr : s.vars[var]? = some r) (hv : R m r' v)
    (hframe : ∀ {q w}, Apart q r → R s.memory q w → R m q w ∧ Apart q r')
    (hsymm : ∀ {q r}, Apart q r → Apart r q) :
    Related R Apart ⟨m, s.vars.set var r'⟩ (vals.set var v) := by
  have hlt := (List.getElem?_eq_some_iff.mp hr).1
  have hother : ∀ {i : ℕ} {q}, i ≠ var → s.vars[i]? = some q → ∃ w, vals[i]? = some w ∧
      R m q w ∧ Apart q r' := fun hne hq => by
    obtain ⟨w, hw, hR⟩ := h.exists_val hq
    exact ⟨w, hw, hframe (h.apart hne hq hr) hR⟩
  refine ⟨by simp [h.length], fun {i q w} hq hw => ?_, fun {i j q q'} hne hq hq' => ?_⟩
  · rcases eq_or_ne i var with rfl | hi
    · rw [List.getElem?_set_self hlt] at hq
      rw [List.getElem?_set_self (h.length ▸ hlt)] at hw
      cases hq
      cases hw
      exact hv
    · rw [List.getElem?_set_ne hi.symm] at hq hw
      obtain ⟨w', hw', hR, _⟩ := hother hi hq
      cases hw.symm.trans hw'
      exact hR
  · rcases eq_or_ne i var with rfl | hi
    · rw [List.getElem?_set_self hlt] at hq
      rw [List.getElem?_set_ne hne] at hq'
      cases hq
      obtain ⟨_, _, _, hapart⟩ := hother hne.symm hq'
      exact hsymm hapart
    · rw [List.getElem?_set_ne hi.symm] at hq
      obtain ⟨_, _, _, hapart⟩ := hother hi hq
      rcases eq_or_ne j var with rfl | hj
      · rw [List.getElem?_set_self hlt] at hq'
        cases hq'
        exact hapart
      · rw [List.getElem?_set_ne hj.symm] at hq'
        exact h.apart hne hq hq'

variable (hT : Implements T U R Apart)

include hT

/-- One operation. -/
theorem Implements.step (h : Related R Apart s vals) (op : Op ε) :
    step T s op = none ∧ specStep U vals op = none ∨
      ∃ s' vals', step T s op = some s' ∧ specStep U vals op = some vals' ∧
        Related R Apart s' vals' := by
  cases op with
  | new =>
    exact Or.inr ⟨_, _, rfl, rfl, h.concat (hT.new s.memory) hT.new_frame hT.symm⟩
  | clone var =>
    cases hr : s.vars[var]? with
    | none =>
      have hv : vals[var]? = none := by
        rw [List.getElem?_eq_none_iff, ← h.length]
        exact List.getElem?_eq_none_iff.mp hr
      exact Or.inl ⟨by simp [Store.step, hr], by simp [specStep, hv]⟩
    | some r =>
      obtain ⟨v, hv, hR⟩ := h.exists_val hr
      exact Or.inr ⟨_, _, by simp [Store.step, hr], by simp [specStep, hv],
        h.concat (hT.clone hR) (hT.clone_frame hR) hT.symm⟩
  | edit var e =>
    cases hr : s.vars[var]? with
    | none =>
      have hv : vals[var]? = none := by
        rw [List.getElem?_eq_none_iff, ← h.length]
        exact List.getElem?_eq_none_iff.mp hr
      exact Or.inl ⟨by simp [Store.step, hr], by simp [specStep, hv]⟩
    | some r =>
      obtain ⟨v, hv, hR⟩ := h.exists_val hr
      cases he : U.edit v e with
      | none =>
        exact Or.inl ⟨by simp [Store.step, hr, hT.edit_none hR he], by simp [specStep, hv, he]⟩
      | some v' =>
        obtain ⟨m', r', hedit, hR'⟩ := hT.edit hR he
        exact Or.inr ⟨_, _, by simp [Store.step, hr, hedit], by simp [specStep, hv, he],
          h.set hr hR' (fun hapart hw => hT.edit_frame hR hedit hapart hw) hT.symm⟩

/-- **A program cannot tell the two apart**: both panic, or both have a result, and the values of
the variables are the same. -/
theorem Implements.exec (m : μ) (ops : List (Op ε)) {c : System.Config (State μ ρ) Empty}
    {d : System.Config (List γ) Empty} (h : Related R Apart c.state d.state) :
    (system T m).exec c ops = none ∧ (spec U).exec d ops = none ∨
      ∃ c' d', (system T m).exec c ops = some c' ∧ (spec U).exec d ops = some d' ∧
        Related R Apart c'.state d'.state := by
  refine System.exec_bisimulation (fun s vals op h => ?_) h
  rcases hT.step h op with ⟨hs, hv⟩ | ⟨s', vals', hs, hv, h'⟩
  · exact Or.inl ⟨by simp [system, hs], by simp [spec, hv]⟩
  · exact Or.inr ⟨s', [], vals', [], by simp [system, hs], by simp [spec, hv], h'⟩

end Implements

end Store

end Distsys
