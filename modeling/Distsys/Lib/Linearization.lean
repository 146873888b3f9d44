import Mathlib.Data.Finset.Max
import Mathlib.Data.List.Perm.Basic
import Mathlib.Logic.Relation

/-!
# Linearizations

Operations that overlap in time are explained by an order: one that has them take effect one after
the other, is accepted by the sequential specification, and does not turn around two operations of
which one was over before the other began.

The specification is a partial step function. `prec a b` says that `a` was over before `b` began;
most of what follows needs nothing of `prec`. For *locality* it has to come from intervals of a
linearly ordered time: a collection of objects is linearizable exactly if each object is. The order
for the collection is built from its front. Of all operations left take the one that ended first;
the operation its object has next in its own order cannot be preceded by anything that is left.

## Main definitions

* `IsLinearization`, `Linearizable`
* `componentStep` — a family of objects, each operation acting on one of them

## Main results

* `linearizable_iff_of_ne_nil` — a linearization begins with an operation that nothing precedes
* `Linearizable.of_simulation`, `linearizable_map`
* `linearizable_component_iff` — locality
-/

namespace Distsys

variable {α β σ τ : Type*} {prec : α → α → Prop} {step : σ → α → Option σ} {s : σ} {ops : List α}

/-- `order` explains the operations `ops`, from state `s` on. -/
structure IsLinearization (prec : α → α → Prop) (step : σ → α → Option σ) (s : σ)
    (ops order : List α) : Prop where
  perm : order.Perm ops
  /-- No operation takes effect before one that had ended when it began. -/
  respects : order.Pairwise fun a b => ¬ prec b a
  accepted : ∃ t, order.foldlM step s = some t

/-- There is an order that explains the operations. -/
def Linearizable (prec : α → α → Prop) (step : σ → α → Option σ) (s : σ) (ops : List α) : Prop :=
  ∃ order, IsLinearization prec step s ops order

theorem linearizable_nil : Linearizable prec step s [] :=
  ⟨[], List.Perm.refl _, List.Pairwise.nil, s, rfl⟩

theorem Linearizable.perm {ops' : List α} (h : Linearizable prec step s ops) (hp : ops.Perm ops') :
    Linearizable prec step s ops' := by
  obtain ⟨order, hperm, hrespects, haccepted⟩ := h
  exact ⟨order, hperm.trans hp, hrespects, haccepted⟩

/-- Put an operation in front that none of the others precedes. -/
theorem Linearizable.cons {a : α} {t : σ} (h : Linearizable prec step t ops)
    (hmin : ∀ b ∈ ops, ¬ prec b a) (hstep : step s a = some t) :
    Linearizable prec step s (a :: ops) := by
  obtain ⟨order, hperm, hrespects, u, hu⟩ := h
  refine ⟨a :: order, hperm.cons a, List.pairwise_cons.mpr ⟨fun b hb => ?_, hrespects⟩, u, ?_⟩
  · exact hmin b (hperm.mem_iff.mp hb)
  · rw [List.foldlM_cons, hstep]
    exact hu

/-- **One step.** A linearization begins with an operation that none of the others precedes. -/
theorem linearizable_iff_of_ne_nil [DecidableEq α] (hne : ops ≠ []) :
    Linearizable prec step s ops ↔ ∃ a ∈ ops, (∀ b ∈ ops.erase a, ¬ prec b a) ∧
      ∃ t, step s a = some t ∧ Linearizable prec step t (ops.erase a) := by
  constructor
  · rintro ⟨order, hperm, hrespects, u, hu⟩
    cases order with
    | nil => exact absurd hperm.nil_eq.symm hne
    | cons a order =>
      obtain ⟨ha, hrest⟩ := List.cons_perm_iff_perm_erase.mp hperm
      obtain ⟨hfirst, hrespects⟩ := List.pairwise_cons.mp hrespects
      rw [List.foldlM_cons] at hu
      obtain ⟨t, ht, hu⟩ := Option.bind_eq_some_iff.mp hu
      exact ⟨a, ha, fun b hb => hfirst b (hrest.mem_iff.mpr hb), t, ht, order, hrest, hrespects,
        u, hu⟩
  · rintro ⟨a, ha, hmin, t, ht, h⟩
    exact (h.cons hmin ht).perm (List.perm_cons_erase ha).symm

/-- Two specifications that agree on the operations of a run. -/
theorem foldlM_congr_of_mem {step' : σ → α → Option σ}
    (h : ∀ s, ∀ a ∈ ops, step s a = step' s a) (s : σ) :
    ops.foldlM step s = ops.foldlM step' s := by
  induction ops generalizing s with
  | nil => rfl
  | cons a ops ih =>
    rw [List.foldlM_cons, List.foldlM_cons, h s a List.mem_cons_self]
    refine bind_congr fun t => ih (fun s b hb => h s b (List.mem_cons_of_mem _ hb)) t

/-- Only the operations that there are matter. -/
theorem linearizable_congr {prec' : α → α → Prop} {step' : σ → α → Option σ}
    (hprec : ∀ a ∈ ops, ∀ b ∈ ops, prec a b ↔ prec' a b)
    (hstep : ∀ s, ∀ a ∈ ops, step s a = step' s a) :
    Linearizable prec step s ops ↔ Linearizable prec' step' s ops := by
  refine exists_congr fun order => ?_
  have hfold : order.Perm ops → order.foldlM step s = order.foldlM step' s := fun hperm =>
    foldlM_congr_of_mem (fun s a ha => hstep s a (hperm.mem_iff.mp ha)) s
  have hpair : order.Perm ops →
      (order.Pairwise (fun a b => ¬ prec b a) ↔ order.Pairwise fun a b => ¬ prec' b a) := by
    intro hperm
    refine List.Pairwise.iff_of_mem fun {a b} ha hb => not_congr ?_
    exact hprec b (hperm.mem_iff.mp hb) a (hperm.mem_iff.mp ha)
  constructor
  · rintro ⟨hperm, hrespects, haccepted⟩
    exact ⟨hperm, (hpair hperm).mp hrespects, hfold hperm ▸ haccepted⟩
  · rintro ⟨hperm, hrespects, haccepted⟩
    exact ⟨hperm, (hpair hperm).mpr hrespects, (hfold hperm).symm ▸ haccepted⟩

/-- A specification that simulates another one accepts its linearizations. -/
theorem Linearizable.of_simulation {step' : τ → α → Option τ} {R : σ → τ → Prop}
    (hsim : ∀ s t a s', R s t → step s a = some s' → ∃ t', step' t a = some t' ∧ R s' t')
    {t : τ} (hR : R s t) (h : Linearizable prec step s ops) : Linearizable prec step' t ops := by
  obtain ⟨order, hperm, hrespects, u, hu⟩ := h
  refine ⟨order, hperm, hrespects, ?_⟩
  clear hperm hrespects
  induction order generalizing s t with
  | nil => exact ⟨t, rfl⟩
  | cons a order ih =>
    rw [List.foldlM_cons] at hu
    obtain ⟨s', hs', hu⟩ := Option.bind_eq_some_iff.mp hu
    obtain ⟨t', ht', hR'⟩ := hsim s t a s' hR hs'
    obtain ⟨v, hv⟩ := ih hR' hu
    refine ⟨v, ?_⟩
    rw [List.foldlM_cons, ht']
    exact hv

/-- Operations under other names. -/
theorem linearizable_map (f : β → α) {names : List β} :
    Linearizable prec step s (names.map f) ↔
      Linearizable (fun a b => prec (f a) (f b)) (fun s b => step s (f b)) s names := by
  constructor
  · rintro ⟨order, hperm, hrespects, haccepted⟩
    have hf : List.Forall₂ (fun a b => a = f b) (names.map f) names :=
      List.forall₂_map_left_iff.mpr (List.forall₂_same.mpr fun _ _ => rfl)
    obtain ⟨order', hforall, hperm'⟩ := List.perm_comp_forall₂ hperm hf
    obtain rfl : order = order'.map f := by
      clear hperm hrespects haccepted hperm'
      induction hforall with
      | nil => rfl
      | cons h _ ih => rw [h, ih, List.map_cons]
    rw [List.pairwise_map] at hrespects
    rw [List.foldlM_map] at haccepted
    exact ⟨order', hperm', hrespects, haccepted⟩
  · rintro ⟨order, hperm, hrespects, haccepted⟩
    exact ⟨order.map f, hperm.map f, List.pairwise_map.mpr hrespects,
      by rwa [List.foldlM_map]⟩

/-! ### Locality

Each object has an order of its own, and these are to be merged. If they are merged without care,
operations of two objects may be turned around although one had ended when the other began. Time
says how to merge them: among all operations that are left, some operation has ended first, and
nothing that is left precedes the next operation of its object. So that one may come first. -/

section Locality

variable {κ ρ : Type*} [DecidableEq κ] {key : α → κ}

/-- One state for each object; an operation acts on the object `key` says. -/
def componentStep (key : α → κ) (step : σ → α → Option σ) (S : κ → σ) (a : α) : Option (κ → σ) :=
  (step (S (key a)) a).map (Function.update S (key a))

/-- What a run does to one object. -/
theorem foldlM_component {order : List α} {S T : κ → σ}
    (h : order.foldlM (componentStep key step) S = some T) (k : κ) :
    (order.filter fun a => key a = k).foldlM step (S k) = some (T k) := by
  induction order generalizing S with
  | nil =>
    cases h
    rfl
  | cons a order ih =>
    rw [List.foldlM_cons] at h
    obtain ⟨S', hS', h⟩ := Option.bind_eq_some_iff.mp h
    obtain ⟨t, ht, rfl⟩ := Option.map_eq_some_iff.mp hS'
    have hrest := ih h
    by_cases hk : key a = k
    · subst hk
      rw [Function.update_self] at hrest
      rw [List.filter_cons_of_pos (by simp), List.foldlM_cons, ht]
      exact hrest
    · rw [Function.update_of_ne (Ne.symm hk)] at hrest
      rwa [List.filter_cons_of_neg (by simpa using hk)]

variable [LinearOrder ρ] {began ended : α → ρ}

/-- Of the operations of an object, the first one of its order is preceded by no operation at all,
if one of them was the first to end. -/
theorem not_prec_of_first {a m : α} (hle : ∀ a ∈ ops, began a ≤ ended a) (ha : a ∈ ops)
    (hm : ∀ b ∈ ops, ended m ≤ ended b) (hmin : m = a ∨ ¬ ended m < began a) :
    ∀ b ∈ ops, ¬ ended b < began a := by
  intro b hb hlt
  have hma := (hm b hb).trans_lt hlt
  rcases hmin with rfl | hmin
  · exact absurd hma (not_lt.mpr (hle m ha))
  · exact hmin hma

/-- **Locality.** If operations are intervals of time, a collection of objects is linearizable
exactly if each of them is. -/
theorem linearizable_component_iff {S : κ → σ} (hle : ∀ a ∈ ops, began a ≤ ended a) :
    Linearizable (fun a b => ended a < began b) (componentStep key step) S ops ↔
      ∀ k, Linearizable (fun a b => ended a < began b) step (S k)
        (ops.filter fun a => key a = k) := by
  classical
  constructor
  · rintro ⟨order, hperm, hrespects, T, hT⟩ k
    exact ⟨order.filter fun a => key a = k, hperm.filter _, hrespects.filter _, T k,
      foldlM_component hT k⟩
  · intro h
    induction hn : ops.length generalizing ops S with
    | zero =>
      rw [List.length_eq_zero_iff.mp hn]
      exact linearizable_nil
    | succ n ih =>
      have hne : ops ≠ [] := by
        rintro rfl
        cases hn
      obtain ⟨m, hm, hmin⟩ := ops.toFinset.exists_min_image ended
        (List.toFinset_nonempty_iff ops |>.mpr hne)
      have hm := List.mem_toFinset.mp hm
      have hmin : ∀ b ∈ ops, ended m ≤ ended b := fun b hb => hmin b (List.mem_toFinset.mpr hb)
      have hmk : m ∈ ops.filter fun a => key a = key m := List.mem_filter.mpr ⟨hm, by simp⟩
      obtain ⟨a, ha, hfirst, t, ht, hrest⟩ :=
        (linearizable_iff_of_ne_nil (List.ne_nil_of_mem hmk)).mp (h (key m))
      obtain ⟨ha, hak⟩ := List.mem_filter.mp ha
      have hak : key a = key m := of_decide_eq_true hak
      have hall := not_prec_of_first hle ha hmin <| by
        rcases eq_or_ne m a with heq | hma
        · exact Or.inl heq
        · exact Or.inr (hfirst m ((List.mem_erase_of_ne hma).mpr hmk))
      rw [linearizable_iff_of_ne_nil hne]
      refine ⟨a, ha, fun b hb => hall b (List.mem_of_mem_erase hb), Function.update S (key a) t, ?_,
        ih (fun b hb => hle b (List.mem_of_mem_erase hb)) (fun k => ?_) ?_⟩
      · rw [componentStep, hak, ht, Option.map_some]
      · rw [List.erase_filter] at hrest
        rcases eq_or_ne k (key a) with rfl | hk
        · rw [Function.update_self, hak]
          exact hrest
        · rw [Function.update_of_ne hk, ← List.erase_filter, List.erase_of_not_mem]
          · exact h k
          · intro hin
            exact hk (of_decide_eq_true (List.mem_filter.mp hin).2).symm
      · rw [List.length_erase_of_mem ha, hn, Nat.add_sub_cancel]

end Locality

end Distsys
