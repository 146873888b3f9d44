import Mathlib.Data.List.Nodup
import Mathlib.Logic.Function.Basic
import Mathlib.Logic.Relation

/-!
# Doubly linked lists

The pointers of a set of nodes, `next` and `prev`, as two partial functions. A node that is taken
out of a list keeps its own pointers, and through them it can be put back: that is `unlink` and
`relink`. The neighbours it had are found again only if the list is as it was, so nodes have to be
put back in the opposite order.

A list is given by its nodes in order, not by the pointers: `L.Linked a l` says that the pointers
`next` lead from `a` through the nodes of `l` and end there, and that the pointers `prev` lead back.
Nothing is said about the pointers of nodes that are not in the list, and this is what makes it
possible to put a node back: it still has the pointers it had.

Nodes are told apart by name. If a name were to occur twice in a list, the two would share their
pointers, so the results ask for a list without duplicates.

## Main definitions

* `Links`, `Links.unlink`, `Links.relink`
* `Links.Linked` — the nodes of a list behind a first node, in their order

## Main results

* `Links.Linked.unlink` — the list without the node
* `Links.Linked.relink_unlink` — every pointer is as it was before
-/

namespace Distsys

/-- Pointers to the next and the previous node. -/
@[ext]
structure Links (α : Type*) where
  next : α → Option α
  prev : α → Option α

namespace Links

variable {α : Type*} {L L' : Links α} {a x : α} {l A B : List α}

/-- From `a` on, the nodes are those of `l`, in both directions. -/
def Linked (L : Links α) : α → List α → Prop
  | a, [] => L.next a = none
  | a, b :: l => L.next a = some b ∧ L.prev b = some a ∧ L.Linked b l

@[simp] theorem linked_nil : L.Linked a [] ↔ L.next a = none := Iff.rfl

@[simp] theorem linked_cons {b : α} :
    L.Linked a (b :: l) ↔ L.next a = some b ∧ L.prev b = some a ∧ L.Linked b l := Iff.rfl

theorem Linked.next_eq (h : L.Linked a l) : L.next a = l.head? := by
  cases l with
  | nil => exact h
  | cons b l => exact h.1

/-- Whoever follows `next` visits the nodes of the list. -/
theorem Linked.mem_of_transGen (h : L.Linked a l)
    (hx : Relation.TransGen (fun p q => L.next p = some q) a x) : x ∈ l := by
  induction l generalizing a with
  | nil =>
    obtain ⟨b, hb, -⟩ := Relation.TransGen.head'_iff.mp hx
    cases hb.symm.trans h
  | cons b l ih =>
    obtain ⟨b', hb, hx⟩ := Relation.TransGen.head'_iff.mp hx
    cases hb.symm.trans h.1
    rcases Relation.reflTransGen_iff_eq_or_transGen.mp hx with rfl | hx
    · exact List.mem_cons_self
    · exact List.mem_cons_of_mem _ (ih h.2.2 hx)

/-- All of them. -/
theorem Linked.transGen_of_mem (h : L.Linked a l) (hx : x ∈ l) :
    Relation.TransGen (fun p q => L.next p = some q) a x := by
  induction l generalizing a with
  | nil => cases hx
  | cons b l ih =>
    rcases List.mem_cons.mp hx with rfl | hx
    · exact .single h.1
    · exact .head h.1 (ih h.2.2 hx)

/-- Only the pointers of the list count. -/
theorem Linked.congr (h : L.Linked a l) (hnext : ∀ y ∈ a :: l, L'.next y = L.next y)
    (hprev : ∀ y ∈ l, L'.prev y = L.prev y) : L'.Linked a l := by
  induction l generalizing a with
  | nil => exact (hnext a List.mem_cons_self).trans h
  | cons b l ih =>
    obtain ⟨h₁, h₂, h₃⟩ := h
    exact ⟨(hnext a List.mem_cons_self).trans h₁, (hprev b List.mem_cons_self).trans h₂,
      ih h₃ (fun y hy => hnext y (List.mem_cons_of_mem _ hy))
        fun y hy => hprev y (List.mem_cons_of_mem _ hy)⟩

/-- The node `p` before `x`, and how to replace what comes behind it. -/
theorem Linked.split (h : L.Linked a (A ++ x :: B)) (hn : (a :: A).Nodup) :
    ∃ p ∈ a :: A, L.next p = some x ∧ L.prev x = some p ∧ L.Linked x B ∧
      ∀ (L' : Links α) (C : List α), (∀ y ∈ a :: A, y ≠ p → L'.next y = L.next y) →
        (∀ y ∈ A, L'.prev y = L.prev y) → L'.Linked p C → L'.Linked a (A ++ C) := by
  induction A generalizing a with
  | nil => exact ⟨a, List.mem_cons_self, h.1, h.2.1, h.2.2, fun L' C _ _ hC => hC⟩
  | cons b A ih =>
    obtain ⟨h₁, h₂, h₃⟩ := h
    obtain ⟨ha, hn⟩ := List.nodup_cons.mp hn
    obtain ⟨p, hp, hnext, hprev, hB, hrest⟩ := ih h₃ hn
    refine ⟨p, List.mem_cons_of_mem _ hp, hnext, hprev, hB, fun L' C hnext' hprev' hC => ?_⟩
    refine ⟨?_, (hprev' b List.mem_cons_self).trans h₂, hrest L' C
      (fun y hy => hnext' y (List.mem_cons_of_mem _ hy))
      (fun y hy => hprev' y (List.mem_cons_of_mem _ hy)) hC⟩
    exact (hnext' a List.mem_cons_self fun h => ha (h ▸ hp)).trans h₁

variable [DecidableEq α]

/-- Take `x` out: its neighbours point to each other. -/
def unlink (L : Links α) (x : α) : Links α where
  next := match L.prev x with
    | some a => Function.update L.next a (L.next x)
    | none => L.next
  prev := match L.next x with
    | some b => Function.update L.prev b (L.prev x)
    | none => L.prev

/-- Put `x` back: the nodes it points to point to `x`. -/
def relink (L : Links α) (x : α) : Links α where
  next := match L.prev x with
    | some a => Function.update L.next a (some x)
    | none => L.next
  prev := match L.next x with
    | some b => Function.update L.prev b (some x)
    | none => L.prev

theorem next_unlink (h : L.prev x = some a) :
    (L.unlink x).next = Function.update L.next a (L.next x) := by
  simp only [unlink, h]

theorem prev_unlink {b : α} (h : L.next x = some b) :
    (L.unlink x).prev = Function.update L.prev b (L.prev x) := by
  simp only [unlink, h]

theorem prev_unlink_of_none (h : L.next x = none) : (L.unlink x).prev = L.prev := by
  simp only [unlink, h]

theorem next_relink (h : L.prev x = some a) :
    (L.relink x).next = Function.update L.next a (some x) := by
  simp only [relink, h]

theorem prev_relink {b : α} (h : L.next x = some b) :
    (L.relink x).prev = Function.update L.prev b (some x) := by
  simp only [relink, h]

theorem prev_relink_of_none (h : L.next x = none) : (L.relink x).prev = L.prev := by
  simp only [relink, h]

/-- **The list without `x`.** -/
theorem Linked.unlink (h : L.Linked a (A ++ x :: B)) (hn : (a :: (A ++ x :: B)).Nodup) :
    (L.unlink x).Linked a (A ++ B) := by
  rw [← List.cons_append] at hn
  obtain ⟨hA, hxB, hdisj⟩ := List.nodup_append'.mp hn
  obtain ⟨p, hp, hnext, hprev, hB, hrest⟩ := h.split hA
  obtain ⟨hx, hBn⟩ := List.nodup_cons.mp hxB
  have hnext' := next_unlink hprev
  refine hrest _ _ (fun y _ hyp => by rw [hnext', Function.update_of_ne hyp]) ?_ ?_
  · intro y hy
    cases B with
    | nil => rw [prev_unlink_of_none hB]
    | cons b B =>
      have hyb : y ≠ b := by
        rintro rfl
        exact hdisj (List.mem_cons_of_mem _ hy) (by simp)
      rw [prev_unlink hB.1, Function.update_of_ne hyb]
  · cases B with
    | nil => rw [linked_nil, hnext', Function.update_self, hB]
    | cons b B =>
      obtain ⟨h₁, h₂, h₃⟩ := hB
      refine ⟨by rw [hnext', Function.update_self, h₁],
        by rw [prev_unlink h₁, Function.update_self, hprev],
        h₃.congr (fun y hy => ?_) fun y hy => ?_⟩
      · have hyp : y ≠ p := by
          rintro rfl
          exact hdisj hp (List.mem_cons_of_mem _ hy)
        rw [hnext', Function.update_of_ne hyp]
      · have hyb : y ≠ b := by
          rintro rfl
          exact (List.nodup_cons.mp hBn).1 hy
        rw [prev_unlink h₁, Function.update_of_ne hyb]

/-- A node that was taken out still points to its neighbours. -/
theorem Linked.unlink_self (h : L.Linked a (A ++ x :: B)) (hn : (a :: (A ++ x :: B)).Nodup) :
    (L.unlink x).next x = L.next x ∧ (L.unlink x).prev x = L.prev x := by
  rw [← List.cons_append] at hn
  obtain ⟨hA, hxB, hdisj⟩ := List.nodup_append'.mp hn
  obtain ⟨p, hp, hnext, hprev, hB, -⟩ := h.split hA
  constructor
  · have hxp : x ≠ p := by
      rintro rfl
      exact hdisj hp List.mem_cons_self
    rw [next_unlink hprev, Function.update_of_ne hxp]
  · cases B with
    | nil => rw [prev_unlink_of_none hB]
    | cons b B =>
      have hxb : x ≠ b := by
        rintro rfl
        exact (List.nodup_cons.mp hxB).1 List.mem_cons_self
      rw [prev_unlink hB.1, Function.update_of_ne hxb]

/-- **`x` is put back where it was.** -/
theorem Linked.relink_unlink (h : L.Linked a (A ++ x :: B)) (hn : (a :: (A ++ x :: B)).Nodup) :
    (L.unlink x).relink x = L := by
  obtain ⟨hnext', hprev'⟩ := h.unlink_self hn
  rw [← List.cons_append] at hn
  obtain ⟨p, hp, hnext, hprev, hB, -⟩ := h.split (List.nodup_append'.mp hn).1
  ext1
  · rw [next_relink (hprev'.trans hprev), next_unlink hprev, Function.update_idem, ← hnext,
      Function.update_eq_self]
  · cases B with
    | nil => rw [prev_relink_of_none (hnext'.trans hB), prev_unlink_of_none hB]
    | cons b B =>
      rw [prev_relink (hnext'.trans hB.1), prev_unlink hB.1, Function.update_idem, ← hB.2.1,
        Function.update_eq_self]

end Links

end Distsys
