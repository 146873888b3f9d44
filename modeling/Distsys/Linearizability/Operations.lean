import Mathlib.Data.List.Flatten
import Distsys.Linearizability.Search

/-!
# Histories of operations

`makeEntries` numbers the operations of a history and sorts their calls and returns by time. The
order of entries with the same time is up to `sort.Sort`. Among calls, or among returns, it does not
matter. But a return that comes before a call at the same time makes one operation precede another
that began at the moment when it ended. If no return has the time of a call, one operation precedes
another in the list exactly if it returned before the other was called.

## Main definitions

* `Model.stepOperation`
* `Untied` — no operation returns at the time of a call
* `Timed` — times are different, and an operation is called before it returns

## Main results

* `paired_of_lt`, `Untied.precedes_iff`
* `Search.decides_operations` — `checkSingle` on the entries of a history
-/

namespace Distsys

namespace Linearizability

variable {σ ι ο : Type}

/-- `Step` with the input and the output of an operation; `none` if it is not accepted. -/
def Model.stepOperation (model : Model σ ι ο) (state : σ) (op : Operation ι ο) : Option σ :=
  model.accept state op.input op.output

/-- All times of a history are different, and every operation is called before it returns. -/
structure Timed (history : List (Operation ι ο)) : Prop where
  distinct : (history.flatMap fun op => [op.call, op.ret]).Nodup
  lt : ∀ op ∈ history, op.call < op.ret

/-- No operation returns before it is called, or at a time at which one is called. -/
structure Untied (history : List (Operation ι ο)) : Prop where
  le : ∀ op ∈ history, op.call ≤ op.ret
  ne : ∀ a ∈ history, ∀ b ∈ history, a.ret ≠ b.call

variable {history : List (Operation ι ο)}
  {sort : UnstableSort (Entry ι ο) fun a b => a.time < b.time}

/-- So are those of some of its operations. -/
theorem Timed.filter (h : Timed history) (p : Operation ι ο → Bool) : Timed (history.filter p) where
  distinct := h.distinct.sublist (List.filter_sublist.flatMap _)
  lt op hop := h.lt op (List.mem_of_mem_filter hop)

theorem Timed.untied (h : Timed history) : Untied history where
  le op hop := (h.lt op hop).le
  ne opa hopa opb hopb := by
    obtain ⟨a, hlta, rfl⟩ := List.mem_iff_getElem.mp hopa
    obtain ⟨b, hltb, rfl⟩ := List.mem_iff_getElem.mp hopb
    have hdisj := List.pairwise_iff_getElem.mp (List.nodup_flatMap.mp h.distinct).2
    rcases lt_trichotomy a b with hab | rfl | hab
    · intro heq
      exact hdisj a b hlta hltb hab (a := history[a].ret) (by simp) (by simp [heq])
    · exact (h.lt _ (List.getElem_mem hlta)).ne'
    · intro heq
      exact hdisj b a hltb hlta hab (a := history[b].call) (by simp) (by simp [heq])

theorem Untied.lt (h : Untied history) : ∀ op ∈ history, op.call < op.ret := fun op hop =>
  lt_of_le_of_ne (h.le op hop) (h.ne op hop op hop).symm

theorem Untied.perm {history' : List (Operation ι ο)} (h : Untied history)
    (hp : history'.Perm history) : Untied history' where
  le op hop := h.le op (hp.mem_iff.mp hop)
  ne a ha b hb := h.ne a (hp.mem_iff.mp ha) b (hp.mem_iff.mp hb)

/-! ### Entries

An operation is the number of its place in the history, so two operations with the same input,
output and times are still two. Its entries have this number, wherever the sort puts them. -/

/-- The call entry of operation `id`. -/
def Operation.callEntry (op : Operation ι ο) (id : ℕ) : Entry ι ο :=
  ⟨.callEntry op.input, id, op.call⟩

/-- The return entry of operation `id`. -/
def Operation.returnEntry (op : Operation ι ο) (id : ℕ) : Entry ι ο :=
  ⟨.returnEntry op.output, id, op.ret⟩

theorem mem_entriesFrom {e : Entry ι ο} {k : ℕ} : e ∈ entriesFrom k history ↔
    ∃ (i : ℕ) (op : Operation ι ο), history[i]? = some op ∧
      (e = op.callEntry (k + i) ∨ e = op.returnEntry (k + i)) := by
  induction history generalizing k with
  | nil => simp [entriesFrom]
  | cons op history ih =>
    rw [entriesFrom, List.mem_cons, List.mem_cons, ih]
    constructor
    · rintro (rfl | rfl | ⟨i, op', hi, he⟩)
      · exact ⟨0, op, rfl, Or.inl rfl⟩
      · exact ⟨0, op, rfl, Or.inr rfl⟩
      · exact ⟨i + 1, op', hi, by rwa [Nat.add_right_comm] at he⟩
    · rintro ⟨i, op', hi, he⟩
      cases i with
      | zero =>
        cases hi
        exact he.imp id Or.inl
      | succ i => exact Or.inr (Or.inr ⟨i, op', hi, by rwa [Nat.add_right_comm]⟩)

/-- The entries of one operation. -/
theorem filter_entriesFrom {i : ℕ} {op : Operation ι ο} (hi : history[i]? = some op) (k : ℕ) :
    (entriesFrom k history).filter (fun e => e.id = k + i) =
      [op.callEntry (k + i), op.returnEntry (k + i)] := by
  induction history generalizing i k with
  | nil => cases hi
  | cons op' history ih =>
    cases i with
    | zero =>
      cases hi
      have hnil : (entriesFrom (k + 1) history).filter (fun e => e.id = k) = [] := by
        refine List.filter_eq_nil_iff.mpr fun e he heq => ?_
        have hid : e.id = k := of_decide_eq_true heq
        obtain ⟨j, _, _, rfl | rfl⟩ := mem_entriesFrom.mp he
        · exact absurd hid (show k + 1 + j ≠ k by omega)
        · exact absurd hid (show k + 1 + j ≠ k by omega)
      simp [entriesFrom, hnil, Operation.callEntry, Operation.returnEntry]
    | succ i =>
      have hrest := ih hi (k + 1)
      rw [entriesFrom, List.filter_cons_of_neg (by simp), List.filter_cons_of_neg (by simp),
        show k + (i + 1) = k + 1 + i by omega]
      exact hrest

theorem mem_makeEntries {e : Entry ι ο} : e ∈ makeEntries sort history ↔
    ∃ (i : ℕ) (op : Operation ι ο), history[i]? = some op ∧
      (e = op.callEntry i ∨ e = op.returnEntry i) := by
  rw [makeEntries, (sort.perm _).mem_iff, mem_entriesFrom]
  simp only [Nat.zero_add]

theorem eq_of_perm_pair {β : Type} {l : List β} {a b : β} (h : l.Perm [a, b]) :
    l = [a, b] ∨ l = [b, a] := by
  obtain ⟨x, y, rfl⟩ := List.length_eq_two.mp h.length_eq
  have hx : x = a ∨ x = b := by simpa using h.mem_iff.mp List.mem_cons_self
  rcases hx with rfl | rfl
  · rw [List.singleton_perm_singleton.mp h.cons_inv]
    exact Or.inl rfl
  · rw [List.singleton_perm_singleton.mp (h.trans (List.Perm.swap _ _ _)).cons_inv]
    exact Or.inr rfl

/-- The entries of one operation, in either order. -/
theorem filter_makeEntries (sort : UnstableSort (Entry ι ο) fun a b => a.time < b.time) {i : ℕ}
    {op : Operation ι ο} (hi : history[i]? = some op) :
    (makeEntries sort history).filter (fun e => e.id = i) = [op.callEntry i, op.returnEntry i] ∨
      (makeEntries sort history).filter (fun e => e.id = i) =
        [op.returnEntry i, op.callEntry i] := by
  have hperm := (sort.perm (entriesFrom 0 history)).filter fun e => e.id = i
  have hfilter := filter_entriesFrom hi 0
  rw [Nat.zero_add] at hfilter
  rw [hfilter] at hperm
  exact eq_of_perm_pair hperm

/-- **The entries of a history are paired.** -/
theorem paired_of_lt (h : ∀ op ∈ history, op.call < op.ret) :
    Paired history.length (makeEntries sort history) := by
  refine ⟨fun e he => ?_, fun id hid => ?_⟩
  · obtain ⟨i, op, hi, rfl | rfl⟩ := mem_makeEntries.mp he <;>
      exact (List.getElem?_eq_some_iff.mp hi).1
  · refine ⟨history[id].input, history[id].call, history[id].output, history[id].ret, ?_⟩
    rcases filter_makeEntries sort (List.getElem?_eq_getElem hid) with heq | heq
    · exact heq
    · -- the return cannot come first
      have hsorted := (sort.sorted (entriesFrom 0 history)).filter fun e => e.id = id
      rw [← makeEntries, heq] at hsorted
      exact absurd (h _ (List.getElem_mem hid))
        ((List.pairwise_cons.mp hsorted).1 _ (List.mem_singleton.mpr rfl))

/-- The operation an entry belongs to. -/
theorem operation_of_mem {e : Entry ι ο} (he : e ∈ makeEntries sort history) :
    ∃ op, history[e.id]? = some op ∧ (e = op.callEntry e.id ∨ e = op.returnEntry e.id) := by
  obtain ⟨i, op, hi, rfl | rfl⟩ := mem_makeEntries.mp he
  · exact ⟨op, hi, Or.inl rfl⟩
  · exact ⟨op, hi, Or.inr rfl⟩

/-- The entries are sorted by time. -/
theorem time_le_of_lt {i j : ℕ} {e e' : Entry ι ο} (hi : (makeEntries sort history)[i]? = some e)
    (hj : (makeEntries sort history)[j]? = some e') (hij : i < j) : e.time ≤ e'.time := by
  obtain ⟨hlti, rfl⟩ := List.getElem?_eq_some_iff.mp hi
  obtain ⟨hltj, rfl⟩ := List.getElem?_eq_some_iff.mp hj
  exact not_lt.mp
    (List.pairwise_iff_getElem.mp (sort.sorted (entriesFrom 0 history)) i j hlti hltj hij)

/-- **`Precedes` is real time.** -/
theorem Untied.precedes_iff (h : Untied history) {a b : ℕ} {opa opb : Operation ι ο}
    (ha : history[a]? = some opa) (hb : history[b]? = some opb) :
    Precedes (makeEntries sort history) a b ↔ opa.ret < opb.call := by
  constructor
  · rintro ⟨i, j, hij, ⟨output, t, hi⟩, input, t', hj⟩
    obtain ⟨op, hop, heq | heq⟩ := operation_of_mem (List.mem_of_getElem? hi)
    · cases heq
    · obtain ⟨op', hop', heq' | heq'⟩ := operation_of_mem (List.mem_of_getElem? hj)
      · cases ha.symm.trans hop
        cases hb.symm.trans hop'
        rw [heq] at hi
        rw [heq'] at hj
        exact lt_of_le_of_ne (time_le_of_lt hi hj hij)
          (h.ne opa (List.mem_of_getElem? ha) opb (List.mem_of_getElem? hb))
      · cases heq'
  · intro hlt
    obtain ⟨i, hi⟩ := List.mem_iff_getElem?.mp
      (mem_makeEntries.mpr ⟨a, opa, ha, Or.inr rfl⟩ : opa.returnEntry a ∈ makeEntries sort history)
    obtain ⟨j, hj⟩ := List.mem_iff_getElem?.mp
      (mem_makeEntries.mpr ⟨b, opb, hb, Or.inl rfl⟩ : opb.callEntry b ∈ makeEntries sort history)
    refine ⟨i, j, ?_, ⟨_, _, hi⟩, _, _, hj⟩
    rcases lt_trichotomy i j with hij | rfl | hij
    · exact hij
    · cases hi.symm.trans hj
    · exact absurd hlt (not_lt.mpr (time_le_of_lt hj hi hij))

/-- The operations of the entries are those of the history. -/
theorem applyOp_eq_of_lt (h : ∀ op ∈ history, op.call < op.ret) {a : ℕ} {op : Operation ι ο}
    (ha : history[a]? = some op) (model : Model σ ι ο) (state : σ) :
    applyOp model.accept (makeEntries sort history) state a = model.stepOperation state op := by
  obtain ⟨c, r, input, t, output, t', -, hc, hr, -, hinput, houtput⟩ :=
    (paired_of_lt h : Paired _ (makeEntries sort history)).pair a
      (List.getElem?_eq_some_iff.mp ha).1 |>.exists_pointers
  obtain ⟨op₁, hop₁, heq₁ | heq₁⟩ :=
    operation_of_mem (List.mem_reverse.mp (List.mem_of_getElem? hc))
  · obtain ⟨op₂, hop₂, heq₂ | heq₂⟩ :=
      operation_of_mem (List.mem_reverse.mp (List.mem_of_getElem? hr))
    · cases heq₂
    · cases ha.symm.trans hop₁
      cases ha.symm.trans hop₂
      cases heq₁
      cases heq₂
      exact applyOp_eq hinput houtput
  · cases heq₁

/-- **`checkSingle` on a history.** -/
theorem Search.decides_operations {model : Model σ ι ο} (hequal : model.LawfulEqual)
    (h : Untied history) {list : Builder ι ο} (hB : Built (makeEntries sort history) list) :
    ∃ s s' verdict, Search.start model list.heap list.root = some s ∧ Search.Reach model s s' ∧
      s'.step model false = some (.inr verdict) ∧
      (verdict = true ↔ Linearizable (fun a b => a.ret < b.call) model.stepOperation model.init
        history) := by
  obtain ⟨s, s', verdict, hstart, hreach, hret, hiff⟩ :=
    Search.decides hequal (paired_of_lt h.lt) hB
  refine ⟨s, s', verdict, hstart, hreach, hret, hiff.trans ?_⟩
  have hget : ∀ i : Fin history.length, history[i.val]? = some (history.get i) := fun i =>
    List.getElem?_eq_getElem i.isLt
  rw [← List.map_coe_finRange_eq_range, linearizable_map]
  conv_rhs => rw [← List.map_get_finRange history, linearizable_map]
  have hprec : (fun a b : Fin history.length => Precedes (makeEntries sort history) a b) =
      fun a b => (history.get a).ret < (history.get b).call :=
    funext fun a => funext fun b => propext (h.precedes_iff (hget a) (hget b))
  have hstep : (fun s (a : Fin history.length) =>
        applyOp model.accept (makeEntries sort history) s a) =
      fun s a => model.stepOperation s (history.get a) :=
    funext fun s => funext fun a => applyOp_eq_of_lt h.lt (hget a) model s
  rw [hprec, hstep]

end Linearizability

end Distsys
