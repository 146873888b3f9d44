import Distsys.Labgob.CheckDefault
import Mathlib.Data.Fintype.Basic

/-!
# Complaints about fields that are not capitalized

All goroutines that encode, decode or register share the map `checked`. A type is expanded by the
goroutine that finds it first, so a field is never reported twice, whatever the goroutines do. That
every field of every type is reported at all is only certain when no goroutine is in a check any
more: a goroutine that finds a type checked goes on, although another one may not have come to its
fields yet.

## Main definitions

* `Reflection.Types.Mentions`, `Reflection.Types.LowerCaseField`
* `GobCheck.complaints` — what was reported
* `GobCheck.roots` — the types of the values that were checked

## Main results

* `GobCheck.checkType_complains_once`
-/

namespace Distsys

namespace Reflection

variable {τ : Type}

/-- The type `t` is made of `u`, and perhaps others. -/
inductive Types.Mentions (T : Types τ) (t : τ) : τ → Prop where
  | field {fields : List (StructField τ)} {f : StructField τ} (h : T.kind t = .struct fields)
      (hf : f ∈ fields) : Mentions T t f.type
  | slice {elem : τ} (h : T.kind t = .slice elem) : Mentions T t elem
  | array {elem : τ} (h : T.kind t = .array elem) : Mentions T t elem
  | ptr {elem : τ} (h : T.kind t = .ptr elem) : Mentions T t elem
  | key {key elem : τ} (h : T.kind t = .map key elem) : Mentions T t key
  | elem {key elem : τ} (h : T.kind t = .map key elem) : Mentions T t elem

/-- Field `i` of the struct type `t` is not capitalized. -/
def Types.LowerCaseField (T : Types τ) (t : τ) (i : ℕ) (name : GoString) : Prop :=
  ∃ fields f, T.kind t = .struct fields ∧ fields[i]? = some f ∧ T.lowerCase f = true ∧
    f.name = name

end Reflection

namespace GobCheck

open GoString Reflection
open Marking (Work)

variable {τ ν : Type} {T : Types τ} {V : Values τ ν}

/-! ### One type

The body of `checkType` for a type that is not marked yet, seen from outside: which types it calls
itself with, and about which fields it complains. -/

/-- A complaint. -/
def Report.lowerCase? : Report τ → Option (τ × ℕ × GoString)
  | .lowerCase t i name => some (t, i, name)
  | _ => none

/-- What `checkType` calls itself with. -/
theorem mem_visits_expand {t u : τ} : u ∈ Marking.visits (expand T t) ↔ T.Mentions t u := by
  rw [Marking.mem_visits, expand]
  constructor
  · intro h
    cases hk : T.kind t with
    | struct fields =>
      simp only [hk, List.mem_flatMap] at h
      obtain ⟨⟨f, i⟩, hf, h⟩ := h
      have hmem := List.fst_mem_of_mem_zipIdx hf
      rcases List.mem_append.mp h with h | h
      · split at h <;> simp at h
      · obtain rfl : u = f.type := by simpa using h
        exact .field hk hmem
    | slice elem =>
      obtain rfl : u = elem := by simpa [hk] using h
      exact .slice hk
    | array elem =>
      obtain rfl : u = elem := by simpa [hk] using h
      exact .array hk
    | ptr elem =>
      obtain rfl : u = elem := by simpa [hk] using h
      exact .ptr hk
    | map key elem =>
      have hu : u = elem ∨ u = key := by simpa [hk] using h
      rcases hu with rfl | rfl
      · exact .elem hk
      · exact .key hk
    | basic | other => simp [hk] at h
  · intro h
    cases h with
    | @field fields f h hf =>
      obtain ⟨i, hi⟩ := List.mem_iff_getElem?.mp hf
      simp only [h, List.mem_flatMap]
      exact ⟨(f, i), List.mk_mem_zipIdx_iff_getElem?.mpr hi,
        List.mem_append_right _ (List.mem_singleton_self _)⟩
    | slice h | array h | ptr h | key h | elem h => simp [h]

/-- The loop over the fields complains about those that are not capitalized. -/
theorem emits_fields (T : Types τ) (t : τ) (fields : List (StructField τ × ℕ)) :
    Marking.emits (fields.flatMap fun (f, i) =>
        (if T.lowerCase f then [.emit (.lowerCase t i f.name)] else []) ++ [.visit f.type]) =
      (fields.filter fun x => T.lowerCase x.1).map fun x => Report.lowerCase t x.2 x.1.name := by
  induction fields with
  | nil => rfl
  | cons x fields ih =>
    obtain ⟨f, i⟩ := x
    rw [List.flatMap_cons, Marking.emits_append, ih, List.filter_cons]
    cases h : T.lowerCase f <;> simp [h, Marking.emits]

theorem mem_emits_expand {t : τ} {r : Report τ} : r ∈ Marking.emits (expand T t) ↔
    ∃ i name, r = .lowerCase t i name ∧ T.LowerCaseField t i name := by
  cases hk : T.kind t with
  | struct fields =>
    rw [expand, hk]
    simp only [emits_fields, List.mem_map, List.mem_filter, List.mem_zipIdx_iff_getElem?]
    constructor
    · rintro ⟨x, ⟨hx, hlower⟩, rfl⟩
      exact ⟨x.2, x.1.name, rfl, fields, x.1, hk, hx, hlower, rfl⟩
    · rintro ⟨i, name, rfl, fields', f, hk', hf, hlower, rfl⟩
      cases hk.symm.trans hk'
      exact ⟨(f, i), ⟨hf, hlower⟩, rfl⟩
  | _ =>
    simp [expand, hk, Marking.emits, Types.LowerCaseField]

theorem nodup_emits_expand (T : Types τ) (t : τ) : (Marking.emits (expand T t)).Nodup := by
  cases hk : T.kind t with
  | struct fields =>
    rw [expand, hk]
    simp only [emits_fields]
    -- a complaint contains the index of its field
    refine List.Nodup.of_map (fun r : Report τ => r.lowerCase?.map fun x => x.2.1) ?_
    have hsnd : (fields.zipIdx.map Prod.snd).Nodup := by
      rw [List.zipIdx_map_snd]
      exact List.nodup_range'
    have hsome := (hsnd.sublist ((List.filter_sublist
      (p := fun x => T.lowerCase x.1)).map Prod.snd)).map (Option.some_injective ℕ)
    rw [List.map_map] at hsome ⊢
    exact hsome
  | _ => simp [expand, hk, Marking.emits]

/-- Different types have different complaints. -/
theorem nodup_flatMap_emits (T : Types τ) {marked : List τ} (h : marked.Nodup) :
    (marked.flatMap fun t => Marking.emits (expand T t)).Nodup := by
  refine List.nodup_flatMap.mpr ⟨fun t _ => nodup_emits_expand T t, h.imp fun {t u} hne => ?_⟩
  intro r hr hr'
  obtain ⟨_, _, rfl, _⟩ := mem_emits_expand.mp hr
  obtain ⟨_, _, heq, _⟩ := mem_emits_expand.mp hr'
  cases heq
  exact hne rfl

/-! ### What is called

`Encode`, `Decode`, `Register` and `RegisterName` all call `checkType` with the type of their
argument. -/

/-- The types of the values that were encoded, registered or decoded into. -/
def roots (V : Values τ ν) (as : List (Action τ ν)) : List τ :=
  as.filterMap fun
    | .check t => t
    | .decode e => e.map V.type
    | .step _ => none

theorem visits_work (T : Types τ) (V : Values τ ν) (as : List (Action τ ν)) :
    Marking.visits (as.flatMap (Action.work T V)) = roots V as := by
  induction as with
  | nil => rfl
  | cons a as ih =>
    rw [List.flatMap_cons, Marking.visits_append, ih]
    cases a with
    | check t => cases t <;> rfl
    | decode e =>
      rw [Action.work, decode, Marking.visits_append, Marking.visits_map_emit]
      cases e <;> rfl
    | step k => rfl

/-! ### Whole runs

Complaints that were made and complaints that are still on a stack are together those of the marked
types. When all stacks are empty, the marked types are those that can be reached from the types that
were checked. -/

/-- The complaints. -/
def complaints (tr : List (Event τ)) : List (Report τ) := (reports tr).filter Report.isLowerCase

variable [DecidableEq τ]

/-- The marks know of no complaint that was not made for a type. -/
theorem complaints_perm {as : List (Action τ ν)} {c : System.Config (State τ) (Event τ)}
    (hc : (system T V).exec (system T V).start as = some c) :
    (complaints c.trace ++ (Marking.emits c.state.checks.todo).filter Report.isLowerCase).Perm
      (c.state.checks.marked.flatMap fun t => Marking.emits (expand T t)) := by
  have hI := Marking.inv_of_reachable (marking_of_reachable (System.reaches_of_exec hc))
  have hperm := hI.emitted.filter Report.isLowerCase
  have hwork : (Marking.emits (as.flatMap (Action.work T V))).filter Report.isLowerCase = [] := by
    rw [List.filter_eq_nil_iff]
    intro r hr
    rw [Marking.emits, List.filterMap_flatMap] at hr
    obtain ⟨a, _, hr⟩ := List.mem_flatMap.mp hr
    rw [isLowerCase_work hr]
    exact Bool.false_ne_true
  have hmarked : ∀ r ∈ c.state.checks.marked.flatMap fun t => Marking.emits (expand T t),
      r.isLowerCase = true := by
    intro r hr
    obtain ⟨t, _, hr⟩ := List.mem_flatMap.mp hr
    exact isLowerCase_expand hr
  rw [List.filter_append, List.filter_append, emitted_marks, called_marks hc, hwork,
    List.nil_append] at hperm
  exact hperm.trans (List.Perm.of_eq (List.filter_eq_self.mpr hmarked))

/-- The potential of the checks: what types that are not checked can still lead to. -/
def potential [Fintype τ] (T : Types τ) (V : Values τ ν) :
    (system T V).Potential fun a => Marking.pay (a.marking T V) where
  value s := (Marking.potential (expand T)).value s.checks
  step_lt {s a s' es} h := by
    have hn : (system T V).next ⟨s, []⟩ a = some ⟨s', es⟩ :=
      System.next_eq_some_iff.mpr ⟨es, h, rfl⟩
    exact (Marking.potential (expand T)).next_lt (marks_next hn)

/-- A type was to be checked: it is part of the type of a value that was given to the package. -/
def Exposed (T : Types τ) (V : Values τ ν) (as : List (Action τ ν)) (t : τ) : Prop :=
  ∃ r ∈ roots V as, Relation.ReflTransGen T.Mentions r t

theorem reached_iff {as : List (Action τ ν)} {c : System.Config (State τ) (Event τ)}
    (hc : (system T V).exec (system T V).start as = some c) {t : τ} :
    Marking.Reached (expand T) (marks c).trace t ↔ Exposed T V as t := by
  have hrel : (fun x y => y ∈ Marking.visits (expand T x)) = T.Mentions := by
    funext x y
    exact propext mem_visits_expand
  rw [Marking.Reached, called_marks hc, visits_work, hrel, Exposed]

/-- **Every field that is not capitalized is reported, and only once.** In every run, whatever is
encoded, decoded and registered by whom, no complaint is made twice, and each is about a field of
a type that is part of the type of some value. When no goroutine is in a check, all such fields have
been reported, and `errorCount` is the number of complaints and warnings. All checks together have
boundedly many steps, although types can be recursive. -/
theorem checkType_complains_once [Fintype τ] (T : Types τ) (V : Values τ ν)
    (as : List (Action τ ν)) (c : System.Config (State τ) (Event τ))
    (hc : (system T V).exec (system T V).start as = some c) :
    (complaints c.trace).Nodup ∧
    (∀ r ∈ complaints c.trace, ∃ t i name, r = .lowerCase t i name ∧ Exposed T V as t ∧
      T.LowerCaseField t i name) ∧
    (c.state.checks.Done → ∀ t i name, Exposed T V as t → T.LowerCaseField t i name →
      .lowerCase t i name ∈ complaints c.trace) ∧
    c.state.errorCount = (reports c.trace).countP (fun r => r ≠ .panic) ∧
    as.length ≤ ∑ t, (expand T t).length +
      (as.map fun a => Marking.pay (a.marking T V)).sum := by
  have hreach := System.reaches_of_exec hc
  have hmark := marking_of_reachable hreach
  have hI := Marking.inv_of_reachable hmark
  have hperm := complaints_perm hc
  refine ⟨?_, fun r hr => ?_, fun hdone t i name ht hfield => ?_, errorCount_eq hreach, ?_⟩
  · exact (hperm.nodup_iff.mpr (nodup_flatMap_emits T hI.nodup)).of_append_left
  · obtain ⟨t, ht, hr⟩ := List.mem_flatMap.mp (hperm.mem_iff.mp (List.mem_append_left _ hr))
    obtain ⟨i, name, rfl, hfield⟩ := mem_emits_expand.mp hr
    exact ⟨t, i, name, rfl, (reached_iff hc).mp (hI.reached t (Or.inl ht)), hfield⟩
  · have ht' := (Marking.mem_marked_iff hmark hdone).mpr ((reached_iff hc).mpr ht)
    have hin := hperm.mem_iff.mpr (List.mem_flatMap.mpr
      ⟨t, ht', mem_emits_expand.mpr ⟨i, name, rfl, hfield⟩⟩)
    have htodo : c.state.checks.todo = [] := hdone.todo_eq
    rw [htodo] at hin
    exact (List.mem_append.mp hin).resolve_right (List.not_mem_nil)
  · have hlen := (potential T V).length_le hc
    have hstart : (potential T V).value (system T V).start.state =
        ∑ t, (expand T t).length := by
      simp [potential, Marking.potential, system, System.start, Marking.State.todo,
        Marking.unexpanded]
    omega

/-- The type `[]map[*T4]int`, where `T4` has the fields `Yes int` and `no *T4`: `0` is the slice,
`1` the map, `2` is `*T4`, `3` is `T4` and `4` is `int`. -/
def capitalTypes : Types (Fin 5) where
  kind t := match t.val with
    | 0 => .slice ⟨1, by decide⟩
    | 1 => .map ⟨2, by decide⟩ ⟨4, by decide⟩
    | 2 => .ptr ⟨3, by decide⟩
    | 3 => .struct [⟨lit "Yes", ⟨4, by decide⟩, false⟩, ⟨lit "no", ⟨2, by decide⟩, false⟩]
    | _ => .basic
  name _ := []
  isUpper rune := 65 ≤ rune && rune ≤ 90

/-- No values are decoded into. -/
def noValues : Values (Fin 5) Empty := ⟨nofun, nofun, nofun, nofun⟩

/-- One goroutine encodes a `[]map[*T4]int` and another one a `T4`. The second one is at the field
`no` when the first one finds `T4` checked, and goes on. -/
def capitalRun : List (Action (Fin 5) Empty) :=
  [.check (some ⟨0, by decide⟩), .check (some ⟨3, by decide⟩), .step 1, .step 1, .step 0, .step 0,
    .step 0, .step 0, .step 0, .step 1, .step 1]

/-- In `capitalRun` the field `no` is reported once. -/
theorem checkType_complains_once_capitalRun :
    ∃ c, (system capitalTypes noValues).exec (system capitalTypes noValues).start capitalRun =
        some c ∧ c.state.checks.Done ∧ (complaints c.trace).Nodup ∧
      .lowerCase ⟨3, by decide⟩ 1 (lit "no") ∈ complaints c.trace := by
  have hrun : ((system capitalTypes noValues).exec (system capitalTypes noValues).start
      capitalRun).any (fun c => decide (∀ w ∈ c.state.checks.walkers, w = [])) = true := by
    decide +kernel
  obtain ⟨c, hc, h⟩ := (Option.any_eq_true _ _).mp hrun
  have hdone : c.state.checks.Done := by
    rw [Marking.State.Done]
    exact of_decide_eq_true h
  obtain ⟨hnodup, _, hall, _⟩ := checkType_complains_once capitalTypes noValues capitalRun c hc
  refine ⟨c, hc, hdone, hnodup, hall hdone ⟨3, by decide⟩ 1 (lit "no") ?_ ?_⟩
  · exact ⟨⟨3, by decide⟩, by decide +kernel, .refl⟩
  · exact ⟨_, _, rfl, rfl, by decide +kernel, rfl⟩

end GobCheck

end Distsys
