import Distsys.Labgob.Basic

/-!
# Warnings about values that are not zero

`checkDefault1` goes through fields and pointers, at most two hops deep, and looks at the values of
basic kinds it comes to. `Decode` gets a pointer, which is the first hop. So of a struct it sees the
fields, but nothing of the structs in it or behind its pointers.

It panics where it comes to a basic value through a field that is not exported, since
`value.Interface()` does, before it can tell whether the value is zero. Then the program ends.

A warning is counted like a complaint, and printed only if nothing was counted before it. So of all
warnings of a program one is printed, or none.

## Main definitions

* `GobCheck.Leads` — the way from a value to another one
* `GobCheck.Report.Of` — what is reported about a value of a basic kind
* `GobCheck.Reporting` — the traces of the package

## Main results

* `GobCheck.mem_checkDefault1`
* `GobCheck.mem_checkDefault_ptr` — what `Decode` sees of a struct
* `GobCheck.reports_perm` — what is reported, once everything is done
* `GobCheck.checkDefault_warns_first`
-/

namespace Distsys

namespace GobCheck

open GoString Reflection
open Marking (Work)

variable {τ ν : Type} {T : Types τ} {V : Values τ ν}

/-- The name of a field, behind the name of its struct. -/
def qualify (name field : GoString) : GoString :=
  if name ≠ [] then name ++ lit "." ++ field else field

/-- From one value to another in a number of hops, with the flags and the name on the way. -/
inductive Leads (T : Types τ) (V : Values τ ν) :
    ℕ → ν → Flags → GoString → ν → Flags → GoString → Prop where
  | here {value : ν} {fl : Flags} {name : GoString} : Leads T V 0 value fl name value fl name
  | field {n i : ℕ} {value leaf : ν} {fl fl' : Flags} {name name' : GoString}
      {fields : List (StructField τ)} {f : StructField τ}
      (hk : T.kind (V.type value) = .struct fields) (hf : fields[i]? = some f)
      (h : Leads T V n (V.field value i) (fl.field T f) (qualify name f.name) leaf fl' name') :
    Leads T V (n + 1) value fl name leaf fl' name'
  | elem {n : ℕ} {value value' leaf : ν} {fl fl' : Flags} {name name' : GoString} {t : τ}
      (hk : T.kind (V.type value) = .ptr t) (he : V.elem value = some value')
      (h : Leads T V n value' fl name leaf fl' name') :
    Leads T V (n + 1) value fl name leaf fl' name'

/-- What is reported about a value of a basic kind. -/
def Report.Of (T : Types τ) (V : Values τ ν) (leaf : ν) (fl : Flags) (name : GoString)
    (r : Report τ) : Prop :=
  T.kind (V.type leaf) = .basic ∧
    (fl.readOnly = true ∧ r = .panic ∨
      fl.readOnly = false ∧ V.isZero leaf = false ∧
        r = .nonDefault (if name = [] then T.name (V.type leaf) else name))

/-- **What `checkDefault1` finds.** -/
theorem mem_checkDefault1 {left : ℕ} {value : ν} {fl : Flags} {name : GoString} {r : Report τ} :
    r ∈ checkDefault1 T V left value fl name ↔
      ∃ n < left, ∃ leaf fl' name', Leads T V n value fl name leaf fl' name' ∧
        r.Of T V leaf fl' name' := by
  induction left generalizing value fl name with
  | zero => simp [checkDefault1]
  | succ left ih =>
    constructor
    · intro h
      simp only [checkDefault1] at h
      split at h
      · rename_i fields hk
        obtain ⟨⟨f, i⟩, hf, h⟩ := List.mem_flatMap.mp h
        obtain ⟨n, hn, leaf, fl', name', hl, hr⟩ := ih.mp h
        exact ⟨n + 1, by omega, leaf, fl', name',
          .field hk (List.mk_mem_zipIdx_iff_getElem?.mp hf) hl, hr⟩
      · rename_i t hk
        split at h
        · cases h
        · rename_i value' he
          obtain ⟨n, hn, leaf, fl', name', hl, hr⟩ := ih.mp h
          exact ⟨n + 1, by omega, leaf, fl', name', .elem hk he hl, hr⟩
      · rename_i hk
        refine ⟨0, Nat.succ_pos _, value, fl, name, .here, hk, ?_⟩
        split at h
        · rename_i hro
          exact Or.inl ⟨hro, List.mem_singleton.mp h⟩
        · rename_i hro
          split at h
          · cases h
          · rename_i hzero
            exact Or.inr ⟨Bool.eq_false_of_not_eq_true hro, Bool.eq_false_of_not_eq_true hzero,
              List.mem_singleton.mp h⟩
      · cases h
    · rintro ⟨n, hn, leaf, fl', name', hl, hr⟩
      cases hl with
      | here =>
        obtain ⟨hk, ⟨hro, rfl⟩ | ⟨hro, hzero, rfl⟩⟩ := hr
        · simp [checkDefault1, hk, hro]
        · simp [checkDefault1, hk, hro, hzero]
      | field hk hf h =>
        simp only [checkDefault1, hk]
        refine List.mem_flatMap.mpr ⟨_, List.mk_mem_zipIdx_iff_getElem?.mpr hf, ?_⟩
        exact ih.mpr ⟨_, by omega, leaf, fl', name', h, hr⟩
      | elem hk he h =>
        simp only [checkDefault1, hk, he]
        exact ih.mpr ⟨_, by omega, leaf, fl', name', h, hr⟩

/-- What `Decode` sees of a struct that it gets a pointer to. -/
theorem mem_checkDefault_ptr {value s : ν} {t : τ} {fields : List (StructField τ)}
    (hp : T.kind (V.type value) = .ptr t) (he : V.elem value = some s)
    (hs : T.kind (V.type s) = .struct fields) {r : Report τ} :
    r ∈ checkDefault T V (some value) ↔
      ∃ i f, fields[i]? = some f ∧
        r.Of T V (V.field s i) (Flags.field T ⟨false, false⟩ f) f.name := by
  rw [checkDefault, mem_checkDefault1]
  constructor
  · rintro ⟨n, hn, leaf, fl, name, hl, hr⟩
    -- the first hop is the pointer, the second one a field, and there is no third one
    cases hl with
    | here => cases hp.symm.trans hr.1
    | field hk => cases hp.symm.trans hk
    | elem hk he' hl =>
      cases he.symm.trans he'
      cases hl with
      | here => cases hs.symm.trans hr.1
      | elem hk => cases hs.symm.trans hk
      | field hk hf hl =>
        cases hs.symm.trans hk
        cases hl with
        | here => exact ⟨_, _, hf, hr⟩
        | field => omega
        | elem => omega
  · rintro ⟨i, f, hf, hr⟩
    exact ⟨2, by decide, _, _, _, .elem hp he (.field hs hf .here), hr⟩

/-! ### The calls

Reports are of two kinds, complaints about types and findings about values. What a call finds in a
value is fixed when it is made. -/

/-- A complaint of `checkType`. -/
def Report.isLowerCase : Report τ → Bool
  | .lowerCase .. => true
  | _ => false

theorem Report.Of.isLowerCase {leaf : ν} {fl : Flags} {name : GoString} {r : Report τ}
    (h : r.Of T V leaf fl name) : r.isLowerCase = false := by
  obtain ⟨_, ⟨_, rfl⟩ | ⟨_, _, rfl⟩⟩ := h <;> rfl

/-- `checkDefault` comes to a value, and this is reported about it. -/
def Finds (T : Types τ) (V : Values τ ν) (value : ν) (r : Report τ) : Prop :=
  ∃ n < 3, ∃ leaf fl name, Leads T V n value ⟨false, false⟩ [] leaf fl name ∧ r.Of T V leaf fl name

/-- What is reported by a call, apart from the types. -/
theorem mem_emits_work {a : Action τ ν} {r : Report τ} : r ∈ Marking.emits (a.work T V) ↔
    r = .panic ∧ (a = .check none ∨ a = .decode none) ∨
      ∃ value, a = .decode (some value) ∧ Finds T V value r := by
  have hcheck : ∀ t : Option τ, r ∈ Marking.emits (checkValue t) ↔ r = .panic ∧ t = none := by
    rintro (_ | t) <;> simp [checkValue, Marking.emits]
  cases a with
  | check t => simp [Action.work, hcheck]
  | decode e =>
    rw [Action.work, decode, Marking.emits_append, Marking.emits_map_emit, List.mem_append, hcheck]
    cases e with
    | none => simp [checkDefault]
    | some value => simp [checkDefault, mem_checkDefault1, Finds]
  | step k => simp [Action.work, Marking.emits]

theorem isLowerCase_work {a : Action τ ν} {r : Report τ}
    (h : r ∈ Marking.emits (a.work T V)) : r.isLowerCase = false := by
  obtain ⟨rfl, _⟩ | ⟨_, _, _, _, _, _, _, _, hr⟩ := mem_emits_work.mp h
  · rfl
  · exact hr.isLowerCase

/-- `checkType` itself only complains. -/
theorem isLowerCase_expand {t : τ} {r : Report τ} (h : r ∈ Marking.emits (expand T t)) :
    r.isLowerCase = true := by
  rw [expand] at h
  cases hk : T.kind t with
  | struct fields =>
    simp only [hk, Marking.emits, List.filterMap_flatMap, List.mem_flatMap] at h
    obtain ⟨⟨f, i⟩, _, h⟩ := h
    cases hlower : T.lowerCase f with
    | true =>
      obtain rfl : r = Report.lowerCase t i f.name := by simpa [hlower] using h
      rfl
    | false => simp [hlower] at h
  | _ => simp [hk, Marking.emits] at h

/-! ### Whole runs

The counter is the number of reports so far. This makes the one that is printed the very first one
of all, and makes it silent if a complaint came before. -/

/-- The traces of the package: nothing comes after a panic, and a warning is printed if it is the
first report. -/
inductive Reporting : List (Event τ) → Prop where
  | nil : Reporting []
  | called {tr : List (Event τ)} {ws : List (Work τ (Report τ))} (h : Reporting tr)
      (hp : .panic ∉ reports tr) : Reporting (tr ++ [.called ws])
  | reported {tr : List (Event τ)} {r : Report τ} (h : Reporting tr)
      (hp : .panic ∉ reports tr) :
    Reporting (tr ++ [.reported r (r.printed (reports tr).length)])

/-- An event of a trace is the last one, or it was there before. -/
theorem split_concat {tr tr₁ tr₂ : List (Event τ)} {e x : Event τ}
    (h : tr ++ [e] = tr₁ ++ x :: tr₂) :
    (tr = tr₁ ∧ e = x ∧ tr₂ = []) ∨ ∃ tr₂', tr = tr₁ ++ x :: tr₂' := by
  rcases List.eq_nil_or_concat' tr₂ with rfl | ⟨tr₂', e', rfl⟩
  · obtain ⟨rfl, he⟩ := List.append_inj' h rfl
    exact Or.inl ⟨rfl, (List.cons.inj he).1, rfl⟩
  · rw [← List.cons_append, ← List.append_assoc] at h
    exact Or.inr ⟨tr₂', (List.append_inj' h rfl).1⟩

theorem mem_reports_of_split {tr tr₁ tr₂ : List (Event τ)} {r : Report τ} {b : Bool}
    (h : tr = tr₁ ++ .reported r b :: tr₂) : r ∈ reports tr := by
  rw [h, reports_append]
  exact List.mem_append_right _ List.mem_cons_self

/-- Any report of such a trace. -/
theorem Reporting.split {tr tr₁ tr₂ : List (Event τ)} {r : Report τ} {b : Bool} (h : Reporting tr)
    (ht : tr = tr₁ ++ .reported r b :: tr₂) :
    b = r.printed (reports tr₁).length ∧ (r = .panic → tr₂ = []) := by
  induction h generalizing tr₁ tr₂ with
  | nil => simp at ht
  | called h hp ih =>
    rcases split_concat ht with ⟨_, he, _⟩ | ⟨tr₂', ht'⟩
    · cases he
    · refine ⟨(ih ht').1, fun hr => ?_⟩
      exact absurd (hr ▸ mem_reports_of_split ht') hp
  | reported h hp ih =>
    rcases split_concat ht with ⟨rfl, he, rfl⟩ | ⟨tr₂', ht'⟩
    · cases he
      exact ⟨rfl, fun _ => rfl⟩
    · refine ⟨(ih ht').1, fun hr => ?_⟩
      exact absurd (hr ▸ mem_reports_of_split ht') hp

section Runs

variable [DecidableEq τ] {c : System.Config (State τ) (Event τ)}

theorem panicked_iff {ok : System.Config (State τ) (Event τ) → Action τ ν → Prop}
    (hc : (system T V).Reachable ok c) : c.state.panicked = true ↔ .panic ∈ reports c.trace := by
  refine System.Reachable.invariant (M := system T V)
    (P := fun c => c.state.panicked = true ↔ .panic ∈ reports c.trace) ?_ ?_ hc
  · simp [system, System.start, reports]
  · intro c a c' _ hI _ hn
    obtain ⟨es, _, _, ht, hp, hp'⟩ := next_eq hn
    rw [hp', ht, reports_append, List.mem_append, ← hI, hp, List.contains_iff_mem]
    simp only [Bool.false_eq_true, false_or, reports, List.mem_filterMap, List.mem_map]
    constructor
    · intro h
      exact ⟨_, ⟨_, h, rfl⟩, rfl⟩
    · rintro ⟨_, ⟨e, he, rfl⟩, h⟩
      cases e with
      | called ws => cases h
      | emitted r => cases h; exact he

theorem reporting_of_reachable {ok : System.Config (State τ) (Event τ) → Action τ ν → Prop}
    (hc : (system T V).Reachable ok c) : Reporting c.trace := by
  refine System.Reachable.invariant (M := system T V) (P := fun c => Reporting c.trace) .nil ?_ hc
  intro c a c' hc hI _ hn
  obtain ⟨es, hm, _, ht, hp, _⟩ := next_eq hn
  have hpanic : .panic ∉ reports c.trace := by
    rw [← panicked_iff hc, hp]
    exact Bool.false_ne_true
  have hcount : c.state.errorCount = (reports c.trace).length := by
    rw [errorCount_eq hc, List.countP_eq_length]
    intro r hr
    exact decide_eq_true fun h => hpanic (h ▸ hr)
  rw [ht, hcount]
  generalize c'.state.checks = checks at hm
  cases a with
  | check t | decode e =>
    cases Marking.steps_of_eq_some hm with
    | call => exact .called hI hpanic
  | step k =>
    cases Marking.steps_of_eq_some hm with
    | skip | mark => simpa using hI
    | emit => exact .reported hI hpanic

/-- **The warnings and panics of a run are those of its calls**, each as often as it was found. -/
theorem reports_perm {as : List (Action τ ν)}
    (hc : (system T V).exec (system T V).start as = some c) :
    ((reports c.trace ++ Marking.emits c.state.checks.todo).filter fun r => !r.isLowerCase).Perm
      (as.flatMap fun a => Marking.emits (a.work T V)) := by
  have hI := Marking.inv_of_reachable (marking_of_reachable (System.reaches_of_exec hc))
  have hperm := hI.emitted.filter fun r => !r.isLowerCase
  rw [emitted_marks, called_marks hc, List.filter_append _ (List.flatMap ..)] at hperm
  refine hperm.trans (List.Perm.of_eq ?_)
  have hwork : Marking.emits (as.flatMap (Action.work T V)) =
      as.flatMap fun a => Marking.emits (a.work T V) := List.filterMap_flatMap ..
  rw [hwork, List.filter_eq_self.mpr ?_, List.filter_eq_nil_iff.mpr ?_, List.append_nil]
  · intro r hr
    obtain ⟨t, _, hr⟩ := List.mem_flatMap.mp hr
    simp [isLowerCase_expand hr]
  · intro r hr
    obtain ⟨a, _, hr⟩ := List.mem_flatMap.mp hr
    simp [isLowerCase_work hr]

theorem mem_reports_iff {as : List (Action τ ν)}
    (hc : (system T V).exec (system T V).start as = some c) {r : Report τ}
    (hr : r.isLowerCase = false) :
    r ∈ reports c.trace ∨ r ∈ Marking.emits c.state.checks.todo ↔
      ∃ a ∈ as, r ∈ Marking.emits (a.work T V) := by
  have hmem := (reports_perm hc).mem_iff (a := r)
  rw [List.mem_filter, List.mem_append, List.mem_flatMap, hr] at hmem
  simpa using hmem

/-- **`Decode` warns if nothing was reported before.** In every run a warning is about a value that
`checkDefault` comes to from a value that was decoded into, and it is printed if and only if it is
the first report of the program. When no goroutine is in a check, the reports, apart from those
about types, are those that the calls were to make, one for each value and each time. A panic is the
last report, and its reason is a `nil` or a field that is not exported. -/
theorem checkDefault_warns_first (T : Types τ) (V : Values τ ν) (as : List (Action τ ν))
    (c : System.Config (State τ) (Event τ))
    (hc : (system T V).exec (system T V).start as = some c) :
    (∀ tr₁ what b tr₂, c.trace = tr₁ ++ .reported (.nonDefault what) b :: tr₂ →
      (b = true ↔ reports tr₁ = []) ∧
      ∃ value, .decode (some value) ∈ as ∧ Finds T V value (.nonDefault what)) ∧
    (c.state.checks.Done →
      ((reports c.trace).filter fun r => !r.isLowerCase).Perm
        (as.flatMap fun a => Marking.emits (a.work T V)) ∧
      ∀ value r, .decode (some value) ∈ as → Finds T V value r → r ∈ reports c.trace) ∧
    ∀ tr₁ b tr₂, c.trace = tr₁ ++ .reported .panic b :: tr₂ →
      tr₂ = [] ∧ (.check none ∈ as ∨ .decode none ∈ as ∨
        ∃ value, .decode (some value) ∈ as ∧ Finds T V value .panic) := by
  have hreporting := reporting_of_reachable (System.reaches_of_exec hc)
  refine ⟨fun tr₁ what b tr₂ ht => ?_, fun hdone => ⟨?_, fun value r hv hr => ?_⟩,
    fun tr₁ b tr₂ ht => ?_⟩
  · obtain ⟨a, ha, hr⟩ := (mem_reports_iff hc rfl).mp (Or.inl (mem_reports_of_split ht))
    refine ⟨?_, ?_⟩
    · rw [(hreporting.split ht).1, Report.printed, decide_eq_true_iff, Nat.lt_one_iff,
        List.length_eq_zero_iff]
    · obtain ⟨heq, _⟩ | ⟨value, rfl, hf⟩ := mem_emits_work.mp hr
      · cases heq
      · exact ⟨value, ha, hf⟩
  · have hperm := reports_perm hc
    rwa [hdone.todo_eq, Marking.emits, List.filterMap_nil, List.append_nil] at hperm
  · have hlower : r.isLowerCase = false := by
      obtain ⟨_, _, _, _, _, _, hr⟩ := hr
      exact hr.isLowerCase
    refine ((mem_reports_iff hc hlower).mpr
      ⟨_, hv, mem_emits_work.mpr (Or.inr ⟨value, rfl, hr⟩)⟩).resolve_right ?_
    rw [hdone.todo_eq]
    exact List.not_mem_nil
  · refine ⟨(hreporting.split ht).2 rfl, ?_⟩
    obtain ⟨a, ha, hr⟩ := (mem_reports_iff hc rfl).mp (Or.inl (mem_reports_of_split ht))
    obtain ⟨_, rfl | rfl⟩ | ⟨value, rfl, hf⟩ := mem_emits_work.mp hr
    · exact Or.inl ha
    · exact Or.inr (Or.inl ha)
    · exact Or.inr (Or.inr ⟨value, ha, hf⟩)

/-- `0` is `*T1`, and `1` is `T1` with the fields `A int` and `B int`. -/
def replyTypes : Types (Fin 3) where
  kind t := match t.val with
    | 0 => .ptr ⟨1, by decide⟩
    | 1 => .struct [⟨lit "A", ⟨2, by decide⟩, false⟩, ⟨lit "B", ⟨2, by decide⟩, false⟩]
    | _ => .basic
  name _ := []
  isUpper rune := 65 ≤ rune && rune ≤ 90

/-- A pointer `0` to a `T1` whose fields `2` and `3` are not zero. -/
def replyValues : Values (Fin 3) (Fin 4) where
  type v := match v.val with
    | 0 => ⟨0, by decide⟩
    | 1 => ⟨1, by decide⟩
    | _ => ⟨2, by decide⟩
  field _ i := if i = 0 then ⟨2, by decide⟩ else ⟨3, by decide⟩
  elem _ := some ⟨1, by decide⟩
  isZero _ := false

/-- A reply is decoded into a variable that was used before. -/
def replyRun : List (Action (Fin 3) (Fin 4)) :=
  .decode (some ⟨0, by decide⟩) :: List.replicate 6 (.step 0)

/-- In `replyRun` both fields are reported, and only the first one is printed. -/
theorem checkDefault_warns_first_replyRun :
    ∃ c, (system replyTypes replyValues).exec (system replyTypes replyValues).start replyRun =
        some c ∧ c.state.checks.Done ∧
      (∃ tr₁ tr₂, c.trace = tr₁ ++ .reported (.nonDefault (lit "B")) false :: tr₂ ∧
        reports tr₁ ≠ []) := by
  have hrun : ((system replyTypes replyValues).exec (system replyTypes replyValues).start
      replyRun).any (fun c => decide ((∀ w ∈ c.state.checks.walkers, w = []) ∧
        c.trace.drop 2 = [.reported (.nonDefault (lit "B")) false])) = true := by
    decide +kernel
  obtain ⟨c, hc, h⟩ := (Option.any_eq_true _ _).mp hrun
  obtain ⟨hdone, htrace⟩ := of_decide_eq_true h
  have ht : c.trace = c.trace.take 2 ++ .reported (.nonDefault (lit "B")) false :: [] := by
    rw [← htrace, List.take_append_drop]
  have hprinted := ((checkDefault_warns_first replyTypes replyValues replyRun c hc).1
    _ _ _ _ ht).1
  exact ⟨c, hc, hdone, _, _, ht, fun hnil => Bool.false_ne_true (hprinted.mpr hnil)⟩

end Runs

end GobCheck

end Distsys
