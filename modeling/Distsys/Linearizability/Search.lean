import Distsys.Linearizability.Lifting

/-!
# The search is correct

A *level* of the search is what it does between two moments with the same operations taken out. From
the beginning of a level on, the search either returns `true`, or it comes to a return entry with
the heap, the bitset, the stack and the state of the model as they were; then there is no
linearization of what is left. `Search.explore` shows this by induction on the number of operations
left, and within a level on the nodes that are still ahead. This gives termination as well, since
every level ends.

The cache may have any entries about configurations with as many operations left as now, or more: it
is only asked about configurations with one operation less. All of those that are in the cache have
no linearization, and this is what a level passes on to the next.

## The cache

The source asks for a configuration in the cache by hash, and then compares bitset and state. With a
lawful `Equal` a hit is a configuration with the same operations taken out and an equivalent state,
which was entered when the search took this operation out before. The search went down from there
and came back, or it would have returned; so there is nothing to find.

The hash has no part in this. It may be any function of the bitset, as equal bitsets have equal
hashes.

## Main definitions

* `Model.LawfulEqual`
* `Level`, `Scanned`, `CacheSound`, `Exhausted`

## Main results

* `Search.explore`
* `checkSingle_sound_complete`
-/

namespace Distsys

namespace Linearizability

variable {σ ι ο : Type}

/-- `Equal` is an equivalence, and `Step` does not tell equal states apart. -/
structure Model.LawfulEqual (model : Model σ ι ο) : Prop where
  equivalence : Equivalence fun s t => model.equal s t = true
  step : ∀ s t, model.equal s t = true → ∀ input output,
    (model.step s input output).1 = (model.step t input output).1 ∧
      model.equal (model.step s input output).2 (model.step t input output).2 = true

/-- Equality is lawful. -/
theorem Model.lawfulEqual_of_eq {model : Model σ ι ο} (h : ∀ s t, model.equal s t = true ↔ s = t) :
    model.LawfulEqual where
  equivalence := by simpa only [h] using eq_equivalence
  step s t hst input output := by
    rw [(h s t).mp hst]
    exact ⟨rfl, (h _ _).mpr rfl⟩

/-! ### Rounds of the loop

One lemma for each way through the body of the loop. They are stated with the nodes that are
dereferenced, not with lists, so that they hold of any heap. -/

section Rounds

variable {model : Model σ ι ο} {s : Search σ ι ο} {head : Node ι ο}

/-- The list is empty. -/
theorem Search.step_of_empty (hhead : s.heap.deref (some s.headEntry) = some head)
    (hnext : head.next = none) (kill : Bool) : s.step model kill = some (.inr true) := by
  simp only [step, hhead, Option.bind_eq_bind, Option.bind_some, hnext, if_true]
  rfl

/-- The state after an operation has been taken out. -/
def Search.pushed (s : Search σ ι ο) (heap : Heap ι ο) (b : Bitset) (newState : σ)
    (next : Option ℕ) : Search σ ι ο where
  heap := heap
  headEntry := s.headEntry
  entry := next
  linearized := b
  cache := Function.update s.cache b.hash (s.cache b.hash ++ [⟨b, newState⟩])
  calls := (s.entry, s.state) :: s.calls
  state := newState

/-- The search is at a call. -/
theorem Search.step_of_call (hhead : s.heap.deref (some s.headEntry) = some head)
    (hnext : head.next ≠ none) {entry matching : Node ι ο}
    (hentry : s.heap.deref s.entry = some entry)
    (hmatch : entry.matching ≠ none) (hmatching : s.heap.deref entry.matching = some matching)
    {ok : Bool} {newState : σ}
    (hvalues : model.stepValues s.state entry.value matching.value = some (ok, newState))
    {b : Bitset} (hset : s.linearized.set entry.id = some b) :
    s.step model false =
      if ok = true ∧ cacheContains model s.cache ⟨b, newState⟩ = false then
        (s.heap.lift s.entry).bind fun heap => (heap.deref (some s.headEntry)).map fun head =>
          .inl (s.pushed heap b newState head.next)
      else some (.inl { s with entry := entry.next }) := by
  simp only [step, hhead, Option.bind_eq_bind, Option.bind_some, hnext, if_false, hentry, hmatch,
    ne_eq, not_false_eq_true, if_true, hmatching, hvalues, hset]
  cases ok
  · simp
  · cases cacheContains model s.cache ⟨b, newState⟩
    · simp [Option.map_eq_bind, pushed]
    · simp

/-- The search is at a return: the operation on top of the stack is put back. -/
theorem Search.step_of_unlift (hhead : s.heap.deref (some s.headEntry) = some head)
    (hnext : head.next ≠ none) {entry node node' : Node ι ο}
    (hentry : s.heap.deref s.entry = some entry) (hmatch : entry.matching = none)
    {top : Option ℕ} {state : σ} {calls : List (Option ℕ × σ)}
    (hcalls : s.calls = (top, state) :: calls) (hnode : s.heap.deref top = some node)
    {b : Bitset} (hclear : s.linearized.clear node.id = some b)
    {heap : Heap ι ο} (hunlift : s.heap.unlift top = some heap)
    (hnode' : heap.deref top = some node') :
    s.step model false =
      some (.inl { s with heap, linearized := b, calls, state, entry := node'.next }) := by
  simp only [step, hhead, Option.bind_eq_bind, Option.bind_some, hnext, if_false, hentry, hmatch,
    ne_eq, not_true_eq_false, hcalls, hnode, hclear, hunlift, hnode']
  rfl

/-- The level below is at a return: the operation is put back. -/
theorem Search.step_of_return {heap : Heap ι ο} {b : Bitset} {newState : σ} {next : Option ℕ}
    {q : ℕ}
    {cache : BitVec 64 → List (CacheEntry σ)} {node node₁ node₂ : Node ι ο}
    (hhead : heap.deref (some s.headEntry) = some head) (hnext : head.next ≠ none)
    (hq : heap.deref (some q) = some node) (hmatch : node.matching = none)
    (hnode₁ : heap.deref s.entry = some node₁) (hclear : b.clear node₁.id = some s.linearized)
    (hunlift : heap.unlift s.entry = some s.heap) (hnode₂ : s.heap.deref s.entry = some node₂) :
    Search.step model false { s.pushed heap b newState next with entry := some q, cache } =
      some (.inl { s with entry := node₂.next, cache }) :=
  step_of_unlift hhead hnext hq hmatch rfl hnode₁ hclear hunlift hnode₂

/-- The search is at a return, and no operation is taken out. -/
theorem Search.step_of_exhausted (hhead : s.heap.deref (some s.headEntry) = some head)
    (hnext : head.next ≠ none) {entry : Node ι ο} (hentry : s.heap.deref s.entry = some entry)
    (hmatch : entry.matching = none) (hcalls : s.calls = []) :
    s.step model false = some (.inr false) := by
  simp only [step, hhead, Option.bind_eq_bind, Option.bind_some, hnext, if_false, hentry, hmatch,
    ne_eq, not_true_eq_false, hcalls]
  rfl

end Rounds

/-! ### Levels

The recursion of the algorithm is hidden in its loop and its stack. A level is one call of the
recursive function that the loop stands for. It is given the operations taken out so far and the
state of the model, it tries one operation after the other, and if none leads to success it leaves
everything as it was.

The cache is the one thing that is not restored. `Exhausted` says how much it may have grown: by
configurations with fewer operations left than the level itself has. So what the level above assumes
about the cache still holds when it goes on. -/

section Levels

variable (model : Model σ ι ο) (n : ℕ) (entries : List (Entry ι ο))

/-- There is a linearization of what is left. -/
def Explains (b : Bitset) (state : σ) : Prop :=
  Linearizable (Precedes entries) (applyOp model.accept entries) state (remaining n b)

/-- The heap and the bitset go together. -/
structure Level (s : Search σ ι ο) : Prop extends
    Lifting entries s.linearized.contains s.heap where
  headEntry : s.headEntry = entries.length
  /-- The bitset has room for all operations. -/
  size : n ≤ 64 * s.linearized.words.length

/-- The nodes `X` that the search has gone past on this level are calls, and none of these
operations can come next. -/
def Scanned (s : Search σ ι ο) (X : List ℕ) : Prop :=
  ∀ x ∈ X, ∃ e input, entries.reverse[x]? = some e ∧ e.value = .callEntry input ∧
    ∀ b newState, s.linearized.set e.id = some b →
      applyOp model.accept entries s.state e.id = some newState →
        ¬ Explains model n entries b newState

/-- A configuration in the cache with fewer than `k` operations left has no linearization. -/
def CacheSound (k : ℕ) (cache : BitVec 64 → List (CacheEntry σ)) : Prop :=
  ∀ hash, ∀ c ∈ cache hash, (remaining n c.linearized).length < k →
    ¬ Explains model n entries c.linearized c.state

/-- `s'` is reached from `s`. -/
def Search.Reach : Search σ ι ο → Search σ ι ο → Prop :=
  Relation.ReflTransGen fun s s' => s.step model false = some (.inl s')

/-- The level of `s` ends at the return `q`, with nothing changed but the cache. -/
structure Exhausted (s : Search σ ι ο) (q : ℕ) (cache : BitVec 64 → List (CacheEntry σ)) :
    Prop where
  reach : Search.Reach model s { s with entry := some q, cache }
  isReturn : ∃ value id, s.heap.info q = some (value, none, id)
  /-- No order of the operations that are left is accepted. -/
  not_explains : ¬ Explains model n entries s.linearized s.state
  /-- The level above may go on to rely on the cache. -/
  sound : CacheSound model n entries (remaining n s.linearized).length cache
  /-- What is new in it belongs to the levels below. -/
  grows : ∀ hash, ∀ c ∈ cache hash, c ∈ s.cache hash ∨
    (remaining n c.linearized).length < (remaining n s.linearized).length

/-- What the search does from `s` on. -/
def Explored (s : Search σ ι ο) : Prop :=
  (∃ s', Search.Reach model s s' ∧ s'.step model false = some (.inr true) ∧
    Explains model n entries s.linearized s.state) ∨
  ∃ q cache, Exhausted model n entries s q cache

variable {model n entries}

/-- The operation that comes next. -/
theorem applyOp_eq {state : σ} {id : ℕ} {input : ι} {output : ο}
    (hinput : inputOf entries id = some input) (houtput : outputOf entries id = some output) :
    applyOp model.accept entries state id =
      if (model.step state input output).1 then some (model.step state input output).2
      else none := by
  simp only [applyOp, Model.accept, hinput, houtput, Option.bind_eq_bind, Option.bind_some]

/-- Equal states have the same linearizations. -/
theorem Explains.of_equal (hequal : model.LawfulEqual) {b : Bitset} {s t : σ}
    (h : Explains model n entries b s) (hst : model.equal s t = true) :
    Explains model n entries b t := by
  refine Linearizable.of_simulation (R := fun s t => model.equal s t = true) ?_ hst h
  intro s t a s' hst hs'
  simp only [applyOp, Model.accept, Option.bind_eq_bind, Option.bind_eq_some_iff] at hs' ⊢
  obtain ⟨input, hinput, output, houtput, hs'⟩ := hs'
  obtain ⟨hok, hnew⟩ := hequal.step s t hst input output
  split at hs'
  · rename_i hs
    cases hs'
    exact ⟨_, ⟨input, hinput, output, houtput, if_pos (hok ▸ hs)⟩, hnew⟩
  · cases hs'

/-- An operation that can come next. -/
theorem Explains.cons {b b' : Bitset} {state newState : σ} {id : ℕ}
    (hb : ∀ p, b'.contains p = (decide (p = id) || b.contains p)) (hid : id ∈ remaining n b)
    (hmin : ∀ a ∈ remaining n b, ¬ Precedes entries a id)
    (hstep : applyOp model.accept entries state id = some newState)
    (h : Explains model n entries b' newState) : Explains model n entries b state := by
  rw [Explains, remaining_set hb] at h
  exact (h.cons (fun a ha => hmin a (List.mem_of_mem_erase ha)) hstep).perm
    (List.perm_cons_erase hid).symm

theorem Level.deref_head {s : Search σ ι ο} (hL : Level n entries s) :
    ∃ head, s.heap.deref (some s.headEntry) = some head ∧
      head.next = (unlifted entries s.linearized.contains).head? := by
  rw [hL.headEntry]
  exact hL.toLifting.deref_head

/-- Only the heap, the bitset and the head count. -/
theorem Level.congr {s s' : Search σ ι ο} (hL : Level n entries s) (hheap : s'.heap = s.heap)
    (hhead : s'.headEntry = s.headEntry) (hlin : s'.linearized = s.linearized) :
    Level n entries s' :=
  ⟨by rw [hheap, hlin]; exact hL.toLifting, hhead.trans hL.headEntry, hlin ▸ hL.size⟩

/-- The node before which the nodes `X` of a level have been scanned. -/
theorem Level.next_eq {s : Search σ ι ο} (hL : Level n entries s) {X Y : List ℕ} {p : ℕ}
    (hrest : unlifted entries s.linearized.contains = X ++ p :: Y) :
    s.heap.links.next p = Y.head? :=
  hL.toLifting.next_eq hrest

/-- A level that has come to a return has no linearization. -/
theorem not_explains_of_return (hP : Paired n entries) {s : Search σ ι ο} {X Y : List ℕ} {p : ℕ}
    (hrest : unlifted entries s.linearized.contains = X ++ p :: Y)
    (hX : Scanned model n entries s X)
    (hsize : n ≤ 64 * s.linearized.words.length) {id : ℕ} {output : ο} {t : ℤ}
    (hp : entries.reverse[p]? = some ⟨.returnEntry output, id, t⟩) :
    ¬ Explains model n entries s.linearized s.state := by
  have hid : id ∈ remaining n s.linearized := by
    obtain ⟨e, he, hnot⟩ := mem_unlifted.mp (hrest ▸ List.mem_append_right _ List.mem_cons_self)
    cases hp.symm.trans he
    exact mem_remaining.mpr ⟨hP.id_lt hp, hnot⟩
  rw [Explains, linearizable_iff_of_ne_nil (List.ne_nil_of_mem hid)]
  rintro ⟨a, ha, hmin, newState, hstep, hex⟩
  obtain ⟨halt, hacon⟩ := mem_remaining.mp ha
  obtain ⟨c, r, input, t', output', t'', hrc, hc, hr, huniq, -⟩ :=
    (hP.pair _ halt).exists_pointers
  have hcmem : c ∈ X ++ p :: Y := hrest ▸ mem_unlifted.mpr ⟨_, hc, hacon⟩
  rcases List.mem_append.mp hcmem with hcX | hcY
  · -- `a` was tried
    obtain ⟨e, input', he, -, hdead⟩ := hX c hcX
    cases hc.symm.trans he
    obtain ⟨b, hset, -, hb⟩ := Bitset.set_spec (show a < _ from lt_of_lt_of_le halt hsize)
    refine hdead b newState hset hstep ?_
    rw [Explains, remaining_set hb]
    exact hex
  · -- the return at `p` comes before the call of `a`
    have hcp : c < p := by
      rcases List.mem_cons.mp hcY with rfl | hcY
      · cases hp.symm.trans hc
      · have hpw := hrest ▸ pairwise_unlifted entries s.linearized.contains
        exact (List.pairwise_cons.mp (List.pairwise_append.mp hpw).2.1).1 c hcY
    have hne : id ≠ a := by
      rintro rfl
      rcases huniq p _ hp rfl with rfl | rfl
      · cases hp.symm.trans hc
      · omega
    exact hmin id ((List.mem_erase_of_ne hne).mpr hid)
      (precedes_iff.mpr ⟨p, c, hcp, ⟨output, t, hp⟩, input, t', hc⟩)

/-- A level ends at a return. -/
theorem explored_of_return (hP : Paired n entries) {s : Search σ ι ο} (hL : Level n entries s)
    (hsound : CacheSound model n entries (remaining n s.linearized).length s.cache) {X Y : List ℕ}
    {p : ℕ} (hrest : unlifted entries s.linearized.contains = X ++ p :: Y)
    (hentry : s.entry = some p) {id : ℕ} {output : ο} {t : ℤ}
    (hp : entries.reverse[p]? = some ⟨.returnEntry output, id, t⟩)
    (hX : Scanned model n entries s X) : Explored model n entries s := by
  obtain ⟨matching, hinfo, hmatch⟩ := hL.info p _ hp
  cases hmatch.ofReturn _ rfl
  refine Or.inr ⟨p, s.cache, ?_, ⟨_, _, hinfo⟩, not_explains_of_return hP hrest hX hL.size hp,
    hsound, fun _ _ hc => Or.inl hc⟩
  rw [← hentry]
  exact .refl

/-- What the search knows at a call: its return is ahead. -/
structure AtCall (n : ℕ) (entries : List (Entry ι ο)) (s : Search σ ι ο) (X Y : List ℕ) (p id : ℕ)
    (input : ι) (output : ο) (r : ℕ) (B C : List ℕ) : Prop where
  /-- The node of the return. -/
  ahead : Y = B ++ r :: C
  call : s.heap.info p = some (some (.callEntry input), some r, id)
  ret : s.heap.info r = some (some (.returnEntry output), none, id)
  input : inputOf entries id = some input
  output : outputOf entries id = some output
  /-- The operation is not taken out. -/
  left : id ∈ remaining n s.linearized
  /-- The nodes that are left when it is. -/
  rest_set : ∀ b : Bitset, (∀ p, b.contains p = (decide (p = id) || s.linearized.contains p)) →
    unlifted entries b.contains = X ++ (B ++ C)

theorem Level.atCall (hP : Paired n entries) {s : Search σ ι ο} (hL : Level n entries s)
    {X Y : List ℕ} {p id : ℕ} {input : ι} {t : ℤ}
    (hrest : unlifted entries s.linearized.contains = X ++ p :: Y)
    (hp : entries.reverse[p]? = some ⟨.callEntry input, id, t⟩) :
    ∃ output r B C, AtCall n entries s X Y p id input output r B C := by
  have hid : id < n := hP.id_lt hp
  obtain ⟨e, he, hnot⟩ := mem_unlifted.mp (hrest ▸ List.mem_append_right _ List.mem_cons_self)
  cases hp.symm.trans he
  obtain ⟨output, r, B, C, hahead, hcall, hret, hinput, houtput, hset⟩ :=
    hL.toLifting.atCall (hP.pair _ hid) hrest hp
  exact ⟨output, r, B, C, hahead, hcall, hret, hinput, houtput, mem_remaining.mpr ⟨hid, hnot⟩,
    fun b hb => hset b.contains hb⟩

/-- `Explored` can be shown from a later moment of the level. -/
theorem Explored.of_reach {s : Search σ ι ο} (entry : Option ℕ)
    (cache : BitVec 64 → List (CacheEntry σ))
    (hreach : Search.Reach model s { s with entry, cache })
    (hgrows : ∀ hash, ∀ c ∈ cache hash, c ∈ s.cache hash ∨
      (remaining n c.linearized).length < (remaining n s.linearized).length)
    (h : Explored model n entries { s with entry, cache }) : Explored model n entries s := by
  rcases h with ⟨s', hreach', hstep, hex⟩ | ⟨q, cache', hE⟩
  · exact Or.inl ⟨s', hreach.trans hreach', hstep, hex⟩
  · refine Or.inr ⟨q, cache', hreach.trans hE.reach, hE.isReturn, hE.not_explains, hE.sound,
      fun hash c hc => ?_⟩
    rcases hE.grows hash c hc with hc | hlt
    · exact hgrows hash c hc
    · exact Or.inr hlt

/-- A configuration that is in the cache. -/
theorem CacheSound.not_explains (hequal : model.LawfulEqual) {k : ℕ}
    {cache : BitVec 64 → List (CacheEntry σ)} (h : CacheSound model n entries k cache) {b : Bitset}
    {state : σ} (hcache : cacheContains model cache ⟨b, state⟩ = true)
    (hk : (remaining n b).length < k) : ¬ Explains model n entries b state := by
  obtain ⟨c, hc, hcb⟩ := List.any_eq_true.mp hcache
  simp only [Bool.and_eq_true, Bitset.equals_iff] at hcb
  obtain ⟨rfl, heq⟩ := hcb
  exact fun hex => h _ c hc hk (hex.of_equal hequal heq)

section Call

variable {s : Search σ ι ο} {X Y B C : List ℕ} {p id r : ℕ} {input : ι} {output : ο} {b : Bitset}

/-- The operation at `p` is taken out. -/
theorem Level.lift (hL : Level n entries s)
    (hrest : unlifted entries s.linearized.contains = X ++ p :: Y)
    (hA : AtCall n entries s X Y p id input output r B C)
    (hb : ∀ p, b.contains p = (decide (p = id) || s.linearized.contains p)) :
    ∃ heap, s.heap.lift (some p) = some heap ∧ heap.info = s.heap.info ∧
      Lifting entries b.contains heap ∧ heap.unlift (some p) = some s.heap := by
  rw [hA.ahead] at hrest
  exact hL.toLifting.lift hrest hA.call hA.ret (hA.rest_set b hb)

/-- The level below. -/
theorem Level.push (hL : Level n entries s) {heap : Heap ι ο}
    (hheap : Lifting entries b.contains heap) (hlen : b.words.length = s.linearized.words.length)
    (newState : σ) (next : Option ℕ) : Level n entries (s.pushed heap b newState next) :=
  ⟨hheap, hL.headEntry, hlen ▸ hL.size⟩

/-- The cache when the level below begins. -/
theorem CacheSound.push {k : ℕ} {cache : BitVec 64 → List (CacheEntry σ)} {newState : σ}
    (hsound : CacheSound model n entries k cache) (hk : (remaining n b).length + 1 = k) :
    CacheSound model n entries (remaining n b).length
      (Function.update cache b.hash (cache b.hash ++ [⟨b, newState⟩])) := by
  intro hash c hc hlt
  rcases eq_or_ne hash b.hash with rfl | hne
  · rw [Function.update_self] at hc
    rcases List.mem_append.mp hc with hc | hc
    · exact hsound _ c hc (by omega)
    · rw [List.mem_singleton.mp hc] at hlt
      exact absurd hlt (lt_irrefl _)
  · rw [Function.update_of_ne hne] at hc
    exact hsound _ c hc (by omega)

/-- The cache when the level below has come to its end. -/
theorem CacheSound.pop {k : ℕ} {cache cache' : BitVec 64 → List (CacheEntry σ)} {newState : σ}
    (hsound : CacheSound model n entries k cache) (hk : (remaining n b).length + 1 = k)
    (hsound' : CacheSound model n entries (remaining n b).length cache')
    (hgrows : ∀ hash, ∀ c ∈ cache' hash,
      c ∈ Function.update cache b.hash (cache b.hash ++ [⟨b, newState⟩]) hash ∨
        (remaining n c.linearized).length < (remaining n b).length)
    (hdead : ¬ Explains model n entries b newState) :
    CacheSound model n entries k cache' ∧ ∀ hash, ∀ c ∈ cache' hash,
      c ∈ cache hash ∨ (remaining n c.linearized).length < k := by
  have hcases : ∀ hash, ∀ c ∈ cache' hash, c ∈ cache hash ∨ c = ⟨b, newState⟩ ∨
      (remaining n c.linearized).length < (remaining n b).length := by
    intro hash c hc
    rcases hgrows hash c hc with hc | hlt
    · rcases eq_or_ne hash b.hash with rfl | hne
      · rw [Function.update_self] at hc
        rcases List.mem_append.mp hc with hc | hc
        · exact Or.inl hc
        · exact Or.inr (Or.inl (List.mem_singleton.mp hc))
      · rw [Function.update_of_ne hne] at hc
        exact Or.inl hc
    · exact Or.inr (Or.inr hlt)
  constructor
  · intro hash c hc hlt
    rcases hcases hash c hc with hold | rfl | hlt'
    · exact hsound hash c hold hlt
    · exact hdead
    · exact hsound' hash c hc hlt'
  · intro hash c hc
    rcases hcases hash c hc with hold | rfl | hlt'
    · exact Or.inl hold
    · exact Or.inr (Nat.lt_of_succ_le hk.le)
    · exact Or.inr (by omega)

/-- The operation is taken out, and the level below is explored. -/
theorem explored_of_pushed (hP : Paired n entries) {heap : Heap ι ο} {newState : σ}
    {next : Option ℕ}
    (hL : Level n entries (s.pushed heap b newState (unlifted entries b.contains).head?))
    (hto : s.step model false =
      some (.inl (s.pushed heap b newState (unlifted entries b.contains).head?)))
    (hcons : Explains model n entries b newState → Explains model n entries s.linearized s.state)
    (hsound : CacheSound model n entries (remaining n s.linearized).length s.cache)
    (hk : (remaining n b).length + 1 = (remaining n s.linearized).length)
    (hbelow : unlifted entries b.contains ≠ [] →
      Explored model n entries (s.pushed heap b newState (unlifted entries b.contains).head?))
    (hback : unlifted entries b.contains ≠ [] → ∀ q cache,
      (∃ value id, heap.info q = some (value, none, id)) →
      Search.step model false
          { s.pushed heap b newState (unlifted entries b.contains).head? with
            entry := some q, cache } =
        some (.inl { s with entry := next, cache }))
    (hnext : ∀ cache, CacheSound model n entries (remaining n s.linearized).length cache →
      ¬ Explains model n entries b newState →
        Explored model n entries { s with entry := next, cache }) :
    Explored model n entries s := by
  by_cases hempty : unlifted entries b.contains = []
  · obtain ⟨head, hhead, hheadnext⟩ := hL.deref_head
    refine Or.inl ⟨_, .single hto, Search.step_of_empty hhead ?_ false, hcons ?_⟩
    · rw [hheadnext]
      exact List.head?_eq_none_iff.mpr hempty
    · rw [Explains, hP.remaining_eq_nil hempty]
      exact linearizable_nil
  · rcases hbelow hempty with ⟨s', hreach, hret, hex⟩ | ⟨q, cache, hE⟩
    · exact Or.inl ⟨s', .head hto hreach, hret, hcons hex⟩
    · obtain ⟨hsound', hgrows⟩ := hsound.pop hk hE.sound hE.grows hE.not_explains
      exact Explored.of_reach _ _
        (.head hto (hE.reach.tail (hback hempty q cache hE.isReturn))) hgrows
        (hnext cache hsound' hE.not_explains)

/-- A call that leads to nothing is scanned. -/
theorem Scanned.concat (hX : Scanned model n entries s X) {t : ℤ}
    (hp : entries.reverse[p]? = some ⟨.callEntry input, id, t⟩)
    (hset : s.linearized.set id = some b)
    (hdead : ∀ newState, applyOp model.accept entries s.state id = some newState →
      ¬ Explains model n entries b newState) : Scanned model n entries s (X ++ [p]) := by
  intro x hx
  rcases List.mem_append.mp hx with hx | hx
  · exact hX x hx
  · rw [List.mem_singleton.mp hx]
    refine ⟨_, input, hp, rfl, fun b' newState hset' hstep => ?_⟩
    cases hset.symm.trans hset'
    exact hdead newState hstep

/-- **A call.** If the search behaves on every level below, and on this level from the next node on,
then it does from this node on. -/
theorem explored_of_call (hP : Paired n entries) (hequal : model.LawfulEqual)
    (hL : Level n entries s)
    (hsound : CacheSound model n entries (remaining n s.linearized).length s.cache)
    (hrest : unlifted entries s.linearized.contains = X ++ p :: Y) (hentry : s.entry = some p)
    {t : ℤ} (hp : entries.reverse[p]? = some ⟨.callEntry input, id, t⟩)
    (hX : Scanned model n entries s X)
    (hbelow : ∀ s₁ : Search σ ι ο, Level n entries s₁ →
      (remaining n s₁.linearized).length < (remaining n s.linearized).length →
      CacheSound model n entries (remaining n s₁.linearized).length s₁.cache →
      s₁.entry = (unlifted entries s₁.linearized.contains).head? →
      unlifted entries s₁.linearized.contains ≠ [] →
      Explored model n entries s₁)
    (hnext : ∀ cache, CacheSound model n entries (remaining n s.linearized).length cache →
      Scanned model n entries s (X ++ [p]) →
      Explored model n entries { s with entry := Y.head?, cache }) :
    Explored model n entries s := by
  obtain ⟨output, r, B, C, hA⟩ := hL.atCall hP hrest hp
  obtain ⟨hid, hnot⟩ := mem_remaining.mp hA.left
  obtain ⟨b, hset, hlen, hb⟩ := Bitset.set_spec (lt_of_lt_of_le hid hL.size)
  have hk := length_remaining_set hb hA.left
  obtain ⟨head, hhead, hheadnext⟩ := hL.deref_head
  have hheadne : head.next ≠ none := by
    rw [hheadnext, hrest]
    simp
  have hscanned := fun hdead => hX.concat hp hset hdead
  have hnode := Heap.deref_eq hA.call
  have hvalues : model.stepValues s.state (some (.callEntry input)) (some (.returnEntry output)) =
      some ((model.step s.state input output).1, (model.step s.state input output).2) := rfl
  have hstep := Search.step_of_call hhead hheadne (hentry ▸ hnode) (Option.some_ne_none r)
    (Heap.deref_eq hA.ret) hvalues hset
  have happly : applyOp model.accept entries s.state id = _ := applyOp_eq hA.input hA.output
  by_cases hpush : (model.step s.state input output).1 = true ∧
      cacheContains model s.cache ⟨b, (model.step s.state input output).2⟩ = false
  · rw [if_pos hpush] at hstep
    rw [if_pos hpush.1] at happly
    generalize (model.step s.state input output).2 = newState at hstep happly
    obtain ⟨heap, hlift, hinfo, hheap, hunlift⟩ := hL.lift hrest hA hb
    have hL₁ := hL.push hheap hlen newState (unlifted entries b.contains).head?
    obtain ⟨head₁, hhead₁, hheadnext₁⟩ := hL₁.deref_head
    have hhead₁ : heap.deref (some s.headEntry) = some head₁ := hhead₁
    have hheadnext₁ : head₁.next = (unlifted entries b.contains).head? := hheadnext₁
    refine explored_of_pushed hP hL₁ ?_ (fun hex => hex.cons hb hA.left (fun a ha => ?_) happly)
      hsound hk (fun hne => hbelow _ hL₁ (Nat.lt_of_succ_le hk.le) (hsound.push hk) rfl hne)
      (fun hne q cache hq => ?_) fun cache hsound' hdead => hnext cache hsound' (hscanned ?_)
    · rw [hstep, hentry, hlift, Option.bind_some, hhead₁, Option.map_some, hheadnext₁]
    · refine hP.not_precedes hrest (fun x hx => ?_) hp hid ha
      obtain ⟨e, input, he, hv, -⟩ := hX x hx
      exact ⟨e, input, he, hv⟩
    · obtain ⟨value, id', hq⟩ := hq
      have hne₁ : head₁.next ≠ none := by rwa [hheadnext₁, ne_eq, List.head?_eq_none_iff]
      have hnode₁ := Heap.deref_eq (hinfo ▸ hA.call)
      rw [← hentry] at hnode hnode₁ hunlift
      rw [← hL.next_eq hrest]
      exact Search.step_of_return hhead₁ hne₁ (Heap.deref_eq hq) rfl hnode₁
        (Bitset.clear_of_set hset hnot) hunlift hnode
    · intro newState' hnew
      cases happly.symm.trans hnew
      exact hdead
  · -- not accepted, or in the cache
    rw [if_neg hpush] at hstep
    refine Explored.of_reach Y.head? s.cache (.single ?_)
      (fun _ _ hc => Or.inl hc) (hnext s.cache hsound (hscanned fun newState hnew => ?_))
    · rw [← hL.next_eq hrest]
      exact hstep
    · rw [happly] at hnew
      split at hnew
      · rename_i hok
        cases hnew
        have hcached :
            cacheContains model s.cache ⟨b, (model.step s.state input output).2⟩ = true := by
          by_contra h
          exact hpush ⟨hok, by simpa using h⟩
        exact hsound.not_explains hequal hcached (by omega)
      · cases hnew

end Call

/-- **A level of the search**, from the node `p` on. -/
theorem Search.explore (hP : Paired n entries) (hequal : model.LawfulEqual) {k : ℕ}
    {s : Search σ ι ο} (hk : (remaining n s.linearized).length = k) (hL : Level n entries s)
    (hsound : CacheSound model n entries k s.cache) {X Y : List ℕ} {p : ℕ}
    (hrest : unlifted entries s.linearized.contains = X ++ p :: Y) (hentry : s.entry = some p)
    (hX : Scanned model n entries s X) : Explored model n entries s := by
  induction k using Nat.strong_induction_on generalizing s X Y p with
  | _ k below =>
    induction Y generalizing s X p with
    | nil =>
      obtain ⟨⟨value, id, t⟩, hp, -⟩ :=
        mem_unlifted.mp (hrest ▸ List.mem_append_right X List.mem_cons_self)
      cases value with
      | callEntry input =>
        obtain ⟨_, _, B, C, hA⟩ := hL.atCall hP hrest hp
        exact absurd hA.ahead.symm (by simp)
      | returnEntry output => exact explored_of_return hP hL (hk ▸ hsound) hrest hentry hp hX
    | cons y Y next =>
      obtain ⟨⟨value, id, t⟩, hp, -⟩ :=
        mem_unlifted.mp (hrest ▸ List.mem_append_right X List.mem_cons_self)
      cases value with
      | callEntry input =>
        refine explored_of_call hP hequal hL (hk ▸ hsound) hrest hentry hp hX ?_ ?_
        · intro s₁ hL₁ hlt hsound₁ hentry₁ hne
          obtain ⟨p₁, Y₁, hrest₁⟩ := List.exists_cons_of_ne_nil hne
          rw [hrest₁] at hentry₁
          exact below _ (hk ▸ hlt) rfl hL₁ hsound₁ (X := []) hrest₁ hentry₁ nofun
        · intro cache hsound' hscanned
          refine next hk (hL.congr rfl rfl rfl) (hk ▸ hsound') ?_ rfl hscanned
          rw [List.append_assoc]
          exact hrest
      | returnEntry output => exact explored_of_return hP hL (hk ▸ hsound) hrest hentry hp hX

end Levels

/-! ### The whole search

The first level has no operation taken out and an empty cache. It ends with success, or at a return
with an empty stack; the search returns in both cases. -/

theorem Search.run_of_reach {model : Model σ ι ο} {s s' : Search σ ι ο}
    (h : Search.Reach model s s') {verdict : Bool}
    (hret : s'.step model false = some (.inr verdict)) :
    ∃ N, ∀ fuel ≥ N, s.run model fuel = some (.inr verdict) := by
  induction h using Relation.ReflTransGen.head_induction_on with
  | refl =>
    refine ⟨1, fun fuel hfuel => ?_⟩
    obtain ⟨fuel, rfl⟩ := Nat.exists_eq_succ_of_ne_zero (Nat.one_le_iff_ne_zero.mp hfuel)
    rw [run, hret]
  | head hstep _ ih =>
    obtain ⟨N, hN⟩ := ih
    refine ⟨N + 1, fun fuel hfuel => ?_⟩
    obtain ⟨fuel, rfl⟩ := Nat.exists_eq_succ_of_ne_zero (n := fuel) (by omega)
    rw [run, hstep]
    exact hN fuel (by omega)

/-- The first level. -/
theorem Search.start_spec {model : Model σ ι ο} {n : ℕ} {entries : List (Entry ι ο)}
    (hP : Paired n entries) {list : Builder ι ο} (hB : Built entries list) :
    ∃ s, Search.start model list.heap list.root = some s ∧ Level n entries s ∧
      remaining n s.linearized = List.range n ∧ s.cache = (fun _ => []) ∧ s.calls = [] ∧
      s.state = model.init ∧ s.entry = (unlifted entries s.linearized.contains).head? := by
  obtain ⟨heap, hstart, hL⟩ := Search.start_eq model hB
  rw [hP.length_div_two] at hstart
  have hnew : (Bitset.new n).contains = fun _ => false := funext (Bitset.contains_new n)
  rw [← hnew] at hL
  refine ⟨_, hstart, ⟨hL, rfl, Bitset.length_new n⟩, ?_, rfl, rfl, rfl, ?_⟩
  · exact List.filter_eq_self.mpr fun id _ => by rw [hnew]; rfl
  · rw [hB.root, hnew, unlifted_none]

/-- What the search comes to. -/
theorem Search.decides {model : Model σ ι ο} (hequal : model.LawfulEqual) {n : ℕ}
    {entries : List (Entry ι ο)} (hP : Paired n entries) {list : Builder ι ο}
    (hB : Built entries list) :
    ∃ s s' verdict, Search.start model list.heap list.root = some s ∧ Search.Reach model s s' ∧
      s'.step model false = some (.inr verdict) ∧
      (verdict = true ↔ Linearizable (Precedes entries) (applyOp model.accept entries) model.init
        (List.range n)) := by
  obtain ⟨s, hstart, hL, hremaining, hcache, hcalls, hstate, hentry⟩ := Search.start_spec hP hB
  have hexplains : Explains model n entries s.linearized s.state ↔
      Linearizable (Precedes entries) (applyOp model.accept entries) model.init (List.range n) := by
    rw [Explains, hremaining, hstate]
  obtain ⟨head, hhead, hheadnext⟩ := hL.deref_head
  rcases hrest : unlifted entries s.linearized.contains with _ | ⟨p, Y⟩
  · refine ⟨s, s, true, hstart, .refl, Search.step_of_empty hhead ?_ false, ?_⟩
    · rw [hheadnext, hrest]
      rfl
    · rw [← hexplains, Explains, hP.remaining_eq_nil hrest]
      exact ⟨fun _ => linearizable_nil, fun _ => rfl⟩
  · have hsound : CacheSound model n entries (remaining n s.linearized).length s.cache := by
      rw [hcache]
      exact fun _ _ hc => absurd hc List.not_mem_nil
    rw [hrest] at hentry
    rcases Search.explore hP hequal rfl hL hsound (X := []) hrest hentry nofun with
      ⟨s', hreach, hret, hex⟩ | ⟨q, cache, hE⟩
    · exact ⟨s, s', true, hstart, hreach, hret, fun _ => hexplains.mp hex, fun _ => rfl⟩
    · obtain ⟨value, id, hq⟩ := hE.isReturn
      refine ⟨s, _, false, hstart, hE.reach, ?_, ?_⟩
      · refine Search.step_of_exhausted hhead ?_ (Heap.deref_eq hq) rfl hcalls
        rw [hheadnext, hrest]
        exact Option.some_ne_none p
      · rw [← hexplains]
        exact ⟨nofun, fun hex => absurd hex hE.not_explains⟩

/-- **The search is sound, complete and terminating.** For every model with a lawful `Equal` and
every list of entries in which each of the operations `0` to `n - 1` has a call and a later return,
`checkSingle` returns after finitely many rounds, and it returns `true` exactly if there is an order
of the operations that respects the entries and is accepted by the model. -/
theorem checkSingle_sound_complete (model : Model σ ι ο) (hequal : model.LawfulEqual) (n : ℕ)
    (entries : List (Entry ι ο)) (hP : Paired n entries) :
    ∃ list, makeLinkedEntries entries = some list ∧ ∃ verdict,
      (∃ N, ∀ fuel ≥ N, checkSingle model list.heap list.root fuel = some (.inr verdict)) ∧
      (verdict = true ↔ Linearizable (Precedes entries) (applyOp model.accept entries) model.init
        (List.range n)) := by
  obtain ⟨list, hlist, hB⟩ := makeLinkedEntries_spec entries
  obtain ⟨s, s', verdict, hstart, hreach, hret, hiff⟩ := Search.decides hequal hP hB
  obtain ⟨N, hN⟩ := Search.run_of_reach hreach hret
  refine ⟨list, hlist, verdict, ⟨N, fun fuel hfuel => ?_⟩, hiff⟩
  rw [checkSingle, hstart]
  exact hN fuel hfuel

theorem register_lawfulEqual : register.LawfulEqual :=
  Model.lawfulEqual_of_eq fun _ _ => beq_iff_eq

theorem checkSingle_sound_complete_register :
    register.LawfulEqual ∧ Paired 3 registerEntries ∧
    ∃ list, makeLinkedEntries registerEntries = some list ∧ ∃ verdict,
      (∃ N, ∀ fuel ≥ N, checkSingle register list.heap list.root fuel = some (.inr verdict)) ∧
      (verdict = true ↔ Linearizable (Precedes registerEntries)
        (applyOp register.accept registerEntries) register.init (List.range 3)) :=
  ⟨register_lawfulEqual, registerEntries_paired,
    checkSingle_sound_complete register register_lawfulEqual 3 registerEntries
      registerEntries_paired⟩

-- the read of `0` goes first
example : ((makeLinkedEntries registerEntries).bind fun list =>
    (checkSingle register list.heap list.root 9).bind Sum.getRight?) = some true := by
  decide +kernel

end Linearizability

end Distsys
