import Distsys.Linearizability.Spec

/-!
# Operations are taken out and put back

`Lifting entries out h` says that `h` is the list of `entries`, behind the head of `checkSingle`,
without the operations in `out`. `lift` at a call that is still in the list adds its operation to
`out`, and `unlift` gives back the heap from before.

Only the order matters. The node that was lifted last has its neighbours in the list; those of the
nodes lifted before it may themselves have been taken out since.

## Order of the list

The list is always a sublist of the entries in their order, given by which operations are out. So
one does not have to say how it came to be. `unlift` is different, as it depends on the pointers
that the lifted node still has: it is right if it undoes the last `lift`, and need not be otherwise.
`Lifts` keeps the heaps in between for that.

## Main definitions

* `Lifting`
* `Heap.Follows`, `Lifts` — what a sequence of calls of `lift` does to a heap

## Main results

* `Lifting.atCall`, `Lifting.lift`
* `Search.start_eq` — the list before the first `lift`
* `unlift_undoes_lift`
-/

namespace Distsys

namespace Linearizability

variable {σ ι ο : Type}

/-- The list of `entries`, behind the head, without the operations in `out`. -/
structure Lifting (entries : List (Entry ι ο)) (out : ℕ → Bool) (h : Heap ι ο) : Prop where
  /-- All nodes exist, with the head behind them. -/
  known : h.Known entries.length
  /-- Each has the entry and the match that it was built with. -/
  info : ∀ p e, entries.reverse[p]? = some e → ∃ matching,
    h.info p = some (some e.value, matching, e.id) ∧ MatchOk entries.reverse p e matching
  /-- The head leads to the nodes that are not taken out, in their order. -/
  linked : h.links.Linked entries.length (unlifted entries out)

namespace Lifting

variable {entries : List (Entry ι ο)} {out out' : ℕ → Bool} {h h' : Heap ι ο} {X Y B C : List ℕ}
  {p r id : ℕ} {input : ι} {output : ο} {t : ℤ}

/-- Only `lift` and `unlift` act on the heap, and they assign to pointers. -/
theorem congr (hL : Lifting entries out h) (hinfo : h'.info = h.info)
    (hlinked : h'.links.Linked entries.length (unlifted entries out')) :
    Lifting entries out' h' := by
  refine ⟨?_, ?_, hlinked⟩
  · rw [Heap.known_congr hinfo]
    exact hL.known
  · rw [hinfo]
    exact hL.info

/-- The head and the nodes that are left are different nodes of the heap. -/
theorem nodes (hL : Lifting entries out h) : (entries.length :: unlifted entries out).Nodup ∧
    ∀ p ∈ entries.length :: unlifted entries out, h.Known p := by
  refine ⟨List.nodup_cons.mpr ⟨fun hmem => ?_, (pairwise_unlifted entries _).imp ne_of_gt⟩,
    fun p hp => ?_⟩
  · obtain ⟨e, he, -⟩ := mem_unlifted.mp hmem
    have := (List.getElem?_eq_some_iff.mp he).1
    rw [List.length_reverse] at this
    omega
  · rcases List.mem_cons.mp hp with rfl | hp
    · exact hL.known
    · obtain ⟨e, he, -⟩ := mem_unlifted.mp hp
      obtain ⟨matching, hinfo, -⟩ := hL.info p e he
      rw [Heap.Known, hinfo]
      rfl

theorem next_eq (hL : Lifting entries out h) (hleft : unlifted entries out = X ++ p :: Y) :
    h.links.next p = Y.head? := by
  have hnodup := hL.nodes.1
  rw [hleft, ← List.cons_append] at hnodup
  obtain ⟨_, _, _, _, hY, _⟩ := (hleft ▸ hL.linked).split (List.nodup_append'.mp hnodup).1
  exact hY.next_eq

/-- What a node of the heap holds. -/
theorem node (hL : Lifting entries out h) {e : Entry ι ο} (he : entries.reverse[p]? = some e)
    {node : Node ι ο} (hnode : h.deref (some p) = some node) :
    node.id = e.id ∧ node.next = h.links.next p ∧ MatchOk entries.reverse p e node.matching := by
  obtain ⟨matching, hinfo, hok⟩ := hL.info p e he
  cases hnode.symm.trans (Heap.deref_eq hinfo)
  exact ⟨rfl, rfl, hok⟩

theorem deref_head (hL : Lifting entries out h) :
    ∃ head, h.deref (some entries.length) = some head ∧
      head.next = (unlifted entries out).head? := by
  obtain ⟨⟨value, matching, id⟩, hinfo⟩ := Option.isSome_iff_exists.mp hL.known
  exact ⟨_, Heap.deref_eq hinfo, hL.linked.next_eq⟩

/-- **The return of a call** that is left is behind it, and `match` points to it. -/
theorem atCall (hL : Lifting entries out h) (hpair : PairAt entries id)
    (hleft : unlifted entries out = X ++ p :: Y)
    (hp : entries.reverse[p]? = some ⟨.callEntry input, id, t⟩) :
    ∃ output r B C, Y = B ++ r :: C ∧ h.info p = some (some (.callEntry input), some r, id) ∧
      h.info r = some (some (.returnEntry output), none, id) ∧
      inputOf entries id = some input ∧ outputOf entries id = some output ∧
      ∀ out' : ℕ → Bool, (∀ q, out' q = (decide (q = id) || out q)) →
        unlifted entries out' = X ++ (B ++ C) := by
  have hnot : out id = false := by
    obtain ⟨e, he, hnot⟩ := mem_unlifted.mp (hleft ▸ List.mem_append_right _ List.mem_cons_self)
    cases hp.symm.trans he
    exact hnot
  obtain ⟨c, r, input', t', output, t'', hrc, hc, hr, huniq, hinput, houtput⟩ :=
    hpair.exists_pointers
  obtain rfl : c = p := by
    rcases huniq p _ hp rfl with rfl | rfl
    · rfl
    · cases hp.symm.trans hr
  cases hp.symm.trans hc
  -- the pointers of `X` are above `c`
  have hrY : r ∈ Y := by
    have hmem : r ∈ X ++ c :: Y := hleft ▸ mem_unlifted.mpr ⟨_, hr, hnot⟩
    have hpw := List.pairwise_append.mp (hleft ▸ pairwise_unlifted entries out)
    rcases List.mem_append.mp hmem with hmem | hmem
    · have := hpw.2.2 r hmem c List.mem_cons_self
      omega
    · exact (List.mem_cons.mp hmem).resolve_left hrc.ne
  obtain ⟨B, C, rfl⟩ := List.append_of_mem hrY
  obtain ⟨matching, hcinfo, hmatch⟩ := hL.info c _ hc
  obtain ⟨matching', hrinfo, hmatch'⟩ := hL.info r _ hr
  cases hmatch'.ofReturn _ rfl
  have hmatching : matching = some r := by
    cases matching with
    | none => exact absurd ⟨output, t'', hr⟩ (hmatch.none _ rfl rfl r hrc)
    | some q =>
      obtain ⟨hqc, _, _, hq⟩ := hmatch.some q rfl
      rcases huniq q _ hq rfl with rfl | rfl
      · omega
      · rfl
  rw [hmatching] at hcinfo
  exact ⟨output, r, B, C, rfl, hcinfo, hrinfo, hinput, houtput,
    fun out' hout => unlifted_set hout huniq ⟨_, hc, rfl⟩ ⟨_, hr, rfl⟩ hleft⟩

/-- **`lift`** takes out the operation of a call. -/
theorem lift (hL : Lifting entries out h) (hleft : unlifted entries out = X ++ p :: (B ++ r :: C))
    (hcall : h.info p = some (some (.callEntry input), some r, id))
    (hret : h.info r = some (some (.returnEntry output), none, id))
    (hleft' : unlifted entries out' = X ++ (B ++ C)) :
    ∃ h', h.lift (some p) = some h' ∧ h'.info = h.info ∧ Lifting entries out' h' ∧
      h'.unlift (some p) = some h := by
  obtain ⟨hnodup, hknown⟩ := hL.nodes
  have hlinked := hL.linked
  rw [hleft] at hnodup hknown hlinked
  obtain ⟨h', hlift, hinfo, hlinked', hunlift⟩ :=
    Heap.lift_spec hlinked hnodup hknown hcall hret
  exact ⟨h', hlift, hinfo, hL.congr hinfo (hleft' ▸ hlinked'), hunlift⟩

end Lifting

/-- **The beginning of `checkSingle`.** The head is put in front of all entries. -/
theorem Search.start_eq (model : Model σ ι ο) {entries : List (Entry ι ο)} {list : Builder ι ο}
    (hB : Built entries list) : ∃ heap, Search.start model list.heap list.root =
        some ⟨heap, entries.length, list.root, Bitset.new (entries.length / 2), fun _ => [], [],
          model.init⟩ ∧
      Lifting entries (fun _ => false) heap := by
  obtain ⟨heap, hins, -, hinfo, hlinked, -⟩ := hB.insert
    ⟨none, none, 2 ^ 64 - 1, none, none⟩ rfl rfl
  refine ⟨heap, ?_, ?_, fun p e hp => ?_, by rw [unlifted_none]; exact hlinked⟩
  · simp only [start, hB.heap_length, Option.bind_eq_bind, Option.bind_some, hB.length, hins,
      Option.pure_def]
  · rw [Heap.Known, hinfo, Function.update_self]
    rfl
  · have hlt := (List.getElem?_eq_some_iff.mp hp).1
    rw [List.length_reverse] at hlt
    obtain ⟨matching, hpinfo, hmatch⟩ := hB.info p e hp
    refine ⟨matching, ?_, hmatch⟩
    rw [hinfo, Function.update_of_ne hlt.ne, hpinfo]

/-! ### Sequences of `lift`

The stack of `checkSingle` has the operations that are taken out, the last one on top. `Lifts` is
the sequence of heaps that belongs to it. Going back along this sequence is calling `unlift` in the
opposite order, and it leads through the very same heaps. -/

namespace Heap

/-- The node `p` is visited when one follows `next` from `head`. -/
def Follows (h : Heap ι ο) (head p : ℕ) : Prop :=
  Relation.TransGen (fun p q => h.links.next p = some q) head p

/-- The fields `value` and `id` of a node. -/
def entryAt (h : Heap ι ο) (p : ℕ) : Option (Option (EntryValue ι ο) × ℕ) :=
  (h.deref (some p)).map fun node => (node.value, node.id)

/-- The node of a call. -/
def IsCall (h : Heap ι ο) (p : ℕ) : Prop :=
  ∃ input id, h.entryAt p = some (some (.callEntry input), id)

/-- The id of a node. -/
def idAt (h : Heap ι ο) (p : ℕ) : Option ℕ := (h.entryAt p).map Prod.snd

theorem entryAt_eq (h : Heap ι ο) (p : ℕ) :
    h.entryAt p = (h.info p).map fun fields => (fields.1, fields.2.2) := by
  simp [entryAt, deref, info, Function.comp_def]

end Heap

/-- From `h₀` on, `lift` was called for `calls`, the last one first. Each was a call in the list at
that time. -/
inductive Lifts (head : ℕ) (h₀ : Heap ι ο) : List ℕ → Heap ι ο → Prop where
  | nil : Lifts head h₀ [] h₀
  | cons {calls : List ℕ} {h h' : Heap ι ο} {c : ℕ} (hs : Lifts head h₀ calls h)
      (hlinked : h.Follows head c) (hcall : h.IsCall c) (hlift : h.lift (some c) = some h') :
    Lifts head h₀ (c :: calls) h'

section Sequences

variable {entries : List (Entry ι ο)} {out : ℕ → Bool} {h h₀ h' : Heap ι ο}

theorem map_pointers (entries : List (Entry ι ο)) :
    ((pointers entries.length).map fun p => entries.reverse[p]?) = entries.map some := by
  induction entries with
  | nil => rfl
  | cons e entries ih =>
    rw [List.length_cons, pointers, List.map_cons, List.map_cons, List.reverse_cons, ← ih]
    congr 1
    · rw [List.getElem?_append_right (by simp)]
      simp
    · refine List.map_congr_left fun p hp => List.getElem?_append_left ?_
      rw [List.length_reverse]
      exact mem_pointers.mp hp

/-- The entries along the list. -/
theorem Lifting.map_entryAt (hL : Lifting entries out h) :
    (unlifted entries out).map h.entryAt =
      (entries.filter fun e => !out e.id).map fun e => some (some e.value, e.id) := by
  have hentry : ∀ p ∈ unlifted entries out, h.entryAt p =
      entries.reverse[p]?.map fun e => (some e.value, e.id) := by
    intro p hp
    obtain ⟨e, he, -⟩ := mem_unlifted.mp hp
    obtain ⟨matching, hinfo, -⟩ := hL.info p e he
    rw [Heap.entryAt_eq, hinfo, he]
    rfl
  have hfilter : ((unlifted entries out).map fun p => entries.reverse[p]?) =
      (entries.filter fun e => !out e.id).map some := by
    have := (List.filter_map (f := fun p => entries.reverse[p]?)
      (p := fun e : Option (Entry ι ο) => e.any fun e => !out e.id)
      (l := pointers entries.length)).symm
    rw [map_pointers, List.filter_map] at this
    exact this
  have hmap := congrArg (List.map (Option.map fun e => (some e.value, e.id))) hfilter
  rw [List.map_map, List.map_map] at hmap
  exact (List.map_congr_left hentry).trans hmap

/-- A call that is in the list. -/
theorem Lifting.lift_of_follows (hM : Matched entries) (hL : Lifting entries out h) {c : ℕ}
    (hlinked : h.Follows entries.length c) (hcall : h.IsCall c) :
    ∃ id h', h.idAt c = some id ∧ h.lift (some c) = some h' ∧ h'.info = h.info ∧
      Lifting entries (fun q => decide (q = id) || out q) h' ∧ h'.unlift (some c) = some h := by
  obtain ⟨X, Y, hleft⟩ := List.append_of_mem (hL.linked.mem_of_transGen hlinked)
  obtain ⟨⟨value, id, t⟩, he, -⟩ :=
    mem_unlifted.mp (hleft ▸ List.mem_append_right X List.mem_cons_self)
  obtain ⟨matching, hinfo, -⟩ := hL.info c _ he
  obtain ⟨input, id', hentry⟩ := hcall
  rw [Heap.entryAt_eq, hinfo] at hentry
  cases hentry
  have hpair := hM _ (List.mem_reverse.mp (List.mem_of_getElem? he))
  obtain ⟨output, r, B, C, rfl, hcall, hret, -, -, hset⟩ := hL.atCall hpair hleft he
  obtain ⟨h', hlift, hinfo', hL', hunlift⟩ := hL.lift hleft hcall hret (hset _ fun _ => rfl)
  refine ⟨id, h', ?_, hlift, hinfo', hL', hunlift⟩
  rw [Heap.idAt, Heap.entryAt_eq, hcall]
  rfl

/-- **After every sequence of `lift`**, the list has lost the operations of the calls. -/
theorem Lifts.lifting (hM : Matched entries) (h₀L : Lifting entries out h₀) {calls : List ℕ}
    (hs : Lifts entries.length h₀ calls h) : h.info = h₀.info ∧
      Lifting entries (fun id => decide (some id ∈ calls.map h.idAt) || out id) h := by
  induction hs with
  | nil => exact ⟨rfl, by simpa using h₀L⟩
  | cons hs hlinked hcall hlift ih =>
    rename_i calls h h' c
    obtain ⟨hinfo, hL⟩ := ih
    obtain ⟨id, h'', hid, hlift', hinfo', hL', -⟩ := hL.lift_of_follows hM hlinked hcall
    cases hlift.symm.trans hlift'
    have hidAt : h'.idAt = h.idAt := by
      funext p
      rw [Heap.idAt, Heap.idAt, Heap.entryAt_eq, Heap.entryAt_eq, hinfo']
    refine ⟨hinfo'.trans hinfo, ?_⟩
    convert hL' using 2 with q
    rw [hidAt, List.map_cons, hid, ← Bool.or_assoc, ← Bool.decide_or]
    simp [List.mem_cons, eq_comm]

/-- **`unlift` in the opposite order** gives back every heap on the way. -/
theorem Lifts.unlift (hM : Matched entries) (h₀L : Lifting entries out h₀) {calls : List ℕ}
    (hs : Lifts entries.length h₀ calls h) :
    calls.foldlM (fun h c => h.unlift (some c)) h = some h₀ := by
  induction hs with
  | nil => rfl
  | cons hs hlinked hcall hlift ih =>
    obtain ⟨-, hL⟩ := hs.lifting hM h₀L
    obtain ⟨_, _, -, hlift', -, -, hunlift⟩ := hL.lift_of_follows hM hlinked hcall
    cases hlift.symm.trans hlift'
    rw [List.foldlM_cons, hunlift]
    exact ih

end Sequences

/-- **`unlift` undoes `lift`.** Let each id of a list of entries have one call and, later, one
return. Whatever calls are lifted, one after the other, from the list that `checkSingle` begins
with: the list behind the head, in both directions, has the entries of the other operations in
their order; the call of each of them can be lifted; and `unlift` for the calls that were lifted
since some moment, the last one first, gives back the heap of that moment with all its pointers. -/
theorem unlift_undoes_lift (model : Model σ ι ο) {entries : List (Entry ι ο)}
    (hM : Matched entries) :
    ∃ list s, makeLinkedEntries entries = some list ∧
      Search.start model list.heap list.root = some s ∧
      ∀ calls h, Lifts s.headEntry s.heap calls h →
        (∃ nodes, h.links.Linked s.headEntry nodes ∧ nodes.map h.entryAt =
          (entries.filter fun e => some e.id ∉ calls.map h.idAt).map
            fun e => some (some e.value, e.id)) ∧
        (∀ c, h.Follows s.headEntry c → h.IsCall c → ∃ h', h.lift (some c) = some h') ∧
        ∀ later h', Lifts s.headEntry h later h' →
          later.foldlM (fun h c => h.unlift (some c)) h' = some h := by
  obtain ⟨list, hlist, hB⟩ := makeLinkedEntries_spec entries
  obtain ⟨heap, hstart, hL₀⟩ := Search.start_eq model hB
  refine ⟨list, _, hlist, hstart, fun calls h hs => ?_⟩
  obtain ⟨-, hL⟩ := hs.lifting hM hL₀
  refine ⟨⟨_, hL.linked, hL.map_entryAt.trans ?_⟩, fun c hlinked hcall => ?_, fun later h' hs' =>
    hs'.unlift hM hL⟩
  · simp only [Bool.or_false, decide_not]
  · obtain ⟨_, h', -, hlift, -⟩ := hL.lift_of_follows hM hlinked hcall
    exact ⟨h', hlift⟩

theorem unlift_undoes_lift_register : Matched registerEntries ∧
    ∃ list s, makeLinkedEntries registerEntries = some list ∧
      Search.start register list.heap list.root = some s ∧
      ∀ calls h, Lifts s.headEntry s.heap calls h →
        (∃ nodes, h.links.Linked s.headEntry nodes ∧ nodes.map h.entryAt =
          (registerEntries.filter fun e => some e.id ∉ calls.map h.idAt).map
            fun e => some (some e.value, e.id)) ∧
        (∀ c, h.Follows s.headEntry c → h.IsCall c → ∃ h', h.lift (some c) = some h') ∧
        ∀ later h', Lifts s.headEntry h later h' →
          later.foldlM (fun h c => h.unlift (some c)) h' = some h :=
  ⟨registerEntries_paired.matched, unlift_undoes_lift register registerEntries_paired.matched⟩

end Linearizability

end Distsys
