import Distsys.Lib.DoublyLinked
import Distsys.Linearizability.Basic

/-!
# The list of entries

The pointers `next` and `prev` of a heap are a value of `Links`, and the assignments of `lift` and
`unlift` are `Links.unlink` and `Links.relink` for the two nodes of an operation. No other field of
a node is ever assigned to. So `unlift` gives back the heap from before `lift`, not only a list that
looks the same.

`makeLinkedEntries` allocates the node of the last entry first. Pointer `p` therefore belongs to the
entry with number `p` of the reversed list, and the list goes from the highest pointer down to `0`.

## What is assumed of a list

Nothing is assumed about where nodes lie in memory. `Links.Linked` of `Distsys.Lib.DoublyLinked`
says that the pointers lead through a list of nodes and back, and `lift` needs that the two nodes
are in this list, one behind the other. That the second node is the last one is a branch in the
source, that the two may be neighbours is not; in the proof both are the same rule applied to
different lists.

## Main definitions

* `Heap.links`, `Heap.info` — the pointers of a node, and all its other fields
* `pointers`, `Built`

## Main results

* `Heap.lift_spec`
* `makeLinkedEntries_spec`, `Heap.lengthLoop_of_linked`
-/

namespace Distsys

namespace Linearizability

variable {σ ι ο : Type}

namespace Heap

/-- The pointers. -/
def links (h : Heap ι ο) : Links ℕ where
  next p := h.nodes[p]?.bind Node.next
  prev p := h.nodes[p]?.bind Node.prev

/-- The fields `value`, `match` and `id`. -/
def info (h : Heap ι ο) (p : ℕ) : Option (Option (EntryValue ι ο) × Option ℕ × ℕ) :=
  h.nodes[p]?.map fun node => (node.value, node.matching, node.id)

variable {h h' : Heap ι ο} {p x : ℕ} {v : Option ℕ}

/-- A heap is its pointers and its other fields. -/
theorem eq_of_links (hlinks : h'.links = h.links) (hinfo : h'.info = h.info) : h' = h := by
  obtain ⟨nodes⟩ := h
  obtain ⟨nodes'⟩ := h'
  rw [Heap.mk.injEq]
  refine List.ext_getElem? fun p => ?_
  have hnext := congrFun (congrArg Links.next hlinks) p
  have hprev := congrFun (congrArg Links.prev hlinks) p
  have hinfo := congrFun hinfo p
  simp only [links, info] at hnext hprev hinfo
  generalize nodes[p]? = a at hnext hprev hinfo ⊢
  generalize nodes'[p]? = b at hnext hprev hinfo ⊢
  rcases a with _ | ⟨value, matching, id, next, prev⟩ <;>
    rcases b with _ | ⟨value', matching', id', next', prev'⟩ <;> simp_all

theorem deref_eq {value : Option (EntryValue ι ο)} {matching : Option ℕ} {id : ℕ}
    (hp : h.info p = some (value, matching, id)) :
    h.deref (some p) = some ⟨value, matching, id, h.links.next p, h.links.prev p⟩ := by
  obtain ⟨node, hnode, heq⟩ := Option.map_eq_some_iff.mp hp
  cases heq
  simp only [deref, links, Option.bind_some, hnode]

/-- An assignment to `next` or `prev`. -/
theorem assign_spec {f : Node ι ο → Node ι ο} (hf : ∀ node, (f node).value = node.value ∧
      (f node).matching = node.matching ∧ (f node).id = node.id) (hp : (h.info p).isSome) :
    ∃ node h', h.nodes[p]? = some node ∧ h.assign (some p) f = some h' ∧ h'.info = h.info ∧
      h'.links = ⟨Function.update h.links.next p (f node).next,
        Function.update h.links.prev p (f node).prev⟩ := by
  obtain ⟨node, hnode⟩ := Option.isSome_iff_exists.mp (Option.isSome_map.symm.trans hp)
  have hlt := (List.getElem?_eq_some_iff.mp hnode).1
  refine ⟨node, ⟨h.nodes.set p (f node)⟩, hnode, ?_, ?_, ?_⟩
  · simp only [assign, Option.bind_some, hnode, Option.map_some]
  · funext q
    rcases eq_or_ne p q with rfl | hne
    · simp only [info, List.getElem?_set_self hlt, hnode, Option.map_some, hf node]
    · simp only [info, List.getElem?_set_ne hne]
  · ext1 <;> funext q <;> rcases eq_or_ne p q with rfl | hne
    · simp only [links, List.getElem?_set_self hlt, Function.update_self, Option.bind_some]
    · simp only [links, List.getElem?_set_ne hne, Function.update_of_ne hne.symm]
    · simp only [links, List.getElem?_set_self hlt, Function.update_self, Option.bind_some]
    · simp only [links, List.getElem?_set_ne hne, Function.update_of_ne hne.symm]

theorem setNext_spec (hp : (h.info p).isSome) (v : Option ℕ) :
    ∃ h', h.setNext (some p) v = some h' ∧ h'.info = h.info ∧
      h'.links = ⟨Function.update h.links.next p v, h.links.prev⟩ := by
  obtain ⟨node, h', hnode, hassign, hinfo, hlinks⟩ :=
    assign_spec (f := fun node => { node with next := v }) (fun _ => ⟨rfl, rfl, rfl⟩) hp
  refine ⟨h', hassign, hinfo, hlinks.trans ?_⟩
  rw [Links.mk.injEq]
  refine ⟨rfl, Function.update_eq_self_iff.mpr ?_⟩
  simp only [links, hnode, Option.bind_some]

theorem setPrev_spec (hp : (h.info p).isSome) (v : Option ℕ) :
    ∃ h', h.setPrev (some p) v = some h' ∧ h'.info = h.info ∧
      h'.links = ⟨h.links.next, Function.update h.links.prev p v⟩ := by
  obtain ⟨node, h', hnode, hassign, hinfo, hlinks⟩ :=
    assign_spec (f := fun node => { node with prev := v }) (fun _ => ⟨rfl, rfl, rfl⟩) hp
  refine ⟨h', hassign, hinfo, hlinks.trans ?_⟩
  rw [Links.mk.injEq]
  refine ⟨Function.update_eq_self_iff.mpr ?_, rfl⟩
  simp only [links, hnode, Option.bind_some]

/-! ### `lift` and `unlift`

Each of the two moves four or more pointers, with a branch for the last node of the list. Both nodes
are dealt with one after the other: what is left by the first is again a list, and the second is
unlinked from that. `unlift` goes the other way round, in the source as in the proof. -/

/-- Where `known` are the nodes of the heap: the neighbours of `x` are other nodes, and there is one
before it. -/
structure HasNeighbours (L : Links ℕ) (known : ℕ → Prop) (x : ℕ) : Prop where
  prev : ∃ a, L.prev x = some a ∧ a ≠ x ∧ known a
  next : ∀ b, L.next x = some b → b ≠ x ∧ known b

/-- The pointer `p` is not dangling. -/
def Known (h : Heap ι ο) (p : ℕ) : Prop := (h.info p).isSome

/-- The assignments for a node: the one before it points to `v`, and the next one, if there is one,
points back to `w`. -/
theorem HasNeighbours.assign (hx : HasNeighbours h.links h.Known x) (v w : Option ℕ) {L : Links ℕ}
    (hnext : ∀ a, h.links.prev x = some a → L.next = Function.update h.links.next a v)
    (hprev : ∀ b, h.links.next x = some b → L.prev = Function.update h.links.prev b w)
    (hnone : h.links.next x = none → L.prev = h.links.prev) :
    ∃ h₁ h₂, h.setNext (h.links.prev x) v = some h₁ ∧ h₁.info = h.info ∧
      h₁.links.next x = h.links.next x ∧ h₁.links.prev = h.links.prev ∧
      (match h.links.next x with
        | some b => h₁.setPrev (some b) w
        | none => some h₁) = some h₂ ∧ h₂.info = h.info ∧ h₂.links = L := by
  obtain ⟨a, ha, hne, hknown⟩ := hx.prev
  obtain ⟨h₁, hset, hinfo₁, hlinks₁⟩ := setNext_spec hknown v
  have hx₁ : h₁.links.next x = h.links.next x := by
    rw [hlinks₁]
    exact Function.update_of_ne hne.symm ..
  rw [ha]
  rcases hb : h.links.next x with _ | b
  · refine ⟨h₁, h₁, hset, hinfo₁, hx₁.trans hb, by rw [hlinks₁], rfl, hinfo₁, ?_⟩
    rw [hlinks₁]
    ext1
    · exact (hnext a ha).symm
    · exact (hnone hb).symm
  · have hbinfo : (h₁.info b).isSome := by
      rw [hinfo₁]
      exact (hx.next b hb).2
    obtain ⟨h₂, hset₂, hinfo₂, hlinks₂⟩ := setPrev_spec hbinfo w
    refine ⟨h₁, h₂, hset, hinfo₁, hx₁.trans hb, by rw [hlinks₁], hset₂, hinfo₂.trans hinfo₁, ?_⟩
    rw [hlinks₂, hlinks₁]
    ext1
    · exact (hnext a ha).symm
    · exact (hprev b hb).symm

/-- The assignments of `lift` for one node. -/
theorem HasNeighbours.unlink (hx : HasNeighbours h.links h.Known x) :
    ∃ h₁ h₂, h.setNext (h.links.prev x) (h.links.next x) = some h₁ ∧ h₁.info = h.info ∧
      h₁.links.next x = h.links.next x ∧ h₁.links.prev = h.links.prev ∧
      (match h.links.next x with
        | some b => h₁.setPrev (some b) (h.links.prev x)
        | none => some h₁) = some h₂ ∧ h₂.info = h.info ∧ h₂.links = h.links.unlink x :=
  hx.assign _ _ (fun _ ha => Links.next_unlink ha) (fun _ hb => Links.prev_unlink hb)
    Links.prev_unlink_of_none

/-- The assignments of `unlift` for one node. -/
theorem HasNeighbours.relink (hx : HasNeighbours h.links h.Known x) :
    ∃ h₁ h₂, h.setNext (h.links.prev x) (some x) = some h₁ ∧ h₁.info = h.info ∧
      h₁.links.next x = h.links.next x ∧ h₁.links.prev = h.links.prev ∧
      (match h.links.next x with
        | some b => h₁.setPrev (some b) (some x)
        | none => some h₁) = some h₂ ∧ h₂.info = h.info ∧ h₂.links = h.links.relink x :=
  hx.assign _ _ (fun _ ha => Links.next_relink ha) (fun _ hb => Links.prev_relink hb)
    Links.prev_relink_of_none

theorem known_iff : h.Known p ↔ p < h.nodes.length := by
  simp [Known, info]

theorem length_congr (hinfo : h'.info = h.info) : h'.nodes.length = h.nodes.length := by
  refine eq_of_forall_lt_iff fun p => ?_
  rw [← known_iff, ← known_iff, Known, Known, hinfo]

theorem known_congr (hinfo : h'.info = h.info) : h'.Known = h.Known := by
  funext p
  rw [Known, Known, hinfo]

section Pair

variable {e m id id' : ℕ} {value value' : Option (EntryValue ι ο)} {matching : Option ℕ}

/-- `lift` is `unlink` for both nodes. -/
theorem lift_eq (he : h.info e = some (value, some m, id))
    (hm : h.info m = some (value', matching, id')) (hNe : HasNeighbours h.links h.Known e)
    (hnext : ∃ b, h.links.next e = some b) (hNm : HasNeighbours (h.links.unlink e) h.Known m) :
    ∃ h', h.lift (some e) = some h' ∧ h'.info = h.info ∧
      h'.links = (h.links.unlink e).unlink m := by
  obtain ⟨h₁, h₂, hset₁, hinfo₁, hnext₁, hprev₁, hset₂, hinfo₂, hlinks₂⟩ := hNe.unlink
  rw [← hlinks₂, ← known_congr hinfo₂] at hNm
  obtain ⟨h₃, h₄, hset₃, hinfo₃, hnext₃, hprev₃, hset₄, hinfo₄, hlinks₄⟩ := hNm.unlink
  obtain ⟨b, hb⟩ := hnext
  rw [hb] at hset₁ hset₂ hnext₁
  refine ⟨h₄, ?_, hinfo₄.trans hinfo₂, by rw [hlinks₄, hlinks₂]⟩
  simp only [lift, deref_eq he, Option.bind_eq_bind, Option.bind_some, hb, hset₁,
    deref_eq (hinfo₁ ▸ he), hnext₁, hprev₁, hset₂, deref_eq (hinfo₂ ▸ he),
    deref_eq (hinfo₂ ▸ hm), hset₃, deref_eq ((hinfo₃.trans hinfo₂) ▸ hm), hnext₃, hprev₃]
  rcases hd : h₂.links.next m with _ | d <;> rw [hd] at hset₄ <;> exact hset₄

/-- `unlift` is `relink` for both nodes. -/
theorem unlift_eq (he : h.info e = some (value, some m, id))
    (hm : h.info m = some (value', matching, id')) (hNm : HasNeighbours h.links h.Known m)
    (hNe : HasNeighbours (h.links.relink m) h.Known e)
    (hnext : ∃ b, (h.links.relink m).next e = some b) :
    ∃ h', h.unlift (some e) = some h' ∧ h'.info = h.info ∧
      h'.links = (h.links.relink m).relink e := by
  obtain ⟨h₁, h₂, hset₁, hinfo₁, hnext₁, hprev₁, hset₂, hinfo₂, hlinks₂⟩ := hNm.relink
  rw [← hlinks₂, ← known_congr hinfo₂] at hNe
  obtain ⟨h₃, h₄, hset₃, hinfo₃, hnext₃, hprev₃, hset₄, hinfo₄, hlinks₄⟩ := hNe.relink
  obtain ⟨b, hb⟩ := hnext
  rw [← hlinks₂] at hb
  rw [hb] at hset₄ hnext₃
  refine ⟨h₄, ?_, hinfo₄.trans hinfo₂, by rw [hlinks₄, hlinks₂]⟩
  rcases hd : h.links.next m with _ | d
  · rw [hd] at hset₂ hnext₁
    cases hset₂
    simp only [unlift, deref_eq he, Option.bind_eq_bind, Option.bind_some, deref_eq hm, hset₁,
      deref_eq (hinfo₁ ▸ hm), hnext₁, deref_eq (hinfo₂ ▸ he), hset₃,
      deref_eq ((hinfo₃.trans hinfo₂) ▸ he), hnext₃, hset₄]
  · rw [hd] at hset₂ hnext₁
    simp only [unlift, deref_eq he, Option.bind_eq_bind, Option.bind_some, deref_eq hm, hset₁,
      deref_eq (hinfo₁ ▸ hm), hnext₁, hset₂, deref_eq (hinfo₂ ▸ he), hset₃,
      deref_eq ((hinfo₃.trans hinfo₂) ▸ he), hnext₃, hset₄]

end Pair

/-- A node of a list has neighbours. -/
theorem HasNeighbours.of_linked {L : Links ℕ} {known : ℕ → Prop} {a : ℕ} {A B : List ℕ}
    (hL : L.Linked a (A ++ x :: B)) (hn : (a :: (A ++ x :: B)).Nodup)
    (hknown : ∀ p ∈ a :: (A ++ x :: B), known p) : HasNeighbours L known x := by
  rw [← List.cons_append] at hn hknown
  obtain ⟨hA, hxB, hdisj⟩ := List.nodup_append'.mp hn
  obtain ⟨p, hp, -, hprev, hB, -⟩ := hL.split hA
  refine ⟨⟨p, hprev, ?_, hknown p (List.mem_append_left _ hp)⟩, fun b hb => ?_⟩
  · rintro rfl
    exact hdisj hp List.mem_cons_self
  · have hbB : b ∈ B := List.mem_of_mem_head? (hB.next_eq ▸ hb)
    refine ⟨?_, hknown b (List.mem_append_right _ (List.mem_cons_of_mem _ hbB))⟩
    rintro rfl
    exact (List.nodup_cons.mp hxB).1 hbB

/-- It keeps them when it is taken out. -/
theorem HasNeighbours.unlink_self {L : Links ℕ} {known : ℕ → Prop} {a : ℕ} {A B : List ℕ}
    (hL : L.Linked a (A ++ x :: B)) (hn : (a :: (A ++ x :: B)).Nodup)
    (hx : HasNeighbours L known x) : HasNeighbours (L.unlink x) known x := by
  obtain ⟨hnext, hprev⟩ := hL.unlink_self hn
  refine ⟨?_, ?_⟩
  · rw [hprev]
    exact hx.prev
  · rw [hnext]
    exact hx.next

/-- **`lift` and `unlift`.** `lift` takes the two nodes of an operation out of the list, and
`unlift` then gives back the heap as it was. -/
theorem lift_spec {a e m id id' : ℕ} {A B C : List ℕ} {value value' : Option (EntryValue ι ο)}
    {matching : Option ℕ} (hL : h.links.Linked a (A ++ e :: (B ++ m :: C)))
    (hn : (a :: (A ++ e :: (B ++ m :: C))).Nodup)
    (hknown : ∀ p ∈ a :: (A ++ e :: (B ++ m :: C)), h.Known p)
    (he : h.info e = some (value, some m, id)) (hm : h.info m = some (value', matching, id')) :
    ∃ h', h.lift (some e) = some h' ∧ h'.info = h.info ∧ h'.links.Linked a (A ++ (B ++ C)) ∧
      h'.unlift (some e) = some h := by
  have hNe := HasNeighbours.of_linked hL hn hknown
  have hnext : ∃ b, h.links.next e = some b := by
    rw [← List.cons_append] at hn
    obtain ⟨_, _, _, _, hB, _⟩ := hL.split (List.nodup_append'.mp hn).1
    rw [hB.next_eq]
    exact ⟨_, List.head?_eq_some_head (by simp)⟩
  -- the list without `e`
  have hL₁ : (h.links.unlink e).Linked a ((A ++ B) ++ m :: C) := by
    rw [List.append_assoc]
    exact hL.unlink hn
  have hsub : (a :: ((A ++ B) ++ m :: C)).Sublist (a :: (A ++ e :: (B ++ m :: C))) := by
    rw [List.append_assoc]
    exact ((List.sublist_cons_self _ _).append_left _).cons_cons a
  have hn₁ := hn.sublist hsub
  have hNm := HasNeighbours.of_linked hL₁ hn₁ fun p hp => hknown p (hsub.subset hp)
  obtain ⟨h', hlift, hinfo', hlinks'⟩ := lift_eq he hm hNe hnext hNm
  refine ⟨h', hlift, hinfo', ?_, ?_⟩
  · rw [hlinks', ← List.append_assoc]
    exact hL₁.unlink hn₁
  · have hback : h'.links.relink m = h.links.unlink e := by rw [hlinks', hL₁.relink_unlink hn₁]
    obtain ⟨g, hunlift, hinfo, hlinks⟩ := unlift_eq (hinfo' ▸ he) (hinfo' ▸ hm)
      (by rw [hlinks', known_congr hinfo']; exact hNm.unlink_self hL₁ hn₁)
      (by rw [hback, known_congr hinfo']; exact hNe.unlink_self hL hn)
      (by rw [hback, (hL.unlink_self hn).1]; exact hnext)
    rw [hback, hL.relink_unlink hn] at hlinks
    rw [hunlift, eq_of_links hlinks (hinfo.trans hinfo')]

/-! ### Building the list

`makeLinkedEntries` goes through the entries from the last to the first and inserts each in front of
what is there. Its map has, for each operation, the node of the return that was met last, and a call
takes its match from there. Nothing is assumed about the entries: a call without a return has no
match, and a second return of an operation replaces the first. -/

/-- A new node has no pointers. -/
theorem links_append {node : Node ι ο} (hnext : node.next = none) (hprev : node.prev = none) :
    (Heap.mk (h.nodes ++ [node])).links = h.links := by
  have hlast : ∀ (f : Node ι ο → Option ℕ), f node = none → ∀ p : ℕ,
      (h.nodes ++ [node])[p]?.bind f = h.nodes[p]?.bind f := by
    intro f hf p
    rcases lt_trichotomy p h.nodes.length with hlt | rfl | hgt
    · rw [List.getElem?_append_left hlt]
    · simp [hf]
    · rw [List.getElem?_eq_none (by simp; omega), List.getElem?_eq_none (by omega)]
  ext1
  · exact funext (hlast _ hnext)
  · exact funext (hlast _ hprev)

theorem info_append (node : Node ι ο) : (Heap.mk (h.nodes ++ [node])).info =
    Function.update h.info h.nodes.length (some (node.value, node.matching, node.id)) := by
  funext p
  rcases lt_trichotomy p h.nodes.length with hlt | rfl | hgt
  · rw [Function.update_of_ne hlt.ne, info, info, List.getElem?_append_left hlt]
  · simp [info]
  · rw [Function.update_of_ne hgt.ne', info, info, List.getElem?_eq_none (by simp; omega),
      List.getElem?_eq_none (by omega)]

/-- `insertBefore`, in front of a list. -/
theorem insertBefore_spec {n r : ℕ} (hn : h.Known n) (hr : h.Known r)
    (hprev : h.links.prev r = none) :
    ∃ h', h.insertBefore n (some r) = some h' ∧ h'.info = h.info ∧
      h'.links =
        ⟨Function.update h.links.next n (some r), Function.update h.links.prev r (some n)⟩ := by
  obtain ⟨⟨value, matching, id⟩, hinfo⟩ := Option.isSome_iff_exists.mp hr
  obtain ⟨h₁, hset₁, hinfo₁, hlinks₁⟩ := setPrev_spec hr (some n)
  rw [← known_congr hinfo₁] at hn
  obtain ⟨h₂, hset₂, hinfo₂, hlinks₂⟩ := setNext_spec hn (some r)
  refine ⟨h₂, ?_, hinfo₂.trans hinfo₁, by rw [hlinks₂, hlinks₁]⟩
  simp only [insertBefore, deref_eq hinfo, Option.bind_eq_bind, Option.bind_some, hset₁, hset₂,
    hprev]

/-- **`length`** counts the nodes of a list. -/
theorem lengthLoop_of_linked {l : List ℕ} (hL : h.links.Linked p l)
    (hknown : ∀ q ∈ p :: l, h.Known q) {fuel : ℕ} (hfuel : l.length < fuel) (k : ℕ) :
    h.lengthLoop fuel (some p) k = some (k + l.length + 1) := by
  induction l generalizing p fuel k with
  | nil =>
    obtain ⟨fuel, rfl⟩ := Nat.exists_eq_succ_of_ne_zero hfuel.ne_bot
    obtain ⟨⟨value, matching, id⟩, hinfo⟩ :=
      Option.isSome_iff_exists.mp (hknown p List.mem_cons_self)
    have hderef := deref_eq hinfo
    rw [deref, Option.bind_some] at hderef
    simp only [lengthLoop, hderef, Option.bind_eq_bind, Option.bind_some,
      show h.links.next p = none from hL]
    rfl
  | cons b l ih =>
    obtain ⟨fuel, rfl⟩ := Nat.exists_eq_succ_of_ne_zero hfuel.ne_bot
    obtain ⟨⟨value, matching, id⟩, hinfo⟩ :=
      Option.isSome_iff_exists.mp (hknown p List.mem_cons_self)
    have hderef := deref_eq hinfo
    rw [deref, Option.bind_some] at hderef
    have hrest := ih hL.2.2 (fun q hq => hknown q (List.mem_cons_of_mem _ hq))
      (Nat.lt_of_succ_lt_succ hfuel) (k + 1)
    simp only [lengthLoop, hderef, Option.bind_eq_bind, Option.bind_some, hL.1, hrest,
      List.length_cons]
    congr 1
    omega

end Heap

/-- The pointers below `n`, the highest first. -/
def pointers : ℕ → List ℕ
  | 0 => []
  | n + 1 => n :: pointers n

theorem mem_pointers {n p : ℕ} : p ∈ pointers n ↔ p < n := by
  induction n with
  | zero => simp [pointers]
  | succ n ih =>
    rw [pointers, List.mem_cons, ih]
    omega

theorem pairwise_pointers (n : ℕ) : (pointers n).Pairwise (· > ·) := by
  induction n with
  | zero => exact List.Pairwise.nil
  | succ n ih => exact List.pairwise_cons.mpr ⟨fun p hp => mem_pointers.mp hp, ih⟩

@[simp] theorem length_pointers (n : ℕ) : (pointers n).length = n := by
  induction n with
  | zero => rfl
  | succ n ih => rw [pointers, List.length_cons, ih]

/-- The entry at pointer `q` is the return of operation `id`. -/
def ReturnAt (rev : List (Entry ι ο)) (q id : ℕ) : Prop :=
  ∃ output t, rev[q]? = some ⟨.returnEntry output, id, t⟩

/-- The field `match` of a node: a return has none, and a call has the return that was in the map.
-/
structure MatchOk (rev : List (Entry ι ο)) (p : ℕ) (e : Entry ι ο) (matching : Option ℕ) :
    Prop where
  ofReturn : ∀ output, e.value = .returnEntry output → matching = none
  /-- The match of a call is a return of the same operation that is further back in the list. -/
  some : ∀ q, matching = some q → q < p ∧ ReturnAt rev q e.id
  /-- A call without a match has no such return. -/
  none : ∀ input, e.value = .callEntry input → matching = none → ∀ q < p, ¬ ReturnAt rev q e.id

/-- What `makeLinkedEntries` has built of `entries`. -/
structure Built (entries : List (Entry ι ο)) (b : Builder ι ο) : Prop where
  length : b.heap.nodes.length = entries.length
  /-- The list begins with the node that was allocated last. -/
  root : b.root = (pointers entries.length).head?
  /-- And it goes down to the first one. -/
  linked : ∀ n, entries.length = n + 1 →
    b.heap.links.Linked n (pointers n) ∧ b.heap.links.prev n = none
  /-- Each node has its entry, and the match that the entry should have. -/
  info : ∀ p e, entries.reverse[p]? = some e → ∃ matching,
    b.heap.info p = some (some e.value, matching, e.id) ∧ MatchOk entries.reverse p e matching
  /-- The map has the returns that were met so far. -/
  matchMap_some : ∀ id q, b.matchMap id = some q → ReturnAt entries.reverse q id
  matchMap_none : ∀ id, b.matchMap id = none → ∀ q, ¬ ReturnAt entries.reverse q id

theorem ReturnAt.append {rev : List (Entry ι ο)} {q id : ℕ} (h : ReturnAt rev q id)
    (e : Entry ι ο) : ReturnAt (rev ++ [e]) q id := by
  obtain ⟨output, t, hq⟩ := h
  refine ⟨output, t, ?_⟩
  rw [List.getElem?_append_left (List.getElem?_eq_some_iff.mp hq).1, hq]

/-- The last entry is new. -/
theorem returnAt_append {rev : List (Entry ι ο)} {e : Entry ι ο} {q id : ℕ}
    (h : ReturnAt (rev ++ [e]) q id) : ReturnAt rev q id ∨
      q = rev.length ∧ e.id = id ∧ ∃ output, e.value = .returnEntry output := by
  obtain ⟨output, t, hq⟩ := h
  rcases lt_or_ge q rev.length with hlt | hge
  · rw [List.getElem?_append_left hlt] at hq
    exact Or.inl ⟨output, t, hq⟩
  · have hlast : q = rev.length := by
      have := (List.getElem?_eq_some_iff.mp hq).1
      rw [List.length_append, List.length_singleton] at this
      omega
    rw [hlast, List.getElem?_concat_length] at hq
    cases hq
    exact Or.inr ⟨hlast, rfl, output, rfl⟩

/-- A match stays a match when entries are put in front of the list. -/
theorem MatchOk.append {rev : List (Entry ι ο)} {p : ℕ} {e : Entry ι ο} {matching : Option ℕ}
    (h : MatchOk rev p e matching) (hp : p < rev.length) (e' : Entry ι ο) :
    MatchOk (rev ++ [e']) p e matching := by
  refine ⟨h.ofReturn, fun q hq => ⟨(h.some q hq).1, (h.some q hq).2.append e'⟩,
    fun input hin hnone q hq hret => ?_⟩
  rcases returnAt_append hret with hret | ⟨rfl, -⟩
  · exact h.none input hin hnone q hq hret
  · omega

section Add

variable {entries : List (Entry ι ο)} {b : Builder ι ο}

/-- `length` of the list. -/
theorem Built.heap_length (hB : Built entries b) : b.heap.length b.root = some entries.length := by
  rw [Heap.length, hB.root, hB.length]
  rcases hn : entries.length with _ | n
  · rfl
  · have hknown : ∀ q ∈ n :: pointers n, b.heap.Known q := by
      intro q hq
      rw [Heap.known_iff, hB.length, hn]
      exact mem_pointers.mp (show q ∈ pointers (n + 1) from hq)
    have hfuel : (pointers n).length < n + 1 := by
      rw [length_pointers]
      exact n.lt_succ_self
    have hloop := Heap.lengthLoop_of_linked (hB.linked n hn).1 hknown hfuel 0
    rw [length_pointers, Nat.zero_add] at hloop
    exact hloop

/-- The node in front of the others. -/
theorem Built.insert (hB : Built entries b) (node : Node ι ο) (hnext : node.next = none)
    (hprev : node.prev = none) : ∃ heap,
      Heap.insertBefore ⟨b.heap.nodes ++ [node]⟩ entries.length b.root = some heap ∧
      heap.nodes.length = entries.length + 1 ∧
      heap.info = Function.update b.heap.info entries.length
        (some (node.value, node.matching, node.id)) ∧
      heap.links.Linked entries.length (pointers entries.length) ∧
      heap.links.prev entries.length = none := by
  have hlinks := Heap.links_append (h := b.heap) hnext hprev
  have hinfo := Heap.info_append (h := b.heap) node
  rw [hB.length] at hinfo
  have hlen : (Heap.mk (b.heap.nodes ++ [node])).nodes.length = entries.length + 1 := by
    rw [List.length_append, hB.length, List.length_singleton]
  have hout : b.heap.links.next entries.length = none ∧
      b.heap.links.prev entries.length = none := by
    simp [Heap.links, ← hB.length]
  rcases hn : entries.length with _ | n <;> rw [hn] at hlen hinfo hout
  · refine ⟨⟨b.heap.nodes ++ [node]⟩, ?_, hlen, hinfo, ?_, ?_⟩
    · rw [hB.root, hn]
      rfl
    · rw [hlinks]
      exact hout.1
    · rw [hlinks]
      exact hout.2
  · obtain ⟨hL, hfirst⟩ := hB.linked n hn
    obtain ⟨heap, hins, hinfo', hlinks'⟩ := Heap.insertBefore_spec
      (h := ⟨b.heap.nodes ++ [node]⟩) (n := n + 1) (r := n)
      (Heap.known_iff.mpr (by omega)) (Heap.known_iff.mpr (by omega)) (by rw [hlinks, hfirst])
    rw [hlinks] at hlinks'
    refine ⟨heap, ?_, by rw [Heap.length_congr hinfo', hlen], by rw [hinfo', hinfo],
      ⟨?_, ?_, hL.congr (fun y hy => ?_) fun y hy => ?_⟩, ?_⟩
    · rw [hB.root, hn]
      exact hins
    · rw [hlinks']
      exact Function.update_self ..
    · rw [hlinks']
      exact Function.update_self ..
    · have hy' : y < n + 1 := mem_pointers.mp (show y ∈ pointers (n + 1) from hy)
      rw [hlinks']
      exact Function.update_of_ne hy'.ne ..
    · rw [hlinks']
      exact Function.update_of_ne (mem_pointers.mp hy).ne ..
    · rw [hlinks']
      exact (Function.update_of_ne n.succ_ne_self ..).trans hout.2

/-- A round of the loop, with the values of `match` and of the map behind it. -/
theorem Built.add_node (hB : Built entries b) {e : Entry ι ο} {matching : Option ℕ}
    {matchMap : ℕ → Option ℕ}
    (hmatch : MatchOk (entries.reverse ++ [e]) entries.length e matching)
    (hsome : ∀ id q, matchMap id = some q → ReturnAt (entries.reverse ++ [e]) q id)
    (hnone : ∀ id, matchMap id = none → ∀ q, ¬ ReturnAt (entries.reverse ++ [e]) q id) :
    ∃ heap, Heap.insertBefore ⟨b.heap.nodes ++ [⟨some e.value, matching, e.id, none, none⟩]⟩
        entries.length b.root = some heap ∧
      Built (e :: entries) ⟨heap, some entries.length, matchMap⟩ := by
  obtain ⟨heap, hins, hlen, hinfo, hL, hprev⟩ := hB.insert
    ⟨some e.value, matching, e.id, none, none⟩ rfl rfl
  rw [← List.reverse_cons] at hsome hnone
  refine ⟨heap, hins, ⟨hlen, rfl, fun n hn => ?_, fun p e' hp => ?_, hsome, hnone⟩⟩
  · cases hn
    exact ⟨hL, hprev⟩
  · rw [List.reverse_cons] at hp ⊢
    rcases lt_or_ge p entries.reverse.length with hlt | hge
    · rw [List.getElem?_append_left hlt] at hp
      obtain ⟨matching', hinfo', hmatch'⟩ := hB.info p e' hp
      refine ⟨matching', ?_, hmatch'.append hlt e⟩
      rw [List.length_reverse] at hlt
      rw [hinfo, Function.update_of_ne hlt.ne, hinfo']
    · have hlast : p = entries.reverse.length := by
        have := (List.getElem?_eq_some_iff.mp hp).1
        rw [List.length_append, List.length_singleton] at this
        omega
      rw [hlast, List.getElem?_concat_length] at hp
      cases hp
      rw [hlast, List.length_reverse]
      exact ⟨matching, by rw [hinfo, Function.update_self], hmatch⟩

theorem Built.add_call (hB : Built entries b) {e : Entry ι ο} {input : ι}
    (hv : e.value = .callEntry input) :
    ∃ b', Builder.add e b = some b' ∧ Built (e :: entries) b' := by
  -- no return is new
  have hold : ∀ {q id}, ReturnAt (entries.reverse ++ [e]) q id → ReturnAt entries.reverse q id := by
    intro q id hret
    rcases returnAt_append hret with hret | ⟨_, _, output, houtput⟩
    · exact hret
    · rw [hv] at houtput
      cases houtput
  have hmatch : MatchOk (entries.reverse ++ [e]) entries.length e (b.matchMap e.id) := by
    refine ⟨fun output h => (nomatch hv.symm.trans h), fun q hq => ?_, fun _ _ hnone q _ hret => ?_⟩
    · have hret := hB.matchMap_some e.id q hq
      refine ⟨?_, hret.append e⟩
      obtain ⟨_, _, hq'⟩ := hret
      rw [← List.length_reverse]
      exact (List.getElem?_eq_some_iff.mp hq').1
    · exact hB.matchMap_none e.id hnone q (hold hret)
  obtain ⟨heap, hins, hbuilt⟩ := hB.add_node hmatch
    (fun id q hq => (hB.matchMap_some id q hq).append e)
    fun id hid q hret => hB.matchMap_none id hid q (hold hret)
  refine ⟨_, ?_, hbuilt⟩
  rw [hv] at hins
  simp only [Builder.add, hv, hB.length, hins, Option.bind_eq_bind, Option.bind_some,
    Option.pure_def]

theorem Built.add_return (hB : Built entries b) {e : Entry ι ο} {output : ο}
    (hv : e.value = .returnEntry output) :
    ∃ b', Builder.add e b = some b' ∧ Built (e :: entries) b' := by
  have hmatch : MatchOk (entries.reverse ++ [e]) entries.length e none :=
    ⟨fun _ _ => rfl, nofun, fun input h => (nomatch hv.symm.trans h)⟩
  have hnew : ReturnAt (entries.reverse ++ [e]) entries.length e.id := by
    refine ⟨output, e.time, ?_⟩
    rw [← List.length_reverse, List.getElem?_concat_length, ← hv]
  have hsome : ∀ id q, Function.update b.matchMap e.id (some entries.length) id = some q →
      ReturnAt (entries.reverse ++ [e]) q id := by
    intro id q hq
    rcases eq_or_ne id e.id with rfl | hne
    · rw [Function.update_self] at hq
      cases hq
      exact hnew
    · rw [Function.update_of_ne hne] at hq
      exact (hB.matchMap_some id q hq).append e
  have hnone : ∀ id, Function.update b.matchMap e.id (some entries.length) id = none →
      ∀ q, ¬ ReturnAt (entries.reverse ++ [e]) q id := by
    intro id hid q hret
    rcases eq_or_ne id e.id with rfl | hne
    · rw [Function.update_self] at hid
      cases hid
    · rw [Function.update_of_ne hne] at hid
      rcases returnAt_append hret with hret | ⟨_, hid', -⟩
      · exact hB.matchMap_none id hid q hret
      · exact hne hid'.symm
  obtain ⟨heap, hins, hbuilt⟩ := hB.add_node hmatch hsome hnone
  refine ⟨_, ?_, hbuilt⟩
  rw [hv] at hins
  simp only [Builder.add, hv, hB.length, hins, Option.bind_eq_bind, Option.bind_some,
    Option.pure_def]

end Add

/-- **`makeLinkedEntries`** builds the list. -/
theorem makeLinkedEntries_spec (entries : List (Entry ι ο)) :
    ∃ b, makeLinkedEntries entries = some b ∧ Built entries b := by
  induction entries with
  | nil =>
    exact ⟨_, rfl, rfl, rfl, nofun, nofun, nofun, fun _ _ q ⟨_, _, hq⟩ => nomatch hq⟩
  | cons e entries ih =>
    obtain ⟨b, hb, hB⟩ := ih
    have hadd : ∃ b', Builder.add e b = some b' ∧ Built (e :: entries) b' := by
      rcases hv : e.value with input | output
      · exact hB.add_call hv
      · exact hB.add_return hv
    obtain ⟨b', hb', hB'⟩ := hadd
    refine ⟨b', ?_, hB'⟩
    rw [makeLinkedEntries, List.foldrM_cons]
    rw [makeLinkedEntries] at hb
    rw [hb]
    exact hb'

end Linearizability

end Distsys
