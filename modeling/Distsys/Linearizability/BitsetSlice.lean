import Distsys.Lib.SliceHeap
import Distsys.Linearizability.Bitset

/-!
# Bitsets in memory

`bitset` is the type `[]uint64`. `set` and `clear` write to the words behind their slice and return
the same slice, so everybody who has it sees the change. `clone` allocates words of its own and
copies. The search depends on this: it keeps `linearized.clone().set(id)` in its memo table and then
goes on to write to `linearized`.

Here the operations work on a heap of word arrays, line by line as in the source. The operations on
values in `Bitset` are what they do to the words of their slice, and `Apart` slices do not notice.
Operations that only read are those of `Bitset`, on the words that the slice has at that time.

## Main definitions

* `BitsetSlice.words` — the words behind a slice
* `BitsetSlice.new`, `BitsetSlice.clone`, `BitsetSlice.set`, `BitsetSlice.clear`

## Main results

* `BitsetSlice.words_new`, `BitsetSlice.words_clone`, `BitsetSlice.words_set`,
  `BitsetSlice.words_clear`
* `BitsetSlice.clone_apart` — the words of a clone are its own
-/

namespace Distsys

namespace Linearizability

namespace BitsetSlice

variable {m m' : SliceHeap (BitVec 64)} {b b' q : Slice} {pos : ℕ}

/-- The words behind a slice, now. -/
def words (m : SliceHeap (BitVec 64)) (b : Slice) : Bitset := ⟨m.read b⟩

/-- `newBitset`. -/
def new (bits : ℕ) (m : SliceHeap (BitVec 64)) : SliceHeap (BitVec 64) × Slice :=
  let extra := if bits % 64 ≠ 0 then 1 else 0
  let chunks := bits / 64 + extra
  m.make 0 chunks

/-- `clone`. -/
def clone (m : SliceHeap (BitVec 64)) (b : Slice) : SliceHeap (BitVec 64) × Slice :=
  let (m, dataCopy) := m.make 0 b.length
  (m.copy dataCopy b, dataCopy)

/-- `b[major] = f(b[major])`, and `b` is returned. -/
def update (m : SliceHeap (BitVec 64)) (b : Slice) (major : ℕ) (f : BitVec 64 → BitVec 64) :
    Option (SliceHeap (BitVec 64) × Slice) :=
  (m.get b major).bind fun v => (m.set b major (f v)).map fun m => (m, b)

/-- `set`. -/
def set (m : SliceHeap (BitVec 64)) (b : Slice) (pos : ℕ) :
    Option (SliceHeap (BitVec 64) × Slice) :=
  let (major, minor) := Bitset.index pos
  update m b major fun v => v ||| (1#64 <<< minor)

/-- `clear`. -/
def clear (m : SliceHeap (BitVec 64)) (b : Slice) (pos : ℕ) :
    Option (SliceHeap (BitVec 64) × Slice) :=
  let (major, minor) := Bitset.index pos
  update m b major fun v => v &&& ~~~(1#64 <<< minor)

/-- The slices have no words in common: they are into different arrays. -/
def Apart (b q : Slice) : Prop := b.array ≠ q.array

/-! ### New words

`make` gives zeroed words in an array of their own. -/

theorem words_new (bits : ℕ) (m : SliceHeap (BitVec 64)) :
    words (new bits m).1 (new bits m).2 = Bitset.new bits :=
  congrArg Bitset.mk (SliceHeap.read_make m 0 _)

theorem valid_new (bits : ℕ) (m : SliceHeap (BitVec 64)) : (new bits m).1.Valid (new bits m).2 :=
  SliceHeap.valid_make m 0 _

theorem make_apart (hq : m.Valid q) (length : ℕ) : Apart q (m.make 0 length).2 :=
  Nat.ne_of_lt hq.array

theorem words_make (hq : m.Valid q) (length : ℕ) : words (m.make 0 length).1 q = words m q :=
  congrArg Bitset.mk (hq.read_alloc _ _)

/-! ### `clone`

Two statements: allocate as many words, and `copy` into them. The words of the original are read
before anything is written, and nothing is written but the new array. -/

/-- The clone has the words of the original, -/
theorem words_clone (hb : m.Valid b) : words (clone m b).1 (clone m b).2 = (words m b).clone := by
  have hlen : (m.make 0 b.length).2.length = b.length := rfl
  have hcopy := SliceHeap.read_copy (hb.alloc (List.replicate b.length 0) b.length)
    (SliceHeap.valid_make m 0 b.length) hlen
  rw [Bitset.clone_eq]
  exact congrArg Bitset.mk (hcopy.trans (hb.read_alloc _ _))

/-- The new words are as many as are copied. -/
theorem clone_room (m : SliceHeap (BitVec 64)) (b : Slice) :
    (m.make 0 b.length).2.offset +
        (((m.make 0 b.length).1.read b).take (m.make 0 b.length).2.length).length ≤
      ((m.make 0 b.length).1.cells (m.make 0 b.length).2.array).length := by
  have hroom := (SliceHeap.valid_make m 0 b.length).room
  have htake : (((m.make 0 b.length).1.read b).take (m.make 0 b.length).2.length).length ≤
      (m.make 0 b.length).2.length := by
    rw [List.length_take]
    exact Nat.min_le_left _ _
  omega

theorem valid_clone (m : SliceHeap (BitVec 64)) (b : Slice) :
    (clone m b).1.Valid (clone m b).2 :=
  (SliceHeap.valid_make m 0 b.length).write (clone_room m b)

/-- in an array of its own, -/
theorem clone_apart (hq : m.Valid q) (b : Slice) : Apart q (clone m b).2 :=
  make_apart hq b.length

/-- and nothing else changes. -/
theorem words_clone_of_valid (b : Slice) (hq : m.Valid q) :
    (clone m b).1.Valid q ∧ words (clone m b).1 q = words m q := by
  refine ⟨(hq.alloc _ _).write (clone_room m b), ?_⟩
  have hne : (m.make 0 b.length).2.array ≠ q.array := (Nat.ne_of_lt hq.array).symm
  exact congrArg Bitset.mk ((SliceHeap.read_write_of_ne hne).trans
    (hq.read_alloc (List.replicate b.length 0) b.length))

/-! ### `set` and `clear`

A write to one word. The result is the same slice, so the source may or may not use what is
returned. -/

section Update

variable {major : ℕ} {f : BitVec 64 → BitVec 64}

/-- An update is seen through its slice. -/
theorem words_update (hb : m.Valid b) (h : update m b major f = some (m', b')) :
    b' = b ∧ m'.Valid b ∧ ∃ v, (m.read b)[major]? = some v ∧
      words m' b = ⟨(m.read b).set major (f v)⟩ := by
  obtain ⟨v, hv, h⟩ := Option.bind_eq_some_iff.mp h
  obtain ⟨m₁, hset, heq⟩ := Option.map_eq_some_iff.mp h
  cases heq
  refine ⟨rfl, ?_, v, hv, congrArg Bitset.mk (SliceHeap.read_set hb hset)⟩
  unfold SliceHeap.set at hset
  split at hset
  · rename_i hlt
    cases hset
    have hroom := hb.room
    exact hb.write (by simp only [List.length_singleton]; omega)
  · cases hset

theorem update_eq_none (h : (m.read b)[major]? = none) : update m b major f = none := by
  rw [update, SliceHeap.get, h, Option.bind_none]

theorem exists_update (hb : m.Valid b) {v : BitVec 64} (hv : (m.read b)[major]? = some v) :
    ∃ m', update m b major f = some (m', b) := by
  have hlt : major < b.length := hb.length_read ▸ (List.getElem?_eq_some_iff.mp hv).1
  exact ⟨_, by rw [update, SliceHeap.get, hv, Option.bind_some, SliceHeap.set, if_pos hlt,
    Option.map_some]⟩

/-- Slices that are apart do not see it. -/
theorem words_update_of_apart (hb : m.Valid b) (h : update m b major f = some (m', b'))
    (hapart : Apart q b) (hq : m.Valid q) : m'.Valid q ∧ words m' q = words m q := by
  obtain ⟨v, hv, h⟩ := Option.bind_eq_some_iff.mp h
  obtain ⟨m₁, hset, heq⟩ := Option.map_eq_some_iff.mp h
  cases heq
  unfold SliceHeap.set at hset
  split at hset
  · rename_i hlt
    cases hset
    have hroom := hb.room
    refine ⟨hq.write (by simp only [List.length_singleton]; omega), ?_⟩
    exact congrArg Bitset.mk (SliceHeap.read_write_of_ne hapart.symm)
  · cases hset

end Update

/-- **`set`** in memory is `set` of the words, -/
theorem words_set (hb : m.Valid b) :
    (set m b pos).map (fun x => words x.1 x.2) = (words m b).set pos := by
  simp only [set, Bitset.set, words, Bitset.index]
  cases hv : (m.read b)[pos / 64]? with
  | none => rw [update_eq_none hv, Option.map_none, Option.map_none]
  | some v =>
    obtain ⟨m', h⟩ := exists_update (f := fun v => v ||| (1#64 <<< (pos % 64))) hb hv
    obtain ⟨_, _, v', hv', hwords⟩ := words_update hb h
    cases hv.symm.trans hv'
    rw [h, Option.map_some, Option.map_some]
    exact congrArg some hwords

/-- and so is `clear`. -/
theorem words_clear (hb : m.Valid b) :
    (clear m b pos).map (fun x => words x.1 x.2) = (words m b).clear pos := by
  simp only [clear, Bitset.clear, words, Bitset.index]
  cases hv : (m.read b)[pos / 64]? with
  | none => rw [update_eq_none hv, Option.map_none, Option.map_none]
  | some v =>
    obtain ⟨m', h⟩ := exists_update (f := fun v => v &&& ~~~(1#64 <<< (pos % 64))) hb hv
    obtain ⟨_, _, v', hv', hwords⟩ := words_update hb h
    cases hv.symm.trans hv'
    rw [h, Option.map_some, Option.map_some]
    exact congrArg some hwords

end BitsetSlice

end Linearizability

end Distsys
