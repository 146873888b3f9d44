import Mathlib.Data.List.Basic

/-!
# Slices that share arrays

A Go slice is a pointer into an array, with a length. Two slices into one array see each other's
writes. `append` writes behind the end of its slice if the array has room there, so it can change
what other slices see, and moves to a new array otherwise. How much room a new array gets is left to
the implementation of Go; here the caller says it.

An array is named by its number, in the order of allocation, and is never given back. Spare cells
hold a zero value that nobody reads.

## Main definitions

* `SliceHeap`, `Slice`, `SliceHeap.Valid`
* `SliceHeap.read` — the elements of a slice
* `SliceHeap.get`, `SliceHeap.set` — `s[i]` and `s[i] = v`
* `Slice.suffixFrom`, `Slice.upTo` — `s[i:]` and `s[:i]`
* `SliceHeap.make`, `SliceHeap.copy`, `SliceHeap.append`

## Main results

* `SliceHeap.read_append` — a slice that is appended to has the old and the new elements
* `SliceHeap.read_set`, `SliceHeap.read_copy`
* `SliceHeap.read_write_of_ne` — slices into other arrays see nothing of a write
-/

namespace Distsys

/-- The arrays that have been allocated, each with all its cells. -/
structure SliceHeap (β : Type*) where
  arrays : List (List β)
  deriving DecidableEq, Repr

/-- `length` cells of an array, from `offset` on. -/
structure Slice where
  /-- The number of the array in the heap. -/
  array : ℕ
  /-- Where the slice begins. -/
  offset : ℕ
  /-- How many cells it has. The capacity goes to the end of the array. -/
  length : ℕ
  deriving DecidableEq, Repr

namespace Slice

/-- `s[i:]`. -/
def suffixFrom (s : Slice) (i : ℕ) : Slice := ⟨s.array, s.offset + i, s.length - i⟩

/-- `s[:i]`. -/
def upTo (s : Slice) (i : ℕ) : Slice := { s with length := i }

end Slice

namespace SliceHeap

variable {β : Type*}

/-- The cells of an array. -/
def cells (h : SliceHeap β) (a : ℕ) : List β := h.arrays[a]?.getD []

/-- The elements of a slice. -/
def read (h : SliceHeap β) (s : Slice) : List β := ((h.cells s.array).drop s.offset).take s.length

/-- `s[i]`. -/
def get (h : SliceHeap β) (s : Slice) (i : ℕ) : Option β := (h.read s)[i]?

/-- Values are written to the cells of an array, from cell `i` on. -/
def write (h : SliceHeap β) (a i : ℕ) (vs : List β) : SliceHeap β where
  arrays := h.arrays.modify a fun cs => cs.take i ++ vs ++ cs.drop (i + vs.length)

/-- `s[i] = v`. -/
def set (h : SliceHeap β) (s : Slice) (i : ℕ) (v : β) : Option (SliceHeap β) :=
  if i < s.length then some (h.write s.array (s.offset + i) [v]) else none

/-- A new array with these cells, and the slice of the first `length` of them. -/
def alloc (h : SliceHeap β) (cs : List β) (length : ℕ) : SliceHeap β × Slice :=
  (⟨h.arrays ++ [cs]⟩, ⟨h.arrays.length, 0, length⟩)

/-- `make([]T, length)`. -/
def make (h : SliceHeap β) (zero : β) (length : ℕ) : SliceHeap β × Slice :=
  h.alloc (List.replicate length zero) length

/-- `copy(dst, src)`. -/
def copy (h : SliceHeap β) (dst src : Slice) : SliceHeap β :=
  h.write dst.array dst.offset ((h.read src).take dst.length)

/-- `append(s, vs...)`. If the array has no room for `vs` behind `s`, a new one is allocated, with
`spare` more cells than needed. -/
def append (h : SliceHeap β) (s : Slice) (vs : List β) (zero : β) (spare : ℕ) :
    SliceHeap β × Slice :=
  if s.offset + s.length + vs.length ≤ (h.cells s.array).length then
    (h.write s.array (s.offset + s.length) vs, { s with length := s.length + vs.length })
  else
    h.alloc (h.read s ++ vs ++ List.replicate spare zero) (s.length + vs.length)

/-- The slice is within an array. -/
structure Valid (h : SliceHeap β) (s : Slice) : Prop where
  /-- The array exists. -/
  array : s.array < h.arrays.length
  /-- It has the cells. -/
  room : s.offset + s.length ≤ (h.cells s.array).length

variable {h : SliceHeap β} {s t : Slice} {a b i j : ℕ} {vs : List β} {v zero : β}

theorem Valid.length_read (hs : h.Valid s) : (h.read s).length = s.length := by
  have := hs.room
  rw [read, List.length_take, List.length_drop]
  omega

/-! ### Parts of a slice

Reslicing does not touch memory. It is the reason that slices are not apart by construction. -/

theorem read_suffixFrom (h : SliceHeap β) (s : Slice) (i : ℕ) :
    h.read (s.suffixFrom i) = (h.read s).drop i := by
  simp only [read, Slice.suffixFrom, List.drop_take, List.drop_drop]

theorem read_upTo (hi : i ≤ s.length) : h.read (s.upTo i) = (h.read s).take i := by
  simp only [read, Slice.upTo, List.take_take, Nat.min_eq_left hi]

theorem Valid.upTo (hs : h.Valid s) (hi : i ≤ s.length) : h.Valid (s.upTo i) := by
  refine ⟨hs.array, ?_⟩
  have := hs.room
  simp only [Slice.upTo]
  omega

/-! ### New arrays

An array that is allocated is put at the end, so the arrays there were keep their numbers and their
cells. -/

theorem cells_alloc_of_lt {cs : List β} {length : ℕ} (ha : a < h.arrays.length) :
    (h.alloc cs length).1.cells a = h.cells a := by
  simp only [cells, alloc, List.getElem?_append_left ha]

theorem cells_alloc_self (h : SliceHeap β) (cs : List β) (length : ℕ) :
    (h.alloc cs length).1.cells h.arrays.length = cs := by
  simp [cells, alloc]

/-- Slices into older arrays do not change. -/
theorem Valid.read_alloc (hs : h.Valid s) (cs : List β) (length : ℕ) :
    (h.alloc cs length).1.read s = h.read s := by
  rw [read, cells_alloc_of_lt hs.array, read]

theorem Valid.alloc (hs : h.Valid s) (cs : List β) (length : ℕ) :
    (h.alloc cs length).1.Valid s := by
  refine ⟨?_, ?_⟩
  · simp only [SliceHeap.alloc, List.length_append]
    exact Nat.lt_of_lt_of_le hs.array (Nat.le_add_right _ _)
  · rw [cells_alloc_of_lt hs.array]
    exact hs.room

theorem valid_alloc {cs : List β} {length : ℕ} (hlen : length ≤ cs.length) :
    (h.alloc cs length).1.Valid (h.alloc cs length).2 := by
  refine ⟨by simp [SliceHeap.alloc], ?_⟩
  have hcells := cells_alloc_self h cs length
  simp only [SliceHeap.alloc] at hcells ⊢
  rw [hcells]
  omega

theorem read_alloc_self (h : SliceHeap β) (cs : List β) (length : ℕ) :
    (h.alloc cs length).1.read (h.alloc cs length).2 = cs.take length := by
  have hcells := cells_alloc_self h cs length
  simp only [read, SliceHeap.alloc] at hcells ⊢
  rw [hcells, List.drop_zero]

/-! ### Writes

Everything that changes memory is a write of some values to neighbouring cells of one array. One
lemma says what a slice into this array sees of it, and one that a slice into another array sees
nothing. -/

@[simp] theorem length_arrays_write (h : SliceHeap β) (a i : ℕ) (vs : List β) :
    (h.write a i vs).arrays.length = h.arrays.length := List.length_modify ..

theorem cells_write_of_ne (hne : a ≠ b) : (h.write a i vs).cells b = h.cells b := by
  simp [cells, write, hne]

theorem cells_write_self (ha : a < h.arrays.length) :
    (h.write a i vs).cells a =
      (h.cells a).take i ++ vs ++ (h.cells a).drop (i + vs.length) := by
  simp [cells, write, List.getElem?_eq_getElem ha]

/-- Slices into other arrays do not change. -/
theorem read_write_of_ne (hne : a ≠ s.array) : (h.write a i vs).read s = h.read s := by
  rw [read, cells_write_of_ne hne, read]

theorem length_cells_write (hle : i + vs.length ≤ (h.cells a).length) :
    ((h.write a i vs).cells b).length = (h.cells b).length := by
  rcases eq_or_ne a b with rfl | hne
  · by_cases ha : a < h.arrays.length
    · rw [cells_write_self ha]
      simp only [List.length_append, List.length_take, List.length_drop]
      omega
    · simp [cells, write, List.getElem?_eq_none (Nat.not_lt.mp ha)]
  · rw [cells_write_of_ne hne]

theorem Valid.write (hs : h.Valid s) (hle : i + vs.length ≤ (h.cells a).length) :
    (h.write a i vs).Valid s :=
  ⟨by rw [length_arrays_write]; exact hs.array, by rw [length_cells_write hle]; exact hs.room⟩

/-- What a slice sees of a write to its own cells. -/
theorem read_write_self (hs : h.Valid s) (i : ℕ) (vs : List β) (hle : i + vs.length ≤ s.length) :
    (h.write s.array (s.offset + i) vs).read s =
      (h.read s).take i ++ vs ++ (h.read s).drop (i + vs.length) := by
  have hroom := hs.room
  have hlen : ((h.cells s.array).take (s.offset + i)).length = s.offset + i := by
    rw [List.length_take]
    omega
  rw [read, cells_write_self hs.array, List.append_assoc,
    List.drop_append_of_le_length (by omega), List.drop_take, Nat.add_sub_cancel_left,
    List.take_append, List.take_append, read, List.take_take, List.drop_take, List.append_assoc]
  have hhead : (((h.cells s.array).drop s.offset).take i).length = i := by
    rw [List.length_take, List.length_drop]
    omega
  rw [hhead, List.take_take, Nat.min_eq_right (by omega), Nat.min_eq_left (by omega),
    List.take_of_length_le (by omega : vs.length ≤ s.length - i), List.drop_drop,
    Nat.sub_sub, ← Nat.add_assoc]

/-! ### The operations of Go

Each is an allocation, a write, or both. What a slice has afterwards is what the operation on lists
gives. -/

theorem read_make (h : SliceHeap β) (zero : β) (length : ℕ) :
    (h.make zero length).1.read (h.make zero length).2 = List.replicate length zero := by
  rw [make, read_alloc_self, List.take_of_length_le (by simp)]

theorem valid_make (h : SliceHeap β) (zero : β) (length : ℕ) :
    (h.make zero length).1.Valid (h.make zero length).2 := valid_alloc (by simp)

theorem read_set {h' : SliceHeap β} (hs : h.Valid s) (hset : h.set s i v = some h') :
    h'.read s = (h.read s).set i v := by
  unfold set at hset
  split at hset
  · rename_i hi
    cases hset
    have hlen := hs.length_read
    rw [read_write_self hs i [v] (by simpa [Nat.succ_le_iff] using hi),
      List.set_eq_take_append_cons_drop, if_pos (by omega)]
    simp
  · cases hset

/-- **`copy`** into a slice of the same length. -/
theorem read_copy (hs : h.Valid s) (ht : h.Valid t) (hlen : t.length = s.length) :
    (h.copy t s).read t = h.read s := by
  have hread := hs.length_read
  have htake : (h.read s).take t.length = h.read s := List.take_of_length_le (by omega)
  have hwrite := read_write_self ht 0 (h.read s) (by omega)
  rw [Nat.add_zero] at hwrite
  rw [copy, htake, hwrite, List.take_zero, List.nil_append, List.drop_of_length_le, List.append_nil]
  rw [ht.length_read]
  omega

/-- **`append`** gives a slice with the old and the new elements, -/
theorem read_append (hs : h.Valid s) (vs : List β) (zero : β) (spare : ℕ) :
    (h.append s vs zero spare).1.read (h.append s vs zero spare).2 = h.read s ++ vs := by
  have hread := hs.length_read
  unfold append
  split
  · rename_i hroom
    have hwide : h.Valid { s with length := s.length + vs.length } :=
      ⟨hs.array, by dsimp only; omega⟩
    have hwrite := read_write_self hwide s.length vs (Nat.le_refl _)
    dsimp only at hwrite ⊢
    rw [hwrite, List.drop_of_length_le (Nat.le_of_eq hwide.length_read), List.append_nil]
    congr 1
    rw [read, read, List.take_take, Nat.min_eq_left (Nat.le_add_right _ _)]
  · rw [read_alloc_self, List.take_append_of_le_length (by simp; omega),
      List.take_of_length_le (by simp; omega)]

/-- which is within its array. -/
theorem valid_append (hs : h.Valid s) (vs : List β) (zero : β) (spare : ℕ) :
    (h.append s vs zero spare).1.Valid (h.append s vs zero spare).2 := by
  have hread := hs.length_read
  unfold append
  split
  · rename_i hroom
    refine ⟨by rw [length_arrays_write]; exact hs.array, ?_⟩
    dsimp only
    rw [length_cells_write hroom]
    omega
  · exact valid_alloc (by simp; omega)

end SliceHeap

end Distsys
