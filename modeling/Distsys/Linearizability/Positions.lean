import Mathlib.Algebra.BigOperators.Group.Finset.Piecewise
import Mathlib.Algebra.Order.BigOperators.Group.Finset
import Mathlib.Data.Fintype.Card
import Distsys.Lib.PackedFields
import Distsys.Lib.Store
import Distsys.Linearizability.BitsetSlice

/-!
# Bitsets are finite sets

The memo table of `checkSingle` keeps bitsets while the search goes on to change its own one, so it
depends on both, the positions in a bitset and what is shared.

A program with bitsets of `n` positions is a `Store` here: its memory is a heap of word arrays, its
variables are slices, and its edits are `set` and `clear` at positions below `n`. What it should see
is told by the list of edits that a bitset has received, those of the bitset it was cloned from
included: a position is in the set if the last edit of it was `set`.

`popcnt` counts the bits of a word in fields of 2, 4 and 8 bits, and adds the eight bytes by a
multiplication. This is `toNat_pairSums` three times, and `toNat_fieldSum`.

## Main definitions

* `Bitset.Edit`, `Bitset.operations`, `Bitset.histories`
* `Bitset.LastSet`, `Bitset.positions`
* `Bitset.Represents` — a bitset and a set of positions below `n`

## Main results

* `Bitset.popcntWord_eq_sum`, `Bitset.popcnt_eq_card`
* `Bitset.Represents.edit`
* `Bitset.operations_implement` — bitsets in memory are the lists of their edits
* `Bitset.implements_finite_sets`
-/

namespace Distsys

namespace Linearizability

namespace Bitset

/-! ### `popcnt`

The classic parallel count: pairs of bits, then nibbles, then bytes, and at last the sum of the
bytes in the highest one. That no field overflows on the way is a bound in each of the four lines.
-/

/-- **`popcnt` of a word.** Each line of the loop adds neighbouring fields. -/
theorem popcntWord_eq_sum (v : BitVec 64) :
    popcntWord v = ∑ i ∈ Finset.range 64, (v.getLsbD i).toNat := by
  set f₀ : ℕ → ℕ := fun i => (v.getLsbD i).toNat
  set f₁ : ℕ → ℕ := fun i => f₀ (2 * i) + f₀ (2 * i + 1)
  set f₂ : ℕ → ℕ := fun i => f₁ (2 * i) + f₁ (2 * i + 1)
  set f₃ : ℕ → ℕ := fun i => f₂ (2 * i) + f₂ (2 * i + 1)
  have h₀ : ∀ i, f₀ i ≤ 1 := fun i => Bool.toNat_le _
  have h₁ : ∀ i, f₁ i ≤ 2 := fun i => Nat.add_le_add (h₀ _) (h₀ _)
  have h₂ : ∀ i, f₂ i ≤ 4 := fun i => Nat.add_le_add (h₁ _) (h₁ _)
  have h₃ : ∀ i, f₃ i ≤ 8 := fun i => Nat.add_le_add (h₂ _) (h₂ _)
  have hsum : ∑ i ∈ Finset.range 8, f₃ i = ∑ i ∈ Finset.range 64, f₀ i := by
    rw [← sum_range_pairs 32 f₀, ← sum_range_pairs 16 f₁, ← sum_range_pairs 8 f₂]
  have hlt : ∑ i ∈ Finset.range 8, f₃ i < 2 ^ 8 :=
    (Finset.sum_le_card_nsmul _ _ 8 fun i _ => h₃ i).trans_lt (by simp)
  -- fields of 2, 4 and 8 bits
  have s₁ := toNat_pairSums (w := 1) (k := 32) le_rfl rfl 0x5555555555555555#64
    0xAAAAAAAAAAAAAAAA#64 rfl rfl (toNat_eq_packed v) fun i _ => (h₀ i).trans_lt (by decide)
  have s₂ := toNat_pairSums (w := 2) (k := 16) (by decide) rfl 0x3333333333333333#64
    0xCCCCCCCCCCCCCCCC#64 rfl rfl s₁ fun i _ => (h₁ i).trans_lt (by decide)
  have s₃ := toNat_pairSums (w := 4) (k := 8) (by decide) rfl 0x0F0F0F0F0F0F0F0F#64
    0xF0F0F0F0F0F0F0F0#64 rfl rfl s₂ fun i _ => (h₂ i).trans_lt (by decide)
  have s₄ := toNat_fieldSum (w := 8) (k := 7) rfl 0x0101010101010101#64 rfl s₃ hlt
  rw [← s₄] at hlt
  rw [← hsum, ← s₄]
  exact (BitVec.toNat_and _ _).trans
    ((Nat.and_two_pow_sub_one_eq_mod _ 8).trans (Nat.mod_eq_of_lt hlt))

theorem contains_cons_of_lt (v : BitVec 64) (words : List (BitVec 64)) {p : ℕ} (hp : p < 64) :
    (Bitset.mk (v :: words)).contains p = v.getLsbD p := by
  rw [contains, Nat.div_eq_of_lt hp, Nat.mod_eq_of_lt hp]
  rfl

theorem contains_cons_add (v : BitVec 64) (words : List (BitVec 64)) (p : ℕ) :
    (Bitset.mk (v :: words)).contains (64 + p) = (Bitset.mk words).contains p := by
  rw [contains, contains, Nat.add_div_left p (by decide), Nat.add_mod_left,
    List.getElem?_cons_succ]

theorem popcnt_eq_sum (b : Bitset) :
    b.popcnt = ∑ p ∈ Finset.range (64 * b.words.length), (b.contains p).toNat := by
  obtain ⟨words⟩ := b
  have hloop : ∀ total, words.foldl (fun total v => total + popcntWord v) total =
      total + ∑ p ∈ Finset.range (64 * words.length),
        ((Bitset.mk words).contains p).toNat := by
    induction words with
    | nil => exact fun total => rfl
    | cons v words ih =>
      intro total
      have hfirst : popcntWord v =
          ∑ p ∈ Finset.range 64, ((Bitset.mk (v :: words)).contains p).toNat := by
        rw [popcntWord_eq_sum]
        refine Finset.sum_congr rfl fun p hp => ?_
        rw [contains_cons_of_lt v words (Finset.mem_range.mp hp)]
      rw [List.foldl_cons, ih, hfirst, List.length_cons, Nat.mul_succ, Nat.add_comm _ 64,
        Finset.sum_range_add]
      simp only [contains_cons_add, Nat.add_assoc]
  exact (hloop 0).trans (Nat.zero_add _)

/-- **`popcnt`** counts the positions, whatever the words are. -/
theorem popcnt_eq_card (b : Bitset) :
    b.popcnt = ((Finset.range (64 * b.words.length)).filter fun p => b.contains p = true).card := by
  rw [popcnt_eq_sum, Finset.card_filter]
  refine Finset.sum_congr rfl fun p _ => ?_
  cases b.contains p <;> rfl

/-! ### Edits

The set that a bitset stands for is told by the edits it has received, the oldest first. This does
not mention words, so it can serve as the specification. -/

/-- `set` and `clear` at a position below `n`. -/
inductive Edit (n : ℕ) where
  | set (pos : Fin n)
  | clear (pos : Fin n)
  deriving DecidableEq, Repr

variable {n : ℕ}

def Edit.pos : Edit n → Fin n
  | .set pos => pos
  | .clear pos => pos

def edit (b : Bitset) : Edit n → Option Bitset
  | .set pos => b.set pos
  | .clear pos => b.clear pos

/-- The edits, in memory. -/
def editSlice (m : SliceHeap (BitVec 64)) (b : Slice) :
    Edit n → Option (SliceHeap (BitVec 64) × Slice)
  | .set pos => BitsetSlice.set m b pos
  | .clear pos => BitsetSlice.clear m b pos

/-- The bitsets of `n` positions. -/
def operations (n : ℕ) : Store.Mutable (SliceHeap (BitVec 64)) Slice (Edit n) where
  new := BitsetSlice.new n
  clone := BitsetSlice.clone
  edit := editSlice

/-- What a bitset has been through. -/
def histories (n : ℕ) : Store.Values (List (Edit n)) (Edit n) where
  new := []
  edit es e := some (es ++ [e])

/-- The last edit of `p` was `set`. -/
def LastSet (es : List (Edit n)) (p : Fin n) : Prop :=
  ∃ es₁ es₂, es = es₁ ++ .set p :: es₂ ∧ ∀ e ∈ es₂, e.pos ≠ p

/-- The positions that are in the set after an edit. -/
def Edit.apply (s : Finset (Fin n)) : Edit n → Finset (Fin n)
  | .set pos => insert pos s
  | .clear pos => s.erase pos

def positions (es : List (Edit n)) : Finset (Fin n) := es.foldl Edit.apply ∅

theorem positions_concat (es : List (Edit n)) (e : Edit n) :
    positions (es ++ [e]) = e.apply (positions es) := by
  rw [positions, List.foldl_concat]
  rfl

theorem lastSet_concat {es : List (Edit n)} {e : Edit n} {p : Fin n} :
    LastSet (es ++ [e]) p ↔ e = .set p ∨ e.pos ≠ p ∧ LastSet es p := by
  constructor
  · rintro ⟨es₁, es₂, heq, hlast⟩
    rcases List.eq_nil_or_concat es₂ with rfl | ⟨es₂, e', rfl⟩
    · obtain ⟨_, he⟩ := List.append_inj' heq rfl
      exact Or.inl (List.singleton_inj.mp he)
    · rw [List.concat_eq_append, ← List.cons_append, ← List.append_assoc] at heq
      obtain ⟨rfl, he⟩ := List.append_inj' heq rfl
      cases List.singleton_inj.mp he
      refine Or.inr ⟨hlast e (by simp), es₁, es₂, rfl, fun e' he' => hlast e' ?_⟩
      rw [List.concat_eq_append]
      exact List.mem_append_left _ he'
  · rintro (rfl | ⟨hne, es₁, es₂, rfl, hlast⟩)
    · exact ⟨es, [], rfl, fun e he => absurd he List.not_mem_nil⟩
    · refine ⟨es₁, es₂ ++ [e], by simp, fun e' he' => ?_⟩
      rcases List.mem_append.mp he' with he' | he'
      · exact hlast e' he'
      · rwa [List.mem_singleton.mp he']

theorem mem_positions {es : List (Edit n)} {p : Fin n} : p ∈ positions es ↔ LastSet es p := by
  induction es using List.reverseRecOn with
  | nil =>
    refine iff_of_false (Finset.notMem_empty p) ?_
    rintro ⟨es₁, es₂, heq, _⟩
    simp at heq
  | append_singleton es e ih =>
    rw [positions_concat, lastSet_concat]
    cases e with
    | set pos =>
      rw [Edit.apply, Finset.mem_insert, ih, Edit.set.injEq]
      constructor
      · rintro (rfl | h)
        · exact Or.inl rfl
        · exact (eq_or_ne pos p).imp id fun hne => ⟨hne, h⟩
      · rintro (rfl | ⟨_, h⟩)
        · exact Or.inl rfl
        · exact Or.inr h
    | clear pos =>
      rw [Edit.apply, Finset.mem_erase, ih]
      simp [Edit.pos, ne_comm]

instance (es : List (Edit n)) (p : Fin n) : Decidable (LastSet es p) :=
  decidable_of_iff _ mem_positions

/-! ### Representation

A bitset represents a set of positions below `n` if it has the bits of the set and no others; `n`
need not be a multiple of 64, and bits behind it are never set. -/

/-- A bitset of `newBitset(n)` or its clones with the positions in `s`. -/
structure Represents (b : Bitset) (s : Finset (Fin n)) : Prop where
  size : b.words.length = (new n).words.length
  mem : ∀ p, b.contains p = true ↔ ∃ hp : p < n, ⟨p, hp⟩ ∈ s

namespace Represents

variable {b b' : Bitset} {s s' : Finset (Fin n)}

/-- Positions below `n` are within the words. -/
theorem lt (h : b.Represents s) (p : Fin n) : (p : ℕ) < 64 * b.words.length := by
  rw [h.size]
  exact p.isLt.trans_le (length_new n)

theorem contains_eq (h : b.Represents s) (p : Fin n) : b.contains p = decide (p ∈ s) := by
  rw [Bool.eq_iff_iff, h.mem, decide_eq_true_iff]
  exact ⟨fun ⟨_, hp⟩ => hp, fun hp => ⟨p.isLt, hp⟩⟩

theorem get (h : b.Represents s) (p : Fin n) : b.get p = some (decide (p ∈ s)) := by
  rw [get_eq (h.lt p), h.contains_eq]

theorem new (n : ℕ) : (new n).Represents (∅ : Finset (Fin n)) where
  size := rfl
  mem p := by simp [contains_new]

/-- **Edits do not panic**, and do to the set what they say. -/
theorem edit (h : b.Represents s) (e : Edit n) :
    ∃ b', b.edit e = some b' ∧ b'.Represents (e.apply s) := by
  cases e with
  | set pos =>
    obtain ⟨b', hset, hlen, hb'⟩ := set_spec (h.lt pos)
    refine ⟨b', hset, hlen.trans h.size, fun p => ?_⟩
    rw [hb', Bool.or_eq_true, decide_eq_true_iff, h.mem]
    constructor
    · rintro (rfl | ⟨hp, hmem⟩)
      · exact ⟨pos.isLt, Finset.mem_insert_self _ _⟩
      · exact ⟨hp, Finset.mem_insert_of_mem hmem⟩
    · rintro ⟨hp, hmem⟩
      exact (Finset.mem_insert.mp hmem).imp (congrArg Fin.val) fun hmem => ⟨hp, hmem⟩
  | clear pos =>
    obtain ⟨b', hclear, hlen, hb'⟩ := clear_spec (h.lt pos)
    refine ⟨b', hclear, hlen.trans h.size, fun p => ?_⟩
    rw [hb', Bool.and_eq_true, Bool.not_eq_true', decide_eq_false_iff_not, h.mem]
    constructor
    · rintro ⟨hne, hp, hmem⟩
      exact ⟨hp, Finset.mem_erase.mpr ⟨fun heq => hne (congrArg Fin.val heq), hmem⟩⟩
    · rintro ⟨hp, hmem⟩
      obtain ⟨hne, hmem⟩ := Finset.mem_erase.mp hmem
      exact ⟨fun heq => hne (Fin.ext heq), hp, hmem⟩

theorem equals_iff (h : b.Represents s) (h' : b'.Represents s') :
    b.equals b' = true ↔ ∀ p : Fin n, b.get p = b'.get p := by
  rw [Bitset.equals_iff]
  constructor
  · rintro rfl p
    rfl
  · intro hget
    have hs : s = s' := by
      ext p
      have := hget p
      rwa [h.get, h'.get, Option.some.injEq, decide_eq_decide] at this
    subst hs
    refine eq_of_contains (h.size.trans h'.size.symm) fun p => ?_
    rw [Bool.eq_iff_iff, h.mem, h'.mem]

theorem popcnt (h : b.Represents s) : b.popcnt = s.card := by
  rw [popcnt_eq_card, ← Finset.card_map Fin.valEmbedding]
  congr 1
  ext p
  rw [Finset.mem_filter, Finset.mem_range, h.mem, Finset.mem_map]
  constructor
  · rintro ⟨_, hp, hmem⟩
    exact ⟨⟨p, hp⟩, hmem, rfl⟩
  · rintro ⟨p, hmem, rfl⟩
    exact ⟨h.lt p, p.isLt, hmem⟩

end Represents

/-! ### Programs with bitsets

What was shown of single operations is put together for any program: at each moment, each variable
has the positions that its own edits say, and `popcnt`, `equals` and `get` answer accordingly. -/

/-- What a program sees of a bitset that has received the edits `es`. -/
structure Shows (es : List (Edit n)) (b : Bitset) : Prop where
  get : ∀ p : Fin n, b.get p = some (decide (LastSet es p))
  popcnt : b.popcnt = (Finset.univ.filter (LastSet es)).card

theorem Represents.shows {b : Bitset} {es : List (Edit n)} (h : b.Represents (positions es)) :
    Shows es b where
  get p := by simp only [h.get, mem_positions]
  popcnt := by
    rw [h.popcnt]
    congr 1
    ext p
    simp [mem_positions]

theorem words_editSlice {m : SliceHeap (BitVec 64)} {b : Slice} (hb : m.Valid b) (e : Edit n) :
    (editSlice m b e).map (fun x => BitsetSlice.words x.1 x.2) =
      (BitsetSlice.words m b).edit e := by
  cases e with
  | set pos => exact BitsetSlice.words_set hb
  | clear pos => exact BitsetSlice.words_clear hb

/-- An edit returns its slice, and slices that are apart do not see it. -/
theorem editSlice_frame {m m' : SliceHeap (BitVec 64)} {b b' : Slice} {e : Edit n}
    (hb : m.Valid b) (h : editSlice m b e = some (m', b')) :
    b' = b ∧ m'.Valid b ∧ ∀ q, BitsetSlice.Apart q b → m.Valid q →
      m'.Valid q ∧ BitsetSlice.words m' q = BitsetSlice.words m q := by
  cases e with
  | set pos =>
    obtain ⟨hb', hvalid, _⟩ := BitsetSlice.words_update hb h
    exact ⟨hb', hvalid, fun q hq hqv => BitsetSlice.words_update_of_apart hb h hq hqv⟩
  | clear pos =>
    obtain ⟨hb', hvalid, _⟩ := BitsetSlice.words_update hb h
    exact ⟨hb', hvalid, fun q hq hqv => BitsetSlice.words_update_of_apart hb h hq hqv⟩

/-- The slice has words of its own that stand for the edits `es`. -/
def Stores (m : SliceHeap (BitVec 64)) (b : Slice) (es : List (Edit n)) : Prop :=
  m.Valid b ∧ (BitsetSlice.words m b).Represents (positions es)

/-- **Bitsets in memory are the lists of their edits.** -/
theorem operations_implement (n : ℕ) :
    Store.Implements (operations n) (histories n) Stores BitsetSlice.Apart where
  symm := Ne.symm
  new m := by
    refine ⟨BitsetSlice.valid_new n m, ?_⟩
    rw [operations, BitsetSlice.words_new]
    exact .new n
  new_frame := by
    rintro m q es ⟨hq, hes⟩
    refine ⟨⟨hq.alloc _ _, ?_⟩, BitsetSlice.make_apart hq _⟩
    exact (BitsetSlice.words_make hq _).symm ▸ hes
  clone := by
    rintro m b es ⟨hb, hes⟩
    refine ⟨BitsetSlice.valid_clone m b, ?_⟩
    rwa [operations, BitsetSlice.words_clone hb, clone_eq]
  clone_frame := by
    rintro m b es q es' _ ⟨hq, hes'⟩
    obtain ⟨hq', hwords⟩ := BitsetSlice.words_clone_of_valid b hq
    exact ⟨⟨hq', by rwa [operations, hwords]⟩, BitsetSlice.clone_apart hq b⟩
  edit_none := fun _ h => by cases h
  edit := by
    rintro m b es e es' ⟨hb, hes⟩ h
    cases h
    obtain ⟨b', hedit, hb'⟩ := hes.edit e
    have hwords := words_editSlice hb e
    rw [hedit] at hwords
    obtain ⟨⟨m', r⟩, hslice, rfl⟩ := Option.map_eq_some_iff.mp hwords
    obtain ⟨rfl, hvalid, _⟩ := editSlice_frame hb hslice
    refine ⟨m', r, hslice, hvalid, ?_⟩
    rw [positions_concat]
    exact hb'
  edit_frame := by
    rintro m b es e m' r q es' ⟨hb, _⟩ h hapart ⟨hq, hes'⟩
    obtain ⟨rfl, _, hframe⟩ := editSlice_frame hb h
    obtain ⟨hq', hwords⟩ := hframe q hapart hq
    exact ⟨⟨hq', by rwa [hwords]⟩, hapart⟩

/-- A program with bitsets of `n` positions. -/
def program (n : ℕ) :
    System (Store.State (SliceHeap (BitVec 64)) Slice) (Store.Op (Edit n)) Empty :=
  Store.system (operations n) ⟨[]⟩

/-- A clone keeps the words of its original, whatever is done to other bitsets. -/
theorem clone_keeps {c c' : System.Config (Store.State (SliceHeap (BitVec 64)) Slice) Empty}
    {h : System.Config (List (List (Edit n))) Empty}
    (hR : Store.Related Stores BitsetSlice.Apart c.state h.state) {var : ℕ} {b : Slice}
    {ops : List (Store.Op (Edit n))} (hb : c.state.vars[var]? = some b)
    (hc' : (program n).exec c (.clone var :: ops) = some c')
    (hops : ∀ op ∈ ops, ¬ op.Edits c.state.vars.length) :
    ∃ b', c'.state.vars[c.state.vars.length]? = some b' ∧
      BitsetSlice.words c'.state.memory b' = BitsetSlice.words c.state.memory b := by
  rcases (operations_implement n).exec ⟨[]⟩ (.clone var :: ops) hR with
    ⟨hnone, _⟩ | ⟨c₁, h₁, hc₁, hh₁, hR₁⟩
  · cases hnone.symm.trans hc'
  cases hc₁.symm.trans hc'
  obtain ⟨es, hes, _, hrep⟩ := hR.exists_val hb
  -- the list of edits of the clone is that of the original
  obtain ⟨h₂, hh₂, hrest⟩ := Option.bind_eq_some_iff.mp hh₁
  have hstep := Store.specStep_of_next hh₂
  rw [Store.specStep, hes, Option.map_some] at hstep
  have hclone : h₂.state[c.state.vars.length]? = some es := by
    rw [← Option.some.inj hstep, hR.length, List.getElem?_concat_length]
  obtain ⟨b', hb', _, hrep'⟩ := hR₁.exists_var (Store.unaffected_of_exec hrest hclone hops)
  refine ⟨b', hb', eq_of_contains (hrep'.size.trans hrep.size.symm) fun p => ?_⟩
  rw [Bool.eq_iff_iff, hrep'.mem, hrep.mem]

/-- **The bitset implements finite sets.** In every program with bitsets of `n` positions, whatever
it sets, clears and clones: no access is out of range; `get` is true exactly if the last operation
on the position was `set`, and `popcnt` is the number of such positions; `equals` holds exactly
between bitsets with the same positions; and a clone keeps its words, whatever is done to other
bitsets. And `popcnt` is the number of positions for every list of words. -/
theorem implements_finite_sets (n : ℕ) (ops : List (Store.Op (Edit n)))
    (h : System.Config (List (List (Edit n))) Empty)
    (hh : (Store.spec (histories n)).exec (Store.spec (histories n)).start ops = some h) :
    (∃ c, (program n).exec (program n).start ops = some c ∧
      c.state.vars.length = h.state.length ∧
      (∀ (i : ℕ) (b : Slice) (es : List (Edit n)), c.state.vars[i]? = some b →
        h.state[i]? = some es →
        Shows es (BitsetSlice.words c.state.memory b)) ∧
      (∀ b ∈ c.state.vars, ∀ b' ∈ c.state.vars,
        (BitsetSlice.words c.state.memory b).equals (BitsetSlice.words c.state.memory b') = true ↔
          ∀ p : Fin n, (BitsetSlice.words c.state.memory b).get p =
            (BitsetSlice.words c.state.memory b').get p) ∧
      ∀ (var : ℕ) (b : Slice) ops' c', c.state.vars[var]? = some b →
        (program n).exec c (.clone var :: ops') = some c' →
        (∀ op ∈ ops', ¬ op.Edits c.state.vars.length) →
        ∃ b', c'.state.vars[c.state.vars.length]? = some b' ∧
          BitsetSlice.words c'.state.memory b' = BitsetSlice.words c.state.memory b) ∧
      ∀ b : Bitset, b.popcnt =
        ((Finset.range (64 * b.words.length)).filter fun p => b.get p = some true).card := by
  have hstart : Store.Related Stores BitsetSlice.Apart (program n).start.state
      (Store.spec (histories n)).start.state := by
    refine ⟨rfl, fun hr => ?_, fun _ hr => ?_⟩ <;> cases hr
  rcases (operations_implement n).exec ⟨[]⟩ ops hstart with
    ⟨_, hnone⟩ | ⟨c, h', hc, hh', hR⟩
  · cases hnone.symm.trans hh
  cases hh'.symm.trans hh
  refine ⟨⟨c, hc, hR.length, fun i b es hb hes => (hR.holds hb hes).2.shows, fun b hb b' hb' => ?_,
    fun var b ops' c' hb hc' hops => clone_keeps hR hb hc' hops⟩, fun b => ?_⟩
  · obtain ⟨i, hi⟩ := List.mem_iff_getElem?.mp hb
    obtain ⟨j, hj⟩ := List.mem_iff_getElem?.mp hb'
    obtain ⟨es, _, _, hes⟩ := hR.exists_val hi
    obtain ⟨es', _, _, hes'⟩ := hR.exists_val hj
    exact hes.equals_iff hes'
  · rw [popcnt_eq_card]
    congr 1
    refine Finset.filter_congr fun p hp => ?_
    rw [get_eq (Finset.mem_range.mp hp), Option.some.injEq]

/-- Position `64` is set, the bitset is cloned, and then the position is cleared in the original. -/
def clonedProgram : List (Store.Op (Edit 65)) :=
  [.new, .edit 0 (.set ⟨64, by decide⟩), .clone 0, .edit 0 (.clear ⟨64, by decide⟩)]

/-- It is still in the clone. -/
theorem implements_finite_sets_clonedProgram :
    ∃ c b b', (program 65).exec (program 65).start clonedProgram = some c ∧
      c.state.vars = [b, b'] ∧
      ((BitsetSlice.words c.state.memory b).get 64 = some false ∧
        (BitsetSlice.words c.state.memory b).popcnt = 0) ∧
      ((BitsetSlice.words c.state.memory b').get 64 = some true ∧
        (BitsetSlice.words c.state.memory b').popcnt = 1) ∧
      (BitsetSlice.words c.state.memory b).equals
        (BitsetSlice.words c.state.memory b') = false := by
  obtain ⟨⟨c, hc, hlen, hshows, hequals, _⟩, _⟩ := implements_finite_sets 65 clonedProgram
    ⟨[[.set ⟨64, by decide⟩, .clear ⟨64, by decide⟩], [.set ⟨64, by decide⟩]], []⟩ rfl
  obtain ⟨b, b', hvars⟩ : ∃ b b', c.state.vars = [b, b'] := List.length_eq_two.mp hlen
  have h := hshows 0 b _ (by rw [hvars]; rfl) rfl
  have h' := hshows 1 b' _ (by rw [hvars]; rfl) rfl
  have hget := (h.get ⟨64, by decide⟩).trans (show _ = some false by decide)
  have hget' := (h'.get ⟨64, by decide⟩).trans (show _ = some true by decide)
  refine ⟨c, b, b', hc, hvars, ⟨hget, h.popcnt.trans (by decide +kernel)⟩,
    ⟨hget', h'.popcnt.trans (by decide +kernel)⟩, ?_⟩
  rw [Bool.eq_false_iff, Ne, hequals b (by simp [hvars]) b' (by simp [hvars])]
  intro heq
  cases hget.symm.trans ((heq ⟨64, by decide⟩).trans hget')

end Bitset

end Linearizability

end Distsys
