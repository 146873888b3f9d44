import Distsys.Lib.GoStd

/-!
# Text

What programs take from `unicode/utf8`, `strings` and `strconv`. A `range` over a string visits its
runes; bytes that are not valid UTF-8 are visited one by one, as the rune `U+FFFD`. The predicates
of package `unicode` are tables, so a function that uses one takes it as a parameter.

## Main definitions

* `GoString.decodeRune`, `GoString.runes`, `GoString.fieldsFunc`
* `GoString.atoi`, `GoString.itoaInt`, `GoString.join`, `wrap64`

## Main results

* `GoString.flatMap_runes` — the runes of a string are all of it
-/

namespace Distsys

/-- A sum of two values of type `int`. -/
def wrap64 (n : ℤ) : ℤ := n.bmod (2 ^ 64)

theorem wrap64_wrap64_add (m n : ℤ) : wrap64 (wrap64 m + n) = wrap64 (m + n) :=
  Int.bmod_add_bmod

namespace GoString

/-! ### Runes

`decodeRune` has the table of well-formed sequences of package `utf8`: overlong forms, surrogates
and numbers past `U+10FFFF` are not well formed, and of a sequence that is not well formed one byte
is taken. The loop of a `range` has fuel, and the length of the string is enough. -/

/-- A continuation byte. -/
def isContinuation (b : Byte) : Bool := 128 ≤ b.val && b.val < 192

/-- The six bits of a continuation byte. -/
def payload (b : Byte) : ℕ := b.val - 128

/-- Which second bytes there are behind the first byte of three or four. -/
def isSecond (b₀ b₁ : Byte) : Bool :=
  isContinuation b₁ &&
    (b₀.val ≠ 0xE0 || 0xA0 ≤ b₁.val) && (b₀.val ≠ 0xED || b₁.val < 0xA0) &&
    (b₀.val ≠ 0xF0 || 0x90 ≤ b₁.val) && (b₀.val ≠ 0xF4 || b₁.val < 0x90)

/-- `utf8.DecodeRuneInString`: the first rune, and the number of its bytes. -/
def decodeRune : GoString → ℕ × ℕ
  | [] => (0xFFFD, 0)
  | b₀ :: s =>
    if b₀.val < 0x80 then (b₀.val, 1)
    else if 0xC2 ≤ b₀.val ∧ b₀.val < 0xE0 then
      match s with
      | b₁ :: _ =>
        if isContinuation b₁ then ((b₀.val - 0xC0) * 64 + payload b₁, 2) else (0xFFFD, 1)
      | _ => (0xFFFD, 1)
    else if 0xE0 ≤ b₀.val ∧ b₀.val < 0xF0 then
      match s with
      | b₁ :: b₂ :: _ =>
        if isSecond b₀ b₁ && isContinuation b₂ then
          ((b₀.val - 0xE0) * 64 ^ 2 + payload b₁ * 64 + payload b₂, 3)
        else (0xFFFD, 1)
      | _ => (0xFFFD, 1)
    else if 0xF0 ≤ b₀.val ∧ b₀.val < 0xF5 then
      match s with
      | b₁ :: b₂ :: b₃ :: _ =>
        if isSecond b₀ b₁ && isContinuation b₂ && isContinuation b₃ then
          ((b₀.val - 0xF0) * 64 ^ 3 + payload b₁ * 64 ^ 2 + payload b₂ * 64 + payload b₃, 4)
        else (0xFFFD, 1)
      | _ => (0xFFFD, 1)
    else (0xFFFD, 1)

/-- Every rune has a byte. -/
theorem decodeRune_pos {s : GoString} (h : s ≠ []) : 0 < (decodeRune s).2 := by
  unfold decodeRune
  repeat' split
  all_goals simp_all

/-- The loop of a `range` over a string, with a bound on its rounds. -/
def runesLoop : ℕ → GoString → List (ℕ × GoString)
  | 0, _ => []
  | fuel + 1, s =>
    if s = [] then []
    else
      let (rune, width) := decodeRune s
      (rune, s.take width) :: runesLoop fuel (s.drop width)

/-- The runes of a string, each with its bytes. -/
def runes (s : GoString) : List (ℕ × GoString) := runesLoop s.length s

theorem flatMap_runesLoop {fuel : ℕ} {s : GoString} (h : s.length ≤ fuel) :
    (runesLoop fuel s).flatMap Prod.snd = s := by
  induction fuel generalizing s with
  | zero => rw [List.length_eq_zero_iff.mp (Nat.le_zero.mp h)]; rfl
  | succ fuel ih =>
    rw [runesLoop]
    split
    · rename_i hs
      exact hs.symm
    · rename_i hs
      have hpos := decodeRune_pos hs
      rw [List.flatMap_cons, ih (by rw [List.length_drop]; omega), List.take_append_drop]

/-- The runes of a string are all of it. -/
theorem flatMap_runes (s : GoString) : (runes s).flatMap Prod.snd = s :=
  flatMap_runesLoop (le_refl _)

/-! ### Fields -/

/-- The loop of `strings.FieldsFunc`, with the field it is in; `[]` if it is in none. -/
def fieldsLoop (f : ℕ → Bool) : GoString → List (ℕ × GoString) → List GoString
  | field, [] => if field = [] then [] else [field]
  | field, (rune, bytes) :: rest =>
    if f rune then
      if field = [] then fieldsLoop f [] rest else field :: fieldsLoop f [] rest
    else fieldsLoop f (field ++ bytes) rest

/-- `strings.FieldsFunc`. -/
def fieldsFunc (s : GoString) (f : ℕ → Bool) : List GoString := fieldsLoop f [] (runes s)

/-! ### Numbers -/

/-- The value of a string of digits; `none` if it is empty or has another byte. -/
def decimal (s : GoString) : Option ℕ :=
  if s ≠ [] ∧ ∀ b ∈ s, 48 ≤ b.val ∧ b.val < 58 then
    some (s.foldl (fun n b => 10 * n + (b.val - 48)) 0)
  else none

/-- `strconv.Atoi`; `none` is an error. -/
def atoi (s : GoString) : Option ℤ :=
  match s with
  | [] => none
  | b :: digits =>
    if b.val = 45 then
      (decimal digits).bind fun n => if n ≤ 2 ^ 63 then some (-n) else none
    else
      (decimal (if b.val = 43 then digits else s)).bind fun n => if n < 2 ^ 63 then some n else none

/-- `strconv.Itoa`. -/
def itoaInt (n : ℤ) : GoString := if n < 0 then lit "-" ++ itoa n.natAbs else itoa n.natAbs

/-- `strings.Join`. -/
def join (l : List GoString) (sep : GoString) : GoString := sep.intercalate l

end GoString

end Distsys
