import Distsys.MapReduce.Basic

/-!
# A JSON stream and a job

An encoder and a decoder that meet the laws of `Json`, to run the model with. A pair is written as
`encoding/json` writes it as long as its strings are printable ASCII without `<`, `>` and `&`. Any
other byte is kept as it is, where `encoding/json` would write an escape sequence or replace it.

## Main definitions

* `Json.plain`
* `Job.letters`, `letterFiles` — a job that counts letters, and its input
-/

namespace Distsys

namespace MapReduce

open GoString

/-- A string between quotes, without the opening one. -/
def quote (s : GoString) : List Byte :=
  s.flatMap (fun b => if b = 34 ∨ b = 92 then [92, b] else [b]) ++ [34]

/-- Read up to the closing quote. -/
def unquote : List Byte → Option (GoString × List Byte)
  | [] => none
  | [b] => if b = 34 then some ([], []) else none
  | b :: c :: rest =>
    if b = 34 then some ([], c :: rest)
    else if b = 92 then (unquote rest).map fun r => (c :: r.1, r.2)
    else (unquote (c :: rest)).map fun r => (b :: r.1, r.2)

/-- Read the given bytes. -/
def expect : List Byte → List Byte → Option (List Byte)
  | [], b => some b
  | _ :: _, [] => none
  | x :: xs, y :: ys => if x = y then expect xs ys else none

theorem unquote_quote (s : GoString) (rest : List Byte) :
    unquote (quote s ++ rest) = some (s, rest) := by
  induction s with
  | nil => cases rest <;> simp [quote, unquote]
  | cons b s ih =>
    have hcons : ∀ c : Byte, c ≠ 34 → c ≠ 92 →
        unquote (c :: (quote s ++ rest)) = some (c :: s, rest) := by
      intro c h₁ h₂
      rcases hq : quote s ++ rest with _ | ⟨d, tail⟩
      · simp [quote] at hq
      · rw [hq] at ih
        simp [unquote, h₁, h₂, ih]
    by_cases hb : b = 34 ∨ b = 92
    · have : quote (b :: s) ++ rest = 92 :: b :: (quote s ++ rest) := by simp [quote, hb]
      rw [this, unquote]
      simp [ih]
    · have : quote (b :: s) ++ rest = b :: (quote s ++ rest) := by simp [quote, hb]
      rw [this]
      exact hcons b (fun h => hb (Or.inl h)) fun h => hb (Or.inr h)

theorem length_unquote {b rest : List Byte} {s : GoString} (h : unquote b = some (s, rest)) :
    rest.length < b.length := by
  fun_induction unquote b generalizing s with
  | case1 => cases h
  | case2 => cases h; simp
  | case3 => cases h
  | case4 => cases h; simp
  | case5 c tail _ ih =>
    obtain ⟨r, hr, heq⟩ := Option.map_eq_some_iff.mp h
    cases heq
    have := ih hr
    simp only [List.length_cons]
    omega
  | case6 b c tail _ _ ih =>
    obtain ⟨r, hr, heq⟩ := Option.map_eq_some_iff.mp h
    cases heq
    have := ih hr
    simp only [List.length_cons] at this ⊢
    omega

theorem expect_append (xs b : List Byte) : expect xs (xs ++ b) = some b := by
  induction xs with
  | nil => rfl
  | cons x xs ih => simp [expect, ih]

theorem length_expect {xs b rest : List Byte} (h : expect xs b = some rest) :
    xs.length + rest.length = b.length := by
  fun_induction expect xs b with
  | case1 => cases h; simp
  | case2 => cases h
  | case3 x xs ys ih =>
    have := ih h
    simp only [List.length_cons]
    omega
  | case4 => cases h

/-- The opening of a pair, up to the quote before the key. -/
def keyPart : List Byte := lit "\x7b\"Key\":\""

/-- What is between the quotes around key and value. -/
def valuePart : List Byte := lit ",\"Value\":\""

/-- The end of a pair. -/
def endPart : List Byte := lit "\x7d\n"

def encodePlain (kv : KeyValue) : List Byte :=
  keyPart ++ (quote kv.key ++ (valuePart ++ (quote kv.value ++ endPart)))

def decodePlain (b : List Byte) : Option (KeyValue × List Byte) := do
  let b ← expect keyPart b
  let (key, b) ← unquote b
  let b ← expect valuePart b
  let (value, b) ← unquote b
  let b ← expect endPart b
  return (⟨key, value⟩, b)

theorem decodePlain_encodePlain (kv : KeyValue) (rest : List Byte) :
    decodePlain (encodePlain kv ++ rest) = some (kv, rest) := by
  simp only [decodePlain, encodePlain, List.append_assoc, expect_append, unquote_quote,
    Option.bind_eq_bind, Option.bind_some, Option.pure_def]

theorem length_decodePlain {b rest : List Byte} {kv : KeyValue}
    (h : decodePlain b = some (kv, rest)) : rest.length < b.length := by
  obtain ⟨b₁, h₁, h⟩ := Option.bind_eq_some_iff.mp h
  obtain ⟨⟨key, b₂⟩, h₂, h⟩ := Option.bind_eq_some_iff.mp h
  obtain ⟨b₃, h₃, h⟩ := Option.bind_eq_some_iff.mp h
  obtain ⟨⟨value, b₄⟩, h₄, h⟩ := Option.bind_eq_some_iff.mp h
  obtain ⟨b₅, h₅, h⟩ := Option.bind_eq_some_iff.mp h
  cases h
  have := length_expect h₁
  have := length_unquote h₂
  have := length_expect h₃
  have := length_unquote h₄
  have := length_expect h₅
  omega

/-- A lawful encoder and decoder. -/
def Json.plain : Json where
  encode := encodePlain
  decode := decodePlain
  text := id
  text_nil := rfl
  decode_nil := by decide +kernel
  decode_encode := decodePlain_encodePlain
  decode_lt := length_decodePlain

example : Json.plain.decodeAll (lit "\x7b\"Key\":\"a\",\"Value\":\"x\"\x7d\n") =
    [⟨lit "a", lit "x"⟩] := by decide +kernel

/-! ### A job

Two files with a few letters, small enough for the kernel to run all tasks on them. -/

/-- How often does each letter occur in the files `a` and `b`? -/
def Job.letters : Job where
  json := Json.plain
  sortSlice := .descending KeyValue.key
  jobName := lit "t"
  files := [lit "a", lit "b"]
  nReduce := 2
  mapF _ contents := contents.map fun c => ⟨[c], lit "1"⟩
  reduceF _ values := itoa values.length

/-- `xyx` in file `a`, `x` in file `b`. -/
def letterFiles : FileSystem := fun name =>
  if name = lit "a" then some (lit "xyx") else if name = lit "b" then some (lit "x") else none

end MapReduce

end Distsys
