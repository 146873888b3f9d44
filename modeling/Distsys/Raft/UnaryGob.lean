import Mathlib.Algebra.GroupWithZero.Nat
import Distsys.Raft.Cluster

/-!
# An encoding that meets the contract of `Labgob`

`Labgob` asks for two facts about the encoder, and nothing in the development uses another one. The
encoding below shows that the contract can be met, and is what concrete runs are executed with: a
number is written as that many ones and a zero, and a log is preceded by its length.

## Main definitions

* `Labgob.unary` — a `Labgob` for commands that are natural numbers
* `Cluster.electionRun`, `Cluster.ackRun` — a first election among three peers and a first
  replicated command, on which other runs build
-/

namespace Distsys

namespace UnaryGob

/-- A number as ones closed by a zero. -/
def putNat (k : ℕ) : List UInt8 := List.replicate k 1 ++ [0]

/-- Read a number and return what follows it. -/
def getNat : List UInt8 → Option (ℕ × List UInt8)
  | [] => none
  | b :: bs => if b = 0 then some (0, bs) else (getNat bs).map fun r => (r.1 + 1, r.2)

theorem getNat_putNat (k : ℕ) (bs : List UInt8) : getNat (putNat k ++ bs) = some (k, bs) := by
  induction k with
  | zero => rfl
  | succ k ih =>
    change (if (1 : UInt8) = 0 then some (0, putNat k ++ bs)
      else (getNat (putNat k ++ bs)).map fun r => (r.1 + 1, r.2)) = _
    rw [ih]
    rfl

/-- A vote as a number, `0` for none. -/
def putVote {n : ℕ} (v : Option (Fin n)) : List UInt8 := putNat (v.elim 0 fun p => p + 1)

/-- The vote a number stands for; a number past the last peer stands for none. -/
def ofVote (n k : ℕ) : Option (Fin n) := if h : 0 < k ∧ k - 1 < n then some ⟨k - 1, h.2⟩ else none

theorem ofVote_elim {n : ℕ} (v : Option (Fin n)) :
    ofVote n (v.elim 0 fun p => (p : ℕ) + 1) = v := by
  cases v with
  | none => rfl
  | some p => simp [ofVote]

/-- The entries of a log, one after the other. -/
def putEntries : List (LogEntry ℕ) → List UInt8
  | [] => []
  | e :: l => putNat e.term ++ (putNat e.data ++ putEntries l)

/-- Read `k` entries. -/
def getEntries : ℕ → List UInt8 → Option (List (LogEntry ℕ))
  | 0, _ => some []
  | k + 1, bs => do
    let (term, bs) ← getNat bs
    let (data, bs) ← getNat bs
    let l ← getEntries k bs
    return ⟨term, data⟩ :: l

theorem getEntries_putEntries (l : List (LogEntry ℕ)) :
    getEntries l.length (putEntries l) = some l := by
  induction l with
  | nil => rfl
  | cons e l ih => simp [getEntries, putEntries, getNat_putNat, ih]

end UnaryGob

open UnaryGob in
/-- A `Labgob` for commands that are natural numbers. -/
def Labgob.unary (n : ℕ) : Labgob n ℕ where
  encode t v l := putNat t ++ (putVote v ++ (putNat l.length ++ putEntries l))
  decode bs := do
    let (t, bs) ← getNat bs
    let (v, bs) ← getNat bs
    let (k, bs) ← getNat bs
    let l ← getEntries k bs
    return (t, ofVote n v, l)
  decode_encode t v l := by
    simp [putVote, getNat_putNat, getEntries_putEntries, ofVote_elim]
  encode_ne_nil t v l := by simp [putNat]

namespace Cluster

/-- The concrete runs are runs of three peers. -/
instance threePeers : NeZero 3 :=
  ⟨Nat.succ_ne_zero 2⟩

/-- Three peers start. Peer `0` stands for term `1`, peer `1` votes for it, peer `0` becomes leader
and sends its first heartbeat. The `RequestVote` to peer `2` stays in flight. -/
def electionRun : List (Action 3 ℕ) :=
  [.make 0, .make 1, .make 2, .run 0 0, .timeout 0 0, .run 0 0, .run 0 0, .deliver 0, .run 1 1,
    .run 1 1, .run 1 1, .deliver 1, .run 0 2, .run 0 2, .run 0 0, .run 0 1, .run 0 1, .run 0 1,
    .run 0 1, .run 0 1]

/-- After `electionRun`, `Start(7)` at peer `0` is replicated to peer `1` by the second heartbeat
and committed by peer `0`. Both requests of the first heartbeat, which carry no entries, stay in
flight. -/
def ackRun : List (Action 3 ℕ) :=
  electionRun ++ [.start 0 7, .run 0 1, .run 0 3, .deliver 3, .run 1 1, .run 1 1, .deliver 4,
    .run 0 3]

/-- Read a fact off the end of a run. -/
theorem exists_of_exec {n : ℕ} (gob : Labgob n ℕ) (as : List (Action n ℕ))
    (f : System.Config (Cluster n ℕ) (Event n ℕ) → Bool)
    (h : ((system gob).exec (system gob).start as).any f = true) :
    ∃ c, (system gob).exec (system gob).start as = some c ∧ f c = true :=
  (Option.any_eq_true f _).mp h

/-- The same for a run that meets a guard. -/
theorem exists_of_execOk {n : ℕ} (gob : Labgob n ℕ) (as : List (Action n ℕ))
    (ok : System.Config (Cluster n ℕ) (Event n ℕ) → Action n ℕ → Prop)
    [∀ c a, Decidable (ok c a)] (f : System.Config (Cluster n ℕ) (Event n ℕ) → Bool)
    (h : ((system gob).execOk ok (system gob).start as).any f = true) :
    ∃ c, (system gob).Reachable ok c ∧ f c = true := by
  obtain ⟨c, hc, hf⟩ := System.exists_path_of_execOk _ as ok f h
  exact ⟨c, hc.reaches, hf⟩

end Cluster

/-- `f` holds of the struct of a peer that is up. -/
def Node.check {n : ℕ} {α : Type} (f : Raft n α → Bool) : Node n α → Bool
  | .down _ => false
  | .up rf _ => f rf

theorem Node.exists_of_check {n : ℕ} {α : Type} {f : Raft n α → Bool} {nd : Node n α}
    (h : nd.check f = true) : ∃ rf gs, nd = .up rf gs ∧ f rf = true := by
  cases nd with
  | down persister => cases h
  | up rf gs => exact ⟨rf, gs, rfl, h⟩

/-- The same for two peers, with what is checked read back. -/
theorem Node.exists_of_checks {n : ℕ} {α : Type} {P Q : Raft n α → Prop} [DecidablePred P]
    [DecidablePred Q] {nd nd' : Node n α}
    (h : (nd.check (fun rf => decide (P rf)) && nd'.check fun rf => decide (Q rf)) = true) :
    ∃ rf rf' gs gs', nd = .up rf gs ∧ nd' = .up rf' gs' ∧ P rf ∧ Q rf' := by
  rw [Bool.and_eq_true] at h
  obtain ⟨rf, gs, hnd, hP⟩ := Node.exists_of_check h.1
  obtain ⟨rf', gs', hnd', hQ⟩ := Node.exists_of_check h.2
  exact ⟨rf, rf', gs, gs', hnd, hnd', of_decide_eq_true hP, of_decide_eq_true hQ⟩

end Distsys
