import HaloIndex.IndexSet.Resize
import Mathlib.Data.Finset.Card
import Mathlib.Data.Finset.Lattice.Fold
import Mathlib.Data.Finset.Option
import Mathlib.Data.Finset.Union
import Mathlib.Order.Lattice.Nat

namespace HaloIndex

inductive Call (G A : Type) where
  | beginResize
  /-- The slot is the caller's choice, if there is one. -/
  | add (key : Key G A) (isPublic : Bool) (slot : Option Nat)
  | deleteAt (position : Nat)
  | deleteGlobal (globalId : G)
  | commit
  | renumber
  deriving DecidableEq

structure Entry (G A : Type) where
  key : Key G A
  slot : Nat
  isPublic : Bool
  deriving DecidableEq

structure Ledger (G A : Type) where
  stable : Finset (Entry G A) := ∅
  doomed : Finset (Key G A) := ∅
  waiting : Finset (Addition G A) := ∅
  phase : Phase := .ground
  revision : Nat := 0
  deriving DecidableEq

section Replay

variable {G A σ τ : Type}

/-- Make several calls in turn. A call may answer with a count; the calls after one that is
refused are made all the same. -/
def replay (step : σ → Call G A → Except Fault (Option Nat) × σ) (s : σ) :
    List (Call G A) → List (Except Fault (Option Nat)) × σ
  | [] => ([], s)
  | call :: rest =>
    let (answer, next) := step s call
    let (answers, final) := replay step next rest
    (answer :: answers, final)

variable {step : σ → Call G A → Except Fault (Option Nat) × σ}
  {step' : τ → Call G A → Except Fault (Option Nat) × τ} {view : σ → τ} {inv : σ → Prop}

theorem replay_invariant (hinv : ∀ s call, inv s → inv (step s call).2) {s : σ} (hs : inv s)
    (calls : List (Call G A)) : inv (replay step s calls).2 := by
  induction calls generalizing s with
  | nil => exact hs
  | cons call calls ih => exact ih (hinv s call hs)

theorem replay_view (hinv : ∀ s call, inv s → inv (step s call).2)
    (hview : ∀ s call, inv s → step' (view s) call = ((step s call).1, view (step s call).2))
    {s : σ} (hs : inv s) (calls : List (Call G A)) :
    replay step' (view s) calls = ((replay step s calls).1, view (replay step s calls).2) := by
  induction calls generalizing s with
  | nil => rfl
  | cons call calls ih => simp only [replay, hview s call hs, ih (hinv s call hs)]

theorem replay_append (s : σ) (calls rest : List (Call G A)) : replay step s (calls ++ rest) =
    ((replay step s calls).1 ++ (replay step (replay step s calls).2 rest).1,
      (replay step (replay step s calls).2 rest).2) := by
  induction calls generalizing s with
  | nil => rfl
  | cons call calls ih => simp only [List.cons_append, replay, ih]

end Replay

namespace Ledger

variable {G A : Type}

def require (m : Ledger G A) (operation : String) (expected : Phase) : Except Fault Unit :=
  if m.phase = expected then .ok () else .error (.wrongPhase operation expected m.phase)

variable [DecidableEq G] [DecidableEq A]

def keys (m : Ledger G A) : Finset (Key G A) := m.stable.image Entry.key

def live (m : Ledger G A) : Finset (Entry G A) := m.stable.filter (·.key ∉ m.doomed)

def liveKeys (m : Ledger G A) : Finset (Key G A) := m.keys \ m.doomed

def pending (m : Ledger G A) : Finset (Key G A) := m.waiting.image Addition.key

def slots (m : Ledger G A) : Finset Nat :=
  m.live.image Entry.slot ∪ m.waiting.biUnion (·.slot.toFinset)

def nextSlot (m : Ledger G A) : Nat := m.slots.sup (· + 1) % UInt64.size

/-- Both halves are maps, the waiting keys are none of the live ones, and only an open window has
doomed or waiting keys. -/
structure Sound (m : Ledger G A) : Prop where
  stable : ∀ e ∈ m.stable, ∀ e' ∈ m.stable, e.key = e'.key → e = e'
  waiting : ∀ a ∈ m.waiting, ∀ a' ∈ m.waiting, a.key = a'.key → a = a'
  doomed : m.doomed ⊆ m.keys
  disjoint : Disjoint m.pending m.liveKeys
  settled : m.phase = .ground → m.doomed = ∅ ∧ m.waiting = ∅

variable [LT G] [LT A] [DecidableLT G] [DecidableLT A]

def below (keys : Finset (Key G A)) (key : Key G A) : Nat := (keys.filter (· < key)).card

/-- The entry an addition becomes. Those without a slot are numbered in the order of their
keys. -/
def entryFor (m : Ledger G A) (a : Addition G A) : Entry G A :=
  let unplaced := (m.waiting.filter (·.slot = none)).image Addition.key
  ⟨a.key, a.slot.getD ((m.nextSlot + below unplaced a.key) % UInt64.size), a.isPublic⟩

variable [Scalar G] [Role A]

def step (m : Ledger G A) : Call G A → Except Fault (Option Nat) × Ledger G A
  | .beginResize =>
    afterCheck (m.require "begin_resize" .ground) m (.ok none, { m with phase := .resize })
  | .add key isPublic slot =>
    afterCheck (m.require "add" .resize) m <|
      if key ∈ m.liveKeys ∪ m.pending then (.error (.duplicateKey key.text), m)
      else (.ok none, { m with waiting := insert ⟨key, slot, isPublic⟩ m.waiting })
  | .deleteAt position =>
    afterCheck (m.require "mark_as_deleted" .resize) m <|
      if position < m.keys.card then
        let named := m.keys.filter (below m.keys · = position)
        (.ok none, { m with doomed := m.doomed ∪ named })
      else (.error (.outOfRange position m.keys.card), m)
  | .deleteGlobal globalId =>
    afterCheck (m.require "mark_global_deleted" .resize) m <|
      let named := m.keys.filter (·.globalId = globalId)
      (.ok (some (named \ m.doomed).card), { m with doomed := m.doomed ∪ named })
  | .commit =>
    afterCheck (m.require "end_resize" .resize) m <|
      let stable := m.live ∪ m.waiting.image m.entryFor
      (.ok none, { stable, phase := .ground, revision := m.revision + 1 })
  | .renumber =>
    afterCheck (m.require "renumber_local" .ground) m
      (.ok none, { m with
        stable := m.stable.image fun e => { e with slot := below m.keys e.key } })

end Ledger

end HaloIndex
