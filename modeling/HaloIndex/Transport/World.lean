import HaloIndex.Transport.Disruption
import HaloIndex.Transport.Schedule

namespace HaloIndex

structure Resident (σ : Type) where
  state : σ
  disruption : Disruption := {}
  waits : Nat := 0

/-- Something a rank does: it ends with an answer and changes what the rank keeps. -/
abbrev Act (σ α : Type) := Resident σ → Program (α × Resident σ)

/-- The ranks and what is on its way between them. A single rank may be without a network. -/
structure World (σ : Type) where
  network : Option Network
  residents : List (Resident σ)

namespace World

variable {σ α : Type}

/-- Do several things in turn, each under the disruption that is in force when it begins. -/
def inTurn : List (Act σ α) → Resident σ → Program (List α × Resident σ)
  | [], r => return ([], r)
  | act :: rest, r => do
    let ((answer, next), waits) ← (act r).disrupted r.disruption r.waits
    let (answers, final) ← inTurn rest { next with waits }
    return (answer :: answers, final)

def settle (w : World σ) (network : Option Network) (ranks : List Nat)
    (after : List (Resident σ)) :
    World σ :=
  ⟨network, (ranks.zip after).foldl (fun all e => all.set e.1 e.2) w.residents⟩

/-- Let several ranks act at the same time. The answers come in the order in which the ranks are
given. -/
def run (w : World σ) (fallback : σ) (acts : List (Nat × List (Act σ α))) :
    List (List α) × World σ :=
  let programs := acts.map fun e => inTurn e.2 (w.residents[e.1]?.getD { state := fallback })
  let ranks := acts.map (·.1)
  match w.network with
  | some network =>
    let pool := (Pool.mk network ((ranks.zip programs).map fun e => ⟨e.1, e.2⟩)).run
    (pool.results.map (·.1), w.settle (some pool.network) ranks (pool.results.map (·.2)))
  | none =>
    let results := programs.map Program.alone
    (results.map (·.1), w.settle none ranks (results.map (·.2)))

end World

end HaloIndex
