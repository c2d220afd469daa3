import HaloIndex.Transport.Program

namespace HaloIndex

/-- The ranks for which each kind of failure is injected. -/
structure Disruption where
  failPost : Option Nat := none
  failWait : Option Nat := none
  cutFrom : Option Nat := none
  deriving DecidableEq

/-- A program under a disruption. It also ends with the number of handles it waited for, failures
included, on top of `waits`. -/
def Program.disrupted {α : Type} (d : Disruption) (waits : Nat) : Program α → Program (α × Nat)
  | .done value => .done (value, waits)
  | .ask (.post peer tag payload) next =>
    if d.failPost = some peer then
      (next (.error (.communication peer "injected send failure"))).disrupted d waits
    else .ask (.post peer tag payload) fun answer => (next answer).disrupted d waits
  | .ask (.wait handle) next =>
    .ask (.wait handle) fun answer =>
      let seen := if d.failWait = some handle.peer then
        .error (.communication handle.peer "injected wait failure") else answer
      (next seen).disrupted d (waits + 1)
  | .ask (.receive source tag) next =>
    .ask (.receive source tag) fun answer =>
      let seen := if d.cutFrom = some source then answer.map List.dropLast else answer
      (next seen).disrupted d waits
  | .ask (.probe source tag) next =>
    .ask (.probe source tag) fun answer => (next answer).disrupted d waits
  | .ask .queued next => .ask .queued fun answer => (next answer).disrupted d waits

end HaloIndex
