import HaloIndex.Transport.Network

namespace HaloIndex

structure Task (α : Type) where
  rank : Nat
  program : Program α

structure Pool (α : Type) where
  network : Network
  tasks : List (Task α)

variable {α : Type}

inductive Program.Continues : Program α → Program α → Prop
  | mk (request : Request) (next : request.Answer → Program α) (answer : request.Answer) :
    Continues (next answer) (.ask request next)

theorem Program.continues_wf : WellFounded (Program.Continues (α := α)) := by
  refine ⟨fun p => ?_⟩
  induction p with
  | done value => exact ⟨_, nofun⟩
  | ask request next ih =>
    refine ⟨_, fun q h => ?_⟩
    cases h with
    | mk _ _ answer => exact ih answer

inductive Advances : List (Task α) → List (Task α) → Prop
  | here {rank : Nat} {p q : Program α} {rest : List (Task α)} (h : Program.Continues q p) :
    Advances (⟨rank, q⟩ :: rest) (⟨rank, p⟩ :: rest)
  | there {t : Task α} {rest rest' : List (Task α)} (h : Advances rest' rest) :
    Advances (t :: rest') (t :: rest)

private theorem acc_cons (rank : Nat) (p : Program α) {rest : List (Task α)}
    (hrest : Acc Advances rest) : Acc Advances (⟨rank, p⟩ :: rest) := by
  induction Program.continues_wf.apply p generalizing rest with
  | intro p _ ihp =>
    induction hrest with
    | intro rest hacc ihrest =>
      refine ⟨_, fun ts h => ?_⟩
      cases h with
      | here hq => exact ihp _ hq ⟨_, hacc⟩
      | there hr => exact ihrest _ hr

theorem advances_wf : WellFounded (Advances (α := α)) := by
  refine ⟨fun ts => ?_⟩
  induction ts with
  | nil => exact ⟨_, nofun⟩
  | cons t rest ih => exact acc_cons t.rank t.program ih

namespace Task

def result? (t : Task α) : Option α :=
  match t.program with
  | .done value => some value
  | .ask _ _ => none

/-- Serve the next request of a task, unless it has finished or must wait. -/
def serve (n : Network) (t : Task α) : Option (Network × Task α) :=
  match t.program with
  | .done _ => none
  | .ask request next =>
    (n.perform t.rank request).map fun (answer, network) => (network, ⟨t.rank, next answer⟩)

def expire (t : Task α) : Task α :=
  match t.program with
  | .done _ => t
  | .ask _ next => ⟨t.rank, next (.error (.timedOut 0))⟩

end Task

namespace Pool

/-- Some task that does not have to wait goes on. -/
inductive Step : Pool α → Pool α → Prop
  | serve {n n' : Network} {before after : List (Task α)} {t t' : Task α}
      (h : t.serve n = some (n', t')) :
    Step ⟨n, before ++ t :: after⟩ ⟨n', before ++ t' :: after⟩

def serveFirst (n : Network) : List (Task α) → Option (Network × List (Task α))
  | [] => none
  | t :: rest =>
    match t.serve n with
    | some (network, t') => some (network, t' :: rest)
    | none => (serveFirst n rest).map fun (network, rest') => (network, t :: rest')

def lowestUnfinished (tasks : List (Task α)) : Option Nat :=
  ((tasks.filter (·.result?.isNone)).map (·.rank)).min?

def expireRank (rank : Nat) : List (Task α) → Option (List (Task α))
  | [] => none
  | t :: rest =>
    if t.rank = rank ∧ t.result?.isNone then some (t.expire :: rest)
    else (expireRank rank rest).map (t :: ·)

/-- One step of a run: serve a task, or let the lowest rank that waits give up. -/
def next (p : Pool α) : Option (Pool α) :=
  match serveFirst p.network p.tasks with
  | some (network, tasks) => some ⟨network, tasks⟩
  | none =>
    ((lowestUnfinished p.tasks).bind (expireRank · p.tasks)).map fun tasks => ⟨p.network, tasks⟩

theorem advances_of_serveFirst {n n' : Network} {tasks tasks' : List (Task α)}
    (h : serveFirst n tasks = some (n', tasks')) : Advances tasks' tasks := by
  induction tasks generalizing n' tasks' with
  | nil => simp [serveFirst] at h
  | cons t rest ih =>
    obtain ⟨rank, program⟩ := t
    unfold serveFirst at h
    split at h
    next network t' hserve =>
      cases h
      cases program with
      | done value => simp [Task.serve] at hserve
      | ask request next =>
        simp only [Task.serve, Option.map_eq_some_iff] at hserve
        obtain ⟨⟨answer, network'⟩, _, hpair⟩ := hserve
        cases hpair
        exact .here ⟨request, next, answer⟩
    next hserve =>
      simp only [Option.map_eq_some_iff] at h
      obtain ⟨⟨network, rest'⟩, hrest, hpair⟩ := h
      cases hpair
      exact .there (ih hrest)

theorem advances_of_expireRank {rank : Nat} {tasks tasks' : List (Task α)}
    (h : expireRank rank tasks = some tasks') : Advances tasks' tasks := by
  induction tasks generalizing tasks' with
  | nil => simp [expireRank] at h
  | cons t rest ih =>
    obtain ⟨owner, program⟩ := t
    unfold expireRank at h
    split at h
    next hfirst =>
      cases h
      cases program with
      | done value => simp [Task.result?] at hfirst
      | ask request next => exact .here ⟨request, next, _⟩
    next =>
      simp only [Option.map_eq_some_iff] at h
      obtain ⟨rest', hrest, rfl⟩ := h
      exact .there (ih hrest)

theorem advances_of_next {p q : Pool α} (h : p.next = some q) : Advances q.tasks p.tasks := by
  unfold next at h
  split at h
  next hserve =>
    cases h
    exact advances_of_serveFirst hserve
  next =>
    simp only [Option.map_eq_some_iff, Option.bind_eq_some_iff] at h
    obtain ⟨tasks, ⟨rank, _, hexpire⟩, rfl⟩ := h
    exact advances_of_expireRank hexpire

def run (p : Pool α) : Pool α :=
  match _h : p.next with
  | some q => run q
  | none => p
termination_by WellFounded.wrap advances_wf p.tasks
decreasing_by exact advances_of_next _h

def results (p : Pool α) : List α := p.tasks.filterMap Task.result?

end Pool

end HaloIndex
